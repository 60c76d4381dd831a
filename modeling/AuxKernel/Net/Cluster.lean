import AuxKernel.Basic
import AuxKernel.System
import Mathlib.Logic.Function.Basic

/-!
# Mbufs and clusters

The allocation of mbufs and of the clusters their data may be in
(`NET/sys/uipc_mbuf.c`, `sys/mbuf.h`), and what the calls on chains of them do to
`m_off` and `m_len`. A cluster is shared by the mbufs that `mcldup` makes; it is free
when `mclrefcnt` of it is 0. The cluster of an mbuf is found by its data pointer.

The mbufs of a chain are a list; the chains that are in use are what the kernel holds
pointers to. The data themselves do not matter here. `none` is a panic, or a `bcopy`
of a negative length.
-/

namespace AuxKernel.Net.Cluster

def MMINOFF : ℤ := 12
def MMAXOFF : ℤ := 252
/-- The length of the data an mbuf has room for. -/
def MLEN : ℤ := 240
def MCLBYTES : ℤ := 1024
def NMBCLUSTERS : ℤ := 32
/-- The length for `m_copy` to copy all. -/
def M_COPYALL : ℤ := 1000000000

/-- Where the data of an mbuf are: in the mbuf; in a cluster (`m_cltype` is 1); or in an
    area of someone else (2). -/
inductive Place
  | inside
  | cluster
  | funny
  deriving DecidableEq

/-- An mbuf. The data of one with a cluster are `m_off` past `mbufclusterstart`, those of
    the others `m_off` past the mbuf or the area. -/
structure Mbuf where
  place : Place
  m_off : ℤ
  m_len : ℤ
  deriving DecidableEq

namespace Mbuf

/-- The data are not in the mbuf: `m_off > MSIZE`, and `m_off > MMAXOFF`. -/
def ext (m : Mbuf) : Bool := m.place ≠ .inside

/-- The cluster at the data pointer (`mtoclx`). -/
def mtoclx (m : Mbuf) : ℤ := m.m_off / MCLBYTES

/-- The data lie in the cluster `c`. -/
def refersTo (c : ℤ) (m : Mbuf) : Bool := m.place = .cluster ∧ m.mtoclx = c

/-- Take `count` bytes off the front. -/
def advance (m : Mbuf) (count : ℤ) : Mbuf :=
  { m with m_off := m.m_off + count, m_len := m.m_len - count }

end Mbuf

/-- The mbufs that are free, the list of free clusters, and the counts of references. -/
structure Pool where
  m_mbfree : ℕ
  mclfree : List ℤ
  mclrefcnt : ℤ → ℤ

namespace Pool

variable (p : Pool)

/-- Take an mbuf, if one is free. -/
def MGET : Option Pool :=
  if p.m_mbfree = 0 then none else some { p with m_mbfree := p.m_mbfree - 1 }

/-- Give up the cluster `c`. -/
def mclput (c : ℤ) : Pool :=
  let count := toChar (p.mclrefcnt c - 1)
  { p with
    mclrefcnt := Function.update p.mclrefcnt c count
    mclfree := if count = 0 then c :: p.mclfree else p.mclfree }

/-- Free an mbuf. -/
def MFREE (m : Mbuf) : Pool :=
  let p := { p with m_mbfree := p.m_mbfree + 1 }
  if m.place = .cluster then p.mclput m.mtoclx else p

/-- Free a chain. -/
def m_freem (p : Pool) : List Mbuf → Pool
  | [] => p
  | m :: l => m_freem (p.MFREE m) l

/-- Give `m` a cluster, if one is free. -/
def mclget (m : Mbuf) : Pool × Mbuf :=
  match p.mclfree with
  | [] => (p, m)
  | c :: mclfree =>
    ({ p with
      mclfree := mclfree
      mclrefcnt := Function.update p.mclrefcnt c (toChar (p.mclrefcnt c + 1)) },
      ⟨.cluster, c * MCLBYTES, MCLBYTES⟩)

/-- Duplicate the data pointer of `m` into `n`, for a copy from `off` on. -/
def mcldup (m n : Mbuf) (off : ℤ) : Option (Pool × Mbuf) :=
  match m.place with
  | .inside => none
  | .cluster =>
    some ({ p with
      mclrefcnt := Function.update p.mclrefcnt m.mtoclx (toChar (p.mclrefcnt m.mtoclx + 1)) },
      { n with place := .cluster, m_off := m.m_off })
  | .funny => some (p, { n with place := .funny, m_off := -off })

/-- Copy from `m` into a new mbuf: `len` bytes, from `off` on. -/
def copy1 (m : Mbuf) (off len : ℤ) : Option (Pool × Mbuf) :=
  let n : Mbuf := ⟨.inside, MMINOFF, toShort (min len (m.m_len - off))⟩
  if m.ext ∧ n.m_len > MLEN then
    (p.mcldup m n off).map fun r => (r.1, { r.2 with m_off := r.2.m_off + off })
  else if n.m_len < 0 then none
  else some (p, n)

/-- Copy `len` bytes of a chain, from `off` in its first mbuf on; and whether there were
    enough mbufs. -/
def copyLoop (p : Pool) (off len : ℤ) : List Mbuf → Option (Pool × List Mbuf × Bool)
  | [] => if len > 0 ∧ len ≠ M_COPYALL then none else some (p, [], true)
  | m :: l =>
    if len ≤ 0 then some (p, [], true)
    else
      match p.MGET with
      | none => some (p, [], false)
      | some p =>
        match p.copy1 m off len with
        | none => none
        | some (p, n) =>
          (copyLoop p 0 (if len = M_COPYALL then len else len - n.m_len) l).map fun r =>
            (r.1, n :: r.2.1, r.2.2)

/-- Find the mbuf at `off`. -/
def skip (off : ℤ) : List Mbuf → Option (ℤ × List Mbuf)
  | [] => if off > 0 then none else some (off, [])
  | m :: l => if off ≤ 0 ∨ off < m.m_len then some (off, m :: l) else skip (off - m.m_len) l

def m_copy (off len : ℤ) (l : List Mbuf) : Option (Pool × List Mbuf) :=
  if len = 0 then some (p, [])
  else if off < 0 ∨ len < 0 ∨ l = [] then none
  else
    match skip off l with
    | none => none
    | some (off, l) =>
      (p.copyLoop off len l).map fun r => if r.2.2 then (r.1, r.2.1) else (r.1.m_freem r.2.1, [])

/-- Append the chain to `m`, with its data if they fit. -/
def splat (p : Pool) (m : Mbuf) : List Mbuf → Option (Pool × List Mbuf)
  | [] => some (p, [m])
  | n :: l =>
    if m.ext ∨ m.m_off ≥ MMAXOFF ∨ (m.m_off + m.m_len + n.m_len) % 2 ^ 32 > MMAXOFF then
      some (p, m :: n :: l)
    else if n.m_len < 0 then none
    else splat (p.MFREE n) { m with m_len := toShort (m.m_len + n.m_len) } l

def m_cat (p : Pool) : List Mbuf → (n : List Mbuf) → Option (Pool × List Mbuf)
  | [], _ => none
  | [m], n => p.splat m n
  | m :: m' :: l, n => (m_cat p (m' :: l) n).map fun r => (r.1, m :: r.2)

/-- What the loop of `m_pullup` has done: the data copied, those left to copy, and the
    rest of the chain. -/
structure Pull where
  pool : Pool
  m_len : ℤ
  len : ℤ
  n : List Mbuf

/-- Copy up to `len` bytes to an mbuf that has `m_len`, and free what is used up. -/
def pullLoop (p : Pool) (m_len len : ℤ) : List Mbuf → Pull
  | [] => ⟨p, m_len, len, []⟩
  | n :: l =>
    let count := min (min (MLEN - m_len) len) n.m_len
    let n' := if count > 0 then n.advance count else n
    let m_len' := if count > 0 then m_len + count else m_len
    let len' := if count > 0 then len - count else len
    if n'.m_len > 0 then ⟨p, m_len', len', n' :: l⟩ else pullLoop (p.MFREE n') m_len' len' l

def m_pullup (len : ℤ) (l : List Mbuf) : Option (Pool × List Mbuf) :=
  if len > MLEN then some (p.m_freem l, [])
  else if l = [] then none
  else
    match p.MGET with
    | none => some (p.m_freem l, [])
    | some p =>
      let r := p.pullLoop 0 len l
      let m : Mbuf := ⟨.inside, MMINOFF, r.m_len⟩
      if r.len ≠ 0 then some ((r.pool.MFREE m).m_freem r.n, []) else some (r.pool, m :: r.n)

end Pool

/-- Trim `len` bytes from the front. -/
def adjFront (len : ℤ) : List Mbuf → List Mbuf
  | [] => []
  | m :: l =>
    if len ≤ 0 then m :: l
    else if m.m_len ≤ len then { m with m_len := 0 } :: adjFront (len - m.m_len) l
    else m.advance len :: l

/-- The length of a chain. -/
def length (l : List Mbuf) : ℤ := (l.map Mbuf.m_len).sum

/-- Truncate a chain to `count` bytes. -/
def truncate (count : ℤ) : List Mbuf → List Mbuf
  | [] => []
  | m :: l =>
    if m.m_len ≥ count then
      { m with m_len := toShort count } :: l.map fun m => { m with m_len := 0 }
    else m :: truncate (count - m.m_len) l

/-- Trim `len` bytes from the tail. -/
def adjTail (len : ℤ) (l : List Mbuf) : List Mbuf :=
  match l.getLast? with
  | none => []
  | some m =>
    if m.m_len ≥ len then l.dropLast ++ [{ m with m_len := m.m_len - len }]
    else truncate (length l - len) l

def m_adj (len : ℤ) (l : List Mbuf) : List Mbuf :=
  if len ≥ 0 then adjFront len l else adjTail (-len) l

/-! ## The machine -/

/-- The pool, and the chains in use. -/
structure State where
  pool : Pool
  chains : List (List Mbuf)

/-- The mbufs in use. -/
def State.live (s : State) : List Mbuf := s.chains.flatten

/-- Take a chain. -/
def State.take (s : State) (i : ℕ) : Option (List Mbuf × List (List Mbuf)) :=
  s.chains[i]?.map fun l => (l, s.chains.eraseIdx i)

/-- The calls, on the chain `i`. An mbuf that is got has `m_len` bytes put at `m_off`, or
    those of `mclgetx`; `mclget` is for its mbuf `j`; `mcldup` copies `len` bytes of its mbuf
    `j` into a new mbuf. -/
inductive Act
  | m_get (m_off m_len : ℤ)
  | mclgetx (m_len : ℤ)
  | mclget (i j : ℕ)
  | mcldup (i j : ℕ) (off len : ℤ)
  | m_copy (i : ℕ) (off len : ℤ)
  | m_adj (i : ℕ) (len : ℤ)
  | m_pullup (i : ℕ) (len : ℤ)
  | m_cat (i j : ℕ)
  | m_free (i : ℕ)
  | m_freem (i : ℕ)

/-- Mbufs and clusters in use, from their initialization on. -/
def allocation : Machine State Act where
  init s :=
    s.chains = [] ∧ s.pool.mclrefcnt = (fun _ => 0) ∧
      s.pool.mclfree = [31, 30, 29, 28, 27, 26, 25, 24, 23, 22, 21, 20, 19, 18, 17, 16, 15, 14,
        13, 12, 11, 10, 9, 8, 7, 6, 5, 4, 3, 2, 1, 0]
  next s
    | .m_get m_off m_len =>
      s.pool.MGET.map fun p => ⟨p, [⟨.inside, m_off, m_len⟩] :: s.chains⟩
    | .mclgetx m_len => s.pool.MGET.map fun p => ⟨p, [⟨.funny, 0, m_len⟩] :: s.chains⟩
    | .mclget i j =>
      (s.take i).bind fun (l, chains) => l[j]?.map fun m =>
        ⟨(s.pool.mclget m).1, l.set j (s.pool.mclget m).2 :: chains⟩
    | .mcldup i j off len =>
      (s.chains[i]?.bind (·[j]?)).bind fun m => s.pool.MGET.bind fun p =>
        (p.mcldup m ⟨.inside, MMINOFF, len⟩ off).map fun r =>
          ⟨r.1, [{ r.2 with m_off := r.2.m_off + off }] :: s.chains⟩
    | .m_copy i off len =>
      s.chains[i]?.bind fun l => (s.pool.m_copy off len l).map fun r => ⟨r.1, r.2 :: s.chains⟩
    | .m_adj i len => (s.take i).map fun (l, chains) => ⟨s.pool, m_adj len l :: chains⟩
    | .m_pullup i len =>
      (s.take i).bind fun (l, chains) => (s.pool.m_pullup len l).map fun r => ⟨r.1, r.2 :: chains⟩
    | .m_cat i j =>
      (s.take i).bind fun (l, chains) => (State.take ⟨s.pool, chains⟩ j).bind fun (n, chains) =>
        (s.pool.m_cat l n).map fun r => ⟨r.1, r.2 :: chains⟩
    | .m_free i =>
      (s.take i).bind fun (l, chains) =>
        match l with
        | [] => none
        | m :: l => some ⟨s.pool.MFREE m, l :: chains⟩
    | .m_freem i => (s.take i).map fun (l, chains) => ⟨s.pool.m_freem l, chains⟩

/-- As its callers do: `mclget` is for an mbuf whose data are in it, and `mcldup` copies
    bytes that are there, from one whose data are not. -/
def Act.Valid (s : State) : Act → Prop
  | .mclget i j => ∀ l ∈ s.chains[i]?, ∀ m ∈ l[j]?, m.place = .inside
  | .mcldup i j off len => ∀ l ∈ s.chains[i]?, ∀ m ∈ l[j]?,
      0 ≤ off ∧ 0 < len ∧ off + len ≤ m.m_len
  | _ => True

/-- The counts of references are right, and the free list with them. -/
structure ClusterCounts (s : State) : Prop where
  mclrefcnt : ∀ c, s.pool.mclrefcnt c = s.live.countP (Mbuf.refersTo c)
  nodup : s.pool.mclfree.Nodup
  mem_mclfree : ∀ c, c ∈ s.pool.mclfree ↔ (0 ≤ c ∧ c < NMBCLUSTERS) ∧ s.pool.mclrefcnt c = 0
  free : ∀ c ∈ s.pool.mclfree, ∀ m ∈ s.live, ¬ m.refersTo c

end AuxKernel.Net.Cluster
