import AuxKernel.Stream.Basic

/-!
# The blocks of messages

Message blocks and data blocks are allocated, shared, copied and freed
(`COMMON/os/stream.c`). A data block is taken from the free list of its class, or of
the next one; `db_ref` counts the message blocks that share it.

The machine (`blocks`) also remembers the message blocks that are in use (`held`). Their
holders link them, into messages and on queues, and free each of them once.
-/

namespace AuxKernel.Stream

/-- The blocks, with the addresses in them and the memory these are in, and the flag
    that there is no such memory. -/
structure Pool extends Mem where
  dblkflag : Bool
  b_rptr : ℕ → ℤ
  b_wptr : ℕ → ℤ
  db_base : ℕ → ℤ
  db_lim : ℕ → ℤ
  core : ℤ → BitVec 8

/-- How many message blocks and data blocks there are, and the classes of the latter. -/
structure Tables where
  nmblock : ℕ
  ndblock : ℕ
  cls : ℕ → ℕ

/-! ## Allocation -/

def NCLASS : ℕ := 9

/-- The size of the data blocks of each class. -/
def rbsize : List ℤ := [4, 16, 64, 128, 256, 512, 1024, 2048, 4096]

/-- The least class of blocks of a size; `NCLASS` if there is none. -/
def getclass (size : ℤ) : ℕ := rbsize.findIdx fun k => size ≤ k

/-- The data block to allocate, and the class of the free list it is on. -/
def findData (m : Mem) (size : ℤ) : Option (ℕ × ℕ) :=
  let cls := getclass size
  if cls ≥ NCLASS then none
  else
    match m.dbfreelist cls with
    | some d => some (cls, d)
    | none =>
      if cls = NCLASS - 1 then none
      else (m.dbfreelist (cls + 1)).map fun d => (cls + 1, d)

/-- Take the first data block off the free list of a class. -/
def takeData (cls d : ℕ) (m : Mem) : Mem :=
  { m with
    dbfreelist := Function.update m.dbfreelist cls (m.dblk d).db_freep
    dblk := Function.update m.dblk d { m.dblk d with db_freep := none } }

/-- Take the first message block off the free list, for a data block. -/
def takeMsg (bp d : ℕ) (m : Mem) : Mem :=
  { m with
    mbfreelist := (m.mblk bp).b_next
    mblk := Function.update m.mblk bp
      { m.mblk bp with b_next := none, b_cont := none, b_datap := some d } }

/-- Allocate a message block with a data block of at least `size` bytes. -/
def allocb (size : ℤ) (s : Pool) : Option ℕ × Pool :=
  if s.dblkflag then (none, s)
  else
    match findData s.toMem size with
    | none => (none, s)
    | some (cls, d) =>
      let m := takeData cls d s.toMem
      match m.mbfreelist with
      | none =>
        (none, { s with toMem := { m with
          dbfreelist := Function.update m.dbfreelist cls (some d) } })
      | some bp =>
        let db : Dblk := { m.dblk d with db_class := cls, db_type := 0, db_ref := 1 }
        (some bp, { s with
          toMem := { takeMsg bp d m with dblk := Function.update m.dblk d db }
          b_rptr := Function.update s.b_rptr bp (s.db_base d)
          b_wptr := Function.update s.b_wptr bp (s.db_base d)
          db_lim := Function.update s.db_lim d (s.db_base d + rbsize.getD cls 0) })

/-! ## Sharing and copying -/

/-- Allocate a message block for the data block of another. -/
def dupb (bp : ℕ) (s : Pool) : Option (Option ℕ × Pool) :=
  match s.mbfreelist with
  | none => some (none, s)
  | some bp1 => (s.mblk bp).b_datap.map fun d =>
    let m := takeMsg bp1 d s.toMem
    let db : Dblk := { m.dblk d with db_ref := ((m.dblk d).db_ref + 1) % 256 }
    (some bp1, { s with
      toMem := { m with dblk := Function.update m.dblk d db }
      b_rptr := Function.update s.b_rptr bp1 (s.b_rptr bp)
      b_wptr := Function.update s.b_wptr bp1 (s.b_wptr bp) })

def Mem.setCont (m : Mem) (bp : ℕ) (p : Option ℕ) : Mem :=
  { m with mblk := Function.update m.mblk bp { m.mblk bp with b_cont := p } }

variable (v : Tables)

/-- The loop of `dupmsg`, with the last block duplicated, `bp`, and its duplicate. -/
def dupLoop (head : ℕ) : ℕ → ℕ → ℕ → Pool → Option (Option ℕ × Pool)
  | n, bp, bp1, s =>
    match (s.mblk bp).b_cont, n with
    | none, _ => some (some head, s)
    | some _, 0 => none
    | some bp', n + 1 => (dupb bp' s).bind fun (r, s) =>
      let s := { s with toMem := s.toMem.setCont bp1 r }
      match r with
      | none => (freemsg v.nmblock (some head) s.toMem).map fun m => (none, { s with toMem := m })
      | some bp1' => dupLoop head n bp' bp1' s

/-- Duplicate all blocks of a message. -/
def dupmsg (bp : Option ℕ) (s : Pool) : Option (Option ℕ × Pool) :=
  match bp with
  | none => some (none, s)
  | some bp => (dupb bp s).bind fun (r, s) =>
    match r with
    | none => some (none, s)
    | some head => dupLoop v head v.nmblock bp head s

/-- Copy bytes. -/
def bcopy (src dst n : ℤ) (core : ℤ → BitVec 8) : ℤ → BitVec 8 :=
  fun a => if dst ≤ a ∧ a < dst + n then core (src + (a - dst)) else core a

/-- Copy a message block and its data. -/
def copyb (bp : ℕ) (s : Pool) : Option (Option ℕ × Pool) :=
  (s.mblk bp).b_datap.bind fun dp =>
    let size := s.db_lim dp - s.db_base dp
    match allocb size s with
    | (none, s) => some (none, s)
    | (some bp1, s) => (s.mblk bp1).b_datap.map fun ndp =>
      let db : Dblk := { s.dblk ndp with db_type := (s.dblk dp).db_type }
      (some bp1, { s with
        dblk := Function.update s.dblk ndp db
        b_rptr := Function.update s.b_rptr bp1 (s.db_base ndp + (s.b_rptr bp - s.db_base dp))
        b_wptr := Function.update s.b_wptr bp1 (s.db_base ndp + (s.b_wptr bp - s.db_base dp))
        core := bcopy (s.db_base dp) (s.db_base ndp) size s.core })

/-! ## Initialization -/

/-- Link a data block in at the head of the free list of its class. -/
def initData (m : Mem) (d : ℕ) : Mem :=
  { m with
    dblk := Function.update m.dblk d
      { m.dblk d with db_class := v.cls d, db_freep := m.dbfreelist (v.cls d) }
    dbfreelist := Function.update m.dbfreelist (v.cls d) (some d) }

/-- Link a message block in at the head of the free list. -/
def initMsg (m : Mem) (bp : ℕ) : Mem :=
  { m with
    mblk := Function.update m.mblk bp { m.mblk bp with b_next := m.mbfreelist }
    mbfreelist := some bp }

/-- Put all blocks on the free lists. -/
def qinit (m : Mem) : Mem :=
  (List.range v.nmblock).foldl initMsg ((List.range v.ndblock).foldl (initData v) m)

/-! ## The machine -/

/-- The blocks, and the message blocks in use. -/
structure Blocks where
  pool : Pool
  held : List ℕ

/-- The blocks of a message, if it has not more than `n`. -/
def msgBlocks (m : Mem) : ℕ → Option ℕ → Option (List ℕ)
  | _, none => some []
  | 0, some _ => none
  | n + 1, some bp => (msgBlocks m n (m.mblk bp).b_cont).map (bp :: ·)

/-- The calls, and what holders of a message block do: they link it to others. -/
inductive Call
  | allocb (size : ℤ)
  | dupb (bp : ℕ)
  | dupmsg (bp : Option ℕ)
  | copyb (bp : ℕ)
  | freeb (bp : ℕ)
  | freemsg (bp : Option ℕ)
  | link (bp : ℕ) (b_next b_prev b_cont : Option ℕ)

/-- What a call is about are blocks in use, each once. -/
def Call.Holds (s : Blocks) : Call → Prop
  | .allocb _ => True
  | .dupb bp | .copyb bp | .freeb bp | .link bp _ _ _ => bp ∈ s.held
  | .dupmsg bp | .freemsg bp =>
    ∃ l ∈ msgBlocks s.pool.toMem v.nmblock bp, l.Nodup ∧ ∀ b ∈ l, b ∈ s.held

/-- What a call that allocates returns, with the state after it. The blocks of what it
    returns are in use. -/
def alloc (s : Blocks) : Call → Option (Option ℕ × Blocks)
  | .allocb size =>
    let (r, pool) := allocb size s.pool
    some (r, ⟨pool, r.toList ++ s.held⟩)
  | .dupb bp => (dupb bp s.pool).map fun (r, pool) => (r, ⟨pool, r.toList ++ s.held⟩)
  | .copyb bp => (copyb bp s.pool).map fun (r, pool) => (r, ⟨pool, r.toList ++ s.held⟩)
  | .dupmsg bp => (dupmsg v bp s.pool).bind fun (r, pool) =>
    (msgBlocks pool.toMem v.nmblock r).map fun l => (r, ⟨pool, l ++ s.held⟩)
  | _ => none

/-- The state after a call. -/
def call (s : Blocks) : Call → Option Blocks
  | .freeb bp => (freeb bp s.pool.toMem).map fun m =>
    ⟨{ s.pool with toMem := m }, s.held.erase bp⟩
  | .freemsg bp => (msgBlocks s.pool.toMem v.nmblock bp).bind fun l =>
    (freemsg v.nmblock bp s.pool.toMem).map fun m => ⟨{ s.pool with toMem := m }, s.held.diff l⟩
  | .link bp b_next b_prev b_cont =>
    let b : Mblk := { s.pool.mblk bp with b_next := b_next, b_prev := b_prev, b_cont := b_cont }
    some ⟨{ s.pool with mblk := Function.update s.pool.mblk bp b }, s.held⟩
  | a => (alloc v s a).map Prod.snd

instance (s : Blocks) : (a : Call) → Decidable (a.Holds v s)
  | .allocb _ => inferInstanceAs (Decidable True)
  | .dupb bp | .copyb bp | .freeb bp | .link bp _ _ _ =>
    inferInstanceAs (Decidable (bp ∈ s.held))
  | .dupmsg bp | .freemsg bp =>
    inferInstanceAs (Decidable (∃ l ∈ msgBlocks s.pool.toMem v.nmblock bp,
      l.Nodup ∧ ∀ b ∈ l, b ∈ s.held))

/-- The blocks under the calls, from when they are initialized on. -/
def blocks : Machine Blocks Call where
  init s := ∃ m : Mem, m.mbfreelist = none ∧ (∀ c, m.dbfreelist c = none) ∧
    s.pool.toMem = qinit v m ∧ s.held = []
  next s a := if a.Holds v s then call v s a else none

end AuxKernel.Stream
