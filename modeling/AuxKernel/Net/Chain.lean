import AuxKernel.Net.Mbuf
import AuxKernel.Net.Cluster

/-!
# Chains as byte strings

What `m_adj`, `m_copy`, `m_cat`, `m_pullup` and `m_cpytoc` (`NET/sys/uipc_mbuf.c`) do to the bytes
of a chain. An mbuf is here with the memory that its data pointer points to, of which the first
`m_len` bytes are its data; the free list is the list of the mbufs on it. A trim of more than there
is leaves the first mbuf with a negative length, and `m_cpytoc` copies all mbufs but the first as a
whole.

* `Cell.view`: an mbuf with its data alone, to which the trimming from the front and the joining of
  chains of `AuxKernel.Net` apply (`view_adjFront`, `view_m_cat`);
* `adjusts_iff`, `copies_iff`, `copiesOut_iff`: when a call does to a chain what it does to the
  string of its bytes;
* `bytes_cat`, `pullsUp`: what holds of every call;
* `asBytes_iff`: all of them.
-/

namespace AuxKernel.Net.Chain

open Cluster (MLEN M_COPYALL)

/-- The offset where the data of an mbuf begin. -/
def MMINOFF : ℕ := 12

/-- An mbuf: its address, the offset of its data, how many they are, the type of a cluster, and the
    memory at the data pointer. -/
structure Cell (α : Type*) where
  addr : ℤ
  m_off : ℕ
  m_len : ℤ
  m_cltype : ℤ
  mtod : ℕ → α

variable {α : Type*}

namespace Cell

variable (m : Cell α)

/-- The `len` bytes from the byte `off` on. -/
def read (off len : ℕ) : List α := (List.range len).map fun i => m.mtod (off + i)

def data : List α := m.read 0 m.m_len.toNat

/-- Move the data pointer. -/
def advance (off : ℕ) : Cell α :=
  { m with m_off := m.m_off + off, mtod := fun i => m.mtod (off + i) }

/-- Take `len` bytes off the front. -/
def shave (len : ℤ) : Cell α :=
  { m.advance len.toNat with m_len := toShort (m.m_len - len) }

/-- Keep `n` bytes. -/
def keep (n : ℤ) : Cell α := { m with m_len := toShort n }

/-- Copy `len` bytes of `src` to the byte `off`. -/
def bcopy (src : ℕ → α) (off len : ℕ) : Cell α :=
  { m with mtod := fun i => if off ≤ i ∧ i < off + len then src (i - off) else m.mtod i }

/-- Put the first `k` bytes of `n` behind the data. -/
def push (n : Cell α) (k : ℤ) : Cell α :=
  { m.bcopy n.mtod m.m_len.toNat k.toNat with m_len := toShort (m.m_len + k) }

/-- The data are in the mbuf, or in a cluster of a type that there is. -/
structure Wf : Prop where
  nonneg : 0 ≤ m.m_len
  short : m.m_len < 2 ^ 15
  inside : m.m_off ≤ MMAXOFF → MMINOFF ≤ m.m_off ∧ m.m_off + m.m_len ≤ MMAXOFF
  outside : MMAXOFF < m.m_off → m.m_cltype = 1 ∨ m.m_cltype = 2

/-- The mbuf with its data alone. -/
def view : Mbuf α := ⟨m.m_off, m.data, false⟩

end Cell

/-- The bytes of a chain. -/
def bytes (l : List (Cell α)) : List α := l.flatMap Cell.data

/-- The addresses of mbufs. -/
def addrs (l : List (Cell α)) : List ℤ := l.map Cell.addr

/-- How many bytes there are, as the lengths have it. -/
def count (l : List (Cell α)) : ℤ := (l.map Cell.m_len).sum

/-! ## The free list -/

/-- Take an mbuf. -/
def MGET : List (Cell α) → Option (Cell α × List (Cell α))
  | [] => none
  | m :: mfreep => some ({ m with m_off := MMINOFF }, mfreep)

def MFREE (mfreep : List (Cell α)) (m : Cell α) : List (Cell α) := { m with m_off := 0 } :: mfreep

def m_freem (mfreep : List (Cell α)) : List (Cell α) → List (Cell α)
  | [] => mfreep
  | m :: l => m_freem (MFREE mfreep m) l

/-! ## The calls -/

/-- Trim `len` bytes from the front. -/
def adjFront (len : ℤ) : List (Cell α) → List (Cell α)
  | [] => []
  | m :: l =>
    if len ≤ 0 then m :: l
    else if m.m_len ≤ len then { m with m_len := 0 } :: adjFront (len - m.m_len) l
    else m.shave len :: l

/-- Truncate a chain to `n` bytes. -/
def truncate (n : ℤ) : List (Cell α) → List (Cell α)
  | [] => []
  | m :: l =>
    if m.m_len ≥ n then m.keep n :: l.map fun m => { m with m_len := 0 }
    else m :: truncate (n - m.m_len) l

/-- Trim `len` bytes from the tail. -/
def adjTail (len : ℤ) (l : List (Cell α)) : List (Cell α) :=
  match l.getLast? with
  | none => []
  | some m =>
    if m.m_len ≥ len then l.dropLast ++ [m.keep (m.m_len - len)]
    else truncate (count l - len) l

def m_adj (l : List (Cell α)) (len : ℤ) : List (Cell α) :=
  if len ≥ 0 then adjFront len l else adjTail (toLong (-len)) l

/-- Duplicate the data pointer of `m` into `n`, or copy what it points to from `off` on into an area
    at `copybuf`. -/
def mcldup (copybuf : ℤ) (m n : Cell α) (off : ℕ) : Option (Cell α) :=
  if m.m_cltype = 1 then
    some { n with
      m_off := ((m.addr + m.m_off - n.addr) % 2 ^ 32).toNat, m_cltype := 1, mtod := m.mtod }
  else if m.m_cltype = 2 then
    some { n.bcopy (fun i => m.mtod (off + i)) off n.m_len.toNat with
      m_off := ((copybuf + 4 - n.addr - off) % 2 ^ 32).toNat, m_cltype := 2 }
  else none

/-- Copy from `m` into a new mbuf: `len` bytes, from `off` on; `none` if they do not fit. -/
def copy1 (copybuf : ℤ) (m n : Cell α) (off : ℕ) (len : ℤ) : Option (Cell α) :=
  let n := { n with m_len := toShort (min len (m.m_len - off)) }
  if m.m_off > MMAXOFF ∧ n.m_len > MLEN then
    (mcldup copybuf m n off).map fun n => n.advance off
  else if n.m_len < 0 ∨ n.m_len > MLEN then none
  else some (n.bcopy (fun i => m.mtod (off + i)) 0 n.m_len.toNat)

/-- Copy `len` bytes of a chain, from `off` in its first mbuf on; and whether there were enough
    mbufs. The areas that are allocated are at `copybuf`, for each new mbuf. -/
def copyLoop (copybuf : ℤ → ℤ) (mfreep : List (Cell α)) (off : ℕ) (len : ℤ) :
    List (Cell α) → Option (List (Cell α) × List (Cell α) × Bool)
  | [] => if len > 0 ∧ len ≠ M_COPYALL then none else some (mfreep, [], true)
  | m :: l =>
    if len ≤ 0 then some (mfreep, [], true)
    else
      match MGET mfreep with
      | none => some (mfreep, [], false)
      | some (n, mfreep) =>
        (copy1 (copybuf n.addr) m n off len).bind fun n =>
          (copyLoop copybuf mfreep 0 (if len = M_COPYALL then len else len - n.m_len) l).map
            fun r => (r.1, n :: r.2.1, r.2.2)

/-- Find the mbuf at `off`. -/
def skip (off : ℤ) : List (Cell α) → Option (ℤ × List (Cell α))
  | [] => if off > 0 then none else some (off, [])
  | m :: l => if off ≤ 0 ∨ off < m.m_len then some (off, m :: l) else skip (off - m.m_len) l

/-- The copy, and the free list behind it; `none` is a panic. -/
def m_copy (copybuf : ℤ → ℤ) (mfreep l : List (Cell α)) (off len : ℤ) :
    Option (List (Cell α) × List (Cell α)) :=
  if len = 0 then some (mfreep, [])
  else if off < 0 ∨ len < 0 ∨ l = [] then none
  else (skip off l).bind fun s =>
    (copyLoop copybuf mfreep s.1.toNat len s.2).map fun r =>
      if r.2.2 then (r.1, r.2.1) else (m_freem r.1 r.2.1, [])

/-- Append the chain to `m`, with its data if they fit. -/
def splat (mfreep : List (Cell α)) (m : Cell α) : List (Cell α) → List (Cell α) × List (Cell α)
  | [] => (mfreep, [m])
  | n :: l =>
    if m.m_off ≥ MMAXOFF ∨ (m.m_off + m.m_len + n.m_len) % 2 ^ 32 > MMAXOFF then
      (mfreep, m :: n :: l)
    else splat (MFREE mfreep n) (m.push n n.m_len) l

def m_cat (mfreep : List (Cell α)) (m : Cell α) :
    (l n : List (Cell α)) → List (Cell α) × List (Cell α)
  | [], n => splat mfreep m n
  | m' :: l, n =>
    let r := m_cat mfreep m' l n
    (r.1, m :: r.2)

/-- What the loop of `m_pullup` has done: the mbuf that was filled, the bytes left to copy, and the
    rest of the chain. -/
structure Pull (α : Type*) where
  mfreep : List (Cell α)
  m : Cell α
  len : ℤ
  n : List (Cell α)

/-- Copy up to `len` bytes to an mbuf, and free what is used up. -/
def pullLoop (mfreep : List (Cell α)) (m : Cell α) (len : ℤ) : List (Cell α) → Pull α
  | [] => ⟨mfreep, m, len, []⟩
  | n :: l =>
    let k := min (min (MLEN - m.m_len) len) n.m_len
    if k > 0 then
      let m := m.push n k
      let n := n.shave k
      if n.m_len > 0 then ⟨mfreep, m, len - k, n :: l⟩
      else pullLoop (MFREE mfreep n) m (len - k) l
    else if n.m_len > 0 then ⟨mfreep, m, len, n :: l⟩
    else pullLoop (MFREE mfreep n) m len l

/-- The chain that is returned, empty if none is, and the free list behind it. -/
def m_pullup (mfreep l : List (Cell α)) (len : ℤ) : Option (List (Cell α) × List (Cell α)) :=
  if len > MLEN then some (m_freem mfreep l, [])
  else if l = [] then none
  else
    match MGET mfreep with
    | none => some (m_freem mfreep l, [])
    | some (m, mfreep) =>
      let r := pullLoop mfreep { m with m_len := 0 } len l
      if r.len ≠ 0 then some (m_freem (MFREE r.mfreep r.m) r.n, []) else some (r.mfreep, r.m :: r.n)

/-- Find the mbuf at `off`, for `m_cpytoc`. -/
def seek (off : ℤ) : List (Cell α) → ℤ × List (Cell α)
  | [] => (off, [])
  | m :: l => if off ≠ 0 ∧ m.m_len ≤ off then seek (off - m.m_len) l else (off, m :: l)

/-- The second loop of `m_cpytoc`: what it writes, and the length that is left. -/
def cpyLoop (len : ℤ) : List (Cell α) → List α × ℤ
  | [] => ([], len)
  | m :: l =>
    if len = 0 then ([], len)
    else
      let r := cpyLoop (len - m.m_len) l
      (m.data ++ r.1, r.2)

/-- What is written from `off` in the first mbuf on, and the length that is left. -/
def cpyFrom (off len : ℤ) : List (Cell α) → List α × ℤ
  | [] => ([], len)
  | m :: l =>
    let ml := min len (m.m_len - off)
    let r := cpyLoop (len - ml) l
    (m.read off.toNat ml.toNat ++ r.1, r.2)

/-- What is written at `cp`, and the value; `none` is a panic. -/
def m_cpytoc (l : List (Cell α)) (off len : ℤ) : Option (List α × ℤ) :=
  if l = [] ∨ off < 0 ∨ len < 0 then none
  else some (cpyFrom (seek off l).1 len (seek off l).2)

/-! ## Bytes -/

section Bytes

variable {m n : Cell α} {l : List (Cell α)}

@[simp] theorem Cell.length_read (off len : ℕ) : (m.read off len).length = len := by
  rw [Cell.read, List.length_map, List.length_range]

theorem Cell.read_add (off len k : ℕ) :
    m.read off (len + k) = m.read off len ++ m.read (off + len) k := by
  simp only [Cell.read, List.range_add, List.map_append, List.map_map, Function.comp_def,
    Nat.add_assoc]

@[simp] theorem Cell.read_zero (off : ℕ) : m.read off 0 = [] := rfl

theorem Cell.drop_read {off len k : ℕ} (h : k ≤ len) :
    (m.read off len).drop k = m.read (off + k) (len - k) := by
  conv_lhs => rw [← Nat.add_sub_cancel' h, Cell.read_add]
  exact List.drop_left' (Cell.length_read _ _)

theorem Cell.take_read {off len k : ℕ} (h : k ≤ len) : (m.read off len).take k = m.read off k := by
  rw [← Nat.add_sub_cancel' h, Cell.read_add]
  exact List.take_left' (Cell.length_read _ _)

theorem Cell.read_advance (k off len : ℕ) : (m.advance k).read off len = m.read (k + off) len := by
  simp only [Cell.read, Cell.advance, Nat.add_assoc]

theorem Cell.read_congr {off len : ℕ} (h : ∀ i, off ≤ i → i < off + len → m.mtod i = n.mtod i) :
    m.read off len = n.read off len := by
  refine List.map_congr_left fun i hi => ?_
  have := List.mem_range.1 hi
  exact h (off + i) (Nat.le_add_right off i) (Nat.add_lt_add_left this off)

theorem Cell.Wf.m_len_shave (hm : m.Wf) {len : ℤ} (h₀ : 0 ≤ len) (hle : len ≤ m.m_len) :
    (m.shave len).m_len = m.m_len - len := by
  have := hm.short
  exact toShort_of_mem (by omega) (by omega)

theorem Cell.Wf.shave (hm : m.Wf) {len : ℤ} (h₀ : 0 ≤ len) (hle : len ≤ m.m_len) :
    (m.shave len).Wf := by
  have hlen := hm.m_len_shave h₀ hle
  have hoff : (m.shave len).m_off = m.m_off + len.toNat := rfl
  have hshort := hm.short
  constructor
  · omega
  · omega
  · intro hin
    have := hm.inside (by omega)
    omega
  · intro hout
    refine hm.outside (not_le.1 fun hin => ?_)
    have := hm.inside hin
    omega

theorem Cell.Wf.data_shave (hm : m.Wf) {len : ℤ} (h₀ : 0 ≤ len) (hle : len ≤ m.m_len) :
    (m.shave len).data = m.data.drop len.toNat := by
  have hread : (m.shave len).data = (m.advance len.toNat).read 0 (m.shave len).m_len.toNat := rfl
  rw [hread, hm.m_len_shave h₀ hle, Cell.read_advance, Cell.data, Cell.drop_read (by omega),
    Nat.zero_add, Nat.add_zero, Int.toNat_sub'' (h₀.trans hle) h₀]

theorem Cell.Wf.m_len_keep (hm : m.Wf) {n : ℤ} (h₀ : 0 ≤ n) (hle : n ≤ m.m_len) :
    (m.keep n).m_len = n := by
  have := hm.short
  exact toShort_of_mem (by omega) (by omega)

theorem Cell.Wf.keep_eq (hm : m.Wf) {n : ℤ} (h₀ : 0 ≤ n) (hle : n ≤ m.m_len) :
    m.keep n = { m with m_len := n } := by
  have hlen : toShort n = n := hm.m_len_keep h₀ hle
  rw [Cell.keep, hlen]

theorem Cell.Wf.data_keep (hm : m.Wf) {n : ℤ} (h₀ : 0 ≤ n) (hle : n ≤ m.m_len) :
    (m.keep n).data = m.data.take n.toNat := by
  have hread : (m.keep n).data = m.read 0 (m.keep n).m_len.toNat := rfl
  rw [hread, hm.m_len_keep h₀ hle, Cell.data, Cell.take_read (by omega)]

/-- What was there before the bytes that are copied. -/
theorem Cell.read_bcopy_lt {src : ℕ → α} {off len i k : ℕ} (h : i + k ≤ off) :
    (m.bcopy src off len).read i k = m.read i k := by
  refine Cell.read_congr fun j _ hj => ?_
  rw [Cell.bcopy]
  exact if_neg (by omega)

theorem Cell.read_bcopy (src : ℕ → α) (off len : ℕ) :
    (m.bcopy src off len).read off len = (List.range len).map src := by
  refine List.map_congr_left fun i hi => ?_
  have := List.mem_range.1 hi
  rw [Cell.bcopy]
  dsimp only
  rw [if_pos (by omega), Nat.add_sub_cancel_left]

theorem Cell.data_push {k : ℤ} (hm : 0 ≤ m.m_len) (hk : 0 ≤ k) (hlt : m.m_len + k < 2 ^ 15) :
    (m.push n k).data = m.data ++ n.read 0 k.toNat ∧ (m.push n k).m_len = m.m_len + k := by
  have hlen : (m.push n k).m_len = m.m_len + k := toShort_of_mem (by omega) hlt
  have hread : (m.push n k).data =
      (m.bcopy n.mtod m.m_len.toNat k.toNat).read 0 (m.push n k).m_len.toNat := rfl
  have hsrc : n.read 0 k.toNat = (List.range k.toNat).map n.mtod :=
    List.map_congr_left fun i _ => by rw [Nat.zero_add]
  rw [hread, hlen, Int.toNat_add hm hk, Cell.read_add, Cell.read_bcopy_lt (by omega), Nat.zero_add,
    Cell.read_bcopy, hsrc]
  exact ⟨rfl, rfl⟩

@[simp] theorem Cell.length_data : m.data.length = m.m_len.toNat := Cell.length_read _ _

@[simp] theorem bytes_nil : bytes ([] : List (Cell α)) = [] := rfl

@[simp] theorem bytes_cons : bytes (m :: l) = m.data ++ bytes l := rfl

@[simp] theorem bytes_append (l l' : List (Cell α)) : bytes (l ++ l') = bytes l ++ bytes l' :=
  List.flatMap_append

@[simp] theorem count_nil : count ([] : List (Cell α)) = 0 := rfl

@[simp] theorem count_cons : count (m :: l) = m.m_len + count l := List.sum_cons

theorem count_append (l l' : List (Cell α)) : count (l ++ l') = count l + count l' := by
  rw [count, List.map_append, List.sum_append]
  rfl

theorem length_bytes (h : ∀ m ∈ l, 0 ≤ m.m_len) : ((bytes l).length : ℤ) = count l := by
  induction l with
  | nil => rfl
  | cons m l ih =>
    have hm := h m List.mem_cons_self
    rw [bytes_cons, List.length_append, Nat.cast_add,
      ih fun n hn => h n (List.mem_cons_of_mem m hn), Cell.length_data, count_cons,
      Int.toNat_of_nonneg hm]

theorem count_nonneg (h : ∀ m ∈ l, 0 ≤ m.m_len) : 0 ≤ count l := by
  rw [← length_bytes h]
  exact Int.natCast_nonneg _

/-- An offset past the first mbuf. -/
theorem drop_bytes_cons (hm : 0 ≤ m.m_len) {off : ℤ} (h : m.m_len ≤ off) :
    (bytes (m :: l)).drop off.toNat = (bytes l).drop (off - m.m_len).toNat := by
  have hlength : m.data.length = m.m_len.toNat := Cell.length_data
  have hnil : m.data.drop off.toNat = [] := List.drop_eq_nil_of_le (by omega)
  rw [bytes_cons, List.drop_append, hnil, List.nil_append, hlength, Int.toNat_sub'' (hm.trans h) hm]

@[simp] theorem bytes_view : Net.bytes (l.map Cell.view) = bytes l := by
  rw [Net.bytes, List.flatMap_map]
  rfl

@[simp] theorem Cell.m_len_view : m.view.m_len = m.m_len.toNat := Cell.length_data

end Bytes

/-! ## Trimming -/

section Trim

variable {m : Cell α} {l : List (Cell α)} {len n : ℤ}

/-- The trimming from the front is that of `AuxKernel.Net`. -/
theorem view_adjFront (hl : ∀ m ∈ l, m.Wf) (len : ℤ) :
    (adjFront len l).map Cell.view = Net.m_adj (l.map Cell.view) len.toNat := by
  induction l generalizing len with
  | nil => rfl
  | cons m l ih =>
    have hm := hl m List.mem_cons_self
    have hnonneg := hm.nonneg
    rw [adjFront, List.map_cons, Net.m_adj, Cell.m_len_view]
    by_cases h₀ : len ≤ 0
    · rw [if_pos h₀, if_pos (by omega), List.map_cons]
    · rw [if_neg h₀, if_neg (show ¬len.toNat = 0 by omega)]
      by_cases hle : m.m_len ≤ len
      · rw [if_pos hle, if_pos (show m.m_len.toNat ≤ len.toNat by omega), List.map_cons,
          ih (fun m' hm' => hl m' (List.mem_cons_of_mem m hm')),
          show (len - m.m_len).toNat = len.toNat - m.m_len.toNat by omega]
        rfl
      · rw [if_neg hle, if_neg (show ¬m.m_len.toNat ≤ len.toNat by omega), List.map_cons,
          Cell.view, hm.data_shave (by omega) (by omega)]
        rfl

theorem bytes_adjFront (hl : ∀ m ∈ l, m.Wf) (len : ℤ) :
    bytes (adjFront len l) = (bytes l).drop len.toNat := by
  rw [← bytes_view, view_adjFront hl, bytes_m_adj, bytes_view]

theorem nonneg_adjFront (hl : ∀ m ∈ l, m.Wf) (len : ℤ) : ∀ m ∈ adjFront len l, 0 ≤ m.m_len := by
  induction l generalizing len with
  | nil => exact fun m hm => absurd hm List.not_mem_nil
  | cons m l ih =>
    have hm := hl m List.mem_cons_self
    have hl' : ∀ m' ∈ l, m'.Wf := fun m' hm' => hl m' (List.mem_cons_of_mem m hm')
    rw [adjFront]
    split_ifs with h₀ hle
    · exact fun m' hm' => (hl m' hm').nonneg
    · exact List.forall_mem_cons.2 ⟨le_rfl, ih hl' _⟩
    · refine List.forall_mem_cons.2 ⟨?_, fun m' hm' => (hl' m' hm').nonneg⟩
      rw [hm.m_len_shave (by omega) (by omega)]
      omega

theorem bytes_map_zero (l : List (Cell α)) :
    bytes (l.map fun m => { m with m_len := 0 }) = [] := by
  induction l with
  | nil => rfl
  | cons m l ih => rw [List.map_cons, bytes_cons, ih]; rfl

/-- Where the number of bytes that are left is not negative, the chain is truncated to it. -/
theorem bytes_truncate (hl : ∀ m ∈ l, m.Wf) (hn : 0 ≤ n) :
    bytes (truncate n l) = (bytes l).take n.toNat ∧ ∀ m ∈ truncate n l, 0 ≤ m.m_len := by
  induction l generalizing n with
  | nil => exact ⟨(List.take_nil).symm, fun m hm => absurd hm List.not_mem_nil⟩
  | cons m l ih =>
    have hm := hl m List.mem_cons_self
    have hnonneg := hm.nonneg
    have hl' : ∀ m' ∈ l, m'.Wf := fun m' hm' => hl m' (List.mem_cons_of_mem m hm')
    rw [truncate]
    split_ifs with hge
    · constructor
      · rw [bytes_cons, bytes_map_zero, List.append_nil, bytes_cons, hm.data_keep hn hge,
          List.take_append_of_le_length (by rw [Cell.length_data]; omega)]
      · refine List.forall_mem_cons.2 ⟨by rwa [hm.m_len_keep hn hge], fun m' hm' => ?_⟩
        obtain ⟨_, _, rfl⟩ := List.mem_map.1 hm'
        exact le_rfl
    · obtain ⟨hbytes, hpos⟩ := ih hl' (show 0 ≤ n - m.m_len by omega)
      refine ⟨?_, List.forall_mem_cons.2 ⟨hnonneg, hpos⟩⟩
      rw [bytes_cons, hbytes, bytes_cons, List.take_append, Cell.length_data,
        List.take_of_length_le (show m.data.length ≤ n.toNat by rw [Cell.length_data]; omega)]
      congr 2
      omega

/-- Where it is negative, the first mbuf gets it as its length. -/
theorem truncate_neg (hl : ∀ m' ∈ m :: l, m'.Wf) (hn : n < 0) : truncate n (m :: l) =
    m.keep n :: l.map fun m => { m with m_len := 0 } := by
  have := (hl m List.mem_cons_self).nonneg
  rw [truncate, if_pos (by omega)]

/-- A trim does to a chain what it does to its bytes. -/
def Adjusts (l : List (Cell α)) (len : ℤ) : Prop :=
  bytes (m_adj l len) = (if 0 ≤ len then (bytes l).drop len.toNat
    else (bytes l).take ((bytes l).length - (-len).toNat)) ∧
  ∀ m ∈ m_adj l len, 0 ≤ m.m_len

theorem adjusts_of_nonneg (hl : ∀ m ∈ l, m.Wf) (hlen : 0 ≤ len) : Adjusts l len := by
  rw [Adjusts, m_adj, if_pos hlen, if_pos hlen]
  exact ⟨bytes_adjFront hl len, nonneg_adjFront hl len⟩

theorem bytes_adjTail (hl : ∀ m ∈ l, m.Wf) (h₀ : 0 < len) (hle : len ≤ count l) :
    bytes (adjTail len l) = (bytes l).take (count l - len).toNat ∧
      ∀ m ∈ adjTail len l, 0 ≤ m.m_len := by
  rw [adjTail]
  split
  next hlast =>
    rw [List.getLast?_eq_none_iff] at hlast
    subst hlast
    exact absurd hle (not_le_of_gt h₀)
  next m hlast =>
    obtain ⟨l', rfl⟩ := List.getLast?_eq_some_iff.1 hlast
    by_cases hge : m.m_len ≥ len
    · have hm := hl m (by simp)
      have hl' : ∀ m' ∈ l', m'.Wf := fun m' hm' => hl m' (List.mem_append_left _ hm')
      have hlen := length_bytes fun m' hm' => (hl' m' hm').nonneg
      rw [if_pos hge, List.dropLast_concat]
      constructor
      · rw [bytes_append, bytes_append, bytes_cons, bytes_cons, bytes_nil, List.append_nil,
          List.append_nil, hm.data_keep (by omega) (by omega), count_append, count_cons, count_nil,
          ← hlen, show ((bytes l').length + (m.m_len + 0) - len).toNat =
            (bytes l').length + (m.m_len - len).toNat by omega, List.take_length_add_append]
      · refine List.forall_mem_append.2 ⟨fun m' hm' => (hl' m' hm').nonneg, ?_⟩
        rw [List.forall_mem_singleton, hm.m_len_keep (by omega) (by omega)]
        omega
    · rw [if_neg hge]
      exact bytes_truncate hl (by omega)

/-- The first mbuf stays where it is in a trim from the tail. -/
theorem adjTail_cons (hl : ∀ m' ∈ m :: l, m'.Wf) (h₀ : 0 < len) (hle : len ≤ count (m :: l)) :
    ∃ k l', adjTail len (m :: l) = { m with m_len := k } :: l' ∧
      k = min m.m_len (count (m :: l) - len) := by
  have hm := hl m List.mem_cons_self
  have hrest := count_nonneg fun m' hm' => (hl m' (List.mem_cons_of_mem m hm')).nonneg
  rw [count_cons] at hle ⊢
  rcases List.eq_nil_or_concat l with rfl | ⟨l', last, rfl⟩
  · rw [count_nil] at hle ⊢
    refine ⟨_, [], ?_, rfl⟩
    rw [adjTail, List.getLast?_singleton]
    dsimp only
    rw [if_pos (show m.m_len ≥ len by omega), min_eq_right (by omega), add_zero,
      hm.keep_eq (by omega) (by omega)]
    rfl
  · rw [List.concat_eq_append] at *
    have hlast := (hl last (by simp)).nonneg
    have hcount : count (l' ++ [last]) = count l' + last.m_len := by
      rw [count_append, count_cons, count_nil, add_zero]
    have hpart : 0 ≤ count l' := count_nonneg fun m' hm' => (hl m' (by simp [hm'])).nonneg
    rw [adjTail, ← List.cons_append, List.getLast?_concat]
    dsimp only
    by_cases hge : last.m_len ≥ len
    · refine ⟨_, l' ++ [last.keep (last.m_len - len)], ?_, rfl⟩
      rw [if_pos hge, List.dropLast_concat, min_eq_left (by omega)]
      rfl
    · rw [if_neg hge, List.cons_append, truncate, count_cons]
      split_ifs with hfirst
      · refine ⟨_, (l' ++ [last]).map fun m => { m with m_len := 0 }, ?_, rfl⟩
        rw [min_eq_right hfirst, hm.keep_eq (by omega) hfirst]
      · exact ⟨_, _, by rw [min_eq_left (by omega)], rfl⟩

/-- A trim of more than there is leaves its length in the first mbuf. -/
theorem adjTail_of_lt (hl : ∀ m' ∈ m :: l, m'.Wf) (hlt : count (m :: l) < len) :
    adjTail len (m :: l) =
      m.keep (count (m :: l) - len) :: l.map fun m => { m with m_len := 0 } := by
  rw [adjTail]
  split
  next hlast => exact absurd hlast (by simp)
  next last hlast =>
    obtain ⟨l', hl'⟩ := List.getLast?_eq_some_iff.1 hlast
    have hle : last.m_len ≤ count (m :: l) := by
      rw [hl', count_append, count_cons, count_nil]
      have hrest : ∀ m' ∈ l', 0 ≤ m'.m_len := fun m' hm' =>
        (hl m' (by rw [hl']; exact List.mem_append_left _ hm')).nonneg
      have := count_nonneg hrest
      omega
    rw [if_neg (by omega), truncate_neg hl (by omega)]

/-- A trim by a number whose negative is itself does nothing. -/
theorem adjTail_min (hl : ∀ m ∈ l, m.Wf) : adjTail (-2 ^ 31) l = l := by
  rw [adjTail]
  split
  next hlast => exact (List.getLast?_eq_none_iff.1 hlast).symm
  next m hlast =>
    obtain ⟨l', rfl⟩ := List.getLast?_eq_some_iff.1 hlast
    have hm := hl m (by simp)
    have hnonneg := hm.nonneg
    have hshort := hm.short
    have hkeep : toShort (m.m_len - -2 ^ 31) = m.m_len := by
      have hadd : m.m_len - -2 ^ 31 = m.m_len + 2 ^ 15 * ((2 ^ 16 : ℕ) : ℤ) := by omega
      rw [hadd, toShort, Int.add_mul_bmod_self_right]
      exact toShort_of_mem (by omega) hshort
    rw [if_pos (by omega), List.dropLast_concat, Cell.keep, hkeep]

theorem toShort_eq_zero {n : ℤ} : toShort n = 0 ↔ 2 ^ 16 ∣ n :=
  (Int.dvd_iff_bmod_eq_zero (a := 2 ^ 16)).symm

/-- The cases in which a trim does what it should. -/
theorem adjusts_iff (hl : ∀ m ∈ l, m.Wf) (hne : l ≠ []) (h₀ : -2 ^ 31 ≤ len) (h₁ : len < 2 ^ 31) :
    Adjusts l len ↔ 0 ≤ len ∨
      ((-len ≤ count l ∨ 2 ^ 16 ∣ count l + len) ∧ (len = -2 ^ 31 → count l = 0)) := by
  have hnonneg : ∀ m ∈ l, 0 ≤ m.m_len := fun m hm => (hl m hm).nonneg
  have hlength := length_bytes hnonneg
  by_cases hlen : 0 ≤ len
  · exact iff_of_true (adjusts_of_nonneg hl hlen) (Or.inl hlen)
  rw [Adjusts, m_adj, if_neg hlen, if_neg hlen, or_iff_right hlen]
  by_cases hmin : len = -2 ^ 31
  · subst hmin
    have hlong : toLong (- -2 ^ 31) = -2 ^ 31 := by decide
    rw [hlong, adjTail_min hl]
    constructor
    · rintro ⟨heq, -⟩
      have := congrArg List.length heq
      rw [List.length_take] at this
      have hzero : count l = 0 := by omega
      exact ⟨Or.inr (by rw [hzero]; decide), fun _ => hzero⟩
    · rintro ⟨-, hzero⟩
      have hnil : bytes l = [] :=
        List.eq_nil_of_length_eq_zero (by have := hzero rfl; omega)
      exact ⟨by rw [hnil, List.take_nil], hnonneg⟩
  · have hlong : toLong (-len) = -len := toLong_of_mem (by omega) (by omega)
    rw [hlong, and_iff_left (fun h => absurd h hmin)]
    by_cases hle : -len ≤ count l
    · obtain ⟨hbytes, hpos⟩ := bytes_adjTail hl (by omega) hle
      refine iff_of_true ⟨?_, hpos⟩ (Or.inl hle)
      rw [hbytes]
      congr 1
      omega
    · obtain ⟨m, l', rfl⟩ := List.exists_cons_of_ne_nil hne
      rw [adjTail_of_lt hl (by omega), or_iff_right hle, ← toShort_eq_zero, Int.sub_neg,
        List.forall_mem_cons, show (bytes (m :: l')).length - (-len).toNat = 0 by omega,
        List.take_zero, bytes_cons, bytes_map_zero, List.append_nil, ← List.length_eq_zero_iff,
        Cell.length_data]
      constructor
      · rintro ⟨hempty, hpos, -⟩
        exact le_antisymm (Int.toNat_eq_zero.1 hempty) hpos
      · intro hzero
        have hkeep : (m.keep (count (m :: l') + len)).m_len = 0 := hzero
        refine ⟨by rw [hkeep]; rfl, hkeep.ge, fun m' hm' => ?_⟩
        obtain ⟨_, _, rfl⟩ := List.mem_map.1 hm'
        exact le_rfl

end Trim

/-! ## Copying -/

section Copy

variable {m n : Cell α} {l mfreep : List (Cell α)} {off : ℕ} {len copybuf : ℤ}

theorem addrs_m_freem : (addrs (m_freem mfreep l)).Perm (addrs l ++ addrs mfreep) := by
  induction l generalizing mfreep with
  | nil => exact List.Perm.refl _
  | cons m l ih => exact ih.trans List.perm_middle

/-- The bytes that are asked for. -/
def slice (off : ℕ) (len : ℤ) (x : List α) : List α :=
  if len = M_COPYALL then x.drop off else (x.drop off).take len.toNat

/-- The mbufs that `len` bytes lie in, from `off` in the first one on. -/
def pieces (off len : ℤ) : List (Cell α) → ℕ
  | [] => 0
  | m :: l =>
    if len ≤ 0 then 0
    else 1 + pieces 0 (if len = M_COPYALL then len else len - min len (m.m_len - off)) l

/-- The mbufs that a copy takes. -/
def mbufs (l : List (Cell α)) (off len : ℤ) : ℕ :=
  ((skip off l).map fun r => pieces r.1 len r.2).getD 0

theorem Cell.Wf.m_len_le (hm : m.Wf) (h : m.m_off ≤ MMAXOFF) : m.m_len ≤ MLEN := by
  obtain ⟨hmin, hmax⟩ := hm.inside h
  have hoff : MMINOFF = 12 := rfl
  have hlen : MLEN = 240 := rfl
  have hend : MMAXOFF = 252 := rfl
  omega

/-- The bytes of one mbuf are copied. -/
theorem copy1_spec (hm : m.Wf) (hoff : off ≤ m.m_len) (hlen : 0 < len) :
    ∃ n', copy1 copybuf m n off len = some n' ∧ n'.addr = n.addr ∧
      n'.m_len = min len (m.m_len - off) ∧ n'.data = (m.data.drop off).take len.toNat := by
  have hshort := hm.short
  have hk : toShort (min len (m.m_len - off)) = min len (m.m_len - off) :=
    toShort_of_mem (by omega) (by omega)
  have hdata : m.read off (min len (m.m_len - off)).toNat = (m.data.drop off).take len.toNat := by
    rw [Cell.data, Cell.drop_read (by omega), Nat.zero_add, List.take_eq_take_min,
      Cell.length_read, Cell.take_read (Nat.min_le_right _ _)]
    congr 1
    omega
  rw [copy1, hk, ← hdata]
  dsimp only
  split_ifs with hext hrange
  · rcases hm.outside hext.1 with htype | htype
    · rw [mcldup, if_pos htype]
      exact ⟨_, rfl, rfl, rfl, Cell.read_advance _ _ _⟩
    · rw [mcldup, if_neg (by omega), if_pos htype]
      refine ⟨_, rfl, rfl, rfl, ?_⟩
      exact (Cell.read_advance _ _ _).trans (Cell.read_bcopy (fun i => m.mtod (off + i)) off _)
  · have := hm.m_len_le
    omega
  · exact ⟨_, rfl, rfl, rfl, Cell.read_bcopy _ _ _⟩

theorem take_slice (hm : m.Wf) (hoff : off ≤ m.m_len) (hlen : 0 < len) (hmax : len ≤ M_COPYALL) :
    (m.data.drop off).take len.toNat ++
      slice 0 (if len = M_COPYALL then len else len - min len (m.m_len - off)) (bytes l) =
    slice off len (bytes (m :: l)) := by
  have hnonneg := hm.nonneg
  have hlength : m.data.length = m.m_len.toNat := Cell.length_data
  rw [slice, slice, bytes_cons, List.drop_append_of_le_length (by omega), List.drop_zero]
  by_cases hall : len = M_COPYALL
  · have hshort := hm.short
    have hvalue : M_COPYALL = 1000000000 := rfl
    rw [if_pos hall, if_pos hall, if_pos hall,
      List.take_of_length_le (by rw [List.length_drop]; omega)]
  · have hrest : (len - min len (m.m_len - off)).toNat =
        len.toNat - (m.data.drop off).length := by
      rw [List.length_drop]
      omega
    rw [if_neg hall, if_neg hall, if_neg (by omega), List.take_append, hrest]

/-- The copy of a chain, as long as there are mbufs. -/
theorem copyLoop_spec {copybuf : ℤ → ℤ} (hl : ∀ m ∈ l, m.Wf) (hoff : ∀ m ∈ l.head?, off ≤ m.m_len)
    (hlen : len = M_COPYALL ∧ (l = [] → off = 0) ∨
      0 ≤ len ∧ len < M_COPYALL ∧ off + len ≤ count l) :
    ∃ mfreep' top, copyLoop copybuf mfreep off len l =
        some (mfreep', top, decide (pieces off len l ≤ mfreep.length)) ∧
      (addrs top ++ addrs mfreep').Perm (addrs mfreep) ∧
      (pieces off len l ≤ mfreep.length → bytes top = slice off len (bytes l)) := by
  have hvalue : M_COPYALL = 1000000000 := rfl
  induction l generalizing off len mfreep with
  | nil =>
    refine ⟨mfreep, [], ?_, List.Perm.refl _, fun _ => ?_⟩
    · rw [copyLoop, if_neg (by rw [count_nil] at hlen; omega), pieces,
        decide_eq_true (Nat.zero_le _)]
    · rw [slice, bytes_nil, List.drop_nil, List.take_nil, ite_self]
  | cons m l ih =>
    have hm := hl m List.mem_cons_self
    have hle : (off : ℤ) ≤ m.m_len := hoff m rfl
    rw [copyLoop, pieces]
    by_cases hzero : len ≤ 0
    · obtain rfl : len = 0 := by omega
      rw [if_pos hzero, if_pos hzero, decide_eq_true (Nat.zero_le _)]
      exact ⟨_, _, rfl, List.Perm.refl _, fun _ => by rw [slice, if_neg (by omega)]; rfl⟩
    · rw [if_neg hzero, if_neg hzero]
      rcases mfreep with _ | ⟨n, mfreep⟩
      · refine ⟨[], [], ?_, List.Perm.refl _, fun h => ?_⟩
        · rw [MGET, decide_eq_false (by rw [List.length_nil]; omega)]
        · rw [List.length_nil] at h
          omega
      · obtain ⟨n', hcopy, haddr, hn', hdata⟩ := @copy1_spec α m { n with m_off := MMINOFF } off len
          (copybuf n.addr) hm hle (by omega)
        have hl' : ∀ m' ∈ l, m'.Wf := fun m' hm' => hl m' (List.mem_cons_of_mem m hm')
        have hrest := count_nonneg fun m' hm' => (hl' m' hm').nonneg
        rw [count_cons] at hlen
        obtain ⟨mfreep', top, hloop, hperm, htop⟩ := @ih mfreep 0
          (if len = M_COPYALL then len else len - min len (m.m_len - off)) hl'
          (fun m' hm' => (hl' m' (List.mem_of_mem_head? hm')).nonneg) (by
            split_ifs with hall
            · exact Or.inl ⟨hall, fun _ => rfl⟩
            · omega)
        rw [Nat.cast_zero] at hloop htop
        refine ⟨mfreep', n' :: top, ?_, ?_, fun h => ?_⟩
        · rw [MGET]
          dsimp only
          rw [hcopy, Option.bind_some, hn', hloop, Option.map_some]
          congr 3
          rw [List.length_cons, Nat.add_comm 1]
          exact decide_eq_decide.2 Nat.succ_le_succ_iff.symm
        · have haddrs : addrs (n' :: top) = n.addr :: addrs top := congrArg (· :: addrs top) haddr
          rw [haddrs]
          exact hperm.cons _
        · rw [List.length_cons] at h
          have hmax : len ≤ M_COPYALL := by omega
          rw [bytes_cons, hdata, htop (by omega), take_slice hm hle (by omega) hmax]

/-- Where an offset inside the chain is. -/
theorem skip_spec (hl : ∀ m ∈ l, m.Wf) {off : ℤ} (h₀ : 0 ≤ off) (hle : off ≤ count l) :
    ∃ (off' : ℕ) (l' : List (Cell α)), skip off l = some (↑off', l') ∧ (∀ m ∈ l', m.Wf) ∧
      (∀ m ∈ l'.head?, off' ≤ m.m_len) ∧ (l' = [] → off' = 0) ∧
      count l' - off' = count l - off ∧
      (bytes l').drop off' = (bytes l).drop off.toNat := by
  induction l generalizing off with
  | nil =>
    obtain rfl : off = 0 := le_antisymm hle h₀
    exact ⟨0, [], rfl, hl, fun m hm => absurd hm (by simp), fun _ => rfl, rfl, rfl⟩
  | cons m l ih =>
    have hm := hl m List.mem_cons_self
    have hnonneg := hm.nonneg
    rw [skip]
    by_cases hhere : off ≤ 0 ∨ off < m.m_len
    · lift off to ℕ using h₀
      rw [if_pos hhere]
      refine ⟨off, m :: l, rfl, hl, fun m' hm' => ?_, fun h => absurd h (List.cons_ne_nil m l),
        rfl, rfl⟩
      obtain rfl : m = m' := Option.some.inj hm'
      omega
    · rw [count_cons] at hle ⊢
      obtain ⟨off', l', hskip, hl', hhead, hnil, hcount, hdrop⟩ :=
        @ih (fun m' hm' => hl m' (List.mem_cons_of_mem m hm')) (off - m.m_len) (by omega) (by omega)
      rw [if_neg hhere]
      exact ⟨off', l', hskip, hl', hhead, hnil, by omega,
        hdrop.trans (drop_bytes_cons hnonneg (by omega)).symm⟩

/-- A copy has the bytes that are asked for, and only mbufs of the free list are written to. -/
def Copies (copybuf : ℤ → ℤ) (mfreep l : List (Cell α)) (off len : ℤ) : Prop :=
  ∃ mfreep' top, m_copy copybuf mfreep l off len = some (mfreep', top) ∧
    (addrs top ++ addrs mfreep').Perm (addrs mfreep) ∧
    bytes top = slice off.toNat len (bytes l)

/-- The cases in which a copy of bytes that are there is one: none of them, or there are mbufs. -/
theorem copies_iff {copybuf : ℤ → ℤ} {off : ℤ} (hl : ∀ m ∈ l, m.Wf) (hne : l ≠ []) (h₀ : 0 ≤ off)
    (hlen : len = M_COPYALL ∧ off ≤ count l ∨ 0 ≤ len ∧ len < M_COPYALL ∧ off + len ≤ count l) :
    Copies copybuf mfreep l off len ↔
      slice off.toNat len (bytes l) = [] ∨ mbufs l off len ≤ mfreep.length := by
  have hvalue : M_COPYALL = 1000000000 := rfl
  rw [Copies, m_copy]
  by_cases hzero : len = 0
  · have hslice : slice off.toNat len (bytes l) = [] := by
      rw [slice, if_neg (by omega), hzero]
      rfl
    rw [if_pos hzero, hslice]
    exact iff_of_true ⟨_, _, rfl, List.Perm.refl _, rfl⟩ (Or.inl rfl)
  · obtain ⟨off', l', hskip, hl', hhead, hnil, hcount, hdrop⟩ := skip_spec hl h₀ (by omega)
    have hlen' : len = M_COPYALL ∧ (l' = [] → off' = 0) ∨
        0 ≤ len ∧ len < M_COPYALL ∧ off' + len ≤ count l' := by
      rcases hlen with hall | hlen
      · exact Or.inl ⟨hall.1, hnil⟩
      · exact Or.inr (by omega)
    obtain ⟨mfreep', top, hloop, hperm, htop⟩ :=
      @copyLoop_spec α l' mfreep off' len copybuf hl' hhead hlen'
    have hslice : slice off' len (bytes l') = slice off.toNat len (bytes l) := by
      rw [slice, slice, hdrop]
    have hmbufs : mbufs l off len = pieces off' len l' := by
      rw [mbufs, hskip]
      rfl
    rw [if_neg hzero, if_neg (by rintro (h | h | h) <;> first | exact hne h | omega), hskip,
      Option.bind_some, Int.toNat_natCast, hloop, Option.map_some, hmbufs]
    rw [hslice] at htop
    by_cases henough : pieces off' len l' ≤ mfreep.length
    · exact iff_of_true ⟨mfreep', top, by rw [decide_eq_true henough]; rfl, hperm, htop henough⟩
        (Or.inr henough)
    · rw [decide_eq_false henough, or_iff_left henough]
      constructor
      · rintro ⟨_, _, heq, -, hbytes⟩
        obtain ⟨-, rfl⟩ := Prod.mk.inj (Option.some.inj heq)
        exact hbytes.symm
      · exact fun h => ⟨_, _, rfl, addrs_m_freem.trans hperm, h.symm⟩

end Copy

/-! ## Joining -/

section Join

variable {m : Cell α} {l n mfreep : List (Cell α)}

/-- Joining chains is that of `AuxKernel.Net`. -/
theorem view_splat (hm : m.Wf) (hl : ∀ m ∈ l, m.Wf) :
    (splat mfreep m l).2.map Cell.view = Net.splat m.view (l.map Cell.view) := by
  induction l generalizing mfreep m with
  | nil => rfl
  | cons n l ih =>
    have hn := hl n List.mem_cons_self
    have hnonneg := hm.nonneg
    have hnonneg' := hn.nonneg
    have hshort := hm.short
    have hshort' := hn.short
    have hend : MMAXOFF = 252 := rfl
    rw [splat, List.map_cons, Net.splat, Cell.m_len_view, Cell.m_len_view]
    have hiff : (m.m_off ≥ MMAXOFF ∨ (m.m_off + m.m_len + n.m_len) % 2 ^ 32 > MMAXOFF) ↔
        (m.view.m_off ≥ MMAXOFF ∨ m.view.m_off + m.m_len.toNat + n.m_len.toNat > MMAXOFF) := by
      have hoff : m.view.m_off = m.m_off := rfl
      rw [hoff]
      omega
    by_cases hjoin : m.m_off ≥ MMAXOFF ∨ (m.m_off + m.m_len + n.m_len) % 2 ^ 32 > MMAXOFF
    · rw [if_pos hjoin, if_pos (hiff.1 hjoin)]
      rfl
    · obtain ⟨hdata, hlen⟩ := Cell.data_push (m := m) (n := n) hnonneg hnonneg' (by omega)
      have hpush : (m.push n n.m_len).Wf := by
        have hoff : (m.push n n.m_len).m_off = m.m_off := rfl
        constructor
        · rw [hlen]
          omega
        · rw [hlen]
          omega
        · intro hle
          have := hm.inside hle
          rw [hlen, hoff]
          omega
        · rw [hoff]
          omega
      rw [if_neg hjoin, if_neg (fun h => hjoin (hiff.2 h)),
        ih hpush fun m' hm' => hl m' (List.mem_cons_of_mem n hm')]
      congr 1
      rw [Cell.view, hdata]
      rfl

theorem view_m_cat (hm : m.Wf) (hl : ∀ m ∈ l, m.Wf) (hn : ∀ m ∈ n, m.Wf) :
    (m_cat mfreep m l n).2.map Cell.view =
      Net.m_cat m.view (l.map Cell.view) (n.map Cell.view) := by
  induction l generalizing m with
  | nil => exact view_splat hm hn
  | cons m' l ih =>
    simp only [m_cat, List.map_cons, Net.m_cat]
    rw [ih (hl m' List.mem_cons_self) fun m hm => hl m (List.mem_cons_of_mem m' hm)]

/-- A chain that is appended comes last. -/
theorem bytes_cat (hm : m.Wf) (hl : ∀ m ∈ l, m.Wf) (hn : ∀ m ∈ n, m.Wf) :
    bytes (m_cat mfreep m l n).2 = bytes (m :: l) ++ bytes n := by
  rw [← bytes_view, view_m_cat hm hl hn, bytes_m_cat, bytes_view, bytes_view]
  rfl

end Join

/-! ## Pulling up -/

section Pullup

variable {m : Cell α} {l mfreep : List (Cell α)} {len : ℤ}

/-- What the loop of `m_pullup` keeps: the bytes, the mbufs, and the number of bytes. -/
theorem pullLoop_spec (hl : ∀ m ∈ l, m.Wf) (hm : 0 ≤ m.m_len ∧ m.m_len ≤ MLEN) :
    let r := pullLoop mfreep m len l
    r.m.data ++ bytes r.n = m.data ++ bytes l ∧ r.m.m_len + r.len = m.m_len + len ∧
      r.m.addr = m.addr ∧
      (addrs r.n ++ addrs r.mfreep).Perm (addrs l ++ addrs mfreep) := by
  have hvalue : MLEN = 240 := rfl
  induction l generalizing mfreep m len with
  | nil => exact ⟨rfl, rfl, rfl, List.Perm.refl _⟩
  | cons n l ih =>
    have hn := hl n List.mem_cons_self
    have hnonneg := hn.nonneg
    have hl' : ∀ m' ∈ l, m'.Wf := fun m' hm' => hl m' (List.mem_cons_of_mem n hm')
    dsimp only
    rw [pullLoop]
    dsimp only
    generalize hk : min (min (MLEN - m.m_len) len) n.m_len = k
    by_cases hpos : k > 0
    · obtain ⟨hdata, hlen⟩ := Cell.data_push (m := m) (n := n) (k := k) hm.1 hpos.le (by omega)
      have hsplit : (m.push n k).data ++ (n.shave k).data = m.data ++ n.data := by
        rw [hdata, hn.data_shave hpos.le (by omega), List.append_assoc, ← Cell.take_read
          (show k.toNat ≤ n.m_len.toNat by omega), ← Cell.data, List.take_append_drop]
      have hshave := hn.m_len_shave hpos.le (show k ≤ n.m_len by omega)
      rw [if_pos hpos]
      split_ifs with hleft
      · refine ⟨?_, by dsimp only; rw [hlen]; omega, rfl, List.Perm.refl _⟩
        rw [bytes_cons, bytes_cons, ← List.append_assoc, hsplit, List.append_assoc]
      · have hnil : (n.shave k).data = [] :=
          List.eq_nil_of_length_eq_zero (by rw [Cell.length_data]; omega)
        obtain ⟨hbytes, hcount, haddr, hperm⟩ :=
          @ih (m.push n k) (MFREE mfreep (n.shave k)) (len - k) hl' (by omega)
        refine ⟨?_, by omega, haddr, hperm.trans List.perm_middle⟩
        rw [hnil, List.append_nil] at hsplit
        rw [hbytes, bytes_cons, hsplit, List.append_assoc]
    · rw [if_neg hpos]
      split_ifs with hleft
      · exact ⟨rfl, rfl, rfl, List.Perm.refl _⟩
      · have hnil : n.data = [] :=
          List.eq_nil_of_length_eq_zero (by rw [Cell.length_data]; omega)
        obtain ⟨hbytes, hcount, haddr, hperm⟩ := @ih m (MFREE mfreep n) len hl' hm
        refine ⟨?_, hcount, haddr, hperm.trans List.perm_middle⟩
        rw [hbytes, bytes_cons, hnil, List.nil_append]

/-- Its mbufs stay well formed, and it stops before the end of the chain only when it is done. -/
theorem pullLoop_rest (hl : ∀ m ∈ l, m.Wf) (hm : 0 ≤ m.m_len) (h₀ : 0 ≤ len)
    (hle : m.m_len + len ≤ MLEN) :
    let r := pullLoop mfreep m len l
    0 ≤ r.m.m_len ∧ 0 ≤ r.len ∧ (r.len ≠ 0 → r.n = []) ∧ r.m.m_off = m.m_off ∧
      ∀ m ∈ r.n, m.Wf := by
  have hvalue : MLEN = 240 := rfl
  induction l generalizing mfreep m len with
  | nil => exact ⟨hm, h₀, fun _ => rfl, rfl, hl⟩
  | cons n l ih =>
    have hn := hl n List.mem_cons_self
    have hl' : ∀ m' ∈ l, m'.Wf := fun m' hm' => hl m' (List.mem_cons_of_mem n hm')
    have hnonneg := hn.nonneg
    dsimp only
    rw [pullLoop]
    dsimp only
    generalize hk : min (min (MLEN - m.m_len) len) n.m_len = k
    by_cases hpos : k > 0
    · obtain ⟨-, hlen⟩ := Cell.data_push (m := m) (n := n) (k := k) hm hpos.le (by omega)
      have hshave := hn.m_len_shave hpos.le (show k ≤ n.m_len by omega)
      rw [if_pos hpos]
      split_ifs with hleft
      · dsimp only
        refine ⟨by omega, by omega, fun h => absurd (show len - k = 0 by omega) h, rfl,
          List.forall_mem_cons.2 ⟨hn.shave hpos.le (by omega), hl'⟩⟩
      · exact @ih (m.push n k) (MFREE mfreep (n.shave k)) (len - k) hl' (by omega) (by omega)
          (by omega)
    · rw [if_neg hpos]
      split_ifs with hleft
      · exact ⟨hm, h₀, fun h => absurd (show len = 0 by omega) h, rfl, hl⟩
      · exact @ih m (MFREE mfreep n) len hl' hm h₀ hle

/-- A chain is pulled up if it is long enough and there is an mbuf. -/
theorem m_pullup_eq (hl : ∀ m ∈ l, m.Wf) (hne : l ≠ []) (h₀ : 0 ≤ len) (hlong : len ≤ MLEN) :
    ∃ mfreep' l', m_pullup mfreep l len = some (mfreep', l') ∧
      (l' ≠ [] ↔ mfreep ≠ [] ∧ len ≤ count l) ∧
      ∀ m ∈ l'.head?, m.m_off ≤ MMAXOFF ∧ m.m_len = len ∧ (∀ m' ∈ l', m'.Wf) ∧
        bytes l' = bytes l := by
  have hvalue : MLEN = 240 := rfl
  rw [m_pullup, if_neg (not_lt.2 hlong), if_neg hne]
  rcases mfreep with _ | ⟨m, mfreep⟩
  · exact ⟨_, _, rfl, by simp, fun m hm => absurd hm (by simp)⟩
  · have hzero : (0 : ℤ) ≤ MLEN := by decide
    obtain ⟨hbytes, hcount, -, -⟩ :=
      @pullLoop_spec α { m with m_off := MMINOFF, m_len := 0 } l mfreep len hl ⟨le_rfl, hzero⟩
    obtain ⟨hnonneg, hpos, hrest, hoff, hwf⟩ :=
      @pullLoop_rest α { m with m_off := MMINOFF, m_len := 0 } l mfreep len hl le_rfl h₀ (by
        dsimp only
        omega)
    rw [MGET]
    dsimp only at hbytes hcount hnonneg hpos hrest hoff hwf ⊢
    generalize pullLoop mfreep { m with m_off := MMINOFF, m_len := 0 } len l = r at *
    have htotal : r.m.m_len + count r.n = count l := by
      have h₁ := length_bytes fun m hm => (hl m hm).nonneg
      have h₂ := length_bytes fun m hm => (hwf m hm).nonneg
      have h₃ := congrArg List.length hbytes
      rw [List.length_append, List.length_append, Cell.length_data, Cell.length_data] at h₃
      dsimp only at h₃
      omega
    by_cases hleft : r.len ≠ 0
    · rw [if_pos hleft]
      rw [hrest hleft, count_nil] at htotal
      refine ⟨_, _, rfl, iff_of_false (fun h => h rfl) (by omega), fun m hm => absurd hm (by simp)⟩
    · rw [if_neg hleft]
      have hleft' : 0 ≤ count r.n := count_nonneg fun m hm => (hwf m hm).nonneg
      refine ⟨_, _, rfl, iff_of_true (List.cons_ne_nil _ _) ⟨List.cons_ne_nil _ _, by omega⟩,
        fun m' hm' => ?_⟩
      obtain rfl : r.m = m' := Option.some.inj hm'
      have hmin : MMINOFF = 12 := rfl
      have hmax : MMAXOFF = 252 := rfl
      have hm : r.m.Wf := ⟨hnonneg, by omega, by omega, by omega⟩
      exact ⟨by omega, by omega, List.forall_mem_cons.2 ⟨hm, hwf⟩, hbytes⟩

/-- A chain is pulled up: it keeps its bytes, of which the first mbuf has as many as are asked for,
    or none is returned, and all of its mbufs are free, once each. -/
def PullsUp (mfreep l : List (Cell α)) (len : ℤ) : Prop :=
  ∃ mfreep' l', m_pullup mfreep l len = some (mfreep', l') ∧
    ((∃ m n, l' = m :: n ∧ len ≤ m.m_len ∧ bytes l' = bytes l) ∨
      (l' = [] ∧ (addrs mfreep').Perm (addrs l ++ addrs mfreep)))

theorem pullsUp (hl : ∀ m ∈ l, m.Wf) (hne : l ≠ []) : PullsUp mfreep l len := by
  rw [PullsUp, m_pullup]
  by_cases hlong : len > MLEN
  · rw [if_pos hlong]
    exact ⟨_, _, rfl, Or.inr ⟨rfl, addrs_m_freem⟩⟩
  rw [if_neg hlong, if_neg hne]
  rcases mfreep with _ | ⟨m, mfreep⟩
  · exact ⟨_, _, rfl, Or.inr ⟨rfl, addrs_m_freem⟩⟩
  · obtain ⟨hbytes, hcount, haddr, hperm⟩ :=
      @pullLoop_spec α { m with m_off := MMINOFF, m_len := 0 } l mfreep len hl
        ⟨le_rfl, show (0 : ℤ) ≤ MLEN by decide⟩
    rw [MGET]
    dsimp only at hbytes hcount haddr hperm ⊢
    generalize pullLoop mfreep { m with m_off := MMINOFF, m_len := 0 } len l = r at *
    by_cases hleft : r.len ≠ 0
    · rw [if_pos hleft]
      refine ⟨_, _, rfl, Or.inr ⟨rfl, addrs_m_freem.trans ?_⟩⟩
      have hfree : addrs (MFREE r.mfreep r.m) = m.addr :: addrs r.mfreep := by
        rw [← haddr]
        rfl
      rw [hfree]
      exact List.perm_middle.trans ((hperm.cons _).trans List.perm_middle.symm)
    · rw [if_neg hleft]
      exact ⟨_, _, rfl, Or.inl ⟨_, _, rfl, by omega, hbytes⟩⟩

end Pullup

/-! ## Copying out -/

section CopyOut

variable {m : Cell α} {l l₁ l₂ : List (Cell α)} {off len : ℤ}

/-- Where an offset is for `m_cpytoc`, if it is inside the chain. -/
theorem seek_spec (hl : ∀ m ∈ l, m.Wf) (h₀ : 0 ≤ off) :
    0 ≤ (seek off l).1 ∧ (∀ m ∈ (seek off l).2, m.Wf) ∧
      (∀ m ∈ (seek off l).2.head?, (seek off l).1 ≤ m.m_len) ∧
      count (seek off l).2 - (seek off l).1 = count l - off ∧
      (bytes (seek off l).2).drop (seek off l).1.toNat = (bytes l).drop off.toNat := by
  induction l generalizing off with
  | nil => exact ⟨h₀, hl, fun m hm => absurd hm (by simp [seek]), rfl, rfl⟩
  | cons m l ih =>
    have hnonneg := (hl m List.mem_cons_self).nonneg
    rw [seek]
    split_ifs with hpast
    · obtain ⟨hoff, hl', hhead, hcount, hdrop⟩ :=
        @ih (off - m.m_len) (fun m' hm' => hl m' (List.mem_cons_of_mem m hm')) (by omega)
      refine ⟨hoff, hl', hhead, ?_, hdrop.trans (drop_bytes_cons hnonneg hpast.2).symm⟩
      rw [hcount, count_cons]
      omega
    · refine ⟨h₀, hl, fun m' hm' => ?_, rfl, rfl⟩
      obtain rfl : m = m' := Option.some.inj hm'
      dsimp only
      omega

/-- The loop stops where an mbuf ends. -/
theorem cpyLoop_append (hl : ∀ m ∈ l₁, 0 ≤ m.m_len) :
    cpyLoop (count l₁) (l₁ ++ l₂) = (bytes l₁, 0) := by
  induction l₁ with
  | nil =>
    cases l₂ with
    | nil => rfl
    | cons m l => rw [count_nil, List.nil_append, cpyLoop, if_pos rfl]; rfl
  | cons m l₁ ih =>
    have hl' : ∀ m' ∈ l₁, 0 ≤ m'.m_len := fun m' hm' => hl m' (List.mem_cons_of_mem m hm')
    rw [List.cons_append, cpyLoop]
    by_cases hzero : count (m :: l₁) = 0
    · have hnil : bytes (m :: l₁) = [] := List.eq_nil_of_length_eq_zero (by
        have := length_bytes hl
        omega)
      rw [if_pos hzero, hnil, hzero]
    · rw [if_neg hzero, count_cons, add_sub_cancel_left, ih hl']
      rfl

/-- Where it does not, or only behind the last one, it goes on to the end. -/
theorem cpyLoop_of_forall (hl : ∀ m ∈ l, 0 ≤ m.m_len)
    (h : ∀ l₁ l₂, l = l₁ ++ l₂ → len = count l₁ → bytes l₂ = []) :
    cpyLoop len l = (bytes l, len - count l) := by
  induction l generalizing len with
  | nil => rw [cpyLoop, count_nil, Int.sub_zero]; rfl
  | cons m l ih =>
    have hl' : ∀ m' ∈ l, 0 ≤ m'.m_len := fun m' hm' => hl m' (List.mem_cons_of_mem m hm')
    rw [cpyLoop]
    by_cases hzero : len = 0
    · have hnil := h [] (m :: l) rfl hzero
      have hcount := length_bytes hl
      rw [hnil] at hcount
      rw [if_pos hzero, hnil, ← hcount]
      exact Prod.ext rfl (Int.sub_zero len).symm
    · rw [if_neg hzero, ih hl' fun l₁ l₂ heq hlen =>
        h (m :: l₁) l₂ (congrArg (m :: ·) heq) (by rw [count_cons]; omega)]
      refine Prod.ext rfl ?_
      rw [count_cons]
      dsimp only
      omega

/-- The bytes that are asked for, as many as there are, are copied out. -/
def CopiesOut (l : List (Cell α)) (off len : ℤ) : Prop :=
  ∃ w left, m_cpytoc l off len = some (w, left) ∧
    w = ((bytes l).drop off.toNat).take len.toNat ∧ left = len - w.length

/-- The bytes that are asked for are in the first mbuf, or end where an mbuf ends, or go up to the
    end of the chain. -/
def EndsAt (off len : ℤ) : List (Cell α) → Prop
  | [] => True
  | m :: l => off + len ≤ m.m_len ∨ (∃ l₁ l₂, l = l₁ ++ l₂ ∧ off + len = m.m_len + count l₁) ∨
      m.m_len + count l ≤ off + len

/-- So do the bytes from the mbuf at `off` on. -/
def EndsWell (l : List (Cell α)) (off len : ℤ) : Prop := EndsAt (seek off l).1 len (seek off l).2

theorem copiesOut_iff (hl : ∀ m ∈ l, m.Wf) (hne : l ≠ []) (h₀ : 0 ≤ off) (hlen : 0 ≤ len) :
    CopiesOut l off len ↔ EndsWell l off len := by
  obtain ⟨hoff, hl', hhead, -, hdrop⟩ := seek_spec hl h₀
  rw [CopiesOut, EndsWell, m_cpytoc, if_neg (by rintro (h | h | h) <;> first | exact hne h | omega),
    ← hdrop]
  generalize (seek off l).1 = off' at *
  generalize (seek off l).2 = l' at *
  cases l' with
  | nil =>
    refine iff_of_true ⟨_, _, rfl, ?_, (Int.sub_zero len).symm⟩ trivial
    rw [bytes_nil, List.drop_nil, List.take_nil]
  | cons m l' =>
    have hm := hl' m List.mem_cons_self
    have hrest : ∀ m' ∈ l', 0 ≤ m'.m_len := fun m' hm' =>
      (hl' m' (List.mem_cons_of_mem m hm')).nonneg
    have hle : off' ≤ m.m_len := hhead m rfl
    have hlast := length_bytes hrest
    have hdata : (bytes (m :: l')).drop off'.toNat = m.data.drop off'.toNat ++ bytes l' := by
      rw [bytes_cons, List.drop_append_of_le_length (by rw [Cell.length_data]; omega)]
    have hread : m.read off'.toNat (m.m_len - off').toNat = m.data.drop off'.toNat := by
      rw [Cell.data, Cell.drop_read (by omega), Nat.zero_add, Int.toNat_sub'' hm.nonneg hoff]
    have hfirst : (m.data.drop off'.toNat).length = m.m_len.toNat - off'.toNat := by
      rw [List.length_drop, Cell.length_data]
    rw [hdata, cpyFrom, EndsAt]
    by_cases hin : off' + len ≤ m.m_len
    · have hloop : cpyLoop 0 l' = ([], 0) :=
        @cpyLoop_append α [] l' fun m hm => absurd hm List.not_mem_nil
      rw [min_eq_left (by omega), Int.sub_self, hloop, List.append_nil]
      refine iff_of_true ⟨_, _, rfl, ?_, ?_⟩ (Or.inl hin)
      · rw [List.take_append_of_le_length (by omega), ← hread, Cell.take_read (by omega)]
      · rw [Cell.length_read]
        omega
    · rw [min_eq_right (by omega), hread, or_iff_right hin]
      by_cases hend : ∃ l₁ l₂, l' = l₁ ++ l₂ ∧ off' + len = m.m_len + count l₁
      · refine iff_of_true ?_ (Or.inl hend)
        obtain ⟨l₁, l₂, rfl, hlen'⟩ := hend
        have hrest₁ : ∀ m' ∈ l₁, 0 ≤ m'.m_len := fun m' hm' => hrest m' (List.mem_append_left _ hm')
        have hpart := length_bytes hrest₁
        have hw : (m.data.drop off'.toNat ++ bytes l₁).length = len.toNat := by
          rw [List.length_append]
          omega
        rw [show len - (m.m_len - off') = count l₁ by omega, cpyLoop_append hrest₁]
        refine ⟨_, _, rfl, ?_, ?_⟩
        · rw [bytes_append, ← List.append_assoc, List.take_left' hw]
        · rw [hw]
          omega
      · have hw : (m.data.drop off'.toNat ++ bytes l').length =
            m.m_len.toNat - off'.toNat + (bytes l').length := by
          rw [List.length_append, hfirst]
        rw [or_iff_right hend, cpyLoop_of_forall hrest fun l₁ l₂ heq hlen' =>
          absurd ⟨l₁, l₂, heq, by omega⟩ hend]
        clear hend
        dsimp only
        constructor
        · rintro ⟨_, _, heq, hw', -⟩
          obtain ⟨rfl, -⟩ := Prod.mk.inj (Option.some.inj heq)
          have := congrArg List.length hw'
          rw [List.length_take] at this
          omega
        · intro hall
          refine ⟨_, _, rfl, (List.take_of_length_le (by omega)).symm, ?_⟩
          rw [hw]
          omega

end CopyOut

/-! ## All of them -/

section AsBytes

variable {m : Cell α} {l : List (Cell α)}

/-- The calls do to a chain what they do to the string of its bytes. -/
structure AsBytes (m : Cell α) (l : List (Cell α)) : Prop where
  adj : ∀ len : ℤ, -2 ^ 31 ≤ len → len < 2 ^ 31 → Adjusts (m :: l) len
  copy : ∀ copybuf mfreep off len, 0 ≤ off →
    len = M_COPYALL ∧ off ≤ count (m :: l) ∨ 0 ≤ len ∧ off + len ≤ count (m :: l) →
    Copies copybuf mfreep (m :: l) off len
  cat : ∀ mfreep n : List (Cell α), (∀ m' ∈ n, m'.Wf) →
    bytes (m_cat mfreep m l n).2 = bytes (m :: l) ++ bytes n
  pullup : ∀ mfreep len, PullsUp mfreep (m :: l) len
  cpytoc : ∀ off len, 0 ≤ off → 0 ≤ len → CopiesOut (m :: l) off len

/-- When they do. -/
theorem asBytes_iff (hl : ∀ m' ∈ m :: l, m'.Wf) (hall : count (m :: l) ≤ M_COPYALL) :
    (∀ len : ℤ, -2 ^ 31 ≤ len → len < 2 ^ 31 → (Adjusts (m :: l) len ↔ 0 ≤ len ∨
      ((-len ≤ count (m :: l) ∨ 2 ^ 16 ∣ count (m :: l) + len) ∧
        (len = -2 ^ 31 → count (m :: l) = 0)))) ∧
    (∀ copybuf mfreep off len, 0 ≤ off →
      len = M_COPYALL ∧ off ≤ count (m :: l) ∨ 0 ≤ len ∧ off + len ≤ count (m :: l) →
      (Copies copybuf mfreep (m :: l) off len ↔
        slice off.toNat len (bytes (m :: l)) = [] ∨ mbufs (m :: l) off len ≤ mfreep.length)) ∧
    (∀ mfreep n : List (Cell α), (∀ m' ∈ n, m'.Wf) →
      bytes (m_cat mfreep m l n).2 = bytes (m :: l) ++ bytes n) ∧
    (∀ mfreep len, PullsUp mfreep (m :: l) len) ∧
    ∀ off len, 0 ≤ off → 0 ≤ len →
      (CopiesOut (m :: l) off len ↔ EndsWell (m :: l) off len) := by
  have hne : m :: l ≠ [] := List.cons_ne_nil m l
  have hm := hl m List.mem_cons_self
  have hl' : ∀ m' ∈ l, m'.Wf := fun m' hm' => hl m' (List.mem_cons_of_mem m hm')
  exact ⟨fun len h₀ h₁ => adjusts_iff hl hne h₀ h₁,
    fun copybuf mfreep off len h₀ hlen => copies_iff hl hne h₀ (by omega),
    fun mfreep n hn => bytes_cat hm hl' hn, fun mfreep len => pullsUp hl hne,
    fun off len h₀ hlen => copiesOut_iff hl hne h₀ hlen⟩

end AsBytes

/-- An mbuf of three bytes. -/
def threeBytes : Cell ℕ where
  addr := 0
  m_off := 12
  m_len := 3
  m_cltype := 0
  mtod := id

theorem wf_threeBytes : ∀ m ∈ [threeBytes], m.Wf := by
  rw [List.forall_mem_singleton]
  exact ⟨by decide, by decide, by decide, by decide⟩

theorem asBytes_threeBytes : Adjusts [threeBytes] (-3) ∧
    Copies (fun _ => 0) [threeBytes] [threeBytes] 1 2 ∧ PullsUp [threeBytes] [threeBytes] 4 ∧
      CopiesOut [threeBytes] 1 2 := by
  obtain ⟨hadj, hcopy, -, hpull, hout⟩ := asBytes_iff wf_threeBytes (by decide)
  exact ⟨(hadj (-3) (by decide) (by decide)).2 (by decide),
    (hcopy _ _ 1 2 (by decide) (by decide)).2 (Or.inr (by decide)), hpull _ _,
    (hout 1 2 (by decide) (by decide)).2 (Or.inl (by decide))⟩

/-- A trim of four bytes leaves a length of `-1`. -/
theorem not_asBytes : ¬∀ (m : Cell ℕ) (l : List (Cell ℕ)), (∀ m' ∈ m :: l, m'.Wf) →
    count (m :: l) ≤ M_COPYALL → AsBytes m l := by
  intro h
  have := ((h threeBytes [] wf_threeBytes (by decide)).adj (-4) (by decide) (by decide)).2
  exact absurd this (by decide)

end AuxKernel.Net.Chain
