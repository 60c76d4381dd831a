import AuxKernel.Basic

/-!
# Mbuf chains and socket buffers

The contents of mbufs: a chain is the list of its mbufs, each with the bytes at its
data pointer. `m_adj` and `m_cat` (`NET/sys/uipc_mbuf.c`) shave a chain and join two,
and `sbappend` and `sbdrop` (`NET/sys/socket2.c`) put one at the end of a socket
buffer and take bytes from its front.
-/

namespace AuxKernel.Net

/-- The size of an mbuf, and the offset where its data end. -/
def MSIZE : ℕ := 256
@[inherit_doc MSIZE]
def MMAXOFF : ℕ := MSIZE - 4

/-- The size of a cluster. -/
def MCLBYTES : ℕ := 1024

/-- An mbuf: the offset of its data, the `m_len` bytes there, and whether it ends a
    record (`m_act`). -/
structure Mbuf (α : Type*) where
  m_off : ℕ
  data : List α
  m_act : Bool

variable {α : Type*}

def Mbuf.m_len (m : Mbuf α) : ℕ := m.data.length

/-- The bytes of a chain. -/
def bytes (l : List (Mbuf α)) : List α := l.flatMap Mbuf.data

@[simp] theorem bytes_nil : bytes ([] : List (Mbuf α)) = [] := rfl

@[simp] theorem bytes_cons (m : Mbuf α) (l : List (Mbuf α)) : bytes (m :: l) = m.data ++ bytes l :=
  rfl

@[simp] theorem bytes_append (l l' : List (Mbuf α)) : bytes (l ++ l') = bytes l ++ bytes l' :=
  List.flatMap_append

/-! ## Shaving a chain -/

/-- Shave `len` bytes off the front of a chain (what `m_adj` does with a negative
    length is not used on queued segments). -/
def m_adj : List (Mbuf α) → (len : ℕ) → List (Mbuf α)
  | [], _ => []
  | m :: l, len =>
    if len = 0 then m :: l
    else if m.m_len ≤ len then { m with data := [] } :: m_adj l (len - m.m_len)
    else { m with m_off := m.m_off + len, data := m.data.drop len } :: l

@[simp] theorem bytes_m_adj (l : List (Mbuf α)) (len : ℕ) :
    bytes (m_adj l len) = (bytes l).drop len := by
  induction l generalizing len with
  | nil => simp [m_adj]
  | cons m l ih =>
    rw [m_adj]
    split_ifs with h₀ hlen
    · simp [h₀]
    · rw [bytes_cons, ih, bytes_cons, List.drop_append, List.drop_eq_nil_of_le hlen]
      rfl
    · rw [Mbuf.m_len, not_le] at hlen
      rw [bytes_cons, bytes_cons, List.drop_append_of_le_length hlen.le]

/-! ## Joining chains -/

/-- Append the chain to an mbuf, splatting data into it as long as they fit. -/
def splat (m : Mbuf α) : List (Mbuf α) → List (Mbuf α)
  | [] => [m]
  | n :: l =>
    if m.m_off ≥ MMAXOFF ∨ m.m_off + m.m_len + n.m_len > MMAXOFF then m :: n :: l
    else splat { m with data := m.data ++ n.data } l

/-- Append the chain `n` to the end of the chain `m :: l`. -/
def m_cat (m : Mbuf α) : (l n : List (Mbuf α)) → List (Mbuf α)
  | [], n => splat m n
  | m' :: l, n => m :: m_cat m' l n

theorem bytes_splat (m : Mbuf α) (l : List (Mbuf α)) : bytes (splat m l) = m.data ++ bytes l := by
  induction l generalizing m with
  | nil => simp [splat]
  | cons n l ih =>
    rw [splat]
    split_ifs
    · simp
    · simp [ih]

theorem bytes_m_cat (m : Mbuf α) (l n : List (Mbuf α)) :
    bytes (m_cat m l n) = m.data ++ bytes l ++ bytes n := by
  induction l generalizing m with
  | nil => simp [m_cat, bytes_splat]
  | cons m' l ih => simp [m_cat, ih]

/-! ## Socket buffers -/

/-- A socket buffer: its mbufs, the bytes in them, and the bytes the mbufs take. -/
structure Sockbuf (α : Type*) where
  sb_mb : List (Mbuf α)
  sb_cc : ℤ
  sb_mbcnt : ℤ

namespace Sockbuf

/-- Count an mbuf that is added. -/
def sballoc (sb : Sockbuf α) (m : Mbuf α) : Sockbuf α :=
  { sb with
    sb_cc := toShort (sb.sb_cc + m.m_len)
    sb_mbcnt := toShort (sb.sb_mbcnt + MSIZE + if m.m_off > MMAXOFF then MCLBYTES else 0) }

/-- Count an mbuf that is freed. -/
def sbfree (sb : Sockbuf α) (m : Mbuf α) : Sockbuf α :=
  { sb with
    sb_cc := toShort (sb.sb_cc - m.m_len)
    sb_mbcnt := toShort (sb.sb_mbcnt - MSIZE - if m.m_off > MMAXOFF then MCLBYTES else 0) }

/-- Whether `m` can be copied to the end of `n`, in the same mbuf. -/
def fits (n m : Mbuf α) : Bool :=
  n.m_off ≤ MMAXOFF && m.m_off ≤ MMAXOFF && !n.m_act && !m.m_act &&
    n.m_off + n.m_len + m.m_len ≤ MMAXOFF

/-- Append an mbuf that is not empty, or ends a record. -/
def sbappend1 (sb : Sockbuf α) (m : Mbuf α) : Sockbuf α :=
  match sb.sb_mb.getLast? with
  | some n =>
    if fits n m then
      { sb with
        sb_mb := sb.sb_mb.dropLast ++ [{ n with data := n.data ++ m.data }]
        sb_cc := toShort (sb.sb_cc + m.m_len) }
    else { sb.sballoc m with sb_mb := sb.sb_mb ++ [m] }
  | none => { sb.sballoc m with sb_mb := sb.sb_mb ++ [m] }

/-- Append a chain. -/
def sbappend (sb : Sockbuf α) : List (Mbuf α) → Sockbuf α
  | [] => sb
  | m :: l =>
    if m.m_len = 0 ∧ m.m_act = false then sbappend sb l else sbappend (sb.sbappend1 m) l

/-- Drop the first `len` bytes; `none` if there are not as many (it panics). -/
def sbdrop (sb : Sockbuf α) : (len : ℕ) → List (Mbuf α) → Option (Sockbuf α)
  | 0, l => some { sb with sb_mb := l }
  | _ + 1, [] => none
  | len + 1, m :: l =>
    if m.m_len > len + 1 then
      some { sb with
        sb_mb := { m with m_off := m.m_off + (len + 1), data := m.data.drop (len + 1) } :: l
        sb_cc := toShort (sb.sb_cc - (len + 1)) }
    else sbdrop (sb.sbfree m) (len + 1 - m.m_len) l

/-- The bytes in a socket buffer. -/
def contents (sb : Sockbuf α) : List α := bytes sb.sb_mb

theorem contents_sbappend1 (sb : Sockbuf α) (m : Mbuf α) :
    (sb.sbappend1 m).contents = sb.contents ++ m.data := by
  rw [sbappend1]
  split
  next n hn =>
    obtain ⟨l, hl⟩ := List.getLast?_eq_some_iff.1 hn
    split_ifs <;> simp [contents, hl]
  next => simp [contents]

/-- The bytes of a chain that is appended come last. -/
theorem contents_sbappend (sb : Sockbuf α) (l : List (Mbuf α)) :
    (sb.sbappend l).contents = sb.contents ++ bytes l := by
  induction l generalizing sb with
  | nil => simp [sbappend]
  | cons m l ih =>
    rw [sbappend]
    split_ifs with h
    · rw [ih, bytes_cons, List.eq_nil_of_length_eq_zero h.1, List.nil_append]
    · rw [ih, contents_sbappend1, bytes_cons, List.append_assoc]

/-- The bytes that are dropped come first. -/
theorem contents_sbdrop {sb sb' : Sockbuf α} {len : ℕ} {l : List (Mbuf α)}
    (h : sb.sbdrop len l = some sb') : sb'.contents = (bytes l).drop len := by
  induction sb, len, l using sbdrop.induct with
  | case1 sb l =>
    rw [sbdrop] at h
    obtain rfl := Option.some.inj h
    rfl
  | case2 sb len => exact absurd h (by simp [sbdrop])
  | case3 sb len m l hlt =>
    rw [sbdrop, if_pos hlt] at h
    obtain rfl := Option.some.inj h
    rw [Mbuf.m_len] at hlt
    simp [contents, List.drop_append_of_le_length hlt.le]
  | case4 sb len m l hle ih =>
    rw [sbdrop, if_neg hle] at h
    rw [Mbuf.m_len, not_lt] at hle
    rw [ih h, bytes_cons, List.drop_append, List.drop_eq_nil_of_le hle]
    rfl

/-- The number of the bytes in a socket buffer is right. -/
def Counted (sb : Sockbuf α) : Prop := sb.sb_cc = sb.contents.length

theorem sb_cc_sbappend1 (sb : Sockbuf α) (m : Mbuf α) :
    (sb.sbappend1 m).sb_cc = toShort (sb.sb_cc + m.m_len) := by
  rw [sbappend1]
  split
  · split_ifs <;> rfl
  · rfl

theorem Counted.sbappend {sb : Sockbuf α} (h : sb.Counted) {l : List (Mbuf α)}
    (hl : sb.contents.length + (bytes l).length ≤ 32767) : (sb.sbappend l).Counted := by
  induction l generalizing sb with
  | nil => exact h
  | cons m l ih =>
    rw [bytes_cons, List.length_append] at hl
    rw [Sockbuf.sbappend]
    split_ifs with h₀
    · exact ih h (by omega)
    · have hlen : (sb.sbappend1 m).contents.length = sb.contents.length + m.data.length := by
        rw [contents_sbappend1, List.length_append]
      refine ih ?_ (by omega)
      rw [Counted, sb_cc_sbappend1, hlen, h, Mbuf.m_len]
      exact toShort_of_mem (by omega) (by omega)

/-- As many bytes as there are can be dropped. -/
theorem sbdrop_spec {sb : Sockbuf α} {len : ℕ} {l : List (Mbuf α)} (hlen : len ≤ (bytes l).length)
    (hl : (bytes l).length ≤ 32767) (hcc : sb.sb_cc = (bytes l).length) :
    ∃ sb', sb.sbdrop len l = some sb' ∧ sb'.Counted := by
  induction sb, len, l using sbdrop.induct with
  | case1 sb l =>
    rw [sbdrop]
    exact ⟨_, rfl, hcc⟩
  | case2 sb len => exact absurd hlen (by simp)
  | case3 sb len m l hlt =>
    rw [sbdrop, if_pos hlt]
    refine ⟨_, rfl, ?_⟩
    rw [Mbuf.m_len] at hlt
    rw [bytes_cons, List.length_append] at hl hcc
    simp only [Counted, contents, bytes_cons, List.length_append, List.length_drop, hcc]
    rw [toShort_of_mem (by omega) (by omega)]
    omega
  | case4 sb len m l hle ih =>
    rw [sbdrop, if_neg hle]
    rw [Mbuf.m_len, not_lt] at hle
    rw [bytes_cons, List.length_append] at hlen hl hcc
    refine ih (by rw [Mbuf.m_len]; omega) (by omega) ?_
    simp only [sbfree, Mbuf.m_len]
    rw [hcc, toShort_of_mem (by omega) (by omega)]
    omega

end Sockbuf

end AuxKernel.Net
