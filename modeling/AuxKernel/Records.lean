import Mathlib.Algebra.Order.BigOperators.Group.List
import Mathlib.Logic.Function.Basic

/-!
# Records in a memory

A memory has, at an address, the record that begins there, if there is one. Records are chained
from an address to another one if each begins where the one before it ends (`Memory.Chain`): they
are found one after the other by their lengths.

* `Chain.congr`, `Chain.shift`: the chain is in the memory between the two addresses;
* `Chain.put`, `Chain.stretch`: a record behind the last one, and a longer last one.
-/

namespace AuxKernel

/-- A memory of records, by their first addresses. -/
abbrev Memory (α : Type*) := ℕ → Option α

namespace Memory

variable {α : Type*} (len : α → ℕ)

/-- The records `l` follow each other from `a` to `e`. -/
def Chain (m : Memory α) : ℕ → List α → ℕ → Prop
  | a, [], e => a = e
  | a, r :: l, e => m a = some r ∧ 0 < len r ∧ Chain m (a + len r) l e

/-- Put a record at an address, over what there is in its place. -/
def put (m : Memory α) (a : ℕ) (r : α) : Memory α := fun b =>
  if b = a then some r else if a < b ∧ b < a + len r then none else m b

/-- Change the record at an address. -/
def modify (m : Memory α) (a : ℕ) (f : α → α) : Memory α := Function.update m a ((m a).map f)

variable {len} {m m' : Memory α} {a b e : ℕ} {l l' : List α} {r : α}

theorem Chain.le (h : Chain len m a l e) : a ≤ e := by
  induction l generalizing a with
  | nil => exact Nat.le_of_eq h
  | cons r l ih => exact (Nat.le_add_right a _).trans (ih h.2.2)

/-- Two chains in a row. -/
theorem chain_append : ∀ {a : ℕ} {l : List α},
    Chain len m a (l ++ l') e ↔ ∃ b, Chain len m a l b ∧ Chain len m b l' e
  | a, [] => ⟨fun h => ⟨a, rfl, h⟩, fun ⟨_, h, h'⟩ => h ▸ h'⟩
  | a, r :: l => by
    rw [List.cons_append, Chain, chain_append]
    constructor
    · rintro ⟨hm, hr, b, h, h'⟩
      exact ⟨b, ⟨hm, hr, h⟩, h'⟩
    · rintro ⟨b, ⟨hm, hr, h⟩, h'⟩
      exact ⟨hm, hr, b, h, h'⟩

/-- A chain is found in another memory that is the same between the two addresses. -/
theorem Chain.congr : ∀ {a : ℕ} {l : List α}, Chain len m a l e →
    (∀ b, a ≤ b → b < e → m' b = m b) → Chain len m' a l e
  | _, [], h, _ => h
  | a, r :: l, ⟨hm, hr, h⟩, heq => by
    have hlt : a < e := Nat.lt_of_lt_of_le (Nat.lt_add_of_pos_right hr) h.le
    exact ⟨(heq a (Nat.le_refl a) hlt).trans hm, hr, h.congr fun b hb => heq b (by omega)⟩

/-- A chain that is copied to another place. -/
theorem Chain.shift {n : ℕ} : ∀ {a : ℕ} {l : List α}, Chain len m a l e →
    (∀ b, a ≤ b → b < e → m' (n + b) = m b) → Chain len m' (n + a) l (n + e)
  | _, [], h, _ => congrArg (n + ·) h
  | a, r :: l, ⟨hm, hr, h⟩, heq => by
    have hlt : a < e := Nat.lt_of_lt_of_le (Nat.lt_add_of_pos_right hr) h.le
    refine ⟨(heq a (Nat.le_refl a) hlt).trans hm, hr, ?_⟩
    rw [Nat.add_assoc]
    exact h.shift fun b hb => heq b (by omega)

/-- Only the empty chain goes nowhere. -/
theorem Chain.eq_nil (h : Chain len m a l a) : l = [] := by
  cases l with
  | nil => rfl
  | cons r l =>
    have hle := h.2.2.le
    have hr := h.2.1
    omega

/-- The records are those that the lengths lead to. -/
theorem Chain.unique : ∀ {a : ℕ} {l l' : List α}, Chain len m a l e → Chain len m a l' e → l = l'
  | _, [], l', h, h' => by
    obtain rfl := h
    exact h'.eq_nil.symm
  | _, r :: l, [], h, h' => by
    obtain rfl := h'
    exact h.eq_nil
  | _, r :: l, r' :: l', ⟨hm, _, h⟩, ⟨hm', _, h'⟩ => by
    obtain rfl := Option.some.inj (hm.symm.trans hm')
    rw [h.unique h']

/-- A record is put behind the last one. -/
theorem Chain.put (h : Chain len m a l e) (hr : 0 < len r) :
    Chain len (put len m e r) a (l ++ [r]) (e + len r) := by
  refine chain_append.2 ⟨e, h.congr fun b _ hb => ?_, if_pos rfl, hr, rfl⟩
  rw [Memory.put, if_neg (by omega), if_neg (by omega)]

/-- The last record is made longer. -/
theorem Chain.modify {f : α → α} {n : ℕ} (h : Chain len m a l b) (hr : Chain len m b [r] e)
    (hf : len (f r) = len r + n) : Chain len (modify m b f) a (l ++ [f r]) (e + n) := by
  obtain ⟨hm, hpos, rfl⟩ := hr
  refine chain_append.2
    ⟨b, h.congr fun c _ hc => Function.update_of_ne (Nat.ne_of_lt hc) _ _, ?_, ?_, ?_⟩
  · rw [Memory.modify, Function.update_self, hm, Option.map_some]
  · rw [hf]
    exact Nat.add_pos_left hpos n
  · rw [Chain, hf, Nat.add_assoc]

/-- Blocks of records of one size follow each other from `a` to `e`. -/
def Blocks (len : α → ℕ) (size : ℕ) (m : Memory α) : ℕ → List (List α) → ℕ → Prop
  | a, [], e => a = e
  | a, l :: bs, e => Chain len m a l (a + size) ∧ Blocks len size m (a + size) bs e

theorem Blocks.eq {size : ℕ} : ∀ {a : ℕ} {bs : List (List α)}, Blocks len size m a bs e →
    e = a + size * bs.length
  | _, [], h => h.symm
  | a, l :: bs, ⟨_, h⟩ => by
    rw [h.eq, List.length_cons, Nat.mul_succ, Nat.add_assoc, Nat.add_comm size]

/-- Blocks are found in another memory that is the same between the two addresses. -/
theorem Blocks.congr {size : ℕ} : ∀ {a : ℕ} {bs : List (List α)}, Blocks len size m a bs e →
    (∀ b, a ≤ b → b < e → m' b = m b) → Blocks len size m' a bs e
  | _, [], h, _ => h
  | a, l :: bs, ⟨hl, h⟩, heq => by
    have hle : a + size ≤ e := by
      rw [h.eq]
      exact Nat.le_add_right _ _
    exact ⟨hl.congr fun b hb hb' => heq b hb (by omega), h.congr fun b hb => heq b (by omega)⟩

/-- One block more. -/
theorem Blocks.snoc {size : ℕ} : ∀ {a : ℕ} {bs : List (List α)}, Blocks len size m a bs e →
    Chain len m e l (e + size) → Blocks len size m a (bs ++ [l]) (e + size)
  | _, [], h, hl => by
    obtain rfl := h
    exact ⟨hl, rfl⟩
  | _, _ :: _, ⟨hl', h⟩, hl => ⟨hl', h.snoc hl⟩

/-- The blocks are those that the lengths lead to. -/
theorem Blocks.unique {size : ℕ} (hsize : 0 < size) : ∀ {a : ℕ} {bs bs' : List (List α)},
    Blocks len size m a bs e → Blocks len size m a bs' e → bs = bs'
  | _, [], [], _, _ => rfl
  | a, [], _ :: _, h, ⟨_, h'⟩ => by
    have heq : a = e := h
    have hle := h'.eq
    omega
  | a, _ :: _, [], ⟨_, h⟩, h' => by
    have heq : a = e := h'
    have hle := h.eq
    omega
  | _, _ :: _, _ :: _, ⟨hl, h⟩, ⟨hl', h'⟩ => by rw [hl.unique hl', h.unique hsize h']

/-- What is in front of the address is left alone. -/
theorem put_of_lt (h : b < a) : put len m a r b = m b := by
  rw [put, if_neg (by omega), if_neg (by omega)]

theorem modify_of_ne {f : α → α} (h : b ≠ a) : modify m a f b = m b := Function.update_of_ne h _ _

end Memory

end AuxKernel
