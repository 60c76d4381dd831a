import Mathlib.Tactic.Linarith

/-!
# Lists of ranges

Ranges of natural numbers, as their start and size, and lists of them. How often
a list covers a number (`cover`) is additive, so that it is easily tracked
through the splitting and the joining of ranges; and a list covering every number
of a range exactly once, and no others, is a partition of it
(`partition_of_cover`).
-/

namespace AuxKernel

/-- A range of natural numbers: its start and its size. -/
abbrev Range := ℕ × ℕ

namespace Range

/-- `a` lies in the range. -/
def Has (r : Range) (a : ℕ) : Prop := r.1 ≤ a ∧ a < r.1 + r.2

instance (r : Range) (a : ℕ) : Decidable (r.Has a) := inferInstanceAs (Decidable (_ ∧ _))

/-- Two ranges lie apart. -/
def Apart (r r' : Range) : Prop := r.1 + r.2 ≤ r'.1 ∨ r'.1 + r'.2 ≤ r.1

/-- How many ranges of a list cover `a`. -/
def cover (l : List Range) (a : ℕ) : ℕ := l.countP fun r => decide (r.Has a)

@[simp] theorem cover_nil (a : ℕ) : cover [] a = 0 := rfl

theorem cover_cons (r : Range) (l : List Range) (a : ℕ) :
    cover (r :: l) a = cover l a + cover [r] a := by
  simp [cover, List.countP_cons]

@[simp] theorem cover_append (l l' : List Range) (a : ℕ) :
    cover (l ++ l') a = cover l a + cover l' a := List.countP_append

theorem cover_perm {l l' : List Range} (h : l.Perm l') (a : ℕ) : cover l a = cover l' a :=
  h.countP_eq _

theorem cover_singleton (r : Range) (a : ℕ) : cover [r] a = if r.Has a then 1 else 0 := by
  simp [cover, List.countP_cons]

theorem cover_pos {l : List Range} {a : ℕ} : 0 < cover l a ↔ ∃ r ∈ l, r.Has a := by
  simp [cover, List.countP_pos_iff]

/-- A range is made of its beginning and its rest. -/
theorem cover_split (start m n a : ℕ) :
    cover [(start, m + n)] a = cover [(start, m)] a + cover [(start + m, n)] a := by
  simp only [cover_singleton, Has, ← Nat.add_assoc]
  by_cases h₁ : start ≤ a <;> by_cases h₂ : a < start + m <;> by_cases h₃ : a < start + m + n <;>
    by_cases h₄ : start + m ≤ a <;> simp [h₁, h₂, h₃, h₄] <;> omega

/-- A list of ranges partitions a range: they are not empty, lie apart and inside
    it, and cover it. -/
structure Partition (r : Range) (l : List Range) : Prop where
  pos : ∀ e ∈ l, 0 < e.2
  apart : l.Pairwise Apart
  inside : ∀ e ∈ l, r.1 ≤ e.1 ∧ e.1 + e.2 ≤ r.1 + r.2
  covers : ∀ a, r.Has a → ∃ e ∈ l, e.Has a

/-- Ranges that are nowhere covered twice lie apart. -/
theorem apart_of_cover {l : List Range} (hpos : ∀ e ∈ l, 0 < e.2) (h : ∀ a, cover l a ≤ 1) :
    l.Pairwise Apart := by
  induction l with
  | nil => exact .nil
  | cons e l ih =>
    refine List.pairwise_cons.2 ⟨fun f hf => ?_, ih (fun f hf => hpos f (List.mem_cons_of_mem _ hf))
      fun a => by have := h a; rw [cover_cons] at this; omega⟩
    by_contra hap
    have he := hpos e List.mem_cons_self
    have hf' := hpos f (List.mem_cons_of_mem _ hf)
    simp only [Apart, not_or, not_le] at hap
    -- The larger of the starts lies in both ranges.
    have hcov := h (max e.1 f.1)
    rw [cover_cons, cover_singleton, if_pos ⟨le_max_left _ _, by omega⟩] at hcov
    have : 0 < cover l (max e.1 f.1) := cover_pos.2 ⟨f, hf, le_max_right _ _, by omega⟩
    omega

theorem partition_of_cover {r : Range} {l : List Range} (hpos : ∀ e ∈ l, 0 < e.2)
    (h : ∀ a, cover l a = if r.Has a then 1 else 0) : Partition r l := by
  refine ⟨hpos, apart_of_cover hpos fun a => ?_, fun e he => ?_, fun a ha => ?_⟩
  · rw [h]
    split_ifs <;> omega
  · have hpe := hpos e he
    have hin (a : ℕ) (ha : e.Has a) : r.Has a := by
      by_contra hr
      have : 0 < cover l a := cover_pos.2 ⟨e, he, ha⟩
      rw [h, if_neg hr] at this
      exact absurd this (lt_irrefl 0)
    have h₁ := hin e.1 ⟨le_rfl, by omega⟩
    have h₂ := hin (e.1 + e.2 - 1) ⟨by omega, by omega⟩
    simp only [Has] at h₁ h₂
    omega
  · exact cover_pos.1 (by rw [h, if_pos ha]; exact one_pos)

end Range

end AuxKernel
