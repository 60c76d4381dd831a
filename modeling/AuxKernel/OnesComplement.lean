import Mathlib.Algebra.Order.BigOperators.Group.List
import Mathlib.Data.Nat.ModEq

/-!
# One's complement sums

Digits to a base `B` are added with an end-around carry (`add`), in turn (`sum`). The sum of
digits is the digit that is congruent to their sum modulo `B - 1`, and is `0` only where they all
are (`Represents`):

* `Represents.unique`: there is one such digit;
* `sum_represents`: it is the sum with end-around carries;
* `Represents.of_carry`: it stays the same if a carry is put back in.
-/

namespace AuxKernel.OnesComplement

variable {B x y n : ℕ}

/-- What is beyond the last digit is added to it. -/
def carry (B n : ℕ) : ℕ := n % B + n / B

/-- The sum of two digits, with an end-around carry. -/
def add (B x y : ℕ) : ℕ := carry B (x + y)

/-- The sum of digits, with end-around carries. -/
def sum (B : ℕ) (l : List ℕ) : ℕ := l.foldl (add B) 0

/-- The digit stands for the number. -/
structure Represents (B x n : ℕ) : Prop where
  lt : x < B
  modEq : x ≡ n [MOD B - 1]
  eq_zero_iff : x = 0 ↔ n = 0

/-- Only one digit stands for a number. -/
theorem Represents.unique (hx : Represents B x n) (hy : Represents B y n) : x = y := by
  wlog hle : x ≤ y generalizing x y
  · exact (this hy hx (Nat.le_of_not_le hle)).symm
  have hdvd := (Nat.modEq_iff_dvd' hle).1 (hx.modEq.trans hy.modEq.symm)
  have hlt := hy.lt
  rcases Nat.eq_zero_or_pos (y - x) with h | h
  · omega
  · -- The digits are `0` and `B - 1`, and both stand for `0` or neither does.
    have := Nat.le_of_dvd h hdvd
    have := hx.eq_zero_iff.trans hy.eq_zero_iff.symm
    omega

theorem carry_modEq (hB : 0 < B) : carry B n ≡ n [MOD B - 1] := by
  have hmod : B ≡ 1 [MOD B - 1] := ((Nat.modEq_iff_dvd' hB).2 (dvd_refl _)).symm
  have := (hmod.mul_right (n / B)).symm.add_left (n % B)
  rwa [one_mul, Nat.mod_add_div] at this

theorem carry_eq_zero_iff : carry B n = 0 ↔ n = 0 := by
  constructor
  · intro h
    rw [carry, Nat.add_eq_zero_iff] at h
    rw [← Nat.mod_add_div n B, h.1, h.2, mul_zero, add_zero]
  · rintro rfl
    simp [carry]

/-- A digit stands for a number if it stands for the number with its carry put back in. -/
theorem Represents.of_carry (h : Represents B x (carry B n)) : Represents B x n :=
  ⟨h.lt, h.modEq.trans (carry_modEq (Nat.zero_lt_of_lt h.lt)),
    h.eq_zero_iff.trans carry_eq_zero_iff⟩

theorem represents_self (h : x < B) : Represents B x x := ⟨h, rfl, Iff.rfl⟩

theorem carry_add_lt (hx : x < B) (hy : y < B) : carry B (x + y) < B := by
  rw [carry]
  rcases Nat.lt_or_ge (x + y) B with h | h
  · rwa [Nat.mod_eq_of_lt h, Nat.div_eq_of_lt h, add_zero]
  · have hd : (x + y) / B = 1 := Nat.div_eq_of_lt_le (by omega) (by omega)
    rw [hd, Nat.mod_eq_sub_mod h, Nat.mod_eq_of_lt (by omega)]
    omega

theorem Represents.add (h : Represents B x n) (hy : y < B) :
    Represents B (OnesComplement.add B x y) (n + y) := by
  refine ⟨carry_add_lt h.lt hy,
    (carry_modEq (Nat.zero_lt_of_lt hy)).trans (h.modEq.add_right y), ?_⟩
  rw [OnesComplement.add, carry_eq_zero_iff, Nat.add_eq_zero_iff, Nat.add_eq_zero_iff,
    h.eq_zero_iff]

theorem sum_represents {l : List ℕ} (hB : 0 < B) (hl : ∀ y ∈ l, y < B) :
    Represents B (sum B l) l.sum := by
  suffices h : ∀ x n, Represents B x n →
      Represents B (l.foldl (OnesComplement.add B) x) (n + l.sum) by
    have h₀ := h 0 0 (represents_self hB)
    rwa [Nat.zero_add] at h₀
  induction l with
  | nil => intro x n hx; simpa using hx
  | cons y l ih =>
    intro x n hx
    rw [List.foldl_cons, List.sum_cons, ← add_assoc]
    exact ih (fun z hz => hl z (List.mem_cons_of_mem y hz)) _ _ (hx.add (hl y List.mem_cons_self))

end AuxKernel.OnesComplement
