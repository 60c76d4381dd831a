import Mathlib.Algebra.Order.Group.Nat
import Mathlib.Data.Nat.Init
import Mathlib.Tactic.SplitIfs

/-!
# Accounting records

The times and sizes in an accounting record (`COMMON/os/acct.c`) are numbers with three bits of a
base 8 exponent and thirteen bits of fraction. `compress` makes such a number of a `long`.

* `between`: there is no number between two neighbours of the scale of `t`;
* `compress_nearest`: `compress` is right to half a unit: no other number is closer to `t`, and one
  that is such a number itself is kept.
-/

namespace AuxKernel.Acct

/-! ## The code -/

/-- Scale the number down until the fraction fits; `round` is the highest bit that was cut off. -/
def scale (exp t : ℕ) (round : Bool) : ℕ × ℕ × Bool :=
  if t ≥ 8192 then scale (exp + 1) (t >>> 3) (t.testBit 2) else (exp, t, round)
  termination_by t
  decreasing_by
    rw [Nat.shiftRight_eq_div_pow]
    omega

/-- A number with an exponent and a fraction. -/
def compress (t : ℕ) : ℕ :=
  let (exp, t, round) := scale 0 t false
  if round then
    let t := t + 1
    if t ≥ 8192 then (exp + 1) <<< 13 + t >>> 3 else exp <<< 13 + t
  else exp <<< 13 + t

/-! ## The numbers -/

variable {t c k : ℕ}

/-- What a number in an accounting record stands for. -/
def expand (c : ℕ) : ℕ := c % 8192 * 8 ^ (c / 8192)

/-- How far two numbers are from each other. -/
def dist (a b : ℕ) : ℕ := (a - b) + (b - a)

theorem expand_pack {f : ℕ} (hf : f < 8192) : expand (k <<< 13 + f) = f * 8 ^ k := by
  have hmod : (k <<< 13 + f) % 8192 = f := by
    rw [Nat.shiftLeft_eq]
    omega
  have hdiv : (k <<< 13 + f) / 8192 = k := by
    rw [Nat.shiftLeft_eq]
    omega
  rw [expand, hmod, hdiv]

/-- There is no number between two neighbours at the exponent `k`, if the fraction is at least
    one eighth: one with a smaller exponent is not above it, and one with a larger exponent, or the
    same, is a multiple of the unit. -/
theorem between {m : ℕ} (hm : 1024 ≤ m) (c : ℕ) :
    expand c ≤ m * 8 ^ k ∨ (m + 1) * 8 ^ k ≤ expand c := by
  rw [expand]
  by_cases hexp : c / 8192 < k
  · left
    have hpow : 8 ^ (c / 8192) * 8 ≤ 8 ^ k := Nat.pow_succ .. ▸ Nat.pow_le_pow_right (by omega) hexp
    calc c % 8192 * 8 ^ (c / 8192) ≤ 8192 * 8 ^ (c / 8192) :=
          Nat.mul_le_mul_right _ (Nat.mod_lt c (by omega)).le
      _ = 1024 * (8 ^ (c / 8192) * 8) := by omega
      _ ≤ m * 8 ^ k := Nat.mul_le_mul hm hpow
  · obtain ⟨d, hd⟩ := Nat.exists_eq_add_of_le (Nat.le_of_not_lt hexp)
    have hmul : c % 8192 * 8 ^ (c / 8192) = c % 8192 * 8 ^ d * 8 ^ k := by
      rw [hd, Nat.pow_add, Nat.mul_assoc, Nat.mul_comm (8 ^ k)]
    rw [hmul]
    rcases Nat.lt_or_ge m (c % 8192 * 8 ^ d) with h | h
    · exact .inr (Nat.mul_le_mul_right _ h)
    · exact .inl (Nat.mul_le_mul_right _ h)

/-! ## The loop -/

/-- What the loop is about to return for `n`: the fraction of the exponent `k`, and the bit below
    it. -/
structure Scaled (n k t : ℕ) (round : Bool) : Prop where
  div : n / 8 ^ k = t
  large : 0 < k → 1024 ≤ t
  half : (round = true ↔ 0 < k ∧ 8 ^ k ≤ 2 * (n % 8 ^ k))

/-- The bit that is tested is the highest of the three that are cut off. -/
theorem testBit_two (t : ℕ) : t.testBit 2 = true ↔ 4 ≤ t % 8 := by
  rw [Nat.testBit_eq_decide_div_mod_eq, decide_eq_true_iff]
  omega

theorem Scaled.step {n : ℕ} {round : Bool} (h : Scaled n k t round) (ht : 8192 ≤ t) :
    Scaled n (k + 1) (t >>> 3) (t.testBit 2) where
  div := by
    rw [Nat.shiftRight_eq_div_pow, ← h.div, Nat.div_div_eq_div_mul, Nat.pow_succ]
  large _ := by
    rw [Nat.shiftRight_eq_div_pow]
    omega
  half := by
    have hmod : n % 8 ^ (k + 1) = n % 8 ^ k + 8 ^ k * (t % 8) := by
      rw [Nat.pow_succ, Nat.mod_mul, h.div]
    have hlt : n % 8 ^ k < 8 ^ k := Nat.mod_lt n (Nat.pow_pos (by omega))
    rw [testBit_two, hmod, Nat.pow_succ]
    by_cases hbit : 4 ≤ t % 8
    · have hle : 8 ^ k * 4 ≤ 8 ^ k * (t % 8) := Nat.mul_le_mul_left _ hbit
      omega
    · have hle : 8 ^ k * (t % 8) ≤ 8 ^ k * 3 := Nat.mul_le_mul_left _ (by omega)
      omega

theorem scale_spec {n : ℕ} {round : Bool} (h : Scaled n k t round) :
    ∃ k' t' round', scale k t round = (k', t', round') ∧ Scaled n k' t' round' ∧ t' < 8192 := by
  induction t using Nat.strong_induction_on generalizing k round with
  | _ t ih =>
    rw [scale]
    split_ifs with ht
    · exact ih (t >>> 3) (by rw [Nat.shiftRight_eq_div_pow]; omega) (h.step ht)
    · exact ⟨k, t, round, rfl, h, Nat.lt_of_not_le ht⟩

/-! ## Rounding -/

/-- What `compress` returns stands for the neighbour below, or above if that is not farther. -/
theorem expand_compress (n : ℕ) : ∃ k m, (0 < k → 1024 ≤ m) ∧ m * 8 ^ k ≤ n ∧
    n < (m + 1) * 8 ^ k ∧ compress n < (k + 2) * 8192 ∧ expand (compress n) =
      if 0 < k ∧ 8 ^ k ≤ 2 * (n - m * 8 ^ k) then (m + 1) * 8 ^ k else m * 8 ^ k := by
  have hinit : Scaled n 0 n false :=
    ⟨Nat.div_one n, fun h => absurd h (Nat.lt_irrefl 0),
      iff_of_false Bool.false_ne_true fun h => Nat.lt_irrefl 0 h.1⟩
  obtain ⟨k, m, round, hscale, hs, hm⟩ := scale_spec hinit
  have hpos : 0 < 8 ^ k := Nat.pow_pos (by omega)
  have hsum : m * 8 ^ k + n % 8 ^ k = n := by
    rw [← hs.div]
    exact Nat.div_add_mod' n _
  have hlt : n % 8 ^ k < 8 ^ k := Nat.mod_lt n hpos
  have hsucc : (m + 1) * 8 ^ k = m * 8 ^ k + 8 ^ k := Nat.succ_mul m _
  have hhalf : round = true ↔ 0 < k ∧ 8 ^ k ≤ 2 * (n - m * 8 ^ k) := by
    rw [hs.half, show n - m * 8 ^ k = n % 8 ^ k by omega]
  have hpack : ∀ e f : ℕ, e ≤ k + 1 → f < 8192 → e <<< 13 + f < (k + 2) * 8192 := by
    intro e f he hf
    rw [Nat.shiftLeft_eq]
    omega
  refine ⟨k, m, hs.large, by omega, by omega, ?_⟩
  rw [compress, hscale]
  dsimp only
  by_cases hr : round = true
  · rw [if_pos hr, if_pos (hhalf.1 hr)]
    by_cases hfull : m + 1 ≥ 8192
    · -- the fraction does not fit any more, it is one with the next exponent
      have hm' : (m + 1) >>> 3 = 1024 := by
        rw [Nat.shiftRight_eq_div_pow]
        omega
      rw [if_pos hfull, hm', expand_pack (by omega), Nat.pow_succ, show m + 1 = 8192 by omega]
      exact ⟨hpack _ _ le_rfl (by omega), by omega⟩
    · rw [if_neg hfull, expand_pack (Nat.lt_of_not_le hfull)]
      exact ⟨hpack _ _ (Nat.le_succ k) (Nat.lt_of_not_le hfull), rfl⟩
  · rw [if_neg hr, if_neg fun h => hr (hhalf.2 h), expand_pack hm]
    exact ⟨hpack _ _ (Nat.le_succ k) hm, rfl⟩

/-- No number is closer to `n` than what `compress` makes of it. -/
theorem dist_compress (n c : ℕ) : dist (expand (compress n)) n ≤ dist (expand c) n := by
  obtain ⟨k, m, hm, hle, hlt, -, heq⟩ := expand_compress n
  have hsucc : (m + 1) * 8 ^ k = m * 8 ^ k + 8 ^ k := Nat.succ_mul m _
  rw [heq, dist, dist]
  by_cases hk : 0 < k
  · rcases between (k := k) (hm hk) c with hc | hc
    · split_ifs <;> omega
    · split_ifs <;> omega
  · -- the exponent is zero, and nothing was cut off
    obtain rfl : k = 0 := by omega
    rw [if_neg fun h => hk h.1]
    omega

/-- What a `long` is compressed to has sixteen bits; no number of sixteen bits is closer to it; and
    it is kept if there is a number that stands for it. -/
theorem compress_nearest (n : ℕ) (hn : n < 2 ^ 31) : compress n < 2 ^ 16 ∧
    ∀ c, dist (expand (compress n)) n ≤ dist (expand c) n ∧
      (expand c = n → expand (compress n) = n) := by
  refine ⟨?_, fun c => ⟨dist_compress n c, fun hc => ?_⟩⟩
  · obtain ⟨k, m, hm, hle, -, hlt, -⟩ := expand_compress n
    have hk : k < 7 := by
      by_contra hk
      have hpow : 8 ^ 7 ≤ 8 ^ k := Nat.pow_le_pow_right (by omega) (Nat.le_of_not_lt hk)
      have hmul : 1024 * 8 ^ 7 ≤ m * 8 ^ k := Nat.mul_le_mul (hm (by omega)) hpow
      omega
    omega
  · have hdist := dist_compress n c
    rw [hc, dist, dist] at hdist
    omega

/-- The largest `long` is rounded up to 2^31. -/
theorem compress_nearest_max : compress (2 ^ 31 - 1) < 2 ^ 16 ∧
    ∀ c, dist (expand (compress (2 ^ 31 - 1))) (2 ^ 31 - 1) ≤ dist (expand c) (2 ^ 31 - 1) ∧
      (expand c = 2 ^ 31 - 1 → expand (compress (2 ^ 31 - 1)) = 2 ^ 31 - 1) :=
  compress_nearest (2 ^ 31 - 1) (by decide)

end AuxKernel.Acct
