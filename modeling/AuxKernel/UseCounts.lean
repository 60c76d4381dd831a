import Mathlib.Algebra.BigOperators.Group.Finset.Piecewise
import Mathlib.Algebra.BigOperators.Ring.Finset
import Mathlib.Data.List.Count

/-!
# Use counts

Objects are shared, and each has a counter: the counters `c` of the objects `s`
*count* the references to them in a list `l` (`Counted`), where `ref j` is the
reference to the object `j`. An object is free while its counter is zero; how many
are free (`zeros`) is what an allocator keeps a total of.

* `Counted.inc`, `Counted.dec`: a reference more, or less, with its counter;
* `sum_of_eq_off`, `card_filter_update`: what changes in one place changes the sum;
* `zeros_update`: how a counter that changes changes the total;
* `Counted.fresh`, `zeros_fresh`: objects that are all free get a reference each.
-/

namespace AuxKernel.UseCounts

variable {ι α : Type*} [DecidableEq α] {s : Finset ι} {ref : ι → α}
  {c : ι → ℤ} {l l' : List α}

/-- The counters `c` of the objects `s` count the references in `l`. -/
def Counted (s : Finset ι) (ref : ι → α) (c : ι → ℤ) (l : List α) : Prop :=
  ∀ j ∈ s, c j = l.count (ref j)

/-- How many of the counters `c` of the objects `s` are zero. -/
def zeros (s : Finset ι) (c : ι → ℤ) : ℕ := (s.filter fun j => c j = 0).card

theorem Counted.perm (h : Counted s ref c l) (hl : l.Perm l') : Counted s ref c l' :=
  fun j hj => (h j hj).trans (congrArg _ (hl.count_eq (ref j)))

/-- A free object has no references. -/
theorem Counted.not_mem {j : ι} (h : Counted s ref c l) (hj : j ∈ s) (hc : c j = 0) :
    ref j ∉ l := by
  rw [h j hj, Nat.cast_eq_zero] at hc
  exact List.count_eq_zero.1 hc

/-- A referenced object is not free. -/
theorem Counted.pos {j : ι} (h : Counted s ref c l) (hj : j ∈ s) (hl : ref j ∈ l) : 0 < c j := by
  rw [h j hj]
  exact_mod_cast List.count_pos_iff.2 hl

/-- Counters that are all zero count no references. -/
theorem counted_zero (hc : ∀ j ∈ s, c j = 0) (hl : ∀ j ∈ s, ref j ∉ l) : Counted s ref c l :=
  fun j hj => (hc j hj).trans (by rw [List.count_eq_zero.2 (hl j hj), Nat.cast_zero])

theorem zeros_eq_card (hc : ∀ j ∈ s, c j = 0) : zeros s c = s.card := by
  rw [zeros, Finset.filter_true_of_mem hc]

/-- All objects are free if as many are as there are. -/
theorem eq_zero_of_zeros_eq_card (h : zeros s c = s.card) : ∀ j ∈ s, c j = 0 :=
  Finset.card_filter_eq_iff.1 h

variable [DecidableEq ι]

/-- One more reference to the object `j`. -/
theorem Counted.inc (h : Counted s ref c l) (hinj : ref.Injective) (j : ι) :
    Counted s ref (Function.update c j (c j + 1)) (ref j :: l) := by
  intro k hk
  by_cases hkj : k = j
  · subst hkj
    rw [Function.update_self, List.count_cons_self, h k hk, Nat.cast_succ]
  · rw [Function.update_of_ne hkj, List.count_cons_of_ne fun he => hkj (hinj he).symm, h k hk]

/-- One reference to the object `j` less. -/
theorem Counted.dec {j : ι} (h : Counted s ref c l) (hinj : ref.Injective) (hj : ref j ∈ l) :
    Counted s ref (Function.update c j (c j - 1)) (l.erase (ref j)) := by
  intro k hk
  by_cases hkj : k = j
  · subst hkj
    have hpos : 0 < l.count (ref k) := List.count_pos_iff.2 hj
    rw [Function.update_self, List.count_erase_self, h k hk, Nat.cast_pred hpos]
  · rw [Function.update_of_ne hkj, List.count_erase_of_ne fun he => hkj (hinj he), h k hk]

/-- What one term that changes does to a sum. -/
theorem sum_of_eq_off {N : Type*} [AddCommMonoid N] {f f' : ι → N} {j : ι} (hj : j ∈ s)
    (h : ∀ k ≠ j, f' k = f k) : ∑ k ∈ s, f' k + f j = ∑ k ∈ s, f k + f' j := by
  have hrest : ∑ k ∈ s.erase j, f' k = ∑ k ∈ s.erase j, f k :=
    Finset.sum_congr rfl fun k hk => h k (Finset.ne_of_mem_erase hk)
  rw [← Finset.add_sum_erase s f' hj, ← Finset.add_sum_erase s f hj, hrest]
  rw [add_right_comm, add_comm (f' j) (f j), add_right_comm]

/-- What one value that changes does to how many are `b`. -/
theorem card_filter_update {β : Type*} [DecidableEq β] {f : ι → β} {j : ι} (hj : j ∈ s) (a b : β) :
    (s.filter fun k => Function.update f j a k = b).card + (if f j = b then 1 else 0) =
      (s.filter fun k => f k = b).card + if a = b then 1 else 0 := by
  rw [Finset.card_filter, Finset.card_filter]
  have hoff : ∀ k ≠ j, (if Function.update f j a k = b then 1 else 0) =
      if f k = b then 1 else 0 := fun k hk => by rw [Function.update_of_ne hk]
  simpa only [Function.update_self] using sum_of_eq_off hj hoff

/-- What a counter that changes does to the number of free objects. -/
theorem zeros_update {j : ι} (hj : j ∈ s) (v : ℤ) :
    zeros s (Function.update c j v) + (if c j = 0 then 1 else 0) =
      zeros s c + if v = 0 then 1 else 0 :=
  card_filter_update hj v 0

/-! ## Fresh objects -/

/-- Give the objects `f 0`, …, `f (n - 1)` the count one. -/
def setOnes (f : ℕ → ι) (n : ℕ) (c : ι → ℤ) : ι → ℤ :=
  (List.range n).foldl (fun c i => Function.update c (f i) 1) c

theorem setOnes_succ (f : ℕ → ι) (n : ℕ) (c : ι → ℤ) :
    setOnes f (n + 1) c = Function.update (setOnes f n c) (f n) 1 := by
  rw [setOnes, List.range_succ, List.foldl_append]
  rfl

variable {f : ℕ → ι} {n : ℕ}

theorem setOnes_of_ne {j : ι} (hj : ∀ i < n, f i ≠ j) : setOnes f n c j = c j := by
  induction n with
  | zero => rfl
  | succ n ih =>
    rw [setOnes_succ, Function.update_of_ne (hj n n.lt_succ_self).symm,
      ih fun i hi => hj i (hi.trans n.lt_succ_self)]

/-- Of free objects, those after the first `n` stay free. -/
theorem setOnes_next (hf : f.Injective) (hc : c (f n) = 0) : setOnes f n c (f n) = 0 :=
  (setOnes_of_ne fun i hi he => hi.ne (hf he)).trans hc

theorem setOnes_le {j : ι} {m : ℤ} (hm : 1 ≤ m) (hj : c j ≤ m) : setOnes f n c j ≤ m := by
  induction n with
  | zero => exact hj
  | succ n ih =>
    rw [setOnes_succ, Function.update_apply]
    split_ifs
    · exact hm
    · exact ih

/-- Free objects get a reference each. -/
theorem Counted.fresh (h : Counted s ref c l) (hinj : ref.Injective) (hf : f.Injective)
    (hc : ∀ i < n, c (f i) = 0) :
    Counted s ref (setOnes f n c) ((List.range n).map (fun i => ref (f i)) ++ l) := by
  induction n with
  | zero => exact h
  | succ n ih =>
    have hn := (ih fun i hi => hc i (hi.trans n.lt_succ_self)).inc hinj (f n)
    rw [setOnes_next hf (hc n n.lt_succ_self), zero_add, ← setOnes_succ] at hn
    refine hn.perm ?_
    rw [List.range_succ, List.map_append, List.append_assoc]
    exact List.perm_middle.symm

/-- They are free no more. -/
theorem zeros_fresh (hs : ∀ i < n, f i ∈ s) (hf : f.Injective) (hc : ∀ i < n, c (f i) = 0) :
    zeros s (setOnes f n c) + n = zeros s c := by
  induction n with
  | zero => rfl
  | succ n ih =>
    have hn := zeros_update (c := setOnes f n c) (hs n n.lt_succ_self) 1
    rw [setOnes_next hf (hc n n.lt_succ_self), if_pos rfl, if_neg one_ne_zero] at hn
    rw [setOnes_succ, ← ih (fun i hi => hs i (hi.trans n.lt_succ_self))
      fun i hi => hc i (hi.trans n.lt_succ_self)]
    omega

end AuxKernel.UseCounts
