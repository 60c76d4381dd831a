import AuxKernel.Semaphores.Tables

/-!
# The entries of an undo structure

The loops over the array of an undo structure do what `adjust` and `unrm` do to the list of its
entries (`slice`).

* `shiftUp_apply`, `shiftDown_apply`: the two loops that move entries;
* `scan_spec`: where the entry of a semaphore is, or would be;
* `unrmLoop_spec`: the entries that `semunrm` leaves.
-/

namespace AuxKernel.Semaphores.Tables

/-- The entries from `i` on, `n` of them. -/
def slice (ent : ℕ → Undo) (i n : ℕ) : List Undo := (List.range' i n).map ent

variable {ent ent' : ℕ → Undo} {i m n : ℕ} {id num low high val : ℤ}

theorem entries_eq (x : SemUndo) : x.entries = slice x.un_ent 0 x.un_cnt := by
  rw [SemUndo.entries, slice, List.range_eq_range']

@[simp] theorem slice_zero (ent : ℕ → Undo) (i : ℕ) : slice ent i 0 = [] := rfl

theorem slice_succ (ent : ℕ → Undo) (i n : ℕ) :
    slice ent i (n + 1) = ent i :: slice ent (i + 1) n := rfl

theorem slice_add (ent : ℕ → Undo) (i m n : ℕ) :
    slice ent i (m + n) = slice ent i m ++ slice ent (i + m) n := by
  rw [slice, slice, slice, ← List.map_append, List.range'_append_1]

theorem length_slice (ent : ℕ → Undo) (i n : ℕ) : (slice ent i n).length = n := by
  rw [slice, List.length_map, List.length_range']

theorem slice_congr (h : ∀ j, i ≤ j → j < i + n → ent' j = ent j) :
    slice ent' i n = slice ent i n :=
  List.map_congr_left fun j hj => by
    obtain ⟨h₁, h₂⟩ := List.mem_range'_1.1 hj
    exact h j h₁ h₂

/-- The same entries, at another place. -/
theorem slice_shift {k : ℕ} (h : ∀ j < n, ent' (k + j) = ent (i + j)) :
    slice ent' k n = slice ent i n := by
  induction n generalizing i k with
  | zero => rfl
  | succ n ih =>
    rw [slice_succ, slice_succ]
    have h₀ : ent' k = ent i := h 0 (Nat.succ_pos n)
    rw [h₀, ih fun j hj => ?_]
    have hj' := h (j + 1) (Nat.succ_lt_succ hj)
    rwa [show k + (j + 1) = k + 1 + j by omega, show i + (j + 1) = i + 1 + j by omega] at hj'

/-! ## Moving entries -/

theorem shiftUp_apply (i m : ℕ) (ent : ℕ → Undo) (j : ℕ) :
    shiftUp i m ent j = if i < j ∧ j ≤ m then ent (j - 1) else ent j := by
  induction m generalizing ent with
  | zero =>
    rw [shiftUp, if_neg]
    omega
  | succ m ih =>
    rw [shiftUp]
    by_cases hm : m + 1 > i
    · rw [if_pos hm, ih]
      by_cases hj : j = m + 1
      · -- the last one, which was moved first
        rw [if_neg (by omega), if_pos (by omega), hj, Function.update_self, Nat.add_sub_cancel]
      · rw [Function.update_of_ne hj]
        by_cases hij : i < j ∧ j ≤ m
        · rw [if_pos hij, if_pos (by omega), Function.update_of_ne (by omega)]
        · rw [if_neg hij, if_neg (by omega)]
    · rw [if_neg hm, if_neg (by omega)]

theorem shiftDown_apply (n i : ℕ) (ent : ℕ → Undo) (j : ℕ) :
    shiftDown n i ent j = if i ≤ j ∧ j < i + n then ent (j + 1) else ent j := by
  induction n generalizing i ent with
  | zero =>
    rw [shiftDown, if_neg]
    omega
  | succ n ih =>
    rw [shiftDown, ih]
    by_cases hj : j = i
    · rw [if_neg (by omega), if_pos (by omega), hj, Function.update_self]
    · rw [Function.update_of_ne hj]
      by_cases hij : i + 1 ≤ j ∧ j < i + 1 + n
      · rw [if_pos hij, if_pos (by omega), Function.update_of_ne (by omega)]
      · rw [if_neg hij, if_neg (by omega)]

/-- An entry goes in at `i`. -/
theorem slice_shiftUp (e : Undo) (hi : i ≤ n) :
    slice (Function.update (shiftUp i n ent) i e) 0 (n + 1) =
      slice ent 0 i ++ e :: slice ent i (n - i) := by
  rw [show n + 1 = i + (1 + (n - i)) by omega, slice_add, Nat.zero_add,
    show 1 + (n - i) = (n - i) + 1 by omega, slice_succ, Function.update_self]
  congr 1
  · refine slice_congr fun j _ hj => ?_
    rw [Function.update_of_ne (by omega), shiftUp_apply, if_neg (by omega)]
  · congr 1
    refine slice_shift fun j hj => ?_
    rw [Function.update_of_ne (by omega), shiftUp_apply, if_pos (by omega)]
    congr 1
    omega

/-- The entry at `i` goes out. -/
theorem slice_shiftDown (hi : i < n) :
    slice (shiftDown (n - 1 - i) i ent) 0 (n - 1) =
      slice ent 0 i ++ slice ent (i + 1) (n - 1 - i) := by
  rw [show n - 1 = i + (n - 1 - i) by omega, slice_add, Nat.zero_add,
    show i + (n - 1 - i) - i = n - 1 - i by omega]
  congr 1
  · refine slice_congr fun j _ hj => ?_
    rw [shiftDown_apply, if_neg (by omega)]
  · refine slice_shift fun j hj => ?_
    rw [shiftDown_apply, if_pos (by omega)]
    congr 1
    omega

/-- The entry at `i` changes. -/
theorem slice_update (e : Undo) (hi : i < n) :
    slice (Function.update ent i e) 0 n =
      slice ent 0 i ++ e :: slice ent (i + 1) (n - 1 - i) := by
  rw [show n = i + ((n - 1 - i) + 1) by omega, slice_add, Nat.zero_add, slice_succ,
    Function.update_self, show i + (n - 1 - i + 1) - 1 - i = n - 1 - i by omega]
  congr 1
  · exact slice_congr fun j _ hj => Function.update_of_ne (by omega) _ _
  · congr 1
    exact slice_congr fun j hj _ => Function.update_of_ne (by omega) _ _

/-! ## Finding an entry -/

/-- The entries before the place are before the semaphore, and the one there is its entry, or is
    not before it. -/
theorem scan_spec (ent : ℕ → Undo) (id num : ℤ) (n i : ℕ) :
    ∃ k found, scan ent id num n i = (i + k, found) ∧ k ≤ n ∧
      (∀ e ∈ slice ent i k, e.Before id num) ∧
      (k < n → ¬(ent (i + k)).Before id num) ∧
      (found = true ↔ k < n ∧ (ent (i + k)).un_id = id ∧ (ent (i + k)).un_num = num) := by
  induction n generalizing i with
  | zero =>
    refine ⟨0, false, rfl, le_rfl, fun e he => absurd he List.not_mem_nil, fun h => ?_, ?_⟩
    · omega
    · simp
  | succ n ih =>
    rw [scan]
    by_cases hb : (ent i).Before id num
    · obtain ⟨k, found, hscan, hk, hbefore, hnot, hfound⟩ := ih (i + 1)
      refine ⟨k + 1, found, ?_, by omega, fun e he => ?_, fun h => ?_, ?_⟩
      · rw [if_pos hb, hscan]
        congr 1
        omega
      · rw [slice_succ] at he
        rcases List.mem_cons.1 he with rfl | he
        · exact hb
        · exact hbefore e he
      · rw [show i + (k + 1) = i + 1 + k by omega]
        exact hnot (by omega)
      · rw [hfound, show i + (k + 1) = i + 1 + k by omega]
        refine and_congr_left fun _ => ?_
        omega
    · refine ⟨0, _, if_neg hb, Nat.zero_le _, fun e he => absurd he List.not_mem_nil,
        fun _ => hb, ?_⟩
      simp

/-- What is before the semaphore is not touched by an adjustment. -/
theorem adjust_append {v : Semaphores.Config} {full : Bool} {a b : List Undo}
    (ha : ∀ e ∈ a, e.Before id num) :
    adjust v full val id num (a ++ b) = (adjust v full val id num b).map (a ++ ·) := by
  induction a with
  | nil =>
    rw [List.nil_append]
    cases adjust v full val id num b <;> rfl
  | cons e a ih =>
    rw [List.cons_append, adjust, if_pos (ha e List.mem_cons_self),
      ih fun f hf => ha f (List.mem_cons_of_mem e hf)]
    cases adjust v full val id num b <;> rfl

/-! ## Removing entries -/

theorem unrmLoop_spec (id low high : ℤ) (n i m : ℕ) (ent : ℕ → Undo) (hn : m ≤ i + n)
    (him : i ≤ m) : ∃ m' ent', 
    unrmLoop id low high n i m ent = (m', ent') ∧
      slice ent' 0 m' = slice ent 0 i ++ unrm id low high (slice ent i (m - i)) := by
  have hall : slice ent 0 m = slice ent 0 i ++ slice ent i (m - i) := by
    rw [show m = i + (m - i) by omega, slice_add, Nat.zero_add, Nat.add_sub_cancel_left]
  induction n generalizing i m ent with
  | zero =>
    refine ⟨m, ent, rfl, ?_⟩
    rw [hall, show m - i = 0 by omega, slice_zero, unrm]
  | succ n ih =>
    rw [unrmLoop]
    by_cases hend : i ≥ m
    · refine ⟨m, ent, if_pos hend, ?_⟩
      rw [hall, show m - i = 0 by omega, slice_zero, unrm]
    rw [if_neg hend]
    have hcons : slice ent i (m - i) = ent i :: slice ent (i + 1) (m - (i + 1)) := by
      rw [show m - i = (m - (i + 1)) + 1 by omega, slice_succ]
    have hsnoc : slice ent 0 (i + 1) = slice ent 0 i ++ [ent i] := by
      rw [slice_add, Nat.zero_add, slice_succ, slice_zero]
    rw [hcons, unrm]
    by_cases hlt : id < (ent i).un_id
    · exact ⟨m, ent, if_pos hlt, by rw [hall, hcons, if_pos hlt]⟩
    rw [if_neg hlt, if_neg hlt]
    by_cases hskip : id > (ent i).un_id ∨ low > (ent i).un_num
    · obtain ⟨m', ent', hloop, hslice⟩ := ih (i + 1) m ent (by omega)
        (by omega) (by rw [hall, hcons, hsnoc, List.append_assoc]; rfl)
      refine ⟨m', ent', (if_pos hskip).trans hloop, ?_⟩
      rw [hslice, if_pos hskip, hsnoc, List.append_assoc]
      rfl
    rw [if_neg hskip, if_neg hskip]
    by_cases hhigh : high < (ent i).un_num
    · exact ⟨m, ent, if_pos hhigh, by rw [hall, hcons, if_pos hhigh]⟩
    rw [if_neg hhigh, if_neg hhigh]
    -- the entries behind `i` move down to it
    have hsame : slice (shiftDown (m - 1 - i) i ent) 0 i = slice ent 0 i :=
      slice_congr fun j _ hj => by rw [shiftDown_apply, if_neg (by omega)]
    have hmoved : slice (shiftDown (m - 1 - i) i ent) i (m - 1 - i)
        = slice ent (i + 1) (m - (i + 1)) := by
      rw [show m - (i + 1) = m - 1 - i by omega]
      refine slice_shift fun j hj => ?_
      rw [shiftDown_apply, if_pos (by omega)]
      congr 1
      omega
    obtain ⟨m', ent', hloop, hslice⟩ := ih i (m - 1)
      (shiftDown (m - 1 - i) i ent) (by omega) (by omega) (by
        rw [slice_shiftDown (by omega), hsame, hmoved, show m - (i + 1) = m - 1 - i by omega])
    exact ⟨m', ent', hloop, by rw [hslice, hsame, hmoved]⟩

end AuxKernel.Semaphores.Tables
