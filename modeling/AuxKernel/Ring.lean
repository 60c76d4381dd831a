import Mathlib.Data.List.GetD
import Mathlib.Data.List.Range
import Mathlib.Data.Nat.ModEq

/-!
# Rings

`count` cells of a ring of `size` cells, from the cell `first` on (`ring`). What is read off a
ring and what is put into it is a list that grows at one end (`ring_add`), as long as the cells in
use are not overwritten (`ring_congr`, `add_mod_inj`).
-/

namespace AuxKernel

variable {α : Type*}

/-- The contents of `count` cells from `first` on. -/
def ring (size : ℕ) (cell : ℕ → α) (first count : ℕ) : List α :=
  (List.range count).map fun i => cell ((first + i) % size)

variable {size : ℕ} {cell cell' : ℕ → α} {first : ℕ}

@[simp] theorem ring_zero : ring size cell first 0 = [] := rfl

@[simp] theorem length_ring (count : ℕ) : (ring size cell first count).length = count := by
  rw [ring, List.length_map, List.length_range]

theorem ring_add (m n : ℕ) :
    ring size cell first (m + n) = ring size cell first m ++ ring size cell (first + m) n := by
  rw [ring, List.range_add, List.map_append, List.map_map]
  refine congrArg _ (List.map_congr_left fun i _ => ?_)
  rw [Function.comp_apply, Nat.add_assoc]

theorem ring_congr {count : ℕ}
    (h : ∀ i < count, cell ((first + i) % size) = cell' ((first + i) % size)) :
    ring size cell first count = ring size cell' first count :=
  List.map_congr_left fun i hi => h i (List.mem_range.1 hi)

/-- Only the cell counts that `first` is, not how often it went around. -/
theorem ring_mod (first count : ℕ) :
    ring size cell (first % size) count = ring size cell first count :=
  List.map_congr_left fun i _ => by rw [Nat.mod_add_mod]

theorem ring_eq_of_getD {count : ℕ} {l : List α} {d : α} (hl : l.length = count)
    (h : ∀ i < count, cell ((first + i) % size) = l.getD i d) : ring size cell first count = l := by
  refine List.ext_getElem (by rw [length_ring, hl]) fun i hi hi' => ?_
  simp only [ring, List.getElem_map, List.getElem_range]
  rw [h i (hl ▸ hi'), List.getD_eq_getElem _ _ hi']

/-- Cells that are less than a round apart are not the same. -/
theorem add_mod_inj {i j : ℕ} (hi : i < j + size) (hj : j < i + size)
    (h : (first + i) % size = (first + j) % size) : i = j := by
  have hmod : i ≡ j [MOD size] := Nat.ModEq.add_left_cancel' first h
  rcases le_total i j with hle | hle
  · have hdvd := (Nat.modEq_iff_dvd' hle).1 hmod
    have := Nat.eq_zero_of_dvd_of_lt hdvd (by omega)
    omega
  · have hdvd := (Nat.modEq_iff_dvd' hle).1 hmod.symm
    have := Nat.eq_zero_of_dvd_of_lt hdvd (by omega)
    omega

end AuxKernel
