import Mathlib.Data.List.Perm.Basic

/-!
# Tables made of pieces

A table is made of pieces, partial maps with no place in common, if its entries
are exactly theirs (`Tiles`). A piece may be added where the table is empty
(`Tiles.append`), taken out (`Tiles.eraseIdx`), or replaced by another one
(`Tiles.set`).
-/

namespace AuxKernel

variable {ι ε : Type*} {u u' f g : ι → Option ε} {fs gs : List (ι → Option ε)} {k : ℕ}

/-- The two pieces have no place in common. -/
def Apart (f g : ι → Option ε) : Prop := ∀ i, f i = none ∨ g i = none

theorem Apart.symm (h : Apart f g) : Apart g f := fun i => (h i).symm

/-- The table `u` is made of the pieces. -/
structure Tiles (u : ι → Option ε) (fs : List (ι → Option ε)) : Prop where
  apart : fs.Pairwise Apart
  entry : ∀ i e, u i = some e ↔ ∃ f ∈ fs, f i = some e

namespace Tiles

theorem nil (h : ∀ i, u i = none) : Tiles u [] := ⟨.nil, fun i e => by simp [h i]⟩

theorem perm (h : Tiles u fs) (hp : fs.Perm gs) : Tiles u gs :=
  ⟨hp.pairwise h.apart Apart.symm, fun i e => by simp only [h.entry, hp.mem_iff]⟩

/-- Where the table is empty, so are its pieces. -/
theorem eq_none (h : Tiles u fs) {i : ι} (hi : u i = none) (hf : f ∈ fs) : f i = none := by
  cases hfi : f i with
  | none => rfl
  | some e => exact absurd ((h.entry i e).2 ⟨f, hf, hfi⟩) (by simp [hi])

theorem cons (h : Tiles u fs) (hfree : ∀ i, f i ≠ none → u i = none)
    (hu : ∀ i, u' i = (f i).or (u i)) : Tiles u' (f :: fs) where
  apart := List.pairwise_cons.2 ⟨fun g hg i => by
    by_cases hi : f i = none
    · exact .inl hi
    · exact .inr (h.eq_none (hfree i hi) hg), h.apart⟩
  entry i e := by
    rw [hu i, List.exists_mem_cons_iff, ← h.entry]
    cases hi : f i with
    | none => simp
    | some e' => simp [hfree i (by simp [hi])]

theorem tail (h : Tiles u (f :: fs)) (hu : ∀ i, u' i = if f i = none then u i else none) :
    Tiles u' fs where
  apart := (List.pairwise_cons.1 h.apart).2
  entry i e := by
    have hapart := (List.pairwise_cons.1 h.apart).1
    rw [hu i]
    cases hi : f i with
    | none => simp [h.entry, hi]
    | some e' =>
      simp only [reduceCtorEq, if_false, false_iff, not_exists, not_and]
      intro g hg hgi
      rcases hapart g hg i with h | h
      · simp [hi] at h
      · simp [hgi] at h

/-- Add a piece where the table is empty. -/
theorem append (h : Tiles u fs) (hfree : ∀ i, f i ≠ none → u i = none)
    (hu : ∀ i, u' i = (f i).or (u i)) : Tiles u' (fs ++ [f]) :=
  (h.cons hfree hu).perm (List.perm_append_singleton f fs).symm

/-- Take a piece out. -/
theorem eraseIdx (h : Tiles u fs) (hk : fs[k]? = some f)
    (hu : ∀ i, u' i = if f i = none then u i else none) : Tiles u' (fs.eraseIdx k) := by
  obtain ⟨hlt, rfl⟩ := List.getElem?_eq_some_iff.1 hk
  exact (h.perm (List.getElem_cons_eraseIdx_perm hlt).symm).tail hu

/-- Replace a piece by another one. -/
theorem set (h : Tiles u fs) (hk : fs[k]? = some f)
    (hfree : ∀ i, g i ≠ none → f i = none → u i = none)
    (hu : ∀ i, u' i = (g i).or (if f i = none then u i else none)) : Tiles u' (fs.set k g) := by
  obtain ⟨hlt, -⟩ := List.getElem?_eq_some_iff.1 hk
  refine (cons (h.eraseIdx hk fun _ => rfl) (fun i hi => ?_) hu).perm
    (List.set_perm_cons_eraseIdx hlt g).symm
  by_cases hf : f i = none
  · rw [if_pos hf, hfree i hi hf]
  · rw [if_neg hf]

end Tiles

end AuxKernel
