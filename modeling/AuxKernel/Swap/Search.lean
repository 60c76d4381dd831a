import AuxKernel.Swap.Accounting

/-!
# The search for free pages

`swapfind` (`PAGING/os/swapalloc.c`) with every counter it reads: one that is not in the array of
the swap file is `none`. The search goes from `st_next` to the end, and then from the beginning to
`st_next`, and neither pass goes across `st_next`.

* `swapfindIn_eq`: all counters that are read are in the array;
* `finds_iff`: the search is complete if and only if some of the free pages are not across
  `st_next`, when there are any.
-/

namespace AuxKernel.Swap

/-- The counters of a swap file, as an array. -/
def inFile (st : Swpt) (c : ℤ → ℤ) (p : ℤ) : Option ℤ :=
  if 0 ≤ p ∧ p < st.st_npgs then some (c p) else none

/-- The first of the `n` counters from `p` that is not zero. -/
def firstUsedIn (ucnt : ℤ → Option ℤ) : (n : ℕ) → (p : ℤ) → Option (Option ℤ)
  | 0, _ => some none
  | n + 1, p =>
    (ucnt p).bind fun x => if x ≠ 0 then some (some p) else firstUsedIn ucnt n (p + 1)

/-- The first of `size` zero counters, from `p` and no further than `e`. -/
def scanIn (ucnt : ℤ → Option ℤ) (size : ℕ) (e : ℤ) : (fuel : ℕ) → (p : ℤ) → Option (Option ℤ)
  | 0, _ => some none
  | n + 1, p =>
    if e < p then some none
    else
      (ucnt p).bind fun x =>
        if x = 0 then
          (firstUsedIn ucnt (size - 1) (p + 1)).bind fun used =>
            match used with
            | none => some (some p)
            | some q => scanIn ucnt size e n (q + 1)
        else scanIn ucnt size e n (p + 1)

/-- `swapfind`, on the counters that are there. -/
def swapfindIn (ucnt : ℤ → Option ℤ) (st : Swpt) (size : ℕ) : Option (ℤ × Swpt) :=
  let e := st.st_npgs - size
  (scanIn ucnt size e (upto st.st_next e) st.st_next).bind fun found =>
    match found with
    | some b => some (b, { st with st_next := b + size })
    | none =>
      let e := st.st_next - size
      (scanIn ucnt size e (upto 0 e) 0).map fun found =>
        match found with
        | some b => (b, { st with st_next := b + size })
        | none => (-1, { st with st_next := 0 })

variable {st : Swpt} {c : ℤ → ℤ} {size : ℕ} {e p : ℤ} {n : ℕ}

theorem inFile_of_mem (h₀ : 0 ≤ p) (h₁ : p < st.st_npgs) : inFile st c p = some (c p) :=
  if_pos ⟨h₀, h₁⟩

theorem firstUsedIn_eq (h₀ : 0 ≤ p) (h₁ : p + n ≤ st.st_npgs) :
    firstUsedIn (inFile st c) n p = some (firstUsed c n p) := by
  induction n generalizing p with
  | zero => rfl
  | succ n ih =>
    rw [firstUsedIn, firstUsed, inFile_of_mem h₀ (by omega), Option.bind_some,
      ih (by omega) (by omega)]
    exact (apply_ite some _ _ _).symm

/-- A pass that begins in the array and leaves room for the pages reads counters of the array. -/
theorem scanIn_eq (hsize : 0 < size) (h₀ : 0 ≤ p) (he : e + size ≤ st.st_npgs) :
    scanIn (inFile st c) size e n p = some (scan c size e n p) := by
  induction n generalizing p with
  | zero => rfl
  | succ n ih =>
    rw [scanIn, scan]
    by_cases hp : e < p
    · rw [if_pos hp, if_pos hp]
    rw [if_neg hp, if_neg hp, inFile_of_mem h₀ (by omega), Option.bind_some,
      firstUsedIn_eq (by omega) (by omega), Option.bind_some, ih (by omega)]
    by_cases hc : c p = 0
    · rw [if_pos hc, if_pos hc]
      cases hu : firstUsed c (size - 1) (p + 1) with
      | none => rfl
      | some q =>
        have hq := (firstUsed_some hu).1
        exact ih (by omega)
    · rw [if_neg hc, if_neg hc]

/-- No counter outside of the array is read. -/
theorem swapfindIn_eq (hsize : 0 < size) (h₀ : 0 ≤ st.st_next) (h₁ : st.st_next ≤ st.st_npgs) :
    swapfindIn (inFile st c) st size = some (swapfind st c size) := by
  rw [swapfindIn, swapfind]
  dsimp only
  rw [scanIn_eq hsize h₀ (by omega), scanIn_eq hsize le_rfl (by omega), Option.bind_some,
    Option.map_some]
  cases scan c size (st.st_npgs - size) (upto st.st_next (st.st_npgs - size)) st.st_next with
  | some b => rfl
  | none =>
    cases scan c size (st.st_next - size) (upto 0 (st.st_next - size)) 0 with
    | some b => rfl
    | none => rfl

/-- The pages `b`, …, `b + size - 1` are in the file, and free. -/
def FreeIn (st : Swpt) (c : ℤ → ℤ) (size : ℕ) (b : ℤ) : Prop :=
  0 ≤ b ∧ b + size ≤ st.st_npgs ∧ FreeRun c size b

/-- What is claimed of a search: it stays in the array, what it finds is free, and it finds
    something if there is. -/
def Finds (st : Swpt) (c : ℤ → ℤ) (size : ℕ) : Prop :=
  ∃ r, swapfindIn (inFile st c) st size = some r ∧
    (r.1 ≠ -1 → FreeIn st c size r.1) ∧ (r.1 = -1 → ∀ b, ¬FreeIn st c size b)

/-- Free pages that a pass goes over. -/
def Met (st : Swpt) (size : ℕ) (b : ℤ) : Prop := st.st_next ≤ b ∨ b + size ≤ st.st_next

/-- The search finds free pages that a pass goes over, or there are none. -/
theorem swapfind_cases (hsize : 0 < size) (h₀ : 0 ≤ st.st_next) (h₁ : st.st_next ≤ st.st_npgs) :
    FreeIn st c size (swapfind st c size).1 ∧ Met st size (swapfind st c size).1 ∨
      (swapfind st c size).1 = -1 ∧ ∀ b, FreeIn st c size b → ¬Met st size b := by
  rw [swapfind]
  dsimp only
  cases hb : scan c size (st.st_npgs - size) (upto st.st_next (st.st_npgs - size)) st.st_next with
  | some b =>
    obtain ⟨hle, hend, hfree⟩ := scan_some hb
    exact .inl ⟨⟨h₀.trans hle, by dsimp only; omega, hfree⟩, .inl hle⟩
  | none =>
    cases hb' : scan c size (st.st_next - size) (upto 0 (st.st_next - size)) 0 with
    | some b =>
      obtain ⟨hle, hend, hfree⟩ := scan_some hb'
      exact .inl ⟨⟨hle, by dsimp only; omega, hfree⟩, .inr (by dsimp only; omega)⟩
    | none =>
      refine .inr ⟨rfl, ?_⟩
      rintro b ⟨hb₀, hend, hfree⟩ (hmet | hmet)
      · exact scan_none le_rfl hsize hb b hmet (by omega) hfree
      · exact scan_none le_rfl hsize hb' b hb₀ (by omega) hfree

/-- The search is sound and complete if and only if there are free pages that a pass goes over,
    where there are any. -/
theorem finds_iff (hsize : 1 ≤ size) (h₀ : 0 ≤ st.st_next) (h₁ : st.st_next ≤ st.st_npgs) :
    Finds st c size ↔
      ((∃ b, FreeIn st c size b) → ∃ b, FreeIn st c size b ∧ Met st size b) := by
  rw [Finds, swapfindIn_eq hsize h₀ h₁]
  rcases swapfind_cases (c := c) hsize h₀ h₁ with ⟨hfree, hmet⟩ | ⟨hnone, hall⟩
  · refine iff_of_true ⟨_, rfl, fun _ => hfree, fun hnone => ?_⟩ fun _ => ⟨_, hfree, hmet⟩
    have := hfree.1
    omega
  · constructor
    · rintro ⟨r, hr, -, hcomplete⟩ ⟨b, hb⟩
      cases hr
      exact absurd hb (hcomplete hnone b)
    · intro h
      refine ⟨_, rfl, fun hne => absurd hnone hne, fun _ b hb => ?_⟩
      obtain ⟨b', hb', hmet⟩ := h ⟨b, hb⟩
      exact hall b' hb' hmet

/-- A swap file of `npgs` pages, where the search goes on at `next`. -/
def swapFile (next npgs : ℤ) : Swpt := ⟨0, false, none, next, 0, npgs, npgs⟩

/-- Two free pages behind where the search goes on. -/
theorem finds_behind : Finds (swapFile 1 3) (fun _ => 0) 2 :=
  (finds_iff (by decide) (by decide) (by decide)).2 fun _ =>
    ⟨1, ⟨by decide, by decide, fun _ _ => rfl⟩, .inl (by decide)⟩

/-- Two free pages, with the search going on between them. -/
theorem not_finds : ¬∀ (st : Swpt) (c : ℤ → ℤ) (size : ℕ), 1 ≤ size → 0 ≤ st.st_next →
    st.st_next ≤ st.st_npgs → Finds st c size := by
  intro h
  obtain ⟨r, hr, -, hcomplete⟩ :=
    h (swapFile 1 2) (fun _ => 0) 2 (by decide) (by decide) (by decide)
  rw [swapfindIn_eq (by decide) (by decide) (by decide)] at hr
  cases hr
  exact hcomplete rfl 0 ⟨le_rfl, by decide, fun _ _ => rfl⟩

end AuxKernel.Swap
