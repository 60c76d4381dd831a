import AuxKernel.Rmap.Account

/-!
# Who owns the units of a resource map

The units of a map that begin above zero, where they are free or belong to one owner each
(`Owned`): an owner gets units from `malloc`, gives all it has back by `mfree`, which needs room
in the map (`Room`), or hands them over to another owner.
-/

namespace AuxKernel.Rmap

variable {ι κ : Type*} {size a : ℤ} {room : ℕ} {mp : Map} {H : ι → ℤ → Prop} {n b : ℤ}

/-- Units that are given back next to free ones, or there is an entry for them. -/
def Room (mp : Map) (n b : ℤ) : Prop :=
  mp.mapsize = 0 → ∃ e ∈ live mp.entries, e.m_addr + e.m_size = b ∨ b + n = e.m_addr

/-- Each unit is free or belongs to one owner; `H` says what belongs to whom. -/
structure Owned (size a : ℤ) (room : ℕ) (mp : Map) (H : ι → ℤ → Prop) : Prop where
  kept : ∃ allocated es k, Kept size a room ⟨mp, allocated, ∅⟩ es k ∧
    ∀ u, u ∈ allocated ↔ ∃ o, H o u
  one : ∀ o o' u, H o u → H o' u → o = o'

/-- The units of the map, free or not. -/
theorem Owned.free (h : Owned size a room mp H) (u : ℤ) :
    u ∈ units size a ↔ Free (live mp.entries) u ∨ ∃ o, H o u := by
  obtain ⟨allocated, es, k, hk, halloc⟩ := h.kept
  have hfree := hk.free u
  rw [hk.live, ← halloc]
  constructor
  · intro hu
    by_cases hu' : u ∈ allocated
    · exact .inr hu'
    · exact .inl (hfree.2 ⟨hu, hu', Finset.notMem_empty u⟩)
  · rintro (hu | hu)
    · exact (hfree.1 hu).1
    · exact (hk.allocated u hu).1

theorem Owned.not_free (h : Owned size a room mp H) {o : ι} {u : ℤ} (ho : H o u) :
    ¬Free (live mp.entries) u := by
  obtain ⟨allocated, es, k, hk, halloc⟩ := h.kept
  rw [hk.live]
  exact fun hu => ((hk.free u).1 hu).2.1 ((halloc u).2 ⟨o, ho⟩)

/-- Units may be handed over. -/
theorem Owned.hand {H' : κ → ℤ → Prop} (h : Owned size a room mp H)
    (hH : ∀ u, (∃ o, H' o u) ↔ ∃ o, H o u) (hone : ∀ o o' u, H' o u → H' o' u → o = o') :
    Owned size a room mp H' := by
  obtain ⟨allocated, es, k, hk, halloc⟩ := h.kept
  exact ⟨⟨allocated, es, k, hk, fun u => (halloc u).trans (hH u).symm⟩, hone⟩

theorem Owned.congr {H' : ι → ℤ → Prop} (h : Owned size a room mp H)
    (hH : ∀ o u, H' o u ↔ H o u) : Owned size a room mp H' :=
  h.hand (fun u => exists_congr fun o => hH o u)
    fun o o' u ho ho' => h.one o o' u ((hH o u).1 ho) ((hH o' u).1 ho')

/-- Who waits does not matter. -/
theorem Owned.want (h : Owned size a room mp H) (want : Bool) :
    Owned size a room { mp with mapwant := want } H := by
  obtain ⟨allocated, es, k, hk, halloc⟩ := h.kept
  exact ⟨⟨allocated, es, k, ⟨hk.entries, hk.mapsize, hk.extents, hk.count, hk.free, hk.allocated⟩,
    halloc⟩, h.one⟩

/-- No free extent is large enough, or an owner gets units. -/
theorem Owned.malloc (h : Owned size a room mp H) (hlo : -2 ^ 31 ≤ a) (hhi : a + size ≤ 2 ^ 31)
    (hn : 0 < n) :
    Rmap.malloc mp n = some (none, mp) ∧ (∀ e ∈ live mp.entries, e.m_size < n) ∨
    (∃ e ∈ live mp.entries, n ≤ e.m_size) ∧
      ∃ x mp', Rmap.malloc mp n = some (some x, mp') ∧ units n x ⊆ units size a ∧
        ∀ {H' : ι → ℤ → Prop} (o : ι),
          (∀ o' u, H' o' u ↔ H o' u ∨ (o' = o ∧ u ∈ units n x)) → Owned size a room mp' H' := by
  obtain ⟨allocated, es, k, hk, halloc⟩ := h.kept
  rw [hk.live]
  rcases hk.malloc hlo hhi hn with hnone | ⟨x, mp', es', k', hsome, hfree, hk'⟩
  · exact .inl hnone
  refine .inr ⟨?_, x, mp', hsome, fun u hu => ((hk.free u).1 (hfree u hu)).1,
    fun {H'} o hH => ⟨⟨_, es', k', hk', fun u => ?_⟩, fun o₁ o₂ u h₁ h₂ => ?_⟩⟩
  · rcases mallocLoop_spec hk.extents hlo hhi hn k with ⟨hloop, -⟩ | ⟨l₁, e, l₂, rfl, hcase⟩
    · rw [← hk.entries] at hloop
      exact nomatch hsome.symm.trans (malloc_of_loop hn hloop)
    · refine ⟨e, List.mem_append_right l₁ List.mem_cons_self, ?_⟩
      exact hcase.elim (fun h => h.1.ge) fun h => h.1.le
  · rw [Finset.mem_union, halloc]
    constructor
    · rintro (⟨o', ho'⟩ | hu)
      · exact ⟨o', (hH o' u).2 (.inl ho')⟩
      · exact ⟨o, (hH o u).2 (.inr ⟨rfl, hu⟩)⟩
    · rintro ⟨o', ho'⟩
      exact ((hH o' u).1 ho').imp (fun ho' => ⟨o', ho'⟩) And.right
  · -- The new units were free.
    have hnew {o' : ι} (hu : u ∈ units n x) : ¬H o' u := fun ho' =>
      ((hk.free u).1 (hfree u hu)).2.1 ((halloc u).2 ⟨o', ho'⟩)
    rcases (hH o₁ u).1 h₁ with h₁ | ⟨h₁, hu⟩ <;> rcases (hH o₂ u).1 h₂ with h₂ | ⟨h₂, hu'⟩
    · exact h.one o₁ o₂ u h₁ h₂
    · exact absurd h₁ (hnew hu')
    · exact absurd h₂ (hnew hu)
    · exact h₁.trans h₂.symm

/-- All that an owner has is given back. -/
theorem Owned.mfree (h : Owned size a room mp H) (ha : 0 < a) (hhi : a + size ≤ 2 ^ 31)
    (hn : 0 < n) {o : ι} (ho : ∀ u, H o u ↔ u ∈ units n b) (hroom : Room mp n b) :
    ∃ mp', Rmap.mfree mp n b = some (false, mp') ∧
      ∀ {H' : ι → ℤ → Prop}, (∀ o' u, H' o' u ↔ H o' u ∧ o' ≠ o) → Owned size a room mp' H' := by
  obtain ⟨allocated, es, k, hk, halloc⟩ := h.kept
  have hb : units n b ⊆ allocated := fun u hu => (halloc u).2 ⟨o, (ho u).2 hu⟩
  have hfirst := (mem_units b).1 (hk.allocated b (hb ((mem_units b).2 ⟨le_rfl, by omega⟩))).1
  have hclean : ¬Drifts n b es := fun hd => by
    have := hd.1
    omega
  rcases hk.mfree (by omega) hhi (by omega) hn hb hclean with
    ⟨-, ⟨hzero, hno⟩, -⟩ | ⟨⟨mp', es', k', hfree, hk'⟩, -⟩
  · obtain ⟨e, he, hadj⟩ := hroom (hk.mapsize.trans (by rw [hzero]; rfl))
    rw [hk.live] at he
    exact absurd hadj (not_or.2 (hno e he))
  · refine ⟨mp', hfree, fun {H'} hH => ⟨⟨_, es', k', hk', fun u => ?_⟩, fun o₁ o₂ u h₁ h₂ => ?_⟩⟩
    · rw [Finset.mem_sdiff, halloc, ← ho]
      constructor
      · rintro ⟨⟨o', ho'⟩, hu⟩
        exact ⟨o', (hH o' u).2 ⟨ho', fun he => hu (he ▸ ho')⟩⟩
      · rintro ⟨o', ho'⟩
        obtain ⟨ho', hne⟩ := (hH o' u).1 ho'
        exact ⟨⟨o', ho'⟩, fun hu => hne (h.one o' o u ho' hu)⟩
    · exact h.one o₁ o₂ u ((hH o₁ u).1 h₁).1 ((hH o₂ u).1 h₂).1

/-- In the beginning all units are free. -/
theorem owned_one (hs : 0 < size) (hH : ∀ o u, ¬H o u) :
    Owned size a room (Resource.one size a room).map H :=
  ⟨⟨∅, _, _, kept_one hs, fun u => iff_of_false (Finset.notMem_empty u) fun ho =>
    ho.elim fun o ho => hH o u ho⟩, fun o _ u ho => absurd ho (hH o u)⟩

end AuxKernel.Rmap
