import AuxKernel.Rmap.Units

/-!
# The account of a resource map

In a map that starts with one extent, its units are free, allocated or lost (`Kept`), and each
entry is either in use or counted by `mapsize`. The entry behind the last one has no size, but it
has an address, zero: units that end at zero and go to the last extent are taken to be before
another one, and `mapsize` is one too large from then on (`Clean`).
-/

namespace AuxKernel.Rmap

/-- The entries before the first of size zero. -/
def live (l : List Entry) : List Entry := l.takeWhile (·.m_size ≠ 0)

theorem live_append_ends {es : List Entry} (h : ∀ e ∈ es, e.m_size ≠ 0) (k : ℕ) :
    live (es ++ ends k) = es := by
  rw [live, List.takeWhile_append_of_pos fun e he => decide_eq_true (h e he), ends_eq,
    List.takeWhile_cons_of_neg (by simp), List.append_nil]

/-- Units that end at zero are not given back behind the last extent. -/
def Clean (s : Resource) : Act → Prop
  | .mfree size a => ¬(0 < size ∧ Drifts size a (live s.map.entries))
  | _ => True

instance (size a : ℤ) (es : List Entry) : Decidable (Drifts size a es) :=
  inferInstanceAs (Decidable (_ ∧ _ ∧ _))

instance : ∀ s a, Decidable (Clean s a)
  | _, .malloc _ => .isTrue trivial
  | _, .mfree _ _ => inferInstanceAs (Decidable ¬(_ ∧ _))
  | _, .want => .isTrue trivial

/-! ## What is kept -/

/-- The extents `es`, with room for `k` more, and the units that are allocated or lost make up
    the extent that the map started with. -/
structure Kept (size a : ℤ) (room : ℕ) (s : Resource) (es : List Entry) (k : ℕ) : Prop where
  entries : s.map.entries = es ++ ends k
  mapsize : s.map.mapsize = k
  extents : Extents a (a + size) es
  count : es.length + k = room + 1
  free : ∀ u, Free es u ↔ u ∈ units size a ∧ u ∉ s.allocated ∧ u ∉ s.lost
  allocated : ∀ u ∈ s.allocated, u ∈ units size a ∧ u ∉ s.lost

variable {size a : ℤ} {room : ℕ} {s s' : Resource} {es : List Entry} {k : ℕ}

@[simp] theorem mem_units (u : ℤ) : u ∈ units size a ↔ a ≤ u ∧ u < a + size := by
  rw [units, Finset.mem_image]
  constructor
  · rintro ⟨i, hi, rfl⟩
    have := Finset.mem_range.1 hi
    omega
  · rintro ⟨hlo, hhi⟩
    exact ⟨(u - a).toNat, Finset.mem_range.2 (by omega), by omega⟩

theorem Kept.live (h : Kept size a room s es k) : live s.map.entries = es := by
  rw [h.entries, live_append_ends h.extents.ne]

theorem kept_one (hs : 0 < size) :
    Kept size a room (Resource.one size a room) [⟨size, a⟩] room := by
  refine ⟨rfl, rfl, ⟨?_, ?_, List.pairwise_singleton _ _⟩, by rw [List.length_singleton]; omega,
    fun u => ?_, fun u hu => absurd hu (Finset.notMem_empty u)⟩
  · intro e he
    rwa [List.mem_singleton.1 he]
  · intro e he
    rw [List.mem_singleton.1 he]
    exact ⟨le_rfl, le_rfl⟩
  · simp [Resource.one]

theorem malloc_of_loop {mp : Map} {n d : ℤ} (hn : 0 < n) {r : Option ℤ} {l : List Entry}
    (h : mallocLoop n mp.entries = some (r, l, d)) :
    Rmap.malloc mp n = some (r, { mp with entries := l, mapsize := mp.mapsize + d }) := by
  rw [Rmap.malloc, if_neg (not_le.2 hn), h]
  rfl

/-- What `malloc` does: no extent is large enough, or the units it returns were free. -/
theorem Kept.malloc (h : Kept size a room s es k) (hlo : -2 ^ 31 ≤ a) (hhi : a + size ≤ 2 ^ 31)
    {n : ℤ} (hn : 0 < n) :
    Rmap.malloc s.map n = some (none, s.map) ∧ (∀ e ∈ es, e.m_size < n) ∨
    ∃ x mp es' k', Rmap.malloc s.map n = some (some x, mp) ∧ (∀ u ∈ units n x, Free es u) ∧
      Kept size a room ⟨mp, s.allocated ∪ units n x, s.lost⟩ es' k' := by
  rcases mallocLoop_spec h.extents hlo hhi hn k with ⟨hloop, hlt⟩ | ⟨l₁, e, l₂, rfl, hcase⟩
  · refine .inl ⟨?_, hlt⟩
    rw [← h.entries] at hloop
    rw [malloc_of_loop hn hloop, add_zero]
  · obtain ⟨hbefore, hafter⟩ := h.extents.sides (List.mem_singleton_self e)
    have hpos := h.extents.pos e (by simp)
    have hmem := h.extents.mem e (by simp)
    have hne : n ≤ e.m_size := by
      rcases hcase with ⟨heq, -⟩ | ⟨hlt, -⟩
      · exact heq.ge
      · exact hlt.le
    have hfree : ∀ u ∈ units n e.m_addr, Free (l₁ ++ ([e] ++ l₂)) u := by
      intro u hu
      rw [mem_units] at hu
      exact ⟨e, by simp, hu.1, by omega⟩
    -- the units of the entry are in no other
    have hsep₁ : ∀ u, Free l₁ u → u < e.m_addr := by
      rintro u ⟨f, hf, -, hu⟩
      exact hu.trans (hbefore f hf)
    have hsep₂ : ∀ u, Free l₂ u → e.m_addr + e.m_size < u := by
      rintro u ⟨f, hf, hu, -⟩
      exact (hafter f hf).trans_le hu
    have hkept (mid : List Entry) (k' : ℕ) (mp : Map)
        (hentries : mp.entries = l₁ ++ (mid ++ l₂) ++ ends k') (hsize : mp.mapsize = k')
        (hmid : Extents e.m_addr (e.m_addr + e.m_size) mid) (hcount : mid.length + k' = 1 + k)
        (hunits : ∀ u, Free mid u ↔ e.m_addr + n ≤ u ∧ u < e.m_addr + e.m_size) :
        Kept size a room ⟨mp, s.allocated ∪ units n e.m_addr, s.lost⟩ (l₁ ++ (mid ++ l₂)) k' := by
      refine ⟨hentries, hsize, h.extents.replace hmem.1 hmem.2 hbefore hafter hmid, ?_, fun u => ?_,
        fun u hu => ?_⟩
      · have hcount₀ := h.count
        simp only [List.length_append, List.length_singleton] at hcount₀ ⊢
        omega
      · have hu := h.free u
        have hu₁ := hsep₁ u
        have hu₂ := hsep₂ u
        simp only [free_append, free_cons, free_nil, or_false, hunits, Finset.mem_union, mem_units,
          not_or] at hu ⊢
        by_cases hl₁ : Free l₁ u
        · have := hu₁ hl₁
          simp only [hl₁, true_or, true_iff] at hu ⊢
          exact ⟨hu.1, ⟨hu.2.1, by omega⟩, hu.2.2⟩
        by_cases hl₂ : Free l₂ u
        · have := hu₂ hl₂
          simp only [hl₂, or_true, true_iff] at hu ⊢
          exact ⟨hu.1, ⟨hu.2.1, by omega⟩, hu.2.2⟩
        simp only [hl₁, hl₂, false_or, or_false] at hu ⊢
        constructor
        · intro hin
          obtain ⟨hin₁, hin₂, hin₃⟩ := hu.1 (by omega)
          exact ⟨hin₁, ⟨hin₂, by omega⟩, hin₃⟩
        · rintro ⟨hin₁, ⟨hin₂, hout⟩, hin₃⟩
          have := hu.2 ⟨hin₁, hin₂, hin₃⟩
          omega
      · rcases Finset.mem_union.1 hu with hu | hu
        · exact h.allocated u hu
        · obtain ⟨hin, -, hlost⟩ := (h.free u).1 (hfree u hu)
          exact ⟨hin, hlost⟩
    rcases hcase with ⟨heq, hloop⟩ | ⟨hlt, hloop⟩
    · refine .inr ⟨e.m_addr, { s.map with
          entries := l₁ ++ ([] ++ l₂) ++ ends (k + 1), mapsize := s.map.mapsize + 1 }, _, _,
        malloc_of_loop hn (h.entries ▸ hloop), hfree,
        hkept [] (k + 1) _ rfl (by rw [h.mapsize]; rfl) ⟨?_, ?_, .nil⟩
          (by rw [List.length_nil]; omega) fun u => ?_⟩
      · exact fun _ he => absurd he List.not_mem_nil
      · exact fun _ he => absurd he List.not_mem_nil
      · rw [iff_false_left (free_nil u)]
        omega
    · refine .inr ⟨e.m_addr, { s.map with
          entries := l₁ ++ ([⟨e.m_size - n, e.m_addr + n⟩] ++ l₂) ++ ends k,
          mapsize := s.map.mapsize + 0 }, _, _, malloc_of_loop hn (h.entries ▸ hloop), hfree,
        hkept [⟨e.m_size - n, e.m_addr + n⟩] k _ rfl (by rw [h.mapsize, add_zero])
          ⟨?_, ?_, List.pairwise_singleton _ _⟩ (by rw [List.length_singleton]) fun u => ?_⟩
      · intro f hf
        rw [List.mem_singleton.1 hf]
        exact Int.sub_pos.2 hlt
      · intro f hf
        rw [List.mem_singleton.1 hf]
        dsimp only
        omega
      · simp only [free_cons, free_nil, or_false]
        omega

theorem mfree_of_loop {mp : Map} {n b : ℤ} (hn : 0 < n) {p : Option Entry} {l : List Entry}
    {d : Option ℤ} (h : mfreeLoop n b mp.mapsize none mp.entries = some (p, l, d)) :
    Rmap.mfree mp n b = some (d.elim (true, mp) fun d => (false, ⟨mp.mapsize + d, false, l⟩)) := by
  rw [Rmap.mfree, if_neg (not_le.2 hn), h]
  cases d <;> rfl

/-- What `mfree` does, given units that are allocated: they are lost, or free. -/
theorem Kept.mfree (h : Kept size a room s es k) (hlo : -2 ^ 31 ≤ a) (hhi : a + size ≤ 2 ^ 31)
    (hsize : size < 2 ^ 31) {n b : ℤ} (hn : 0 < n) (hb : units n b ⊆ s.allocated)
    (hclean : ¬Drifts n b es) :
    Rmap.mfree s.map n b = some (true, s.map) ∧ NoRoom n b k es ∧
      Kept size a room ⟨s.map, s.allocated \ units n b, s.lost ∪ units n b⟩ es k ∨
    (∃ mp es' k', Rmap.mfree s.map n b = some (false, mp) ∧
      Kept size a room ⟨mp, s.allocated \ units n b, s.lost⟩ es' k') ∧ ¬NoRoom n b k es := by
  have hin : ∀ u, b ≤ u → u < b + n → u ∈ s.allocated := fun u hu hu' =>
    hb ((mem_units u).2 ⟨hu, hu'⟩)
  have hfirst := (mem_units b).1 (h.allocated b (hin b le_rfl (by omega))).1
  have hlast := (mem_units _).1 (h.allocated (b + n - 1) (hin _ (by omega) (by omega))).1
  have hnot : ∀ u, b ≤ u → u < b + n → ¬Free es u := fun u hu hu' hfree =>
    ((h.free u).1 hfree).2.1 (hin u hu hu')
  rcases mfreeLoop_spec hlo hhi (by omega) (k := k) h.extents hn hfirst.1 (by omega) hnot
    hclean with ⟨hloop, hno⟩ | ⟨⟨es', k', d, hloop, hfreed⟩, hroom⟩
  · rw [← h.entries, ← h.mapsize] at hloop
    refine .inl ⟨mfree_of_loop hn hloop, hno, h.entries, h.mapsize, h.extents, h.count, fun u => ?_,
      fun u hu => ?_⟩
    · rw [h.free u, Finset.mem_sdiff, Finset.mem_union]
      have hu (hu : u ∈ units n b) := hb hu
      tauto
    · rw [Finset.mem_sdiff] at hu
      have := h.allocated u hu.1
      rw [Finset.mem_union]
      tauto
  · rw [← h.entries, ← h.mapsize] at hloop
    refine .inr ⟨⟨_, es', k', mfree_of_loop hn hloop, rfl, ?_, hfreed.extents, ?_, fun u => ?_,
      fun u hu => ?_⟩, hroom⟩
    · rw [hfreed.room, ← h.mapsize]
    · have := hfreed.room
      have := hfreed.count
      have := h.count
      omega
    · rw [hfreed.free u, h.free u, Finset.mem_sdiff, ← mem_units]
      have hu (hu : u ∈ units n b) := h.allocated u (hb hu)
      tauto
    · exact h.allocated u (Finset.sdiff_subset hu)

/-! ## Every run -/

theorem Kept.step (h : Kept size a room s es k) (hlo : -2 ^ 31 ≤ a) (hhi : a + size ≤ 2 ^ 31)
    (hsize : size < 2 ^ 31) {act : Act} (hclean : Clean s act) (hs' : s.step act = some s') :
    ∃ es' k', Kept size a room s' es' k' := by
  cases act with
  | malloc n =>
    obtain ⟨⟨r, mp⟩, hmalloc, rfl⟩ := Option.map_eq_some_iff.1 hs'
    rcases le_or_gt n 0 with hn | hn
    · rw [Rmap.malloc, if_pos hn] at hmalloc
      cases hmalloc
      exact ⟨es, k, by simpa using h⟩
    · rcases h.malloc hlo hhi hn with ⟨hnone, -⟩ | ⟨x, mp', es', k', hsome, -, hkept⟩
      · rw [hnone] at hmalloc
        cases hmalloc
        exact ⟨es, k, by simpa using h⟩
      · rw [hsome] at hmalloc
        cases hmalloc
        exact ⟨es', k', hkept⟩
  | mfree n b =>
    rw [Resource.step] at hs'
    split_ifs at hs' with hb
    obtain ⟨⟨lost, mp⟩, hmfree, rfl⟩ := Option.map_eq_some_iff.1 hs'
    rcases le_or_gt n 0 with hn | hn
    · have hnil : units n b = ∅ := by rw [units, Int.toNat_eq_zero.2 hn]; rfl
      rw [Rmap.mfree, if_pos hn] at hmfree
      cases hmfree
      exact ⟨es, k, by simpa [hnil] using h⟩
    · have hdrift : ¬Drifts n b es := fun hd => hclean ⟨hn, by rwa [h.live]⟩
      rcases h.mfree hlo hhi hsize hn hb hdrift with
        ⟨hlost, -, hkept⟩ | ⟨⟨mp', es', k', hput, hkept⟩, -⟩
      · rw [hlost] at hmfree
        cases hmfree
        exact ⟨es, k, hkept⟩
      · rw [hput] at hmfree
        cases hmfree
        exact ⟨es', k', hkept⟩
  | want =>
    cases hs'
    exact ⟨es, k, h.entries, h.mapsize, h.extents, h.count, h.free, h.allocated⟩

theorem kept_of_reachable (hs : (resources size a room).ReachableIf Clean s) :
    (0 < size ∧ size < 2 ^ 31 ∧ -2 ^ 31 ≤ a ∧ a + size ≤ 2 ^ 31) ∧
      ∃ es k, Kept size a room s es k := by
  induction hs with
  | init hs =>
    obtain ⟨hpos, hsize, hlo, hhi, rfl⟩ := hs
    exact ⟨⟨hpos, hsize, hlo, hhi⟩, _, _, kept_one hpos⟩
  | step _ hclean hstep ih =>
    obtain ⟨hrange, es, k, hkept⟩ := ih
    exact ⟨hrange, hkept.step hrange.2.2.1 hrange.2.2.2 hrange.2.1 hclean hstep⟩

/-- The state of a map that is as it should be: its extents are in order and apart, nothing is
    behind them, each entry of the array is counted, and the units are accounted for. -/
structure Sound (size a : ℤ) (room : ℕ) (s : Resource) : Prop where
  pos : ∀ e ∈ live s.map.entries, 0 < e.m_size
  apart : (live s.map.entries).Pairwise fun e f => e.m_addr + e.m_size < f.m_addr
  ends : ∀ e ∈ s.map.entries.drop (live s.map.entries).length, e = ⟨0, 0⟩
  array : s.map.entries.length = room + 2
  count : (live s.map.entries).length + s.map.mapsize = room + 1
  free : ∀ u, Free (live s.map.entries) u ↔ u ∈ units size a ∧ u ∉ s.allocated ∧ u ∉ s.lost
  allocated : s.allocated ⊆ units size a
  apart_lost : Disjoint s.allocated s.lost

theorem Kept.sound (h : Kept size a room s es k) : Sound size a room s := by
  refine ⟨?_, ?_, ?_, ?_, ?_, ?_, fun u hu => (h.allocated u hu).1,
    Finset.disjoint_left.2 fun u hu => (h.allocated u hu).2⟩
  · rw [h.live]
    exact h.extents.pos
  · rw [h.live]
    exact h.extents.apart
  · rw [h.live, h.entries, List.drop_left]
    exact fun e he => List.eq_of_mem_replicate he
  · have := h.count
    rw [h.entries, List.length_append, ends, List.length_replicate]
    omega
  · have := h.count
    rw [h.live, h.mapsize]
    omega
  · rw [h.live]
    exact h.free

/-- In every run that gives no units back behind the last extent that end at zero, the map is
    sound. `malloc` stays in the array, returns units that were free, and returns zero only if
    there are none, where zero is not a unit; `mfree` stays in the array, and loses units only if
    they need an entry, and there is none. -/
theorem account_of_clean (hs : (resources size a room).ReachableIf Clean s) :
    Sound size a room s ∧
    (∀ n, ∃ r mp, Rmap.malloc s.map n = some (r, mp) ∧
      (∀ x, r = some x → ∀ u ∈ units n x, Free (live s.map.entries) u) ∧
      (0 ∉ units size a → r.getD 0 = 0 → n ≤ 0 ∨ ∀ e ∈ live s.map.entries, e.m_size < n)) ∧
    ∀ n b, units n b ⊆ s.allocated → Clean s (.mfree n b) →
      ∃ lost mp, Rmap.mfree s.map n b = some (lost, mp) ∧
        (lost = true ↔ 0 < n ∧ s.map.mapsize = 0 ∧
          ∀ e ∈ live s.map.entries, e.m_addr + e.m_size ≠ b ∧ b + n ≠ e.m_addr) := by
  obtain ⟨⟨-, hsize, hlo, hhi⟩, es, k, h⟩ := kept_of_reachable hs
  refine ⟨h.sound, fun n => ?_, fun n b hb hclean => ?_⟩
  · rcases le_or_gt n 0 with hn | hn
    · exact ⟨none, s.map, by rw [Rmap.malloc, if_pos hn], (fun x hx => by cases hx),
        fun _ _ => .inl hn⟩
    · rw [h.live]
      rcases h.malloc hlo hhi hn with ⟨hnone, hlt⟩ | ⟨x, mp, _, _, hsome, hfree, -⟩
      · exact ⟨none, s.map, hnone, (fun x hx => by cases hx), fun _ _ => .inr hlt⟩
      · refine ⟨some x, mp, hsome, fun y hy => ?_, fun hzero hx => ?_⟩
        · obtain rfl := Option.some.inj hy
          exact hfree
        · obtain rfl : x = 0 := hx
          exact absurd ((h.free 0).1 (hfree 0 ((mem_units 0).2 ⟨le_rfl, by omega⟩))).1 hzero
  · rcases le_or_gt n 0 with hn | hn
    · refine ⟨false, s.map, by rw [Rmap.mfree, if_pos hn],
        iff_of_false Bool.false_ne_true fun h => ?_⟩
      exact absurd h.1 (not_lt.2 hn)
    · have hdrift : ¬Drifts n b es := fun hd => hclean ⟨hn, by rwa [h.live]⟩
      have hroom : NoRoom n b k es ↔ 0 < n ∧ s.map.mapsize = 0 ∧
          ∀ e ∈ live s.map.entries, e.m_addr + e.m_size ≠ b ∧ b + n ≠ e.m_addr := by
        rw [h.live, h.mapsize, NoRoom, Nat.cast_eq_zero, and_iff_right hn]
      rw [← hroom]
      rcases h.mfree hlo hhi hsize hn hb hdrift with
        ⟨hlost, hno, -⟩ | ⟨⟨mp, _, _, hput, -⟩, hno⟩
      · exact ⟨true, s.map, hlost, iff_of_true rfl hno⟩
      · exact ⟨false, mp, hput, iff_of_false Bool.false_ne_true hno⟩

/-- Units that are given back apart from the free ones, before them, and in between. -/
def splits : List Act :=
  [.malloc 2, .malloc 2, .malloc 2, .malloc 3, .want, .mfree 2 12, .mfree 2 16, .malloc 1,
    .mfree 2 14]

theorem account_of_clean_splits :
    ∃ s : Resource, Sound 9 10 1 s ∧ ∀ n b, units n b ⊆ s.allocated → Clean s (.mfree n b) →
      ∃ lost mp, Rmap.mfree s.map n b = some (lost, mp) := by
  have hrun : ((resources 9 10 1).runIf Clean (Resource.one 9 10 1) splits).isSome := by decide
  obtain ⟨s, hs⟩ := Option.isSome_iff_exists.1 hrun
  have h := account_of_clean (Machine.reachableIf_runIf
    (.init ⟨by decide, by decide, by decide, by decide, rfl⟩) hs)
  refine ⟨s, h.1, fun n b hb hclean => ?_⟩
  obtain ⟨lost, mp, hmfree, -⟩ := h.2.2 n b hb hclean
  exact ⟨lost, mp, hmfree⟩

/-- Units that end at zero, and are given back in two parts: an entry is counted that there is
    not. -/
theorem not_account : ∃ s, (resources 4 (-4) 2).Reachable s ∧ ¬Sound 4 (-4) 2 s := by
  have hrun : ((resources 4 (-4) 2).run (Resource.one 4 (-4) 2)
      [.malloc 4, .mfree 2 (-4), .mfree 2 (-2)]).map
        (fun s => (live s.map.entries, s.map.mapsize)) = some ([⟨4, -4⟩], 3) := by decide
  obtain ⟨s, hs, hend⟩ := Option.map_eq_some_iff.1 hrun
  refine ⟨s, Machine.reachableIf_run (.init ⟨by decide, by decide, by decide, by decide, rfl⟩)
    (fun _ _ _ => trivial) hs, fun hsound => ?_⟩
  obtain ⟨hlive, hsize⟩ := Prod.mk.inj hend
  have := hsound.count
  rw [hlive, hsize] at this
  exact absurd this (by decide)

end AuxKernel.Rmap
