import AuxKernel.Rmap.Basic

/-!
# A resource map keeps its units

The free extents are apart, and in order (`Extents`). Each call takes some of them out, and puts
others in their place (`Extents.replace`).
-/

namespace AuxKernel.Rmap

/-! ## The end of the array -/

/-- The rest of the array, with room for `k` entries. -/
def ends (k : ℕ) : List Entry := List.replicate (k + 1) ⟨0, 0⟩

theorem ends_eq (k : ℕ) : ends k = ⟨0, 0⟩ :: List.replicate k ⟨0, 0⟩ := List.replicate_succ

theorem ends_succ (k : ℕ) : ends (k + 1) = ⟨0, 0⟩ :: ends k := List.replicate_succ

theorem shiftDown_spec {es : List Entry} (x : Entry) (k : ℕ) (h : ∀ e ∈ es, e.m_size ≠ 0) :
    shiftDown (x :: (es ++ ends k)) = some (es ++ ends (k + 1)) := by
  induction es generalizing x with
  | nil => rw [List.nil_append, ends_eq, shiftDown, if_pos rfl, ends_succ, ends_eq]; rfl
  | cons e es ih =>
    rw [List.cons_append, shiftDown, if_neg (h e List.mem_cons_self),
      ih e fun f hf => h f (List.mem_cons_of_mem e hf)]
    rfl

theorem shiftUp_spec {es : List Entry} (x : Entry) (k : ℕ) (h : ∀ e ∈ es, e.m_size ≠ 0) :
    shiftUp x (es ++ ends (k + 1)) = some (x :: (es ++ ends k)) := by
  induction es generalizing x with
  | nil => rw [List.nil_append, ends_succ, shiftUp, if_pos rfl]; rfl
  | cons e es ih =>
    rw [List.cons_append, shiftUp, if_neg (h e List.mem_cons_self),
      ih e fun f hf => h f (List.mem_cons_of_mem e hf)]
    rfl

/-! ## Extents -/

/-- A unit is free. -/
def Free (es : List Entry) (u : ℤ) : Prop := ∃ e ∈ es, e.m_addr ≤ u ∧ u < e.m_addr + e.m_size

/-- Free extents between `lo` and `hi`: none is empty, and each ends before the next. -/
structure Extents (lo hi : ℤ) (es : List Entry) : Prop where
  pos : ∀ e ∈ es, 0 < e.m_size
  mem : ∀ e ∈ es, lo ≤ e.m_addr ∧ e.m_addr + e.m_size ≤ hi
  apart : es.Pairwise fun e f => e.m_addr + e.m_size < f.m_addr

section Extents

variable {lo hi : ℤ} {es l₁ mid mid' l₂ : List Entry}

theorem free_append (l l' : List Entry) (u : ℤ) : Free (l ++ l') u ↔ Free l u ∨ Free l' u := by
  simp only [Free, List.mem_append, or_and_right, exists_or]

@[simp] theorem free_nil (u : ℤ) : ¬Free [] u := by
  rintro ⟨e, he, -⟩
  exact List.not_mem_nil he

@[simp] theorem free_cons (e : Entry) (l : List Entry) (u : ℤ) :
    Free (e :: l) u ↔ e.m_addr ≤ u ∧ u < e.m_addr + e.m_size ∨ Free l u := by
  simp only [Free, List.mem_cons, or_and_right, exists_or, exists_eq_left]

/-- Some extents are replaced by others, which lie between `a` and `b`, where nothing else is. -/
theorem Extents.replace (h : Extents lo hi (l₁ ++ (mid ++ l₂))) {a b : ℤ} (ha : lo ≤ a)
    (hb : b ≤ hi) (h₁ : ∀ e ∈ l₁, e.m_addr + e.m_size < a) (h₂ : ∀ e ∈ l₂, b < e.m_addr)
    (hmid : Extents a b mid') : Extents lo hi (l₁ ++ (mid' ++ l₂)) := by
  obtain ⟨hpos, hmem, hapart⟩ := h
  rw [List.pairwise_append, List.pairwise_append] at hapart
  obtain ⟨hap₁, ⟨-, hap₂, -⟩, hcross⟩ := hapart
  refine ⟨fun e he => ?_, fun e he => ?_, ?_⟩
  · simp only [List.mem_append] at he hpos
    rcases he with he | he | he
    · exact hpos e (.inl he)
    · exact hmid.pos e he
    · exact hpos e (.inr (.inr he))
  · simp only [List.mem_append] at he hmem
    rcases he with he | he | he
    · exact hmem e (.inl he)
    · have := hmid.mem e he
      omega
    · exact hmem e (.inr (.inr he))
  · rw [List.pairwise_append, List.pairwise_append]
    refine ⟨hap₁, ⟨hmid.apart, hap₂, fun e he f hf => ?_⟩, fun e he f hf => ?_⟩
    · have := hmid.mem e he
      have := h₂ f hf
      omega
    · rcases List.mem_append.1 hf with hf | hf
      · have := hmid.mem f hf
        have := h₁ e he
        omega
      · exact hcross e he f (List.mem_append_right _ hf)

/-- The extents before and behind some of them. -/
theorem Extents.sides (h : Extents lo hi (l₁ ++ (mid ++ l₂))) {e : Entry} (he : e ∈ mid) :
    (∀ f ∈ l₁, f.m_addr + f.m_size < e.m_addr) ∧ ∀ f ∈ l₂, e.m_addr + e.m_size < f.m_addr := by
  have hapart := h.apart
  rw [List.pairwise_append, List.pairwise_append] at hapart
  exact ⟨fun f hf => hapart.2.2 f hf e (List.mem_append_left _ he), fun f hf =>
    hapart.2.1.2.2 e he f hf⟩

theorem Extents.tail {e : Entry} (h : Extents lo hi (e :: es)) : Extents lo hi es :=
  ⟨fun f hf => h.pos f (List.mem_cons_of_mem e hf), fun f hf => h.mem f (List.mem_cons_of_mem e hf),
    h.apart.of_cons⟩

theorem Extents.ne (h : Extents lo hi es) : ∀ e ∈ es, e.m_size ≠ 0 := fun e he => (h.pos e he).ne'

end Extents

/-! ## Allocation -/

section Malloc

variable {lo hi : ℤ} {es : List Entry}

/-- The first extent that is large enough is cut, or taken out. -/
theorem mallocLoop_spec (h : Extents lo hi es) (hlo : -2 ^ 31 ≤ lo) (hhi : hi ≤ 2 ^ 31) {size : ℤ}
    (hs : 0 < size) (k : ℕ) :
    mallocLoop size (es ++ ends k) = some (none, es ++ ends k, 0) ∧ (∀ e ∈ es, e.m_size < size) ∨
    ∃ l₁ e l₂, es = l₁ ++ ([e] ++ l₂) ∧
      (e.m_size = size ∧
        mallocLoop size (es ++ ends k) = some (some e.m_addr, l₁ ++ ([] ++ l₂) ++ ends (k + 1), 1) ∨
      size < e.m_size ∧ mallocLoop size (es ++ ends k) = some (some e.m_addr,
        l₁ ++ ([⟨e.m_size - size, e.m_addr + size⟩] ++ l₂) ++ ends k, 0)) := by
  induction es with
  | nil =>
    refine .inl ⟨?_, fun e he => absurd he List.not_mem_nil⟩
    rw [List.nil_append, ends_eq, mallocLoop, if_pos rfl]
  | cons e es ih =>
    have hpos := h.pos e List.mem_cons_self
    have hmem := h.mem e List.mem_cons_self
    rw [List.cons_append, mallocLoop, if_neg hpos.ne']
    split_ifs with hge heq
    · refine .inr ⟨[], e, es, rfl, .inl ⟨by omega, ?_⟩⟩
      rw [shiftDown_spec _ k h.tail.ne]
      rfl
    · refine .inr ⟨[], e, es, rfl, .inr ⟨by omega, ?_⟩⟩
      rw [toLong_of_mem (by omega) (by omega)]
      rfl
    · rcases ih h.tail with ⟨hloop, hlt⟩ | ⟨l₁, f, l₂, rfl, hcase⟩
      · refine .inl ⟨by rw [hloop]; rfl, List.forall_mem_cons.2 ⟨by omega, hlt⟩⟩
      · refine .inr ⟨e :: l₁, f, l₂, rfl, ?_⟩
        rcases hcase with ⟨heq, hloop⟩ | ⟨hlt, hloop⟩
        · exact .inl ⟨heq, by rw [hloop]; rfl⟩
        · exact .inr ⟨hlt, by rw [hloop]; rfl⟩

end Malloc

/-! ## Freeing -/

/-- An address that was computed is the one it should be. -/
theorem toLong_eq_iff {n m : ℤ} (h₀ : -2 ^ 31 ≤ n) (h₁ : n ≤ 2 ^ 31) (hm₀ : -2 ^ 31 ≤ m)
    (hm₁ : m < 2 ^ 31) (h : n = 2 ^ 31 → -2 ^ 31 < m) : toLong n = m ↔ n = m := by
  rcases h₁.lt_or_eq with hlt | rfl
  · rw [toLong_of_mem h₀ hlt]
  · have hwrap : toLong (2 ^ 31) = -2 ^ 31 := by decide
    have := h rfl
    rw [hwrap]
    omega

section Mfree

variable {lo hi size a mapsize : ℤ} {es l₁ l₂ : List Entry}

/-- A place divides the extents. -/
theorem Extents.split (h : Extents lo hi es) (a : ℤ) : ∃ l₁ l₂, es = l₁ ++ l₂ ∧
    (∀ e ∈ l₁, e.m_addr ≤ a) ∧ ∀ e ∈ l₂, a < e.m_addr := by
  induction es with
  | nil => exact ⟨[], [], rfl, by simp, by simp⟩
  | cons e es ih =>
    by_cases hle : e.m_addr ≤ a
    · obtain ⟨l₁, l₂, rfl, h₁, h₂⟩ := ih h.tail
      exact ⟨e :: l₁, l₂, rfl, List.forall_mem_cons.2 ⟨hle, h₁⟩, h₂⟩
    · refine ⟨[], e :: es, rfl, by simp, List.forall_mem_cons.2 ⟨not_le.1 hle, fun f hf => ?_⟩⟩
      have := List.rel_of_pairwise_cons h.apart hf
      have := h.pos e List.mem_cons_self
      omega

theorem mfreeLoop_cons {l : List Entry} {p : Entry} {r : List Entry}
    (h : ∀ e ∈ l ++ [p], e.m_addr ≤ a ∧ e.m_size ≠ 0) (prev : Option Entry) :
    mfreeLoop size a mapsize prev (l ++ p :: r) =
      (mfreeLoop size a mapsize (some p) r).map fun (e, l', n) =>
        (prev, l ++ (e.toList ++ l'), n) := by
  induction l generalizing prev with
  | nil => rw [List.nil_append, mfreeLoop, if_pos (h p List.mem_cons_self)]; rfl
  | cons e l ih =>
    rw [List.cons_append, mfreeLoop, if_pos (h e List.mem_cons_self),
      ih fun f hf => h f (List.mem_cons_of_mem e hf), Option.map_map]
    rfl

/-- What is done at the place. -/
theorem mfreeLoop_at {k : ℕ} (h₂ : ∀ e ∈ l₂, a < e.m_addr) (prev : Option Entry) :
    mfreeLoop size a mapsize prev (l₂ ++ ends k) = mfreeAt size a mapsize prev (l₂ ++ ends k) := by
  cases l₂ with
  | nil => rw [List.nil_append, ends_eq, mfreeLoop, if_neg fun h => h.2 rfl]
  | cons q l =>
    have := h₂ q List.mem_cons_self
    rw [List.cons_append, mfreeLoop, if_neg fun h => absurd h.1 (by omega)]

/-- Where the entry before the place stays as it is. -/
theorem mfreeLoop_keep {k k' : ℕ} {l : List Entry} {n : Option ℤ}
    (h₁ : ∀ e ∈ l₁, e.m_addr ≤ a ∧ e.m_size ≠ 0) (h₂ : ∀ e ∈ l₂, a < e.m_addr)
    (h : mfreeAt size a mapsize l₁.getLast? (l₂ ++ ends k) = some (l₁.getLast?, l ++ ends k', n)) :
    mfreeLoop size a mapsize none (l₁ ++ (l₂ ++ ends k)) =
      some (none, l₁ ++ (l ++ ends k'), n) := by
  rcases l₁.eq_nil_or_concat' with rfl | ⟨l', p, rfl⟩
  · rw [List.nil_append, mfreeLoop_at h₂]
    exact h
  · rw [List.getLast?_concat] at h
    rw [List.append_assoc, List.singleton_append, mfreeLoop_cons h₁, mfreeLoop_at h₂, h]
    simp

/-- Where the entry before the place grows. -/
theorem mfreeLoop_grow {k k' : ℕ} {l l' : List Entry} {p p' : Entry} {n : Option ℤ}
    (h₁ : ∀ e ∈ l' ++ [p], e.m_addr ≤ a ∧ e.m_size ≠ 0) (h₂ : ∀ e ∈ l₂, a < e.m_addr)
    (h : mfreeAt size a mapsize (some p) (l₂ ++ ends k) = some (some p', l ++ ends k', n)) :
    mfreeLoop size a mapsize none (l' ++ p :: (l₂ ++ ends k)) =
      some (none, l' ++ ([p'] ++ (l ++ ends k')), n) := by
  rw [mfreeLoop_cons h₁, mfreeLoop_at h₂, h]
  rfl

/-- What a call that frees units makes of the extents: some are replaced by others, with these
    units, and `mapsize` counts what is left of the array. -/
structure Freed (lo hi size a : ℤ) (k : ℕ) (es es' : List Entry) (k' : ℕ) (n : ℤ) : Prop where
  extents : Extents lo hi es'
  free : ∀ u, Free es' u ↔ Free es u ∨ a ≤ u ∧ u < a + size
  room : (k' : ℤ) = k + n
  count : (es.length : ℤ) = es'.length + n

/-- Units that are not free are between the extents. -/
theorem Extents.gap (h : Extents lo hi (l₁ ++ l₂)) (hs : 0 < size)
    (hfree : ∀ u, a ≤ u → u < a + size → ¬Free (l₁ ++ l₂) u) (h₁ : ∀ e ∈ l₁, e.m_addr ≤ a)
    (h₂ : ∀ e ∈ l₂, a < e.m_addr) :
    (∀ e ∈ l₁, e.m_addr + e.m_size ≤ a) ∧ ∀ e ∈ l₂, a + size ≤ e.m_addr := by
  refine ⟨fun e he => ?_, fun e he => ?_⟩
  · by_contra hlt
    exact hfree a le_rfl (by omega)
      ⟨e, List.mem_append_left _ he, h₁ e he, by omega⟩
  · by_contra hlt
    have hpos := h.pos e (List.mem_append_right _ he)
    have := h₂ e he
    exact hfree e.m_addr (by omega) (by omega)
      ⟨e, List.mem_append_right _ he, le_rfl, by omega⟩

/-- Some extents are replaced by one that has their units, and those that are freed. -/
theorem Freed.replace {mid : List Entry} {x : Entry} {k k' : ℕ}
    (h : Extents lo hi (l₁ ++ (mid ++ l₂))) (hx : 0 < x.m_size) (hlo : lo ≤ x.m_addr)
    (hhi : x.m_addr + x.m_size ≤ hi) (h₁ : ∀ e ∈ l₁, e.m_addr + e.m_size < x.m_addr)
    (h₂ : ∀ e ∈ l₂, x.m_addr + x.m_size < e.m_addr)
    (hfree : ∀ u, x.m_addr ≤ u ∧ u < x.m_addr + x.m_size ↔ Free mid u ∨ a ≤ u ∧ u < a + size)
    (hk : (k' : ℤ) = k + (mid.length - 1)) :
    Freed lo hi size a k (l₁ ++ (mid ++ l₂)) (l₁ ++ ([x] ++ l₂)) k' (mid.length - 1) := by
  refine ⟨h.replace hlo hhi h₁ h₂ ⟨?_, ?_, List.pairwise_singleton _ _⟩, fun u => ?_, hk, ?_⟩
  · exact fun e he => List.mem_singleton.1 he ▸ hx
  · exact fun e he => List.mem_singleton.1 he ▸ ⟨le_rfl, le_rfl⟩
  · simp only [free_append, free_cons, free_nil, or_false, hfree]
    tauto
  · simp only [List.length_append, List.length_singleton, Nat.cast_add, Nat.cast_one]
    omega

variable (hlo : -2 ^ 31 ≤ lo) (hhi : hi ≤ 2 ^ 31) (hrange : hi - lo < 2 ^ 31)
include hlo hhi hrange

/-- The entry before the place ends there. -/
theorem mfreeLoop_left {l : List Entry} {p : Entry} {k : ℕ} (h : Extents lo hi (l ++ ([p] ++ l₂)))
    (hs : 0 < size) (hb : a + size ≤ hi) (hp : p.m_addr + p.m_size = a)
    (h₂ : ∀ e ∈ l₂, a + size ≤ e.m_addr) (hclean : l₂ = [] → a + size ≠ 0) :
    ∃ es' k' n, mfreeLoop size a mapsize none (l ++ ([p] ++ l₂) ++ ends k) =
        some (none, es' ++ ends k', some n) ∧ Freed lo hi size a k (l ++ ([p] ++ l₂)) es' k' n := by
  obtain ⟨hbefore, hafter⟩ := h.sides (List.mem_singleton_self p)
  have hp₀ := h.pos p (by simp)
  have hp₁ := h.mem p (by simp)
  have hpass : ∀ e ∈ l ++ [p], e.m_addr ≤ a ∧ e.m_size ≠ 0 := by
    intro e he
    have hpos := h.pos e (by simp only [List.mem_append] at he ⊢; tauto)
    rcases List.mem_append.1 he with he | he
    · have := hbefore e he
      omega
    · obtain rfl := List.mem_singleton.1 he
      omega
  have hword : toLong (p.m_addr + p.m_size) = a := by rw [hp, toLong_of_mem (by omega) (by omega)]
  have hfilter : (some p).filter (fun p => toLong (p.m_addr + p.m_size) = a) = some p := by
    rw [Option.filter_some, if_pos (decide_eq_true hword)]
  have hassoc : l ++ ([p] ++ l₂) ++ ends k = l ++ p :: (l₂ ++ ends k) := by simp
  cases l₂ with
  | nil =>
    have hzero : toLong (a + size) ≠ 0 := by
      rw [Ne, toLong_eq_iff (by omega) (by omega) (by omega) (by omega) (by omega)]
      exact hclean rfl
    refine ⟨l ++ ([{ p with m_size := p.m_size + size }] ++ []), k, 0, ?_, ?_⟩
    · have hat : mfreeAt size a mapsize (some p) ([] ++ ends k) =
          some (some { p with m_size := p.m_size + size }, [] ++ ends k, some 0) := by
        rw [List.nil_append, ends_eq, mfreeAt, hfilter]
        exact if_neg hzero
      rw [hassoc, mfreeLoop_grow hpass (fun _ he => absurd he List.not_mem_nil) hat]
      simp
    · exact Freed.replace h (by dsimp only; omega) hp₁.1 (by dsimp only; omega) hbefore
        (fun _ he => absurd he List.not_mem_nil)
        (fun u => by simp only [free_cons, free_nil, or_false]; omega) (by simp)
  | cons q l' =>
    have hq₀ := h.pos q (by simp)
    have hq₁ := h.mem q (by simp)
    have hq₂ := h₂ q List.mem_cons_self
    have hend : toLong (a + size) = a + size := toLong_of_mem (by omega) (by omega)
    have hpass₂ : ∀ e ∈ q :: l', a < e.m_addr := fun e he => by
      have := h₂ e he
      omega
    by_cases hadj : a + size = q.m_addr
    · -- both neighbours become one
      have hne : ∀ e ∈ l', e.m_size ≠ 0 := fun e he => h.ne e (by simp [he])
      have hq₃ : ∀ e ∈ l', q.m_addr + q.m_size < e.m_addr := by
        have hapart := h.apart
        simp only [List.pairwise_append, List.pairwise_cons] at hapart
        exact hapart.2.1.2.1.1
      refine ⟨l ++ ([⟨p.m_size + size + q.m_size, p.m_addr⟩] ++ l'), k + 1, 1, ?_, ?_⟩
      · have hat : mfreeAt size a mapsize (some p) (q :: l' ++ ends k) =
            some (some ⟨p.m_size + size + q.m_size, p.m_addr⟩, l' ++ ends (k + 1), some 1) := by
          rw [List.cons_append, mfreeAt, hfilter]
          dsimp only
          rw [if_pos (hend.trans hadj), if_neg hq₀.ne', shiftDown_spec q k hne]
          rfl
        rw [hassoc, mfreeLoop_grow hpass hpass₂ hat]
        simp
      · have h' : Extents lo hi (l ++ ([p, q] ++ l')) := h
        exact Freed.replace h' (by dsimp only; omega) hp₁.1 (by dsimp only; omega) hbefore
          (fun e he => by have := hq₃ e he; dsimp only; omega)
          (fun u => by simp only [free_cons, free_nil, or_false]; omega) (by simp)
    · refine ⟨l ++ ([{ p with m_size := p.m_size + size }] ++ q :: l'), k, 0, ?_, ?_⟩
      · have hat : mfreeAt size a mapsize (some p) (q :: l' ++ ends k) =
            some (some { p with m_size := p.m_size + size }, q :: l' ++ ends k, some 0) := by
          rw [List.cons_append, mfreeAt, hfilter]
          exact if_neg (by rw [hend]; exact hadj)
        rw [hassoc, mfreeLoop_grow hpass hpass₂ hat]
        simp
      · have hq₃ : ∀ e ∈ q :: l', a + size < e.m_addr := by
          have hapart := h.apart
          simp only [List.pairwise_append, List.pairwise_cons] at hapart
          intro e he
          rcases List.mem_cons.1 he with rfl | he
          · omega
          · have := hapart.2.1.2.1.1 e he
            omega
        exact Freed.replace h (by dsimp only; omega) hp₁.1 (by dsimp only; omega) hbefore
          (fun e he => by have := hq₃ e he; dsimp only; omega)
          (fun u => by simp only [free_cons, free_nil, or_false]; omega) (by simp)

omit hrange in
/-- No entry before the place ends there. -/
theorem mfreeLoop_other {k : ℕ} (h : Extents lo hi (l₁ ++ l₂)) (hs : 0 < size) (ha : lo ≤ a)
    (hb : a + size ≤ hi) (h₁ : ∀ e ∈ l₁, e.m_addr + e.m_size < a)
    (h₂ : ∀ e ∈ l₂, a + size ≤ e.m_addr) :
    (mfreeLoop size a k none (l₁ ++ l₂ ++ ends k) = some (none, l₁ ++ l₂ ++ ends k, none) ∧
      k = 0 ∧ ∀ e ∈ l₂, a + size < e.m_addr) ∨
    (∃ es' k' n, mfreeLoop size a k none (l₁ ++ l₂ ++ ends k) =
        some (none, es' ++ ends k', some n) ∧ Freed lo hi size a k (l₁ ++ l₂) es' k' n) ∧
      ¬(k = 0 ∧ ∀ e ∈ l₂, a + size < e.m_addr) := by
  have hpass : ∀ e ∈ l₁, e.m_addr ≤ a ∧ e.m_size ≠ 0 := by
    intro e he
    have := h₁ e he
    have := h.pos e (List.mem_append_left _ he)
    omega
  have hpass₂ : ∀ e ∈ l₂, a < e.m_addr := by
    intro e he
    have := h₂ e he
    omega
  have hfilter : l₁.getLast?.filter (fun p => toLong (p.m_addr + p.m_size) = a) = none := by
    rw [Option.filter_eq_none_iff]
    intro p hp hend
    have hp := List.mem_of_getLast? hp
    have := h₁ p hp
    have := h.mem p (List.mem_append_left _ hp)
    have := h.pos p (List.mem_append_left _ hp)
    rw [decide_eq_true_iff, toLong_of_mem (by omega) (by omega)] at hend
    omega
  have hat (e : Entry) (r : List Entry) : mfreeAt size a k l₁.getLast? (e :: r) =
      if toLong (a + size) = e.m_addr ∧ e.m_size ≠ 0 then
        some (l₁.getLast?, ⟨e.m_size + size, e.m_addr - size⟩ :: r, some 0)
      else if (k : ℤ) = 0 then some (l₁.getLast?, e :: r, none)
      else (shiftUp ⟨size, a⟩ (e :: r)).map fun l => (l₁.getLast?, l, some (-1)) := by
    rw [mfreeAt, hfilter]
  -- a new entry, if there is room for it
  have hnew (hapart : ∀ e ∈ l₂, a + size < e.m_addr)
      (hput : mfreeAt size a k l₁.getLast? (l₂ ++ ends k) =
        if (k : ℤ) = 0 then some (l₁.getLast?, l₂ ++ ends k, none)
        else (shiftUp ⟨size, a⟩ (l₂ ++ ends k)).map fun l => (l₁.getLast?, l, some (-1))) :
      (mfreeLoop size a k none (l₁ ++ l₂ ++ ends k) = some (none, l₁ ++ l₂ ++ ends k, none) ∧
        k = 0 ∧ ∀ e ∈ l₂, a + size < e.m_addr) ∨
      (∃ es' k' n, mfreeLoop size a k none (l₁ ++ l₂ ++ ends k) =
          some (none, es' ++ ends k', some n) ∧ Freed lo hi size a k (l₁ ++ l₂) es' k' n) ∧
        ¬(k = 0 ∧ ∀ e ∈ l₂, a + size < e.m_addr) := by
    cases k with
    | zero =>
      rw [if_pos Nat.cast_zero] at hput
      refine .inl ⟨?_, rfl, hapart⟩
      rw [List.append_assoc, mfreeLoop_keep hpass hpass₂ hput]
    | succ k =>
      refine .inr ⟨⟨l₁ ++ ([⟨size, a⟩] ++ l₂), k, -1, ?_, ?_⟩, fun h => absurd h.1 (by omega)⟩
      · have hne : ∀ e ∈ l₂, e.m_size ≠ 0 := fun e he => h.ne e (List.mem_append_right _ he)
        rw [if_neg (by omega), shiftUp_spec ⟨size, a⟩ k hne] at hput
        rw [List.append_assoc, mfreeLoop_keep hpass hpass₂ (l := ⟨size, a⟩ :: l₂) hput]
        simp
      · have h' : Extents lo hi (l₁ ++ ([] ++ l₂)) := h
        exact Freed.replace h' hs ha hb h₁ hapart
          (fun u => by simp only [free_nil, false_or]) (by simp)
  cases l₂ with
  | nil =>
    refine hnew (fun e he => absurd he List.not_mem_nil) ?_
    rw [List.nil_append, ends_eq, hat, if_neg fun h => h.2 rfl]
  | cons q l' =>
    have hq₀ := h.pos q (by simp)
    have hq₁ := h.mem q (by simp)
    have hq₂ := h₂ q List.mem_cons_self
    have hend : toLong (a + size) = a + size := toLong_of_mem (by omega) (by omega)
    have hq₃ : ∀ e ∈ l', q.m_addr + q.m_size < e.m_addr := by
      have hapart := h.apart
      simp only [List.pairwise_append, List.pairwise_cons] at hapart
      exact hapart.2.1.1
    by_cases hadj : a + size = q.m_addr
    · refine .inr ⟨⟨l₁ ++ ([⟨q.m_size + size, q.m_addr - size⟩] ++ l'), k, 0, ?_, ?_⟩, fun h => ?_⟩
      · have hput : mfreeAt size a k l₁.getLast? (q :: l' ++ ends k) = some (l₁.getLast?,
            ⟨q.m_size + size, q.m_addr - size⟩ :: l' ++ ends k, some 0) := by
          rw [List.cons_append, hat, if_pos ⟨hend.trans hadj, hq₀.ne'⟩]
          rfl
        rw [List.append_assoc, mfreeLoop_keep hpass hpass₂ hput]
        simp
      · have h' : Extents lo hi (l₁ ++ ([q] ++ l')) := h
        exact Freed.replace h' (by dsimp only; omega) (by dsimp only; omega) (by dsimp only; omega)
          (fun e he => by have := h₁ e he; dsimp only; omega)
          (fun e he => by have := hq₃ e he; dsimp only; omega)
          (fun u => by simp only [free_cons, free_nil, or_false]; omega) (by simp)
      · have := h.2 q List.mem_cons_self
        omega
    · refine hnew (fun e he => ?_) ?_
      · rcases List.mem_cons.1 he with rfl | he
        · omega
        · have := hq₃ e he
          omega
      · rw [List.cons_append, hat, if_neg fun h => hadj (hend.symm.trans h.1)]

/-- A new entry is needed, and there is no room for it. -/
def NoRoom (size a : ℤ) (k : ℕ) (es : List Entry) : Prop :=
  k = 0 ∧ ∀ e ∈ es, e.m_addr + e.m_size ≠ a ∧ a + size ≠ e.m_addr

/-- Units that end at zero go to an extent behind which the array ends. -/
def Drifts (size a : ℤ) (es : List Entry) : Prop :=
  a + size = 0 ∧ (∃ e ∈ es, e.m_addr + e.m_size = a) ∧ ∀ e ∈ es, e.m_addr < 0

/-- Units that are not free become free, unless there is no room for them. -/
theorem mfreeLoop_spec {k : ℕ} (h : Extents lo hi es) (hs : 0 < size) (ha : lo ≤ a)
    (hb : a + size ≤ hi) (hfree : ∀ u, a ≤ u → u < a + size → ¬Free es u)
    (hclean : ¬Drifts size a es) :
    (mfreeLoop size a k none (es ++ ends k) = some (none, es ++ ends k, none) ∧
      NoRoom size a k es) ∨
    (∃ es' k' n, mfreeLoop size a k none (es ++ ends k) = some (none, es' ++ ends k', some n) ∧
      Freed lo hi size a k es es' k' n) ∧ ¬NoRoom size a k es := by
  obtain ⟨l₁, l₂, rfl, h₁, h₂⟩ := h.split a
  obtain ⟨hend, hstart⟩ := h.gap hs hfree h₁ h₂
  by_cases hleft : ∃ p ∈ l₁, p.m_addr + p.m_size = a
  · obtain ⟨p, hp, hpa⟩ := hleft
    obtain ⟨l, l', rfl⟩ := List.append_of_mem hp
    -- what comes next would start after the place
    have hl' : l' = [] := by
      refine List.eq_nil_iff_forall_not_mem.2 fun f hf => ?_
      have hapart := h.apart
      simp only [List.append_assoc, List.cons_append, List.pairwise_append,
        List.pairwise_cons] at hapart
      have := hapart.2.1.1 f (List.mem_append_left _ hf)
      have := h₁ f (by simp [hf])
      omega
    subst hl'
    have hes : l ++ [p] ++ l₂ = l ++ ([p] ++ l₂) := List.append_assoc ..
    rw [hes] at h hclean ⊢
    refine .inr ⟨mfreeLoop_left hlo hhi hrange h hs hb hpa hstart fun hl₂ hzero => ?_,
      fun hno => ?_⟩
    · subst hl₂
      refine hclean ⟨hzero, ⟨p, by simp, hpa⟩, fun e he => ?_⟩
      have := h₁ e (by simpa using he)
      omega
    · exact (hno.2 p (by simp)).1 hpa
  · have hbefore : ∀ e ∈ l₁, e.m_addr + e.m_size < a := fun e he =>
      lt_of_le_of_ne (hend e he) fun heq => hleft ⟨e, he, heq⟩
    have hiff : NoRoom size a k (l₁ ++ l₂) ↔ k = 0 ∧ ∀ e ∈ l₂, a + size < e.m_addr := by
      refine and_congr_right fun _ => ⟨fun hno e he => ?_, fun hno e he => ?_⟩
      · exact lt_of_le_of_ne (hstart e he) (hno e (List.mem_append_right _ he)).2
      · rcases List.mem_append.1 he with he | he
        · have := hbefore e he
          have := h.pos e (List.mem_append_left _ he)
          omega
        · have := hno e he
          have := h₂ e he
          have := h.pos e (List.mem_append_right _ he)
          omega
    rw [hiff]
    exact mfreeLoop_other hlo hhi h hs ha hb hbefore hstart

end Mfree

end AuxKernel.Rmap
