import AuxKernel.Ranges
import AuxKernel.Heap.Calls

/-!
# The heap is a partition of the arena

The free blocks and the outstanding ones partition the arena (`Sound`), once it
has been given to the free tree. Freeing and allocating only split and join
blocks, wherever in the tree, so that how often an address is covered is kept
(`kmem_free_spec`, `carve_spec`).

But the first allocation is not checked against the arena it is made from:
`morecore` says that `nbytes` can be allocated whatever they are, and more than
the arena is carved from it (`not_sound`). If the first allocation fits into the
arena, the heap is sound in every run (`sound_of_fits`).
-/

namespace AuxKernel.Heap

open FreeTree Range

/-! ## Trees -/

/-- The blocks of a tree are not empty and end by `E`, below the end of the
    address space. -/
structure Bounded (E : ℕ) (t : FreeTree) : Prop where
  pos : ∀ e ∈ t.blocks, 0 < e.2
  le : ∀ e ∈ t.blocks, e.1 + e.2 ≤ E

theorem Bounded.subset {E : ℕ} {t t' : FreeTree} (h : Bounded E t) (hs : t'.blocks ⊆ t.blocks) :
    Bounded E t' :=
  ⟨fun e he => h.pos e (hs he), fun e he => h.le e (hs he)⟩

theorem addU_of_le {E a b : ℕ} (hE : E < 2 ^ 32) (h : a + b ≤ E) : addU a b = a + b :=
  Nat.mod_eq_of_lt (h.trans_lt hE)

theorem subU_of_le {a b : ℕ} (h : b ≤ a) (ha : a < 2 ^ 32) : subU a b = a - b := by
  unfold subU
  omega

/-- What the absorption of neighbours gives: what was covered by the tree and the
    block is covered by what is left of the tree and the grown block. -/
structure Coalesced (E : ℕ) (t : FreeTree) (blk : Range) (t' : FreeTree) (blk' : Range) : Prop where
  cover : ∀ a, cover t.blocks a + cover [blk] a = cover t'.blocks a + cover [blk'] a
  subset : t'.blocks ⊆ t.blocks
  pos : 0 < blk'.2
  le : blk'.1 + blk'.2 ≤ E

theorem coalesce_spec {E : ℕ} (hE : E < 2 ^ 32) {ptr nbytes k : ℕ} {t t' : FreeTree} {blk : Range}
    (ht : Bounded E t) (hn : 0 < nbytes) (hle : ptr + nbytes ≤ E)
    (h : coalesce ptr nbytes t = some (t', blk, k)) : Coalesced E t (ptr, nbytes) t' blk := by
  induction hc : t.count using Nat.strong_induction_on generalizing ptr nbytes k t t' blk with
  | _ c ih =>
  subst hc
  cases t with
  | nil =>
    rw [coalesce] at h
    simp only [Option.some.injEq, Prod.mk.injEq] at h
    obtain ⟨rfl, rfl, rfl⟩ := h
    exact ⟨fun _ => rfl, List.Subset.refl _, hn, hle⟩
  | node l b s r =>
    have hb : b + s ≤ E := ht.le (b, s) (by simp)
    have hl : Bounded E l := ht.subset (by simp)
    have hr : Bounded E r := ht.subset fun e he => by simp [he]
    -- The block at the root is absorbed: `start` is where the two begin.
    have habsorb {start : ℕ} {u : FreeTree} (hu : merge l r = some u) (hle' : start + (nbytes + s) ≤ E)
        (hcov : ∀ a, cover [(start, nbytes + s)] a = cover [(ptr, nbytes)] a + cover [(b, s)] a)
        (h : (coalesce start (nbytes + s) u).map (fun x => (x.1, x.2.1, x.2.2 + 1)) =
          some (t', blk, k)) : Coalesced E (node l b s r) (ptr, nbytes) t' blk := by
      obtain ⟨⟨t'', blk', k'⟩, hc, he⟩ := Option.map_eq_some_iff.1 h
      simp only [Prod.mk.injEq] at he
      obtain ⟨rfl, rfl, -⟩ := he
      have hub := blocks_merge hu
      have hsub : u.blocks ⊆ (node l b s r).blocks := by
        rw [hub]
        intro e he
        rcases List.mem_append.1 he with he | he <;> simp [he]
      have hcu : u.count < (node l b s r).count := by
        rw [count_merge hu]
        simp only [count]
        omega
      have hres := ih _ hcu (ht.subset hsub) (by omega) hle' hc rfl
      refine ⟨fun a => ?_, List.Subset.trans hres.subset hsub, hres.pos, hres.le⟩
      rw [← hres.cover a, hcov a, hub, blocks_node, cover_append, cover_append, cover_cons]
      omega
    rw [coalesce] at h
    split_ifs at h with h₁ h₂ h₃ h₄ h₅ h₆
    · rw [addU_of_le hE hle] at h₂
      split at h
      · exact absurd h (by simp)
      · rename_i u hu
        rw [addU_of_le hE (by omega : nbytes + s ≤ E)] at h
        refine habsorb hu (by omega) (fun a => ?_) h
        rw [cover_split, h₂]
    · obtain ⟨⟨l', blk', k'⟩, hc, he⟩ := Option.map_eq_some_iff.1 h
      simp only [Prod.mk.injEq] at he
      obtain ⟨rfl, rfl, rfl⟩ := he
      have hres := ih l.count (by simp only [count]; omega) hl hn hle hc rfl
      refine ⟨fun a => ?_, fun e he => ?_, hres.pos, hres.le⟩
      · have := hres.cover a
        simp only [blocks_node, cover_append]
        omega
      · rcases List.mem_append.1 he with he | he
        · exact List.mem_append_left _ (hres.subset he)
        · exact List.mem_append_right _ he
    · rw [addU_of_le hE hb] at h₅
      split at h
      · exact absurd h (by simp)
      · rename_i u hu
        rw [addU_of_le hE (by omega : nbytes + s ≤ E)] at h
        refine habsorb hu (by omega) (fun a => ?_) h
        rw [Nat.add_comm nbytes s, cover_split, h₅, Nat.add_comm]
    · obtain ⟨⟨r', blk', k'⟩, hc, he⟩ := Option.map_eq_some_iff.1 h
      simp only [Prod.mk.injEq] at he
      obtain ⟨rfl, rfl, rfl⟩ := he
      have hres := ih r.count (by simp only [count]; omega) hr hn hle hc rfl
      refine ⟨fun a => ?_, fun e he => ?_, hres.pos, hres.le⟩
      · have := hres.cover a
        simp only [blocks_node, cover_append, cover_cons _ r.blocks, cover_cons _ r'.blocks]
        omega
      · simp only [blocks_node, List.mem_append, List.mem_cons] at he ⊢
        exact he.imp_right (Or.imp_right fun he => hres.subset he)

/-! ## Freeing -/

/-- A state that differs from `m` in the free tree and the headers only. -/
structure SameArena (m m' : Kmem) : Prop where
  already : m'.core_already_freed = m.core_already_freed
  coreEnd : m'.CoreEnd = m.CoreEnd
  list : m'.need_to_free_list = m.need_to_free_list
  table : m'.need_to_free = m.need_to_free

theorem SameArena.trans {m m' m'' : Kmem} (h : SameArena m m') (h' : SameArena m' m'') :
    SameArena m m'' :=
  ⟨h'.already.trans h.already, h'.coreEnd.trans h.coreEnd, h'.list.trans h.list,
    h'.table.trans h.table⟩

theorem getfreehdr_spec {v : Config} {m m' : Kmem} (h : getfreehdr v m = some m') :
    SameArena m m' ∧ m'.free_root = m.free_root := by
  unfold getfreehdr at h
  split at h
  · rw [← Option.some.inj h]
    exact ⟨⟨rfl, rfl, rfl, rfl⟩, rfl⟩
  · split_ifs at h
    rw [← Option.some.inj h]
    exact ⟨⟨rfl, rfl, rfl, rfl⟩, rfl⟩

/-- What a call does to the free tree: it covers what it covered, and `blk`. -/
structure Freed (E : ℕ) (t : FreeTree) (blk : Range) (t' : FreeTree) : Prop where
  cover : ∀ a, cover t'.blocks a = cover t.blocks a + cover [blk] a
  bounded : Bounded E t'

theorem kmem_free_spec {v : Config} {E ptr nbytes : ℕ} {m m' : Kmem} (hE : E < 2 ^ 32)
    (ht : Bounded E m.free_root) (hn : 0 < nbytes) (hle : ptr + nbytes ≤ E)
    (h : kmem_free v ptr nbytes m = some m') :
    Freed E m.free_root (ptr, nbytes) m'.free_root ∧ SameArena m m' := by
  unfold kmem_free at h
  rw [if_neg (Nat.pos_iff_ne_zero.1 hn)] at h
  split_ifs at h
  obtain ⟨⟨t, ⟨ptr', nbytes'⟩, k⟩, hc, h⟩ := Option.bind_eq_some_iff.1 h
  obtain ⟨t', ht', h⟩ := Option.bind_eq_some_iff.1 h
  obtain ⟨m₁, hm₁, h⟩ := Option.bind_eq_some_iff.1 h
  obtain rfl := Option.some.inj h
  have hres := coalesce_spec hE ht hn hle hc
  have hp := blocks_insert ht'
  have hsame := (getfreehdr_spec hm₁).1
  refine ⟨⟨fun a => ?_, ⟨fun e he => ?_, fun e he => ?_⟩⟩, ⟨hsame.1, hsame.2, hsame.3, hsame.4⟩⟩
  · rw [cover_perm hp, cover_cons, hres.cover a]
  · rcases List.mem_cons.1 (hp.subset he) with rfl | he
    · exact hres.pos
    · exact ht.pos e (hres.subset he)
  · rcases List.mem_cons.1 (hp.subset he) with rfl | he
    · exact hres.le
    · exact ht.le e (hres.subset he)

/-! ## Allocating -/

theorem descend_spec {n : ℕ} {l r : FreeTree} :
    (descend n l r = some true → n ≤ mweight l) ∧ (descend n l r = some false → n ≤ mweight r) := by
  unfold descend
  split_ifs with h hle
  · exact ⟨fun h' => by simpa using h', fun h' => by simp at h'; omega⟩
  · exact ⟨fun h' => by simp at h'; omega, fun h' => by simpa using h'⟩
  · exact ⟨fun h' => absurd h' (by simp), fun h' => absurd h' (by simp)⟩

/-- The selected node is large enough, if the root is. -/
theorem mweight_select {n : ℕ} {t : FreeTree} (h : n ≤ mweight t) : n ≤ mweight (select n t) := by
  induction t with
  | nil => exact h
  | node l b s r ihl ihr =>
    rw [select]
    split
    · rename_i hd
      exact ihl (descend_spec.1 hd)
    · rename_i hd
      exact ihr (descend_spec.2 hd)
    · exact h

/-- The selected node is one of the tree, in place of which others can be put. -/
theorem blocks_replace (n : ℕ) (t : FreeTree) : ∃ rest : List Range,
    t.blocks.Perm ((select n t).blocks ++ rest) ∧
      ∀ u, (replace n u t).blocks.Perm (u.blocks ++ rest) := by
  induction t with
  | nil => exact ⟨[], .refl _, fun u => by simp [replace]⟩
  | node l b s r ihl ihr =>
    cases hd : descend n l r with
    | none => exact ⟨[], by simp [select, hd], fun u => by simp [replace, hd]⟩
    | some left =>
      cases left with
      | true =>
        obtain ⟨rest, hrest, hu⟩ := ihl
        refine ⟨rest ++ (b, s) :: r.blocks, ?_, fun u => ?_⟩
        · simpa [select, hd] using hrest.append_right ((b, s) :: r.blocks)
        · simpa [replace, hd] using (hu u).append_right ((b, s) :: r.blocks)
      | false =>
        obtain ⟨rest, hrest, hu⟩ := ihr
        have hcomm (x : List Range) (y : List Range) (hxy : y.Perm (x ++ rest)) :
            (l.blocks ++ (b, s) :: y).Perm (x ++ (l.blocks ++ (b, s) :: rest)) := by
          refine ((hxy.cons (b, s)).append_left l.blocks).trans ?_
          simpa using List.perm_append_comm_assoc (l.blocks ++ [(b, s)]) x rest
        refine ⟨l.blocks ++ (b, s) :: rest, ?_, fun u => ?_⟩
        · simpa [select, hd] using hcomm _ _ hrest
        · simpa [replace, hd] using hcomm _ _ (hu u)

/-- What an allocation takes off the free tree: the block, which is aligned unless
    it is smaller than a word. -/
structure Carved (E : ℕ) (t : FreeTree) (blk : Range) (t' : FreeTree) : Prop where
  cover : ∀ a, cover t.blocks a = cover t'.blocks a + cover [blk] a
  bounded : Bounded E t'
  aligned : 4 ≤ blk.2 → blk.1 % 4 = 0

/-- Putting the smaller blocks `u` and `blk` in place of the selected node. -/
theorem carved_replace {E n : ℕ} {t u : FreeTree} {blk : Range} (ht : Bounded E t)
    (hu : Bounded E u) (ha : 4 ≤ blk.2 → blk.1 % 4 = 0)
    (hcov : ∀ a, cover (select n t).blocks a = cover u.blocks a + cover [blk] a) :
    Carved E t blk (replace n u t) := by
  obtain ⟨rest, hrest, hrep⟩ := blocks_replace n t
  refine ⟨fun a => ?_, ⟨fun e he => ?_, fun e he => ?_⟩, ha⟩
  · rw [cover_perm hrest, cover_perm (hrep u), cover_append, cover_append, hcov a]
    omega
  · rcases List.mem_append.1 ((hrep u).subset he) with he | he
    · exact hu.pos e he
    · exact ht.pos e (hrest.symm.subset (List.mem_append_right _ he))
  · rcases List.mem_append.1 ((hrep u).subset he) with he | he
    · exact hu.le e he
    · exact ht.le e (hrest.symm.subset (List.mem_append_right _ he))

/-- A node that sinks covers what it covered with its branches. -/
theorem bounded_demote {E b s : ℕ} {l r : FreeTree} (hs : 0 < s) (hE : b + s ≤ E) (hl : Bounded E l)
    (hr : Bounded E r) : Bounded E (demote b s l r) := by
  have hmem {e : Range} (he : e ∈ (demote b s l r).blocks) :
      e = (b, s) ∨ e ∈ l.blocks ∨ e ∈ r.blocks := by
    simpa using (blocks_demote b s l r).subset he
  refine ⟨fun e he => ?_, fun e he => ?_⟩ <;> rcases hmem he with rfl | he | he
  exacts [hs, hl.pos e he, hr.pos e he, hE, hl.le e he, hr.le e he]

theorem cover_demote (b s : ℕ) (l r : FreeTree) (a : ℕ) :
    cover (demote b s l r).blocks a = cover l.blocks a + cover r.blocks a + cover [(b, s)] a := by
  rw [cover_perm (blocks_demote b s l r), cover_cons, cover_append]

section Carve

variable {v : Config} {E n b s : ℕ} {l r : FreeTree} {m m' : Kmem}

theorem carveAligned_spec (hE : E < 2 ^ 32) (ht : Bounded E m.free_root)
    (hsel : select n m.free_root = node l b s r) (hnode : Bounded E (node l b s r)) (hn : n < s)
    (ha : 4 ≤ n → b % 4 = 0) (h : carveAligned n b s l r m = (b, m')) :
    Carved E m.free_root (b, n) m'.free_root ∧ SameArena m m' := by
  have hbs : b + s ≤ E := hnode.le (b, s) (by simp)
  obtain rfl := (Prod.mk.inj h).2
  refine ⟨carved_replace ht ?_ ha fun a => ?_, ⟨rfl, rfl, rfl, rfl⟩⟩
  · rw [addU_of_le hE (by omega), subU_of_le hn.le (by omega)]
    exact bounded_demote (by omega) (by omega) (hnode.subset (by simp))
      (hnode.subset fun e he => by simp [he])
  · have hs := cover_split b n (s - n) a
    rw [Nat.add_sub_cancel' hn.le] at hs
    rw [hsel, addU_of_le hE (by omega), subU_of_le hn.le (by omega), cover_demote, blocks_node,
      cover_append, cover_cons, hs]
    omega

theorem carveUnaligned_spec (hE : E < 2 ^ 32) (ht : Bounded E m.free_root)
    (hsel : select n m.free_root = node l b s r) (hnode : Bounded E (node l b s r))
    (hn : alignmore b + n ≤ s) {b' : ℕ} (h : carveUnaligned v n b s l r m = some (b', m')) :
    Carved E m.free_root (b', n) m'.free_root ∧ SameArena m m' := by
  have hbs : b + s ≤ E := hnode.le (b, s) (by simp)
  have hk : 0 < alignmore b ∧ (b + alignmore b) % 4 = 0 := by unfold alignmore; omega
  rw [carveUnaligned, addU_of_le hE (by omega : n + alignmore b ≤ E)] at h
  obtain ⟨m₁, hm₁, h⟩ := Option.map_eq_some_iff.1 h
  rw [addU_of_le hE (by omega)] at h
  obtain ⟨rfl, rfl⟩ := Prod.mk.inj h
  set k := alignmore b
  -- First the tree without all but the beginning, then what the end adds.
  have hu : Bounded E (demote b k l r) := bounded_demote hk.1 (by omega)
    (hnode.subset (by simp)) (hnode.subset fun e he => by simp [he])
  have hcar : Carved E m.free_root (b + k, s - k) (replace n (demote b k l r) m.free_root) := by
    refine carved_replace ht hu (fun _ => hk.2) fun a => ?_
    have hs := cover_split b k (s - k) a
    rw [Nat.add_sub_cancel' (by omega)] at hs
    rw [hsel, cover_demote, blocks_node, cover_append, cover_cons, hs]
    omega
  split_ifs at hm₁ with hs
  · rw [addU_of_le hE (by omega), subU_of_le hs.le (by omega)] at hm₁
    obtain ⟨hfree, hsame⟩ := kmem_free_spec hE hcar.bounded (by omega) (by omega) hm₁
    refine ⟨⟨fun a => ?_, hfree.bounded, fun _ => hk.2⟩,
      ⟨hsame.already, hsame.coreEnd, hsame.list, hsame.table⟩⟩
    have hs' := cover_split (b + k) n (s - (n + k)) a
    rw [show n + (s - (n + k)) = s - k by omega, Nat.add_assoc, Nat.add_comm k n] at hs'
    have hf : cover m₁.free_root.blocks a = cover (replace n (demote b k l r) m.free_root).blocks a +
      cover [(b + (n + k), s - (n + k))] a := hfree.cover a
    show _ = cover m₁.free_root.blocks a + _
    rw [hcar.cover a, hf, hs']
    omega
  · obtain rfl := Option.some.inj hm₁
    refine ⟨⟨fun a => ?_, hcar.bounded, fun _ => hk.2⟩, ⟨rfl, rfl, rfl, rfl⟩⟩
    rw [hcar.cover a, show s - k = n by omega]
    rfl

theorem carve_spec (hE : E < 2 ^ 32) (ht : Bounded E m.free_root)
    (hw : n ≤ mweight m.free_root) (h : carve v n m = some (b, m')) :
    Carved E m.free_root (b, n) m'.free_root ∧ SameArena m m' := by
  have hw' := mweight_select hw
  unfold carve at h
  split at h
  · exact absurd h (by simp)
  rename_i l b₀ s r hsel
  rw [hsel, mweight, alignedSize] at hw'
  have hnode : Bounded E (node l b₀ s r) := by
    obtain ⟨rest, hrest, -⟩ := blocks_replace n m.free_root
    exact ht.subset fun e he => hrest.symm.subset (List.mem_append_left _ (hsel ▸ he))
  have hbs : b₀ + s ≤ E := hnode.le (b₀, s) (by simp)
  have hns : n ≤ s := by split_ifs at hw' <;> omega
  -- A block that starts inside a word and has no other is smaller than a word.
  have ha (h4 : ¬(b₀ % 4 ≠ 0 ∧ s > alignmore b₀)) : 4 ≤ n → b₀ % 4 = 0 := by
    unfold alignmore at h4
    omega
  rw [subU_of_le hns (by omega)] at h
  by_cases h₁ : s - n < 1
  · rw [if_pos h₁] at h
    obtain ⟨t, hm, h⟩ := Option.map_eq_some_iff.1 h
    obtain ⟨rfl, rfl⟩ := Prod.mk.inj h
    have hsn : s = n := by omega
    refine ⟨carved_replace ht (hnode.subset fun e he => ?_) (ha fun hc => ?_) fun a => ?_,
      ⟨rfl, rfl, rfl, rfl⟩⟩
    · rw [blocks_merge hm] at he
      rcases List.mem_append.1 he with he | he <;> simp [he]
    · rw [if_pos hc] at hw'
      unfold alignmore at hw' hc
      omega
    · rw [hsel, blocks_node, cover_append, cover_cons, blocks_merge hm, cover_append, hsn]
      omega
  · rw [if_neg h₁] at h
    obtain ⟨m₁, hm₁, h⟩ := Option.bind_eq_some_iff.1 h
    obtain ⟨hsame, hroot⟩ := getfreehdr_spec hm₁
    by_cases h₂ : b₀ % 4 ≠ 0 ∧ s > alignmore b₀
    · rw [if_pos h₂] at h hw'
      have hres := carveUnaligned_spec hE (hroot ▸ ht) (hroot ▸ hsel) hnode (by omega) h
      exact ⟨hroot ▸ hres.1, hsame.trans hres.2⟩
    · rw [if_neg h₂] at h
      have h' := Option.some.inj h
      obtain rfl : b₀ = b := congrArg Prod.fst h'
      have hres := carveAligned_spec hE (hroot ▸ ht) (hroot ▸ hsel) hnode (by omega) (ha h₂) h'
      exact ⟨hroot ▸ hres.1, hsame.trans hres.2⟩

end Carve

/-! ## Handing back -/

theorem cover_cutOut (ptr nbytes : ℕ) (blk : Range) (a : ℕ) :
    cover (cutOut ptr nbytes blk) a =
      if Range.Has (ptr, nbytes) a then 0 else cover [blk] a := by
  have hfilter (l : List Range) : cover (l.filter fun e => 0 < e.2) a = cover l a := by
    rw [cover, cover, List.countP_filter]
    refine List.countP_congr fun e _ => ?_
    simp only [Bool.and_eq_true, decide_eq_true_eq]
    exact ⟨And.left, fun h => ⟨h, by simp only [Has] at h; omega⟩⟩
  -- The two pieces are the bytes before the range, and those after it.
  have h₁ : Range.Has (blk.1, min (blk.1 + blk.2) ptr - blk.1) a ↔ blk.Has a ∧ a < ptr := by
    simp only [Has]
    omega
  have h₂ : Range.Has (max blk.1 (ptr + nbytes), blk.1 + blk.2 - max blk.1 (ptr + nbytes)) a ↔
      blk.Has a ∧ ptr + nbytes ≤ a := by
    simp only [Has]
    omega
  have h₃ : Range.Has (ptr, nbytes) a ↔ ¬a < ptr ∧ ¬ptr + nbytes ≤ a := by
    simp only [Has]
    omega
  rw [cutOut, hfilter, cover_cons]
  simp only [cover_singleton, h₁, h₂, h₃]
  by_cases hb : blk.Has a <;> by_cases hlt : a < ptr <;> by_cases hle : ptr + nbytes ≤ a <;>
    simp [hb, hlt, hle]
  omega

theorem cover_flatMap_cutOut (ptr nbytes : ℕ) (l : List Range) (a : ℕ) :
    cover (l.flatMap (cutOut ptr nbytes)) a =
      if Range.Has (ptr, nbytes) a then 0 else cover l a := by
  induction l with
  | nil => simp
  | cons e l ih =>
    rw [List.flatMap_cons, cover_append, ih, cover_cutOut, cover_cons e l]
    split_ifs <;> omega

theorem pos_of_mem_cutOut {ptr nbytes : ℕ} {blk e : Range} (h : e ∈ cutOut ptr nbytes blk) :
    0 < e.2 := by
  simpa using (List.mem_filter.1 h).2

/-! ## The arena -/

/-- Nothing is deferred when no block is freed from interrupt level. -/
theorem check_of_none {v : Config} {m : Kmem} (hl : m.need_to_free_list = [])
    (ht : ∀ e ∈ m.need_to_free, e.1 = 0) : check_need_to_free v m = some m := by
  have hf : (m.need_to_free.filter fun e => e.1 ≠ 0) = [] :=
    List.filter_eq_nil_iff.2 fun e he => by simp [ht e he]
  have hm : (m.need_to_free.map fun e => (0, e.2)) = m.need_to_free := by
    conv_rhs => rw [← List.map_id m.need_to_free]
    exact List.map_congr_left fun e he => Prod.ext (ht e he).symm rfl
  rw [check_need_to_free, hl, List.foldlM_nil, Option.pure_def, Option.bind_eq_bind,
    Option.bind_some, hf, hm, List.foldlM_nil, ← hl]
  rfl

/-- The state `m'` once the arena is given to the free tree of `m`: it is the only
    block. -/
structure Given (v : Config) (m m' : Kmem) : Prop where
  root : m'.free_root = node nil v.coreBegin v.v_maxcore nil
  already : m'.core_already_freed = true
  coreEnd : m'.CoreEnd = v.coreBegin + v.v_maxcore
  list : m'.need_to_free_list = m.need_to_free_list
  table : m'.need_to_free = m.need_to_free

theorem morecore_given {v : Config} {m m' : Kmem} {ok : Bool} (hroot : m.free_root = nil)
    (hc : m.core_already_freed = false) (hpos : 0 < v.v_maxcore)
    (hm : morecore v m = some (ok, m')) : Given v m m' := by
  rw [morecore, hc, if_neg (by simp), kmem_free, if_neg (Nat.pos_iff_ne_zero.1 hpos)] at hm
  obtain ⟨m₁, hm₁, he⟩ := Option.map_eq_some_iff.1 hm
  obtain ⟨-, rfl⟩ := Prod.mk.inj he
  split_ifs at hm₁
  have hins : FreeTree.insert v.coreBegin v.v_maxcore nil =
      some (node nil v.coreBegin v.v_maxcore nil) := by
    rw [FreeTree.insert, if_neg (by omega)]
  simp only [hroot, coalesce, Option.bind_eq_bind, Option.bind_some, hins] at hm₁
  obtain ⟨m₂, hm₂, hm₁⟩ := Option.bind_eq_some_iff.1 hm₁
  obtain rfl := Option.some.inj hm₁
  obtain ⟨hsame, -⟩ := getfreehdr_spec hm₂
  exact ⟨rfl, hsame.already, hsame.coreEnd, hsame.list, hsame.table⟩

theorem mweight_arena (v : Config) :
    mweight (node nil v.coreBegin v.v_maxcore nil) = v.v_maxcore := by
  have halign : ¬(v.coreBegin % 4 ≠ 0 ∧ v.v_maxcore > alignmore v.coreBegin) := by
    simp only [Config.coreBegin]
    omega
  simp [mweight, alignedSize, halign]

/-! ## Runs -/

/-- The calls the heap is promised: the bytes handed back are all outstanding. -/
def Act.Valid (s : Run) : Act → Prop
  | .alloc _ => True
  | .free ptr nbytes => ∀ a, Range.Has (ptr, nbytes) a → ∃ blk ∈ s.out, Range.Has blk a

/-- The allocation that is the first to need the arena fits into it. -/
def Act.Fits (v : Config) (s : Run) : Act → Prop
  | .alloc nbytes => s.mem.core_already_freed = false → nbytes ≤ v.v_maxcore
  | .free _ _ => True

/-- The arena. -/
def Config.arena (v : Config) : Range := (v.coreBegin, v.v_maxcore)

/-- The free and the outstanding blocks partition the arena, from when it is given
    to the heap; until then there are none. -/
structure Sound (v : Config) (s : Run) : Prop where
  partition : s.mem.core_already_freed = true →
    Partition v.arena (s.mem.free_root.blocks ++ s.out)
  empty : s.mem.core_already_freed = false → s.mem.free_root.blocks ++ s.out = []

/-- The invariant of the heap. -/
structure Inv (v : Config) (s : Run) : Prop where
  list : s.mem.need_to_free_list = []
  table : ∀ e ∈ s.mem.need_to_free, e.1 = 0
  before : s.mem.core_already_freed = false →
    s.mem.free_root = nil ∧ s.out = [] ∧ s.mem.CoreEnd = 0
  coreEnd : s.mem.core_already_freed = true → s.mem.CoreEnd = v.coreBegin + v.v_maxcore
  cover : s.mem.core_already_freed = true → ∀ a,
    cover (s.mem.free_root.blocks ++ s.out) a = if v.arena.Has a then 1 else 0
  pos : ∀ e ∈ s.mem.free_root.blocks ++ s.out, 0 < e.2

section Steps

variable {v : Config} {s : Run}

theorem Inv.partition (h : Inv v s) (hc : s.mem.core_already_freed = true) :
    Partition v.arena (s.mem.free_root.blocks ++ s.out) :=
  partition_of_cover h.pos (h.cover hc)

theorem Inv.sound (h : Inv v s) : Sound v s :=
  ⟨h.partition, fun hc => by rw [(h.before hc).1, (h.before hc).2.1]; rfl⟩

theorem Config.coreEnd_lt (v : Config) : v.coreBegin + v.v_maxcore < 2 ^ 32 := v.fits

theorem Inv.bounded (h : Inv v s) (hc : s.mem.core_already_freed = true) :
    Bounded (v.coreBegin + v.v_maxcore) s.mem.free_root :=
  ⟨fun e he => h.pos e (List.mem_append_left _ he),
    fun e he => ((h.partition hc).inside e (List.mem_append_left _ he)).2⟩

/-- Freeing outstanding bytes keeps the invariant. -/
theorem Inv.free {ptr nbytes : ℕ} {m : Kmem} (h : Inv v s) (hv : (Act.free ptr nbytes).Valid s)
    (hm : kmem_free v ptr nbytes s.mem = some m) :
    Inv v ⟨m, s.out.flatMap (cutOut ptr nbytes)⟩ := by
  have hpos (e : Range) (he : e ∈ s.out.flatMap (cutOut ptr nbytes)) : 0 < e.2 := by
    obtain ⟨blk, _, he⟩ := List.mem_flatMap.1 he
    exact pos_of_mem_cutOut he
  rcases Nat.eq_zero_or_pos nbytes with rfl | hn
  · -- Nothing is freed, and nothing is cut out.
    rw [kmem_free, if_pos rfl] at hm
    obtain rfl := Option.some.inj hm
    have hcov (a : ℕ) : Range.cover (s.out.flatMap (cutOut ptr 0)) a = Range.cover s.out a := by
      rw [cover_flatMap_cutOut, if_neg (by simp [Has])]
    refine ⟨h.list, h.table, fun hc => ⟨(h.before hc).1, by rw [(h.before hc).2.1]; rfl,
      (h.before hc).2.2⟩, h.coreEnd, fun hc a => ?_, fun e he => ?_⟩
    · rw [cover_append, hcov, ← cover_append]
      exact h.cover hc a
    · exact (List.mem_append.1 he).elim (fun he => h.pos e (List.mem_append_left _ he)) (hpos e)
  cases hc : s.mem.core_already_freed with
  | false =>
    obtain ⟨blk, hb, -⟩ := hv ptr ⟨le_rfl, by simpa using hn⟩
    rw [(h.before hc).2.1] at hb
    exact absurd hb List.not_mem_nil
  | true =>
    have hle : ptr + nbytes ≤ v.coreBegin + v.v_maxcore := by
      obtain ⟨blk, hb, hlast⟩ := hv (ptr + nbytes - 1) ⟨by simp; omega, by simp; omega⟩
      have hin := ((h.partition hc).inside blk (List.mem_append_right _ hb)).2
      simp only [Range.Has, Config.arena] at hlast hin
      omega
    obtain ⟨hfree, hsame⟩ := kmem_free_spec v.coreEnd_lt (h.bounded hc) hn hle hm
    refine ⟨hsame.list.trans h.list, hsame.table ▸ h.table, fun hc' => ?_, fun _ => ?_,
      fun _ a => ?_, fun e he => ?_⟩
    · rw [hsame.already, hc] at hc'
      exact absurd hc' (by simp)
    · exact hsame.coreEnd.trans (h.coreEnd hc)
    · -- The bytes handed back were covered once, by outstanding blocks.
      have hcov := h.cover hc a
      rw [cover_append] at hcov ⊢
      rw [hfree.cover a, cover_flatMap_cutOut, cover_singleton]
      by_cases ha : Range.Has (ptr, nbytes) a
      · have := cover_pos.2 (hv a ha)
        simp only [if_pos ha]
        split_ifs at hcov ⊢ <;> omega
      · simp only [if_neg ha]
        exact hcov
    · exact (List.mem_append.1 he).elim (hfree.bounded.pos e) (hpos e)

/-- The arena is one free block when it is given to the free tree. -/
theorem morecore_spec {m : Kmem} {ok : Bool} (h : Inv v s)
    (hc : s.mem.core_already_freed = false) (hpos : 0 < v.v_maxcore)
    (hm : morecore v s.mem = some (ok, m)) :
    Inv v ⟨m, s.out⟩ ∧ m.core_already_freed = true ∧ mweight m.free_root = v.v_maxcore := by
  have hg := morecore_given (h.before hc).1 hc hpos hm
  have hblocks : m.free_root.blocks ++ s.out = [v.arena] := by
    rw [hg.root, (h.before hc).2.1]
    rfl
  refine ⟨⟨hg.list.trans h.list, hg.table ▸ h.table, fun hc' => ?_, fun _ => hg.coreEnd,
    fun _ a => ?_, fun e he => ?_⟩, hg.already, hg.root ▸ mweight_arena v⟩
  · rw [hg.already] at hc'
    exact absurd hc' (by simp)
  · rw [hblocks]
    exact cover_singleton _ a
  · rw [hblocks, List.mem_singleton] at he
    rw [he]
    exact hpos

/-- Carving a block off a tree that is large enough keeps the invariant. -/
theorem Inv.carve {n b : ℕ} {m : Kmem} (h : Inv v s) (hc : s.mem.core_already_freed = true)
    (hn : 0 < n) (hw : n ≤ mweight s.mem.free_root) (hm : carve v n s.mem = some (b, m)) :
    Inv v ⟨m, (b, n) :: s.out⟩ ∧ (4 ≤ n → b % 4 = 0) := by
  obtain ⟨hcar, hsame⟩ := carve_spec v.coreEnd_lt (h.bounded hc) hw hm
  refine ⟨⟨hsame.list.trans h.list, hsame.table ▸ h.table, fun hc' => ?_,
    fun _ => hsame.coreEnd.trans (h.coreEnd hc), fun _ a => ?_, fun e he => ?_⟩, hcar.aligned⟩
  · rw [hsame.already, hc] at hc'
    exact absurd hc' (by simp)
  · have hsum : Range.cover s.mem.free_root.blocks a =
        Range.cover m.free_root.blocks a + Range.cover [(b, n)] a := hcar.cover a
    show Range.cover (m.free_root.blocks ++ (b, n) :: s.out) a = _
    rw [← h.cover hc a, cover_append, cover_append, hsum, cover_cons (b, n) s.out]
    omega
  · rcases List.mem_append.1 he with he | he
    · exact hcar.bounded.pos e he
    · rcases List.mem_cons.1 he with rfl | he
      · exact hn
      · exact h.pos e (List.mem_append_right _ he)

/-- An allocation that fits keeps the invariant; its block is outstanding after
    it, and aligned unless it is smaller than a word. -/
theorem Inv.alloc {n b : ℕ} {m : Kmem} (h : Inv v s) (hf : (Act.alloc n).Fits v s)
    (hm : kmem_alloc v n s.mem = some (some b, m)) :
    Inv v ⟨m, (b, n) :: s.out⟩ ∧ m.core_already_freed = true ∧ (4 ≤ n → b % 4 = 0) := by
  rcases Nat.eq_zero_or_pos n with rfl | hn
  · simp [kmem_alloc] at hm
  rw [kmem_alloc, if_neg (by omega), check_of_none h.list h.table, Option.bind_some] at hm
  obtain ⟨⟨ok, m₁⟩, hm₁, hm⟩ := Option.bind_eq_some_iff.1 hm
  obtain ⟨h₁, hc₁, hw₁⟩ : Inv v ⟨m₁, s.out⟩ ∧ m₁.core_already_freed = true ∧
      (ok = true → n ≤ mweight m₁.free_root) := by
    unfold ensure at hm₁
    split_ifs at hm₁ with hw
    · cases hc : s.mem.core_already_freed with
      | true =>
        rw [morecore, hc, if_pos rfl] at hm₁
        obtain ⟨rfl, rfl⟩ := Prod.mk.inj (Option.some.inj hm₁)
        exact ⟨h, hc, by simp⟩
      | false =>
        obtain ⟨h₁, hc₁, hw₁⟩ := morecore_spec h hc (hn.trans_le (hf hc)) hm₁
        exact ⟨h₁, hc₁, fun _ => hw₁ ▸ hf hc⟩
    · obtain ⟨rfl, rfl⟩ := Prod.mk.inj (Option.some.inj hm₁)
      refine ⟨h, ?_, fun _ => not_lt.1 hw⟩
      by_contra hc
      rw [(h.before (by simpa using hc)).1] at hw
      exact hw hn
  dsimp only at hm
  split_ifs at hm with hok
  obtain ⟨⟨b', m'⟩, hcar, he⟩ := Option.map_eq_some_iff.1 hm
  simp only [Prod.mk.injEq, Option.some.injEq] at he
  obtain ⟨rfl, rfl⟩ := he
  obtain ⟨hinv, hal⟩ := h₁.carve hc₁ hn (hw₁ hok) hcar
  exact ⟨hinv, (carve_spec v.coreEnd_lt (h₁.bounded hc₁) (hw₁ hok) hcar).2.already.trans hc₁, hal⟩

end Steps

/-- Only an allocation of no bytes returns no block. -/
theorem kmem_alloc_none {v : Config} {n : ℕ} {m m' : Kmem} (h : kmem_alloc v n m = some (none, m')) :
    m' = m := by
  unfold kmem_alloc at h
  split_ifs at h
  · exact (Prod.mk.inj (Option.some.inj h)).2.symm
  · obtain ⟨_, -, h⟩ := Option.bind_eq_some_iff.1 h
    obtain ⟨_, -, h⟩ := Option.bind_eq_some_iff.1 h
    dsimp only at h
    split_ifs at h
    obtain ⟨_, _, he⟩ := Option.map_eq_some_iff.1 h
    simp at he

/-- In every run of valid calls whose first allocation fits into the arena, the
    invariant holds. -/
theorem inv_of_fits {v : Config} {s : Run}
    (hs : (heap v).ReachableIf (fun s a => a.Valid s ∧ a.Fits v s) s) : Inv v s := by
  refine hs.invariant (fun s h => ?_) fun s a s' h hok hn => ?_
  · subst h
    exact ⟨rfl, fun e he => (List.mem_replicate.1 he).2 ▸ rfl, fun _ => ⟨rfl, rfl, rfl⟩,
      fun hc => absurd hc (by simp [kmemInit]), fun hc => absurd hc (by simp [kmemInit]),
      fun e he => absurd he List.not_mem_nil⟩
  · cases a with
    | alloc n =>
      obtain ⟨⟨b, m⟩, hm, rfl⟩ := Option.map_eq_some_iff.1 hn
      cases b with
      | none =>
        rw [kmem_alloc_none hm]
        exact h
      | some b => exact (h.alloc hok.2 hm).1
    | free ptr nbytes =>
      obtain ⟨m, hm, rfl⟩ := Option.map_eq_some_iff.1 hn
      exact h.free hok.1 hm

/-- The block an allocation returns: it lies in the arena and apart from all
    outstanding blocks, and is aligned unless it is smaller than a word. -/
structure Granted (v : Config) (s : Run) (b n : ℕ) : Prop where
  inside : v.coreBegin ≤ b ∧ b + n ≤ v.coreBegin + v.v_maxcore
  apart : ∀ blk ∈ s.out, Apart (b, n) blk
  aligned : 4 ≤ n → b % 4 = 0

/-- In every run of valid calls whose first allocation fits into the arena, the
    heap is sound, and so is every block it returns. -/
theorem sound_of_fits (v : Config) : ∀ s,
    (heap v).ReachableIf (fun s a => a.Valid s ∧ a.Fits v s) s → Sound v s ∧
      ∀ n b m, (Act.alloc n).Fits v s → kmem_alloc v n s.mem = some (some b, m) →
        Granted v s b n := by
  intro s hs
  have h := inv_of_fits hs
  refine ⟨h.sound, fun n b m hf hm => ?_⟩
  obtain ⟨h', hc, hal⟩ := h.alloc hf hm
  have hp := h'.partition hc
  refine ⟨hp.inside (b, n) (List.mem_append_right _ List.mem_cons_self), fun blk hb => ?_, hal⟩
  exact (List.pairwise_cons.1 (List.pairwise_append.1 hp.apart).2.1).1 blk hb

theorem sixteen_fits : (1024 + 3) / 4 * 4 + 16 < 4294967296 := by decide

/-- An arena of sixteen bytes. -/
def smallConfig : Config := ⟨1024, 16, 8, sixteen_fits⟩

/-- Twelve bytes of it are granted. -/
theorem granted_smallConfig : Sound smallConfig ⟨kmemInit, []⟩ ∧
    Granted smallConfig ⟨kmemInit, []⟩ 1024 12 := by
  have h := sound_of_fits smallConfig ⟨kmemInit, []⟩ (.init rfl)
  refine ⟨h.1, h.2 12 1024 ⟨node nil 1036 4 nil, true, 1040, true, 7, [],
    List.replicate 10 (0, 0)⟩ (fun _ => by decide) ?_⟩
  simp [kmem_alloc, check_need_to_free, ensure, kmemInit, mweight, morecore, kmem_free, smallConfig,
    Config.coreBegin, coalesce, FreeTree.insert, getfreehdr, carve, select, descend, subU, carveAligned,
    demote, replace, addU, freehdr]

/-! ## A first allocation that does not fit -/

/-- What the first allocation leaves: a free block that is larger than the arena,
    behind its end. -/
def smallMem : Kmem := ⟨node nil 1044 4294967292 nil, true, 1040, true, 7, [],
  List.replicate 10 (0, 0)⟩

/-- The first allocation gets twenty bytes of it. -/
theorem alloc_smallConfig : kmem_alloc smallConfig 20 kmemInit = some (some 1024, smallMem) := by
  simp [kmem_alloc, check_need_to_free, ensure, kmemInit, mweight, morecore, kmem_free, smallConfig,
    Config.coreBegin, coalesce, FreeTree.insert, getfreehdr, carve, select, descend, subU, carveAligned,
    demote, replace, addU, freehdr, smallMem]

/-- A heap under valid calls gets to be unsound. -/
theorem not_sound : ¬∀ v s, (heap v).ReachableIf (fun s a => a.Valid s) s → Sound v s := by
  intro h
  have hs : (heap smallConfig).ReachableIf (fun s a => a.Valid s) ⟨smallMem, [(1024, 20)]⟩ :=
    .step (a := .alloc 20) (.init rfl) trivial (by simp [heap, alloc_smallConfig])
  have := ((h _ _ hs).partition rfl).inside (1024, 20) (by simp)
  simp [smallConfig, Config.arena, Config.coreBegin] at this

end AuxKernel.Heap
