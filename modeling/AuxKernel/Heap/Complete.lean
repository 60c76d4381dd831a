import AuxKernel.Heap.Order

/-!
# When an allocation fails

`kmem_alloc` gives up when the weight of the root is too small. The tree is ordered by size, but the
weight of a block that starts inside a word is less than its size: a branch may have a block that
is large enough, and so may the root itself, for less than a word (`not_alloc_complete`).

* `carve_eq_none_iff`: where the root is large enough, an allocation fails for want of headers only;
* `alloc_complete_iff`: when an allocation fails though there is a free block that can hold the bytes.
-/

namespace AuxKernel.Heap

open FreeTree

/-- A free block can hold `n` bytes, from a word boundary on if they make up a word. -/
def Holds (n : ℕ) (e : Range) : Prop := ∃ a, e.1 ≤ a ∧ a + n ≤ e.1 + e.2 ∧ (4 ≤ n → a % 4 = 0)

/-- The headers that can be taken: the free ones, and those of the table before they are made
    free. -/
def spare (v : Config) (m : Kmem) : ℕ :=
  m.nfreehdr + if m.freehdrflag then 0 else v.v_maxheader - 1 + 1

/-- The headers that it takes to allocate `n` bytes from a node: none if they are the whole block,
    else one for what stays free, or two if that is on both sides. -/
def headers (n : ℕ) : FreeTree → ℕ
  | nil => 0
  | node _ b s _ => if s = n then 0 else if b % 4 ≠ 0 ∧ s > n + alignmore b then 2 else 1

section Steps

variable {v : Config} {E n b s ptr nbytes : ℕ} {l r t : FreeTree} {m m' : Kmem}

/-- A header can be taken if there is one to spare. -/
theorem getfreehdr_spare (v : Config) (m : Kmem) :
    getfreehdr v m = none ∧ spare v m = 0 ∨
      ∃ m', getfreehdr v m = some m' ∧ spare v m' + 1 = spare v m := by
  unfold getfreehdr spare
  cases hn : m.nfreehdr with
  | succ k => exact .inr ⟨_, rfl, by dsimp only; omega⟩
  | zero =>
    cases hf : m.freehdrflag with
    | true => exact .inl ⟨rfl, rfl⟩
    | false => exact .inr ⟨_, rfl, by simp⟩

/-- Trees without empty blocks can be merged. -/
theorem exists_merge (l r : FreeTree) (hl : ∀ e ∈ l.blocks, 0 < e.2)
    (hr : ∀ e ∈ r.blocks, 0 < e.2) : ∃ t, merge l r = some t := by
  induction l, r using merge.induct with
  | case1 => exact ⟨nil, by rw [merge]⟩
  | case2 rl b s rr hs => exact absurd (hr (b, s) (by simp)) (not_lt.2 hs)
  | case3 rl b s rr hs ih =>
    obtain ⟨t, ht⟩ := ih hl fun e he => hr e (by simp [he])
    exact ⟨_, by rw [merge, if_neg hs, ht, Option.map_some]⟩
  | case4 ll b s lr ih =>
    obtain ⟨t, ht⟩ := ih (fun e he => hl e (by simp [he])) hr
    exact ⟨_, by rw [merge, ht, Option.map_some]⟩
  | case5 ll b s lr rl b' s' rr hs ih =>
    obtain ⟨t, ht⟩ := ih (fun e he => hl e (by simp [he])) hr
    exact ⟨_, by rw [merge, if_pos hs, ht, Option.map_some]⟩
  | case6 ll b s lr rl b' s' rr hs ih =>
    obtain ⟨t, ht⟩ := ih hl fun e he => hr e (by simp [he])
    exact ⟨_, by rw [merge, if_neg hs, ht, Option.map_some]⟩

theorem exists_insert (p : ℕ) {len : ℕ} (hlen : 0 < len) (t : FreeTree) :
    ∃ t', t.insert p len = some t' := by
  induction t with
  | nil => exact ⟨_, by rw [FreeTree.insert, if_neg (not_le.2 hlen)]⟩
  | node l b s r ihl ihr =>
    rw [FreeTree.insert]
    by_cases hs : s ≥ len
    · rw [if_pos hs]
      by_cases hp : p < b
      · rw [if_pos hp]
        obtain ⟨t', ht'⟩ := ihl
        exact ⟨_, by rw [ht', Option.map_some]⟩
      · rw [if_neg hp]
        obtain ⟨t', ht'⟩ := ihr
        exact ⟨_, by rw [ht', Option.map_some]⟩
    · exact ⟨_, if_neg hs⟩

/-- A block with gaps on both sides absorbs nothing. -/
theorem coalesce_of_clear (hE : E < 2 ^ 32) (ht : Bounded E t) (hle : ptr + nbytes ≤ E)
    (hclear : Clear t (ptr, nbytes)) : coalesce ptr nbytes t = some (t, (ptr, nbytes), 0) := by
  induction t with
  | nil => rw [coalesce]
  | node l b s r ihl ihr =>
    have hb : b + s ≤ E := ht.le (b, s) (by simp)
    rw [coalesce, addU_of_le hE hle, addU_of_le hE hb]
    rcases hclear (b, s) (by simp) with hbelow | hbelow <;> unfold Below at hbelow <;>
      dsimp only at hbelow
    · rw [if_neg (by omega), if_pos (by omega), if_neg (by omega), if_neg (by omega),
        ihr (ht.subset fun e he => by simp [he]) fun e he => hclear e (by simp [he])]
      rfl
    · rw [if_pos (by omega), if_neg (by omega), if_neg (by omega),
        ihl (ht.subset (by simp)) fun e he => hclear e (by simp [he])]
      rfl

/-- Such a block is freed if there is a header to spare. -/
theorem kmem_free_eq_none_iff (hE : E < 2 ^ 32) (ht : Bounded E m.free_root) (hn : 0 < nbytes)
    (hle : ptr + nbytes ≤ E) (hcore : v.core ≤ ptr) (hend : ptr < m.CoreEnd)
    (hclear : Clear m.free_root (ptr, nbytes)) :
    kmem_free v ptr nbytes m = none ↔ spare v m = 0 := by
  obtain ⟨t, ht'⟩ := exists_insert ptr hn m.free_root
  rw [kmem_free, if_neg (by omega), if_neg (by omega), coalesce_of_clear hE ht hle hclear]
  dsimp only [Option.bind_eq_bind, Option.bind_some]
  rw [ht']
  rcases getfreehdr_spare v m with ⟨hnone, hspare⟩ | ⟨m', hsome, hspare⟩
  · simp [hnone, hspare]
  · simp [hsome]
    omega

/-- What the selected node leaves free at its end is apart from all other free blocks. -/
theorem clear_rest (ht : Sorted t) (hsel : select n t = node l b s r) (hn : 0 < n)
    (hs : n + alignmore b ≤ s) :
    Clear (replace n (demote b (alignmore b) l r) t)
      (b + (n + alignmore b), s - (n + alignmore b)) := by
  obtain ⟨before, after, heq, hrep⟩ := blocks_replace_eq n t
  rw [hsel, blocks_node] at heq
  have hold : t.blocks = (before ++ l.blocks) ++ (b, s) :: (r.blocks ++ after) := by
    rw [heq]
    simp
  rw [Sorted, hold, List.pairwise_append, List.pairwise_cons] at ht
  obtain ⟨-, ⟨hafter, -⟩, hbefore⟩ := ht
  intro e he
  have hmem : e ∈ before ++ l.blocks ∨ e = (b, alignmore b) ∨ e ∈ r.blocks ++ after := by
    rw [hrep, blocks_demote_eq] at he
    simpa [or_assoc] using he
  rcases hmem with he | rfl | he
  · left
    have hbelow := hbefore e he (b, s) List.mem_cons_self
    unfold Below at hbelow ⊢
    dsimp only at hbelow ⊢
    omega
  · left
    unfold Below
    dsimp only
    omega
  · right
    have hbelow := hafter e he
    unfold Below at hbelow ⊢
    dsimp only at hbelow ⊢
    omega

/-- Where the root is large enough, an allocation fails for want of headers only. -/
theorem carve_eq_none_iff (hE : E < 2 ^ 32) (ht : Ordered E m.free_root) (hend : m.CoreEnd = E)
    (hcore : ∀ e ∈ m.free_root.blocks, v.core ≤ e.1) (hn : 0 < n) (hw : n ≤ mweight m.free_root) :
    carve v n m = none ↔ spare v m < headers n (select n m.free_root) := by
  have hw' := mweight_select hw
  cases hsel : select n m.free_root with
  | nil =>
    rw [hsel, mweight] at hw'
    omega
  | node l b s r =>
    rw [hsel, mweight, alignedSize] at hw'
    obtain ⟨before, after, heq, -⟩ := blocks_replace_eq n m.free_root
    have hmem : ∀ e ∈ (node l b s r).blocks, e ∈ m.free_root.blocks := by
      intro e he
      rw [heq, hsel]
      simp only [List.mem_append]
      exact .inl (.inr he)
    have hself : (b, s) ∈ (node l b s r).blocks := by simp
    have hbs : b + s ≤ E := ht.bounded.le (b, s) (hmem _ hself)
    have hns : n ≤ s := by split_ifs at hw' <;> omega
    rw [carve, hsel, headers]
    dsimp only
    rw [subU_of_le hns (by omega)]
    by_cases hexact : s = n
    · rw [if_pos hexact, if_pos (by omega)]
      obtain ⟨u, hu⟩ := exists_merge l r
        (fun e he => ht.bounded.pos e (hmem e (List.mem_append_left _ he)))
        fun e he => ht.bounded.pos e (hmem e (by simp [he]))
      rw [hu, Option.map_some]
      simp
    rw [if_neg hexact, if_neg (by omega)]
    rcases getfreehdr_spare v m with ⟨hnone, hspare⟩ | ⟨m₁, hsome, hspare⟩
    · rw [hnone, Option.bind_none, hspare]
      refine iff_of_true rfl ?_
      split_ifs <;> decide
    obtain ⟨hsame, hroot⟩ := getfreehdr_spec hsome
    rw [hsome, Option.bind_some]
    by_cases hinside : b % 4 ≠ 0 ∧ s > alignmore b
    · rw [if_pos hinside] at hw' ⊢
      have hpos : 0 < alignmore b := by unfold alignmore; omega
      have hord := ordered_demote ht hsel hpos le_rfl (show b + alignmore b ≤ b + s by omega)
      rw [carveUnaligned, addU_of_le hE (by omega : n + alignmore b ≤ E)]
      by_cases hrest : s > n + alignmore b
      · -- The end of the block is freed, which takes a header more.
        have hclear := clear_rest ht.sorted hsel hn hrest.le
        have hb : v.core ≤ b := hcore (b, s) (hmem _ hself)
        rw [if_pos hrest, if_pos ⟨hinside.1, hrest⟩,
          addU_of_le hE (by omega : b + (n + alignmore b) ≤ E), subU_of_le hrest.le (by omega),
          Option.map_eq_none_iff, kmem_free_eq_none_iff hE]
        · change spare v m₁ = 0 ↔ _
          omega
        · rw [hroot]
          exact hord.bounded
        · omega
        · omega
        · omega
        · change _ < m₁.CoreEnd
          rw [hsame.coreEnd, hend]
          omega
        · rw [hroot]
          exact hclear
      · rw [if_neg hrest, if_neg fun h => hrest h.2, Option.map_some]
        simp
        omega
    · rw [if_neg hinside, if_neg fun h => hinside ⟨h.1, by omega⟩]
      simp
      omega

end Steps

/-! ## Runs -/

/-- The invariant of the heap, with the order of the free tree. -/
theorem inv_order (v : Config) {s : Run}
    (hs : (heap v).ReachableIf (fun s a => a.Valid s ∧ a.Fits v s) s) :
    Inv v s ∧ OrderInv s.mem := by
  refine ⟨inv_of_fits hs, ?_⟩
  induction hs with
  | init h =>
    subst h
    exact ⟨rfl, fun e he => (List.mem_replicate.1 he).2 ▸ rfl, fun _ => ⟨rfl, rfl⟩,
      ⟨⟨nofun, nofun⟩, .nil, trivial⟩⟩
  | @step s s' a hs hok hn ih =>
    cases a with
    | alloc n =>
      obtain ⟨⟨b, m⟩, hm, rfl⟩ := Option.map_eq_some_iff.1 hn
      cases b with
      | none => exact kmem_alloc_none hm ▸ ih
      | some b => exact ih.alloc hok.2 hm
    | free ptr nbytes =>
      obtain ⟨m, hm, rfl⟩ := Option.map_eq_some_iff.1 hn
      rcases Nat.eq_zero_or_pos nbytes with rfl | hpos
      · rw [kmem_free, if_pos rfl] at hm
        exact Option.some.inj hm ▸ ih
      · -- The last byte handed back is in the arena.
        refine ih.free ?_ hm
        obtain ⟨blk, hblk, hhas⟩ := hok.1 (ptr + nbytes - 1) ⟨by dsimp only; omega, by
          dsimp only
          omega⟩
        have hinv := inv_of_fits hs
        cases hc : s.mem.core_already_freed with
        | false =>
          rw [(hinv.before hc).2.1] at hblk
          exact absurd hblk List.not_mem_nil
        | true =>
          have hin := ((hinv.partition hc).inside blk (List.mem_append_right _ hblk)).2
          have hfits := v.coreEnd_lt
          have hlt := hhas.2
          simp only [Config.arena] at hin
          omega

/-- An allocation fails though there is a block that can hold the bytes, unless the root is large
    enough and there are headers to spare. -/
theorem alloc_complete_iff (v : Config) {s : Run}
    (hs : (heap v).ReachableIf (fun s a => a.Valid s ∧ a.Fits v s) s) {n : ℕ} (hn : 0 < n) :
    (kmem_alloc v n s.mem = none → ∀ e ∈ s.mem.free_root.blocks, ¬ Holds n e) ↔
      (n ≤ mweight s.mem.free_root ∧ headers n (select n s.mem.free_root) ≤ spare v s.mem) ∨
        ∀ e ∈ s.mem.free_root.blocks, ¬ Holds n e := by
  obtain ⟨hinv, horder⟩ := inv_order v hs
  cases hc : s.mem.core_already_freed with
  | false =>
    have hnone : ∀ e ∈ s.mem.free_root.blocks, ¬ Holds n e := by
      rw [(hinv.before hc).1]
      exact fun e he => absurd he List.not_mem_nil
    exact iff_of_true (fun _ => hnone) (.inr hnone)
  | true =>
    have hfail : kmem_alloc v n s.mem = none ↔
        ¬ (n ≤ mweight s.mem.free_root ∧
          headers n (select n s.mem.free_root) ≤ spare v s.mem) := by
      rw [kmem_alloc, if_neg (by omega), check_of_none hinv.list hinv.table, Option.bind_some,
        ensure]
      by_cases hw : n ≤ mweight s.mem.free_root
      · have hcarve := carve_eq_none_iff (v := v) v.coreEnd_lt
          ⟨hinv.bounded hc, horder.ordered.sorted, horder.ordered.weighted⟩ (hinv.coreEnd hc)
          (fun e he => ?_) hn hw
        · rw [if_neg (by omega), Option.bind_some]
          dsimp only
          rw [if_pos rfl, Option.map_eq_none_iff, hcarve]
          omega
        · have hin := ((hinv.partition hc).inside e (List.mem_append_left _ he)).1
          simp only [Config.arena, Config.coreBegin] at hin
          omega
      · rw [if_pos (by omega), morecore, hc, if_pos rfl, Option.bind_some]
        exact iff_of_true rfl fun h => hw h.1
    rw [hfail]
    tauto

/-- What is left after twelve bytes have been allocated. -/
def restMem : Kmem := ⟨node nil 1036 4 nil, true, 1040, true, 7, [], List.replicate 10 (0, 0)⟩

/-- The next four bytes are allocated, or there is no room for them. -/
theorem alloc_complete_smallConfig :
    (kmem_alloc smallConfig 4 restMem = none → ∀ e ∈ restMem.free_root.blocks, ¬ Holds 4 e) ∧
      4 ≤ mweight restMem.free_root := by
  refine ⟨(alloc_complete_iff smallConfig (s := ⟨restMem, [(1024, 12)]⟩) ?_ (by decide)).2
    (.inl ⟨by decide, by decide⟩), by decide⟩
  refine .step (a := .alloc 12) (.init rfl) ⟨trivial, fun _ => by decide⟩ ?_
  simp [heap, kmem_alloc, check_need_to_free, ensure, kmemInit, mweight, morecore, kmem_free,
    smallConfig, Config.coreBegin, coalesce, FreeTree.insert, getfreehdr, carve, select, descend,
    subU, carveAligned, demote, replace, addU, freehdr, restMem]

/-! ## A block below the root -/

/-- The whole arena is outstanding. -/
def fullMem : Kmem := ⟨nil, true, 1040, true, 8, [], List.replicate 10 (0, 0)⟩

/-- Five bytes inside a word are free, and a word behind them. -/
def oddMem : Kmem :=
  ⟨node nil 1025 5 (node nil 1032 4 nil), true, 1040, true, 6, [], List.replicate 10 (0, 0)⟩

/-- An allocation fails though there is a word free. -/
theorem not_alloc_complete : ¬ ∀ v s, (heap v).ReachableIf (fun s a => a.Valid s) s → ∀ n, 0 < n →
    kmem_alloc v n s.mem = none → ∀ e ∈ s.mem.free_root.blocks, ¬ Holds n e := by
  intro h
  have hs₁ : (heap smallConfig).ReachableIf (fun s a => a.Valid s) ⟨fullMem, [(1024, 16)]⟩ := by
    refine .step (a := .alloc 16) (.init rfl) trivial ?_
    simp [heap, kmem_alloc, check_need_to_free, ensure, kmemInit, mweight, morecore, kmem_free,
      smallConfig, Config.coreBegin, coalesce, FreeTree.insert, getfreehdr, carve, select, descend,
      subU, replace, freehdr, merge, fullMem]
  have hs₂ : (heap smallConfig).ReachableIf (fun s a => a.Valid s)
      ⟨{ fullMem with free_root := node nil 1025 5 nil, nfreehdr := 7 },
        [(1024, 1), (1030, 10)]⟩ := by
    refine .step (a := .free 1025 5) hs₁ (fun a ha => ⟨(1024, 16), by simp, ?_⟩) ?_
    · simp only [Range.Has] at ha ⊢
      omega
    · simp [heap, kmem_free, smallConfig, fullMem, coalesce, FreeTree.insert, hook, getfreehdr,
        cutOut]
  have hs₃ : (heap smallConfig).ReachableIf (fun s a => a.Valid s)
      ⟨oddMem, [(1024, 1), (1030, 2), (1036, 4)]⟩ := by
    refine .step (a := .free 1032 4) hs₂ (fun a ha => ⟨(1030, 10), by simp, ?_⟩) ?_
    · simp only [Range.Has] at ha ⊢
      omega
    · simp [heap, kmem_free, smallConfig, fullMem, coalesce, addU, FreeTree.insert, hook,
        getfreehdr, cutOut, oddMem]
  have hfail : kmem_alloc smallConfig 4 oddMem = none := by
    rw [kmem_alloc, if_neg (by decide), check_of_none rfl (by simp [oddMem]), Option.bind_some]
    simp [ensure, oddMem, mweight, alignedSize, alignmore, morecore]
  exact h _ _ hs₃ 4 (by decide) hfail (1032, 4) (by simp [oddMem]) ⟨1032, by decide⟩

end AuxKernel.Heap
