import AuxKernel.Svfs.BlockMap
import AuxKernel.Svfs.Itrunc

/-!
# What a truncation frees

A truncation frees the blocks of a file from the logical block `cut` on, the first one after
the bytes that are kept.

* `freeLoop_spec`, `clearAfter_spec`: what is freed in one indirect block;
* `indirtrunc_spec`: what is freed below one;
* `truncates_iff`: when a truncation does what it is for.
-/

namespace AuxKernel.Svfs.Itrunc

open Radix Bmap

/-- Every block can be read. -/
abbrev good : ℕ → Bool := fun _ => false

/-! ## Freeing some blocks -/

/-- The blocks `l` have been freed, and only what is in the blocks `t` has changed. -/
structure Frees (l t : List ℕ) (s s' : Blocks) : Prop where
  freed : s'.freed.Perm (l ++ s.freed)
  overrun : s'.overrun = s.overrun
  frame : ∀ x ∉ t, s'.daddr x = s.daddr x

namespace Frees

variable {l l' t t' : List ℕ} {s s' s'' : Blocks}

theorem refl (t : List ℕ) (s : Blocks) : Frees [] t s s := ⟨.refl _, rfl, fun _ _ => rfl⟩

theorem mono (h : Frees l t s s') (ht : t ⊆ t') : Frees l t' s s' :=
  ⟨h.freed, h.overrun, fun x hx => h.frame x fun hmem => hx (ht hmem)⟩

theorem perm (h : Frees l t s s') (hl : l.Perm l') : Frees l' t s s' :=
  ⟨h.freed.trans (hl.append_right _), h.overrun, h.frame⟩

theorem trans (h : Frees l t s s') (h' : Frees l' t' s' s'') :
    Frees (l' ++ l) (t' ++ t) s s'' where
  freed := by
    rw [List.append_assoc]
    exact h'.freed.trans (h.freed.append_left _)
  overrun := h'.overrun.trans h.overrun
  frame x hx := by
    rw [List.mem_append, not_or] at hx
    exact (h'.frame x hx.1).trans (h.frame x hx.2)

/-- A tree that has not been touched is as it was. -/
theorem nodes_eq (h : Frees l t s s') {N height b base : ℕ}
    (hdisj : List.Disjoint (blocks (nodes N s.daddr height b base)) t) :
    nodes N s'.daddr height b base = nodes N s.daddr height b base :=
  nodes_eq_of_disjoint hdisj h.frame

end Frees

variable {spill : List ℕ → ℕ → (ℕ → ℕ) → ℕ → ℕ} {N : ℕ}

variable (spill) in
theorem free_spec (s : Blocks) (bn : ℕ) : Frees [bn] [bn] s (free spill s bn) where
  freed := .refl _
  overrun := rfl
  frame _ hx := Function.update_of_ne (fun h => hx (List.mem_singleton.2 h)) _ _

/-! ## One indirect block -/

/-- `sub` frees what is below the blocks of height `h`. -/
def FreesBelow (N h : ℕ) (sub : Blocks → ℕ → Blocks) : Prop :=
  ∀ s nb base, nb ≠ 0 → (blocks (nodes N s.daddr h nb base)).Nodup →
    Frees (blocks (nodes N s.daddr h nb base).tail) (blocks (nodes N s.daddr h nb base)) s
      (sub s nb)

variable (spill) in
/-- A whole tree is freed: what is below its block, and the block. -/
theorem free_tree {h nb base : ℕ} {s s' : Blocks} (hnb : nb ≠ 0)
    (hs : Frees (blocks (nodes N s.daddr h nb base).tail)
      (blocks (nodes N s.daddr h nb base)) s s') :
    Frees (blocks (nodes N s.daddr h nb base)) (blocks (nodes N s.daddr h nb base)) s
      (free spill s' nb) := by
  have hcons : blocks (nodes N s.daddr h nb base) =
      nb :: blocks (nodes N s.daddr h nb base).tail := by
    rw [nodes_eq_cons hnb]
    rfl
  have := hs.trans (free_spec spill s' nb)
  refine (this.mono ?_).perm ?_
  · rw [hcons]
    simp
  · rw [hcons]
    exact .refl _

variable (spill) in
/-- The loop over the addresses frees the trees from the index `q` on. -/
theorem freeLoop_spec {h base : ℕ} {sub : Blocks → ℕ → Blocks} (hsub : FreesBelow N h sub)
    (bap : ℕ → ℕ) (q : ℕ) {n : ℕ} {s : Blocks} (hnodup : (blocks ((List.range n).flatMap fun i =>
      nodes N s.daddr h (bap i) (base + i * N ^ h))).Nodup) :
    Frees
      (blocks ((List.range n).flatMap fun i =>
        if q ≤ i then nodes N s.daddr h (bap i) (base + i * N ^ h) else []))
      (blocks ((List.range n).flatMap fun i =>
        if q ≤ i then nodes N s.daddr h (bap i) (base + i * N ^ h) else [])) s
      (freeLoop spill sub bap (q - 1) n s) := by
  induction n generalizing s with
  | zero => exact .refl _ s
  | succ n ih =>
    rw [freeLoop]
    by_cases hq : q ≤ n
    · rw [if_pos (by omega)]
      have hlast := nodup_of_mem hnodup (List.mem_range.2 n.lt_succ_self)
      have hinit : (blocks ((List.range n).flatMap fun i =>
          nodes N s.daddr h (bap i) (base + i * N ^ h))).Nodup := by
        rw [List.range_succ, List.flatMap_append, blocks, List.map_append] at hnodup
        exact (List.nodup_append'.1 hnodup).1
      rw [List.range_succ, List.flatMap_append, List.flatMap_singleton, if_pos hq]
      by_cases hbap : bap n = 0
      · rw [if_pos hbap, hbap, nodes_zero_block, List.append_nil]
        exact ih hinit
      · rw [if_neg hbap]
        have hfree := free_tree spill hbap (hsub s (bap n) (base + n * N ^ h) hbap hlast)
        -- The trees before the last one are still there.
        have hsame : ∀ i ∈ List.range n,
            nodes N (free spill (sub s (bap n)) (bap n)).daddr h (bap i) (base + i * N ^ h) =
              nodes N s.daddr h (bap i) (base + i * N ^ h) := by
          intro i hi
          have hi := List.mem_range.1 hi
          exact hfree.nodes_eq (disjoint_of_nodup hnodup (List.mem_range.2 (by omega))
            (List.mem_range.2 n.lt_succ_self) (by omega))
        have hall := List.flatMap_congr hsame
        have hpart : ((List.range n).flatMap fun i => if q ≤ i then
            nodes N (free spill (sub s (bap n)) (bap n)).daddr h (bap i) (base + i * N ^ h)
            else []) =
            (List.range n).flatMap fun i =>
              if q ≤ i then nodes N s.daddr h (bap i) (base + i * N ^ h) else [] :=
          List.flatMap_congr fun i hi => by rw [hsame i hi]
        have hrest := ih (by rwa [hall])
        rw [hpart] at hrest
        rw [blocks, List.map_append]
        exact hfree.trans hrest
    · rw [if_neg (by omega)]
      have hnil : ((List.range (n + 1)).flatMap fun i =>
          if q ≤ i then nodes N s.daddr h (bap i) (base + i * N ^ h) else []) = [] := by
        refine List.flatMap_eq_nil_iff.2 fun i hi => if_neg ?_
        have := List.mem_range.1 hi
        omega
      rw [hnil]
      exact .refl _ s

variable (spill) in
/-- An indirect block keeps its first `q` addresses, and the trees at the others are freed. -/
theorem clearAfter_spec {h bn base q : ℕ} {s : Blocks} {sub : Blocks → ℕ → Blocks}
    (hsub : FreesBelow N h sub) (hbn : bn ≠ 0) (hq : q ≤ N)
    (hnodup : (blocks (nodes N s.daddr (h + 1) bn base)).Nodup) :
    Frees
        (blocks ((List.range N).flatMap fun i =>
          if q ≤ i then nodes N s.daddr h (s.daddr bn i) (base + i * N ^ h) else []))
        (blocks ((List.range N).flatMap fun i =>
          if q ≤ i then nodes N s.daddr h (s.daddr bn i) (base + i * N ^ h) else []) ++ [bn]) s
        (clearAfter spill N sub s bn (q - 1)) ∧
      ∀ i < N, (clearAfter spill N sub s bn (q - 1)).daddr bn i =
        if q ≤ i then 0 else s.daddr bn i := by
  rw [nodes_succ hbn] at hnodup
  obtain ⟨htop, hkids⟩ := List.nodup_cons.1 hnodup
  set s₁ : Blocks :=
    { s with
      daddr := Function.update s.daddr bn fun i =>
        if (i : ℤ) > q - 1 ∧ i < N then 0 else s.daddr bn i
      overrun := s.overrun || decide ((q : ℤ) - 1 + 1 > N) } with hs₁
  have hclear : Frees [] [bn] s s₁ := by
    refine ⟨.refl _, ?_, fun x hx => Function.update_of_ne (List.ne_of_not_mem_cons hx) _ _⟩
    have hle : ¬(q : ℤ) - 1 + 1 > N := by omega
    rw [hs₁]
    dsimp only
    rw [decide_eq_false hle, Bool.or_false]
  have hsame : ∀ i ∈ List.range N, nodes N s₁.daddr h (s.daddr bn i) (base + i * N ^ h) =
      nodes N s.daddr h (s.daddr bn i) (base + i * N ^ h) := by
    refine fun i hi => hclear.nodes_eq fun x hx hxbn => htop ?_
    obtain ⟨n, hn, hnx⟩ := List.mem_map.1 hx
    exact List.mem_map.2 ⟨n, List.mem_flatMap.2 ⟨i, hi, hn⟩, hnx.trans (List.mem_singleton.1 hxbn)⟩
  have hpart : ((List.range N).flatMap fun i => if q ≤ i then
      nodes N s₁.daddr h (s.daddr bn i) (base + i * N ^ h) else []) =
      (List.range N).flatMap fun i =>
        if q ≤ i then nodes N s.daddr h (s.daddr bn i) (base + i * N ^ h) else [] :=
    List.flatMap_congr fun i hi => by rw [hsame i hi]
  have hloop := freeLoop_spec spill hsub (s.daddr bn) q (s := s₁)
    (by rwa [List.flatMap_congr hsame])
  rw [hpart] at hloop
  have hself : bn ∉ blocks ((List.range N).flatMap fun i =>
      if q ≤ i then nodes N s.daddr h (s.daddr bn i) (base + i * N ^ h) else []) := by
    intro hmem
    obtain ⟨n, hn, hnbn⟩ := List.mem_map.1 hmem
    obtain ⟨i, hi, hn⟩ := List.mem_flatMap.1 hn
    by_cases hqi : q ≤ i
    · rw [if_pos hqi] at hn
      exact htop (List.mem_map.2 ⟨n, List.mem_flatMap.2 ⟨i, hi, hn⟩, hnbn⟩)
    · rw [if_neg hqi] at hn
      cases hn
  refine ⟨(hclear.trans hloop).perm (by rw [List.append_nil]), fun i hi => ?_⟩
  have hrow : (clearAfter spill N sub s bn (q - 1)).daddr bn = s₁.daddr bn := hloop.frame bn hself
  rw [hrow, hs₁]
  dsimp only
  rw [Function.update_self]
  exact if_congr (by omega) rfl rfl

/-! ## Below an indirect block -/

/-- The tree of height `h` in the block `bn` keeps its blocks before the index `c`, and its top;
    the others have been freed. -/
structure Trims (N h bn base c : ℕ) (s s' : Blocks) : Prop where
  frees : Frees (blocks ((nodes N s.daddr h bn base).tail.filter (c ≤ ·.base)))
    (blocks (nodes N s.daddr h bn base)) s s'
  kept : (nodes N s'.daddr h bn base).tail = (nodes N s.daddr h bn base).tail.filter (·.base < c)

theorem tail_subset {d : Store} {h b base : ℕ} :
    (nodes N d h b base).tail ⊆ nodes N d h b base := fun _ hn => List.mem_of_mem_tail hn

variable (spill) in
/-- Where no address is kept, all that is below the block is freed. -/
theorem clearAfter_all {h bn base : ℕ} {s : Blocks} {sub : Blocks → ℕ → Blocks}
    (hsub : FreesBelow N h sub) (hbn : bn ≠ 0)
    (hnodup : (blocks (nodes N s.daddr (h + 1) bn base)).Nodup) :
    Trims N (h + 1) bn base base s (clearAfter spill N sub s bn (-1)) := by
  obtain ⟨hfrees, hrow⟩ := clearAfter_spec spill hsub hbn N.zero_le hnodup
  simp only [Nat.zero_le, if_true, Nat.cast_zero, zero_sub] at hfrees hrow
  have hall : ∀ n ∈ kids N s.daddr h bn base, base ≤ n.base := by
    intro n hn
    have hn' := List.mem_cons_of_mem ⟨h + 1, base, bn⟩ hn
    rw [← nodes_succ hbn] at hn'
    exact (mem_nodes_range hn').1
  refine ⟨?_, ?_⟩
  · rw [nodes_succ hbn, List.tail_cons, List.filter_eq_self.2 (by simpa using hall)]
    refine hfrees.mono fun x hx => ?_
    rcases List.mem_append.1 hx with hx | hx
    · exact List.mem_cons_of_mem _ hx
    · exact (List.mem_singleton.1 hx : x = bn) ▸ List.mem_cons_self
  · rw [nodes_succ hbn, nodes_succ hbn, List.tail_cons, List.tail_cons,
      List.filter_eq_nil_iff.2 (by simpa using hall), List.flatMap_eq_nil_iff]
    intro i hi
    rw [hrow i (List.mem_range.1 hi), nodes_zero_block]

theorem freesBelow_zero : FreesBelow N 0 fun s _ => s := by
  intro s nb base hnb _
  rw [nodes_zero hnb]
  exact .refl _ s

variable (spill) in
/-- Frees all that is below a block. -/
theorem freesBelow_indirtrunc (level : ℕ) :
    FreesBelow N (level + 1) fun s nb => indirtrunc good spill N level s nb (-1) := by
  have htrim {h nb base : ℕ} {s : Blocks} {sub : Blocks → ℕ → Blocks} (hsub : FreesBelow N h sub)
      (hnb : nb ≠ 0) (hnodup : (blocks (nodes N s.daddr (h + 1) nb base)).Nodup) :
      Frees (blocks (nodes N s.daddr (h + 1) nb base).tail)
        (blocks (nodes N s.daddr (h + 1) nb base)) s (clearAfter spill N sub s nb (-1)) := by
    have := (clearAfter_all spill hsub hnb hnodup).frees
    rwa [List.filter_eq_self.2] at this
    intro n hn
    simpa using (mem_nodes_range (tail_subset hn)).1
  induction level with
  | zero =>
    intro s nb base hnb hnodup
    exact htrim freesBelow_zero hnb hnodup
  | succ level ih =>
    intro s nb base hnb hnodup
    exact htrim ih hnb hnodup

variable (spill) in
/-- Where the last address that is kept is that of a tree that keeps some of its blocks. -/
theorem clearAfter_part {h bn base j c : ℕ} {s s' : Blocks} {sub : Blocks → ℕ → Blocks}
    (hsub : FreesBelow N h sub) (hN : 0 < N) (hbn : bn ≠ 0)
    (hnodup : (blocks (nodes N s.daddr (h + 1) bn base)).Nodup) (hj : j < N)
    (hlo : base + j * N ^ h < c) (hhi : c ≤ base + (j + 1) * N ^ h)
    (hfrees : Frees (blocks ((nodes N s.daddr h (s.daddr bn j) (base + j * N ^ h)).filter
        (c ≤ ·.base))) (blocks (nodes N s.daddr h (s.daddr bn j) (base + j * N ^ h)))
      (clearAfter spill N sub s bn j) s')
    (hkept : nodes N s'.daddr h (s.daddr bn j) (base + j * N ^ h) =
      (nodes N s.daddr h (s.daddr bn j) (base + j * N ^ h)).filter (·.base < c)) :
    Trims N (h + 1) bn base c s s' := by
  obtain ⟨hclear, hrow⟩ := clearAfter_spec spill hsub hbn hj hnodup
  have hcast : ((j + 1 : ℕ) : ℤ) - 1 = j := by omega
  rw [hcast] at hclear hrow
  have hnodup' := hnodup
  rw [nodes_succ hbn] at hnodup'
  obtain ⟨htop, hkids⟩ := List.nodup_cons.1 hnodup'
  have hj' := List.mem_range.2 hj
  have hafter : ∀ i ∈ List.range N, j < i →
      ∀ n ∈ nodes N s.daddr h (s.daddr bn i) (base + i * N ^ h), c ≤ n.base := by
    intro i _ hi n hn
    have := (mem_kid_range hN hn).1
    have := Nat.mul_le_mul_right (N ^ h) (Nat.succ_le_of_lt hi)
    rw [Nat.succ_eq_add_one] at this
    omega
  have hbefore : ∀ i ∈ List.range N, i < j →
      ∀ n ∈ nodes N s.daddr h (s.daddr bn i) (base + i * N ^ h), n.base < c := by
    intro i _ hi n hn
    have := (mem_kid_range hN hn).2
    have := Nat.mul_le_mul_right (N ^ h) (Nat.succ_le_of_lt hi)
    rw [Nat.succ_eq_add_one] at this
    omega
  -- The block itself is in none of the trees, so that its addresses are those that it has kept.
  have hself : bn ∉ blocks (nodes N s.daddr h (s.daddr bn j) (base + j * N ^ h)) := by
    intro hmem
    obtain ⟨n, hn, hnbn⟩ := List.mem_map.1 hmem
    exact htop (List.mem_map.2 ⟨n, List.mem_flatMap.2 ⟨j, hj', hn⟩, hnbn⟩)
  have hrow' : ∀ i < N, s'.daddr bn i = if j + 1 ≤ i then 0 else s.daddr bn i := by
    intro i hi
    rw [hfrees.frame bn hself, hrow i hi]
  refine ⟨?_, ?_⟩
  · rw [nodes_succ hbn, List.tail_cons]
    have hperm := filter_flatMap_perm List.nodup_range hj' hafter hbefore
    refine ((hclear.trans hfrees).mono fun x hx => ?_).perm ?_
    · rcases List.mem_append.1 hx with hx | hx
      · refine List.map_subset _ (fun n hn => ?_) hx
        exact List.mem_cons_of_mem _ (List.mem_flatMap.2 ⟨j, hj', hn⟩)
      rcases List.mem_append.1 hx with hx | hx
      · refine List.mem_cons_of_mem _ (List.map_subset _ (fun n hn => ?_) hx)
        obtain ⟨i, hi, hn⟩ := List.mem_flatMap.1 hn
        by_cases hji : j + 1 ≤ i
        · rw [if_pos hji] at hn
          exact List.mem_flatMap.2 ⟨i, hi, hn⟩
        · rw [if_neg hji] at hn
          cases hn
      · exact (List.mem_singleton.1 hx : x = bn) ▸ List.mem_cons_self
    · rw [← List.map_append]
      exact (hperm.map _).symm
  · rw [nodes_succ hbn, nodes_succ hbn, List.tail_cons, List.tail_cons]
    refine filter_flatMap_eq hafter hbefore (fun i hi hji => ?_) (fun i hi hij => ?_) ?_
    · rw [hrow' i (List.mem_range.1 hi), if_pos (Nat.succ_le_of_lt hji), nodes_zero_block]
    · rw [hrow' i (List.mem_range.1 hi), if_neg (by omega)]
      refine (hclear.trans hfrees).nodes_eq fun x hx hmem => ?_
      rcases List.mem_append.1 hmem with hmem | hmem
      · exact disjoint_of_nodup hkids hi hj' hij.ne hx hmem
      rcases List.mem_append.1 hmem with hmem | hmem
      · exact disjoint_after hkids hi (Nat.lt_succ_of_lt hij) hx hmem
      · obtain ⟨n, hn, hnx⟩ := List.mem_map.1 hx
        exact htop (List.mem_map.2 ⟨n, List.mem_flatMap.2 ⟨i, hi, hn⟩,
          hnx.trans (List.mem_singleton.1 hmem)⟩)
    · rw [hrow' j hj, if_neg (by omega)]
      exact hkept

/-- A tree of which only some blocks are kept: its top is among them. -/
theorem Trims.filter {h bn base c : ℕ} {s s' : Blocks} (ht : Trims N h bn base c s s')
    (hbn : bn ≠ 0) (hc : base < c) :
    Frees (blocks ((nodes N s.daddr h bn base).filter (c ≤ ·.base)))
        (blocks (nodes N s.daddr h bn base)) s s' ∧
      nodes N s'.daddr h bn base = (nodes N s.daddr h bn base).filter (·.base < c) := by
  have hfrees := ht.frees
  have hkept := ht.kept
  rw [nodes_eq_cons (d := s'.daddr) hbn, hkept]
  set l := nodes N s.daddr h bn base with hl
  have hcons : l = ⟨h, base, bn⟩ :: l.tail := nodes_eq_cons hbn
  rw [hcons, List.filter_cons_of_neg (by simpa using hc),
    List.filter_cons_of_pos (by simpa using hc), ← hcons]
  exact ⟨hfrees, rfl⟩

theorem lastIndex_eq (k p : ℕ) : lastIndex k p = (k / p : ℕ) := by
  rw [lastIndex]
  split_ifs with hk
  · exact (Int.natCast_div k p).symm
  · obtain rfl : k = 0 := by omega
    rw [Nat.zero_div]

variable (spill) in
/-- What `indirtrunc` frees below an indirect block of which `k` blocks are kept. -/
theorem indirtrunc_spec (hN : 0 < N) {level bn base k : ℕ} {s : Blocks} (hbn : bn ≠ 0)
    (hnodup : (blocks (nodes N s.daddr (level + 1) bn base)).Nodup) (hk : k ≤ N ^ (level + 1)) :
    Trims N (level + 1) bn base (base + k) s (indirtrunc good spill N level s bn (k - 1)) := by
  induction level generalizing bn base k s with
  | zero =>
    cases k with
    | zero => exact clearAfter_all spill freesBelow_zero hbn hnodup
    | succ k =>
      have hlast : lastIndex (((k + 1 : ℕ) : ℤ) - 1) 1 = k := by
        have := lastIndex_eq k 1
        rw [Nat.div_one] at this
        rw [← this]
        congr 1
        omega
      rw [indirtrunc, if_neg Bool.false_ne_true, hlast]
      have hbelow : ∀ n ∈ nodes N s.daddr 0 (s.daddr bn k) (base + k * N ^ 0),
          n.base < base + (k + 1) := by
        intro n hn
        have := (mem_kid_range hN hn).2
        rw [pow_zero] at this
        omega
      rw [zero_add, pow_one] at hk
      refine clearAfter_part spill freesBelow_zero hN hbn hnodup hk (by rw [pow_zero]; omega)
        (by rw [pow_zero]; omega) ?_ ?_
      · rw [List.filter_eq_nil_iff.2 (by simpa using hbelow)]
        exact .refl _ _
      · rw [List.filter_eq_self.2 (by simpa using hbelow)]
        rfl
  | succ level ih =>
    cases k with
    | zero => exact clearAfter_all spill (freesBelow_indirtrunc spill level) hbn hnodup
    | succ k =>
      set p := N ^ (level + 1) with hp
      have hppos : 0 < p := Nat.pow_pos hN
      have hcast : ((k + 1 : ℕ) : ℤ) - 1 = k := by omega
      have hj : k / p < N := by
        rw [Nat.div_lt_iff_lt_mul hppos, mul_comm, ← pow_succ]
        exact hk
      have hmin : (min ((k / p : ℕ) : ℤ) (N - 1)).toNat = k / p := by
        rw [min_eq_left (by omega), Int.toNat_natCast]
      have hdiv : k / p * p + k % p = k := by rw [mul_comm]; exact Nat.div_add_mod k p
      have hmod : (k : ℤ) % (p : ℕ) = ((k % p + 1 : ℕ) : ℤ) - 1 := by
        rw [← Int.natCast_mod]
        omega
      have hr := Nat.mod_lt k hppos
      rw [indirtrunc, if_neg Bool.false_ne_true]
      dsimp only
      rw [hcast, lastIndex_eq, ← hp, if_pos (by omega), hmin, hmod]
      have hnodup' := hnodup
      rw [nodes_succ hbn] at hnodup'
      obtain ⟨htop, hkids⟩ := List.nodup_cons.1 hnodup'
      have hlo : base + k / p * p < base + (k + 1) := by omega
      have hhi : base + (k + 1) ≤ base + (k / p + 1) * p := by
        rw [Nat.succ_mul]
        omega
      -- The tree that is kept in part is still there when it comes to it.
      have hsame : nodes N (clearAfter spill N
          (fun s nb => indirtrunc good spill N level s nb (-1)) s bn (k / p : ℕ)).daddr
          (level + 1) (s.daddr bn (k / p)) (base + k / p * p) =
          nodes N s.daddr (level + 1) (s.daddr bn (k / p)) (base + k / p * p) := by
        have hclear := (clearAfter_spec spill (freesBelow_indirtrunc spill level) hbn hj hnodup).1
        rw [show ((k / p).succ : ℤ) - 1 = (k / p : ℕ) by omega] at hclear
        refine hclear.nodes_eq fun x hx hmem => ?_
        rcases List.mem_append.1 hmem with hmem | hmem
        · exact disjoint_after hkids (List.mem_range.2 hj) (Nat.lt_succ_self _) hx hmem
        · obtain ⟨n, hn, hnx⟩ := List.mem_map.1 hx
          exact htop (List.mem_map.2 ⟨n, List.mem_flatMap.2 ⟨_, List.mem_range.2 hj, hn⟩,
            hnx.trans (List.mem_singleton.1 hmem)⟩)
      by_cases hnb : s.daddr bn (k / p) = 0
      · rw [if_neg (not_not_intro hnb)]
        refine clearAfter_part spill (freesBelow_indirtrunc spill level) hN hbn hnodup hj hlo hhi
          ?_ ?_
        · rw [hnb, nodes_zero_block]
          exact .refl _ _
        · rw [hnb, nodes_zero_block, nodes_zero_block]
          rfl
      · rw [if_pos hnb]
        have hnodup₁ := nodup_of_mem hkids (List.mem_range.2 hj)
        rw [← hsame] at hnodup₁
        have hpart := ih hnb hnodup₁ (Nat.succ_le_of_lt hr)
        have hc : base + k / p * p + (k % p + 1) = base + (k + 1) := by omega
        rw [hc] at hpart
        obtain ⟨hfrees, hkept⟩ := hpart.filter hnb hlo
        rw [hsame] at hfrees hkept
        exact clearAfter_part spill (freesBelow_indirtrunc spill level) hN hbn hnodup hj hlo hhi
          hfrees hkept

/-! ## The trees of a file -/

/-- The first index of the next tree of a file. -/
theorem rootBase_succ {i : ℕ} (hi : i + 1 < NADDR) :
    rootBase N (i + 1) = rootBase N i + N ^ rootHeight i := by
  have hNADDR : NADDR = 13 := rfl
  have hNDADDR : NDADDR = 10 := rfl
  have hcases : i < 10 ∨ i = 10 ∨ i = 11 := by omega
  rcases hcases with hi | rfl | rfl
  · have hheight : rootHeight i = 0 := by
      rw [rootHeight]
      omega
    rw [rootBase, rootBase, if_pos (by omega), if_pos (by omega), hheight, pow_zero]
  · simp [rootBase, rootHeight, hNDADDR]
  · simp [rootBase, rootHeight, hNDADDR]

/-- The trees of a file follow each other. -/
theorem rootBase_lt {i j : ℕ} (hij : i < j) (hj : j < NADDR) :
    rootBase N i + N ^ rootHeight i ≤ rootBase N j := by
  induction j, hij using Nat.le_induction with
  | base => rw [rootBase_succ hj]
  | succ j _ ih =>
    have := ih (by omega)
    rw [rootBase_succ hj]
    omega

/-- The blocks of a tree of a file are in its range. -/
theorem mem_root_range (hN : 0 < N) {d : Store} {b i : ℕ} {n : Node}
    (hn : n ∈ nodes N d (rootHeight i) b (rootBase N i)) :
    rootBase N i ≤ n.base ∧ n.base < rootBase N i + N ^ rootHeight i := by
  obtain ⟨hlo, hhi, -⟩ := mem_nodes_range hn
  have hpos : 0 < N ^ n.height := Nat.pow_pos hN
  omega

section File

variable (N) in
/-- The tree at a place of the inode, as it is at first. -/
abbrev tree (addr₀ : ℕ → ℕ) (s₀ : Blocks) (i : ℕ) : List Node :=
  nodes N s₀.daddr (rootHeight i) (addr₀ i) (rootBase N i)

variable {addr₀ addr : ℕ → ℕ} {s₀ s s' : Blocks} {m cut : ℕ}

/-- The trees from the place `m` on have been freed. -/
structure Cleared (N : ℕ) (addr₀ : ℕ → ℕ) (s₀ : Blocks) (m : ℕ) (addr : ℕ → ℕ) (s : Blocks) :
    Prop where
  frees : Frees
    (blocks ((List.range NADDR).flatMap fun i => if m ≤ i then tree N addr₀ s₀ i else []))
    (blocks ((List.range NADDR).flatMap fun i => if m ≤ i then tree N addr₀ s₀ i else [])) s₀ s
  addr_eq : ∀ i < NADDR, addr i = if m ≤ i then 0 else addr₀ i

/-- The blocks from the index `cut` on have been freed, and the others are there. -/
structure Kept (N : ℕ) (addr₀ : ℕ → ℕ) (s₀ : Blocks) (cut : ℕ) (addr : ℕ → ℕ) (s : Blocks) :
    Prop where
  freed : s.freed.Perm (blocks ((forest N addr₀ s₀.daddr).filter (cut ≤ ·.base)) ++ s₀.freed)
  overrun : s.overrun = s₀.overrun
  addr_eq : ∀ i < NADDR, addr i = if cut ≤ rootBase N i then 0 else addr₀ i
  kept : forest N addr s.daddr = (forest N addr₀ s₀.daddr).filter (·.base < cut)

/-- The trees that have not been freed are as they were. -/
theorem Cleared.tree_eq (hnodup : (blocks (forest N addr₀ s₀.daddr)).Nodup)
    (hc : Cleared N addr₀ s₀ m addr s) {i : ℕ} (hi : i < NADDR) (him : i < m) :
    tree N addr₀ s i = tree N addr₀ s₀ i :=
  hc.frees.nodes_eq (disjoint_after hnodup (List.mem_range.2 hi) him)

/-- One more tree is freed. -/
theorem Cleared.tree (hm : m < NADDR) (hc : Cleared N addr₀ s₀ (m + 1) addr s)
    (hs : Frees (blocks (Itrunc.tree N addr₀ s₀ m)) (blocks (Itrunc.tree N addr₀ s₀ m)) s s') :
    Cleared N addr₀ s₀ m (Function.update addr m 0) s' := by
  have hperm : ((List.range NADDR).flatMap fun i =>
      if m ≤ i then Itrunc.tree N addr₀ s₀ i else []).Perm
        (Itrunc.tree N addr₀ s₀ m ++ (List.range NADDR).flatMap fun i =>
          if m + 1 ≤ i then Itrunc.tree N addr₀ s₀ i else []) := by
    refine flatMap_perm_at List.nodup_range (List.mem_range.2 hm) ?_ fun i _ hne => ?_
    · rw [if_pos le_rfl, if_neg (by omega), List.append_nil]
    · exact if_congr (by omega) rfl rfl
  have hblocks := hperm.map Node.block
  rw [List.map_append] at hblocks
  refine ⟨((hc.frees.trans hs).perm hblocks.symm).mono fun x hx => hblocks.mem_iff.2 hx, ?_⟩
  intro i hi
  by_cases him : i = m
  · subst him
    rw [Function.update_self, if_pos le_rfl]
  · rw [Function.update_of_ne him, hc.addr_eq i hi]
    exact if_congr (by omega) rfl rfl

/-- One more place of the inode has no tree. -/
theorem Cleared.empty (hm : m < NADDR) (hc : Cleared N addr₀ s₀ (m + 1) addr s)
    (h₀ : addr₀ m = 0) : Cleared N addr₀ s₀ m addr s := by
  have hnil : Itrunc.tree N addr₀ s₀ m = [] := by rw [Itrunc.tree, h₀, nodes_zero_block]
  have hsame : Frees (blocks (Itrunc.tree N addr₀ s₀ m))
      (blocks (Itrunc.tree N addr₀ s₀ m)) s s := by
    rw [hnil]
    exact .refl _ s
  have hcleared := hc.tree hm hsame
  have haddr : addr m = 0 := by rw [hc.addr_eq m hm, if_neg (by omega), h₀]
  rwa [← haddr, Function.update_eq_self] at hcleared

/-- No tree is kept in part. -/
theorem Cleared.kept (hN : 0 < N) (hnodup : (blocks (forest N addr₀ s₀.daddr)).Nodup)
    (hc : Cleared N addr₀ s₀ m addr s) (hafter : ∀ i < NADDR, m ≤ i → cut ≤ rootBase N i)
    (hbefore : ∀ i < NADDR, i < m → rootBase N i + N ^ rootHeight i ≤ cut) :
    Kept N addr₀ s₀ cut addr s := by
  have hpow (i : ℕ) : 0 < N ^ rootHeight i := Nat.pow_pos hN
  obtain ⟨hge, hlt⟩ := filter_flatMap_split (l := List.range NADDR) (m := m) (c := cut)
    (f := Itrunc.tree N addr₀ s₀)
    (fun i hi hmi n hn => (hafter i (List.mem_range.1 hi) hmi).trans (mem_root_range hN hn).1)
    fun i hi him n hn =>
      (mem_root_range hN hn).2.trans_le (hbefore i (List.mem_range.1 hi) him)
  refine ⟨?_, hc.frees.overrun, fun i hi => ?_, ?_⟩
  · rw [forest, hge]
    exact hc.frees.freed
  · rw [hc.addr_eq i hi]
    refine if_congr ⟨hafter i hi, fun h => ?_⟩ rfl rfl
    by_contra him
    have := hbefore i hi (by omega)
    have := hpow i
    omega
  · rw [forest, forest, hlt]
    refine List.flatMap_congr fun i hi => ?_
    rw [hc.addr_eq i (List.mem_range.1 hi)]
    split_ifs with hmi
    · exact nodes_zero_block ..
    · exact hc.tree_eq hnodup (List.mem_range.1 hi) (by omega)

/-- The tree at the place `m` is kept in part. -/
theorem Cleared.part (hN : 0 < N) (hnodup : (blocks (forest N addr₀ s₀.daddr)).Nodup)
    (hm : m < NADDR) (hc : Cleared N addr₀ s₀ (m + 1) addr s)
    (hafter : ∀ i < NADDR, m < i → cut ≤ rootBase N i) (hcut : rootBase N m < cut)
    (hfrees : Frees (blocks ((Itrunc.tree N addr₀ s₀ m).filter (cut ≤ ·.base)))
      (blocks (Itrunc.tree N addr₀ s₀ m)) s s')
    (hkept : Itrunc.tree N addr₀ s' m = (Itrunc.tree N addr₀ s₀ m).filter (·.base < cut)) :
    Kept N addr₀ s₀ cut addr s' := by
  have hm' := List.mem_range.2 hm
  have hlow : ∀ i < m, rootBase N i + N ^ rootHeight i ≤ cut := fun i hi =>
    (rootBase_lt hi hm).trans hcut.le
  have hpow (i : ℕ) : 0 < N ^ rootHeight i := Nat.pow_pos hN
  have hge : ∀ i ∈ List.range NADDR, m < i → ∀ n ∈ Itrunc.tree N addr₀ s₀ i, cut ≤ n.base :=
    fun i hi hmi n hn => (hafter i (List.mem_range.1 hi) hmi).trans (mem_root_range hN hn).1
  have hlt : ∀ i ∈ List.range NADDR, i < m → ∀ n ∈ Itrunc.tree N addr₀ s₀ i, n.base < cut :=
    fun i hi him n hn => (mem_root_range hN hn).2.trans_le (hlow i him)
  have haddr : ∀ i < NADDR, addr i = if cut ≤ rootBase N i then 0 else addr₀ i := by
    intro i hi
    rw [hc.addr_eq i hi]
    refine if_congr ⟨hafter i hi, fun h => ?_⟩ rfl rfl
    rcases lt_trichotomy i m with him | rfl | hmi
    · have := hlow i him
      have := hpow i
      omega
    · omega
    · exact hmi
  refine ⟨?_, hfrees.overrun.trans hc.frees.overrun, haddr, ?_⟩
  · refine (hc.frees.trans hfrees).freed.trans (List.Perm.append_right _ ?_)
    rw [← List.map_append]
    exact ((filter_flatMap_perm List.nodup_range hm' hge hlt).map _).symm
  · rw [forest, forest]
    refine filter_flatMap_eq hge hlt (fun i hi hmi => ?_) (fun i hi him => ?_) ?_
    · rw [hc.addr_eq i (List.mem_range.1 hi), if_pos (by omega), nodes_zero_block]
    · rw [hc.addr_eq i (List.mem_range.1 hi), if_neg (by omega)]
      have hsame := hc.tree_eq hnodup (List.mem_range.1 hi) (Nat.lt_succ_of_lt him)
      have hdisj : List.Disjoint (blocks (Itrunc.tree N addr₀ s i))
          (blocks (Itrunc.tree N addr₀ s₀ m)) := by
        rw [hsame]
        exact disjoint_of_nodup hnodup hi hm' him.ne
      exact (hfrees.nodes_eq hdisj).trans hsame
    · rw [hc.addr_eq m hm, if_neg (by omega)]
      exact hkept

/-! ## The loops of `itrunc` -/

/-- The loop over the direct blocks, with `cut` blocks to be kept. -/
theorem directs_spec (hN : 0 < N) (hnodup : (blocks (forest N addr₀ s₀.daddr)).Nodup) {n : ℕ}
    (hn : n ≤ NDADDR) (hc : Cleared N addr₀ s₀ n addr s)
    (hafter : ∀ i < NADDR, n ≤ i → cut ≤ rootBase N i) :
    Kept N addr₀ s₀ cut (directs spill (cut - 1) n addr s).1
      (directs spill (cut - 1) n addr s).2 := by
  have hNADDR : NADDR = 13 := rfl
  have hNDADDR : NDADDR = 10 := rfl
  induction n generalizing addr s with
  | zero => exact hc.kept hN hnodup hafter fun i _ hi => absurd hi (Nat.not_lt_zero i)
  | succ n ih =>
    have hheight : rootHeight n = 0 := by
      rw [rootHeight]
      omega
    have hbase : rootBase N n = n := if_pos (by omega)
    rw [directs]
    by_cases hcut : cut ≤ n
    · have hafter' : ∀ i < NADDR, n ≤ i → cut ≤ rootBase N i := by
        intro i hi hni
        rcases hni.eq_or_lt with rfl | hlt
        · rwa [hbase]
        · exact hafter i hi hlt
      have haddr : addr n = addr₀ n := by rw [hc.addr_eq n (by omega), if_neg (by omega)]
      rw [if_pos (by omega), haddr]
      by_cases h₀ : addr₀ n = 0
      · rw [if_pos h₀]
        exact ih (by omega) (hc.empty (by omega) h₀) hafter'
      · rw [if_neg h₀]
        refine ih (by omega) (hc.tree (by omega) ?_) hafter'
        rw [Itrunc.tree, hheight, nodes_zero h₀]
        exact free_spec spill s (addr₀ n)
    · rw [if_neg (by omega)]
      refine hc.kept hN hnodup hafter fun i hi hin => ?_
      have hbase' : rootBase N i = i := if_pos (by omega)
      have hheight' : rootHeight i = 0 := by
        rw [rootHeight]
        omega
      rw [hbase', hheight', pow_zero]
      omega

/-- The loop over the indirect blocks, with `cut` blocks to be kept. -/
theorem indirects_spec (hN : 0 < N) (hnodup : (blocks (forest N addr₀ s₀.daddr)).Nodup)
    {lastiblock : ℕ → ℤ} (hlast : ∀ level < NIADDR, lastiblock level =
      if cut ≤ rootBase N (NDADDR + level) then (-1 : ℤ)
      else cut - rootBase N (NDADDR + level) - 1)
    {n : ℕ} (hn : n ≤ NIADDR) (hc : Cleared N addr₀ s₀ (NDADDR + n) addr s)
    (hafter : ∀ i < NADDR, NDADDR + n ≤ i → cut ≤ rootBase N i)
    (hfit : ∀ level, n = level + 1 → cut ≤ rootBase N (NDADDR + level) + N ^ n ∨
      addr₀ (NDADDR + level) = 0) {i_addr : ℕ → ℕ} {done : Bool}
    (h : indirects good spill N lastiblock n addr s = (i_addr, s', done)) :
    done = true ∧ Kept N addr₀ s₀ cut i_addr s' ∨
      done = false ∧ Cleared N addr₀ s₀ NDADDR i_addr s' ∧
        ∀ i < NADDR, NDADDR ≤ i → cut ≤ rootBase N i := by
  have hNADDR : NADDR = 13 := rfl
  have hNIADDR : NIADDR = 3 := rfl
  have hNDADDR : NDADDR = 10 := rfl
  induction n generalizing addr s with
  | zero =>
    cases h
    exact .inr ⟨rfl, hc, hafter⟩
  | succ level ih =>
    have hlevel := hlast level (by omega)
    have hheight : rootHeight (NDADDR + level) = level + 1 := by
      rw [rootHeight]
      omega
    have haddr : addr (NDADDR + level) = addr₀ (NDADDR + level) := by
      rw [hc.addr_eq _ (by omega), if_neg (by omega)]
    have hslot : NDADDR + level < NADDR := by omega
    have htree := hc.tree_eq hnodup hslot (Nat.lt_succ_self _)
    have htreedup := nodup_of_mem hnodup (List.mem_range.2 hslot)
    rw [Itrunc.tree, Itrunc.tree, hheight] at htree
    rw [hheight] at htreedup
    rw [indirects] at h
    dsimp only at h
    rw [haddr] at h
    by_cases hcut : cut ≤ rootBase N (NDADDR + level)
    · rw [if_pos hcut] at hlevel
      have hafter' : ∀ i < NADDR, NDADDR + level ≤ i → cut ≤ rootBase N i := by
        intro i hi hle
        rcases hle.eq_or_lt with rfl | hlt
        · exact hcut
        · exact hafter i hi hlt
      have hfit' : ∀ l, level = l + 1 → cut ≤ rootBase N (NDADDR + l) + N ^ level ∨
          addr₀ (NDADDR + l) = 0 := by
        rintro l rfl
        have hsucc := rootBase_succ (N := N) (i := NDADDR + l) (by omega)
        have hheight' : rootHeight (NDADDR + l) = l + 1 := by
          rw [rootHeight]
          omega
        rw [hheight'] at hsucc
        exact .inl (hsucc ▸ hcut)
      rw [hlevel, if_pos (by decide : (-1 : ℤ) < 0)] at h
      by_cases h₀ : addr₀ (NDADDR + level) = 0
      · rw [h₀] at h
        exact ih (by omega) (hc.empty hslot h₀) hafter' hfit' h
      · rw [if_pos h₀] at h
        refine ih (by omega) (hc.tree hslot ?_) hafter' hfit' h
        have hfree := free_tree spill h₀
          (freesBelow_indirtrunc spill level s _ _ h₀ (htree ▸ htreedup))
        rw [htree] at hfree
        rw [Itrunc.tree, hheight]
        exact hfree
    · rw [if_neg hcut] at hlevel
      have hnonneg : ¬lastiblock level < 0 := by omega
      left
      by_cases h₀ : addr₀ (NDADDR + level) = 0
      · rw [h₀, if_neg (not_not_intro rfl), if_pos (not_lt.1 hnonneg)] at h
        cases h
        have hnil : ∀ t : Blocks, Itrunc.tree N addr₀ t (NDADDR + level) = [] := by
          intro t
          rw [Itrunc.tree, h₀, nodes_zero_block]
        refine ⟨rfl, hc.part hN hnodup hslot hafter (by omega) ?_ ?_⟩
        · rw [hnil]
          exact .refl _ _
        · rw [hnil, hnil]
          rfl
      · rw [if_pos h₀, if_neg hnonneg, if_pos (not_lt.1 hnonneg)] at h
        cases h
        have hk : cut - rootBase N (NDADDR + level) ≤ N ^ (level + 1) := by
          rcases hfit level rfl with hfit | hfit
          · omega
          · exact absurd hfit h₀
        have hspec := indirtrunc_spec spill hN h₀ (htree ▸ htreedup) hk
        have hcast : ((cut - rootBase N (NDADDR + level) : ℕ) : ℤ) - 1 = lastiblock level := by
          omega
        rw [hcast, Nat.add_sub_cancel' (by omega)] at hspec
        obtain ⟨hfrees, hkept⟩ := hspec.filter h₀ (by omega)
        rw [htree] at hfrees hkept
        refine ⟨rfl, hc.part hN hnodup hslot hafter (by omega) ?_ ?_⟩
        · rw [Itrunc.tree, hheight]
          exact hfrees
        · rw [Itrunc.tree, Itrunc.tree, hheight]
          exact hkept

end File

/-! ## Overruns -/

theorem freeLoop_overrun {sub : Blocks → ℕ → Blocks}
    (hsub : ∀ s nb, s.overrun = true → (sub s nb).overrun = true) (bap : ℕ → ℕ) (last : ℤ) (n : ℕ)
    {s : Blocks} (hs : s.overrun = true) :
    (freeLoop spill sub bap last n s).overrun = true := by
  induction n generalizing s with
  | zero => exact hs
  | succ n ih =>
    rw [freeLoop]
    split_ifs with hn hbap
    · exact ih hs
    · exact ih (hsub s _ hs)
    · exact hs

theorem clearAfter_overrun {sub : Blocks → ℕ → Blocks}
    (hsub : ∀ s nb, s.overrun = true → (sub s nb).overrun = true) {s : Blocks} {bn : ℕ} {last : ℤ}
    (hs : s.overrun = true ∨ last + 1 > N) : (clearAfter spill N sub s bn last).overrun = true := by
  refine freeLoop_overrun hsub _ _ _ ?_
  rcases hs with hs | hs <;> simp [hs]

theorem indirtrunc_overrun {level bn : ℕ} {s : Blocks} {lastbn : ℤ} (hs : s.overrun = true) :
    (indirtrunc good spill N level s bn lastbn).overrun = true := by
  induction level generalizing bn lastbn s with
  | zero => exact clearAfter_overrun (fun _ _ h => h) (.inl hs)
  | succ level ih =>
    have hclear : (clearAfter spill N (fun s nb => indirtrunc good spill N level s nb (-1)) s bn
        (lastIndex lastbn (N ^ (level + 1) : ℕ))).overrun = true :=
      clearAfter_overrun (fun _ _ h => ih h) (.inl hs)
    rw [indirtrunc, if_neg Bool.false_ne_true]
    dsimp only
    split_ifs
    · exact ih hclear
    · exact hclear
    · exact hclear

/-- More blocks are to be kept than there are below the block. -/
theorem indirtrunc_overrun_of_lt (hN : 0 < N) {level bn k : ℕ} {s : Blocks}
    (hk : N ^ (level + 1) ≤ k) : (indirtrunc good spill N level s bn k).overrun = true := by
  have hpos : 0 < N ^ level := Nat.pow_pos hN
  have hlast : N ≤ k / N ^ level := by
    rw [Nat.le_div_iff_mul_le hpos, mul_comm, ← pow_succ]
    exact hk
  cases level with
  | zero =>
    rw [pow_zero, Nat.div_one] at hlast
    have := lastIndex_eq k 1
    rw [Nat.div_one] at this
    rw [indirtrunc, if_neg Bool.false_ne_true]
    refine clearAfter_overrun (fun _ _ h => h) (.inr ?_)
    rw [show (1 : ℤ) = (1 : ℕ) from rfl, this]
    omega
  | succ level =>
    have hclear : (clearAfter spill N (fun s nb => indirtrunc good spill N level s nb (-1)) s bn
        (lastIndex k (N ^ (level + 1) : ℕ))).overrun = true :=
      clearAfter_overrun (fun _ _ h => indirtrunc_overrun h) (.inr (by rw [lastIndex_eq]; omega))
    rw [indirtrunc, if_neg Bool.false_ne_true]
    dsimp only
    split_ifs
    · exact indirtrunc_overrun hclear
    · exact hclear
    · exact hclear

/-! ## A truncation -/

/-- The first logical block after the bytes that are kept. -/
def cutBlock (s_type length : ℕ) : ℕ := (length + FsBSIZE s_type - 1) / FsBSIZE s_type

/-- What a truncation is for: the data from the first block after the bytes that are kept, and
    the indirect blocks that have only such data below them, are freed once each, and the inode
    has the other ones. -/
structure Truncated (s_type : ℕ) (oip : Inode) (d : Store) (length : ℕ) (ip : Inode) (s : Blocks) :
    Prop where
  size : ip.i_size = min oip.i_size length
  freed : s.freed.Perm (blocks ((forest (FsNINDIR s_type) oip.i_addr d).filter
    (cutBlock s_type length ≤ ·.base)))
  kept : forest (FsNINDIR s_type) ip.i_addr s.daddr =
    (forest (FsNINDIR s_type) oip.i_addr d).filter (·.base < cutBlock s_type length)
  pointers : ∀ n ∈ forest (FsNINDIR s_type) ip.i_addr s.daddr, n.block ∉ s.freed
  overrun : s.overrun = false

/-- What is freed is not kept. -/
theorem not_mem_freed {l : List Node} (hl : (blocks l).Nodup) {cut : ℕ} {n : Node}
    (hn : n ∈ l.filter (·.base < cut)) : n.block ∉ blocks (l.filter (cut ≤ ·.base)) := by
  intro hmem
  obtain ⟨m, hm, he⟩ := List.mem_map.1 hmem
  rw [List.mem_filter] at hn hm
  have := eq_of_block_eq hl hn.1 hm.1 he.symm
  subst this
  have h₀ := hn.2
  have h₁ := hm.2
  simp only [decide_eq_true_eq] at h₀ h₁
  omega

theorem Kept.truncated {s_type : ℕ} {oip ip : Inode} {d : Store} {length : ℕ} {s : Blocks}
    {addr : ℕ → ℕ} (hnodup : (blocks (forest (FsNINDIR s_type) oip.i_addr d)).Nodup)
    (hk : Kept (FsNINDIR s_type) oip.i_addr ⟨d, [], false⟩ (cutBlock s_type length) addr s)
    (haddr : ∀ i < NADDR, addr i = ip.i_addr i) (hsize : ip.i_size = min oip.i_size length) :
    Truncated s_type oip d length ip s := by
  have hfreed := hk.freed
  rw [List.append_nil] at hfreed
  have hkept : forest (FsNINDIR s_type) ip.i_addr s.daddr =
      (forest (FsNINDIR s_type) oip.i_addr d).filter (·.base < cutBlock s_type length) := by
    rw [← hk.kept]
    refine List.flatMap_congr fun i hi => ?_
    rw [haddr i (List.mem_range.1 hi)]
  refine ⟨hsize, hfreed, hkept, fun n hn => ?_, hk.overrun⟩
  rw [hkept] at hn
  rw [hfreed.mem_iff]
  exact not_mem_freed hnodup hn

variable (spill) in
/-- A truncation to fewer bytes: the loop over the indirect blocks, and then, if none has been
    kept, that over the direct ones. -/
theorem itrunc_shrink (s_type : ℕ) {length : ℕ} {oip : Inode} (s : Blocks)
    (h : length < oip.i_size) :
    ∃ (ip : Inode) (lastiblock : ℕ → ℤ), ip.i_size = length ∧
      (∀ i < NADDR, ip.i_addr i = if cutBlock s_type length ≤ rootBase (FsNINDIR s_type) i then 0
        else oip.i_addr i) ∧
      (∀ level < NIADDR, lastiblock level =
        if cutBlock s_type length ≤ rootBase (FsNINDIR s_type) (NDADDR + level) then (-1 : ℤ)
        else cutBlock s_type length - rootBase (FsNINDIR s_type) (NDADDR + level) - 1) ∧
      ∀ i_addr s' done,
        indirects good spill (FsNINDIR s_type) lastiblock NIADDR oip.i_addr s = (i_addr, s', done) →
        ∀ res, (if done then (i_addr, s')
            else directs spill (cutBlock s_type length - 1) NDADDR i_addr s') = res →
          itrunc good spill s_type oip s length =
            if ∀ i < NADDR, res.1 i = ip.i_addr i then some (ip, res.2) else none := by
  have hNADDR : NADDR = 13 := rfl
  have hNIADDR : NIADDR = 3 := rfl
  have hNDADDR : NDADDR = 10 := rfl
  have hcut : FsBNO s_type (length + FsBSIZE s_type - 1) = cutBlock s_type length := FsBNO_eq _ _
  set cut := cutBlock s_type length with hcutdef
  set N := FsNINDIR s_type with hN
  set lastiblock : ℕ → ℤ := fun level =>
    let last : ℤ := if level = SINGLE then (cut : ℤ) - 1 - NDADDR
      else if level = DOUBLE then (cut : ℤ) - 1 - NDADDR - N
      else (cut : ℤ) - 1 - NDADDR - N - N * N
    if last < 0 then -1 else last with hlastdef
  have hlast : ∀ level < NIADDR, lastiblock level =
      if cut ≤ rootBase N (NDADDR + level) then (-1 : ℤ)
      else cut - rootBase N (NDADDR + level) - 1 := by
    intro level hlevel
    have hsq : ((N * N : ℕ) : ℤ) = N * N := Nat.cast_mul N N
    have hcases : level = 0 ∨ level = 1 ∨ level = 2 := by omega
    rcases hcases with rfl | rfl | rfl
    · have hbase : rootBase N (NDADDR + 0) = 10 := rfl
      have hvalue : lastiblock 0 = if (cut : ℤ) - 1 - NDADDR < 0 then -1
          else (cut : ℤ) - 1 - NDADDR := rfl
      rw [hbase, hvalue]
      split_ifs <;> omega
    · have hbase : rootBase N (NDADDR + 1) = 10 + N := rfl
      have hvalue : lastiblock 1 = if (cut : ℤ) - 1 - NDADDR - N < 0 then -1
          else (cut : ℤ) - 1 - NDADDR - N := rfl
      rw [hbase, hvalue]
      split_ifs <;> omega
    · have hbase : rootBase N (NDADDR + 2) = 10 + N + N * N := by rw [← sq]; rfl
      have hvalue : lastiblock 2 = if (cut : ℤ) - 1 - NDADDR - N - N * N < 0 then -1
          else (cut : ℤ) - 1 - NDADDR - N - N * N := rfl
      rw [hbase, hvalue, ← hsq]
      split_ifs <;> omega
  refine ⟨⟨fun i =>
      if i < NDADDR then if (i : ℤ) > (cut : ℤ) - 1 then 0 else oip.i_addr i
      else if lastiblock (i - NDADDR) < 0 then 0 else oip.i_addr i, length⟩,
    lastiblock, rfl, fun i hi => ?_, hlast, fun i_addr s' done hres res hdir => ?_⟩
  · dsimp only
    by_cases hdir : i < NDADDR
    · have hbase : rootBase N i = i := if_pos (by omega)
      rw [if_pos hdir, hbase]
      exact if_congr (by omega) rfl rfl
    · have hlevel := hlast (i - NDADDR) (by omega)
      rw [Nat.add_sub_cancel' (by omega)] at hlevel
      rw [if_neg hdir]
      refine if_congr ?_ rfl rfl
      rw [hlevel]
      split_ifs with hle <;> simp only [hle, iff_true, iff_false] <;> omega
  · unfold itrunc
    rw [if_neg (by omega)]
    dsimp only
    rw [hcut, ← hN]
    simp only [hlastdef] at hres ⊢
    rw [hres]
    dsimp only
    rw [hdir]

/-- At first, no tree has been freed. -/
theorem cleared_start (N : ℕ) (addr : ℕ → ℕ) (s : Blocks) :
    Cleared N addr s (NDADDR + NIADDR) addr s := by
  have hNADDR : NADDR = 13 := rfl
  have hNIADDR : NIADDR = 3 := rfl
  have hNDADDR : NDADDR = 10 := rfl
  have hnil : ((List.range NADDR).flatMap fun i =>
      if NDADDR + NIADDR ≤ i then tree N addr s i else []) = [] := by
    refine List.flatMap_eq_nil_iff.2 fun i hi => if_neg ?_
    have := List.mem_range.1 hi
    omega
  refine ⟨?_, fun i hi => (if_neg (by omega)).symm⟩
  rw [hnil]
  exact .refl _ s

variable (spill) in
/-- A truncation to fewer bytes does what it is for, if no more blocks are kept than a file can
    have. -/
theorem itrunc_truncated {s_type length : ℕ} {oip : Inode} {d : Store}
    (hnodup : (blocks (forest (FsNINDIR s_type) oip.i_addr d)).Nodup) (h : length < oip.i_size)
    (hfit : cutBlock s_type length ≤ maxBlocks (FsNINDIR s_type) ∨ oip.i_addr 12 = 0) :
    ∃ ip s, itrunc good spill s_type oip ⟨d, [], false⟩ length = some (ip, s) ∧
      Truncated s_type oip d length ip s := by
  have hNADDR : NADDR = 13 := rfl
  have hNDADDR : NDADDR = 10 := rfl
  have hN := FsNINDIR_pos s_type
  obtain ⟨ip, lastiblock, hsize, haddr, hlast, hrun⟩ :=
    itrunc_shrink spill s_type ⟨d, [], false⟩ h
  have hsize' : ip.i_size = min oip.i_size length := by omega
  rcases hres : indirects good spill (FsNINDIR s_type) lastiblock NIADDR oip.i_addr
    ⟨d, [], false⟩ with ⟨i_addr, s, done⟩
  have hfit' : ∀ level, NIADDR = level + 1 → cutBlock s_type length ≤
      rootBase (FsNINDIR s_type) (NDADDR + level) + FsNINDIR s_type ^ NIADDR ∨
        oip.i_addr (NDADDR + level) = 0 := by
    intro level hlevel
    obtain rfl : level = 2 := (Nat.succ.inj hlevel).symm
    rw [maxBlocks] at hfit
    have hbase : rootBase (FsNINDIR s_type) (NDADDR + 2) =
        10 + FsNINDIR s_type + FsNINDIR s_type ^ 2 := rfl
    rw [hbase, NIADDR]
    exact hfit
  -- Whichever loop comes last, the addresses it leaves are those in the inode.
  have hend : ∀ res : (ℕ → ℕ) × Blocks,
      Kept (FsNINDIR s_type) oip.i_addr ⟨d, [], false⟩ (cutBlock s_type length) res.1 res.2 →
      (if done then (i_addr, s)
        else directs spill (cutBlock s_type length - 1) NDADDR i_addr s) = res →
      ∃ ip s, itrunc good spill s_type oip ⟨d, [], false⟩ length = some (ip, s) ∧
        Truncated s_type oip d length ip s := by
    intro res hkept hdone
    have hsame : ∀ i < NADDR, res.1 i = ip.i_addr i := fun i hi => by
      rw [hkept.addr_eq i hi, haddr i hi]
    refine ⟨ip, res.2, ?_, hkept.truncated hnodup hsame hsize'⟩
    rw [hrun i_addr s done hres res hdone, if_pos hsame]
  have hnodup' : (blocks (forest (FsNINDIR s_type) oip.i_addr
      (Blocks.mk d [] false).daddr)).Nodup := hnodup
  have hbig : ∀ i < NADDR, NDADDR + NIADDR ≤ i → cutBlock s_type length ≤
      rootBase (FsNINDIR s_type) i := fun i hi hle => absurd hle (by simp only [NIADDR]; omega)
  rcases indirects_spec hN hnodup' hlast le_rfl (cleared_start _ _ _) hbig hfit' hres with
    ⟨rfl, hkept⟩ | ⟨rfl, hcleared, hafter⟩
  · exact hend (i_addr, s) hkept (if_pos rfl)
  · exact hend (directs spill (cutBlock s_type length - 1) NDADDR i_addr s)
      (directs_spec hN hnodup' le_rfl hcleared hafter) (if_neg Bool.false_ne_true)

variable (spill) in
/-- To keep more blocks than a file can have, with a triple indirect block, runs over other
    memory. -/
theorem itrunc_overrun {s_type length : ℕ} {oip ip : Inode} {s s' : Blocks}
    (h : length < oip.i_size) (hcut : maxBlocks (FsNINDIR s_type) < cutBlock s_type length)
    (haddr : oip.i_addr 12 ≠ 0) (hres : itrunc good spill s_type oip s length = some (ip, s')) :
    s'.overrun = true := by
  obtain ⟨ip', lastiblock, -, -, hlast, hrun⟩ := itrunc_shrink spill s_type s h
  have hbase : rootBase (FsNINDIR s_type) (NDADDR + 2) =
      10 + FsNINDIR s_type + FsNINDIR s_type ^ 2 := rfl
  have hlevel := hlast 2 (by decide)
  rw [maxBlocks] at hcut
  rw [hbase, if_neg (by omega)] at hlevel
  obtain ⟨k, hk⟩ : ∃ k : ℕ, k + (10 + FsNINDIR s_type + FsNINDIR s_type ^ 2) + 1 =
      cutBlock s_type length :=
    ⟨cutBlock s_type length - 1 - (10 + FsNINDIR s_type + FsNINDIR s_type ^ 2), by omega⟩
  have hvalue : lastiblock 2 = k := by omega
  have hind : indirects good spill (FsNINDIR s_type) lastiblock NIADDR oip.i_addr s =
      (oip.i_addr, indirtrunc good spill (FsNINDIR s_type) 2 s (oip.i_addr 12) k, true) := by
    rw [NIADDR, indirects]
    dsimp only
    have haddr' : oip.i_addr (NDADDR + 2) ≠ 0 := haddr
    have hnonneg : lastiblock 2 ≥ 0 := by omega
    rw [if_pos haddr', if_neg (not_lt.2 hnonneg), if_pos hnonneg, hvalue]
    rfl
  rw [hrun _ _ _ hind _ (if_pos rfl)] at hres
  obtain ⟨-, rfl⟩ := Prod.mk.inj (Option.some.inj (Option.ite_none_right_eq_some.1 hres).2)
  have hmany : FsNINDIR s_type ^ (2 + 1) ≤ k := by
    rw [show 2 + 1 = 3 from rfl]
    omega
  exact indirtrunc_overrun_of_lt (FsNINDIR_pos s_type) hmany

/-- A truncation frees what it should if and only if the file has more bytes than are to be
    kept, and not so many of these that they need more blocks than there are; or if there is
    nothing to be freed. -/
theorem truncates_iff (spill : List ℕ → ℕ → (ℕ → ℕ) → ℕ → ℕ) (s_type : ℕ) (oip : Inode) (d : Store)
    (length : ℕ) (hnodup : (blocks (forest (FsNINDIR s_type) oip.i_addr d)).Nodup) :
    (∃ ip s, itrunc good spill s_type oip ⟨d, [], false⟩ length = some (ip, s) ∧
      Truncated s_type oip d length ip s) ↔
    length < oip.i_size ∧
        (cutBlock s_type length ≤ maxBlocks (FsNINDIR s_type) ∨ oip.i_addr 12 = 0) ∨
      oip.i_size ≤ length ∧
        ∀ n ∈ forest (FsNINDIR s_type) oip.i_addr d, n.base < cutBlock s_type length := by
  constructor
  · rintro ⟨ip, s, hres, htrunc⟩
    rcases lt_or_ge length oip.i_size with h | h
    · refine .inl ⟨h, ?_⟩
      by_contra hcon
      rw [not_or, not_le] at hcon
      have := itrunc_overrun spill h hcon.1 hcon.2 hres
      rw [htrunc.overrun] at this
      cases this
    · refine .inr ⟨h, fun n hn => ?_⟩
      rw [itrunc, if_pos h] at hres
      cases hres
      rw [htrunc.kept] at hn
      simpa using (List.mem_filter.1 hn).2
  · rintro (⟨h, hfit⟩ | ⟨h, hbelow⟩)
    · exact itrunc_truncated spill hnodup h hfit
    · have hge : (forest (FsNINDIR s_type) oip.i_addr d).filter (cutBlock s_type length ≤ ·.base) =
          [] := by
        rw [List.filter_eq_nil_iff]
        intro n hn
        simpa using hbelow n hn
      have hlt : (forest (FsNINDIR s_type) oip.i_addr d).filter (·.base < cutBlock s_type length) =
          forest (FsNINDIR s_type) oip.i_addr d := by
        rw [List.filter_eq_self]
        intro n hn
        simpa using hbelow n hn
      refine ⟨oip, ⟨d, [], false⟩, if_pos h, ?_⟩
      refine ⟨(Nat.min_eq_left h).symm, ?_, hlt.symm, fun _ _ => List.not_mem_nil, rfl⟩
      rw [hge]
      exact .refl _

/-- A file of fourteen blocks, of which the first one and one below the indirect block are
    there, and only the first one is kept. -/
theorem truncates_iff_indirect :
    ∃ ip s, itrunc good (fun _ _ row => row) 1
        ⟨fun i => if i = 0 then 100 else if i = 10 then 101 else 0, 7168⟩
        ⟨fun b i => if b = 101 ∧ i = 3 then 102 else 0, [], false⟩ 512 = some (ip, s) ∧
      Truncated 1 ⟨fun i => if i = 0 then 100 else if i = 10 then 101 else 0, 7168⟩
        (fun b i => if b = 101 ∧ i = 3 then 102 else 0) 512 ip s :=
  (truncates_iff (fun _ _ row => row) 1
    ⟨fun i => if i = 0 then 100 else if i = 10 then 101 else 0, 7168⟩
    (fun b i => if b = 101 ∧ i = 3 then 102 else 0) 512 (by decide +kernel)).2
    (.inl ⟨by decide, .inl (by decide)⟩)

/-- A file without data has got an indirect block, and keeps it when it is truncated. -/
theorem not_truncates :
    ¬∃ ip s, itrunc good (fun _ _ row => row) 1 ⟨fun i => if i = 10 then 100 else 0, 0⟩
        ⟨fun _ _ => 0, [], false⟩ 0 = some (ip, s) ∧
      Truncated 1 ⟨fun i => if i = 10 then 100 else 0, 0⟩ (fun _ _ => 0) 0 ip s := by
  rintro ⟨ip, s, hres, htrunc⟩
  have hsame : itrunc good (fun _ _ row => row) 1 ⟨fun i => if i = 10 then 100 else 0, 0⟩
      ⟨fun _ _ => 0, [], false⟩ 0 =
      some (⟨fun i => if i = 10 then 100 else 0, 0⟩, ⟨fun _ _ => 0, [], false⟩) := if_pos le_rfl
  rw [hsame] at hres
  cases hres
  have hmem : (⟨1, 10, 100⟩ : Node) ∈
      forest (FsNINDIR 1) (fun i => if i = 10 then 100 else 0) fun _ _ => 0 := by
    refine List.mem_flatMap.2 ⟨10, by decide, ?_⟩
    rw [nodes_eq_cons (by decide)]
    exact List.mem_cons_self
  have hfreed := htrunc.freed.mem_iff (a := 100)
  have hin : 100 ∈ blocks ((forest (FsNINDIR 1) (fun i => if i = 10 then 100 else 0)
      fun _ _ => 0).filter (cutBlock 1 0 ≤ ·.base)) :=
    List.mem_map.2 ⟨_, List.mem_filter.2 ⟨hmem, by decide⟩, rfl⟩
  exact List.not_mem_nil (hfreed.2 hin)

end AuxKernel.Svfs.Itrunc
