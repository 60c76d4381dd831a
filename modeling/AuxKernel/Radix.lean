import Mathlib.Data.List.Nodup
import Mathlib.Data.List.Pairwise
import Mathlib.Data.List.Perm.Basic
import Mathlib.Tactic.Ring

/-!
# Radix trees in a store

A tree of radix `N` kept in numbered blocks: a store gives the slots of each block, and a slot
holds the number of a block, or `0`. A tree of height `0` is one block of data, and one of
height `h + 1` a block whose first `N` slots hold trees of height `h`. With a base, its
data blocks have the indices from the base on, `N ^ h` of them where none is missing.

* `nodes`: the blocks of a tree, each with its height and the first index below it;
* `lookup`: the data block at an index;
* `nodes_congr`: a tree depends only on the slots of its own blocks;
* `mem_nodes_leaf`: the data blocks of a tree are those that `lookup` finds;
* `nodes_adds`: what a tree gains when one of its slots does.
-/

namespace AuxKernel.Radix

/-- The slots of the blocks. -/
abbrev Store := ℕ → ℕ → ℕ

/-- A block in a tree: the height of the tree below it, and the first index there. -/
structure Node where
  height : ℕ
  base : ℕ
  block : ℕ
  deriving DecidableEq, Repr

variable (N : ℕ)

/-- The blocks of the tree of height `h` in the block `b`, from the top. -/
def nodes (d : Store) : (h b base : ℕ) → List Node
  | 0, b, base => if b = 0 then [] else [⟨0, base, b⟩]
  | h + 1, b, base =>
    if b = 0 then []
    else ⟨h + 1, base, b⟩ :: (List.range N).flatMap fun i => nodes d h (d b i) (base + i * N ^ h)

/-- The data block at an index, `0` where it is missing. -/
def lookup (d : Store) : (h b idx : ℕ) → ℕ
  | 0, b, _ => b
  | h + 1, b, idx => if b = 0 then 0 else lookup d h (d b (idx / N ^ h % N)) idx

variable {N} {d d' : Store} {h b base : ℕ}

/-- The blocks below the top. -/
abbrev kids (N : ℕ) (d : Store) (h b base : ℕ) : List Node :=
  (List.range N).flatMap fun i => nodes N d h (d b i) (base + i * N ^ h)

@[simp] theorem nodes_zero_block (d : Store) (h base : ℕ) : nodes N d h 0 base = [] := by
  cases h <;> simp [nodes]

theorem nodes_zero (hb : b ≠ 0) : nodes N d 0 b base = [⟨0, base, b⟩] := if_neg hb

theorem nodes_succ (hb : b ≠ 0) :
    nodes N d (h + 1) b base = ⟨h + 1, base, b⟩ :: kids N d h b base := if_neg hb

/-- A tree has its block on top. -/
theorem nodes_eq_cons (hb : b ≠ 0) :
    nodes N d h b base = ⟨h, base, b⟩ :: (nodes N d h b base).tail := by
  cases h with
  | zero => rw [nodes_zero hb, List.tail_cons]
  | succ h => rw [nodes_succ hb, List.tail_cons]

/-- The indices below a block of a tree are indices of the tree. -/
theorem mem_nodes_range {n : Node} (hn : n ∈ nodes N d h b base) :
    base ≤ n.base ∧ n.base + N ^ n.height ≤ base + N ^ h ∧ n.block ≠ 0 := by
  induction h generalizing b base with
  | zero =>
    by_cases hb : b = 0
    · simp [hb] at hn
    · rw [nodes_zero hb, List.mem_singleton] at hn
      subst hn
      exact ⟨le_rfl, le_rfl, hb⟩
  | succ h ih =>
    by_cases hb : b = 0
    · simp [hb] at hn
    · rw [nodes_succ hb, List.mem_cons] at hn
      rcases hn with rfl | hn
      · exact ⟨le_rfl, le_rfl, hb⟩
      · obtain ⟨i, hi, hn⟩ := List.mem_flatMap.1 hn
        obtain ⟨h₀, h₁, h₂⟩ := ih hn
        have hi := List.mem_range.1 hi
        have hpow : i * N ^ h + N ^ h ≤ N ^ (h + 1) := by
          rw [pow_succ, mul_comm (N ^ h), ← Nat.succ_mul]
          exact Nat.mul_le_mul_right _ hi
        exact ⟨by omega, by omega, h₂⟩

/-- A tree depends only on the slots of its blocks that are not data. -/
theorem nodes_congr (hd : ∀ n ∈ nodes N d h b base, n.height ≠ 0 → d' n.block = d n.block) :
    nodes N d' h b base = nodes N d h b base := by
  induction h generalizing b base with
  | zero => rfl
  | succ h ih =>
    by_cases hb : b = 0
    · simp [hb]
    · rw [nodes_succ hb] at hd ⊢
      rw [nodes_succ hb]
      have htop : d' b = d b := hd ⟨h + 1, base, b⟩ List.mem_cons_self h.succ_ne_zero
      refine congrArg _ (List.flatMap_congr fun i hi => ?_)
      rw [htop]
      exact ih fun n hn => hd n (List.mem_cons_of_mem _ (List.mem_flatMap.2 ⟨i, hi, hn⟩))

/-- The place of an index among the trees below the top. -/
theorem mod_pow_succ (idx h : ℕ) :
    idx % N ^ (h + 1) = idx / N ^ h % N * N ^ h + idx % N ^ h := by
  rw [pow_succ, Nat.mod_mul, add_comm, mul_comm]

/-- An index is in one of the trees below the top only. -/
theorem eq_of_between {i j r p : ℕ} (h₀ : i * p ≤ j * p + r) (h₁ : j * p + r < i * p + p)
    (hr : r < p) : i = j := by
  have h₂ : i * p < (j + 1) * p := by rw [Nat.succ_mul]; omega
  have h₃ : j * p < (i + 1) * p := by rw [Nat.succ_mul]; omega
  have := Nat.lt_of_mul_lt_mul_right h₂
  have := Nat.lt_of_mul_lt_mul_right h₃
  omega

/-- The data blocks of a tree are those found at its indices. -/
theorem mem_nodes_leaf (hN : 0 < N) {idx x : ℕ} :
    (⟨0, base + idx % N ^ h, x⟩ : Node) ∈ nodes N d h b base ↔
      lookup N d h b idx = x ∧ x ≠ 0 := by
  induction h generalizing b base with
  | zero =>
    rw [pow_zero, Nat.mod_one, Nat.add_zero, lookup]
    by_cases hb : b = 0
    · subst hb
      simp only [nodes_zero_block, List.not_mem_nil, false_iff]
      exact fun he => he.2 he.1.symm
    · rw [nodes_zero hb, List.mem_singleton, Node.mk.injEq]
      exact ⟨fun he => ⟨he.2.2.symm, he.2.2 ▸ hb⟩, fun he => ⟨rfl, rfl, he.1.symm⟩⟩
  | succ h ih =>
    rw [lookup]
    by_cases hb : b = 0
    · subst hb
      simp only [nodes_zero_block, List.not_mem_nil, if_true, false_iff]
      exact fun he => he.2 he.1.symm
    · rw [if_neg hb, nodes_succ hb, List.mem_cons, mod_pow_succ, ← add_assoc]
      have hpow : 0 < N ^ h := Nat.pow_pos hN
      have hr := Nat.mod_lt idx hpow
      constructor
      · rintro (hn | hn)
        · cases hn
        · obtain ⟨i, -, hn⟩ := List.mem_flatMap.1 hn
          obtain ⟨h₀, h₁, -⟩ := mem_nodes_range hn
          dsimp only at h₀ h₁
          obtain rfl : i = idx / N ^ h % N :=
            eq_of_between (p := N ^ h) (by omega) (by rw [pow_zero] at h₁; omega) hr
          exact ih.1 hn
      · intro he
        refine .inr (List.mem_flatMap.2 ⟨idx / N ^ h % N, ?_, ih.2 he⟩)
        exact List.mem_range.2 (Nat.mod_lt _ hN)

/-- The numbers of some blocks of a tree. -/
abbrev blocks (l : List Node) : List ℕ := l.map Node.block

/-- A tree is as it was in a store that differs only in blocks that are not in it. -/
theorem nodes_eq_of_disjoint {l : List ℕ} (hl : List.Disjoint (blocks (nodes N d h b base)) l)
    (hd : ∀ x ∉ l, d' x = d x) : nodes N d' h b base = nodes N d h b base :=
  nodes_congr fun _ hn _ => hd _ fun hx => hl (List.mem_map_of_mem hn) hx

/-! ## Forests -/

/-- Where one tree of several has got the blocks `new`, so have all of them together. -/
theorem flatMap_perm_at {l : List ℕ} (hl : l.Nodup) {i : ℕ} (hi : i ∈ l) {f f' : ℕ → List Node}
    {new : List Node} (hf : (f' i).Perm (new ++ f i)) (hne : ∀ j ∈ l, j ≠ i → f' j = f j) :
    (l.flatMap f').Perm (new ++ l.flatMap f) := by
  induction l with
  | nil => cases hi
  | cons j l ih =>
    obtain ⟨hj, hl⟩ := List.nodup_cons.1 hl
    rw [List.flatMap_cons, List.flatMap_cons]
    rcases List.mem_cons.1 hi with rfl | hil
    · have hrest : l.flatMap f' = l.flatMap f := by
        refine List.flatMap_congr fun k hk => hne k (List.mem_cons_of_mem _ hk) ?_
        rintro rfl
        exact hj hk
      rw [hrest, ← List.append_assoc]
      exact hf.append_right _
    · have hjne : j ≠ i := by
        rintro rfl
        exact hj hil
      rw [hne j List.mem_cons_self hjne]
      have hih := ih hl hil fun k hk => hne k (List.mem_cons_of_mem _ hk)
      refine (hih.append_left (f j)).trans ?_
      rw [← List.append_assoc, ← List.append_assoc]
      exact List.perm_append_comm.append_right _

/-- The blocks of different trees of several are different. -/
theorem disjoint_of_nodup {l : List ℕ} {f : ℕ → List Node} (h : (blocks (l.flatMap f)).Nodup)
    {i j : ℕ} (hi : i ∈ l) (hj : j ∈ l) (hne : i ≠ j) :
    List.Disjoint (blocks (f i)) (blocks (f j)) := by
  rw [blocks, List.map_flatMap, List.nodup_flatMap] at h
  have : Std.Symm fun i j => List.Disjoint (blocks (f i)) (blocks (f j)) :=
    ⟨fun _ _ h x hx hx' => h hx' hx⟩
  exact h.2.forall hi hj hne

/-- The blocks of one tree are not in those after it. -/
theorem disjoint_after {l : List ℕ} {f : ℕ → List Node} (h : (blocks (l.flatMap f)).Nodup)
    {i q : ℕ} (hi : i ∈ l) (hq : i < q) :
    List.Disjoint (blocks (f i)) (blocks (l.flatMap fun j => if q ≤ j then f j else [])) := by
  intro x hx hx'
  obtain ⟨n, hn, rfl⟩ := List.mem_map.1 hx'
  obtain ⟨j, hj, hn⟩ := List.mem_flatMap.1 hn
  by_cases hqj : q ≤ j
  · rw [if_pos hqj] at hn
    exact disjoint_of_nodup h hi hj (by omega) hx (List.mem_map_of_mem hn)
  · rw [if_neg hqj] at hn
    cases hn

theorem nodup_of_mem {l : List ℕ} {f : ℕ → List Node} (h : (blocks (l.flatMap f)).Nodup) {i : ℕ}
    (hi : i ∈ l) : (blocks (f i)).Nodup := by
  rw [blocks, List.map_flatMap, List.nodup_flatMap] at h
  exact h.1 i hi

/-! ## Cutting a tree -/

/-- The indices below the blocks in one of several trees. -/
theorem mem_kid_range (hN : 0 < N) {i : ℕ} {n : Node}
    (hn : n ∈ nodes N d h b (base + i * N ^ h)) :
    base + i * N ^ h ≤ n.base ∧ n.base < base + (i + 1) * N ^ h := by
  obtain ⟨hlo, hhi, -⟩ := mem_nodes_range hn
  have hpos : 0 < N ^ n.height := Nat.pow_pos hN
  rw [Nat.succ_mul]
  omega

/-- Of several trees, the blocks from the index `c` on are those of the trees from `m` on, if
    no tree has blocks on both sides. -/
theorem filter_flatMap_split {l : List ℕ} {m c : ℕ} {f : ℕ → List Node}
    (hafter : ∀ i ∈ l, m ≤ i → ∀ n ∈ f i, c ≤ n.base)
    (hbefore : ∀ i ∈ l, i < m → ∀ n ∈ f i, n.base < c) :
    ((l.flatMap f).filter (c ≤ ·.base) = l.flatMap fun i => if m ≤ i then f i else []) ∧
      (l.flatMap f).filter (·.base < c) = l.flatMap fun i => if m ≤ i then [] else f i := by
  rw [List.filter_flatMap, List.filter_flatMap]
  refine ⟨List.flatMap_congr fun i hi => ?_, List.flatMap_congr fun i hi => ?_⟩
  · split_ifs with hmi
    · rw [List.filter_eq_self]
      intro n hn
      simpa using hafter i hi hmi n hn
    · rw [List.filter_eq_nil_iff]
      intro n hn
      simpa using hbefore i hi (by omega) n hn
  · split_ifs with hmi
    · rw [List.filter_eq_nil_iff]
      intro n hn
      simpa using hafter i hi hmi n hn
    · rw [List.filter_eq_self]
      intro n hn
      simpa using hbefore i hi (by omega) n hn

/-- Of several trees, the blocks from the index `c` on: some of the tree `p`, and those of the
    trees after it. -/
theorem filter_flatMap_perm {l : List ℕ} (hl : l.Nodup) {p c : ℕ} (hp : p ∈ l)
    {f : ℕ → List Node} (hafter : ∀ i ∈ l, p < i → ∀ n ∈ f i, c ≤ n.base)
    (hbefore : ∀ i ∈ l, i < p → ∀ n ∈ f i, n.base < c) :
    ((l.flatMap f).filter (c ≤ ·.base)).Perm
      ((f p).filter (c ≤ ·.base) ++ l.flatMap fun i => if p < i then f i else []) := by
  rw [List.filter_flatMap]
  refine flatMap_perm_at hl hp ?_ fun i hi hne => ?_
  · rw [if_neg (lt_irrefl p), List.append_nil]
  · rcases lt_or_gt_of_ne hne with hlt | hgt
    · rw [if_neg (by omega), List.filter_eq_nil_iff]
      intro n hn
      simpa using hbefore i hi hlt n hn
    · rw [if_pos hgt, List.filter_eq_self]
      intro n hn
      simpa using hafter i hi hgt n hn

/-- The blocks before the index `c`: the other ones. -/
theorem filter_flatMap_eq {l : List ℕ} {p c : ℕ} {f f' : ℕ → List Node}
    (hafter : ∀ i ∈ l, p < i → ∀ n ∈ f i, c ≤ n.base)
    (hbefore : ∀ i ∈ l, i < p → ∀ n ∈ f i, n.base < c) (hf : ∀ i ∈ l, p < i → f' i = [])
    (hf' : ∀ i ∈ l, i < p → f' i = f i) (hp : f' p = (f p).filter (·.base < c)) :
    l.flatMap f' = (l.flatMap f).filter (·.base < c) := by
  rw [List.filter_flatMap]
  refine List.flatMap_congr fun i hi => ?_
  rcases lt_trichotomy i p with hlt | rfl | hgt
  · rw [hf' i hi hlt, eq_comm, List.filter_eq_self]
    intro n hn
    simpa using hbefore i hi hlt n hn
  · exact hp
  · rw [hf i hi hgt, eq_comm, List.filter_eq_nil_iff]
    intro n hn
    simpa using hafter i hi hgt n hn

/-! ## Growth -/

/-- A block that has been cleared is a tree without others. -/
theorem nodes_cleared (hb : b ≠ 0) (hd : ∀ i, d b i = 0) : nodes N d h b base = [⟨h, base, b⟩] := by
  cases h with
  | zero => exact nodes_zero hb
  | succ h =>
    rw [nodes_succ hb, List.cons_inj_right, List.flatMap_eq_nil_iff]
    intro i _
    rw [hd, nodes_zero_block]

/-- The blocks of a tree below one of its slots. -/
theorem kid_subset (hb : b ≠ 0) {i : ℕ} (hi : i < N) :
    nodes N d h (d b i) (base + i * N ^ h) ⊆ nodes N d (h + 1) b base := by
  intro n hn
  rw [nodes_succ hb]
  exact List.mem_cons_of_mem _ (List.mem_flatMap.2 ⟨i, List.mem_range.2 hi, hn⟩)

/-- More blocks, from `g`, with data at the index `p` only. -/
def Adds (g : List ℕ) (p : ℕ) (l l' : List Node) : Prop :=
  ∃ new, l'.Perm (new ++ l) ∧ (blocks new).Nodup ∧ blocks new ⊆ g ∧
    ∀ n ∈ new, n.height = 0 → n.base = p

namespace Adds

variable {g : List ℕ} {p : ℕ} {l l' : List Node}

theorem refl : Adds g p l l := ⟨[], .refl _, List.nodup_nil, List.nil_subset _, by simp⟩

theorem cons (hb : b ∉ g) (hp : h = 0 → base = p) (ha : Adds g p [⟨h, base, b⟩] l) :
    Adds (b :: g) p [] l := by
  obtain ⟨new, hperm, hnew, hnewg, hleaf⟩ := ha
  refine ⟨new ++ [⟨h, base, b⟩], ?_, ?_, ?_, ?_⟩
  · rw [List.append_nil]
    exact hperm
  · rw [blocks, List.map_append, List.nodup_append']
    exact ⟨hnew, List.nodup_singleton _, fun x hx hxb =>
      hb ((List.mem_singleton.1 hxb : x = b) ▸ hnewg hx)⟩
  · intro x hx
    rw [blocks, List.map_append, List.mem_append] at hx
    rcases hx with hx | hx
    · exact List.mem_cons_of_mem _ (hnewg hx)
    · exact (List.mem_singleton.1 hx : x = b) ▸ List.mem_cons_self
  · intro n hn hn0
    rcases List.mem_append.1 hn with hn | hn
    · exact hleaf n hn hn0
    · obtain rfl := List.mem_singleton.1 hn
      exact hp hn0

/-- What one tree of several gains, all of them together do. -/
theorem flatMap {s : List ℕ} (hs : s.Nodup) {i : ℕ} (hi : i ∈ s) {f f' : ℕ → List Node}
    (ha : Adds g p (f i) (f' i)) (hne : ∀ j ∈ s, j ≠ i → f' j = f j) :
    Adds g p (s.flatMap f) (s.flatMap f') :=
  let ⟨new, hperm, h⟩ := ha
  ⟨new, flatMap_perm_at hs hi hperm hne, h⟩

theorem subset (ha : Adds g p l l') : l ⊆ l' := by
  obtain ⟨new, hperm, -⟩ := ha
  exact fun n hn => hperm.mem_iff.2 (List.mem_append_right _ hn)

theorem nodup (ha : Adds g p l l') (hl : (blocks l).Nodup) (hg : ∀ x ∈ g, x ∉ blocks l) :
    (blocks l').Nodup := by
  obtain ⟨new, hperm, hnew, hsub, -⟩ := ha
  rw [(hperm.map _).nodup_iff, List.map_append, List.nodup_append']
  exact ⟨hnew, hl, fun x hx => hg x (hsub hx)⟩

/-- Other data is as it was. -/
theorem mem_leaf_iff (ha : Adds g p l l') {i x : ℕ} (hi : i ≠ p) :
    (⟨0, i, x⟩ : Node) ∈ l' ↔ (⟨0, i, x⟩ : Node) ∈ l := by
  obtain ⟨new, hperm, -, -, hleaf⟩ := ha
  rw [hperm.mem_iff, List.mem_append]
  exact or_iff_right fun hn => hi (hleaf _ hn rfl)

end Adds

/-- What a tree gains is what the tree in one of its slots does, if the others have been left
    alone. -/
theorem nodes_adds (hb : b ≠ 0) (hnodup : (blocks (nodes N d (h + 1) b base)).Nodup) {i p : ℕ}
    (hi : i < N) {g : List ℕ} (hg : ∀ x ∈ g, x ∉ blocks (nodes N d (h + 1) b base))
    (hslot : ∀ j, j ≠ i → d' b j = d b j)
    (hframe : ∀ x, x ≠ b → x ∉ blocks (nodes N d h (d b i) (base + i * N ^ h)) → x ∉ g →
      d' x = d x)
    (ha : Adds g p (nodes N d h (d b i) (base + i * N ^ h))
      (nodes N d' h (d' b i) (base + i * N ^ h))) :
    Adds g p (nodes N d (h + 1) b base) (nodes N d' (h + 1) b base) := by
  have hsub {j : ℕ} (hj : j < N) :
      nodes N d h (d b j) (base + j * N ^ h) ⊆ nodes N d (h + 1) b base := kid_subset hb hj
  rw [nodes_succ hb] at hnodup hg hsub
  obtain ⟨htop, hkids⟩ := List.nodup_cons.1 hnodup
  have hrest : ∀ j ∈ List.range N, j ≠ i → nodes N d' h (d' b j) (base + j * N ^ h) =
      nodes N d h (d b j) (base + j * N ^ h) := by
    intro j hj hne
    have hdisj := disjoint_of_nodup hkids hj (List.mem_range.2 hi) hne
    rw [hslot j hne]
    refine nodes_congr fun n hn _ => hframe _ ?_ (hdisj (List.mem_map_of_mem hn)) fun hx =>
      hg _ hx (List.mem_map_of_mem (hsub (List.mem_range.1 hj) hn))
    intro hnb
    exact htop (List.mem_map.2 ⟨n, List.mem_flatMap.2 ⟨j, hj, hn⟩, hnb⟩)
  obtain ⟨new, hperm, hnew⟩ := ha.flatMap List.nodup_range (List.mem_range.2 hi) hrest
  rw [nodes_succ hb, nodes_succ hb]
  exact ⟨new, .trans (.cons _ hperm) List.perm_middle.symm, hnew⟩

end AuxKernel.Radix
