import Mathlib.Tactic.Common

/-!
# The free tree

The kernel heap (`COMMON/os/heap_kmem.c`) keeps its free blocks in a Cartesian
tree: ordered by address from left to right, and by size from the root down. The
routines below are those of the source that restructure it; a pointer to a link
of the tree is the subtree it leads to. Following a link of a `NIL` node, which
the source never checks, is `none`.
-/

namespace AuxKernel.Heap

open scoped List

/-- The free tree. A node is the header of a free block. -/
inductive FreeTree
  | nil
  | node (left : FreeTree) (block size : ℕ) (right : FreeTree)
  deriving DecidableEq, Repr

namespace FreeTree

/-- The size of the block at the root, `0` for `NIL`. -/
def weight : FreeTree → ℕ
  | nil => 0
  | node _ _ size _ => size

/-- How many blocks a tree holds. -/
def count : FreeTree → ℕ
  | nil => 0
  | node l _ _ r => l.count + r.count + 1

/-- The blocks of a tree, from left to right, as addresses and sizes. -/
def blocks : FreeTree → List (ℕ × ℕ)
  | nil => []
  | node l b s r => l.blocks ++ (b, s) :: r.blocks

/-! ## Insertion -/

/-- The blocks left and right of the address `p`, as the root insertion rewrites
    the links that cross it. -/
def hook (p : ℕ) : FreeTree → FreeTree × FreeTree
  | nil => (nil, nil)
  | node l b s r =>
    if b < p then (node l b s (r.hook p).1, (r.hook p).2)
    else ((l.hook p).1, node (l.hook p).2 b s r)

/-- Insert a block above the first smaller one on its way down. -/
def insert (p len : ℕ) : FreeTree → Option FreeTree
  | nil => if 0 ≥ len then none else some (node nil p len nil)
  | node l b s r =>
    if s ≥ len then
      if p < b then (l.insert p len).map fun l => node l b s r
      else (r.insert p len).map fun r => node l b s r
    else some (node ((node l b s r).hook p).1 p len ((node l b s r).hook p).2)

/-! ## Deletion -/

/-- Merge the left and the right branch of a deleted node, the larger root above. -/
def merge : FreeTree → FreeTree → Option FreeTree
  | nil, nil => some nil
  | nil, node rl b s rr => if 0 ≥ s then none else (merge nil rl).map fun t => node t b s rr
  | node ll b s lr, nil => (merge lr nil).map fun t => node ll b s t
  | node ll b s lr, node rl b' s' rr =>
    if s ≥ s' then (merge lr (node rl b' s' rr)).map fun t => node ll b s t
    else (merge (node ll b s lr) rl).map fun t => node t b' s' rr
termination_by l r => l.count + r.count
decreasing_by all_goals simp only [count]; omega

/-- Delete the root of a tree. -/
def delete : FreeTree → Option FreeTree
  | nil => none
  | node l _ _ r => merge l r

/-- Let a node that has become smaller sink below the larger ones of its branches. -/
def demote (b s : ℕ) : FreeTree → FreeTree → FreeTree
  | nil, nil => node nil b s nil
  | nil, node rl b' s' rr =>
    if s' > s then node (demote b s nil rl) b' s' rr else node nil b s (node rl b' s' rr)
  | node ll b' s' lr, nil =>
    if s' > s then node ll b' s' (demote b s lr nil) else node (node ll b' s' lr) b s nil
  | node ll b₁ s₁ lr, node rl b₂ s₂ rr =>
    if s₁ > s ∨ s₂ > s then
      if s₁ ≥ s₂ then node ll b₁ s₁ (demote b s lr (node rl b₂ s₂ rr))
      else node (demote b s (node ll b₁ s₁ lr) rl) b₂ s₂ rr
    else node (node ll b₁ s₁ lr) b s (node rl b₂ s₂ rr)
termination_by l r => l.count + r.count
decreasing_by all_goals simp only [count]; omega

/-! ## The blocks of a tree -/

@[simp] theorem blocks_nil : nil.blocks = [] := rfl

@[simp] theorem blocks_node (l r : FreeTree) (b s : ℕ) :
    (node l b s r).blocks = l.blocks ++ (b, s) :: r.blocks := rfl

theorem blocks_hook (p : ℕ) (t : FreeTree) : (t.hook p).1.blocks ++ (t.hook p).2.blocks = t.blocks := by
  induction t with
  | nil => rfl
  | node l b s r ihl ihr =>
    rw [hook]
    split_ifs
    · simp only [blocks_node, List.append_assoc, List.cons_append, ihr]
    · simp only [blocks_node, ← ihl, List.append_assoc]

theorem blocks_insert {p len : ℕ} {t t' : FreeTree} (h : t.insert p len = some t') :
    t'.blocks ~ (p, len) :: t.blocks := by
  induction t generalizing t' with
  | nil =>
    rw [insert] at h
    split_ifs at h
    rw [← Option.some.inj h]
    rfl
  | node l b s r ihl ihr =>
    rw [insert] at h
    split_ifs at h
    · obtain ⟨l', hl, rfl⟩ := Option.map_eq_some_iff.1 h
      exact (ihl hl).append_right _
    · obtain ⟨r', hr, rfl⟩ := Option.map_eq_some_iff.1 h
      calc l.blocks ++ (b, s) :: r'.blocks
        _ ~ l.blocks ++ (b, s) :: (p, len) :: r.blocks := ((ihr hr).cons _).append_left _
        _ ~ l.blocks ++ (p, len) :: (b, s) :: r.blocks := (List.Perm.swap ..).append_left _
        _ ~ (p, len) :: (l.blocks ++ (b, s) :: r.blocks) := List.perm_middle
    · rw [← Option.some.inj h, blocks_node, ← blocks_hook p (node l b s r)]
      exact List.perm_middle

theorem blocks_merge {l r t : FreeTree} (h : merge l r = some t) :
    t.blocks = l.blocks ++ r.blocks := by
  induction l, r using merge.induct generalizing t with
  | case1 => rw [merge] at h; rw [← Option.some.inj h]; rfl
  | case2 rl b s rr hs => rw [merge, if_pos hs] at h; exact absurd h (by simp)
  | case3 rl b s rr hs ih =>
    rw [merge, if_neg hs] at h
    obtain ⟨u, hu, rfl⟩ := Option.map_eq_some_iff.1 h
    simp [ih hu]
  | case4 ll b s lr ih =>
    rw [merge] at h
    obtain ⟨u, hu, rfl⟩ := Option.map_eq_some_iff.1 h
    simp [ih hu]
  | case5 ll b s lr rl b' s' rr hs ih =>
    rw [merge, if_pos hs] at h
    obtain ⟨u, hu, rfl⟩ := Option.map_eq_some_iff.1 h
    simp [ih hu]
  | case6 ll b s lr rl b' s' rr hs ih =>
    rw [merge, if_neg hs] at h
    obtain ⟨u, hu, rfl⟩ := Option.map_eq_some_iff.1 h
    simp [ih hu]

/-- The node stays between its branches, wherever it sinks to. -/
theorem blocks_demote_eq (b s : ℕ) (l r : FreeTree) :
    (demote b s l r).blocks = l.blocks ++ (b, s) :: r.blocks := by
  induction l, r using demote.induct s with
  | case1 => rw [demote]; rfl
  | case2 rl b' s' rr hs ih => rw [demote, if_pos hs]; simp [ih]
  | case3 rl b' s' rr hs => rw [demote, if_neg hs]; rfl
  | case4 ll b' s' lr hs ih => rw [demote, if_pos hs]; simp [ih]
  | case5 ll b' s' lr hs => rw [demote, if_neg hs]; rfl
  | case6 ll b₁ s₁ lr rl b₂ s₂ rr hs hle ih => rw [demote, if_pos hs, if_pos hle]; simp [ih]
  | case7 ll b₁ s₁ lr rl b₂ s₂ rr hs hle ih => rw [demote, if_pos hs, if_neg hle]; simp [ih]
  | case8 ll b₁ s₁ lr rl b₂ s₂ rr hs => rw [demote, if_neg hs]; rfl

theorem blocks_demote (b s : ℕ) (l r : FreeTree) :
    (demote b s l r).blocks ~ (b, s) :: (l.blocks ++ r.blocks) := by
  rw [blocks_demote_eq]
  exact List.perm_middle

theorem count_eq (t : FreeTree) : t.count = t.blocks.length := by
  induction t with
  | nil => rfl
  | node l b s r ihl ihr => simp [count, ihl, ihr]; omega

theorem count_merge {l r t : FreeTree} (h : merge l r = some t) : t.count = l.count + r.count := by
  simp [count_eq, blocks_merge h]

end FreeTree

end AuxKernel.Heap
