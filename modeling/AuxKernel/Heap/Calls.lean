import AuxKernel.Basic
import AuxKernel.System
import AuxKernel.Heap.Tree

/-!
# The kernel heap

`kmem_alloc` and `kmem_free`, on the free tree and the list of free headers. A
call that panics (or follows a link of a `NIL` node) is `none`: the system stops.
Addresses and sizes are 32-bit unsigned integers.

The machine of the heap (`heap`) also remembers which blocks are outstanding, as
no kernel data structure does: those handed out by `kmem_alloc`, less the ranges
handed back.
-/

namespace AuxKernel.Heap

open FreeTree

/-- The configuration: where `Core` is, and the sizes of the arena and of the
    table of headers. The arena fits into the address space. -/
structure Config where
  core : ℕ
  v_maxcore : ℕ
  v_maxheader : ℕ
  fits : (core + 3) / 4 * 4 + v_maxcore < 2 ^ 32

/-- The address of the arena: `Core`, aligned to a word. -/
def Config.coreBegin (v : Config) : ℕ := (v.core + 3) / 4 * 4

/-- The state of the allocator. The free headers are counted; the blocks whose
    freeing is deferred are those of the list and of the table. -/
structure Kmem where
  free_root : FreeTree
  core_already_freed : Bool
  CoreEnd : ℕ
  freehdrflag : Bool
  nfreehdr : ℕ
  need_to_free_list : List (ℕ × ℕ)
  need_to_free : List (ℕ × ℕ)
  deriving DecidableEq, Repr

/-- The unsigned 32-bit sum. -/
def addU (a b : ℕ) : ℕ := (a + b) % 2 ^ 32

/-- The unsigned 32-bit difference. -/
def subU (a b : ℕ) : ℕ := (a + 2 ^ 32 - b) % 2 ^ 32

/-! ## Headers -/

/-- Take a free header; the first call makes those of the table free. -/
def getfreehdr (v : Config) (m : Kmem) : Option Kmem :=
  match m.nfreehdr with
  | n + 1 => some { m with nfreehdr := n }
  | 0 => if m.freehdrflag then none
    else some { m with freehdrflag := true, nfreehdr := v.v_maxheader - 1 }

/-- Give a header back. -/
def freehdr (m : Kmem) : Kmem := { m with nfreehdr := m.nfreehdr + 1 }

/-! ## Freeing -/

/-- The free neighbours of a block on the way to its place are absorbed: the tree
    without them, the block grown by them, and how many they were. It panics if
    the block overlaps a free one. -/
def coalesce (ptr nbytes : ℕ) : FreeTree → Option (FreeTree × (ℕ × ℕ) × ℕ)
  | nil => some (nil, (ptr, nbytes), 0)
  | node l b s r =>
    if ptr < b then
      if addU ptr nbytes = b then
        match _h : merge l r with
        | none => none
        | some t =>
          (coalesce ptr (addU nbytes s) t).map fun (t, blk, k) => (t, blk, k + 1)
      else if addU ptr nbytes > b then none
      else (coalesce ptr nbytes l).map fun (l, blk, k) => (node l b s r, blk, k)
    else if ptr > b then
      if addU b s = ptr then
        match _h : merge l r with
        | none => none
        | some t =>
          (coalesce b (addU nbytes s) t).map fun (t, blk, k) => (t, blk, k + 1)
      else if addU b s > ptr then none
      else (coalesce ptr nbytes r).map fun (r, blk, k) => (node l b s r, blk, k)
    else none
termination_by t => t.count
decreasing_by
  all_goals simp only [count]
  · rw [count_merge _h]; omega
  · omega
  · rw [count_merge _h]; omega
  · omega

/-- Return a block to the free tree. -/
def kmem_free (v : Config) (ptr nbytes : ℕ) (m : Kmem) : Option Kmem :=
  if nbytes = 0 then some m
  else if ptr < v.core ∨ ptr ≥ m.CoreEnd then none
  else do
    let (t, (ptr, nbytes), k) ← coalesce ptr nbytes m.free_root
    let t ← t.insert ptr nbytes
    let m ← getfreehdr v { m with nfreehdr := m.nfreehdr + k }
    return { m with free_root := t }

/-- Free the blocks whose freeing was deferred. -/
def check_need_to_free (v : Config) (m : Kmem) : Option Kmem := do
  let m ← m.need_to_free_list.foldlM (fun m (addr, nbytes) => kmem_free v addr nbytes m)
    { m with need_to_free_list := [] }
  (m.need_to_free.filter fun e => e.1 ≠ 0).foldlM
    (fun m (addr, nbytes) => kmem_free v addr nbytes m)
    { m with need_to_free := m.need_to_free.map fun e => (0, e.2) }

/-- Give the arena to the free tree, the first time; then no more. -/
def morecore (v : Config) (m : Kmem) : Option (Bool × Kmem) :=
  if m.core_already_freed then some (false, m)
  else
    (kmem_free v v.coreBegin v.v_maxcore { m with
      core_already_freed := true, CoreEnd := v.coreBegin + v.v_maxcore }).map fun m => (true, m)

/-! ## Allocating -/

/-- How far the next word boundary is from `addr`. -/
def alignmore (addr : ℕ) : ℕ := 4 - addr % 4

/-- The bytes of a block from a word boundary on, if there is one inside it. -/
def alignedSize (b s : ℕ) : ℕ := if b % 4 ≠ 0 ∧ s > alignmore b then s - alignmore b else s

/-- The weight of a tree for an allocation. -/
def mweight : FreeTree → ℕ
  | nil => 0
  | node _ b s _ => alignedSize b s

/-- Whether the search for `nbytes` goes on into a branch, and into the left one. -/
def descend (nbytes : ℕ) (l r : FreeTree) : Option Bool :=
  if mweight l ≥ nbytes ∨ mweight r ≥ nbytes then
    some (if mweight l ≤ mweight r then mweight l ≥ nbytes else ¬mweight r ≥ nbytes)
  else none

/-- The better fitting node for `nbytes`. -/
def select (nbytes : ℕ) : FreeTree → FreeTree
  | nil => nil
  | node l b s r =>
    match descend nbytes l r with
    | some true => select nbytes l
    | some false => select nbytes r
    | none => node l b s r

/-- Put a tree in place of the better fitting node for `nbytes`. -/
def replace (nbytes : ℕ) (t : FreeTree) : FreeTree → FreeTree
  | nil => t
  | node l b s r =>
    match descend nbytes l r with
    | some true => node (replace nbytes t l) b s r
    | some false => node l b s (replace nbytes t r)
    | none => t

/-- Allocate `nbytes` from the selected node, with its block `b` of `s` bytes
    starting inside a word: the beginning stays free, and so does what is left at
    the end. -/
def carveUnaligned (v : Config) (nbytes b s : ℕ) (l r : FreeTree) (m : Kmem) : Option (ℕ × Kmem) :=
  let m := { m with free_root := replace nbytes (demote b (alignmore b) l r) m.free_root }
  let n := addU nbytes (alignmore b)
  (if s > n then kmem_free v (addU b n) (subU s n) m else some m).map fun m =>
    (addU b (alignmore b), freehdr m)

/-- Allocate `nbytes` from the beginning of the block of the selected node. -/
def carveAligned (nbytes b s : ℕ) (l r : FreeTree) (m : Kmem) : ℕ × Kmem :=
  let x := demote (addU b nbytes) (subU s nbytes) l r
  (b, freehdr { m with free_root := replace nbytes x m.free_root })

/-- Allocate `nbytes` from the selected node: the block, and the state. -/
def carve (v : Config) (nbytes : ℕ) (m : Kmem) : Option (ℕ × Kmem) :=
  match select nbytes m.free_root with
  | nil => none
  | node l b s r =>
    if subU s nbytes < 1 then
      (merge l r).map fun t => (b, freehdr { m with free_root := replace nbytes t m.free_root })
    else
      (getfreehdr v m).bind fun m =>
        if b % 4 ≠ 0 ∧ s > alignmore b then carveUnaligned v nbytes b s l r m
        else some (carveAligned nbytes b s l r m)

/-- Ensure that a block is big enough, as far as the root of the tree shows. -/
def ensure (v : Config) (nbytes : ℕ) (m : Kmem) : Option (Bool × Kmem) :=
  if mweight m.free_root < nbytes then morecore v m else some (true, m)

/-- Allocate a block; no bytes are at no address. -/
def kmem_alloc (v : Config) (nbytes : ℕ) (m : Kmem) : Option (Option ℕ × Kmem) :=
  if nbytes = 0 then some (none, m)
  else
    (check_need_to_free v m).bind fun m => (ensure v nbytes m).bind fun (ok, m) =>
      if ok then (carve v nbytes m).map fun (b, m) => (some b, m) else none

/-! ## The machine -/

/-- The heap, and the blocks that are outstanding. -/
structure Run where
  mem : Kmem
  out : List (ℕ × ℕ)
  deriving DecidableEq, Repr

/-- What is left of a block when a range of it is handed back. -/
def cutOut (ptr nbytes : ℕ) (blk : ℕ × ℕ) : List (ℕ × ℕ) :=
  [(blk.1, min (blk.1 + blk.2) ptr - blk.1),
    (max blk.1 (ptr + nbytes), blk.1 + blk.2 - max blk.1 (ptr + nbytes))].filter fun e => 0 < e.2

/-- The calls. -/
inductive Act
  | alloc (nbytes : ℕ)
  | free (ptr nbytes : ℕ)
  deriving DecidableEq, Repr

/-- The allocator after `kmem_init`. -/
def kmemInit : Kmem := ⟨nil, false, 0, false, 0, [], List.replicate 10 (0, 0)⟩

/-- The heap under calls of `kmem_alloc` and `kmem_free`. -/
def heap (v : Config) : Machine Run Act where
  init s := s = ⟨kmemInit, []⟩
  next s
    | .alloc nbytes => (kmem_alloc v nbytes s.mem).map fun (b, m) =>
      ⟨m, (b.map fun b => (b, nbytes)).toList ++ s.out⟩
    | .free ptr nbytes => (kmem_free v ptr nbytes s.mem).map fun m =>
      ⟨m, s.out.flatMap (cutOut ptr nbytes)⟩

end AuxKernel.Heap
