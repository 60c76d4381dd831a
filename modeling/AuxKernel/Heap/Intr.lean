import AuxKernel.Ranges
import AuxKernel.Heap.Calls

/-!
# Freeing at interrupt level

`kmem_free_intr` (`COMMON/os/heap_kmem.c`) puts a range off until the next `kmem_alloc`. The first
two words of the range itself are made its place on a list; one that is too small for that goes to
a table, and so does the beginning of one that begins inside a word. `check_need_to_free` takes the
ranges off again, and passes them to `kmem_free`.

The routines raise the interrupt priority (`splimp`, `splnet`) and set it back (`splx`). An
interrupt that calls `kmem_free_intr` may come anywhere where the priority is below its own: in
`check_need_to_free`, that is before each turn and before and in each call of `kmem_free`.
-/

namespace AuxKernel.Heap.Intr

/-- The priorities of `splnet` and `splimp`. -/
structure Levels where
  net : ℕ
  imp : ℕ

/-- `sizeof (struct need_to_free)`. -/
def sizeofNeedToFree : ℕ := 8

/-- The ranges that have been put off: the head of the list, the table, and the words of the memory
    that the list goes through. -/
structure Deferred where
  need_to_free_list : Range
  need_to_free : List Range
  word : ℕ → ℕ

/-- Put a range in the first slot that is free. -/
def insertSlot : List Range → Range → Option (List Range)
  | [], _ => none
  | e :: table, r =>
    if e.1 = 0 then some (r :: table) else (insertSlot table r).map fun table => e :: table

/-- Take the range in the first slot that is not. -/
def takeSlot : List Range → Option (Range × List Range)
  | [] => none
  | e :: table =>
    if e.1 ≠ 0 then some (e, (0, e.2) :: table)
    else (takeSlot table).map fun (r, table) => (r, e :: table)

theorem addU_alignmore_mod {ptr : ℕ} (h : ptr % 4 ≠ 0) : addU ptr (alignmore ptr) % 4 = 0 := by
  unfold addU alignmore
  omega

/-- Put off a range: the priority with which it returns, when called with `spl`. It panics (`none`)
    if the table is full. -/
def kmem_free_intr (lv : Levels) (ptr nbytes spl : ℕ) (d : Deferred) : Option (ℕ × Deferred) :=
  if nbytes ≥ sizeofNeedToFree then
    if ptr % 4 ≠ 0 then
      let i := alignmore ptr
      -- The priority is not set back here.
      (kmem_free_intr lv ptr i lv.imp d).bind fun (spl, d) =>
        kmem_free_intr lv (addU ptr i) (subU nbytes i) spl d
    else
      some (spl, { d with
        word := Function.update (Function.update d.word ptr d.need_to_free_list.1) (addU ptr 4)
          d.need_to_free_list.2
        need_to_free_list := (ptr, nbytes) })
  else
    (insertSlot d.need_to_free (ptr, nbytes)).map fun table =>
      (spl, { d with need_to_free := table })
termination_by if nbytes ≥ sizeofNeedToFree ∧ ptr % 4 ≠ 0 then 1 else 0
decreasing_by
  · have hsmall : ¬ alignmore ptr ≥ 8 := by
      unfold alignmore
      omega
    simp_all [sizeofNeedToFree]
  · simp_all [addU_alignmore_mod]

/-- A turn of `check_need_to_free`: take a range off the list, or out of the table. -/
def take (d : Deferred) : Option (Range × Deferred) :=
  if d.need_to_free_list.1 ≠ 0 then
    some (d.need_to_free_list, { d with
      need_to_free_list :=
        (d.word d.need_to_free_list.1, d.word (addU d.need_to_free_list.1 4)) })
  else (takeSlot d.need_to_free).map fun (r, table) => (r, { d with need_to_free := table })

/-- `kmem_alloc`, behind `check_need_to_free`. -/
def allocate (v : Config) (nbytes : ℕ) (m : Kmem) : Option (ℕ × Kmem) :=
  (ensure v nbytes m).bind fun (ok, m) => if ok then carve v nbytes m else none

/-- Where a process is: out of the allocator; before a turn of `check_need_to_free`, which was
    called with the priority `entry` by `kmem_alloc`, which was called with `s`; before the call of
    `kmem_free` for a range; or behind it all. -/
inductive Pc
  | out
  | again (nbytes s entry : ℕ)
  | free (nbytes s entry : ℕ) (r : Range)
  | search (nbytes s : ℕ)

/-- The allocator, the ranges that are put off, and the priority.

    The rest is a record of the run: the ranges given to `kmem_free_intr`, those passed on to
    `kmem_free`, those that had been given when `check_need_to_free` last returned, and whether each
    routine has returned with the priority it was called with. -/
structure World where
  kmem : Kmem
  deferred : Deferred
  spl : ℕ
  pc : Pc
  given : List Range
  passed : List Range
  due : List Range
  kept : Bool

/-- What may happen: an interrupt of a level, or the process, puts off a range; the process frees or
    allocates, goes on with that, or sets its priority; or somebody stores a word. -/
inductive Act
  | intr (level ptr nbytes : ℕ)
  | kmem_free_intr (ptr nbytes : ℕ)
  | kmem_free (ptr nbytes : ℕ)
  | kmem_alloc (nbytes : ℕ)
  | step
  | spl (level : ℕ)
  | store (a w : ℕ)

namespace World

/-- The process goes on with an allocation. -/
def step (v : Config) (s : World) : Option World :=
  match s.pc with
  | .out => none
  | .again nbytes spl entry =>
    match take s.deferred with
    | some (r, d) => some { s with deferred := d, pc := .free nbytes spl entry r }
    | none => some { s with
        pc := .search nbytes spl, due := s.given, kept := s.kept && decide (s.spl = entry) }
  | .free nbytes spl entry r =>
    (Heap.kmem_free v r.1 r.2 s.kmem).map fun m =>
      { s with kmem := m, passed := r :: s.passed, pc := .again nbytes spl entry }
  | .search nbytes spl =>
    (allocate v nbytes s.kmem).map fun (_, m) => { s with kmem := m, spl := spl, pc := .out }

/-- The state after an action. An interrupt sets the priority back on its return; `kmem_free` goes
    to `splnet`, and back. -/
def next (v : Config) (lv : Levels) (s : World) : Act → Option World
  | .intr level ptr nbytes =>
    if s.spl < level ∧ level ≤ lv.imp then
      (kmem_free_intr lv ptr nbytes level s.deferred).map fun (spl, d) => { s with
        deferred := d
        given := (ptr, nbytes) :: s.given
        kept := s.kept && decide (spl = level) }
    else none
  | .kmem_free_intr ptr nbytes =>
    match s.pc with
    | .out =>
      (kmem_free_intr lv ptr nbytes s.spl s.deferred).map fun (spl, d) => { s with
        deferred := d
        spl := spl
        given := (ptr, nbytes) :: s.given
        kept := s.kept && decide (spl = s.spl) }
    | _ => none
  | .kmem_free ptr nbytes =>
    match s.pc with
    | .out => (Heap.kmem_free v ptr nbytes s.kmem).map fun m => { s with kmem := m }
    | _ => none
  | .kmem_alloc nbytes =>
    match s.pc with
    | .out =>
      if nbytes = 0 then some s
      else some { s with spl := lv.net, pc := .again nbytes s.spl lv.net }
    | _ => none
  | .step => s.step v
  | .spl level =>
    match s.pc with
    | .out => some { s with spl := level }
    | _ => none
  | .store a w =>
    some { s with deferred := { s.deferred with word := Function.update s.deferred.word a w } }

end World

/-- The allocator with a process and interrupts, where nothing is put off at first. -/
def deferring (v : Config) (lv : Levels) : Machine World Act where
  init s := s.deferred.need_to_free_list.1 = 0 ∧
    s.deferred.need_to_free = List.replicate 10 (0, 0) ∧ s.pc = .out ∧ s.given = [] ∧
      s.passed = [] ∧ s.due = [] ∧ s.kept = true
  next := World.next v lv

/-- `kmem_alloc` is `check_need_to_free`, and the rest. -/
theorem kmem_alloc_eq (v : Config) {nbytes : ℕ} (hn : nbytes ≠ 0) (m : Kmem) :
    kmem_alloc v nbytes m = ((check_need_to_free v m).bind (allocate v nbytes)).map fun (b, m) =>
      (some b, m) := by
  rw [kmem_alloc, if_neg hn]
  cases check_need_to_free v m with
  | none => rfl
  | some m =>
    rw [Option.bind_some, Option.bind_some, allocate]
    cases ensure v nbytes m with
    | none => rfl
    | some r =>
      rw [Option.bind_some, Option.bind_some]
      dsimp only
      cases r.1 <;> rfl

end AuxKernel.Heap.Intr
