import AuxKernel.System
import AuxKernel.Basic
import Mathlib.Logic.Function.Basic

/-!
# Region locks of the `locking` call

`locking`, and `unlock` for a close (`PAGING/os/ulocking.c`), on one inode. The locks of the
inode are a list; its items are entries of the table `locklist`, whose unused entries are on
a free list. A process that finds its region locked sleeps on the item it found, and scans
the list again from the beginning when it is woken up.

A request is not checked any further than `Request` says: its size may be negative, so that
the region ends before it begins.
-/

namespace AuxKernel.Locking

/-- A number larger than any request. -/
def MAXSIZE : ℤ := 2 ^ 30

/-- An item of the list: the entry it is of the table, whether somebody sleeps on it
    (`IWANT`), the process that owns the region, and where that starts and ends. -/
structure Locklist where
  id : ℕ
  iwant : Bool
  ll_proc : ℕ
  ll_start : ℤ
  ll_end : ℤ
  deriving DecidableEq, Repr

/-- The open file of a call: whether it is a vnode, one of this file system, and a
    directory; and its offset. -/
structure File where
  vnode : Bool
  svfs : Bool
  dir : Bool
  f_offset : ℤ

/-- What a lock is asked for: how, and from where to where. -/
structure Request where
  flag : ℤ
  LB : ℤ
  UB : ℤ
  deriving DecidableEq, Repr

/-- The place of a process: outside; asleep in `locked` on an item, or woken up in it. -/
inductive Pc
  | idle
  | asleep (item : ℕ) (r : Request)
  | awake (r : Request)
  deriving DecidableEq, Repr

/-- The free list of the table, and whether it is linked yet; the processes, with the
    results of their calls. -/
structure Table where
  linked : Bool
  free : List ℕ
  pc : ℕ → Pc
  u_error : ℕ → Option Errno

def Table.setPc (t : Table) (p : ℕ) (pc : Pc) : Table :=
  { t with pc := Function.update t.pc p pc }

def Table.error (t : Table) (p : ℕ) (e : Option Errno) : Table :=
  { t with u_error := Function.update t.u_error p e }

/-- A process that sleeps on an item is woken up. -/
def Pc.wake (item : ℕ) : Pc → Pc
  | .asleep i r => if i = item then .awake r else .asleep i r
  | pc => pc

def wakeup (item : ℕ) (t : Table) : Table := { t with pc := fun p => (t.pc p).wake item }

/-! ## The table -/

/-- Wake up who sleeps on an item, because its region changes. -/
def wake (nl : Locklist) (t : Table) : Locklist × Table :=
  if nl.iwant then ({ nl with iwant := false }, wakeup nl.id t) else (nl, t)

/-- Return an item to the free list. -/
def lockfree (nl : Locklist) (t : Table) : Table :=
  let t := (wake nl t).2
  { t with free := nl.id :: t.free }

/-- The first call links the table of `v_flock` entries, of which the first one is the head
    of the free list. -/
def link (v_flock : ℕ) (t : Table) : Table :=
  if t.linked then t
  else { t with linked := true, free := (List.range' 1 (v_flock - 1)).reverse ++ t.free }

def lockalloc (v_flock p : ℕ) (t : Table) : Option ℕ × Table :=
  let t := link v_flock t
  match t.free with
  | [] => (none, t.error p (some .edeadlock))
  | nl :: free => (some nl, { t with free := free })

/-- A new item for the list. -/
def lockadd (v_flock p : ℕ) (LB UB : ℤ) (t : Table) : Option Locklist × Table :=
  let (nl, t) := lockalloc v_flock p t
  (nl.map fun nl => ⟨nl, false, p, LB, UB⟩, t)

variable (v_flock : ℕ)

/-! ## Unlocking -/

/-- Give up the locks of the process `p` in a range: the rest of the list is scanned. -/
def unlockScan (p : ℕ) (LB UB : ℤ) : List Locklist → Table → List Locklist × Table
  | [], t => ([], t)
  | nl :: l, t =>
    if nl.ll_proc ≠ p then
      let (l, t) := unlockScan p LB UB l t
      (nl :: l, t)
    else if UB ≤ nl.ll_start then (nl :: l, t)
    else if nl.ll_end ≤ LB then
      let (l, t) := unlockScan p LB UB l t
      (nl :: l, t)
    else if LB ≤ nl.ll_start ∧ nl.ll_end ≤ UB then unlockScan p LB UB l (lockfree nl t)
    else
      let (nl, t) := wake nl t
      if nl.ll_start < LB ∧ UB < nl.ll_end then
        match lockadd v_flock p UB nl.ll_end t with
        | (none, t) => (nl :: l, t)
        | (some last, t) => ({ nl with ll_end := LB } :: last :: l, t)
      else if LB ≤ nl.ll_start ∧ UB < nl.ll_end then ({ nl with ll_start := UB } :: l, t)
      else
        let (l, t) := unlockScan p LB UB l t
        ({ nl with ll_end := LB } :: l, t)

/-- Release all locks of a process. -/
def unlock (p : ℕ) : List Locklist → Table → List Locklist × Table
  | [], t => ([], t)
  | nl :: l, t =>
    if nl.ll_proc = p then unlock p l (lockfree nl t)
    else
      let (l, t) := unlock p l t
      (nl :: l, t)

/-! ## Locking -/

/-- The scan of `locked`: the first item found that stands against a request. -/
def conflict (p : ℕ) (LB UB : ℤ) : List Locklist → Option Locklist
  | [] => none
  | nl :: l =>
    if nl.ll_start < UB then
      if nl.ll_proc = p ∨ nl.ll_end ≤ LB then conflict p LB UB l else some nl
    else none

/-- The item of an entry of the table. -/
def item (l : List Locklist) (i : ℕ) : Option Locklist := l.find? fun nl => nl.id = i

/-- Whether the process `p` would sleep for a process that sleeps for itself, in the end. The
    chain of sleepers is followed for `n` items; a longer one has no end. -/
def deadlock (p : ℕ) (l : List Locklist) (t : Table) : ℕ → Locklist → Option Bool
  | 0, _ => none
  | n + 1, lp =>
    match t.pc lp.ll_proc with
    | .idle | .awake _ => some false
    | .asleep i _ =>
      match item l i with
      | none => some false
      | some nl => if nl.ll_proc = p then some true else deadlock p l t n nl

/-- The end point of `cl` was set: delete the later items it overlaps. -/
def compact (p : ℕ) (cl : Locklist) : List Locklist → Table → List Locklist × Table
  | [], t => ([cl], t)
  | nl :: l, t =>
    if p ≠ nl.ll_proc then (cl :: nl :: l, t)
    else if cl.ll_end < nl.ll_start then (cl :: nl :: l, t)
    else if cl.ll_end ≤ nl.ll_end then
      ({ cl with ll_end := nl.ll_end } :: l, lockfree nl t)
    else compact p cl l (lockfree nl t)

/-- Add a region behind the item `cl`. -/
def addAfter (p : ℕ) (LB UB : ℤ) (cl : Locklist) (l : List Locklist) (t : Table) :
    List Locklist × Table :=
  match lockadd v_flock p LB UB t with
  | (none, t) => (cl :: l, t)
  | (some new, t) =>
    let (l, t) := compact p new l t
    (cl :: l, t)

/-- The item `cl` is the last that starts before the request: extend it, or add one. -/
def lockHere (p : ℕ) (LB UB : ℤ) (cl : Locklist) (l : List Locklist) (t : Table) :
    List Locklist × Table :=
  if UB ≤ cl.ll_end then (cl :: l, t)
  else if LB ≤ cl.ll_end ∧ p = cl.ll_proc then compact p { cl with ll_end := UB } l t
  else addAfter v_flock p LB UB cl l t

/-- Scan through the list behind `cl`. -/
def lockScan (p : ℕ) (LB UB : ℤ) (cl : Locklist) : List Locklist → Table →
    List Locklist × Table
  | [], t =>
    if LB ≤ cl.ll_end ∧ p = cl.ll_proc then
      ([if UB > cl.ll_end then { cl with ll_end := UB } else cl], t)
    else
      match lockadd v_flock p LB UB t with
      | (none, t) => ([cl], t)
      | (some new, t) => ([cl, new], t)
  | nl :: l, t =>
    if nl.ll_start < LB then
      let (l, t) := lockScan p LB UB nl l t
      (cl :: l, t)
    else lockHere v_flock p LB UB cl (nl :: l) t

/-- Add a region at the head of the list. -/
def addFirst (p : ℕ) (LB UB : ℤ) (l : List Locklist) (t : Table) : List Locklist × Table :=
  match lockadd v_flock p LB UB t with
  | (none, t) => (l, t)
  | (some new, t) => (new :: l, t)

/-- Lock a region that no other process has locked. -/
def lockRange (p : ℕ) (LB UB : ℤ) (l : List Locklist) (t : Table) : List Locklist × Table :=
  match l with
  | [] => addFirst v_flock p LB UB [] t
  | nl :: l =>
    if UB < nl.ll_start then addFirst v_flock p LB UB (nl :: l) t
    else if UB ≤ nl.ll_start ∧ p ≠ nl.ll_proc then addFirst v_flock p LB UB (nl :: l) t
    else
      let nl := if UB ≥ nl.ll_start ∧ LB < nl.ll_start then { nl with ll_start := LB } else nl
      lockScan v_flock p LB UB nl l t

/-! ## The machine -/

/-- The locks of the inode, and the table. -/
structure State extends Table where
  i_locklist : List Locklist

def State.of (x : List Locklist × Table) : State := { x.2 with i_locklist := x.1 }

/-- Test a request, from the start of the list, and lock the region if nothing stands against
    it; otherwise fail, or sleep. -/
def tryLock (p : ℕ) (r : Request) (s : State) : Option State :=
  match conflict p r.LB r.UB s.i_locklist with
  | none =>
    some (.of (lockRange v_flock p r.LB r.UB s.i_locklist ((s.setPc p .idle).error p none)))
  | some nl =>
    if r.flag > 1 then
      some { s with toTable := (s.setPc p .idle).error p (some .eacces) }
    else
      match deadlock p s.i_locklist s.toTable v_flock nl with
      | none => none
      | some true => some { s with toTable := (s.setPc p .idle).error p (some .edeadlock) }
      | some false => some
          { s with
            toTable := s.setPc p (.asleep nl.id r)
            i_locklist := s.i_locklist.map fun x =>
              if x.id = nl.id then { x with iwant := true } else x }

/-- Where a request ends. -/
def upper (LB size : ℤ) : ℤ :=
  if size ≠ 0 then
    let UB := toLong (LB + size)
    if UB ≤ 0 then MAXSIZE else UB
  else MAXSIZE

def locking (p : ℕ) (fp : File) (flag size : ℤ) (s : State) : Option State :=
  -- the error numbers of these two are returned, but not stored
  if ¬fp.vnode ∨ ¬fp.svfs then some { s with toTable := s.error p none }
  else if fp.dir then some { s with toTable := s.error p (some .eacces) }
  else
    let LB := fp.f_offset
    let UB := upper LB size
    if flag = 0 then some (.of (unlockScan v_flock p LB UB s.i_locklist (s.error p none)))
    else tryLock v_flock p ⟨flag, LB, UB⟩ s

/-- A process calls `locking`, or closes the file; it goes on when it was woken up; or a
    signal ends its sleep, and its call. -/
inductive Act
  | locking (p : ℕ) (fp : File) (flag size : ℤ)
  | unlock (p : ℕ)
  | go (p : ℕ)
  | intr (p : ℕ)

def step (s : State) : Act → Option State
  | .locking p fp flag size =>
    if s.pc p = .idle ∧ 0 ≤ fp.f_offset ∧ fp.f_offset < 2 ^ 31 ∧ -2 ^ 31 ≤ size ∧ size < 2 ^ 31 then
      locking v_flock p fp flag size s
    else none
  | .unlock p => if s.pc p = .idle then some (.of (unlock p s.i_locklist s.toTable)) else none
  | .go p =>
    match s.pc p with
    | .idle | .asleep _ _ => none
    | .awake r => tryLock v_flock p r s
  | .intr p =>
    match s.pc p with
    | .idle => none
    | .asleep _ _ | .awake _ =>
      some { s with toTable := (s.setPc p .idle).error p (some .eintr) }

/-- The locks of one inode, none in the beginning, under the calls of all processes. -/
def locks : Machine State Act where
  init s := s = ⟨⟨false, [], fun _ => .idle, fun _ => none⟩, []⟩
  next := step v_flock

end AuxKernel.Locking
