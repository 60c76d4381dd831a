import Mathlib.Data.List.Basic
import Mathlib.Logic.Function.Basic
import AuxKernel.System

/-!
# The block buffers

The buffers of `COMMON/os/vfs_bio.c` that no one has in use are on the free lists `bfreelist`; one
that is in use is marked `B_BUSY`. A buffer may be dirty (`B_DELWRI`) either way: it is written
when it is taken for another block, or by `bflush`.

`bflush` puts the dirty buffers of a vnode that it finds on the free lists in `buflist`, and then
writes them, one after the other. Nobody waits for the writes, but `bwrite` calls the strategy
routine of a device, which may sleep: then the other processes go on, and the interrupts that give
back the buffers that have been written.
-/

namespace AuxKernel.Bio

/-- The room in `buflist`. -/
def SYNCBSIZE : ℕ := 40

/-- A buffer: its vnode, and the flags `B_DELWRI`, `B_BUSY`, `B_ASYNC` and `B_AGE`. -/
structure Buf where
  b_vp : Option ℕ
  delwri : Bool
  busy : Bool
  async : Bool
  age : Bool
  deriving DecidableEq, Repr

/-- The free lists. -/
inductive Queue
  | locked
  | lru
  | age
  | empty
  deriving DecidableEq, Repr

/-- The buffers, by their addresses, and those that are on each free list. -/
structure Cache where
  buf : ℕ → Buf
  bfreelist : Queue → List ℕ

namespace Cache

/-- Change a buffer. -/
def set (c : Cache) (bp : ℕ) (b : Buf) : Cache := { c with buf := Function.update c.buf bp b }

/-- Take a buffer off the free list that it is on. -/
def bremfree (c : Cache) (bp : ℕ) : Cache :=
  { c with bfreelist := fun q => (c.bfreelist q).filter (· ≠ bp) }

/-- Take a buffer off the free list, and mark it as in use. -/
def notavail (c : Cache) (bp : ℕ) : Cache :=
  (c.bremfree bp).set bp { c.buf bp with busy := true }

/-- Begin to write a buffer. -/
def bwrite (c : Cache) (bp : ℕ) : Cache :=
  let b := c.buf bp
  c.set bp { b with delwri := false, age := b.age || b.async && b.delwri }

/-- Put a buffer on a free list, at its head or its end. -/
def brelse (c : Cache) (bp : ℕ) (q : Queue) (front : Bool) : Cache :=
  let c := c.set bp { c.buf bp with busy := false, async := false, age := false }
  let l := c.bfreelist q
  { c with bfreelist := Function.update c.bfreelist q (if front then bp :: l else l ++ [bp]) }

/-- A dirty buffer that is to be written for `vp`, or for all vnodes. -/
def Wanted (c : Cache) (vp : Option ℕ) (bp : ℕ) : Prop :=
  (c.buf bp).delwri = true ∧ (vp = (c.buf bp).b_vp ∨ vp = none)

instance (c : Cache) (vp : Option ℕ) (bp : ℕ) : Decidable (c.Wanted vp bp) :=
  inferInstanceAs (Decidable (_ ∧ _))

/-- Walk over a free list, up to the buffer that is the last one with room in `buflist`. -/
def collectFrom (c : Cache) (vp : Option ℕ) : List ℕ → List ℕ → List ℕ
  | buflist, [] => buflist
  | buflist, bp :: l =>
    if c.Wanted vp bp then
      if (buflist ++ [bp]).length ≥ SYNCBSIZE then buflist ++ [bp]
      else c.collectFrom vp (buflist ++ [bp]) l
    else c.collectFrom vp buflist l

/-- Walk over the free lists but for the one without memory. -/
def collect (c : Cache) (vp : Option ℕ) : List ℕ :=
  c.collectFrom vp (c.collectFrom vp (c.collectFrom vp [] (c.bfreelist .locked))
    (c.bfreelist .lru)) (c.bfreelist .age)

end Cache

/-- Where `bflush` is: before a walk; before `buflist[i]`; in the strategy routine for it; or at the
    end. -/
inductive Pc
  | loop
  | next (i : ℕ)
  | strategy (i : ℕ)
  | done
  deriving DecidableEq, Repr

/-- A call of `bflush`: the buffers that it has stored in `buflist`, and whether it has called
    `notavail` on one that was in use.

    The rest is a record of the run: the buffers that were to be written at the start, those that
    `bflush` has written, and those that others have. -/
structure Flush where
  cache : Cache
  pc : Pc
  buflist : List ℕ
  stray : Bool
  start : ℕ → Bool
  written : ℕ → Bool
  others : ℕ → Bool

/-- What may happen: a step of `bflush`; or, while it sleeps, another process takes a buffer, writes
    or changes one that it has, gives it back (as an interrupt does), or a buffer that is not dirty
    goes to another vnode. -/
inductive Act
  | bflush
  | notavail (bp : ℕ)
  | bwrite (bp : ℕ)
  | delay (bp : ℕ)
  | brelse (bp : ℕ) (q : Queue) (front : Bool)
  | bsetvp (bp : ℕ) (vp : Option ℕ)

namespace Flush

/-- A step of `bflush`. -/
def bflush (vp : Option ℕ) (s : Flush) : Flush :=
  match s.pc with
  | .loop =>
    let buflist := s.cache.collect vp
    { s with buflist := buflist, pc := if buflist = [] then .done else .next 0 }
  | .next i =>
    match s.buflist[i]? with
    | none => { s with pc := .loop }
    | some bp =>
      if s.cache.Wanted vp bp then
        let c := s.cache.set bp { s.cache.buf bp with async := true }
        { s with
          cache := (c.notavail bp).bwrite bp
          stray := s.stray || (s.cache.buf bp).busy
          written := Function.update s.written bp true
          pc := .strategy i }
      else { s with pc := .next (i + 1) }
  | .strategy i => { s with pc := .next (i + 1) }
  | .done => s

/-- What `bflush` does, or another process with a buffer, if it can. -/
def act (vp : Option ℕ) (s : Flush) : Act → Option Flush
  | .bflush => some (s.bflush vp)
  | .notavail bp =>
    if (s.cache.buf bp).busy then none else some { s with cache := s.cache.notavail bp }
  | .bwrite bp =>
    if (s.cache.buf bp).busy then
      some { s with
        cache := s.cache.bwrite bp
        others := if s.cache.Wanted vp bp then Function.update s.others bp true else s.others }
    else none
  | .delay bp =>
    if (s.cache.buf bp).busy then
      some { s with cache := s.cache.set bp { s.cache.buf bp with delwri := true } }
    else none
  | .brelse bp q front =>
    if (s.cache.buf bp).busy ∧ (q = .empty → (s.cache.buf bp).delwri = false) then
      some { s with cache := s.cache.brelse bp q front }
    else none
  | .bsetvp bp vp' =>
    if (s.cache.buf bp).delwri then none
    else some { s with cache := s.cache.set bp { s.cache.buf bp with b_vp := vp' } }

/-- The state after an action: others go on only while `bflush` is in a strategy routine. -/
def next (vp : Option ℕ) (s : Flush) (a : Act) : Option Flush :=
  match s.pc with
  | .strategy _ => s.act vp a
  | _ =>
    match a with
    | .bflush => some (s.bflush vp)
    | _ => none

end Flush

/-- The buffers that no one has in use are those on the free lists, and a buffer without memory is
    not dirty. -/
structure Cache.Wf (c : Cache) : Prop where
  free : ∀ bp, (∃ q, bp ∈ c.bfreelist q) ↔ (c.buf bp).busy = false
  empty : ∀ bp ∈ c.bfreelist .empty, (c.buf bp).delwri = false

end AuxKernel.Bio
