import AuxKernel.System
import AuxKernel.Basic
import Mathlib.Logic.Function.Basic

/-!
# Blocks of an SVFS file system

`alloc` and `free` (`SVFS/sys/5_alloc.c`), on the super-block and on the contents
of the blocks, as the buffer cache shows them. The free list is a stack: its top
is in the super-block, and the block at the bottom of it holds the next part,
down to a block number `0`.

A call is one step: the list is locked (`s_flock`) while it sleeps. What may go
wrong during a call is part of the step: whether the read of a block of the chain
fails, and whether an error of the process is pending (`u.u_error`).
-/

namespace AuxKernel.Svfs

/-- The numbers of free blocks in the super-block, and in a block of the chain. -/
def NICFREE : ℕ := 50

/-- A block of the chain. -/
structure Fblk where
  df_nfree : ℤ
  df_free : ℕ → ℤ

/-- The super-block: what it says of the blocks. -/
structure Filsys where
  s_isize : ℤ
  s_fsize : ℤ
  s_nfree : ℤ
  s_free : ℕ → ℤ
  s_flock : Bool
  s_fmod : Bool
  s_tfree : ℤ

/-- A file system: its super-block, the size of its blocks, and what they hold. -/
structure Fs where
  fs : Filsys
  bsize : ℤ
  blocks : ℤ → Fblk

/-- A cleared block. -/
def clrbuf : Fblk := ⟨0, fun _ => 0⟩

/-- A block number out of the range between the inodes and the end of the volume. -/
def badblock (fp : Filsys) (bn : ℤ) : Bool := bn < fp.s_isize || bn ≥ fp.s_fsize

/-- Pop block numbers off the super-block, with `n` left there, up to one in range;
    none is left when the number is `0`. -/
def popLoop : (n : ℕ) → Filsys → Filsys × Option ℤ
  | 0, fs => (fs, none)
  | n + 1, fs =>
    let bno := fs.s_free n
    let fs := { fs with s_nfree := n }
    if bno = 0 then (fs, none)
    else if badblock fs bno then popLoop n fs
    else (fs, some bno)

/-- Refill the super-block from the block `bno`, unless there is an error. -/
def refill (f : Fs) (bno : ℤ) (u_error : Bool) : Fs :=
  let fblk := f.blocks bno
  let fs := if u_error then f.fs
    else { f.fs with s_nfree := toShort fblk.df_nfree, s_free := fblk.df_free }
  { f with fs := { fs with s_fmod := false } }

/-- Hand out the block `bno`, cleared, if the super-block is in order. -/
def grant (f : Fs) (bno : ℤ) : Fs × Option ℤ :=
  if f.fs.s_nfree ≤ 0 ∨ f.fs.s_nfree > NICFREE then (f, none)
  else
    let tfree := if f.fs.s_tfree ≠ 0 then f.fs.s_tfree - 1 else f.fs.s_tfree
    ({ f with
      fs := { f.fs with s_tfree := tfree, s_fmod := true }
      blocks := Function.update f.blocks bno clrbuf }, some bno)

/-- Allocate a block: the block, or `none` where the file system is full. The read
    of a block of the chain fails if `ioerr`; `u_error` is pending. It panics
    (`none`) if the size is not that of a block, and waits for the lock. -/
def alloc (f : Fs) (size : ℤ) (ioerr u_error : Bool) : Option (Fs × Option ℤ) :=
  if size ≠ f.bsize ∨ f.fs.s_flock then none
  else
    match popLoop f.fs.s_nfree.toNat f.fs with
    | (fs, none) => some ({ f with fs := fs }, none)
    | (fs, some bno) =>
      if fs.s_nfree ≤ 0 then some (grant (refill { f with fs := fs } bno (u_error || ioerr)) bno)
      else some (grant { f with fs := fs } bno)

/-- The super-block with the end of the list in it, if there is no list. -/
def bottom (fs : Filsys) : Filsys :=
  if fs.s_nfree ≤ 0 then { fs with s_nfree := 1, s_free := Function.update fs.s_free 0 0 } else fs

/-- The list moved from a full super-block to the block `bno`. -/
def spill (f : Fs) (bno : ℤ) : Fs :=
  if f.fs.s_nfree ≥ NICFREE then
    { f with
      fs := { f.fs with s_nfree := 0 }
      blocks := Function.update f.blocks bno ⟨f.fs.s_nfree, f.fs.s_free⟩ }
  else f

/-- Push a block number on the super-block. -/
def push (fs : Filsys) (bno : ℤ) : Filsys :=
  { fs with
    s_free := Function.update fs.s_free fs.s_nfree.toNat bno
    s_nfree := fs.s_nfree + 1
    s_tfree := fs.s_tfree + 1
    s_fmod := true }

/-- Free a block. It panics if the size is not that of a block, and waits for the
    lock. -/
def free (f : Fs) (bno size : ℤ) : Option Fs :=
  if size ≠ f.bsize ∨ f.fs.s_flock then none
  else if badblock f.fs bno then some { f with fs := { f.fs with s_fmod := true } }
  else
    let f := spill { f with fs := bottom f.fs } bno
    some { f with fs := push f.fs bno }

/-! ## The machine -/

/-- A file system and the blocks that are allocated. -/
structure Run where
  f : Fs
  inUse : ℤ → Bool

/-- The calls; and what else happens to the blocks: the owner of an allocated one
    writes it. -/
inductive Act
  | alloc (ioerr u_error : Bool)
  | free (bno : ℤ)
  | write (bno : ℤ) (contents : Fblk)

/-- The block is a data block. -/
def Filsys.InRange (fs : Filsys) (bno : ℤ) : Prop := fs.s_isize ≤ bno ∧ bno < fs.s_fsize

instance (fs : Filsys) (bno : ℤ) : Decidable (fs.InRange bno) := inferInstanceAs (Decidable (_ ∧ _))

/-- The entries `arr k, …, arr 1` of a part of the list, from the top. -/
def listed (arr : ℕ → ℤ) : ℕ → List ℤ
  | 0 => []
  | k + 1 => arr (k + 1) :: listed arr k

/-- The free list from a part of it on, with `n` entries `arr`, from the top: the
    bottom entry is `0`, or the block that holds the next part. -/
inductive Links (blocks : ℤ → Fblk) : (n : ℤ) → (arr : ℕ → ℤ) → List ℤ → Prop
  | last {k : ℕ} {arr : ℕ → ℤ} : k < NICFREE → arr 0 = 0 → Links blocks (k + 1) arr (listed arr k)
  | next {k : ℕ} {arr : ℕ → ℤ} {l : List ℤ} : k < NICFREE → arr 0 ≠ 0 →
      Links blocks (blocks (arr 0)).df_nfree (blocks (arr 0)).df_free l →
      Links blocks (k + 1) arr (listed arr k ++ arr 0 :: l)

/-- `l` is the free list of the file system, from the top; it is empty when there
    is nothing in the super-block. -/
def FreeList (f : Fs) (l : List ℤ) : Prop :=
  (f.fs.s_nfree ≤ 0 ∧ l = []) ∨ Links f.blocks f.fs.s_nfree f.fs.s_free l

/-- The free list has no block twice, and the data blocks are those of it and
    those in use, none of them both. -/
structure Sound (s : Run) : Prop where
  split : ∃ l, FreeList s.f l ∧ l.Nodup ∧
    ∀ bno, (bno ∈ l ↔ s.f.fs.InRange bno ∧ s.inUse bno = false)
  inUse : ∀ bno, s.inUse bno = true → s.f.fs.InRange bno

/-- The blocks of a file system under the calls. It starts with a sound free list;
    there is an i-list, so that `0` is not a data block. -/
def balloc : Machine Run Act where
  init s := Sound s ∧ 0 < s.f.fs.s_isize ∧ s.f.fs.s_flock = false
  next s
    | .alloc ioerr u_error => (alloc s.f s.f.bsize ioerr u_error).map fun (f, bno) =>
      ⟨f, bno.elim s.inUse fun b => Function.update s.inUse b true⟩
    | .free bno => (free s.f bno s.f.bsize).map fun f =>
      ⟨f, Function.update s.inUse bno false⟩
    | .write bno contents =>
      if s.inUse bno then
        some { s with f := { s.f with blocks := Function.update s.f.blocks bno contents } }
      else none

end AuxKernel.Svfs
