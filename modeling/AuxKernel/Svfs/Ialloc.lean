import AuxKernel.System
import AuxKernel.Basic
import AuxKernel.Svfs.Params
import Mathlib.Logic.Function.Basic

/-!
# Inodes of an SVFS file system

`ialloc` and `ifree` (`SVFS/sys/5_alloc.c`), on what the super-block says of the
inodes and on the modes in the i-list. The super-block lists free inodes
(`s_inode`, `s_ninode` of them). When the list has run out, `ialloc` fills it by a
search of the i-list, which starts at the block of `s_inode[0]`: this is where the
search before it has stopped.

A call is one step: the list is locked (`s_ilock`) while it sleeps, and the mode of
an inode in core is the one on the disk. What may go wrong during a call is part of
the step: for which inodes `iget` finds no room in the inode table, and which reads
of the i-list fail.
-/

namespace AuxKernel.Svfs.Ilist

/-- The numbers of free inodes in the super-block. -/
def NICINOD : ℕ := 100

/-- The super-block: what it says of the inodes. -/
structure Filsys where
  s_isize : ℕ
  s_ninode : ℕ
  s_inode : ℕ → ℕ
  s_ilock : Bool
  s_fmod : Bool
  s_tinode : ℤ
  s_type : ℕ

/-- The inodes in a block. -/
def FsINOPB (fsp : Filsys) : ℕ := if fsp.s_type = Fs2b then 16 else 8

/-- The block of the inode `x`. -/
def FsITOD (fsp : Filsys) (x : ℕ) : ℕ :=
  if fsp.s_type = Fs2b then (x + (2 * 16 - 1)) / 16 else (x + (2 * 8 - 1)) / 8

/-- The place of the inode `x` in its block. -/
def FsITOO (fsp : Filsys) (x : ℕ) : ℕ :=
  if fsp.s_type = Fs2b then (x + (2 * 16 - 1)) % 16 else (x + (2 * 8 - 1)) % 8

/-- The inode at which a search from the inode `x` starts. -/
def FsINOS (fsp : Filsys) (x : ℕ) : ℕ :=
  if fsp.s_type = Fs2b then x / 16 * 16 + 1 else x / 8 * 8 + 1

/-- The modes in the i-list: `di_mode` of an inode, by block and place. -/
abbrev Modes := ℕ → ℕ → ℕ

/-- The mode of the inode `ino`, `0` if it is free. -/
def Modes.di_mode (m : Modes) (fsp : Filsys) (ino : ℕ) : ℕ := m (FsITOD fsp ino) (FsITOO fsp ino)

/-- `ino_t` is a `ushort`. -/
def toIno (n : ℕ) : ℕ := n % 2 ^ 16

/-- Put the free inodes of a block on the list, from the place `i` on with `n` places
    left, until the list is full: the list, and the number of the next inode. -/
def scanBlock (blk : ℕ → ℕ) : (n i : ℕ) → Filsys → (ino : ℕ) → Filsys × ℕ
  | 0, _, fs, ino => (fs, ino)
  | n + 1, i, fs, ino =>
    if fs.s_ninode = 0 then (fs, ino)
    else
      let fs := if blk i = 0 then
        { fs with
          s_ninode := fs.s_ninode - 1
          s_inode := Function.update fs.s_inode (fs.s_ninode - 1) ino }
      else fs
      scanBlock blk n (i + 1) fs (toIno (ino + 1))

/-- Search the i-list from the block `adr` on, with `n` blocks left. A block which
    cannot be read is passed over, and so is one read with an error pending. -/
def scan (m : Modes) (ioerr : ℕ → Bool) :
    (n adr : ℕ) → (u_error : Bool) → Filsys → (ino : ℕ) → Filsys
  | 0, _, _, fs, _ => fs
  | n + 1, adr, u_error, fs, ino =>
    let u_error := u_error || ioerr adr
    if u_error then scan m ioerr n (adr + 1) u_error fs (toIno (ino + FsINOPB fs))
    else
      let (fs, ino) := scanBlock (m adr) (FsINOPB fs) 0 fs ino
      if fs.s_ninode = 0 then fs else scan m ioerr n (adr + 1) u_error fs ino

/-- Fill the list, from the top down. Where it does not get full, a `0` ends it, and
    the next search starts at the first inode. -/
def fill (m : Modes) (ioerr : ℕ → Bool) (u_error : Bool) (fs : Filsys) : Filsys :=
  let ino := FsINOS fs (fs.s_inode 0)
  let adr := FsITOD fs ino
  let fs := scan m ioerr (fs.s_isize - adr) adr u_error { fs with s_ninode := NICINOD } ino
  if 0 < fs.s_ninode then
    { fs with s_inode := Function.update (Function.update fs.s_inode (fs.s_ninode - 1) 0) 0 0 }
  else fs

/-- The number on top of the list, which is taken off it; none where the list is empty
    or the number is `0`. -/
def pop (fs : Filsys) : Filsys × Option ℕ :=
  if 0 < fs.s_ninode then
    let ino := fs.s_inode (fs.s_ninode - 1)
    ({ fs with s_ninode := fs.s_ninode - 1 }, if ino = 0 then none else some ino)
  else (fs, none)

/-- What the loop of `ialloc` ends with: a free inode, an inode for which there is no
    room in core, or none. -/
inductive Found
  | inode (ino : ℕ)
  | nofile (ino : ℕ)
  | nospace
  deriving DecidableEq, Repr

/-- The loop of `ialloc`, up to `n` turns of it: `iget` of the inode on top of the list,
    until one is free. It waits (`none`) for the lock. -/
def look (m : Modes) (iget ioerr : ℕ → Bool) (u_error : Bool) : (n : ℕ) → Filsys →
    Option (Filsys × Found)
  | 0, _ => none
  | n + 1, fs =>
    if fs.s_ilock then none
    else
      match pop fs with
      | (fs, some ino) =>
        if !iget ino then some (fs, .nofile ino)
        else if m.di_mode fs ino = 0 then some (fs, .inode ino)
        -- Inode was allocated after all. Look some more.
        else look m iget ioerr u_error n fs
      | (fs, none) =>
        let fs := fill m ioerr u_error fs
        if fs.s_ninode ≠ NICINOD then
          look m iget ioerr u_error n { fs with s_ninode := NICINOD }
        else some ({ fs with s_ninode := 0, s_tinode := 0 }, .nospace)

/-- What a call of `ialloc` returns: an inode, or an error. -/
inductive Ret
  | inode (ino : ℕ)
  | error (e : Errno)
  deriving DecidableEq, Repr

/-- Write the mode of the inode `ino`. -/
def Modes.write (m : Modes) (fsp : Filsys) (ino mode : ℕ) : Modes :=
  Function.update m (FsITOD fsp ino) (Function.update (m (FsITOD fsp ino)) (FsITOO fsp ino) mode)

/-- Allocate an inode of mode `mode`, with at most `n` turns of the loop. -/
def ialloc (n : ℕ) (m : Modes) (fs : Filsys) (mode : ℕ) (iget ioerr : ℕ → Bool) (u_error : Bool) :
    Option (Modes × Filsys × Ret) :=
  (look m iget ioerr u_error n fs).map fun
    | (fs, .inode ino) =>
      (m.write fs ino mode,
        { fs with
          s_tinode := if fs.s_tinode ≠ 0 then fs.s_tinode - 1 else fs.s_tinode
          s_fmod := true }, .inode ino)
    | (fs, .nofile _) => (m, fs, .error .enfile)
    | (fs, .nospace) => (m, fs, .error .enospc)

/-- Put the inode `ino` on the list; where that is full, let the next search start
    at it. -/
def ifree (fs : Filsys) (ino : ℕ) : Filsys :=
  let fs := { fs with s_tinode := toUshort (fs.s_tinode + 1) }
  if fs.s_ilock then fs
  else
    let fs := { fs with s_fmod := true }
    if NICINOD ≤ fs.s_ninode then
      if ino < fs.s_inode 0 then { fs with s_inode := Function.update fs.s_inode 0 ino } else fs
    else
      { fs with s_inode := Function.update fs.s_inode fs.s_ninode ino, s_ninode := fs.s_ninode + 1 }

/-! ## The machine -/

/-- A file system: its i-list, its super-block, and which inodes `ialloc` has returned
    that have not been freed since. -/
structure Run where
  m : Modes
  fs : Filsys
  held : ℕ → Bool

/-- The calls. In one of `ialloc`, the inode table has room for the inodes `iget`; in one
    of `ifree`, the inode is one in use, whose mode its last user has cleared. -/
inductive Act
  | ialloc (mode : ℕ) (iget : ℕ → Bool)
  | ifree (ino : ℕ)

/-- The inode is in the i-list. -/
def Filsys.OnDevice (fs : Filsys) (ino : ℕ) : Prop := 0 < ino ∧ FsITOD fs ino < fs.s_isize

instance (fs : Filsys) (ino : ℕ) : Decidable (fs.OnDevice ino) :=
  inferInstanceAs (Decidable (_ ∧ _))

/-- The inode is free. -/
def Run.Free (s : Run) (ino : ℕ) : Prop := s.fs.OnDevice ino ∧ s.m.di_mode s.fs ino = 0

instance (s : Run) (ino : ℕ) : Decidable (s.Free ino) := inferInstanceAs (Decidable (_ ∧ _))

/-- The inodes are numbered in an `ino_t`, and the super-block is in order: the list is
    not locked nor too long, its numbers are `0` or of inodes, a `0` comes with a
    search from the first inode, and the inodes `free` are listed or else not
    before the place where the next search starts. -/
structure Sound (fs : Filsys) (free : ℕ → Prop) : Prop where
  numbered : (fs.s_isize - 2) * FsINOPB fs < 2 ^ 16
  fits : fs.s_ninode ≤ NICINOD
  unlocked : fs.s_ilock = false
  entries : ∀ i < NICINOD, fs.s_inode i = 0 ∨ fs.OnDevice (fs.s_inode i)
  hint : (∃ i < fs.s_ninode, fs.s_inode i = 0) → fs.s_inode 0 = 0
  covered : ∀ ino, free ino → FsINOS fs (fs.s_inode 0) ≤ ino ∨ ∃ i < fs.s_ninode, fs.s_inode i = ino

/-- The inodes of a file system under the calls, without disk errors. The mode given to
    `ialloc` says what the inode is, and is not `0`. -/
def inodes : Machine Run Act where
  init s := Sound s.fs s.Free ∧ ∀ ino, s.held ino = false
  next s
    | .ialloc mode iget =>
      if mode = 0 then none
      else
        (ialloc (s.fs.s_ninode + 2) s.m s.fs mode iget (fun _ => false) false).map fun
          | (m, fs, .inode ino) => ⟨m, fs, Function.update s.held ino true⟩
          | (m, fs, .error _) => ⟨m, fs, s.held⟩
    | .ifree ino =>
      if s.fs.OnDevice ino ∧ s.m.di_mode s.fs ino ≠ 0 then
        some ⟨s.m.write s.fs ino 0, ifree s.fs ino, Function.update s.held ino false⟩
      else none

end AuxKernel.Svfs.Ilist
