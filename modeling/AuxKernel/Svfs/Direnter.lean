import AuxKernel.Svfs.Dirlook
import Mathlib.Logic.Function.Basic

/-!
# Entering and removing names in SVFS directories

`direnter` and `dirremove` (`SVFS/sys/5_dir.c`), with what they call: a file is created under a
name, or linked to it, or renamed to it, in which case it takes the place of the file that has the
name; or a name is removed. The link counts of the files and of the directories that a `".."`
stands in are raised before the entries are written, and lowered after it.

A call is one step. Whether a check of the access fails, a directory is found above another one, a
block cannot be read or allocated, and an inode cannot be had, is part of the call (`Env`); so are
the in-core inodes that `iget` and `ialloc` return. What becomes of a file without links when it is
let go is left out, but for the file that a call has made itself.
-/

namespace AuxKernel.Svfs.Direnter

open Directory

/-- The number of the root. -/
def ROOTINO : ℕ := 2

/-- An in-core inode: its number, file system and device, whether it is a directory, how many
    links it has, its size, and the slots in its blocks. -/
structure Inode where
  i_number : ℕ
  v_vfsp : ℕ
  i_dev : ℕ
  s_type : ℕ
  isdir : Bool
  i_nlink : BitVec 16
  i_size : ℕ
  slot : ℕ → Svfsdirect

/-- The in-core inodes. -/
abbrev Incore := ℕ → Inode

/-- The modes of an access. -/
inductive Access
  | exec
  | write
  | execWrite
  deriving DecidableEq, Repr

/-- Which part of a call reads a block: the search for the name, the preparation of the slot, the
    change of the `".."`, or the making of a directory. -/
inductive Reader
  | search
  | prepare
  | dotdot
  | make
  deriving DecidableEq, Repr

/-- What a call gets of its environment: the errors of the checks of the access, of the way up
    from a directory to the root, of a lookup, of the reads of a block at an offset of a file, and
    of the allocation of one; the inodes for a number and for a new file; which reads of an entry
    fail; and which inodes are texts that are being executed. -/
structure Env where
  iaccess : ℕ → Access → Option Errno
  path : Option Errno
  dirlook : Except Errno ℕ
  iget : ℕ → Except Errno ℕ
  ialloc : Except Errno ℕ
  blkatoff : Reader → ℕ → ℕ → Option Errno
  bmap : Reader → ℕ → ℕ → Option Errno
  rdwri : ℕ → ℕ → Bool
  vtext : ℕ → Bool

variable (env : Env)

/-! ## Changing an inode -/

/-- Raise the link count of an inode. -/
def link (s : Incore) (p : ℕ) : Incore :=
  Function.update s p { s p with i_nlink := (s p).i_nlink + 1 }

/-- Lower the link count of an inode. -/
def unlink (s : Incore) (p : ℕ) : Incore :=
  Function.update s p { s p with i_nlink := (s p).i_nlink - 1 }

/-- Put a slot in a directory. -/
def setSlot (s : Incore) (p k : ℕ) (ep : Svfsdirect) : Incore :=
  Function.update s p { s p with slot := Function.update (s p).slot k ep }

/-- Set the size of a file. -/
def setSize (s : Incore) (p i_size : ℕ) : Incore :=
  Function.update s p { s p with i_size := i_size }

/-- Set the inode of an entry. -/
def setIno (s : Incore) (p k ino : ℕ) : Incore :=
  setSlot s p k { (s p).slot k with d_ino := ino }

/-- Take the links of a file that the call has made, and let go of it. -/
def irele (s : Incore) (p : ℕ) : Incore :=
  Function.update s p { s p with i_nlink := 0, isdir := false, i_size := 0 }

/-! ## Reading directories -/

/-- The slots that a search examines. -/
def Inode.slots (ip : Inode) : ℕ := roundup ip.i_size DIRBLKSIZ / sizeofDirect

/-- The name `"."`. -/
def dot : ℕ → ℕ := fun i => if i < 1 then 46 else 0

/-- What a search of a directory for a name ends with: the entry, with its slot and its inode; the
    first empty slot, if there is one; or an error. -/
inductive Found
  | exist (k ip : ℕ)
  | absent (slot : Option ℕ)
  | failed (e : Errno)
  deriving DecidableEq, Repr

/-- Search the slots of a directory for a name, from the slot `k` on with `n` left. -/
def searchFrom (s : Incore) (tdp : ℕ) (namep : ℕ → ℕ) : (n k : ℕ) → (slot : Option ℕ) → Found
  | 0, _, slot => .absent slot
  | n + 1, k, slot =>
    let offset := sizeofDirect * k
    -- On a block boundary, read the next directory block.
    match if FsBLKOFF (s tdp).s_type offset = 0 then env.blkatoff .search tdp offset else none with
    | some e => .failed e
    | none =>
      let ep := (s tdp).slot k
      if dirmangled ep then searchFrom s tdp namep n (k + 1) slot
      else
        let slot := if slot.isNone ∧ ep.d_ino = 0 then some k else slot
        if ep.d_ino ≠ 0 ∧ strncmp namep ep.d_name SVFSDIRSIZ = 0 then
          if (s tdp).i_number = ep.d_ino then .exist k tdp
          else
            match env.iget ep.d_ino with
            | .error e => .failed e
            | .ok ip => .exist k ip
        else searchFrom s tdp namep n (k + 1) slot

/-- Check for the existence of a name. -/
def dircheckforname (s : Incore) (tdp : ℕ) (namep : ℕ → ℕ) (slot : Option ℕ) : Found :=
  searchFrom env s tdp namep (s tdp).slots 0 slot

/-- The entry is `"."` or `".."`. -/
def isDots (ep : Svfsdirect) : Bool :=
  ep.d_name 0 = 46 && (ep.d_name 1 = 0 || (ep.d_name 1 = 46 && ep.d_name 2 = 0))

/-- Check if a directory is empty or not; it is not where it cannot be read. -/
def dirempty (s : Incore) (ip : ℕ) : Bool :=
  (List.range (((s ip).i_size + (sizeofDirect - 1)) / sizeofDirect)).all fun k =>
    let ep := (s ip).slot k
    !env.rdwri ip (sizeofDirect * k) && decide (sizeofDirect * k + sizeofDirect ≤ (s ip).i_size) &&
      (ep.d_ino = 0 || isDots ep)

/-- Check if the source directory is in the path of the target directory. -/
def dircheckpath (s : Incore) (source target : ℕ) : Option Errno :=
  if (s target).i_number = (s source).i_number then some .einval
  else if (s target).i_number = ROOTINO then none
  else env.path

/-! ## Writing directories -/

/-- The error with which the `".."` of the directory `dp` cannot be changed. -/
def dotdotError (s : Incore) (dp npdp : ℕ) : Option Errno :=
  -- This is an ex-directory.
  if (s dp).i_nlink = 0 ∨ (s dp).i_size < sizeofDirect * 2 then none
  else
    match env.blkatoff .dotdot dp 0 with
    | some e => some e
    | none =>
      if ((s dp).slot 1).d_ino = (s npdp).i_number then none
      else if strncmp ((s dp).slot 1).d_name dotdot 3 ≠ 0 then some .einval
      else none

/-- Fix the `".."` of the directory `dp` from the old parent directory to the new one. -/
def dirfixdotdot (s : Incore) (dp : ℕ) (opdp : Option ℕ) (npdp : ℕ) : Incore × Option Errno :=
  match dotdotError env s dp npdp with
  | some e => (s, some e)
  | none =>
    if (s dp).i_nlink = 0 ∨ (s dp).i_size < sizeofDirect * 2 then (s, none)
    else if ((s dp).slot 1).d_ino = (s npdp).i_number then (s, none)
    else
      let s := setIno (link s npdp) dp 1 (s npdp).i_number
      match opdp with
      | none => (s, none)
      | some o => (if (s o).i_nlink ≠ 0 then unlink s o else s, none)

/-- The slot for a new entry: the empty one that has been found, or the one after the last. -/
def slotOf (s : Incore) (dp : ℕ) (slot : Option ℕ) : ℕ := slot.getD (s dp).slots

/-- Clear the slots of a new unit of a directory. -/
def bzero (s : Incore) (dp k : ℕ) : Incore :=
  Function.update s dp { s dp with
    slot := fun j =>
      if k ≤ j ∧ j < k + DIRBLKSIZ / sizeofDirect then ⟨0, fun _ => 0⟩ else (s dp).slot j }

/-- Prepare a directory slot to receive an entry. -/
def dirprepareentry (s : Incore) (dp : ℕ) (slot : Option ℕ) : Incore × Option Errno :=
  let k := slotOf s dp slot
  let offset := sizeofDirect * k
  match if slot.isNone then env.bmap .prepare dp offset else none with
  | some e => (s, some e)
  | none =>
    let entryend := offset + sizeofDirect
    -- Adjust directory size, if needed.
    let s := if entryend > (s dp).i_size then setSize s dp entryend else s
    match env.blkatoff .prepare dp offset with
    | some e => (s, some e)
    | none => (if slot.isNone then bzero s dp k else s, none)

/-- Copy at most `n` characters of a name over another one. -/
def nfsstrncpy (s1 s2 : ℕ → ℕ) (n : ℕ) : ℕ → ℕ := fun i =>
  if i < n ∧ ∀ j < i, s2 j ≠ 0 then s2 i else s1 i

/-- Enter the file `sip` in the directory `tdp`. -/
def diraddentry (s : Incore) (tdp : ℕ) (namep : ℕ → ℕ) (slot : Option ℕ) (sip : ℕ)
    (sdp : Option ℕ) : Incore × Option Errno :=
  let k := slotOf s tdp slot
  match dirprepareentry env s tdp slot with
  | (s, some e) => (s, some e)
  | (s, none) =>
    let (s, error) :=
      if (s tdp).v_vfsp ≠ (s sip).v_vfsp then (s, some .exdev)
      else if (s sip).isdir then dirfixdotdot env s sip sdp tdp
      else (s, none)
    match error with
    -- Clear out the entry.
    | some e => (setIno s tdp k 0, some e)
    | none =>
      (setSlot s tdp k
        ⟨(s sip).i_number, nfsstrncpy ((s tdp).slot k).d_name namep SVFSDIRSIZ⟩, none)

/-- Make a prototype directory in the inode `ip`. -/
def dirmakedirect (s : Incore) (ip dp : ℕ) : Incore × Option Errno :=
  match env.bmap .make ip 0 with
  | some e => (s, some e)
  | none =>
    let s := setSize s ip (sizeofDirect * 2)
    match env.blkatoff .make ip 0 with
    | some e => (s, some e)
    | none =>
      -- This reflects the `".."` entry.
      let s := link s dp
      (setSlot (setSlot s ip 0 ⟨(s ip).i_number, dot⟩) ip 1 ⟨(s dp).i_number, dotdot⟩, none)

/-- Allocate and initialize a new inode that will go into the directory `tdp`, for a directory
    (`vdir`) or for another file. -/
def dirmakeinode (s : Incore) (tdp : ℕ) (vdir : Bool) : Incore × Except Errno ℕ :=
  match env.ialloc with
  | .error e => (s, .error e)
  | .ok ip =>
    let s := Function.update s ip
      { s ip with isdir := vdir, i_nlink := if vdir then 2 else 1, i_size := 0 }
    match if vdir then dirmakedirect env s ip tdp else (s, none) with
    | (s, some e) => (irele s ip, .error e)
    | (s, none) => (s, .ok ip)

/-! ## Entering a name -/

/-- The operations: a file is created, linked, or renamed. -/
inductive Op
  | create
  | link
  | rename
  deriving DecidableEq, Repr

/-- What a call returns: an error, and an inode. -/
structure Ret where
  error : Option Errno
  ip : Option ℕ
  deriving DecidableEq, Repr

/-- The checks of a rename before it rewrites the entry of `tip` for `sip`. -/
def renameError (s : Incore) (sip tdp tip : ℕ) : Option Errno :=
  match env.iaccess tdp .write with
  | some e => some e
  | none =>
    if (s tip).v_vfsp ≠ (s tdp).v_vfsp ∨ (s tip).v_vfsp ≠ (s sip).v_vfsp then some .exdev
    else if (s tip).isdir then
      if (s sip).isdir = false then some .enotdir
      else if dirempty env s tip = false ∨ (s tip).i_nlink.toInt > 2 then some .enotempty
      else none
    else if (s sip).isdir then some .enotdir
    else none

/-- Rename the entry `k` in the directory `tdp` so that it points to `sip` instead of `tip`. It
    panics (`none`) if `tip` is a directory with links left. -/
def dirrename (s : Incore) (sdp : Option ℕ) (sip tdp tip k : ℕ) :
    Option (Incore × Option Errno) :=
  match renameError env s sip tdp tip with
  | some e => some (s, some e)
  | none =>
    let doingdirectory := (s sip).isdir
    let s := unlink (setIno s tdp k (s sip).i_number) tip
    if doingdirectory then
      -- Once more, as it was a directory.
      let s := unlink s tip
      if (s tip).i_nlink ≠ 0 then none
      else
        let s := setSize s tip 0
        if sdp ≠ some tdp then some (dirfixdotdot env (unlink s tdp) sip sdp tdp)
        else some (s, none)
    else some (s, none)

/-- The checks of `direnter` before it searches for the name. -/
def enterError (s : Incore) (tdp : ℕ) (op : Op) (sdp : Option ℕ) (sip : ℕ) : Option Errno :=
  if (s tdp).isdir = false then some .enotdir
  else if (s tdp).i_nlink = 0 then some .enoent
  else
    match env.iaccess tdp .exec with
    | some e => some e
    | none =>
      if op = .rename ∧ (s sip).isdir ∧ sdp ≠ some tdp then
        match env.iaccess sip .write with
        | some e => some e
        | none => dircheckpath env s sip tdp
      else none

/-- The name is there, for the inode `tip`. -/
def enterExisting (s : Incore) (tdp : ℕ) (op : Op) (sdp : Option ℕ) (sip tip k : ℕ) (ipp : Bool) :
    Option (Incore × Ret) :=
  match op with
  | .create => some (s, if ipp then ⟨some .eexist, some tip⟩ else ⟨none, none⟩)
  | .rename =>
    -- Short circuit rename (foo, foo).
    if (s sip).i_number = (s tip).i_number then some (s, ⟨some .esame, none⟩)
    else (dirrename env s sdp sip tdp tip k).map fun (s, e) => (s, ⟨e, none⟩)
  | .link => some (s, ⟨some .eexist, none⟩)

/-- The entry does not exist. -/
def enterNew (s : Incore) (tdp : ℕ) (namep : ℕ → ℕ) (op : Op) (sdp : Option ℕ) (sip : ℕ)
    (vdir ipp : Bool) (slot : Option ℕ) : Incore × Ret :=
  match env.iaccess tdp .write with
  | some e => (s, ⟨some e, none⟩)
  | none =>
    match if op = .create then dirmakeinode env s tdp vdir else (s, .ok sip) with
    | (s, .error e) => (s, ⟨some e, none⟩)
    | (s, .ok sip) =>
      match diraddentry env s tdp namep slot sip sdp with
      | (s, some e) =>
        if op = .create then
          -- Unmake the inode we just made.
          let s := if (s sip).isdir then unlink s tdp else s
          (irele s sip, ⟨some e, none⟩)
        else (s, ⟨some e, none⟩)
      | (s, none) => (s, ⟨none, if ipp then some sip else none⟩)

/-- The part of `direnter` with the directory locked. -/
def enterLocked (s : Incore) (tdp : ℕ) (namep : ℕ → ℕ) (op : Op) (sdp : Option ℕ) (sip : ℕ)
    (vdir ipp : Bool) : Option (Incore × Ret) :=
  match enterError env s tdp op sdp sip with
  | some e => some (s, ⟨some e, none⟩)
  | none =>
    match dircheckforname env s tdp namep none with
    | .failed e => some (s, ⟨some e, none⟩)
    | .exist k tip => enterExisting env s tdp op sdp sip tip k ipp
    | .absent slot => some (enterNew env s tdp namep op sdp sip vdir ipp slot)

/-- Write a new directory entry. -/
def direnter (s : Incore) (tdp : ℕ) (namep : ℕ → ℕ) (op : Op) (sdp : Option ℕ) (sip : ℕ)
    (vdir ipp : Bool) : Option (Incore × Ret) :=
  if strncmp namep dot 2 = 0 ∨ strncmp namep dotdot 3 = 0 then
    if op = .rename then some (s, ⟨some .enotempty, none⟩)
    else if ipp then
      match env.dirlook with
      | .error e => some (s, ⟨some e, none⟩)
      | .ok ip => some (s, ⟨some .eexist, some ip⟩)
    else some (s, ⟨some .eexist, none⟩)
  else if dirbadname namep SVFSDIRSIZ then some (s, ⟨some .eperm, none⟩)
  else if op = .create then enterLocked env s tdp namep op sdp sip vdir ipp
  else if (s sip).i_nlink = 0 then some (s, ⟨some .enoent, none⟩)
  else
    (enterLocked env (link s sip) tdp namep op sdp sip vdir ipp).map fun (s, r) =>
      -- Undo bumped link count.
      (if r.error.isSome then unlink s sip else s, r)

/-! ## Removing a name -/

/-- The checks of `dirremove` for the inode `ip` that has the name. -/
def removeError (s : Incore) (dp ip : ℕ) (oip : Option ℕ) (rmdir : Bool) : Option Errno :=
  if oip.isSome ∧ oip ≠ some ip then some .enoent
  -- Don't remove a mounted on directory.
  else if (s ip).i_dev ≠ (s dp).i_dev then some .ebusy
  else if rmdir ∧ (s ip).isdir ∧ ((s ip).i_nlink ≠ 2 ∨ dirempty env s ip = false) then
    some .enotempty
  else if env.vtext ip ∧ (s ip).i_nlink = 1 then some .etxtbsy
  else none

/-- Delete a directory entry; it is to be that of `oip`, if this is given. -/
def dirremove (s : Incore) (dp : ℕ) (namep : ℕ → ℕ) (oip : Option ℕ) (rmdir : Bool) :
    Incore × Option Errno :=
  if strncmp namep dot SVFSDIRSIZ = 0 then (s, some .einval)
  else if strncmp namep dotdot SVFSDIRSIZ = 0 then (s, some .enotempty)
  else if (s dp).isdir = false then (s, some .enotdir)
  else
    match env.iaccess dp .execWrite with
    | some e => (s, some e)
    | none =>
      match dircheckforname env s dp namep (some 0) with
      | .failed e => (s, some e)
      | .absent _ => (s, some .enoent)
      | .exist k ip =>
        match removeError env s dp ip oip rmdir with
        | some e => (s, some e)
        | none =>
          let s := setIno s dp k 0
          if (s ip).i_nlink.toInt > 0 then
            if rmdir ∧ (s ip).isdir then
              (setSize (unlink (unlink (unlink s ip) ip) dp) ip 0, none)
            else (unlink s ip, none)
          else (s, none)

/-! ## Calls -/

/-- A call: `direnter`, for a directory or another file if it creates one, with the inode wanted
    or not; or `dirremove`. -/
inductive Call
  | enter (tdp : ℕ) (namep : ℕ → ℕ) (op : Op) (sdp : Option ℕ) (sip : ℕ) (vdir ipp : Bool)
  | remove (dp : ℕ) (namep : ℕ → ℕ) (oip : Option ℕ) (rmdir : Bool)

/-- The state after a call, and what it returns. -/
def Call.run (s : Incore) : Call → Option (Incore × Ret)
  | .enter tdp namep op sdp sip vdir ipp => direnter env s tdp namep op sdp sip vdir ipp
  | .remove dp namep oip rmdir =>
    let (s, e) := dirremove env s dp namep oip rmdir
    some (s, ⟨e, none⟩)

end AuxKernel.Svfs.Direnter
