import AuxKernel.Records
import AuxKernel.Svfs.Dirlook

/-!
# Listing an SVFS directory

`svfs_readdir` (`SVFS/sys/5_vnodeops.c`): the slots of a directory are converted to records of
variable length, which fill blocks of `DIRBLKSIZ` bytes. A record that does not fit in the rest of
a block goes to the next one, and the last one in the block is made to take the rest.

For a user, a block is filled in `dirbuf`, which is static, and then copied out; else the records
are put where they are wanted. A listing takes its steps between the places where it may sleep: in
`ilock`, where a block of the directory is read, and anywhere in `copyout`.
-/

namespace AuxKernel.Svfs.Readdir

open Directory

/-- A record of a listing. -/
structure Direct where
  d_ino : ℕ
  d_reclen : ℕ
  d_namlen : ℕ
  d_name : List ℕ
  deriving DecidableEq, Repr

/-- A directory: its size, its slots, and the errors with which its blocks cannot be read. -/
structure File where
  i_size : ℕ
  s_type : ℕ
  slot : ℕ → Svfsdirect
  blkatoff : ℕ → Option Errno

/-- Where a listing is: before `ilock`; before a turn of its loop; where it reads a block; at the
    byte `k` of a `copyout`; or at the end. -/
inductive Pc
  | lock
  | loop
  | read
  | copyout (k : ℕ)
  | done (error : Option Errno)
  deriving DecidableEq, Repr

/-- A listing, for a user or not: the `uio`, the variables of `svfs_readdir`, and the memory it is
    wanted in. Addresses in `dirbuf` begin with `0`. -/
structure Listing where
  user : Bool
  uio_offset : ℕ
  uio_resid : ℕ
  iov_base : ℕ
  iov_len : ℕ
  userBaseAddr : ℕ
  transferBase : ℕ
  transferEnd : ℕ
  previousDirPtr : Option ℕ
  bp : Bool
  dest : Memory Direct
  /-- The addresses that a user cannot write. -/
  fault : ℕ → Bool
  pc : Pc

/-- Convert a slot. The length is a multiple of 4. -/
def canonical (dp : Svfsdirect) : Direct :=
  let d_name := chars dp.d_name SVFSDIRSIZ
  let d_reclen := 4 + 2 + 2 + d_name.length + 1
  { d_ino := dp.d_ino
    d_reclen := if d_reclen % 4 ≠ 0 then (d_reclen + 3) / 4 * 4 else d_reclen
    d_namlen := d_name.length
    d_name := d_name }

/-- The record takes `count` more bytes. -/
def Direct.stretch (count : ℕ) (r : Direct) : Direct := { r with d_reclen := r.d_reclen + count }

/-- Check a request, and begin the listing. -/
def svfs_readdir (user : Bool) (uio_iovcnt iov_base iov_len uio_offset uio_resid : ℕ)
    (dest : Memory Direct) (fault : ℕ → Bool) : Except Errno Listing :=
  if uio_iovcnt ≠ 1 ∨ iov_len < DIRBLKSIZ ∨ uio_offset % sizeofDirect ≠ 0 then .error .einval
  else
    let transferCount := iov_len / DIRBLKSIZ * DIRBLKSIZ
    let transferBase := if user then 0 else iov_base
    .ok
      { user := user
        uio_offset := uio_offset
        uio_resid := uio_resid - (iov_len - transferCount)
        iov_base := iov_base
        iov_len := transferCount
        userBaseAddr := iov_base
        transferBase := transferBase
        transferEnd := transferBase + DIRBLKSIZ
        previousDirPtr := none
        bp := false
        dest := dest
        fault := fault
        pc := .lock }

namespace Listing

/-- Change the memory that blocks are filled in. -/
def onBuffer (l : Listing) (dirbuf : Memory Direct) (g : Memory Direct → Memory Direct) :
    Listing × Memory Direct :=
  if l.user then (l, g dirbuf) else ({ l with dest := g l.dest }, dirbuf)

/-- `count` bytes more are transferred, up to `base`; if a block for a user is full, it is copied
    out. -/
def transfer (l : Listing) (base count : ℕ) : Listing :=
  { l with
    transferBase := base
    iov_base := l.iov_base + count
    iov_len := l.iov_len - count
    uio_resid := l.uio_resid - count
    pc := if l.user ∧ base ≥ DIRBLKSIZ then .copyout 0 else .loop }

/-- Convert a slot, and put it in the block. It panics (`none`) if there is no record before one
    that does not fit. -/
def convert (f : File) (l : Listing) (dirbuf : Memory Direct) :
    Option (Listing × Memory Direct) :=
  let r := canonical (f.slot (l.uio_offset / sizeofDirect))
  if l.transferBase + r.d_reclen > l.transferEnd then
    -- The last entry takes the rest of the block.
    let count := l.transferEnd - l.transferBase
    let base := l.transferEnd
    l.previousDirPtr.map fun p =>
      let (l, dirbuf) := l.onBuffer dirbuf (Memory.modify · p (Direct.stretch count))
      ({ l with transferEnd := if l.user then l.transferEnd else base + DIRBLKSIZ }.transfer base
        count, dirbuf)
  else
    let p := l.transferBase
    let base := l.transferBase + r.d_reclen
    let (l, dirbuf) := l.onBuffer dirbuf (Memory.put Direct.d_reclen · p r)
    let l := { l with uio_offset := l.uio_offset + sizeofDirect, previousDirPtr := some p }
    if l.uio_offset ≥ f.i_size then
      let rest := l.transferEnd - base
      let (l, dirbuf) := l.onBuffer dirbuf (Memory.modify · p (Direct.stretch rest))
      some (l.transfer l.transferEnd (r.d_reclen + rest), dirbuf)
    else some (l.transfer base r.d_reclen, dirbuf)

/-- One step of a listing of the directory `f`. -/
def step (f : File) (l : Listing) (dirbuf : Memory Direct) : Option (Listing × Memory Direct) :=
  match l.pc with
  | .lock => some ({ l with pc := .loop }, dirbuf)
  | .loop =>
    if l.uio_resid > 0 ∧ l.uio_offset < f.i_size then
      if FsBLKOFF f.s_type l.uio_offset = 0 ∨ l.bp = false then
        some ({ l with pc := .read }, dirbuf)
      else l.convert f dirbuf
    else some ({ l with pc := .done none }, dirbuf)
  | .read =>
    match f.blkatoff l.uio_offset with
    | some e => some ({ l with bp := false, pc := .done (some e) }, dirbuf)
    | none => { l with bp := true }.convert f dirbuf
  | .copyout k =>
    if l.fault (l.userBaseAddr + k) then
      some ({ l with userBaseAddr := l.iov_base, pc := .done (some .efault) }, dirbuf)
    else
      let l := { l with dest := Function.update l.dest (l.userBaseAddr + k) (dirbuf k) }
      if k + 1 < DIRBLKSIZ then some ({ l with pc := .copyout (k + 1) }, dirbuf)
      else some ({ l with userBaseAddr := l.iov_base, transferBase := 0, pc := .loop }, dirbuf)
  | .done _ => some (l, dirbuf)

/-- The listing after `n` steps, with no other one around. -/
def run (f : File) : ℕ → Listing × Memory Direct → Option (Listing × Memory Direct)
  | 0, s => some s
  | n + 1, s => (step f s.1 s.2).bind (run f n)

end Listing

end AuxKernel.Svfs.Readdir
