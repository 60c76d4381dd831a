import AuxKernel.System
import AuxKernel.RecordLock.Basic
import Mathlib.Logic.Function.Basic

/-!
# The record lock calls

`setflck` and `cleanlocks`, as steps of a machine on the lock table. The kernel
is not preempted, so a call runs to its end, or to the `SLEEP` of `setflck`: a
pass of its loop is one step. A process asleep holds a record in the chain
`sleeplcks`; when it wakes up, it takes the record back and makes another pass,
or returns if it was woken by a signal.

A file has a header (`Flino`) while it has locks or calls at work on it.
-/

namespace AuxKernel.RecordLock

/-- An open file, with what the calls read of its inode. -/
structure File where
  isVnode : Bool
  isSvfs : Bool
  fread : Bool
  fwrite : Bool
  f_offset : ℤ
  i_dev : ℤ
  i_number : ℤ
  i_size : ℤ

/-- What a header is found by: the device and the number of the inode. -/
def File.id (fp : File) : ℤ × ℤ := (fp.i_dev, fp.i_number)

/-- The header of a file. -/
structure Flino where
  fl_refcnt : ℤ
  fl_flck : List Filock
  deriving DecidableEq, Repr

/-- A record of the chain `sleeplcks`, with the file its process waits for. -/
structure Sleeper where
  id : ℤ × ℤ
  sf : Filock
  deriving DecidableEq, Repr

/-- The lock table: the headers, how many headers and records are free, and the
    records of the sleeping processes. -/
structure Locks where
  flino : ℤ × ℤ → Option Flino
  nfrfid : ℕ
  nfrlock : ℕ
  sleeplcks : List Sleeper

/-! ## Headers -/

/-- Set the header of a file. -/
def Locks.setFlino (s : Locks) (id : ℤ × ℤ) (flip : Option Flino) : Locks :=
  { s with flino := Function.update s.flino id flip }

/-- Find the header of a file, and hold it. -/
def findfid (s : Locks) (id : ℤ × ℤ) : Option Locks :=
  (s.flino id).map fun flip => s.setFlino id (some { flip with fl_refcnt := flip.fl_refcnt + 1 })

/-- Give a file a free header. -/
def allocfid (s : Locks) (id : ℤ × ℤ) : Option Locks :=
  match s.nfrfid with
  | 0 => none
  | n + 1 => some { s.setFlino id (some ⟨1, []⟩) with nfrfid := n }

/-- Let the header of a file go; it is free again once nobody needs it. -/
def freefid (s : Locks) (id : ℤ × ℤ) : Locks :=
  match s.flino id with
  | none => s
  | some flip =>
    if flip.fl_refcnt - 1 ≤ 0 ∧ flip.fl_flck = [] then
      { s.setFlino id none with nfrfid := s.nfrfid + 1 }
    else s.setFlino id (some { flip with fl_refcnt := flip.fl_refcnt - 1 })

/-! ## Requests -/

/-- Convert a start to be relative to `whence`. -/
def convoff (fp : File) (lckdat : Flock) (whence : ℤ) : Except Errno Flock := do
  let start ←
    if lckdat.l_whence = 1 then pure (toLong (lckdat.l_start + fp.f_offset))
    else if lckdat.l_whence = 2 then pure (toLong (lckdat.l_start + fp.i_size))
    else if lckdat.l_whence ≠ 0 then throw .einval
    else pure lckdat.l_start
  if start < 0 then throw .einval
  let start ←
    if whence = 1 then pure (toLong (start - fp.f_offset))
    else if whence = 2 then pure (toLong (start - fp.i_size))
    else if whence ≠ 0 then throw .einval
    else pure start
  return { lckdat with l_start := start, l_whence := whence }

/-- The checks of `setflck`, and the request as it uses it: from the beginning of
    the file, and with its end for its length. -/
def request (fp : File) (lckdat : Flock) : Except Errno Flock :=
  if !fp.isVnode then .error .eopnotsupp
  else if !fp.isSvfs then .error .eremote
  else if (lckdat.l_type = .rdlck ∧ fp.fread = false) ∨
      (lckdat.l_type = .wrlck ∧ fp.fwrite = false) then .error .ebadf
  else do
    let ld ← convoff fp lckdat 0
    if ld.l_len = 0 then return { ld with l_len := MAXEND }
    else return { ld with l_len := toLong (ld.l_len + ld.l_start) }

/-! ## A pass of `setflck` -/

/-- Follow the blocking processes from `blckpid` on: whether this comes to the
    process `pid`. It goes round forever (`none`) if it still goes on after as
    many turns as there are sleepers. -/
def deadLoop (sleeplcks : List Sleeper) (pid : ℤ) : (turns : ℕ) → (blckpid : ℤ) → Option Bool
  | 0, _ => none
  | n + 1, blckpid =>
    if blckpid = pid then some true
    else
      match sleeplcks.find? fun sl => sl.sf.set.l_pid = blckpid with
      | none => some false
      | some sl => deadLoop sleeplcks pid n sl.sf.stat

/-- The deadlock detection for a record of the process `blckpid`. -/
def deadflck (sleeplcks : List Sleeper) (pid blckpid : ℤ) : Option Bool :=
  deadLoop sleeplcks pid (sleeplcks.length + 2) blckpid

/-- How a pass ends: the call returns, or its process sleeps. -/
inductive Outcome
  | ret (retval : Option Errno)
  | sleep
  deriving DecidableEq, Repr

/-- The chain with one more process sleeping on the record pointed to by `found`. -/
def wakeflgUp (chain : List Filock) (found : ℕ) : List Filock :=
  chain.modify (found - 1) fun f => { f with stat := f.stat + 1 }

/-- The process that the record pointed to by `found` belongs to. -/
def ownerOf (flip : Flino) (found : ℕ) : ℤ :=
  (flip.fl_flck[found - 1]?.map fun f => f.set.l_pid).getD 0

/-- Adjust the chain of the header `flip` for a request. -/
def adjust (pid : ℤ) (id : ℤ × ℤ) (flip : Flino) (ld : Flock) (insrt : ℕ) (s : Locks) :
    Locks × Outcome :=
  let (chain, n, retval) := flckadj pid flip.fl_flck s.nfrlock insrt ld
  ({ s.setFlino id (some { flip with fl_flck := chain }) with nfrlock := n }, .ret retval)

/-- A pass for a lock: it is granted, refused, or its process sleeps on the
    record that blocks it; `none` if the deadlock detection goes round forever. -/
def lockPass (pid : ℤ) (id : ℤ × ℤ) (flip : Flino) (ld : Flock) (slpflg : Bool) (s : Locks) :
    Option (Locks × Outcome) :=
  match blocked pid flip.fl_flck ld with
  | (none, insrt) => some (adjust pid id flip ld insrt s)
  | (some found, _) =>
    if slpflg then
      match deadflck s.sleeplcks pid (ownerOf flip found), s.nfrlock with
      | none, _ => none
      | some true, _ => some (s, .ret (some .edeadlk))
      | some false, 0 => some (s, .ret (some .enospc))
      | some false, n + 1 =>
        some ({ s.setFlino id (some { flip with fl_flck := wakeflgUp flip.fl_flck found }) with
          nfrlock := n
          sleeplcks := ⟨id, ⟨{ ld with l_pid := pid }, ownerOf flip found⟩⟩ :: s.sleeplcks },
          .sleep)
    else some (s, .ret (some .eacces))

/-- A pass of the loop of `setflck`, with the header held. -/
def pass (pid : ℤ) (id : ℤ × ℤ) (ld : Flock) (slpflg : Bool) (s : Locks) :
    Option (Locks × Outcome) :=
  (s.flino id).bind fun flip =>
    match ld.l_type with
    | .rdlck | .wrlck => lockPass pid id flip ld slpflg s
    | .unlck => some (adjust pid id flip ld (min 1 flip.fl_flck.length) s)
    | .other _ => some (s, .ret (some .einval))

/-- The end of a pass: a call that returns lets the header go. -/
def endPass (id : ℤ × ℤ) : Locks × Outcome → Locks
  | (s, .ret _) => freefid s id
  | (s, .sleep) => s

/-! ## The machine -/

/-- What processes do: a call of `setflck`, going on with one after sleeping on
    the `k`-th sleeping record (or being interrupted), a call of `cleanlocks`. -/
inductive Act
  | setflck (pid : ℤ) (fp : File) (lckdat : Flock) (slpflg : Bool)
  | resume (k : ℕ) (intr : Bool)
  | cleanlocks (pid : ℤ) (fp : File)

/-- A call of `setflck`, up to its return or its first sleep. -/
def setflck (pid : ℤ) (fp : File) (lckdat : Flock) (slpflg : Bool) (s : Locks) : Option Locks :=
  match request fp lckdat with
  | .error _ => some s
  | .ok ld =>
    match findfid s fp.id with
    | some s => (pass pid fp.id ld slpflg s).map (endPass fp.id)
    | none =>
      if ld.l_type = .unlck then some s
      else
        match allocfid s fp.id with
        | none => some s
        | some s => (pass pid fp.id ld slpflg s).map (endPass fp.id)

/-- A process goes on after its sleep in `setflck`. -/
def resume (k : ℕ) (intr : Bool) (s : Locks) : Option Locks := do
  let sl ← s.sleeplcks[k]?
  let s := { s with sleeplcks := s.sleeplcks.eraseIdx k, nfrlock := s.nfrlock + 1 }
  if intr then some (freefid s sl.id)
  else (pass sl.sf.set.l_pid sl.id sl.sf.set true s).map (endPass sl.id)

/-- A process closes a file: its locks on it are deleted. -/
def cleanlocks (pid : ℤ) (fp : File) (s : Locks) : Locks :=
  if fp.isVnode && fp.isSvfs then
    match findfid s fp.id with
    | none => s
    | some s =>
      match s.flino fp.id with
      | none => s
      | some flip =>
        let kept := flip.fl_flck.filter fun f => f.set.l_pid ≠ pid
        let freed := flip.fl_flck.length - kept.length
        freefid { s.setFlino fp.id (some { flip with fl_flck := kept }) with
          nfrlock := s.nfrlock + freed } fp.id
  else s

/-- The lock table under the calls of all processes. It starts with no header in
    use, so with an empty chain for every file. -/
def locks : Machine Locks Act where
  init s := (∀ id, s.flino id = none) ∧ s.sleeplcks = []
  next s
    | .setflck pid fp lckdat slpflg => setflck pid fp lckdat slpflg s
    | .resume k intr => resume k intr s
    | .cleanlocks pid fp => some (cleanlocks pid fp s)

end AuxKernel.RecordLock
