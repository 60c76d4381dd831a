import AuxKernel.System
import AuxKernel.Basic
import Mathlib.Logic.Function.Basic

/-!
# Advisory locks on open files

`flock` (`COMMON/os/sys3.c`) with `vno_lock` and `vno_unlock` (`COMMON/os/vfs_io.c`), for
the open files of one vnode. `vno_lock` waits in two loops: while the vnode is locked
exclusively, and then, for an exclusive lock, while it is shared. A process that sleeps in
one of them (`Pc`) goes on there when it is woken up, unless a signal ends its call.

The loops start again after they have given up a lock of the caller's own file; there are
two of these, so that the third time is the last (`lockLoop`).
-/

namespace AuxKernel.Flock

/-- What `flock` is asked for: the bits `LOCK_EX`, `LOCK_SH` and `LOCK_NB`. -/
structure Cmd where
  ex : Bool
  sh : Bool
  nb : Bool
  deriving DecidableEq, Repr

/-- Where a process sleeps: for the exclusive lock to go, or for the shared ones. -/
inductive Chan
  | ex
  | sh
  deriving DecidableEq, Repr

/-- The place of a process: outside; asleep in `vno_lock`, or woken up in it. -/
inductive Pc
  | idle
  | asleep (c : Chan) (fp : ℕ) (cmd : Cmd)
  | awake (c : Chan) (fp : ℕ) (cmd : Cmd)
  deriving DecidableEq, Repr

/-- The counts and flags of the vnode, the flags `FEXLOCK` and `FSHLOCK` of its open files,
    and the processes with the results of their calls. -/
structure State where
  v_exlockc : ℤ
  v_shlockc : ℤ
  vexlock : Bool
  vshlock : Bool
  vlwait : Bool
  fexlock : ℕ → Bool
  fshlock : ℕ → Bool
  pc : ℕ → Pc
  u_error : ℕ → Option Errno
  panicked : Bool

def State.setPc (s : State) (p : ℕ) (pc : Pc) : State :=
  { s with pc := Function.update s.pc p pc }

/-- A call returns. -/
def State.ret (s : State) (p : ℕ) (e : Option Errno) : State :=
  { s.setPc p .idle with u_error := Function.update s.u_error p e }

def State.panic (s : State) : State := { s with panicked := true }

/-- A process that sleeps on a channel is woken up. -/
def Pc.wake (c : Chan) : Pc → Pc
  | .asleep c' fp cmd => if c' = c then .awake c fp cmd else .asleep c' fp cmd
  | pc => pc

def wakeup (c : Chan) (s : State) : State := { s with pc := fun p => (s.pc p).wake c }

/-! ## Unlocking -/

/-- Give up the shared lock of a file. -/
def unlockSh (s : State) (fp : ℕ) : State :=
  if s.vshlock = false then s.panic
  else
    let c := toUshort (s.v_shlockc - 1)
    let s := { s with v_shlockc := c, fshlock := Function.update s.fshlock fp false }
    if c = 0 then
      let s := { s with vshlock := false }
      if s.vlwait then wakeup .sh s else s
    else s

/-- Give up the exclusive lock of a file. -/
def unlockEx (s : State) (fp : ℕ) : State :=
  if s.vexlock = false then s.panic
  else
    let c := toUshort (s.v_exlockc - 1)
    let vlwait := s.vlwait
    let s := { s with v_exlockc := c, fexlock := Function.update s.fexlock fp false }
    if c = 0 then
      let s := { s with vexlock := false, vlwait := false }
      if vlwait then wakeup .ex s else s
    else s

/-- Give up both locks of a file, where it has them. -/
def vno_unlock (s : State) (fp : ℕ) : State :=
  let s' := if s.fshlock fp then unlockSh s fp else s
  if s.fexlock fp then unlockEx s' fp else s'

/-! ## Locking -/

/-- Nothing is to be waited for any more: the file gets the lock. -/
def grant (s : State) (p fp : ℕ) (cmd : Cmd) : State :=
  if s.fexlock fp ∨ s.fshlock fp then s.panic
  else
    let s := if cmd.sh then { s with
        v_shlockc := toUshort (s.v_shlockc + 1), vshlock := true
        fshlock := Function.update s.fshlock fp true }
      else s
    let s := if cmd.ex then { s with
        v_exlockc := toUshort (s.v_exlockc + 1), vexlock := true
        fexlock := Function.update s.fexlock fp true }
      else s
    s.ret p none

/-- Sleep until a lock goes. -/
def sleepOn (s : State) (p : ℕ) (c : Chan) (fp : ℕ) (cmd : Cmd) : State :=
  { s with vlwait := true }.setPc p (.asleep c fp cmd)

/-- The loop that waits for shared locks to go; `again` starts from the beginning. -/
def shLoop (again : Cmd → State → Option State) (p fp : ℕ) (cmd : Cmd) (s : State) :
    Option State :=
  if s.vshlock then
    if s.fshlock fp then again cmd (unlockSh s fp)
    else if cmd.nb then some (s.ret p (some .ewouldblock))
    else some (sleepOn s p .sh fp cmd)
  else some (grant s p fp cmd)

/-- The loop that waits for the exclusive lock to go, and what follows it. -/
def exLoop (again : Cmd → State → Option State) (p fp : ℕ) (cmd : Cmd) (s : State) :
    Option State :=
  if s.vexlock then
    if s.fexlock fp then again cmd (unlockEx s fp)
    else if cmd.nb then some (s.ret p (some .ewouldblock))
    else some (sleepOn s p .ex fp cmd)
  else if cmd.ex then shLoop again p fp { cmd with sh := false } s
  else some (grant s p fp cmd)

/-- Both loops, started at most `n` times. -/
def lockLoop (p fp : ℕ) : ℕ → Cmd → State → Option State
  | 0, _, _ => none
  | n + 1, cmd, s => exLoop (lockLoop p fp n) p fp cmd s

def vno_lock (s : State) (p fp : ℕ) (cmd : Cmd) : Option State :=
  if (s.fexlock fp ∧ cmd.ex) ∨ (s.fshlock fp ∧ cmd.sh) then some (s.ret p none)
  else lockLoop p fp 3 cmd s

/-! ## The machine -/

/-- A process calls `flock` for a file, to lock it or to unlock it; it goes on when it was
    woken up; or a signal ends its sleep, and its call. -/
inductive Act
  | lock (p fp : ℕ) (cmd : Cmd)
  | unlock (p fp : ℕ)
  | go (p : ℕ)
  | intr (p : ℕ)

/-- A process that was woken up goes on in the loop it slept in. -/
def go (s : State) (p : ℕ) : Option State :=
  match s.pc p with
  | .idle | .asleep _ _ _ => none
  | .awake .ex fp cmd => lockLoop p fp 3 cmd s
  | .awake .sh fp cmd => shLoop (lockLoop p fp 3) p fp cmd s

def step (nfile : ℕ) (s : State) (a : Act) : Option State :=
  if s.panicked then none
  else
    match a with
    | .lock p fp cmd =>
      if fp < nfile ∧ (cmd.ex ∨ cmd.sh) ∧ s.pc p = .idle then vno_lock s p fp cmd else none
    | .unlock p fp => if fp < nfile ∧ s.pc p = .idle then some (vno_unlock s fp) else none
    | .go p => go s p
    | .intr p =>
      match s.pc p with
      | .asleep _ _ _ => some (s.ret p (some .eintr))
      | .idle | .awake _ _ _ => none

/-- The locks of the `nfile` open files of a vnode, none in the beginning, under the calls
    of all processes. -/
def flocks (nfile : ℕ) : Machine State Act where
  init s := s = ⟨0, 0, false, false, false, fun _ => false, fun _ => false, fun _ => .idle,
    fun _ => none, false⟩
  next := step nfile

end AuxKernel.Flock
