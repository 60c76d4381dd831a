import Mathlib.Data.Finset.Basic
import Mathlib.Logic.Function.Basic

/-!
# Signals

Posting a signal to a process, and looking for one to act on (`PAGING/os/sig.c`), with putting
processes to run and waking them up (`PAGING/os/slp.c`). A process has System V signals or BSD
signals, and there is code for each.

A set of signals is the set of their numbers. A process is on a sleep queue if it has a channel
(`p_wchan`), which only processes have that sleep or are stopped (`Proc.queued`), and on the run
queue if it is `srun` and not running: the links of the queues are left out. So are `splhi` and
`splx` around what handles the queues; the interrupt priority is that of `spl6` and its `splx`.

What is not in these files is a parameter (`Outside`).
-/

namespace AuxKernel.Signal

/-! ## Constants -/

def NSIG : ℕ := 32

def SIGKILL : ℕ := 9

def SIGTERM : ℕ := 15

/-- Also `SIGUSR1`. -/
def SIGURG : ℕ := 16

/-- Also `SIGUSR2`. -/
def SIGIO : ℕ := 17

def SIGCLD : ℕ := 18

def SIGPWR : ℕ := 19

def SIGTSTP : ℕ := 20

def SIGTTIN : ℕ := 21

def SIGTTOU : ℕ := 22

def SIGSTOP : ℕ := 23

def SIGWINCH : ℕ := 28

def SIGCONT : ℕ := 29

/-- The signals that stop a process from a terminal. -/
def ttyStops : Finset ℕ := {SIGTSTP, SIGTTIN, SIGTTOU}

/-- The signals that stop a process. -/
def stops : Finset ℕ := {SIGSTOP, SIGTSTP, SIGTTIN, SIGTTOU}

/-- A process that sleeps at a greater priority value can be interrupted. -/
def PZERO : ℤ := 25

def NZERO : ℤ := 20

def PUSER : ℤ := 60

/-! ## Processes -/

inductive Stat
  | ssleep
  | srun
  | szomb
  | sstop
  | sidl
  | sonproc
  | sxbrk
  deriving DecidableEq, Repr

/-- What a process sleeps on: something about a process, or else. -/
inductive Chan
  | proc (p : ℕ)
  | other (n : ℕ)
  deriving DecidableEq, Repr

/-- What a process does with a signal (`u_signal`). -/
inductive Handler
  | dfl
  | ign
  | hold
  | fn
  deriving DecidableEq, Repr

/-- A process; its flags are `strc`, `swted`, `sload` and `spgrp42`, and `bsd` is the
    compatibility flag for signals. -/
structure Proc where
  p_stat : Stat
  p_pri : ℤ
  p_nice : ℤ
  p_time : ℤ
  p_wchan : Option Chan
  p_cursig : ℕ
  p_sig : Finset ℕ
  p_sigmask : Finset ℕ
  p_sigignore : Finset ℕ
  p_sigcatch : Finset ℕ
  p_ppid : ℤ
  p_parent : ℕ
  bsd : Bool
  strc : Bool
  swted : Bool
  sload : Bool
  spgrp42 : Bool
  u_signal : ℕ → Handler
  queued : p_wchan ≠ none → p_stat = .ssleep ∨ p_stat = .sstop

namespace Proc

/-- It sleeps. -/
def sleep (x : Proc) : Proc := { x with p_stat := .ssleep, queued := fun _ => .inl rfl }

/-- It is stopped. -/
def halt (x : Proc) : Proc := { x with p_stat := .sstop, queued := fun _ => .inr rfl }

/-- It is off its sleep queue. -/
def unsleep (x : Proc) : Proc := { x with p_wchan := none, queued := fun h => absurd rfl h }

/-- It is off its sleep queue, and runs. -/
def run (x : Proc) : Proc :=
  { x with p_wchan := none, p_stat := .srun, queued := fun h => absurd rfl h }

end Proc

/-- The processes below `nproc`, the interrupt priority, and what the scheduler looks at. -/
structure Kernel where
  nproc : ℕ
  proc : ℕ → Proc
  ipl : ℕ
  runout : ℤ
  runrun : ℤ
  curpri : ℤ

/-- Change a process. -/
def Kernel.set (k : Kernel) (p : ℕ) (x : Proc) : Kernel :=
  { k with proc := Function.update k.proc p x }

/-- Change the interrupt priority. -/
def Kernel.spl (k : Kernel) (s : ℕ) : Kernel := { k with ipl := s }

/-- What other code does: switching to other processes and back (`swtch`), freeing the children
    of a process that are zombies (`reap`), stopping a process that is traced and has no job
    control (`stopTraced`), and keeping it stopped until its parent lets it go (`traced`). -/
structure Outside where
  swtch : Kernel → Kernel
  reap : ℕ → Kernel → Kernel
  stopTraced : ℕ → Kernel → Kernel
  traced : ℕ → Kernel → Kernel

/-! ## Sleeping and waking up -/

/-- Put a process to run; the scheduler is put to run by `again` if it waits for one that is
    not in core. -/
def runnable (again : Kernel → Kernel) (p : ℕ) (k : Kernel) : Kernel :=
  let x := k.proc p
  if x.p_stat = .srun then k
  else if x.sload then
    let k := k.set p x.run
    if x.p_pri < k.curpri then { k with runrun := k.runrun + 1 } else k
  else
    let k := k.set p { x.run with p_time := 0 }
    if k.runout > 0 then again { k with runout := 0 } else k

/-- Put a process to run. When it puts the scheduler to run, `runout` is zero. -/
def setrun (p : ℕ) (k : Kernel) : Kernel := runnable (runnable id 0) p k

/-- Wake up a process, if it is on the channel. One that is stopped stays so. -/
def wakeOne (chan : Chan) (k : Kernel) (q : ℕ) : Kernel :=
  let x := k.proc q
  if x.p_wchan = some chan then
    if x.p_stat = .ssleep then
      if x.sload then
        let k := k.set q x.run
        if x.p_pri < k.curpri then { k with runrun := k.runrun + 1 } else k
      else { k.set q { x.run with p_time := 0 } with
        runout := if k.runout > 0 then -k.runout else k.runout }
    else k.set q x.unsleep
  else k

/-- Wake up the processes on a channel. -/
def wakeup (chan : Chan) (k : Kernel) : Kernel :=
  let k := (List.range k.nproc).foldl (wakeOne chan) k
  if k.runout < 0 then setrun 0 { k with runout := 0 } else k

variable (o : Outside)

/-- Stop a process, and tell its parent by `psignal`. -/
def stop (psignal : ℕ → ℕ → Kernel → Kernel) (p : ℕ) (k : Kernel) : Kernel :=
  let x := k.proc p
  if x.spgrp42 ∨ ¬x.strc then
    let k := wakeup (.proc x.p_parent) (k.set p { x.halt with swted := false })
    if x.strc then k else psignal x.p_parent SIGCLD k
  else o.stopTraced p k

/-! ## Posting -/

/-- Post a signal. -/
def post (p sig : ℕ) (k : Kernel) : Kernel :=
  k.set p { k.proc p with p_sig := insert sig (k.proc p).p_sig }

/-- Take a signal away. -/
def takeAway (p sig : ℕ) (k : Kernel) : Kernel :=
  k.set p { k.proc p with p_sig := (k.proc p).p_sig.erase sig }

/-- Take the signals away that stop a process, also the one it acts on. -/
def takeStops (p : ℕ) (k : Kernel) : Kernel :=
  let x := k.proc p
  k.set p { x with
    swted := false
    p_sig := x.p_sig \ stops
    p_cursig := if x.p_cursig ∈ stops then 0 else x.p_cursig }

/-- How a part of the code ends: by a return, or by going on with what is behind it. -/
inductive Flow
  | ret (k : Kernel)
  | next (k : Kernel)

/-- What is behind is done unless it returned. -/
def Flow.andThen (f : Kernel → Kernel) : Flow → Kernel
  | .ret k => k
  | .next k => f k

/-- `SIGKILL`, with System V signals. -/
def killSysV (p : ℕ) (k : Kernel) : Kernel :=
  let x := { k.proc p with swted := false }
  let k' := (k.set p x).spl 6
  (if x.p_stat = .sstop then if x.p_wchan ≠ none then k'.set p x.sleep else setrun p k'
    else k').spl k.ipl

/-- `SIGCONT`, with System V signals. -/
def contSysV (p : ℕ) (caught : Bool) (k : Kernel) : Flow :=
  let k' := takeStops p (k.spl 6)
  let x := k'.proc p
  if x.p_stat = .sstop then
    .ret ((if ¬caught ∧ x.p_wchan ≠ none then k'.set p x.sleep else setrun p k').spl k.ipl)
  else .next (k'.spl k.ipl)

/-- A signal that stops the process, with System V signals. -/
def stopSysV (psignal : ℕ → ℕ → Kernel → Kernel) (p sig : ℕ) (caught : Bool) (k : Kernel) : Flow :=
  let x := k.proc p
  if sig ≠ SIGSTOP ∧ ¬x.spgrp42 then .ret (takeAway p sig k)
  else if x.strc then .next k
  else
    let k := takeAway p SIGCONT k
    match x.p_stat with
    | .ssleep =>
      -- at a raised priority, which is lowered before what follows
      if caught then .next k
      else
        let k := takeAway p sig k
        if sig ≠ SIGSTOP ∧ x.p_ppid = 1 then .ret (psignal p SIGKILL k)
        else .ret (stop o psignal p (k.set p { k.proc p with p_cursig := sig }))
    | .sstop =>
      -- it returns without lowering the priority
      .ret (takeAway p sig (k.spl 6))
    | _ => .next k

/-- `SIGWINCH`, with System V signals. -/
def winchSysV (p sig : ℕ) (caught : Bool) (k : Kernel) : Flow :=
  if (k.proc p).p_stat = .ssleep ∧ ¬caught then
    -- it returns without lowering the priority
    .ret (takeAway p sig (k.spl 6))
  else .next k

/-- A process that can be interrupted notices the signal. -/
def notice (p : ℕ) (k : Kernel) : Kernel :=
  let x := k.proc p
  let k' := k.spl 6
  (if x.p_pri > PZERO then
    match x.p_stat with
    | .ssleep => setrun p k'
    | .sstop => if x.p_wchan ≠ none then k'.set p x.unsleep else k'
    | _ => k'
  else k').spl k.ipl

/-- The cases of a signal, with System V signals. -/
def switchSysV (psignal : ℕ → ℕ → Kernel → Kernel) (p sig : ℕ) (caught : Bool) (k : Kernel) :
    Flow :=
  if sig = SIGKILL then .next (killSysV p k)
  else if sig = SIGCONT then contSysV p caught k
  else if sig ∈ stops then stopSysV o psignal p sig caught k
  else if sig = SIGWINCH then winchSysV p sig caught k
  else .next k

/-- Post a signal, with System V signals. -/
def psignalSysV (psignal : ℕ → ℕ → Kernel → Kernel) (p sig : ℕ) (k : Kernel) : Kernel :=
  let x := k.proc p
  if sig = 0 ∨ sig > NSIG then k
  else if sig ∈ x.p_sigignore ∧ sig ≠ SIGCLD then k
  else (switchSysV o psignal p sig (sig ∈ x.p_sigcatch) (post p sig k)).andThen (notice p)

/-- What is done by default, on a catch, or when the signal is held. -/
inductive Action
  | dfl
  | caught
  | hold
  deriving DecidableEq, Repr

/-- What is done with a signal that is not ignored, with BSD signals. -/
def action (x : Proc) (sig : ℕ) : Action :=
  if x.strc then .dfl
  else if sig ∈ x.p_sigmask then .hold
  else if sig ∈ x.p_sigcatch then .caught
  else .dfl

/-- Post a signal, with what that does to other signals, with BSD signals. -/
def postBSD (p sig : ℕ) (act : Action) (k : Kernel) : Flow :=
  if sig = 0 then .next k
  else
    let k := post p sig k
    let x := k.proc p
    let nice := k.set p { x with p_nice := min x.p_nice NZERO }
    if sig = SIGTERM then .next (if x.strc ∨ act ≠ .dfl then k else nice)
    else if sig = SIGKILL then .next nice
    else if sig = SIGCONT then .next (takeStops p k)
    else if sig ∈ ttyStops ∧ ¬x.spgrp42 then .ret (takeAway p sig k)
    else if sig ∈ stops then .next (takeAway p SIGCONT k)
    else .next k

/-- Put a process to run, at the priority of users at least. It is not `srun`, and so on no run
    queue. -/
def runBSD (p : ℕ) (k : Kernel) : Kernel :=
  let x := k.proc p
  setrun p (if x.p_pri > PUSER then k.set p { x with p_pri := PUSER } else k)

/-- A process that sleeps, with BSD signals. -/
def sleepBSD (psignal : ℕ → ℕ → Kernel → Kernel) (p sig : ℕ) (act : Action) (k : Kernel) :
    Kernel :=
  let x := k.proc p
  if x.p_pri ≤ PZERO then k
  else if x.strc then runBSD p k
  else if sig ∈ stops then
    if act ≠ .dfl then runBSD p k
    else if sig ≠ SIGSTOP ∧ x.p_parent = 1 then takeAway p sig (psignal p SIGKILL k)
    else
      let k := takeAway p sig k
      stop o psignal p (k.set p { k.proc p with p_cursig := sig })
  else if sig = SIGIO ∨ sig = SIGURG ∨ sig = SIGWINCH then
    if act ≠ .dfl then runBSD p k else takeAway p sig k
  else if sig = SIGCLD then
    if act ≠ .dfl then runBSD p k else wakeup (.proc p) (takeAway p sig k)
  else runBSD p k

/-- A process that is stopped, with BSD signals. -/
def sstopBSD (p sig : ℕ) (act : Action) (k : Kernel) : Kernel :=
  let x := k.proc p
  if x.strc then k
  else if sig = SIGKILL then runBSD p k
  else if sig = SIGCONT then
    if act ≠ .dfl ∨ x.p_wchan = none then runBSD p k else k.set p x.sleep
  else if sig ∈ stops then takeAway p sig k
  else if x.p_wchan ≠ none ∧ x.p_pri > PZERO then k.set p x.unsleep
  else k

/-- What the process does about a signal that is posted and not held, with BSD signals. -/
def actBSD (psignal : ℕ → ℕ → Kernel → Kernel) (p sig : ℕ) (act : Action) (k : Kernel) : Kernel :=
  let k' := k.spl 6
  (match (k.proc p).p_stat with
    | .ssleep => sleepBSD o psignal p sig act k'
    | .sstop => sstopBSD p sig act k'
    | _ => k').spl k.ipl

/-- Post a signal, with BSD signals. -/
def psignalBSD (psignal : ℕ → ℕ → Kernel → Kernel) (p sig : ℕ) (k : Kernel) : Kernel :=
  let x := k.proc p
  if sig ≥ NSIG then k
  else if ¬x.strc ∧ sig ∈ x.p_sigignore then if sig = SIGCLD then wakeup (.proc p) k else k
  else
    let act := action x sig
    (postBSD p sig act k).andThen fun k => if act = .hold then k else actBSD o psignal p sig act k

/-- Post a signal; it posts others itself by `again`. -/
def psignalWith (again : ℕ → ℕ → Kernel → Kernel) (p sig : ℕ) (k : Kernel) : Kernel :=
  if (k.proc p).bsd then psignalBSD o again p sig k else psignalSysV o again p sig k

/-- Post a signal. What it posts itself is `SIGKILL` and `SIGCLD`, which post nothing. -/
def psignal (p sig : ℕ) (k : Kernel) : Kernel :=
  psignalWith o (psignalWith o fun _ _ k => k) p sig k

/-! ## Acting on signals -/

/-- The lowest signal of a set. -/
def fsig (sigs : Finset ℕ) : ℕ := ((List.range' 1 NSIG).find? (· ∈ sigs)).getD 0

/-- How a round of `issig` ends: with a signal to act on, or going on. -/
inductive Round
  | send (sig : ℕ) (k : Kernel)
  | next (k : Kernel)

/-- The signal is one to act on unless it is ignored; with System V signals. -/
def check (p sig : ℕ) (k : Kernel) : Round :=
  let x := k.proc p
  if x.u_signal sig = .dfl ∨ x.u_signal sig = .fn ∨ x.strc then .send sig k
  else .next (takeAway p sig k)

/-- Stop for a signal. -/
def halt (p sig : ℕ) (k : Kernel) : Kernel :=
  let k := takeAway p sig k
  o.swtch (stop o (psignal o) p (k.set p { k.proc p with p_cursig := sig }))

/-- A round of `issig`, with System V signals. -/
def roundSysV (p : ℕ) (k : Kernel) : Round :=
  let x := k.proc p
  let sig := fsig x.p_sig
  let h := x.u_signal sig
  if sig = SIGCLD then
    if h = .ign ∨ h = .hold then .next (takeAway p sig (o.reap p k))
    else if h = .fn then .send sig k
    else .next (takeAway p sig k)
  else if sig = SIGPWR then if h = .fn then .send sig k else .next (takeAway p sig k)
  else if sig ∈ stops then
    if h ≠ .dfl then check p sig k
    else if sig ≠ SIGSTOP ∧ x.p_ppid = 1 then .next (takeAway p sig (psignal o p SIGKILL k))
    else if x.strc then .next (takeAway p sig k)
    else .next (takeAway p sig (halt o p sig k))
  else if (sig = SIGCONT ∨ sig = SIGWINCH) ∧ h = .dfl then .next (takeAway p sig k)
  else check p sig k

/-- Look for a signal to act on, in at most `n` rounds, with System V signals. -/
def issigSysV (p : ℕ) : ℕ → Kernel → Option (ℕ × Kernel)
  | 0, _ => none
  | n + 1, k =>
    if (k.proc p).p_sig = ∅ then some (0, k)
    else
      match roundSysV o p k with
      | .send sig k => some (sig, k)
      | .next k => issigSysV p n k

/-- What is done with a signal that was taken, with BSD signals. -/
def takeBSD (p sig : ℕ) (k : Kernel) : Round :=
  let x := k.proc p
  match x.u_signal sig with
  | .dfl =>
    if x.p_ppid = 0 then .next k
    else if sig ∈ ttyStops ∧ x.p_parent = 1 then .next (psignal o p SIGKILL k)
    else if sig ∈ stops then
      if x.strc then .next k else .next (o.swtch (stop o (psignal o) p k))
    else if sig = SIGCONT ∨ sig = SIGCLD ∨ sig = SIGURG ∨ sig = SIGIO ∨ sig = SIGWINCH then .next k
    else .send sig k
  | .ign | .hold => .next k
  | .fn => .send sig k

/-- The signals to look at, with BSD signals. -/
def sigbits (x : Proc) : Finset ℕ :=
  (x.p_sig \ x.p_sigmask) \ (if x.strc then ∅ else x.p_sigignore)

/-- A round of `issig` with some signal to look at, with BSD signals. A process that is traced
    stops first, until its parent says which signal it shall take. -/
def roundBSD (p : ℕ) (k : Kernel) : Round :=
  let sig := fsig (sigbits (k.proc p))
  let k := takeAway p sig k
  let k := k.set p { k.proc p with p_cursig := sig }
  if (k.proc p).strc then
    let k := o.traced p k
    let cursig := (k.proc p).p_cursig
    if ¬(k.proc p).strc then .next (post p sig k)
    else if cursig = 0 then .next k
    else if cursig ∈ (k.proc p).p_sigmask then .next (post p cursig k)
    else takeBSD o p cursig k
  else takeBSD o p sig k

/-- Look for a signal to act on, in at most `n` rounds, with BSD signals. -/
def issigBSD (p : ℕ) : ℕ → Kernel → Option (ℕ × Kernel)
  | 0, _ => none
  | n + 1, k =>
    if sigbits (k.proc p) = ∅ then some (0, k.set p { k.proc p with p_cursig := 0 })
    else
      match roundBSD o p k with
      | .send sig k => some (sig, k)
      | .next k => issigBSD p n k

/-- Look for a signal that the process has to act on, in at most `n` rounds. -/
def issig (p n : ℕ) (k : Kernel) : Option (ℕ × Kernel) :=
  if (k.proc p).bsd then
    if (k.proc p).p_cursig ≠ 0 then some ((k.proc p).p_cursig, k) else issigBSD o p n k
  else issigSysV o p n k

end AuxKernel.Signal
