import Mathlib.Logic.Function.Basic
import AuxKernel.System
import AuxKernel.Basic

/-!
# Callouts

`timeout`, `untimeout` and `timein`, and the tick of `clock` (`PAGING/os/clock.c`). The callouts
on `calltodo` are a list, in the order of their pointers `c_next`, and of those on `callfree`
only the number matters; functions and their arguments are numbers.

The times `c_time` are differences: those of the callouts that are due are zero or negative,
the ticks since they are, and the first of the others has the ticks that are left to it,
every further one those from the one before it.

The machine (`callouts`) numbers the calls of `timeout` (`serial`), and remembers the tick at
which each is to be due, those that were run (`ran`), and those that were removed.
-/

namespace AuxKernel.Callout

/-- A callout that was asked for by the call `serial`. -/
structure Callout where
  c_time : ℤ
  c_arg : ℕ
  c_func : ℕ
  serial : ℕ
  deriving DecidableEq, Repr

/-- A callout that was run at `tick`, with its last time as second argument. -/
structure Ran where
  serial : ℕ
  tick : ℤ
  a : ℤ
  deriving DecidableEq, Repr

structure State where
  calltodo : List Callout
  callfree : ℕ
  now : ℤ
  calls : ℕ
  due : ℕ → ℤ
  ran : List Ran
  removed : List ℕ

/-- The clock decrements the times of what is due, and the first one that is not. -/
def tick : List Callout → List Callout
  | [] => []
  | p1 :: l =>
    let c_time := toLong (p1.c_time - 1)
    if 0 < c_time then { p1 with c_time } :: l
    else if c_time = 0 then { p1 with c_time } :: l
    else { p1 with c_time } :: tick l

/-- Enter a new callout `t` ticks from now. -/
def enter (pnew : Callout) : (t : ℤ) → List Callout → List Callout
  | t, [] => [{ pnew with c_time := t }]
  | t, p2 :: l =>
    if p2.c_time < t then p2 :: enter pnew (if 0 < p2.c_time then toLong (t - p2.c_time) else t) l
    else { pnew with c_time := t } :: { p2 with c_time := toLong (p2.c_time - t) } :: l

/-- Leave the time of a callout `p2` that is removed to the next one. -/
def bump (p2 : Callout) : List Callout → List Callout
  | [] => []
  | next :: l =>
    if 0 < p2.c_time then { next with c_time := toLong (next.c_time + p2.c_time) } :: l
    else next :: l

/-- Remove the first callout of the function and argument, if there is one. -/
def remove (func arg : ℕ) : List Callout → Option (Callout × List Callout)
  | [] => none
  | p2 :: l =>
    if p2.c_func = func ∧ p2.c_arg = arg then some (p2, bump p2 l)
    else (remove func arg l).map fun r => (r.1, p2 :: r.2)

/-- Arrange that the function is called in `t` ticks. -/
def timeout (func arg : ℕ) (t : ℤ) (s : State) : Option State :=
  let t := if t = 0 then 1 else t
  if s.callfree = 0 then none
  else some { s with
    callfree := s.callfree - 1
    calltodo := enter ⟨0, arg, func, s.calls⟩ t s.calltodo
    calls := s.calls + 1 }

/-- Remove a callout. -/
def untimeout (func arg : ℕ) (s : State) : State :=
  match remove func arg s.calltodo with
  | none => s
  | some (p2, l) => { s with
      calltodo := l
      callfree := s.callfree + 1
      removed := s.removed ++ [p2.serial] }

/-- One pass of the loop of `timein`: run the first callout, if it is due. -/
def pass (s : State) : Option State :=
  match s.calltodo with
  | [] => none
  | p1 :: l =>
    if 0 < p1.c_time then none
    else some { s with
      calltodo := l
      callfree := s.callfree + 1
      ran := s.ran ++ [⟨p1.serial, s.now, p1.c_time⟩] }

/-- Run what is due. -/
def timein : (fuel : ℕ) → State → Option State
  | 0, _ => none
  | n + 1, s =>
    match pass s with
    | none => some s
    | some s => timein n s

/-! ## Runs -/

/-- What may happen; the functions that `timein` calls are free to do all of it between its
    passes. -/
inductive Action
  | timeout (func arg : ℕ) (t : ℤ)
  | untimeout (func arg : ℕ)
  | clock
  | pass
  deriving DecidableEq, Repr

def next (s : State) : Action → Option State
  | .timeout func arg t =>
    if 0 ≤ t ∧ t < 2 ^ 31 then
      timeout func arg t { s with due := Function.update s.due s.calls (s.now + max t 1) }
    else none
  | .untimeout func arg => some (untimeout func arg s)
  | .clock => some { s with calltodo := tick s.calltodo, now := s.now + 1 }
  | .pass => pass s

/-- At first all callouts are free. -/
def callouts : Machine State Action where
  init s := s.calltodo = [] ∧ s.calls = 0 ∧ s.ran = [] ∧ s.removed = []
  next := next

end AuxKernel.Callout
