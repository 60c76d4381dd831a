import Mathlib.Data.Int.Notation
import Mathlib.Data.Nat.Notation

/-!
# Interval timers

A timer that is decremented at every tick of the clock, and reloaded when it expires
(`COMMON/os/kern_time.c`). What it expires too late by is taken off the value that is reloaded.
-/

namespace AuxKernel.Itimer

/-- A time in seconds and microseconds. -/
structure Timeval where
  tv_sec : ℤ
  tv_usec : ℤ
  deriving DecidableEq, Repr

/-- A timer: what it is reloaded with, and what is left. -/
structure Itimerval where
  it_interval : Timeval
  it_value : Timeval
  deriving DecidableEq, Repr

def Timeval.timerisset (tv : Timeval) : Bool := tv.tv_sec ≠ 0 ∨ tv.tv_usec ≠ 0

/-- Check a value for a timer, and round it up to a tick; `none` is `EINVAL`. -/
def itimerfix (tick : ℤ) (tv : Timeval) : Option Timeval :=
  if tv.tv_sec < 0 ∨ tv.tv_sec > 100000000 ∨ tv.tv_usec < 0 ∨ tv.tv_usec ≥ 1000000 then none
  else if tv.tv_sec = 0 ∧ tv.tv_usec ≠ 0 ∧ tv.tv_usec < tick then some { tv with tv_usec := tick }
  else some tv

/-- A second is borrowed if the microseconds are negative. -/
def Timeval.borrow (tv : Timeval) : Timeval :=
  if tv.tv_usec < 0 then ⟨tv.tv_sec - 1, tv.tv_usec + 1000000⟩ else tv

/-- The timer has expired, `usec` ago: reload it. -/
def expire (itp : Itimerval) (usec : ℤ) : Itimerval :=
  if itp.it_interval.timerisset then
    { itp with it_value :=
        Timeval.borrow ⟨itp.it_interval.tv_sec, itp.it_interval.tv_usec - usec⟩ }
  else { itp with it_value := ⟨itp.it_value.tv_sec, 0⟩ }

/-- Decrement a timer by less than a second; whether it has not expired. -/
def itimerdecr (itp : Itimerval) (usec : ℤ) : Bool × Itimerval :=
  let it_value := itp.it_value
  if it_value.tv_usec < usec ∧ it_value.tv_sec = 0 then
    (false, expire itp (usec - it_value.tv_usec))
  else
    let it_value := if it_value.tv_usec < usec then
        ⟨it_value.tv_sec - 1, it_value.tv_usec + 1000000⟩ else it_value
    let it_value : Timeval := ⟨it_value.tv_sec, it_value.tv_usec - usec⟩
    if it_value.timerisset then (true, { itp with it_value })
    else (false, expire { itp with it_value } 0)

/-! ## Ticks -/

/-- The timer after `n` ticks. -/
def after (tick : ℤ) (itp : Itimerval) : ℕ → Itimerval
  | 0 => itp
  | n + 1 => (itimerdecr (after tick itp n) tick).2

/-- Whether the timer expires at the tick number `n`, counted from one. -/
def expires (tick : ℤ) (itp : Itimerval) (n : ℕ) : Bool :=
  !(itimerdecr (after tick itp (n - 1)) tick).1

/-- How often the timer expires at the first `n` ticks. -/
def expiries (tick : ℤ) (itp : Itimerval) : ℕ → ℕ
  | 0 => 0
  | n + 1 => expiries tick itp n + if expires tick itp (n + 1) then 1 else 0

end AuxKernel.Itimer
