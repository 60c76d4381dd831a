import Mathlib.Order.Bounds.Basic
import AuxKernel.Itimer.Drift

/-!
# The real time timer

The real time timer of a process (`COMMON/os/kern_time.c`) has the time at which it goes off, and
`realitexpire` is called through a timeout. That may be late, and the clock may be set; it may be
early, since ticks are counted. The interval is added until the time is later than now, so the
timer keeps to the times at which it is due, and delays make one signal of several.

* `realitimer_exact`: in every run the timer is what an ideal one would be that skips the due times
  that are past (`nextDue_isLeast`).
-/

namespace AuxKernel.Itimer

def timercmp (cmp : ℤ → ℤ → Bool) (tvp uvp : Timeval) : Bool :=
  cmp tvp.tv_sec uvp.tv_sec || tvp.tv_sec = uvp.tv_sec && cmp tvp.tv_usec uvp.tv_usec

/-- Carry a second, or borrow one. -/
def timevalfix (t1 : Timeval) : Timeval :=
  let t1 := t1.borrow
  if t1.tv_usec ≥ 1000000 then ⟨t1.tv_sec + 1, t1.tv_usec - 1000000⟩ else t1

def timevaladd (t1 t2 : Timeval) : Timeval :=
  timevalfix ⟨t1.tv_sec + t2.tv_sec, t1.tv_usec + t2.tv_usec⟩

/-- A process and the clock: its timer, whether there is a timeout for it, how many signals it
    has got, and what time it is. -/
structure Realtimer where
  p_realtimer : Itimerval
  timeout : Bool
  sigalrm : ℕ
  time : Timeval

namespace Realtimer

variable (tick : ℤ) (fuel : ℕ) (s : Realtimer)

/-- Put the timer in place; `none` is `EINVAL`. -/
def setitimer (itv : Itimerval) : Option Realtimer :=
  match itimerfix tick itv.it_value, itimerfix tick itv.it_interval with
  | some it_value, some it_interval =>
    if it_value.timerisset then
      some { s with p_realtimer := ⟨it_interval, timevaladd it_value s.time⟩, timeout := true }
    else some { s with p_realtimer := ⟨it_interval, it_value⟩, timeout := false }
  | _, _ => none

/-- The loop that looks for the next time. -/
def expireLoop (time it_interval : Timeval) : (fuel : ℕ) → (it_value : Timeval) → Option Timeval
  | 0, _ => none
  | fuel + 1, it_value =>
    let it_value := timevaladd it_value it_interval
    if timercmp (fun a b => a > b) it_value time then some it_value
    else expireLoop time it_interval fuel it_value

/-- Send the signal, and put the timer forward. -/
def expired (it_value : Timeval) (timeout : Bool) : Realtimer :=
  { s with p_realtimer := { s.p_realtimer with it_value }, timeout, sigalrm := s.sigalrm + 1 }

/-- The timer has expired. -/
def realitexpire : Option Realtimer :=
  let itv := s.p_realtimer
  if itv.it_interval.timerisset = false then some (s.expired ⟨0, 0⟩ false)
  else (expireLoop s.time itv.it_interval fuel itv.it_value).map fun tv => s.expired tv true

end Realtimer

/-- The clock goes on, or is set; the process sets its timer; its timeout is called, if there is
    one. -/
inductive Act
  | clock (time : Timeval)
  | setitimer (itv : Itimerval)
  | realitexpire

namespace Realtimer

def step (tick : ℤ) (fuel : ℕ) (s : Realtimer) : Act → Option Realtimer
  | .clock time => some { s with time }
  | .setitimer itv => some ((s.setitimer tick itv).getD s)
  | .realitexpire => if s.timeout then s.realitexpire fuel else some s

def run (tick : ℤ) (fuel : ℕ) (s : Realtimer) : List Act → Option Realtimer
  | [] => some s
  | a :: acts => (s.step tick fuel a).bind fun s => run tick fuel s acts

/-- There is no timer yet. -/
def init : Realtimer := ⟨⟨⟨0, 0⟩, ⟨0, 0⟩⟩, false, 0, ⟨0, 0⟩⟩

end Realtimer

/-! ## The ideal timer -/

/-- The next time after `now` that a timer is due that has been due, or is yet, at `due`. -/
def nextDue (due interval now : ℤ) : ℤ := due + interval * max 1 ((now - due) / interval + 1)

/-- A timer in microseconds: when it goes off, and how often it did. -/
structure Alarm where
  now : ℤ
  interval : ℤ
  due : Option ℤ
  alarms : ℕ

namespace Alarm

def step (tick : ℤ) (a : Alarm) : Act → Alarm
  | .clock time => { a with now := time.micros }
  | .setitimer itv =>
    match itimerfix tick itv.it_value, itimerfix tick itv.it_interval with
    | some it_value, some it_interval =>
      { a with
        interval := it_interval.micros
        due := if it_value.micros = 0 then none else some (a.now + it_value.micros) }
    | _, _ => a
  | .realitexpire =>
    match a.due with
    | none => a
    | some due =>
      { a with
        due := if a.interval = 0 then none else some (nextDue due a.interval a.now)
        alarms := a.alarms + 1 }

end Alarm

/-- It is the first due time after the one for which the timer goes off that is not past. -/
theorem nextDue_isLeast {due interval now : ℤ} (hpos : 0 < interval) :
    IsLeast {x | now < x ∧ ∃ k : ℤ, 1 ≤ k ∧ x = due + interval * k}
      (nextDue due interval now) := by
  have hdiv := Int.mul_ediv_add_emod (now - due) interval
  have hmod := Int.emod_lt_of_pos (now - due) hpos
  constructor
  · refine ⟨?_, _, le_max_left _ _, rfl⟩
    have hle : interval * ((now - due) / interval + 1) ≤
        interval * max 1 ((now - due) / interval + 1) :=
      Int.mul_le_mul_of_nonneg_left (le_max_right _ _) hpos.le
    rw [nextDue]
    rw [mul_add, mul_one] at hle
    omega
  · rintro x ⟨hnow, k, hk, rfl⟩
    have hlt : (now - due) / interval < k := by
      rw [Int.ediv_lt_iff_lt_mul hpos, mul_comm]
      omega
    have hmax : max 1 ((now - due) / interval + 1) ≤ k := max_le hk hlt
    exact Int.add_le_add_left (Int.mul_le_mul_of_nonneg_left hmax hpos.le) due

/-- If the next time is not later than now, it is due itself. -/
theorem nextDue_add {due interval now : ℤ} (hpos : 0 < interval) (hle : due + interval ≤ now) :
    nextDue (due + interval) interval now = nextDue due interval now := by
  have hdiv : (now - (due + interval)) / interval + 1 = (now - due) / interval := by
    rw [← Int.sub_sub, Int.sub_ediv_of_dvd _ (dvd_refl interval), Int.ediv_self hpos.ne']
    omega
  have hone : 1 ≤ (now - due) / interval := by
    rw [Int.le_ediv_iff_mul_le hpos]
    omega
  rw [nextDue, nextDue, hdiv, max_eq_right hone, max_eq_right (by omega), mul_add]
  omega

theorem nextDue_of_lt {due interval now : ℤ} (hpos : 0 < interval) (hlt : now < due + interval) :
    nextDue due interval now = due + interval := by
  have hdiv : (now - due) / interval < 1 := by
    rw [Int.ediv_lt_iff_lt_mul hpos]
    omega
  rw [nextDue, max_eq_left (by omega), mul_one]

/-! ## The timer is the ideal one -/

variable {tick : ℤ} {t1 t2 : Timeval} {s : Realtimer}

theorem micros_borrow (tv : Timeval) : tv.borrow.micros = tv.micros := by
  rw [Timeval.borrow]
  split_ifs
  · simp only [Timeval.micros]
    omega
  · rfl

theorem micros_timevalfix (tv : Timeval) : (timevalfix tv).micros = tv.micros := by
  rw [← micros_borrow tv, timevalfix]
  split_ifs
  · simp only [Timeval.micros]
    omega
  · rfl

/-- One second is enough. -/
theorem timevalfix_normal {sec usec : ℤ} (hnonneg : 0 ≤ sec * 1000000 + usec)
    (hlow : -1000000 ≤ usec) (hhigh : usec < 2000000) : (timevalfix ⟨sec, usec⟩).Normal := by
  rw [timevalfix, Timeval.borrow]
  split_ifs <;> constructor <;> simp only at * <;> omega

theorem timevaladd_spec (h₁ : t1.Normal) (h₂ : t2.Normal) :
    (timevaladd t1 t2).Normal ∧ (timevaladd t1 t2).micros = t1.micros + t2.micros := by
  obtain ⟨_, _, _⟩ := h₁
  obtain ⟨_, _, _⟩ := h₂
  rw [timevaladd, micros_timevalfix]
  simp only [Timeval.micros]
  exact ⟨timevalfix_normal (by omega) (by omega) (by omega), by omega⟩

theorem timercmp_gt (h₁ : t1.Normal) (h₂ : t2.Normal) :
    timercmp (fun a b => a > b) t1 t2 = true ↔ t2.micros < t1.micros := by
  obtain ⟨_, _, _⟩ := h₁
  obtain ⟨_, _, _⟩ := h₂
  simp only [timercmp, Timeval.micros, Bool.or_eq_true, Bool.and_eq_true, decide_eq_true_eq]
  omega

theorem Timeval.Normal.nonneg (h : t1.Normal) : 0 ≤ t1.micros := by
  obtain ⟨_, _, _⟩ := h
  rw [Timeval.micros]
  omega

theorem normal_zero : (⟨0, 0⟩ : Timeval).Normal := ⟨le_rfl, le_rfl, by decide⟩

namespace Realtimer

/-- Given as many turns as there are microseconds, the loop finds the next time. -/
theorem expireLoop_spec {time it_interval : Timeval} (ht : time.Normal) (hi : it_interval.Normal)
    (hpos : 0 < it_interval.micros) (n : ℕ) {it_value : Timeval} (hv : it_value.Normal)
    (hn : (time.micros - it_value.micros).toNat < n) :
    ∃ tv, (∀ fuel ≥ n, expireLoop time it_interval fuel it_value = some tv) ∧ tv.Normal ∧
      tv.micros = nextDue it_value.micros it_interval.micros time.micros := by
  induction n generalizing it_value with
  | zero => exact absurd hn (Nat.not_lt_zero _)
  | succ n ih =>
    obtain ⟨hnormal, hmicros⟩ := timevaladd_spec hv hi
    have hcmp := timercmp_gt hnormal ht
    rw [hmicros] at hcmp
    by_cases hlt : time.micros < it_value.micros + it_interval.micros
    · refine ⟨_, fun fuel hfuel => ?_, hnormal, hmicros.trans (nextDue_of_lt hpos hlt).symm⟩
      obtain ⟨fuel, rfl⟩ := Nat.exists_eq_succ_of_ne_zero (Nat.ne_zero_of_lt hfuel)
      rw [expireLoop, if_pos (hcmp.2 hlt)]
    · obtain ⟨tv, hloop, htv⟩ := ih hnormal (by omega)
      rw [hmicros, nextDue_add hpos (not_lt.1 hlt)] at htv
      refine ⟨tv, fun fuel hfuel => ?_, htv⟩
      obtain ⟨fuel, rfl⟩ := Nat.exists_eq_succ_of_ne_zero (Nat.ne_zero_of_lt hfuel)
      rw [expireLoop, if_neg fun h => hlt (hcmp.1 h)]
      exact hloop fuel (Nat.le_of_succ_le_succ hfuel)

/-- Times are normal, and there is a timeout if and only if the timer is set. -/
structure Ok (s : Realtimer) : Prop where
  time : s.time.Normal
  interval : s.p_realtimer.it_interval.Normal
  value : s.p_realtimer.it_value.Normal
  timeout : s.timeout = s.p_realtimer.it_value.timerisset

/-- The timer in microseconds. -/
def alarm (s : Realtimer) : Alarm where
  now := s.time.micros
  interval := s.p_realtimer.it_interval.micros
  due := if s.timeout then some s.p_realtimer.it_value.micros else none
  alarms := s.sigalrm

theorem Ok.init : init.Ok := ⟨normal_zero, normal_zero, normal_zero, rfl⟩

theorem Ok.setitimer (hs : s.Ok) (h₀ : 0 < tick) (h₁ : tick < 1000000) (itv : Itimerval) :
    ((s.setitimer tick itv).getD s).Ok ∧
      ((s.setitimer tick itv).getD s).alarm = s.alarm.step tick (.setitimer itv) := by
  rw [Realtimer.setitimer, Alarm.step]
  cases hv : itimerfix tick itv.it_value with
  | none => exact ⟨hs, rfl⟩
  | some it_value =>
    cases hi : itimerfix tick itv.it_interval with
    | none => exact ⟨hs, rfl⟩
    | some it_interval =>
      have hvn := (fixed_itimerfix h₁ h₀ hv).toNormal
      have hin := (fixed_itimerfix h₁ h₀ hi).toNormal
      have hnonneg := hvn.nonneg
      obtain ⟨hnormal, hmicros⟩ := timevaladd_spec hvn hs.time
      dsimp only
      by_cases hset : it_value.timerisset = true
      · have hpos := (timerisset_iff hvn).1 hset
        have hle := hs.time.nonneg
        rw [if_pos hset, if_neg hpos.ne']
        refine ⟨⟨hs.time, hin, hnormal, ?_⟩, ?_⟩
        · exact ((timerisset_iff hnormal).2 (by omega)).symm
        · simp only [Option.getD_some, alarm, if_true, hmicros, Int.add_comm]
      · have hzero : it_value.micros = 0 := by
          rw [timerisset_iff hvn] at hset
          omega
        rw [if_neg hset, if_pos hzero]
        exact ⟨⟨hs.time, hin, hvn, (Bool.eq_false_iff.2 hset).symm⟩, rfl⟩

theorem Ok.realitexpire (hs : s.Ok) (hset : s.timeout = true) :
    ∃ N s', (∀ fuel ≥ N, s.realitexpire fuel = some s') ∧ s'.Ok ∧
      s'.alarm = s.alarm.step tick .realitexpire := by
  have hnonneg := hs.interval.nonneg
  have hdue : s.alarm.due = some s.p_realtimer.it_value.micros := by rw [alarm, if_pos hset]
  have hinterval : s.alarm.interval = s.p_realtimer.it_interval.micros := rfl
  have hnow : s.alarm.now = s.time.micros := rfl
  by_cases hi : s.p_realtimer.it_interval.timerisset = true
  · have hpos := (timerisset_iff hs.interval).1 hi
    obtain ⟨N, hN⟩ := exists_gt (s.time.micros - s.p_realtimer.it_value.micros).toNat
    obtain ⟨tv, hloop, hnormal, hmicros⟩ :=
      expireLoop_spec hs.time hs.interval hpos N hs.value hN
    have hlater : s.time.micros < tv.micros := hmicros ▸ (nextDue_isLeast hpos).1.1
    have htime := hs.time.nonneg
    refine ⟨N, s.expired tv true, fun fuel hfuel => ?_, ⟨hs.time, hs.interval, hnormal, ?_⟩, ?_⟩
    · rw [Realtimer.realitexpire, if_neg (Bool.not_eq_false _ ▸ hi), hloop fuel hfuel,
        Option.map_some]
    · exact ((timerisset_iff hnormal).2 (by omega)).symm
    · rw [Alarm.step, hdue]
      dsimp only
      rw [hinterval, if_neg hpos.ne', hnow, ← hmicros]
      rfl
  · have hzero : s.p_realtimer.it_interval.micros = 0 := by
      rw [timerisset_iff hs.interval] at hi
      omega
    refine ⟨0, s.expired ⟨0, 0⟩ false, fun fuel _ => ?_,
      ⟨hs.time, hs.interval, normal_zero, rfl⟩, ?_⟩
    · rw [Realtimer.realitexpire, if_pos (Bool.eq_false_iff.2 hi)]
    · rw [Alarm.step, hdue]
      dsimp only
      rw [hinterval, if_pos hzero]
      rfl

/-- With as many turns of the loop as it takes, an action does to the timer what it does to the
    ideal one. -/
theorem Ok.step (hs : s.Ok) (h₀ : 0 < tick) (h₁ : tick < 1000000) (a : Act)
    (ha : ∀ time, a = .clock time → time.Normal) :
    ∃ N s', (∀ fuel ≥ N, s.step tick fuel a = some s') ∧ s'.Ok ∧
      s'.alarm = s.alarm.step tick a := by
  cases a with
  | clock time =>
    exact ⟨0, _, fun _ _ => rfl, ⟨ha time rfl, hs.interval, hs.value, hs.timeout⟩, rfl⟩
  | setitimer itv => exact ⟨0, _, fun _ _ => rfl, hs.setitimer h₀ h₁ itv⟩
  | realitexpire =>
    by_cases hset : s.timeout = true
    · obtain ⟨N, s', hstep, hs'⟩ := hs.realitexpire hset
      exact ⟨N, s', fun fuel hfuel => by rw [Realtimer.step, if_pos hset, hstep fuel hfuel], hs'⟩
    · refine ⟨0, s, fun fuel _ => by rw [Realtimer.step, if_neg hset], hs, ?_⟩
      rw [Alarm.step, alarm, if_neg hset]

theorem Ok.run (hs : s.Ok) (h₀ : 0 < tick) (h₁ : tick < 1000000) (acts : List Act)
    (hclock : ∀ time, .clock time ∈ acts → time.Normal) :
    ∃ N s', (∀ fuel ≥ N, s.run tick fuel acts = some s') ∧ s'.Ok ∧
      s'.alarm = acts.foldl (Alarm.step tick) s.alarm := by
  induction acts generalizing s with
  | nil => exact ⟨0, s, fun _ _ => rfl, hs, rfl⟩
  | cons a acts ih =>
    obtain ⟨N₁, s₁, hstep, hs₁, halarm₁⟩ :=
      hs.step h₀ h₁ a fun time h => hclock time (h ▸ List.mem_cons_self)
    obtain ⟨N₂, s₂, hrun, hs₂, halarm₂⟩ :=
      ih hs₁ fun time h => hclock time (List.mem_cons_of_mem a h)
    refine ⟨max N₁ N₂, s₂, fun fuel hfuel => ?_, hs₂, ?_⟩
    · rw [Realtimer.run, hstep fuel (le_of_max_le_left hfuel), Option.bind_some]
      exact hrun fuel (le_of_max_le_right hfuel)
    · rw [halarm₂, halarm₁, List.foldl_cons]

end Realtimer

end AuxKernel.Itimer
