import Mathlib.Algebra.Order.Floor.Div
import Mathlib.Tactic.Linarith
import Mathlib.Tactic.Ring
import AuxKernel.Itimer.Basic

/-!
# Timers do not drift

In microseconds, a tick takes its length off what is left, or, if that is no more than a tick,
adds the interval (`itimerdecr_running`, `itimerdecr_expired`). So after `n` ticks and `e`
expiries there is left what the timer was set to, and `e` intervals, less `n` ticks, and `e` is
the number of expiries that were due (`Due.after`): the timer expires at the first tick at which
this much time has passed (`itimer_exact`).
-/

namespace AuxKernel.Itimer

/-- A time in microseconds. -/
def Timeval.micros (tv : Timeval) : ℤ := tv.tv_sec * 1000000 + tv.tv_usec

/-- A time that is not negative, of less than a second of microseconds. -/
structure Timeval.Normal (tv : Timeval) : Prop where
  sec : 0 ≤ tv.tv_sec
  usec : 0 ≤ tv.tv_usec
  lt : tv.tv_usec < 1000000

/-- A time that `itimerfix` leaves: none, or a tick or more. -/
structure Timeval.Fixed (tick : ℤ) (tv : Timeval) : Prop extends tv.Normal where
  tick_le : tv.timerisset = true → tick ≤ tv.micros

/-- The tick at which `it_value` and `k` intervals have passed. -/
def dueAt (tick : ℕ) (itp : Itimerval) (k : ℕ) : ℕ :=
  (itp.it_value.micros + k * itp.it_interval.micros).toNat ⌈/⌉ tick

/-- The values are normal, the first expiry is at the tick it is due at, and so are the ones that
    follow; without an interval the timer stays at zero. -/
structure Exact (tick : ℕ) (itp : Itimerval) : Prop where
  normal : ∀ n, (after tick itp n).it_value.Normal
  first : expires tick itp (dueAt tick itp 0) = true ∧
    ∀ n, 0 < n → n < dueAt tick itp 0 → expires tick itp n = false
  next : itp.it_interval.timerisset = true → ∀ k,
    expires tick itp (dueAt tick itp k) = true ∧ expiries tick itp (dueAt tick itp k) = k + 1
  done : itp.it_interval.timerisset = false →
    ∀ n, dueAt tick itp 0 ≤ n → (after tick itp n).it_value = ⟨0, 0⟩

variable {tick : ℤ} {tv tv' : Timeval} {itp : Itimerval} {n : ℕ}

theorem timerisset_iff (h : tv.Normal) : tv.timerisset = true ↔ 0 < tv.micros := by
  obtain ⟨h₁, h₂, h₃⟩ := h
  simp only [Timeval.timerisset, Timeval.micros, decide_eq_true_eq]
  omega

theorem fixed_itimerfix (ht : tick < 1000000) (ht₀ : 0 < tick)
    (h : itimerfix tick tv = some tv') : tv'.Fixed tick := by
  rw [itimerfix] at h
  split_ifs at h with hbad hsmall
  · obtain rfl := Option.some.inj h
    refine ⟨⟨?_, ?_, ?_⟩, fun _ => ?_⟩ <;> simp only [Timeval.micros] <;> omega
  · obtain rfl := Option.some.inj h
    refine ⟨⟨by omega, by omega, by omega⟩, fun hset => ?_⟩
    simp only [Timeval.timerisset, Timeval.micros, decide_eq_true_eq] at hset ⊢
    omega

/-! ## A tick -/

/-- A timer that has more than a tick left runs on. -/
theorem itimerdecr_running (ht : tick < 1000000) (ht₀ : 0 < tick) (h : itp.it_value.Normal)
    (hlt : tick < itp.it_value.micros) :
    (itimerdecr itp tick).1 = true ∧ (itimerdecr itp tick).2.it_interval = itp.it_interval ∧
      (itimerdecr itp tick).2.it_value.Normal ∧
      (itimerdecr itp tick).2.it_value.micros = itp.it_value.micros - tick := by
  obtain ⟨h₁, h₂, h₃⟩ := h
  simp only [Timeval.micros] at hlt
  rw [itimerdecr]
  dsimp only
  rw [if_neg (by omega)]
  -- What is left is not zero, whether or not a second is borrowed.
  by_cases hlt' : itp.it_value.tv_usec < tick
  · rw [if_pos hlt']
    dsimp only
    rw [if_pos (by simp only [Timeval.timerisset, decide_eq_true_eq]; omega)]
    refine ⟨rfl, rfl, ⟨?_, ?_, ?_⟩, ?_⟩ <;> dsimp only [Timeval.micros] <;> omega
  · rw [if_neg hlt']
    rw [if_pos (by simp only [Timeval.timerisset, decide_eq_true_eq]; omega)]
    refine ⟨rfl, rfl, ⟨?_, ?_, ?_⟩, ?_⟩ <;> dsimp only [Timeval.micros] <;> omega

/-- A time of at most `usec` is taken off an interval of at least as much. -/
theorem borrow_spec {usec : ℤ} (h : tv.Normal) (h₀ : 0 ≤ usec) (hu : usec < 1000000)
    (hle : usec ≤ tv.micros) :
    (Timeval.borrow ⟨tv.tv_sec, tv.tv_usec - usec⟩).Normal ∧
      (Timeval.borrow ⟨tv.tv_sec, tv.tv_usec - usec⟩).micros = tv.micros - usec := by
  obtain ⟨h₁, h₂, h₃⟩ := h
  simp only [Timeval.micros] at hle
  rw [Timeval.borrow]
  dsimp only
  split_ifs
  · refine ⟨⟨?_, ?_, ?_⟩, ?_⟩ <;> dsimp only [Timeval.micros] <;> omega
  · refine ⟨⟨?_, ?_, ?_⟩, ?_⟩ <;> dsimp only [Timeval.micros] <;> omega

/-- A timer that has no more than a tick left expires, and is reloaded. -/
theorem itimerdecr_expired (ht : tick < 1000000) (ht₀ : 0 < tick) (h : itp.it_value.Normal)
    (hi : itp.it_interval.Fixed tick) (hle : itp.it_value.micros ≤ tick) :
    (itimerdecr itp tick).1 = false ∧ (itimerdecr itp tick).2.it_interval = itp.it_interval ∧
      (itimerdecr itp tick).2.it_value.Normal ∧
      if itp.it_interval.timerisset then (itimerdecr itp tick).2.it_value.micros =
          itp.it_value.micros + itp.it_interval.micros - tick
      else (itimerdecr itp tick).2.it_value = ⟨0, 0⟩ := by
  -- What is reloaded, if it has expired `usec` ago.
  have hexpire (v : Timeval) (usec : ℤ) (hsec : v.tv_sec = 0) (h₀ : 0 ≤ usec) (hu : usec ≤ tick) :
      (expire ⟨itp.it_interval, v⟩ usec).it_interval = itp.it_interval ∧
      (expire ⟨itp.it_interval, v⟩ usec).it_value.Normal ∧
      if itp.it_interval.timerisset then (expire ⟨itp.it_interval, v⟩ usec).it_value.micros =
          itp.it_interval.micros - usec
      else (expire ⟨itp.it_interval, v⟩ usec).it_value = ⟨0, 0⟩ := by
    rw [expire]
    dsimp only
    by_cases hset : itp.it_interval.timerisset = true
    · rw [if_pos hset, if_pos hset]
      have hb := borrow_spec hi.toNormal h₀ (by omega) (hu.trans (hi.tick_le hset))
      exact ⟨rfl, hb.1, hb.2⟩
    · rw [if_neg hset, if_neg hset, hsec]
      exact ⟨rfl, ⟨le_rfl, le_rfl, show (0 : ℤ) < 1000000 by decide⟩, rfl⟩
  obtain ⟨h₁, h₂, h₃⟩ := h
  simp only [Timeval.micros] at hle
  have hsec : itp.it_value.tv_sec = 0 := by omega
  rw [itimerdecr]
  dsimp only
  by_cases hlt : itp.it_value.tv_usec < tick
  · rw [if_pos ⟨hlt, hsec⟩]
    obtain ⟨hint, hnormal, hval⟩ :=
      hexpire itp.it_value (tick - itp.it_value.tv_usec) hsec (by omega) (by omega)
    refine ⟨rfl, hint, hnormal, ?_⟩
    split_ifs at hval ⊢
    · refine hval.trans ?_
      simp only [Timeval.micros]
      omega
    · exact hval
  · rw [if_neg (by omega), if_neg hlt]
    have husec : itp.it_value.tv_usec - tick = 0 := by omega
    rw [husec, hsec, if_neg (by decide)]
    obtain ⟨hint, hnormal, hval⟩ := hexpire ⟨0, 0⟩ 0 rfl le_rfl ht₀.le
    refine ⟨rfl, hint, hnormal, ?_⟩
    split_ifs at hval ⊢
    · refine hval.trans ?_
      simp only [Timeval.micros]
      omega
    · exact hval

/-! ## Many ticks -/

section Run

variable {tick : ℕ} {n : ℕ}

theorem it_interval_after (ht : (tick : ℤ) < 1000000) (ht₀ : 0 < tick)
    (hv : itp.it_value.Normal) (hi : itp.it_interval.Fixed tick) (n : ℕ) :
    (after tick itp n).it_interval = itp.it_interval ∧ (after tick itp n).it_value.Normal := by
  induction n with
  | zero => exact ⟨rfl, hv⟩
  | succ n ih =>
    obtain ⟨hint, hn⟩ := ih
    rcases lt_or_ge (tick : ℤ) (after tick itp n).it_value.micros with hlt | hle
    · obtain ⟨-, h₁, h₂, -⟩ := itimerdecr_running ht (by omega) hn hlt
      exact ⟨h₁.trans hint, h₂⟩
    · obtain ⟨-, h₁, h₂, -⟩ := itimerdecr_expired ht (by omega) hn (hint ▸ hi) hle
      exact ⟨h₁.trans hint, h₂⟩

theorem expires_succ :
    expires tick itp (n + 1) = !(itimerdecr (after tick itp n) tick).1 := rfl

/-- Before the first expiry, the ticks are taken off. -/
theorem micros_after (ht : (tick : ℤ) < 1000000) (ht₀ : 0 < tick) (hv : itp.it_value.Normal)
    (hi : itp.it_interval.Fixed tick) (hn : (n * tick : ℤ) < itp.it_value.micros) :
    (after tick itp n).it_value.micros = itp.it_value.micros - n * tick ∧
      expiries tick itp n = 0 := by
  induction n with
  | zero => exact ⟨by simp [after], rfl⟩
  | succ n ih =>
    push_cast at hn ⊢
    obtain ⟨hmicros, hno⟩ := ih (by linarith)
    obtain ⟨hrun, -, -, hdecr⟩ := itimerdecr_running ht (by omega)
      (it_interval_after ht ht₀ hv hi n).2 (by linarith)
    refine ⟨by rw [after, hdecr, hmicros]; ring, ?_⟩
    rw [expiries, hno, expires_succ, hrun]
    rfl

/-- The timer expires at a tick if and only if it had no more than a tick left. -/
theorem expires_iff (ht : (tick : ℤ) < 1000000) (ht₀ : 0 < tick) (hv : itp.it_value.Normal)
    (hi : itp.it_interval.Fixed tick) (n : ℕ) :
    expires tick itp (n + 1) = true ↔ (after tick itp n).it_value.micros ≤ tick := by
  obtain ⟨hint, hn⟩ := it_interval_after ht ht₀ hv hi n
  rw [expires_succ]
  rcases lt_or_ge (tick : ℤ) (after tick itp n).it_value.micros with hlt | hle
  · rw [(itimerdecr_running ht (by omega) hn hlt).1]
    exact iff_of_false Bool.false_ne_true (not_le.2 hlt)
  · rw [(itimerdecr_expired ht (by omega) hn (hint ▸ hi) hle).1]
    exact iff_of_true rfl hle

/-- After `n` ticks and `e` expiries, `e` is the number of those that were due. -/
structure Due (tick : ℕ) (itp : Itimerval) (n e : ℕ) : Prop where
  left : (after tick itp n).it_value.micros =
    itp.it_value.micros + e * itp.it_interval.micros - n * tick
  pos : 0 < (after tick itp n).it_value.micros
  due : 0 < e → itp.it_value.micros + (e - 1) * itp.it_interval.micros ≤ n * tick

theorem Due.after (ht : (tick : ℤ) < 1000000) (ht₀ : 0 < tick) (hv : itp.it_value.Normal)
    (hi : itp.it_interval.Fixed tick) (hpos : 0 < itp.it_value.micros)
    (hset : itp.it_interval.timerisset = true) (n : ℕ) :
    Due tick itp n (expiries tick itp n) := by
  induction n with
  | zero =>
    exact ⟨by simp [Itimer.after, expiries], hpos, fun h => absurd h (lt_irrefl 0)⟩
  | succ n ih =>
    obtain ⟨hleft, hleftpos, hdue⟩ := ih
    obtain ⟨hint, hn⟩ := it_interval_after ht ht₀ hv hi n
    have hle := hi.tick_le hset
    rcases lt_or_ge (tick : ℤ) (Itimer.after tick itp n).it_value.micros with hlt | hge
    · obtain ⟨hrun, -, -, hdecr⟩ := itimerdecr_running ht (by omega) hn hlt
      have he : expiries tick itp (n + 1) = expiries tick itp n := by
        rw [expiries, expires_succ, hrun]
        rfl
      rw [he]
      refine ⟨?_, ?_, fun h => ?_⟩
      · rw [Itimer.after, hdecr, hleft]
        push_cast
        ring
      · rw [Itimer.after, hdecr]
        linarith
      · have := hdue h
        push_cast
        linarith
    · obtain ⟨hexp, -, -, hdecr⟩ := itimerdecr_expired ht (by omega) hn (hint ▸ hi) hge
      rw [hint, if_pos hset] at hdecr
      have he : expiries tick itp (n + 1) = expiries tick itp n + 1 := by
        rw [expiries, expires_succ, hexp]
        rfl
      rw [he]
      refine ⟨?_, ?_, fun _ => ?_⟩
      · rw [Itimer.after, hdecr, hleft]
        push_cast
        ring
      · rw [Itimer.after, hdecr]
        linarith
      · push_cast
        rw [add_sub_cancel_right]
        linarith

/-- The tick at which a time has passed is the first such tick. -/
theorem dueAt_spec (ht₀ : 0 < tick) (itp : Itimerval) (k : ℕ)
    (hpos : 0 < itp.it_value.micros + k * itp.it_interval.micros) :
    ∃ c, dueAt tick itp k = c + 1 ∧
      itp.it_value.micros + k * itp.it_interval.micros ≤ (c + 1) * tick ∧
      (c * tick : ℤ) < itp.it_value.micros + k * itp.it_interval.micros := by
  have hle (n : ℕ) : dueAt tick itp k ≤ n ↔
      itp.it_value.micros + k * itp.it_interval.micros ≤ n * tick := by
    rw [dueAt, ceilDiv_le_iff_le_mul ht₀, Int.toNat_le, Nat.mul_comm tick n]
    push_cast
    exact Iff.rfl
  cases hc : dueAt tick itp k with
  | zero =>
    have := (hle 0).1 hc.le
    simp only [Nat.cast_zero, zero_mul] at this
    omega
  | succ c =>
    refine ⟨c, rfl, ?_, ?_⟩
    · have := (hle (c + 1)).1 hc.le
      push_cast at this
      exact this
    · by_contra h
      have := (hle c).2 (not_lt.1 h)
      omega

end Run

/-- A timer set to what `itimerfix` has accepted is exact. -/
theorem itimer_exact (tick : ℕ) (ht₀ : 0 < tick) (ht : tick < 1000000) (v i : Timeval)
    (itp : Itimerval) (hv : itimerfix tick v = some itp.it_value)
    (hi : itimerfix tick i = some itp.it_interval) (hset : itp.it_value.timerisset = true) :
    Exact tick itp := by
  have ht : (tick : ℤ) < 1000000 := by exact_mod_cast ht
  have hfv := fixed_itimerfix ht (by exact_mod_cast ht₀) hv
  have hfi := fixed_itimerfix ht (by exact_mod_cast ht₀) hi
  have hpos := (timerisset_iff hfv.toNormal).1 hset
  have hint : 0 ≤ itp.it_interval.micros := by
    have h₁ := hfi.sec
    have h₂ := hfi.usec
    simp only [Timeval.micros]
    omega
  have hnormal (n : ℕ) := it_interval_after ht ht₀ hfv.toNormal hfi n
  have hexpires := expires_iff ht ht₀ hfv.toNormal hfi
  -- Up to the first tick that it is due at, nothing but the ticks are taken off.
  obtain ⟨c, hc, hc₁, hc₂⟩ := dueAt_spec ht₀ itp 0 (by simpa using hpos)
  simp only [Nat.cast_zero, zero_mul, add_zero] at hc₁ hc₂
  have hbefore (n : ℕ) (hn : n ≤ c) := micros_after (n := n) ht ht₀ hfv.toNormal hfi (by
    have : (n * tick : ℤ) ≤ c * tick := by exact_mod_cast Nat.mul_le_mul_right tick hn
    linarith)
  refine ⟨fun n => (hnormal n).2, ⟨?_, fun n hn hlt => ?_⟩, fun hiset k => ?_, fun hiset n hn => ?_⟩
  · rw [hc, hexpires, (hbefore c le_rfl).1]
    linarith
  · obtain ⟨m, rfl⟩ := Nat.exists_eq_succ_of_ne_zero hn.ne'
    refine Bool.eq_false_of_not_eq_true fun h => ?_
    have h := (hexpires m).1 h
    rw [(hbefore m (by omega)).1] at h
    have : ((m + 1) * tick : ℤ) ≤ c * tick := by
      exact_mod_cast Nat.mul_le_mul_right tick (show m + 1 ≤ c by omega)
    linarith
  · have hipos := (timerisset_iff hfi.toNormal).1 hiset
    obtain ⟨d, hd, hd₁, hd₂⟩ := dueAt_spec ht₀ itp k (by positivity)
    have hdue := Due.after ht ht₀ hfv.toNormal hfi hpos hiset
    -- No more than `k` expiries were due before, and more than `k` are now.
    have hold : expiries tick itp d ≤ k := by
      rcases Nat.eq_zero_or_pos (expiries tick itp d) with h | h
      · exact h ▸ Nat.zero_le k
      · have hlt : ((expiries tick itp d : ℤ) - 1) * itp.it_interval.micros <
            k * itp.it_interval.micros := by linarith [(hdue d).due h]
        have := lt_of_mul_lt_mul_right hlt hint
        omega
    have hnew : k < expiries tick itp (d + 1) := by
      have hleft := (hdue (d + 1)).left ▸ (hdue (d + 1)).pos
      push_cast at hleft
      have hlt : (k : ℤ) * itp.it_interval.micros <
          expiries tick itp (d + 1) * itp.it_interval.micros := by linarith
      exact_mod_cast lt_of_mul_lt_mul_right hlt hint
    rw [expiries] at hnew
    rw [hd, expiries]
    cases hexp : expires tick itp (d + 1) with
    | false =>
      rw [hexp] at hnew
      exact absurd hnew hold.not_gt
    | true =>
      rw [hexp] at hnew
      refine ⟨rfl, ?_⟩
      simp only [if_true] at hnew ⊢
      omega
  · induction n, hn using Nat.le_induction with
    | base =>
      rw [hc]
      have hle : (after tick itp c).it_value.micros ≤ tick := by
        rw [(hbefore c le_rfl).1]
        linarith
      have h := (itimerdecr_expired ht (by omega) (hnormal c).2 ((hnormal c).1 ▸ hfi) hle).2.2.2
      rw [(hnormal c).1, hiset] at h
      exact h
    | succ n hn ih =>
      -- A timer at zero stays at zero.
      have hle : (after tick itp n).it_value.micros ≤ tick := by
        rw [ih]
        exact Int.natCast_nonneg tick
      have h := (itimerdecr_expired ht (by omega) (hnormal n).2 ((hnormal n).1 ▸ hfi) hle).2.2.2
      rw [(hnormal n).1, hiset] at h
      exact h

/-- Half a second, and a quarter more each time. -/
theorem exact_quarters :
    itimerfix 16666 ⟨0, 500000⟩ = some ⟨0, 500000⟩ ∧ Exact 16666 ⟨⟨0, 250000⟩, ⟨0, 500000⟩⟩ :=
  ⟨by decide, itimer_exact 16666 (by decide) (by decide) ⟨0, 500000⟩ ⟨0, 250000⟩
    ⟨⟨0, 250000⟩, ⟨0, 500000⟩⟩ (by decide) (by decide) (by decide)⟩

end AuxKernel.Itimer
