import AuxKernel.Signal.PostBSD
import Mathlib.Data.Finset.Card

/-!
# Killing a process

* `kill_spec`: a process that gets `SIGKILL` is not stopped and does not sleep on;
* `issig_kill`: it finds the signal, or a lower one, when it looks for one to act on;
* `psignal_posts`: what holds of every signal that is posted;
* `issigBSD_system`: a process of the system with BSD signals does not act on a signal by default.
-/

namespace AuxKernel.Signal

variable {o : Outside} {k k' : Kernel} {p sig n : ℕ} {again : ℕ → ℕ → Kernel → Kernel}

/-! ## Posting it -/

/-- A process that got `SIGKILL`. -/
structure Killed (x y : Proc) : Prop where
  same : Same { x with p_sig := insert SIGKILL x.p_sig } y
  stat : y.p_stat ≠ .sstop
  awake : Awake y

theorem killSysV_killed (hign : SIGKILL ∉ (k.proc p).p_sigignore) :
    Killed (k.proc p) ((psignalSysV o again p SIGKILL k).proc p) := by
  rw [psignalSysV, if_neg (by decide), if_neg fun h => hign h.1, switchSysV, if_pos rfl,
    Flow.andThen]
  obtain ⟨k₁, hk₁⟩ : ∃ k₁, k₁ = post p SIGKILL k := ⟨_, rfl⟩
  rw [← hk₁]
  obtain ⟨hkill, hstat⟩ := killSysV_spec p k₁
  obtain ⟨hcalm, hawake, hstay, hsleep⟩ := notice_spec p (killSysV p k₁)
  have hsame := (hkill.trans hcalm).same p
  rw [hk₁, post_proc, ← hk₁] at hsame
  refine ⟨hsame, ?_, hawake⟩
  by_cases hst : ((killSysV p k₁).proc p).p_stat = .ssleep
  · exact hsleep hst
  · rw [hstay hst]
    exact hstat

/-- What a process that is not traced does about `SIGKILL`, with BSD signals. -/
theorem actBSD_kill (again : ℕ → ℕ → Kernel → Kernel) (hs : (k.proc p).strc = false)
    (act : Action) :
    Calm k (actBSD o again p SIGKILL act k) ∧
      ((actBSD o again p SIGKILL act k).proc p).p_stat ≠ .sstop ∧
      Awake ((actBSD o again p SIGKILL act k).proc p) := by
  have hspl : Calm k ((k.spl 6).spl k.ipl) := ⟨rfl, fun _ => .refl _⟩
  have hproc : ((k.spl 6).spl k.ipl).proc = k.proc := rfl
  obtain ⟨hcalm, hrun⟩ := runBSD_spec p (k.spl 6)
  have hran : Calm k ((runBSD p (k.spl 6)).spl k.ipl) ∧
      (((runBSD p (k.spl 6)).spl k.ipl).proc p).p_stat ≠ .sstop ∧
      Awake (((runBSD p (k.spl 6)).spl k.ipl).proc p) :=
    ⟨hcalm.splx, fun he => absurd (hrun.symm.trans he) (by decide),
      fun he => absurd (hrun.symm.trans he.1) (by decide)⟩
  have hother : (k.proc p).p_stat ≠ .ssleep → (k.proc p).p_stat ≠ .sstop →
      Calm k ((k.spl 6).spl k.ipl) ∧ (((k.spl 6).spl k.ipl).proc p).p_stat ≠ .sstop ∧
      Awake (((k.spl 6).spl k.ipl).proc p) := fun hsl hst => ⟨hspl, hst, fun he => hsl he.1⟩
  rw [actBSD]
  cases hst : (k.proc p).p_stat with
  | ssleep =>
    dsimp only
    rw [sleepBSD]
    by_cases hpri : ((k.spl 6).proc p).p_pri ≤ PZERO
    · rw [if_pos hpri, hproc, hst]
      exact ⟨hspl, by decide, fun he => absurd he.2 (not_lt.2 hpri)⟩
    · have hs' : ¬((k.spl 6).proc p).strc = true := by
        rw [spl_proc, hs]
        exact Bool.false_ne_true
      rw [if_neg hpri, if_neg hs', if_neg (by decide), if_neg (by decide), if_neg (by decide)]
      exact hran
  | sstop =>
    dsimp only
    have hs' : ¬((k.spl 6).proc p).strc = true := by
      rw [spl_proc, hs]
      exact Bool.false_ne_true
    rw [sstopBSD, if_neg hs', if_pos rfl]
    exact hran
  | srun => exact hother (by rw [hst]; decide) (by rw [hst]; decide)
  | szomb => exact hother (by rw [hst]; decide) (by rw [hst]; decide)
  | sidl => exact hother (by rw [hst]; decide) (by rw [hst]; decide)
  | sonproc => exact hother (by rw [hst]; decide) (by rw [hst]; decide)
  | sxbrk => exact hother (by rw [hst]; decide) (by rw [hst]; decide)

theorem killBSD_killed (hs : (k.proc p).strc = false) (hign : SIGKILL ∉ (k.proc p).p_sigignore)
    (hmask : SIGKILL ∉ (k.proc p).p_sigmask) :
    Killed (k.proc p) ((psignalBSD o again p SIGKILL k).proc p) := by
  have hhold : action (k.proc p) SIGKILL ≠ .hold := by
    rw [action, if_neg (by simp [hs]), if_neg hmask]
    by_cases hc : SIGKILL ∈ (k.proc p).p_sigcatch
    · rw [if_pos hc]
      decide
    · rw [if_neg hc]
      decide
  rw [psignalBSD, if_neg (by decide), if_neg fun h => hign h.2]
  generalize action (k.proc p) SIGKILL = act at hhold ⊢
  obtain ⟨k₁, hk₁, hsame₁⟩ : ∃ k₁, postBSD p SIGKILL act k = .next k₁ ∧
      Same { k.proc p with p_sig := insert SIGKILL (k.proc p).p_sig } (k₁.proc p) := by
    rw [postBSD, if_neg (by decide), if_neg (by decide), if_pos rfl]
    refine ⟨_, rfl, ?_⟩
    rw [set_self, post_proc]
    exact ⟨rfl, rfl, rfl, rfl, rfl, rfl, rfl, rfl⟩
  dsimp only
  rw [hk₁, Flow.andThen, if_neg hhold]
  obtain ⟨hcalm, hstat, hawake⟩ := actBSD_kill (o := o) again (hsame₁.strc.trans hs) act
  exact ⟨hsame₁.trans (hcalm.same p), hstat, hawake⟩

/-- A process that is not traced and gets `SIGKILL`, which it neither holds nor ignores. -/
theorem kill_spec (hs : (k.proc p).strc = false) (hign : SIGKILL ∉ (k.proc p).p_sigignore)
    (hmask : SIGKILL ∉ (k.proc p).p_sigmask) :
    Killed (k.proc p) ((psignalWith o again p SIGKILL k).proc p) := by
  rw [psignalWith]
  by_cases hmode : (k.proc p).bsd = true
  · rw [if_pos hmode]
    exact killBSD_killed hs hign hmask
  · rw [if_neg hmode]
    exact killSysV_killed hign

/-! ## Looking for it -/

/-- With `SIGKILL` there, the lowest signal is not behind it. -/
theorem fsig_kill {S : Finset ℕ} (h : SIGKILL ∈ S) :
    fsig S ∈ S ∧ 0 < fsig S ∧ fsig S ≤ SIGKILL := by
  have hsplit : List.range' 1 NSIG = List.range' 1 SIGKILL ++ List.range' 10 23 := by decide
  have hfound : ((List.range' 1 SIGKILL).find? (· ∈ S)).isSome :=
    List.find?_isSome.2 ⟨SIGKILL, by decide, decide_eq_true h⟩
  obtain ⟨s, hs⟩ := Option.isSome_iff_exists.1 hfound
  have hfsig : fsig S = s := by rw [fsig, hsplit, List.find?_append, hs]; rfl
  obtain ⟨hlow, hhigh⟩ := List.mem_range'_1.1 (List.mem_of_find?_eq_some hs)
  have hmem : decide (s ∈ S) = true := List.find?_some (p := fun s => decide (s ∈ S)) hs
  rw [hfsig]
  exact ⟨of_decide_eq_true hmem, hlow, Nat.le_of_lt_succ (by omega)⟩

/-- No signal up to `SIGKILL` is one that is treated apart. -/
theorem plain_of_le (h : sig ≤ SIGKILL) : sig ≠ SIGCLD ∧ sig ≠ SIGPWR ∧ sig ∉ stops ∧
    sig ∉ ttyStops ∧ sig ≠ SIGCONT ∧ sig ≠ SIGWINCH ∧ sig ≠ SIGURG ∧ sig ≠ SIGIO := by
  revert sig
  decide

/-- The process finds `SIGKILL`, or a lower signal. -/
def Finds (o : Outside) (p : ℕ) (k : Kernel) : Prop :=
  ∃ n sig k', issig o p n k = some (sig, k') ∧ 0 < sig ∧ sig ≤ SIGKILL

/-- With System V signals. Each round that finds nothing to act on takes a signal away. -/
theorem issigSysV_kill (n : ℕ) (hn : (k.proc p).p_sig.card ≤ n)
    (hmem : SIGKILL ∈ (k.proc p).p_sig) (hdfl : (k.proc p).u_signal SIGKILL = .dfl) :
    ∃ sig k', issigSysV o p n k = some (sig, k') ∧ 0 < sig ∧ sig ≤ SIGKILL := by
  induction n generalizing k with
  | zero => exact absurd (Finset.card_pos.2 ⟨_, hmem⟩) (by omega)
  | succ n ih =>
    obtain ⟨hsig, hpos, hle⟩ := fsig_kill hmem
    obtain ⟨hcld, hpwr, hstop, -, hcont, hwinch, -, -⟩ := plain_of_le hle
    rw [issigSysV, if_neg (Finset.ne_empty_of_mem hmem), roundSysV, if_neg hcld, if_neg hpwr,
      if_neg hstop, if_neg fun h => h.1.elim hcont hwinch, check]
    by_cases hsend : (k.proc p).u_signal (fsig (k.proc p).p_sig) = .dfl ∨
        (k.proc p).u_signal (fsig (k.proc p).p_sig) = .fn ∨ (k.proc p).strc = true
    · rw [if_pos hsend]
      exact ⟨_, k, rfl, hpos, hle⟩
    · rw [if_neg hsend]
      have hne : SIGKILL ≠ fsig (k.proc p).p_sig := fun he => hsend (.inl (he ▸ hdfl))
      have hcard := Finset.card_erase_lt_of_mem hsig
      refine ih ?_ ?_ ?_ <;> rw [takeAway, set_self]
      · exact Nat.le_of_lt_succ (hcard.trans_le hn)
      · exact Finset.mem_erase.2 ⟨hne, hmem⟩
      · exact hdfl

/-- With BSD signals, but not for a process of the system. -/
theorem issigBSD_kill (n : ℕ) (hn : (k.proc p).p_sig.card ≤ n)
    (hmem : SIGKILL ∈ (k.proc p).p_sig) (hdfl : (k.proc p).u_signal SIGKILL = .dfl)
    (hs : (k.proc p).strc = false) (hign : SIGKILL ∉ (k.proc p).p_sigignore)
    (hmask : SIGKILL ∉ (k.proc p).p_sigmask) (hppid : (k.proc p).p_ppid ≠ 0) :
    ∃ sig k', issigBSD o p n k = some (sig, k') ∧ 0 < sig ∧ sig ≤ SIGKILL := by
  induction n generalizing k with
  | zero => exact absurd (Finset.card_pos.2 ⟨_, hmem⟩) (by omega)
  | succ n ih =>
    have hbits : SIGKILL ∈ sigbits (k.proc p) := by
      rw [sigbits, hs]
      exact Finset.mem_sdiff.2 ⟨Finset.mem_sdiff.2 ⟨hmem, hmask⟩, hign⟩
    obtain ⟨hsig, hpos, hle⟩ := fsig_kill hbits
    obtain ⟨hcld, -, hstop, htty, hcont, hwinch, hurg, hio⟩ := plain_of_le hle
    obtain ⟨sig, hsigeq⟩ : ∃ sig, sig = fsig (sigbits (k.proc p)) := ⟨_, rfl⟩
    rw [← hsigeq] at hsig hpos hle hcld hstop htty hcont hwinch hurg hio
    have hsig' : sig ∈ (k.proc p).p_sig := by
      rw [sigbits] at hsig
      exact (Finset.mem_sdiff.1 (Finset.mem_sdiff.1 hsig).1).1
    obtain ⟨k₁, hk₁⟩ : ∃ k₁, k₁ = (takeAway p sig k).set p
      { (takeAway p sig k).proc p with p_cursig := sig } := ⟨_, rfl⟩
    have hx₁ : k₁.proc p =
        { k.proc p with p_sig := (k.proc p).p_sig.erase sig, p_cursig := sig } := by
      rw [hk₁, set_self, takeAway, set_self]
    have hs₁ : ¬(k₁.proc p).strc = true := by
      rw [hx₁, hs]
      exact Bool.false_ne_true
    -- the signals that are left are fewer, and `SIGKILL` is one
    have hrest : sig ≠ SIGKILL →
        ∃ s k', issigBSD o p n k₁ = some (s, k') ∧ 0 < s ∧ s ≤ SIGKILL := fun hne => by
      have hcard := Finset.card_erase_lt_of_mem hsig'
      refine ih ?_ ?_ ?_ ?_ ?_ ?_ ?_ <;> rw [hx₁]
      · exact Nat.le_of_lt_succ (hcard.trans_le hn)
      · exact Finset.mem_erase.2 ⟨hne.symm, hmem⟩
      · exact hdfl
      · exact hs
      · exact hign
      · exact hmask
      · exact hppid
    have hdfl₁ : sig = SIGKILL → (k₁.proc p).u_signal sig = .dfl := fun he => by
      rw [hx₁, he]
      exact hdfl
    have hppid₁ : (k₁.proc p).p_ppid ≠ 0 := by
      rw [hx₁]
      exact hppid
    rw [issigBSD, if_neg (Finset.ne_empty_of_mem hbits), roundBSD, ← hsigeq]
    dsimp only
    rw [← hk₁, if_neg hs₁, takeBSD]
    cases hh : (k₁.proc p).u_signal sig with
    | dfl =>
      dsimp only
      rw [if_neg hppid₁, if_neg fun h => htty h.1, if_neg hstop,
        if_neg fun h => h.elim hcont fun h => h.elim hcld fun h => h.elim hurg fun h =>
          h.elim hio hwinch]
      exact ⟨sig, k₁, rfl, hpos, hle⟩
    | ign => exact hrest fun he => absurd (hh.symm.trans (hdfl₁ he)) (by decide)
    | hold => exact hrest fun he => absurd (hh.symm.trans (hdfl₁ he)) (by decide)
    | fn => exact ⟨sig, k₁, rfl, hpos, hle⟩

/-- What `issig` finds after `SIGKILL` was posted. With BSD signals, a process of the system does
    not act on it, and a signal that it already acts on comes first. -/
theorem issig_kill {x : Proc} (h : Killed x (k.proc p)) (hs : x.strc = false)
    (hdfl : x.u_signal SIGKILL = .dfl) (hign : SIGKILL ∉ x.p_sigignore)
    (hmask : SIGKILL ∉ x.p_sigmask)
    (hmode : x.bsd = true → x.p_ppid ≠ 0 ∧ x.p_cursig ≤ SIGKILL) : Finds o p k := by
  have hmem : SIGKILL ∈ (k.proc p).p_sig := by
    rw [h.same.p_sig]
    exact Finset.mem_insert_self ..
  have hdfl' : (k.proc p).u_signal SIGKILL = .dfl := h.same.u_signal ▸ hdfl
  by_cases hbsd : (k.proc p).bsd = true
  · obtain ⟨hppid, hle⟩ := hmode (h.same.bsd ▸ hbsd)
    by_cases hcur : (k.proc p).p_cursig ≠ 0
    · refine ⟨0, (k.proc p).p_cursig, k, ?_, Nat.pos_of_ne_zero hcur, h.same.p_cursig ▸ hle⟩
      rw [issig, if_pos hbsd, if_pos hcur]
    · obtain ⟨sig, k', hfind, hsig⟩ := issigBSD_kill (o := o) (k.proc p).p_sig.card le_rfl hmem
        hdfl' (h.same.strc ▸ hs) (h.same.p_sigignore ▸ hign) (h.same.p_sigmask ▸ hmask)
        (h.same.p_ppid ▸ hppid)
      refine ⟨(k.proc p).p_sig.card, sig, k', ?_, hsig⟩
      rw [issig, if_pos hbsd, if_neg hcur]
      exact hfind
  · obtain ⟨sig, k', hfind, hsig⟩ := issigSysV_kill (o := o) (k.proc p).p_sig.card le_rfl hmem hdfl'
    refine ⟨(k.proc p).p_sig.card, sig, k', ?_, hsig⟩
    rw [issig, if_neg hbsd]
    exact hfind

/-- With BSD signals, a process of the system does not act on a signal by default. -/
theorem issigBSD_system (hs : (k.proc p).strc = false) (hppid : (k.proc p).p_ppid = 0)
    (hdfl : ∀ s, (k.proc p).u_signal s = .dfl) (n : ℕ) :
    ∀ sig k', issigBSD o p n k = some (sig, k') → sig = 0 := by
  induction n generalizing k with
  | zero => exact fun _ _ => nofun
  | succ n ih =>
    intro sig k' hfind
    rw [issigBSD] at hfind
    by_cases hbits : sigbits (k.proc p) = ∅
    · rw [if_pos hbits] at hfind
      exact (congrArg Prod.fst (Option.some.inj hfind)).symm
    rw [if_neg hbits, roundBSD] at hfind
    obtain ⟨s, hseq⟩ : ∃ s, s = fsig (sigbits (k.proc p)) := ⟨_, rfl⟩
    obtain ⟨k₁, hk₁⟩ : ∃ k₁, k₁ = (takeAway p s k).set p
      { (takeAway p s k).proc p with p_cursig := s } := ⟨_, rfl⟩
    have hx₁ : k₁.proc p =
        { k.proc p with p_sig := (k.proc p).p_sig.erase s, p_cursig := s } := by
      rw [hk₁, set_self, takeAway, set_self]
    have hs₁ : (k₁.proc p).strc = false := by rw [hx₁, ← hs]
    have hppid₁ : (k₁.proc p).p_ppid = 0 := by rw [hx₁, ← hppid]
    have hdfl₁ : ∀ s, (k₁.proc p).u_signal s = .dfl := fun s => by rw [hx₁, ← hdfl s]
    rw [← hseq] at hfind
    dsimp only at hfind
    rw [← hk₁, if_neg (by simp [hs₁]), takeBSD, hdfl₁] at hfind
    dsimp only at hfind
    rw [if_pos hppid₁] at hfind
    exact ih hs₁ hppid₁ hdfl₁ sig k' hfind

/-! ## Every signal that is posted -/

/-- A process that is not traced, with signals that it can have. -/
structure Sane (x : Proc) : Prop where
  strc : x.strc = false
  mask : SIGKILL ∉ x.p_sigmask ∧ SIGSTOP ∉ x.p_sigmask ∧ SIGCONT ∉ x.p_sigmask
  ignore : SIGKILL ∉ x.p_sigignore ∧ SIGSTOP ∉ x.p_sigignore
  catches : SIGKILL ∉ x.p_sigcatch ∧ SIGSTOP ∉ x.p_sigcatch
  handler : x.u_signal SIGKILL = .dfl ∧ x.u_signal SIGSTOP = .dfl
  apart : Apart x.p_sig

/-- What posting a signal shall do. -/
structure Posts (o : Outside) (k : Kernel) (p sig : ℕ) : Prop where
  ipl : (psignal o p sig k).ipl = k.ipl
  apart : Apart ((psignal o p sig k).proc p).p_sig
  stopped : sig ≠ SIGKILL → sig ≠ SIGCONT → (k.proc p).p_stat = .sstop →
    ((psignal o p sig k).proc p).p_stat ≠ .srun
  killed : sig = SIGKILL → ((psignal o p sig k).proc p).p_stat ≠ .sstop ∧
    Awake ((psignal o p sig k).proc p) ∧ SIGKILL ∈ ((psignal o p sig k).proc p).p_sig ∧
    Finds o p (psignal o p sig k)

/-- What posting a signal does. -/
theorem psignal_posts (o : Outside) (k : Kernel) (p sig : ℕ) (h : Sane (k.proc p)) :
    (¬Early k p sig → (psignal o p sig k).ipl = k.ipl) ∧
    Apart ((psignal o p sig k).proc p).p_sig ∧
    (p ≠ 0 → sig ≠ SIGKILL → sig ≠ SIGCONT → (k.proc p).p_stat = .sstop →
      ((psignal o p sig k).proc p).p_stat = .sstop) ∧
    (sig = SIGKILL → ((psignal o p sig k).proc p).p_stat ≠ .sstop ∧
      Awake ((psignal o p sig k).proc p) ∧ SIGKILL ∈ ((psignal o p sig k).proc p).p_sig ∧
      (((k.proc p).bsd = true → (k.proc p).p_ppid ≠ 0 ∧ (k.proc p).p_cursig ≤ SIGKILL) →
        Finds o p (psignal o p sig k))) := by
  have hinner : Inner (psignalWith o fun _ _ k => k) := psignalWith_inner _
  have hkill : sig = SIGKILL → Killed (k.proc p) ((psignal o p sig k).proc p) := fun he => by
    rw [he]
    exact kill_spec h.strc h.ignore.1 h.mask.1
  have hrest : (¬Early k p sig → (psignal o p sig k).ipl = k.ipl) ∧
      (Apart (k.proc p).p_sig → Apart ((psignal o p sig k).proc p).p_sig) ∧
      (p ≠ 0 → sig ≠ SIGKILL → sig ≠ SIGCONT → (k.proc p).p_stat = .sstop →
        ((psignal o p sig k).proc p).p_stat = .sstop) := by
    rw [psignal, psignalWith]
    by_cases hmode : (k.proc p).bsd = true
    · rw [if_pos hmode]
      obtain ⟨hipl, hap, hstat⟩ := psignalBSD_spec (o := o) hinner h.strc sig
      exact ⟨fun _ => hipl, hap, hstat⟩
    · rw [if_neg hmode]
      obtain ⟨hipl, hap, hstat⟩ := psignalSysV_spec (o := o) hinner h.strc
        (Bool.not_eq_true _ ▸ hmode) sig
      exact ⟨hipl, hap, fun _ => hstat⟩
  refine ⟨hrest.1, hrest.2.1 h.apart, hrest.2.2, fun he => ?_⟩
  have hkilled := hkill he
  refine ⟨hkilled.stat, hkilled.awake, ?_, fun hmode => ?_⟩
  · rw [hkilled.same.p_sig]
    exact Finset.mem_insert_self ..
  · exact issig_kill hkilled h.strc h.handler.1 h.ignore.1 h.mask.1 hmode

/-- Other code that does nothing. -/
def idle : Outside := ⟨id, fun _ => id, fun _ => id, fun _ => id⟩

/-- A process that does every signal by default. -/
def plainProc (stat : Stat) (ppid : ℤ) (bsd : Bool) : Proc where
  p_stat := stat
  p_pri := 30
  p_nice := NZERO
  p_time := 0
  p_wchan := none
  p_cursig := 0
  p_sig := ∅
  p_sigmask := ∅
  p_sigignore := ∅
  p_sigcatch := ∅
  p_ppid := ppid
  p_parent := 0
  bsd := bsd
  strc := false
  swted := false
  sload := true
  spgrp42 := false
  u_signal := fun _ => .dfl
  queued := fun h => absurd rfl h

theorem sane_plainProc (stat : Stat) (ppid : ℤ) (bsd : Bool) : Sane (plainProc stat ppid bsd) where
  strc := rfl
  mask := ⟨Finset.notMem_empty _, Finset.notMem_empty _, Finset.notMem_empty _⟩
  ignore := ⟨Finset.notMem_empty _, Finset.notMem_empty _⟩
  catches := ⟨Finset.notMem_empty _, Finset.notMem_empty _⟩
  handler := ⟨rfl, rfl⟩
  apart := fun h => absurd h (Finset.notMem_empty _)

/-- Two processes of the same kind. -/
def two (x : Proc) : Kernel := ⟨2, fun _ => x, 0, 0, 0, 60⟩

/-- A process that is stopped is killed. -/
theorem psignal_posts_stopped :
    ((psignal idle 1 SIGKILL (two (plainProc .sstop 5 true))).proc 1).p_stat ≠ .sstop ∧
      Finds idle 1 (psignal idle 1 SIGKILL (two (plainProc .sstop 5 true))) := by
  have h := (psignal_posts idle (two (plainProc .sstop 5 true)) 1 SIGKILL
    (sane_plainProc .sstop 5 true)).2.2.2 rfl
  exact ⟨h.1, h.2.2.2 fun _ => by decide⟩

/-- With BSD signals, a process of the system does not find `SIGKILL`. -/
theorem psignal_system (h : Sane (k.proc p)) (hbsd : (k.proc p).bsd = true)
    (hcur : (k.proc p).p_cursig = 0) (hppid : (k.proc p).p_ppid = 0)
    (hdfl : ∀ s, (k.proc p).u_signal s = .dfl) : ¬Finds o p (psignal o p SIGKILL k) := by
  have hsame : Same _ ((psignal o p SIGKILL k).proc p) :=
    (kill_spec h.strc h.ignore.1 h.mask.1).same
  intro hfinds
  obtain ⟨n, sig, k', hfind, hpos, -⟩ := hfinds
  rw [issig, if_pos (hsame.bsd.trans hbsd), if_neg fun h => h (hsame.p_cursig.trans hcur)] at hfind
  have hzero := issigBSD_system (hsame.strc.trans h.strc) (hsame.p_ppid.trans hppid)
    (fun s => (congrFun hsame.u_signal s).trans (hdfl s)) n sig k' hfind
  exact absurd hzero hpos.ne'

/-- The scheduler ignores `SIGCLD`, and a process that is not in core waits for something about it,
    while it is stopped. -/
def schedStopped : Kernel where
  nproc := 2
  proc := fun p => if p = 0 then { plainProc .sstop 0 true with p_sigignore := {SIGCLD} }
    else { plainProc .ssleep 0 true with
      p_wchan := some (.proc 0), sload := false, queued := fun _ => .inl rfl }
  ipl := 0
  runout := 1
  runrun := 0
  curpri := 60

/-- The process whose parent is process 0 does not find `SIGKILL`; the scheduler runs when it is
    put to bring a process into core. -/
theorem not_posts : ¬Posts idle (two (plainProc .ssleep 0 true)) 1 SIGKILL ∧
    Sane (schedStopped.proc 0) ∧ ¬Posts idle schedStopped 0 SIGCLD := by
  refine ⟨fun h => ?_, ?_, fun h => ?_⟩
  · exact psignal_system (sane_plainProc .ssleep 0 true) rfl rfl rfl (fun _ => rfl)
      (h.killed rfl).2.2.2
  · exact ⟨rfl, by decide, by decide, by decide, ⟨rfl, rfl⟩,
      fun h => absurd h (Finset.notMem_empty _)⟩
  · exact h.stopped (by decide) (by decide) rfl rfl

end AuxKernel.Signal
