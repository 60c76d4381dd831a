import AuxKernel.Signal.Post

/-!
# Posting with BSD signals

What posting a signal to a process with BSD signals does (`psignalBSD_spec`), and what the two
signals do that posting one posts itself (`psignalWith_inner`).
-/

namespace AuxKernel.Signal

variable {o : Outside} {k k' : Kernel} {p q r sig : ℕ} {x : Proc} {act : Action}
  {again : ℕ → ℕ → Kernel → Kernel}

/-- What process `p` does about signals stays, but for which there are. -/
structure Keeps (p : ℕ) (k k' : Kernel) : Prop where
  ipl : k'.ipl = k.ipl
  p_stat : (k'.proc p).p_stat = (k.proc p).p_stat
  strc : (k'.proc p).strc = (k.proc p).strc

theorem keeps_set (hst : x.p_stat = (k.proc p).p_stat) (hs : x.strc = (k.proc p).strc) :
    Keeps p k (k.set p x) := by
  refine ⟨rfl, ?_, ?_⟩ <;> rw [set_self]
  · exact hst
  · exact hs

/-- A signal that is posted goes with no signal that it shall not be with. -/
theorem postBSD_spec (p sig : ℕ) (act : Action) (k : Kernel) :
    Keeps p k (postBSD p sig act k).out ∧
      (Apart (k.proc p).p_sig → Apart ((postBSD p sig act k).out.proc p).p_sig) := by
  rw [postBSD]
  by_cases hzero : sig = 0
  · rw [if_pos hzero]
    exact ⟨⟨rfl, rfl, rfl⟩, id⟩
  rw [if_neg hzero]
  obtain ⟨k₁, hk₁⟩ : ∃ k₁, k₁ = post p sig k := ⟨_, rfl⟩
  have hx₁ : k₁.proc p = { k.proc p with p_sig := insert sig (k.proc p).p_sig } :=
    hk₁ ▸ post_proc p sig k
  have hsig₁ : (k₁.proc p).p_sig = insert sig (k.proc p).p_sig := by rw [hx₁]
  have hset : ∀ x : Proc, x.p_stat = (k₁.proc p).p_stat → x.strc = (k₁.proc p).strc →
      Keeps p k (k₁.set p x) := fun x hst hs => by
    have h := keeps_set hst hs
    rw [hx₁] at hst hs
    exact ⟨h.ipl.trans (hk₁ ▸ rfl), (set_self k₁ p x).symm ▸ hst, (set_self k₁ p x).symm ▸ hs⟩
  have hpost : Keeps p k k₁ := ⟨hk₁ ▸ rfl, by rw [hx₁], by rw [hx₁]⟩
  obtain ⟨nice, hnice⟩ : ∃ nice, nice = k₁.set p
    { k₁.proc p with p_nice := min (k₁.proc p).p_nice NZERO } := ⟨_, rfl⟩
  have hkeep : Keeps p k nice ∧ (nice.proc p).p_sig = (k₁.proc p).p_sig := by
    rw [hnice]
    refine ⟨hset _ rfl rfl, ?_⟩
    rw [set_self]
  have hap₁ : sig ≠ SIGCONT → sig ∉ stops → Apart (k.proc p).p_sig → Apart (k₁.proc p).p_sig :=
    fun hc hs hap => by
      rw [hsig₁]
      exact hap.insert hc hs
  dsimp only
  rw [← hk₁, ← hnice]
  by_cases hterm : sig = SIGTERM
  · rw [if_pos hterm]
    have hap := hap₁ (by rw [hterm]; decide) (by rw [hterm]; decide)
    by_cases hc : (k₁.proc p).strc = true ∨ act ≠ .dfl
    · rw [if_pos hc]
      exact ⟨hpost, hap⟩
    · rw [if_neg hc, Flow.out, hkeep.2]
      exact ⟨hkeep.1, hap⟩
  rw [if_neg hterm]
  by_cases hkill : sig = SIGKILL
  · rw [if_pos hkill, Flow.out, hkeep.2]
    exact ⟨hkeep.1, hap₁ (by rw [hkill]; decide) (by rw [hkill]; decide)⟩
  rw [if_neg hkill]
  by_cases hcont : sig = SIGCONT
  · rw [if_pos hcont, Flow.out, takeStops, set_self]
    exact ⟨hset _ rfl rfl, fun _ => apart_of_disjoint Finset.sdiff_disjoint⟩
  rw [if_neg hcont]
  by_cases hjob : sig ∈ ttyStops ∧ ¬(k₁.proc p).spgrp42 = true
  · rw [if_pos hjob, Flow.out, (takeAway_proc p sig k₁).1, hsig₁]
    refine ⟨hset _ rfl rfl, fun hap => hap.mono fun s hs => ?_⟩
    obtain ⟨hne, hmem⟩ := Finset.mem_erase.1 hs
    exact (Finset.mem_insert.1 hmem).resolve_left hne
  rw [if_neg hjob]
  by_cases hstop : sig ∈ stops
  · rw [if_pos hstop, Flow.out, (takeAway_proc p SIGCONT k₁).1]
    exact ⟨hset _ rfl rfl, fun _ => apart_of_not_cont (Finset.notMem_erase SIGCONT _)⟩
  · rw [if_neg hstop]
    exact ⟨hpost, hap₁ hcont hstop⟩

theorem runBSD_spec (p : ℕ) (k : Kernel) :
    Calm k (runBSD p k) ∧ ((runBSD p k).proc p).p_stat = .srun := by
  rw [runBSD]
  by_cases hpri : (k.proc p).p_pri > PUSER
  · rw [if_pos hpri]
    obtain ⟨hcalm, hrun, -⟩ := setrun_spec p (k.set p { k.proc p with p_pri := PUSER })
    have h₁ : Calm k (k.set p { k.proc p with p_pri := PUSER }) :=
      calm_set ⟨rfl, rfl, rfl, rfl, rfl, rfl, rfl, rfl⟩
    exact ⟨h₁.trans hcalm, hrun⟩
  · rw [if_neg hpri]
    obtain ⟨hcalm, hrun, -⟩ := setrun_spec p k
    exact ⟨hcalm, hrun⟩

/-- A process that sleeps runs or goes on sleeping, for a signal that does not stop it. -/
theorem sleepBSD_other (hstop : sig ∉ stops) (act : Action) (k : Kernel) :
    Adds ∅ k (sleepBSD o again p sig act k) := by
  have hrun := (runBSD_spec p k).1.adds ∅
  have htake := takeAway_adds p sig ∅ k
  rw [sleepBSD]
  by_cases hpri : (k.proc p).p_pri ≤ PZERO
  · rw [if_pos hpri]
    exact (Calm.refl k).adds ∅
  rw [if_neg hpri]
  by_cases hs : (k.proc p).strc = true
  · rw [if_pos hs]
    exact hrun
  rw [if_neg hs, if_neg hstop]
  by_cases hio : sig = SIGIO ∨ sig = SIGURG ∨ sig = SIGWINCH
  · rw [if_pos hio]
    by_cases hact : act ≠ .dfl
    · rw [if_pos hact]
      exact hrun
    · rw [if_neg hact]
      exact htake
  rw [if_neg hio]
  by_cases hcld : sig = SIGCLD
  · rw [if_pos hcld]
    by_cases hact : act ≠ .dfl
    · rw [if_pos hact]
      exact hrun
    · rw [if_neg hact]
      exact htake.trans ((wakeup_wakes _ _).toCalm.adds _)
  · rw [if_neg hcld]
    exact hrun

/-- A process that sleeps runs, stops or goes on sleeping. -/
theorem sleepBSD_adds (h : Inner again) (hs : (k.proc p).strc = false) (act : Action) :
    Adds {SIGKILL, SIGCLD} k (sleepBSD o again p sig act k) := by
  by_cases hstop : sig ∈ stops
  · rw [sleepBSD]
    by_cases hpri : (k.proc p).p_pri ≤ PZERO
    · rw [if_pos hpri]
      exact (Calm.refl k).adds _
    rw [if_neg hpri, if_neg (by simp [hs]), if_pos hstop]
    by_cases hact : act ≠ .dfl
    · rw [if_pos hact]
      exact (runBSD_spec p k).1.adds _
    rw [if_neg hact]
    by_cases hinit : sig ≠ SIGSTOP ∧ (k.proc p).p_parent = 1
    · rw [if_pos hinit]
      exact ((h p k).1.mono (by simp)).trans (takeAway_adds p sig _ _)
    rw [if_neg hinit]
    obtain ⟨k₂, hk₂⟩ : ∃ k₂, k₂ = (takeAway p sig k).set p
      { (takeAway p sig k).proc p with p_cursig := sig } := ⟨_, rfl⟩
    have hs₂ : (k₂.proc p).strc = false := by
      rw [hk₂, set_self]
      exact (takeAway_proc p sig k).2.2.trans hs
    have h₂ : Adds {SIGKILL, SIGCLD} (takeAway p sig k) k₂ :=
      hk₂ ▸ adds_set Finset.subset_union_left
    dsimp only
    rw [← hk₂]
    exact ((takeAway_adds p sig _ k).trans h₂).trans ((stop_adds h hs₂).mono (by simp))
  · exact (sleepBSD_other hstop act k).mono (Finset.empty_subset _)

/-- A process that is stopped gets nothing, and stays so but for two signals. -/
theorem sstopBSD_spec (p sig : ℕ) (act : Action) (k : Kernel) :
    Adds ∅ k (sstopBSD p sig act k) ∧ (sig ≠ SIGKILL → sig ≠ SIGCONT →
      (k.proc p).p_stat = .sstop → ((sstopBSD p sig act k).proc p).p_stat = .sstop) := by
  have hrun := (runBSD_spec p k).1.adds ∅
  have hkeep := (Calm.refl k).adds ∅
  rw [sstopBSD]
  by_cases hs : (k.proc p).strc = true
  · rw [if_pos hs]
    exact ⟨hkeep, fun _ _ h => h⟩
  rw [if_neg hs]
  by_cases hkill : sig = SIGKILL
  · rw [if_pos hkill]
    exact ⟨hrun, fun hne => absurd hkill hne⟩
  rw [if_neg hkill]
  by_cases hcont : sig = SIGCONT
  · rw [if_pos hcont]
    refine ⟨?_, fun _ hne => absurd hcont hne⟩
    by_cases hact : act ≠ .dfl ∨ (k.proc p).p_wchan = none
    · rw [if_pos hact]
      exact hrun
    · rw [if_neg hact]
      exact adds_set Finset.subset_union_left
  rw [if_neg hcont]
  by_cases hstop : sig ∈ stops
  · rw [if_pos hstop]
    exact ⟨takeAway_adds p sig ∅ k, fun _ _ h => (takeAway_proc p sig k).2.1.trans h⟩
  rw [if_neg hstop]
  by_cases hchan : (k.proc p).p_wchan ≠ none ∧ (k.proc p).p_pri > PZERO
  · rw [if_pos hchan, set_self]
    exact ⟨adds_set Finset.subset_union_left, fun _ _ h => h⟩
  · rw [if_neg hchan]
    exact ⟨hkeep, fun _ _ h => h⟩

/-- With BSD signals: what the process does about the signal. -/
theorem actBSD_spec (h : Inner again) (hs : (k.proc p).strc = false) (sig : ℕ) (act : Action) :
    Adds {SIGKILL, SIGCLD} k (actBSD o again p sig act k) ∧ (sig ≠ SIGKILL → sig ≠ SIGCONT →
      (k.proc p).p_stat = .sstop → ((actBSD o again p sig act k).proc p).p_stat = .sstop) := by
  have hkeep : Adds {SIGKILL, SIGCLD} k ((k.spl 6).spl k.ipl) :=
    ⟨rfl, fun _ => Finset.subset_union_left⟩
  rw [actBSD]
  cases hst : (k.proc p).p_stat with
  | ssleep =>
    have hs' : ((k.spl 6).proc p).strc = false := hs
    exact ⟨(sleepBSD_adds h hs' act).splx, fun _ _ => nofun⟩
  | sstop =>
    obtain ⟨hadds, hstat⟩ := sstopBSD_spec p sig act (k.spl 6)
    exact ⟨(hadds.mono (Finset.empty_subset _)).splx, fun hk hc _ => hstat hk hc hst⟩
  | srun => exact ⟨hkeep, fun _ _ => nofun⟩
  | szomb => exact ⟨hkeep, fun _ _ => nofun⟩
  | sidl => exact ⟨hkeep, fun _ _ => nofun⟩
  | sonproc => exact ⟨hkeep, fun _ _ => nofun⟩
  | sxbrk => exact ⟨hkeep, fun _ _ => nofun⟩

/-- A signal that stops no process makes it post none. -/
theorem actBSD_other (hstop : sig ∉ stops) (act : Action) (k : Kernel) :
    Adds ∅ k (actBSD o again p sig act k) := by
  have hkeep : Adds ∅ k ((k.spl 6).spl k.ipl) := ⟨rfl, fun _ => Finset.subset_union_left⟩
  rw [actBSD]
  cases (k.proc p).p_stat with
  | ssleep => exact (sleepBSD_other hstop act (k.spl 6)).splx
  | sstop => exact (sstopBSD_spec p sig act (k.spl 6)).1.splx
  | srun => exact hkeep
  | szomb => exact hkeep
  | sidl => exact hkeep
  | sonproc => exact hkeep
  | sxbrk => exact hkeep

/-- With System V signals: the two signals that posting a signal posts itself post none. -/
theorem psignalSysV_inner (hsig : sig = SIGKILL ∨ sig = SIGCLD) (p : ℕ) (k : Kernel) :
    Adds {sig} k (psignalSysV o again p sig k) := by
  rw [psignalSysV]
  have hpost := post_adds p sig k
  have hkeep := (Calm.refl k).adds {sig}
  by_cases hinv : sig = 0 ∨ sig > NSIG
  · rw [if_pos hinv]
    exact hkeep
  rw [if_neg hinv]
  by_cases hign : sig ∈ (k.proc p).p_sigignore ∧ sig ≠ SIGCLD
  · rw [if_pos hign]
    exact hkeep
  rw [if_neg hign, switchSysV]
  obtain ⟨k₁, hk₁⟩ : ∃ k₁, k₁ = post p sig k := ⟨_, rfl⟩
  rw [← hk₁] at hpost ⊢
  rcases hsig with rfl | rfl
  · rw [if_pos rfl, Flow.andThen]
    exact hpost.trans (((killSysV_spec p k₁).1.trans (notice_spec p _).1).adds _)
  · rw [if_neg (by decide), if_neg (by decide), if_neg (by decide), if_neg (by decide),
      Flow.andThen]
    exact hpost.trans ((notice_spec p k₁).1.adds _)

/-- With BSD signals: the two signals that posting a signal posts itself post none. -/
theorem psignalBSD_inner (hsig : sig = SIGKILL ∨ sig = SIGCLD) (p : ℕ) (k : Kernel) :
    Adds {sig} k (psignalBSD o again p sig k) := by
  have hstop : sig ∉ stops := by rcases hsig with rfl | rfl <;> decide
  have hkeep := (Calm.refl k).adds {sig}
  rw [psignalBSD]
  by_cases hinv : sig ≥ NSIG
  · rw [if_pos hinv]
    exact hkeep
  rw [if_neg hinv]
  by_cases hign : ¬(k.proc p).strc = true ∧ sig ∈ (k.proc p).p_sigignore
  · rw [if_pos hign]
    by_cases hcld : sig = SIGCLD
    · rw [if_pos hcld]
      exact (wakeup_wakes _ k).toCalm.adds _
    · rw [if_neg hcld]
      exact hkeep
  rw [if_neg hign]
  obtain ⟨act, hact⟩ : ∃ act, act = action (k.proc p) sig := ⟨_, rfl⟩
  dsimp only
  rw [← hact]
  obtain ⟨k₁, hk₁, hadds⟩ : ∃ k₁, postBSD p sig act k = .next k₁ ∧ Adds {sig} k k₁ := by
    have hpost := post_adds p sig k
    rw [postBSD]
    rcases hsig with rfl | rfl
    · rw [if_neg (by decide), if_neg (by decide), if_pos rfl]
      exact ⟨_, rfl, hpost.trans (adds_set Finset.subset_union_left)⟩
    · rw [if_neg (by decide), if_neg (by decide), if_neg (by decide), if_neg (by decide),
        if_neg (fun h => absurd h.1 (by decide)), if_neg (by decide)]
      exact ⟨_, rfl, hpost⟩
  rw [hk₁, Flow.andThen]
  by_cases hhold : act = .hold
  · rw [if_pos hhold]
    exact hadds
  · rw [if_neg hhold]
    exact hadds.trans ((actBSD_other hstop act k₁).mono (Finset.empty_subset _))

theorem psignalWith_inner (again : ℕ → ℕ → Kernel → Kernel) : Inner (psignalWith o again) := by
  intro p k
  rw [psignalWith, psignalWith]
  by_cases hmode : (k.proc p).bsd = true
  · rw [if_pos hmode, if_pos hmode]
    exact ⟨psignalBSD_inner (.inl rfl) p k, psignalBSD_inner (.inr rfl) p k⟩
  · rw [if_neg hmode, if_neg hmode]
    exact ⟨psignalSysV_inner (.inl rfl) p k, psignalSysV_inner (.inr rfl) p k⟩

/-- With BSD signals: what is posted to a process that is not traced. Process 0, the scheduler,
    is put to run when one is woken up that is not in core. -/
theorem psignalBSD_spec (h : Inner again) (hs : (k.proc p).strc = false) (sig : ℕ) :
    (psignalBSD o again p sig k).ipl = k.ipl ∧
    (Apart (k.proc p).p_sig → Apart ((psignalBSD o again p sig k).proc p).p_sig) ∧
    (p ≠ 0 → sig ≠ SIGKILL → sig ≠ SIGCONT → (k.proc p).p_stat = .sstop →
      ((psignalBSD o again p sig k).proc p).p_stat = .sstop) := by
  rw [psignalBSD]
  by_cases hinv : sig ≥ NSIG
  · rw [if_pos hinv]
    exact ⟨rfl, id, fun _ _ _ => id⟩
  rw [if_neg hinv]
  by_cases hign : ¬(k.proc p).strc = true ∧ sig ∈ (k.proc p).p_sigignore
  · rw [if_pos hign]
    by_cases hcld : sig = SIGCLD
    · rw [if_pos hcld]
      have hw := wakeup_wakes (.proc p) k
      refine ⟨hw.ipl, fun hap => (hw.same p).p_sig ▸ hap, fun hp _ _ hst => ?_⟩
      rcases hw.stat p hp with he | ⟨hsl, -⟩
      · exact he.trans hst
      · exact absurd (hst.symm.trans hsl) nofun
    · rw [if_neg hcld]
      exact ⟨rfl, id, fun _ _ _ => id⟩
  rw [if_neg hign]
  obtain ⟨act, hact⟩ : ∃ act, act = action (k.proc p) sig := ⟨_, rfl⟩
  obtain ⟨hkeep, hap₁⟩ := postBSD_spec p sig act k
  dsimp only
  rw [← hact]
  cases hpost : postBSD p sig act k with
  | ret k₁ =>
    rw [hpost] at hkeep hap₁
    exact ⟨hkeep.ipl, hap₁, fun _ _ _ hst => hkeep.p_stat.trans hst⟩
  | next k₁ =>
    rw [hpost] at hkeep hap₁
    rw [Flow.andThen]
    by_cases hhold : act = .hold
    · rw [if_pos hhold]
      exact ⟨hkeep.ipl, hap₁, fun _ _ _ hst => hkeep.p_stat.trans hst⟩
    · rw [if_neg hhold]
      obtain ⟨hadds, hstat⟩ := actBSD_spec (o := o) h (hkeep.strc.trans hs) sig act
      refine ⟨hadds.ipl.trans hkeep.ipl, fun hap => ?_, fun _ hk hc hst => ?_⟩
      · exact ((hap₁ hap).union (by decide) (by decide)).mono (hadds.sig p)
      · exact hstat hk hc (hkeep.p_stat.trans hst)

end AuxKernel.Signal
