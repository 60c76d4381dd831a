import AuxKernel.Signal.Basic

/-!
# What posting a signal does

* `Wakes`: waking up processes and putting some to run changes no signals, and lets a process
  that is stopped stay so, but for the scheduler;
* `Adds`: which signals processes get, when the interrupt priority is as before;
* `psignalSysV_spec`: what is posted with System V signals, where two cases return without lowering
  the priority again (`Early`).
-/

namespace AuxKernel.Signal

variable {o : Outside} {k k' k'' : Kernel} {p q r sig : ℕ} {x : Proc} {s : ℕ}
  {again : ℕ → ℕ → Kernel → Kernel}

@[simp] theorem set_self (k : Kernel) (p : ℕ) (x : Proc) : (k.set p x).proc p = x :=
  Function.update_self ..

theorem set_ne (k : Kernel) (x : Proc) (h : q ≠ p) : (k.set p x).proc q = k.proc q :=
  Function.update_of_ne h ..

@[simp] theorem set_ipl (k : Kernel) (p : ℕ) (x : Proc) : (k.set p x).ipl = k.ipl := rfl

@[simp] theorem spl_proc (k : Kernel) (s : ℕ) : (k.spl s).proc = k.proc := rfl

@[simp] theorem spl_ipl (k : Kernel) (s : ℕ) : (k.spl s).ipl = s := rfl

/-! ## Waking up -/

/-- What a process has to do with signals. -/
structure Same (x y : Proc) : Prop where
  p_sig : y.p_sig = x.p_sig
  p_cursig : y.p_cursig = x.p_cursig
  p_sigmask : y.p_sigmask = x.p_sigmask
  p_sigignore : y.p_sigignore = x.p_sigignore
  p_ppid : y.p_ppid = x.p_ppid
  bsd : y.bsd = x.bsd
  strc : y.strc = x.strc
  u_signal : y.u_signal = x.u_signal

theorem Same.refl (x : Proc) : Same x x := ⟨rfl, rfl, rfl, rfl, rfl, rfl, rfl, rfl⟩

theorem Same.trans {y z : Proc} (h : Same x y) (h' : Same y z) : Same x z where
  p_sig := h'.p_sig.trans h.p_sig
  p_cursig := h'.p_cursig.trans h.p_cursig
  p_sigmask := h'.p_sigmask.trans h.p_sigmask
  p_sigignore := h'.p_sigignore.trans h.p_sigignore
  p_ppid := h'.p_ppid.trans h.p_ppid
  bsd := h'.bsd.trans h.bsd
  strc := h'.strc.trans h.strc
  u_signal := h'.u_signal.trans h.u_signal

/-- No signals change. -/
structure Calm (k k' : Kernel) : Prop where
  ipl : k'.ipl = k.ipl
  same : ∀ r, Same (k.proc r) (k'.proc r)

theorem Calm.refl (k : Kernel) : Calm k k := ⟨rfl, fun _ => .refl _⟩

theorem Calm.trans (h : Calm k k') (h' : Calm k' k'') : Calm k k'' :=
  ⟨h'.ipl.trans h.ipl, fun r => (h.same r).trans (h'.same r)⟩

theorem calm_set (h : Same (k.proc p) x) : Calm k (k.set p x) := by
  refine ⟨rfl, fun r => ?_⟩
  by_cases hr : r = p
  · rw [hr, set_self]
    exact h
  · rw [set_ne k x hr]
    exact .refl _

theorem same_run (x : Proc) : Same x x.run := ⟨rfl, rfl, rfl, rfl, rfl, rfl, rfl, rfl⟩

/-- What putting a process to run does. -/
theorem runnable_spec (next : Kernel → Kernel) (hnext : ∀ k, Calm k (next k))
    (hstat : ∀ k r, r ≠ 0 → ((next k).proc r).p_stat = (k.proc r).p_stat)
    (hzero : ∀ k, (k.proc 0).p_stat = .srun → ((next k).proc 0).p_stat = .srun) (p : ℕ)
    (k : Kernel) : Calm k (runnable next p k) ∧ ((runnable next p k).proc p).p_stat = .srun ∧
      ∀ r, r ≠ p → r ≠ 0 → ((runnable next p k).proc r).p_stat = (k.proc r).p_stat := by
  rw [runnable]
  by_cases hrun : (k.proc p).p_stat = .srun
  · rw [if_pos hrun]
    exact ⟨.refl k, hrun, fun _ _ _ => rfl⟩
  rw [if_neg hrun]
  by_cases hload : (k.proc p).sload = true
  · rw [if_pos hload]
    obtain ⟨k₁, hk₁⟩ : ∃ k₁, k₁ = k.set p (k.proc p).run := ⟨_, rfl⟩
    have h₁ : Calm k k₁ := hk₁ ▸ calm_set (same_run _)
    have hself : (k₁.proc p).p_stat = .srun := by rw [hk₁, set_self]; rfl
    have hne : ∀ r, r ≠ p → (k₁.proc r).p_stat = (k.proc r).p_stat := fun r hr => by
      rw [hk₁, set_ne k _ hr]
    dsimp only
    rw [← hk₁]
    by_cases hpri : (k.proc p).p_pri < k₁.curpri
    · rw [if_pos hpri]
      exact ⟨⟨h₁.ipl, h₁.same⟩, hself, fun r hr _ => hne r hr⟩
    · rw [if_neg hpri]
      exact ⟨h₁, hself, fun r hr _ => hne r hr⟩
  rw [if_neg hload]
  obtain ⟨k₁, hk₁⟩ : ∃ k₁, k₁ = k.set p { (k.proc p).run with p_time := 0 } := ⟨_, rfl⟩
  have h₁ : Calm k k₁ := hk₁ ▸ calm_set ⟨rfl, rfl, rfl, rfl, rfl, rfl, rfl, rfl⟩
  have hself : (k₁.proc p).p_stat = .srun := by rw [hk₁, set_self]; rfl
  have hne : ∀ r, r ≠ p → (k₁.proc r).p_stat = (k.proc r).p_stat := fun r hr => by
    rw [hk₁, set_ne k _ hr]
  rw [← hk₁]
  by_cases hout : k₁.runout > 0
  · rw [if_pos hout]
    have h₂ : Calm k₁ { k₁ with runout := 0 } := ⟨rfl, fun _ => .refl _⟩
    refine ⟨(h₁.trans h₂).trans (hnext _), ?_, fun r hr hr₀ => (hstat _ r hr₀).trans (hne r hr)⟩
    by_cases hp : p = 0
    · rw [hp]
      exact hzero _ (hp ▸ hself)
    · exact (hstat _ p hp).trans hself
  · rw [if_neg hout]
    exact ⟨h₁, hself, fun r hr _ => hne r hr⟩

theorem setrun_spec (p : ℕ) (k : Kernel) : Calm k (setrun p k) ∧
    ((setrun p k).proc p).p_stat = .srun ∧
      ∀ r, r ≠ p → r ≠ 0 → ((setrun p k).proc r).p_stat = (k.proc r).p_stat := by
  have h₀ := runnable_spec id Calm.refl (fun _ _ _ => rfl) (fun _ h => h) 0
  exact runnable_spec (runnable id 0) (fun k => (h₀ k).1) (fun k r hr => (h₀ k).2.2 r hr hr)
    (fun k _ => (h₀ k).2.1) p k

/-- Processes are woken up. -/
structure Wakes (k k' : Kernel) : Prop extends Calm k k' where
  stat : ∀ r, r ≠ 0 → (k'.proc r).p_stat = (k.proc r).p_stat ∨
    (k.proc r).p_stat = .ssleep ∧ (k'.proc r).p_stat = .srun

theorem Wakes.refl (k : Kernel) : Wakes k k := ⟨.refl k, fun _ _ => .inl rfl⟩

theorem Wakes.trans (h : Wakes k k') (h' : Wakes k' k'') : Wakes k k'' := by
  refine ⟨h.toCalm.trans h'.toCalm, fun r hr => ?_⟩
  rcases h'.stat r hr with he | ⟨hs, he⟩
  · rw [he]
    exact h.stat r hr
  · refine .inr ⟨?_, he⟩
    rcases h.stat r hr with he' | ⟨hs', -⟩
    · exact he' ▸ hs
    · exact hs'

theorem wakes_set (h : Same (k.proc p) x) (hx : x.p_stat = (k.proc p).p_stat ∨
    (k.proc p).p_stat = .ssleep ∧ x.p_stat = .srun) : Wakes k (k.set p x) := by
  refine ⟨calm_set h, fun r _ => ?_⟩
  by_cases hr : r = p
  · rw [hr, set_self]
    exact hx
  · rw [set_ne k x hr]
    exact .inl rfl

theorem wakeOne_wakes (chan : Chan) (k : Kernel) (q : ℕ) : Wakes k (wakeOne chan k q) := by
  rw [wakeOne]
  by_cases hchan : (k.proc q).p_wchan = some chan
  · rw [if_pos hchan]
    by_cases hsleep : (k.proc q).p_stat = .ssleep
    · rw [if_pos hsleep]
      by_cases hload : (k.proc q).sload = true
      · rw [if_pos hload]
        have h₁ : Wakes k (k.set q (k.proc q).run) := wakes_set (same_run _) (.inr ⟨hsleep, rfl⟩)
        dsimp only
        by_cases hpri : (k.proc q).p_pri < (k.set q (k.proc q).run).curpri
        · rw [if_pos hpri]
          exact ⟨⟨h₁.ipl, h₁.same⟩, h₁.stat⟩
        · rw [if_neg hpri]
          exact h₁
      · rw [if_neg hload]
        have h₁ : Wakes k (k.set q { (k.proc q).run with p_time := 0 }) :=
          wakes_set ⟨rfl, rfl, rfl, rfl, rfl, rfl, rfl, rfl⟩ (.inr ⟨hsleep, rfl⟩)
        exact ⟨⟨h₁.ipl, h₁.same⟩, h₁.stat⟩
    · rw [if_neg hsleep]
      exact wakes_set ⟨rfl, rfl, rfl, rfl, rfl, rfl, rfl, rfl⟩ (.inl rfl)
  · rw [if_neg hchan]
    exact .refl k

theorem wakeup_wakes (chan : Chan) (k : Kernel) : Wakes k (wakeup chan k) := by
  have hall : ∀ (l : List ℕ) (k : Kernel), Wakes k (l.foldl (wakeOne chan) k) := by
    intro l
    induction l with
    | nil => exact Wakes.refl
    | cons q l ih => exact fun k => (wakeOne_wakes chan k q).trans (ih _)
  rw [wakeup]
  have h₁ := hall (List.range k.nproc) k
  generalize (List.range k.nproc).foldl (wakeOne chan) k = k₁ at h₁
  by_cases hout : k₁.runout < 0
  · rw [if_pos hout]
    have h₂ : Wakes k₁ { k₁ with runout := 0 } := ⟨⟨rfl, fun _ => .refl _⟩, fun _ _ => .inl rfl⟩
    obtain ⟨hcalm, -, hstat⟩ := setrun_spec 0 { k₁ with runout := 0 }
    exact (h₁.trans h₂).trans ⟨hcalm, fun r hr => .inl (hstat r hr hr)⟩
  · rw [if_neg hout]
    exact h₁

/-! ## Adding signals -/

/-- Processes get no signals but those of `D`, and the interrupt priority is as before. -/
structure Adds (D : Finset ℕ) (k k' : Kernel) : Prop where
  ipl : k'.ipl = k.ipl
  sig : ∀ r, (k'.proc r).p_sig ⊆ (k.proc r).p_sig ∪ D

theorem Adds.trans {D : Finset ℕ} (h : Adds D k k') (h' : Adds D k' k'') : Adds D k k'' := by
  refine ⟨h'.ipl.trans h.ipl, fun r => (h'.sig r).trans ?_⟩
  exact Finset.union_subset (h.sig r) Finset.subset_union_right

theorem Adds.mono {D D' : Finset ℕ} (h : Adds D k k') (hD : D ⊆ D') : Adds D' k k' :=
  ⟨h.ipl, fun r => (h.sig r).trans (Finset.union_subset_union_right hD)⟩

theorem Calm.adds (h : Calm k k') (D : Finset ℕ) : Adds D k k' :=
  ⟨h.ipl, fun r => (h.same r).p_sig ▸ Finset.subset_union_left⟩

theorem adds_set {D : Finset ℕ} (h : x.p_sig ⊆ (k.proc p).p_sig ∪ D) : Adds D k (k.set p x) := by
  refine ⟨rfl, fun r => ?_⟩
  by_cases hr : r = p
  · rw [hr, set_self]
    exact h
  · rw [set_ne k x hr]
    exact Finset.subset_union_left

theorem post_adds (p sig : ℕ) (k : Kernel) : Adds {sig} k (post p sig k) :=
  adds_set (Finset.insert_subset (by simp) Finset.subset_union_left)

theorem takeAway_adds (p sig : ℕ) (D : Finset ℕ) (k : Kernel) : Adds D k (takeAway p sig k) :=
  adds_set ((Finset.erase_subset ..).trans Finset.subset_union_left)

/-- What is done at a raised priority that is lowered again. -/
theorem Adds.splx {D : Finset ℕ} (h : Adds D (k.spl s) k') : Adds D k (k'.spl k.ipl) :=
  ⟨rfl, h.sig⟩

theorem Calm.splx (h : Calm (k.spl s) k') : Calm k (k'.spl k.ipl) := ⟨rfl, h.same⟩

/-- What a function posts itself. -/
def Inner (again : ℕ → ℕ → Kernel → Kernel) : Prop :=
  ∀ p k, Adds {SIGKILL} k (again p SIGKILL k) ∧ Adds {SIGCLD} k (again p SIGCLD k)

theorem stop_adds (h : Inner again) (hs : (k.proc p).strc = false) :
    Adds {SIGCLD} k (stop o again p k) := by
  rw [stop, if_pos (.inr (by simp [hs]))]
  have h₁ : Calm k (k.set p { (k.proc p).halt with swted := false }) :=
    calm_set ⟨rfl, rfl, rfl, rfl, rfl, rfl, rfl, rfl⟩
  have h₂ := h₁.trans (wakeup_wakes (.proc (k.proc p).p_parent) _).toCalm
  rw [if_neg (by simp [hs])]
  exact (h₂.adds _).trans (h _ _).2

/-! ## System V signals -/

/-- The kernel that a part of the code leaves. -/
def Flow.out : Flow → Kernel
  | .ret k => k
  | .next k => k

/-- A process that can be interrupted does not sleep on. -/
def Awake (x : Proc) : Prop := ¬(x.p_stat = .ssleep ∧ x.p_pri > PZERO)

theorem notice_spec (p : ℕ) (k : Kernel) : Calm k (notice p k) ∧ Awake ((notice p k).proc p) ∧
    ((k.proc p).p_stat ≠ .ssleep → ((notice p k).proc p).p_stat = (k.proc p).p_stat) ∧
    ((k.proc p).p_stat = .ssleep → ((notice p k).proc p).p_stat ≠ .sstop) := by
  have hspl : Calm k ((k.spl 6).spl k.ipl) := ⟨rfl, fun _ => .refl _⟩
  have hlow : ((k.spl 6).spl k.ipl).proc = k.proc := rfl
  rw [notice]
  by_cases hpri : (k.proc p).p_pri > PZERO
  · rw [if_pos hpri]
    cases hst : (k.proc p).p_stat with
    | ssleep =>
      obtain ⟨hcalm, hrun, -⟩ := setrun_spec p (k.spl 6)
      refine ⟨hcalm.splx, fun he => ?_, fun hne => absurd rfl hne, fun _ he => ?_⟩
      · exact absurd (hrun.symm.trans he.1) nofun
      · exact absurd (hrun.symm.trans he) nofun
    | sstop =>
      by_cases hchan : (k.proc p).p_wchan ≠ none
      · dsimp only
        rw [if_pos hchan]
        have h₁ : Calm (k.spl 6) ((k.spl 6).set p (k.proc p).unsleep) :=
          calm_set ⟨rfl, rfl, rfl, rfl, rfl, rfl, rfl, rfl⟩
        have hstat : (((k.spl 6).set p (k.proc p).unsleep).proc p).p_stat = .sstop := by
          rw [set_self]
          exact hst
        exact ⟨h₁.splx, fun he => absurd (hstat.symm.trans he.1) nofun, fun _ => hstat, nofun⟩
      · dsimp only
        rw [if_neg hchan, hlow]
        exact ⟨hspl, fun he => absurd (hst.symm.trans he.1) nofun, fun _ => hst, nofun⟩
    | srun => exact ⟨hspl, fun he => absurd (hst.symm.trans he.1) nofun, fun _ => hst, nofun⟩
    | szomb => exact ⟨hspl, fun he => absurd (hst.symm.trans he.1) nofun, fun _ => hst, nofun⟩
    | sidl => exact ⟨hspl, fun he => absurd (hst.symm.trans he.1) nofun, fun _ => hst, nofun⟩
    | sonproc => exact ⟨hspl, fun he => absurd (hst.symm.trans he.1) nofun, fun _ => hst, nofun⟩
    | sxbrk => exact ⟨hspl, fun he => absurd (hst.symm.trans he.1) nofun, fun _ => hst, nofun⟩
  · rw [if_neg hpri]
    exact ⟨hspl, fun he => hpri he.2, fun _ => rfl, fun he hs => absurd (he.symm.trans hs) nofun⟩

theorem killSysV_spec (p : ℕ) (k : Kernel) :
    Calm k (killSysV p k) ∧ ((killSysV p k).proc p).p_stat ≠ .sstop := by
  obtain ⟨x, hx⟩ : ∃ x, x = { k.proc p with swted := false } := ⟨_, rfl⟩
  have hsame : Same (k.proc p) x := hx ▸ ⟨rfl, rfl, rfl, rfl, rfl, rfl, rfl, rfl⟩
  have h₁ : Calm (k.spl 6) ((k.set p x).spl 6) := ⟨rfl, (calm_set hsame).same⟩
  rw [killSysV, ← hx]
  by_cases hst : x.p_stat = .sstop
  · rw [if_pos hst]
    by_cases hchan : x.p_wchan ≠ none
    · rw [if_pos hchan]
      have h₂ : Calm ((k.set p x).spl 6) (((k.set p x).spl 6).set p x.sleep) := by
        refine calm_set ?_
        rw [spl_proc, set_self]
        exact ⟨rfl, rfl, rfl, rfl, rfl, rfl, rfl, rfl⟩
      refine ⟨(h₁.trans h₂).splx, ?_⟩
      rw [spl_proc, set_self]
      exact nofun
    · rw [if_neg hchan]
      obtain ⟨hcalm, hrun, -⟩ := setrun_spec p ((k.set p x).spl 6)
      refine ⟨(h₁.trans hcalm).splx, ?_⟩
      rw [spl_proc, hrun]
      exact nofun
  · rw [if_neg hst]
    refine ⟨h₁.splx, ?_⟩
    rw [spl_proc, spl_proc, set_self]
    exact hst

/-- The signals that stop a process go. -/
theorem contSysV_spec (p : ℕ) (caught : Bool) (k : Kernel) :
    Calm (takeStops p k) (contSysV p caught k).out := by
  obtain ⟨k₁, hk₁⟩ : ∃ k₁, k₁ = takeStops p (k.spl 6) := ⟨_, rfl⟩
  have hproc : k₁.proc = (takeStops p k).proc := hk₁ ▸ rfl
  have hlow : ∀ k₂, Calm k₁ k₂ → Calm (takeStops p k) (k₂.spl k.ipl) := fun k₂ h₂ =>
    ⟨rfl, fun r => hproc ▸ h₂.same r⟩
  rw [contSysV, ← hk₁]
  by_cases hst : (k₁.proc p).p_stat = .sstop
  · rw [if_pos hst]
    by_cases hchan : ¬caught = true ∧ (k₁.proc p).p_wchan ≠ none
    · rw [if_pos hchan]
      exact hlow _ (calm_set ⟨rfl, rfl, rfl, rfl, rfl, rfl, rfl, rfl⟩)
    · rw [if_neg hchan]
      exact hlow _ (setrun_spec p k₁).1
  · rw [if_neg hst]
    exact hlow _ (.refl k₁)

theorem takeAway_proc (p sig : ℕ) (k : Kernel) :
    ((takeAway p sig k).proc p).p_sig = (k.proc p).p_sig.erase sig ∧
      ((takeAway p sig k).proc p).p_stat = (k.proc p).p_stat ∧
      ((takeAway p sig k).proc p).strc = (k.proc p).strc := by
  rw [takeAway, set_self]
  exact ⟨rfl, rfl, rfl⟩

/-- A process that is not traced is stopped, or killed, or notices the signal later; either the
    signal goes or `SIGCONT`. -/
theorem stopSysV_spec (h : Inner again) (hs : (k.proc p).strc = false) (sig : ℕ) (caught : Bool) :
    (((stopSysV o again p sig caught k).out.proc p).p_sig ⊆
        (k.proc p).p_sig.erase sig ∪ {SIGKILL, SIGCLD} ∨
      ((stopSysV o again p sig caught k).out.proc p).p_sig ⊆
        (k.proc p).p_sig.erase SIGCONT ∪ {SIGKILL, SIGCLD}) ∧
    (¬((sig = SIGSTOP ∨ (k.proc p).spgrp42 = true) ∧ (k.proc p).p_stat = .sstop) →
      (stopSysV o again p sig caught k).out.ipl = k.ipl) ∧
    ((k.proc p).p_stat = .sstop → ∃ k', stopSysV o again p sig caught k = .ret k' ∧
      (k'.proc p).p_stat = .sstop) := by
  rw [stopSysV]
  by_cases hjob : sig ≠ SIGSTOP ∧ ¬(k.proc p).spgrp42 = true
  · rw [if_pos hjob]
    obtain ⟨hsig, hstat, -⟩ := takeAway_proc p sig k
    exact ⟨.inl (hsig ▸ Finset.subset_union_left), fun _ => rfl, fun he => ⟨_, rfl, hstat.trans he⟩⟩
  rw [if_neg hjob, if_neg (by simp [hs])]
  have hjob' : sig = SIGSTOP ∨ (k.proc p).spgrp42 = true := by
    by_contra hne
    exact hjob (not_or.1 hne)
  obtain ⟨k₁, hk₁⟩ : ∃ k₁, k₁ = takeAway p SIGCONT k := ⟨_, rfl⟩
  obtain ⟨hsig₁, hstat₁, hs₁⟩ := takeAway_proc p SIGCONT k
  rw [← hk₁] at hsig₁ hstat₁ hs₁
  have hipl₁ : k₁.ipl = k.ipl := hk₁ ▸ rfl
  have hcont : (k₁.proc p).p_sig ⊆ (k.proc p).p_sig.erase SIGCONT ∪ {SIGKILL, SIGCLD} :=
    hsig₁ ▸ Finset.subset_union_left
  rw [← hk₁]
  cases hst : (k.proc p).p_stat with
  | ssleep =>
    dsimp only
    by_cases hc : caught = true
    · rw [if_pos hc]
      exact ⟨.inr hcont, fun _ => hipl₁, nofun⟩
    rw [if_neg hc]
    obtain ⟨k₂, hk₂⟩ : ∃ k₂, k₂ = takeAway p sig k₁ := ⟨_, rfl⟩
    obtain ⟨hsig₂, -, hs₂⟩ := takeAway_proc p sig k₁
    rw [← hk₂] at hsig₂ hs₂
    have hipl₂ : k₂.ipl = k.ipl := (hk₂ ▸ rfl : k₂.ipl = k₁.ipl).trans hipl₁
    have hsub₂ : (k₂.proc p).p_sig ⊆ (k.proc p).p_sig.erase SIGCONT :=
      hsig₂ ▸ hsig₁ ▸ Finset.erase_subset ..
    rw [← hk₂]
    by_cases hinit : sig ≠ SIGSTOP ∧ (k.proc p).p_ppid = 1
    · rw [if_pos hinit]
      have hadds := (h p k₂).1
      refine ⟨.inr ((hadds.sig p).trans (Finset.union_subset_union hsub₂ ?_)),
        fun _ => hadds.ipl.trans hipl₂, nofun⟩
      exact Finset.singleton_subset_iff.2 (Finset.mem_insert_self ..)
    · rw [if_neg hinit]
      obtain ⟨k₃, hk₃⟩ : ∃ k₃, k₃ = k₂.set p { k₂.proc p with p_cursig := sig } := ⟨_, rfl⟩
      have hp₃ : (k₃.proc p).p_sig = (k₂.proc p).p_sig ∧ (k₃.proc p).strc = false := by
        rw [hk₃, set_self]
        exact ⟨rfl, hs₂.trans (hs₁.trans hs)⟩
      have hadds := stop_adds (o := o) h hp₃.2
      have hipl₃ : k₃.ipl = k₂.ipl := hk₃ ▸ rfl
      rw [← hk₃]
      refine ⟨.inr ((hadds.sig p).trans (Finset.union_subset_union (hp₃.1 ▸ hsub₂) ?_)),
        fun _ => hadds.ipl.trans (hipl₃.trans hipl₂), nofun⟩
      exact Finset.singleton_subset_iff.2 (by simp)
  | sstop =>
    dsimp only
    refine ⟨.inr ?_, fun hne => absurd ⟨hjob', rfl⟩ hne, fun _ => ⟨_, rfl, ?_⟩⟩
    · refine (Finset.Subset.trans ?_ hcont)
      rw [Flow.out, (takeAway_proc p sig (k₁.spl 6)).1]
      exact Finset.erase_subset ..
    · rw [(takeAway_proc p sig (k₁.spl 6)).2.1]
      exact hstat₁.trans hst
  | srun => exact ⟨.inr hcont, fun _ => hipl₁, nofun⟩
  | szomb => exact ⟨.inr hcont, fun _ => hipl₁, nofun⟩
  | sidl => exact ⟨.inr hcont, fun _ => hipl₁, nofun⟩
  | sonproc => exact ⟨.inr hcont, fun _ => hipl₁, nofun⟩
  | sxbrk => exact ⟨.inr hcont, fun _ => hipl₁, nofun⟩

/-- The code that returns without lowering the priority. -/
def Early (k : Kernel) (p sig : ℕ) : Prop :=
  (k.proc p).bsd = false ∧ sig ∉ (k.proc p).p_sigignore ∧
    ((sig ∈ stops ∧ (sig = SIGSTOP ∨ (k.proc p).spgrp42 = true) ∧ (k.proc p).p_stat = .sstop) ∨
      (sig = SIGWINCH ∧ (k.proc p).p_stat = .ssleep ∧ sig ∉ (k.proc p).p_sigcatch))

/-- `SIGCONT` and a signal that stops a process are not both there. -/
def Apart (sigs : Finset ℕ) : Prop := SIGCONT ∈ sigs → Disjoint sigs stops

theorem Apart.mono {S T : Finset ℕ} (h : Apart T) (hs : S ⊆ T) : Apart S := fun hc =>
  (h (hs hc)).mono_left hs

theorem apart_of_not_cont {S : Finset ℕ} (h : SIGCONT ∉ S) : Apart S := fun hc => absurd hc h

theorem apart_of_disjoint {S : Finset ℕ} (h : Disjoint S stops) : Apart S := fun _ => h

/-- Other signals make no difference. -/
theorem Apart.union {S D : Finset ℕ} (h : Apart S) (hc : SIGCONT ∉ D) (hd : Disjoint D stops) :
    Apart (S ∪ D) := fun hmem =>
  Finset.disjoint_union_left.2 ⟨h ((Finset.mem_union.1 hmem).resolve_right hc), hd⟩

theorem Apart.insert {S : Finset ℕ} (h : Apart S) (hc : sig ≠ SIGCONT) (hd : sig ∉ stops) :
    Apart (insert sig S) := by
  refine (h.union (D := {sig}) ?_ ?_).mono (Finset.insert_subset (by simp) Finset.subset_union_left)
  · exact fun hmem => hc (Finset.mem_singleton.1 hmem).symm
  · exact Finset.disjoint_singleton_left.2 hd

theorem not_cont_of_stops (h : sig ∈ stops) : sig ≠ SIGCONT ∧ sig ≠ SIGKILL ∧ sig ≠ SIGCLD := by
  refine ⟨fun he => ?_, fun he => ?_, fun he => ?_⟩ <;> rw [he] at h <;> revert h <;> decide

theorem post_proc (p sig : ℕ) (k : Kernel) :
    (post p sig k).proc p = { k.proc p with p_sig := insert sig (k.proc p).p_sig } := set_self ..

/-- With System V signals: what is posted to a process that is not traced. -/
theorem psignalSysV_spec (h : Inner again) (hs : (k.proc p).strc = false)
    (hbsd : (k.proc p).bsd = false) (sig : ℕ) :
    (¬Early k p sig → (psignalSysV o again p sig k).ipl = k.ipl) ∧
    (Apart (k.proc p).p_sig → Apart ((psignalSysV o again p sig k).proc p).p_sig) ∧
    (sig ≠ SIGKILL → sig ≠ SIGCONT → (k.proc p).p_stat = .sstop →
      ((psignalSysV o again p sig k).proc p).p_stat = .sstop) := by
  rw [psignalSysV]
  by_cases hinv : sig = 0 ∨ sig > NSIG
  · rw [if_pos hinv]
    exact ⟨fun _ => rfl, id, fun _ _ => id⟩
  rw [if_neg hinv]
  by_cases hign : sig ∈ (k.proc p).p_sigignore ∧ sig ≠ SIGCLD
  · rw [if_pos hign]
    exact ⟨fun _ => rfl, id, fun _ _ => id⟩
  rw [if_neg hign]
  obtain ⟨k₁, hk₁⟩ : ∃ k₁, k₁ = post p sig k := ⟨_, rfl⟩
  obtain ⟨caught, hcaught⟩ : ∃ caught, caught = decide (sig ∈ (k.proc p).p_sigcatch) := ⟨_, rfl⟩
  have hx₁ : k₁.proc p = { k.proc p with p_sig := insert sig (k.proc p).p_sig } :=
    hk₁ ▸ post_proc p sig k
  have hsig₁ : (k₁.proc p).p_sig = insert sig (k.proc p).p_sig := by rw [hx₁]
  have hstat₁ : (k₁.proc p).p_stat = (k.proc p).p_stat := by rw [hx₁]
  have hs₁ : (k₁.proc p).strc = false := by rw [hx₁, ← hs]
  have hjob₁ : (k₁.proc p).spgrp42 = (k.proc p).spgrp42 := by rw [hx₁]
  have hipl₁ : k₁.ipl = k.ipl := hk₁ ▸ rfl
  rw [← hk₁, ← hcaught, switchSysV]
  -- what goes on is noticed, which changes neither signals nor that a process is stopped
  have hnotice : ∀ k₂ : Kernel, Calm k₂ (notice p k₂) ∧ ((k₂.proc p).p_stat = .sstop →
      ((notice p k₂).proc p).p_stat = .sstop) := fun k₂ => by
    obtain ⟨hcalm, -, hstat, -⟩ := notice_spec p k₂
    exact ⟨hcalm, fun he => (hstat fun hsl => absurd (he.symm.trans hsl) nofun).trans he⟩
  by_cases hkill : sig = SIGKILL
  · rw [if_pos hkill, Flow.andThen]
    have hcalm := (killSysV_spec p k₁).1.trans (hnotice (killSysV p k₁)).1
    refine ⟨fun _ => hcalm.ipl.trans hipl₁, fun hap => ?_, fun hne => absurd hkill hne⟩
    rw [(hcalm.same p).p_sig, hsig₁]
    exact hap.insert (by rw [hkill]; decide) (by rw [hkill]; decide)
  rw [if_neg hkill]
  by_cases hcont : sig = SIGCONT
  · rw [if_pos hcont]
    have hcalm := contSysV_spec p caught k₁
    have hout : Calm (contSysV p caught k₁).out ((contSysV p caught k₁).andThen (notice p)) := by
      cases contSysV p caught k₁ with
      | ret k₂ => exact .refl k₂
      | next k₂ => exact (hnotice k₂).1
    have hall := hcalm.trans hout
    refine ⟨fun _ => hall.ipl.trans hipl₁, fun _ => ?_, fun _ hne => absurd hcont hne⟩
    rw [(hall.same p).p_sig, takeStops, set_self]
    exact apart_of_disjoint Finset.sdiff_disjoint
  rw [if_neg hcont]
  by_cases hstop : sig ∈ stops
  · rw [if_pos hstop]
    obtain ⟨hsig, hipl, hstat⟩ := stopSysV_spec (o := o) h hs₁ sig caught
    have hout : Calm (stopSysV o again p sig caught k₁).out
        ((stopSysV o again p sig caught k₁).andThen (notice p)) := by
      cases stopSysV o again p sig caught k₁ with
      | ret k₂ => exact .refl k₂
      | next k₂ => exact (hnotice k₂).1
    have hinner : SIGCONT ∉ ({SIGKILL, SIGCLD} : Finset ℕ) ∧
        Disjoint ({SIGKILL, SIGCLD} : Finset ℕ) stops := by decide
    refine ⟨fun hearly => ?_, fun hap => ?_, fun _ _ hst => ?_⟩
    · rw [hout.ipl, hipl fun hst => hearly ⟨hbsd, fun hi => hign ⟨hi, ?_⟩, .inl ⟨hstop, ?_⟩⟩, hipl₁]
      · exact (not_cont_of_stops hstop).2.2
      · exact ⟨hjob₁ ▸ hst.1, hstat₁ ▸ hst.2⟩
    · rw [(hout.same p).p_sig]
      rcases hsig with hsig | hsig
      · rw [hsig₁] at hsig
        refine Apart.mono (Apart.union (hap.mono ?_) hinner.1 hinner.2) hsig
        intro s hs
        obtain ⟨hne, hmem⟩ := Finset.mem_erase.1 hs
        exact (Finset.mem_insert.1 hmem).resolve_left hne
      · refine Apart.mono (Apart.union (apart_of_not_cont ?_) hinner.1 hinner.2) hsig
        exact Finset.notMem_erase SIGCONT _
    · obtain ⟨k₂, hret, hst₂⟩ := hstat (hstat₁.trans hst)
      rw [hret]
      exact hst₂
  rw [if_neg hstop]
  have hap₁ : Apart (k.proc p).p_sig → Apart (k₁.proc p).p_sig := fun hap => by
    rw [hsig₁]
    exact hap.insert hcont hstop
  by_cases hwinch : sig = SIGWINCH
  · rw [if_pos hwinch, winchSysV]
    by_cases hdfl : (k₁.proc p).p_stat = .ssleep ∧ ¬caught = true
    · rw [if_pos hdfl, Flow.andThen]
      obtain ⟨hsig₂, -, -⟩ := takeAway_proc p sig (k₁.spl 6)
      have hcld : sig ≠ SIGCLD := by rw [hwinch]; decide
      have hdfl' : (k.proc p).p_stat = .ssleep ∧ sig ∉ (k.proc p).p_sigcatch :=
        ⟨hstat₁ ▸ hdfl.1, fun hc => hdfl.2 (hcaught.trans (decide_eq_true hc))⟩
      have hearly : Early k p sig := ⟨hbsd, fun hi => hign ⟨hi, hcld⟩, .inr ⟨hwinch, hdfl'⟩⟩
      refine ⟨fun hne => absurd hearly hne, fun hap => ?_, fun _ _ hst => ?_⟩
      · rw [hsig₂]
        exact (hap₁ hap).mono (Finset.erase_subset ..)
      · exact absurd (hst.symm.trans hdfl'.1) nofun
    · rw [if_neg hdfl, Flow.andThen]
      obtain ⟨hcalm, hstat⟩ := hnotice k₁
      refine ⟨fun _ => hcalm.ipl.trans hipl₁, fun hap => ?_,
        fun _ _ hst => hstat (hstat₁.trans hst)⟩
      rw [(hcalm.same p).p_sig]
      exact hap₁ hap
  · rw [if_neg hwinch, Flow.andThen]
    obtain ⟨hcalm, hstat⟩ := hnotice k₁
    refine ⟨fun _ => hcalm.ipl.trans hipl₁, fun hap => ?_, fun _ _ hst => hstat (hstat₁.trans hst)⟩
    rw [(hcalm.same p).p_sig]
    exact hap₁ hap

end AuxKernel.Signal
