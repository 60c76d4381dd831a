import AuxKernel.Flock.Basic
import AuxKernel.UseCounts

/-!
# Locks exclude each other

Giving up a lock, sleeping for one and taking one keep the locks as they should be
(`Inv.unlockSh`, `Inv.unlockEx`, `Inv.sleepOn`, `Inv.grant`), if what is taken is free. A
process that was woken up does not always look: the loop that waits for shared locks does
not start again to see whether somebody has got an exclusive lock meanwhile, and a shared
lock is taken for a file that another process has locked meanwhile, which panics (`Finds`).

* `Inv.lockLoop`: the loops of `vno_lock` come to an end;
* `flocks_of_clean`: where these two do not happen, locks exclude each other.
-/

namespace AuxKernel.Flock

open UseCounts

variable {nfile : ℕ}

/-- How many open files have a flag. -/
def number (nfile : ℕ) (flag : ℕ → Bool) : ℕ :=
  ((Finset.range nfile).filter fun fp => flag fp = true).card

/-- What a process asleep in one of the loops waits for is held. -/
def Waits (s : State) : Chan → Prop
  | .ex => s.vexlock = true ∧ s.vlwait = true
  | .sh => s.vshlock = true ∧ s.vlwait = true

/-- The file and the request of a process in `vno_lock`. -/
def Pc.Legal (nfile : ℕ) : Pc → Prop
  | .idle => True
  | .asleep c fp cmd | .awake c fp cmd =>
    fp < nfile ∧ (cmd.ex ∨ cmd.sh) ∧ (c = .sh → cmd.ex = true ∧ cmd.sh = false)

/-- The locks are as they should be. -/
structure Inv (nfile : ℕ) (s : State) : Prop where
  ex : ∀ fp < nfile, s.fexlock fp = true → ∀ fp' < nfile,
    (s.fexlock fp' = true → fp' = fp) ∧ s.fshlock fp' = false
  exlockc : s.v_exlockc = number nfile s.fexlock
  shlockc : s.v_shlockc = number nfile s.fshlock
  lt : s.v_shlockc < 2 ^ 16
  vexlock : s.vexlock = true ↔ 0 < s.v_exlockc
  vshlock : s.vshlock = true ↔ 0 < s.v_shlockc
  waits : ∀ p c fp cmd, s.pc p = .asleep c fp cmd → Waits s c
  legal : ∀ p, (s.pc p).Legal nfile
  panicked : s.panicked = false

theorem number_pos {flag : ℕ → Bool} {fp : ℕ} (hfp : fp < nfile) (h : flag fp = true) :
    0 < number nfile flag :=
  Finset.card_pos.2 ⟨fp, Finset.mem_filter.2 ⟨Finset.mem_range.2 hfp, h⟩⟩

theorem number_eq_zero {flag : ℕ → Bool} (h : ∀ fp < nfile, flag fp = false) :
    number nfile flag = 0 :=
  Finset.card_eq_zero.2 (Finset.filter_eq_empty_iff.2 fun fp hfp => by
    simp [h fp (Finset.mem_range.1 hfp)])

theorem number_update (flag : ℕ → Bool) {fp : ℕ} (hfp : fp < nfile) (b : Bool) :
    number nfile (Function.update flag fp b) + (if flag fp = true then 1 else 0) =
      number nfile flag + if b = true then 1 else 0 :=
  card_filter_update (Finset.mem_range.2 hfp) b true

/-- A file has no flag whose number is zero. -/
theorem flag_of_number_eq_zero {flag : ℕ → Bool} (h : number nfile flag = 0) {fp : ℕ}
    (hfp : fp < nfile) : flag fp = false := by
  by_contra hf
  have := number_pos hfp (by simpa using hf)
  omega

namespace Inv

variable {s : State}

/-- A vnode that is not locked exclusively has no file with an exclusive lock. -/
theorem no_ex (h : Inv nfile s) (hv : s.vexlock = false) {fp : ℕ} (hfp : fp < nfile) :
    s.fexlock fp = false := by
  refine flag_of_number_eq_zero ?_ hfp
  have h₁ := h.exlockc
  have h₂ := mt h.vexlock.2 (by simp [hv])
  omega

theorem no_sh (h : Inv nfile s) (hv : s.vshlock = false) {fp : ℕ} (hfp : fp < nfile) :
    s.fshlock fp = false := by
  refine flag_of_number_eq_zero ?_ hfp
  have h₁ := h.shlockc
  have h₂ := mt h.vshlock.2 (by simp [hv])
  omega

/-- Where there is an exclusive lock it is the only lock. -/
theorem number_of_ex (h : Inv nfile s) {fp : ℕ} (hfp : fp < nfile) (hex : s.fexlock fp = true) :
    s.v_exlockc = 1 ∧ s.v_shlockc = 0 := by
  have hsh := number_eq_zero fun fp' hfp' => (h.ex fp hfp hex fp' hfp').2
  have hnum : number nfile s.fexlock = 1 := by
    refine Finset.card_eq_one.2 ⟨fp, ?_⟩
    ext fp'
    rw [Finset.mem_filter, Finset.mem_range, Finset.mem_singleton]
    constructor
    · rintro ⟨hlt, hf⟩
      exact (h.ex fp hfp hex fp' hlt).1 hf
    · rintro rfl
      exact ⟨hfp, hex⟩
  rw [h.exlockc, h.shlockc, hnum, hsh]
  exact ⟨rfl, rfl⟩

/-- A process returns. -/
theorem ret (h : Inv nfile s) (p : ℕ) (e : Option Errno) : Inv nfile (s.ret p e) := by
  refine ⟨h.ex, h.exlockc, h.shlockc, h.lt, h.vexlock, h.vshlock, fun q c fp cmd hq => ?_,
    fun q => ?_, h.panicked⟩
  · by_cases hqp : q = p
    · subst hqp
      simp [State.ret, State.setPc] at hq
    · exact h.waits q c fp cmd (by simpa [State.ret, State.setPc, hqp] using hq)
  · by_cases hqp : q = p
    · subst hqp
      simp [State.ret, State.setPc, Pc.Legal]
    · simpa [State.ret, State.setPc, hqp] using h.legal q

/-- A process sleeps for a lock that is held. -/
theorem sleepOn (h : Inv nfile s) {p fp : ℕ} {c : Chan} {cmd : Cmd}
    (hlegal : (Pc.asleep c fp cmd).Legal nfile)
    (hheld : match c with | .ex => s.vexlock = true | .sh => s.vshlock = true) :
    Inv nfile (sleepOn s p c fp cmd) := by
  refine ⟨h.ex, h.exlockc, h.shlockc, h.lt, h.vexlock, h.vshlock, fun q c' fp' cmd' hq => ?_,
    fun q => ?_, h.panicked⟩
  · by_cases hqp : q = p
    · subst hqp
      obtain ⟨rfl, rfl, rfl⟩ := Pc.asleep.inj
        (by simpa [Flock.sleepOn, State.setPc] using hq : Pc.asleep c fp cmd = .asleep c' fp' cmd')
      cases c <;> exact ⟨hheld, rfl⟩
    · have := h.waits q c' fp' cmd' (by simpa [Flock.sleepOn, State.setPc, hqp] using hq)
      cases c' <;> exact ⟨this.1, rfl⟩
  · by_cases hqp : q = p
    · subst hqp
      simpa [Flock.sleepOn, State.setPc] using hlegal
    · simpa [Flock.sleepOn, State.setPc, hqp] using h.legal q

/-- What is woken up was asleep, and the others sleep on. -/
theorem wake_asleep {c c' : Chan} {pc : Pc} {fp : ℕ} {cmd : Cmd}
    (h : pc.wake c = .asleep c' fp cmd) : pc = .asleep c' fp cmd ∧ c' ≠ c := by
  cases pc with
  | idle => exact nomatch h
  | awake c'' fp' cmd' => exact nomatch h
  | asleep c'' fp' cmd' =>
    rw [Pc.wake] at h
    split_ifs at h with hc
    exact ⟨h, (Pc.asleep.inj h).1 ▸ hc⟩

theorem legal_wake {c : Chan} {pc : Pc} (h : pc.Legal nfile) : (pc.wake c).Legal nfile := by
  cases pc with
  | idle => exact h
  | awake c' fp cmd => exact h
  | asleep c' fp cmd =>
    rw [Pc.wake]
    split_ifs with hc
    · exact hc ▸ h
    · exact h

/-- A file gives up its shared lock. -/
theorem unlockSh (h : Inv nfile s) {fp : ℕ} (hfp : fp < nfile) (hsh : s.fshlock fp = true) :
    Inv nfile (unlockSh s fp) := by
  have hpos := number_pos hfp hsh
  have hshc := h.shlockc
  have hlt := h.lt
  have hv : s.vshlock = true := h.vshlock.2 (by omega)
  have hc : toUshort (s.v_shlockc - 1) = s.v_shlockc - 1 := toUshort_of_mem (by omega) (by omega)
  have hnum : s.v_shlockc - 1 = number nfile (Function.update s.fshlock fp false) := by
    have := number_update s.fshlock hfp false
    simp only [hsh, if_true, Bool.false_eq_true, if_false, add_zero] at this
    omega
  have hnoex (fp' : ℕ) (hfp' : fp' < nfile) : s.fexlock fp' = false := by
    by_contra hex
    have := (h.number_of_ex hfp' (by simpa using hex)).2
    omega
  have hexcl : ∀ fp₁ < nfile, s.fexlock fp₁ = true → ∀ fp₂ < nfile,
      (s.fexlock fp₂ = true → fp₂ = fp₁) ∧ Function.update s.fshlock fp false fp₂ = false :=
    fun fp₁ h₁ hex => absurd hex (by simp [hnoex fp₁ h₁])
  rw [Flock.unlockSh, if_neg (by simp [hv])]
  simp only [hc]
  split_ifs with hzero hwait
  · refine ⟨hexcl, h.exlockc, hnum, by simp only [wakeup]; omega, h.vexlock, ?_,
      fun p c fp' cmd hp => ?_, fun p => legal_wake (h.legal p), h.panicked⟩
    · simp [wakeup, hzero]
    · obtain ⟨hp', hne⟩ := wake_asleep hp
      cases c with
      | ex => exact h.waits p .ex fp' cmd hp'
      | sh => exact absurd rfl hne
  · refine ⟨hexcl, h.exlockc, hnum, by simp only; omega, h.vexlock, ?_,
      fun p c fp' cmd hp => ?_, h.legal, h.panicked⟩
    · simp [hzero]
    · have := h.waits p c fp' cmd hp
      cases c <;> exact absurd this.2 hwait
  · refine ⟨hexcl, h.exlockc, hnum, by simp only; omega, h.vexlock, ?_,
      fun p c fp' cmd hp => ?_, h.legal, h.panicked⟩
    · simp only [hv, true_iff]
      omega
    · exact h.waits p c fp' cmd hp

/-- A file gives up its exclusive lock: now there are no locks. -/
theorem unlockEx (h : Inv nfile s) {fp : ℕ} (hfp : fp < nfile) (hex : s.fexlock fp = true) :
    Inv nfile (unlockEx s fp) ∧ (unlockEx s fp).vexlock = false ∧
      (unlockEx s fp).v_shlockc = 0 ∧ (unlockEx s fp).fshlock = s.fshlock := by
  obtain ⟨hexc, hshc⟩ := h.number_of_ex hfp hex
  have hv : s.vexlock = true := h.vexlock.2 (by omega)
  have hvs : s.vshlock ≠ true := fun hvs => by
    have := h.vshlock.1 hvs
    omega
  have hnum : number nfile (Function.update s.fexlock fp false) = 0 := by
    have h₁ := number_update s.fexlock hfp false
    have h₂ := h.exlockc
    simp only [hex, if_true, Bool.false_eq_true, if_false, add_zero] at h₁
    omega
  have hexcl : ∀ fp₁ < nfile, Function.update s.fexlock fp false fp₁ = true → ∀ fp₂ < nfile,
      (Function.update s.fexlock fp false fp₂ = true → fp₂ = fp₁) ∧ s.fshlock fp₂ = false :=
    fun fp₁ h₁ hf => absurd hf (by simp [flag_of_number_eq_zero hnum h₁])
  have hc : toUshort (s.v_exlockc - 1) = 0 := by rw [hexc]; rfl
  rw [Flock.unlockEx, if_neg (by simp [hv])]
  simp only [hc, if_true]
  split_ifs with hwait
  · refine ⟨⟨hexcl, ?_, h.shlockc, h.lt, ?_, h.vshlock, fun p c fp' cmd hp => ?_,
      fun p => legal_wake (h.legal p), h.panicked⟩, rfl, hshc, rfl⟩
    · simp [wakeup, hnum]
    · simp [wakeup]
    · obtain ⟨hp', hne⟩ := wake_asleep hp
      cases c with
      | ex => exact absurd rfl hne
      | sh => exact absurd (h.waits p .sh fp' cmd hp').1 hvs
  · refine ⟨⟨hexcl, ?_, h.shlockc, h.lt, ?_, h.vshlock, fun p c fp' cmd hp => ?_, h.legal,
      h.panicked⟩, rfl, hshc, rfl⟩
    · simp [hnum]
    · simp
    · have := h.waits p c fp' cmd hp
      cases c <;> exact absurd this.2 hwait

/-- A file without a lock gets one that is compatible with the others. -/
theorem grant (h : Inv nfile s) {p fp : ℕ} {cmd : Cmd} (hfp : fp < nfile)
    (hv : s.vexlock = false) (hsh : s.fshlock fp = false) (hcmd : cmd.sh = !cmd.ex)
    (hex : cmd.ex = true → s.vshlock = false) (hlt : cmd.ex = false → s.v_shlockc < 2 ^ 16 - 1) :
    Inv nfile (grant s p fp cmd) := by
  have hnoex := fun fp' (hfp' : fp' < nfile) => h.no_ex hv hfp'
  have hnot : ¬(s.fexlock fp = true ∨ s.fshlock fp = true) := by simp [hnoex fp hfp, hsh]
  rw [Flock.grant, if_neg hnot]
  refine ret ?_ p none
  cases hcex : cmd.ex with
  | true =>
    have hvs := hex hcex
    have hnosh := fun fp' (hfp' : fp' < nfile) => h.no_sh hvs hfp'
    have hexc : s.v_exlockc = 0 := by rw [h.exlockc, number_eq_zero hnoex, Nat.cast_zero]
    have hnum := number_update s.fexlock hfp true
    rw [hnoex fp hfp, number_eq_zero hnoex] at hnum
    simp only [hcmd, hcex, Bool.not_true, Bool.false_eq_true, if_false, if_true]
    refine ⟨fun fp₁ h₁ hf fp₂ h₂ => ⟨fun hf₂ => ?_, hnosh fp₂ h₂⟩, ?_, h.shlockc, h.lt, ?_,
      h.vshlock, fun q c fp' cmd' hq => ?_, h.legal, h.panicked⟩
    · have honly : ∀ fp' < nfile, Function.update s.fexlock fp true fp' = true → fp' = fp := by
        intro fp' hlt hf'
        by_contra hne
        simp [hne, hnoex fp' hlt] at hf'
      exact (honly fp₂ h₂ hf₂).trans (honly fp₁ h₁ hf).symm
    · show toUshort (s.v_exlockc + 1) = number nfile (Function.update s.fexlock fp true)
      rw [hexc, show number nfile (Function.update s.fexlock fp true) = 1 by simpa using hnum]
      rfl
    · simp [hexc]
      decide
    · have := h.waits q c fp' cmd' hq
      cases c with
      | ex => exact ⟨rfl, this.2⟩
      | sh => exact absurd this.1 (by simp [hvs])
  | false =>
    have hlt' := hlt hcex
    have hshc := h.shlockc
    have hc : toUshort (s.v_shlockc + 1) = s.v_shlockc + 1 :=
      toUshort_of_mem (by omega) (by omega)
    have hnum := number_update s.fshlock hfp true
    simp only [hsh, Bool.false_eq_true, if_false, if_true, add_zero] at hnum
    simp only [hcmd, hcex, Bool.not_false, Bool.false_eq_true, if_false, if_true, hc]
    refine ⟨fun fp₁ h₁ hf => absurd hf (by simp [hnoex fp₁ h₁]), h.exlockc, ?_, ?_, h.vexlock, ?_,
      fun q c fp' cmd' hq => ?_, h.legal, h.panicked⟩
    · show s.v_shlockc + 1 = number nfile (Function.update s.fshlock fp true)
      omega
    · show s.v_shlockc + 1 < 2 ^ 16
      omega
    · simp only [true_iff]
      omega
    · have := h.waits q c fp' cmd' hq
      cases c with
      | ex => exact this
      | sh => exact ⟨rfl, this.2⟩

/-! ## The loops -/

theorem unlockSh_flags (s : State) (fp : ℕ) (hv : s.vshlock = true) :
    (Flock.unlockSh s fp).fshlock fp = false ∧ (Flock.unlockSh s fp).fexlock = s.fexlock := by
  rw [Flock.unlockSh, if_neg (by simp [hv])]
  dsimp only
  split_ifs <;> simp [wakeup]

theorem unlockEx_flags (s : State) (fp : ℕ) (hv : s.vexlock = true) :
    (Flock.unlockEx s fp).fexlock fp = false ∧ (Flock.unlockEx s fp).fshlock = s.fshlock := by
  rw [Flock.unlockEx, if_neg (by simp [hv])]
  dsimp only
  split_ifs <;> simp [wakeup]

/-- The locks of a file that the loops may have to give up. -/
def own (s : State) (fp : ℕ) : ℕ := (s.fexlock fp).toNat + (s.fshlock fp).toNat

/-- The shared locks are waited for, for an exclusive lock. -/
theorem shLoop (h : Inv nfile s) {again : Cmd → State → Option State} {p fp : ℕ} {cmd : Cmd}
    (hfp : fp < nfile) (hex : cmd.ex = true) (hsh : cmd.sh = false)
    (hv : s.vshlock = false → s.vexlock = false)
    (hagain : s.vshlock = true → s.fshlock fp = true →
      ∃ s', again cmd (Flock.unlockSh s fp) = some s' ∧ Inv nfile s') :
    ∃ s', Flock.shLoop again p fp cmd s = some s' ∧ Inv nfile s' := by
  rw [Flock.shLoop]
  split_ifs with hvs hf hnb
  · exact hagain hvs hf
  · exact ⟨_, rfl, h.ret p _⟩
  · exact ⟨_, rfl, h.sleepOn ⟨hfp, .inl hex, fun _ => ⟨hex, hsh⟩⟩ hvs⟩
  · have hvs' : s.vshlock = false := by simpa using hvs
    exact ⟨_, rfl, h.grant hfp (hv hvs') (h.no_sh hvs' hfp) (by simp [hex, hsh]) (fun _ => hvs')
      (by simp [hex])⟩

/-- The loops end, with the lock or asleep, if they are started more often than there are
    locks to give up. -/
theorem lockLoop (h : Inv nfile s) {p fp n : ℕ} {cmd : Cmd} (hn : own s fp < n)
    (hfp : fp < nfile) (hcmd : cmd.ex = true ∨ cmd.sh = true)
    (hsafe : cmd.ex = false → s.v_shlockc < 2 ^ 16 - 1 ∧
      (s.vexlock = false → s.fshlock fp = false)) :
    ∃ s', Flock.lockLoop p fp n cmd s = some s' ∧ Inv nfile s' := by
  induction n generalizing s cmd with
  | zero => exact absurd hn (Nat.not_lt_zero _)
  | succ n ih =>
    rw [Flock.lockLoop, exLoop]
    split_ifs with hv hf hnb hex
    · -- the caller's own exclusive lock was in the way
      obtain ⟨h', hv', hshc, -⟩ := h.unlockEx hfp hf
      obtain ⟨hf', hs'⟩ := unlockEx_flags s fp hv
      refine ih h' ?_ hcmd fun _ => ⟨by omega, fun _ => ?_⟩
      · simp only [own, hf, hf', hs', Bool.toNat_true, Bool.toNat_false] at hn ⊢
        omega
      · rw [hs']
        exact (h.ex fp hfp hf fp hfp).2
    · exact ⟨_, rfl, h.ret p _⟩
    · exact ⟨_, rfl, h.sleepOn ⟨hfp, by simpa using hcmd, nofun⟩ hv⟩
    · refine h.shLoop hfp hex rfl (fun _ => by simpa using hv) fun hvs hf => ?_
      -- the caller's own shared lock was in the way
      obtain ⟨hf', he'⟩ := unlockSh_flags s fp hvs
      refine ih (h.unlockSh hfp hf) ?_ (.inl hex) fun hex' => absurd hex' (by simp [hex])
      simp only [own, hf, hf', he', Bool.toNat_true, Bool.toNat_false] at hn ⊢
      omega
    · have hv' : s.vexlock = false := by simpa using hv
      have hex' : cmd.ex = false := by simpa using hex
      obtain ⟨hlt, hsh⟩ := hsafe hex'
      refine ⟨_, rfl, h.grant hfp hv' (hsh hv') ?_ (fun he => absurd he (by simp [hex']))
        fun _ => hlt⟩
      rw [hex', hcmd.resolve_left (by simp [hex'])]
      rfl

theorem own_lt (s : State) (fp : ℕ) : own s fp < 3 := by
  have h₁ := Bool.toNat_le (s.fexlock fp)
  have h₂ := Bool.toNat_le (s.fshlock fp)
  rw [own]
  omega

end Inv

/-! ## Steps -/

/-- What a process that was woken up has to find: for an exclusive lock, when the shared
    locks are gone, that no other file has got an exclusive one; for a shared lock, when the
    exclusive lock is gone, that its file has not got a shared one. And there is room in
    `v_shlockc`, an unsigned `short`, for one more shared lock. -/
def Finds (s : State) : Pc → Prop
  | .awake .ex fp cmd => cmd.ex = false →
    s.v_shlockc < 2 ^ 16 - 1 ∧ (s.vexlock = false → s.fshlock fp = false)
  | .awake .sh _ _ => s.vshlock = false → s.vexlock = false
  | .idle | .asleep _ _ _ => True

instance (s : State) : (pc : Pc) → Decidable (Finds s pc)
  | .awake .ex fp cmd => inferInstanceAs (Decidable (cmd.ex = false →
      s.v_shlockc < 2 ^ 16 - 1 ∧ (s.vexlock = false → s.fshlock fp = false)))
  | .awake .sh _ _ => inferInstanceAs (Decidable (s.vshlock = false → s.vexlock = false))
  | .idle | .asleep _ _ _ => inferInstanceAs (Decidable True)

/-- A step is clean: a process that goes on finds what it has to. -/
def Clean (s : State) : Act → Prop
  | .lock _ fp cmd => cmd.ex = false → s.fshlock fp = false → s.v_shlockc < 2 ^ 16 - 1
  | .go p => Finds s (s.pc p)
  | .unlock _ _ | .intr _ => True

instance (s : State) : (a : Act) → Decidable (Clean s a)
  | .lock _ fp cmd => inferInstanceAs (Decidable (cmd.ex = false → s.fshlock fp = false →
      s.v_shlockc < 2 ^ 16 - 1))
  | .go p => inferInstanceAs (Decidable (Finds s (s.pc p)))
  | .unlock _ _ | .intr _ => inferInstanceAs (Decidable True)

namespace Inv

variable {s : State}

theorem vno_lock (h : Inv nfile s) {p fp : ℕ} {cmd : Cmd} (hfp : fp < nfile)
    (hcmd : cmd.ex = true ∨ cmd.sh = true)
    (hlt : cmd.ex = false → s.fshlock fp = false → s.v_shlockc < 2 ^ 16 - 1) :
    ∃ s', vno_lock s p fp cmd = some s' ∧ Inv nfile s' := by
  rw [Flock.vno_lock]
  split_ifs with hhas
  · exact ⟨_, rfl, h.ret p none⟩
  · obtain ⟨-, hsh⟩ := not_or.1 hhas
    refine h.lockLoop (own_lt s fp) hfp hcmd fun hex => ?_
    have hfsh : s.fshlock fp = false := by
      by_contra hf
      exact hsh ⟨by simpa using hf, hcmd.resolve_left (by simp [hex])⟩
    exact ⟨hlt hex hfsh, fun _ => hfsh⟩

theorem vno_unlock (h : Inv nfile s) {fp : ℕ} (hfp : fp < nfile) :
    Inv nfile (vno_unlock s fp) := by
  rw [Flock.vno_unlock]
  by_cases hex : s.fexlock fp = true
  · have hsh := (h.ex fp hfp hex fp hfp).2
    simp only [hsh, Bool.false_eq_true, if_false, hex, if_true]
    exact (h.unlockEx hfp hex).1
  · simp only [hex, Bool.false_eq_true, if_false]
    split_ifs with hsh
    · exact h.unlockSh hfp hsh
    · exact h

/-- A process that was woken up goes on; it never fails to come back. -/
theorem go (h : Inv nfile s) {p fp : ℕ} {c : Chan} {cmd : Cmd}
    (hp : s.pc p = .awake c fp cmd) (hc : Clean s (.go p)) :
    ∃ s', go s p = some s' ∧ Inv nfile s' := by
  obtain ⟨hfp, hcmd, hsh⟩ : (Pc.awake c fp cmd).Legal nfile := hp ▸ h.legal p
  rw [Clean, hp] at hc
  rw [Flock.go, hp]
  cases c with
  | ex => exact h.lockLoop (own_lt s fp) hfp hcmd hc
  | sh =>
    obtain ⟨hex, hnsh⟩ := hsh rfl
    refine h.shLoop hfp hex hnsh hc fun _ hf => ?_
    exact (h.unlockSh hfp hf).lockLoop (own_lt _ fp) hfp (.inl hex)
      fun hex' => absurd hex' (by simp [hex])

/-- A step keeps the locks as they should be. -/
theorem step {s' : State} {a : Act} (h : Inv nfile s) (hc : Clean s a)
    (hs : step nfile s a = some s') : Inv nfile s' := by
  unfold Flock.step at hs
  split_ifs at hs
  cases a with
  | lock p fp cmd =>
    simp only at hs
    split_ifs at hs with hok
    obtain ⟨t, ht, h'⟩ := h.vno_lock (p := p) hok.1 hok.2.1 hc
    exact Option.some.inj (ht.symm.trans hs) ▸ h'
  | unlock p fp =>
    simp only at hs
    split_ifs at hs with hok
    exact Option.some.inj hs ▸ h.vno_unlock hok.1
  | go p =>
    simp only at hs
    cases hp : s.pc p with
    | idle => simp [Flock.go, hp] at hs
    | asleep c fp cmd => simp [Flock.go, hp] at hs
    | awake c fp cmd =>
      obtain ⟨t, ht, h'⟩ := h.go hp hc
      exact Option.some.inj (ht.symm.trans hs) ▸ h'
  | intr p =>
    simp only at hs
    split at hs
    · exact Option.some.inj hs ▸ h.ret p _
    · exact nomatch hs
    · exact nomatch hs

end Inv

/-! ## Runs -/

theorem inv_init : Inv nfile ⟨0, 0, false, false, false, fun _ => false, fun _ => false,
    fun _ => .idle, fun _ => none, false⟩ where
  ex _ _ h := nomatch h
  exlockc := by rw [number_eq_zero fun _ _ => rfl, Nat.cast_zero]
  shlockc := by rw [number_eq_zero fun _ _ => rfl, Nat.cast_zero]
  lt := show (0 : ℤ) < 2 ^ 16 by decide
  vexlock := by simp
  vshlock := by simp
  waits _ _ _ _ h := nomatch h
  legal _ := trivial
  panicked := rfl

/-- An exclusive lock is the only lock, and the vnode counts and flags the locks of its open
    files; whoever sleeps for a lock that is held is to be woken up; and nothing
    panicked. -/
structure Exclusive (nfile : ℕ) (s : State) : Prop where
  ex : ∀ fp < nfile, s.fexlock fp = true → ∀ fp' < nfile, fp' ≠ fp →
    s.fexlock fp' = false ∧ s.fshlock fp' = false
  exlockc : s.v_exlockc = number nfile s.fexlock
  shlockc : s.v_shlockc = number nfile s.fshlock
  vexlock : s.vexlock = true ↔ 0 < s.v_exlockc
  vshlock : s.vshlock = true ↔ 0 < s.v_shlockc
  wait_ex : ∀ p fp cmd, s.pc p = .asleep .ex fp cmd → s.vexlock = true → s.vlwait = true
  wait_sh : ∀ p fp cmd, s.pc p = .asleep .sh fp cmd → s.vshlock = true → s.vlwait = true
  panicked : s.panicked = false

/-- However processes lock and unlock files, and sleep meanwhile: the locks exclude each
    other as long as no process that was woken up takes a lock that is not free any more,
    and no more than 2^16 - 1 files share one. -/
theorem flocks_of_clean : ∀ (nfile : ℕ) (s : State), (flocks nfile).ReachableIf Clean s →
    Exclusive nfile s := by
  intro nfile s hs
  have h : Inv nfile s := hs.invariant (fun _ hs => hs ▸ inv_init) fun _ _ _ h hc hn => h.step hc hn
  refine ⟨fun fp hfp hex fp' hfp' hne => ?_, h.exlockc, h.shlockc, h.vexlock, h.vshlock,
    fun p fp cmd hp _ => (h.waits p .ex fp cmd hp).2,
    fun p fp cmd hp _ => (h.waits p .sh fp cmd hp).2, h.panicked⟩
  obtain ⟨honly, hsh⟩ := h.ex fp hfp hex fp' hfp'
  exact ⟨by simpa using mt honly hne, hsh⟩

/-! ## Concrete runs -/

/-- No file is locked. -/
def noLocks : State :=
  ⟨0, 0, false, false, false, fun _ => false, fun _ => false, fun _ => .idle, fun _ => none, false⟩

def lockSh : Cmd := ⟨false, true, false⟩

def lockEx : Cmd := ⟨true, false, false⟩

/-- An exclusive lock is waited for until the shared one goes. -/
theorem flocks_wait : ∃ s, (flocks 2).runIf Clean noLocks
    [.lock 0 0 lockSh, .lock 1 1 lockEx, .unlock 0 0, .go 1] = some s ∧ Exclusive 2 s := by
  obtain ⟨s, hs⟩ : ∃ s, (flocks 2).runIf Clean noLocks
      [.lock 0 0 lockSh, .lock 1 1 lockEx, .unlock 0 0, .go 1] = some s := ⟨_, rfl⟩
  exact ⟨s, hs, flocks_of_clean 2 s (Machine.reachableIf_runIf (.init rfl) hs)⟩

/-- Two processes wait for the same shared lock to go: each takes an exclusive lock then,
    and does not look whether there is one. -/
theorem not_flocks : ¬∀ (nfile : ℕ) (s : State), (flocks nfile).Reachable s →
    Exclusive nfile s := by
  intro h
  have hx : ((flocks 3).run noLocks [.lock 0 0 lockSh, .lock 1 1 lockEx, .lock 2 2 lockEx,
      .unlock 0 0, .go 1, .go 2]).map (fun s => (s.fexlock 1, s.fexlock 2)) =
        some (true, true) := by
    decide
  obtain ⟨s, hs, hx⟩ := Option.map_eq_some_iff.1 hx
  obtain ⟨h₁, h₂⟩ := Prod.mk.inj hx
  have hs' := h 3 s (Machine.reachableIf_run (.init rfl) (fun _ _ _ => trivial) hs)
  have := (hs'.ex 1 (by decide) h₁ 2 (by decide) (by decide)).1
  exact absurd h₂ (by simp [this])

end AuxKernel.Flock
