import Mathlib.Data.List.Perm.Basic
import Mathlib.Data.List.Nodup
import AuxKernel.Callout.Basic

/-!
# The ticks at which callouts are due

A callout is due `max t 1` ticks after it was asked for, whatever is entered, removed or run in
the meantime, and `timein` runs what is due, in the order of the ticks (`callout_sound`), as
long as nothing is due for `2 ^ 31` ticks (`Action.Prompt`): the time of a callout that is later
than that is no longer negative when it is decremented, and the callout not due
(`not_callout_sound`).
-/

namespace AuxKernel.Callout

/-! ## What is sound -/

/-- The callouts are due at the ticks they were asked for, and run in the order of these. -/
structure Sound (s : State) : Prop where
  due : ∀ l₁ e l₂, s.calltodo = l₁ ++ e :: l₂ →
    ((∀ x ∈ l₁ ++ [e], x.c_time ≤ 0) ↔ s.due e.serial ≤ s.now)
  sorted : s.calltodo.Pairwise fun x y => s.due x.serial ≤ s.due y.serial
  once : (s.ran.map Ran.serial ++ s.removed ++ s.calltodo.map Callout.serial).Perm
    (List.range s.calls)
  ran : ∀ r ∈ s.ran, s.due r.serial ≤ r.tick ∧ r.a = s.due r.serial - r.tick
  order : s.ran.Pairwise fun x y => s.due x.serial ≤ s.due y.serial

/-- A `timein` that nothing interrupts runs exactly what is due. -/
def RunsDue (s : State) : Prop :=
  ∃ s', timein (s.calltodo.length + 1) s = some s' ∧
    s'.ran.map Ran.serial = s.ran.map Ran.serial ++
      (s.calltodo.filter (s.due ·.serial ≤ s.now)).map Callout.serial ∧
    s'.calltodo = s.calltodo.filter (s.now < s.due ·.serial) ∧
    s'.due = s.due ∧ s'.removed = s.removed

/-- The condition on the steps: at a tick, nothing has been due for `2 ^ 31` ticks. -/
def Action.Prompt (s : State) (a : Action) : Prop :=
  a = .clock → ∀ e ∈ s.calltodo, s.now < s.due e.serial + 2 ^ 31

/-! ## The invariant -/

/-- The times of the callouts are the differences of their ticks, from `base` on. -/
def Ahead (due : ℕ → ℤ) : (base : ℤ) → List Callout → Prop
  | _, [] => True
  | base, e :: l => 0 ≤ e.c_time ∧ due e.serial = base + e.c_time ∧ Ahead due (base + e.c_time) l

/-- The callouts at `D` are due, those at `P` are not. -/
structure Parts (due : ℕ → ℤ) (now : ℤ) (D P : List Callout) : Prop where
  late : ∀ e ∈ D, e.c_time ≤ 0 ∧ due e.serial = now + e.c_time
  sorted : D.Pairwise fun x y => due x.serial ≤ due y.serial
  ahead : Ahead due now P
  head : ∀ e ∈ P.head?, 0 < e.c_time
  soon : ∀ e ∈ P, due e.serial < now + 2 ^ 31

variable {due due' : ℕ → ℤ} {now base t : ℤ} {D P l l₁ l₂ : List Callout} {e pnew : Callout}
  {s s' : State}

theorem Ahead.congr (h : Ahead due base l) (hd : ∀ e ∈ l, due' e.serial = due e.serial) :
    Ahead due' base l := by
  induction l generalizing base with
  | nil => trivial
  | cons e l ih =>
    exact ⟨h.1, (hd e List.mem_cons_self).trans h.2.1,
      ih h.2.2 fun x hx => hd x (List.mem_cons_of_mem e hx)⟩

theorem Ahead.base_le (h : Ahead due base l) : ∀ e ∈ l, base ≤ due e.serial := by
  induction l generalizing base with
  | nil => exact nofun
  | cons x l ih =>
    obtain ⟨h₀, hx, hl⟩ := h
    intro e he
    rcases List.mem_cons.1 he with rfl | he
    · omega
    · have := ih hl e he
      omega

theorem Ahead.sorted (h : Ahead due base l) :
    l.Pairwise fun x y => due x.serial ≤ due y.serial := by
  induction l generalizing base with
  | nil => exact .nil
  | cons x l ih =>
    obtain ⟨-, hx, hl⟩ := h
    exact List.pairwise_cons.2 ⟨fun y hy => hx ▸ hl.base_le y hy, ih hl⟩

/-- Those that are no ticks ahead come first. -/
theorem Ahead.split (h : Ahead due base l) : ∃ z P, l = z ++ P ∧
    (∀ e ∈ z, e.c_time = 0 ∧ due e.serial = base) ∧ Ahead due base P ∧
    ∀ e ∈ P.head?, 0 < e.c_time := by
  induction l with
  | nil => exact ⟨[], [], rfl, nofun, trivial, nofun⟩
  | cons x l ih =>
    obtain ⟨h₀, hx, hl⟩ := h
    rcases h₀.lt_or_eq with hpos | hz
    · refine ⟨[], x :: l, rfl, nofun, ⟨h₀, hx, hl⟩, fun e he => ?_⟩
      obtain rfl := Option.some.inj he
      exact hpos
    · rw [← hz, add_zero] at hx hl
      obtain ⟨z, P, rfl, hz', hP, hhead⟩ := ih hl
      refine ⟨x :: z, P, rfl, fun e he => ?_, hP, hhead⟩
      rcases List.mem_cons.1 he with rfl | he
      · exact ⟨hz.symm, hx⟩
      · exact hz' e he

/-! ## Ticks -/

/-- What is due gets later. -/
theorem tick_late (hD : ∀ e ∈ D, -2 ^ 31 < e.c_time ∧ e.c_time ≤ 0) (P : List Callout) :
    tick (D ++ P) = D.map (fun e => { e with c_time := e.c_time - 1 }) ++ tick P := by
  induction D with
  | nil => rfl
  | cons e D ih =>
    obtain ⟨hlo, hhi⟩ := hD e List.mem_cons_self
    rw [List.cons_append, tick, toLong_of_mem (by omega) (by omega)]
    rw [if_neg (by omega), if_neg (by omega), ih fun x hx => hD x (List.mem_cons_of_mem e hx)]
    rfl

/-- The first one that is not due gets nearer, and perhaps due. -/
theorem tick_ahead (h : Ahead due now P) (hhead : ∀ e ∈ P.head?, 0 < e.c_time)
    (hsoon : ∀ e ∈ P, due e.serial < now + 2 ^ 31) : ∃ z P', tick P = z ++ P' ∧
    (∀ e ∈ z, e.c_time = 0 ∧ due e.serial = now + 1) ∧ Ahead due (now + 1) P' ∧
    (∀ e ∈ P'.head?, 0 < e.c_time) ∧ (tick P).map Callout.serial = P.map Callout.serial := by
  cases P with
  | nil => exact ⟨[], [], rfl, nofun, trivial, nofun, rfl⟩
  | cons x l =>
    obtain ⟨-, hx, hl⟩ := h
    have hpos := hhead x rfl
    have hlt := hsoon x List.mem_cons_self
    have htick : tick (x :: l) = { x with c_time := x.c_time - 1 } :: l := by
      rw [tick, toLong_of_mem (by omega) (by omega)]
      by_cases h1 : 0 < x.c_time - 1
      · rw [if_pos h1]
      · rw [if_neg h1, if_pos (by omega)]
    have hahead : Ahead due (now + 1) ({ x with c_time := x.c_time - 1 } :: l) := by
      refine ⟨by dsimp only; omega, by dsimp only; omega, ?_⟩
      dsimp only
      rwa [show now + 1 + (x.c_time - 1) = now + x.c_time by omega]
    obtain ⟨z, P', hzP, hz, hP', hhead'⟩ := hahead.split
    exact ⟨z, P', htick.trans hzP, hz, hP', hhead', by rw [htick]; rfl⟩

theorem Parts.tick (h : Parts due now D P) (hprompt : ∀ e ∈ D, now < due e.serial + 2 ^ 31) :
    ∃ D' P', tick (D ++ P) = D' ++ P' ∧ Parts due (now + 1) D' P' ∧
      (tick (D ++ P)).map Callout.serial = (D ++ P).map Callout.serial := by
  obtain ⟨z, P', hP, hz, hahead, hhead, hserial⟩ := tick_ahead h.ahead h.head h.soon
  have hlate (e : Callout) (he : e ∈ D) : -2 ^ 31 < e.c_time ∧ e.c_time ≤ 0 := by
    have := h.late e he
    have := hprompt e he
    omega
  have htick := tick_late hlate P
  have hmem (e : Callout) (he : e ∈ P') : ∃ x ∈ P, x.serial = e.serial := by
    have := List.mem_map_of_mem (f := Callout.serial) (List.mem_append_right z he)
    rw [← hP, hserial] at this
    exact List.mem_map.1 this
  refine ⟨_, P', (htick.trans (by rw [hP])).trans (List.append_assoc ..).symm, ⟨?_, ?_, hahead,
    hhead, fun e he => ?_⟩, ?_⟩
  · intro e he
    rcases List.mem_append.1 he with he | he
    · obtain ⟨x, hx, rfl⟩ := List.mem_map.1 he
      have := h.late x hx
      dsimp only
      omega
    · have := hz e he
      omega
  · refine List.pairwise_append.2 ⟨List.pairwise_map.2 h.sorted, ?_, fun x hx y hy => ?_⟩
    · exact List.pairwise_of_forall_mem_list fun x hx y hy => by
        rw [(hz x hx).2, (hz y hy).2]
    · obtain ⟨x', hx', rfl⟩ := List.mem_map.1 hx
      have := h.late x' hx'
      have := hz y hy
      dsimp only
      omega
  · obtain ⟨x, hx, hxe⟩ := hmem e he
    have := h.soon x hx
    rw [hxe] at this
    omega
  · rw [htick, List.map_append, List.map_append, hserial, List.map_map]
    rfl

/-! ## Entering -/

/-- What is due is passed by. -/
theorem enter_late (hD : ∀ e ∈ D, e.c_time ≤ 0) (ht : 0 < t) (P : List Callout) :
    enter pnew t (D ++ P) = D ++ enter pnew t P := by
  induction D with
  | nil => rfl
  | cons e D ih =>
    have he := hD e List.mem_cons_self
    rw [List.cons_append, enter, if_pos (by omega), if_neg (by omega),
      ih fun x hx => hD x (List.mem_cons_of_mem e hx)]
    rfl

/-- The new callout gets the ticks from the one before it, and the next one the rest. -/
theorem enter_ahead (h : Ahead due base P) (ht : 0 < t) (ht' : t < 2 ^ 31)
    (hP : ∀ e ∈ P, e.c_time < 2 ^ 31) (hnew : due pnew.serial = base + t) :
    Ahead due base (enter pnew t P) ∧
      ((∀ e ∈ P.head?, 0 < e.c_time) → ∀ e ∈ (enter pnew t P).head?, 0 < e.c_time) ∧
      ((enter pnew t P).map Callout.serial).Perm (pnew.serial :: P.map Callout.serial) := by
  induction P generalizing base t with
  | nil =>
    refine ⟨⟨ht.le, hnew, trivial⟩, fun _ e he => ?_, .refl _⟩
    obtain rfl := Option.some.inj he
    exact ht
  | cons x l ih =>
    obtain ⟨h₀, hx, hl⟩ := h
    have hlt := hP x List.mem_cons_self
    have hl' (e : Callout) (he : e ∈ l) := hP e (List.mem_cons_of_mem x he)
    rw [enter]
    by_cases hxt : x.c_time < t
    · have hrest : (if 0 < x.c_time then toLong (t - x.c_time) else t) = t - x.c_time := by
        split_ifs
        · exact toLong_of_mem (by omega) (by omega)
        · omega
      rw [if_pos hxt, hrest]
      obtain ⟨hahead, -, hperm⟩ := ih (t := t - x.c_time) hl (by omega) (by omega) hl' (by omega)
      exact ⟨⟨h₀, hx, hahead⟩, fun hhead => hhead,
        (hperm.cons x.serial).trans (.swap ..)⟩
    · rw [if_neg hxt, toLong_of_mem (by omega) (by omega)]
      refine ⟨⟨ht.le, hnew, by dsimp only; omega, by dsimp only; omega, ?_⟩, fun _ e he => ?_,
        .refl _⟩
      · dsimp only
        rwa [show base + t + (x.c_time - t) = base + x.c_time by omega]
      · obtain rfl := Option.some.inj he
        exact ht

/-- The times of those that are not due are no larger than the ticks that are left. -/
theorem Ahead.time_le (h : Ahead due base l) : ∀ e ∈ l, 0 ≤ e.c_time ∧
    base + e.c_time ≤ due e.serial := by
  induction l generalizing base with
  | nil => exact nofun
  | cons x l ih =>
    obtain ⟨h₀, hx, hl⟩ := h
    intro e he
    rcases List.mem_cons.1 he with rfl | he
    · exact ⟨h₀, hx.ge⟩
    · have := ih hl e he
      omega

theorem Parts.congr (h : Parts due now D P) (hd : ∀ e ∈ D ++ P, due' e.serial = due e.serial) :
    Parts due' now D P := by
  have hD (e : Callout) (he : e ∈ D) := hd e (List.mem_append_left P he)
  have hP (e : Callout) (he : e ∈ P) := hd e (List.mem_append_right D he)
  refine ⟨fun e he => (hD e he).symm ▸ h.late e he, ?_, h.ahead.congr hP, h.head,
    fun e he => (hP e he).symm ▸ h.soon e he⟩
  exact h.sorted.imp_of_mem fun hx hy hle => by rwa [hD _ hx, hD _ hy]

theorem Parts.enter (h : Parts due now D P) (pnew : Callout) (ht : 0 < t) (ht' : t < 2 ^ 31)
    (hnew : due pnew.serial = now + t) : ∃ P', Callout.enter pnew t (D ++ P) = D ++ P' ∧
      Parts due now D P' ∧ (P'.map Callout.serial).Perm (pnew.serial :: P.map Callout.serial) := by
  have hP (e : Callout) (he : e ∈ P) : e.c_time < 2 ^ 31 := by
    have := h.ahead.time_le e he
    have := h.soon e he
    omega
  obtain ⟨hahead, hhead, hperm⟩ := enter_ahead h.ahead ht ht' hP hnew
  refine ⟨_, enter_late (fun e he => (h.late e he).1) ht P, ⟨h.late, h.sorted, hahead,
    hhead h.head, fun e he => ?_⟩, hperm⟩
  rcases List.mem_cons.1 (hperm.mem_iff.1 (List.mem_map_of_mem (f := Callout.serial) he)) with
    he | he
  · rw [he, hnew]
    omega
  · obtain ⟨x, hx, hxe⟩ := List.mem_map.1 he
    exact hxe ▸ h.soon x hx

/-! ## Removing -/

theorem remove_some {func arg : ℕ} {l' : List Callout} (h : remove func arg l = some (e, l')) :
    ∃ l₁ l₂, l = l₁ ++ e :: l₂ ∧ l' = l₁ ++ bump e l₂ := by
  induction l generalizing l' with
  | nil => exact nomatch h
  | cons x l ih =>
    rw [remove] at h
    by_cases hx : x.c_func = func ∧ x.c_arg = arg
    · rw [if_pos hx] at h
      obtain ⟨rfl, rfl⟩ := Prod.mk.inj (Option.some.inj h)
      exact ⟨[], l, rfl, rfl⟩
    · rw [if_neg hx] at h
      obtain ⟨⟨y, l''⟩, hr, he⟩ := Option.map_eq_some_iff.1 h
      cases he
      obtain ⟨l₁, l₂, hl, hl'⟩ := ih hr
      exact ⟨x :: l₁, l₂, congrArg (x :: ·) hl, congrArg (x :: ·) hl'⟩

theorem bump_serial (e : Callout) (l : List Callout) :
    (bump e l).map Callout.serial = l.map Callout.serial := by
  cases l with
  | nil => rfl
  | cons x l =>
    rw [bump]
    split_ifs <;> rfl

/-- What comes after a callout that is removed keeps its ticks. -/
theorem bump_ahead (h : Ahead due base (e :: l)) (hl : ∀ x ∈ l, due x.serial < base + 2 ^ 31) :
    Ahead due base (bump e l) ∧ (0 < e.c_time → ∀ x ∈ (bump e l).head?, 0 < x.c_time) := by
  obtain ⟨h₀, -, hl'⟩ := h
  cases l with
  | nil => exact ⟨trivial, fun _ => nofun⟩
  | cons x l =>
    have hlt := hl x List.mem_cons_self
    obtain ⟨hx₀, hx, hl''⟩ := hl'
    have hbump : bump e (x :: l) = { x with c_time := x.c_time + e.c_time } :: l := by
      rw [bump]
      by_cases hpos : 0 < e.c_time
      · rw [if_pos hpos, toLong_of_mem (by omega) (by omega)]
      · rw [if_neg hpos, show x.c_time + e.c_time = x.c_time by omega]
    rw [hbump]
    refine ⟨⟨by dsimp only; omega, by dsimp only; omega, ?_⟩, fun hpos y hy => ?_⟩
    · dsimp only
      rwa [show base + (x.c_time + e.c_time) = base + e.c_time + x.c_time by omega]
    · obtain rfl := Option.some.inj hy
      dsimp only
      omega

theorem Ahead.remove (h : Ahead due base (l₁ ++ e :: l₂))
    (hl : ∀ x ∈ l₂, due x.serial < base + 2 ^ 31) : Ahead due base (l₁ ++ bump e l₂) := by
  induction l₁ generalizing base with
  | nil => exact (bump_ahead h hl).1
  | cons x l₁ ih =>
    obtain ⟨h₀, hx, h⟩ := h
    exact ⟨h₀, hx, ih h fun y hy => (hl y hy).trans_le (by omega)⟩

/-- A callout that is due leaves the times of the others. -/
theorem bump_late (he : e.c_time ≤ 0) (l : List Callout) : bump e l = l := by
  cases l with
  | nil => rfl
  | cons x l => rw [bump, if_neg he.not_gt]

/-- A callout is among those that are due, or among those that are not. -/
theorem append_cases (hl : D ++ P = l₁ ++ e :: l₂) :
    (∃ m, l₁ = D ++ m ∧ P = m ++ e :: l₂) ∨ ∃ m, D = l₁ ++ e :: m ∧ l₂ = m ++ P := by
  rcases List.append_eq_append_iff.1 hl with h | ⟨m, hD, hm⟩
  · exact .inl h
  · cases m with
    | nil => exact .inl ⟨[], by simpa using hD.symm, hm.symm⟩
    | cons y m =>
      obtain ⟨rfl, rfl⟩ := List.cons.inj hm
      exact .inr ⟨m, hD, rfl⟩

theorem Parts.remove (h : Parts due now D P) (hl : D ++ P = l₁ ++ e :: l₂) :
    ∃ D' P', l₁ ++ bump e l₂ = D' ++ P' ∧ Parts due now D' P' := by
  rcases append_cases hl with ⟨m, rfl, rfl⟩ | ⟨m, rfl, rfl⟩
  · -- It is not due, and leaves its time to the next one.
    refine ⟨D, m ++ bump e l₂, List.append_assoc .., h.late, h.sorted, ?_, ?_, fun x hx => ?_⟩
    · exact h.ahead.remove fun x hx =>
        h.soon x (List.mem_append_right m (List.mem_cons_of_mem e hx))
    · cases m with
      | nil =>
        exact (bump_ahead h.ahead fun x hx => h.soon x (List.mem_cons_of_mem e hx)).2
          (h.head e rfl)
      | cons y m => exact h.head
    · have hx' := List.mem_map_of_mem (f := Callout.serial) hx
      rw [List.map_append, bump_serial, ← List.map_append] at hx'
      obtain ⟨y, hy, hyx⟩ := List.mem_map.1 hx'
      have hsub : (m ++ l₂).Sublist (m ++ e :: l₂) := (List.sublist_cons_self e l₂).append_left m
      exact hyx ▸ h.soon y (hsub.subset hy)
  · have he := (h.late e (List.mem_append_right l₁ List.mem_cons_self)).1
    have hsub : (l₁ ++ m).Sublist (l₁ ++ e :: m) := (List.sublist_cons_self e m).append_left l₁
    rw [bump_late he]
    exact ⟨l₁ ++ m, P, (List.append_assoc ..).symm, fun x hx => h.late x (hsub.subset hx),
      h.sorted.sublist hsub, h.ahead, h.head, h.soon⟩

/-! ## Runs -/

/-- The invariant. -/
structure Inv (s : State) (D P : List Callout) : Prop where
  todo : s.calltodo = D ++ P
  parts : Parts s.due s.now D P
  once : (s.ran.map Ran.serial ++ s.removed ++ s.calltodo.map Callout.serial).Perm
    (List.range s.calls)
  ran : ∀ r ∈ s.ran, s.due r.serial ≤ r.tick ∧ r.tick ≤ s.now ∧ r.a = s.due r.serial - r.tick
  order : s.ran.Pairwise fun x y => s.due x.serial ≤ s.due y.serial
  after : ∀ r ∈ s.ran, ∀ e ∈ s.calltodo, s.due r.serial ≤ s.due e.serial

theorem Inv.lt_calls (h : Inv s D P) {k : ℕ}
    (hk : k ∈ s.ran.map Ran.serial ++ s.removed ++ s.calltodo.map Callout.serial) :
    k < s.calls := List.mem_range.1 (h.once.mem_iff.1 hk)

theorem Inv.ran_lt (h : Inv s D P) {r : Ran} (hr : r ∈ s.ran) : r.serial < s.calls :=
  h.lt_calls (List.mem_append_left _ (List.mem_append_left _ (List.mem_map_of_mem hr)))

theorem Inv.todo_lt (h : Inv s D P) {e : Callout} (he : e ∈ s.calltodo) : e.serial < s.calls :=
  h.lt_calls (List.mem_append_right _ (List.mem_map_of_mem he))

theorem Inv.late_iff (h : Inv s D P) {e : Callout} (he : e ∈ D) : s.due e.serial ≤ s.now := by
  have := h.parts.late e he
  omega

/-- What is not due has a time that is left. -/
theorem Parts.ahead_lt (h : Parts due now D P) : ∀ e ∈ P, now < due e.serial := by
  intro e he
  cases P with
  | nil => exact nomatch he
  | cons x l =>
    have hx := h.head x rfl
    have hsorted := List.pairwise_cons.1 h.ahead.sorted
    have hdue := h.ahead.2.1
    rcases List.mem_cons.1 he with rfl | he
    · omega
    · have := hsorted.1 e he
      omega

theorem Inv.sorted (h : Inv s D P) :
    s.calltodo.Pairwise fun x y => s.due x.serial ≤ s.due y.serial := by
  rw [h.todo]
  refine List.pairwise_append.2 ⟨h.parts.sorted, h.parts.ahead.sorted, fun x hx y hy => ?_⟩
  exact (h.late_iff hx).trans (h.parts.ahead_lt y hy).le

theorem Inv.sound (h : Inv s D P) : Sound s := by
  refine ⟨fun l₁ e l₂ hl => ?_, h.sorted, h.once, fun r hr => ⟨(h.ran r hr).1, (h.ran r hr).2.2⟩,
    h.order⟩
  rcases append_cases (h.todo.symm.trans hl) with ⟨m, rfl, rfl⟩ | ⟨m, rfl, rfl⟩
  · -- The first that is not due comes before it, or is it.
    have hlt := h.parts.ahead_lt e (List.mem_append_right m List.mem_cons_self)
    refine iff_of_false (fun hle => ?_) hlt.not_ge
    obtain ⟨x, hx⟩ : ∃ x, (m ++ e :: l₂).head? = some x := Option.ne_none_iff_exists'.1 (by simp)
    refine (h.parts.head x hx).not_ge (hle x ?_)
    rw [List.append_assoc]
    refine List.mem_append_right D (List.mem_of_mem_head? ?_)
    cases m with
    | nil => exact hx
    | cons y m => exact hx
  · have hmem (x : Callout) (hx : x ∈ l₁ ++ [e]) : x ∈ l₁ ++ e :: m := by
      rw [List.append_cons]
      exact List.mem_append_left m hx
    exact iff_of_true (fun x hx => (h.parts.late x (hmem x hx)).1)
      (h.late_iff (hmem e (List.mem_append_right l₁ List.mem_cons_self)))

/-- A call of `timeout` enters a callout that is due when it is to be. -/
theorem Inv.timeout {func arg : ℕ} (h : Inv s D P) (ht : 0 ≤ t) (ht' : t < 2 ^ 31)
    (hs' : timeout func arg t { s with due := Function.update s.due s.calls (s.now + max t 1) } =
      some s') : ∃ D' P', Inv s' D' P' := by
  have ht₁ : (if t = 0 then 1 else t) = max t 1 := by
    split_ifs <;> omega
  unfold Callout.timeout at hs'
  dsimp only at hs'
  rw [ht₁] at hs'
  split_ifs at hs'
  obtain rfl := Option.some.inj hs'
  have hold {k : ℕ} (hk : k < s.calls) :
      Function.update s.due s.calls (s.now + max t 1) k = s.due k := Function.update_of_ne hk.ne _ _
  have hnew : Function.update s.due s.calls (s.now + max t 1) s.calls = s.now + max t 1 :=
    Function.update_self ..
  have hparts : Parts (Function.update s.due s.calls (s.now + max t 1)) s.now D P :=
    h.parts.congr fun e he => hold (h.todo_lt (h.todo ▸ he))
  obtain ⟨P', hP', hparts', hperm⟩ :=
    hparts.enter ⟨0, arg, func, s.calls⟩ (t := max t 1) (by omega) (by omega) hnew
  have htodo : ((enter ⟨0, arg, func, s.calls⟩ (max t 1) s.calltodo).map Callout.serial).Perm
      (s.calls :: s.calltodo.map Callout.serial) := by
    rw [h.todo, hP', List.map_append, List.map_append]
    exact (hperm.append_left _).trans List.perm_middle
  have hran (r : Ran) (hr : r ∈ s.ran) := hold (h.ran_lt hr)
  refine ⟨D, P', (congrArg _ h.todo).trans hP', hparts', ?_, fun r hr => ?_, ?_,
    fun r hr e he => ?_⟩
  · dsimp only
    rw [List.range_succ]
    refine (htodo.append_left _).trans (List.perm_middle.trans ?_)
    exact (h.once.cons s.calls).trans (List.perm_append_singleton ..).symm
  · dsimp only
    rw [hran r hr]
    exact h.ran r hr
  · exact h.order.imp_of_mem fun hx hy hle => by
      dsimp only
      rwa [hran _ hx, hran _ hy]
  · dsimp only
    rw [hran r hr]
    have hr' := h.ran r hr
    rcases List.mem_cons.1 (htodo.mem_iff.1 (List.mem_map_of_mem (f := Callout.serial) he)) with
      he | he
    · rw [he, hnew]
      omega
    · obtain ⟨x, hx, hxe⟩ := List.mem_map.1 he
      rw [← hxe, hold (h.todo_lt hx)]
      exact h.after r hr x hx

/-- A call of `untimeout` leaves the other callouts as they are. -/
theorem Inv.untimeout (h : Inv s D P) (func arg : ℕ) :
    ∃ D' P', Inv (untimeout func arg s) D' P' := by
  unfold Callout.untimeout
  cases hr : Callout.remove func arg s.calltodo with
  | none => exact ⟨D, P, h⟩
  | some r =>
    obtain ⟨e, l⟩ := r
    obtain ⟨l₁, l₂, hl, rfl⟩ := remove_some hr
    obtain ⟨D', P', hl', hparts⟩ := h.parts.remove (h.todo.symm.trans hl)
    have hmem (x : Callout) (hx : x ∈ l₁ ++ bump e l₂) : ∃ y ∈ s.calltodo, y.serial = x.serial := by
      have hx' := List.mem_map_of_mem (f := Callout.serial) hx
      rw [List.map_append, bump_serial, ← List.map_append] at hx'
      obtain ⟨y, hy, hyx⟩ := List.mem_map.1 hx'
      exact ⟨y, hl ▸ ((List.sublist_cons_self e l₂).append_left l₁).subset hy, hyx⟩
    refine ⟨D', P', hl', hparts, ?_, h.ran, h.order, fun r hr x hx => ?_⟩
    · have honce := h.once
      dsimp only
      rw [hl, List.map_append, List.map_cons] at honce
      rw [List.map_append, bump_serial]
      refine List.Perm.trans ?_ honce
      simp only [List.append_assoc, List.singleton_append]
      exact (List.perm_middle.symm.append_left _).append_left _
    · obtain ⟨y, hy, hyx⟩ := hmem x hx
      exact hyx ▸ h.after r hr y hy

/-- A tick makes due what is to be. -/
theorem Inv.clock (h : Inv s D P) (hprompt : ∀ e ∈ s.calltodo, s.now < s.due e.serial + 2 ^ 31) :
    ∃ D' P', Inv { s with calltodo := tick s.calltodo, now := s.now + 1 } D' P' := by
  obtain ⟨D', P', htick, hparts, hserial⟩ := h.parts.tick fun e he =>
    hprompt e (h.todo ▸ List.mem_append_left P he)
  rw [← h.todo] at htick hserial
  refine ⟨D', P', htick, hparts, ?_, fun r hr => ?_, h.order, fun r hr e he => ?_⟩
  · dsimp only
    rw [hserial]
    exact h.once
  · have := h.ran r hr
    exact ⟨this.1, by dsimp only; omega, this.2.2⟩
  · have he' := List.mem_map_of_mem (f := Callout.serial) he
    dsimp only at he'
    rw [hserial] at he'
    obtain ⟨x, hx, hxe⟩ := List.mem_map.1 he'
    exact hxe ▸ h.after r hr x hx

/-- A pass of `timein` runs the first callout, if it is due, or ends. -/
theorem Inv.pass (h : Inv s D P) : D = [] ∧ pass s = none ∨ ∃ e D' s', D = e :: D' ∧
    pass s = some s' ∧ Inv s' D' P ∧ s'.ran = s.ran ++ [⟨e.serial, s.now, e.c_time⟩] ∧
    s'.now = s.now ∧ s'.due = s.due ∧ s'.removed = s.removed := by
  have htodo := h.todo
  unfold Callout.pass
  cases D with
  | nil =>
    refine .inl ⟨rfl, ?_⟩
    rw [htodo]
    cases P with
    | nil => rfl
    | cons x P => exact if_pos (h.parts.head x rfl)
  | cons e D =>
    obtain ⟨he, hdue⟩ := h.parts.late e List.mem_cons_self
    have hsorted := h.sorted
    rw [htodo] at hsorted
    have hle := (List.pairwise_cons.1 hsorted).1
    have hmem : e ∈ s.calltodo := htodo ▸ List.mem_cons_self
    rw [htodo]
    refine .inr ⟨e, D, { s with
      calltodo := D ++ P
      callfree := s.callfree + 1
      ran := s.ran ++ [⟨e.serial, s.now, e.c_time⟩] }, rfl, if_neg he.not_gt, ⟨rfl, ⟨fun x hx =>
      h.parts.late x (List.mem_cons_of_mem e hx), (List.pairwise_cons.1 h.parts.sorted).2,
      h.parts.ahead, h.parts.head, h.parts.soon⟩, ?_, fun r hr => ?_, ?_, fun r hr x hx => ?_⟩,
      rfl, rfl, rfl, rfl⟩
    · have honce := h.once
      rw [htodo] at honce
      refine List.Perm.trans ?_ honce
      simp only [List.map_append, List.map_cons, List.map_nil, List.cons_append, List.append_assoc,
        List.nil_append]
      exact List.perm_middle.symm.append_left _
    · rcases List.mem_append.1 hr with hr | hr
      · exact h.ran r hr
      · obtain rfl := List.mem_singleton.1 hr
        dsimp only
        omega
    · refine List.pairwise_append.2 ⟨h.order, List.pairwise_singleton .., fun r hr x hx => ?_⟩
      obtain rfl := List.mem_singleton.1 hx
      exact h.after r hr e hmem
    · rcases List.mem_append.1 hr with hr | hr
      · exact h.after r hr x (htodo ▸ List.mem_cons_of_mem e hx)
      · obtain rfl := List.mem_singleton.1 hr
        exact hle x hx

/-- Without anything in between, `timein` runs what is due, and nothing else. -/
theorem Inv.timein {n : ℕ} (h : Inv s D P) (hn : D.length < n) :
    ∃ s', timein n s = some s' ∧
      s'.ran.map Ran.serial = s.ran.map Ran.serial ++ D.map Callout.serial ∧
      s'.calltodo = P ∧ s'.due = s.due ∧ s'.removed = s.removed := by
  induction D generalizing s n with
  | nil =>
    obtain ⟨n, rfl⟩ := Nat.exists_eq_succ_of_ne_zero hn.ne'
    rcases h.pass with ⟨-, hpass⟩ | ⟨e, D', s', hD, -⟩
    · refine ⟨s, ?_, (List.append_nil _).symm, h.todo, rfl, rfl⟩
      rw [Callout.timein, hpass]
    · exact nomatch hD
  | cons e D ih =>
    obtain ⟨n, rfl⟩ := Nat.exists_eq_succ_of_ne_zero (Nat.zero_lt_of_lt hn).ne'
    rcases h.pass with ⟨hD, -⟩ | ⟨e', D', s₁, hD, hpass, h', hran, -, hdue, hremoved⟩
    · exact nomatch hD
    · obtain ⟨rfl, rfl⟩ := List.cons.inj hD
      obtain ⟨s', hs', hran', htodo, hdue', hremoved'⟩ := ih h' (Nat.lt_of_succ_lt_succ hn)
      refine ⟨s', ?_, ?_, htodo, hdue'.trans hdue, hremoved'.trans hremoved⟩
      · rw [Callout.timein, hpass]
        exact hs'
      · rw [hran', hran, List.map_append, List.append_assoc]
        rfl

theorem Inv.runsDue (h : Inv s D P) : RunsDue s := by
  have hlen : D.length < s.calltodo.length + 1 := by
    rw [h.todo, List.length_append]
    omega
  obtain ⟨s', hs', hran, htodo, hdue, hremoved⟩ := h.timein hlen
  have hD (e : Callout) (he : e ∈ D) := h.late_iff he
  have hP := h.parts.ahead_lt
  refine ⟨s', hs', ?_, ?_, hdue, hremoved⟩
  · have h₁ : D.filter (s.due ·.serial ≤ s.now) = D :=
      List.filter_eq_self.2 fun e he => by simpa using hD e he
    have h₂ : P.filter (s.due ·.serial ≤ s.now) = [] :=
      List.filter_eq_nil_iff.2 fun e he => by simpa using hP e he
    rw [hran, h.todo, List.filter_append, h₁, h₂, List.append_nil]
  · have h₁ : D.filter (s.now < s.due ·.serial) = [] :=
      List.filter_eq_nil_iff.2 fun e he => by simpa using hD e he
    have h₂ : P.filter (s.now < s.due ·.serial) = P :=
      List.filter_eq_self.2 fun e he => by simpa using hP e he
    rw [htodo, h.todo, List.filter_append, h₁, h₂, List.nil_append]

theorem Inv.step {a : Action} (h : Inv s D P) (hprompt : a.Prompt s) (hs' : next s a = some s') :
    ∃ D' P', Inv s' D' P' := by
  cases a with
  | timeout func arg t =>
    by_cases ht : 0 ≤ t ∧ t < 2 ^ 31
    · rw [next, if_pos ht] at hs'
      exact h.timeout ht.1 ht.2 hs'
    · rw [next, if_neg ht] at hs'
      exact nomatch hs'
  | untimeout func arg => exact Option.some.inj hs' ▸ h.untimeout func arg
  | clock => exact Option.some.inj hs' ▸ h.clock (hprompt rfl)
  | pass =>
    rcases h.pass with ⟨-, hpass⟩ | ⟨e, D', s₁, -, hpass, h', -⟩
    · exact nomatch hpass.symm.trans hs'
    · obtain rfl := Option.some.inj (hpass.symm.trans hs')
      exact ⟨D', P, h'⟩

/-- The invariant holds in every run. -/
theorem exists_inv (hs : callouts.ReachableIf (fun s a => a.Prompt s) s) : ∃ D P, Inv s D P := by
  refine hs.invariant (P := fun s => ∃ D P, Inv s D P) ?_ ?_
  · rintro s ⟨htodo, hcalls, hran, hremoved⟩
    refine ⟨[], [], htodo, ⟨nofun, .nil, trivial, nofun, nofun⟩, ?_, ?_, ?_, ?_⟩
    · rw [htodo, hcalls, hran, hremoved]
      exact .nil
    · rw [hran]
      exact nofun
    · rw [hran]
      exact .nil
    · rw [hran]
      exact nofun
  · rintro s a s' ⟨D, P, h⟩ hprompt hs'
    exact h.step hprompt hs'

/-- As long as nothing is due for `2 ^ 31` ticks, callouts are due when they were asked for, and
    run in that order. -/
theorem callout_sound (s : State) (hs : callouts.ReachableIf (fun s a => a.Prompt s) s) :
    Sound s ∧ RunsDue s := by
  obtain ⟨D, P, h⟩ := exists_inv hs
  exact ⟨h.sound, h.runsDue⟩

/-! ## A callout that is too late -/

/-- One callout, that is free. -/
def idle : State := ⟨[], 1, 0, 0, fun _ => 0, [], []⟩

/-- It was asked for in one tick, and has been due for `n` ticks. -/
def lateBy (n : ℤ) : State :=
  ⟨[⟨-n, 0, 0, 0⟩], 0, n + 1, 1, Function.update (fun _ => 0) 0 1, [], []⟩

theorem tick_lateBy {n : ℤ} (h₀ : 0 ≤ n) (h₁ : n < 2 ^ 31) :
    next (lateBy n) .clock = some (lateBy (n + 1)) := by
  rw [next, lateBy, lateBy, tick, toLong_of_mem (by dsimp only; omega) (by dsimp only; omega)]
  dsimp only
  rw [if_neg (by omega), if_neg (by omega), neg_add]
  rfl

theorem reachable_lateBy (n : ℕ) (hn : n ≤ 2 ^ 31) : callouts.Reachable (lateBy n) := by
  induction n with
  | zero =>
    have h : callouts.Reachable idle := .init ⟨rfl, rfl, rfl, rfl⟩
    exact (h.step (a := .timeout 0 0 1) trivial rfl).step (a := .clock) trivial rfl
  | succ n ih =>
    refine (ih (by omega)).step (a := .clock) trivial ?_
    exact_mod_cast tick_lateBy (n := n) (by omega) (by omega)

/-- The time of a callout that has been due for `2 ^ 31` ticks is positive after the next one. -/
theorem not_callout_sound : ¬∀ s, callouts.Reachable s → Sound s ∧ RunsDue s := by
  intro h
  have hr := (reachable_lateBy (2 ^ 31) le_rfl).step (a := .clock) trivial rfl
  have hdue := ((h _ hr).1.due [] ⟨2 ^ 31 - 1, 0, 0, 0⟩ [] (by decide)).2 (by decide)
  exact absurd (hdue _ (List.mem_singleton_self _)) (by decide)

/-- A callout in two ticks and one in one, of which the second is due, and run, first. -/
theorem sound_twoCallouts : ∃ s, callouts.run { idle with callfree := 2 }
    [.timeout 0 0 2, .timeout 0 1 0, .clock] = some s ∧ Sound s ∧ RunsDue s := by
  have h₀ : callouts.ReachableIf (fun s a => a.Prompt s) { idle with callfree := 2 } :=
    .init ⟨rfl, rfl, rfl, rfl⟩
  have h₁ := (h₀.step (a := .timeout 0 0 2) nofun rfl).step (a := .timeout 0 1 0) nofun rfl
  have h₂ := h₁.step (a := .clock) (fun _ => by decide) rfl
  exact ⟨_, rfl, callout_sound _ h₂⟩

end AuxKernel.Callout
