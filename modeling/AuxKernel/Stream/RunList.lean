import AuxKernel.Stream.Sched

/-!
# The list of queues to run

`qhead`, `qtail` and `q_link` implement a queue of queues: the queues are linked in the
order of the list (`RunList.Holds`), and `QENAB` is set for those that are on it.

* `qenable_spec`: `qenable` puts the queue behind all others, unless it is on the list;
* `Grows`: what the operations on the queues do to the list, they only append to it;
* `runList_exact`: in every reachable state a queue is on the list once if its `QENAB` is
  set and not at all otherwise, and the service procedures have been called in the order
  of the enablings, once for each.
-/

namespace AuxKernel.Stream.Sched

variable {v : Config}

/-- The queues `l` are to be run, in this order. -/
structure RunList.Holds (s : RunList) (l : List ℕ) : Prop where
  nodup : l.Nodup
  chain : Chained s.q_link l
  head : s.qhead = l.head?
  tail : s.qtail = l.getLast?
  flag : ∀ i, s.qenab i = true ↔ i ∈ l
  run : l ≠ [] → s.qrunflag = true

/-- A queue that is not on the list is linked in at its end. -/
theorem append_spec {s : RunList} {l : List ℕ} {i : ℕ} (hnd : l.Nodup)
    (hc : Chained s.q_link l) (hh : s.qhead = l.head?) (ht : s.qtail = l.getLast?) (hi : i ∉ l) :
    ∃ next, append i s = some { s with
        qhead := (l ++ [i]).head?, qtail := some i, q_link := next } ∧
      Chained next (l ++ [i]) := by
  cases l with
  | nil =>
    refine ⟨Function.update s.q_link i none, ?_, Function.update_self .., trivial⟩
    rw [append, link, hh]
    rfl
  | cons a l =>
    obtain ⟨t, hlast⟩ : ∃ t, (a :: l).getLast? = some t :=
      Option.isSome_iff_exists.1 (by simp [List.getLast?_isSome])
    refine ⟨Function.update (Function.update s.q_link t (some i)) i none, ?_, ?_⟩
    · rw [append, link, hh, ht, hlast]
      rfl
    · refine hc.concat hnd (Function.update_self ..) fun x hx => ?_
      -- the last queue now points to the new one, which no other is
      have hxi : x ≠ i := fun he => hi (he ▸ hx)
      rw [Function.update_of_ne hxi, hlast]
      by_cases hxt : x = t
      · rw [hxt, Function.update_self, if_pos rfl]
      · rw [Function.update_of_ne hxt, if_neg fun he => hxt (Option.some.inj he).symm]

/-- `qenable` always succeeds; it appends the queue, or changes nothing. -/
theorem qenable_spec {s : RunList} {l : List ℕ} (h : s.Holds l) (i : ℕ) :
    ∃ s' e, qenable v i s = some s' ∧ s'.Holds (l ++ e) ∧ s'.enabled = s.enabled ++ e := by
  rw [qenable]
  by_cases hsrvp : v.qi_srvp i = true
  swap
  · exact ⟨s, [], if_pos hsrvp, l.append_nil.symm ▸ h, s.enabled.append_nil.symm⟩
  rw [if_neg (not_not_intro hsrvp)]
  by_cases henab : s.qenab i = true
  · exact ⟨s, [], if_pos henab, l.append_nil.symm ▸ h, s.enabled.append_nil.symm⟩
  rw [if_neg henab]
  have hi : i ∉ l := fun hi => henab ((h.flag i).2 hi)
  obtain ⟨next, happ, hchain⟩ :=
    append_spec (s := { s with qenab := Function.update s.qenab i true })
      h.nodup h.chain h.head h.tail hi
  rw [happ]
  refine ⟨_, [i], rfl, ⟨?_, hchain, rfl, ?_, fun j => ?_, fun _ => rfl⟩, rfl⟩
  · exact List.nodup_append.2 ⟨h.nodup, List.nodup_singleton i,
      fun a ha b hb hab => hi (List.mem_singleton.1 hb ▸ hab ▸ ha)⟩
  · exact List.getLast?_concat.symm
  · by_cases hj : j = i
    · simp [hj]
    · simp [hj, h.flag j]

/-- Queues were only appended to the list, as they were enabled. -/
def Grows (s s' : RunList) : Prop :=
  ∀ l, s.Holds l → ∃ e, s'.Holds (l ++ e) ∧ s'.enabled = s.enabled ++ e

theorem Grows.refl (s : RunList) : Grows s s := fun l h =>
  ⟨[], l.append_nil.symm ▸ h, s.enabled.append_nil.symm⟩

theorem Grows.trans {s s' s'' : RunList} (h : Grows s s') (h' : Grows s' s'') : Grows s s'' := by
  intro l hl
  obtain ⟨e, hl', he⟩ := h l hl
  obtain ⟨e', hl'', he'⟩ := h' _ hl'
  exact ⟨e ++ e', (l.append_assoc e e') ▸ hl'', by rw [he', he, List.append_assoc]⟩

theorem grows_qenable {i : ℕ} {s s' : RunList} (h : qenable v i s = some s') : Grows s s' := by
  intro l hl
  obtain ⟨t, e, ht, hl', he⟩ := qenable_spec (v := v) hl i
  obtain rfl : t = s' := Option.some.inj (ht.symm.trans h)
  exact ⟨e, hl', he⟩

/-! ## The operations -/

theorem grows_enable {i : ℕ} {s s' : Kernel} (h : s.enable v i = some s') :
    Grows s.list s'.list := by
  obtain ⟨l, hl, rfl⟩ := Option.map_eq_some_iff.1 h
  exact grows_qenable hl

theorem grows_enableBack {i : ℕ} {s s' : Kernel} (h : enableBack v i s = some s') :
    Grows s.list s'.list := by
  rw [enableBack] at h
  cases hb : (s.backq i).find? v.qi_srvp with
  | none =>
    rw [hb] at h
    exact Option.some.inj h ▸ Grows.refl s.list
  | some j =>
    rw [hb] at h
    exact grows_enable h

theorem grows_getEnable {i : ℕ} {s s' : Kernel} (h : getEnable v i s = some s') :
    Grows s.list s'.list := by
  rw [getEnable] at h
  by_cases hc : (s.q i).q_count ≤ (s.q i).q_lowat ∧ (s.q i).qwantw = true
  · rw [if_pos hc] at h
    have hback := grows_enableBack h
    exact hback
  · rw [if_neg hc] at h
    exact Option.some.inj h ▸ Grows.refl s.list

theorem getFirst_list {i bp : ℕ} {s s' : Kernel} (h : getFirst v i bp s = some s') :
    s'.list = s.list := by
  obtain ⟨c, -, rfl⟩ := Option.map_eq_some_iff.1 h
  rfl

theorem grows_getq {i : ℕ} {s s' : Kernel} (h : getq v i s = some s') :
    Grows s.list s'.list := by
  rw [getq] at h
  cases hf : (s.q i).q_first with
  | none =>
    rw [hf] at h
    have henable := grows_getEnable h
    exact henable
  | some bp =>
    rw [hf] at h
    obtain ⟨t, ht, h⟩ := Option.bind_eq_some_iff.1 h
    exact getFirst_list ht ▸ grows_getEnable h

theorem grows_putCount {i mcls bp : ℕ} {s s' : Kernel} (h : putCount v i mcls bp s = some s') :
    Grows s.list s'.list := by
  obtain ⟨c, -, h⟩ := Option.bind_eq_some_iff.1 h
  dsimp only at h
  split at h
  · have henable := grows_enable h
    exact henable
  · exact Option.some.inj h ▸ Grows.refl s.list

theorem grows_putq {i bp : ℕ} {s s' : Kernel} (h : putq v i bp s = some s') :
    Grows s.list s'.list := by
  obtain ⟨mcls, -, h⟩ := Option.bind_eq_some_iff.1 h
  obtain ⟨⟨m, q⟩, -, h⟩ := Option.bind_eq_some_iff.1 h
  have hcount := grows_putCount h
  exact hcount

theorem grows_putbq {i bp : ℕ} {s s' : Kernel} (h : putbq v i bp s = some s') :
    Grows s.list s'.list := by
  obtain ⟨mcls, -, h⟩ := Option.bind_eq_some_iff.1 h
  obtain ⟨⟨m, q⟩, -, h⟩ := Option.bind_eq_some_iff.1 h
  have hcount := grows_putCount h
  exact hcount

/-- One round of the loop of `flushq` frees the message, or puts it back. -/
theorem grows_flushLoop {i : ℕ} {flag : Bool} {n : ℕ} {p : Option ℕ} {s s' : Kernel}
    (h : flushLoop v i flag n p s = some s') : Grows s.list s'.list := by
  induction n generalizing p s with
  | zero =>
    cases p with
    | none => exact Option.some.inj h ▸ Grows.refl s.list
    | some bp => exact absurd h (Option.some_ne_none s').symm
  | succ n ih =>
    cases p with
    | none => exact Option.some.inj h ▸ Grows.refl s.list
    | some bp =>
      obtain ⟨t, -, h⟩ := Option.bind_eq_some_iff.1 h
      dsimp only at h
      split at h
      · obtain ⟨s₁, hs₁, h⟩ := Option.bind_eq_some_iff.1 h
        exact (grows_putq hs₁).trans (ih h)
      · obtain ⟨s₁, hs₁, h⟩ := Option.bind_eq_some_iff.1 h
        obtain ⟨m, -, rfl⟩ := Option.map_eq_some_iff.1 hs₁
        have hloop := ih h
        exact hloop

theorem grows_flushq {i : ℕ} {flag : Bool} {s s' : Kernel} (h : flushq v i flag s = some s') :
    Grows s.list s'.list := by
  obtain ⟨s₁, hs₁, h⟩ := Option.bind_eq_some_iff.1 h
  have hloop := grows_flushLoop hs₁
  refine (show Grows s.list s₁.list from hloop).trans ?_
  split at h
  · exact grows_enableBack h
  · exact Option.some.inj h ▸ Grows.refl s₁.list

/-- Whatever is done to the queues, the list of those to run only grows. -/
theorem grows_operate {a : Act} {s s' : Kernel} (h : operate v a s = some s') :
    Grows s.list s'.list := by
  cases a with
  | qenable i => exact grows_enable h
  | putq i bp => exact grows_putq h
  | putbq i bp => exact grows_putbq h
  | getq i => exact grows_getq h
  | flushq i flag => exact grows_flushq h
  | other mem q backq => exact Option.some.inj h ▸ Grows.refl s.list
  | runqueues | take | call | ret | leave => exact absurd h (Option.some_ne_none s').symm

/-! ## Running -/

/-- The list `l` is to be run, and what was enabled has been called, in its order, up to
    the queue just taken off and those on the list. -/
structure State.Holds (s : State) (l : List ℕ) : Prop where
  list : s.k.list.Holds l
  log : s.k.list.enabled = s.calls ++ s.pc.pending ++ l

/-- Taking the first queue off the list. -/
theorem take_holds {s : State} {l : List ℕ} (h : s.Holds l) (hpc : s.pc = .loop) :
    ∃ l', (take s).Holds l' ∧ ((take s).pc = .left → l' = []) := by
  have hlog := h.log
  rw [hpc, show Pc.loop.pending = [] from rfl, List.append_nil] at hlog
  cases l with
  | nil =>
    have hhead : s.k.list.qhead = none := h.list.head
    have htake : take s =
        { s with k := { s.k with list := { s.k.list with qrunflag := false } }, pc := .left } := by
      rw [take]
      simp only [hhead]
    rw [htake]
    refine ⟨[], ⟨⟨.nil, trivial, hhead, h.list.tail, h.list.flag, fun hne => absurd rfl hne⟩, ?_⟩,
      fun _ => rfl⟩
    rw [show Pc.left.pending = [] from rfl, List.append_nil]
    exact hlog
  | cons i l =>
    have hhead : s.k.list.qhead = some i := h.list.head
    have hnext : s.k.list.q_link i = l.head? := h.list.chain.1
    have htake : take s = { s with
        k := { s.k with list := { s.k.list with
          qhead := l.head?
          qtail := l.getLast?
          qenab := Function.update s.k.list.qenab i false } }
        pc := .call i } := by
      rw [take]
      simp only [hhead, hnext]
      cases l with
      | nil => rfl
      | cons j l =>
        have htail : s.k.list.qtail = (j :: l).getLast? := h.list.tail.trans List.getLast?_cons_cons
        simp [htail]
    rw [htake]
    obtain ⟨hi, hnd⟩ := List.nodup_cons.1 h.list.nodup
    refine ⟨l, ⟨⟨hnd, h.list.chain.2, rfl, rfl, fun j => ?_,
      fun _ => h.list.run (List.cons_ne_nil i l)⟩, ?_⟩, fun he => absurd he Pc.noConfusion⟩
    · by_cases hj : j = i
      · simp [hj, hi]
      · simp [hj, h.list.flag j]
    · dsimp only [Pc.pending]
      rw [hlog, List.append_assoc]
      rfl

/-- Every step keeps the list. -/
theorem scheduler_step {s s' : State} {a : Act} {l : List ℕ} (h : s.Holds l)
    (hs : (scheduler v).next s a = some s') : ∃ l', s'.Holds l' := by
  have hop : ∀ a, ((operate v a s.k).map fun k => { s with k := k }) = some s' →
      ∃ l', s'.Holds l' := by
    intro a ha
    obtain ⟨k, hk, rfl⟩ := Option.map_eq_some_iff.1 ha
    obtain ⟨e, hl, he⟩ := grows_operate hk l h.list
    exact ⟨l ++ e, hl, by rw [he, h.log, List.append_assoc]⟩
  dsimp only [scheduler] at hs
  cases a with
  | qenable _ | putq _ _ | putbq _ _ | getq _ | flushq _ _ | other _ _ _ => exact hop _ hs
  | runqueues =>
    obtain ⟨hc, hs⟩ := Option.ite_none_right_eq_some.1 hs
    obtain rfl := Option.some.inj hs
    refine ⟨l, h.list, ?_⟩
    have hlog := h.log
    rw [hc.2.2] at hlog
    exact hlog
  | take =>
    obtain ⟨hc, hs⟩ := Option.ite_none_right_eq_some.1 hs
    obtain ⟨l', hl', -⟩ := take_holds h hc
    exact ⟨l', Option.some.inj hs ▸ hl'⟩
  | call =>
    cases hpc : s.pc with
    | call i =>
      rw [hpc] at hs
      obtain rfl := Option.some.inj hs
      refine ⟨l, h.list, ?_⟩
      have hlog := h.log
      rw [hpc] at hlog
      simpa [Pc.pending] using hlog
    | idle | loop | service _ | left =>
      rw [hpc] at hs
      exact absurd hs (Option.some_ne_none s').symm
  | ret =>
    cases hpc : s.pc with
    | service i =>
      rw [hpc] at hs
      obtain rfl := Option.some.inj hs
      refine ⟨l, h.list, ?_⟩
      have hlog := h.log
      rw [hpc] at hlog
      exact hlog
    | idle | loop | call _ | left =>
      rw [hpc] at hs
      exact absurd hs (Option.some_ne_none s').symm
  | leave =>
    obtain ⟨hc, hs⟩ := Option.ite_none_right_eq_some.1 hs
    obtain rfl := Option.some.inj hs
    refine ⟨l, h.list, ?_⟩
    have hlog := h.log
    rw [hc] at hlog
    exact hlog

theorem reachable_holds {s : State} (hs : (scheduler v).Reachable s) : ∃ l, s.Holds l := by
  refine hs.invariant (P := fun s => ∃ l, s.Holds l) (fun s h => ?_)
    fun s a s' ⟨l, hl⟩ _ h => scheduler_step hl h
  obtain ⟨hhead, htail, hflag, hrun, henabled, -, hpc, hcalls⟩ := h
  refine ⟨[], ⟨.nil, trivial, hhead, htail, fun i => ?_, fun hne => absurd rfl hne⟩, ?_⟩
  · rw [hflag i]
    exact iff_of_false Bool.false_ne_true List.not_mem_nil
  · rw [henabled, hpc, hcalls]
    rfl

/-- In every reachable state, wherever `queuerun` is, a queue is on the list from `qhead`
    to `qtail` once if its `QENAB` is set and not at all otherwise. Of the enablings, in
    their order, each led to one call of the service procedure, but for the queue about to
    be called and those on the list; so when `queuerun` returns, all of them. -/
theorem runList_exact (v : Config) {s : State} (hs : (scheduler v).Reachable s) :
    (∃ l, Chained s.k.list.q_link l ∧ s.k.list.qhead = l.head? ∧ s.k.list.qtail = l.getLast? ∧
      (∀ i, l.count i = if s.k.list.qenab i then 1 else 0) ∧
      s.k.list.enabled = s.calls ++ s.pc.pending ++ l) ∧
    (∀ i, (qenable v i s.k.list).isSome) ∧
    ∀ s', (scheduler v).next s .take = some s' → s'.pc = .left → s'.k.list.enabled = s'.calls := by
  obtain ⟨l, h⟩ := reachable_holds hs
  refine ⟨⟨l, h.list.chain, h.list.head, h.list.tail, fun i => ?_, h.log⟩, fun i => ?_,
    fun s' hs' hleft => ?_⟩
  · by_cases hi : i ∈ l
    · rw [List.count_eq_one_of_mem h.list.nodup hi, if_pos ((h.list.flag i).2 hi)]
    · rw [List.count_eq_zero_of_not_mem hi, if_neg fun he => hi ((h.list.flag i).1 he)]
  · obtain ⟨s', -, hs', -⟩ := qenable_spec (v := v) h.list i
    rw [hs']
    rfl
  · obtain ⟨hc, hs'⟩ := Option.ite_none_right_eq_some.1 hs'
    obtain rfl := Option.some.inj hs'
    obtain ⟨l', hl', hnil⟩ := take_holds h hc
    rw [hl'.log, hleft, hnil hleft]
    simp [Pc.pending]

/-- No message block, and only queues with a service procedure. -/
def noBlocks : Config := ⟨0, fun _ => true⟩

/-- Nothing is on any queue, and no queue is to be run. -/
def quiet : State where
  k := {
    mem := ⟨fun _ => ⟨none, none, none, none⟩, fun _ => ⟨none, 0, 0, 0⟩, none, fun _ => none⟩
    q := fun _ => ⟨none, none, 0, 1, 0, false, false, false, false⟩
    backq := fun _ => []
    list := ⟨none, none, fun _ => none, fun _ => false, false, []⟩ }
  queueflag := false
  pc := .idle
  calls := []

/-- The queue 3 is enabled again before its service procedure is called. -/
theorem runList_exact_again :
    ∃ s, (scheduler noBlocks).Reachable s ∧ s.k.list.enabled = [3, 5, 3] ∧ s.calls = [3] ∧
      (∃ l, Chained s.k.list.q_link l ∧ s.k.list.qhead = l.head? ∧
        s.k.list.qtail = l.getLast? ∧
        (∀ i, l.count i = if s.k.list.qenab i then 1 else 0) ∧
        s.k.list.enabled = s.calls ++ s.pc.pending ++ l) := by
  have h : (scheduler noBlocks).Reachable quiet :=
    .init ⟨rfl, rfl, fun _ => rfl, rfl, rfl, rfl, rfl, rfl⟩
  have h' := Machine.reachableIf_run (l := [.qenable 3, .qenable 5, .runqueues, .take,
    .qenable 3, .call]) h (fun _ _ _ => trivial) rfl
  exact ⟨_, h', rfl, rfl, (runList_exact noBlocks h').1⟩

end AuxKernel.Stream.Sched
