import AuxKernel.MsgQueue.Delivery

/-!
# The message a call receives

A `msgrcv` that nothing interrupts (`take`) gets the first message if `msgtyp` is zero,
the first of its type if it is positive, and the first of the least type up to its
absolute value if it is negative (`Selects`), and leaves the others in their order. The
least `long` is its own negative, so that a call with it gets none; with every other
`msgtyp` it does (`selects_iff`). It follows that the messages of a type on a queue are
received in the order they were sent in, in all runs that let a process copy its message
out in peace (`Action.Whole`, `Ordered.step`).
-/

namespace AuxKernel.MsgQueue

/-! ## What is to be received -/

/-- The message at `x` is one that the call asks for. -/
def Wanted (h : ℕ → Msg) (msgtyp : ℤ) (x : ℕ) : Prop :=
  msgtyp = 0 ∨ 0 < msgtyp ∧ (h x).msg_type = msgtyp ∨ msgtyp < 0 ∧ (h x).msg_type ≤ |msgtyp|

/-- The messages at `l` are what the queue holds; their types are positive, and `long`. -/
structure Content (v : Config) (s : State) (qp : ℕ) (l : List ℕ) : Prop where
  queue : OnQueue s qp l
  last : (s.msgque qp).msg_last = l.getLast?
  nodup : l.Nodup
  lt : ∀ x ∈ l, x < v.msgtql
  types : ∀ x ∈ l, 1 ≤ (s.msgh x).msg_type ∧ (s.msgh x).msg_type < 2 ^ 31

/-- A call that finds a message copies it out at once. -/
def take (v : Config) (p : ℕ) (a : Rcv) (qp : ℕ) (s : State) : Option State :=
  (receive v p a qp s).bind fun s' => next v s' (.rcvCopy p none)

/-- The message at `x` is taken from between `l₁` and `l₂`, and all else stays as it is. -/
structure Taken (s s' : State) (p qp : ℕ) (l₁ : List ℕ) (x : ℕ) (l₂ : List ℕ) (sz : ℤ) : Prop where
  proc : s'.proc = Function.update s.proc p (.done sz)
  queue : OnQueue s' qp (l₁ ++ l₂)
  last : (s'.msgque qp).msg_last = (l₁ ++ l₂).getLast?
  gone : s'.gone = ((s.msgh x).serial, .received) :: s.gone
  others : ∀ i, i ≠ qp → s'.msgque i = s.msgque i
  headers : ∀ y, s'.msgh y = { s.msgh y with msg_next := (s'.msgh y).msg_next }
  links : ∀ y, y ∉ l₁ ++ x :: l₂ → (s'.msgh y).msg_next = (s.msgh y).msg_next

/-- The call gets the best message that it asks for, if its buffer is large enough or it
    lets the text be cut off; if there is none, it fails or waits. -/
def Selects (v : Config) (s : State) (p : ℕ) (a : Rcv) (qp : ℕ) (l : List ℕ) : Prop :=
  (∀ x ∈ l, ¬Wanted s.msgh a.msgtyp x) ∧
    receive v p a qp s =
      some (s.setProc p (if a.nowait then .failed .enomsg else .rcvWait a qp)) ∨
  ∃ l₁ x l₂, l = l₁ ++ x :: l₂ ∧ Best s.msgh (Wanted s.msgh a.msgtyp) a.msgtyp l₁ x l₂ ∧
    if a.msgsz < (s.msgh x).msg_ts ∧ a.noerror = false then
      receive v p a qp s = some (s.setProc p (.failed .e2big))
    else ∃ s', take v p a qp s = some s' ∧
      Taken s s' p qp l₁ x l₂ (min a.msgsz (s.msgh x).msg_ts)

variable {v : Config} {s s' : State} {p qp : ℕ} {a : Rcv} {l l₁ l₂ : List ℕ} {x : ℕ}

theorem Best.congr {h : ℕ → Msg} {W W' : ℕ → Prop} {msgtyp : ℤ} (hb : Best h W msgtyp l₁ x l₂)
    (hW : ∀ y, W' y ↔ W y) : Best h W' msgtyp l₁ x l₂ :=
  ⟨(hW x).2 hb.wanted, fun y hy hw => hb.before y hy ((hW y).1 hw),
    fun hneg y hy hw => hb.after hneg y hy ((hW y).1 hw)⟩

/-- The search goes by what is wanted, unless `msgtyp` is the least `long`. -/
theorem meets_iff {h : ℕ → Msg} {msgtyp : ℤ} (h0 : msgtyp ≠ 0) (hlo : -2 ^ 31 < msgtyp)
    (hhi : msgtyp < 2 ^ 31) : Meets h msgtyp x ↔ Wanted h msgtyp x := by
  unfold Meets Wanted
  by_cases hp : 0 < msgtyp
  · rw [if_pos hp]
    constructor
    · exact fun he => .inr (.inl ⟨hp, he.symm⟩)
    · rintro (he | ⟨-, he⟩ | ⟨hneg, -⟩)
      · exact absurd he h0
      · exact he.symm
      · exact absurd hp hneg.not_gt
  · have hneg : msgtyp < 0 := lt_of_le_of_ne (not_lt.1 hp) h0
    rw [if_neg hp, toLong_of_mem (by omega) (by omega), abs_of_neg hneg]
    constructor
    · exact fun hle => .inr (.inr ⟨hneg, hle⟩)
    · rintro (he | ⟨hpos, -⟩ | ⟨-, hle⟩)
      · exact absurd he h0
      · exact absurd hpos hp
      · exact hle

/-- The least `long` is its own negative, and below every type. -/
theorem not_meets {h : ℕ → Msg} (hx : 1 ≤ (h x).msg_type) : ¬Meets h (-2 ^ 31) x := by
  rw [Meets, if_neg (by decide), show toLong (-(-2 ^ 31)) = -2 ^ 31 by decide]
  omega

/-! ## One call -/

section Call

variable (hid : msgconv v a.msqid s = some qp)
include hid

theorem receive_none (hsel : select v qp a.msgtyp s = some none) :
    receive v p a qp s =
      some (s.setProc p (if a.nowait then .failed .enomsg else .rcvWait a qp)) := by
  rw [receive, if_neg (not_not.2 hid), hsel, Option.map_some]
  cases a.nowait <;> rfl

theorem receive_some {spmp : Option ℕ} (hsel : select v qp a.msgtyp s = some (some (spmp, x))) :
    receive v p a qp s = some (s.setProc p
      (if a.msgsz < (s.msgh x).msg_ts ∧ a.noerror = false then .failed .e2big
       else .rcvCopy qp spmp x (min a.msgsz (s.msgh x).msg_ts) (s.msgh x).serial)) := by
  rw [receive, if_neg (not_not.2 hid), hsel, Option.map_some]
  dsimp only
  by_cases hsz : a.msgsz < (s.msgh x).msg_ts
  · rw [if_pos hsz, min_eq_left hsz.le]
    cases a.noerror <;> simp [hsz]
  · rw [if_neg hsz, if_neg fun h => hsz h.1, min_eq_right (not_lt.1 hsz)]

omit hid in
theorem next_rcvCopy {spmp : Option ℕ} {sz : ℤ} {k : ℕ}
    (hp : s.proc p = .rcvCopy qp spmp x sz k) :
    next v s (.rcvCopy p none) = some (received p qp spmp x sz s) := by
  simp only [next, hp]

omit hid in
theorem received_msgh (s : State) (p qp : ℕ) (spmp : Option ℕ) (x : ℕ) (sz : ℤ) (y : ℕ) :
    (received p qp spmp x sz s).msgh y = { s.msgh y with
      msg_next := if y = x then s.msgfp
        else if spmp = some y then (s.msgh x).msg_next else (s.msgh y).msg_next } :=
  msgfree_msgh _ qp spmp x .received y

omit hid in
theorem received_msgque (s : State) (p : ℕ) (spmp : Option ℕ) (x : ℕ) (sz : ℤ) {i : ℕ}
    (hi : i ≠ qp) : (received p qp spmp x sz s).msgque i = s.msgque i := by
  refine (msgfree_msgque _ qp spmp x .received i).trans ?_
  rw [if_neg hi, setQueue_msgque, if_neg hi]

omit hid in
/-- A message of the queue is taken off behind its predecessor. -/
theorem Content.taken (hc : Content v s qp (l₁ ++ x :: l₂)) (pc : Proc) (sz : ℤ) :
    Taken s (received p qp l₁.getLast? x sz (s.setProc p pc)) p qp l₁ x l₂ sz := by
  have hq : OnQueue ((s.setProc p pc).setQueue qp { s.msgque qp with
      msg_cbytes := toUshort ((s.msgque qp).msg_cbytes - (s.msgh x).msg_ts) }) qp
      (l₁ ++ x :: l₂) := by
    refine ⟨?_, hc.queue.chained⟩
    rw [setQueue_msgque, if_pos rfl]
    exact hc.queue.first
  have hq' := hq.msgfree hc.nodup rfl .received
  refine ⟨?_, ⟨hq'.first, hq'.chained⟩, hq.last_msgfree ?_ rfl .received, ?_, fun i hi => ?_,
    fun y => ?_, fun y hy => ?_⟩
  · refine (congrArg (Function.update · p (Proc.done sz)) (msgfree_proc ..)).trans ?_
    exact Function.update_idem ..
  · rw [setQueue_msgque, if_pos rfl]
    exact hc.last
  · exact congrArg _ (relink_rest _ qp _ _).2.2.2
  · exact received_msgque _ p _ x sz hi
  · rw [received_msgh]
    rfl
  · rw [received_msgh]
    have hyx : y ≠ x := fun he => hy (he ▸ List.mem_append_right _ List.mem_cons_self)
    dsimp only
    rw [if_neg hyx, if_neg fun he => hy ?_]
    · rfl
    · exact List.mem_append_left _ (List.mem_of_getLast? he)

/-- A message of the queue that the search finds is copied out, and taken off. -/
theorem Content.take (hc : Content v s qp (l₁ ++ x :: l₂))
    (hsel : select v qp a.msgtyp s = some (some (l₁.getLast?, x))) :
    if a.msgsz < (s.msgh x).msg_ts ∧ a.noerror = false then
      receive v p a qp s = some (s.setProc p (.failed .e2big))
    else ∃ s', MsgQueue.take v p a qp s = some s' ∧
      Taken s s' p qp l₁ x l₂ (min a.msgsz (s.msgh x).msg_ts) := by
  have hrec := receive_some (p := p) hid hsel
  by_cases hbig : a.msgsz < (s.msgh x).msg_ts ∧ a.noerror = false
  · rw [if_pos hbig] at hrec ⊢
    exact hrec
  · rw [if_neg hbig] at hrec ⊢
    refine ⟨_, ?_, hc.taken (.rcvCopy qp l₁.getLast? x (min a.msgsz (s.msgh x).msg_ts)
      (s.msgh x).serial) _⟩
    rw [MsgQueue.take, hrec, Option.bind_some]
    exact next_rcvCopy (Function.update_self ..)

/-- A call that finds no message does not take one. -/
theorem take_none (hsel : select v qp a.msgtyp s = some none) : take v p a qp s = none := by
  rw [take, receive_none hid hsel, Option.bind_some]
  cases a.nowait <;> simp [next, State.setProc]

end Call

/-- A call gets the message it is to get if and only if its type is not the least `long`,
    or the queue is empty. -/
theorem Content.selects (hc : Content v s qp l) (hid : msgconv v a.msqid s = some qp)
    (hlo : -2 ^ 31 ≤ a.msgtyp) (hhi : a.msgtyp < 2 ^ 31) :
    Selects v s p a qp l ↔ (a.msgtyp = -2 ^ 31 → l = []) := by
  obtain ⟨best, hsel, hf⟩ := hc.queue.select (v := v)
    (length_le_of_nodup hc.nodup hc.lt) a.msgtyp
  constructor
  · -- With the least `long` no message is found, though all of them are asked for.
    intro h hmin
    by_contra hne
    rw [hmin] at hf
    rw [if_neg (by decide)] at hf
    have hnone : best = none := by
      cases best with
      | none => rfl
      | some b =>
        obtain ⟨l₁, l₂, hl, -, hb⟩ := hf
        have hmem : b.2 ∈ l := hl ▸ List.mem_append_right _ List.mem_cons_self
        exact absurd hb.wanted (not_meets (hc.types _ hmem).1)
    rw [hnone] at hsel
    have hw (x : ℕ) (hx : x ∈ l) : Wanted s.msgh a.msgtyp x := by
      have := (hc.types x hx).2
      rw [hmin]
      exact .inr (.inr ⟨by decide, by rw [abs_of_neg (by decide)]; omega⟩)
    obtain ⟨x, hx⟩ := List.exists_mem_of_ne_nil l hne
    rcases h with ⟨hno, -⟩ | ⟨l₁, y, l₂, -, -, h⟩
    · exact hno x hx (hw x hx)
    · split_ifs at h
      · rw [receive_none hid hsel] at h
        have := congrArg (fun s : State => s.proc p) (Option.some.inj h)
        simp only [State.setProc, Function.update_self] at this
        split_ifs at this
        all_goals cases this
      · obtain ⟨s', hs', -⟩ := h
        rw [take_none hid hsel] at hs'
        cases hs'
  · intro hmin
    by_cases h0 : a.msgtyp = 0
    · rw [if_pos h0] at hf
      cases l with
      | nil =>
        have hno (x : ℕ) (hx : x ∈ []) : ¬Wanted s.msgh a.msgtyp x := absurd hx List.not_mem_nil
        exact .inl ⟨hno, receive_none hid (hsel.trans (congrArg some hf))⟩
      | cons x l =>
        have hno (y : ℕ) (hy : y ∈ []) :
            Wanted s.msgh a.msgtyp y → a.msgtyp < 0 ∧ (s.msgh x).msg_type < (s.msgh y).msg_type :=
          absurd hy List.not_mem_nil
        refine .inr ⟨[], x, l, rfl, ⟨.inl h0, hno, fun hneg => absurd h0 hneg.ne⟩, ?_⟩
        exact Content.take hid hc (hsel.trans (congrArg some hf))
    · rw [if_neg h0] at hf
      by_cases hnil : l = []
      · subst hnil
        cases best with
        | none =>
          have hno (x : ℕ) (hx : x ∈ []) : ¬Wanted s.msgh a.msgtyp x := absurd hx List.not_mem_nil
          exact .inl ⟨hno, receive_none hid hsel⟩
        | some b =>
          obtain ⟨l₁, l₂, hl, -⟩ := hf
          exact absurd hl (by simp)
      · have hlo' : -2 ^ 31 < a.msgtyp := lt_of_le_of_ne hlo fun he => hnil (hmin he.symm)
        have hiff (y : ℕ) : Wanted s.msgh a.msgtyp y ↔ Meets s.msgh a.msgtyp y :=
          (meets_iff h0 hlo' hhi).symm
        cases best with
        | none => exact .inl ⟨fun x hx hw => hf x hx ((hiff x).1 hw), receive_none hid hsel⟩
        | some b =>
          obtain ⟨l₁, l₂, rfl, hlast, hb⟩ := hf
          refine .inr ⟨l₁, b.2, l₂, rfl, hb.congr hiff, ?_⟩
          exact Content.take hid hc (hlast ▸ hsel)

/-! ## Runs -/

/-- A process that copies a message out goes on next; the type of a message is `long`. -/
def Action.Whole (s : State) (a : Action) : Prop :=
  (∀ p qp spmp smp sz k, s.proc p = .rcvCopy qp spmp smp sz k → ∃ e, a = .rcvCopy p e) ∧
  ∀ p type spot, a = .sndType p (some type) spot → type < 2 ^ 31

/-- The step receives the message number `k`, of the type `t`, from the queue `i`. -/
def Receipt (s : State) (a : Action) (i : ℕ) (t : ℤ) (k : ℕ) : Prop :=
  ∃ p spmp smp sz k', a = .rcvCopy p none ∧ s.proc p = .rcvCopy i spmp smp sz k' ∧
    (s.msgh smp).msg_type = t ∧ (s.msgh smp).serial = k

/-- The state `s'` comes after `s` in a run. -/
def Later (v : Config) : State → State → Prop :=
  Relation.ReflTransGen fun s s' => ∃ a : Action, a.Whole s ∧ next v s a = some s'

/-- The queues hold their messages in the order these were sent in. -/
structure Sorted (v : Config) (s : State) (l : ℕ → List ℕ) (free : List ℕ) : Prop where
  links : Links v s l free
  lt : ∀ i, ∀ x ∈ l i, (s.msgh x).serial < s.sent
  sorted : ∀ i, (l i).Pairwise fun x y => (s.msgh x).serial < (s.msgh y).serial
  types : ∀ i, ∀ x ∈ l i, 1 ≤ (s.msgh x).msg_type ∧ (s.msgh x).msg_type < 2 ^ 31

/-- The invariant: a message that is sent has a type, and one that is copied out is the
    first of its type. -/
structure Ordered (v : Config) (s : State) (l : ℕ → List ℕ) (free : List ℕ) : Prop where
  sorted : Sorted v s l free
  sends : ∀ p a t qp, (s.proc p = .sndWait a t qp ∨ s.proc p = .sndCopy a t qp) →
    1 ≤ t ∧ t < 2 ^ 31
  receives : ∀ p qp spmp smp sz k, s.proc p = .rcvCopy qp spmp smp sz k →
    ∃ l₁ l₂, l qp = l₁ ++ smp :: l₂ ∧ l₁.getLast? = spmp ∧
      ∀ y ∈ l₁, (s.msgh y).msg_type ≠ (s.msgh smp).msg_type

/-- The messages that the queues hold later were there before, or are sent in between. -/
structure After (s : State) (l : ℕ → List ℕ) (s' : State) (l' : ℕ → List ℕ) : Prop where
  sent : s.sent ≤ s'.sent
  mem : ∀ i, ∀ x ∈ l' i, x ∈ l i ∧ (s'.msgh x).serial = (s.msgh x).serial ∧
    (s'.msgh x).msg_type = (s.msgh x).msg_type ∨ s.sent ≤ (s'.msgh x).serial

section Runs

variable {l l' l'' : ℕ → List ℕ} {free free' : List ℕ} {s'' : State}

theorem Sorted.content (h : Sorted v s l free) (i : ℕ) : Content v s i (l i) :=
  ⟨h.links.queue i, h.links.last i, h.links.nodup i, fun x hx => (h.links.used i x hx).2,
    h.types i⟩

theorem After.refl (s : State) (l : ℕ → List ℕ) : After s l s l :=
  ⟨le_rfl, fun _ _ hx => .inl ⟨hx, rfl, rfl⟩⟩

theorem After.trans (h : After s l s' l') (h' : After s' l' s'' l'') : After s l s'' l'' := by
  refine ⟨h.sent.trans h'.sent, fun i x hx => ?_⟩
  rcases h'.mem i x hx with ⟨hx, hk, ht⟩ | hlt
  · rcases h.mem i x hx with ⟨hx, hk', ht'⟩ | hlt
    · exact .inl ⟨hx, hk.trans hk', ht.trans ht'⟩
    · exact .inr (hk ▸ hlt)
  · exact .inr (h.sent.trans hlt)

theorem msgfree_sent (s : State) (qp : ℕ) (pmp : Option ℕ) (mp : ℕ) (fate : Fate) :
    (msgfree qp pmp mp fate s).sent = s.sent := (relink_rest s qp pmp _).2.2.1

/-- Taking a message off a queue keeps the order of the others. -/
theorem Sorted.msgfree (h : Sorted v s l free) (hl : l qp = l₁ ++ x :: l₂) {pmp : Option ℕ}
    (hpmp : l₁.getLast? = pmp) (fate : Fate) :
    Sorted v (MsgQueue.msgfree qp pmp x fate s) (Function.update l qp (l₁ ++ l₂)) (x :: free) ∧
      After s l (MsgQueue.msgfree qp pmp x fate s) (Function.update l qp (l₁ ++ l₂)) := by
  have hmem {i y : ℕ} (hy : y ∈ Function.update l qp (l₁ ++ l₂) i) :=
    (h.links.mem_of_update hl hy).1
  refine ⟨⟨h.links.msgfree hl hpmp fate, fun i y hy => ?_, fun i => ?_, fun i y hy => ?_⟩,
    (msgfree_sent ..).ge, fun i y hy => .inl ⟨hmem hy, ?_, ?_⟩⟩
  · rw [msgfree_msgh, msgfree_sent]
    exact h.lt i y (hmem hy)
  · have hs : (Function.update l qp (l₁ ++ l₂) i).Sublist (l i) := by
      by_cases hi : i = qp
      · subst hi
        rw [Function.update_self, hl]
        exact (List.sublist_cons_self x l₂).append_left l₁
      · rw [Function.update_of_ne hi]
    refine ((h.sorted i).sublist hs).imp fun hlt => ?_
    rw [msgfree_msgh, msgfree_msgh]
    exact hlt
  · rw [msgfree_msgh]
    exact h.types i y (hmem hy)
  · rw [msgfree_msgh]
  · rw [msgfree_msgh]

/-- A message that is put on a queue is the last one sent. -/
theorem Sorted.enqueue {mp : ℕ} {a : Snd} {type : ℤ} (h : Sorted v s l (mp :: free))
    (htype : 1 ≤ type ∧ type < 2 ^ 31) (qp : ℕ) :
    Sorted v (enqueue a type qp mp s) (Function.update l qp (l qp ++ [mp])) free ∧
      After s l (enqueue a type qp mp s) (Function.update l qp (l qp ++ [mp])) := by
  have hsent := (enqueue_rest a type qp mp s).2.2.1
  have hnew : ((MsgQueue.enqueue a type qp mp s).msgh mp).serial = s.sent ∧
      ((MsgQueue.enqueue a type qp mp s).msgh mp).msg_type = type := by
    rw [enqueue_msgh, if_pos rfl]
    exact ⟨rfl, rfl⟩
  have hold {i y : ℕ} (hy : y ∈ l i) :
      ((MsgQueue.enqueue a type qp mp s).msgh y).serial = (s.msgh y).serial ∧
      ((MsgQueue.enqueue a type qp mp s).msgh y).msg_type = (s.msgh y).msg_type := by
    rw [enqueue_msgh, if_neg (h.links.ne_of_mem hy)]
    exact ⟨rfl, rfl⟩
  have hsorted (i : ℕ) : (l i).Pairwise fun x y =>
      ((MsgQueue.enqueue a type qp mp s).msgh x).serial <
        ((MsgQueue.enqueue a type qp mp s).msgh y).serial :=
    (h.sorted i).imp_of_mem fun hx hy hlt => by rwa [(hold hx).1, (hold hy).1]
  refine ⟨⟨h.links.enqueue, fun i y hy => ?_, fun i => ?_, fun i y hy => ?_⟩,
    hsent ▸ Nat.le_succ _, fun i y hy => ?_⟩
  · rw [hsent]
    rcases mem_linked.1 hy with hy | ⟨-, rfl⟩
    · exact (hold hy).1 ▸ (h.lt i y hy).trans (Nat.lt_succ_self _)
    · exact hnew.1 ▸ Nat.lt_succ_self _
  · by_cases hi : i = qp
    · subst hi
      rw [Function.update_self]
      refine List.pairwise_append.2 ⟨hsorted i, List.pairwise_singleton .., fun y hy z hz => ?_⟩
      rw [List.mem_singleton.1 hz, (hold hy).1, hnew.1]
      exact h.lt i y hy
    · rw [Function.update_of_ne hi]
      exact hsorted i
  · rcases mem_linked.1 hy with hy | ⟨-, rfl⟩
    · exact (hold hy).2 ▸ h.types i y hy
    · rw [hnew.2]
      exact htype
  · rcases mem_linked.1 hy with hy | ⟨-, rfl⟩
    · exact .inl ⟨hy, hold hy⟩
    · exact .inr hnew.1.ge

/-- What is not about messages may change. -/
theorem Sorted.congr (h : Sorted v s l free) (s' : State)
    (hq : ∀ i, (s'.msgque i).msg_first = (s.msgque i).msg_first ∧
      (s'.msgque i).msg_last = (s.msgque i).msg_last)
    (hh : s'.msgh = s.msgh) (hfp : s'.msgfp = s.msgfp) (hsent : s'.sent = s.sent) :
    Sorted v s' l free ∧ After s l s' l := by
  obtain ⟨hl, hlt, hsorted, htypes⟩ := h
  refine ⟨⟨⟨fun i => ⟨(hq i).1.trans (hl.queue i).first, ?_⟩, fun i => (hq i).2.trans (hl.last i),
    hl.nodup, hl.apart, hl.used, ?_, hl.free_nodup, hl.free_lt⟩, ?_, ?_, ?_⟩, hsent.ge,
    fun i x hx => .inl ⟨hx, ?_⟩⟩
  · exact hh ▸ (hl.queue i).chained
  · exact hfp ▸ hh ▸ hl.freed
  · exact hsent ▸ hh ▸ hlt
  · exact hh ▸ hsorted
  · exact hh ▸ htypes
  · exact hh ▸ ⟨rfl, rfl⟩

theorem setQueue_ends {q : Msqid} (hfirst : q.msg_first = (s.msgque qp).msg_first)
    (hlast : q.msg_last = (s.msgque qp).msg_last) (i : ℕ) :
    ((s.setQueue qp q).msgque i).msg_first = (s.msgque i).msg_first ∧
      ((s.setQueue qp q).msgque i).msg_last = (s.msgque i).msg_last := by
  rw [setQueue_msgque]
  by_cases hi : i = qp
  · rw [if_pos hi, hi]
    exact ⟨hfirst, hlast⟩
  · rw [if_neg hi]
    exact ⟨rfl, rfl⟩

/-- A new queue is empty. -/
theorem Sorted.create (h : Sorted v s l free) (qp : ℕ) :
    Sorted v (create v qp s) (Function.update l qp []) free ∧
      After s l (create v qp s) (Function.update l qp []) := by
  have hmem {i x : ℕ} (hx : x ∈ Function.update l qp [] i) : x ∈ l i := by
    by_cases hi : i = qp
    · subst hi
      rw [Function.update_self] at hx
      exact absurd hx List.not_mem_nil
    · rwa [Function.update_of_ne hi] at hx
  obtain ⟨hl, hlt, hsorted, htypes⟩ := h
  refine ⟨⟨⟨fun i => ?_, fun i => ?_, fun i => ?_, fun i j x hx hx' => hl.apart i j x (hmem hx)
    (hmem hx'), fun i x hx => hl.used i x (hmem hx), hl.freed, hl.free_nodup, hl.free_lt⟩,
    fun i x hx => hlt i x (hmem hx), fun i => ?_, fun i x hx => htypes i x (hmem hx)⟩,
    le_rfl, fun i x hx => .inl ⟨hmem hx, rfl, rfl⟩⟩
  all_goals by_cases hi : i = qp
  · subst hi
    rw [Function.update_self]
    refine ⟨?_, trivial⟩
    rw [MsgQueue.create, setQueue_msgque, if_pos rfl]
    rfl
  · rw [Function.update_of_ne hi]
    refine ⟨?_, (hl.queue i).chained⟩
    rw [MsgQueue.create, setQueue_msgque, if_neg hi]
    exact (hl.queue i).first
  · subst hi
    rw [Function.update_self, MsgQueue.create, setQueue_msgque, if_pos rfl]
    rfl
  · rw [Function.update_of_ne hi, MsgQueue.create, setQueue_msgque, if_neg hi]
    exact hl.last i
  · subst hi
    rw [Function.update_self]
    exact List.nodup_nil
  · rw [Function.update_of_ne hi]
    exact hl.nodup i
  · subst hi
    rw [Function.update_self]
    exact List.Pairwise.nil
  · rw [Function.update_of_ne hi]
    exact hsorted i

/-- The invariant holds again, and the messages are those from before, or new ones. -/
def Goes (v : Config) (s s' : State) (l : ℕ → List ℕ) : Prop :=
  ∃ l' free', Ordered v s' l' free' ∧ After s l s' l'

/-- No process copies a message out. -/
def Quiet (s : State) : Prop := ∀ p qp spmp smp sz k, s.proc p ≠ .rcvCopy qp spmp smp sz k

theorem Action.Whole.quiet {a : Action} (hw : a.Whole s) (ha : ∀ p e, a ≠ .rcvCopy p e) :
    Quiet s := by
  intro p qp spmp smp sz k hp
  obtain ⟨e, he⟩ := hw.1 p qp spmp smp sz k hp
  exact ha p e he

theorem setProc_proc (s : State) (p q : ℕ) (pc : Proc) :
    (s.setProc p pc).proc q = if q = p then pc else s.proc q := Function.update_apply ..

/-- A process goes on, and nothing else changes. -/
theorem Ordered.setProc (h : Ordered v s l free) (p : ℕ) {pc : Proc}
    (hsnd : ∀ a t qp, (pc = .sndWait a t qp ∨ pc = .sndCopy a t qp) → 1 ≤ t ∧ t < 2 ^ 31)
    (hrcv : ∀ qp spmp smp sz k, pc = .rcvCopy qp spmp smp sz k →
      ∃ l₁ l₂, l qp = l₁ ++ smp :: l₂ ∧ l₁.getLast? = spmp ∧
        ∀ y ∈ l₁, (s.msgh y).msg_type ≠ (s.msgh smp).msg_type) :
    Goes v s (s.setProc p pc) l := by
  obtain ⟨hs, ha⟩ := h.sorted.congr (s.setProc p pc) (fun _ => ⟨rfl, rfl⟩) rfl rfl rfl
  refine ⟨l, free, ⟨hs, fun q a t qp hq => ?_, fun q qp spmp smp sz k hq => ?_⟩, ha⟩
  all_goals by_cases hqp : q = p
  · subst hqp
    rw [setProc_proc, if_pos rfl] at hq
    exact hsnd a t qp hq
  · rw [setProc_proc, if_neg hqp] at hq
    exact h.sends q a t qp hq
  · subst hqp
    rw [setProc_proc, if_pos rfl] at hq
    exact hrcv qp spmp smp sz k hq
  · rw [setProc_proc, if_neg hqp] at hq
    exact h.receives q qp spmp smp sz k hq

theorem Ordered.setProc_failed (h : Ordered v s l free) (p : ℕ) (e : Errno) :
    Goes v s (s.setProc p (.failed e)) l := h.setProc p nofun nofun

/-- While no process copies a message out, only the queues matter. -/
theorem Ordered.goes (h : Ordered v s l free) (hs : Sorted v s' l' free' ∧ After s l s' l')
    (hproc : ∀ q, (s'.proc q).out = true ∨ s'.proc q = s.proc q)
    (hno : ∀ q qp spmp smp sz k, s.proc q = .rcvCopy qp spmp smp sz k → (s'.proc q).out = true) :
    Goes v s s' l := by
  refine ⟨l', free', ⟨hs.1, fun q a t qp hq => ?_, fun q qp spmp smp sz k hq => ?_⟩, hs.2⟩
  · rcases hproc q with hout | he
    · rcases hq with hq | hq <;> rw [hq] at hout <;> cases hout
    · exact h.sends q a t qp (he ▸ hq)
  · rcases hproc q with hout | he
    · rw [hq] at hout
      cases hout
    · have := hno q qp spmp smp sz k (he ▸ hq)
      rw [hq] at this
      cases this

theorem Ordered.put {a : Snd} {type : ℤ} (h : Ordered v s l free) (hquiet : Quiet s)
    (htype : 1 ≤ type ∧ type < 2 ^ 31) (hs' : put p a type qp s = some s') : Goes v s s' l := by
  obtain ⟨mp, hfp, rfl⟩ := Option.map_eq_some_iff.1 hs'
  obtain ⟨free, rfl⟩ : ∃ free', free = mp :: free' :=
    List.head?_eq_some_iff.1 (h.sorted.links.freed.1.symm.trans hfp)
  obtain ⟨hsort, haft⟩ := h.sorted.enqueue (a := a) htype qp
  have hproc := (enqueue_rest a type qp mp s).2.1
  obtain ⟨hsort', haft'⟩ := hsort.congr ((enqueue a type qp mp s).setProc p (.done 0))
    (fun _ => ⟨rfl, rfl⟩) rfl rfl rfl
  refine h.goes ⟨hsort', haft.trans haft'⟩ (fun q => ?_) fun q _ _ _ _ _ hq =>
    absurd hq (hquiet q _ _ _ _ _)
  by_cases hq : q = p
  · subst hq
    exact .inl (by rw [setProc_proc, if_pos rfl]; rfl)
  · exact .inr (by rw [setProc_proc, if_neg hq, hproc])

/-- A message that has what it needs is put on the queue or copied in first. -/
theorem Ordered.getres {a : Snd} {type : ℤ} {spot : Bool} (h : Ordered v s l free)
    (hquiet : Quiet s) (htype : 1 ≤ type ∧ type < 2 ^ 31)
    (hs' : getres v p a type qp spot s = some s') : Goes v s s' l := by
  have hsnd {pc : Proc} (hpc : pc = .sndWait a type qp ∨ pc = .sndCopy a type qp) :
      Goes v s (s.setProc p pc) l := by
    refine h.setProc p (fun a' t qp' he => ?_) fun _ _ _ _ _ he => ?_
    · obtain rfl : t = type := by rcases hpc with rfl | rfl <;> simp_all
      exact htype
    · rcases hpc with rfl | rfl <;> cases he
  unfold MsgQueue.getres at hs'
  dsimp only at hs'
  split_ifs at hs'
  · exact Option.some.inj hs' ▸ h.setProc_failed p _
  · exact Option.some.inj hs' ▸ h.setProc_failed p _
  · exact Option.some.inj hs' ▸ hsnd (.inl rfl)
  · exact Option.some.inj hs' ▸ hsnd (.inr rfl)
  · exact h.put hquiet htype hs'

/-- A call that finds a message begins to copy the first one of its type. -/
theorem Ordered.receive (h : Ordered v s l free) (hs' : receive v p a qp s = some s') :
    Goes v s s' l := by
  by_cases hid : msgconv v a.msqid s = some qp
  · obtain ⟨best, hsel, hf⟩ := (h.sorted.links.queue qp).select (v := v)
      (h.sorted.links.length_le qp) a.msgtyp
    cases best with
    | none =>
      obtain rfl := Option.some.inj ((receive_none hid hsel).symm.trans hs')
      refine h.setProc p (fun a' t qp' he => ?_) fun _ _ _ _ _ he => ?_
      · split_ifs at he <;> rcases he with he | he <;> cases he
      · split_ifs at he
    | some b =>
      obtain ⟨spmp, x⟩ := b
      obtain rfl := Option.some.inj ((receive_some hid hsel).symm.trans hs')
      refine h.setProc p (fun a' t qp' he => ?_) fun qp' spmp' smp sz k he => ?_
      · split_ifs at he <;> rcases he with he | he <;> cases he
      · split_ifs at he
        cases he
        by_cases h0 : a.msgtyp = 0
        · rw [if_pos h0] at hf
          obtain ⟨y, hy, hyx⟩ := Option.map_eq_some_iff.1 hf.symm
          cases hyx
          obtain ⟨l₂, hl⟩ := List.head?_eq_some_iff.1 hy
          exact ⟨[], l₂, hl, rfl, nofun⟩
        · rw [if_neg h0] at hf
          obtain ⟨l₁, l₂, hl, hlast, hb⟩ := hf
          refine ⟨l₁, l₂, hl, hlast, fun y hy he => ?_⟩
          have hw : Meets s.msgh a.msgtyp y := by
            have := hb.wanted
            unfold Meets at this ⊢
            rwa [he]
          exact absurd he (hb.before y hy hw).2.ne'
  · rw [MsgQueue.receive, if_pos hid] at hs'
    exact Option.some.inj hs' ▸ h.setProc_failed p _

/-- The messages of the type `t` on the queue `i` are later ones than the number `k`. -/
def Past (s : State) (l : ℕ → List ℕ) (i : ℕ) (t : ℤ) (k : ℕ) : Prop :=
  k < s.sent ∧ ∀ x ∈ l i, (s.msgh x).msg_type = t → k < (s.msgh x).serial

theorem Past.after {i k : ℕ} {t : ℤ} (h : Past s l i t k) (ha : After s l s' l') :
    Past s' l' i t k := by
  refine ⟨h.1.trans_le ha.sent, fun x hx ht => ?_⟩
  rcases ha.mem i x hx with ⟨hx, hk, ht'⟩ | hle
  · rw [hk]
    exact h.2 x hx (ht'.symm.trans ht)
  · exact h.1.trans_le hle

/-- A message that is received is the first of its type, and no other process is
    copying one out. -/
theorem Ordered.received {a : Action} {i k : ℕ} {t : ℤ} (h : Ordered v s l free)
    (hw : a.Whole s) (hr : Receipt s a i t k) (hs' : next v s a = some s') :
    ∃ l' free', Ordered v s' l' free' ∧ After s l s' l' ∧ Past s' l' i t k := by
  obtain ⟨p, spmp, smp, sz, k', rfl, hp, rfl, rfl⟩ := hr
  obtain ⟨l₁, l₂, hl, hlast, hfirst⟩ := h.receives p i spmp smp sz k' hp
  obtain rfl := Option.some.inj ((next_rcvCopy hp).symm.trans hs')
  -- The bytes are counted down before the message is unlinked.
  obtain ⟨hsort, ha⟩ := h.sorted.congr (s.setQueue i { s.msgque i with
    msg_cbytes := toUshort ((s.msgque i).msg_cbytes - (s.msgh smp).msg_ts) })
    (setQueue_ends rfl rfl) rfl rfl rfl
  obtain ⟨hsort', ha'⟩ := hsort.msgfree hl hlast .received
  obtain ⟨hsort'', ha''⟩ := hsort'.congr (MsgQueue.received p i spmp smp sz s)
    (fun _ => ⟨rfl, rfl⟩) rfl rfl rfl
  have haft := (ha.trans ha').trans ha''
  have hproc (q : ℕ) : (MsgQueue.received p i spmp smp sz s).proc q =
      if q = p then .done sz else s.proc q :=
    (setProc_proc ..).trans (by rw [msgfree_proc]; rfl)
  refine ⟨_, _, ⟨hsort'', fun q a t qp hq => ?_, fun q qp spmp smp sz k hq => ?_⟩, haft, ?_, ?_⟩
  · rw [hproc] at hq
    by_cases hqp : q = p
    · rw [if_pos hqp] at hq
      rcases hq with hq | hq <;> cases hq
    · rw [if_neg hqp] at hq
      exact h.sends q a t qp hq
  · rw [hproc] at hq
    by_cases hqp : q = p
    · rw [if_pos hqp] at hq
      cases hq
    · rw [if_neg hqp] at hq
      obtain ⟨e, he⟩ := hw.1 q qp spmp smp sz k hq
      cases he
      exact absurd rfl hqp
  · have hmem : smp ∈ l i := hl ▸ List.mem_append_right _ List.mem_cons_self
    exact (h.sorted.lt i smp hmem).trans_le haft.sent
  · intro x hx ht
    have hsorted := h.sorted.sorted i
    rw [Function.update_self] at hx
    rw [received_msgh] at ht ⊢
    rw [hl] at hsorted
    obtain ⟨-, h₂, -⟩ := List.pairwise_append.1 hsorted
    rcases List.mem_append.1 hx with hx | hx
    · exact absurd ht (hfirst x hx)
    · exact (List.pairwise_cons.1 h₂).1 x hx

/-- Removing a queue frees its messages, and keeps the order of the others. -/
theorem Ordered.rmid {id : ℤ} (h : Ordered v s l free) (hquiet : Quiet s)
    (hs' : rmid v id qp s = some s') : Goes v s s' l := by
  obtain ⟨s₁, free', hfree, hsort, ha, hproc⟩ := freeAll_rule (v := v) qp
    (P := fun s' l' free' => Sorted v s' l' free' ∧ After s l s' l' ∧ s'.proc = s.proc)
    (fun h => h.1.links) (fun {s₁ l₁ free₁ x rest} h hl => by
      have hl' : l₁ qp = [] ++ x :: rest := hl
      obtain ⟨hsort, ha⟩ := h.1.msgfree hl' rfl .removed
      exact ⟨hsort, h.2.1.trans ha, (msgfree_proc ..).trans h.2.2⟩)
    ⟨h.sorted, .refl s l, rfl⟩ (h.sorted.links.length_le qp)
  unfold MsgQueue.rmid at hs'
  rw [hfree] at hs'
  obtain rfl := Option.some.inj hs'
  refine h.goes (?_ : Sorted v _ (Function.update l qp []) free' ∧ After s l _ _)
    (fun q => .inr (congrFun hproc q)) fun q _ _ _ _ _ hq => absurd hq (hquiet q _ _ _ _ _)
  refine And.imp (fun h => h) ha.trans ?_
  exact hsort.congr _ (setQueue_ends rfl rfl) rfl rfl rfl

theorem Ordered.step {a : Action} (h : Ordered v s l free) (hw : a.Whole s)
    (hs' : next v s a = some s') : Goes v s s' l := by
  cases a with
  | msgsnd p a access =>
    simp only [next] at hs'
    split_ifs at hs'
    obtain rfl := Option.some.inj hs'
    unfold msgsnd
    split
    · exact h.setProc_failed p _
    · exact h.setProc_failed p _
    · split_ifs
      · exact h.setProc_failed p _
      · exact h.setProc p nofun nofun
  | sndType p type spot =>
    simp only [next] at hs'
    split at hs'
    · exact Option.some.inj hs' ▸ h.setProc_failed p _
    · split_ifs at hs' with ht
      · exact Option.some.inj hs' ▸ h.setProc_failed p _
      · exact h.getres (hw.quiet nofun) ⟨not_lt.1 ht, hw.2 _ _ _ rfl⟩ hs'
    · cases hs'
  | sndWait p signal spot =>
    simp only [next] at hs'
    split at hs'
    · exact Option.some.inj hs' ▸ h.setProc_failed p _
    · rename_i a type qp hp
      exact h.getres (hw.quiet nofun) (h.sends p a type qp (.inl hp)) hs'
    · cases hs'
  | sndCopy p error =>
    simp only [next] at hs'
    split at hs'
    · exact Option.some.inj hs' ▸ h.setProc_failed p _
    · rename_i a type qp hp
      exact h.put (hw.quiet nofun) (h.sends p a type qp (.inr hp)) hs'
    · cases hs'
  | msgrcv p a access =>
    simp only [next] at hs'
    split_ifs at hs'
    unfold msgrcv at hs'
    split at hs'
    · exact Option.some.inj hs' ▸ h.setProc_failed p _
    · exact Option.some.inj hs' ▸ h.setProc_failed p _
    · split_ifs at hs'
      · exact Option.some.inj hs' ▸ h.setProc_failed p _
      · exact h.receive hs'
  | rcvWait p signal =>
    simp only [next] at hs'
    split at hs'
    · exact Option.some.inj hs' ▸ h.setProc_failed p _
    · exact h.receive hs'
    · cases hs'
  | rcvCopy p error =>
    simp only [next] at hs'
    split at hs'
    · exact Option.some.inj hs' ▸ h.setProc_failed p _
    · rename_i qp spmp smp sz k hp
      obtain ⟨l', free', h', ha, -⟩ :=
        h.received hw ⟨p, spmp, smp, sz, k, rfl, hp, rfl, rfl⟩ ((next_rcvCopy hp).trans hs')
      exact ⟨l', free', h', ha⟩
    · cases hs'
  | rmid id =>
    obtain ⟨qp, -, hs'⟩ := Option.bind_eq_some_iff.1 hs'
    exact h.rmid (hw.quiet nofun) hs'
  | set qp qbytes =>
    obtain rfl := Option.some.inj hs'
    exact h.goes (h.sorted.congr _ (setQueue_ends rfl rfl) rfl rfl rfl) (fun _ => .inr rfl)
      fun q _ _ _ _ _ hq => absurd hq (hw.quiet nofun q _ _ _ _ _)
  | msgget qp =>
    simp only [next] at hs'
    split_ifs at hs'
    obtain rfl := Option.some.inj hs'
    exact h.goes (h.sorted.create qp) (fun _ => .inr rfl)
      fun q _ _ _ _ _ hq => absurd hq (hw.quiet nofun q _ _ _ _ _)

theorem Ordered.init (v : Config) : Ordered v (.init v) (fun _ => []) (List.range v.msgtql) :=
  ⟨⟨(Inv.init v).core.lists.links, nofun, fun _ => .nil, nofun⟩, nofun, nofun⟩

/-- The queues hold their messages in the order they were sent in, in every run. -/
theorem exists_ordered (hs : (msgs v).ReachableIf (fun s a => a.Whole s) s) :
    ∃ l free, Ordered v s l free := by
  refine hs.invariant (P := fun s => ∃ l free, Ordered v s l free) ?_ ?_
  · rintro s rfl
    exact ⟨_, _, Ordered.init v⟩
  · rintro s a s' ⟨l, free, h⟩ hw hs'
    obtain ⟨l', free', h', -⟩ := h.step hw hs'
    exact ⟨l', free', h'⟩

/-- What has been received stays the past. -/
theorem Ordered.later {i k : ℕ} {t : ℤ} (h : Ordered v s l free) (hp : Past s l i t k)
    (hlater : Later v s s') : ∃ l' free', Ordered v s' l' free' ∧ Past s' l' i t k := by
  induction hlater with
  | refl => exact ⟨l, free, h, hp⟩
  | tail _ hstep ih =>
    obtain ⟨l₁, free₁, h₁, hp₁⟩ := ih
    obtain ⟨a, hw, hs'⟩ := hstep
    obtain ⟨l', free', h', ha⟩ := h₁.step hw hs'
    exact ⟨l', free', h', hp₁.after ha⟩

/-- The messages of a type are received from a queue in the order they were sent in. -/
theorem Ordered.receipt_lt {a a' : Action} {i k k' : ℕ} {t : ℤ} (h : Ordered v s l free)
    (hw : a.Whole s) (hr : Receipt s a i t k) (hs' : next v s a = some s')
    (hlater : Later v s' s'') (hr' : Receipt s'' a' i t k') : k < k' := by
  obtain ⟨l', free', h', -, hp⟩ := h.received hw hr hs'
  obtain ⟨l'', free'', h'', hp'⟩ := h'.later hp hlater
  obtain ⟨p, spmp, smp, sz, k'', -, hproc, ht, rfl⟩ := hr'
  obtain ⟨l₁, l₂, hl, -⟩ := h''.receives p i spmp smp sz k'' hproc
  exact hp'.2 smp (hl ▸ List.mem_append_right _ List.mem_cons_self) ht

end Runs

/-- A call that nothing interrupts gets the message it is to get if and only if its type
    is not the least `long`, or the queue is empty; and the messages of a type are received
    from a queue in the order they were sent in. -/
theorem selects_iff (v : Config) :
    (∀ s p a qp l, Content v s qp l → msgconv v a.msqid s = some qp → -2 ^ 31 ≤ a.msgtyp →
      a.msgtyp < 2 ^ 31 → (Selects v s p a qp l ↔ (a.msgtyp = -2 ^ 31 → l = []))) ∧
    ∀ s, (msgs v).ReachableIf (fun s a => a.Whole s) s →
      (∀ qp, ∃ l, Content v s qp l ∧
        l.Pairwise fun x y => (s.msgh x).serial < (s.msgh y).serial) ∧
      ∀ a s' i t k, a.Whole s → next v s a = some s' → Receipt s a i t k →
        ∀ s'', Later v s' s'' → ∀ a' k', Receipt s'' a' i t k' → k < k' := by
  refine ⟨fun s p a qp l hc hid hlo hhi => hc.selects hid hlo hhi, fun s hs => ?_⟩
  obtain ⟨l, free, h⟩ := exists_ordered hs
  refine ⟨fun qp => ⟨l qp, h.sorted.content qp, h.sorted.sorted qp⟩, ?_⟩
  intro a s' i t k hw hs' hr s'' hlater a' k' hr'
  exact h.receipt_lt hw hr hs' hlater hr'

/-- A call for the type 1. -/
def rcvOne : Rcv := ⟨0, 8, -1, false, false⟩

/-- Two messages of the type 1, and a call that has found the first. -/
def twoMsgs : List Action :=
  oneMsg ++ [.msgsnd 0 ⟨0, 0, false⟩ none, .sndType 0 (some 1) true, .msgrcv 1 rcvOne none]

theorem ReachableIf.quiet {v : Config} {s s' : State} {a : Action}
    (hs : (msgs v).ReachableIf (fun s a => a.Whole s) s) (hq : Quiet s)
    (ha : ∀ p type spot, a = .sndType p (some type) spot → type < 2 ^ 31)
    (hs' : (msgs v).next s a = some s') : (msgs v).ReachableIf (fun s a => a.Whole s) s' :=
  .step hs ⟨fun p qp spmp smp sz k hp => absurd hp (hq p qp spmp smp sz k), ha⟩ hs'

/-- The messages are received one after the other. -/
theorem selects_twoMsgs : ∃ s s' s'', (msgs smallConfig).run (.init smallConfig) twoMsgs = some s ∧
    Receipt s (.rcvCopy 1 none) 0 1 0 ∧ next smallConfig s (.rcvCopy 1 none) = some s' ∧
    Selects smallConfig s' 1 rcvOne 0 [1] ∧ next smallConfig s' (.msgrcv 1 rcvOne none) = some s'' ∧
    Receipt s'' (.rcvCopy 1 none) 0 1 1 ∧ 0 < 1 := by
  have hlong (p' : ℕ) (type : ℤ) (spot : Bool) (he : Action.sndType 0 (some 1) true =
      .sndType p' (some type) spot) : type < 2 ^ 31 := by
    cases he
    decide
  have h₀ : (msgs smallConfig).ReachableIf (fun s a => a.Whole s) (.init smallConfig) := .init rfl
  have h₁ := ReachableIf.quiet (a := .msgget 0) h₀ nofun nofun rfl
  have h₂ := ReachableIf.quiet (a := .msgsnd 0 ⟨0, 0, false⟩ none) h₁ nofun nofun rfl
  have h₃ := ReachableIf.quiet (a := .sndType 0 (some 1) true) h₂ (by
    intro p qp spmp smp sz k hp
    rcases p with _ | p <;> cases hp) hlong rfl
  have h₄ := ReachableIf.quiet (a := .msgsnd 0 ⟨0, 0, false⟩ none) h₃ (by
    intro p qp spmp smp sz k hp
    rcases p with _ | p <;> cases hp) nofun rfl
  have h₅ := ReachableIf.quiet (a := .sndType 0 (some 1) true) h₄ (by
    intro p qp spmp smp sz k hp
    rcases p with _ | p <;> cases hp) hlong rfl
  have h₆ := ReachableIf.quiet (a := .msgrcv 1 rcvOne none) h₅ (by
    intro p qp spmp smp sz k hp
    rcases p with _ | p <;> cases hp) nofun rfl
  refine ⟨_, _, _, rfl, ⟨1, none, 0, 0, 0, rfl, rfl, rfl, rfl⟩, rfl, ?_, rfl,
    ⟨1, none, 1, 0, 1, rfl, rfl, rfl, rfl⟩, ?_⟩
  · refine ((selects_iff smallConfig).1 _ 1 rcvOne 0 [1] ⟨⟨rfl, rfl, trivial⟩, rfl, by decide,
      by decide, ?_⟩ rfl (by decide) (by decide)).2 nofun
    intro x hx
    cases List.mem_singleton.1 hx
    exact ⟨by decide, by decide⟩
  · refine ((selects_iff smallConfig).2 _ h₆).2 (.rcvCopy 1 none) _ 0 1 0 ⟨fun p _ _ _ _ _ hp => ?_,
      nofun⟩ rfl ⟨1, none, 0, 0, 0, rfl, rfl, rfl, rfl⟩ _ (.single ⟨.msgrcv 1 rcvOne none,
      ⟨fun p _ _ _ _ _ hp => ?_, nofun⟩, rfl⟩) (.rcvCopy 1 none) 1
      ⟨1, none, 1, 0, 1, rfl, rfl, rfl, rfl⟩
    · obtain rfl : p = 1 := by
        by_contra hne
        rcases p with _ | _ | p
        · cases hp
        · exact hne rfl
        · cases hp
      exact ⟨none, rfl⟩
    · rcases p with _ | _ | p <;> cases hp

/-- The message of the type 1 is not found by a call for the least `long`, though its type
    does not exceed the absolute value of that. -/
theorem not_selects : ¬∀ v s p a qp l, Content v s qp l → msgconv v a.msqid s = some qp →
    -2 ^ 31 ≤ a.msgtyp → a.msgtyp < 2 ^ 31 → Selects v s p a qp l := by
  intro h
  obtain ⟨s, hc, hid⟩ : ∃ s, Content smallConfig s 0 [0] ∧ msgconv smallConfig 0 s = some 0 := by
    refine ⟨((msgs smallConfig).run (.init smallConfig) oneMsg).get rfl, ⟨⟨rfl, rfl, trivial⟩, rfl,
      by decide, by decide, fun x hx => ?_⟩, rfl⟩
    cases List.mem_singleton.1 hx
    exact ⟨by decide, by decide⟩
  have hsel := h smallConfig s 1 ⟨0, 8, -2 ^ 31, false, false⟩ 0 [0] hc hid (by decide) (by decide)
  exact absurd ((hc.selects hid (by decide) (by decide)).1 hsel rfl) (by decide)

end AuxKernel.MsgQueue
