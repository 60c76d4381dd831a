import Mathlib.Algebra.Order.BigOperators.Group.List
import AuxKernel.MsgQueue.Search

/-!
# Exactly-once delivery

A message leaves its queue once, when a `msgrcv` returns it or the queue is removed,
and the counts of every queue are those of its messages (`delivery_sound`), as long as
what a call found is still there when it goes on after a copy (`Action.Clean`): for
`msgrcv`, its message behind the same one; for `msgsnd`, the queue, a free header,
and the space on the queue. No lock sees to that: two calls can receive one message
(`not_delivery_sound`).
-/

namespace AuxKernel.MsgQueue

/-! ## What is sound -/

/-- The messages at `l` are on the queue `i`, in this order. -/
structure OnQueue (s : State) (i : ℕ) (l : List ℕ) : Prop where
  first : (s.msgque i).msg_first = l.head?
  chained : Chained (fun x => (s.msgh x).msg_next) l

/-- The message number `k` is on a queue. -/
def Queued (s : State) (k : ℕ) : Prop := ∃ i l, OnQueue s i l ∧ ∃ x ∈ l, (s.msgh x).serial = k

/-- The sizes of the messages at `l`. -/
def bytes (h : ℕ → Msg) (l : List ℕ) : ℤ := (l.map fun x => (h x).msg_ts).sum

/-- Messages are neither lost nor received twice, and are counted right. -/
structure Sound (s : State) : Prop where
  counts : ∀ i, ∃ l, OnQueue s i l ∧ (s.msgque i).msg_qnum = l.length ∧
    (s.msgque i).msg_cbytes = bytes s.msgh l
  once : (s.gone.map Prod.fst).Nodup
  kept : ∀ k < s.sent, Queued s k ∨ ∃ fate, (k, fate) ∈ s.gone
  left : ∀ k fate, (k, fate) ∈ s.gone → k < s.sent ∧ ¬Queued s k

/-- A queue that gets a message has space for it. -/
def Fits (s s' : State) : Prop :=
  ∀ i, (s.msgque i).msg_qnum < (s'.msgque i).msg_qnum →
    (s'.msgque i).msg_cbytes ≤ (s'.msgque i).msg_qbytes

/-! ## The condition -/

/-- The message at `smp` is the number `k`, on the queue, and behind `spmp`. -/
def Behind (s : State) (qp : ℕ) (spmp : Option ℕ) (smp k : ℕ) : Prop :=
  ∃ l₁ l₂, OnQueue s qp (l₁ ++ smp :: l₂) ∧ l₁.getLast? = spmp ∧ (s.msgh smp).serial = k

/-- The condition on the steps; the messages and the headers are few enough. -/
def Action.Clean (v : Config) (s : State) (a : Action) : Prop :=
  v.msgmax < 2 ^ 15 ∧ v.msgtql < 2 ^ 16 ∧
  match a with
  | .sndCopy p none => ∀ a type qp, s.proc p = .sndCopy a type qp →
      msgconv v a.msqid s = some qp ∧ s.msgfp ≠ none ∧
        a.msgsz + (s.msgque qp).msg_cbytes ≤ (s.msgque qp).msg_qbytes
  | .rcvCopy p none => ∀ qp spmp smp sz k, s.proc p = .rcvCopy qp spmp smp sz k →
      Behind s qp spmp smp k
  | _ => True

/-! ## The invariant -/

/-- The headers of the queues are `l`, those on the free list `free`. -/
structure Lists (v : Config) (s : State) (l : ℕ → List ℕ) (free : List ℕ) : Prop where
  queue : ∀ i, OnQueue s i (l i)
  last : ∀ i, (s.msgque i).msg_last = (l i).getLast?
  nodup : ∀ i, (l i).Nodup
  apart : ∀ i j x, x ∈ l i → x ∈ l j → i = j
  used : ∀ i, ∀ x ∈ l i, x ∉ free ∧ x < v.msgtql
  freed : s.msgfp = free.head? ∧ Chained (fun x => (s.msgh x).msg_next) free
  free_nodup : free.Nodup
  free_lt : ∀ x ∈ free, x < v.msgtql
  qnum : ∀ i, (s.msgque i).msg_qnum = (l i).length
  size : ∀ i, ∀ x ∈ l i, 0 ≤ (s.msgh x).msg_ts
  removed : ∀ i, (s.msgque i).alloc = false → l i = []

/-- What the pointers say in `Lists`, without the counts and the sizes. -/
structure Links (v : Config) (s : State) (l : ℕ → List ℕ) (free : List ℕ) : Prop where
  queue : ∀ i, OnQueue s i (l i)
  last : ∀ i, (s.msgque i).msg_last = (l i).getLast?
  nodup : ∀ i, (l i).Nodup
  apart : ∀ i j x, x ∈ l i → x ∈ l j → i = j
  used : ∀ i, ∀ x ∈ l i, x ∉ free ∧ x < v.msgtql
  freed : s.msgfp = free.head? ∧ Chained (fun x => (s.msgh x).msg_next) free
  free_nodup : free.Nodup
  free_lt : ∀ x ∈ free, x < v.msgtql

/-- The numbers of the messages: each was sent once, and is on a queue or gone. -/
structure Serials (s : State) (l : ℕ → List ℕ) : Prop where
  lt : ∀ i, ∀ x ∈ l i, (s.msgh x).serial < s.sent
  inj : ∀ i j, ∀ x ∈ l i, ∀ y ∈ l j, (s.msgh x).serial = (s.msgh y).serial → x = y
  once : (s.gone.map Prod.fst).Nodup
  gone_lt : ∀ k ∈ s.gone.map Prod.fst, k < s.sent
  here : ∀ i, ∀ x ∈ l i, (s.msgh x).serial ∉ s.gone.map Prod.fst
  kept : ∀ k < s.sent, k ∈ s.gone.map Prod.fst ∨ ∃ i, ∃ x ∈ l i, (s.msgh x).serial = k

/-- The invariant, but for the bytes of the queues. -/
structure Core (v : Config) (s : State) (l : ℕ → List ℕ) (free : List ℕ) : Prop where
  lists : Lists v s l free
  serials : Serials s l

/-- The invariant. -/
structure Inv (v : Config) (s : State) (l : ℕ → List ℕ) (free : List ℕ) : Prop where
  core : Core v s l free
  cbytes : ∀ i, (s.msgque i).msg_cbytes = bytes s.msgh (l i)
  limits : ∀ i, (s.msgque i).msg_cbytes < 2 ^ 16 ∧ (s.msgque i).msg_qbytes < 2 ^ 16
  sizes : ∀ p a t qp, (s.proc p = .sndType a qp ∨ s.proc p = .sndWait a t qp ∨
    s.proc p = .sndCopy a t qp) → 0 ≤ a.msgsz ∧ a.msgsz ≤ v.msgmax

section Steps

variable {v : Config} {s s' : State} {l : ℕ → List ℕ} {free : List ℕ}

theorem bytes_append (h : ℕ → Msg) (l₁ l₂ : List ℕ) :
    bytes h (l₁ ++ l₂) = bytes h l₁ + bytes h l₂ := by
  rw [bytes, List.map_append, List.sum_append]
  rfl

theorem bytes_cons (h : ℕ → Msg) (x : ℕ) (l : List ℕ) :
    bytes h (x :: l) = (h x).msg_ts + bytes h l := List.sum_cons

theorem bytes_congr {h h' : ℕ → Msg} {l : List ℕ} (hh : ∀ x ∈ l, (h' x).msg_ts = (h x).msg_ts) :
    bytes h' l = bytes h l := by
  unfold bytes
  rw [List.map_congr_left hh]

theorem bytes_nonneg {h : ℕ → Msg} {l : List ℕ} (hh : ∀ x ∈ l, 0 ≤ (h x).msg_ts) :
    0 ≤ bytes h l := by
  refine List.sum_nonneg fun n hn => ?_
  obtain ⟨x, hx, rfl⟩ := List.mem_map.1 hn
  exact hh x hx

/-- A queue is what its pointers say. -/
theorem OnQueue.unique {i : ℕ} {l₁ l₂ : List ℕ} (h₁ : OnQueue s i l₁) (h₂ : OnQueue s i l₂) :
    l₁ = l₂ := h₁.chained.unique h₂.chained (h₁.first.symm.trans h₂.first)

theorem Lists.links (h : Lists v s l free) : Links v s l free :=
  ⟨h.queue, h.last, h.nodup, h.apart, h.used, h.freed, h.free_nodup, h.free_lt⟩

theorem Links.lists (h : Links v s l free) (hqnum : ∀ i, (s.msgque i).msg_qnum = (l i).length)
    (hsize : ∀ i, ∀ x ∈ l i, 0 ≤ (s.msgh x).msg_ts)
    (hremoved : ∀ i, (s.msgque i).alloc = false → l i = []) : Lists v s l free :=
  ⟨h.queue, h.last, h.nodup, h.apart, h.used, h.freed, h.free_nodup, h.free_lt, hqnum, hsize,
    hremoved⟩

theorem Links.length_le (h : Links v s l free) (i : ℕ) : (l i).length ≤ v.msgtql :=
  length_le_of_nodup (h.nodup i) fun x hx => (h.used i x hx).2

theorem Lists.length_le (h : Lists v s l free) (i : ℕ) : (l i).length ≤ v.msgtql :=
  h.links.length_le i

theorem Core.queued (h : Core v s l free) (k : ℕ) :
    Queued s k ↔ ∃ i, ∃ x ∈ l i, (s.msgh x).serial = k := by
  refine ⟨fun ⟨i, l', hl', x, hx, hk⟩ => ⟨i, x, ?_, hk⟩,
    fun ⟨i, x, hx, hk⟩ => ⟨i, l i, h.lists.queue i, x, hx, hk⟩⟩
  exact hl'.unique (h.lists.queue i) ▸ hx

theorem Inv.sound (h : Inv v s l free) : Sound s := by
  refine ⟨fun i => ⟨l i, h.core.lists.queue i, h.core.lists.qnum i, h.cbytes i⟩,
    h.core.serials.once, fun k hk => ?_, fun k fate hk => ?_⟩
  · rcases h.core.serials.kept k hk with hk | hk
    · obtain ⟨⟨_, fate⟩, hmem, rfl⟩ := List.mem_map.1 hk
      exact .inr ⟨fate, hmem⟩
    · exact .inl ((h.core.queued k).2 hk)
  · have hmem := List.mem_map_of_mem (f := Prod.fst) hk
    refine ⟨h.core.serials.gone_lt k hmem, fun hq => ?_⟩
    obtain ⟨i, x, hx, rfl⟩ := (h.core.queued k).1 hq
    exact h.core.serials.here i x hx hmem

/-! ## Unlinking -/

theorem setQueue_msgque (s : State) (i j : ℕ) (q : Msqid) :
    (s.setQueue i q).msgque j = if j = i then q else s.msgque j := Function.update_apply ..

theorem setHeader_msgh (s : State) (x y : ℕ) (m : Msg) :
    (s.setHeader x m).msgh y = if y = x then m else s.msgh y := Function.update_apply ..

variable {qp mp : ℕ} {pmp : Option ℕ} {fate : Fate}

theorem relink_msgque (s : State) (qp : ℕ) (pmp next : Option ℕ) (i : ℕ) :
    (relink qp pmp next s).msgque i = if i = qp then { s.msgque qp with
      msg_first := if pmp = none then next else (s.msgque qp).msg_first } else s.msgque i := by
  cases pmp with
  | none =>
    rw [relink, setQueue_msgque]
    simp
  | some x =>
    rw [if_neg (Option.some_ne_none x)]
    by_cases hi : i = qp
    · rw [hi, if_pos rfl]
      rfl
    · rw [if_neg hi]
      rfl

theorem relink_msgh (s : State) (qp : ℕ) (pmp next : Option ℕ) (x : ℕ) :
    (relink qp pmp next s).msgh x = { s.msgh x with
      msg_next := if pmp = some x then next else (s.msgh x).msg_next } := by
  cases pmp with
  | none => rfl
  | some y =>
    rw [relink, setHeader_msgh]
    by_cases hx : x = y
    · simp [hx]
    · rw [if_neg hx, if_neg fun he => hx (Option.some.inj he).symm]

/-- Neither the free list nor the processes are relinked. -/
theorem relink_rest (s : State) (qp : ℕ) (pmp next : Option ℕ) :
    (relink qp pmp next s).msgfp = s.msgfp ∧ (relink qp pmp next s).proc = s.proc ∧
      (relink qp pmp next s).sent = s.sent ∧ (relink qp pmp next s).gone = s.gone := by
  cases pmp <;> exact ⟨rfl, rfl, rfl, rfl⟩

theorem msgfree_msgque (s : State) (qp : ℕ) (pmp : Option ℕ) (mp : ℕ) (fate : Fate) (i : ℕ) :
    (msgfree qp pmp mp fate s).msgque i = if i = qp then { s.msgque qp with
      msg_first := if pmp = none then (s.msgh mp).msg_next else (s.msgque qp).msg_first
      msg_last := if (s.msgh mp).msg_next = none then pmp else (s.msgque qp).msg_last
      msg_qnum := toUshort ((s.msgque qp).msg_qnum - 1) } else s.msgque i := by
  unfold msgfree
  dsimp only [State.setHeader]
  rw [setQueue_msgque, relink_msgque, relink_msgque, if_pos rfl]
  split_ifs <;> rfl

theorem msgfree_msgh (s : State) (qp : ℕ) (pmp : Option ℕ) (mp : ℕ) (fate : Fate) (x : ℕ) :
    (msgfree qp pmp mp fate s).msgh x = { s.msgh x with
      msg_next := if x = mp then s.msgfp
        else if pmp = some x then (s.msgh mp).msg_next else (s.msgh x).msg_next } := by
  unfold msgfree
  dsimp only
  rw [setHeader_msgh]
  dsimp only [State.setQueue]
  rw [relink_msgh, relink_msgh, (relink_rest s qp pmp _).1]
  by_cases hx : x = mp
  · rw [if_pos hx, if_pos hx, hx]
  · rw [if_neg hx, if_neg hx]

theorem msgfree_proc (s : State) (qp : ℕ) (pmp : Option ℕ) (mp : ℕ) (fate : Fate) :
    (msgfree qp pmp mp fate s).proc = s.proc := (relink_rest s qp pmp _).2.1

section Unlink

variable {l₁ l₂ : List ℕ} {x : ℕ}

theorem mem_unlinked (hl : l qp = l₁ ++ x :: l₂) : x ∈ l qp :=
  hl ▸ List.mem_append_right _ List.mem_cons_self

/-- The pointers of headers elsewhere stay as they are. -/
theorem msgfree_next (hl : l qp = l₁ ++ x :: l₂) (hpmp : l₁.getLast? = pmp) (fate : Fate) {y : ℕ}
    (hyx : y ≠ x) (hy : y ∉ l qp) :
    ((msgfree qp pmp x fate s).msgh y).msg_next = (s.msgh y).msg_next := by
  rw [msgfree_msgh]
  dsimp only
  rw [if_neg hyx, if_neg fun he => hy ?_]
  rw [hl]
  exact List.mem_append_left _ (List.mem_of_getLast? (hpmp.trans he))

/-- A message behind its predecessor is taken off its queue. -/
theorem OnQueue.msgfree (hq : OnQueue s qp (l₁ ++ x :: l₂)) (hnd : (l₁ ++ x :: l₂).Nodup)
    (hpmp : l₁.getLast? = pmp) (fate : Fate) :
    OnQueue (MsgQueue.msgfree qp pmp x fate s) qp (l₁ ++ l₂) := by
  obtain ⟨hnd₁, hnd₂, hdisj⟩ := List.nodup_append.1 hnd
  have hxn : (s.msgh x).msg_next = l₂.head? := hq.chained.next_eq
  refine ⟨?_, hq.chained.remove hnd₁ (fun y hy => ?_) fun y hy => ?_⟩
  · rw [msgfree_msgque, if_pos rfl]
    dsimp only
    rw [hxn, hq.first]
    cases l₁ with
    | nil => rw [if_pos (show pmp = none from hpmp.symm)]; rfl
    | cons b l₁ => rw [if_neg (by rw [← hpmp]; simp)]; rfl
  · rw [msgfree_msgh, ← hxn]
    dsimp only
    rw [if_neg (hdisj y hy x List.mem_cons_self), hpmp]
  · rw [msgfree_msgh]
    dsimp only
    have hyx : y ≠ x := fun he => (List.nodup_cons.1 hnd₂).1 (he ▸ hy)
    rw [if_neg hyx, if_neg fun he => ?_]
    exact hdisj y (List.mem_of_getLast? (hpmp.trans he)) y (List.mem_cons_of_mem _ hy) rfl

theorem OnQueue.last_msgfree (hq : OnQueue s qp (l₁ ++ x :: l₂))
    (hlast : (s.msgque qp).msg_last = (l₁ ++ x :: l₂).getLast?) (hpmp : l₁.getLast? = pmp)
    (fate : Fate) :
    ((MsgQueue.msgfree qp pmp x fate s).msgque qp).msg_last = (l₁ ++ l₂).getLast? := by
  have hxn : (s.msgh x).msg_next = l₂.head? := hq.chained.next_eq
  rw [msgfree_msgque, if_pos rfl]
  dsimp only
  rw [hxn, hlast]
  cases l₂ with
  | nil => simpa using hpmp.symm
  | cons b l₂ => simp [List.getLast?_append]

variable (h : Links v s l free) (hl : l qp = l₁ ++ x :: l₂)
include h hl

/-- What is on a queue without the message was there before. -/
theorem Links.mem_of_update {i y : ℕ} (hy : y ∈ Function.update l qp (l₁ ++ l₂) i) :
    y ∈ l i ∧ y ≠ x := by
  by_cases hi : i = qp
  · subst hi
    rw [Function.update_self] at hy
    have hnd := h.nodup i
    rw [hl] at hnd ⊢
    obtain ⟨-, hnd₂, hdisj⟩ := List.nodup_append.1 hnd
    rcases List.mem_append.1 hy with hy | hy
    · exact ⟨List.mem_append_left _ hy, hdisj y hy x List.mem_cons_self⟩
    · exact ⟨List.mem_append_right _ (List.mem_cons_of_mem _ hy), fun he =>
        (List.nodup_cons.1 hnd₂).1 (he ▸ hy)⟩
  · rw [Function.update_of_ne hi] at hy
    exact ⟨hy, fun he => hi (h.apart i qp x (he ▸ hy) (mem_unlinked hl))⟩

theorem Links.queue_msgfree (hpmp : l₁.getLast? = pmp) (fate : Fate) (i : ℕ) :
    OnQueue (msgfree qp pmp x fate s) i (Function.update l qp (l₁ ++ l₂) i) := by
  by_cases hi : i = qp
  · subst hi
    have hq := h.queue i
    have hnd := h.nodup i
    rw [hl] at hq hnd
    rw [Function.update_self]
    exact hq.msgfree hnd hpmp fate
  · -- The predecessor is on the queue `qp`, so that the other queues stay.
    have hq := h.queue i
    rw [Function.update_of_ne hi]
    refine ⟨?_, hq.chained.congr fun y hy => msgfree_next hl hpmp fate ?_ ?_⟩
    · rw [msgfree_msgque, if_neg hi]
      exact hq.first
    · exact fun he => hi (h.apart i qp x (he ▸ hy) (mem_unlinked hl))
    · exact fun hy' => hi (h.apart i qp y hy hy')

/-- A message behind its predecessor can be freed. -/
theorem Links.msgfree (hpmp : l₁.getLast? = pmp) (fate : Fate) :
    Links v (MsgQueue.msgfree qp pmp x fate s) (Function.update l qp (l₁ ++ l₂)) (x :: free) := by
  have hx := h.used qp x (mem_unlinked hl)
  have hnd := h.nodup qp
  have hq := h.queue qp
  rw [hl] at hnd hq
  refine ⟨h.queue_msgfree hl hpmp fate, fun i => ?_, fun i => ?_, fun i j y hy hy' =>
    h.apart i j y (h.mem_of_update hl hy).1 (h.mem_of_update hl hy').1, fun i y hy => ?_,
    ⟨rfl, ?_, ?_⟩, List.nodup_cons.2 ⟨hx.1, h.free_nodup⟩, fun y hy => ?_⟩
  · by_cases hi : i = qp
    · subst hi
      rw [Function.update_self]
      exact hq.last_msgfree (hl ▸ h.last i) hpmp fate
    · rw [Function.update_of_ne hi, msgfree_msgque, if_neg hi]
      exact h.last i
  · by_cases hi : i = qp
    · subst hi
      rw [Function.update_self]
      exact hnd.sublist ((List.sublist_cons_self x l₂).append_left l₁)
    · rw [Function.update_of_ne hi]
      exact h.nodup i
  · obtain ⟨hy, hyx⟩ := h.mem_of_update hl hy
    have hu := h.used i y hy
    exact ⟨fun hf => (List.mem_cons.1 hf).elim hyx hu.1, hu.2⟩
  · show ((MsgQueue.msgfree qp pmp x fate s).msgh x).msg_next = free.head?
    rw [msgfree_msgh]
    dsimp only
    rw [if_pos rfl, h.freed.1]
  · exact h.freed.2.congr fun y hy => msgfree_next hl hpmp fate (fun he => hx.1 (he ▸ hy))
      fun hy' => (h.used qp y hy').1 hy
  · rcases List.mem_cons.1 hy with rfl | hy
    · exact hx.2
    · exact h.free_lt y hy

/-- The message that is freed is gone. -/
theorem Serials.msgfree (hs : Serials s l) (pmp : Option ℕ) (fate : Fate) :
    Serials (MsgQueue.msgfree qp pmp x fate s) (Function.update l qp (l₁ ++ l₂)) := by
  have hx := mem_unlinked hl
  have hmem {i y : ℕ} (hy : y ∈ Function.update l qp (l₁ ++ l₂) i) := h.mem_of_update hl hy
  have hgone : (MsgQueue.msgfree qp pmp x fate s).gone = ((s.msgh x).serial, fate) :: s.gone :=
    congrArg _ (relink_rest s qp pmp _).2.2.2
  have hsent : (MsgQueue.msgfree qp pmp x fate s).sent = s.sent := (relink_rest s qp pmp _).2.2.1
  have hserial (y : ℕ) :
      ((MsgQueue.msgfree qp pmp x fate s).msgh y).serial = (s.msgh y).serial := by
    rw [msgfree_msgh]
  refine ⟨fun i y hy => ?_, fun i j y hy z hz he => ?_, ?_, fun k hk => ?_, fun i y hy => ?_,
    fun k hk => ?_⟩
  · rw [hserial, hsent]
    exact hs.lt i y (hmem hy).1
  · rw [hserial, hserial] at he
    exact hs.inj i j y (hmem hy).1 z (hmem hz).1 he
  · rw [hgone]
    exact List.nodup_cons.2 ⟨hs.here qp x hx, hs.once⟩
  · rw [hsent]
    rw [hgone] at hk
    rcases List.mem_cons.1 hk with rfl | hk
    · exact hs.lt qp x hx
    · exact hs.gone_lt k hk
  · rw [hserial, hgone]
    intro hk
    rcases List.mem_cons.1 hk with he | hk
    · exact (hmem hy).2 (hs.inj i qp y (hmem hy).1 x hx he)
    · exact hs.here i y (hmem hy).1 hk
  · rw [hgone]
    rw [hsent] at hk
    rcases hs.kept k hk with hk | ⟨i, y, hy, hk⟩
    · exact .inl (List.mem_cons_of_mem _ hk)
    · by_cases hyx : y = x
      · subst hyx
        exact .inl (List.mem_cons.2 (.inl hk.symm))
      · refine .inr ⟨i, y, ?_, (hserial y).trans hk⟩
        by_cases hi : i = qp
        · subst hi
          rw [Function.update_self]
          rw [hl] at hy
          simpa [hyx] using hy
        · rwa [Function.update_of_ne hi]

omit h in
theorem Lists.msgfree (h : Lists v s l free) (hpmp : l₁.getLast? = pmp)
    (hsmall : v.msgtql < 2 ^ 16) (fate : Fate) :
    Lists v (MsgQueue.msgfree qp pmp x fate s) (Function.update l qp (l₁ ++ l₂)) (x :: free) := by
  refine (h.links.msgfree hl hpmp fate).lists (fun i => ?_) (fun i y hy => ?_) fun i hi => ?_
  · by_cases hi : i = qp
    · subst hi
      have hlen := h.length_le i
      rw [Function.update_self, msgfree_msgque, if_pos rfl]
      dsimp only
      rw [h.qnum]
      rw [hl] at hlen ⊢
      simp only [List.length_append, List.length_cons] at hlen ⊢
      rw [toUshort_of_mem] <;> push_cast <;> omega
    · rw [Function.update_of_ne hi, msgfree_msgque, if_neg hi]
      exact h.qnum i
  · rw [msgfree_msgh]
    exact h.size i y (h.links.mem_of_update hl hy).1
  · by_cases hi' : i = qp
    · subst hi'
      rw [msgfree_msgque, if_pos rfl] at hi
      exact absurd (h.removed i hi) (by simp [hl])
    · rw [Function.update_of_ne hi']
      rw [msgfree_msgque, if_neg hi'] at hi
      exact h.removed i hi

end Unlink

/-! ## Linking in -/

theorem enqueue_msgque (a : Snd) (type : ℤ) (qp mp : ℕ) (s : State) (i : ℕ) :
    (enqueue a type qp mp s).msgque i = if i = qp then { s.msgque qp with
      msg_first := if (s.msgque qp).msg_last = none then some mp else (s.msgque qp).msg_first
      msg_last := some mp
      msg_qnum := toUshort ((s.msgque qp).msg_qnum + 1)
      msg_cbytes := toUshort ((s.msgque qp).msg_cbytes + a.msgsz) } else s.msgque i := by
  unfold enqueue
  dsimp only
  rw [setQueue_msgque, relink_msgque, relink_msgque, if_pos rfl]
  by_cases hi : i = qp
  · rw [if_pos hi, if_pos hi]
    rfl
  · rw [if_neg hi, if_neg hi, if_neg hi]
    rfl

theorem enqueue_msgh (a : Snd) (type : ℤ) (qp mp : ℕ) (s : State) (x : ℕ) :
    (enqueue a type qp mp s).msgh x = if x = mp then ⟨if (s.msgque qp).msg_last = some mp
        then some mp else none, type, toShort a.msgsz, s.sent⟩
      else { s.msgh x with
        msg_next := if (s.msgque qp).msg_last = some x then some mp else (s.msgh x).msg_next } := by
  unfold enqueue
  dsimp only [State.setQueue]
  rw [relink_msgh, setHeader_msgh]
  by_cases hx : x = mp
  · rw [if_pos hx, if_pos hx, hx]
    rfl
  · rw [if_neg hx, if_neg hx]
    rfl

theorem enqueue_rest (a : Snd) (type : ℤ) (qp mp : ℕ) (s : State) :
    (enqueue a type qp mp s).msgfp = (s.msgh mp).msg_next ∧ (enqueue a type qp mp s).proc = s.proc ∧
      (enqueue a type qp mp s).sent = s.sent + 1 ∧ (enqueue a type qp mp s).gone = s.gone := by
  obtain ⟨-, h₁, h₂, h₃⟩ := relink_rest (s.setHeader mp ⟨none, type, toShort a.msgsz, s.sent⟩) qp
    ((s.setHeader mp ⟨none, type, toShort a.msgsz, s.sent⟩).msgque qp).msg_last (some mp)
  exact ⟨rfl, h₁, congrArg (· + 1) h₂, h₃⟩

section Link

theorem mem_linked {i y : ℕ} :
    y ∈ Function.update l qp (l qp ++ [mp]) i ↔ y ∈ l i ∨ i = qp ∧ y = mp := by
  by_cases hi : i = qp
  · subst hi
    simp
  · simp [hi]

variable {a : Snd} {type : ℤ} (h : Links v s l (mp :: free))
include h

theorem Links.ne_of_mem {i y : ℕ} (hy : y ∈ l i) : y ≠ mp :=
  fun he => (h.used i y hy).1 (he ▸ List.mem_cons_self)

theorem Links.queue_enqueue (i : ℕ) :
    OnQueue (MsgQueue.enqueue a type qp mp s) i (Function.update l qp (l qp ++ [mp]) i) := by
  have hlast := h.last qp
  by_cases hi : i = qp
  · subst hi
    have hq := h.queue i
    rw [Function.update_self]
    refine ⟨?_, hq.chained.concat (h.nodup i) ?_ fun y hy => ?_⟩
    · rw [enqueue_msgque, if_pos rfl]
      dsimp only
      rw [hlast, hq.first]
      cases l i <;> simp
    · rw [enqueue_msgh, if_pos rfl, hlast]
      exact if_neg fun he => h.ne_of_mem (List.mem_of_getLast? he) rfl
    · rw [enqueue_msgh, if_neg (h.ne_of_mem hy), hlast]
  · have hq := h.queue i
    rw [Function.update_of_ne hi]
    refine ⟨?_, hq.chained.congr fun y hy => ?_⟩
    · rw [enqueue_msgque, if_neg hi]
      exact hq.first
    · rw [enqueue_msgh, if_neg (h.ne_of_mem hy)]
      dsimp only
      rw [hlast, if_neg fun he => hi (h.apart i qp y hy (List.mem_of_getLast? he))]

theorem Links.nodup_enqueue : (l qp ++ [mp]).Nodup := by
  simpa [List.nodup_append] using ⟨h.nodup qp, fun y hy => h.ne_of_mem hy⟩

/-- A message can be put on a queue. -/
theorem Links.enqueue :
    Links v (MsgQueue.enqueue a type qp mp s) (Function.update l qp (l qp ++ [mp])) free := by
  have hlast := h.last qp
  obtain ⟨hfree, hnd⟩ := List.nodup_cons.1 h.free_nodup
  have hlt := h.free_lt mp List.mem_cons_self
  refine ⟨h.queue_enqueue, fun i => ?_, fun i => ?_, fun i j y hy hy' => ?_, fun i y hy => ?_,
    ⟨?_, ?_⟩, hnd, fun y hy => h.free_lt y (List.mem_cons_of_mem _ hy)⟩
  · by_cases hi : i = qp
    · subst hi
      rw [Function.update_self, enqueue_msgque, if_pos rfl, List.getLast?_concat]
    · rw [Function.update_of_ne hi, enqueue_msgque, if_neg hi]
      exact h.last i
  · by_cases hi : i = qp
    · subst hi
      rw [Function.update_self]
      exact h.nodup_enqueue
    · rw [Function.update_of_ne hi]
      exact h.nodup i
  · rcases mem_linked.1 hy with hy | ⟨hi, hy⟩ <;> rcases mem_linked.1 hy' with hy' | ⟨hj, hy'⟩
    · exact h.apart i j y hy hy'
    · exact absurd hy' (h.ne_of_mem hy)
    · exact absurd hy (h.ne_of_mem hy')
    · exact hi.trans hj.symm
  · rcases mem_linked.1 hy with hy | ⟨rfl, rfl⟩
    · have hu := h.used i y hy
      exact ⟨fun hf => hu.1 (List.mem_cons_of_mem _ hf), hu.2⟩
    · exact ⟨hfree, hlt⟩
  · rw [(enqueue_rest a type qp mp s).1]
    exact h.freed.2.1
  · refine h.freed.2.2.congr fun y hy => ?_
    have hne : y ≠ mp := fun he => hfree (he ▸ hy)
    rw [enqueue_msgh, if_neg hne]
    dsimp only
    rw [hlast, if_neg fun he => ?_]
    exact (h.used qp y (List.mem_of_getLast? he)).1 (List.mem_cons_of_mem _ hy)

omit h in
theorem Lists.enqueue (h : Lists v s l (mp :: free)) (halloc : (s.msgque qp).alloc = true)
    (hsmall : v.msgtql < 2 ^ 16) (hsize : 0 ≤ a.msgsz ∧ a.msgsz < 2 ^ 15) :
    Lists v (MsgQueue.enqueue a type qp mp s) (Function.update l qp (l qp ++ [mp])) free := by
  have hlen : (l qp ++ [mp]).length ≤ v.msgtql :=
    length_le_of_nodup h.links.nodup_enqueue fun y hy => by
      rcases List.mem_append.1 hy with hy | hy
      · exact (h.used qp y hy).2
      · exact List.mem_singleton.1 hy ▸ h.free_lt mp List.mem_cons_self
  refine h.links.enqueue.lists (fun i => ?_) (fun i y hy => ?_) fun i hi => ?_
  · by_cases hi : i = qp
    · subst hi
      rw [Function.update_self, enqueue_msgque, if_pos rfl]
      dsimp only
      rw [h.qnum]
      simp only [List.length_append, List.length_singleton] at hlen ⊢
      rw [toUshort_of_mem] <;> push_cast <;> omega
    · rw [Function.update_of_ne hi, enqueue_msgque, if_neg hi]
      exact h.qnum i
  · rcases mem_linked.1 hy with hy | ⟨-, rfl⟩
    · rw [enqueue_msgh, if_neg (h.links.ne_of_mem hy)]
      exact h.size i y hy
    · rw [enqueue_msgh, if_pos rfl]
      show 0 ≤ toShort a.msgsz
      rw [toShort_of_mem (by omega) hsize.2]
      exact hsize.1
  · by_cases hi' : i = qp
    · subst hi'
      rw [enqueue_msgque, if_pos rfl] at hi
      exact nomatch halloc.symm.trans hi
    · rw [Function.update_of_ne hi']
      rw [enqueue_msgque, if_neg hi'] at hi
      exact h.removed i hi

theorem Serials.enqueue (hs : Serials s l) :
    Serials (MsgQueue.enqueue a type qp mp s) (Function.update l qp (l qp ++ [mp])) := by
  obtain ⟨-, -, hsent, hgone⟩ := enqueue_rest a type qp mp s
  have hnew : ((MsgQueue.enqueue a type qp mp s).msgh mp).serial = s.sent := by
    rw [enqueue_msgh, if_pos rfl]
  have hold {i y : ℕ} (hy : y ∈ l i) :
      ((MsgQueue.enqueue a type qp mp s).msgh y).serial = (s.msgh y).serial := by
    rw [enqueue_msgh, if_neg (h.ne_of_mem hy)]
  refine ⟨fun i y hy => ?_, fun i j y hy z hz he => ?_, hgone ▸ hs.once, fun k hk => ?_,
    fun i y hy => ?_, fun k hk => ?_⟩
  · rw [hsent]
    rcases mem_linked.1 hy with hy | ⟨rfl, rfl⟩
    · rw [hold hy]
      exact (hs.lt i y hy).trans s.sent.lt_succ_self
    · rw [hnew]
      exact s.sent.lt_succ_self
  · rcases mem_linked.1 hy with hy | ⟨-, hy⟩ <;> rcases mem_linked.1 hz with hz | ⟨-, hz⟩
    · rw [hold hy, hold hz] at he
      exact hs.inj i j y hy z hz he
    · rw [hold hy, hz, hnew] at he
      exact absurd he (hs.lt i y hy).ne
    · rw [hold hz, hy, hnew] at he
      exact absurd he.symm (hs.lt j z hz).ne
    · exact hy.trans hz.symm
  · rw [hgone] at hk
    rw [hsent]
    exact (hs.gone_lt k hk).trans s.sent.lt_succ_self
  · rw [hgone]
    rcases mem_linked.1 hy with hy | ⟨rfl, rfl⟩
    · rw [hold hy]
      exact hs.here i y hy
    · rw [hnew]
      exact fun hk => (hs.gone_lt _ hk).false
  · rw [hsent] at hk
    rw [hgone]
    rcases (Nat.lt_succ_iff_lt_or_eq.1 hk) with hk | rfl
    · refine (hs.kept k hk).imp id fun ⟨i, y, hy, he⟩ => ⟨i, y, ?_, (hold hy).trans he⟩
      exact mem_linked.2 (.inl hy)
    · exact .inr ⟨qp, mp, mem_linked.2 (.inr ⟨rfl, rfl⟩), hnew⟩

end Link

/-! ## The calls -/

/-- A process that does not get into `msgsnd` keeps the invariant. -/
theorem Inv.setProc (h : Inv v s l free) {p : ℕ} {pc : Proc}
    (hpc : ∀ a t qp, (pc = .sndType a qp ∨ pc = .sndWait a t qp ∨ pc = .sndCopy a t qp) →
      0 ≤ a.msgsz ∧ a.msgsz ≤ v.msgmax) : Inv v (s.setProc p pc) l free := by
  obtain ⟨hl, hs⟩ := h.core
  refine ⟨⟨⟨fun i => ⟨(hl.queue i).first, (hl.queue i).chained⟩, hl.last, hl.nodup, hl.apart,
    hl.used, hl.freed, hl.free_nodup, hl.free_lt, hl.qnum, hl.size, hl.removed⟩,
    ⟨hs.lt, hs.inj, hs.once, hs.gone_lt, hs.here, hs.kept⟩⟩, h.cbytes, h.limits, fun q a t qp => ?_⟩
  by_cases hq : q = p
  · subst hq
    simpa [State.setProc] using hpc a t qp
  · simpa [State.setProc, hq] using h.sizes q a t qp

/-- In particular one that ends its call. -/
theorem Inv.setProc_out (h : Inv v s l free) {p : ℕ} {pc : Proc} (hpc : pc.out = true) :
    Inv v (s.setProc p pc) l free :=
  h.setProc fun a t qp hp => by rcases hp with rfl | rfl | rfl <;> exact nomatch hpc

theorem Inv.setProc_failed (h : Inv v s l free) (p : ℕ) (e : Errno) :
    Inv v (s.setProc p (.failed e)) l free := h.setProc_out rfl

theorem Inv.bytes_nonneg (h : Inv v s l free) (i : ℕ) : 0 ≤ (s.msgque i).msg_cbytes := by
  rw [h.cbytes]
  exact MsgQueue.bytes_nonneg (h.core.lists.size i)

theorem Inv.put {p : ℕ} {a : Snd} {type : ℤ} (h : Inv v s l free)
    (halloc : (s.msgque qp).alloc = true) (hmax : v.msgmax < 2 ^ 15) (hsmall : v.msgtql < 2 ^ 16)
    (hsize : 0 ≤ a.msgsz ∧ a.msgsz ≤ v.msgmax)
    (hfit : a.msgsz + (s.msgque qp).msg_cbytes ≤ (s.msgque qp).msg_qbytes)
    (hs' : put p a type qp s = some s') :
    (∃ l free, Inv v s' l free) ∧ Fits s s' := by
  obtain ⟨mp, hfp, rfl⟩ := Option.map_eq_some_iff.1 hs'
  obtain ⟨free, rfl⟩ : ∃ free', free = mp :: free' := by
    have := h.core.lists.freed.1.symm.trans hfp
    cases free with
    | nil => exact nomatch this
    | cons b free => exact ⟨free, by rw [Option.some.inj this]⟩
  have hbytes := h.bytes_nonneg qp
  have hlimits := h.limits qp
  have hlists := h.core.lists
  have hcb : toUshort ((s.msgque qp).msg_cbytes + a.msgsz) = (s.msgque qp).msg_cbytes + a.msgsz :=
    toUshort_of_mem (by omega) (by omega)
  constructor
  · refine ⟨_, free, Inv.setProc_out ⟨⟨hlists.enqueue halloc hsmall ⟨hsize.1, by omega⟩,
      h.core.serials.enqueue hlists.links⟩, fun i => ?_, fun i => ?_, fun q a' t qp' => ?_⟩ rfl⟩
    · have hold {j : ℕ} : bytes (enqueue a type qp mp s).msgh (l j) = bytes s.msgh (l j) :=
        bytes_congr fun y hy => by rw [enqueue_msgh, if_neg (hlists.links.ne_of_mem hy)]
      by_cases hi : i = qp
      · subst hi
        rw [Function.update_self, enqueue_msgque, if_pos rfl, bytes_append, hold, ← h.cbytes]
        dsimp only
        rw [hcb, bytes, List.map_singleton, List.sum_singleton, enqueue_msgh, if_pos rfl]
        rw [toShort_of_mem (by omega) (by omega)]
      · rw [Function.update_of_ne hi, enqueue_msgque, if_neg hi, hold]
        exact h.cbytes i
    · by_cases hi : i = qp
      · rw [enqueue_msgque, if_pos hi]
        exact ⟨by dsimp only; omega, hlimits.2⟩
      · rw [enqueue_msgque, if_neg hi]
        exact h.limits i
    · rw [(enqueue_rest a type qp mp s).2.1]
      exact h.sizes q a' t qp'
  · intro i hi
    change ((enqueue a type qp mp s).msgque i).msg_cbytes ≤
      ((enqueue a type qp mp s).msgque i).msg_qbytes
    change _ < ((enqueue a type qp mp s).msgque i).msg_qnum at hi
    by_cases hqp : i = qp
    · rw [enqueue_msgque, if_pos hqp]
      dsimp only
      rw [hcb]
      omega
    · rw [enqueue_msgque, if_neg hqp] at hi
      exact absurd hi (lt_irrefl _)

/-- Taking a message off the queue leaves the bytes of the others. -/
theorem bytes_update {l₁ l₂ : List ℕ} {x : ℕ} {h : ℕ → Msg} (hl : l qp = l₁ ++ x :: l₂) :
    bytes h (Function.update l qp (l₁ ++ l₂) qp) = bytes h (l qp) - (h x).msg_ts := by
  rw [Function.update_self, hl, bytes_append, bytes_append, bytes_cons]
  omega

/-- Writing what is not about its messages keeps the lists of a queue. -/
theorem Links.setQueue {q : Msqid} (h : Links v s l free)
    (hfirst : q.msg_first = (s.msgque qp).msg_first)
    (hlast : q.msg_last = (s.msgque qp).msg_last) : Links v (s.setQueue qp q) l free := by
  refine ⟨fun i => ⟨?_, (h.queue i).chained⟩, fun i => ?_, h.nodup, h.apart, h.used, h.freed,
    h.free_nodup, h.free_lt⟩
  all_goals by_cases hqp : i = qp
  · rw [setQueue_msgque, if_pos hqp, hfirst, hqp]
    exact (h.queue qp).first
  · rw [setQueue_msgque, if_neg hqp]
    exact (h.queue i).first
  · rw [setQueue_msgque, if_pos hqp, hlast, hqp]
    exact h.last qp
  · rw [setQueue_msgque, if_neg hqp]
    exact h.last i

theorem Lists.setQueue {q : Msqid} (h : Lists v s l free)
    (hfirst : q.msg_first = (s.msgque qp).msg_first) (hlast : q.msg_last = (s.msgque qp).msg_last)
    (hqnum : q.msg_qnum = (s.msgque qp).msg_qnum) (halloc : q.alloc = false → l qp = []) :
    Lists v (s.setQueue qp q) l free := by
  refine (h.links.setQueue hfirst hlast).lists (fun i => ?_) h.size fun i hi => ?_
  all_goals by_cases hqp : i = qp
  · rw [setQueue_msgque, if_pos hqp, hqnum, hqp]
    exact h.qnum qp
  · rw [setQueue_msgque, if_neg hqp]
    exact h.qnum i
  · rw [setQueue_msgque, if_pos hqp] at hi
    exact hqp ▸ halloc hi
  · rw [setQueue_msgque, if_neg hqp] at hi
    exact h.removed i hi

theorem Serials.setQueue {q : Msqid} (h : Serials s l) : Serials (s.setQueue qp q) l :=
  ⟨h.lt, h.inj, h.once, h.gone_lt, h.here, h.kept⟩

/-- What `msgfree` leaves of the bytes of the queues. -/
theorem bytes_msgfree {l₁ l₂ : List ℕ} {x : ℕ} (hl : l qp = l₁ ++ x :: l₂) (i : ℕ) :
    bytes (msgfree qp pmp x fate s).msgh (Function.update l qp (l₁ ++ l₂) i) =
      bytes s.msgh (l i) - if i = qp then (s.msgh x).msg_ts else 0 := by
  rw [bytes_congr (h := s.msgh) fun y _ => by rw [msgfree_msgh]]
  by_cases hi : i = qp
  · subst hi
    rw [bytes_update hl, if_pos rfl]
  · rw [Function.update_of_ne hi, if_neg hi, sub_zero]

/-- A `msgrcv` takes its message off the queue. -/
theorem Inv.received {p : ℕ} {spmp : Option ℕ} {smp k : ℕ} {sz : ℤ} (h : Inv v s l free)
    (hsmall : v.msgtql < 2 ^ 16) (hb : Behind s qp spmp smp k) :
    (∃ l free, Inv v (received p qp spmp smp sz s) l free) ∧
      Fits s (received p qp spmp smp sz s) := by
  obtain ⟨l₁, l₂, hq, hlast, -⟩ := hb
  have hl := ((h.core.lists.queue qp).unique hq)
  -- The bytes are counted down before the message is unlinked.
  let s₁ := s.setQueue qp { s.msgque qp with
    msg_cbytes := toUshort ((s.msgque qp).msg_cbytes - (s.msgh smp).msg_ts) }
  have hlists : Lists v s₁ l free :=
    h.core.lists.setQueue rfl rfl rfl fun ha => h.core.lists.removed qp ha
  have hs₁ (i : ℕ) : s₁.msgque i = if i = qp then { s.msgque qp with
      msg_cbytes := toUshort ((s.msgque qp).msg_cbytes - (s.msgh smp).msg_ts) }
      else s.msgque i := setQueue_msgque ..
  have hqueue := msgfree_msgque s₁ qp spmp smp .received
  have hts := h.core.lists.size qp smp (hl ▸ List.mem_append_right _ List.mem_cons_self)
  have hcb : toUshort ((s.msgque qp).msg_cbytes - (s.msgh smp).msg_ts) =
      (s.msgque qp).msg_cbytes - (s.msgh smp).msg_ts := by
    have hle : bytes s.msgh (l qp) = bytes s.msgh (l₁ ++ l₂) + (s.msgh smp).msg_ts := by
      rw [hl, bytes_append, bytes_append, bytes_cons]
      omega
    have hnn : 0 ≤ bytes s.msgh (l₁ ++ l₂) := MsgQueue.bytes_nonneg fun y hy =>
      h.core.lists.size qp y (h.core.lists.links.mem_of_update hl (by rwa [Function.update_self])).1
    have hlt := h.core.lists.length_le qp
    have hcbytes := h.cbytes qp
    have := h.limits qp
    exact toUshort_of_mem (by omega) (by omega)
  constructor
  · refine ⟨_, _, Inv.setProc_out ⟨⟨hlists.msgfree hl hlast hsmall .received,
      h.core.serials.setQueue.msgfree hlists.links hl spmp .received⟩, fun i => ?_, fun i => ?_,
      fun q a t qp' hp => ?_⟩ rfl⟩
    · rw [bytes_msgfree hl, hqueue]
      by_cases hi : i = qp
      · subst hi
        rw [if_pos rfl, if_pos rfl, hs₁, if_pos rfl]
        dsimp only
        rw [hcb, h.cbytes]
        rfl
      · rw [if_neg hi, if_neg hi, hs₁, if_neg hi, sub_zero]
        exact h.cbytes i
    · rw [hqueue, hs₁, hs₁, if_pos rfl]
      have hlimits := h.limits qp
      by_cases hi : i = qp
      · rw [if_pos hi]
        exact ⟨by dsimp only; omega, hlimits.2⟩
      · rw [if_neg hi, if_neg hi]
        exact h.limits i
    · rw [msgfree_proc] at hp
      exact h.sizes q a t qp' hp
  · intro i hi
    change _ < ((msgfree qp spmp smp .received s₁).msgque i).msg_qnum at hi
    rw [hqueue, hs₁, hs₁, if_pos rfl] at hi
    by_cases hi' : i = qp
    · subst hi'
      have hlen := h.core.lists.length_le i
      have hqnum := h.core.lists.qnum i
      rw [if_pos rfl] at hi
      dsimp only at hi
      rw [hl] at hlen hqnum
      simp only [List.length_append, List.length_cons] at hlen hqnum
      rw [hqnum, toUshort_of_mem (by push_cast; omega) (by push_cast; omega)] at hi
      omega
    · rw [if_neg hi', if_neg hi'] at hi
      exact absurd hi (lt_irrefl _)

/-- `freeAll` empties a queue, and keeps what freeing the first message keeps. -/
theorem freeAll_rule (qp : ℕ) {P : State → (ℕ → List ℕ) → List ℕ → Prop}
    (hlinks : ∀ {s l free}, P s l free → Links v s l free)
    (hfree : ∀ {s l free x rest}, P s l free → l qp = x :: rest →
      P (msgfree qp none x .removed s) (Function.update l qp rest) (x :: free))
    {n : ℕ} (h : P s l free) (hn : (l qp).length ≤ n) :
    ∃ s' free', freeAll qp n s = some s' ∧ P s' (Function.update l qp []) free' := by
  induction hl : l qp generalizing s l free n with
  | nil =>
    have hfirst := ((hlinks h).queue qp).first
    rw [hl] at hfirst
    refine ⟨s, free, ?_, ?_⟩
    · unfold freeAll
      rw [hfirst]
      cases n <;> rfl
    · rwa [← hl, Function.update_eq_self]
  | cons x rest ih =>
    have hfirst := ((hlinks h).queue qp).first
    rw [hl] at hfirst hn
    obtain ⟨n, rfl⟩ : ∃ n', n = n' + 1 := ⟨n - 1, by simp at hn; omega⟩
    obtain ⟨s', free', hs', h'⟩ := ih (hfree h hl) (by simpa using hn) (Function.update_self ..)
    rw [Function.update_idem] at h'
    refine ⟨s', free', ?_, h'⟩
    unfold freeAll
    rw [hfirst]
    exact hs'

/-- It changes only links and counts of messages. -/
theorem freeAll_spec (qp : ℕ) {n : ℕ} (h : Lists v s l free) (hs : Serials s l)
    (hn : (l qp).length ≤ n) (hsmall : v.msgtql < 2 ^ 16) :
    ∃ s' free', freeAll qp n s = some s' ∧ Lists v s' (Function.update l qp []) free' ∧
      Serials s' (Function.update l qp []) ∧ s'.proc = s.proc ∧
      (∀ x, (s'.msgh x).msg_ts = (s.msgh x).msg_ts) ∧
      ∀ i, (s'.msgque i).msg_cbytes = (s.msgque i).msg_cbytes ∧
        (s'.msgque i).msg_qbytes = (s.msgque i).msg_qbytes := by
  refine freeAll_rule qp (P := fun s' l' free' => Lists v s' l' free' ∧ Serials s' l' ∧
    s'.proc = s.proc ∧ (∀ x, (s'.msgh x).msg_ts = (s.msgh x).msg_ts) ∧
    ∀ i, (s'.msgque i).msg_cbytes = (s.msgque i).msg_cbytes ∧
      (s'.msgque i).msg_qbytes = (s.msgque i).msg_qbytes) (fun h => h.1.links) ?_
    ⟨h, hs, rfl, fun _ => rfl, fun _ => ⟨rfl, rfl⟩⟩ hn
  rintro s' l' free' x rest ⟨h', hs', hproc, hts, hcounts⟩ hl
  have hl' : l' qp = [] ++ x :: rest := hl
  refine ⟨h'.msgfree hl' rfl hsmall .removed, hs'.msgfree h'.links hl' none .removed,
    (msgfree_proc ..).trans hproc, fun y => ?_, fun i => ?_⟩
  · rw [msgfree_msgh, ← hts]
  · rw [← (hcounts i).1, ← (hcounts i).2, msgfree_msgque]
    by_cases hi : i = qp
    · rw [if_pos hi, hi]
      exact ⟨rfl, rfl⟩
    · rw [if_neg hi]
      exact ⟨rfl, rfl⟩

/-- Removing a queue frees its messages. -/
theorem Inv.rmid {id : ℤ} (h : Inv v s l free) (hsmall : v.msgtql < 2 ^ 16)
    (hs' : rmid v id qp s = some s') : (∃ l free, Inv v s' l free) ∧ Fits s s' := by
  obtain ⟨s₁, free', hfree, hlists, hser, hproc, hts, hcounts⟩ :=
    freeAll_spec qp h.core.lists h.core.serials (h.core.lists.length_le qp) hsmall
  unfold MsgQueue.rmid at hs'
  rw [hfree] at hs'
  obtain rfl := Option.some.inj hs'
  constructor
  · refine ⟨_, free', ⟨hlists.setQueue rfl rfl rfl fun _ => Function.update_self .., hser.setQueue⟩,
      fun i => ?_, fun i => ?_, fun q a t qp' hp => h.sizes q a t qp' (hproc ▸ hp)⟩
    · by_cases hi : i = qp
      · subst hi
        rw [setQueue_msgque, if_pos rfl, Function.update_self]
        rfl
      · rw [setQueue_msgque, if_neg hi, Function.update_of_ne hi, (hcounts i).1, h.cbytes]
        exact (bytes_congr fun y _ => hts y).symm
    · by_cases hi : i = qp
      · rw [setQueue_msgque, if_pos hi]
        exact ⟨by simp, (hcounts qp).2 ▸ (h.limits qp).2⟩
      · rw [setQueue_msgque, if_neg hi, (hcounts i).1, (hcounts i).2]
        exact h.limits i
  · intro i hi
    have hqnum := hlists.qnum i
    by_cases hi' : i = qp
    · subst hi'
      rw [setQueue_msgque, if_pos rfl] at hi ⊢
      dsimp only at hi
      rw [hqnum, Function.update_self, h.core.lists.qnum] at hi
      exact absurd hi (by simp)
    · rw [setQueue_msgque, if_neg hi', hqnum, Function.update_of_ne hi', h.core.lists.qnum] at hi
      exact absurd hi (lt_irrefl _)

/-- A new queue has no messages. -/
theorem Inv.create (h : Inv v s l free) (halloc : (s.msgque qp).alloc = false) :
    Inv v (create v qp s) l free ∧ Fits s (create v qp s) := by
  have hnil := h.core.lists.removed qp halloc
  have hq := h.core.lists.queue qp
  have hfirst := hq.first
  have hlast := h.core.lists.last qp
  have hqnum := h.core.lists.qnum qp
  rw [hnil] at hfirst hlast hqnum
  constructor
  · refine ⟨⟨h.core.lists.setQueue hfirst.symm hlast.symm hqnum.symm fun _ => hnil,
      h.core.serials.setQueue⟩, fun i => ?_, fun i => ?_, h.sizes⟩
    · rw [MsgQueue.create, setQueue_msgque]
      split_ifs with hi
      · rw [hi]
        exact h.cbytes qp
      · exact h.cbytes i
    · rw [MsgQueue.create, setQueue_msgque]
      split_ifs with hi
      · exact ⟨(h.limits qp).1, Int.emod_lt_of_pos _ (by decide)⟩
      · exact h.limits i
  · intro i hi
    rw [MsgQueue.create, setQueue_msgque] at hi
    split_ifs at hi with hi'
    · rw [hi', hqnum] at hi
      exact absurd hi (lt_irrefl _)
    · exact absurd hi (lt_irrefl _)

theorem Inv.set (h : Inv v s l free) (qp : ℕ) (qbytes : ℤ) :
    Inv v (s.setQueue qp { s.msgque qp with msg_qbytes := toUshort qbytes }) l free := by
  refine ⟨⟨h.core.lists.setQueue rfl rfl rfl fun ha => h.core.lists.removed qp ha,
    h.core.serials.setQueue⟩, fun i => ?_, fun i => ?_, h.sizes⟩
  · rw [setQueue_msgque]
    split_ifs with hi
    · rw [hi]
      exact h.cbytes qp
    · exact h.cbytes i
  · rw [setQueue_msgque]
    split_ifs with hi
    · exact ⟨(h.limits qp).1, Int.emod_lt_of_pos _ (by decide)⟩
    · exact h.limits i

/-! ## Looking for a message -/

/-- The header `b.2` is in the list, behind `b.1`. -/
def Within (l : List ℕ) (b : Option ℕ × ℕ) : Prop :=
  ∃ l₁ l₂, l = l₁ ++ b.2 :: l₂ ∧ l₁.getLast? = b.1

theorem Found.within {msgtyp : ℤ} {m : ℕ → Msg} {l : List ℕ} {b : Option ℕ × ℕ}
    (hf : Found m msgtyp l (some b)) : Within l b := by
  obtain ⟨l₁, l₂, hl, hlast, -⟩ := hf
  exact ⟨l₁, l₂, hl, hlast⟩

/-- A call always finds out which message of the queue it receives. -/
theorem OnQueue.select {qp : ℕ} {l : List ℕ} (hq : OnQueue s qp l) (hn : l.length ≤ v.msgtql)
    (msgtyp : ℤ) : ∃ best, select v qp msgtyp s = some best ∧
      if msgtyp = 0 then best = l.head?.map (Prod.mk none) else Found s.msgh msgtyp l best := by
  unfold MsgQueue.select
  dsimp only
  rw [hq.first]
  by_cases h0 : msgtyp = 0
  · rw [if_pos h0]
    exact ⟨_, rfl, (if_pos h0).mpr rfl⟩
  · rw [if_neg h0]
    have hf : Found s.msgh msgtyp [] none := fun y hy => absurd hy List.not_mem_nil
    obtain ⟨best, hbest, hf⟩ := findmsg_found [] h0 hq.chained hn hf fun _ => rfl
    exact ⟨best, hbest, (if_neg h0).mpr hf⟩

theorem Lists.select (h : Lists v s l free) (qp : ℕ) (msgtyp : ℤ) :
    ∃ best, select v qp msgtyp s = some best ∧ ∀ b ∈ best, Within (l qp) b := by
  obtain ⟨best, hbest, hf⟩ := (h.queue qp).select (h.length_le qp) msgtyp
  refine ⟨best, hbest, fun b hb => ?_⟩
  split_ifs at hf
  · obtain ⟨x, hx, rfl⟩ := Option.map_eq_some_iff.1 (hf.symm.trans hb)
    obtain ⟨l', hl'⟩ := List.head?_eq_some_iff.1 hx
    exact ⟨[], l', hl', rfl⟩
  · rw [Option.mem_def.1 hb] at hf
    exact hf.within

/-- So does `msgrcv`, and it begins to copy a message that is on the queue, behind
    the same one as when it was found. -/
theorem Inv.receive (h : Inv v s l free) (p : ℕ) (a : Rcv) (qp : ℕ) :
    ∃ s', receive v p a qp s = some s' ∧ Inv v s' l free ∧ Fits s s' ∧
      ∀ qp' spmp smp sz k, s'.proc p = .rcvCopy qp' spmp smp sz k → Behind s' qp' spmp smp k := by
  have hproc (pc : Proc) : (s.setProc p pc).proc p = pc := Function.update_self ..
  have hfits (pc : Proc) : Fits s (s.setProc p pc) := fun i hi => absurd hi (lt_irrefl _)
  have hout {pc : Proc} (hpc : ∀ qp' spmp smp sz k, pc ≠ .rcvCopy qp' spmp smp sz k) :
      ∀ qp' spmp smp sz k, (s.setProc p pc).proc p = .rcvCopy qp' spmp smp sz k →
        Behind (s.setProc p pc) qp' spmp smp k :=
    fun qp' spmp smp sz k he => absurd ((hproc pc).symm.trans he) (hpc qp' spmp smp sz k)
  unfold MsgQueue.receive
  by_cases hid : msgconv v a.msqid s ≠ some qp
  · rw [if_pos hid]
    exact ⟨_, rfl, h.setProc_failed p _, hfits _, hout nofun⟩
  · rw [if_neg hid]
    obtain ⟨best, hbest, hin⟩ := h.core.lists.select qp a.msgtyp
    rw [hbest]
    cases best with
    | none =>
      dsimp only [Option.map_some]
      split_ifs
      · exact ⟨_, rfl, h.setProc_failed p _, hfits _, hout nofun⟩
      · exact ⟨_, rfl, h.setProc nofun, hfits _, hout nofun⟩
    | some b =>
      obtain ⟨spmp, smp⟩ := b
      obtain ⟨l₁, l₂, hl, hlast⟩ := hin _ rfl
      have hq := h.core.lists.queue qp
      rw [hl] at hq
      have hcopy (sz : ℤ) : ∀ qp' spmp' smp' sz' k,
          (s.setProc p (.rcvCopy qp spmp smp sz (s.msgh smp).serial)).proc p =
            .rcvCopy qp' spmp' smp' sz' k →
          Behind (s.setProc p (.rcvCopy qp spmp smp sz (s.msgh smp).serial)) qp' spmp' smp' k := by
        intro qp' spmp' smp' sz' k he
        obtain ⟨rfl, rfl, rfl, -, rfl⟩ := Proc.rcvCopy.inj ((hproc _).symm.trans he)
        exact ⟨l₁, l₂, ⟨hq.first, hq.chained⟩, hlast, rfl⟩
      dsimp only [Option.map_some]
      split_ifs
      · exact ⟨_, rfl, h.setProc nofun, hfits _, hcopy _⟩
      · exact ⟨_, rfl, h.setProc_failed p _, hfits _, hout nofun⟩
      · exact ⟨_, rfl, h.setProc nofun, hfits _, hcopy _⟩

/-! ## Runs -/

theorem msgconv_alloc {id : ℤ} (h : msgconv v id s = some qp) : (s.msgque qp).alloc = true := by
  unfold msgconv at h
  dsimp only at h
  split_ifs at h with _ hq
  obtain rfl := Option.some.inj h
  exact Bool.not_eq_false _ ▸ fun ha => hq (.inl ha)

/-- The invariant holds again, and what is put on a queue fits. -/
def Keeps (v : Config) (s s' : State) : Prop := (∃ l free, Inv v s' l free) ∧ Fits s s'

theorem Inv.keeps_setProc (h : Inv v s l free) {p : ℕ} {pc : Proc}
    (hpc : ∀ a t qp, (pc = .sndType a qp ∨ pc = .sndWait a t qp ∨ pc = .sndCopy a t qp) →
      0 ≤ a.msgsz ∧ a.msgsz ≤ v.msgmax) : Keeps v s (s.setProc p pc) :=
  ⟨⟨l, free, h.setProc hpc⟩, fun _ hi => absurd hi (lt_irrefl _)⟩

theorem Inv.keeps_failed (h : Inv v s l free) (p : ℕ) (e : Errno) :
    Keeps v s (s.setProc p (.failed e)) := h.keeps_setProc nofun

/-- A message that has what it needs is put on the queue or copied in first. -/
theorem Inv.getres {p : ℕ} {a : Snd} {type : ℤ} {spot : Bool} (h : Inv v s l free)
    (hmax : v.msgmax < 2 ^ 15) (hsmall : v.msgtql < 2 ^ 16)
    (hsize : 0 ≤ a.msgsz ∧ a.msgsz ≤ v.msgmax) (hs' : getres v p a type qp spot s = some s') :
    Keeps v s s' := by
  have hsnd {pc : Proc} (hpc : pc = .sndWait a type qp ∨ pc = .sndCopy a type qp) :
      ∀ a t qp, (pc = .sndType a qp ∨ pc = .sndWait a t qp ∨ pc = .sndCopy a t qp) →
        0 ≤ a.msgsz ∧ a.msgsz ≤ v.msgmax := by
    rintro a' t qp' he
    obtain rfl : a' = a := by rcases hpc with rfl | rfl <;> simp_all
    exact hsize
  unfold MsgQueue.getres at hs'
  dsimp only at hs'
  by_cases hid : msgconv v a.msqid s ≠ some qp
  · rw [if_pos hid] at hs'
    exact Option.some.inj hs' ▸ h.keeps_failed p _
  · rw [if_neg hid] at hs'
    split_ifs at hs' with hres hwait hcopy
    · exact Option.some.inj hs' ▸ h.keeps_failed p _
    · exact Option.some.inj hs' ▸ h.keeps_setProc (hsnd (.inl rfl))
    · exact Option.some.inj hs' ▸ h.keeps_setProc (hsnd (.inr rfl))
    · exact h.put (msgconv_alloc (not_not.1 hid)) hmax hsmall hsize
        (not_lt.1 fun hlt => hres (.inl hlt)) hs'

theorem Inv.step {a : Action} (h : Inv v s l free) (hclean : a.Clean v s)
    (hs' : (msgs v).next s a = some s') : Keeps v s s' := by
  obtain ⟨hmax, hsmall, hclean⟩ := hclean
  change next v s a = some s' at hs'
  unfold next at hs'
  cases a with
  | msgsnd p a access =>
    dsimp only at hs'
    split_ifs at hs'
    obtain rfl := Option.some.inj hs'
    unfold msgsnd
    split
    · exact h.keeps_failed p _
    · exact h.keeps_failed p _
    · split_ifs with hsize
      · exact h.keeps_failed p _
      · refine h.keeps_setProc fun a' t qp' he => ?_
        obtain rfl : a' = a := by simp_all
        omega
  | sndType p type spot =>
    dsimp only at hs'
    split at hs'
    · exact Option.some.inj hs' ▸ h.keeps_failed p _
    · rename_i a qp type hp
      split_ifs at hs'
      · exact Option.some.inj hs' ▸ h.keeps_failed p _
      · exact h.getres hmax hsmall (h.sizes p a type qp (.inl hp)) hs'
    · exact nomatch hs'
  | sndWait p signal spot =>
    dsimp only at hs'
    split at hs'
    · exact Option.some.inj hs' ▸ h.keeps_failed p _
    · rename_i a type qp hp
      exact h.getres hmax hsmall (h.sizes p a type qp (.inr (.inl hp))) hs'
    · exact nomatch hs'
  | sndCopy p error =>
    dsimp only at hs'
    split at hs'
    · exact Option.some.inj hs' ▸ h.keeps_failed p _
    · rename_i a type qp hp
      obtain ⟨hid, -, hfit⟩ := hclean a type qp hp
      exact h.put (msgconv_alloc hid) hmax hsmall (h.sizes p a type qp (.inr (.inr hp))) hfit hs'
    · exact nomatch hs'
  | msgrcv p a access =>
    dsimp only at hs'
    split_ifs at hs'
    unfold msgrcv at hs'
    split at hs'
    · exact Option.some.inj hs' ▸ h.keeps_failed p _
    · exact Option.some.inj hs' ▸ h.keeps_failed p _
    · rename_i qp _
      split_ifs at hs'
      · exact Option.some.inj hs' ▸ h.keeps_failed p _
      · obtain ⟨t, ht, hinv, hfits, -⟩ := h.receive p a qp
        obtain rfl := Option.some.inj (ht.symm.trans hs')
        exact ⟨⟨l, free, hinv⟩, hfits⟩
  | rcvWait p signal =>
    dsimp only at hs'
    split at hs'
    · exact Option.some.inj hs' ▸ h.keeps_failed p _
    · rename_i a qp hp
      obtain ⟨t, ht, hinv, hfits, -⟩ := h.receive p a qp
      obtain rfl := Option.some.inj (ht.symm.trans hs')
      exact ⟨⟨l, free, hinv⟩, hfits⟩
    · exact nomatch hs'
  | rcvCopy p error =>
    dsimp only at hs'
    split at hs'
    · exact Option.some.inj hs' ▸ h.keeps_failed p _
    · rename_i qp spmp smp sz k hp
      exact Option.some.inj hs' ▸ h.received hsmall (hclean qp spmp smp sz k hp)
    · exact nomatch hs'
  | rmid id =>
    obtain ⟨qp, -, hs'⟩ := Option.bind_eq_some_iff.1 hs'
    exact h.rmid hsmall hs'
  | set qp qbytes =>
    obtain rfl := Option.some.inj hs'
    refine ⟨⟨l, free, h.set qp qbytes⟩, fun i hi => ?_⟩
    rw [setQueue_msgque] at hi
    by_cases hqp : i = qp
    · rw [if_pos hqp, hqp] at hi
      exact absurd hi (lt_irrefl _)
    · rw [if_neg hqp] at hi
      exact absurd hi (lt_irrefl _)
  | msgget qp =>
    dsimp only at hs'
    split_ifs at hs' with hq
    obtain rfl := Option.some.inj hs'
    obtain ⟨hinv, hfits⟩ := h.create hq.2
    exact ⟨⟨l, free, hinv⟩, hfits⟩

/-- At first all headers are free. -/
theorem Inv.init (v : Config) : Inv v (.init v) (fun _ => []) (List.range v.msgtql) := by
  have hchain (k n : ℕ) (hkn : k + n = v.msgtql) :
      Chained (fun i => if i + 1 < v.msgtql then some (i + 1) else none) (List.range' k n) := by
    induction n generalizing k with
    | zero => trivial
    | succ n ih =>
      refine ⟨?_, ih (k + 1) (by omega)⟩
      cases n with
      | zero => exact if_neg (by omega)
      | succ n => exact if_pos (by omega)
  refine ⟨⟨⟨fun i => ⟨rfl, trivial⟩, fun _ => rfl, fun _ => List.nodup_nil, nofun, nofun, ⟨?_, ?_⟩,
    List.nodup_range, fun x hx => List.mem_range.1 hx, fun _ => rfl, nofun, fun _ _ => rfl⟩,
    ⟨nofun, nofun, List.nodup_nil, nofun, nofun, nofun⟩⟩, fun _ => rfl, fun _ => ?_, nofun⟩
  · obtain ⟨n, hn⟩ := Nat.exists_eq_succ_of_ne_zero v.msgtql_pos.ne'
    rw [hn, List.range_succ_eq_map]
    rfl
  · rw [List.range_eq_range']
    exact hchain 0 v.msgtql (zero_add _)
  · simp [State.init]

/-- The invariant holds in every run. -/
theorem exists_inv (hs : (msgs v).ReachableIf (fun s a => a.Clean v s) s) :
    ∃ l free, Inv v s l free := by
  refine hs.invariant (P := fun s => ∃ l free, Inv v s l free) ?_ ?_
  · rintro s rfl
    exact ⟨_, _, Inv.init v⟩
  · rintro s a s' ⟨l, free, h⟩ hok hn
    exact (h.step hok hn).1

end Steps

/-- The walks along the queues end, and a message is where it was found as long as
    nothing else happens. -/
theorem receive_behind (v : Config) (s : State)
    (hs : (msgs v).ReachableIf (fun s a => a.Clean v s) s) (p : ℕ) (a : Rcv) (qp : ℕ) :
    ∃ s', receive v p a qp s = some s' ∧ ∀ qp' spmp smp sz k,
      s'.proc p = .rcvCopy qp' spmp smp sz k → Behind s' qp' spmp smp k := by
  obtain ⟨l, free, h⟩ := exists_inv hs
  obtain ⟨s', hs', -, -, hb⟩ := h.receive p a qp
  exact ⟨s', hs', hb⟩

/-! ## A message received twice -/

/-- One queue, and two headers. -/
def smallConfig : Config := ⟨16, 64, 1, 2, by decide, by decide⟩

/-- A message of no bytes on the only queue. -/
def oneMsg : List Action :=
  [.msgget 0, .msgsnd 0 ⟨0, 0, false⟩ none, .sndType 0 (some 1) true]

end AuxKernel.MsgQueue
