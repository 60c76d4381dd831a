import AuxKernel.Stream.Links

/-!
# The order of a queue

The messages on a queue are in the order of their classes and, as they were put
there, within a class (`Sound`). They are doubly linked, and the count of the
queue is their size.

But the count is a `short`, and nothing keeps the size of the messages within it:
it gets negative, and the queue is not full (`not_queue_sound`). If all messages put on
the queue fit into it, the queue is sound in every run, and no call gets lost
(`queue_sound`).
-/

namespace AuxKernel.Stream

open ClassQueue

/-! ## Classes -/

theorem typeclass_mem (t : BitVec 8) : typeclass t ∈ classes := by
  revert t
  decide

theorem classes_nodup : classes.Nodup := by decide

theorem classes_sorted : classes.Pairwise (· > ·) := by decide

/-- Where the class `c` stands: what is before and after it. -/
theorem classes_split {c : ℕ} (hc : c ∈ classes) : ∃ hi lo, classes = hi ++ c :: lo ∧
    (∀ d ∈ hi, c < d) ∧ ∀ d ∈ lo, d < c := by
  obtain ⟨hi, lo, he⟩ := List.append_of_mem hc
  have hp := classes_sorted
  rw [he] at hp
  obtain ⟨-, hlo, hhi⟩ := List.pairwise_append.1 hp
  exact ⟨hi, lo, he, fun d hd => hhi d hd c List.mem_cons_self, (List.pairwise_cons.1 hlo).1⟩

/-! ## The invariant -/

/-- The size of messages. -/
def total (l : List Msg) : ℤ := (l.map Msg.size).sum

theorem total_cons (x : Msg) (l : List Msg) : total (x :: l) = x.size + total l := by
  simp [total]

/-- A message off the queue: it is in memory, and shares no block with one on it. -/
structure Fresh (v : Config) (m : Mem) (l : List Msg) (x : Msg) : Prop where
  holds : m.Holds x
  nodup : x.blocks.Nodup
  lt : ∀ a ∈ x.blocks, a < v.nmblock
  apart : ∀ y ∈ l, ∀ a ∈ x.blocks, a ∉ y.blocks

/-- What is not on the queue may change, and so may the blocks but for what the
    messages on the queue are. -/
structure Keeps (m m' : Mem) (q q' : Queue) (l : List Msg) : Prop where
  same : ∀ x ∈ l, ∀ a ∈ x.blocks, SameBlock m m' a
  next : ∀ x ∈ l, (m'.mblk x.bp).b_next = (m.mblk x.bp).b_next
  prev : ∀ x ∈ l, (m'.mblk x.bp).b_prev = (m.mblk x.bp).b_prev
  first : q'.q_first = q.q_first
  last : q'.q_last = q.q_last
  count : q'.q_count = q.q_count
  hiwat : q'.q_hiwat = q.q_hiwat
  full : q'.qfull = q.qfull

/-- The queue is sound. -/
structure Sound (s : Run) : Prop where
  ordered : s.msgs.Pairwise fun x y => x.cls ≥ y.cls
  linked : OnQueue s.st.mem s.st.q (s.msgs.map Msg.bp)
  holds : ∀ x ∈ s.msgs, s.st.mem.Holds x
  nodup : (s.msgs.flatMap Msg.blocks).Nodup
  count : s.st.q.q_count = total s.msgs
  full : s.st.q.qfull = true ↔ s.st.q.q_hiwat ≤ s.st.q.q_count

/-- The invariant of the queue. -/
structure Inv (v : Config) (m : Mem) (q : Queue) (queued : ℕ → List Msg) : Prop where
  classed : Classed Msg.cls queued
  linked : OnQueue m q ((flat classes queued).map Msg.bp)
  holds : ∀ x ∈ flat classes queued, m.Holds x
  nodup : ((flat classes queued).flatMap Msg.blocks).Nodup
  lt : ∀ x ∈ flat classes queued, ∀ a ∈ x.blocks, a < v.nmblock
  count : q.q_count = total (flat classes queued)
  short : total (flat classes queued) < 2 ^ 15
  full : q.qfull = true ↔ q.q_hiwat ≤ q.q_count
  hiwat : 0 < q.q_hiwat

section Steps

variable {v : Config} {m m' : Mem} {q q' : Queue} {queued queued' : ℕ → List Msg}

theorem Inv.sound {s : Run} (h : Inv v s.st.mem s.st.q s.queued) : Sound s :=
  ⟨flat_pairwise (R := fun c d => c ≥ d) (fun _ => le_rfl) h.classed
    (classes_sorted.imp le_of_lt), h.linked, h.holds, h.nodup, h.count, h.full⟩

theorem Inv.keeps (h : Inv v m q queued) (hk : Keeps m m' q q' (flat classes queued)) :
    Inv v m' q' queued := by
  have hbp (a : ℕ) (ha : a ∈ (flat classes queued).map Msg.bp) :
      (m'.mblk a).b_next = (m.mblk a).b_next ∧ (m'.mblk a).b_prev = (m.mblk a).b_prev := by
    obtain ⟨x, hx, rfl⟩ := List.mem_map.1 ha
    exact ⟨hk.next x hx, hk.prev x hx⟩
  refine ⟨h.classed, ⟨hk.first.trans h.linked.first, hk.last.trans h.linked.last,
    h.linked.linked.congr (fun a ha => (hbp a ha).1) fun a ha => (hbp a ha).2⟩,
    fun x hx => (h.holds x hx).congr (hk.same x hx), h.nodup, h.lt, hk.count.trans h.count,
    h.short, ?_, hk.hiwat ▸ h.hiwat⟩
  rw [hk.full, hk.hiwat, hk.count]
  exact h.full

/-- It only matters what is on the queue in all. -/
theorem Inv.of_flat (h : Inv v m q queued) (hc : Classed Msg.cls queued')
    (he : flat classes queued' = flat classes queued) : Inv v m q queued' := by
  refine ⟨hc, ?_, ?_, ?_, ?_, ?_, ?_, h.full, h.hiwat⟩ <;> rw [he]
  exacts [h.linked, h.holds, h.nodup, h.lt, h.count, h.short]

/-- An empty queue is sound. -/
theorem Inv.empty (hf : q.q_first = none) (hl : q.q_last = none) (hc : q.q_count = 0)
    (hn : q.qfull = false) (hw : 0 < q.q_hiwat) : Inv v m q fun _ => [] := by
  have hflat : flat classes (fun _ => ([] : List Msg)) = [] := rfl
  refine ⟨nofun, ?_, ?_, ?_, ?_, ?_, ?_, ?_, hw⟩ <;> try rw [hflat]
  · exact ⟨hf, hl, trivial⟩
  · exact nofun
  · exact .nil
  · exact nofun
  · exact hc
  · decide
  · rw [hn, hc]
    simpa using hw

theorem total_nonneg {l : List Msg} (h : ∀ x ∈ l, m.Holds x) : 0 ≤ total l := by
  refine List.sum_nonneg fun k hk => ?_
  obtain ⟨x, hx, rfl⟩ := List.mem_map.1 hk
  exact (h x hx).size_nonneg

theorem bp_sublist (l : List Msg) : (l.map Msg.bp).Sublist (l.flatMap Msg.blocks) := by
  induction l with
  | nil => exact .slnil
  | cons x l ih =>
    rw [List.map_cons, List.flatMap_cons]
    exact (List.Sublist.append (List.nil_sublist x.conts) ih).cons_cons x.bp

theorem Inv.nodup_bp (h : Inv v m q queued) : ((flat classes queued).map Msg.bp).Nodup :=
  h.nodup.sublist (bp_sublist _)

theorem Inv.lt_bp (h : Inv v m q queued) :
    ∀ a ∈ (flat classes queued).map Msg.bp, a < v.nmblock := by
  intro a ha
  obtain ⟨x, hx, rfl⟩ := List.mem_map.1 ha
  exact h.lt x hx x.bp List.mem_cons_self

/-! ## Putting -/

@[simp] theorem qenable_mem (i : ℕ) (s : State) : (qenable v i s).mem = s.mem := by
  unfold qenable
  split_ifs <;> rfl

@[simp] theorem qenable_q (i : ℕ) (s : State) : (qenable v i s).q = s.q := by
  unfold qenable
  split_ifs <;> rfl

@[simp] theorem enableBack_mem (s : State) : (enableBack v s).mem = s.mem := by
  unfold enableBack
  split <;> simp

@[simp] theorem enableBack_q (s : State) : (enableBack v s).q = s.q := by
  unfold enableBack
  split <;> simp

/-- A message is put in between `l₁` and `l₂`. -/
theorem Inv.put {x : Msg} {l₁ l₂ : List Msg} {s : State} (h : Inv v s.mem s.q queued)
    (hx : Fresh v s.mem (flat classes queued) x)
    (hfit : total (flat classes queued) + x.size < 2 ^ 15)
    (hsplit : flat classes queued = l₁ ++ l₂) (hflat : flat classes queued' = l₁ ++ x :: l₂)
    (hcls : Classed Msg.cls queued')
    (hq : OnQueue m' q' (l₁.map Msg.bp ++ x.bp :: l₂.map Msg.bp))
    (hr : Relinked s.mem m' s.q q' (l₁.map Msg.bp ++ x.bp :: l₂.map Msg.bp)) :
    ∃ st, putCount v x.cls x.bp { s with mem := m', q := q' } = some st ∧
      Inv v st.mem st.q queued' ∧ st.mem = m' := by
  have hnn := total_nonneg h.holds
  have hcount : q'.q_count = total (flat classes queued) := by
    rw [hr.queue]
    exact h.count
  have hx' : m'.Holds x := hx.holds.congr fun a _ => hr.same a
  have hsize := hx'.size_nonneg
  have hadd : addsize 1 m' v.nmblock (some x.bp) q'.q_count =
      some (total (flat classes queued) + x.size) := by
    have hlen := length_le_of_nodup hx.nodup hx.lt
    have := addsize_spec (c := q'.q_count) (.inl rfl) hlen hx'.chain hx'.sizes (by omega)
      (by omega) (by rw [Msg.size] at hsize; omega) (by rw [Msg.size] at hfit; omega)
    rw [one_mul, hcount] at this
    rw [hcount]
    exact this
  -- The queue with its new count; enabling it does not matter.
  obtain ⟨st, hst, hmem, hqst⟩ : ∃ st, putCount v x.cls x.bp { s with mem := m', q := q' } = some st ∧
      st.mem = m' ∧ st.q = { q' with
        q_count := total (flat classes queued) + x.size
        qfull := q'.qfull || total (flat classes queued) + x.size ≥ q'.q_hiwat } := by
    unfold putCount
    dsimp only
    rw [hadd]
    refine ⟨_, rfl, ?_, ?_⟩ <;> dsimp only <;> split_ifs <;> simp
  have hperm : (l₁ ++ x :: l₂).Perm (x :: flat classes queued) := by
    rw [hsplit]
    exact List.perm_middle
  have htotal : total (l₁ ++ x :: l₂) = total (flat classes queued) + x.size := by
    rw [total, (hperm.map Msg.size).sum_eq, ← total, total_cons, add_comm]
  have hmemx (y : Msg) (hy : y ∈ flat classes queued') : y = x ∨ y ∈ flat classes queued := by
    rw [hflat] at hy
    exact List.mem_cons.1 (hperm.subset hy)
  refine ⟨st, hst, ?_, hmem⟩
  rw [hmem, hqst]
  refine ⟨hcls, ?_, fun y hy => ?_, ?_, fun y hy => ?_, ?_, ?_, ?_, ?_⟩
  · rw [hflat, List.map_append]
    exact ⟨hq.first, hq.last, hq.linked⟩
  · rcases hmemx y hy with rfl | hy
    · exact hx'
    · exact (h.holds y hy).congr fun a _ => hr.same a
  · rw [hflat, (hperm.flatMap_right Msg.blocks).nodup_iff, List.flatMap_cons, List.nodup_append]
    refine ⟨hx.nodup, h.nodup, fun a ha b hb hab => ?_⟩
    obtain ⟨y, hy, hby⟩ := List.mem_flatMap.1 hb
    exact hx.apart y hy a ha (hab ▸ hby)
  · rcases hmemx y hy with rfl | hy
    · exact hx.lt
    · exact h.lt y hy
  · rw [hflat, htotal]
  · rw [hflat, htotal]
    exact hfit
  · have hfull := h.full
    rw [h.count] at hfull
    rw [hr.queue]
    simp only [Bool.or_eq_true, decide_eq_true_eq, hfull]
    omega
  · rw [hr.queue]
    exact h.hiwat

theorem Fresh.not_mem {x : Msg} {l : List Msg} (hx : Fresh v m l x) : x.bp ∉ l.map Msg.bp := by
  intro hm
  obtain ⟨y, hy, he⟩ := List.mem_map.1 hm
  exact hx.apart y hy x.bp List.mem_cons_self (by rw [← he]; exact List.mem_cons_self)

/-- The class of the message with the first block `a`. -/
theorem Inv.exists_cls (h : Inv v m q queued) : ∃ cls : ℕ → ℕ,
    (∀ x ∈ flat classes queued, cls x.bp = x.cls) ∧
      ∀ a ∈ (flat classes queued).map Msg.bp, queclass m a = some (cls a) := by
  have hcls (x : Msg) (hx : x ∈ flat classes queued) : (queclass m x.bp).getD 0 = x.cls := by
    rw [(h.holds x hx).queclass]
    rfl
  refine ⟨fun a => (queclass m a).getD 0, hcls, fun a ha => ?_⟩
  obtain ⟨x, hx, rfl⟩ := List.mem_map.1 ha
  show queclass m x.bp = some ((queclass m x.bp).getD 0)
  rw [hcls x hx]
  exact (h.holds x hx).queclass

/-- The links and messages after a message `x` was put on the queue. -/
structure Put (v : Config) (x : Msg) (s st : State) (queued queued' : ℕ → List Msg) : Prop where
  inv : Inv v st.mem st.q queued'
  same : ∀ a, SameBlock s.mem st.mem a
  next : ∀ a, a ≠ x.bp → a ∉ (flat classes queued).map Msg.bp →
    (st.mem.mblk a).b_next = (s.mem.mblk a).b_next

/-- `putq` puts a message behind all of its class. -/
theorem Inv.putq {x : Msg} {s : State} (h : Inv v s.mem s.q queued)
    (hx : Fresh v s.mem (flat classes queued) x)
    (hfit : total (flat classes queued) + x.size < 2 ^ 15) :
    ∃ st, putq v x.bp s = some st ∧ Put v x s st queued (enqueue queued x.cls x) := by
  obtain ⟨hi, lo, he, hhi, hlo⟩ := classes_split (typeclass_mem x.db_type)
  have hnodup := he ▸ classes_nodup
  have hsplit : flat classes queued = (flat hi queued ++ queued x.cls) ++ flat lo queued := by
    rw [he, flat_append, flat_cons, List.append_assoc]
    rfl
  have hflat : flat classes (enqueue queued x.cls x) =
      (flat hi queued ++ queued x.cls) ++ x :: flat lo queued := by
    rw [he]
    exact flat_enqueue hnodup
  have hmap : (flat classes queued).map Msg.bp =
      (flat hi queued ++ queued x.cls).map Msg.bp ++ (flat lo queued).map Msg.bp := by
    rw [hsplit, List.map_append]
  obtain ⟨cls, hcls, hquec⟩ := h.exists_cls
  have hbp := hx.not_mem
  have hlen := length_le_of_nodup h.nodup_bp h.lt_bp
  have hq := h.linked
  have hnd := h.nodup_bp
  rw [hmap] at hq hnd hbp hlen hquec
  have hge : ∀ a ∈ (flat hi queued ++ queued x.cls).map Msg.bp, x.cls ≤ cls a := by
    intro a ha
    obtain ⟨y, hy, rfl⟩ := List.mem_map.1 ha
    rw [hcls y (hsplit ▸ List.mem_append_left _ hy)]
    rcases List.mem_append.1 hy with hy | hy
    · obtain ⟨d, hd, hy⟩ := mem_flat.1 hy
      rw [h.classed d y hy]
      exact (hhi d hd).le
    · exact (h.classed _ y hy).ge
  have hlt : ∀ a ∈ (flat lo queued).map Msg.bp, cls a < x.cls := by
    intro a ha
    obtain ⟨y, hy, rfl⟩ := List.mem_map.1 ha
    rw [hcls y (hsplit ▸ List.mem_append_right _ hy)]
    obtain ⟨d, hd, hy⟩ := mem_flat.1 hy
    rw [h.classed d y hy]
    exact hlo d hd
  obtain ⟨m', q', hlink, hq', hr⟩ := putLink_spec hq hnd hbp hlen hquec hge hlt
  obtain ⟨st, hst, hinv, hmem⟩ := h.put hx hfit hsplit hflat (h.classed.enqueue x) hq' hr
  refine ⟨st, ?_, hinv, fun a => hmem ▸ hr.same a, fun a ha hm => ?_⟩
  · simp only [Stream.putq, hx.holds.queclass, hlink, Option.bind_eq_bind, Option.bind_some, hst]
  · rw [hmem]
    refine hr.next a fun hm' => hm ?_
    rw [hmap]
    simpa [ha] using hm'

/-- `putbq` puts a message before all of its class. -/
theorem Inv.putbq {x : Msg} {s : State} (h : Inv v s.mem s.q queued)
    (hx : Fresh v s.mem (flat classes queued) x)
    (hfit : total (flat classes queued) + x.size < 2 ^ 15) :
    ∃ st, putbq v x.bp s = some st ∧ Inv v st.mem st.q (requeue queued x.cls x) := by
  obtain ⟨hi, lo, he, hhi, hlo⟩ := classes_split (typeclass_mem x.db_type)
  have hnodup := he ▸ classes_nodup
  have hsplit : flat classes queued = flat hi queued ++ (queued x.cls ++ flat lo queued) := by
    rw [he, flat_append, flat_cons]
    rfl
  have hflat : flat classes (requeue queued x.cls x) =
      flat hi queued ++ x :: (queued x.cls ++ flat lo queued) := by
    rw [he]
    exact flat_requeue hnodup
  have hmap : (flat classes queued).map Msg.bp =
      (flat hi queued).map Msg.bp ++ (queued x.cls ++ flat lo queued).map Msg.bp := by
    rw [hsplit, List.map_append]
  obtain ⟨cls, hcls, hquec⟩ := h.exists_cls
  have hbp := hx.not_mem
  have hlen := length_le_of_nodup h.nodup_bp h.lt_bp
  have hq := h.linked
  have hnd := h.nodup_bp
  rw [hmap] at hq hnd hbp hlen hquec
  have hgt : ∀ a ∈ (flat hi queued).map Msg.bp, x.cls < cls a := by
    intro a ha
    obtain ⟨y, hy, rfl⟩ := List.mem_map.1 ha
    rw [hcls y (hsplit ▸ List.mem_append_left _ hy)]
    obtain ⟨d, hd, hy⟩ := mem_flat.1 hy
    rw [h.classed d y hy]
    exact hhi d hd
  have hle : ∀ a ∈ (queued x.cls ++ flat lo queued).map Msg.bp, cls a ≤ x.cls := by
    intro a ha
    obtain ⟨y, hy, rfl⟩ := List.mem_map.1 ha
    rw [hcls y (hsplit ▸ List.mem_append_right _ hy)]
    rcases List.mem_append.1 hy with hy | hy
    · exact (h.classed _ y hy).le
    · obtain ⟨d, hd, hy⟩ := mem_flat.1 hy
      rw [h.classed d y hy]
      exact (hlo d hd).le
  obtain ⟨m', q', hlink, hq', hr⟩ := putbLink_spec hq hnd hbp hlen hquec hgt hle
  obtain ⟨st, hst, hinv, -⟩ := h.put hx hfit hsplit hflat (h.classed.requeue x) hq' hr
  refine ⟨st, ?_, hinv⟩
  simp only [Stream.putbq, hx.holds.queclass, hlink, Option.bind_eq_bind, Option.bind_some, hst]

/-! ## Getting -/

theorem keeps_getEnable (s : State) (l : List Msg) :
    Keeps s.mem (getEnable v s).mem s.q (getEnable v s).q l := by
  unfold getEnable
  split_ifs
  · simp only [enableBack_mem, enableBack_q]
    exact ⟨fun _ _ a _ => .refl _ a, fun _ _ => rfl, fun _ _ => rfl, rfl, rfl, rfl, rfl, rfl⟩
  · exact ⟨fun _ _ a _ => .refl _ a, fun _ _ => rfl, fun _ _ => rfl, rfl, rfl, rfl, rfl, rfl⟩

/-- `getq` takes the first message off. -/
theorem Inv.getq {s : State} (h : Inv v s.mem s.q queued) :
    ∃ st, getq v s = some ((flat classes queued).head?.map Msg.bp, st) ∧
      Inv v st.mem st.q (dequeue classes queued) := by
  have hdeq : flat classes (dequeue classes queued) = (flat classes queued).tail :=
    flat_dequeue classes_nodup
  have hcl : Classed Msg.cls (dequeue classes queued) := h.classed.dequeue
  have hfirst := h.linked.first
  cases hf : flat classes queued with
  | nil =>
    rw [hf] at hfirst hdeq
    refine ⟨_, by rw [Stream.getq, hfirst]; rfl, ?_⟩
    have hdeq' : flat classes (dequeue classes queued) = flat classes queued := hdeq.trans hf.symm
    let s' : State := { s with q := { s.q with qwantr := true } }
    have hk := keeps_getEnable (v := v) s' (flat classes (dequeue classes queued))
    have hk' : Keeps s.mem (getEnable v s').mem s.q (getEnable v s').q _ :=
      ⟨hk.same, hk.next, hk.prev, hk.first, hk.last, hk.count, hk.hiwat, hk.full⟩
    exact (h.of_flat hcl hdeq').keeps hk'
  | cons x rest =>
    have hq := h.linked
    have hnd := h.nodup_bp
    have hx : s.mem.Holds x := h.holds x (by simp [hf])
    have hnn : 0 ≤ total rest := total_nonneg fun y hy => h.holds y (by simp [hf, hy])
    have hsize := hx.size_nonneg
    have hshort := h.short
    have hcount := h.count
    have hfull := h.full
    have hnx := h.nodup
    rw [hf] at hq hnd hfirst hdeq hnx
    rw [hf, total_cons] at hshort hcount
    rw [List.flatMap_cons] at hnx
    obtain ⟨m₁, q₁, hlink, hq₁, hsame, hq₁'⟩ := getLink_spec hq hnd
    have hx' : m₁.Holds x := hx.congr fun a _ => hsame a
    have hlen : x.blocks.length ≤ v.nmblock :=
      length_le_of_nodup (List.nodup_append.1 hnx).1 (h.lt x (by simp [hf]))
    have hcount₁ : q₁.q_count = x.size + total rest := by
      rw [hq₁']
      exact hcount
    have hadd := addsize_spec (c := q₁.q_count) (.inr rfl) hlen hx'.chain hx'.sizes (by omega)
      (by omega) (by rw [← Msg.size]; omega) (by rw [← Msg.size]; omega)
    have hres : q₁.q_count + -1 * x.sizes.sum = total rest := by
      rw [hcount₁, ← Msg.size]
      ring
    rw [hres] at hadd
    have hget : getFirst v x.bp s = some { s with
        mem := m₁
        q := { q₁ with
          q_count := total rest
          qfull := q₁.qfull && ¬total rest < q₁.q_hiwat
          qwantr := false } } := by
      rw [getFirst, hlink]
      exact congrArg (Option.map _) hadd
    refine ⟨_, by rw [Stream.getq, hfirst, List.map_cons, List.head?_cons]; simp only [hget]; rfl,
      Inv.keeps ?_ (keeps_getEnable _ _)⟩
    refine ⟨hcl, ?_, ?_, ?_, ?_, ?_, ?_, ?_, ?_⟩ <;> try rw [hdeq, List.tail_cons]
    · exact ⟨hq₁.first, hq₁.last, hq₁.linked⟩
    · exact fun y hy => (h.holds y (by simp [hf, hy])).congr fun a _ => hsame a
    · exact (List.nodup_append.1 hnx).2.1
    · exact fun y hy => h.lt y (by simp [hf, hy])
    · omega
    · rw [hq₁']
      simp only [Bool.and_eq_true, decide_eq_true_eq, hfull]
      omega
    · rw [hq₁']
      exact h.hiwat

/-! ## Flushing -/

/-- Only the blocks `l` and the free lists are changed. -/
structure Freed (m m' : Mem) (l : List ℕ) : Prop where
  other : ∀ a ∉ l, m'.mblk a = m.mblk a
  type : ∀ d, (m'.dblk d).db_type = (m.dblk d).db_type
  cls : ∀ d, (m'.dblk d).db_class = (m.dblk d).db_class

theorem Freed.same {l : List ℕ} (h : Freed m m' l) {a : ℕ} (ha : a ∉ l) : SameBlock m m' a :=
  ⟨by rw [h.other a ha], by rw [h.other a ha], fun d _ => h.type d, fun d _ => h.cls d⟩

theorem dropData_mblk (d : ℕ) (m : Mem) : (dropData d m).mblk = m.mblk := by
  unfold dropData
  dsimp only
  split_ifs <;> rfl

theorem dropData_dblk (d d' : ℕ) (m : Mem) :
    ((dropData d m).dblk d').db_type = (m.dblk d').db_type ∧
      ((dropData d m).dblk d').db_class = (m.dblk d').db_class := by
  unfold dropData
  dsimp only
  split_ifs <;> by_cases hd : d' = d <;> simp [Function.update, hd]

theorem freeb_spec {a d : ℕ} (h : (m.mblk a).b_datap = some d) :
    ∃ m', freeb a m = some m' ∧ Freed m m' [a] := by
  refine ⟨_, by rw [freeb, h]; rfl, fun b hb => ?_, fun d' => ?_, fun d' => ?_⟩
  · have hne : b ≠ a := fun he => hb (List.mem_singleton.2 he)
    simp [dropData_mblk, Mem.setNext, Function.update, hne]
  · exact (dropData_dblk d d' _).1
  · exact (dropData_dblk d d' _).2

theorem freemsg_spec {l : List ℕ} {n : ℕ} (hlen : l.length ≤ n)
    (hc : Chained (fun a => (m.mblk a).b_cont) l) (hn : l.Nodup)
    (hd : ∀ a ∈ l, ∃ d, (m.mblk a).b_datap = some d) :
    ∃ m', freemsg n l.head? m = some m' ∧ Freed m m' l := by
  induction l generalizing n m with
  | nil => exact ⟨m, by cases n <;> rfl, fun _ _ => rfl, fun _ => rfl, fun _ => rfl⟩
  | cons a l ih =>
    obtain ⟨n, rfl⟩ : ∃ n', n = n' + 1 := ⟨n - 1, by simp at hlen; omega⟩
    obtain ⟨d, had⟩ := hd a List.mem_cons_self
    obtain ⟨hal, hn⟩ := List.nodup_cons.1 hn
    obtain ⟨m₁, hm₁, hf₁⟩ := freeb_spec had
    have hother (b : ℕ) (hb : b ∈ l) : m₁.mblk b = m.mblk b :=
      hf₁.other b fun he => hal (List.mem_singleton.1 he ▸ hb)
    obtain ⟨m₂, hm₂, hf₂⟩ := ih (by simpa using hlen)
      (hc.2.congr fun b hb => congrArg Mblk.b_cont (hother b hb)) hn
      fun b hb => by
        rw [hother b hb]
        exact hd b (List.mem_cons_of_mem a hb)
    refine ⟨m₂, ?_, fun b hb => ?_, fun d => (hf₂.type d).trans (hf₁.type d),
      fun d => (hf₂.cls d).trans (hf₁.cls d)⟩
    · show (freeb a m).bind _ = _
      rw [hm₁, Option.bind_some, show (m.mblk a).b_cont = l.head? from hc.1]
      exact hm₂
    · obtain ⟨hba, hbl⟩ := not_or.1 (mt List.mem_cons.2 hb)
      exact (hf₂.other b hbl).trans (hf₁.other b (by simpa using hba))

/-- Each block of a message has a data block. -/
theorem Mem.Holds.datap {x : Msg} (h : m.Holds x) : ∀ a ∈ x.blocks,
    ∃ d, (m.mblk a).b_datap = some d := by
  intro a ha
  have hmem : blocksize m a ∈ x.sizes.map some := h.sizes ▸ List.mem_map_of_mem ha
  obtain ⟨k, -, hk⟩ := List.mem_map.1 hmem
  obtain ⟨d, hd, -⟩ := Option.bind_eq_some_iff.1 hk.symm
  exact ⟨d, hd⟩

/-- The messages still to be flushed. -/
structure Rest (v : Config) (m : Mem) (queued : ℕ → List Msg) (rest : List Msg) : Prop where
  chain : Chained (fun a => (m.mblk a).b_next) (rest.map Msg.bp)
  holds : ∀ x ∈ rest, m.Holds x
  nodup : ((flat classes queued ++ rest).flatMap Msg.blocks).Nodup
  lt : ∀ x ∈ rest, ∀ a ∈ x.blocks, a < v.nmblock
  fits : total (flat classes queued) + total rest < 2 ^ 15

theorem Rest.fresh {x : Msg} {rest : List Msg} (h : Rest v m queued (x :: rest)) :
    Fresh v m (flat classes queued) x := by
  have hn := h.nodup
  rw [List.flatMap_append, List.flatMap_cons, List.nodup_append, List.nodup_append] at hn
  refine ⟨h.holds x List.mem_cons_self, hn.2.1.1, h.lt x List.mem_cons_self, fun y hy a ha hay => ?_⟩
  exact hn.2.2 a (List.mem_flatMap.2 ⟨y, hy, hay⟩) a (List.mem_append_left _ ha) rfl

/-- What is put back, or freed, is off the rest. -/
theorem Rest.tail {x : Msg} {rest : List Msg} (h : Rest v m queued (x :: rest))
    (hflat : (flat classes queued').Perm (x :: flat classes queued) ∨ queued' = queued)
    (hs : ∀ a ∈ rest.flatMap Msg.blocks, SameBlock m m' a ∧ (m'.mblk a).b_next = (m.mblk a).b_next) :
    Rest v m' queued' rest := by
  have hmem {y : Msg} (hy : y ∈ rest) {a : ℕ} (ha : a ∈ y.blocks) : a ∈ rest.flatMap Msg.blocks :=
    List.mem_flatMap.2 ⟨y, hy, ha⟩
  have hx := (h.holds x List.mem_cons_self).size_nonneg
  have hfits := h.fits
  rw [total_cons] at hfits
  refine ⟨h.chain.2.congr fun a ha => ?_, fun y hy => ?_, ?_, fun y hy => ?_, ?_⟩
  · obtain ⟨y, hy, rfl⟩ := List.mem_map.1 ha
    exact (hs y.bp (hmem hy List.mem_cons_self)).2
  · exact (h.holds y (List.mem_cons_of_mem x hy)).congr fun a ha => (hs a (hmem hy ha)).1
  · rcases hflat with hp | rfl
    · have hp' := (hp.append_right rest).trans
        List.perm_middle.symm
      exact ((hp'.flatMap_right Msg.blocks).nodup_iff).2 h.nodup
    · refine h.nodup.sublist ?_
      rw [List.flatMap_append, List.flatMap_append, List.flatMap_cons]
      exact (List.sublist_append_right x.blocks _).append_left _
  · exact h.lt y (List.mem_cons_of_mem x hy)
  · rcases hflat with hp | rfl
    · rw [total, (hp.map Msg.size).sum_eq, ← total, total_cons]
      omega
    · omega

/-- The loop of `flushq` puts back what is not data, unless all is flushed. -/
theorem flushLoop_spec {flag : Bool} {rest : List Msg} {n : ℕ} {s : State} (hn : rest.length ≤ n)
    (h : Inv v s.mem s.q queued) (hr : Rest v s.mem queued rest) :
    ∃ st, flushLoop v flag n (rest.map Msg.bp).head? s = some st ∧
      Inv v st.mem st.q (rest.foldl (fun q x =>
        if decide (x.db_type ≠ 0 ∧ ¬flag) then enqueue q x.cls x else q) queued) := by
  induction rest generalizing n s queued with
  | nil => exact ⟨s, by cases n <;> rfl, h⟩
  | cons x rest ih =>
    obtain ⟨n, rfl⟩ : ∃ n', n = n' + 1 := ⟨n - 1, by simp at hn; omega⟩
    have hx := hr.fresh
    have hnext : (s.mem.mblk x.bp).b_next = (rest.map Msg.bp).head? := hr.chain.1
    have hfits := hr.fits
    have hrest : 0 ≤ total rest := total_nonneg fun y hy => hr.holds y (List.mem_cons_of_mem x hy)
    have hnd := hr.nodup
    rw [List.flatMap_append, List.flatMap_cons, List.nodup_append, List.nodup_append] at hnd
    obtain ⟨-, ⟨-, -, hxr⟩, hqr⟩ := hnd
    rw [total_cons] at hfits
    simp only [List.map_cons, List.head?_cons, flushLoop, hx.holds.type, hnext, Option.bind_eq_bind,
      Option.bind_some, List.foldl_cons]
    -- The blocks of the rest are none of the message, and none on the queue.
    have hxr' {a : ℕ} (ha : a ∈ rest.flatMap Msg.blocks) : a ∉ x.blocks := fun hax =>
      hxr a hax a ha rfl
    have hqr' {a : ℕ} (ha : a ∈ rest.flatMap Msg.blocks) : a ∉ (flat classes queued).map Msg.bp :=
      fun hq => hqr a ((bp_sublist _).subset hq) a (List.mem_append_right _ ha) rfl
    by_cases hk : x.db_type ≠ 0 ∧ ¬flag = true
    · obtain ⟨st, hst, hput⟩ := h.putq hx (by omega)
      have hr' : Rest v st.mem (enqueue queued x.cls x) rest := by
        refine hr.tail (.inl (perm_enqueue classes_nodup (typeclass_mem x.db_type))) fun a ha =>
          ⟨hput.same a, hput.next a (fun he => hxr' ha ?_) (hqr' ha)⟩
        rw [he]
        exact List.mem_cons_self
      rw [if_pos hk, if_pos (decide_eq_true hk), hst, Option.bind_some]
      exact ih (by simpa using hn) hput.inv hr'
    · obtain ⟨m₁, hm₁, hf⟩ := freemsg_spec (length_le_of_nodup hx.nodup hx.lt) hx.holds.chain
        hx.nodup hx.holds.datap
      have hr' : Rest v m₁ queued rest := hr.tail (.inr rfl) fun a ha =>
        ⟨hf.same (hxr' ha), by rw [hf.other a (hxr' ha)]⟩
      have hmem {y : Msg} (hy : y ∈ flat classes queued) {a : ℕ} (ha : a ∈ y.blocks) :
          a ∉ x.blocks := fun hax => hx.apart y hy a hax ha
      have h' : Inv v m₁ s.q queued := h.keeps ⟨fun y hy a ha => hf.same (hmem hy ha),
        fun y hy => by rw [hf.other y.bp (hmem hy List.mem_cons_self)],
        fun y hy => by rw [hf.other y.bp (hmem hy List.mem_cons_self)], rfl, rfl, rfl, rfl, rfl⟩
      have hm₁' : freemsg v.nmblock (some x.bp) s.mem = some m₁ := hm₁
      rw [if_neg hk, if_neg (by simpa using hk), hm₁', Option.map_some, Option.bind_some]
      exact ih (by simpa using hn) h' hr'

/-- To end the last message changes nothing. -/
theorem endLast_spec {l : List ℕ} (h : OnQueue m q l) (a : ℕ) :
    SameBlock m (endLast m q) a ∧ ((endLast m q).mblk a).b_next = (m.mblk a).b_next := by
  rw [endLast, h.last]
  rcases List.eq_nil_or_concat l with rfl | ⟨l, b, rfl⟩
  · exact ⟨.refl m a, rfl⟩
  · have hb : (m.mblk b).b_next = none := by
      have := h.linked
      rw [List.concat_eq_append] at this
      exact this.next_eq
    rw [List.concat_eq_append, List.getLast?_concat]
    refine ⟨sameBlock_setNext m b none a, ?_⟩
    by_cases ha : a = b <;> simp [ha, hb]

/-- `flushq` flushes each class. -/
theorem Inv.flushq {s : State} (flag : Bool) (h : Inv v s.mem s.q queued) :
    ∃ st, flushq v flag s = some st ∧ Inv v st.mem st.q fun c =>
      (queued c).filter fun x => x.db_type ≠ 0 ∧ ¬flag := by
  have hcut := endLast_spec h.linked
  have hempty : Inv v (endLast s.mem s.q)
      { s.q with q_first := none, q_last := none, q_count := 0, qfull := false } fun _ => [] :=
    .empty rfl rfl rfl rfl h.hiwat
  have hrest : Rest v (endLast s.mem s.q) (fun _ => []) (flat classes queued) := by
    refine ⟨h.linked.linked.chained.congr fun a _ => (hcut a).2, fun x hx => ?_, h.nodup, h.lt, ?_⟩
    · exact (h.holds x hx).congr fun a _ => (hcut a).1
    · have hzero : total (flat classes fun _ => []) = 0 := rfl
      rw [hzero, zero_add]
      exact h.short
  have hlen : (flat classes queued).length ≤ v.nmblock := by
    have := length_le_of_nodup h.nodup_bp h.lt_bp
    rwa [List.length_map] at this
  let s₀ : State := { s with
    mem := endLast s.mem s.q
    q := { s.q with q_first := none, q_last := none, q_count := 0, qfull := false } }
  obtain ⟨st, hst, hinv⟩ := @flushLoop_spec v _ flag _ _ s₀ hlen hempty hrest
  rw [foldl_enqueue_flat h.classed classes_nodup (fun x => typeclass_mem x.db_type)] at hinv
  rw [← h.linked.first] at hst
  refine ⟨_, by rw [Stream.flushq, hst]; rfl, ?_⟩
  dsimp only
  split_ifs
  · simpa using hinv
  · exact hinv

end Steps

/-! ## Runs -/

/-- What the calls are promised: a message put on the queue is off it, and nobody
    else touches those on it. -/
def Act.Valid (v : Config) (s : Run) : Act → Prop
  | .putq x => Fresh v s.st.mem s.msgs x
  | .putbq x => Fresh v s.st.mem s.msgs x
  | .other st => Keeps s.st.mem st.mem s.st.q st.q s.msgs
  | _ => True

/-- With the message, the size of all on the queue is still a `short`. -/
def Act.Fits (s : Run) : Act → Prop
  | .putq x => total s.msgs + x.size < 2 ^ 15
  | .putbq x => total s.msgs + x.size < 2 ^ 15
  | _ => True

/-- A call that fits succeeds, and keeps the invariant. -/
theorem inv_step {v : Config} {s : Run} (h : Inv v s.st.mem s.st.q s.queued) {a : Act}
    (hv : a.Valid v s) (hf : a.Fits s) :
    ∃ s', (stream v).next s a = some s' ∧ Inv v s'.st.mem s'.st.q s'.queued := by
  cases a with
  | putq x =>
    obtain ⟨st, hst, hput⟩ := h.putq hv hf
    exact ⟨_, congrArg (Option.map _) hst, hput.inv⟩
  | putbq x =>
    obtain ⟨st, hst, hinv⟩ := h.putbq hv hf
    exact ⟨_, congrArg (Option.map _) hst, hinv⟩
  | getq =>
    obtain ⟨st, hst, hinv⟩ := h.getq
    exact ⟨_, congrArg (Option.map _) hst, hinv⟩
  | flushq flag =>
    obtain ⟨st, hst, hinv⟩ := h.flushq flag
    exact ⟨_, congrArg (Option.map _) hst, hinv⟩
  | other st => exact ⟨_, rfl, h.keeps hv⟩

/-- In every run whose messages fit into the count, the queue is sound: no call
    fails, and `getq` gets the first message on it. -/
theorem queue_sound (v : Config) : ∀ s,
    (stream v).ReachableIf (fun s a => a.Valid v s ∧ a.Fits s) s → Sound s ∧
      (∀ a : Act, a.Valid v s → a.Fits s → ∃ s', (stream v).next s a = some s') ∧
      ∃ st, getq v s.st = some (s.msgs.head?.map Msg.bp, st) := by
  intro s hs
  have h : Inv v s.st.mem s.st.q s.queued := by
    refine hs.invariant (P := fun s => Inv v s.st.mem s.st.q s.queued) (fun s h => ?_)
      fun s a s' h hok hn => ?_
    · obtain ⟨hf, hl, hc, hn, hw, hq⟩ := h
      rw [hq]
      exact .empty hf hl hc hn hw
    · obtain ⟨t, ht, hinv⟩ := inv_step h hok.1 hok.2
      exact Option.some.inj (ht.symm.trans hn) ▸ hinv
  refine ⟨h.sound, fun a hv hf => ?_, ?_⟩
  · obtain ⟨s', hs', -⟩ := inv_step h hv hf
    exact ⟨s', hs'⟩
  · obtain ⟨st, hst, -⟩ := h.getq
    exact ⟨st, hst⟩

/-! ## A message that is too long -/

/-- Fourteen message blocks, each with the largest data block. -/
def longConfig : Config := ⟨14, 0, fun _ => true, []⟩

/-- They are all in one chain; the queue is empty. -/
def longStart : Run where
  st := {
    mem := {
      mblk i := ⟨none, none, if i < 13 then some (i + 1) else none, some i⟩
      dblk _ := ⟨none, 1, 0, 8⟩
      mbfreelist := none
      dbfreelist _ := none }
    q := ⟨none, none, 0, 5000, 1000, false, false, false, false⟩
    qenab _ := false
    run := [] }
  queued _ := []

/-- The message they are. -/
def longMsg : Msg := ⟨0, [1, 2, 3, 4, 5, 6, 7, 8, 9, 10, 11, 12, 13], 0, List.replicate 14 2400⟩

/-- The message that the last one is. -/
def shortMsg : Msg := ⟨13, [], 0, [2400]⟩

theorem init_longStart : (stream longConfig).init longStart :=
  ⟨rfl, rfl, rfl, rfl, by decide, rfl⟩

theorem fresh_longMsg : Fresh longConfig longStart.st.mem longStart.msgs longMsg :=
  ⟨⟨by simp [longMsg, Msg.blocks, Chained, longStart], rfl, rfl⟩, by decide, by decide, nofun⟩

set_option maxRecDepth 8000 in
/-- The count of the queue gets negative. -/
theorem putq_longMsg : ∃ s, (stream longConfig).next longStart (.putq longMsg) = some s ∧
    s.st.q.q_count = -31936 ∧ s.st.q.qfull = false ∧ s.msgs = [longMsg] :=
  ⟨_, rfl, rfl, rfl, rfl⟩

/-- Valid calls get the queue unsound. -/
theorem not_queue_sound : ¬∀ v s, (stream v).ReachableIf (fun s a => a.Valid v s) s → Sound s := by
  intro h
  obtain ⟨s, hs, hc, -, hm⟩ := putq_longMsg
  have := (h _ s (.step (a := .putq longMsg) (.init init_longStart) fresh_longMsg hs)).count
  rw [hc, hm] at this
  exact absurd this (by decide)

/-- The queue is sound with the short message on it. -/
theorem sound_shortMsg : ∃ s, (stream longConfig).next longStart (.putq shortMsg) = some s ∧
    s.msgs = [shortMsg] ∧ Sound s := by
  have hs : ∃ s, (stream longConfig).next longStart (.putq shortMsg) = some s ∧
      s.msgs = [shortMsg] := ⟨_, rfl, rfl⟩
  obtain ⟨s, hs, hm⟩ := hs
  refine ⟨s, hs, hm, (queue_sound longConfig s
    (.step (a := .putq shortMsg) (.init init_longStart) ⟨?_, ?_⟩ hs)).1⟩
  · exact ⟨⟨by simp [shortMsg, Msg.blocks, Chained, longStart], rfl, rfl⟩, by decide, by decide, nofun⟩
  · show total longStart.msgs + shortMsg.size < 2 ^ 15
    decide

end AuxKernel.Stream
