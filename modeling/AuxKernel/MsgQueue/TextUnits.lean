import AuxKernel.MsgQueue.Delivery
import AuxKernel.MsgQueue.Text
import AuxKernel.Rmap.Owners

/-!
# The units of the message buffer

While no message is copied in, each unit of the buffer is free or belongs to the text of one
message on a queue, and each header is free or on a queue (`text_conserved`), as long as the
steps are `Action.Sparing`: no call gets units while there is no header, because it would not
give them back (`not_text_conserved`); there is an entry of the map for units that are freed; the
message that is received is still where it was found; the size of a message is a `short`; and no
queue is made of one that has messages.
-/

namespace AuxKernel.MsgQueue

/-! ## What is conserved -/

/-- The units of the text of a message. -/
def text (c : Buffer) (t : TextState) (x : ℕ) : Finset ℤ :=
  Rmap.units (btoq c (t.msgh x).msg_ts) (t.msg_spot x + 1)

/-- The messages of the queues are `l`, and the free headers `free`; these are all, and the units
    of the buffer are free, or those of the texts. -/
structure Conserved (v : Config) (c : Buffer) (t : TextState) (l : ℕ → List ℕ)
    (free : List ℕ) : Prop where
  links : Links v t.toState l free
  headers : ∀ x < v.msgtql, x ∈ free ∨ ∃ i, x ∈ l i
  units : ∀ u, u ∈ Rmap.units c.msgseg 1 ↔
    Rmap.Free (Rmap.live t.msgmap.entries) u ∨ ∃ i, ∃ x ∈ l i, u ∈ text c t x
  used : ∀ i, ∀ x ∈ l i, ∀ u ∈ text c t x, ¬Rmap.Free (Rmap.live t.msgmap.entries) u
  apart : ∀ i j, ∀ x ∈ l i, ∀ y ∈ l j, ∀ u, u ∈ text c t x → u ∈ text c t y → x = y

/-- No message is being copied in. -/
def Still (s : State) : Prop := ∀ p a type qp, s.proc p ≠ .sndCopy a type qp

/-! ## The condition -/

/-- A call that gets as far as that finds units for its text. -/
def Obtains (v : Config) (c : Buffer) (t : TextState) (a : Snd) (qp : ℕ) : Prop :=
  msgconv v a.msqid t.toState = some qp ∧
    a.msgsz + (t.msgque qp).msg_cbytes ≤ (t.msgque qp).msg_qbytes ∧ a.msgsz ≠ 0 ∧
    ∃ e ∈ Rmap.live t.msgmap.entries, btoq c a.msgsz ≤ e.m_size

/-- The map has entries for the texts at `l` when they are freed one after the other. -/
def RoomAll (c : Buffer) (t : TextState) : Rmap.Map → List ℕ → Prop
  | _, [] => True
  | mp, x :: l =>
    if (t.msgh x).msg_ts = 0 then RoomAll c t mp l
    else Rmap.Room mp (btoq c (t.msgh x).msg_ts) (t.msg_spot x + 1) ∧
      ∀ mp', Rmap.mfree mp (btoq c (t.msgh x).msg_ts) (t.msg_spot x + 1) = some (false, mp') →
        RoomAll c t mp' l

/-- The condition on the steps. -/
def Action.Sparing (v : Config) (c : Buffer) (t : TextState) : Action → Prop
  | .sndType p (some type) _ => 1 ≤ type → t.msgfp = none →
      ∀ a qp, t.proc p = .sndType a qp → ¬Obtains v c t a qp
  | .sndWait p false _ => t.msgfp = none →
      ∀ a type qp, t.proc p = .sndWait a type qp → ¬Obtains v c t a qp
  | .sndCopy p none => ∀ a type qp, t.proc p = .sndCopy a type qp → a.msgsz < 2 ^ 15
  | .sndCopy p (some _) => ∀ a type qp, t.proc p = .sndCopy a type qp →
      Rmap.Room t.msgmap (btoq c a.msgsz) (t.spot p)
  | .rcvCopy p none => ∀ qp spmp smp sz k, t.proc p = .rcvCopy qp spmp smp sz k →
      (∃ l₁ l₂, OnQueue t.toState qp (l₁ ++ smp :: l₂) ∧ l₁.getLast? = spmp) ∧
        RoomAll c t t.msgmap [smp]
  | .rmid id => ∀ qp l, msgconv v id t.toState = some qp → OnQueue t.toState qp l →
      RoomAll c t t.msgmap l
  | .msgget qp => (t.msgque qp).msg_first = none
  | _ => True

/-! ## The invariant -/

/-- Who has units: a message, or a process that copies one in. -/
inductive Owner
  | msg (x : ℕ)
  | send (p : ℕ)

/-- What belongs to whom. -/
def Has (c : Buffer) (t : TextState) (l : ℕ → List ℕ) : Owner → ℤ → Prop
  | .msg x, u => (∃ i, x ∈ l i) ∧ u ∈ text c t x
  | .send p, u => ∃ a type qp, t.proc p = .sndCopy a type qp ∧
      u ∈ Rmap.units (btoq c a.msgsz) (t.spot p)

/-- The sizes of the messages that are sent. -/
def Proc.Sized : Proc → Prop
  | .sndType a _ | .sndWait a _ _ => 0 ≤ a.msgsz
  | .sndCopy a _ _ => 0 < a.msgsz
  | _ => True

/-- The process copies a message in. -/
def Proc.Copies (pc : Proc) : Prop := ∃ a type qp, pc = .sndCopy a type qp

structure Stored (v : Config) (c : Buffer) (t : TextState) (l : ℕ → List ℕ)
    (free : List ℕ) : Prop where
  links : Links v t.toState l free
  headers : ∀ x < v.msgtql, x ∈ free ∨ ∃ i, x ∈ l i
  owned : Rmap.Owned c.msgseg 1 c.room t.msgmap (Has c t l)
  size : ∀ i, ∀ x ∈ l i, 0 ≤ (t.msgh x).msg_ts
  sized : ∀ p, (t.proc p).Sized

section Steps

variable {v : Config} {c : Buffer} {t t' : TextState} {l : ℕ → List ℕ} {free : List ℕ}
  {p qp : ℕ} {a : Snd}

theorem Stored.conserved (h : Stored v c t l free) (hq : Still t.toState) :
    Conserved v c t l free := by
  refine ⟨h.links, h.headers, fun u => ?_, fun i x hx u hu => ?_, fun i j x hx y hy u hu hu' => ?_⟩
  · refine (h.owned.free u).trans (or_congr_right ?_)
    constructor
    · rintro ⟨x | p, ho⟩
      · obtain ⟨⟨i, hx⟩, hu⟩ := ho
        exact ⟨i, x, hx, hu⟩
      · obtain ⟨a, type, qp, hp, -⟩ := ho
        exact absurd hp (hq p a type qp)
    · rintro ⟨i, x, hx, hu⟩
      exact ⟨.msg x, ⟨i, hx⟩, hu⟩
  · exact h.owned.not_free (o := .msg x) ⟨⟨i, hx⟩, hu⟩
  · exact Owner.msg.inj (h.owned.one (.msg x) (.msg y) u ⟨⟨i, hx⟩, hu⟩ ⟨⟨j, hy⟩, hu'⟩)

theorem btoq_pos {x : ℤ} (hx : 0 < x) : 0 < btoq c x := by
  have hs := c.msgssz_pos
  unfold btoq
  rw [Int.tdiv_eq_ediv_of_nonneg (by omega)]
  exact (Int.le_ediv_iff_mul_le hs).2 (by omega)

theorem btoq_zero : btoq c 0 = 0 := by
  have hs := c.msgssz_pos
  unfold btoq
  rw [Int.tdiv_eq_ediv_of_nonneg (by omega)]
  exact Int.ediv_eq_zero_of_lt (by omega) (by omega)

theorem units_nil {n b u : ℤ} (hn : n ≤ 0) : u ∉ Rmap.units n b := by
  rw [Rmap.mem_units]
  omega

/-! ### Processes -/

theorem Links.of_eq {s s' : State} (h : Links v s l free) (hq : s'.msgque = s.msgque)
    (hh : s'.msgh = s.msgh) (hfp : s'.msgfp = s.msgfp) : Links v s' l free := by
  refine ⟨fun i => ⟨hq ▸ (h.queue i).first, hh ▸ (h.queue i).chained⟩, fun i => hq ▸ h.last i,
    h.nodup, h.apart, h.used, ⟨hfp ▸ h.freed.1, hh ▸ h.freed.2⟩, h.free_nodup, h.free_lt⟩

/-- The texts and the sends stay as they are. -/
theorem has_congr {l' : ℕ → List ℕ} (hmem : ∀ x, (∃ i, x ∈ l' i) ↔ ∃ i, x ∈ l i)
    (hts : ∀ x, (t'.msgh x).msg_ts = (t.msgh x).msg_ts) (hspot : t'.msg_spot = t.msg_spot)
    (hproc : ∀ p a type qp, t'.proc p = .sndCopy a type qp ↔ t.proc p = .sndCopy a type qp)
    (hsp : ∀ p, (t.proc p).Copies → t'.spot p = t.spot p) (o : Owner) (u : ℤ) :
    Has c t' l' o u ↔ Has c t l o u := by
  cases o with
  | msg x =>
    refine and_congr (hmem x) ?_
    rw [text, text, hts, hspot]
  | send p =>
    refine exists_congr fun a => exists_congr fun type => exists_congr fun qp => ?_
    rw [hproc]
    exact and_congr_right fun hp => by rw [hsp p ⟨a, type, qp, hp⟩]

/-- What belongs to a process that copies a message in. -/
theorem has_send {type : ℤ} (hp : t.proc p = .sndCopy a type qp) (u : ℤ) :
    Has c t l (.send p) u ↔ u ∈ Rmap.units (btoq c a.msgsz) (t.spot p) := by
  constructor
  · rintro ⟨a', type', qp', hp', hu⟩
    cases hp.symm.trans hp'
    exact hu
  · exact fun hu => ⟨a, type, qp, hp, hu⟩

theorem Stored.msgsz_pos {type : ℤ} (h : Stored v c t l free)
    (hp : t.proc p = .sndCopy a type qp) : 0 < a.msgsz := by
  have := h.sized p
  rwa [hp] at this

theorem setProc_copies {pc : Proc} (hold : ¬(t.proc p).Copies) (hpc : ¬pc.Copies) (p' : ℕ)
    (a : Snd) (type : ℤ) (qp : ℕ) :
    (t.setProc p pc).proc p' = .sndCopy a type qp ↔ t.proc p' = .sndCopy a type qp := by
  by_cases hp : p' = p
  · subst hp
    refine iff_of_false (fun h => hpc ⟨a, type, qp, ?_⟩) fun h => hold ⟨a, type, qp, h⟩
    exact (Function.update_self ..).symm.trans h
  · exact (Function.update_of_ne hp ..).congr_left

theorem setProc_sized {pc : Proc} (h : ∀ p, (t.proc p).Sized) (hpc : pc.Sized) (p' : ℕ) :
    ((t.setProc p pc).proc p').Sized := by
  by_cases hp : p' = p
  · subst hp
    exact (congrArg Proc.Sized (Function.update_self p' pc t.proc)).mpr hpc
  · exact (congrArg Proc.Sized (Function.update_of_ne hp pc t.proc)).mpr (h p')

/-- A process that copies no message in, before or after. -/
theorem Stored.setProc {pc : Proc} (h : Stored v c t l free) (hold : ¬(t.proc p).Copies)
    (hpc : ¬pc.Copies) (hs : pc.Sized) : Stored v c (t.setProc p pc) l free :=
  ⟨h.links.of_eq rfl rfl rfl, h.headers,
    h.owned.congr (has_congr (fun _ => Iff.rfl) (fun _ => rfl) rfl (setProc_copies hold hpc)
      fun _ _ => rfl), h.size, setProc_sized h.sized hs⟩

/-! ### Messages that are freed -/

theorem mem_update_iff {l₁ l₂ : List ℕ} {x y : ℕ} {s : State} (h : Links v s l free)
    (hl : l qp = l₁ ++ x :: l₂) :
    (∃ i, y ∈ Function.update l qp (l₁ ++ l₂) i) ↔ (∃ i, y ∈ l i) ∧ y ≠ x := by
  constructor
  · rintro ⟨i, hy⟩
    obtain ⟨hy, hyx⟩ := h.mem_of_update hl hy
    exact ⟨⟨i, hy⟩, hyx⟩
  · rintro ⟨⟨i, hy⟩, hyx⟩
    refine ⟨i, ?_⟩
    by_cases hi : i = qp
    · subst hi
      rw [Function.update_self]
      rw [hl] at hy
      simpa [hyx] using hy
    · rwa [Function.update_of_ne hi]

/-- Only the map changes, and only by the text. -/
theorem freeText_eq (x : ℕ) (t : TextState) : freeText c x t =
    (if (t.msgh x).msg_ts = 0 then some t.msgmap
      else (Rmap.mfree t.msgmap (btoq c (t.msgh x).msg_ts) (t.msg_spot x + 1)).map Prod.snd).map
      fun mp => { t with msgmap := mp } := by
  unfold freeText
  split_ifs
  · rfl
  · rw [Option.map_map]
    rfl

/-- The state after a message was freed, and the map is `mp`. -/
def freed (qp : ℕ) (pmp : Option ℕ) (x : ℕ) (fate : Fate) (mp : Rmap.Map) (t : TextState) :
    TextState :=
  { t with toState := msgfree qp pmp x fate t.toState, msgmap := mp }

/-- The text and the header of a message are freed. -/
theorem Stored.msgfree {l₁ l₂ : List ℕ} {x : ℕ} {pmp : Option ℕ} (h : Stored v c t l free)
    (hl : l qp = l₁ ++ x :: l₂) (hpmp : l₁.getLast? = pmp) (hroom : RoomAll c t t.msgmap [x])
    (fate : Fate) : ∃ mp, freeText c x t = some { t with msgmap := mp } ∧
      Stored v c (freed qp pmp x fate mp t) (Function.update l qp (l₁ ++ l₂)) (x :: free) ∧
      ∀ rest, RoomAll c t t.msgmap (x :: rest) → RoomAll c t mp rest := by
  have hts (y : ℕ) : ((MsgQueue.msgfree qp pmp x fate t.toState).msgh y).msg_ts =
      (t.msgh y).msg_ts := by rw [msgfree_msgh]
  have hproc : (MsgQueue.msgfree qp pmp x fate t.toState).proc = t.proc := msgfree_proc ..
  have hxl := mem_unlinked hl
  have hhas (mp : Rmap.Map) (o : Owner) (u : ℤ) :
      Has c (freed qp pmp x fate mp t) (Function.update l qp (l₁ ++ l₂)) o u ↔
        Has c t l o u ∧ o ≠ .msg x := by
    cases o with
    | msg y =>
      have htext : text c (freed qp pmp x fate mp t) y = text c t y :=
        congrArg (fun ts => Rmap.units (btoq c ts) (t.msg_spot y + 1)) (hts y)
      rw [Has, Has, mem_update_iff h.links hl, htext]
      simp only [ne_eq, Owner.msg.injEq]
      tauto
    | send p =>
      rw [Has, Has, freed, hproc]
      exact (and_iff_left nofun).symm
  have hrest (mp : Rmap.Map) (howned : Rmap.Owned c.msgseg 1 c.room mp
      (Has c (freed qp pmp x fate mp t) (Function.update l qp (l₁ ++ l₂)))) :
      Stored v c (freed qp pmp x fate mp t) (Function.update l qp (l₁ ++ l₂)) (x :: free) := by
    refine ⟨h.links.msgfree hl hpmp fate, fun y hy => ?_, howned, fun i y hy => ?_, fun p => ?_⟩
    · rw [mem_update_iff h.links hl, List.mem_cons]
      rcases h.headers y hy with hy | hy
      · exact .inl (.inr hy)
      · by_cases hyx : y = x
        · exact .inl (.inl hyx)
        · exact .inr ⟨hy, hyx⟩
    · exact (hts y).symm ▸ h.size i y (h.links.mem_of_update hl hy).1
    · exact hproc ▸ h.sized p
  unfold freeText
  by_cases hzero : (t.msgh x).msg_ts = 0
  · refine ⟨t.msgmap, if_pos hzero, hrest t.msgmap (h.owned.congr fun o u => ?_), fun rest hr => ?_⟩
    · rw [hhas]
      refine and_iff_left_of_imp fun ho he => ?_
      subst he
      refine absurd ho.2 (units_nil ?_)
      rw [hzero, btoq_zero]
    · rwa [RoomAll, if_pos hzero] at hr
  · have hpos := lt_of_le_of_ne (h.size qp x hxl) (Ne.symm hzero)
    rw [RoomAll, if_neg hzero] at hroom
    obtain ⟨mp, hfree, howned⟩ := h.owned.mfree (o := .msg x) (by decide)
      (by have := c.msgseg_lt; omega) (btoq_pos (c := c) hpos)
      (fun u => and_iff_right ⟨qp, hxl⟩) hroom.1
    refine ⟨mp, by rw [if_neg hzero, hfree]; rfl, hrest mp (howned (hhas mp)), fun rest hr => ?_⟩
    rw [RoomAll, if_neg hzero] at hr
    exact hr.2 mp hfree

theorem RoomAll.head {mp : Rmap.Map} {x : ℕ} {rest : List ℕ} (h : RoomAll c t mp (x :: rest)) :
    RoomAll c t mp [x] := by
  rw [RoomAll] at h ⊢
  split_ifs at h ⊢
  · trivial
  · exact ⟨h.1, fun _ _ => trivial⟩

theorem RoomAll.congr {mp : Rmap.Map} {rest : List ℕ} (h : RoomAll c t mp rest)
    (hts : ∀ x, (t'.msgh x).msg_ts = (t.msgh x).msg_ts) (hspot : t'.msg_spot = t.msg_spot) :
    RoomAll c t' mp rest := by
  induction rest generalizing mp with
  | nil => trivial
  | cons x rest ih =>
    rw [RoomAll, hts, hspot]
    rw [RoomAll] at h
    split_ifs at h ⊢
    · exact ih h
    · exact ⟨h.1, fun mp' hmp => ih (h.2 mp' hmp)⟩

/-- All messages of a queue are freed. -/
theorem Stored.freeAll {n : ℕ} (h : Stored v c t l free) (hroom : RoomAll c t t.msgmap (l qp))
    (hn : (l qp).length ≤ n) : ∃ t' free', freeAllText c qp n t = some t' ∧
      Stored v c t' (Function.update l qp []) free' := by
  induction hl : l qp generalizing t l free n with
  | nil =>
    have hfirst := (h.links.queue qp).first
    rw [hl] at hfirst
    refine ⟨t, free, ?_, ?_⟩
    · unfold freeAllText
      rw [hfirst]
      cases n <;> rfl
    · rwa [← hl, Function.update_eq_self]
  | cons x rest ih =>
    have hfirst := (h.links.queue qp).first
    rw [hl] at hfirst hn hroom
    obtain ⟨n, rfl⟩ : ∃ n', n = n' + 1 := ⟨n - 1, by simp at hn; omega⟩
    have hl' : l qp = [] ++ x :: rest := hl
    obtain ⟨mp, hfree, h', hroom'⟩ := h.msgfree hl' rfl hroom.head .removed
    have hself : Function.update l qp rest qp = rest := Function.update_self ..
    have hroom₁ : RoomAll c (freed qp none x .removed mp t) mp rest :=
      (hroom' rest hroom).congr (fun y => by rw [freed, msgfree_msgh]) rfl
    obtain ⟨t', free', ht', hs'⟩ := ih h' (hself.symm ▸ hroom₁) (by simpa [hself] using hn) hself
    refine ⟨t', free', ?_, ?_⟩
    · unfold freeAllText
      rw [hfirst]
      dsimp only [List.head?_cons]
      rw [msgfreeText, hfree]
      exact ht'
    · rwa [List.nil_append, Function.update_idem] at hs'

/-! ### Messages that are sent -/

/-- The state after a message was put on its queue. -/
def sent (p : ℕ) (a : Snd) (type : ℤ) (qp mp : ℕ) (t : TextState) : TextState :=
  { t with
    toState := (enqueue a type qp mp t.toState).setProc p (.done 0)
    msg_spot := Function.update t.msg_spot mp
      (if a.msgsz ≠ 0 then toShort (t.spot p - 1) else -1) }

variable {type : ℤ} {mp : ℕ}

theorem sent_proc (p : ℕ) (a : Snd) (type : ℤ) (qp mp : ℕ) (t : TextState) (p' : ℕ) :
    (sent p a type qp mp t).proc p' = if p' = p then .done 0 else t.proc p' := by
  refine (Function.update_apply ..).trans ?_
  rw [(enqueue_rest a type qp mp t.toState).2.1]

theorem sent_copies (p' : ℕ) (a' : Snd) (type' : ℤ) (qp' : ℕ) :
    (sent p a type qp mp t).proc p' = .sndCopy a' type' qp' ↔
      t.proc p' = .sndCopy a' type' qp' ∧ p' ≠ p := by
  rw [sent_proc]
  split_ifs with hp
  · exact iff_of_false nofun fun h => h.2 hp
  · exact (and_iff_left hp).symm

theorem sent_ts (y : ℕ) : ((sent p a type qp mp t).msgh y).msg_ts =
    if y = mp then toShort a.msgsz else (t.msgh y).msg_ts := by
  refine (congrArg Msg.msg_ts (enqueue_msgh a type qp mp t.toState y)).trans ?_
  split_ifs <;> rfl

theorem text_sent {y : ℕ} (hy : y ≠ mp) : text c (sent p a type qp mp t) y = text c t y := by
  rw [text, sent_ts, if_neg hy, text]
  exact congrArg (fun x => Rmap.units _ (x + 1)) (Function.update_of_ne hy ..)

theorem Stored.sent_of (h : Stored v c t l (mp :: free)) (ha : 0 ≤ toShort a.msgsz)
    (howned : Rmap.Owned c.msgseg 1 c.room t.msgmap
      (Has c (sent p a type qp mp t) (Function.update l qp (l qp ++ [mp])))) :
    Stored v c (sent p a type qp mp t) (Function.update l qp (l qp ++ [mp])) free := by
  refine ⟨h.links.enqueue.of_eq rfl rfl rfl, fun x hx => ?_, howned, fun i x hx => ?_, fun p' => ?_⟩
  · rcases h.headers x hx with hx | ⟨i, hx⟩
    · rcases List.mem_cons.1 hx with rfl | hx
      · exact .inr ⟨qp, mem_linked.2 (.inr ⟨rfl, rfl⟩)⟩
      · exact .inl hx
    · exact .inr ⟨i, mem_linked.2 (.inl hx)⟩
  · rw [sent_ts]
    split_ifs with hxm
    · exact ha
    · exact h.size i x ((mem_linked.1 hx).resolve_right fun hx => hxm hx.2)
  · rw [sent_proc]
    split_ifs
    · trivial
    · exact h.sized p'

theorem mem_sent {y : ℕ} (hy : y ≠ mp) :
    (∃ i, y ∈ Function.update l qp (l qp ++ [mp]) i) ↔ ∃ i, y ∈ l i :=
  exists_congr fun _ => mem_linked.trans (or_iff_left fun h => hy h.2)

/-- A message without text is sent. -/
theorem Stored.sent_nil (h : Stored v c t l (mp :: free)) (ha : a.msgsz = 0)
    (hold : ¬(t.proc p).Copies) :
    Stored v c (sent p a type qp mp t) (Function.update l qp (l qp ++ [mp])) free := by
  refine h.sent_of (by rw [ha]; decide) (h.owned.congr fun o u => ?_)
  cases o with
  | msg y =>
    by_cases hy : y = mp
    · subst hy
      refine iff_of_false (fun hu => ?_) fun hu => ?_
      · refine units_nil ?_ hu.2
        rw [sent_ts, if_pos rfl, ha, show toShort 0 = 0 by decide, btoq_zero]
      · obtain ⟨⟨i, hy⟩, -⟩ := hu
        exact h.links.ne_of_mem hy rfl
    · rw [Has, Has, mem_sent hy, text_sent hy]
  | send p' =>
    refine exists_congr fun a' => exists_congr fun type' => exists_congr fun qp' => ?_
    rw [sent_copies]
    exact and_congr_left fun _ => and_iff_left_of_imp fun hp he => hold ⟨a', type', qp', he ▸ hp⟩

/-- The units of a message that was copied in go from the process to the message. -/
theorem Stored.sent_copy (h : Stored v c t l (mp :: free)) (hp : t.proc p = .sndCopy a type qp)
    (ha : a.msgsz < 2 ^ 15) :
    Stored v c (sent p a type qp mp t) (Function.update l qp (l qp ++ [mp])) free := by
  have hpos := h.msgsz_pos hp
  have hshort : toShort a.msgsz = a.msgsz := toShort_of_mem (by omega) ha
  -- The address is one of the buffer.
  have hspot : toShort (t.spot p - 1) = t.spot p - 1 := by
    have hb : t.spot p ∈ Rmap.units (btoq c a.msgsz) (t.spot p) := by
      rw [Rmap.mem_units]
      have := btoq_pos (c := c) hpos
      omega
    have hin := (h.owned.free (t.spot p)).2 (.inr ⟨_, (has_send hp _).2 hb⟩)
    rw [Rmap.mem_units] at hin
    have := c.msgseg_lt
    exact toShort_of_mem (by omega) (by omega)
  have hmsg (u : ℤ) : Has c (sent p a type qp mp t) (Function.update l qp (l qp ++ [mp]))
      (.msg mp) u ↔ Has c t l (.send p) u := by
    rw [has_send hp]
    refine (and_iff_right ⟨qp, mem_linked.2 (.inr ⟨rfl, rfl⟩)⟩).trans ?_
    rw [text, sent_ts, if_pos rfl, hshort, sent]
    dsimp only
    rw [Function.update_self, if_pos hpos.ne', hspot, sub_add_cancel]
  have hother {o : Owner} (ho : o ≠ .msg mp) (u : ℤ) :
      Has c (sent p a type qp mp t) (Function.update l qp (l qp ++ [mp])) o u ↔
        Has c t l o u ∧ o ≠ .send p := by
    cases o with
    | msg y =>
      have hy : y ≠ mp := fun he => ho (congrArg Owner.msg he)
      rw [Has, Has, mem_sent hy, text_sent hy]
      exact (and_iff_left nofun).symm
    | send p' =>
      have hne : Owner.send p' ≠ .send p ↔ p' ≠ p := not_congr ⟨Owner.send.inj, congrArg _⟩
      rw [hne, Has, Has]
      simp only [sent_copies, ← exists_and_right]
      refine exists_congr fun a' => exists_congr fun type' => exists_congr fun qp' => ?_
      rw [and_right_comm]
      rfl
  have hnone (u : ℤ) : ¬Has c t l (.msg mp) u := by
    rintro ⟨⟨i, hy⟩, -⟩
    exact h.links.ne_of_mem hy rfl
  refine h.sent_of (hshort.symm ▸ hpos.le)
    (h.owned.hand (fun u => ⟨?_, ?_⟩) fun o o' u ho ho' => ?_)
  · rintro ⟨o, ho⟩
    by_cases hom : o = .msg mp
    · exact ⟨.send p, (hmsg u).1 (hom ▸ ho)⟩
    · exact ⟨o, ((hother hom u).1 ho).1⟩
  · rintro ⟨o, ho⟩
    by_cases hop : o = .send p
    · exact ⟨.msg mp, (hmsg u).2 (hop ▸ ho)⟩
    · exact ⟨o, (hother (fun he => hnone u (he ▸ ho)) u).2 ⟨ho, hop⟩⟩
  · by_cases hom : o = .msg mp <;> by_cases hom' : o' = .msg mp
    · exact hom.trans hom'.symm
    · obtain ⟨ho', hne⟩ := (hother hom' u).1 ho'
      exact absurd (h.owned.one _ _ u ho' ((hmsg u).1 (hom ▸ ho))) hne
    · obtain ⟨ho, hne⟩ := (hother hom u).1 ho
      exact absurd (h.owned.one _ _ u ho ((hmsg u).1 (hom' ▸ ho'))) hne
    · exact h.owned.one o o' u ((hother hom u).1 ho).1 ((hother hom' u).1 ho').1

/-- What `malloc` returned to a process that copies no message in does not matter. -/
theorem Stored.spot (h : Stored v c t l free) (hold : ¬(t.proc p).Copies) (x : ℤ) :
    Stored v c { t with spot := Function.update t.spot p x } l free := by
  refine ⟨h.links.of_eq rfl rfl rfl, h.headers, h.owned.congr (has_congr (fun _ => Iff.rfl)
    (fun _ => rfl) rfl (fun _ _ _ _ => Iff.rfl) fun p' hp' => ?_), h.size, h.sized⟩
  exact Function.update_of_ne (fun he : p' = p => hold (he ▸ hp')) ..

theorem Stored.want (h : Stored v c t l free) :
    Stored v c { t with msgmap := { t.msgmap with mapwant := true } } l free :=
  ⟨h.links.of_eq rfl rfl rfl, h.headers, (h.owned.want true).congr fun o u => by cases o <;> rfl,
    h.size, h.sized⟩

/-- A process gets units, and begins to copy its message in. -/
theorem Stored.copy {x : ℤ} {mp : Rmap.Map} (h : Stored v c t l free)
    (hold : ¬(t.proc p).Copies) (ha : 0 < a.msgsz)
    (howned : ∀ {H' : Owner → ℤ → Prop} (o : Owner), (∀ o' u, H' o' u ↔ Has c t l o' u ∨
      (o' = o ∧ u ∈ Rmap.units (btoq c a.msgsz) x)) → Rmap.Owned c.msgseg 1 c.room mp H') :
    Stored v c ({ t with msgmap := mp, spot := Function.update t.spot p x }.setProc p
      (.sndCopy a type qp)) l free := by
  refine ⟨h.links.of_eq rfl rfl rfl, h.headers, howned (.send p) fun o u => ?_, h.size,
    setProc_sized (t := { t with msgmap := mp, spot := Function.update t.spot p x }) h.sized ha⟩
  cases o with
  | msg y => exact (or_iff_left fun he => nomatch he.1).symm
  | send p' =>
    have hproc := Function.update_apply t.proc p (Proc.sndCopy a type qp) p'
    by_cases hp : p' = p
    · subst hp
      rw [if_pos rfl] at hproc
      rw [or_iff_right fun ho => ?_, and_iff_right rfl]
      · constructor
        · rintro ⟨a', type', qp', hp', hu⟩
          cases hproc.symm.trans hp'
          rwa [← Function.update_self p' x t.spot]
        · refine fun hu => ⟨a, type, qp, hproc, ?_⟩
          rwa [← Function.update_self p' x t.spot] at hu
      · obtain ⟨a', type', qp', hp', -⟩ := ho
        exact hold ⟨a', type', qp', hp'⟩
    · rw [if_neg hp] at hproc
      rw [or_iff_left fun he => hp (Owner.send.inj he.1)]
      refine exists_congr fun a' => exists_congr fun type' => exists_congr fun qp' => ?_
      refine and_congr (hproc.congr_left) ?_
      rw [← Function.update_of_ne hp x t.spot]
      rfl

/-- The first header of the free list is there to be used. -/
theorem Stored.free_cons (h : Stored v c t l free) (hmp : t.msgfp = some mp) :
    ∃ free', free = mp :: free' := by
  have hhead := h.links.freed.1.symm.trans hmp
  cases free with
  | nil => exact nomatch hhead
  | cons x free' => exact ⟨free', congrArg (· :: free') (Option.some.inj hhead)⟩

theorem Stored.getres (h : Stored v c t l free) (hold : ¬(t.proc p).Copies) (ha : 0 ≤ a.msgsz)
    (hcond : t.msgfp = none → ¬Obtains v c t a qp)
    (hg : getresText v c p a type qp t = some t') : ∃ l' free', Stored v c t' l' free' := by
  unfold getresText at hg
  dsimp only at hg
  have hfail {t₁ : TextState} (h₁ : Stored v c t₁ l free) (hold₁ : ¬(t₁.proc p).Copies)
      (e : Errno) : Stored v c (t₁.setProc p (.failed e)) l free :=
    h₁.setProc hold₁ (fun ⟨_, _, _, hc⟩ => nomatch hc) trivial
  have hwait {t₁ : TextState} (h₁ : Stored v c t₁ l free) (hold₁ : ¬(t₁.proc p).Copies) :
      Stored v c (t₁.setProc p (.sndWait a type qp)) l free :=
    h₁.setProc hold₁ (fun ⟨_, _, _, hc⟩ => nomatch hc) ha
  have hlack {t₁ : TextState} (h₁ : Stored v c t₁ l free) (hold₁ : ¬(t₁.proc p).Copies)
      (hg : (if a.nowait then some (t₁.setProc p (.failed .eagain))
        else some { t₁.setProc p (.sndWait a type qp) with
          msgmap := { t₁.msgmap with mapwant := true } }) = some t') :
      ∃ l' free', Stored v c t' l' free' := by
    split_ifs at hg
    · cases hg
      exact ⟨l, free, hfail h₁ hold₁ _⟩
    · cases hg
      exact ⟨l, free, (hwait h₁ hold₁).want⟩
  by_cases hconv : msgconv v a.msqid t.toState = some qp
  swap
  · rw [if_pos hconv] at hg
    cases hg
    exact ⟨l, free, hfail h hold _⟩
  rw [if_neg (not_not.2 hconv)] at hg
  by_cases hfull : a.msgsz + (t.msgque qp).msg_cbytes > (t.msgque qp).msg_qbytes
  · rw [if_pos hfull] at hg
    split_ifs at hg
    · cases hg
      exact ⟨l, free, hfail h hold _⟩
    · cases hg
      exact ⟨l, free, hwait h hold⟩
  rw [if_neg hfull] at hg
  obtain ⟨t₁, ht₁, hg⟩ := Option.bind_eq_some_iff.1 hg
  unfold allot at ht₁
  by_cases hzero : a.msgsz = 0
  · -- No units are needed.
    rw [if_pos hzero] at ht₁
    cases ht₁
    by_cases hmp : t.msgfp = none
    · rw [if_pos (.inr hmp)] at hg
      exact hlack h hold hg
    · rw [if_neg fun hl => hl.elim (fun hl => hl.1 hzero) hmp, if_neg (not_not.2 hzero)] at hg
      obtain ⟨mp, hmp, rfl⟩ := Option.map_eq_some_iff.1 hg
      obtain ⟨free', rfl⟩ := h.free_cons hmp
      exact ⟨_, free', h.sent_nil hzero hold⟩
  · rw [if_neg hzero] at ht₁
    have hpos := lt_of_le_of_ne ha (Ne.symm hzero)
    rcases h.owned.malloc (by decide) (by have := c.msgseg_lt; omega) (btoq_pos (c := c) hpos) with
      ⟨hnone, -⟩ | ⟨hfit, x, mp, hsome, hin, howned⟩
    · rw [hnone] at ht₁
      cases ht₁
      have hself : Function.update t.spot p ((none : Option ℤ).getD 0) p = 0 :=
        Function.update_self ..
      rw [if_pos (.inl ⟨hzero, hself⟩)] at hg
      exact hlack (h.spot hold _) hold hg
    · rw [hsome] at ht₁
      cases ht₁
      have hself : Function.update t.spot p ((some x).getD 0) p = x := Function.update_self ..
      have hx : x ≠ 0 := by
        have hb : x ∈ Rmap.units (btoq c a.msgsz) x := by
          rw [Rmap.mem_units]
          have := btoq_pos (c := c) hpos
          omega
        have := (Rmap.mem_units x).1 (hin hb)
        omega
      have hmp : t.msgfp ≠ none := fun hmp =>
        hcond hmp ⟨hconv, not_lt.1 hfull, hzero, hfit⟩
      rw [if_neg fun hl => hl.elim (fun hl => hx (hself.symm.trans hl.2)) hmp, if_pos hzero] at hg
      cases hg
      exact ⟨l, free, h.copy hold hpos howned⟩

/-! ### Steps -/

/-- A process that sends no message. -/
def Proc.Quiet (pc : Proc) : Prop := ¬pc.Copies ∧ pc.Sized

theorem quiet_failed (e : Errno) : (Proc.failed e).Quiet :=
  ⟨(fun ⟨_, _, _, h⟩ => nomatch h), trivial⟩

theorem not_copies_of_out {pc : Proc} (h : pc.out = true) : ¬pc.Copies := by
  rintro ⟨a, type, qp, rfl⟩
  exact nomatch h

theorem receive_quiet {s s' : State} {a : Rcv} (hr : receive v p a qp s = some s') :
    ∃ pc : Proc, s' = s.setProc p pc ∧ pc.Quiet := by
  unfold receive at hr
  by_cases hconv : msgconv v a.msqid s = some qp
  swap
  · rw [if_pos hconv] at hr
    cases hr
    exact ⟨_, rfl, quiet_failed _⟩
  rw [if_neg (not_not.2 hconv)] at hr
  obtain ⟨best, -, rfl⟩ := Option.map_eq_some_iff.1 hr
  have hcopy (spmp smp sz k) : (Proc.rcvCopy qp spmp smp sz k).Quiet :=
    ⟨(fun ⟨_, _, _, h⟩ => nomatch h), trivial⟩
  have hwait : (Proc.rcvWait a qp).Quiet := ⟨(fun ⟨_, _, _, h⟩ => nomatch h), trivial⟩
  cases best with
  | none =>
    dsimp only
    split_ifs
    · exact ⟨_, rfl, quiet_failed _⟩
    · exact ⟨_, rfl, hwait⟩
  | some b =>
    dsimp only
    split_ifs
    · exact ⟨_, rfl, hcopy ..⟩
    · exact ⟨_, rfl, quiet_failed _⟩
    · exact ⟨_, rfl, hcopy ..⟩

theorem Stored.quiet (h : Stored v c t l free) (hold : ¬(t.proc p).Copies) {pc : Proc}
    (hpc : pc.Quiet) : ∃ l' free', Stored v c (t.lift (t.toState.setProc p pc)) l' free' :=
  ⟨l, free, h.setProc hold hpc.1 hpc.2⟩

/-- A queue changes, but not its messages. -/
theorem Stored.setQueue {q : Msqid} (h : Stored v c t l free)
    (hfirst : q.msg_first = (t.msgque qp).msg_first)
    (hlast : q.msg_last = (t.msgque qp).msg_last) :
    Stored v c (t.lift (t.toState.setQueue qp q)) l free :=
  ⟨h.links.setQueue hfirst hlast, h.headers, h.owned.congr fun o u => by cases o <;> rfl, h.size,
    h.sized⟩

theorem Stored.msgsnd (h : Stored v c t l free) (hold : ¬(t.proc p).Copies) (a : Snd)
    (access : Option Errno) :
    ∃ l' free', Stored v c (t.lift (msgsnd v p a access t.toState)) l' free' := by
  unfold MsgQueue.msgsnd
  split
  · exact h.quiet hold (quiet_failed _)
  · exact h.quiet hold (quiet_failed _)
  · split_ifs with hsz
    · exact h.quiet hold (quiet_failed _)
    · exact h.quiet hold ⟨(fun ⟨_, _, _, hc⟩ => nomatch hc), not_lt.1 fun hlt => hsz (.inl hlt)⟩

theorem Stored.msgrcv (h : Stored v c t l free) (hold : ¬(t.proc p).Copies) {a : Rcv}
    {access : Option Errno} {s : State} (hn : msgrcv v p a access t.toState = some s) :
    ∃ l' free', Stored v c (t.lift s) l' free' := by
  unfold MsgQueue.msgrcv at hn
  split at hn
  · cases hn
    exact h.quiet hold (quiet_failed _)
  · cases hn
    exact h.quiet hold (quiet_failed _)
  · split_ifs at hn
    · cases hn
      exact h.quiet hold (quiet_failed _)
    · obtain ⟨pc, rfl, hpc⟩ := receive_quiet hn
      exact h.quiet hold hpc

/-- A process goes on after its message was copied out, and takes it off the queue. -/
theorem Stored.received {spmp : Option ℕ} {smp : ℕ} {sz : ℤ} (h : Stored v c t l free)
    (hold : ¬(t.proc p).Copies)
    (hat : ∃ l₁ l₂, OnQueue t.toState qp (l₁ ++ smp :: l₂) ∧ l₁.getLast? = spmp)
    (hroom : RoomAll c t t.msgmap [smp]) (hn : receivedText c p qp spmp smp sz t = some t') :
    ∃ l' free', Stored v c t' l' free' := by
  obtain ⟨l₁, l₂, hq, hlast⟩ := hat
  have hl : l qp = l₁ ++ smp :: l₂ := (h.links.queue qp).unique hq
  -- The bytes of the queue are counted first, which changes no message.
  have h₀ := h.setQueue (q := { t.msgque qp with
    msg_cbytes := toUshort ((t.msgque qp).msg_cbytes - (t.msgh smp).msg_ts) }) rfl rfl
  obtain ⟨mp, hfree, h₁, -⟩ := h₀.msgfree hl hlast (hroom.congr (fun _ => rfl) rfl) .received
  have hfree' : freeText c smp t = some { t with msgmap := mp } := by
    rw [freeText_eq] at hfree ⊢
    obtain ⟨mp', hmp, he⟩ := Option.map_eq_some_iff.1 hfree
    exact Option.map_eq_some_iff.2 ⟨mp', hmp, by rw [show mp' = mp from congrArg (·.msgmap) he]⟩
  unfold receivedText at hn
  rw [hfree'] at hn
  cases hn
  refine h₁.quiet ?_ ⟨(fun ⟨_, _, _, hc⟩ => nomatch hc), trivial⟩
  rw [freed, msgfree_proc]
  exact hold

/-- A process that failed to copy its message in gives the units back. -/
theorem Stored.giveBack {type : ℤ} {e : Errno} (h : Stored v c t l free)
    (hp : t.proc p = .sndCopy a type qp)
    (hroom : Rmap.Room t.msgmap (btoq c a.msgsz) (t.spot p)) :
    ∃ mp, Rmap.mfree t.msgmap (btoq c a.msgsz) (t.spot p) = some (false, mp) ∧
      Stored v c { t.setProc p (.failed e) with msgmap := mp } l free := by
  have hpos := h.msgsz_pos hp
  obtain ⟨mp, hfree, howned⟩ := h.owned.mfree (by decide) (by have := c.msgseg_lt; omega)
    (btoq_pos (c := c) hpos) (has_send hp) hroom
  refine ⟨mp, hfree, h.links.of_eq rfl rfl rfl, h.headers, howned fun o u => ?_, h.size,
    setProc_sized h.sized trivial⟩
  cases o with
  | msg x => exact (and_iff_left nofun).symm
  | send p' =>
    have hproc := Function.update_apply t.proc p (Proc.failed e) p'
    have hne : Owner.send p' ≠ .send p ↔ p' ≠ p := not_congr ⟨Owner.send.inj, congrArg _⟩
    rw [hne]
    by_cases hp' : p' = p
    · rw [if_pos hp'] at hproc
      refine iff_of_false (fun ⟨a', type', qp', hc, _⟩ => ?_) fun hc => hc.2 hp'
      exact nomatch hproc.symm.trans hc
    · rw [if_neg hp'] at hproc
      rw [and_iff_left hp']
      refine exists_congr fun a' => exists_congr fun type' => exists_congr fun qp' => ?_
      exact and_congr hproc.congr_left Iff.rfl

theorem Stored.rmid (h : Stored v c t l free) (id : ℤ) (hroom : RoomAll c t t.msgmap (l qp)) :
    ∃ t' free', rmidText v c id qp t = some t' ∧ Stored v c t' (Function.update l qp []) free' := by
  obtain ⟨t₁, free', ht₁, h₁⟩ := h.freeAll hroom (h.links.length_le qp)
  unfold rmidText
  rw [ht₁]
  exact ⟨_, free', rfl, h₁.setQueue rfl rfl⟩

theorem Stored.step {act : Action} (h : Stored v c t l free) (hact : act.Sparing v c t)
    (hn : nextText v c t act = some t') : ∃ l' free', Stored v c t' l' free' := by
  cases act with
  | msgsnd p a access =>
    obtain ⟨s, hs, rfl⟩ := Option.map_eq_some_iff.1 hn
    obtain ⟨hout, he⟩ := Option.ite_none_right_eq_some.1 hs
    cases he
    exact h.msgsnd (not_copies_of_out hout) a access
  | sndType p type spot =>
    dsimp only [nextText] at hn
    split at hn
    · next a qp type hp =>
      have hs := h.sized p
      rw [hp] at hs
      have hold : ¬(t.proc p).Copies := fun ⟨_, _, _, hc⟩ => nomatch hp.symm.trans hc
      split_ifs at hn with htype
      · cases hn
        exact h.quiet hold (quiet_failed _)
      · exact h.getres hold hs (fun hmp => hact (not_lt.1 htype) hmp a qp hp) hn
    · next hne =>
      obtain ⟨s, hs, rfl⟩ := Option.map_eq_some_iff.1 hn
      dsimp only [next] at hs
      split at hs
      · next a qp hp =>
        cases hs
        exact h.quiet (fun ⟨_, _, _, hc⟩ => nomatch hp.symm.trans hc) (quiet_failed _)
      · next a qp type hp => exact (hne a qp type hp rfl).elim
      · exact nomatch hs
  | sndWait p signal spot =>
    dsimp only [nextText] at hn
    split at hn
    · next a type qp hp =>
      have hs := h.sized p
      rw [hp] at hs
      have hold : ¬(t.proc p).Copies := fun ⟨_, _, _, hc⟩ => nomatch hp.symm.trans hc
      exact h.getres hold hs (fun hmp => hact hmp a type qp hp) hn
    · next hne =>
      obtain ⟨s, hs, rfl⟩ := Option.map_eq_some_iff.1 hn
      dsimp only [next] at hs
      split at hs
      · next a type qp hp =>
        cases hs
        exact h.quiet (fun ⟨_, _, _, hc⟩ => nomatch hp.symm.trans hc) (quiet_failed _)
      · next a type qp hp => exact (hne a type qp hp rfl).elim
      · exact nomatch hs
  | sndCopy p error =>
    dsimp only [nextText] at hn
    split at hn
    · next a type qp e hp =>
      obtain ⟨mp, hfree, hs⟩ := h.giveBack (e := e) hp (hact a type qp hp)
      rw [hfree] at hn
      cases hn
      exact ⟨l, free, hs⟩
    · next a type qp hp =>
      obtain ⟨mp, hmp, he⟩ := Option.map_eq_some_iff.1 hn
      cases he
      obtain ⟨free', rfl⟩ := h.free_cons hmp
      exact ⟨_, free', h.sent_copy hp (hact a type qp hp)⟩
    · exact nomatch hn
  | msgrcv p a access =>
    obtain ⟨s, hs, rfl⟩ := Option.map_eq_some_iff.1 hn
    obtain ⟨hout, hs⟩ := Option.ite_none_right_eq_some.1 hs
    exact h.msgrcv (not_copies_of_out hout) hs
  | rcvWait p signal =>
    obtain ⟨s, hs, rfl⟩ := Option.map_eq_some_iff.1 hn
    dsimp only [next] at hs
    split at hs
    · next a qp hp =>
      cases hs
      exact h.quiet (fun ⟨_, _, _, hc⟩ => nomatch hp.symm.trans hc) (quiet_failed _)
    · next a qp hp =>
      obtain ⟨pc, rfl, hpc⟩ := receive_quiet hs
      exact h.quiet (fun ⟨_, _, _, hc⟩ => nomatch hp.symm.trans hc) hpc
    · exact nomatch hs
  | rcvCopy p error =>
    dsimp only [nextText] at hn
    split at hn
    · next qp spmp smp sz k hp =>
      obtain ⟨hat, hroom⟩ := hact qp spmp smp sz k hp
      exact h.received (fun ⟨_, _, _, hc⟩ => nomatch hp.symm.trans hc) hat hroom hn
    · next hne =>
      obtain ⟨s, hs, rfl⟩ := Option.map_eq_some_iff.1 hn
      dsimp only [next] at hs
      split at hs
      · next hp =>
        cases hs
        exact h.quiet (fun ⟨_, _, _, hc⟩ => nomatch hp.symm.trans hc) (quiet_failed _)
      · next qp spmp smp sz k hp => exact (hne qp spmp smp sz k hp rfl).elim
      · exact nomatch hs
  | rmid id =>
    obtain ⟨qp, hqp, hn⟩ := Option.bind_eq_some_iff.1 hn
    obtain ⟨t₁, free', ht₁, h₁⟩ := h.rmid id (hact qp (l qp) hqp (h.links.queue qp))
    cases ht₁.symm.trans hn
    exact ⟨_, free', h₁⟩
  | set qp qbytes =>
    cases hn
    exact ⟨l, free, h.setQueue rfl rfl⟩
  | msgget qp =>
    obtain ⟨s, hs, rfl⟩ := Option.map_eq_some_iff.1 hn
    obtain ⟨-, he⟩ := Option.ite_none_right_eq_some.1 hs
    cases he
    -- The queue that is made has no messages.
    have hnil : l qp = [] := by
      have hfirst : (t.msgque qp).msg_first = none := hact
      rw [(h.links.queue qp).first] at hfirst
      exact List.head?_eq_none_iff.1 hfirst
    have hlast := h.links.last qp
    rw [hnil] at hlast
    exact ⟨l, free, h.setQueue hact.symm hlast.symm⟩

theorem stored_init (v : Config) (c : Buffer) :
    Stored v c (.init v c) (fun _ => []) (List.range v.msgtql) := by
  have hlinks := (Inv.init v).core.lists.links
  refine ⟨hlinks.of_eq rfl rfl rfl, fun x hx => .inl (List.mem_range.2 hx),
    Rmap.owned_one c.msgseg_pos fun o u ho => ?_, nofun, fun _ => trivial⟩
  cases o with
  | msg x =>
    obtain ⟨⟨i, hx⟩, -⟩ := ho
    exact List.not_mem_nil hx
  | send p =>
    obtain ⟨a, type, qp, hp, -⟩ := ho
    exact nomatch hp

theorem exists_stored (ht : (texts v c).ReachableIf (fun t a => a.Sparing v c t) t) :
    ∃ l free, Stored v c t l free := by
  refine Machine.ReachableIf.invariant (P := fun t => ∃ l free, Stored v c t l free)
    (fun t ht => ?_) (fun t a t' hs hact hn => ?_) ht
  · obtain rfl : t = .init v c := ht
    exact ⟨_, _, stored_init v c⟩
  · obtain ⟨l, free, h⟩ := hs
    exact h.step hact hn

end Steps

/-- In every run of such steps, units and headers are conserved. -/
theorem text_conserved (v : Config) (c : Buffer) (t : TextState)
    (ht : (texts v c).ReachableIf (fun t a => a.Sparing v c t) t) (hq : Still t.toState) :
    ∃ l free, Conserved v c t l free := by
  obtain ⟨l, free, h⟩ := exists_stored ht
  exact ⟨l, free, h.conserved hq⟩

/-- Four units of eight bytes. -/
def smallBuffer : Buffer := ⟨8, 4, 2, by decide, by decide, by decide⟩

/-- A message of eight bytes. -/
def oneText : List Action :=
  [.msgget 0, .msgsnd 0 ⟨0, 8, false⟩ none, .sndType 0 (some 1) true, .sndCopy 0 none]

/-- Its text has one unit. -/
theorem conserved_oneText : ∃ t, (texts smallConfig smallBuffer).run
    (.init smallConfig smallBuffer) oneText = some t ∧ t.msgmap.entries.head? = some ⟨3, 2⟩ ∧
      ∃ l free, Conserved smallConfig smallBuffer t l free := by
  have h₀ : (texts smallConfig smallBuffer).ReachableIf
      (fun t a => a.Sparing smallConfig smallBuffer t) (.init smallConfig smallBuffer) := .init rfl
  have h₁ := (h₀.step (a := .msgget 0) (by exact rfl) rfl).step
    (a := .msgsnd 0 ⟨0, 8, false⟩ none) (by trivial) rfl
  have h₂ := h₁.step (a := .sndType 0 (some 1) true) (by
    intro _ hmp
    cases hmp) rfl
  have h₃ := h₂.step (a := .sndCopy 0 none) (by
    intro a type qp hp
    cases hp
    decide) rfl
  refine ⟨_, rfl, rfl, text_conserved _ _ _ h₃ fun p a type qp hp => ?_⟩
  rcases p with _ | p <;> cases hp

/-- All headers are in use when another message is sent. -/
def noHeader : List Action :=
  oneMsg ++ [.msgsnd 0 ⟨0, 0, false⟩ none, .sndType 0 (some 1) true,
    .msgsnd 0 ⟨0, 8, true⟩ none, .sndType 0 (some 1) true]

/-- The unit that `malloc` returned for it is neither free nor that of a message. -/
theorem not_text_conserved : ¬∀ v c t, (texts v c).Reachable t → Still t.toState →
    ∃ l free, Conserved v c t l free := by
  intro h
  obtain ⟨t, ht, hproc, hmap, hts⟩ : ∃ t, (texts smallConfig smallBuffer).run
      (.init smallConfig smallBuffer) noHeader = some t ∧ Still t.toState ∧
      Rmap.live t.msgmap.entries = [⟨3, 2⟩] ∧ ∀ x < 2, (t.msgh x).msg_ts = 0 := by
    refine ⟨_, rfl, fun p a type qp hp => ?_, rfl, fun x hx => ?_⟩
    · rcases p with _ | p <;> cases hp
    · rcases x with _ | _ | x
      · rfl
      · rfl
      · omega
  have hreach : (texts smallConfig smallBuffer).Reachable t :=
    Machine.reachableIf_run (.init rfl) (fun _ _ _ => trivial) ht
  obtain ⟨l, free, hc⟩ := h _ _ t hreach hproc
  rcases (hc.units 1).1 (by decide) with hfree | ⟨i, x, hx, hu⟩
  · rw [hmap] at hfree
    obtain ⟨e, he, hle, -⟩ := hfree
    cases List.mem_singleton.1 he
    exact absurd hle (by decide)
  · rw [text, hts x (hc.links.used i x hx).2] at hu
    exact units_nil (by decide) hu

end AuxKernel.MsgQueue
