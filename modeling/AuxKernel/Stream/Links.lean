import Mathlib.Algebra.Order.BigOperators.Group.List
import Mathlib.Tactic.Ring
import AuxKernel.Stream.Basic

/-!
# The links of a queue

`putq` and `putbq` link a message in where its class belongs: behind all messages
of its class and the higher ones (`putLink_spec`), or before all of its class and
the lower ones (`putbLink_spec`). This changes only links (`Relinked`), and so no
message.
-/

namespace AuxKernel.Stream

open ClassQueue

/-! ## Memory -/

@[simp] theorem Mem.setNext_dblk (m : Mem) (bp : ℕ) (p : Option ℕ) :
    (m.setNext bp p).dblk = m.dblk := rfl

@[simp] theorem Mem.setPrev_dblk (m : Mem) (bp : ℕ) (p : Option ℕ) :
    (m.setPrev bp p).dblk = m.dblk := rfl

@[simp] theorem Mem.setNext_next (m : Mem) (bp x : ℕ) (p : Option ℕ) :
    ((m.setNext bp p).mblk x).b_next = if x = bp then p else (m.mblk x).b_next := by
  by_cases h : x = bp <;> simp [setNext, Function.update, h]

@[simp] theorem Mem.setNext_prev (m : Mem) (bp x : ℕ) (p : Option ℕ) :
    ((m.setNext bp p).mblk x).b_prev = (m.mblk x).b_prev := by
  by_cases h : x = bp <;> simp [setNext, Function.update, h]

@[simp] theorem Mem.setPrev_prev (m : Mem) (bp x : ℕ) (p : Option ℕ) :
    ((m.setPrev bp p).mblk x).b_prev = if x = bp then p else (m.mblk x).b_prev := by
  by_cases h : x = bp <;> simp [setPrev, Function.update, h]

@[simp] theorem Mem.setPrev_next (m : Mem) (bp x : ℕ) (p : Option ℕ) :
    ((m.setPrev bp p).mblk x).b_next = (m.mblk x).b_next := by
  by_cases h : x = bp <;> simp [setPrev, Function.update, h]

/-- The block `a` is the same in two memories, but for how it is linked. -/
structure SameBlock (m m' : Mem) (a : ℕ) : Prop where
  cont : (m'.mblk a).b_cont = (m.mblk a).b_cont
  datap : (m'.mblk a).b_datap = (m.mblk a).b_datap
  type : ∀ d, (m.mblk a).b_datap = some d → (m'.dblk d).db_type = (m.dblk d).db_type
  cls : ∀ d, (m.mblk a).b_datap = some d → (m'.dblk d).db_class = (m.dblk d).db_class

theorem SameBlock.refl (m : Mem) (a : ℕ) : SameBlock m m a :=
  ⟨rfl, rfl, fun _ _ => rfl, fun _ _ => rfl⟩

theorem SameBlock.trans {m m' m'' : Mem} {a : ℕ} (h : SameBlock m m' a) (h' : SameBlock m' m'' a) :
    SameBlock m m'' a :=
  ⟨h'.cont.trans h.cont, h'.datap.trans h.datap,
    fun d hd => (h'.type d (h.datap.trans hd)).trans (h.type d hd),
    fun d hd => (h'.cls d (h.datap.trans hd)).trans (h.cls d hd)⟩

theorem sameBlock_setNext (m : Mem) (bp : ℕ) (p : Option ℕ) (a : ℕ) :
    SameBlock m (m.setNext bp p) a := by
  refine ⟨?_, ?_, fun _ _ => rfl, fun _ _ => rfl⟩ <;>
    by_cases h : a = bp <;> simp [Mem.setNext, Function.update, h]

theorem sameBlock_setPrev (m : Mem) (bp : ℕ) (p : Option ℕ) (a : ℕ) :
    SameBlock m (m.setPrev bp p) a := by
  refine ⟨?_, ?_, fun _ _ => rfl, fun _ _ => rfl⟩ <;>
    by_cases h : a = bp <;> simp [Mem.setPrev, Function.update, h]

theorem SameBlock.msgtype {m m' : Mem} {a : ℕ} (h : SameBlock m m' a) :
    msgtype m' a = msgtype m a := by
  rw [Stream.msgtype, Stream.msgtype, h.datap]
  cases hd : (m.mblk a).b_datap with
  | none => rfl
  | some d => exact congrArg some (h.type d hd)

theorem SameBlock.blocksize {m m' : Mem} {a : ℕ} (h : SameBlock m m' a) :
    blocksize m' a = blocksize m a := by
  rw [Stream.blocksize, Stream.blocksize, h.datap]
  cases hd : (m.mblk a).b_datap with
  | none => rfl
  | some d => exact congrArg (bsize[·]?) (h.cls d hd)

/-- A message only depends on its own blocks. -/
theorem Mem.Holds.congr {m m' : Mem} {x : Msg} (h : m.Holds x)
    (hs : ∀ a ∈ x.blocks, SameBlock m m' a) : m'.Holds x :=
  ⟨h.chain.congr fun a ha => (hs a ha).cont, (hs x.bp List.mem_cons_self).msgtype.trans h.type,
    (List.map_congr_left fun a ha => (hs a ha).blocksize).trans h.sizes⟩

theorem Mem.Holds.queclass {m : Mem} {x : Msg} (h : m.Holds x) :
    queclass m x.bp = some x.cls := by
  rw [Stream.queclass, h.type]
  rfl

/-! ## Sizes -/

theorem blocksize_nonneg {m : Mem} {a : ℕ} {k : ℤ} (h : blocksize m a = some k) : 0 ≤ k := by
  have hall : ∀ k ∈ bsize, 0 ≤ k := by decide
  obtain ⟨d, -, hd⟩ := Option.bind_eq_some_iff.1 h
  exact hall k (List.mem_of_getElem? hd)

theorem sizes_nonneg {m : Mem} {l : List ℕ} {ks : List ℤ}
    (h : l.map (blocksize m) = ks.map some) : ∀ k ∈ ks, 0 ≤ k := by
  intro k hk
  have hmem : some k ∈ l.map (blocksize m) := h ▸ List.mem_map_of_mem hk
  obtain ⟨a, -, ha⟩ := List.mem_map.1 hmem
  exact blocksize_nonneg ha

theorem Mem.Holds.size_nonneg {m : Mem} {x : Msg} (h : m.Holds x) : 0 ≤ x.size :=
  List.sum_nonneg (sizes_nonneg h.sizes)

/-- The sizes of the blocks of a message are added up, if the result is a `short`:
    so is what is added up before. -/
theorem addsize_spec {sign : ℤ} {m : Mem} {l : List ℕ} {ks : List ℤ} {n : ℕ} {c : ℤ}
    (hs : sign = 1 ∨ sign = -1) (hl : l.length ≤ n) (hc : Chained (fun a => (m.mblk a).b_cont) l)
    (hk : l.map (blocksize m) = ks.map some) (h₀ : -2 ^ 15 ≤ c) (h₁ : c < 2 ^ 15)
    (h₀' : -2 ^ 15 ≤ c + sign * ks.sum) (h₁' : c + sign * ks.sum < 2 ^ 15) :
    addsize sign m n l.head? c = some (c + sign * ks.sum) := by
  induction l generalizing ks n c with
  | nil =>
    obtain rfl := List.map_eq_nil_iff.1 hk.symm
    cases n <;> simp [addsize]
  | cons a l ih =>
    cases ks with
    | nil => exact absurd hk (by simp)
    | cons k ks =>
      obtain ⟨n, rfl⟩ : ∃ n', n = n' + 1 := ⟨n - 1, by simp at hl; omega⟩
      obtain ⟨ha, hl'⟩ := List.cons_eq_cons.1 hk
      have hk₀ : 0 ≤ k := blocksize_nonneg ha
      have hks : 0 ≤ ks.sum := List.sum_nonneg (sizes_nonneg hl')
      rw [List.sum_cons] at h₀' h₁' ⊢
      have hsum : c + sign * (k + ks.sum) = c + sign * k + sign * ks.sum := by ring
      rw [hsum] at h₀' h₁' ⊢
      have hrange : -2 ^ 15 ≤ c + sign * k ∧ c + sign * k < 2 ^ 15 := by
        rcases hs with rfl | rfl <;> constructor <;> omega
      show (blocksize m a).bind _ = _
      rw [ha, Option.bind_some, show (m.mblk a).b_cont = l.head? from hc.1,
        toShort_of_mem hrange.1 hrange.2]
      exact ih (by simpa using hl) hc.2 hl' hrange.1 hrange.2 h₀' h₁'

/-! ## Linking -/

/-- The messages with the first blocks `l` are linked on the queue. -/
structure OnQueue (m : Mem) (q : Queue) (l : List ℕ) : Prop where
  first : q.q_first = l.head?
  last : q.q_last = l.getLast?
  linked : Linked (fun a => (m.mblk a).b_next) (fun a => (m.mblk a).b_prev) none l

/-- Only the links of the blocks `l` are changed. -/
structure Relinked (m m' : Mem) (q q' : Queue) (l : List ℕ) : Prop where
  same : ∀ a, SameBlock m m' a
  next : ∀ a ∉ l, (m'.mblk a).b_next = (m.mblk a).b_next
  queue : q' = { q with q_first := q'.q_first, q_last := q'.q_last }

/-- The search for the first message of a lower class ends where there is one. -/
theorem findLower_spec {m : Mem} {mcls n x : ℕ} {p : Option ℕ} {l₁ l₂ : List ℕ} {cls : ℕ → ℕ}
    (hl : l₁.length < n) (hcls : ∀ a ∈ l₁ ++ x :: l₂, queclass m a = some (cls a))
    (hlink : Linked (fun a => (m.mblk a).b_next) (fun a => (m.mblk a).b_prev) p (l₁ ++ x :: l₂))
    (hge : ∀ a ∈ l₁, mcls ≤ cls a) (hlt : cls x < mcls) :
    (l₁ ++ x :: l₂).head?.bind (findLower m mcls n) = some x := by
  induction l₁ generalizing n p with
  | nil =>
    obtain ⟨n, rfl⟩ : ∃ n', n = n' + 1 := ⟨n - 1, by simp at hl; omega⟩
    have hx := hcls x (by simp)
    simp [findLower, hx, hlt]
  | cons b l₁ ih =>
    obtain ⟨n, rfl⟩ : ∃ n', n = n' + 1 := ⟨n - 1, by simp at hl; omega⟩
    have hb := hcls b (by simp)
    have hnext : (m.mblk b).b_next = (l₁ ++ x :: l₂).head? := hlink.2.1
    show findLower m mcls (n + 1) b = some x
    rw [findLower, hb, Option.bind_some, if_pos (hge b List.mem_cons_self), hnext]
    exact ih (by simpa using hl) (fun a ha => hcls a (by simp at ha ⊢; tauto)) hlink.2.2
      fun a ha => hge a (List.mem_cons_of_mem b ha)

/-- The search for the last message of a higher class ends there. -/
theorem findHigher_spec {m : Mem} {mcls n x : ℕ} {p : Option ℕ} {l₁ l₂ : List ℕ} {cls : ℕ → ℕ}
    (hl : l₁.length < n) (hcls : ∀ a ∈ l₁ ++ x :: l₂, queclass m a = some (cls a))
    (hlink : Linked (fun a => (m.mblk a).b_next) (fun a => (m.mblk a).b_prev) p (l₁ ++ x :: l₂))
    (hgt : ∀ a ∈ l₁ ++ [x], mcls < cls a) (hle : ∀ a ∈ l₂, cls a ≤ mcls) :
    (l₁ ++ x :: l₂).head?.bind (findHigher m mcls n) = some x := by
  induction l₁ generalizing n p with
  | nil =>
    obtain ⟨n, rfl⟩ : ∃ n', n = n' + 1 := ⟨n - 1, by simp at hl; omega⟩
    have hnext : (m.mblk x).b_next = l₂.head? := hlink.2.1
    show findHigher m mcls (n + 1) x = some x
    rw [findHigher, hnext]
    cases l₂ with
    | nil => rfl
    | cons b l₂ =>
      have hb := hcls b (by simp)
      have hle' := hle b List.mem_cons_self
      simp [hb, Nat.not_lt.2 hle']
  | cons b l₁ ih =>
    obtain ⟨n, rfl⟩ : ∃ n', n = n' + 1 := ⟨n - 1, by simp at hl; omega⟩
    have hnext : (m.mblk b).b_next = (l₁ ++ x :: l₂).head? := hlink.2.1
    have ih' := @ih n (some b) (by simpa using hl) (fun a ha => hcls a (by simp at ha ⊢; tauto))
      hlink.2.2 fun a ha => hgt a (by simp at ha ⊢; tauto)
    show findHigher m mcls (n + 1) b = some x
    rw [findHigher, hnext]
    cases hh : (l₁ ++ x :: l₂).head? with
    | none => simp at hh
    | some y =>
      have hy : y ∈ l₁ ++ [x] := by
        cases l₁ <;> simp at hh <;> simp [hh]
      have hcy := hcls y (by simp at hy ⊢; tauto)
      have hgty := hgt y (by simp at hy ⊢; tauto)
      rw [hh] at ih'
      simpa [hcy, hgty] using ih'

/-- A message is linked in between `l₁` and `l₂`. -/
theorem OnQueue.insert {m m' : Mem} {q q' : Queue} {bp : ℕ} {l₁ l₂ : List ℕ}
    (h : OnQueue m q (l₁ ++ l₂)) (hnodup : (l₁ ++ l₂).Nodup) (hbp : bp ∉ l₁ ++ l₂)
    (hn : ∀ x, (m'.mblk x).b_next = if x = bp then l₂.head? else
      if l₁.getLast? = some x then some bp else (m.mblk x).b_next)
    (hp : ∀ x, (m'.mblk x).b_prev = if x = bp then l₁.getLast? else
      if l₂.head? = some x then some bp else (m.mblk x).b_prev)
    (hfirst : q'.q_first = (l₁ ++ bp :: l₂).head?)
    (hlast : q'.q_last = (l₁ ++ bp :: l₂).getLast?) (hs : ∀ a, SameBlock m m' a)
    (hq : q' = { q with q_first := q'.q_first, q_last := q'.q_last }) :
    OnQueue m' q' (l₁ ++ bp :: l₂) ∧ Relinked m m' q q' (l₁ ++ bp :: l₂) := by
  refine ⟨⟨hfirst, hlast, h.linked.insert hnodup (fun x hx => ?_) (fun x hx => ?_) ?_ ?_⟩,
    hs, fun a ha => ?_, hq⟩
  · exact (hn x).trans (if_neg fun he : x = bp => hbp (he ▸ hx))
  · exact (hp x).trans (if_neg fun he : x = bp => hbp (he ▸ hx))
  · exact (hn bp).trans (if_pos rfl)
  · rw [Option.or_none]
    exact (hp bp).trans (if_pos rfl)
  · have hbp : a ≠ bp := fun he => ha (by simp [he])
    rw [hn a, if_neg hbp, if_neg fun he => ha (List.mem_append_left _ (List.mem_of_getLast? he))]

section Link

variable {v : Config} {m : Mem} {q : Queue} {mcls bp : ℕ} {cls : ℕ → ℕ} {l₁ l₂ : List ℕ}

theorem putBefore_spec {x : ℕ} (h : OnQueue m q (l₁ ++ x :: l₂)) (hnodup : (l₁ ++ x :: l₂).Nodup)
    (hbp : bp ∉ l₁ ++ x :: l₂) :
    OnQueue (putBefore bp x m q).1 (putBefore bp x m q).2 (l₁ ++ bp :: x :: l₂) ∧
      Relinked m (putBefore bp x m q).1 q (putBefore bp x m q).2 (l₁ ++ bp :: x :: l₂) := by
  have hprev : (m.mblk x).b_prev = l₁.getLast? := by
    rw [← Option.or_none (o := l₁.getLast?)]
    exact h.linked.prev_eq
  have hx : x ≠ bp := fun he => hbp (by simp [he])
  have hlast : q.q_last = (l₁ ++ bp :: x :: l₂).getLast? := by
    rw [h.last]
    simp
  rcases List.eq_nil_or_concat l₁ with rfl | ⟨l, b, rfl⟩
  · have hput : putBefore bp x m q = (((m.setNext bp (some x)).setPrev bp none).setPrev x (some bp),
        { q with q_first := some bp }) := by
      simp [putBefore, hprev, hx]
    rw [hput]
    refine h.insert hnodup hbp (fun a => ?_) (fun a => ?_) rfl hlast (fun a =>
      ((sameBlock_setNext ..).trans (sameBlock_setPrev ..)).trans (sameBlock_setPrev ..)) rfl
    · simp
    · by_cases ha : a = bp
      · simp [ha, hx.symm]
      · simp [ha, @eq_comm _ x a]
  · have hb : b ≠ bp := fun he => hbp (by simp [he])
    have hprev' : (m.mblk x).b_prev = some b := by rw [hprev]; simp
    have hput : putBefore bp x m q = ((((m.setNext bp (some x)).setPrev bp (some b)).setNext b
        (some bp)).setPrev x (some bp), q) := by
      simp [putBefore, hprev', hx]
    rw [hput]
    refine h.insert hnodup hbp (fun a => ?_) (fun a => ?_) ?_ hlast (fun a =>
      (((sameBlock_setNext ..).trans (sameBlock_setPrev ..)).trans
        (sameBlock_setNext ..)).trans (sameBlock_setPrev ..)) rfl
    · by_cases ha : a = bp
      · simp [ha, hb.symm]
      · simp [ha, @eq_comm _ b a]
    · by_cases ha : a = bp
      · simp [ha, hx.symm]
      · simp [ha, @eq_comm _ x a]
    · rw [h.first]
      cases l <;> rfl

theorem putBehind_spec {x : ℕ} (h : OnQueue m q ((l₁ ++ [x]) ++ l₂))
    (hnodup : ((l₁ ++ [x]) ++ l₂).Nodup) (hbp : bp ∉ (l₁ ++ [x]) ++ l₂) :
    OnQueue (putBehind bp x m q).1 (putBehind bp x m q).2 ((l₁ ++ [x]) ++ bp :: l₂) ∧
      Relinked m (putBehind bp x m q).1 q (putBehind bp x m q).2 ((l₁ ++ [x]) ++ bp :: l₂) := by
  have hnext : (m.mblk x).b_next = l₂.head? := by
    have := h.linked
    rw [List.append_assoc] at this
    exact this.next_eq
  have hx : x ≠ bp := fun he => hbp (by simp [he])
  have hfirst : q.q_first = ((l₁ ++ [x]) ++ bp :: l₂).head? := by
    rw [h.first]
    cases l₁ <;> rfl
  cases l₂ with
  | nil =>
    have hput : putBehind bp x m q = (((m.setNext bp none).setNext x (some bp)).setPrev bp (some x),
        { q with q_last := some bp }) := by
      simp [putBehind, hnext]
    rw [hput]
    refine h.insert hnodup hbp (fun a => ?_) (fun a => ?_) hfirst List.getLast?_concat.symm
      (fun a => ((sameBlock_setNext ..).trans (sameBlock_setNext ..)).trans
        (sameBlock_setPrev ..)) rfl
    · by_cases ha : a = bp
      · simp [ha, hx.symm]
      · simp [ha, @eq_comm _ x a]
    · simp
  | cons b l₂ =>
    have hb : b ≠ bp := fun he => hbp (by simp [he])
    have hput : putBehind bp x m q = ((((m.setNext bp (some b)).setPrev b (some bp)).setNext x
        (some bp)).setPrev bp (some x), q) := by
      simp [putBehind, hnext]
    rw [hput]
    refine h.insert hnodup hbp (fun a => ?_) (fun a => ?_) hfirst ?_ (fun a =>
      (((sameBlock_setNext ..).trans (sameBlock_setPrev ..)).trans
        (sameBlock_setNext ..)).trans (sameBlock_setPrev ..)) rfl
    · by_cases ha : a = bp
      · simp [ha, hx.symm]
      · simp [ha, @eq_comm _ x a]
    · by_cases ha : a = bp
      · simp [ha]
      · simp [ha, @eq_comm _ b a]
    · rw [h.last]
      simp

theorem putLink_spec (h : OnQueue m q (l₁ ++ l₂)) (hnodup : (l₁ ++ l₂).Nodup)
    (hbp : bp ∉ l₁ ++ l₂) (hlen : (l₁ ++ l₂).length ≤ v.nmblock)
    (hcls : ∀ a ∈ l₁ ++ l₂, queclass m a = some (cls a))
    (hge : ∀ a ∈ l₁, mcls ≤ cls a) (hlt : ∀ a ∈ l₂, cls a < mcls) :
    ∃ m' q', putLink v mcls bp m q = some (m', q') ∧ OnQueue m' q' (l₁ ++ bp :: l₂) ∧
      Relinked m m' q q' (l₁ ++ bp :: l₂) := by
  have hlast (l : List ℕ) (x : ℕ) : ∃ y ∈ x :: l, (x :: l).getLast? = some y :=
    ⟨_, List.getLast_mem (List.cons_ne_nil x l), List.getLast?_eq_some_getLast (List.cons_ne_nil x l)⟩
  cases l₂ with
  | nil =>
    -- No message is of a lower class: the message goes to the end.
    rw [List.append_nil] at h hnodup hbp hlen hcls
    cases l₁ with
    | nil =>
      refine ⟨_, _, by rw [putLink, h.first]; rfl, h.insert hnodup hbp (fun x => ?_) (fun x => ?_)
        rfl rfl (fun a => (sameBlock_setPrev ..).trans (sameBlock_setNext ..)) rfl⟩ <;>
        by_cases hx : x = bp <;> simp [hx]
    | cons x l₁ =>
      obtain ⟨y, hy, hyl⟩ := hlast l₁ x
      have hne : y ≠ bp := fun he => hbp (he ▸ hy)
      refine ⟨((m.setNext y (some bp)).setPrev bp (some y)).setNext bp none,
        { q with q_last := some bp }, ?_, ?_⟩
      · rw [putLink, h.first, List.head?_cons]
        simp [h.last, hyl, hcls y hy, hge y hy]
      · have hq : OnQueue m q ((x :: l₁) ++ []) := by simpa using h
        refine hq.insert (by simpa using hnodup) (by simpa using hbp) (fun a => ?_) (fun a => ?_)
          h.first List.getLast?_concat.symm (fun a => ((sameBlock_setNext ..).trans
            (sameBlock_setPrev ..)).trans (sameBlock_setNext ..)) rfl
        · rw [hyl]
          by_cases ha : a = bp <;> simp [ha, @eq_comm _ y a]
        · rw [hyl]
          by_cases ha : a = bp <;> simp [ha]
  | cons x l₂ =>
    -- The message goes before the first one of a lower class.
    obtain ⟨y, hy, hyl⟩ := hlast l₂ x
    have hqlast : q.q_last = some y := by rw [h.last, List.getLast?_append, hyl, Option.some_or]
    obtain ⟨first, hfirst⟩ : ∃ first, (l₁ ++ x :: l₂).head? = some first := by
      cases l₁ <;> exact ⟨_, rfl⟩
    have hfind : findLower m mcls v.nmblock first = some x := by
      have := findLower_spec (n := v.nmblock) (by simp at hlen; omega) hcls h.linked hge
        (hlt x List.mem_cons_self)
      rwa [hfirst] at this
    have hput : putLink v mcls bp m q = some (putBefore bp x m q) := by
      rw [putLink, h.first, hfirst]
      simp [hqlast, hcls y (by simp at hy ⊢; tauto), hlt y hy, hfind]
    obtain ⟨hq, hr⟩ := putBefore_spec h hnodup hbp
    exact ⟨_, _, hput, hq, hr⟩

theorem putbLink_spec (h : OnQueue m q (l₁ ++ l₂)) (hnodup : (l₁ ++ l₂).Nodup)
    (hbp : bp ∉ l₁ ++ l₂) (hlen : (l₁ ++ l₂).length ≤ v.nmblock)
    (hcls : ∀ a ∈ l₁ ++ l₂, queclass m a = some (cls a))
    (hgt : ∀ a ∈ l₁, mcls < cls a) (hle : ∀ a ∈ l₂, cls a ≤ mcls) :
    ∃ m' q', putbLink v mcls bp m q = some (m', q') ∧ OnQueue m' q' (l₁ ++ bp :: l₂) ∧
      Relinked m m' q q' (l₁ ++ bp :: l₂) := by
  rcases List.eq_nil_or_concat l₁ with rfl | ⟨l, x, rfl⟩
  · -- No message is of a higher class: the message goes to the front.
    cases l₂ with
    | nil =>
      refine ⟨_, _, by rw [putbLink, h.first]; rfl, h.insert hnodup hbp (fun x => ?_) (fun x => ?_)
        rfl rfl (fun a => (sameBlock_setNext ..).trans (sameBlock_setPrev ..)) rfl⟩ <;>
        by_cases hx : x = bp <;> simp [hx]
    | cons x l₂ =>
      have hx : x ≠ bp := fun he => hbp (by simp [he])
      refine ⟨((m.setNext bp (some x)).setPrev bp none).setPrev x (some bp),
        { q with q_first := some bp }, ?_, h.insert hnodup hbp (fun a => ?_) (fun a => ?_) rfl ?_
          (fun a => ((sameBlock_setNext ..).trans (sameBlock_setPrev ..)).trans
            (sameBlock_setPrev ..)) rfl⟩
      · rw [putbLink, h.first]
        simp [hcls x (by simp), hle x List.mem_cons_self]
      · simp
      · by_cases ha : a = bp
        · simp [ha, hx.symm]
        · simp [ha, @eq_comm _ x a]
      · rw [h.last]
        simp
  · -- The message goes behind the last one of a higher class.
    rw [List.concat_eq_append] at *
    obtain ⟨first, hfirst⟩ : ∃ first ∈ l ++ [x], (l ++ [x] ++ l₂).head? = some first := by
      cases l <;> simp
    have hfind : findHigher m mcls v.nmblock first = some x := by
      have hlen' : l.length < v.nmblock := by simp at hlen; omega
      have := findHigher_spec hlen' (by simpa using hcls) (by simpa using h.linked) hgt hle
      rw [← List.singleton_append, ← List.append_assoc, hfirst.2] at this
      exact this
    have hput : putbLink v mcls bp m q = some (putBehind bp x m q) := by
      rw [putbLink, h.first, hfirst.2]
      have hcf := hcls first (List.mem_append_left _ hfirst.1)
      have hgf := hgt first hfirst.1
      simp [hcf, Nat.not_le.2 hgf, hfind]
    obtain ⟨hq, hr⟩ := putBehind_spec h hnodup hbp
    exact ⟨_, _, hput, hq, hr⟩

theorem getLink_spec {a : ℕ} {l : List ℕ} (h : OnQueue m q (a :: l)) (hnodup : (a :: l).Nodup) :
    ∃ m' q', getLink a m q = (m', q') ∧ OnQueue m' q' l ∧ (∀ b, SameBlock m m' b) ∧
      q' = { q with q_first := q'.q_first, q_last := q'.q_last } := by
  have hnext : (m.mblk a).b_next = l.head? := h.linked.2.1
  have ha : a ∉ l := (List.nodup_cons.1 hnodup).1
  cases l with
  | nil =>
    refine ⟨_, _, by rw [getLink, hnext]; rfl, ⟨rfl, rfl, trivial⟩, sameBlock_setNext m a none, rfl⟩
  | cons b l =>
    refine ⟨_, { q with q_first := some b }, by rw [getLink, hnext]; rfl,
      ⟨rfl, h.last.trans (by simp), ?_⟩, fun c =>
        (sameBlock_setPrev ..).trans (sameBlock_setNext ..), rfl⟩
    refine h.linked.pop hnodup (fun c hc => ?_) fun c hc => ?_
    · have hca : c ≠ a := fun he => ha (he ▸ hc)
      simp [hca]
    · simp [@eq_comm _ b c]

end Link

end AuxKernel.Stream
