import AuxKernel.Net.Listen

/-!
# A socket waits in one queue

In every state of the queues of a listening socket (`Inv`), the two rings are apart, their lengths
are `so_q0len` and `so_qlen`, and the sockets in them are those with this `so_head`.

* `soqremque_mem`, `soqremque_not_mem`: a walk along a ring finds a socket, or ends;
* `Inv.insert`, `Inv.modify`: what other calls do to the queues;
* `sonewconn_inv`: a call that fails leaves them as they were, whatever the protocol has done.
-/

namespace AuxKernel.Net.Listen

variable {nmb head so x y : ℕ} {q q' : Bool} {s s' : State} {f : Socket → Socket}
  {l : Bool → List ℕ}

/-! ## Fields -/

theorem modify_same (x : ℕ) (f : Socket → Socket) (s : State) :
    (s.modify x f).so x = f (s.so x) := Function.update_self ..

theorem modify_of_ne (h : y ≠ x) (f : Socket → Socket) (s : State) :
    (s.modify x f).so y = s.so y := Function.update_of_ne h ..

/-- A field that is not changed. -/
theorem modify_keep {β : Type*} (g : Socket → β) (h : ∀ a, g (f a) = g a) (x y : ℕ) (s : State) :
    g ((s.modify x f).so y) = g (s.so y) := by
  by_cases hy : y = x
  · rw [hy, modify_same, h]
  · rw [modify_of_ne hy]

@[simp] theorem modify_used : (s.modify x f).used = s.used := rfl

@[simp] theorem setUsed_so {b : Bool} : (s.setUsed x b).so = s.so := rfl

@[simp] theorem link_setLink (a : Socket) (next : Option ℕ) :
    (a.setLink q next).link q' = if q' = q then next else a.link q' := by
  cases q <;> cases q' <;> rfl

@[simp] theorem len_setLink (a : Socket) (next : Option ℕ) :
    (a.setLink q next).len q' = a.len q' := by
  cases q <;> cases q' <;> rfl

@[simp] theorem link_addLen (a : Socket) (n : ℤ) : (a.addLen q n).link q' = a.link q' := by
  cases q <;> cases q' <;> rfl

@[simp] theorem len_addLen (a : Socket) (n : ℤ) :
    (a.addLen q n).len q' = if q' = q then toShort (a.len q + n) else a.len q' := by
  cases q <;> cases q' <;> rfl

@[simp] theorem setLink_head (a : Socket) (next : Option ℕ) :
    (a.setLink q next).so_head = a.so_head := by
  cases q <;> rfl

@[simp] theorem addLen_head (a : Socket) (n : ℤ) : (a.addLen q n).so_head = a.so_head := by
  cases q <;> rfl

@[simp] theorem setLink_qlimit (a : Socket) (next : Option ℕ) :
    (a.setLink q next).so_qlimit = a.so_qlimit := by
  cases q <;> rfl

@[simp] theorem addLen_qlimit (a : Socket) (n : ℤ) : (a.addLen q n).so_qlimit = a.so_qlimit := by
  cases q <;> rfl

/-! ## The invariant -/

/-- The sockets in the queues. -/
structure Inv (nmb head : ℕ) (s : State) (l : Bool → List ℕ) : Prop where
  ring : ∀ q, Circular (fun x => (s.so x).link q) (head :: l q)
  nodup : ∀ q, (head :: l q).Nodup
  apart : ∀ q, ∀ x ∈ l q, x ∉ l !q
  len : ∀ q, (s.so head).len q = (l q).length
  pending : ∀ x, (s.so x).so_head = some head ↔ ∃ q, x ∈ l q
  lt : ∀ q, ∀ x ∈ head :: l q, x < nmb
  used : ∀ q, ∀ x ∈ head :: l q, s.used x
  limit : 0 ≤ (s.so head).so_qlimit ∧ (s.so head).so_qlimit ≤ SOMAXCONN
  total : (l false).length + (l true).length ≤ 8

/-- What happens to a socket that does not wait, before and after. -/
theorem Inv.modify (h : Inv nmb head s l) (hx : x ≠ head) (hold : (s.so x).so_head ≠ some head)
    (hnew : (f (s.so x)).so_head ≠ some head) : Inv nmb head (s.modify x f) l := by
  have hmem (q : Bool) (y : ℕ) (hy : y ∈ head :: l q) : y ≠ x := by
    rintro rfl
    rcases List.mem_cons.1 hy with rfl | hy
    · exact hx rfl
    · exact hold ((h.pending y).2 ⟨q, hy⟩)
  have hhead : (s.modify x f).so head = s.so head := modify_of_ne hx.symm f s
  refine ⟨fun q => (h.ring q).congr fun y hy => ?_, h.nodup, h.apart, fun q => ?_, fun y => ?_,
    h.lt, h.used, ?_, h.total⟩
  · rw [modify_of_ne (hmem q y hy)]
  · rw [hhead]
    exact h.len q
  · by_cases hy : y = x
    · subst hy
      rw [modify_same]
      refine iff_of_false hnew ?_
      rintro ⟨q, hq⟩
      exact hmem q y (List.mem_cons_of_mem _ hq) rfl
    · rw [modify_of_ne hy]
      exact h.pending y
  · rw [hhead]
    exact h.limit

theorem Inv.setUsed (h : Inv nmb head s l) {b : Bool} (hx : x ≠ head)
    (hold : (s.so x).so_head ≠ some head) : Inv nmb head (s.setUsed x b) l := by
  refine ⟨h.ring, h.nodup, h.apart, h.len, h.pending, h.lt, fun q y hy => ?_, h.limit, h.total⟩
  have hy' : y ≠ x := by
    rintro rfl
    rcases List.mem_cons.1 hy with rfl | hy
    · exact hx rfl
    · exact hold ((h.pending y).2 ⟨q, hy⟩)
  exact (congrArg (· = true) (Function.update_of_ne hy' _ _)).mpr (h.used q y hy)

/-- Fields that have nothing to do with queues. -/
theorem Inv.same (h : Inv nmb head s l) (hused : ∀ y, s.used y → s'.used y)
    (hlink : ∀ q y, (s'.so y).link q = (s.so y).link q)
    (hhead : ∀ y, (s'.so y).so_head = (s.so y).so_head)
    (hlen : ∀ q, (s'.so head).len q = (s.so head).len q)
    (hlimit : 0 ≤ (s'.so head).so_qlimit ∧ (s'.so head).so_qlimit ≤ SOMAXCONN) :
    Inv nmb head s' l :=
  ⟨fun q => (h.ring q).congr fun y _ => hlink q y, h.nodup, h.apart,
    fun q => (hlen q).trans (h.len q), fun y => by rw [hhead y, h.pending y], h.lt,
    fun q y hy => hused y (h.used q y hy), hlimit, h.total⟩

/-! ## Into a queue -/

section Insert

variable (hne : so ≠ head)
include hne

theorem soqinsque_so (q : Bool) (s : State) :
    (soqinsque head so q s).so so =
      { s.so so with so_head := some head }.setLink q ((s.so head).link q) := by
  rw [soqinsque, modify_of_ne hne, modify_same, modify_of_ne hne, modify_same, modify_same,
    link_addLen, modify_of_ne hne.symm]

theorem soqinsque_head (q : Bool) (s : State) :
    (soqinsque head so q s).so head = ((s.so head).addLen q 1).setLink q (some so) := by
  rw [soqinsque, modify_same, modify_of_ne hne.symm, modify_same, modify_of_ne hne.symm]

omit hne in
theorem soqinsque_of_ne (q : Bool) (s : State) (hx : x ≠ so) (hxh : x ≠ head) :
    (soqinsque head so q s).so x = s.so x := by
  rw [soqinsque, modify_of_ne hxh, modify_of_ne hx, modify_of_ne hxh, modify_of_ne hx]

omit hne in
theorem mem_insert (l : Bool → List ℕ) :
    x ∈ Function.update l q (so :: l q) q' ↔ q' = q ∧ x = so ∨ x ∈ l q' := by
  by_cases hq : q' = q
  · subst hq
    rw [Function.update_self, List.mem_cons]
    simp
  · rw [Function.update_of_ne hq]
    simp [hq]

omit hne in
/-- The sum of the lengths. -/
theorem total_update (l : Bool → List ℕ) (q : Bool) (l' : List ℕ) :
    (Function.update l q l' false).length + (Function.update l q l' true).length =
      l'.length + (l !q).length := by
  cases q
  · rw [Function.update_self, Function.update_of_ne (by decide)]
    rfl
  · rw [Function.update_self, Function.update_of_ne (by decide), Nat.add_comm]
    rfl

omit hne in
theorem Inv.total_eq (h : Inv nmb head s l) (q : Bool) : (l q).length + (l !q).length ≤ 8 := by
  have := h.total
  cases q
  · exact this
  · rwa [Nat.add_comm] at this

/-- A socket is put in a queue. -/
theorem Inv.insert (h : Inv nmb head s l) (hno : ∀ q, so ∉ l q) (hlt : so < nmb)
    (hused : s.used so) (q : Bool) (hroom : (l q).length + (l !q).length < 8) :
    Inv nmb head (soqinsque head so q s) (Function.update l q (so :: l q)) := by
  have hmem (q' : Bool) (y : ℕ) (hy : y ∈ l q') : y ≠ so ∧ y ≠ head := by
    constructor
    · rintro rfl
      exact hno q' hy
    · rintro rfl
      exact (List.nodup_cons.1 (h.nodup q')).1 hy
  have hhead : head ∉ so :: l q := by
    rw [List.mem_cons]
    rintro (rfl | hh)
    · exact hne rfl
    · exact (hmem q head hh).2 rfl
  constructor
  · intro q'
    by_cases hq : q' = q
    · subst hq
      rw [Function.update_self]
      refine (h.ring q').cons ?_ ?_ fun y hy => ?_
      · rw [soqinsque_so hne, link_setLink, if_pos rfl]
      · rw [soqinsque_head hne, link_setLink, if_pos rfl]
      · rw [soqinsque_of_ne _ _ (hmem q' y hy).1 (hmem q' y hy).2]
    · rw [Function.update_of_ne hq]
      refine (h.ring q').congr fun y hy => ?_
      rcases List.mem_cons.1 hy with rfl | hy
      · rw [soqinsque_head hne, link_setLink, if_neg hq, link_addLen]
      · rw [soqinsque_of_ne _ _ (hmem q' y hy).1 (hmem q' y hy).2]
  · intro q'
    by_cases hq : q' = q
    · subst hq
      rw [Function.update_self]
      exact List.nodup_cons.2 ⟨hhead, List.nodup_cons.2 ⟨hno q', (h.nodup q').of_cons⟩⟩
    · rw [Function.update_of_ne hq]
      exact h.nodup q'
  · intro q' y hy
    rw [mem_insert] at hy ⊢
    rintro (⟨hq, rfl⟩ | hy')
    · rcases hy with ⟨hq', -⟩ | hy
      · exact absurd (hq'.trans hq.symm) (by cases q' <;> decide)
      · exact hno q' hy
    · rcases hy with ⟨-, rfl⟩ | hy
      · exact hno _ hy'
      · exact h.apart q' y hy hy'
  · intro q'
    rw [soqinsque_head hne, len_setLink, len_addLen]
    by_cases hq : q' = q
    · subst hq
      rw [if_pos rfl, Function.update_self, h.len q', List.length_cons,
        toShort_of_mem (by omega) (by omega)]
      rfl
    · rw [if_neg hq, Function.update_of_ne hq]
      exact h.len q'
  · intro y
    simp only [mem_insert]
    by_cases hso : y = so
    · subst hso
      rw [soqinsque_so hne, setLink_head]
      exact iff_of_true rfl ⟨q, .inl ⟨rfl, rfl⟩⟩
    · have hold : (∃ q', q' = q ∧ y = so ∨ y ∈ l q') ↔ ∃ q, y ∈ l q := by
        simp [hso]
      rw [hold]
      by_cases hh : y = head
      · subst hh
        rw [soqinsque_head hne, setLink_head, addLen_head]
        exact h.pending y
      · rw [soqinsque_of_ne _ _ hso hh]
        exact h.pending y
  · intro q' y hy
    rcases List.mem_cons.1 hy with rfl | hy
    · exact h.lt q' y List.mem_cons_self
    · rcases (mem_insert l).1 hy with ⟨-, rfl⟩ | hy
      · exact hlt
      · exact h.lt q' y (List.mem_cons_of_mem _ hy)
  · intro q' y hy
    rcases List.mem_cons.1 hy with rfl | hy
    · exact h.used q' y List.mem_cons_self
    · rcases (mem_insert l).1 hy with ⟨-, rfl⟩ | hy
      · exact hused
      · exact h.used q' y (List.mem_cons_of_mem _ hy)
  · rw [soqinsque_head hne, setLink_qlimit, addLen_qlimit]
    exact h.limit
  · rw [total_update, List.length_cons]
    omega

end Insert

/-! ## Out of a queue -/

/-- The walk finds the socket before one that is on the ring. -/
theorem prevOf_mem {link : ℕ → Option ℕ} {prev : ℕ} {r : List ℕ}
    (h : ChainedTo link (some head) (prev :: r)) (hhead : head ∉ r) (hso : so ∈ r) {n : ℕ}
    (hn : r.length ≤ n) : ∃ r₁ p r₂, prev :: r = r₁ ++ p :: so :: r₂ ∧
      prevOf link head so n prev = some (some p) := by
  induction r generalizing prev n with
  | nil => cases hso
  | cons b r ih =>
    cases n with
    | zero => cases hn
    | succ n =>
      have hnext : link prev = some b := h.1
      have hb : b ≠ head := fun hb => hhead (hb ▸ List.mem_cons_self)
      simp only [prevOf, hnext]
      by_cases hbso : b = so
      · subst hbso
        exact ⟨[], prev, r, rfl, if_pos rfl⟩
      · rw [if_neg hbso, if_neg hb]
        obtain ⟨r₁, p, r₂, hsplit, hprev⟩ := ih h.2 (fun hh => hhead (List.mem_cons_of_mem _ hh))
          ((List.mem_cons.1 hso).resolve_left (Ne.symm hbso)) (Nat.le_of_succ_le_succ hn)
        exact ⟨prev :: r₁, p, r₂, by rw [hsplit]; rfl, hprev⟩

/-- The walk ends, if the socket is not on the ring. -/
theorem prevOf_not_mem {link : ℕ → Option ℕ} {prev : ℕ} {r : List ℕ}
    (h : ChainedTo link (some head) (prev :: r)) (hhead : head ∉ r) (hso : so ∉ head :: r) {n : ℕ}
    (hn : r.length < n) : prevOf link head so n prev = some none := by
  induction r generalizing prev n with
  | nil =>
    cases n with
    | zero => cases hn
    | succ n =>
      have hnext : link prev = some head := h.1
      have hne : head ≠ so := fun hh => hso (hh ▸ List.mem_cons_self)
      simp only [prevOf, hnext, if_neg hne, if_true]
  | cons b r ih =>
    cases n with
    | zero => cases hn
    | succ n =>
      have hnext : link prev = some b := h.1
      have hb : b ≠ head := fun hb => hhead (hb ▸ List.mem_cons_self)
      have hbso : b ≠ so := fun hb => hso (hb ▸ List.mem_cons_of_mem _ List.mem_cons_self)
      simp only [prevOf, hnext, if_neg hbso, if_neg hb]
      refine ih h.2 (fun hh => hhead (List.mem_cons_of_mem _ hh)) (fun hmem => hso ?_)
        (Nat.lt_of_succ_lt_succ hn)
      rcases List.mem_cons.1 hmem with rfl | hmem
      · exact List.mem_cons_self
      · exact List.mem_cons_of_mem _ (List.mem_cons_of_mem _ hmem)

section Unlink

variable {p : ℕ}

theorem unlink_so (p : ℕ) (q : Bool) (s : State) :
    ((s.unlink head p so q).so so).so_head = none := by
  rw [State.unlink, modify_same]

theorem unlink_of_ne (p : ℕ) (q : Bool) (s : State) (hx : x ≠ so) :
    (s.unlink head p so q).so x =
      ((s.modify p (Socket.setLink q ((s.so so).link q))).modify head
        (Socket.addLen q (-1))).so x := by
  rw [State.unlink, modify_of_ne hx, modify_of_ne hx]

theorem unlink_head (p : ℕ) (q : Bool) (s : State) (hx : x ≠ so) :
    ((s.unlink head p so q).so x).so_head = (s.so x).so_head := by
  rw [unlink_of_ne p q s hx, modify_keep Socket.so_head fun a => addLen_head a _,
    modify_keep Socket.so_head fun a => setLink_head a _]

theorem unlink_link (p : ℕ) (q : Bool) (s : State) (hx : x ≠ so) :
    ((s.unlink head p so q).so x).link q' =
      if q' = q ∧ p = x then (s.so so).link q else (s.so x).link q' := by
  rw [unlink_of_ne p q s hx, modify_keep (Socket.link q') fun a => link_addLen a _]
  by_cases hp : p = x
  · rw [hp, modify_same, link_setLink]
    simp
  · rw [modify_of_ne (Ne.symm hp), if_neg fun h => hp h.2]

theorem unlink_len (p : ℕ) (q : Bool) (s : State) (hx : head ≠ so) :
    ((s.unlink head p so q).so head).len q' =
      if q' = q then toShort ((s.so head).len q - 1) else (s.so head).len q' := by
  have hkeep (q' : Bool) : ((s.modify p (Socket.setLink q ((s.so so).link q))).so head).len q' =
      (s.so head).len q' := modify_keep (Socket.len q') (fun a => len_setLink a _) p head s
  rw [unlink_of_ne p q s hx, modify_same, len_addLen, hkeep, hkeep]
  rfl

theorem unlink_qlimit (p : ℕ) (q : Bool) (s : State) (hx : head ≠ so) :
    ((s.unlink head p so q).so head).so_qlimit = (s.so head).so_qlimit := by
  rw [unlink_of_ne p q s hx, modify_keep Socket.so_qlimit fun a => addLen_qlimit a _,
    modify_keep Socket.so_qlimit fun a => setLink_qlimit a _]

end Unlink

theorem length_le_nmb (h : Inv nmb head s l) (q : Bool) : (l q).length < nmb :=
  length_le_of_nodup (h.nodup q) (h.lt q)

/-- A socket that is on the other queue is not found. -/
theorem soqremque_not_mem (h : Inv nmb head s l) (hso : so ∈ l !q) :
    soqremque nmb so q s = some (false, s) := by
  have hhead : (s.so so).so_head = some head := (h.pending so).2 ⟨_, hso⟩
  have hno : so ∉ head :: l q := by
    intro hmem
    rcases List.mem_cons.1 hmem with rfl | hmem
    · exact (List.nodup_cons.1 (h.nodup _)).1 hso
    · exact h.apart q so hmem hso
  simp only [soqremque, hhead]
  rw [prevOf_not_mem (h.ring q) (List.nodup_cons.1 (h.nodup q)).1 hno (length_le_nmb h q)]

/-- A socket is taken out of its queue. -/
theorem soqremque_mem (h : Inv nmb head s l) (hso : so ∈ l q) :
    ∃ s', soqremque nmb so q s = some (true, s') ∧ s'.used = s.used ∧
      (s'.so so).so_head = none ∧ Inv nmb head s' (Function.update l q ((l q).erase so)) := by
  have hhead : (s.so so).so_head = some head := (h.pending so).2 ⟨_, hso⟩
  obtain ⟨hnot, hnodup⟩ := List.nodup_cons.1 (h.nodup q)
  have hne : head ≠ so := fun hh => hnot (hh ▸ hso)
  obtain ⟨r₁, p, r₂, hsplit, hprev⟩ := prevOf_mem (h.ring q) hnot hso (length_le_nmb h q).le
  refine ⟨s.unlink head p so q, ?_, rfl, unlink_so p q s, ?_⟩
  · simp only [soqremque, hhead]
    rw [hprev]
  have hnd : (r₁ ++ p :: so :: r₂).Nodup := hsplit ▸ h.nodup q
  have hnd' : (r₁ ++ [p] ++ so :: r₂).Nodup := by rwa [List.append_cons] at hnd
  obtain ⟨hnd₁, hnd₂, hdis⟩ := List.nodup_append'.1 hnd'
  have hso₁ : so ∉ r₁ ++ [p] := fun hh => hdis hh List.mem_cons_self
  have hso₂ : so ∉ r₂ := (List.nodup_cons.1 hnd₂).1
  have herase : head :: (l q).erase so = r₁ ++ p :: r₂ := by
    rw [← List.erase_cons_tail (by simpa using hne), hsplit, List.append_cons,
      List.erase_append_right _ hso₁, List.erase_cons_head, ← List.append_cons]
  have hmem (q' : Bool) (y : ℕ) (hy : y ∈ Function.update l q ((l q).erase so) q') :
      y ≠ so ∧ y ∈ l q' := by
    by_cases hq : q' = q
    · subst hq
      rw [Function.update_self] at hy
      exact hnodup.mem_erase_iff.1 hy
    · rw [Function.update_of_ne hq] at hy
      refine ⟨?_, hy⟩
      rintro rfl
      rw [show q' = !q by cases q <;> cases q' <;> simp_all] at hy
      exact h.apart q y hso hy
  constructor
  · intro q'
    by_cases hq : q' = q
    · subst hq
      rw [Function.update_self, herase]
      refine (hsplit ▸ h.ring q').remove hnd₁ (fun x hx => ?_) fun x hx => ?_
      · have hxso : x ≠ so := fun hh => hso₁ (hh ▸ hx)
        rw [unlink_link p q' s hxso]
        simp only [true_and]
      · have hxso : x ≠ so := fun hh => hso₂ (hh ▸ hx)
        rw [unlink_link p q' s hxso, if_neg]
        rintro ⟨-, rfl⟩
        exact hdis (List.mem_append_right _ List.mem_cons_self) (List.mem_cons_of_mem _ hx)
    · rw [Function.update_of_ne hq]
      refine (h.ring q').congr fun x hx => ?_
      have hxso : x ≠ so := by
        rcases List.mem_cons.1 hx with rfl | hx
        · exact hne
        · exact (hmem q' x (by rwa [Function.update_of_ne hq])).1
      rw [unlink_link p q s hxso, if_neg fun hh => hq hh.1]
  · intro q'
    by_cases hq : q' = q
    · subst hq
      rw [Function.update_self]
      exact List.nodup_cons.2 ⟨fun hh => hnot (List.mem_of_mem_erase hh), hnodup.erase so⟩
    · rw [Function.update_of_ne hq]
      exact h.nodup q'
  · intro q' y hy hy'
    exact h.apart q' y (hmem q' y hy).2 (hmem _ y hy').2
  · intro q'
    have hle := h.total_eq q
    rw [unlink_len p q s hne]
    by_cases hq : q' = q
    · subst hq
      have hpos := List.length_pos_of_mem hso
      rw [if_pos rfl, Function.update_self, h.len q', List.length_erase_of_mem hso,
        toShort_of_mem (by omega) (by omega)]
      omega
    · rw [if_neg hq, Function.update_of_ne hq]
      exact h.len q'
  · intro y
    by_cases hy : y = so
    · subst hy
      rw [unlink_so]
      refine iff_of_false nofun ?_
      rintro ⟨q', hq'⟩
      exact (hmem q' y hq').1 rfl
    · rw [unlink_head p q s hy, h.pending y]
      refine exists_congr fun q' => ?_
      by_cases hq : q' = q
      · subst hq
        rw [Function.update_self, hnodup.mem_erase_iff]
        exact (and_iff_right hy).symm
      · rw [Function.update_of_ne hq]
  · intro q' y hy
    rcases List.mem_cons.1 hy with rfl | hy
    · exact h.lt q y List.mem_cons_self
    · exact h.lt q' y (List.mem_cons_of_mem _ (hmem q' y hy).2)
  · intro q' y hy
    rcases List.mem_cons.1 hy with rfl | hy
    · exact h.used q y List.mem_cons_self
    · exact h.used q' y (List.mem_cons_of_mem _ (hmem q' y hy).2)
  · rw [unlink_qlimit p q s hne]
    exact h.limit
  · rw [total_update]
    exact (Nat.add_le_add_right List.erase_sublist.length_le _).trans (h.total_eq q)

/-! ## Calls -/

theorem Inv.erase_eq (h : Inv nmb head s l) (hso : so ∈ l q) :
    Function.update l q ((l q).erase so) = fun q => (l q).erase so := by
  funext q'
  by_cases hq : q' = q
  · rw [hq, Function.update_self]
  · have hno : so ∉ l q' := by
      have hother : q' = !q := by cases q <;> cases q' <;> simp_all
      exact hother ▸ h.apart q so hso
    rw [Function.update_of_ne hq, List.erase_of_not_mem hno]

/-- A socket that waits is taken out of its queue, a panic is not reached. -/
theorem sofree_inv (h : Inv nmb head s l) (hfree : s.mayFree head so) :
    ∃ s', sofree nmb so s = some s' ∧ (s'.so so).so_head = none ∧
      Inv nmb head s' fun q => (l q).erase so := by
  obtain ⟨hne, hhead⟩ := hfree
  -- The state before the test whether the socket is freed.
  have key (s₁ : State) (hs₁ : (s₁.so so).so_head = none)
      (hinv : Inv nmb head s₁ fun q => (l q).erase so) :
      ∃ s', (some s₁).map (fun s : State =>
          if (s.so so).so_pcb ∨ !(s.so so).ss_nofdref then s else s.setUsed so false) = some s' ∧
        (s'.so so).so_head = none ∧ Inv nmb head s' fun q => (l q).erase so := by
    refine ⟨_, rfl, ?_⟩
    dsimp only
    split
    · exact ⟨hs₁, hinv⟩
    · exact ⟨hs₁, hinv.setUsed hne (by rw [hs₁]; nofun)⟩
  have hclear (s₁ : State) (hs₁ : (s₁.so so).so_head = none)
      (hinv : Inv nmb head s₁ fun q => (l q).erase so) :
      ((s₁.modify so fun x => { x with so_head := none }).so so).so_head = none ∧
        Inv nmb head (s₁.modify so fun x => { x with so_head := none })
          fun q => (l q).erase so :=
    ⟨by rw [modify_same], hinv.modify hne (by rw [hs₁]; nofun) nofun⟩
  rw [sofree]
  rcases hhead with hnone | hsome
  · have hno (q : Bool) : so ∉ l q := by
      intro hmem
      rw [(h.pending so).2 ⟨q, hmem⟩] at hnone
      cases hnone
    simp only [hnone]
    refine key s hnone ?_
    simp only [List.erase_of_not_mem (hno _)]
    exact h
  · obtain ⟨q, hq⟩ := (h.pending so).1 hsome
    simp only [hsome]
    cases q with
    | false =>
      obtain ⟨s₁, hrem, -, hs₁, hinv⟩ := soqremque_mem h hq
      rw [h.erase_eq hq] at hinv
      simp only [hrem]
      exact key _ (hclear s₁ hs₁ hinv).1 (hclear s₁ hs₁ hinv).2
    | true =>
      obtain ⟨s₁, hrem, -, hs₁, hinv⟩ := soqremque_mem h hq
      rw [h.erase_eq hq] at hinv
      rw [soqremque_not_mem h (q := false) hq]
      simp only [hrem]
      exact key _ (hclear s₁ hs₁ hinv).1 (hclear s₁ hs₁ hinv).2

/-- Fields of a socket that have nothing to do with queues. -/
theorem Inv.field (h : Inv nmb head s l) (x : ℕ) (hlink : ∀ a q, (f a).link q = a.link q)
    (hhead : ∀ a, (f a).so_head = a.so_head) (hlen : ∀ a q, (f a).len q = a.len q)
    (hlimit : ∀ a, (f a).so_qlimit = a.so_qlimit) : Inv nmb head (s.modify x f) l := by
  refine h.same (fun _ hy => hy) (fun q y => modify_keep (Socket.link q) (hlink · q) x y s)
    (fun y => modify_keep Socket.so_head hhead x y s)
    (fun q => modify_keep (Socket.len q) (hlen · q) x head s) ?_
  rw [modify_keep Socket.so_qlimit hlimit]
  exact h.limit

theorem in_pcbdetach_inv (h : Inv nmb head s l) (hfree : s.mayFree head so) :
    ∃ s', in_pcbdetach nmb so s = some s' ∧ (s'.so so).so_head = none ∧
      Inv nmb head s' fun q => (l q).erase so := by
  refine sofree_inv (h.field so (fun _ _ => rfl) (fun _ => rfl) (fun _ _ => rfl) fun _ => rfl) ?_
  rw [State.mayFree, modify_same]
  exact hfree

/-- A socket that has just been put in a queue is taken out again. -/
theorem insert_erase (l : Bool → List ℕ) (hno : ∀ q, so ∉ l q) (q : Bool) :
    (fun q' => (Function.update l q (so :: l q) q').erase so) = l := by
  funext q'
  by_cases hq : q' = q
  · rw [hq, Function.update_self, List.erase_cons_head]
  · rw [Function.update_of_ne hq, List.erase_of_not_mem (hno q')]

/-- The protocol attaches a new socket, or fails, and may have taken it out of its queue then. -/
theorem tcp_attach_inv (h : Inv nmb head s l) (hne : so ≠ head) (hso : so ∈ l false)
    (attach : Attach) :
    (∃ s', tcp_attach nmb so s attach = some (false, s') ∧ s'.so head = s.so head ∧
      Inv nmb head s' l) ∨
    (∃ s', tcp_attach nmb so s attach = some (true, s') ∧ (s'.so so).so_head = some head ∧
      Inv nmb head s' l) ∨
    ∃ s', tcp_attach nmb so s attach = some (true, s') ∧ (s'.so so).so_head = none ∧
      Inv nmb head s' fun q => (l q).erase so := by
  have hhead : (s.so so).so_head = some head := (h.pending so).2 ⟨_, hso⟩
  cases attach with
  | ok =>
    exact .inl ⟨_, rfl, modify_of_ne hne.symm _ _,
      h.field so (fun _ _ => rfl) (fun _ => rfl) (fun _ _ => rfl) fun _ => rfl⟩
  | nopcb => exact .inr (.inl ⟨s, rfl, hhead, h⟩)
  | notcpcb =>
    have hinv := h.field so (f := fun x => { x with so_pcb := true, ss_nofdref := false })
      (fun _ _ => rfl) (fun _ => rfl) (fun _ _ => rfl) fun _ => rfl
    obtain ⟨s', hdetach, hs', hinv'⟩ := in_pcbdetach_inv hinv ⟨hne, .inr (by
      rw [modify_same]
      exact hhead)⟩
    rw [tcp_attach, hdetach]
    refine .inr (.inr ⟨_, rfl, ?_,
      hinv'.field so (fun _ _ => rfl) (fun _ => rfl) (fun _ _ => rfl) fun _ => rfl⟩)
    rw [modify_same]
    exact hs'

/-- A new connection waits in `so_q0`, or nothing has happened. -/
theorem sonewconn_inv (h : Inv nmb head s l) {m : Option ℕ}
    (hm : ∀ so ∈ m, so < nmb ∧ !s.used so) (attach : Attach) :
    ∃ r s' l', sonewconn nmb head m attach s = some (r, s') ∧ Inv nmb head s' l' ∧
      (r = none → l' = l) ∧ ∀ so, r = some so → l' = Function.update l false (so :: l false) ∧
        (s.so head).so_qlen + (s.so head).so_q0len ≤ Int.tdiv (3 * (s.so head).so_qlimit) 2 ∧
        (s'.so head).so_qlimit = (s.so head).so_qlimit := by
  rw [sonewconn.eq_def]
  dsimp only
  by_cases hfull : (s.so head).so_qlen + (s.so head).so_q0len >
      Int.tdiv (3 * (s.so head).so_qlimit) 2
  · exact ⟨none, s, l, if_pos hfull, h, fun _ => rfl, nofun⟩
  rw [if_neg hfull]
  cases m with
  | none => exact ⟨none, s, l, rfl, h, fun _ => rfl, nofun⟩
  | some so =>
    dsimp only
    obtain ⟨hlt, hused⟩ := hm so rfl
    have hfree (q : Bool) : so ∉ head :: l q := by
      intro hmem
      rw [h.used q so hmem] at hused
      cases hused
    have hne : so ≠ head := fun hh => hfree false (hh ▸ List.mem_cons_self)
    have hno (q : Bool) : so ∉ l q := fun hmem => hfree q (List.mem_cons_of_mem _ hmem)
    have hhead : (s.so so).so_head ≠ some head := by
      intro hh
      obtain ⟨q, hq⟩ := (h.pending so).1 hh
      exact hno q hq
    -- A socket that is clear, and then in `so_q0`.
    have h₁ : Inv nmb head ((s.setUsed so true).modify so fun _ =>
        { Socket.zero with ss_nofdref := true }) l :=
      (h.setUsed hne hhead).modify hne hhead nofun
    have hroom : (l false).length + (l true).length < 8 := by
      have h0 := h.len false
      have h1 := h.len true
      have := h.limit
      simp only [Socket.len, Bool.false_eq_true, if_false, if_true, SOMAXCONN] at h0 h1 this
      rw [Int.tdiv_eq_ediv_of_nonneg (by omega)] at hfull
      omega
    have h₂ := h₁.insert hne hno hlt (Function.update_self ..) false hroom
    rcases tcp_attach_inv h₂ hne (by rw [Function.update_self]; exact List.mem_cons_self) attach
      with ⟨s', hatt, hs', h₃⟩ | ⟨s', hatt, hs', h₃⟩ | ⟨s', hatt, hs', h₃⟩
    · rw [hatt]
      refine ⟨some so, s', _, rfl, h₃, nofun, ?_⟩
      rintro so' ⟨⟩
      refine ⟨rfl, not_lt.1 hfull, ?_⟩
      rw [hs', soqinsque_head hne, setLink_qlimit, addLen_qlimit, modify_of_ne hne.symm]
      rfl
    · rw [hatt]
      obtain ⟨s'', hrem, -, hs'', h₄⟩ := soqremque_mem h₃ (q := false)
        (by rw [Function.update_self]; exact List.mem_cons_self)
      rw [h₃.erase_eq (by rw [Function.update_self]; exact List.mem_cons_self),
        insert_erase l hno] at h₄
      simp only [hs', Option.isSome_some, if_true, hrem]
      exact ⟨none, _, l, rfl, h₄.setUsed hne (by rw [hs'']; nofun), fun _ => rfl, nofun⟩
    · rw [hatt]
      rw [insert_erase l hno] at h₃
      simp only [hs', Option.isSome_none, Bool.false_eq_true, if_false]
      exact ⟨none, _, l, rfl, h₃.setUsed hne (by rw [hs']; nofun), fun _ => rfl, nofun⟩

theorem soisconnected_inv (h : Inv nmb head s l) (hhead : (s.so so).so_head = some head)
    (hs' : soisconnected nmb so s = some s') : ∃ l', Inv nmb head s' l' := by
  obtain ⟨q, hq⟩ := (h.pending so).1 hhead
  rw [soisconnected, hhead] at hs'
  cases q with
  | false =>
    obtain ⟨s₁, hrem, hused, hs₁, hinv⟩ := soqremque_mem h hq
    rw [h.erase_eq hq] at hinv
    simp only [hrem] at hs'
    cases hs'
    have hno (q : Bool) : so ∉ (l q).erase so :=
      (List.nodup_cons.1 (h.nodup q)).2.not_mem_erase
    have hne : so ≠ head := fun hh => (List.nodup_cons.1 (h.nodup false)).1 (hh ▸ hq)
    refine ⟨_, hinv.insert hne hno (h.lt false so (List.mem_cons_of_mem _ hq)) ?_ true ?_⟩
    · rw [hused]
      exact h.used false so (List.mem_cons_of_mem _ hq)
    · have := h.total
      have hpos := List.length_pos_of_mem hq
      have hle := (List.erase_sublist (a := so) (l := l true)).length_le
      simp only [Bool.not_true, List.length_erase_of_mem hq]
      omega
  | true =>
    simp only [soqremque_not_mem h (q := false) hq] at hs'
    cases hs'

theorem accept_inv (h : Inv nmb head s l) (hqlen : (s.so head).so_qlen ≠ 0)
    (hs' : accept nmb head s = some s') : ∃ l', Inv nmb head s' l' := by
  rw [accept] at hs'
  cases haso : (s.so head).so_q with
  | none => simp [haso] at hs'
  | some aso =>
    simp only [haso] at hs'
    have hring := (h.ring true).1
    simp only [Socket.link, if_true, haso] at hring
    cases hl : l true with
    | nil =>
      have hlen := h.len true
      rw [hl] at hlen
      exact absurd hlen hqlen
    | cons a r =>
      rw [hl] at hring
      cases hring
      have hmem : aso ∈ l true := by
        rw [hl]
        exact List.mem_cons_self
      obtain ⟨s₁, hrem, -, -, hinv⟩ := soqremque_mem h hmem
      simp only [hrem] at hs'
      cases hs'
      exact ⟨_, hinv.field aso (fun _ _ => rfl) (fun _ => rfl) (fun _ _ => rfl) fun _ => rfl⟩

theorem solisten_inv (h : Inv nmb head s l) (backlog : ℤ) :
    Inv nmb head (solisten head backlog s) l := by
  have hlinked : (s.so head).so_q.isNone = false := by
    have hring := (h.ring true).1
    simp only [Socket.link, if_true] at hring
    rw [hring]
    cases l true <;> rfl
  rw [solisten]
  simp only [hlinked, Bool.false_eq_true, if_false]
  have hkeep {β : Type} (g : Socket → β)
      (hg : ∀ (a : Socket) (n : ℤ), g { a with so_qlimit := n } = g a) (y : ℕ) :
      g ((s.modify head fun x =>
        { x with so_qlimit := min (max backlog 0) SOMAXCONN }).so y) = g (s.so y) :=
    modify_keep g (fun a => hg a _) head y s
  refine h.same (fun _ hy => hy) (fun q => hkeep (Socket.link q) fun _ _ => rfl)
    (hkeep Socket.so_head fun _ _ => rfl) (fun q => hkeep (Socket.len q) (fun _ _ => rfl) head) ?_
  rw [modify_same, SOMAXCONN]
  dsimp only
  omega

/-- A socket begins to listen with empty queues. -/
theorem inv_of_init (h : (machine nmb head).init s) : Inv nmb head s fun _ => [] := by
  obtain ⟨s₀, backlog, rfl, hlt, hused, hq, hhead, hq0len, hqlen, hno⟩ := h
  have hempty : (s₀.so head).so_q.isNone = true := by rw [hq]; rfl
  have hlink (q : Bool) : ((solisten head backlog s₀).so head).link q = some head := by
    rw [solisten]
    simp only [hempty, if_true]
    rw [modify_same, modify_same]
    cases q <;> rfl
  have hkeep {β : Type} (g : Socket → β)
      (hg : ∀ (a : Socket) (n : ℤ), g { a with so_qlimit := n } = g a)
      (hg' : ∀ a : Socket, g { a with
        so_q := some head, so_q0 := some head, so_acceptconn := true } = g a) (y : ℕ) :
      g ((solisten head backlog s₀).so y) = g (s₀.so y) := by
    rw [solisten]
    simp only [hempty, if_true]
    rw [modify_keep g fun a => hg a _, modify_keep g hg']
  refine ⟨fun q => ⟨hlink q, trivial⟩, fun q => List.nodup_singleton head, by simp, fun q => ?_,
    fun y => ?_, ?_, ?_, ?_, by simp⟩
  · rw [hkeep (Socket.len q) (fun _ _ => rfl) fun _ => rfl]
    cases q
    · exact hq0len
    · exact hqlen
  · rw [hkeep Socket.so_head (fun _ _ => rfl) fun _ => rfl]
    exact iff_of_false (hno y) (by simp)
  · simpa using hlt
  · intro q y hy
    rw [List.mem_singleton.1 hy]
    rw [solisten]
    simp only [hempty, if_true]
    exact hused
  · rw [solisten]
    simp only [hempty, if_true]
    rw [modify_same, SOMAXCONN]
    dsimp only
    omega

/-! ## Runs -/

theorem exists_inv (h : (machine nmb head).Reachable s) : ∃ l, Inv nmb head s l := by
  refine h.invariant (P := fun s => ∃ l, Inv nmb head s l) (fun s hs => ⟨_, inv_of_init hs⟩) ?_
  rintro s act s' ⟨l, hl⟩ - hnext
  cases act with
  | sonewconn m attach =>
    dsimp only [machine] at hnext
    by_cases hm : ∀ so ∈ m, so < nmb ∧ !s.used so
    · rw [if_pos hm] at hnext
      obtain ⟨r, s₁, l', hcall, hinv, -⟩ := sonewconn_inv hl hm attach
      rw [hcall] at hnext
      cases hnext
      exact ⟨l', hinv⟩
    · rw [if_neg hm] at hnext
      cases hnext
  | soisconnected so =>
    dsimp only [machine] at hnext
    by_cases hhead : (s.so so).so_head = some head
    · rw [if_pos hhead] at hnext
      exact soisconnected_inv hl hhead hnext
    · rw [if_neg hhead] at hnext
      cases hnext
  | accept =>
    dsimp only [machine] at hnext
    by_cases hqlen : (s.so head).so_qlen ≠ 0
    · rw [if_pos hqlen] at hnext
      exact accept_inv hl hqlen hnext
    · rw [if_neg hqlen] at hnext
      cases hnext
  | in_pcbdetach so =>
    dsimp only [machine] at hnext
    by_cases hfree : s.mayFree head so
    · rw [if_pos hfree] at hnext
      obtain ⟨s₁, hcall, -, hinv⟩ := in_pcbdetach_inv hl hfree
      rw [hcall] at hnext
      cases hnext
      exact ⟨_, hinv⟩
    · rw [if_neg hfree] at hnext
      cases hnext
  | sofree so =>
    dsimp only [machine] at hnext
    by_cases hfree : s.mayFree head so
    · rw [if_pos hfree] at hnext
      obtain ⟨s₁, hcall, -, hinv⟩ := sofree_inv hl hfree
      rw [hcall] at hnext
      cases hnext
      exact ⟨_, hinv⟩
    · rw [if_neg hfree] at hnext
      cases hnext
  | soqremque so q =>
    dsimp only [machine] at hnext
    by_cases hhead : (s.so so).so_head = some head
    · rw [if_pos hhead] at hnext
      obtain ⟨q', hq'⟩ := (hl.pending so).1 hhead
      by_cases hq : q' = q
      · subst hq
        obtain ⟨s₁, hcall, -, -, hinv⟩ := soqremque_mem hl hq'
        rw [hcall] at hnext
        cases hnext
        exact ⟨_, hinv⟩
      · have hother : q' = !q := by cases q <;> cases q' <;> simp_all
        rw [soqremque_not_mem hl (hother ▸ hq')] at hnext
        cases hnext
        exact ⟨l, hl⟩
    · rw [if_neg hhead] at hnext
      cases hnext
  | solisten backlog =>
    cases hnext
    exact ⟨l, solisten_inv hl backlog⟩
  | other x so used =>
    dsimp only [machine] at hnext
    by_cases hx : x ≠ head ∧ (s.so x).so_head ≠ some head ∧ so.so_head ≠ some head
    · rw [if_pos hx] at hnext
      cases hnext
      refine ⟨l, (hl.modify hx.1 hx.2.1 hx.2.2).setUsed hx.1 ?_⟩
      rw [modify_same]
      exact hx.2.2
    · rw [if_neg hx] at hnext
      cases hnext

/-- What holds of the queues of a listening socket. -/
structure Exact (nmb head : ℕ) (s : State) : Prop where
  /-- The sockets that wait are in one of the rings each, which are as long as is counted. -/
  queues : ∃ l, Inv nmb head s l
  /-- A socket that is removed is in neither, and has no `so_head`. -/
  removed : ∀ so q s', (s.so so).so_head = some head → soqremque nmb so q s = some (true, s') →
    (s'.so so).so_head = none ∧ ∃ l, Inv nmb head s' l ∧ ∀ q, so ∉ l q
  /-- There are not too many that wait after a new one, and none more if there is no new one. -/
  bound : ∀ m attach, (∀ so ∈ m, so < nmb ∧ !s.used so) →
    ∃ r s', sonewconn nmb head m attach s = some (r, s') ∧
      if r.isSome then (s'.so head).so_qlen + (s'.so head).so_q0len ≤
          Int.tdiv (3 * (s'.so head).so_qlimit) 2 + 1
        else (s'.so head).so_qlen + (s'.so head).so_q0len =
          (s.so head).so_qlen + (s.so head).so_q0len

theorem Inv.sum (h : Inv nmb head s l) : (s.so head).so_qlen + (s.so head).so_q0len =
    ((l false).length + (l true).length : ℕ) := by
  have h0 : (s.so head).so_q0len = (l false).length := h.len false
  have h1 : (s.so head).so_qlen = (l true).length := h.len true
  omega

theorem waits_exact (h : (machine nmb head).Reachable s) : Exact nmb head s := by
  obtain ⟨l, hl⟩ := exists_inv h
  refine ⟨⟨l, hl⟩, ?_, ?_⟩
  · intro so q s' hhead hcall
    obtain ⟨q', hq'⟩ := (hl.pending so).1 hhead
    by_cases hq : q' = q
    · subst hq
      obtain ⟨s₁, hrem, -, hs₁, hinv⟩ := soqremque_mem hl hq'
      cases hrem.symm.trans hcall
      rw [hl.erase_eq hq'] at hinv
      exact ⟨hs₁, _, hinv, fun q => (List.nodup_cons.1 (hl.nodup q)).2.not_mem_erase⟩
    · have hother : q' = !q := by cases q <;> cases q' <;> simp_all
      rw [soqremque_not_mem hl (hother ▸ hq')] at hcall
      cases hcall
  · intro m attach hm
    obtain ⟨r, s', l', hcall, hinv, hnone, hsome⟩ := sonewconn_inv hl hm attach
    refine ⟨r, s', hcall, ?_⟩
    cases r with
    | none => simp [hinv.sum, hl.sum, hnone rfl]
    | some so =>
      obtain ⟨rfl, hle, hlimit⟩ := hsome so rfl
      have hsum := hl.sum
      rw [if_pos (by rfl), hinv.sum, hlimit, total_update, List.length_cons]
      simp only [Bool.not_false]
      omega

/-- A connection that waits at a socket with a backlog of one. -/
theorem waits_exact_one : ∃ s, (machine 2 0).Reachable s ∧ (s.so 0).so_q0len = 1 ∧
    Exact 2 0 s := by
  have h : (machine 2 0).Reachable _ := .step (.init ⟨⟨fun _ => .zero, fun x => x = 0⟩, 1, rfl,
    by decide, rfl, rfl, rfl, rfl, rfl, fun x => nofun⟩) trivial
    (a := .sonewconn (some 1) .ok) rfl
  exact ⟨_, h, rfl, waits_exact h⟩

end AuxKernel.Net.Listen
