import Mathlib.Data.List.Basic
import Mathlib.Algebra.Order.Ring.Int
import Mathlib.Order.Basic

/-!
# Reassembling a stream

Pieces of a stream arrive in any order and overlap. They are kept in a queue by
their positions. A piece is put in its place (`Pieces.insert`): what the piece
before it has is cut from its front, and it is dropped if nothing is left; what
it has is cut from the front of the pieces after it, and those that lie within it
are taken out.

The queue stays sorted and disjoint (`insert_spec`), and holds exactly what it held
and what the new piece has (`covers_insert`).
-/

namespace AuxKernel

/-- How pieces of a stream are compared and cut. -/
structure Pieces (P : Type*) where
  /-- Whether the first piece begins after the second. -/
  gt : P → P → Bool
  /-- How far the first piece reaches past the beginning of the second. -/
  past : P → P → ℤ
  len : P → ℤ
  /-- A piece without its first bytes. -/
  cut : ℤ → P → P

namespace Pieces

variable {P : Type*} (o : Pieces P)

/-- The piece `p` without what the piece before it has, if anything is left. -/
def trim (p : P) : Option P → Option P
  | none => some p
  | some q =>
    let i := o.past q p
    if i > 0 then if i ≥ o.len p then none else some (o.cut i p) else some p

/-- The pieces after `p`, without what it has. -/
def overlap (p : P) : List P → List P
  | [] => []
  | q :: l =>
    let i := o.past p q
    if i ≤ 0 then q :: l else if i < o.len q then o.cut i q :: l else overlap p l

/-- The pieces that begin no later than `p`, and those that begin after it. -/
def before (p : P) (l : List P) : List P := l.takeWhile fun q => !o.gt q p

@[inherit_doc before]
def after (p : P) (l : List P) : List P := l.dropWhile fun q => !o.gt q p

/-- Put a piece in its place; `none` if it is dropped. -/
def insert (p : P) (l : List P) : Option (List P) :=
  (o.trim p (o.before p l).getLast?).map fun p' => o.before p l ++ p' :: o.overlap p' (o.after p l)

/-! ## Positions -/

/-- The pieces that are `Ok` have positions `pos` in one stream. -/
structure Positioned (Ok : P → Prop) (pos : P → ℤ) : Prop where
  gt {p q : P} : Ok p → Ok q → (o.gt p q ↔ pos q < pos p)
  past {p q : P} : Ok p → Ok q → o.past p q = pos p + o.len p - pos q
  len_nonneg {p : P} : Ok p → 0 ≤ o.len p
  ok_cut {p : P} {i : ℤ} : Ok p → 0 < i → i < o.len p → Ok (o.cut i p)
  pos_cut {p : P} {i : ℤ} : Ok p → 0 < i → i < o.len p → pos (o.cut i p) = pos p + i
  len_cut {p : P} {i : ℤ} : Ok p → 0 < i → i < o.len p → o.len (o.cut i p) = o.len p - i

variable {o} {Ok : P → Prop} {pos : P → ℤ}

/-- Each piece ends before the next begins. -/
def Sorted (o : Pieces P) (pos : P → ℤ) : List P → Prop :=
  List.Pairwise fun p q => pos p + o.len p ≤ pos q

/-- The piece has the position `x`. -/
def Has (o : Pieces P) (pos : P → ℤ) (p : P) (x : ℤ) : Prop := pos p ≤ x ∧ x < pos p + o.len p

/-- One of the pieces has the position `x`. -/
def Covers (o : Pieces P) (pos : P → ℤ) (l : List P) (x : ℤ) : Prop := ∃ p ∈ l, o.Has pos p x

/-- `q` is `p`, or the end of it. -/
def IsEnd (o : Pieces P) (p q : P) : Prop := q = p ∨ ∃ i, 0 < i ∧ i < o.len p ∧ q = o.cut i p

namespace Positioned

variable (h : o.Positioned Ok pos) {p q : P} {l : List P}

include h

theorem ok_isEnd (hp : Ok p) (hq : o.IsEnd p q) : Ok q := by
  rcases hq with rfl | ⟨i, hi, hlen, rfl⟩
  · exact hp
  · exact h.ok_cut hp hi hlen

theorem end_isEnd (hp : Ok p) (hq : o.IsEnd p q) : pos q + o.len q = pos p + o.len p := by
  rcases hq with rfl | ⟨i, hi, hlen, rfl⟩
  · rfl
  · rw [h.pos_cut hp hi hlen, h.len_cut hp hi hlen]
    omega

theorem pos_isEnd (hp : Ok p) (hq : o.IsEnd p q) : pos p ≤ pos q := by
  rcases hq with rfl | ⟨i, hi, hlen, rfl⟩
  · exact le_rfl
  · rw [h.pos_cut hp hi hlen]
    omega

theorem mem_before (hl : ∀ q ∈ l, Ok q) (hp : Ok p) (hq : q ∈ o.before p l) : pos q ≤ pos p := by
  have hmem : q ∈ l := (List.takeWhile_prefix _).subset hq
  have := List.all_eq_true.1 List.all_takeWhile q hq
  rw [Bool.not_eq_true', ← Bool.not_eq_true, h.gt (hl q hmem) hp] at this
  exact not_lt.1 this

theorem mem_after (hl : ∀ q ∈ l, Ok q) (hs : o.Sorted pos l) (hp : Ok p) (hq : q ∈ o.after p l) :
    pos p < pos q := by
  have hsub : (o.after p l).Sublist l := (List.dropWhile_suffix _).sublist
  have hs' : o.Sorted pos (o.after p l) := hs.sublist hsub
  have hhead : ∀ r ∈ (o.after p l).head?, pos p < pos r := by
    intro r hr
    have := List.head?_dropWhile_not (fun q => !o.gt q p) l
    rw [after] at hr
    rw [Option.mem_def.1 hr] at this
    simp only [Bool.not_eq_false'] at this
    exact (h.gt (hl r (hsub.subset (List.mem_of_mem_head? hr))) hp).1 this
  generalize o.after p l = l' at hq hs' hsub hhead
  cases l' with
  | nil => exact absurd hq (by simp)
  | cons r l' =>
    have hr := hhead r rfl
    rcases List.mem_cons.1 hq with rfl | hq
    · exact hr
    · have := (List.pairwise_cons.1 hs').1 q hq
      have := h.len_nonneg (hl r (hsub.subset List.mem_cons_self))
      omega

/-- The pieces before and after a piece, in a sorted queue. -/
theorem trim_cases {q? : Option P} {p' : P} (hp : Ok p) (hq : ∀ q ∈ q?, Ok q)
    (ht : o.trim p q? = some p') :
    o.IsEnd p p' ∧ (∀ q ∈ q?, pos q + o.len q ≤ pos p') ∧
      ∀ x, pos p ≤ x → x < pos p' → ∃ q ∈ q?, x < pos q + o.len q := by
  cases q? with
  | none =>
    obtain rfl := Option.some.inj ht
    exact ⟨.inl rfl, by simp, fun x h₁ h₂ => absurd h₁ (by omega)⟩
  | some q =>
    have hq := hq q rfl
    simp only [trim, h.past hq hp] at ht
    split_ifs at ht with hi hlen
    · obtain rfl := Option.some.inj ht
      have hpos := h.pos_cut hp (i := pos q + o.len q - pos p) (by omega) (by omega)
      refine ⟨.inr ⟨_, by omega, by omega, rfl⟩, ?_, fun x _ hx => ⟨q, rfl, by omega⟩⟩
      rintro _ ⟨⟩
      omega
    · obtain rfl := Option.some.inj ht
      refine ⟨.inl rfl, ?_, fun x h₁ h₂ => absurd h₁ (by omega)⟩
      rintro _ ⟨⟩
      omega

theorem trim_none {q? : Option P} (hp : Ok p) (hq : ∀ q ∈ q?, Ok q) (ht : o.trim p q? = none) :
    ∃ q ∈ q?, pos p < pos q + o.len q ∧ pos p + o.len p ≤ pos q + o.len q := by
  cases q? with
  | none => exact absurd ht (by simp [trim])
  | some q =>
    simp only [trim, h.past (hq q rfl) hp] at ht
    split_ifs at ht with hi hlen
    exact ⟨q, rfl, by omega, by omega⟩

/-- What is left of the pieces after `p` is what lies behind its end. -/
theorem overlap_spec (hp : Ok p) (hl : ∀ q ∈ l, Ok q) (hs : o.Sorted pos l) :
    o.Sorted pos (o.overlap p l) ∧
      ∀ q ∈ o.overlap p l, pos p + o.len p ≤ pos q ∧ ∃ r ∈ l, o.IsEnd r q := by
  induction l with
  | nil => exact ⟨.nil, by simp [overlap]⟩
  | cons q l ih =>
    obtain ⟨hq, hl⟩ := List.forall_mem_cons.1 hl
    obtain ⟨hql, hs'⟩ := List.pairwise_cons.1 hs
    have hlen := h.len_nonneg hq
    simp only [overlap, h.past hp hq]
    split_ifs with hi hcut
    · refine ⟨hs, fun r hr => ⟨?_, r, hr, .inl rfl⟩⟩
      rcases List.mem_cons.1 hr with rfl | hr
      · omega
      · have := hql r hr
        omega
    · have hend : o.IsEnd q (o.cut (pos p + o.len p - pos q) q) :=
        .inr ⟨_, by omega, hcut, rfl⟩
      have hcut' := h.end_isEnd hq hend
      have hpos := h.pos_cut hq (i := pos p + o.len p - pos q) (by omega) hcut
      refine ⟨List.pairwise_cons.2 ⟨fun r hr => hcut' ▸ hql r hr, hs'⟩, fun r hr => ?_⟩
      rcases List.mem_cons.1 hr with rfl | hr
      · exact ⟨by omega, q, List.mem_cons_self, hend⟩
      · have := hql r hr
        exact ⟨by omega, r, List.mem_cons_of_mem _ hr, .inl rfl⟩
    · obtain ⟨hs, hm⟩ := ih hl hs'
      refine ⟨hs, fun r hr => ⟨(hm r hr).1, ?_⟩⟩
      obtain ⟨q', hq', hend⟩ := (hm r hr).2
      exact ⟨q', List.mem_cons_of_mem _ hq', hend⟩

/-- A piece after `p` is left, but for what `p` has, or lies within it. -/
theorem overlap_left (hp : Ok p) (hl : ∀ q ∈ l, Ok q) {r : P} (hr : r ∈ l) :
    (∃ q ∈ o.overlap p l, o.IsEnd r q ∧ pos q ≤ max (pos r) (pos p + o.len p)) ∨
      pos r < pos p + o.len p ∧ pos r + o.len r ≤ pos p + o.len p := by
  induction l with
  | nil => exact absurd hr (by simp)
  | cons q l ih =>
    obtain ⟨hq, hl⟩ := List.forall_mem_cons.1 hl
    simp only [overlap, h.past hp hq]
    split_ifs with hi hcut
    · exact .inl ⟨r, hr, .inl rfl, le_max_left _ _⟩
    · left
      rcases List.mem_cons.1 hr with rfl | hr
      · have hpos := h.pos_cut hq (i := pos p + o.len p - pos r) (by omega) hcut
        exact ⟨_, List.mem_cons_self, .inr ⟨_, by omega, hcut, rfl⟩, by omega⟩
      · exact ⟨r, List.mem_cons_of_mem _ hr, .inl rfl, le_max_left _ _⟩
    · rcases List.mem_cons.1 hr with rfl | hr
      · exact .inr ⟨by omega, by omega⟩
      · exact ih hl hr

/-! ## The queue -/

/-- What `insert` does to a sorted queue, and where each piece comes from. -/
structure Inserted (o : Pieces P) (pos : P → ℤ) (p : P) (l l' : List P) : Prop where
  sorted : o.Sorted pos l'
  /-- Each piece is an old one, or the new one, but for its front. -/
  mem : ∀ q ∈ l', o.IsEnd p q ∨ ∃ r ∈ l, o.IsEnd r q
  /-- The new piece is there, and what is cut from it was there. -/
  new : ∃ q ∈ l', o.IsEnd p q ∧ ∀ x, pos p ≤ x → x < pos q → ∃ r ∈ l, r ∈ l' ∧ o.Has pos r x
  /-- An old piece that does not begin after the new one is there as it was. -/
  before : ∀ r ∈ l, pos r ≤ pos p → r ∈ l'
  /-- An old piece is there, and what is cut from it is in the new one, or it lies
      within the new one. -/
  old : ∀ r ∈ l, (∃ q ∈ l', o.IsEnd r q ∧ ∀ x, pos r ≤ x → x < pos q → ∃ q ∈ l', o.IsEnd p q ∧
    o.Has pos q x) ∨ ∃ q ∈ l', o.IsEnd p q ∧ pos q ≤ pos r ∧ pos p < pos r ∧
      pos r < pos p + o.len p ∧ pos r + o.len r ≤ pos p + o.len p

/-- The last piece ends last. -/
theorem end_le_getLast (hl : ∀ q ∈ l, Ok q) (hs : o.Sorted pos l) (hq : q ∈ l) :
    ∃ r ∈ l.getLast?, pos q + o.len q ≤ pos r + o.len r := by
  rcases List.eq_nil_or_concat l with rfl | ⟨l, r, rfl⟩
  · exact absurd hq (by simp)
  · refine ⟨r, by simp, ?_⟩
    rw [List.concat_eq_append] at hl hs hq
    have := h.len_nonneg (hl r (by simp))
    rcases List.mem_append.1 hq with hq | hq
    · have := (List.pairwise_append.1 hs).2.2 q hq r (by simp)
      omega
    · rw [List.mem_singleton.1 hq]

theorem insert_spec {l' : List P} (hp : Ok p) (hl : ∀ q ∈ l, Ok q) (hs : o.Sorted pos l)
    (hi : o.insert p l = some l') : Inserted o pos p l l' := by
  obtain ⟨p', ht, rfl⟩ := Option.map_eq_some_iff.1 hi
  have hsplit : o.before p l ++ o.after p l = l := List.takeWhile_append_dropWhile
  have hbl : ∀ q ∈ o.before p l, q ∈ l := fun q hq => hsplit ▸ List.mem_append_left _ hq
  have hal : ∀ q ∈ o.after p l, q ∈ l := fun q hq => hsplit ▸ List.mem_append_right _ hq
  obtain ⟨hsb, hsa, hsc⟩ := List.pairwise_append.1 (hsplit ▸ hs)
  obtain ⟨hend, hlast, hcov⟩ := h.trim_cases hp
    (fun q hq => hl q (hbl q (List.mem_of_getLast? hq))) ht
  have hp' := h.ok_isEnd hp hend
  have hpos := h.pos_isEnd hp hend
  have hend' := h.end_isEnd hp hend
  have hlen' := h.len_nonneg hp'
  have hbef (q : P) (hq : q ∈ o.before p l) : pos q + o.len q ≤ pos p' := by
    obtain ⟨r, hr, hqr⟩ := h.end_le_getLast (fun q hq => hl q (hbl q hq)) hsb hq
    exact hqr.trans (hlast r hr)
  have haft (r : P) (hr : r ∈ o.after p l) : pos p' ≤ pos r := by
    by_cases hpp : pos p' ≤ pos p
    · exact hpp.trans (h.mem_after hl hs hp hr).le
    · obtain ⟨q, hq, hqe⟩ := hcov (pos p' - 1) (by omega) (by omega)
      have := hsc q (List.mem_of_getLast? hq) r hr
      omega
  obtain ⟨hso, hmo⟩ := h.overlap_spec hp' (fun q hq => hl q (hal q hq)) hsa
  refine ⟨?_, fun q hq => ?_, ⟨p', by simp, hend, fun x hx hxp => ?_⟩, fun r hr hrp => ?_,
    fun r hr => ?_⟩
  · refine List.pairwise_append.2 ⟨hsb, List.pairwise_cons.2 ⟨fun q hq => (hmo q hq).1, hso⟩, ?_⟩
    intro q hq r hr
    have := hbef q hq
    rcases List.mem_cons.1 hr with rfl | hr
    · exact this
    · have := (hmo r hr).1
      omega
  · rcases List.mem_append.1 hq with hq | hq
    · exact .inr ⟨q, hbl q hq, .inl rfl⟩
    rcases List.mem_cons.1 hq with rfl | hq
    · exact .inl hend
    · obtain ⟨r, hr, hqr⟩ := (hmo q hq).2
      exact .inr ⟨r, hal r hr, hqr⟩
  · obtain ⟨q, hq, hqe⟩ := hcov x hx hxp
    have hq := List.mem_of_getLast? hq
    have := h.mem_before hl hp hq
    exact ⟨q, hbl q hq, List.mem_append_left _ hq, by omega, hqe⟩
  · rw [← hsplit] at hr
    rcases List.mem_append.1 hr with hr | hr
    · exact List.mem_append_left _ hr
    · exact absurd (h.mem_after hl hs hp hr) (not_lt.2 hrp)
  · rw [← hsplit] at hr
    rcases List.mem_append.1 hr with hr | hr
    · exact .inl ⟨r, List.mem_append_left _ hr, .inl rfl, fun x h₁ h₂ => absurd h₁ (by omega)⟩
    have hpr := haft r hr
    rcases h.overlap_left hp' (fun q hq => hl q (hal q hq)) hr with ⟨q, hq, hqr, hqpos⟩ | hin
    · exact .inl ⟨q, by simp [hq], hqr, fun x h₁ h₂ => ⟨p', by simp, hend, by omega, by omega⟩⟩
    · exact .inr ⟨p', by simp, hend, hpr, h.mem_after hl hs hp hr, by omega, by omega⟩

/-- A piece that is dropped lies within a piece of the queue. -/
theorem insert_none (hp : Ok p) (hl : ∀ q ∈ l, Ok q) (hi : o.insert p l = none) :
    ∃ q ∈ l, pos q ≤ pos p ∧ pos p < pos q + o.len q ∧ pos p + o.len p ≤ pos q + o.len q := by
  have hbl : ∀ q ∈ o.before p l, q ∈ l := fun q hq => (List.takeWhile_prefix _).subset hq
  obtain ⟨q, hq, hqe⟩ := h.trim_none hp (fun q hq => hl q (hbl q (List.mem_of_getLast? hq)))
    (Option.map_eq_none_iff.1 hi)
  have hq := List.mem_of_getLast? hq
  exact ⟨q, hbl q hq, h.mem_before hl hp hq, hqe⟩

theorem has_isEnd {x : ℤ} (hp : Ok p) (hq : o.IsEnd p q) (hx : o.Has pos q x) : o.Has pos p x :=
  ⟨(h.pos_isEnd hp hq).trans hx.1, h.end_isEnd hp hq ▸ hx.2⟩

/-- A queue into which a piece is put holds what it held and what the piece has. -/
theorem covers_insert {l' : List P} (hp : Ok p) (hl : ∀ q ∈ l, Ok q) (hi : Inserted o pos p l l')
    (x : ℤ) : o.Covers pos l' x ↔ o.Covers pos l x ∨ o.Has pos p x := by
  constructor
  · rintro ⟨q, hq, hx⟩
    rcases hi.mem q hq with hpq | ⟨r, hr, hrq⟩
    · exact .inr (h.has_isEnd hp hpq hx)
    · exact .inl ⟨r, hr, h.has_isEnd (hl r hr) hrq hx⟩
  · rintro (⟨r, hr, hx⟩ | hx)
    · rcases hi.old r hr with ⟨q, hq, hrq, hcut⟩ | ⟨q, hq, hpq, hqr, _, _, hrp⟩
      · by_cases hxq : x < pos q
        · obtain ⟨q', hq', _, hx'⟩ := hcut x hx.1 hxq
          exact ⟨q', hq', hx'⟩
        · exact ⟨q, hq, by omega, h.end_isEnd (hl r hr) hrq ▸ hx.2⟩
      · have := h.end_isEnd hp hpq
        exact ⟨q, hq, hqr.trans hx.1, by have := hx.2; omega⟩
    · obtain ⟨q, hq, hpq, hcut⟩ := hi.new
      by_cases hxq : x < pos q
      · obtain ⟨r, _, hr, hx'⟩ := hcut x hx.1 hxq
        exact ⟨r, hr, hx'⟩
      · exact ⟨q, hq, by omega, h.end_isEnd hp hpq ▸ hx.2⟩

end Positioned

end Pieces

end AuxKernel
