import Mathlib.Data.List.Nodup
import Mathlib.Data.List.Perm.Subperm

/-!
# Linked lists

A list of addresses is linked (`Chained`) by the pointers `next` if each address
points to the one after it, and doubly linked (`Linked`) by `next` and `prev` if it
points to the one before it, too.

* `Chained.insert`: an address can be linked in anywhere;
* `Chained.concat`: in particular at the end;
* `Chained.remove`: an address can be taken out anywhere;
* `Linked.insert`: an address can be doubly linked in anywhere;
* `Linked.pop`: the first one can be taken off.

A ring of addresses (`Circular`) is linked by `next`, and its last address points to the first:

* `Circular.rotate`: it may begin one address later;
* `Circular.concat`: an address can be linked in at the end;
* `Circular.cons`: or behind the first;
* `Circular.remove`: one behind the first can be taken out.

A ring with a head (`Looped`) is linked by `next`, and backwards by `prev`:

* `Looped.insert`: an address can be linked in anywhere;
* `Looped.remove`: an address other than the head can be taken out.
-/

namespace AuxKernel

variable {α : Type*} {next prev next' prev' : α → Option α} {p : Option α} {a : α}
  {l l₁ l₂ : List α}

/-- A walk along a list of the addresses below `n` ends after `n` steps. -/
theorem length_le_of_nodup {l : List ℕ} {n : ℕ} (hn : l.Nodup) (h : ∀ a ∈ l, a < n) :
    l.length ≤ n := by
  have := (List.subperm_of_subset hn fun a ha => List.mem_range.2 (h a ha)).length_le
  rwa [List.length_range] at this

/-- The list is linked by `next`. -/
def Chained (next : α → Option α) : List α → Prop
  | [] => True
  | a :: l => next a = l.head? ∧ Chained next l

/-- It only depends on the pointers of its addresses. -/
theorem Chained.congr (h : Chained next l) (hn : ∀ x ∈ l, next' x = next x) : Chained next' l := by
  induction l with
  | nil => trivial
  | cons a l ih =>
    exact ⟨(hn a List.mem_cons_self).trans h.1,
      ih h.2 fun x hx => hn x (List.mem_cons_of_mem a hx)⟩

/-- The pointers determine the list from its first address on. -/
theorem Chained.unique {l' : List α} (h : Chained next l) (h' : Chained next l')
    (hh : l.head? = l'.head?) : l = l' := by
  induction l generalizing l' with
  | nil =>
    cases l' with
    | nil => rfl
    | cons b l' => exact nomatch hh
  | cons a l ih =>
    cases l' with
    | nil => exact nomatch hh
    | cons b l' =>
      obtain rfl : a = b := Option.some.inj hh
      rw [ih h.2 h'.2 (h.1.symm.trans h'.1)]

/-- The list is linked by `next`, and the last address points to `p`. -/
def ChainedTo (next : α → Option α) (p : Option α) : List α → Prop
  | [] => True
  | a :: l => next a = l.head?.or p ∧ ChainedTo next p l

theorem chained_append :
    Chained next (l₁ ++ l₂) ↔ ChainedTo next l₂.head? l₁ ∧ Chained next l₂ := by
  induction l₁ with
  | nil => simp [ChainedTo]
  | cons b l₁ ih =>
    rw [List.cons_append, Chained, ChainedTo, ih, List.head?_append, and_assoc]

theorem Chained.next_eq (h : Chained next (l₁ ++ a :: l₂)) : next a = l₂.head? :=
  (chained_append.1 h).2.1

theorem ChainedTo.congr (h : ChainedTo next p l) (hn : ∀ x ∈ l, next' x = next x) :
    ChainedTo next' p l := by
  induction l with
  | nil => trivial
  | cons b l ih =>
    exact ⟨(hn b List.mem_cons_self).trans h.1,
      ih h.2 fun x hx => hn x (List.mem_cons_of_mem b hx)⟩

theorem chainedTo_append :
    ChainedTo next p (l₁ ++ l₂) ↔ ChainedTo next (l₂.head?.or p) l₁ ∧ ChainedTo next p l₂ := by
  induction l₁ with
  | nil => simp [ChainedTo]
  | cons b l₁ ih =>
    rw [List.cons_append, ChainedTo, ChainedTo, ih, List.head?_append, Option.or_assoc, and_assoc]

/-- The list is linked by `next`, and the last address points to the first. -/
def Circular (next : α → Option α) (l : List α) : Prop := ChainedTo next l.head? l

theorem Circular.congr (h : Circular next l) (hn : ∀ x ∈ l, next' x = next x) :
    Circular next' l := ChainedTo.congr h hn

theorem Circular.next_getLast (h : Circular next l) (ha : l.getLast? = some a) :
    next a = l.head? := by
  obtain ⟨l, rfl⟩ := List.getLast?_eq_some_iff.1 ha
  exact (chainedTo_append.1 h).2.1

theorem Circular.rotate (h : Circular next (a :: l)) : Circular next (l ++ [a]) := by
  refine chainedTo_append.2 ⟨h.2, ?_, trivial⟩
  rw [h.1, List.head?_append]
  rfl

/-- The list is doubly linked by `next` and `prev`, behind `p`. -/
def Linked (next prev : α → Option α) : Option α → List α → Prop
  | _, [] => True
  | p, a :: l => prev a = p ∧ next a = l.head? ∧ Linked next prev (some a) l

theorem Linked.chained (h : Linked next prev p l) : Chained next l := by
  induction l generalizing p with
  | nil => trivial
  | cons a l ih => exact ⟨h.2.1, ih h.2.2⟩

theorem Linked.congr (h : Linked next prev p l) (hn : ∀ x ∈ l, next' x = next x)
    (hp : ∀ x ∈ l, prev' x = prev x) : Linked next' prev' p l := by
  induction l generalizing p with
  | nil => trivial
  | cons a l ih =>
    obtain ⟨hpa, hna, hl⟩ := h
    exact ⟨(hp a List.mem_cons_self).trans hpa, (hn a List.mem_cons_self).trans hna,
      ih hl (fun x hx => hn x (List.mem_cons_of_mem a hx))
        fun x hx => hp x (List.mem_cons_of_mem a hx)⟩

theorem Linked.next_eq (h : Linked next prev p (l₁ ++ a :: l₂)) : next a = l₂.head? := by
  induction l₁ generalizing p with
  | nil => exact h.2.1
  | cons b l₁ ih => exact ih h.2.2

theorem Linked.prev_eq (h : Linked next prev p (l₁ ++ a :: l₂)) :
    prev a = l₁.getLast?.or p := by
  induction l₁ generalizing p with
  | nil => exact h.1
  | cons b l₁ ih => rw [ih h.2.2, List.getLast?_cons]; cases l₁.getLast? <;> rfl

/-- From `a` over the list back to the head `h`, each address points to the next, and is
    pointed back to by it. -/
def Looped (next prev : α → Option α) (h : α) : α → List α → Prop
  | a, [] => next a = some h ∧ prev h = some a
  | a, b :: l => next a = some b ∧ prev b = some a ∧ Looped next prev h b l

variable {h b : α}

theorem Looped.congr (hl : Looped next prev h a l) (hn : ∀ x ∈ a :: l, next' x = next x)
    (hp : ∀ x ∈ h :: l, prev' x = prev x) : Looped next' prev' h a l := by
  induction l generalizing a with
  | nil => exact ⟨(hn a List.mem_cons_self).trans hl.1, (hp h List.mem_cons_self).trans hl.2⟩
  | cons b l ih =>
    refine ⟨(hn a List.mem_cons_self).trans hl.1,
      (hp b (List.mem_cons_of_mem h List.mem_cons_self)).trans hl.2.1,
      ih hl.2.2 (fun x hx => hn x (List.mem_cons_of_mem a hx)) fun x hx => hp x ?_⟩
    rcases List.mem_cons.1 hx with rfl | hx
    · exact List.mem_cons_self
    · exact List.mem_cons_of_mem h (List.mem_cons_of_mem b hx)

theorem Looped.next_eq (hl : Looped next prev h a (l₁ ++ b :: l₂)) :
    next b = some (l₂.head?.getD h) := by
  induction l₁ generalizing a with
  | nil =>
    cases l₂ with
    | nil => exact hl.2.2.1
    | cons c l₂ => exact hl.2.2.1
  | cons x l₁ ih => exact ih hl.2.2

theorem Looped.prev_eq (hl : Looped next prev h a (l₁ ++ b :: l₂)) :
    prev b = some (l₁.getLast?.getD a) := by
  induction l₁ generalizing a with
  | nil => exact hl.2.1
  | cons x l₁ ih =>
    rw [ih hl.2.2, List.getLast?_cons]
    rfl

/-- What follows an address points back to it. -/
theorem Looped.prev_next (hl : Looped next prev h a (l₁ ++ b :: l₂)) :
    prev (l₂.head?.getD h) = some b := by
  induction l₁ generalizing a with
  | nil =>
    cases l₂ with
    | nil => exact hl.2.2.2
    | cons c l₂ => exact hl.2.2.2.1
  | cons x l₁ ih => exact ih hl.2.2

variable [DecidableEq α]

/-- The pointer of the last address is changed to `p'`. -/
theorem ChainedTo.redirect {p' : Option α} (h : ChainedTo next p l) (hnodup : l.Nodup)
    (hn : ∀ x ∈ l, next' x = if l.getLast? = some x then p' else next x) :
    ChainedTo next' p' l := by
  induction l with
  | nil => trivial
  | cons b l ih =>
    obtain ⟨hb, hnodup⟩ := List.nodup_cons.1 hnodup
    refine ⟨?_, ih h.2 hnodup fun x hx => ?_⟩
    · rw [hn b List.mem_cons_self]
      cases l with
      | nil => simp
      | cons c l =>
        rw [if_neg fun he => hb ?_, h.1]
        · rfl
        · exact List.mem_of_getLast? (by simpa using he)
    · rw [hn x (List.mem_cons_of_mem b hx)]
      cases l with
      | nil => exact nomatch hx
      | cons c l => simp

/-- An address is linked in between `l₁` and `l₂`. -/
theorem Chained.insert (h : Chained next (l₁ ++ l₂)) (hnodup : l₁.Nodup)
    (hna : next' a = l₂.head?)
    (hn : ∀ x ∈ l₁, next' x = if l₁.getLast? = some x then some a else next x)
    (hn₂ : ∀ x ∈ l₂, next' x = next x) : Chained next' (l₁ ++ a :: l₂) := by
  obtain ⟨h₁, h₂⟩ := chained_append.1 h
  exact chained_append.2 ⟨h₁.redirect hnodup hn, hna, h₂.congr hn₂⟩

/-- An address is linked in at the end. -/
theorem Chained.concat (h : Chained next l) (hnodup : l.Nodup) (hna : next' a = none)
    (hn : ∀ x ∈ l, next' x = if l.getLast? = some x then some a else next x) :
    Chained next' (l ++ [a]) := by
  rw [← l.append_nil] at h
  exact h.insert hnodup hna hn nofun

/-- An address is linked in at the end of a ring. -/
theorem Circular.concat (h : Circular next l) (hnodup : l.Nodup)
    (hna : next' a = l.head?.or (some a))
    (hn : ∀ x ∈ l, next' x = if l.getLast? = some x then some a else next x) :
    Circular next' (l ++ [a]) := by
  refine chainedTo_append.2 ⟨ChainedTo.redirect h hnodup hn, ?_, trivial⟩
  rw [hna, List.head?_append]
  rfl

omit [DecidableEq α] in
/-- An address is linked in behind the first one of a ring. -/
theorem Circular.cons {p' : α} (h : Circular next (p' :: l)) (hna : next' a = next p')
    (hnp : next' p' = some a) (hn : ∀ x ∈ l, next' x = next x) :
    Circular next' (p' :: a :: l) :=
  ⟨hnp, hna.trans h.1, ChainedTo.congr h.2 hn⟩

/-- An address is taken out of a ring, and the one before it points past it. -/
theorem Circular.remove {p' : α} (h : Circular next (l₁ ++ p' :: a :: l₂))
    (hnodup : (l₁ ++ [p']).Nodup)
    (hn : ∀ x ∈ l₁ ++ [p'], next' x = if p' = x then next a else next x)
    (hn₂ : ∀ x ∈ l₂, next' x = next x) : Circular next' (l₁ ++ p' :: l₂) := by
  rw [List.append_cons] at h ⊢
  obtain ⟨h₁, hna, h₂⟩ := chainedTo_append.1 h
  have hhead : (l₁ ++ [p'] ++ l₂).head? = (l₁ ++ [p'] ++ a :: l₂).head? := by
    cases l₁ <;> rfl
  rw [← hhead] at h₁ hna h₂
  refine chainedTo_append.2 ⟨h₁.redirect hnodup fun x hx => ?_, h₂.congr hn₂⟩
  rw [hn x hx, hna, List.getLast?_concat]
  simp only [Option.some.injEq]

/-- An address is taken out, and the one before it points past it. -/
theorem Chained.remove (h : Chained next (l₁ ++ a :: l₂)) (hnodup : l₁.Nodup)
    (hn : ∀ x ∈ l₁, next' x = if l₁.getLast? = some x then l₂.head? else next x)
    (hn₂ : ∀ x ∈ l₂, next' x = next x) : Chained next' (l₁ ++ l₂) := by
  obtain ⟨h₁, -, h₂⟩ := chained_append.1 h
  exact chained_append.2 ⟨h₁.redirect hnodup hn, h₂.congr hn₂⟩

/-- The first address is taken off, and the next one gets `p'` before it. -/
theorem Linked.pop {p' : Option α} (h : Linked next prev p (a :: l)) (hnodup : (a :: l).Nodup)
    (hn : ∀ x ∈ l, next' x = next x)
    (hp : ∀ x ∈ l, prev' x = if l.head? = some x then p' else prev x) :
    Linked next' prev' p' l := by
  cases l with
  | nil => trivial
  | cons b l =>
    obtain ⟨-, -, -, hnb, hl⟩ := h
    have hb : b ∉ l := (List.nodup_cons.1 (List.nodup_cons.1 hnodup).2).1
    refine ⟨by simpa using hp b List.mem_cons_self, (hn b List.mem_cons_self).trans hnb,
      hl.congr (fun x hx => hn x (List.mem_cons_of_mem b hx)) fun x hx => ?_⟩
    rw [hp x (List.mem_cons_of_mem b hx), if_neg fun he => hb ?_]
    rwa [Option.some.inj he]

/-- An address is linked in between `l₁` and `l₂`. -/
theorem Linked.insert (h : Linked next prev p (l₁ ++ l₂)) (hnodup : (l₁ ++ l₂).Nodup)
    (hn : ∀ x ∈ l₁ ++ l₂, next' x = if l₁.getLast? = some x then some a else next x)
    (hp : ∀ x ∈ l₁ ++ l₂, prev' x = if l₂.head? = some x then some a else prev x)
    (hna : next' a = l₂.head?) (hpa : prev' a = l₁.getLast?.or p) :
    Linked next' prev' p (l₁ ++ a :: l₂) := by
  induction l₁ generalizing p with
  | nil =>
    refine ⟨hpa, hna, ?_⟩
    cases l₂ with
    | nil => trivial
    | cons b l₂ =>
      have hb : b ∉ l₂ := (List.nodup_cons.1 hnodup).1
      refine ⟨by simpa using hp b List.mem_cons_self, ?_,
        h.2.2.congr (fun x hx => ?_) fun x hx => ?_⟩
      · exact (hn b List.mem_cons_self).trans h.2.1
      · exact hn x (List.mem_cons_of_mem b hx)
      · rw [hp x (List.mem_cons_of_mem b hx), if_neg fun he => hb ?_]
        rwa [Option.some.inj he]
  | cons b l₁ ih =>
    obtain ⟨hpb, hnb, hl⟩ := h
    obtain ⟨hb, hnodup⟩ := List.nodup_cons.1 hnodup
    have hb₂ : ¬l₂.head? = some b := fun he =>
      hb (List.mem_append_right _ (List.mem_of_mem_head? (Option.mem_def.2 he)))
    refine ⟨?_, ?_, ih hl hnodup (fun x hx => ?_) (fun x hx => ?_) ?_⟩
    · rw [hp b List.mem_cons_self, if_neg hb₂, hpb]
    · -- Only if `b` is the last before `a` does it point to it.
      rw [hn b List.mem_cons_self]
      cases l₁ with
      | nil => simp
      | cons c l₁ =>
        rw [if_neg fun he => hb ?_, hnb]
        · rfl
        · exact List.mem_append_left _ (List.mem_of_getLast? (by simpa using he))
    · rw [hn x (List.mem_cons_of_mem b hx)]
      cases l₁ with
      | nil =>
        have hne : b ≠ x := fun he => hb (he ▸ hx)
        simp [hne]
      | cons c l₁ => simp
    · exact hp x (List.mem_cons_of_mem b hx)
    · rw [hpa, List.getLast?_cons]
      cases l₁.getLast? <;> rfl

/-- The address `a` is taken out of a doubly linked list. -/
theorem Linked.remove (h : Linked next prev p (l₁ ++ a :: l₂)) (hnodup : (l₁ ++ a :: l₂).Nodup)
    (hn : ∀ x ∈ l₁ ++ l₂, next' x = if l₁.getLast? = some x then l₂.head? else next x)
    (hp : ∀ x ∈ l₁ ++ l₂, prev' x = if l₂.head? = some x then l₁.getLast?.or p else prev x) :
    Linked next' prev' p (l₁ ++ l₂) := by
  induction l₁ generalizing p with
  | nil => exact h.pop hnodup (fun x hx => by simpa using hn x hx) fun x hx => hp x hx
  | cons b l₁ ih =>
    obtain ⟨hpb, hnb, hl⟩ := h
    obtain ⟨hb, hnodup⟩ := List.nodup_cons.1 hnodup
    have hb₂ : b ∉ l₂ := fun hx => hb (by simp [hx])
    have hb₂' : ¬l₂.head? = some b := fun he => hb₂ (List.mem_of_mem_head? (Option.mem_def.2 he))
    refine ⟨?_, ?_, ih hl hnodup (fun x hx => ?_) fun x hx => ?_⟩
    · rw [hp b List.mem_cons_self, if_neg hb₂', hpb]
    · -- only if `b` is the last before `a` does it point past it
      rw [hn b List.mem_cons_self]
      cases l₁ with
      | nil => simp
      | cons c l₁ =>
        rw [if_neg fun he => hb ?_, hnb]
        · rfl
        · exact List.mem_append_left _ (List.mem_of_getLast? (by simpa using he))
    · rw [hn x (List.mem_cons_of_mem b hx)]
      cases l₁ with
      | nil =>
        have hne : b ≠ x := fun he => hb₂ (he ▸ hx)
        simp [hne]
      | cons c l₁ => simp
    · rw [hp x (List.mem_cons_of_mem b hx), List.getLast?_cons]
      cases l₁.getLast? <;> rfl

/-- The address `b` is linked in behind `l₁`. -/
theorem Looped.insert (hl : Looped next prev h a (l₁ ++ l₂)) (hnodup : (a :: (l₁ ++ l₂)).Nodup)
    (hh : h ∉ l₁ ++ l₂) (hnb : next' b = some (l₂.head?.getD h))
    (hpb : prev' b = some (l₁.getLast?.getD a))
    (hn : ∀ x ∈ a :: (l₁ ++ l₂), next' x = if x = l₁.getLast?.getD a then some b else next x)
    (hp : ∀ x ∈ h :: (l₁ ++ l₂), prev' x = if x = l₂.head?.getD h then some b else prev x) :
    Looped next' prev' h a (l₁ ++ b :: l₂) := by
  induction l₁ generalizing a with
  | nil =>
    obtain ⟨ha, hnd⟩ := List.nodup_cons.1 hnodup
    refine ⟨by rw [hn a List.mem_cons_self]; exact if_pos rfl, hpb, ?_⟩
    cases l₂ with
    | nil => exact ⟨hnb, by rw [hp h List.mem_cons_self]; exact if_pos rfl⟩
    | cons c l₂ =>
      refine ⟨hnb, by rw [hp c (by simp)]; exact if_pos rfl, hl.2.2.congr (fun x hx => ?_)
        fun x hx => ?_⟩
      · have hxa : x ≠ a := fun he => ha (he ▸ hx)
        rw [hn x (List.mem_cons_of_mem a hx)]
        exact if_neg hxa
      · have hxc : x ≠ c := by
          rintro rfl
          rcases List.mem_cons.1 hx with rfl | hx
          · exact hh List.mem_cons_self
          · exact (List.nodup_cons.1 hnd).1 hx
        rw [hp x ?_]
        · exact if_neg hxc
        · exact List.cons_subset_cons h (List.subset_cons_self c l₂) hx
  | cons x l₁ ih =>
    obtain ⟨hax, hxa, hrest⟩ := hl
    obtain ⟨ha, hnd⟩ := List.nodup_cons.1 hnodup
    have hlast : (x :: l₁).getLast?.getD a = l₁.getLast?.getD x := by
      rw [List.getLast?_cons]
      rfl
    -- neither of the two links that change is between `a` and `x`
    have hne : a ≠ l₁.getLast?.getD x := by
      rintro rfl
      cases hl : l₁.getLast? with
      | none => exact ha (by rw [hl]; exact List.mem_cons_self)
      | some y =>
        refine ha ?_
        rw [hl]
        exact List.mem_cons_of_mem x (List.mem_append_left l₂ (List.mem_of_getLast? hl))
    have hnx : x ≠ l₂.head?.getD h := by
      rintro rfl
      cases l₂ with
      | nil => exact hh (by simp)
      | cons c l₂ => exact (List.nodup_cons.1 hnd).1 (by simp)
    rw [hlast] at hpb hn
    refine ⟨by rw [hn a List.mem_cons_self, if_neg hne, hax],
      by rw [hp x (by simp), if_neg hnx, hxa],
      ih hrest hnd (fun hm => hh (List.mem_cons_of_mem x hm)) hpb
        (fun y hy => hn y (List.mem_cons_of_mem a hy)) fun y hy => hp y ?_⟩
    exact List.cons_subset_cons h (List.subset_cons_self x (l₁ ++ l₂)) hy

/-- The address `b` is taken out. -/
theorem Looped.remove (hl : Looped next prev h a (l₁ ++ b :: l₂))
    (hnodup : (a :: (l₁ ++ b :: l₂)).Nodup) (hh : h ∉ l₁ ++ b :: l₂)
    (hn : ∀ x ∈ a :: (l₁ ++ l₂), next' x = if prev b = some x then next b else next x)
    (hp : ∀ x ∈ h :: (l₁ ++ l₂), prev' x = if next b = some x then prev b else prev x) :
    Looped next' prev' h a (l₁ ++ l₂) := by
  have hnext := hl.next_eq
  have hprev := hl.prev_eq
  induction l₁ generalizing a with
  | nil =>
    have hab : prev b = some a := hl.2.1
    obtain ⟨ha, -, hnd⟩ : a ∉ b :: l₂ ∧ b ∉ l₂ ∧ l₂.Nodup := by simpa using hnodup
    cases l₂ with
    | nil =>
      have hbh : next b = some h := hnext
      exact ⟨by rw [hn a List.mem_cons_self, if_pos hab, hbh],
        by rw [hp h List.mem_cons_self, if_pos hbh, hab]⟩
    | cons c l₂ =>
      have hbc : next b = some c := hnext
      obtain ⟨-, -, -, -, hrest⟩ := hl
      have hc : c ∉ h :: l₂ := by
        rw [List.mem_cons, not_or]
        exact ⟨fun he => hh (by simp [he]), (List.nodup_cons.1 hnd).1⟩
      refine ⟨by rw [hn a List.mem_cons_self, if_pos hab, hbc],
        by rw [hp c (by simp), if_pos hbc, hab], hrest.congr (fun x hx => ?_) fun x hx => ?_⟩
      · rw [hn x (List.mem_cons_of_mem a hx), if_neg fun he => ha ?_]
        rw [hab] at he
        exact Option.some.inj he ▸ List.mem_cons_of_mem b hx
      · rw [hp x ?_, if_neg fun he => hc ?_]
        · rw [hbc] at he
          exact Option.some.inj he ▸ hx
        · rcases List.mem_cons.1 hx with rfl | hx
          · exact List.mem_cons_self
          · exact List.mem_cons_of_mem h (List.mem_cons_of_mem c hx)
  | cons x l₁ ih =>
    obtain ⟨hax, hxa, hrest⟩ := hl
    obtain ⟨ha, hnd⟩ := List.nodup_cons.1 hnodup
    -- neither of the two links of `b` is at `a` or `x`
    have hpa : prev b ≠ some a := by
      rw [hrest.prev_eq]
      intro he
      refine ha ?_
      rw [← Option.some.inj he]
      cases hlast : l₁.getLast? with
      | none => exact List.mem_cons_self
      | some y =>
        exact List.mem_cons_of_mem x (List.mem_append_left _ (List.mem_of_getLast? hlast))
    have hnx : next b ≠ some x := by
      rw [hnext]
      intro he
      cases l₂ with
      | nil => exact hh (by simp [show h = x from Option.some.inj he])
      | cons c l₂ =>
        have hcx : c = x := Option.some.inj he
        exact (List.nodup_cons.1 hnd).1 (by simp [hcx])
    refine ⟨by rw [hn a List.mem_cons_self, if_neg hpa, hax],
      by rw [hp x (by simp), if_neg hnx, hxa],
      ih hrest hnd (fun hm => hh (List.mem_cons_of_mem x hm))
        (fun y hy => hn y (List.mem_cons_of_mem a hy)) (fun y hy => hp y ?_)
        hrest.prev_eq⟩
    rcases List.mem_cons.1 hy with rfl | hy
    · exact List.mem_cons_self
    · exact List.mem_cons_of_mem h (List.mem_cons_of_mem x hy)

end AuxKernel
