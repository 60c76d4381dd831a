import Mathlib.Order.Lattice
import Mathlib.Data.List.Basic

/-!
# One-way sweeps

A queue that is served from its head, in *sweeps*: a first run of requests with ascending
keys, and a second one of those that the first has passed, whose keys are below that of the
head (`Sweeps`).

* `Sweeps.insert_first`, `Sweeps.insert_second`: a request can be inserted into the run it
  belongs to, behind those with its own key;
* `Sweeps.tail`: the head can be served;
* `InSweep.sweep`, `Passed.sweep`: the keys that are served while a request waits are those of
  one sweep if it is in the first run, and of at most two if not; it is served in the last.
-/

namespace AuxKernel

variable {α β : Type*} [LinearOrder β] (key : α → β)

/-- The keys of the requests ascend. -/
def Ascending (l : List α) : Prop := l.Pairwise fun x y => key x ≤ key y

/-- The runs `l₁` and `l₂` ascend, and the second is below the head of the first. -/
structure Sweeps (l₁ l₂ : List α) : Prop where
  first : Ascending key l₁
  second : Ascending key l₂
  below : ∀ y ∈ l₂, ∃ x ∈ l₁.head?, key y < key x

/-- The place of `x` in a run, between `u` and `w`. -/
structure Place (x : α) (u w : List α) : Prop where
  le : ∀ y ∈ u, key y ≤ key x
  lt : ∀ y ∈ w.head?, key x < key y

variable {key} {x h r : α} {u w l₁ l₂ : List α} {ks : List β}

theorem Ascending.le_of_mem (ha : Ascending key (h :: l₁)) (hr : r ∈ h :: l₁) :
    key h ≤ key r := by
  rcases List.mem_cons.1 hr with rfl | hr
  · exact le_rfl
  · exact (List.pairwise_cons.1 ha).1 r hr

theorem Sweeps.lt_of_mem (hs : Sweeps key (h :: l₁) l₂) (hr : r ∈ l₂) : key r < key h := by
  obtain ⟨z, hz, hlt⟩ := hs.below r hr
  obtain rfl := Option.some.inj hz
  exact hlt

/-- All requests behind the place have larger keys. -/
theorem Place.lt_of_mem (hp : Place key x u w) (hw : Ascending key w) {y : α} (hy : y ∈ w) :
    key x < key y := by
  obtain ⟨z, w, rfl⟩ := List.exists_cons_of_ne_nil (List.ne_nil_of_mem hy)
  exact (hp.lt z rfl).trans_le (hw.le_of_mem hy)

theorem Ascending.insert (ha : Ascending key (u ++ w)) (hp : Place key x u w) :
    Ascending key (u ++ x :: w) := by
  obtain ⟨hu, hw, huw⟩ := List.pairwise_append.1 ha
  refine List.pairwise_append.2 ⟨hu, List.pairwise_cons.2 ⟨fun y hy => ?_, hw⟩, fun y hy z hz => ?_⟩
  · exact (hp.lt_of_mem hw hy).le
  · rcases List.mem_cons.1 hz with rfl | hz
    · exact hp.le y hy
    · exact huw y hy z hz

/-- A request is inserted into the first run, behind its head. -/
theorem Sweeps.insert_first (hs : Sweeps key (h :: u ++ w) l₂) (hp : Place key x (h :: u) w) :
    Sweeps key (h :: u ++ x :: w) l₂ ∧ ∀ y ∈ w ++ l₂, key y ≠ key x := by
  obtain ⟨-, hw, -⟩ := List.pairwise_append.1 hs.first
  refine ⟨⟨hs.first.insert hp, hs.second, hs.below⟩, fun y hy => ?_⟩
  rcases List.mem_append.1 hy with hy | hy
  · exact (hp.lt_of_mem hw hy).ne'
  · exact ((hs.lt_of_mem hy).trans_le (hp.le _ List.mem_cons_self)).ne

/-- A request below the head is inserted into the second run. -/
theorem Sweeps.insert_second (hs : Sweeps key (h :: l₁) (u ++ w)) (hx : key x < key h)
    (hp : Place key x u w) :
    Sweeps key (h :: l₁) (u ++ x :: w) ∧ ∀ y ∈ w, key y ≠ key x := by
  obtain ⟨-, hw, -⟩ := List.pairwise_append.1 hs.second
  refine ⟨⟨hs.first, hs.second.insert hp, fun y hy => ⟨h, rfl, ?_⟩⟩, fun y hy =>
    (hp.lt_of_mem hw hy).ne'⟩
  rcases List.mem_append.1 hy with hy | hy
  · exact hs.lt_of_mem (List.mem_append_left _ hy)
  · rcases List.mem_cons.1 hy with rfl | hy
    · exact hx
    · exact hs.lt_of_mem (List.mem_append_right _ hy)

/-- When the head is served, the first run goes on, or the second becomes the first. -/
theorem Sweeps.tail (hs : Sweeps key (h :: l₁) l₂) :
    Sweeps key l₁ l₂ ∨ l₁ = [] ∧ Sweeps key l₂ [] := by
  cases l₁ with
  | nil => exact .inr ⟨rfl, hs.second, .nil, nofun⟩
  | cons x l₁ =>
    obtain ⟨hh, ha⟩ := List.pairwise_cons.1 hs.first
    exact .inl ⟨ha, hs.second, fun y hy => ⟨x, rfl,
      (hs.lt_of_mem hy).trans_le (hh x List.mem_cons_self)⟩⟩

/-- The request `r` waits behind the head `h` in the run that is being served, of which the keys
    `ks` have been served. -/
structure InSweep (key : α → β) (ks : List β) (r h : α) : Prop where
  le : key h ≤ key r
  ascend : ks.Pairwise (· ≤ ·)
  served : ∀ k ∈ ks, k ≤ key h

/-- The request `r` waits in a queue with the head `h`, while the keys `ks` have been served: it
    is in the run that is being served, perhaps the second one, or in the one that follows. -/
def Passed (key : α → β) (ks : List β) (r h : α) : Prop :=
  (∃ k₁ k₂, ks = k₁ ++ k₂ ∧ k₁.Pairwise (· ≤ ·) ∧ InSweep key k₂ r h) ∨
  key r < key h ∧ ks.Pairwise (· ≤ ·) ∧ ∀ k ∈ ks, k ≤ key h

theorem Passed.refl (key : α → β) (r h : α) : Passed key [] r h := by
  rcases le_or_gt (key h) (key r) with hle | hlt
  · exact .inl ⟨[], [], rfl, .nil, hle, .nil, nofun⟩
  · exact .inr ⟨hlt, .nil, nofun⟩

theorem pairwise_concat {k : β} (hks : ks.Pairwise (· ≤ ·)) (hle : ∀ k' ∈ ks, k' ≤ k) :
    (ks ++ [k]).Pairwise (· ≤ ·) := by
  refine List.pairwise_append.2 ⟨hks, List.pairwise_singleton .., fun k' hk' k'' hk'' => ?_⟩
  exact List.mem_singleton.1 hk'' ▸ hle k' hk'

theorem forall_mem_concat {k m : β} (hks : ∀ k' ∈ ks, k' ≤ k) (hm : k ≤ m) :
    ∀ k' ∈ ks ++ [k], k' ≤ m := by
  intro k' hk'
  rcases List.mem_append.1 hk' with hk' | hk'
  · exact (hks k' hk').trans hm
  · exact List.mem_singleton.1 hk' ▸ hm

/-- The head is served, and is not the request that waits. -/
theorem InSweep.serve {h' : α} (hp : InSweep key ks r h) (hs : Sweeps key (h :: l₁) l₂)
    (hr : r ∈ l₁ ++ l₂) (hh' : (l₁ ++ l₂).head? = some h') :
    InSweep key (ks ++ [key h]) r h' := by
  have hr₁ : r ∈ l₁ := (List.mem_append.1 hr).resolve_right fun hr₂ =>
    (hs.lt_of_mem hr₂).not_ge hp.le
  obtain ⟨x, l₁, rfl⟩ := List.exists_cons_of_ne_nil (List.ne_nil_of_mem hr₁)
  obtain rfl : x = h' := Option.some.inj hh'
  obtain ⟨hh, ha⟩ := List.pairwise_cons.1 hs.first
  exact ⟨Ascending.le_of_mem ha hr₁, pairwise_concat hp.ascend hp.served,
    forall_mem_concat hp.served (hh x List.mem_cons_self)⟩

theorem Passed.serve {h' : α} (hp : Passed key ks r h) (hs : Sweeps key (h :: l₁) l₂)
    (hr : r ∈ l₁ ++ l₂) (hh' : (l₁ ++ l₂).head? = some h') :
    Passed key (ks ++ [key h]) r h' := by
  rcases hp with ⟨k₁, k₂, rfl, h₁, hp⟩ | ⟨hlt, hks, hk⟩
  · exact .inl ⟨k₁, k₂ ++ [key h], List.append_assoc .., h₁, hp.serve hs hr hh'⟩
  · cases l₁ with
    | nil =>
      -- The second run becomes the first, and the request is in it.
      obtain ⟨l₂, rfl⟩ := List.head?_eq_some_iff.1 hh'
      exact .inl ⟨ks ++ [key h], [], (List.append_nil _).symm, pairwise_concat hks hk,
        hs.second.le_of_mem hr, .nil, nofun⟩
    | cons x l₁ =>
      obtain rfl : x = h' := Option.some.inj hh'
      have hx := (List.pairwise_cons.1 hs.first).1 x List.mem_cons_self
      exact .inr ⟨hlt.trans_le hx, pairwise_concat hks hk, forall_mem_concat hk hx⟩

theorem InSweep.sweep (hp : InSweep key ks r h) : (ks ++ [key r]).Pairwise (· ≤ ·) :=
  pairwise_concat hp.ascend fun k hk => (hp.served k hk).trans hp.le

/-- A request is served in the sweep that goes on, or in the next. -/
theorem Passed.sweep (hp : Passed key ks r h) :
    ∃ k₁ k₂, ks ++ [key r] = k₁ ++ k₂ ∧ k₁.Pairwise (· ≤ ·) ∧ k₂.Pairwise (· ≤ ·) := by
  rcases hp with ⟨k₁, k₂, rfl, h₁, hp⟩ | ⟨-, hks, -⟩
  · exact ⟨k₁, k₂ ++ [key r], List.append_assoc .., h₁, hp.sweep⟩
  · exact ⟨ks, [key r], rfl, hks, List.pairwise_singleton ..⟩

end AuxKernel
