import Mathlib.Data.List.Basic
import Mathlib.Data.List.Pairwise
import Mathlib.Logic.Function.Basic

/-!
# Queues with priority classes

A queue with priority classes is a queue for each class. What is in it is read
class by class, in the order of the classes (`flat`).

* `enqueue`: to the end of its class; `requeue`: to the front of its class;
* `dequeue`: from the front of the first class that is not empty;
* `flat_enqueue`, `flat_requeue`, `flat_dequeue`: what they do to the whole queue.
-/

namespace AuxKernel.ClassQueue

variable {C M : Type*} {order hi lo : List C} {q : C → List M} {c : C} {m : M}

/-- All that is in a queue, in the order of the classes. -/
def flat (order : List C) (q : C → List M) : List M := order.flatMap q

theorem flat_append : flat (hi ++ lo) q = flat hi q ++ flat lo q := List.flatMap_append

theorem flat_cons : flat (c :: lo) q = q c ++ flat lo q := List.flatMap_cons

theorem mem_flat : m ∈ flat order q ↔ ∃ c ∈ order, m ∈ q c := List.mem_flatMap

/-- What is in the class `c` has this class. -/
def Classed (cls : M → C) (q : C → List M) : Prop := ∀ c, ∀ m ∈ q c, cls m = c

/-- The whole queue is in the order of the classes. -/
theorem flat_pairwise {cls : M → C} {R : C → C → Prop} (hrefl : ∀ c, R c c)
    (h : Classed cls q) (ho : order.Pairwise R) :
    (flat order q).Pairwise fun x y => R (cls x) (cls y) := by
  induction order with
  | nil => exact .nil
  | cons c order ih =>
    obtain ⟨hc, ho⟩ := List.pairwise_cons.1 ho
    rw [flat_cons, List.pairwise_append]
    refine ⟨List.pairwise_of_forall_mem_list fun x hx y hy => ?_, ih ho, fun x hx y hy => ?_⟩
    · rw [h c x hx, h c y hy]
      exact hrefl c
    · obtain ⟨d, hd, hy⟩ := mem_flat.1 hy
      rw [h c x hx, h d y hy]
      exact hc d hd

variable [DecidableEq C]

/-- Put `m` at the end of its class. -/
def enqueue (q : C → List M) (c : C) (m : M) : C → List M := Function.update q c (q c ++ [m])

/-- Put `m` back at the front of its class. -/
def requeue (q : C → List M) (c : C) (m : M) : C → List M := Function.update q c (m :: q c)

/-- Take the first off the first class that is not empty. -/
def dequeue : List C → (C → List M) → C → List M
  | [], q => q
  | c :: order, q =>
    if (q c).isEmpty then dequeue order q else Function.update q c (q c).tail

/-- A class that is not among `order` does not matter to it. -/
theorem flat_update {l : List M} (h : c ∉ order) :
    flat order (Function.update q c l) = flat order q :=
  List.flatMap_congr fun d hd => Function.update_of_ne (fun he : d = c => h (he ▸ hd)) l q

/-- The class `c` is replaced where it stands. -/
theorem flat_update_mid {l : List M} (h : (hi ++ c :: lo).Nodup) :
    flat (hi ++ c :: lo) (Function.update q c l) = flat hi q ++ (l ++ flat lo q) := by
  obtain ⟨-, hclo, hne⟩ := List.nodup_append.1 h
  have hhi : c ∉ hi := fun hc => hne c hc c List.mem_cons_self rfl
  rw [flat_append, flat_cons, flat_update hhi, flat_update (List.nodup_cons.1 hclo).1,
    Function.update_self]

theorem flat_enqueue (h : (hi ++ c :: lo).Nodup) :
    flat (hi ++ c :: lo) (enqueue q c m) = (flat hi q ++ q c) ++ m :: flat lo q := by
  rw [enqueue, flat_update_mid h]
  simp

theorem flat_requeue (h : (hi ++ c :: lo).Nodup) :
    flat (hi ++ c :: lo) (requeue q c m) = flat hi q ++ m :: (q c ++ flat lo q) := by
  rw [requeue, flat_update_mid h]
  simp

theorem perm_enqueue (h : order.Nodup) (hc : c ∈ order) :
    (flat order (enqueue q c m)).Perm (m :: flat order q) := by
  obtain ⟨hi, lo, rfl⟩ := List.append_of_mem hc
  rw [flat_enqueue h, flat_append, flat_cons, ← List.append_assoc]
  exact List.perm_middle

theorem flat_dequeue (h : order.Nodup) : flat order (dequeue order q) = (flat order q).tail := by
  induction order with
  | nil => rfl
  | cons c order ih =>
    obtain ⟨hc, hnodup⟩ := List.nodup_cons.1 h
    rw [dequeue]
    split_ifs with he
    · have hdeq : ∀ (l : List C), c ∉ l → dequeue l q c = q c := by
        intro l hl
        induction l with
        | nil => rfl
        | cons d l ih' =>
          rw [dequeue]
          split_ifs
          · exact ih' fun hd => hl (List.mem_cons_of_mem d hd)
          · exact Function.update_of_ne (fun hd : c = d => hl (hd ▸ List.mem_cons_self)) _ q
      rw [flat_cons, flat_cons, hdeq order hc, List.isEmpty_iff.1 he, ih hnodup]
      rfl
    · rw [flat_cons, flat_cons, flat_update hc, Function.update_self]
      cases hq : q c with
      | nil => exact absurd (by rw [hq]; rfl) he
      | cons x l => rfl

/-- What is taken off by a `dequeue` stays where it is otherwise. -/
theorem dequeue_subset (order : List C) (q : C → List M) (c : C) : dequeue order q c ⊆ q c := by
  induction order with
  | nil => exact List.Subset.refl _
  | cons d order ih =>
    rw [dequeue]
    split_ifs
    · exact ih
    · by_cases hd : c = d
      · rw [hd, Function.update_self]
        exact (List.tail_sublist (q d)).subset
      · rw [Function.update_of_ne hd]
        exact List.Subset.refl _

theorem Classed.enqueue {cls : M → C} (h : Classed cls q) (m : M) :
    Classed cls (enqueue q (cls m) m) := by
  intro c x hx
  by_cases hc : c = cls m
  · rw [ClassQueue.enqueue, hc, Function.update_self] at hx
    rcases List.mem_append.1 hx with hx | hx
    · rw [hc]
      exact h (cls m) x hx
    · rw [List.mem_singleton.1 hx, hc]
  · rw [ClassQueue.enqueue, Function.update_of_ne hc] at hx
    exact h c x hx

theorem Classed.requeue {cls : M → C} (h : Classed cls q) (m : M) :
    Classed cls (requeue q (cls m) m) := by
  intro c x hx
  by_cases hc : c = cls m
  · rw [ClassQueue.requeue, hc, Function.update_self] at hx
    rcases List.mem_cons.1 hx with hx | hx
    · rw [hx, hc]
    · rw [hc]
      exact h (cls m) x hx
  · rw [ClassQueue.requeue, Function.update_of_ne hc] at hx
    exact h c x hx

theorem Classed.dequeue {cls : M → C} (h : Classed cls q) : Classed cls (dequeue order q) :=
  fun c x hx => h c x (dequeue_subset order q c hx)

/-- Each class is what the whole queue has of it. -/
theorem filter_flat {cls : M → C} (h : Classed cls q) (hn : order.Nodup) (hc : c ∈ order) :
    (flat order q).filter (fun m => cls m = c) = q c := by
  obtain ⟨hi, lo, rfl⟩ := List.append_of_mem hc
  obtain ⟨-, hclo, hne⟩ := List.nodup_append.1 hn
  have hnone (l : List C) (hl : c ∉ l) : (flat l q).filter (fun m => cls m = c) = [] := by
    refine List.filter_eq_nil_iff.2 fun m hm => ?_
    obtain ⟨d, hd, hm⟩ := mem_flat.1 hm
    rw [h d m hm, decide_eq_true_eq]
    exact fun he => hl (he ▸ hd)
  have hall : (q c).filter (fun m => cls m = c) = q c :=
    List.filter_eq_self.2 fun m hm => decide_eq_true (h c m hm)
  rw [flat_append, flat_cons, List.filter_append, List.filter_append, hall,
    hnone hi fun hc => hne c hc c List.mem_cons_self rfl, hnone lo (List.nodup_cons.1 hclo).1]
  simp

/-- What is enqueued one by one goes to the end of its class. -/
theorem foldl_enqueue {cls : M → C} (p : M → Bool) (l : List M) (q : C → List M) (c : C) :
    l.foldl (fun q x => if p x then enqueue q (cls x) x else q) q c =
      q c ++ (l.filter p).filter fun x => cls x = c := by
  induction l generalizing q with
  | nil => simp
  | cons x l ih =>
    rw [List.foldl_cons, ih]
    by_cases hp : p x
    · by_cases hc : cls x = c
      · simp [hp, hc, enqueue]
      · simp [hp, hc, enqueue, Function.update_of_ne (Ne.symm hc)]
    · simp [hp]

/-- To enqueue anew what `p` holds of is to filter each class. -/
theorem foldl_enqueue_flat {cls : M → C} (h : Classed cls q) (hn : order.Nodup)
    (ho : ∀ m, cls m ∈ order) (p : M → Bool) :
    (flat order q).foldl (fun q x => if p x then enqueue q (cls x) x else q) (fun _ => []) =
      fun c => (q c).filter p := by
  funext c
  rw [foldl_enqueue, List.nil_append, List.filter_comm]
  by_cases hc : c ∈ order
  · rw [filter_flat h hn hc]
  · have hq : q c = [] :=
      List.eq_nil_iff_forall_not_mem.2 fun m hm => hc (h c m hm ▸ ho m)
    have hflat : (flat order q).filter (fun x => cls x = c) = [] :=
      List.filter_eq_nil_iff.2 fun m _ he => hc (of_decide_eq_true he ▸ ho m)
    rw [hq, hflat]

end AuxKernel.ClassQueue
