import Mathlib.Logic.Relation

/-!
# Machines

A *machine* is a state that actions move: `init` says where its runs may start,
and `next s a` is the state after the action `a`, or `none` where `a` cannot
happen. Every nondeterministic choice of a run (which process goes, whether the
disk fails) is part of the action, so that a run is just a list of actions, and
can be replayed (`run`).

* `Reachable`: the states of the runs from an initial state;
* `ReachableIf ok`: those of the runs whose every step meets `ok`, a condition
  on the action and the state before it;
* `ReachableIf.invariant`: what holds initially and is kept by every step holds
  in every reachable state.
-/

namespace AuxKernel

/-- A machine with states `σ`, moved by actions `α`. -/
structure Machine (σ α : Type*) where
  /-- The initial states. -/
  init : σ → Prop
  /-- The state after an action, if it can happen. -/
  next : σ → α → Option σ

namespace Machine

variable {σ α : Type*} (m : Machine σ α)

/-- The states of the runs whose every step meets `ok`. -/
inductive ReachableIf (ok : σ → α → Prop) : σ → Prop
  | init {s : σ} : m.init s → ReachableIf ok s
  | step {s s' : σ} {a : α} : ReachableIf ok s → ok s a → m.next s a = some s' → ReachableIf ok s'

/-- The states of all runs. -/
abbrev Reachable : σ → Prop := m.ReachableIf fun _ _ => True

/-- What holds initially and is kept by every step that meets `ok` holds in
    every state these steps reach. -/
theorem ReachableIf.invariant {m : Machine σ α} {ok : σ → α → Prop} {P : σ → Prop}
    (hinit : ∀ s, m.init s → P s)
    (hstep : ∀ s a s', P s → ok s a → m.next s a = some s' → P s') {s : σ}
    (hs : m.ReachableIf ok s) : P s := by
  induction hs with
  | init h => exact hinit _ h
  | step _ hok h ih => exact hstep _ _ _ ih hok h

/-- A weaker condition on the steps reaches more states. -/
theorem ReachableIf.mono {m : Machine σ α} {ok ok' : σ → α → Prop}
    (h : ∀ s a, ok s a → ok' s a) {s : σ} (hs : m.ReachableIf ok s) : m.ReachableIf ok' s := by
  induction hs with
  | init hs => exact .init hs
  | step _ hok hn ih => exact .step ih (h _ _ hok) hn

/-- The state after the actions `l`, in turn. -/
def run : σ → List α → Option σ
  | s, [] => some s
  | s, a :: l => (m.next s a).bind (run · l)

/-- The state a run ends in is reachable, if its actions always meet the condition. -/
theorem reachableIf_run {m : Machine σ α} {ok : σ → α → Prop} {s s' : σ} {l : List α}
    (hs : m.ReachableIf ok s) (hok : ∀ a ∈ l, ∀ s, ok s a) (h : m.run s l = some s') :
    m.ReachableIf ok s' := by
  induction l generalizing s with
  | nil => exact Option.some.inj h ▸ hs
  | cons a l ih =>
    obtain ⟨t, ht, h⟩ := Option.bind_eq_some_iff.1 h
    exact ih (.step hs (hok a List.mem_cons_self s) ht)
      (fun b hb => hok b (List.mem_cons_of_mem a hb)) h

/-- The state after the actions `l`, if they all meet `ok` when they happen. -/
def runIf (ok : σ → α → Prop) [∀ s a, Decidable (ok s a)] : σ → List α → Option σ
  | s, [] => some s
  | s, a :: l => if ok s a then (m.next s a).bind (runIf ok · l) else none

theorem reachableIf_runIf {m : Machine σ α} {ok : σ → α → Prop} [∀ s a, Decidable (ok s a)]
    {s s' : σ} {l : List α} (hs : m.ReachableIf ok s) (h : m.runIf ok s l = some s') :
    m.ReachableIf ok s' := by
  induction l generalizing s with
  | nil => exact Option.some.inj h ▸ hs
  | cons a l ih =>
    rw [runIf] at h
    by_cases ha : ok s a
    · rw [if_pos ha] at h
      obtain ⟨t, ht, h⟩ := Option.bind_eq_some_iff.1 h
      exact ih (.step hs ha ht) h
    · simp [ha] at h

end Machine

end AuxKernel
