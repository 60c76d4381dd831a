import Mathlib.Data.List.Nodup
import Mathlib.Data.List.Perm.Subperm
import Mathlib.Logic.Relation

/-!
# Waiting in a graph

A graph is acyclic (`Acyclic`) if no path comes back to where it starts. It stays
so without some of its edges (`Acyclic.mono`), and with an edge more from `x` to
`y`, unless there is a path from `y` to `x` (`Acyclic.insert`).

Where every node has one successor at most, `walk` follows the edges up to a
target, or to a node without a successor. It decides whether there is a path to
the target (`walk_true`, `walk_false`), and it ends, in an acyclic graph, after as
many steps as there are nodes with a successor (`Acyclic.walk_ne_none`).
-/

namespace AuxKernel.WaitFor

open Relation

variable {α : Type*} {E E' : α → α → Prop} {x y t : α}

/-- No path comes back to where it starts. -/
def Acyclic (E : α → α → Prop) : Prop := ∀ x, ¬TransGen E x x

theorem Acyclic.mono (h : Acyclic E) (hE : ∀ x y, E' x y → E x y) : Acyclic E' :=
  fun x hx => h x (TransGen.mono hE x x hx)

/-- A path with a new edge is a path without it, or gets to the edge and on from it. -/
theorem transGen_insert {a b : α} (h : TransGen (fun a b => E a b ∨ a = x ∧ b = y) a b) :
    TransGen E a b ∨ ReflTransGen E a x ∧ ReflTransGen E y b := by
  induction h with
  | single h =>
    rcases h with h | ⟨rfl, rfl⟩
    · exact .inl (.single h)
    · exact .inr ⟨.refl, .refl⟩
  | tail _ h ih =>
    rcases h with h | ⟨rfl, rfl⟩
    · exact ih.imp (fun hab => hab.tail h) fun ⟨hax, hyb⟩ => ⟨hax, hyb.tail h⟩
    · exact .inr ⟨ih.elim TransGen.to_reflTransGen And.left, .refl⟩

theorem Acyclic.insert (h : Acyclic E) (hyx : ¬ReflTransGen E y x) :
    Acyclic fun a b => E a b ∨ a = x ∧ b = y := by
  intro a ha
  rcases transGen_insert ha with ha | ⟨hax, hya⟩
  · exact h a ha
  · exact hyx (hya.trans hax)

/-- A path visits no node twice. -/
theorem Acyclic.nodup {path : List α} (h : Acyclic E) (hp : path.IsChain E) : path.Nodup := by
  have hp' : path.IsChain (TransGen E) := hp.imp fun _ _ => .single
  exact (List.isChain_iff_pairwise.1 hp').imp
    fun {a b} (hab : TransGen E a b) (he : a = b) => h a (he ▸ hab)

/-- A path to `t` is one of other edges, if its edges are. -/
theorem reflTransGen_of_between {a : α} (h : ReflTransGen E a t)
    (hE : ∀ x y, ReflTransGen E a x → E x y → ReflTransGen E y t → E' x y) :
    ReflTransGen E' a t := by
  induction h using ReflTransGen.head_induction_on with
  | refl => exact .refl
  | head hab hbt ih =>
    exact .head (hE _ _ .refl hab hbt) (ih fun x y hbx => hE x y (.head hab hbx))

/-! ## Walks -/

section Walk

variable [DecidableEq α] {succ : α → Option α} {n : ℕ}

/-- Follow the successors from `x` on, for less than `n` steps: whether this comes to `t`. -/
def walk (succ : α → Option α) (t : α) : (n : ℕ) → (x : α) → Option Bool
  | 0, _ => none
  | n + 1, x =>
    if x = t then some true
    else
      match succ x with
      | none => some false
      | some y => walk succ t n y

/-- The edges to the successors. -/
def Edge (succ : α → Option α) (x y : α) : Prop := succ x = some y

theorem walk_true (h : walk succ t n x = some true) : ReflTransGen (Edge succ) x t := by
  induction n generalizing x with
  | zero => exact nomatch h
  | succ n ih =>
    rw [walk] at h
    split_ifs at h with hx
    · exact hx ▸ .refl
    · cases hs : succ x with
      | none => simp [hs] at h
      | some y =>
        rw [hs] at h
        exact .head hs (ih h)

theorem walk_false (h : walk succ t n x = some false) : ¬ReflTransGen (Edge succ) x t := by
  induction n generalizing x with
  | zero => exact nomatch h
  | succ n ih =>
    rw [walk] at h
    split_ifs at h with hx
    · simp at h
    intro hp
    rcases hp.cases_head with he | ⟨z, hz, hp⟩
    · exact hx he
    · rw [(show succ x = some z from hz)] at h
      exact ih h hp

/-- A walk that does not end in `n` steps passes `n` nodes. -/
theorem walk_none (h : walk succ t n x = none) :
    ∃ path : List α, path.length = n ∧ path.IsChain (Edge succ) ∧
      (∀ z ∈ path.head?, z = x) ∧ ∀ z ∈ path, succ z ≠ none := by
  induction n generalizing x with
  | zero => exact ⟨[], rfl, .nil, nofun, nofun⟩
  | succ n ih =>
    rw [walk] at h
    split_ifs at h
    cases hs : succ x with
    | none => simp [hs] at h
    | some y =>
      rw [hs] at h
      obtain ⟨path, hlen, hp, hhead, hsucc⟩ := ih h
      refine ⟨x :: path, by rw [List.length_cons, hlen], ?_, fun z hz => (Option.some.inj hz).symm,
        fun z hz => ?_⟩
      · cases path with
        | nil => exact .singleton x
        | cons z path => exact .cons_cons (hhead z rfl ▸ hs) hp
      · rcases List.mem_cons.1 hz with rfl | hz
        · simp [hs]
        · exact hsucc z hz

/-- In an acyclic graph, a walk ends. -/
theorem Acyclic.walk_ne_none {l : List α} (h : Acyclic (Edge succ))
    (hl : ∀ x, succ x ≠ none → x ∈ l) (hn : l.length < n) : walk succ t n x ≠ none := by
  intro hw
  obtain ⟨path, hlen, hp, -, hsucc⟩ := walk_none hw
  have := (List.subperm_of_subset (h.nodup hp) fun z hz => hl z (hsucc z hz)).length_le
  omega

end Walk

end AuxKernel.WaitFor
