import Mathlib.Tactic.Basic
import Mathlib.Data.Nat.Notation
import Mathlib.Order.Basic

/-!
# Loops

A *loop* is a body that is run again and again: `body n s` is the state after pass `n`
over it, which starts in `s`, or `none` where the pass leaves the loop. What the passes
find (an interrupt, a failed allocation) may differ from one to the next.

* `invariant`: what every pass keeps holds wherever a pass starts;
* `stops_of_rank`: a loop stops if every pass that goes on takes something off a rank;
* `not_stops`: it does not if every pass goes on.
-/

namespace AuxKernel

/-- The body of a loop on states `σ`. -/
abbrev Loop (σ : Type*) := ℕ → σ → Option σ

namespace Loop

variable {σ : Type*} {body : Loop σ} {s s' : σ}

/-- The state in which pass `n` starts, if the loop gets that far. -/
def start (body : Loop σ) (s : σ) : ℕ → Option σ
  | 0 => some s
  | n + 1 => (start body s n).bind (body n)

/-- The loop makes finitely many passes. -/
def Stops (body : Loop σ) (s : σ) : Prop := ∃ n, body.start s n = none

theorem invariant {P : σ → Prop} (hstep : ∀ n s s', P s → body n s = some s' → P s') (hs : P s)
    {n : ℕ} (h : body.start s n = some s') : P s' := by
  induction n generalizing s' with
  | zero => exact Option.some.inj h ▸ hs
  | succ n ih =>
    obtain ⟨t, ht, h⟩ := Option.bind_eq_some_iff.1 h
    exact hstep n t s' (ih ht) h

/-- A loop stops if every pass that goes on keeps `P` and lowers the rank. -/
theorem stops_of_rank {P : σ → Prop} (rank : σ → ℕ)
    (hstep : ∀ n s s', P s → body n s = some s' → P s' ∧ rank s' < rank s) (hs : P s) :
    body.Stops s := by
  by_contra h
  have hall (n : ℕ) : ∃ s', body.start s n = some s' :=
    Option.ne_none_iff_exists'.1 fun hn => h ⟨n, hn⟩
  -- As many passes as the rank leave nothing of it.
  have hrank (n : ℕ) : ∀ s', body.start s n = some s' → P s' ∧ rank s' + n ≤ rank s := by
    induction n with
    | zero =>
      intro s' hs'
      obtain rfl := Option.some.inj hs'
      exact ⟨hs, Nat.le_refl _⟩
    | succ n ih =>
      intro s' hs'
      obtain ⟨t, ht, hs'⟩ := Option.bind_eq_some_iff.1 hs'
      obtain ⟨hP, hle⟩ := ih t ht
      obtain ⟨hP', hlt⟩ := hstep n t s' hP hs'
      exact ⟨hP', by omega⟩
  obtain ⟨s', hs'⟩ := hall (rank s + 1)
  have := (hrank _ s' hs').2
  omega

/-- A loop does not stop if every pass goes on, and keeps what makes it go on. -/
theorem not_stops {P : σ → Prop} (hstep : ∀ n s, P s → ∃ s', body n s = some s' ∧ P s')
    (hs : P s) : ¬ body.Stops s := by
  have hall (n : ℕ) : ∃ s', body.start s n = some s' ∧ P s' := by
    induction n with
    | zero => exact ⟨s, rfl, hs⟩
    | succ n ih =>
      obtain ⟨t, ht, hP⟩ := ih
      obtain ⟨s', hs', hP'⟩ := hstep n t hP
      exact ⟨s', Option.bind_eq_some_iff.2 ⟨t, ht, hs'⟩, hP'⟩
  rintro ⟨n, hn⟩
  obtain ⟨s', hs', -⟩ := hall n
  exact absurd (hn.symm.trans hs') (by simp)

end Loop

end AuxKernel
