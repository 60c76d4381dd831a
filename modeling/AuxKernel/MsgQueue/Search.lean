import AuxKernel.MsgQueue.Basic

/-!
# Looking for a message

The walk of `msgrcv` along a queue ends, and finds the best message that meets the type
(`findmsg_found`): for a positive type the first, and for a negative one the first of
those of the least type (`Best`).
-/

namespace AuxKernel.MsgQueue

/-- The message at `x`, between `l₁` and `l₂`, is the best of those that are wanted:
    the first, and for a negative type the first of the least type. -/
structure Best (h : ℕ → Msg) (W : ℕ → Prop) (msgtyp : ℤ) (l₁ : List ℕ) (x : ℕ) (l₂ : List ℕ) :
    Prop where
  wanted : W x
  before : ∀ y ∈ l₁, W y → msgtyp < 0 ∧ (h x).msg_type < (h y).msg_type
  after : msgtyp < 0 → ∀ y ∈ l₂, W y → (h x).msg_type ≤ (h y).msg_type

/-- The search stops at the message, or compares its type with `-msgtyp`. -/
def Meets (h : ℕ → Msg) (msgtyp : ℤ) (x : ℕ) : Prop :=
  if 0 < msgtyp then msgtyp = (h x).msg_type else (h x).msg_type ≤ toLong (-msgtyp)

/-- What the search has found among `l`. -/
def Found (h : ℕ → Msg) (msgtyp : ℤ) (l : List ℕ) : Option (Option ℕ × ℕ) → Prop
  | none => ∀ y ∈ l, ¬Meets h msgtyp y
  | some b => ∃ l₁ l₂, l = l₁ ++ b.2 :: l₂ ∧ l₁.getLast? = b.1 ∧
      Best h (Meets h msgtyp) msgtyp l₁ b.2 l₂

variable {h : ℕ → Msg} {msgtyp : ℤ} {l : List ℕ} {x : ℕ} {best : Option (Option ℕ × ℕ)}

/-- A message that does not meet the type is passed over. -/
theorem Found.skip (hf : Found h msgtyp l best) (hx : ¬Meets h msgtyp x) :
    Found h msgtyp (l ++ [x]) best := by
  cases best with
  | none =>
    intro y hy
    rcases List.mem_append.1 hy with hy | hy
    · exact hf y hy
    · exact List.mem_singleton.1 hy ▸ hx
  | some b =>
    obtain ⟨l₁, l₂, rfl, hlast, hbest⟩ := hf
    refine ⟨l₁, l₂ ++ [x], by simp, hlast, hbest.wanted, hbest.before, fun hneg y hy hm => ?_⟩
    rcases List.mem_append.1 hy with hy | hy
    · exact hbest.after hneg y hy hm
    · exact absurd (List.mem_singleton.1 hy ▸ hm) hx

/-- So is one that is not better than the best so far. -/
theorem Found.keep {b : Option ℕ × ℕ} (hf : Found h msgtyp l (some b))
    (hx : (h b.2).msg_type ≤ (h x).msg_type) : Found h msgtyp (l ++ [x]) (some b) := by
  obtain ⟨l₁, l₂, rfl, hlast, hbest⟩ := hf
  refine ⟨l₁, l₂ ++ [x], by simp, hlast, hbest.wanted, hbest.before, fun hneg y hy hm => ?_⟩
  rcases List.mem_append.1 hy with hy | hy
  · exact hbest.after hneg y hy hm
  · exact List.mem_singleton.1 hy ▸ hx

/-- The first message that meets the type is the best so far. -/
theorem Found.first (hf : Found h msgtyp l none) (hx : Meets h msgtyp x) (l₂ : List ℕ)
    (hl₂ : msgtyp < 0 → l₂ = []) : Found h msgtyp (l ++ x :: l₂) (some (l.getLast?, x)) :=
  ⟨l, l₂, rfl, rfl, hx, fun y hy hm => absurd hm (hf y hy), fun hneg y hy => by
    rw [hl₂ hneg] at hy
    exact absurd hy List.not_mem_nil⟩

/-- One of a lesser type is better. -/
theorem Found.better {b : Option ℕ × ℕ} (hf : Found h msgtyp l (some b)) (hneg : msgtyp < 0)
    (hx : Meets h msgtyp x) (hlt : (h x).msg_type < (h b.2).msg_type) :
    Found h msgtyp (l ++ [x]) (some (l.getLast?, x)) := by
  obtain ⟨l₁, l₂, rfl, -, hbest⟩ := hf
  refine ⟨l₁ ++ b.2 :: l₂, [], rfl, rfl, hx, fun y hy hm => ⟨hneg, ?_⟩, fun _ _ => nofun⟩
  rcases List.mem_append.1 hy with hy | hy
  · exact hlt.trans (hbest.before y hy hm).2
  · rcases List.mem_cons.1 hy with rfl | hy
    · exact hlt
    · exact hlt.trans_le (hbest.after hneg y hy hm)

/-- The walk along a queue ends, with the best message and the one before it. -/
theorem findmsg_found {n : ℕ} (l : List ℕ) {l₂ : List ℕ} (hne : msgtyp ≠ 0)
    (hc : Chained (fun x => (h x).msg_next) l₂) (hn : l₂.length ≤ n)
    (hf : Found h msgtyp l best) (hpos : 0 < msgtyp → best = none) :
    ∃ best', findmsg msgtyp h n l.getLast? l₂.head? best = some best' ∧
      Found h msgtyp (l ++ l₂) best' := by
  induction l₂ generalizing l n best with
  | nil => exact ⟨best, by cases n <;> rfl, by rwa [List.append_nil]⟩
  | cons x l₂ ih =>
    obtain ⟨n, rfl⟩ : ∃ n', n = n' + 1 := ⟨n - 1, by simp at hn; omega⟩
    have hgo {best : Option (Option ℕ × ℕ)} (hf : Found h msgtyp (l ++ [x]) best)
        (hpos : 0 < msgtyp → best = none) :
        ∃ best', findmsg msgtyp h n (some x) (h x).msg_next best = some best' ∧
          Found h msgtyp (l ++ x :: l₂) best' := by
      have := ih (l ++ [x]) hc.2 (by simpa using hn) hf hpos
      rw [(show (h x).msg_next = l₂.head? from hc.1)]
      simpa using this
    rw [List.head?_cons, findmsg]
    by_cases hp : 0 < msgtyp
    · rw [if_pos hp]
      by_cases ht : msgtyp ≠ (h x).msg_type
      · rw [if_pos ht]
        exact hgo (hf.skip (by rwa [Meets, if_pos hp])) hpos
      · rw [if_neg ht]
        obtain rfl := hpos hp
        refine ⟨_, rfl, hf.first ?_ l₂ fun hneg => absurd hp hneg.not_gt⟩
        rw [Meets, if_pos hp]
        exact not_not.1 ht
    · have hneg : msgtyp < 0 := lt_of_le_of_ne (not_lt.1 hp) hne
      have hpos' {best : Option (Option ℕ × ℕ)} : 0 < msgtyp → best = none := fun hp' =>
        absurd hp' hp
      rw [if_neg hp]
      by_cases ht : (h x).msg_type ≤ toLong (-msgtyp)
      · have hm : Meets h msgtyp x := by rwa [Meets, if_neg hp]
        rw [if_pos ht]
        cases best with
        | none => exact hgo (hf.first hm [] fun _ => rfl) hpos'
        | some b =>
          by_cases hb : (h b.2).msg_type ≤ (h x).msg_type
          · rw [if_pos (by simpa using hb)]
            exact hgo (hf.keep hb) hpos'
          · rw [if_neg (by simpa using hb)]
            exact hgo (hf.better hneg hm (not_le.1 hb)) hpos'
      · rw [if_neg ht]
        exact hgo (hf.skip (by rwa [Meets, if_neg hp])) hpos'

end AuxKernel.MsgQueue
