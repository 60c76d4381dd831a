import AuxKernel.Net.Sosend

/-!
# A message is sent as a whole

What has been copied and what is left are the message (`fill_flatten`), and nothing is left if
and only if there was space before each mbuf (`fill_done_iff`). The check before the loop
counts bytes, and the loop storage as well, so a message of many small mbufs can pass the one
and not the other.

* `sosend_whole_iff`: a call that returns has sent the whole message, or nothing if it returns an
  error, if and only if the first message that the protocol takes has space before each mbuf.
-/

namespace AuxKernel.Net.Send

variable {α : Type*} {k : Kind} {oob first : Bool} {supply : List Supply} {space : ℤ}
  {sb : Sndbuf} {uio uio' : List (List α)} {top top' : List α} {turns : List Turn}
  {error : Option Errno}

/-- The space that there is before each mbuf that a message is cut into. -/
def spaces (oob : Bool) : List Supply → (space : ℤ) → Sndbuf → (uio : List (List α)) → List ℤ
  | [], space, _, uio => if resid uio > 0 then [space] else []
  | s :: supply, space, sb, uio =>
    if resid uio > 0 then
      space :: match uio.dropWhile List.isEmpty with
        | [] => []
        | iov :: uio =>
          let (len, cluster) := piece s space iov
          let (space, sb) := behind oob space sb len cluster
          if s.mget ∧ s.readable then spaces oob supply space sb (iov.drop len :: uio) else []
    else []

/-- What the protocol takes first has space before each of its mbufs. -/
def Roomy (k : Kind) (uio : List (List α)) : List Turn → Prop
  | [] => True
  | t :: turns =>
    match admission k t.look true uio with
    | .refused _ => True
    | .wait => Roomy k uio turns
    | .room space =>
      t.answer = none → ∀ n ∈ spaces k.msg_oob t.supply space t.look.so_snd uio, 0 < n

/-- A call that returns has sent the whole message at once, or none of it if it returns an
    error. -/
structure Whole (uio : List (List α)) (r : Outcome × List (Request α)) : Prop where
  sent : r.1 = .returned none → r.2 = [⟨uio.flatten, none⟩]
  failed : ∀ e, r.1 = .returned (some e) → ∀ q ∈ r.2, q.answer ≠ none

/-! ## The loop -/

theorem resid_eq (uio : List (List α)) : resid uio = uio.flatten.length :=
  List.length_flatten.symm

theorem flatten_dropWhile (uio : List (List α)) :
    (uio.dropWhile List.isEmpty).flatten = uio.flatten := by
  induction uio with
  | nil => rfl
  | cons iov uio ih =>
    cases iov with
    | nil => exact ih
    | cons b iov => rfl

theorem dropWhile_of_resid (h : resid uio > 0) :
    ∃ iov rest, uio.dropWhile List.isEmpty = iov :: rest := by
  cases huio : uio.dropWhile List.isEmpty with
  | nil =>
    rw [resid_eq, ← flatten_dropWhile, huio] at h
    exact absurd h (lt_irrefl 0)
  | cons iov rest => exact ⟨iov, rest, rfl⟩

/-- What an mbuf and what is left of its data make up. -/
theorem flatten_piece {iov : List α} {rest : List (List α)} (n : ℕ) (top : List α)
    (h : uio.dropWhile List.isEmpty = iov :: rest) :
    (top ++ iov.take n) ++ (iov.drop n :: rest).flatten = top ++ uio.flatten := by
  rw [← flatten_dropWhile uio, h, List.flatten_cons, List.flatten_cons, List.append_assoc,
    ← List.append_assoc (iov.take n), List.take_append_drop]

/-- Nothing is lost, and nothing is copied twice. -/
theorem fill_flatten (h : fill oob supply space sb uio top = .full top' uio') :
    top' ++ uio'.flatten = top ++ uio.flatten := by
  induction supply generalizing space sb uio top with
  | nil =>
    rw [fill] at h
    split_ifs at h
    obtain ⟨rfl, rfl⟩ := Filled.full.inj h
    rfl
  | cons s supply ih =>
    rw [fill] at h
    by_cases hgo : resid uio > 0 ∧ space > 0
    · obtain ⟨iov, rest, huio⟩ := dropWhile_of_resid hgo.1
      simp only [if_pos hgo, huio] at h
      split_ifs at h
      exact (ih h).trans (flatten_piece _ top huio)
    · rw [if_neg hgo] at h
      obtain ⟨rfl, rfl⟩ := Filled.full.inj h
      rfl

/-- The loop stops without data, or without space for them. -/
theorem fill_stop (oob : Bool) (supply : List Supply) (sb : Sndbuf) (top : List α)
    (h : ¬(resid uio > 0 ∧ space > 0)) :
    fill oob supply space sb uio top = .full top uio ∧
      ((∀ n ∈ spaces oob supply space sb uio, 0 < n) ↔ resid uio = 0) := by
  have hfill : fill oob supply space sb uio top = .full top uio := by
    cases supply with
    | nil => rw [fill, if_neg h]
    | cons s supply => rw [fill, if_neg h]
  refine ⟨hfill, ?_⟩
  by_cases hres : resid uio > 0
  · refine iff_of_false (fun hall => h ⟨hres, hall space ?_⟩) hres.ne'
    cases supply with
    | nil =>
      rw [spaces, if_pos hres]
      exact List.mem_cons_self
    | cons s supply =>
      rw [spaces, if_pos hres]
      exact List.mem_cons_self
  · refine iff_of_true (fun n hn => ?_) (Nat.eq_zero_of_not_pos hres)
    cases supply with
    | nil =>
      rw [spaces, if_neg hres] at hn
      exact absurd hn List.not_mem_nil
    | cons s supply =>
      rw [spaces, if_neg hres] at hn
      exact absurd hn List.not_mem_nil

/-- The loop comes to the end of the data, or fails, if and only if there was always space. -/
theorem fill_done_iff (hfill : fill oob supply space sb uio top ≠ .asleep) :
    (∀ n ∈ spaces oob supply space sb uio, 0 < n) ↔
      ∀ top' uio', fill oob supply space sb uio top = .full top' uio' → resid uio' = 0 := by
  induction supply generalizing space sb uio top with
  | nil =>
    by_cases hgo : resid uio > 0 ∧ space > 0
    · rw [fill, if_pos hgo] at hfill
      exact absurd rfl hfill
    · obtain ⟨hstop, hspaces⟩ := fill_stop oob [] sb top hgo
      rw [hspaces, hstop]
      exact ⟨fun h top' uio' heq => (Filled.full.inj heq).2 ▸ h, fun h => h top uio rfl⟩
  | cons s supply ih =>
    by_cases hgo : resid uio > 0 ∧ space > 0
    · obtain ⟨iov, rest, huio⟩ := dropWhile_of_resid hgo.1
      rw [fill] at hfill ⊢
      rw [spaces]
      simp only [if_pos hgo, if_pos hgo.1, huio, List.forall_mem_cons] at hfill ⊢
      cases hget : s.mget with
      | false =>
        simp only [Bool.false_eq_true, false_and, if_false, Bool.not_false, if_true]
        exact iff_of_true ⟨hgo.2, fun n hn => absurd hn List.not_mem_nil⟩
          fun top' uio' h => absurd h (by simp)
      | true =>
        cases hread : s.readable with
        | false =>
          simp only [Bool.not_true, Bool.false_eq_true, and_false, if_false, Bool.not_false,
            if_true]
          exact iff_of_true ⟨hgo.2, fun n hn => absurd hn List.not_mem_nil⟩
            fun top' uio' h => absurd h (by simp)
        | true =>
          simp only [hget, hread, Bool.not_true, Bool.false_eq_true, if_false, and_self, if_true]
            at hfill ⊢
          rw [← ih hfill]
          exact and_iff_right hgo.2
    · obtain ⟨hstop, hspaces⟩ := fill_stop oob (s :: supply) sb top hgo
      rw [hspaces, hstop]
      exact ⟨fun h top' uio' heq => (Filled.full.inj heq).2 ▸ h, fun h => h top uio rfl⟩

/-! ## The call -/

/-- Before anything has been sent, to be refused is an error. -/
theorem admission_refused {l : Look} (h : admission k l true uio = .refused error) :
    error ≠ none := by
  rintro rfl
  rw [admission] at h
  by_cases herr : l.so_error.isSome = true
  · simp only [if_pos herr] at h
    split_ifs at h
    · cases h
    · rw [Admission.refused.inj h] at herr
      exact Bool.false_ne_true herr
  · rw [if_neg herr] at h
    dsimp only at h
    simp only [if_true] at h
    split_ifs at h <;> cases h

/-- A message of which something is left has not been sent as a whole. -/
theorem not_whole_cons {outcome : Outcome} {requests : List (Request α)}
    (hret : outcome = .returned error) (hflat : top ++ uio'.flatten = uio.flatten)
    (hleft : resid uio' ≠ 0) : ¬Whole uio (outcome, ⟨top, none⟩ :: requests) := by
  intro h
  cases error with
  | some e => exact h.failed e hret _ List.mem_cons_self rfl
  | none =>
    have htop : top = uio.flatten :=
      congrArg Request.top (List.cons.inj (h.sent hret)).1
    refine hleft ?_
    rw [resid_eq, List.append_right_eq_self.1 (hflat.trans htop.symm), List.length_nil]

theorem sosendLoop_whole_iff (hret : (sosendLoop k turns true uio).1 = .returned error) :
    Whole uio (sosendLoop k turns true uio) ↔ Roomy k uio turns := by
  induction turns with
  | nil => cases hret
  | cons t turns ih =>
    rw [sosendLoop] at hret ⊢
    rw [Roomy]
    cases hadm : admission k t.look true uio with
    | refused e =>
      have he := admission_refused hadm
      exact iff_of_true ⟨fun h => absurd (Outcome.returned.inj h) he,
        fun _ _ q hq => absurd hq List.not_mem_nil⟩ trivial
    | wait =>
      simp only [hadm] at hret
      exact ih hret
    | room space =>
      simp only [hadm] at hret ⊢
      cases hfill : fill k.msg_oob t.supply space t.look.so_snd uio [] with
      | asleep =>
        simp only [hfill] at hret
        cases hret
      | failed e =>
        have hdone := fill_done_iff (fun h => by cases hfill.symm.trans h)
        refine iff_of_true ⟨fun h => ?_, fun _ _ q hq => absurd hq List.not_mem_nil⟩
          fun _ => hdone.2 fun top' uio' h => ?_
        · cases h
        · rw [hfill] at h
          cases h
      | full top uio' =>
        have hdone := fill_done_iff (fun h => by cases hfill.symm.trans h)
        have hflat := fill_flatten hfill
        rw [List.nil_append] at hflat
        have hleft : (∀ top'' uio'', fill k.msg_oob t.supply space t.look.so_snd uio [] =
            .full top'' uio'' → resid uio'' = 0) ↔ resid uio' = 0 :=
          ⟨fun h => h top uio' hfill, fun h top'' uio'' heq =>
            (Filled.full.inj (hfill.symm.trans heq)).2 ▸ h⟩
        simp only [hdone, hleft]
        simp only [hfill] at hret
        cases hanswer : t.answer with
        | some e =>
          simp only [Option.isSome_some, true_or, if_true, reduceCtorEq, false_implies, iff_true]
          exact {
            sent := fun h => by cases h
            failed := fun _ _ q hq => by
              rw [List.mem_singleton.1 hq]
              exact Option.some_ne_none e }
        | none =>
          simp only [hanswer, Option.isSome_none, Bool.false_eq_true, false_or] at hret ⊢
          by_cases hres : resid uio' = 0
          · rw [if_pos hres]
            refine iff_of_true ⟨fun _ => ?_, fun e h => by cases h⟩ fun _ => hres
            have hnil : uio'.flatten = [] := List.length_eq_zero_iff.1 (resid_eq uio' ▸ hres)
            rw [hnil, List.append_nil] at hflat
            rw [hflat]
          · rw [if_neg hres] at hret ⊢
            exact iff_of_false (not_whole_cons hret hflat hres) fun h => hres (h trivial)

/-- A call that returns has sent the message as a whole, or not at all, if and only if there is
    space before each mbuf of what the protocol takes first. -/
theorem sosend_whole_iff (k : Kind) (sb_hiwat : ℤ) (turns : List Turn) (uio : List (List α))
    (hatomic : k.pr_atomic = true) (hsize : resid uio ≤ sb_hiwat)
    (hret : (sosend k sb_hiwat turns uio).1 = .returned error) :
    Whole uio (sosend k sb_hiwat turns uio) ↔ Roomy k uio turns := by
  have hpass : ¬(k.pr_atomic = true ∧ resid uio > sb_hiwat) := fun h => not_lt.2 hsize h.2
  rw [sosend, if_neg hpass] at hret ⊢
  exact sosendLoop_whole_iff hret

/-- A look at a datagram socket with an empty send buffer of a hundred bytes; then two mbufs, and
    a protocol that takes what it gets. -/
def turnOfHundred : Turn where
  look := ⟨false, none, true, false, ⟨0, 100, 0, 200⟩⟩
  supply := [⟨true, true, true⟩, ⟨true, true, true⟩]
  answer := none

/-- Two bytes from one place are sent as one message. -/
theorem whole_two_bytes :
    Whole [[1, 2]] (sosend ⟨true, false, false, true⟩ 100 [turnOfHundred] [[1, 2]]) := by
  have hret : (sosend ⟨true, false, false, true⟩ 100 [turnOfHundred] [[1, 2]]).1 =
    .returned none := by decide
  refine (sosend_whole_iff ⟨true, false, false, true⟩ 100 [turnOfHundred] [[1, 2]]
    rfl (by decide) hret).2 ?_
  change (none : Option Errno) = none → ∀ n ∈ spaces false turnOfHundred.supply 100
    turnOfHundred.look.so_snd [[1, 2]], 0 < n
  decide

/-- Two bytes from two places are sent as two. -/
theorem not_sosend_whole : ¬Whole [[1], [2]]
    (sosend ⟨true, false, false, true⟩ 100 [turnOfHundred, turnOfHundred] [[1], [2]]) := by
  intro h
  exact absurd (h.sent (by decide)) (by decide)

end AuxKernel.Net.Send
