import Mathlib.Data.List.Perm.Subperm
import AuxKernel.Heap.Intr

/-!
# Ranges that are put off are freed once

* `kmem_free_intr_spec`: the pieces of a range get on the list and into the table; the priority is
  set back, but for a range that begins inside a word and has eight bytes or more;
* `deferred_exact_of_clean`: in the runs without such a range, each range is passed to `kmem_free` once, and
  no other one is.
-/

namespace AuxKernel.Heap.Intr

open Range
open scoped List

variable {v : Config} {lv : Levels} {s s' : World} {d d' : Deferred} {ptr nbytes spl spl' : ℕ}
  {l : List Range} {r : Range}

/-- The range begins inside a word and is not small: it is put off in two pieces. -/
def Split (ptr nbytes : ℕ) : Prop := nbytes ≥ sizeofNeedToFree ∧ ptr % 4 ≠ 0

instance (ptr nbytes : ℕ) : Decidable (Split ptr nbytes) := inferInstanceAs (Decidable (_ ∧ _))

/-- The pieces that a range is put off in. -/
def pieces (r : Range) : List Range :=
  if Split r.1 r.2 then
    [(r.1, alignmore r.1), (addU r.1 (alignmore r.1), subU r.2 (alignmore r.1))]
  else [r]

/-- They make up the range. -/
theorem cover_pieces (hr : r.1 + r.2 < 2 ^ 32) (a : ℕ) : cover (pieces r) a = cover [r] a := by
  unfold pieces
  split_ifs with h
  · have hle : alignmore r.1 ≤ r.2 := by
      have hsize := h.1
      unfold sizeofNeedToFree at hsize
      unfold alignmore
      omega
    have hadd : addU r.1 (alignmore r.1) = r.1 + alignmore r.1 := Nat.mod_eq_of_lt (by omega)
    have hsub : subU r.2 (alignmore r.1) = r.2 - alignmore r.1 := by
      unfold subU
      omega
    have hsplit := cover_split r.1 (alignmore r.1) (r.2 - alignmore r.1) a
    rw [Nat.add_sub_cancel' hle] at hsplit
    rw [hadd, hsub, cover_cons, Nat.add_comm, ← hsplit]
  · rfl

/-! ## The list and the table -/

/-- The words that a range on the list is linked by. -/
def header (p : ℕ) : List ℕ := [p, addU p 4]

/-- The list that begins with `h` goes through the ranges `l`. -/
def Listed (word : ℕ → ℕ) : Range → List Range → Prop
  | h, [] => h.1 = 0
  | h, r :: l => h = r ∧ r.1 ≠ 0 ∧ Listed word (word r.1, word (addU r.1 4)) l

theorem Listed.congr {word word' : ℕ → ℕ} {h : Range} (hl : Listed word h l)
    (heq : ∀ r ∈ l, ∀ a ∈ header r.1, word' a = word a) : Listed word' h l := by
  induction l generalizing h with
  | nil => exact hl
  | cons r l ih =>
    obtain ⟨hr, hne, hl⟩ := hl
    refine ⟨hr, hne, ?_⟩
    rw [heq r List.mem_cons_self r.1 (by simp [header]),
      heq r List.mem_cons_self (addU r.1 4) (by simp [header])]
    exact ih hl fun e he => heq e (List.mem_cons_of_mem r he)

/-- The ranges in the table. -/
def taken (table : List Range) : List Range := table.filter fun e => e.1 ≠ 0

theorem insertSlot_taken {table table' : List Range} (h : insertSlot table r = some table')
    (hr : r.1 ≠ 0) : taken table' ~ r :: taken table := by
  induction table generalizing table' with
  | nil => cases h
  | cons e table ih =>
    rw [insertSlot] at h
    by_cases he : e.1 = 0
    · rw [if_pos he] at h
      obtain rfl := Option.some.inj h
      rw [taken, taken, List.filter_cons_of_pos (by simpa using hr),
        List.filter_cons_of_neg (by simpa using he)]
    · rw [if_neg he] at h
      obtain ⟨t, ht, rfl⟩ := Option.map_eq_some_iff.1 h
      rw [taken, taken, List.filter_cons_of_pos (by simpa using he),
        List.filter_cons_of_pos (by simpa using he)]
      exact ((ih ht).cons e).trans (.swap r e _)

theorem takeSlot_taken (table : List Range) :
    takeSlot table = none ∧ taken table = [] ∨
      ∃ r table', takeSlot table = some (r, table') ∧ taken table ~ r :: taken table' := by
  induction table with
  | nil => exact .inl ⟨rfl, rfl⟩
  | cons e table ih =>
    rw [takeSlot]
    by_cases he : e.1 = 0
    · rw [if_neg (not_not.2 he), taken, List.filter_cons_of_neg (by simpa using he)]
      rcases ih with ⟨hnone, hempty⟩ | ⟨r, table', hsome, hperm⟩
      · exact .inl ⟨by rw [hnone, Option.map_none], hempty⟩
      · refine .inr ⟨r, e :: table', by rw [hsome, Option.map_some], ?_⟩
        rw [taken, List.filter_cons_of_neg (by simpa using he)]
        exact hperm
    · refine .inr ⟨e, (0, e.2) :: table, if_pos he, ?_⟩
      rw [taken, taken, List.filter_cons_of_pos (by simpa using he),
        List.filter_cons_of_neg (by simp)]

/-- The ranges that have been put off: `l` on the list, and those in the table. -/
def Holding (d : Deferred) (l : List Range) : Prop := Listed d.word d.need_to_free_list l

/-- All ranges that have been put off. -/
def pending (d : Deferred) (l : List Range) : List Range := l ++ taken d.need_to_free

/-- A turn takes a range that has been put off, if there is one. -/
theorem take_spec (h : Holding d l) :
    take d = none ∧ pending d l = [] ∨ ∃ r d' l', take d = some (r, d') ∧ Holding d' l' ∧
      pending d l ~ r :: pending d' l' := by
  rw [take]
  cases l with
  | nil =>
    have hzero : d.need_to_free_list.1 = 0 := h
    rw [if_neg (not_not.2 hzero)]
    rcases takeSlot_taken d.need_to_free with ⟨hnone, hempty⟩ | ⟨r, table, hsome, hperm⟩
    · exact .inl ⟨by rw [hnone, Option.map_none], hempty⟩
    · exact .inr ⟨r, { d with need_to_free := table }, [], by rw [hsome, Option.map_some], h, hperm⟩
  | cons r l =>
    obtain ⟨hr, hne, hl⟩ := h
    rw [hr, if_pos hne]
    exact .inr ⟨r, _, l, rfl, hl, .refl _⟩

/-! ## Putting a range off -/

/-- A range can be put off: its pieces do not begin at the address 0, which marks the end of the
    list and a free slot, and none is stored over the words that link the ranges on the list. -/
def Fresh (l : List Range) (r : Range) : Prop :=
  ∀ e ∈ pieces r, e.1 ≠ 0 ∧
    (sizeofNeedToFree ≤ e.2 → ∀ x ∈ l, List.Disjoint (header e.1) (header x.1))

/-- One piece is put on the list, or into the table. -/
theorem putOff_spec (h : Holding d l) (hr : ptr ≠ 0)
    (hfresh : sizeofNeedToFree ≤ nbytes → ∀ x ∈ l, List.Disjoint (header ptr) (header x.1))
    (hwhole : ¬ (nbytes ≥ sizeofNeedToFree ∧ ptr % 4 ≠ 0))
    (hd : kmem_free_intr lv ptr nbytes spl d = some (spl', d')) :
    spl' = spl ∧ (∃ l', (l' = l ∨ l' = (ptr, nbytes) :: l ∧ sizeofNeedToFree ≤ nbytes) ∧
      Holding d' l' ∧ pending d' l' ~ (ptr, nbytes) :: pending d l) := by
  rw [kmem_free_intr] at hd
  by_cases hsize : nbytes ≥ sizeofNeedToFree
  · rw [if_pos hsize, if_neg fun hp => hwhole ⟨hsize, hp⟩] at hd
    obtain ⟨rfl, rfl⟩ := Prod.mk.inj (Option.some.inj hd)
    refine ⟨rfl, (ptr, nbytes) :: l, .inr ⟨rfl, hsize⟩, ⟨rfl, hr, ?_⟩, .refl _⟩
    have hne : ptr ≠ addU ptr 4 := by
      unfold addU
      omega
    dsimp only
    rw [Function.update_self, Function.update_of_ne hne, Function.update_self]
    refine Listed.congr (h := d.need_to_free_list) h fun x hx a ha => ?_
    have hdisjoint := hfresh hsize x hx
    have hptr : a ≠ ptr := by
      rintro rfl
      exact hdisjoint (by simp [header]) ha
    have hptr' : a ≠ addU ptr 4 := by
      rintro rfl
      exact hdisjoint (by simp [header]) ha
    rw [Function.update_of_ne hptr', Function.update_of_ne hptr]
  · rw [if_neg hsize] at hd
    obtain ⟨table, htable, he⟩ := Option.map_eq_some_iff.1 hd
    obtain ⟨rfl, rfl⟩ := Prod.mk.inj he
    refine ⟨rfl, l, .inl rfl, h, ?_⟩
    exact ((insertSlot_taken htable hr).append_left l).trans List.perm_middle

/-- The pieces of a range are put off. The priority is set back, but for a range in two pieces. -/
theorem kmem_free_intr_spec (h : Holding d l) (hfresh : Fresh l (ptr, nbytes))
    (hd : kmem_free_intr lv ptr nbytes spl d = some (spl', d')) :
    spl' = (if Split ptr nbytes then lv.imp else spl) ∧
      ∃ l', Holding d' l' ∧ pending d' l' ~ pieces (ptr, nbytes) ++ pending d l := by
  by_cases hsplit : Split ptr nbytes
  · have hpieces : pieces (ptr, nbytes) =
        [(ptr, alignmore ptr), (addU ptr (alignmore ptr), subU nbytes (alignmore ptr))] :=
      if_pos hsplit
    rw [Fresh, hpieces] at hfresh
    obtain ⟨hptr, -⟩ := hfresh _ List.mem_cons_self
    obtain ⟨hnext, hheader⟩ := hfresh _ (List.mem_cons_of_mem _ List.mem_cons_self)
    have hsmall : ¬ sizeofNeedToFree ≤ alignmore ptr := by
      have hmod := hsplit.2
      unfold alignmore sizeofNeedToFree
      omega
    rw [kmem_free_intr, if_pos hsplit.1, if_pos hsplit.2] at hd
    obtain ⟨⟨spl₁, d₁⟩, hd₁, hd⟩ := Option.bind_eq_some_iff.1 hd
    obtain ⟨rfl, l₁, hl₁, h₁, hperm₁⟩ := putOff_spec h hptr (fun hle => absurd hle hsmall)
      (fun hwhole => hsmall hwhole.1) hd₁
    obtain rfl : l₁ = l := hl₁.resolve_right fun hle => hsmall hle.2
    obtain ⟨rfl, l₂, -, h₂, hperm₂⟩ := putOff_spec h₁ hnext hheader
      (fun hwhole => hwhole.2 (addU_alignmore_mod hsplit.2)) hd
    rw [if_pos hsplit, hpieces]
    exact ⟨rfl, l₂, h₂, (hperm₂.trans (hperm₁.cons _)).trans (.swap _ _ _)⟩
  · have hpieces : pieces (ptr, nbytes) = [(ptr, nbytes)] := if_neg hsplit
    rw [Fresh, hpieces] at hfresh
    obtain ⟨hptr, hheader⟩ := hfresh _ List.mem_cons_self
    obtain ⟨rfl, l', -, h', hperm⟩ := putOff_spec h hptr hheader hsplit hd
    rw [if_neg hsplit, hpieces]
    exact ⟨rfl, l', h', hperm⟩

/-! ## Runs -/

/-- What is promised: no range is passed to `kmem_free` twice, or without having been given, those
    given before `check_need_to_free` last returned have been passed on, and each routine has
    returned with the priority it was called with. -/
structure World.Exact (s : World) : Prop where
  once : s.passed.Subperm (s.given.flatMap pieces)
  due : (s.due.flatMap pieces).Subperm s.passed
  kept : s.kept = true

/-- The range that has been taken off, and is about to be freed. -/
def Pc.held : Pc → List Range
  | .out => []
  | .again .. => []
  | .free _ _ _ r => [r]
  | .search .. => []

/-- The priority is the one that `check_need_to_free` was called with. -/
def World.Entered (s : World) : Prop :=
  match s.pc with
  | .again _ _ entry => s.spl = entry
  | .free _ _ entry _ => s.spl = entry
  | _ => True

/-- The condition on a step: a range that is put off has no piece at the address 0, and is not
    stored over the links of the list, nor is a word by others; and one in two pieces is put off at
    `splimp`. -/
def Clean (lv : Levels) (s : World) : Act → Prop
  | .intr level ptr nbytes => (Split ptr nbytes → level = lv.imp) ∧
      ∀ l, Holding s.deferred l → Fresh l (ptr, nbytes)
  | .kmem_free_intr ptr nbytes => (Split ptr nbytes → s.spl = lv.imp) ∧
      ∀ l, Holding s.deferred l → Fresh l (ptr, nbytes)
  | .store a _ => ∀ l, Holding s.deferred l → ∀ x ∈ l, a ∉ header x.1
  | _ => True

/-- All that has been given has been passed on, is about to be, or is put off. -/
structure World.Inv (s : World) : Prop where
  holding : ∃ l, Holding s.deferred l ∧
    s.passed ++ s.pc.held ++ pending s.deferred l ~ s.given.flatMap pieces
  exact : s.Exact
  entered : s.Entered

namespace World

/-- What a range that is put off adds. -/
theorem Inv.putOff (h : s.Inv) {level : ℕ} (hsplit : Split ptr nbytes → level = lv.imp)
    (hfresh : ∀ l, Holding s.deferred l → Fresh l (ptr, nbytes))
    (hd : kmem_free_intr lv ptr nbytes level s.deferred = some (spl', d')) :
    spl' = level ∧ (∃ l, Holding d' l ∧
      s.passed ++ s.pc.held ++ pending d' l ~ ((ptr, nbytes) :: s.given).flatMap pieces) ∧
        s.passed.Subperm (((ptr, nbytes) :: s.given).flatMap pieces) := by
  obtain ⟨l, hl, hperm⟩ := h.holding
  obtain ⟨rfl, l', hl', hperm'⟩ := kmem_free_intr_spec hl (hfresh l hl) hd
  refine ⟨?_, ⟨l', hl', ?_⟩, ?_⟩
  · split_ifs with hs
    · exact (hsplit hs).symm
    · rfl
  · rw [List.flatMap_cons]
    calc s.passed ++ s.pc.held ++ pending d' l'
      _ ~ s.passed ++ s.pc.held ++ (pieces (ptr, nbytes) ++ pending s.deferred l) :=
        hperm'.append_left _
      _ ~ pieces (ptr, nbytes) ++ (s.passed ++ s.pc.held ++ pending s.deferred l) :=
        List.perm_append_comm_assoc _ _ _
      _ ~ pieces (ptr, nbytes) ++ s.given.flatMap pieces := hperm.append_left _
  · rw [List.flatMap_cons]
    exact h.exact.once.trans (List.sublist_append_right _ _).subperm

/-- A step of an allocation preserves the invariant. -/
theorem Inv.step (h : s.Inv) (hs : s.step v = some s') : s'.Inv := by
  obtain ⟨⟨l, hl, hperm⟩, hexact, hentered⟩ := h
  rw [World.step] at hs
  unfold Entered at hentered
  cases hpc : s.pc with
  | out =>
    rw [hpc] at hs
    cases hs
  | again nbytes spl entry =>
    rw [hpc] at hs hentered hperm
    dsimp only at hs hentered
    rcases take_spec hl with ⟨hnone, hempty⟩ | ⟨r, d', l', hsome, hl', hperm'⟩
    · -- Nothing is put off any more.
      rw [hnone] at hs
      obtain rfl := Option.some.inj hs
      rw [hempty, Pc.held, List.append_nil, List.append_nil] at hperm
      refine ⟨⟨l, hl, ?_⟩, ⟨hexact.once, hperm.symm.subperm, ?_⟩, trivial⟩
      · rw [hempty, Pc.held, List.append_nil, List.append_nil]
        exact hperm
      · dsimp only
        rw [hexact.kept, hentered]
        simp
    · rw [hsome] at hs
      obtain rfl := Option.some.inj hs
      refine ⟨⟨l', hl', ?_⟩, ⟨hexact.once, hexact.due, hexact.kept⟩, hentered⟩
      rw [Pc.held, List.append_nil] at hperm
      rw [Pc.held, List.append_assoc]
      exact (hperm'.symm.append_left _).trans hperm
  | free nbytes spl entry r =>
    rw [hpc] at hs hentered hperm
    dsimp only at hs hentered
    obtain ⟨m, -, rfl⟩ := Option.map_eq_some_iff.1 hs
    have hpassed : (r :: s.passed) ++ pending s.deferred l ~ s.given.flatMap pieces := by
      rw [Pc.held] at hperm
      exact ((List.perm_append_singleton r s.passed).symm.append_right _).trans hperm
    refine ⟨⟨l, hl, ?_⟩, ⟨?_, ?_, hexact.kept⟩, hentered⟩
    · rw [Pc.held, List.append_nil]
      exact hpassed
    · exact (List.sublist_append_left _ _).subperm.trans hpassed.subperm
    · exact hexact.due.trans (List.sublist_cons_self r s.passed).subperm
  | search nbytes spl =>
    rw [hpc] at hs hperm
    obtain ⟨⟨b, m⟩, -, rfl⟩ := Option.map_eq_some_iff.1 hs
    exact ⟨⟨l, hl, hperm⟩, ⟨hexact.once, hexact.due, hexact.kept⟩, trivial⟩

/-- An action preserves the invariant. -/
theorem Inv.next {a : Act} (h : s.Inv) (hclean : Clean lv s a) (hs : s.next v lv a = some s') :
    s'.Inv := by
  cases a with
  | intr level ptr nbytes =>
    rw [World.next] at hs
    by_cases hlevel : s.spl < level ∧ level ≤ lv.imp
    · rw [if_pos hlevel] at hs
      obtain ⟨⟨spl', d'⟩, hd, rfl⟩ := Option.map_eq_some_iff.1 hs
      obtain ⟨rfl, hholding, honce⟩ := h.putOff hclean.1 hclean.2 hd
      refine ⟨hholding, ⟨honce, h.exact.due, ?_⟩, h.entered⟩
      dsimp only
      rw [h.exact.kept]
      simp
    · rw [if_neg hlevel] at hs
      cases hs
  | kmem_free_intr ptr nbytes =>
    rw [World.next] at hs
    cases hpc : s.pc with
    | out =>
      rw [hpc] at hs
      obtain ⟨⟨spl', d'⟩, hd, rfl⟩ := Option.map_eq_some_iff.1 hs
      obtain ⟨rfl, hholding, honce⟩ := h.putOff hclean.1 hclean.2 hd
      rw [hpc] at hholding
      refine ⟨hholding, ⟨honce, h.exact.due, ?_⟩, trivial⟩
      dsimp only
      rw [h.exact.kept]
      simp
    | _ =>
      rw [hpc] at hs
      cases hs
  | kmem_free ptr nbytes =>
    rw [World.next] at hs
    cases hpc : s.pc with
    | out =>
      rw [hpc] at hs
      obtain ⟨m, -, rfl⟩ := Option.map_eq_some_iff.1 hs
      have hholding := h.holding
      rw [hpc] at hholding
      exact ⟨hholding, ⟨h.exact.once, h.exact.due, h.exact.kept⟩, trivial⟩
    | _ =>
      rw [hpc] at hs
      cases hs
  | kmem_alloc nbytes =>
    rw [World.next] at hs
    cases hpc : s.pc with
    | out =>
      rw [hpc] at hs
      dsimp only at hs
      by_cases hn : nbytes = 0
      · rw [if_pos hn] at hs
        exact Option.some.inj hs ▸ h
      · rw [if_neg hn] at hs
        obtain rfl := Option.some.inj hs
        obtain ⟨l, hl, hperm⟩ := h.holding
        rw [hpc] at hperm
        exact ⟨⟨l, hl, hperm⟩, ⟨h.exact.once, h.exact.due, h.exact.kept⟩, rfl⟩
    | _ =>
      rw [hpc] at hs
      cases hs
  | step => exact h.step hs
  | spl level =>
    rw [World.next] at hs
    cases hpc : s.pc with
    | out =>
      rw [hpc] at hs
      obtain rfl := Option.some.inj hs
      have hholding := h.holding
      rw [hpc] at hholding
      exact ⟨hholding, ⟨h.exact.once, h.exact.due, h.exact.kept⟩, trivial⟩
    | _ =>
      rw [hpc] at hs
      cases hs
  | store a w =>
    obtain rfl := Option.some.inj hs
    obtain ⟨l, hl, hperm⟩ := h.holding
    refine ⟨⟨l, ?_, hperm⟩, ⟨h.exact.once, h.exact.due, h.exact.kept⟩, h.entered⟩
    refine Listed.congr hl fun x hx b hb => Function.update_of_ne ?_ _ _
    rintro rfl
    exact hclean l hl x hx hb

end World

/-- In a run in which no range is put off that has a piece at the address 0 or is stored over the
    links of others, no one else stores there, and ranges in two pieces are put off at `splimp`
    only, the ranges that are put off are passed to `kmem_free` once, and all routines return with
    the priority they were called with. -/
theorem deferred_exact_of_clean (v : Config) (lv : Levels) {s : World}
    (hs : (deferring v lv).ReachableIf (Clean lv) s) : s.Exact := by
  refine (hs.invariant (P := World.Inv) (fun s hinit => ?_) fun s a s' => World.Inv.next).exact
  obtain ⟨hlist, htable, hpc, hgiven, hpassed, hdue, hkept⟩ := hinit
  have hempty : pending s.deferred [] = [] := by
    rw [pending, htable]
    rfl
  refine ⟨⟨[], hlist, ?_⟩, ⟨?_, ?_, hkept⟩, ?_⟩
  · rw [hpassed, hpc, hempty, hgiven]
    rfl
  · rw [hpassed]
    exact List.nil_subperm
  · rw [hdue]
    exact List.nil_subperm
  · unfold World.Entered
    rw [hpc]
    trivial

/-! ## Some runs -/

/-- Nothing is put off; sixteen bytes are outstanding. -/
def quiet : World :=
  { kmem := ⟨.nil, true, 1040, true, 8, [], List.replicate 10 (0, 0)⟩
    deferred := ⟨(0, 0), List.replicate 10 (0, 0), fun _ => 0⟩
    spl := 0, pc := .out, given := [], passed := [], due := [], kept := true }

/-- The arena has sixteen bytes. -/
def small : Config := ⟨1024, 16, 8, by decide⟩

/-- `splnet` below `splimp`. -/
def levels : Levels := ⟨1, 5⟩

theorem quiet_init : (deferring small levels).init quiet := ⟨rfl, rfl, rfl, rfl, rfl, rfl, rfl⟩

/-- A range that begins at a word, after it has been put off. -/
def putOff : World :=
  { quiet with
    deferred := ⟨(1024, 12), List.replicate 10 (0, 0),
      Function.update (Function.update (fun _ => 0) 1024 0) 1028 0⟩
    given := [(1024, 12)] }

theorem next_putOff : quiet.next small levels (.kmem_free_intr 1024 12) = some putOff := by
  simp [World.next, quiet, kmem_free_intr, sizeofNeedToFree, addU, putOff]

/-- It is passed to `kmem_free` by the next allocation. -/
theorem deferred_exact_putOff : ∃ s, (deferring small levels).ReachableIf (Clean levels) s ∧
    s.due = [(1024, 12)] ∧ s.passed = [(1024, 12)] ∧ s.Exact := by
  have hfree : kmem_free small 1024 12 quiet.kmem =
      some ⟨.node .nil 1024 12 .nil, true, 1040, true, 7, [], List.replicate 10 (0, 0)⟩ := by
    simp [kmem_free, small, quiet, coalesce, FreeTree.insert, getfreehdr]
  have hput : (deferring small levels).ReachableIf (Clean levels) putOff := by
    refine .step (a := .kmem_free_intr 1024 12) (.init quiet_init) ⟨fun hsplit => ?_, ?_⟩
      next_putOff
    · exact absurd hsplit (by decide)
    · intro l hl e he
      cases l with
      | nil =>
        obtain rfl := List.mem_singleton.1 he
        exact ⟨by decide, fun _ x hx => absurd hx List.not_mem_nil⟩
      | cons r l => exact absurd rfl (hl.1 ▸ hl.2.1)
  have halloc := hput.step (a := Act.kmem_alloc 4) trivial rfl
  have htake := halloc.step (a := Act.step) trivial rfl
  have hpass := htake.step (a := Act.step) trivial
    ((congrArg (Option.map _) hfree).trans (Option.map_some ..))
  have hdone := hpass.step (a := Act.step) trivial rfl
  exact ⟨_, hdone, rfl, rfl, deferred_exact_of_clean small levels hdone⟩

/-- A range that begins inside a word is put off, and the priority is not set back; and one at the
    address 0 is not freed. -/
theorem not_deferred_exact : (¬ ∀ v lv s, (deferring v lv).Reachable s → s.kept = true) ∧
    ¬ ∀ v lv s, (deferring v lv).Reachable s → (s.due.flatMap pieces).Subperm s.passed := by
  have hquiet : (deferring small levels).Reachable quiet := .init quiet_init
  refine ⟨fun h => ?_, fun h => ?_⟩
  · have hput : ∃ s, quiet.next small levels (.kmem_free_intr 1025 12) = some s ∧
        s.kept = false := by
      simp [World.next, quiet, kmem_free_intr, sizeofNeedToFree, addU, subU, alignmore, insertSlot,
        levels, List.replicate]
    obtain ⟨s, hs, hkept⟩ := hput
    have hreach := hquiet.step (a := Act.kmem_free_intr 1025 12) trivial hs
    cases hkept.symm.trans (h small levels s hreach)
  · have hput : ∃ d, quiet.next small levels (.kmem_free_intr 0 12) = some
        { quiet with deferred := d, given := [(0, 12)] } ∧ take d = none := by
      simp [World.next, quiet, kmem_free_intr, sizeofNeedToFree, addU, take, takeSlot,
        List.replicate]
    obtain ⟨d, hd, htake⟩ := hput
    have hstep : World.step small { quiet with
        deferred := d, given := [(0, 12)], spl := 1, pc := .again 4 0 1 } = some { quiet with
        deferred := d, given := [(0, 12)], due := [(0, 12)], spl := 1, pc := .search 4 0 } := by
      simp [World.step, htake, quiet]
    have hput := hquiet.step (a := Act.kmem_free_intr 0 12) trivial hd
    have halloc := hput.step (a := Act.kmem_alloc 4) trivial rfl
    have hdue := h small levels _ (halloc.step (a := Act.step) trivial hstep)
    have hlen : (pieces (0, 12)).length ≤ 0 := hdue.length_le
    exact absurd hlen (by decide)

end AuxKernel.Heap.Intr
