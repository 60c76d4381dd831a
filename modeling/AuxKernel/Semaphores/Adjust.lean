import AuxKernel.Semaphores.Basic

/-!
# Adjustments and their inverses

The entries of a process are ordered by their sets and semaphores (`Ordered`), and
none is zero or too large (`Undo.Ok`). Such entries are as before when an
adjustment that was made is made the other way round, whether it created, updated
or deleted an entry (`adjust_inverse`): it cannot fail, and there is room for the
entry it may have to create.
-/

namespace AuxKernel.Semaphores

theorem toShort_range (n : ℤ) : -2 ^ 15 ≤ toShort n ∧ toShort n < 2 ^ 15 := by
  unfold toShort
  constructor
  · exact Int.le_bmod (by decide)
  · have := Int.bmod_lt (x := n) (m := 2 ^ 16) (by decide)
    omega

theorem toShort_sub_neg (a b : ℤ) : toShort (toShort (a - b) - toShort (-b)) = toShort a := by
  unfold toShort
  rw [Int.bmod_sub_bmod, Int.sub_bmod_bmod, sub_neg_eq_add, sub_add_cancel]

theorem toShort_neg_neg (a : ℤ) : toShort (-toShort (-a)) = toShort a := by
  unfold toShort
  rw [Int.bmod_neg_bmod, neg_neg]

/-- The negation of a `short` is one, but for the least one, which is its own. -/
theorem toShort_neg {a : ℤ} (h₀ : -2 ^ 15 ≤ a) (h₁ : a < 2 ^ 15) :
    toShort (-a) = -a ∨ a = -2 ^ 15 ∧ toShort (-a) = a := by
  rcases eq_or_lt_of_le h₀ with rfl | h
  · exact .inr ⟨rfl, by decide⟩
  · exact .inl (toShort_of_mem (by omega) (by omega))

theorem eq_of_toShort_sub {a b : ℤ} (ha : -2 ^ 15 ≤ a ∧ a < 2 ^ 15)
    (hb : -2 ^ 15 ≤ b ∧ b < 2 ^ 15) (h : toShort (a - b) = 0) : a = b := by
  obtain ⟨k, hk⟩ := Int.dvd_self_sub_of_bmod_eq h
  have hpow : ((2 ^ 16 : ℕ) : ℤ) = 65536 := by decide
  rw [hpow] at hk
  omega

variable {v : Config} {val id num : ℤ} {full : Bool} {l l' : List Undo}

/-- An entry that may be: its value is a `short` in the range of adjustments, and
    not zero. -/
structure Undo.Ok (v : Config) (e : Undo) : Prop where
  short : -2 ^ 15 ≤ e.un_aoe ∧ e.un_aoe < 2 ^ 15
  range : -v.semaem ≤ e.un_aoe ∧ e.un_aoe ≤ v.semaem
  ne : e.un_aoe ≠ 0

/-- The entries are in the order of their sets and semaphores. -/
abbrev Ordered (l : List Undo) : Prop := l.Pairwise fun e f => e.Before f.un_id f.un_num

/-- An operation value that can be adjusted for. -/
structure Adjustable (v : Config) (val : ℤ) : Prop where
  short : -2 ^ 15 ≤ val ∧ val < 2 ^ 15
  range : -v.semaem ≤ val ∧ val ≤ v.semaem
  ne : val ≠ 0

theorem Adjustable.neg (h : Adjustable v val) : Adjustable v (toShort (-val)) := by
  have hr := h.range
  have hs := h.short
  have hne := h.ne
  refine ⟨toShort_range (-val), ?_, ?_⟩ <;>
    rcases toShort_neg hs.1 hs.2 with he | ⟨-, he⟩ <;> rw [he] <;> omega

theorem Adjustable.nonneg (h : Adjustable v val) : 0 ≤ v.semaem := by
  have := h.range
  omega

theorem not_before_self (id num : ℤ) (aoe : ℤ) : ¬(⟨aoe, num, id⟩ : Undo).Before id num := by
  simp [Undo.Before]

/-- Where there is the entry of the semaphore, it is updated or deleted. -/
theorem adjust_found {aoe : ℤ} :
    adjust v full val id num (⟨aoe, num, id⟩ :: l) =
      if toShort (aoe - val) > v.semaem ∨ toShort (aoe - val) < -v.semaem then .error .erange
      else if toShort (aoe - val) = 0 then .ok l
      else .ok (⟨toShort (aoe - val), num, id⟩ :: l) := by
  rw [adjust, if_neg (not_before_self id num aoe), if_pos ⟨rfl, rfl⟩]

/-- A new entry goes where there is none of the semaphore. -/
theorem adjust_new (h : Adjustable v val) :
    adjust v full (toShort (-val)) id num (⟨toShort (-val), num, id⟩ :: l) = .ok l := by
  have hz : toShort (toShort (-val) - toShort (-val)) = 0 := by rw [sub_self]; decide
  have := h.nonneg
  rw [adjust_found, hz, if_neg (by omega), if_pos rfl]

/-- What is behind an entry is not before or at it. -/
theorem adjust_behind {e : Undo} (h : ∀ f ∈ l, e.Before f.un_id f.un_num) :
    adjust v false val e.un_id e.un_num l = .ok (⟨toShort (-val), e.un_num, e.un_id⟩ :: l) := by
  cases l with
  | nil => rfl
  | cons f l =>
    have hf := h f List.mem_cons_self
    unfold Undo.Before at hf
    rw [adjust, if_neg (by unfold Undo.Before; omega), if_neg (by omega), if_neg (by simp)]

/-- What an adjustment can do, at and behind the entry `e`. -/
theorem adjust_cons {e : Undo} (h : adjust v full val id num (e :: l) = .ok l') :
    (e.Before id num ∧ ∃ l'', adjust v full val id num l = .ok l'' ∧ l' = e :: l'') ∨
    (e.un_id = id ∧ e.un_num = num ∧ toShort (e.un_aoe - val) = 0 ∧ l' = l) ∨
    (e.un_id = id ∧ e.un_num = num ∧ Undo.Ok v ⟨toShort (e.un_aoe - val), num, id⟩ ∧
      l' = ⟨toShort (e.un_aoe - val), num, id⟩ :: l) ∨
    (Undo.Before e.un_id e.un_num ⟨toShort (-val), num, id⟩ ∧ full = false ∧
      l' = ⟨toShort (-val), num, id⟩ :: e :: l) := by
  rw [adjust] at h
  dsimp only at h
  split_ifs at h with hb hm hr hz hfull
  · cases ha : adjust v full val id num l with
    | error x => simp [ha, Except.map] at h
    | ok l'' =>
      rw [ha] at h
      exact .inl ⟨hb, l'', rfl, (Except.ok.inj h).symm⟩
  · exact .inr (.inl ⟨hm.1, hm.2, hz, (Except.ok.inj h).symm⟩)
  · obtain ⟨rfl, rfl⟩ := hm
    refine .inr (.inr (.inl ⟨rfl, rfl, ⟨toShort_range _, ?_, hz⟩, (Except.ok.inj h).symm⟩))
    dsimp only
    omega
  · refine .inr (.inr (.inr ⟨?_, by simpa using hfull, (Except.ok.inj h).symm⟩))
    unfold Undo.Before at hb ⊢
    dsimp only
    omega

theorem adjust_nil (h : adjust v full val id num [] = .ok l') :
    full = false ∧ l' = [⟨toShort (-val), num, id⟩] := by
  rw [adjust] at h
  split_ifs at h with hfull
  exact ⟨by simpa using hfull, (Except.ok.inj h).symm⟩

/-- The adjustment made the other way round gives the entries as they were. -/
theorem adjust_inverse {full' : Bool} (hv : Adjustable v val) (ho : Ordered l)
    (hok : ∀ e ∈ l, e.Ok v) (h : adjust v full val id num l = .ok l')
    (hfull : l'.length < l.length → full' = false) :
    adjust v full' (toShort (-val)) id num l' = .ok l := by
  induction l generalizing l' with
  | nil =>
    obtain ⟨-, rfl⟩ := adjust_nil h
    exact adjust_new hv
  | cons e l ih =>
    obtain ⟨hel, ho⟩ := List.pairwise_cons.1 ho
    have he := hok e List.mem_cons_self
    rcases adjust_cons h with ⟨hb, l'', ha, rfl⟩ | ⟨rfl, rfl, hz, rfl⟩ | ⟨rfl, rfl, -, rfl⟩ |
      ⟨-, -, rfl⟩
    · rw [adjust, if_pos hb, ih ho (fun f hf => hok f (List.mem_cons_of_mem e hf)) ha fun hlt =>
        hfull (by simpa using hlt)]
      rfl
    · -- The entry was deleted, and there is room for it.
      have haoe : e.un_aoe = val := eq_of_toShort_sub he.short hv.short hz
      rw [hfull (by simp), adjust_behind hel, toShort_neg_neg, ← haoe,
        toShort_of_mem he.short.1 he.short.2]
    · have hr := he.range
      rw [adjust_found, toShort_sub_neg, toShort_of_mem he.short.1 he.short.2, if_neg (by omega),
        if_neg he.ne]
    · exact adjust_new hv

/-- The entries after an adjustment are those before, and the one adjusted. -/
theorem adjust_keys (h : adjust v full val id num l = .ok l') {f : Undo} (hf : f ∈ l') :
    (f.un_id = id ∧ f.un_num = num) ∨ ∃ e ∈ l, f.un_id = e.un_id ∧ f.un_num = e.un_num := by
  have hmem {l : List Undo} {g : Undo} (hg : g ∈ l) :
      ∃ e ∈ l, g.un_id = e.un_id ∧ g.un_num = e.un_num := ⟨g, hg, rfl, rfl⟩
  induction l generalizing l' with
  | nil =>
    obtain ⟨-, rfl⟩ := adjust_nil h
    obtain rfl := List.mem_singleton.1 hf
    exact .inl ⟨rfl, rfl⟩
  | cons e l ih =>
    rcases adjust_cons h with ⟨-, l'', ha, rfl⟩ | ⟨-, -, -, rfl⟩ | ⟨-, -, -, rfl⟩ | ⟨-, -, rfl⟩
    · rcases List.mem_cons.1 hf with rfl | hf
      · exact .inr (hmem List.mem_cons_self)
      · exact (ih ha hf).imp_right fun ⟨g, hg, hk⟩ => ⟨g, List.mem_cons_of_mem e hg, hk⟩
    · exact .inr (hmem (List.mem_cons_of_mem e hf))
    · rcases List.mem_cons.1 hf with rfl | hf
      · exact .inl ⟨rfl, rfl⟩
      · exact .inr (hmem (List.mem_cons_of_mem e hf))
    · rcases List.mem_cons.1 hf with rfl | hf
      · exact .inl ⟨rfl, rfl⟩
      · exact .inr (hmem hf)

/-- An adjustment keeps the entries ordered. -/
theorem adjust_ordered (h : adjust v full val id num l = .ok l') (ho : Ordered l) : Ordered l' := by
  induction l generalizing l' with
  | nil =>
    obtain ⟨-, rfl⟩ := adjust_nil h
    exact List.pairwise_singleton _ _
  | cons e l ih =>
    obtain ⟨hel, hol⟩ := List.pairwise_cons.1 ho
    rcases adjust_cons h with ⟨hb, l'', ha, rfl⟩ | ⟨-, -, -, rfl⟩ | ⟨rfl, rfl, -, rfl⟩ |
      ⟨hb, -, rfl⟩
    · refine List.pairwise_cons.2 ⟨fun f hf => ?_, ih ha hol⟩
      rcases adjust_keys ha hf with ⟨hi, hn⟩ | ⟨g, hg, hi, hn⟩ <;> rw [hi, hn]
      · exact hb
      · exact hel g hg
    · exact hol
    · exact List.pairwise_cons.2 ⟨hel, hol⟩
    · refine List.pairwise_cons.2 ⟨List.forall_mem_cons.2 ⟨hb, fun f hf => ?_⟩, ho⟩
      -- The semaphore is before `e`, and so before what is behind `e`.
      have := hel f hf
      unfold Undo.Before at this hb ⊢
      dsimp only at hb ⊢
      omega

theorem adjust_ok (hv : Adjustable v val) (h : adjust v full val id num l = .ok l')
    (hok : ∀ e ∈ l, e.Ok v) : ∀ e ∈ l', e.Ok v := by
  have hnew : Undo.Ok v ⟨toShort (-val), num, id⟩ := ⟨hv.neg.short, hv.neg.range, hv.neg.ne⟩
  induction l generalizing l' with
  | nil =>
    obtain ⟨-, rfl⟩ := adjust_nil h
    exact fun e he => List.mem_singleton.1 he ▸ hnew
  | cons e l ih =>
    have hokl : ∀ f ∈ l, f.Ok v := fun f hf => hok f (List.mem_cons_of_mem e hf)
    rcases adjust_cons h with ⟨-, l'', ha, rfl⟩ | ⟨-, -, -, rfl⟩ | ⟨-, -, hr, rfl⟩ | ⟨-, -, rfl⟩
    · exact List.forall_mem_cons.2 ⟨hok e List.mem_cons_self, ih ha hokl⟩
    · exact hokl
    · exact List.forall_mem_cons.2 ⟨hr, hokl⟩
    · exact List.forall_mem_cons.2 ⟨hnew, hok⟩

theorem adjust_length (h : adjust v full val id num l = .ok l') :
    l'.length ≤ l.length ∨ full = false ∧ l'.length = l.length + 1 := by
  induction l generalizing l' with
  | nil =>
    obtain ⟨hfull, rfl⟩ := adjust_nil h
    exact .inr ⟨hfull, rfl⟩
  | cons e l ih =>
    rcases adjust_cons h with ⟨-, l'', ha, rfl⟩ | ⟨-, -, -, rfl⟩ | ⟨-, -, -, rfl⟩ |
      ⟨-, hfull, rfl⟩
    · simpa using ih ha
    · exact .inl (Nat.le_succ _)
    · exact .inl le_rfl
    · exact .inr ⟨hfull, rfl⟩

/-- The undo entries of a process: ordered, as they may be, and not too many. -/
structure Good (v : Config) (l : List Undo) : Prop where
  ordered : Ordered l
  ok : ∀ e ∈ l, e.Ok v
  length : l.length ≤ v.semume

theorem Good.nil (v : Config) : Good v [] := ⟨.nil, nofun, Nat.zero_le _⟩

theorem Good.sublist (h : Good v l) (hs : l'.Sublist l) : Good v l' :=
  ⟨h.ordered.sublist hs, fun e he => h.ok e (hs.subset he), hs.length_le.trans h.length⟩

theorem Good.adjust (hg : Good v l) (hv : Adjustable v val)
    (h : adjust v (l.length ≥ v.semume) val id num l = .ok l') : Good v l' := by
  refine ⟨adjust_ordered h hg.ordered, adjust_ok hv h hg.ok, ?_⟩
  have := hg.length
  rcases adjust_length h with hle | ⟨hfull, hlen⟩
  · omega
  · have := of_decide_eq_false hfull
    omega

end AuxKernel.Semaphores
