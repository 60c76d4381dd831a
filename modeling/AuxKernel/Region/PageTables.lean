import AuxKernel.Region.Table

/-!
# The page tables of the regions

`ptexpand` gives a region that grows new page tables for the places it takes in its
list (`ptexpand_ok`), or leaves things as they were (`ptexpand_failed`); a region that
shrinks gives up those it does not need any more (`ptshrink_spec`). So every region
keeps page tables of its own (`Space.Owns.grow`, `Space.Owns.sub`).
-/

namespace AuxKernel.Region

/-! ## Page tables -/

section PageTables

variable {s s' s'' : Space} {r : ℕ} {lo hi lp lp1 i pt x : ℤ} {n : ℕ} {pts : List ℤ}

/-- From `s` to `s'`, only page tables in use change, and the list of the region `r` in
    the places from `lo` up to `hi`. -/
structure PtFrame (r : ℕ) (lo hi : ℤ) (s s' : Space) : Prop where
  p_region : s'.p_region = s.p_region
  u_stbl : s'.u_stbl = s.u_stbl
  other : ∀ r', r' ≠ r → s'.region r' = s.region r'
  reg : s'.region r = { s.region r with r_list := (s'.region r).r_list }
  pt : ∀ i, ¬(lo ≤ i ∧ i < hi) → (s'.region r).pt i = (s.region r).pt i

theorem PtFrame.refl : PtFrame r lo hi s s := ⟨rfl, rfl, fun _ _ => rfl, rfl, fun _ _ => rfl⟩

theorem PtFrame.trans (h : PtFrame r lo hi s s') (h' : PtFrame r lo hi s' s'') :
    PtFrame r lo hi s s'' where
  p_region := h'.p_region.trans h.p_region
  u_stbl := h'.u_stbl.trans h.u_stbl
  other r' hr := (h'.other r' hr).trans (h.other r' hr)
  reg := by rw [h'.reg, h.reg]
  pt i hi := (h'.pt i hi).trans (h.pt i hi)

theorem PtFrame.mono {lo' hi' : ℤ} (h : PtFrame r lo hi s s') (hl : lo' ≤ lo) (hh : hi ≤ hi') :
    PtFrame r lo' hi' s s' :=
  { h with pt := fun i hi => h.pt i (by omega) }

theorem Reg.pt_setPt {rp : Reg} (j : ℤ) :
    (rp.setPt i x).pt j = if j = i ∧ rp.r_list.isSome then x else rp.pt j := by
  cases h : rp.r_list with
  | none => simp [Reg.setPt, Reg.pt, h]
  | some l => simp [Reg.setPt, Reg.pt, h, Function.update_apply]

theorem region_setReg {rp : Reg} : (s.setReg r rp).region r = rp := Function.update_self ..

theorem region_setReg_of_ne {rp : Reg} {r' : ℕ} (h : r' ≠ r) :
    (s.setReg r rp).region r' = s.region r' := Function.update_of_ne h ..

theorem forall_setReg {P : ℕ → Reg → Prop} {rp : Reg} (h : P r rp)
    (h' : ∀ r', r' ≠ r → P r' (s.region r')) : ∀ r', P r' ((s.setReg r rp).region r') :=
  (Function.forall_update_iff s.region P).2 ⟨h, h'⟩

theorem PtFrame.setPt (b : ℤ → Bool) (h₁ : lo ≤ i) (h₂ : i < hi) :
    PtFrame r lo hi s ({ s with ptused := b }.setReg r ((s.region r).setPt i pt)) where
  p_region := rfl
  u_stbl := rfl
  other r' hr := region_setReg_of_ne hr
  reg := by rw [region_setReg]; rfl
  pt j hj := by rw [region_setReg, Reg.pt_setPt, if_neg (by omega)]

theorem freePts_frame : PtFrame r lp (lp + n) s (freePts s r lp n) := by
  induction n generalizing s lp with
  | zero => exact .refl
  | succ n ih => exact (PtFrame.setPt _ le_rfl (by omega)).trans (ih.mono (by omega) (by omega))

/-- A page table that is in none of the places stays in use. -/
theorem ptused_freePts (h : ∀ i, lp ≤ i → i < lp + n → (s.region r).pt i ≠ x) :
    (freePts s r lp n).ptused x = s.ptused x := by
  induction n generalizing s lp with
  | zero => rfl
  | succ n ih =>
    rw [freePts, ih fun i hi hi' => ?_]
    · exact Function.update_of_ne (h lp le_rfl (by omega)).symm ..
    · rw [region_setReg, Reg.pt_setPt, if_neg (by omega)]
      exact h i (by omega) (by omega)

/-- Where there are enough page tables, the places get new ones. -/
theorem allocPts_ok (hl : (s.region r).r_list.isSome)
    (h : allocPts s r lp1 lp n pts = some (s', false)) :
    PtFrame r lp (lp + n) s s' ∧ (∀ x, s.ptused x = true → s'.ptused x = true) ∧
    (∀ i, lp ≤ i → i < lp + n → s'.ptused ((s'.region r).pt i) = true ∧
      s.ptused ((s'.region r).pt i) = false) ∧
    ∀ i j, lp ≤ i → i < lp + n → lp ≤ j → j < lp + n →
      (s'.region r).pt i = (s'.region r).pt j → i = j := by
  induction n generalizing s lp pts with
  | zero =>
    obtain rfl : s = s' := congrArg Prod.fst (Option.some.inj h)
    exact ⟨.refl, fun _ => id, fun i _ _ => by omega, fun i j _ _ => by omega⟩
  | succ n ih =>
    cases pts with
    | nil => exact nomatch h
    | cons pt pts =>
      rw [allocPts] at h
      by_cases hf : pt = -1
      · simp [hf] at h
      rw [if_neg hf] at h
      by_cases hu : pt = 0 ∨ s.ptused pt
      · simp [hu] at h
      rw [if_neg hu] at h
      obtain ⟨-, hu⟩ := not_or.1 hu
      rw [Bool.not_eq_true] at hu
      set t := (s.setUsed pt true).setReg r ((s.region r).setPt lp pt) with ht
      have htr : t.region r = (s.region r).setPt lp pt := region_setReg
      have htl : (t.region r).r_list.isSome := by rw [htr]; simpa [Reg.setPt] using hl
      have hused (x : ℤ) : t.ptused x = if x = pt then true else s.ptused x :=
        Function.update_apply ..
      have hmono (x : ℤ) (hx : s.ptused x = true) : t.ptused x = true := by
        rw [hused, hx, ite_self]
      obtain ⟨hframe, hkeep, hnew, hinj⟩ := ih htl h
      have hlp : (s'.region r).pt lp = pt := by
        rw [hframe.pt lp (by omega), htr, Reg.pt_setPt, if_pos ⟨rfl, hl⟩]
      have hpt : t.ptused pt = true := by rw [hused, if_pos rfl]
      refine ⟨(PtFrame.setPt _ le_rfl (by omega)).trans (hframe.mono (by omega) (by omega)),
        fun x hx => hkeep x (hmono x hx), fun i hi hi' => ?_, fun i j hi hi' hj hj' he => ?_⟩
      · by_cases hil : i = lp
        · rw [hil, hlp]
          exact ⟨hkeep pt hpt, hu⟩
        · obtain ⟨h₁, h₂⟩ := hnew i (by omega) (by omega)
          refine ⟨h₁, ?_⟩
          rw [hused] at h₂
          split_ifs at h₂
          exact h₂
      · have hne {i : ℤ} (hi : lp + 1 ≤ i) (hi' : i < lp + 1 + n) : (s'.region r).pt i ≠ pt := by
          intro he
          have := (hnew i hi hi').2
          rw [he, hpt] at this
          exact nomatch this
        by_cases hil : i = lp
        · by_cases hjl : j = lp
          · omega
          · rw [hil, hlp] at he
            exact absurd he.symm (hne (by omega) (by omega))
        · by_cases hjl : j = lp
          · rw [hjl, hlp] at he
            exact absurd he (hne (by omega) (by omega))
          · exact hinj i j (by omega) (by omega) (by omega) (by omega) he

/-- Where there are not enough, those in use before are still in use. -/
theorem allocPts_failed (hl : (s.region r).r_list.isSome) (hlp : lp1 ≤ lp)
    (h : allocPts s r lp1 lp n pts = some (s', true)) :
    PtFrame r lp1 (lp + n) s s' ∧ ∀ x, s.ptused x = true →
      (∀ i, lp1 ≤ i → i < lp → (s.region r).pt i ≠ x) → s'.ptused x = true := by
  induction n generalizing s lp pts with
  | zero => exact nomatch congrArg Prod.snd (Option.some.inj h)
  | succ n ih =>
    cases pts with
    | nil => exact nomatch h
    | cons pt pts =>
      rw [allocPts] at h
      by_cases hf : pt = -1
      · rw [if_pos hf] at h
        obtain rfl := congrArg Prod.fst (Option.some.inj h)
        refine ⟨(PtFrame.setPt s.ptused hlp (by omega)).trans
          (freePts_frame.mono le_rfl (by omega)), fun x hx hne => ?_⟩
        rw [ptused_freePts fun i hi hi' => ?_]
        · exact hx
        · rw [region_setReg, Reg.pt_setPt, if_neg (by omega)]
          exact hne i hi (by omega)
      rw [if_neg hf] at h
      by_cases hu : pt = 0 ∨ s.ptused pt
      · simp [hu] at h
      rw [if_neg hu] at h
      obtain ⟨-, hu⟩ := not_or.1 hu
      obtain ⟨hframe, hkeep⟩ := ih
        (by rw [region_setReg]; simpa [Reg.setPt] using hl) (by omega) h
      refine ⟨(PtFrame.setPt _ hlp (by omega)).trans (hframe.mono le_rfl (by omega)),
        fun x hx hne => hkeep x ?_ fun i hi hi' => ?_⟩
      · refine (Function.update_apply ..).trans ?_
        rw [hx, ite_self]
      · rw [region_setReg, Reg.pt_setPt]
        split_ifs with hil
        · rintro rfl
          exact hu hx
        · exact hne i hi (by have := mt (fun h => And.intro h hl) hil; omega)

end PageTables

/-! ## Owning page tables -/

section Owns

variable {s s' : Space} {rp : Reg} {prp : Preg} {seg : ℤ}

theorem Reg.inList_place (h : rp.Covers prp seg) : rp.InList (rp.place prp seg) := by
  rw [Reg.Covers, Reg.first] at h
  rw [Reg.InList, Reg.place]
  split_ifs at h ⊢ <;> omega

/-- Owning page tables comes down to fewer places of the lists, with the same page
    tables in them, still in use. -/
theorem Space.Owns.sub (h : s.Owns)
    (hsize : ∀ r, 0 ≤ (s'.region r).r_pgsz ∧ (s'.region r).r_pgsz < 2 ^ 15)
    (hrefcnt : ∀ r, 0 ≤ (s'.region r).r_refcnt)
    (hsub : ∀ r i, (s'.region r).InList i → (s.region r).InList i ∧
      (s'.region r).pt i = (s.region r).pt i ∧ s'.ptused ((s.region r).pt i) = true) :
    s'.Owns where
  size := hsize
  refcnt := hrefcnt
  used r i hi := by
    obtain ⟨-, hpt, hu⟩ := hsub r i hi
    rw [hpt, hu]
  own r r' i i' hi hi' he := by
    obtain ⟨hi, hpt, -⟩ := hsub r i hi
    obtain ⟨hi', hpt', -⟩ := hsub r' i' hi'
    exact h.own r r' i i' hi hi' (hpt ▸ hpt' ▸ he)

/-- The two regions look the same to a process they are attached to. -/
structure Reg.Same (rp rp' : Reg) : Prop where
  r_stack : rp'.r_stack = rp.r_stack
  r_pgsz : rp'.r_pgsz = rp.r_pgsz
  pt : ∀ i, rp.InList i → rp'.pt i = rp.pt i

theorem Reg.Same.refl : Reg.Same rp rp := ⟨rfl, rfl, fun _ _ => rfl⟩

theorem Reg.Same.inList {rp' : Reg} (h : rp.Same rp') {i : ℤ} : rp'.InList i ↔ rp.InList i := by
  rw [Reg.InList, Reg.InList, h.r_stack, h.r_pgsz]

theorem Reg.Same.piece {rp' : Reg} (h : rp.Same rp') : rp'.piece prp = rp.piece prp := by
  funext seg
  have hcov : rp'.Covers prp seg ↔ rp.Covers prp seg := by
    simp only [Reg.Covers, Reg.first, h.r_stack, h.r_pgsz]
  rw [Reg.piece, Reg.piece]
  refine ite_congr (propext hcov) (fun hc => ?_) fun _ => rfl
  rw [Reg.entry, Reg.entry, ← h.pt _ (Reg.inList_place hc), Reg.place, Reg.place, h.r_stack]

end Owns

/-! ## Expanding the page tables -/

/-- The places of its list that a region takes when it grows to `n` pages. -/
def Reg.newFrom (rp : Reg) (n : ℤ) : ℤ := if rp.r_stack then NSEGP - ptos n else ptos rp.r_pgsz

def Reg.newTo (rp : Reg) (n : ℤ) : ℤ := if rp.r_stack then NSEGP - ptos rp.r_pgsz else ptos n

section Expand

variable {s s' t : Space} {rp : Reg} {r : ℕ} {change n : ℤ} {list : Bool} {pts : List ℤ}

theorem Reg.inList_sized {i : ℤ} (hn₀ : 0 ≤ rp.r_pgsz) (hn : rp.r_pgsz ≤ n) :
    (rp.sized n).InList i ↔ rp.InList i ∨ rp.newFrom n ≤ i ∧ i < rp.newTo n := by
  have := ptos_nonneg hn₀
  have := ptos_mono hn
  simp only [Reg.InList, Reg.newFrom, Reg.newTo]
  split_ifs <;> omega

theorem Reg.not_new {i : ℤ} (h : rp.InList i) : ¬(rp.newFrom n ≤ i ∧ i < rp.newTo n) := by
  rw [Reg.InList] at h
  rw [Reg.newFrom, Reg.newTo]
  split_ifs at h ⊢ <;> omega

/-- A region that grows has a list, or the expansion fails, and then its new places
    are given page tables. -/
theorem ptexpand_cases {b : Bool} (hc : 0 < change) (hn : (s.region r).r_pgsz + change = n)
    (h : ptexpand s r change list pts = some (t, b)) :
    (b = true ∧ t = s) ∨ ∃ s₁, (s₁.region r).r_list.isSome ∧ s₁.ptused = s.ptused ∧
      PtFrame r ((s.region r).newFrom n) ((s.region r).newTo n) s s₁ ∧
      allocPts s₁ r ((s.region r).newFrom n) ((s.region r).newFrom n)
        ((s.region r).newTo n - (s.region r).newFrom n).toNat pts = some (t, b) := by
  have hsh : ptshrink s r (s.region r).r_pgsz n = s := by
    rw [ptshrink, if_neg (not_lt.2 (ptos_mono (by omega)))]
  rw [ptexpand] at h
  simp only [hn, hsh, if_neg (not_le.2 hc)] at h
  by_cases hl : (s.region r).r_list = none ∧ list = false
  · simp only [if_pos hl, Option.some.injEq, Prod.mk.injEq] at h
    exact .inl ⟨h.2.symm, h.1.symm⟩
  · rw [if_neg hl] at h
    refine .inr ⟨s.setReg r { s.region r with
        r_list := some ((s.region r).r_list.getD fun _ => 0) }, ?_, rfl,
      ⟨rfl, rfl, fun r' hr => region_setReg_of_ne hr, ?_, fun i _ => ?_⟩, ?_⟩
    · rw [region_setReg]
      rfl
    · rw [region_setReg]
    · rw [region_setReg]
      cases hl : (s.region r).r_list <;> simp [Reg.pt, hl]
    · simp only [region_setReg] at h
      rw [Reg.newFrom, Reg.newTo]
      cases hst : (s.region r).r_stack <;> simpa [hst] using h

/-- Expanded page tables are new, each of them. -/
theorem ptexpand_ok (hc : 0 < change) (hn : (s.region r).r_pgsz + change = n)
    (h : ptexpand s r change list pts = some (t, false)) :
    PtFrame r ((s.region r).newFrom n) ((s.region r).newTo n) s t ∧
    (∀ x, s.ptused x = true → t.ptused x = true) ∧
    (∀ i, (s.region r).newFrom n ≤ i → i < (s.region r).newTo n →
      t.ptused ((t.region r).pt i) = true ∧ s.ptused ((t.region r).pt i) = false) ∧
    ∀ i j, (s.region r).newFrom n ≤ i → i < (s.region r).newTo n →
      (s.region r).newFrom n ≤ j → j < (s.region r).newTo n →
      (t.region r).pt i = (t.region r).pt j → i = j := by
  obtain ⟨hb, -⟩ | ⟨s₁, hl, hu, hframe, h⟩ := ptexpand_cases hc hn h
  · exact nomatch hb
  have hle : (s.region r).newFrom n ≤ (s.region r).newTo n := by
    have := ptos_mono (show (s.region r).r_pgsz ≤ n by omega)
    rw [Reg.newFrom, Reg.newTo]
    split_ifs <;> omega
  obtain ⟨hframe', hkeep, hnew, hinj⟩ := allocPts_ok hl h
  rw [Int.toNat_of_nonneg (by omega), add_sub_cancel] at hframe' hnew hinj
  rw [hu] at hkeep hnew
  exact ⟨hframe.trans hframe', hkeep, hnew, hinj⟩

/-- Where the expansion fails, nothing is lost. -/
theorem ptexpand_failed (hc : 0 < change) (hn : (s.region r).r_pgsz + change = n)
    (h : ptexpand s r change list pts = some (t, true)) :
    PtFrame r ((s.region r).newFrom n) ((s.region r).newTo n) s t ∧
      ∀ x, s.ptused x = true → t.ptused x = true := by
  obtain ⟨-, rfl⟩ | ⟨s₁, hl, hu, hframe, h⟩ := ptexpand_cases hc hn h
  · exact ⟨.refl, fun _ => id⟩
  have hle : (s.region r).newFrom n ≤ (s.region r).newTo n := by
    have := ptos_mono (show (s.region r).r_pgsz ≤ n by omega)
    rw [Reg.newFrom, Reg.newTo]
    split_ifs <;> omega
  obtain ⟨hframe', hkeep⟩ := allocPts_failed hl le_rfl h
  rw [Int.toNat_of_nonneg (by omega), add_sub_cancel] at hframe'
  exact ⟨hframe.trans hframe', fun x hx => hkeep x (hu ▸ hx) fun i _ _ => by omega⟩

/-- A region and its new page tables stay their owners. -/
theorem Space.Owns.grow (h : s.Owns) (hn : (s.region r).r_pgsz ≤ n) (hn₁ : n < 2 ^ 15)
    (hframe : PtFrame r ((s.region r).newFrom n) ((s.region r).newTo n) s t)
    (hkeep : ∀ x, s.ptused x = true → t.ptused x = true)
    (hnew : ∀ i, (s.region r).newFrom n ≤ i → i < (s.region r).newTo n →
      t.ptused ((t.region r).pt i) = true ∧ s.ptused ((t.region r).pt i) = false)
    (hinj : ∀ i j, (s.region r).newFrom n ≤ i → i < (s.region r).newTo n →
      (s.region r).newFrom n ≤ j → j < (s.region r).newTo n →
      (t.region r).pt i = (t.region r).pt j → i = j)
    (hp : s'.ptused = t.ptused) (hr : s'.region r = (t.region r).sized n)
    (hother : ∀ r', r' ≠ r → s'.region r' = t.region r') : s'.Owns := by
  have hst : (t.region r).r_stack = (s.region r).r_stack := by rw [hframe.reg]
  have hpt (i : ℤ) : (s'.region r).pt i = (t.region r).pt i := by rw [hr]; rfl
  have hsplit {r' : ℕ} {i : ℤ} (hi : (s'.region r').InList i) :
      ((s.region r').InList i ∧ (s'.region r').pt i = (s.region r').pt i) ∨
      r' = r ∧ (s.region r).newFrom n ≤ i ∧ i < (s.region r).newTo n := by
    by_cases hr' : r' = r
    · subst hr'
      have hsized : ((s.region r').sized n).InList i := by
        rw [hr] at hi
        simpa only [Reg.InList, hst] using hi
      rcases (Reg.inList_sized (h.size r').1 hn).1 hsized with hold | hnew
      · exact .inl ⟨hold, (hpt i).trans (hframe.pt i (Reg.not_new hold))⟩
      · exact .inr ⟨rfl, hnew⟩
    · rw [hother r' hr', hframe.other r' hr'] at hi ⊢
      exact .inl ⟨hi, rfl⟩
  refine ⟨fun r' => ?_, fun r' => ?_, fun r' i hi => ?_, fun r₁ r₂ i j hi hj he => ?_⟩
  · by_cases hr' : r' = r
    · have := (h.size r).1
      rw [hr', hr]
      exact ⟨by show 0 ≤ n; omega, hn₁⟩
    · rw [hother r' hr', hframe.other r' hr']
      exact h.size r'
  · by_cases hr' : r' = r
    · rw [hr', hr, hframe.reg]
      exact h.refcnt r
    · rw [hother r' hr', hframe.other r' hr']
      exact h.refcnt r'
  · rw [hp]
    rcases hsplit hi with ⟨hold, hpt'⟩ | ⟨rfl, h₁, h₂⟩
    · rw [hpt']
      exact hkeep _ (h.used r' i hold)
    · rw [hpt]
      exact (hnew i h₁ h₂).1
  · have hclash {r' : ℕ} {i j : ℤ} (hold : (s.region r').InList i)
        (hj : (s.region r).newFrom n ≤ j ∧ j < (s.region r).newTo n)
        (he : (s.region r').pt i = (t.region r).pt j) : False := by
      have := h.used r' i hold
      rw [he, (hnew j hj.1 hj.2).2] at this
      exact nomatch this
    rcases hsplit hi with ⟨hi, hpi⟩ | ⟨rfl, hi⟩ <;> rcases hsplit hj with ⟨hj, hpj⟩ | ⟨rfl, hj⟩
    · exact h.own r₁ r₂ i j hi hj (hpi ▸ hpj ▸ he)
    · exact (hclash hi hj (hpi ▸ he.trans (hpt j))).elim
    · exact (hclash hj hi (hpj ▸ he.symm.trans (hpt i))).elim
    · exact ⟨rfl, hinj i j hi.1 hi.2 hj.1 hj.2 ((hpt i).symm.trans (he.trans (hpt j)))⟩

/-- The region `r` has let go of the page tables for what is more than `n` pages. -/
structure Shrunk (r : ℕ) (n : ℤ) (s t : Space) : Prop where
  p_region : t.p_region = s.p_region
  u_stbl : t.u_stbl = s.u_stbl
  other : ∀ r', r' ≠ r → t.region r' = s.region r'
  reg : t.region r = { s.region r with r_list := (t.region r).r_list }
  pt : ∀ i, ((s.region r).sized n).InList i → (t.region r).pt i = (s.region r).pt i
  used : ∀ i, ((s.region r).sized n).InList i → t.ptused ((s.region r).pt i) = true
  usedOther : ∀ r' i, r' ≠ r → (s.region r').InList i → t.ptused ((s.region r').pt i) = true

theorem ptshrink_spec (h : s.Owns) (hn₀ : 0 ≤ n) (hn : n ≤ (s.region r).r_pgsz)
    (hst : (s.region r).r_stack = true → ptos n = ptos (s.region r).r_pgsz) :
    Shrunk r n s (ptshrink s r (s.region r).r_pgsz n) := by
  rw [ptshrink]
  by_cases hlt : ptos n < ptos (s.region r).r_pgsz
  · have hst : (s.region r).r_stack = false := by
      rw [← Bool.not_eq_true]
      exact fun hs => hlt.ne (hst hs)
    have hin {i : ℤ} : (s.region r).InList i ↔ 0 ≤ i ∧ i < ptos (s.region r).r_pgsz := by
      simp [Reg.InList, hst]
    have hin' {i : ℤ} : ((s.region r).sized n).InList i ↔ 0 ≤ i ∧ i < ptos n := by
      simp [Reg.InList, hst]
    have := ptos_nonneg hn₀
    simp only [if_pos hlt, hst, Bool.false_eq_true, if_false]
    set t := freePts s r (ptos n) (ptos (s.region r).r_pgsz - ptos n).toNat with ht
    have hframe : PtFrame r (ptos n) (ptos (s.region r).r_pgsz) s t :=
      (freePts_frame (s := s)).mono le_rfl (by omega)
    have hfreed {r' : ℕ} {i : ℤ} (hi : (s.region r').InList i)
        (hne : r' = r → i < ptos n) : t.ptused ((s.region r').pt i) = true := by
      rw [ht, ptused_freePts fun j hj hj' he => ?_]
      · exact h.used r' i hi
      · obtain ⟨hr, rfl⟩ := h.own r r' j i (hin.2 (by omega)) hi he
        have := hne hr.symm
        omega
    have hsh : Shrunk r n s t := ⟨hframe.p_region, hframe.u_stbl, hframe.other, hframe.reg,
      fun i hi => hframe.pt i (by have := hin'.1 hi; omega),
      fun i hi => hfreed (hin.2 (by have := hin'.1 hi; omega)) fun _ => (hin'.1 hi).2,
      fun r' i hr hi => hfreed hi fun he => absurd he hr⟩
    by_cases hzero : n ≤ 0
    · have hnone {i : ℤ} : ¬((s.region r).sized n).InList i := by
        rw [hin', le_antisymm hzero hn₀]
        simp only [ptos, NPGPT]
        omega
      rw [if_pos hzero]
      exact ⟨hsh.p_region, hsh.u_stbl,
        fun r' hr => (region_setReg_of_ne hr).trans (hsh.other r' hr),
        by rw [region_setReg, hsh.reg], fun i hi => absurd hi hnone, fun i hi => absurd hi hnone,
        hsh.usedOther⟩
    · rwa [if_neg hzero]
  · have hin {i : ℤ} : ((s.region r).sized n).InList i ↔ (s.region r).InList i := by
      have : ptos n = ptos (s.region r).r_pgsz := le_antisymm (ptos_mono hn) (not_lt.1 hlt)
      simp only [Reg.InList, this]
    rw [if_neg hlt]
    exact ⟨rfl, rfl, fun _ _ => rfl, rfl, fun _ _ => rfl, fun i hi => h.used r i (hin.1 hi),
      fun r' i _ hi => h.used r' i hi⟩

end Expand

end AuxKernel.Region
