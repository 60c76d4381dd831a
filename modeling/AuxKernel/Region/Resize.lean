import AuxKernel.Region.PageTables
import AuxKernel.Region.Grow

/-!
# Regions change their size

`growreg` is exact (`Exact`), but for two things (`growreg_exact`): a stack that shrinks gives up
page tables without freeing the pages in them, and a growth that finds no page table leaves what
`uptalloc` returned in the list.

* `ptshrink_exact`, `ptexpand_exact`: what happens to the page tables;
* `freeSegs_spec`, `initSegs_spec`: what happens to the pages.
-/

namespace AuxKernel.Region

/-! ## Page tables -/

section PageTables

variable {s s' t : Space} {r : ℕ} {lp lp1 i x n o change : ℤ} {c : ℕ} {pts : List ℤ} {b : Bool}

theorem freePts_pt (h₁ : lp ≤ i) (h₂ : i < lp + c) : ((freePts s r lp c).region r).pt i = 0 := by
  induction c generalizing s lp with
  | zero => omega
  | succ c ih =>
    by_cases hi : i = lp
    · rw [freePts, freePts_frame.pt i (by omega), region_setReg, Reg.pt_setPt]
      split_ifs with hl
      · rfl
      · rw [Reg.pt, Option.not_isSome_iff_eq_none.1 fun hs => hl ⟨hi, hs⟩]
        rfl
    · exact ih (by omega) (by omega)

theorem freePts_false (h : s.ptused x = false) : (freePts s r lp c).ptused x = false := by
  induction c generalizing s lp with
  | zero => exact h
  | succ c ih =>
    refine ih ((Function.update_apply ..).trans ?_)
    rw [h, ite_self]

/-- A page table that was in one of the places is not in use. -/
theorem freePts_freed (h₁ : lp ≤ i) (h₂ : i < lp + c) (hi : (s.region r).pt i = x) :
    (freePts s r lp c).ptused x = false := by
  induction c generalizing s lp with
  | zero => omega
  | succ c ih =>
    rw [freePts]
    by_cases hlp : i = lp
    · refine freePts_false (s := (s.setUsed ((s.region r).pt lp) false).setReg r _) ?_
      exact (Function.update_apply ..).trans (if_pos (by rw [← hi, hlp]))
    · refine ih (by omega) (by omega) ?_
      rw [region_setReg, Reg.pt_setPt, if_neg fun h => hlp h.1]
      exact hi

/-- The pages that `n` has less of. -/
theorem Reg.inList_shrink {rp : Reg} (hn₀ : 0 ≤ n) (hn : n ≤ rp.r_pgsz) :
    (rp.sized n).InList i ↔ rp.InList i ∧
      ¬((if rp.r_stack then NSEGP - ptos rp.r_pgsz else ptos n) ≤ i ∧
        i < if rp.r_stack then NSEGP - ptos n else ptos rp.r_pgsz) := by
  have := ptos_nonneg hn₀
  have := ptos_mono hn
  simp only [Reg.InList]
  split_ifs <;> omega

/-- The region `r` has the page tables for `n` pages and no others, of those that it had. -/
structure ShrunkTo (r : ℕ) (n : ℤ) (s t : Space) : Prop where
  others : ∀ r', r' ≠ r → t.region r' = s.region r'
  r_stack : (t.region r).r_stack = (s.region r).r_stack
  r_pgsz : (t.region r).r_pgsz = (s.region r).r_pgsz
  kept : ∀ i, ((s.region r).sized n).InList i → (t.region r).pt i = (s.region r).pt i
  rest : ∀ i, ¬((s.region r).sized n).InList i → (t.region r).pt i = 0
  ptused : ∀ x, t.ptused x = true ↔ s.ptused x = true ∧
    ∀ i, (s.region r).InList i → ¬((s.region r).sized n).InList i → (s.region r).pt i ≠ x

theorem ptshrink_exact (h : s.Fits r) (hn₀ : 0 ≤ n) (hn : n ≤ (s.region r).r_pgsz) :
    ShrunkTo r n s (ptshrink s r (s.region r).r_pgsz n) := by
  by_cases hlt : ptos n < ptos (s.region r).r_pgsz
  · have := ptos_nonneg hn₀
    set lp := if (s.region r).r_stack then NSEGP - ptos (s.region r).r_pgsz else ptos n with hlp
    set lp2 := if (s.region r).r_stack then NSEGP - ptos n else ptos (s.region r).r_pgsz with hlp2
    have hle : lp ≤ lp2 := by
      rw [hlp, hlp2]
      split_ifs <;> omega
    have hin (i : ℤ) : ((s.region r).sized n).InList i ↔
        (s.region r).InList i ∧ ¬(lp ≤ i ∧ i < lp2) := Reg.inList_shrink hn₀ hn
    have hend : lp + ((lp2 - lp).toNat : ℤ) = lp2 := by omega
    set t := freePts s r lp (lp2 - lp).toNat with ht
    have hframe : PtFrame r lp lp2 s t := by
      have hfree : PtFrame r lp (lp + ((lp2 - lp).toNat : ℤ)) s t := freePts_frame
      rwa [hend] at hfree
    have hsh : ShrunkTo r n s t := by
      refine ⟨hframe.other, by rw [hframe.reg], by rw [hframe.reg],
        fun i hi => hframe.pt i ((hin i).1 hi).2,
        fun i hi => ?_, fun x => ⟨fun hx => ⟨?_, fun i hi hi' he => ?_⟩, fun ⟨hx, hne⟩ => ?_⟩⟩
      · by_cases hr : lp ≤ i ∧ i < lp2
        · exact freePts_pt hr.1 (by omega)
        · rw [hframe.pt i hr]
          exact h.rest i fun hi' => hi ((hin i).2 ⟨hi', hr⟩)
      · by_contra hx'
        rw [ht, freePts_false (Bool.eq_false_of_not_eq_true hx')] at hx
        exact Bool.false_ne_true hx
      · have hr : lp ≤ i ∧ i < lp2 := by
          by_contra hr
          exact hi' ((hin i).2 ⟨hi, hr⟩)
        rw [ht, freePts_freed hr.1 (by omega) he] at hx
        exact Bool.false_ne_true hx
      · rw [ht, ptused_freePts fun i hi hi' he => ?_]
        · exact hx
        · -- The place is one of the region.
          have hil : (s.region r).InList i := by
            rw [Reg.InList]
            split_ifs at hlp hlp2 ⊢ <;> omega
          exact hne i hil (fun hin' => ((hin i).1 hin').2 ⟨hi, by omega⟩) he
    have heq : ptshrink s r (s.region r).r_pgsz n =
        if n ≤ 0 then t.setReg r { t.region r with r_list := none } else t := by
      rw [ptshrink, if_pos hlt, ht, hlp, hlp2]
      cases (s.region r).r_stack with
      | true => rfl
      | false => rfl
    rw [heq]
    by_cases hzero : n ≤ 0
    · have hnone (i : ℤ) : ¬((s.region r).sized n).InList i := by
        rw [Reg.InList, le_antisymm hzero hn₀]
        simp only [ptos, NPGPT]
        split_ifs <;> omega
      rw [if_pos hzero]
      refine ⟨fun r' hr => (region_setReg_of_ne hr).trans (hsh.others r' hr), ?_, ?_,
        fun i hi => absurd hi (hnone i), fun i _ => ?_, hsh.ptused⟩
      · rw [region_setReg]
        exact hsh.r_stack
      · rw [region_setReg]
        exact hsh.r_pgsz
      · rw [region_setReg]
        rfl
    · rwa [if_neg hzero]
  · have heq : ptos n = ptos (s.region r).r_pgsz := le_antisymm (ptos_mono hn) (not_lt.1 hlt)
    have hin (i : ℤ) : ((s.region r).sized n).InList i ↔ (s.region r).InList i := by
      simp only [Reg.InList, heq]
    rw [ptshrink, if_neg hlt]
    exact ⟨fun _ _ => rfl, rfl, rfl, fun _ _ => rfl,
      fun i hi => h.rest i fun hi' => hi ((hin i).2 hi'),
      fun x => ⟨fun hx => ⟨hx, fun i hi hi' => absurd ((hin i).2 hi) hi'⟩, fun hx => hx.1⟩⟩

/-- A page table in use after an allocation was so before, or is in one of the places. -/
theorem allocPts_used (hl : (s.region r).r_list.isSome)
    (h : allocPts s r lp1 lp c pts = some (t, false)) (hx : t.ptused x = true) :
    s.ptused x = true ∨ ∃ i, lp ≤ i ∧ i < lp + c ∧ (t.region r).pt i = x := by
  induction c generalizing s lp pts with
  | zero =>
    obtain rfl : s = t := congrArg Prod.fst (Option.some.inj h)
    exact .inl hx
  | succ c ih =>
    cases pts with
    | nil => cases h
    | cons pt pts =>
      rw [allocPts] at h
      by_cases hf : pt = -1
      · rw [if_pos hf] at h
        cases congrArg Prod.snd (Option.some.inj h)
      rw [if_neg hf] at h
      by_cases hu : pt = 0 ∨ s.ptused pt
      · rw [if_pos hu] at h
        cases h
      rw [if_neg hu] at h
      have hl' : (((s.setUsed pt true).setReg r
          ((s.region r).setPt lp pt)).region r).r_list.isSome := by
        rw [region_setReg]
        simpa [Reg.setPt] using hl
      rcases ih hl' h with hs | ⟨i, h₁, h₂, hi⟩
      · by_cases hpt : x = pt
        · refine .inr ⟨lp, le_rfl, by omega, ?_⟩
          rw [(allocPts_ok hl' h).1.pt lp (by omega), region_setReg, Reg.pt_setPt,
            if_pos ⟨rfl, hl⟩, hpt]
        · exact .inl ((Function.update_of_ne hpt ..).symm.trans hs)
      · exact .inr ⟨i, by omega, by omega, hi⟩

/-- An allocation fails if `uptalloc` does for one of the places. -/
theorem allocPts_failed_iff (h : allocPts s r lp1 lp c pts = some (t, b)) :
    b = true ↔ -1 ∈ pts.take c := by
  induction c generalizing s lp pts with
  | zero =>
    obtain rfl : false = b := congrArg Prod.snd (Option.some.inj h)
    simp
  | succ c ih =>
    cases pts with
    | nil => cases h
    | cons pt pts =>
      rw [allocPts] at h
      rw [List.take_succ_cons, List.mem_cons]
      by_cases hf : pt = -1
      · rw [if_pos hf] at h
        obtain rfl : true = b := congrArg Prod.snd (Option.some.inj h)
        exact iff_of_true rfl (.inl hf.symm)
      rw [if_neg hf] at h
      by_cases hu : pt = 0 ∨ s.ptused pt
      · rw [if_pos hu] at h
        cases h
      rw [if_neg hu] at h
      exact (ih h).trans (or_iff_right fun h => hf h.symm).symm

/-- What `uptalloc` returned when it failed stays in the list. -/
theorem allocPts_left (hl : (s.region r).r_list.isSome) (hlp : lp1 ≤ lp)
    (h : allocPts s r lp1 lp c pts = some (t, true)) :
    ∃ i, lp ≤ i ∧ i < lp + c ∧ (t.region r).pt i = -1 := by
  induction c generalizing s lp pts with
  | zero => cases congrArg Prod.snd (Option.some.inj h)
  | succ c ih =>
    cases pts with
    | nil => cases h
    | cons pt pts =>
      rw [allocPts] at h
      by_cases hf : pt = -1
      · rw [if_pos hf] at h
        obtain rfl := congrArg Prod.fst (Option.some.inj h)
        refine ⟨lp, le_rfl, by omega, ?_⟩
        rw [freePts_frame.pt lp (by omega), region_setReg, Reg.pt_setPt, if_pos ⟨rfl, hl⟩]
      rw [if_neg hf] at h
      by_cases hu : pt = 0 ∨ s.ptused pt
      · rw [if_pos hu] at h
        cases h
      rw [if_neg hu] at h
      obtain ⟨i, h₁, h₂, hi⟩ := ih (by rw [region_setReg]; simpa [Reg.setPt] using hl)
        (by omega) h
      exact ⟨i, by omega, by omega, hi⟩

/-- The region `r` has page tables for `n` pages, those that it had and new ones. -/
structure GrownTo (r : ℕ) (n : ℤ) (s t : Space) : Prop where
  others : ∀ r', r' ≠ r → t.region r' = s.region r'
  r_stack : (t.region r).r_stack = (s.region r).r_stack
  r_pgsz : (t.region r).r_pgsz = (s.region r).r_pgsz
  kept : ∀ i, (s.region r).InList i → (t.region r).pt i = (s.region r).pt i
  rest : ∀ i, ¬((s.region r).sized n).InList i → (t.region r).pt i = 0
  used : ∀ i, ((s.region r).sized n).InList i → t.ptused ((t.region r).pt i) = true
  inj : ∀ i j, ((s.region r).sized n).InList i → ((s.region r).sized n).InList j →
    (t.region r).pt i = (t.region r).pt j → i = j
  new : ∀ i, ((s.region r).sized n).InList i → ¬(s.region r).InList i →
    s.ptused ((t.region r).pt i) = false
  ptused : ∀ x, t.ptused x = true ↔ s.ptused x = true ∨
    ∃ i, ((s.region r).sized n).InList i ∧ (t.region r).pt i = x

theorem ptexpand_exact {list : Bool} (hfits : s.Fits r) (ho : 0 ≤ (s.region r).r_pgsz)
    (hc : 0 < change) (hn : (s.region r).r_pgsz + change = n)
    (h : ptexpand s r change list pts = some (t, false)) : GrownTo r n s t := by
  obtain ⟨hframe, hkeep, hnew, hinj⟩ := ptexpand_ok hc hn h
  have hin (i : ℤ) : ((s.region r).sized n).InList i ↔ (s.region r).InList i ∨
      (s.region r).newFrom n ≤ i ∧ i < (s.region r).newTo n := Reg.inList_sized ho (by omega)
  have hkept (i : ℤ) (hi : (s.region r).InList i) : (t.region r).pt i = (s.region r).pt i :=
    hframe.pt i (Reg.not_new hi)
  have hused (i : ℤ) (hi : ((s.region r).sized n).InList i) :
      t.ptused ((t.region r).pt i) = true := by
    rcases (hin i).1 hi with hi | hi
    · rw [hkept i hi]
      exact hkeep _ (hfits.used i hi)
    · exact (hnew i hi.1 hi.2).1
  -- A page table that the region had is none of the new ones.
  have hne (i j : ℤ) (hi : (s.region r).InList i)
      (hj : (s.region r).newFrom n ≤ j ∧ j < (s.region r).newTo n) :
      (t.region r).pt i ≠ (t.region r).pt j := by
    intro he
    have := (hnew j hj.1 hj.2).2
    rw [← he, hkept i hi, hfits.used i hi] at this
    cases this
  refine ⟨hframe.other, by rw [hframe.reg], by rw [hframe.reg], hkept, fun i hi => ?_, hused,
    fun i j hi hj he => ?_, fun i hi hi' => ?_, fun x => ⟨fun hx => ?_, fun hx => ?_⟩⟩
  · rw [hframe.pt i fun hr => hi ((hin i).2 (.inr hr))]
    exact hfits.rest i fun hi' => hi ((hin i).2 (.inl hi'))
  · rcases (hin i).1 hi with hi | hi
    · rcases (hin j).1 hj with hj | hj
      · exact hfits.inj i j hi hj (by rw [← hkept i hi, ← hkept j hj, he])
      · exact absurd he (hne i j hi hj)
    · rcases (hin j).1 hj with hj | hj
      · exact absurd he.symm (hne j i hj hi)
      · exact hinj i j hi.1 hi.2 hj.1 hj.2 he
  · have hr := ((hin i).1 hi).resolve_left hi'
    exact (hnew i hr.1 hr.2).2
  · obtain ⟨hb, -⟩ | ⟨s₁, hl, hu, -, ha⟩ := ptexpand_cases hc hn h
    · cases hb
    · rcases allocPts_used hl ha hx with hs | ⟨i, h₁, h₂, hi⟩
      · exact .inl (hu ▸ hs)
      · exact .inr ⟨i, (hin i).2 (.inr ⟨h₁, by omega⟩), hi⟩
  · rcases hx with hx | ⟨i, hi, rfl⟩
    · exact hkeep x hx
    · exact hused i hi

/-- An expansion fails for want of a list, or allocates page tables for the new places. -/
theorem ptexpand_eq {list : Bool} (hc : 0 < change) (hn : (s.region r).r_pgsz + change = n) :
    ptexpand s r change list pts =
      if (s.region r).r_list = none ∧ list = false then some (s, true)
      else allocPts (s.setReg r { s.region r with
          r_list := some ((s.region r).r_list.getD fun _ => 0) }) r ((s.region r).newFrom n)
        ((s.region r).newFrom n) (ptos n - ptos (s.region r).r_pgsz).toNat pts := by
  have hsh : ptshrink s r (s.region r).r_pgsz n = s := by
    rw [ptshrink, if_neg (not_lt.2 (ptos_mono (by omega)))]
  rw [ptexpand]
  simp only [hn, hsh, if_neg (not_le.2 hc)]
  refine if_congr Iff.rfl rfl ?_
  rw [region_setReg, Reg.newFrom]
  cases (s.region r).r_stack with
  | true =>
    simp only [if_true]
    congr 2
    omega
  | false => rfl

/-- An expansion fails if there is no list, and nothing happens; or if there are too few page
    tables, and then the list has changed. -/
theorem ptexpand_failed_iff {list : Bool} (hfits : s.Fits r) (ho : 0 ≤ (s.region r).r_pgsz)
    (hc : 0 < change) (hn : (s.region r).r_pgsz + change = n)
    (h : ptexpand s r change list pts = some (t, b)) :
    ((s.region r).r_list = none ∧ list = false → b = true ∧ t = s) ∧
    (¬((s.region r).r_list = none ∧ list = false) →
      (b = true ↔ -1 ∈ pts.take (ptos n - ptos (s.region r).r_pgsz).toNat) ∧
      (b = true → t ≠ s)) := by
  rw [ptexpand_eq hc hn] at h
  refine ⟨fun hl => ?_, fun hl => ?_⟩
  · rw [if_pos hl] at h
    obtain ⟨rfl, rfl⟩ := Prod.mk.inj (Option.some.inj h)
    exact ⟨rfl, rfl⟩
  · rw [if_neg hl] at h
    refine ⟨allocPts_failed_iff h, ?_⟩
    rintro rfl rfl
    obtain ⟨i, h₁, h₂, hi⟩ := allocPts_left (by rw [region_setReg]; rfl) le_rfl h
    have hout : ¬(t.region r).InList i := by
      have := ptos_nonneg ho
      rw [Reg.newFrom] at h₁ h₂
      rw [Reg.InList]
      split_ifs at h₁ h₂ ⊢ <;> omega
    rw [hfits.rest i hout] at hi
    exact absurd hi (by decide)

end PageTables

/-! ## Pages -/

section Pages

variable {rp : Reg} {s t : Store} {i n o : ℤ} {c : ℕ} {type : DbdType}

theorem stopg_succ (i : ℤ) : stopg (i + 1) = stopg i + NPGPT := by
  rw [stopg, stopg, add_mul, one_mul]

/-- The pages that are freed in a segment of a region that is no stack. -/
theorem freeSeg_eq (hst : rp.r_stack = false) (h₁ : n < stopg (i + 1)) (h₂ : stopg i < o)
    (hn : n ≤ o) (s : Store) : freeSeg rp o n i s =
      pfree (rp.pt i) (max n (stopg i) - stopg i)
        (min o (stopg (i + 1)) - max n (stopg i)).toNat s := by
  have hstep := stopg_succ i
  have hpos : 0 < NPGPT := by decide
  rw [freeSeg, hst]
  dsimp only
  by_cases hlt : n > stopg i
  · rw [if_pos hlt]
    simp only [Bool.false_eq_true, if_false]
    congr 1
    · omega
    · split_ifs <;> omega
  · rw [if_neg hlt]
    congr 1
    · omega
    · split_ifs <;> omega

/-- The page tables of a region are different ones. -/
def Reg.Distinct (rp : Reg) : Prop :=
  ∀ i j, rp.InList i → rp.InList j → rp.pt i = rp.pt j → i = j

/-- The segments from `i` on give up their pages beyond `n`. -/
theorem freeSegs_spec (hst : rp.r_stack = false) (hd : rp.Distinct) (hn₀ : 0 ≤ n)
    (hn : n ≤ rp.r_pgsz) (hi : ptots n ≤ i) (hc : i + c = ptos rp.r_pgsz) :
    Drops (s.page rp) (max n (stopg i)) (rp.r_pgsz - max n (stopg i)).toNat s
        (freeSegs rp rp.r_pgsz n i c s) ∧
      ∀ x k, (∀ m, max n (stopg i) ≤ m → m < rp.r_pgsz →
        ¬(rp.pt (rp.seg m) = x ∧ rp.ofs m = k)) →
        (freeSegs rp rp.r_pgsz n i c s).tbl x k = s.tbl x k := by
  induction c generalizing i s with
  | zero =>
    have hend : rp.r_pgsz - max n (stopg i) ≤ 0 := by
      simp only [ptos, stopg, NPGPT] at *
      omega
    rw [Int.toNat_of_nonpos hend]
    exact ⟨.refl .., fun _ _ _ => rfl⟩
  | succ c ih =>
    have hbound : n < stopg (i + 1) ∧ stopg i < rp.r_pgsz ∧ 0 ≤ i := by
      simp only [ptots, ptos, stopg, NPGPT] at *
      omega
    obtain ⟨hlo, hhi, hi₀⟩ := hbound
    have hstep := stopg_succ i
    set lo := max n (stopg i) with hlodef
    set hi' := min rp.r_pgsz (stopg (i + 1)) with hhidef
    -- The pages of this segment are in one page table, and no other pages are.
    have hseg (m : ℤ) (h₁ : stopg i ≤ m) (h₂ : m < stopg (i + 1)) :
        rp.seg m = i ∧ rp.ofs m = m - stopg i := by
      simp only [Reg.seg, Reg.ofs, hst, Bool.false_eq_true, if_false]
      simp only [stopg, NPGPT] at *
      omega
    have hin (m : ℤ) (h₁ : 0 ≤ m) (h₂ : m < rp.r_pgsz) : rp.InList (rp.seg m) := by
      simp only [Reg.InList, Reg.seg, hst, Bool.false_eq_true, if_false]
      simp only [ptos, NPGPT] at *
      omega
    obtain ⟨hfree, htbl⟩ := pfree_spec (rp.pt i) (lo - stopg i) (hi' - lo).toNat s
    have hout (m : ℤ) (h₁ : stopg (i + 1) ≤ m) (h₂ : m < rp.r_pgsz) :
        rp.pt (rp.seg m) ≠ rp.pt i := by
      intro he
      have hi := hin (stopg i) (by simp only [stopg, NPGPT]; omega) hhi
      rw [(hseg (stopg i) le_rfl (by simp only [stopg, NPGPT]; omega)).1] at hi
      have := hd _ _ (hin m (by simp only [stopg, NPGPT] at *; omega) h₂) hi he
      simp only [Reg.seg, hst, Bool.false_eq_true, if_false] at this
      simp only [stopg, NPGPT] at *
      omega
    rw [freeSegs, freeSeg_eq hst hlo hhi hn]
    set s₁ := pfree (rp.pt i) (lo - stopg i) (hi' - lo).toNat s with hs₁
    obtain ⟨hrest, hframe⟩ := ih (s := s₁) (i := i + 1) (by omega) (by push_cast at hc; omega)
    rw [max_eq_right hlo.le] at hrest hframe
    have hle : lo ≤ hi' ∧ stopg i ≤ lo ∧ hi' ≤ stopg (i + 1) := by
      have : 0 < NPGPT := by decide
      omega
    refine ⟨?_, fun x k hx => ?_⟩
    · have hfirst : Drops (s.page rp) lo (hi' - lo).toNat s s₁ := by
        refine hfree.congr fun d h₀ hd' => ?_
        rw [Store.page, (hseg (lo + d) (by omega) (by omega)).1,
          (hseg (lo + d) (by omega) (by omega)).2]
        congr 1
        omega
      have hsecond : Drops (s.page rp) (lo + (hi' - lo).toNat)
          (rp.r_pgsz - stopg (i + 1)).toNat s₁ (freeSegs rp rp.r_pgsz n (i + 1) c s₁) := by
        refine hrest.congr fun d h₀ hd' => ?_
        have hm : lo + ((hi' - lo).toNat : ℤ) + d = stopg (i + 1) + d := by omega
        rw [hm, Store.page, Store.page, htbl,
          if_neg fun h => hout (stopg (i + 1) + d) (by omega) (by omega) h.1]
      have hlen : (hi' - lo).toNat + (rp.r_pgsz - stopg (i + 1)).toNat =
          (rp.r_pgsz - lo).toNat := by omega
      exact hlen ▸ hfirst.trans hsecond
    · rw [hframe x k fun m h₁ h₂ => hx m (by omega) h₂, htbl, if_neg]
      -- An entry of this page table that is freed is that of a page beyond `n`.
      rintro ⟨rfl, hk, hk'⟩
      have hm := hseg (stopg i + k) (by omega) (by omega)
      refine hx (stopg i + k) (by omega) (by omega) ⟨by rw [hm.1], ?_⟩
      rw [hm.2]
      omega

/-- Pages are initialised in one page table, upwards or downwards; nothing else changes. -/
theorem initPages_spec {ptincr : ℤ} (hp : ptincr = 1 ∨ ptincr = -1) (type : DbdType)
    (pt j : ℤ) (c : ℕ) (s : Store) :
    initPages type pt j ptincr c s = { s with tbl := (initPages type pt j ptincr c s).tbl } ∧
      ∀ x k, (initPages type pt j ptincr c s).tbl x k =
        if x = pt ∧ 0 ≤ ptincr * (k - j) ∧ ptincr * (k - j) < c then (s.tbl x k).fresh type
        else s.tbl x k := by
  induction c generalizing j s with
  | zero => exact ⟨rfl, fun x k => by rw [if_neg (by omega)]; rfl⟩
  | succ c ih =>
    obtain ⟨hkeep, htbl⟩ := ih (j + ptincr) (s.setPage pt j ((s.tbl pt j).fresh type))
    refine ⟨by rw [initPages, hkeep]; rfl, fun x k => ?_⟩
    have hset : (s.setPage pt j ((s.tbl pt j).fresh type)).tbl x k =
        if x = pt ∧ k = j then (s.tbl x k).fresh type else s.tbl x k := by
      change Function.update s.tbl pt (Function.update (s.tbl pt) j _) x k = _
      by_cases hx : x = pt
      · subst hx
        rw [Function.update_self]
        by_cases hk : k = j
        · rw [hk, Function.update_self, if_pos ⟨rfl, rfl⟩]
        · rw [Function.update_of_ne hk, if_neg fun h => hk h.2]
      · rw [Function.update_of_ne hx, if_neg fun h => hx h.1]
    rw [initPages, htbl, hset]
    rcases hp with rfl | rfl
    all_goals
      push_cast
      split_ifs <;> first
        | rfl
        | omega

/-- The pages that are initialised in a segment. -/
theorem initSeg_eq (h₁ : o < stopg (i + 1)) (h₂ : stopg i < n) (hn : o ≤ n) (s : Store) :
    initSeg rp type o n i s =
      initPages type (rp.pt (if rp.r_stack then NSEGP - 1 - i else i))
        (if rp.r_stack then NPGPT - 1 - (max o (stopg i) - stopg i) else max o (stopg i) - stopg i)
        (if rp.r_stack then -1 else 1) (min n (stopg (i + 1)) - max o (stopg i)).toNat s := by
  have hstep := stopg_succ i
  have hpos : 0 < NPGPT := by decide
  have hskip : (if o > stopg i then o - stopg i else 0) = max o (stopg i) - stopg i := by
    split_ifs <;> omega
  have hsize : (if n - stopg i ≥ NPGPT then NPGPT else n - stopg i) -
      (max o (stopg i) - stopg i) = min n (stopg (i + 1)) - max o (stopg i) := by
    split_ifs <;> omega
  rw [initSeg, hskip, hsize]
  cases rp.r_stack with
  | true => rfl
  | false => rfl

/-- The segments from `i` on get their pages beyond `o` initialised. -/
theorem initSegs_spec (type : DbdType) (hd : (rp.sized n).Distinct) (ho₀ : 0 ≤ o) (hn : o ≤ n)
    (hi : ptots o ≤ i) (hc : i + c = ptos n) :
    initSegs rp type o n i c s = { s with tbl := (initSegs rp type o n i c s).tbl } ∧
      (∀ m, max o (stopg i) ≤ m → m < n →
        ∃ pg : Page, (initSegs rp type o n i c s).page rp m = pg.fresh type) ∧
      ∀ x k, (∀ m, max o (stopg i) ≤ m → m < n →
        ¬(rp.pt (rp.seg m) = x ∧ rp.ofs m = k)) →
        (initSegs rp type o n i c s).tbl x k = s.tbl x k := by
  induction c generalizing i s with
  | zero =>
    refine ⟨rfl, fun m h₁ h₂ => ?_, fun _ _ _ => rfl⟩
    simp only [ptos, stopg, NPGPT] at *
    omega
  | succ c ih =>
    have hbound : o < stopg (i + 1) ∧ stopg i < n ∧ 0 ≤ i := by
      simp only [ptots, ptos, stopg, NPGPT] at *
      omega
    obtain ⟨hlo, hhi, hi₀⟩ := hbound
    have hstep := stopg_succ i
    have hpos : 0 < NPGPT := by decide
    set lo := max o (stopg i) with hlodef
    set hi' := min n (stopg (i + 1)) with hhidef
    set seg := if rp.r_stack then NSEGP - 1 - i else i with hsegdef
    set ptincr : ℤ := if rp.r_stack then -1 else 1 with hincr
    set j := if rp.r_stack then NPGPT - 1 - (lo - stopg i) else lo - stopg i with hj
    have hp : ptincr = 1 ∨ ptincr = -1 := by
      rw [hincr]
      split_ifs
      · exact .inr rfl
      · exact .inl rfl
    -- The pages of this segment are in one page table, and no other pages are.
    have hseg (m : ℤ) (h₁ : stopg i ≤ m) (h₂ : m < stopg (i + 1)) :
        rp.seg m = seg ∧ ptincr * (rp.ofs m - j) = m - lo := by
      rw [hsegdef, hincr, hj, Reg.seg, Reg.ofs]
      simp only [stopg, NPGPT] at *
      split_ifs <;> omega
    have hin (m : ℤ) (h₁ : 0 ≤ m) (h₂ : m < n) : (rp.sized n).InList (rp.seg m) := by
      simp only [Reg.InList, Reg.seg]
      simp only [ptos, NPGPT, NSEGP] at *
      split_ifs <;> omega
    have hout (m : ℤ) (h₁ : stopg (i + 1) ≤ m) (h₂ : m < n) : rp.pt (rp.seg m) ≠ rp.pt seg := by
      intro he
      have hi := hin (stopg i) (by simp only [stopg, NPGPT]; omega) hhi
      rw [(hseg (stopg i) le_rfl (by omega)).1] at hi
      have := hd _ _ (hin m (by simp only [stopg, NPGPT] at *; omega) h₂) hi he
      rw [hsegdef, Reg.seg] at this
      simp only [stopg, NPGPT] at *
      split_ifs at this <;> omega
    obtain ⟨hkeep, htbl⟩ := initPages_spec hp type (rp.pt seg) j (hi' - lo).toNat s
    rw [initSegs, initSeg_eq hlo hhi hn]
    set s₁ := initPages type (rp.pt seg) j ptincr (hi' - lo).toNat s with hs₁
    obtain ⟨hkeep', hnew, hframe⟩ :=
      ih (s := s₁) (i := i + 1) (by omega) (by push_cast at hc; omega)
    rw [max_eq_right hlo.le] at hnew hframe
    have hle : lo ≤ hi' ∧ stopg i ≤ lo ∧ hi' ≤ stopg (i + 1) ∧ hi' ≤ n := by omega
    refine ⟨by rw [hkeep', hkeep], fun m h₁ h₂ => ?_, fun x k hx => ?_⟩
    · by_cases hm : m < stopg (i + 1)
      · obtain ⟨hsm, hom⟩ := hseg m (by omega) hm
        refine ⟨s.page rp m, ?_⟩
        rw [Store.page, hframe _ _ fun m' h₁' h₂' he => hout m' h₁' h₂' (he.1.trans (by rw [hsm])),
          htbl, if_pos ⟨by rw [hsm], by omega, by omega⟩]
        rfl
      · exact hnew m (by omega) h₂
    · rw [hframe x k fun m h₁ h₂ => hx m (by omega) h₂, htbl, if_neg]
      -- An entry of this page table that is initialised is that of a page beyond `o`.
      rintro ⟨rfl, hk, hk'⟩
      have hm := hseg (lo + ptincr * (k - j)) (by omega) (by omega)
      refine hx (lo + ptincr * (k - j)) (by omega) (by omega) ⟨by rw [hm.1], ?_⟩
      rcases hp with hp | hp
      · rw [hp] at hm ⊢
        omega
      · rw [hp] at hm ⊢
        omega

end Pages

/-! ## Calls -/

section Calls

variable {s t : Paged} {sp : Space} {st : Store} {r k : ℕ} {prp : Preg} {change n rv : ℤ}
  {type : DbdType} {list : Bool} {pts : List ℤ}

/-- Where the pages of a region are is in its list. -/
theorem Reg.inList_seg {rp : Reg} {m : ℤ} (h₀ : 0 ≤ m) (h : m < rp.r_pgsz) :
    rp.InList (rp.seg m) := by
  simp only [Reg.InList, Reg.seg]
  simp only [ptos, NPGPT, NSEGP]
  split_ifs <;> omega

theorem Reg.inList_sized_seg {rp : Reg} {m : ℤ} (h₀ : 0 ≤ m) (h : m < n) :
    (rp.sized n).InList (rp.seg m) :=
  Reg.inList_seg h₀ h

theorem Reg.seg_ofs_inj {rp : Reg} {m m' : ℤ} (hs : rp.seg m = rp.seg m')
    (ho : rp.ofs m = rp.ofs m') : m = m' := by
  simp only [Reg.seg, Reg.ofs, NPGPT] at hs ho
  split_ifs at hs ho <;> omega

/-- What is left of a call, once the page tables are as they should. -/
theorem resize_region (k : ℕ) (hn : (sp.region prp.p_reg).r_pgsz + change = n) (hn₀ : 0 ≤ n)
    (hn₁ : n < 2 ^ 15) :
    (resize sp k prp change).region prp.p_reg = (sp.region prp.p_reg).sized n ∧
      (∀ r', r' ≠ prp.p_reg → (resize sp k prp change).region r' = sp.region r') ∧
      (resize sp k prp change).ptused = sp.ptused := by
  rw [resize_eq hn hn₀ hn₁]
  exact ⟨region_setReg, fun r' hr => region_setReg_of_ne hr, rfl⟩

/-- A region that shrinks as it should, if its pages are freed. -/
theorem resized_of_drops (hfits : s.Fits prp.p_reg)
    (hn : (s.region prp.p_reg).r_pgsz + change = n) (hn₀ : 0 ≤ n) (hn₁ : n < 2 ^ 15)
    (hc : change < 0)
    (hd : Drops (s.page (s.region prp.p_reg)) n ((s.region prp.p_reg).r_pgsz - n).toNat
      s.toStore st)
    (hframe : ∀ x j, (∀ m, n ≤ m → m < (s.region prp.p_reg).r_pgsz →
      ¬((s.region prp.p_reg).pt ((s.region prp.p_reg).seg m) = x ∧
        (s.region prp.p_reg).ofs m = j)) → st.tbl x j = s.tbl x j) :
    Resized s ⟨resize (ptshrink s.toSpace prp.p_reg (s.region prp.p_reg).r_pgsz n) k prp change, st⟩
      prp.p_reg n type := by
  have hsh := ptshrink_exact hfits hn₀ (by omega)
  have hn' : ((ptshrink s.toSpace prp.p_reg (s.region prp.p_reg).r_pgsz n).region
      prp.p_reg).r_pgsz + change = n := by
    rw [hsh.r_pgsz]
    exact hn
  obtain ⟨hreg, hother, hused⟩ := resize_region k hn' hn₀ hn₁
  set r := prp.p_reg with hr
  set sp := ptshrink s.toSpace r (s.region r).r_pgsz n with hsp
  have hin (i : ℤ) : ((sp.region r).sized n).InList i ↔ ((s.region r).sized n).InList i := by
    simp only [Reg.InList, hsh.r_stack]
  have hsub (i : ℤ) (hi : ((s.region r).sized n).InList i) : (s.region r).InList i :=
    ((Reg.inList_shrink hn₀ (by omega)).1 hi).1
  have hstill (i : ℤ) (hi : ((s.region r).sized n).InList i) :
      sp.ptused ((s.region r).pt i) = true := by
    refine (hsh.ptused _).2 ⟨hfits.used i (hsub i hi), fun j hj hj' he => hj' ?_⟩
    rwa [hfits.inj j i hj (hsub i hi) he]
  have hseg (m : ℤ) : ((sp.region r).sized n).seg m = (s.region r).seg m ∧
      ((sp.region r).sized n).ofs m = (s.region r).ofs m := by
    simp only [Reg.seg, Reg.ofs, hsh.r_stack, and_self]
  refine ⟨congrArg Reg.r_pgsz hreg, ⟨fun i hi => ?_, fun i j hi hj he => ?_, fun i hi => ?_⟩,
    fun r' hr' => (hother r' hr').trans (hsh.others r' hr'), fun x => ?_, fun m h₀ h₁ h₂ => ?_,
    fun m h₁ h₂ => absurd h₁ (by omega), fun x hx hx' => ?_, hd⟩
  · rw [hreg, hin] at hi
    rw [hused, hreg]
    exact (congrArg sp.ptused (hsh.kept i hi)).trans (hstill i hi)
  · rw [hreg] at hi hj he
    rw [hin] at hi hj
    exact hfits.inj i j (hsub i hi) (hsub j hj)
      ((hsh.kept i hi).symm.trans (he.trans (hsh.kept j hj)))
  · rw [hreg, hin] at hi
    rw [hreg]
    exact hsh.rest i hi
  · refine (Eq.congr_left (congrFun hused x)).trans ((hsh.ptused x).trans ⟨?_, ?_⟩)
    · rintro ⟨hx, hne⟩
      by_cases hpt : s.HasPt r x
      · -- It is a page table that the region has kept.
        obtain ⟨i, hi, rfl⟩ := hpt
        have hi' : ((s.region r).sized n).InList i := by
          by_contra hi'
          exact hne i hi hi' rfl
        refine .inl ⟨i, ?_, ?_⟩
        · rw [hreg, hin]
          exact hi'
        · rw [hreg]
          exact hsh.kept i hi'
      · exact .inr ⟨hx, hpt⟩
    · rintro (⟨i, hi, rfl⟩ | ⟨hx, hpt⟩)
      · rw [hreg] at hi ⊢
        rw [hin] at hi
        have := (hsh.ptused _).1 (hstill i hi)
        rwa [← hsh.kept i hi] at this
      · exact ⟨hx, fun i hi _ he => hpt ⟨i, hi, he⟩⟩
  · rw [hreg]
    change st.tbl ((sp.region r).pt (((sp.region r).sized n).seg m))
      (((sp.region r).sized n).ofs m) = s.tbl ((s.region r).pt ((s.region r).seg m))
        ((s.region r).ofs m)
    have hi : ((s.region r).sized n).InList ((s.region r).seg m) :=
      Reg.inList_sized_seg h₀ h₁
    rw [(hseg m).1, (hseg m).2, hsh.kept _ hi]
    refine hframe _ _ fun m' h₁' h₂' he => ?_
    have hs := hfits.inj _ _ (Reg.inList_seg (by omega) h₂') (hsub _ hi) he.1
    have := Reg.seg_ofs_inj hs he.2
    omega
  · funext j
    refine hframe x j fun m h₁ h₂ he => hx' ⟨_, Reg.inList_seg (by omega) h₂, he.1⟩

/-- A region that grows as it should, if it has got page tables. -/
theorem resized_of_grown (hfits : s.Fits prp.p_reg) (ho : 0 ≤ (s.region prp.p_reg).r_pgsz)
    (hn : (s.region prp.p_reg).r_pgsz + change = n) (hn₁ : n < 2 ^ 15) (hc : 0 < change)
    (hg : GrownTo prp.p_reg n s.toSpace sp) :
    Resized s ⟨resize sp k prp change,
      initSegs (sp.region prp.p_reg) type (s.region prp.p_reg).r_pgsz n
        (ptots (s.region prp.p_reg).r_pgsz)
        (ptos n - ptots (s.region prp.p_reg).r_pgsz).toNat
        (clearNew s.ptused sp.ptused s.toStore)⟩ prp.p_reg n type := by
  set r := prp.p_reg with hr
  set rp := s.region r with hrp
  have hn' : (sp.region prp.p_reg).r_pgsz + change = n := by
    rw [hg.r_pgsz]
    exact hn
  obtain ⟨hreg, hother, hused⟩ := resize_region k hn' (by omega) hn₁
  have hin (i : ℤ) : ((sp.region r).sized n).InList i ↔ (rp.sized n).InList i := by
    simp only [Reg.InList, hg.r_stack, hrp]
  have hsub (i : ℤ) (hi : rp.InList i) : (rp.sized n).InList i :=
    (Reg.inList_sized ho (by omega)).2 (.inl hi)
  have hseg (m : ℤ) : (sp.region r).seg m = rp.seg m ∧ (sp.region r).ofs m = rp.ofs m := by
    simp only [Reg.seg, Reg.ofs, hg.r_stack, hrp, and_self]
  have hdist : ((sp.region r).sized n).Distinct := fun i j hi hj he =>
    hg.inj i j ((hin i).1 hi) ((hin j).1 hj) he
  have hbound : ptots rp.r_pgsz ≤ ptos n := by
    simp only [ptots, ptos, NPGPT]
    omega
  obtain ⟨hkeep, hnew, hframe⟩ := initSegs_spec type hdist ho (by omega) le_rfl
    (s := clearNew s.ptused sp.ptused s.toStore)
    (c := (ptos n - ptots rp.r_pgsz).toNat) (by omega)
  have hmax : max rp.r_pgsz (stopg (ptots rp.r_pgsz)) = rp.r_pgsz := by
    simp only [stopg, ptots, NPGPT]
    omega
  rw [hmax] at hnew hframe
  set st := initSegs (sp.region r) type rp.r_pgsz n (ptots rp.r_pgsz)
    (ptos n - ptots rp.r_pgsz).toNat (clearNew s.ptused sp.ptused s.toStore) with hst
  -- A page table that was in use is not cleared.
  have hclear (x : ℤ) (hx : s.ptused x = true) :
      (clearNew s.ptused sp.ptused s.toStore).tbl x = s.tbl x := by
    change (if sp.ptused x && !s.ptused x then _ else _) = _
    rw [hx, Bool.not_true, Bool.and_false, if_neg Bool.false_ne_true]
  refine ⟨congrArg Reg.r_pgsz hreg, ⟨fun i hi => ?_, fun i j hi hj he => ?_, fun i hi => ?_⟩,
    fun r' hr' => (hother r' hr').trans (hg.others r' hr'), fun x => ?_, fun m h₀ h₁ h₂ => ?_,
    fun m h₁ h₂ => ?_, fun x hx hx' => ?_, ?_⟩
  · rw [hreg, hin] at hi
    rw [hused, hreg]
    exact hg.used i hi
  · rw [hreg] at hi hj he
    exact hdist i j hi hj he
  · rw [hreg, hin] at hi
    rw [hreg]
    exact hg.rest i hi
  · refine (Eq.congr_left (congrFun hused x)).trans ((hg.ptused x).trans ?_)
    have hpt : (⟨resize sp k prp change, st⟩ : Paged).HasPt r x ↔
        ∃ i, (rp.sized n).InList i ∧ (sp.region r).pt i = x := by
      refine exists_congr fun i => ?_
      rw [hreg, hin]
      rfl
    rw [hpt, or_comm]
    refine or_congr_right' fun hno => (and_iff_left ?_).symm
    rintro ⟨i, hi, rfl⟩
    exact hno ⟨i, hsub i hi, hg.kept i hi⟩
  · have h₂ : m < rp.r_pgsz := h₂
    have hi := Reg.inList_seg h₀ h₂
    rw [hreg]
    change st.tbl ((sp.region r).pt ((sp.region r).seg m)) ((sp.region r).ofs m) =
      s.tbl (rp.pt (rp.seg m)) (rp.ofs m)
    rw [hframe _ _ fun m' h₁' h₂' he => ?_, (hseg m).1, (hseg m).2, hg.kept _ hi,
      hclear _ (hfits.used _ hi)]
    have hs := hdist _ _ (Reg.inList_sized_seg (by omega) h₂') (Reg.inList_sized_seg h₀ h₁) he.1
    have := Reg.seg_ofs_inj hs he.2
    omega
  · rw [hreg]
    exact hnew m h₁ h₂
  · funext j
    refine (hframe x j fun m h₁ h₂ he => ?_).trans (congrFun (hclear x hx) j)
    have hi : (rp.sized n).InList ((sp.region r).seg m) := by
      rw [(hseg m).1]
      exact Reg.inList_sized_seg (by omega) h₂
    by_cases hold : rp.InList ((sp.region r).seg m)
    · exact hx' ⟨_, hold, (hg.kept _ hold).symm.trans he.1⟩
    · have := hg.new _ hi hold
      rw [he.1, hx] at this
      cases this
  · rw [Int.toNat_of_nonpos (show rp.r_pgsz - n ≤ 0 by omega), hkeep]
    exact ⟨rfl, fun _ => (sub_zero _).symm, fun _ => (sub_zero _).symm,
      fun f => by rw [if_neg (by simp [clearNew]), add_zero]; rfl⟩

/-- Nothing is lost with the page. -/
def Page.Empty (pg : Page) : Prop := pg.pte.pg_v = false ∧ pg.dbd.dbd_type ≠ .swap

/-- Pages that are not freed have nothing to give up, if none is to be missed. -/
theorem drops_self {page : ℤ → Page} {lo : ℤ} {m : ℕ} :
    Drops page lo m st st ↔ ∀ i : ℤ, 0 ≤ i → i < m → (page (lo + i)).Empty := by
  constructor
  · intro h i hi hm
    have hframe := h.frame (page (lo + i)).pte.pg_pfn
    have hblock := h.block (blockOf st.st_swplo (page (lo + i)).dbd)
    have hf := tally_eq_zero.1 (sub_eq_self.1 hframe.symm) i hi hm
    have hb := tally_eq_zero.1 (sub_eq_self.1 hblock.symm) i hi hm
    refine ⟨Bool.eq_false_of_not_eq_true fun hv => ?_, fun hs => ?_⟩
    · simp [Page.inFrame, hv] at hf
    · simp [Page.onBlock, hs] at hb
  · intro h
    refine ⟨rfl, fun f => ?_, fun b => ?_, fun f => by rw [if_neg (by omega), add_zero]⟩
    · rw [tally_eq_zero.2 fun i hi hm => ?_, sub_zero]
      simp [Page.inFrame, (h i hi hm).1]
    · rw [tally_eq_zero.2 fun i hi hm => ?_, sub_zero]
      simp [Page.onBlock, (h i hi hm).2]

/-- No pages of a stack are freed: their segments are taken for those far beyond its end. -/
theorem freeSegs_stack {rp : Reg} {i : ℤ} {c : ℕ} (hi : NSEGP - ptos n ≤ i) (hn : n < 2 ^ 15)
    (ho : rp.r_pgsz < 2 ^ 15) (hle : n ≤ rp.r_pgsz) : freeSegs rp rp.r_pgsz n i c st = st := by
  induction c generalizing i with
  | zero => rfl
  | succ c ih =>
    have hseg : freeSeg rp rp.r_pgsz n i st = st := by
      have hfar : rp.r_pgsz < stopg i := by
        simp only [ptos, stopg, NSEGP, NPGPT] at *
        omega
      have hpos : 0 < NPGPT := by decide
      rw [freeSeg, if_neg (by omega), if_neg (by omega), Int.toNat_of_nonpos (by omega)]
      rfl
    rw [freeSegs, hseg]
    exact ih (by omega)

/-- A region shrinks as it should if and only if it is no stack, or nothing is lost. -/
theorem shrink_iff (type : DbdType) (k : ℕ) (hfits : s.Fits prp.p_reg)
    (ho : 0 ≤ (s.region prp.p_reg).r_pgsz ∧ (s.region prp.p_reg).r_pgsz < 2 ^ 15)
    (hn : (s.region prp.p_reg).r_pgsz + change = n) (hn₀ : 0 ≤ n) (hc : change < 0) {i rlim : ℤ}
    (hi : i = if (s.region prp.p_reg).r_stack then NSEGP - ptos n else ptots n)
    (hrlim : rlim = if (s.region prp.p_reg).r_stack then
      NSEGP - ptots (s.region prp.p_reg).r_pgsz else ptos (s.region prp.p_reg).r_pgsz) :
    Resized s ⟨resize (ptshrink s.toSpace prp.p_reg (s.region prp.p_reg).r_pgsz n) k prp change,
        freeSegs (s.region prp.p_reg) (s.region prp.p_reg).r_pgsz n i (rlim - i).toNat s.toStore⟩
        prp.p_reg n type ↔
      ((s.region prp.p_reg).r_stack = true → ∀ m, n ≤ m → m < (s.region prp.p_reg).r_pgsz →
        (s.page (s.region prp.p_reg) m).Empty) := by
  cases hst : (s.region prp.p_reg).r_stack with
  | false =>
    rw [hst] at hi hrlim
    simp only [Bool.false_eq_true, if_false] at hi hrlim
    refine iff_of_true ?_ fun h => absurd h Bool.false_ne_true
    have hle : ptots n ≤ ptos (s.region prp.p_reg).r_pgsz := by
      simp only [ptots, ptos, NPGPT]
      omega
    have hmax : max n (stopg (ptots n)) = n := by
      simp only [stopg, ptots, NPGPT]
      omega
    obtain ⟨hd, hframe⟩ := freeSegs_spec (s := s.toStore) hst hfits.inj hn₀ (by omega) hi.ge
      (c := (rlim - i).toNat) (by omega)
    rw [hi, hmax] at hd hframe
    rw [hi]
    exact resized_of_drops hfits hn hn₀ (by omega) hc hd hframe
  | true =>
    rw [hst] at hi
    rw [if_pos rfl] at hi
    rw [freeSegs_stack hi.ge (by omega) ho.2 (by omega)]
    constructor
    · intro h _ m h₁ h₂
      have := drops_self.1 h.freed (m - n) (by omega) (by omega)
      rwa [add_sub_cancel] at this
    · intro h
      refine resized_of_drops hfits hn hn₀ (by omega) hc (drops_self.2 fun m h₁ h₂ => ?_)
        fun _ _ _ => rfl
      exact h rfl (n + m) (by omega) (by omega)

/-- A call changes the size of a region exactly, or leaves it as it is, if and only if a stack
    that shrinks loses nothing, and a growth that gets a list gets its page tables too. -/
theorem growreg_exact (hk : s.p_region[k]? = some prp) (hfits : s.Fits prp.p_reg)
    (ho : 0 ≤ (s.region prp.p_reg).r_pgsz ∧ (s.region prp.p_reg).r_pgsz < 2 ^ 15)
    (hn₀ : 0 ≤ (s.region prp.p_reg).r_pgsz + change)
    (hn₁ : (s.region prp.p_reg).r_pgsz + change < 2 ^ 15)
    (h : s.growreg k change type list pts = some (t, rv)) :
    Exact s t prp.p_reg change rv type ↔
      ((s.region prp.p_reg).r_stack = true →
        ∀ m, (s.region prp.p_reg).r_pgsz + change ≤ m → m < (s.region prp.p_reg).r_pgsz →
          (s.page (s.region prp.p_reg) m).Empty) ∧
      (0 < change →
        chkgrowth s.toSpace prp (s.region prp.p_reg).r_pgsz
          ((s.region prp.p_reg).r_pgsz + change) = false →
        ¬((s.region prp.p_reg).r_list = none ∧ list = false) →
          -1 ∉ pts.take (ptos ((s.region prp.p_reg).r_pgsz + change) -
            ptos (s.region prp.p_reg).r_pgsz).toNat) := by
  rw [Paged.growreg, hk] at h
  simp only [Option.bind_eq_bind, Option.bind_some, Option.pure_def] at h
  by_cases h0 : change = 0
  · rw [if_pos h0] at h
    obtain ⟨rfl, rfl⟩ := Prod.mk.inj (Option.some.inj h)
    exact iff_of_true (.inl ⟨rfl, h0, rfl⟩)
      ⟨fun _ m h₁ h₂ => absurd h₁ (by omega), fun hc => absurd hc (by omega)⟩
  rw [if_neg h0] at h
  by_cases hneg : change < 0
  · rw [if_pos hneg, ptexpand_of_nonpos hneg.le] at h
    obtain ⟨rfl, rfl⟩ := Prod.mk.inj (Option.some.inj h)
    have hsh := shrink_iff type k hfits ho rfl hn₀ hneg rfl rfl
    constructor
    · rintro (⟨hrv, -⟩ | ⟨-, -, hr⟩ | ⟨hrv, -⟩)
      · exact absurd hrv (by decide)
      · exact ⟨hsh.1 hr, fun hc => absurd hc (by omega)⟩
      · exact absurd hrv (by decide)
    · exact fun hcond => .inr (.inl ⟨rfl, h0, hsh.2 hcond.1⟩)
  rw [if_neg hneg] at h
  have hpos : 0 < change := by omega
  have hfirst : (s.region prp.p_reg).r_stack = true →
      ∀ m, (s.region prp.p_reg).r_pgsz + change ≤ m → m < (s.region prp.p_reg).r_pgsz →
        (s.page (s.region prp.p_reg) m).Empty := fun _ m h₁ h₂ => absurd h₁ (by omega)
  by_cases hc : chkgrowth s.toSpace prp (s.region prp.p_reg).r_pgsz
      ((s.region prp.p_reg).r_pgsz + change) = true
  · rw [if_pos hc] at h
    obtain ⟨rfl, rfl⟩ := Prod.mk.inj (Option.some.inj h)
    refine iff_of_true (.inr (.inr ⟨rfl, hpos, rfl⟩)) ⟨hfirst, fun _ hc' => ?_⟩
    rw [hc] at hc'
    cases hc'
  rw [if_neg hc] at h
  obtain ⟨⟨sp, b⟩, hexp, h⟩ := Option.bind_eq_some_iff.1 h
  obtain ⟨hnone, hsome⟩ := ptexpand_failed_iff hfits ho.1 hpos rfl hexp
  cases b with
  | true =>
    obtain ⟨rfl, rfl⟩ := Prod.mk.inj (Option.some.inj h)
    constructor
    · rintro (⟨hrv, -⟩ | ⟨hrv, -⟩ | ⟨-, -, hsame⟩)
      · exact absurd hrv (by decide)
      · exact absurd hrv (by decide)
      · exact ⟨hfirst, fun _ _ hl => absurd hsame ((hsome hl).2 rfl)⟩
    · intro hcond
      by_cases hl : (s.region prp.p_reg).r_list = none ∧ list = false
      · exact .inr (.inr ⟨rfl, hpos, (hnone hl).2⟩)
      · exact absurd ((hsome hl).1.1 rfl)
          (hcond.2 hpos (Bool.eq_false_of_not_eq_true hc) hl)
  | false =>
    obtain ⟨rfl, rfl⟩ := Prod.mk.inj (Option.some.inj h)
    refine iff_of_true (.inr (.inl ⟨rfl, h0, ?_⟩)) ⟨hfirst, fun _ _ hl hmem => ?_⟩
    · exact resized_of_grown hfits ho.1 rfl hn₁ hpos (ptexpand_exact hfits ho.1 hpos rfl hexp)
    · cases (hsome hl).1.2 hmem

end Calls

/-! ## Two calls -/

/-- A region of data without pages, that a process has attached. -/
def dataPaged : Paged where
  region _ := ⟨false, none, 0, false, 1⟩
  ptused _ := false
  p_region := [⟨0, 0, false, .data⟩]
  u_stbl _ := none
  tbl _ _ := zeroPage
  pf_use _ := 0
  phead := []
  st_ucnt _ := 0
  st_swplo _ := 0

/-- It gets a page more than fit into one page table. -/
theorem exact_dataPaged : ∃ t, dataPaged.growreg 0 513 .dzero true [2, 3] = some (t, 1) ∧
    Exact dataPaged t 0 513 1 .dzero := by
  have hnone (i : ℤ) : ¬(dataPaged.region 0).InList i := by
    simp only [dataPaged, Reg.InList, ptos, NPGPT, Bool.false_eq_true, if_false]
    omega
  have hfits : dataPaged.Fits 0 :=
    ⟨fun i hi => absurd hi (hnone i), fun i j hi => absurd hi (hnone i), fun _ _ => rfl⟩
  obtain ⟨t, ht⟩ : ∃ t, dataPaged.growreg 0 513 .dzero true [2, 3] = some (t, 1) := ⟨_, rfl⟩
  have hk : dataPaged.p_region[0]? = some ⟨0, 0, false, .data⟩ := rfl
  refine ⟨t, ht, (growreg_exact hk hfits (by decide) (by decide) (by decide) ht).2
    ⟨fun hst => absurd hst (by decide), fun _ _ _ => by decide⟩⟩

/-- A stack of two pages, both in core. -/
def stackPaged : Paged where
  region _ := ⟨false, some fun i => if i = 511 then 5 else 0, 2, true, 1⟩
  ptused x := x = 5
  p_region := [⟨0, stackva 2, false, .stack⟩]
  u_stbl seg := if seg = 511 then some ⟨false, 5⟩ else none
  tbl _ j := ⟨⟨if j = 511 then 7 else 8, 0, false, false, true⟩, ⟨.none, 0, 0⟩⟩
  pf_use _ := 1
  phead := []
  st_ucnt _ := 0
  st_swplo _ := 0

/-- It shrinks by a page, the frame of which is not freed. -/
theorem not_growreg_exact : ¬∀ (s t : Paged) (k : ℕ) (prp : Preg) (change : ℤ) (type : DbdType)
    (list : Bool) (pts : List ℤ) (rv : ℤ), s.p_region[k]? = some prp → s.Fits prp.p_reg →
    0 ≤ (s.region prp.p_reg).r_pgsz ∧ (s.region prp.p_reg).r_pgsz < 2 ^ 15 →
    0 ≤ (s.region prp.p_reg).r_pgsz + change → (s.region prp.p_reg).r_pgsz + change < 2 ^ 15 →
    s.growreg k change type list pts = some (t, rv) → Exact s t prp.p_reg change rv type := by
  intro h
  have hin (i : ℤ) : (stackPaged.region 0).InList i ↔ i = 511 := by
    simp only [stackPaged, Reg.InList, ptos, NPGPT, NSEGP, if_true]
    omega
  have hfits : stackPaged.Fits 0 := by
    refine ⟨fun i hi => ?_, fun i j hi hj _ => ?_, fun i hi => ?_⟩
    · rw [(hin i).1 hi]
      rfl
    · rw [(hin i).1 hi, (hin j).1 hj]
    · exact if_neg fun hi' => hi ((hin i).2 hi')
  obtain ⟨t, ht, huse⟩ : ∃ t, stackPaged.growreg 0 (-1) .dzero true [] = some (t, 1) ∧
      t.pf_use 8 = 1 := ⟨_, rfl, rfl⟩
  rcases h stackPaged t 0 ⟨0, stackva 2, false, .stack⟩ (-1) .dzero true [] 1 rfl hfits (by decide)
    (by decide) (by decide) ht with ⟨hrv, -⟩ | ⟨-, -, hr⟩ | ⟨hrv, -⟩
  · exact absurd hrv (by decide)
  · have hfreed := hr.freed.frame 8
    rw [huse] at hfreed
    exact absurd hfreed (by decide)
  · exact absurd hrv (by decide)

end AuxKernel.Region
