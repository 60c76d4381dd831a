import AuxKernel.Region.Basic

/-!
# Loading the segment table

What the loops over the segment table do: the entries that `loadstbl` and `resize`
write for a region, and those that `chkgrowth` has looked at. What an attached
region has in the table is a piece of it (`Reg.piece`).
-/

namespace AuxKernel.Region

/-- The first segment that an attached region covers. -/
def Reg.first (rp : Reg) (prp : Preg) : ℤ :=
  if rp.r_stack then NSEGP - ptos rp.r_pgsz else snum prp.p_regva

/-- The segments it covers. -/
def Reg.Covers (rp : Reg) (prp : Preg) (seg : ℤ) : Prop :=
  rp.first prp ≤ seg ∧ seg < rp.first prp + ptos rp.r_pgsz

instance (rp : Reg) (prp : Preg) (seg : ℤ) : Decidable (rp.Covers prp seg) :=
  inferInstanceAs (Decidable (_ ∧ _))

/-- The place in its list of the page table for a segment. -/
def Reg.place (rp : Reg) (prp : Preg) (seg : ℤ) : ℤ :=
  if rp.r_stack then seg else seg - snum prp.p_regva

/-- The entry for a segment. -/
def Reg.entry (rp : Reg) (prp : Preg) (seg : ℤ) : Ste := ⟨prp.rdonly, rp.pt (rp.place prp seg)⟩

/-! ## The loops -/

theorem clearStes_apply (u : ℤ → Option Ste) (st : ℤ) (n : ℕ) (seg : ℤ) :
    clearStes u st n seg = if st ≤ seg ∧ seg < st + n then none else u seg := by
  induction n generalizing u st with
  | zero => rw [clearStes, if_neg (by omega)]
  | succ n ih =>
    rw [clearStes, ih, Function.update_apply]
    split_ifs <;> first | rfl | omega

theorem writeStes_apply (rdonly : Bool) (rp : Reg) (u : ℤ → Option Ste) (st lp : ℤ) (n : ℕ)
    (seg : ℤ) : writeStes rdonly rp u st lp n seg =
      if st ≤ seg ∧ seg < st + n then some ⟨rdonly, rp.pt (lp + (seg - st))⟩ else u seg := by
  induction n generalizing u st lp with
  | zero => rw [writeStes, if_neg (by omega)]
  | succ n ih =>
    rw [writeStes, ih, Function.update_apply,
      show lp + 1 + (seg - (st + 1)) = lp + (seg - st) by omega]
    by_cases hseg : seg = st
    · rw [if_neg (by omega), if_pos hseg, if_pos (by omega), hseg, sub_self, add_zero]
    · rw [if_neg hseg]
      exact if_congr (by omega) rfl rfl

theorem eq_none_of_anyValid {u : ℤ → Option Ste} {st : ℤ} {n : ℕ} (h : anyValid u st n = false)
    {seg : ℤ} (h₁ : st ≤ seg) (h₂ : seg < st + n) : u seg = none := by
  induction n generalizing st with
  | zero => omega
  | succ n ih =>
    rw [anyValid, Bool.or_eq_false_iff] at h
    by_cases hseg : seg = st
    · rw [hseg]
      exact Option.isSome_eq_false_iff.1 h.1 |> Option.isNone_iff_eq_none.1
    · exact ih h.2 (by omega) (by omega)

/-! ## Loading the table -/

/-- What an attached region has in the table. -/
def Reg.piece (rp : Reg) (prp : Preg) (seg : ℤ) : Option Ste :=
  if rp.Covers prp seg then some (rp.entry prp seg) else none

theorem Reg.piece_eq_none {rp : Reg} {prp : Preg} {seg : ℤ} :
    rp.piece prp seg = none ↔ ¬rp.Covers prp seg := by
  rw [Reg.piece]
  split_ifs with h <;> simp [h]

theorem Reg.or_piece {rp : Reg} {prp : Preg} {seg : ℤ} {o : Option Ste} :
    (rp.piece prp seg).or o = if rp.Covers prp seg then some (rp.entry prp seg) else o := by
  rw [Reg.piece]
  split_ifs <;> rfl

/-- A region with another size. -/
abbrev Reg.sized (rp : Reg) (n : ℤ) : Reg := { rp with r_pgsz := n }

theorem ptos_nonneg {n : ℤ} (h : 0 ≤ n) : 0 ≤ ptos n := by
  simp only [ptos, NPGPT]
  omega

theorem ptos_mono {m n : ℤ} (h : m ≤ n) : ptos m ≤ ptos n := by
  simp only [ptos, NPGPT]
  omega

theorem Reg.Covers.sized {rp : Reg} {prp : Preg} {seg n : ℤ} (h : rp.Covers prp seg)
    (hn₀ : 0 ≤ rp.r_pgsz) (hn : rp.r_pgsz ≤ n) : (rp.sized n).Covers prp seg := by
  have := ptos_nonneg hn₀
  have := ptos_mono hn
  simp only [Reg.Covers, Reg.first] at h ⊢
  split_ifs at h ⊢ <;> omega

theorem loadstbl_of_nonneg {s : Space} {prp : Preg} {change : ℤ} (hc : 0 ≤ change)
    (hn : 0 ≤ (s.region prp.p_reg).r_pgsz + change) :
    loadstbl s prp change = { s with
      u_stbl := fun seg =>
        (((s.region prp.p_reg).sized ((s.region prp.p_reg).r_pgsz + change)).piece prp seg).or
          (s.u_stbl seg) } := by
  have hp := ptos_nonneg hn
  rw [loadstbl, if_neg (not_lt.2 hc)]
  cases hst : (s.region prp.p_reg).r_stack <;>
    simp only [if_true, if_false, Bool.false_eq_true, Space.mk.injEq, true_and] <;> funext seg <;>
    simp only [writeStes_apply, Reg.or_piece, Reg.Covers, Reg.first, Reg.entry, Reg.place, hst,
      if_true, if_false, Bool.false_eq_true]
  · refine if_congr (by omega) ?_ rfl
    rw [zero_add]
    rfl
  · refine if_congr (by omega) ?_ rfl
    rw [add_sub_cancel]
    rfl

theorem region_loadstbl {s : Space} {prp : Preg} {change : ℤ} :
    (loadstbl s prp change).region = s.region := by
  rw [loadstbl]
  split_ifs <;> rfl

theorem loadstbl_of_neg {s : Space} {prp : Preg} {change : ℤ} (hc : change < 0)
    (hst : (s.region prp.p_reg).r_stack = false)
    (hn : 0 ≤ (s.region prp.p_reg).r_pgsz + change) :
    loadstbl s prp change = { s with
      u_stbl := fun seg =>
        if (s.region prp.p_reg).Covers prp seg ∧
            ¬((s.region prp.p_reg).sized ((s.region prp.p_reg).r_pgsz + change)).Covers prp seg
          then none else s.u_stbl seg } := by
  have hp := ptos_nonneg hn
  have hm := ptos_mono (show (s.region prp.p_reg).r_pgsz + change ≤ (s.region prp.p_reg).r_pgsz by
    omega)
  rw [loadstbl, if_pos hc]
  simp only [hst, if_false, Bool.false_eq_true, Space.mk.injEq, true_and]
  funext seg
  simp only [clearStes_apply, Reg.Covers, Reg.first, hst, if_false, Bool.false_eq_true]
  exact if_congr (by omega) rfl rfl

/-- The entries of a stack that shrinks are left as they are. -/
theorem loadstbl_stack {s : Space} {prp : Preg} {change : ℤ} (hc : change < 0)
    (hst : (s.region prp.p_reg).r_stack = true)
    (hn : 0 ≤ (s.region prp.p_reg).r_pgsz + change) : loadstbl s prp change = s := by
  have hp := ptos_nonneg hn
  have hp' := ptos_nonneg (show 0 ≤ (s.region prp.p_reg).r_pgsz by omega)
  rw [loadstbl, if_pos hc]
  simp only [hst, if_true]
  rw [Int.toNat_of_nonpos (by omega)]
  rfl

/-! ## Checking a growth -/

/-- Growth that is not illegal stays within the address space, and takes segments that
    are free, except that a stack may take the one that `chkgrowth` does not look at. -/
theorem of_chkgrowth {s : Space} {prp : Preg} {osize nsize : ℤ} {rp : Reg}
    (hrp : s.region prp.p_reg = rp) (h : chkgrowth s prp osize nsize = false) (ho : 0 ≤ osize)
    (hn : osize ≤ nsize) :
    (rp.r_stack = false → btotp (prp.p_regva + ptob nsize) < stopg NSEGP - 1) ∧
    ∀ seg, (rp.sized nsize).Covers prp seg → ¬(rp.sized osize).Covers prp seg →
      (rp.r_stack = true → osize % NPGPT = 0 → osize < nsize → seg ≠ NSEGP - 1 - ptots osize) →
      s.u_stbl seg = none := by
  have hcov {seg : ℤ} (hseg : (rp.sized nsize).Covers prp seg)
      (hseg' : ¬(rp.sized osize).Covers prp seg) : 0 < nsize := by
    simp only [Reg.Covers, ptos, NPGPT] at hseg
    omega
  simp only [chkgrowth, hrp] at h
  cases hst : rp.r_stack with
  | false =>
    simp only [hst, Bool.false_and, Bool.not_false, Bool.true_and, decide_eq_true_eq,
      Bool.false_eq_true, if_false] at h
    by_cases hb : btotp (prp.p_regva + ptob nsize) ≥ stopg NSEGP - 1
    · simp [hb] at h
    · rw [if_neg hb] at h
      refine ⟨fun _ => not_le.1 hb, fun seg hseg hseg' _ => ?_⟩
      have := ptos_mono hn
      rw [if_neg (by omega), if_neg (by have := hcov hseg hseg'; omega)] at h
      simp only [Reg.Covers, Reg.first, hst, Bool.false_eq_true, if_false] at hseg hseg'
      exact eq_none_of_anyValid h (by omega) (by omega)
  | true =>
    simp only [hst, Bool.not_true, Bool.false_and, Bool.true_and, decide_eq_true_eq,
      Bool.false_eq_true, if_false, if_true] at h
    refine ⟨nofun, fun seg hseg hseg' hne => ?_⟩
    by_cases hb : ptos nsize > NSEGP
    · simp [hb] at h
    · rw [if_neg hb] at h
      rw [if_neg (by simp only [ptots, NPGPT]; omega),
        if_neg (by have := hcov hseg hseg'; omega)] at h
      simp only [Reg.Covers, Reg.first, hst, if_true] at hseg hseg'
      replace hne := hne rfl
      simp only [ptos, ptots, NPGPT] at h hseg hseg' hne
      exact eq_none_of_anyValid h (by omega) (by omega)

/-! ## Resizing a region -/

section Resize

variable {s : Space} {rp : Reg} {prp : Preg} {k : ℕ} {change n : ℤ}

/-- An attached region with its attach point, if it is a stack, for `n` pages. -/
def moved (rp : Reg) (prp : Preg) (n : ℤ) : Preg :=
  if rp.r_stack then { prp with p_regva := stackva n } else prp

theorem moved_reg : (moved rp prp n).p_reg = prp.p_reg := by
  rw [moved]
  split_ifs <;> rfl

/-- Where a stack is attached does not matter for the table. -/
theorem piece_moved {rp' : Reg} (h : rp'.r_stack = rp.r_stack) :
    rp'.piece (moved rp prp n) = rp'.piece prp := by
  rw [moved]
  split_ifs with hst
  · funext seg
    simp only [Reg.piece, Reg.Covers, Reg.first, Reg.entry, Reg.place, h, hst, if_true]
  · rfl

theorem resize_eq (hn : (s.region prp.p_reg).r_pgsz + change = n) (hn₀ : 0 ≤ n) (hn₁ : n < 2 ^ 15) :
    resize s k prp change = { s.setReg prp.p_reg ((s.region prp.p_reg).sized n) with
      p_region := s.p_region.set k (moved (s.region prp.p_reg) prp n)
      u_stbl := (loadstbl s (moved (s.region prp.p_reg) prp n) change).u_stbl } := by
  have hload (q : Preg) (l : List Preg) : loadstbl { s with p_region := l } q change =
      { s with p_region := l, u_stbl := (loadstbl s q change).u_stbl } := by
    rw [loadstbl, loadstbl]
    split_ifs <;> rfl
  show (fun t : Space => t.setReg (moved (s.region prp.p_reg) prp _).p_reg
    { t.region (moved (s.region prp.p_reg) prp _).p_reg with r_pgsz := toShort _ })
    (loadstbl _ (moved (s.region prp.p_reg) prp _) change) = _
  rw [hn, hload, moved_reg, toShort_of_mem (by omega) hn₁]
  rfl

/-- A region that grows is loaded with its new size. -/
theorem resize_of_nonneg (hc : 0 ≤ change) (hn : (s.region prp.p_reg).r_pgsz + change = n)
    (hn₀ : 0 ≤ n) (hn₁ : n < 2 ^ 15) :
    resize s k prp change = { s.setReg prp.p_reg ((s.region prp.p_reg).sized n) with
      p_region := s.p_region.set k (moved (s.region prp.p_reg) prp n)
      u_stbl := fun seg =>
        (((s.region prp.p_reg).sized n).piece prp seg).or (s.u_stbl seg) } := by
  rw [resize_eq hn hn₀ hn₁, loadstbl_of_nonneg hc (by rw [moved_reg, hn]; exact hn₀)]
  have hpiece : ((s.region prp.p_reg).sized n).piece (moved (s.region prp.p_reg) prp n) =
      ((s.region prp.p_reg).sized n).piece prp := piece_moved rfl
  simp only [moved_reg, hn, hpiece]

/-- A region that shrinks loses the entries for the segments it gives up. -/
theorem resize_of_neg (hst : (s.region prp.p_reg).r_stack = false) (hc : change < 0)
    (hn : (s.region prp.p_reg).r_pgsz + change = n) (hn₀ : 0 ≤ n) (hn₁ : n < 2 ^ 15) :
    resize s k prp change = { s.setReg prp.p_reg ((s.region prp.p_reg).sized n) with
      p_region := s.p_region.set k prp
      u_stbl := fun seg => if (s.region prp.p_reg).Covers prp seg ∧
          ¬((s.region prp.p_reg).sized n).Covers prp seg then none else s.u_stbl seg } := by
  have hm : moved (s.region prp.p_reg) prp n = prp := by rw [moved, hst]; rfl
  rw [resize_eq hn hn₀ hn₁, hm, loadstbl_of_neg hc hst (by rw [hn]; exact hn₀), hn]

/-- A stack that shrinks keeps its entries. -/
theorem resize_stack (hst : (s.region prp.p_reg).r_stack = true) (hc : change < 0)
    (hn : (s.region prp.p_reg).r_pgsz + change = n) (hn₀ : 0 ≤ n) (hn₁ : n < 2 ^ 15) :
    resize s k prp change = { s.setReg prp.p_reg ((s.region prp.p_reg).sized n) with
      p_region := s.p_region.set k (moved (s.region prp.p_reg) prp n) } := by
  rw [resize_eq hn hn₀ hn₁, loadstbl_stack hc (by rw [moved_reg, hst])
    (by rw [moved_reg, hn]; exact hn₀)]
  rfl

end Resize

end AuxKernel.Region
