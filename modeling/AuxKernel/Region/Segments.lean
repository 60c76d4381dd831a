import AuxKernel.Region.PageTables
import AuxKernel.Tiling

/-!
# The segment table

Whether the valid entries of the segment table are those of the attached regions
(`Consistent`).

For regions that grow upwards they are. For a stack, three computations of the
segments it covers are off. `loadstbl` starts at `NSEGP + ptos(size)` where the
stack begins at `NSEGP - ptos(size)`, so that a stack that shrinks leaves its
entries, for page tables already free (`not_consistent`). `detachreg` and
`chkgrowth` take the truncated size where the rounded one is meant: where the size
is a multiple of a page table, `detachreg` leaves the entry of the last segment,
and `chkgrowth` does not look at the first segment the stack grows into. Runs that
do none of this (`Act.Clean`) keep the table consistent (`consistent_of_clean`).
-/

namespace AuxKernel.Region

/-- The valid entries are those of the attached regions, they lie in the table, and
    their page tables are in use. -/
structure Consistent (s : Space) : Prop where
  entry : ∀ seg e, s.u_stbl seg = some e ↔ ∃ prp ∈ s.p_region,
    (s.region prp.p_reg).Covers prp seg ∧ (s.region prp.p_reg).entry prp seg = e
  inTable : ∀ seg e, s.u_stbl seg = some e → 0 ≤ seg ∧ seg < NSEGP
  used : ∀ seg e, s.u_stbl seg = some e → s.ptused e.pt = true

/-- What the callers see to: addresses are of 32 bits; a region that has pages, or is
    attached already, is attached as a stack if and only if it is one; and no region
    shrinks below nothing. -/
def Act.Legal (s : Space) : Act → Prop
  | .attachreg r vaddr type _ => 0 ≤ vaddr ∧ vaddr < 2 ^ 32 ∧
      ((s.region r).r_stack = decide (type = .stack) ∨
        (s.region r).r_pgsz = 0 ∧ (s.region r).r_refcnt = 0)
  | .growreg k change _ _ => ∀ prp ∈ s.p_region[k]?, 0 ≤ (s.region prp.p_reg).r_pgsz + change
  | .detachreg _ => True

instance (s : Space) (a : Act) : Decidable (a.Legal s) :=
  match a with
  | .attachreg _ _ _ _ => inferInstanceAs (Decidable (_ ∧ _))
  | .growreg k _ _ _ => inferInstanceAs (Decidable (∀ prp ∈ s.p_region[k]?, _))
  | .detachreg _ => instDecidableTrue

/-- The actions that do not come to what is off. No address wraps and the size fits
    its field; a region that changes its size is attached once; a stack takes no
    segment that `chkgrowth` does not look at from another region, does not shrink by
    a segment, and is not detached when its size is a multiple of a page table. -/
def Act.Clean (s : Space) : Act → Prop
  | .attachreg r vaddr type _ =>
      if type = .stack then (s.region r).r_pgsz = 0 ∨ s.u_stbl (NSEGP - 1) = none
      else vaddr + ptob (s.region r).r_pgsz < 2 ^ 32
  | .growreg k change _ _ => ∀ prp ∈ s.p_region[k]?,
      let osize := (s.region prp.p_reg).r_pgsz
      osize + change < 2 ^ 15 ∧
      (∀ j prp', s.p_region[j]? = some prp' → prp'.p_reg = prp.p_reg → j = k) ∧
      ((s.region prp.p_reg).r_stack = true →
        (change < 0 → ptos (osize + change) = ptos osize) ∧
        (0 < change → osize % NPGPT = 0 → s.u_stbl (NSEGP - 1 - ptots osize) = none))
  | .detachreg k => ∀ prp ∈ s.p_region[k]?, (s.region prp.p_reg).r_stack = true →
      (s.region prp.p_reg).r_pgsz = 0 ∨ (s.region prp.p_reg).r_pgsz % NPGPT ≠ 0

/-! ## The invariant -/

/-- What the attached regions have in the table. -/
def Space.pieces (s : Space) : List (ℤ → Option Ste) :=
  s.p_region.map fun prp => (s.region prp.p_reg).piece prp

/-- The invariant: page tables are owned; the table is made of what the attached
    regions have in it; they are counted by their regions, and lie in the address
    space. -/
structure Inv (s : Space) : Prop extends s.Owns where
  tiles : Tiles s.u_stbl s.pieces
  refs : ∀ r, ((s.p_region.map Preg.p_reg).count r : ℤ) ≤ (s.region r).r_refcnt
  attached : ∀ prp ∈ s.p_region, (s.region prp.p_reg).r_stack = false →
    0 ≤ prp.p_regva ∧ prp.p_regva % (NPGPT * PAGESIZE) = 0 ∧
      prp.p_regva + ptob (s.region prp.p_reg).r_pgsz < 2 ^ 31

section Inv

variable {s s' : Space} {rp : Reg} {prp : Preg} {seg : ℤ}

theorem Reg.inTable (h : rp.Covers prp seg) (hn : 0 ≤ rp.r_pgsz) (hn' : rp.r_pgsz < 2 ^ 15)
    (hva : rp.r_stack = false → 0 ≤ prp.p_regva ∧ prp.p_regva % (NPGPT * PAGESIZE) = 0 ∧
      prp.p_regva + ptob rp.r_pgsz < 2 ^ 31) : 0 ≤ seg ∧ seg < NSEGP := by
  cases hst : rp.r_stack with
  | false =>
    replace hva := hva hst
    simp only [Reg.Covers, Reg.first, hst, Bool.false_eq_true, if_false, snum, ptos, ptob, NSEGP,
      NPGPT, PAGESIZE] at *
    omega
  | true =>
    simp only [Reg.Covers, Reg.first, hst, if_true, ptos, NSEGP, NPGPT] at *
    omega

theorem Inv.entry (h : Inv s) (e : Ste) : s.u_stbl seg = some e ↔ ∃ prp ∈ s.p_region,
    (s.region prp.p_reg).Covers prp seg ∧ (s.region prp.p_reg).entry prp seg = e := by
  rw [h.tiles.entry, Space.pieces]
  simp only [List.mem_map, exists_exists_and_eq_and]
  refine exists_congr fun prp => and_congr_right fun _ => ?_
  rw [Reg.piece]
  split_ifs with hc <;> simp [hc]

theorem Inv.consistent (h : Inv s) : Consistent s where
  entry seg e := h.entry e
  inTable seg e he := by
    obtain ⟨prp, hprp, hc, -⟩ := (h.entry e).1 he
    exact Reg.inTable hc (h.size _).1 (h.size _).2 (h.attached prp hprp)
  used seg e he := by
    obtain ⟨prp, hprp, hc, rfl⟩ := (h.entry e).1 he
    exact h.used _ _ (Reg.inList_place hc)

/-- The invariant does not depend on more of the regions than the process sees. -/
theorem Inv.same (h : Inv s) (how : s'.Owns) (hp : s'.p_region = s.p_region)
    (hu : s'.u_stbl = s.u_stbl) (hc : ∀ r, (s.region r).r_refcnt ≤ (s'.region r).r_refcnt)
    (hreg : ∀ prp ∈ s.p_region, (s.region prp.p_reg).Same (s'.region prp.p_reg)) : Inv s' where
  toOwns := how
  tiles := by
    have hpieces : s'.pieces = s.pieces := by
      rw [Space.pieces, Space.pieces, hp]
      exact List.map_congr_left fun prp hprp => (hreg prp hprp).piece
    rw [hu, hpieces]
    exact h.tiles
  refs r := by
    rw [hp]
    exact (h.refs r).trans (hc r)
  attached prp hprp hst := by
    rw [hp] at hprp
    rw [(hreg prp hprp).r_stack] at hst
    rw [(hreg prp hprp).r_pgsz]
    exact h.attached prp hprp hst

theorem Inv.ne_of_refcnt (h : Inv s) {r : ℕ} (hc : (s.region r).r_refcnt = 0)
    (hprp : prp ∈ s.p_region) : prp.p_reg ≠ r := by
  intro he
  have hpos := List.count_pos_iff.2 (he ▸ List.mem_map_of_mem (f := Preg.p_reg) hprp)
  have := h.refs r
  omega

/-- A region without pages and not attached becomes a stack, or none. -/
theorem Inv.setStack (h : Inv s) {r : ℕ} {b : Bool} (hb : (s.region r).r_stack = b ∨
    (s.region r).r_pgsz = 0 ∧ (s.region r).r_refcnt = 0) :
    Inv (s.setReg r { s.region r with r_stack := b }) := by
  rcases hb with rfl | ⟨hn, hc⟩
  · rwa [show s.setReg r { s.region r with r_stack := (s.region r).r_stack } = s by
      rw [Space.setReg,
        show Function.update s.region r _ = s.region from Function.update_eq_self ..]]
  · have hnone {i : ℤ} : ¬({ s.region r with r_stack := b } : Reg).InList i := by
      rw [Reg.InList, hn]
      simp only [ptos, NPGPT]
      split_ifs <;> omega
    refine h.same (h.toOwns.sub ?_ ?_ ?_) rfl rfl ?_ fun prp hprp => ?_
    · exact forall_setReg (P := fun _ rp => 0 ≤ rp.r_pgsz ∧ rp.r_pgsz < 2 ^ 15) (h.size r)
        fun r' _ => h.size r'
    · exact forall_setReg (P := fun _ rp => 0 ≤ rp.r_refcnt) (h.refcnt r) fun r' _ => h.refcnt r'
    · exact forall_setReg (P := fun r' rp => ∀ i, rp.InList i → (s.region r').InList i ∧
          rp.pt i = (s.region r').pt i ∧ s.ptused ((s.region r').pt i) = true)
        (fun i hi => absurd hi hnone) fun r' _ i hi => ⟨hi, rfl, h.used r' i hi⟩
    · exact forall_setReg (P := fun r' rp => (s.region r').r_refcnt ≤ rp.r_refcnt) le_rfl
        fun _ _ => le_rfl
    · rw [region_setReg_of_ne (h.ne_of_refcnt hc hprp)]
      exact .refl

/-- A region whose growth from nothing is legal is attached. -/
theorem Inv.attach (h : Inv s) (hva : 0 ≤ prp.p_regva) (hal : prp.p_regva % (NPGPT * PAGESIZE) = 0)
    (hrp : s.region prp.p_reg = rp) (hchk : chkgrowth s prp 0 rp.r_pgsz = false)
    (hwrap : rp.r_stack = false → prp.p_regva + ptob rp.r_pgsz < 2 ^ 32)
    (hlast : rp.r_stack = true → rp.r_pgsz = 0 ∨ s.u_stbl (NSEGP - 1) = none) :
    Inv { (loadstbl s prp 0).setReg prp.p_reg { rp with r_refcnt := rp.r_refcnt + 1 } with
      p_region := s.p_region ++ [prp] } := by
  obtain ⟨hn, hn'⟩ := hrp ▸ h.size prp.p_reg
  obtain ⟨hbound, hfree⟩ := of_chkgrowth hrp hchk le_rfl hn
  have hload := @loadstbl_of_nonneg s prp 0 le_rfl (by rw [hrp, add_zero]; exact hn)
  rw [hrp, add_zero] at hload
  rw [hload]
  have hsame : ∀ r', (s.region r').Same
      ((s.setReg prp.p_reg { rp with r_refcnt := rp.r_refcnt + 1 }).region r') :=
    forall_setReg (P := fun r' rp' => (s.region r').Same rp')
      (by rw [hrp]; exact ⟨rfl, rfl, fun _ _ => rfl⟩) fun _ _ => .refl
  refine ⟨h.toOwns.sub ?_ ?_ ?_, ?_, ?_, ?_⟩
  · exact fun r => (hsame r).r_pgsz ▸ h.size r
  · exact forall_setReg (P := fun _ rp => 0 ≤ rp.r_refcnt)
      (show 0 ≤ rp.r_refcnt + 1 by have := hrp ▸ h.refcnt prp.p_reg; omega) fun r' _ => h.refcnt r'
  · intro r i hi
    replace hi := (hsame r).inList.1 hi
    exact ⟨hi, (hsame r).pt i hi, h.used r i hi⟩
  · show Tiles _ ((s.p_region ++ [prp]).map _)
    rw [List.map_append, List.map_singleton]
    have hold : s.p_region.map (fun p : Preg => Reg.piece ((s.setReg prp.p_reg
        { rp with r_refcnt := rp.r_refcnt + 1 }).region p.p_reg) p) = s.pieces :=
      List.map_congr_left fun p _ => (hsame p.p_reg).piece
    have hnew := @Reg.Same.piece _ prp _ (hsame prp.p_reg)
    rw [hrp] at hnew
    refine (congrArg₂ (fun l f => Tiles _ (l ++ [f])) hold hnew).mpr
      (h.tiles.append (fun seg hseg => ?_) fun seg => rfl)
    have hcov := not_not.1 (mt Reg.piece_eq_none.2 hseg)
    by_cases hlst : rp.r_stack = true ∧ seg = NSEGP - 1
    · rcases hlast hlst.1 with hn0 | hlast
      · simp only [Reg.Covers, hn0, ptos, NPGPT] at hcov
        omega
      · rw [hlst.2, hlast]
    · refine hfree seg hcov (by simp only [Reg.Covers, ptos, NPGPT]; omega) fun hst _ _ he => ?_
      exact hlst ⟨hst, by simpa [ptots, NPGPT] using he⟩
  · refine forall_setReg (s := s) (P := fun r rp' =>
      (((s.p_region ++ [prp]).map Preg.p_reg).count r : ℤ) ≤ rp'.r_refcnt) ?_ fun r hr => ?_
    · have := hrp ▸ h.refs prp.p_reg
      rw [List.map_append, List.count_append, List.map_singleton, List.count_singleton_self]
      show _ ≤ rp.r_refcnt + 1
      omega
    · have hzero : [prp.p_reg].count r = 0 := List.count_eq_zero.2 (by simpa using hr)
      rw [List.map_append, List.count_append, List.map_singleton, hzero, add_zero]
      exact h.refs r
  · intro p hp hst
    replace hst := (hsame p.p_reg).r_stack.symm.trans hst
    refine (congrArg (fun n => _ ∧ _ ∧ p.p_regva + ptob n < 2 ^ 31) (hsame p.p_reg).r_pgsz).mpr ?_
    rcases List.mem_append.1 hp with hp | hp
    · exact h.attached p hp hst
    · obtain rfl := List.mem_singleton.1 hp
      rw [hrp] at hst ⊢
      refine ⟨hva, hal, ?_⟩
      have := hbound hst
      have := hwrap hst
      simp only [btotp, stopg, ptob, NSEGP, NPGPT, PAGESIZE] at *
      omega

/-- The region `k`, attached nowhere else, is changed: what it has in the table is
    taken out, and what it has now is put in. -/
theorem Inv.change {k : ℕ} {prp' : Preg} (h : Inv s) (how : s'.Owns)
    (hk : s.p_region[k]? = some prp)
    (huniq : ∀ j q, s.p_region[j]? = some q → q.p_reg = prp.p_reg → j = k)
    (hp : s'.p_region = s.p_region.set k prp') (hp' : prp'.p_reg = prp.p_reg)
    (hother : ∀ r, r ≠ prp.p_reg → s'.region r = s.region r)
    (hcnt : (s'.region prp.p_reg).r_refcnt = (s.region prp.p_reg).r_refcnt)
    (hfree : ∀ seg, (s'.region prp.p_reg).piece prp' seg ≠ none →
      (s.region prp.p_reg).piece prp seg = none → s.u_stbl seg = none)
    (hu : ∀ seg, s'.u_stbl seg = ((s'.region prp.p_reg).piece prp' seg).or
      (if (s.region prp.p_reg).piece prp seg = none then s.u_stbl seg else none))
    (hatt : (s'.region prp.p_reg).r_stack = false → 0 ≤ prp'.p_regva ∧
      prp'.p_regva % (NPGPT * PAGESIZE) = 0 ∧
      prp'.p_regva + ptob (s'.region prp.p_reg).r_pgsz < 2 ^ 31) : Inv s' where
  toOwns := how
  tiles := by
    have hpieces : s'.pieces = s.pieces.set k ((s'.region prp.p_reg).piece prp') := by
      rw [Space.pieces, hp, List.map_set, hp']
      refine List.ext_getElem? fun j => ?_
      by_cases hj : j = k
      · rw [hj, List.getElem?_set, List.getElem?_set]
        simp [Space.pieces]
      · rw [List.getElem?_set_ne (Ne.symm hj), List.getElem?_set_ne (Ne.symm hj), Space.pieces,
          List.getElem?_map, List.getElem?_map]
        cases hq : s.p_region[j]? with
        | none => rfl
        | some q =>
          rw [Option.map_some, Option.map_some, hother _ fun he => hj (huniq j q hq he)]
    rw [hpieces]
    exact h.tiles.set (by rw [Space.pieces, List.getElem?_map, hk]; rfl) hfree hu
  refs r := by
    have hmap : s'.p_region.map Preg.p_reg = s.p_region.map Preg.p_reg := by
      obtain ⟨hlt, rfl⟩ := List.getElem?_eq_some_iff.1 hk
      rw [hp, List.map_set, hp', ← List.getElem_map Preg.p_reg (h := by simpa using hlt),
        List.set_getElem_self]
    rw [hmap]
    by_cases hr : r = prp.p_reg
    · rw [hr, hcnt]
      exact h.refs _
    · rw [hother r hr]
      exact h.refs r
  attached q hq hst := by
    rw [hp] at hq
    obtain ⟨j, hj⟩ := List.mem_iff_getElem?.1 hq
    by_cases hjk : j = k
    · obtain ⟨hlt, -⟩ := List.getElem?_eq_some_iff.1 hk
      rw [hjk, List.getElem?_set_self hlt] at hj
      obtain rfl := Option.some.inj hj
      rw [hp'] at hst ⊢
      exact hatt hst
    · rw [List.getElem?_set_ne (Ne.symm hjk)] at hj
      rw [hother _ fun he => hjk (huniq j q hj he)] at hst ⊢
      exact h.attached q (List.mem_of_getElem? hj) hst

/-! ## Growing and shrinking -/

section Resize

variable {t : Space} {r : ℕ} {change n : ℤ} {list : Bool} {pts : List ℤ}

/-- A failed expansion keeps the invariant. -/
theorem Inv.expandFailed (h : Inv s) (hc : 0 < change) (hn : (s.region r).r_pgsz + change = n)
    (hx : ptexpand s r change list pts = some (t, true)) : Inv t := by
  obtain ⟨hframe, hkeep⟩ := ptexpand_failed hc hn hx
  have hsame (r' : ℕ) : (s.region r').Same (t.region r') := by
    by_cases hr : r' = r
    · rw [hr]
      exact ⟨by rw [hframe.reg], by rw [hframe.reg], fun i hi => hframe.pt i (Reg.not_new hi)⟩
    · rw [hframe.other r' hr]
      exact .refl
  have hcnt (r' : ℕ) : (t.region r').r_refcnt = (s.region r').r_refcnt := by
    by_cases hr : r' = r
    · rw [hr, hframe.reg]
    · rw [hframe.other r' hr]
  refine h.same (h.toOwns.sub (fun r' => ?_) (fun r' => ?_) fun r' i hi => ?_) hframe.p_region
    hframe.u_stbl (fun r' => (hcnt r').ge) fun prp _ => hsame _
  · rw [(hsame r').r_pgsz]
    exact h.size r'
  · rw [hcnt]
    exact h.refcnt r'
  · replace hi := (hsame r').inList.1 hi
    exact ⟨hi, (hsame r').pt i hi, hkeep _ (h.used r' i hi)⟩

/-- A region that grows into segments that are free keeps the invariant. -/
theorem Inv.grow {k : ℕ} (h : Inv s) (hk : s.p_region[k]? = some prp)
    (hrp : s.region prp.p_reg = rp) (hc : 0 < change) (hn : rp.r_pgsz + change = n)
    (hn₁ : n < 2 ^ 15) (huniq : ∀ j q, s.p_region[j]? = some q → q.p_reg = prp.p_reg → j = k)
    (hchk : chkgrowth s prp rp.r_pgsz n = false)
    (hlast : rp.r_stack = true → rp.r_pgsz % NPGPT = 0 →
      s.u_stbl (NSEGP - 1 - ptots rp.r_pgsz) = none)
    (hx : ptexpand s prp.p_reg change list pts = some (t, false)) :
    Inv (resize t k prp change) := by
  obtain ⟨hn₀, -⟩ := hrp ▸ h.size prp.p_reg
  obtain ⟨hbound, hfree⟩ := of_chkgrowth hrp hchk hn₀ (by omega)
  obtain ⟨hframe, hkeep, hnew, hinj⟩ := ptexpand_ok hc (hrp ▸ hn) hx
  have hreg := hrp ▸ hframe.reg
  have hsize : (t.region prp.p_reg).r_pgsz = rp.r_pgsz := by rw [hreg]
  have hstk : (t.region prp.p_reg).r_stack = rp.r_stack := by rw [hreg]
  have hcovers (seg : ℤ) : ((t.region prp.p_reg).sized n).Covers prp seg ↔
      (rp.sized n).Covers prp seg := by
    simp only [Reg.Covers, Reg.first, hstk]
  have hpiece : ((t.region prp.p_reg).sized n).piece (moved (t.region prp.p_reg) prp n) =
      ((t.region prp.p_reg).sized n).piece prp := piece_moved rfl
  rw [resize_of_nonneg hc.le (by rw [hsize, hn]) (by omega) hn₁]
  refine h.change (h.toOwns.grow (by rw [hrp]; omega) hn₁ hframe hkeep hnew hinj rfl region_setReg
    fun r hr => region_setReg_of_ne hr) hk huniq (congrArg (List.set · k _) hframe.p_region)
    moved_reg (fun r hr => (region_setReg_of_ne hr).trans (hframe.other r hr)) ?_ ?_ ?_ ?_
  · exact (congrArg Reg.r_refcnt region_setReg).trans (by rw [hreg, hrp])
  · intro seg hseg hold
    rw [hrp, Reg.piece_eq_none] at hold
    rw [show _ = (t.region prp.p_reg).sized n from region_setReg, hpiece] at hseg
    have hcov := (hcovers seg).1 (not_not.1 (mt Reg.piece_eq_none.2 hseg))
    by_cases hlst : rp.r_stack = true ∧ rp.r_pgsz % NPGPT = 0 ∧ seg = NSEGP - 1 - ptots rp.r_pgsz
    · rw [hlst.2.2]
      exact hlast hlst.1 hlst.2.1
    · exact hfree seg hcov hold fun h₁ h₂ _ h₃ => hlst ⟨h₁, h₂, h₃⟩
  · intro seg
    rw [show _ = (t.region prp.p_reg).sized n from region_setReg, hpiece, hrp]
    show (((t.region prp.p_reg).sized n).piece prp seg).or (t.u_stbl seg) = _
    rw [Reg.or_piece, Reg.or_piece, hframe.u_stbl]
    by_cases hcov : ((t.region prp.p_reg).sized n).Covers prp seg
    · rw [if_pos hcov, if_pos hcov]
    · have hold : rp.piece prp seg = none :=
        Reg.piece_eq_none.2 fun hc => hcov ((hcovers seg).2 (hc.sized hn₀ (by omega)))
      rw [if_neg hcov, if_neg hcov, if_pos hold]
  · intro hst
    rw [show _ = (t.region prp.p_reg).sized n from region_setReg] at hst ⊢
    have hst' : rp.r_stack = false := hstk ▸ hst
    rw [moved, show (t.region prp.p_reg).r_stack = false from hst]
    obtain ⟨h₁, h₂, h₃⟩ := h.attached prp (List.mem_of_getElem? hk) (hrp ▸ hst')
    have hb := hbound hst'
    rw [hrp] at h₃
    refine ⟨h₁, h₂, ?_⟩
    simp only [btotp, stopg, ptob, NSEGP, NPGPT, PAGESIZE, Bool.false_eq_true, if_false] at *
    omega

/-- A region that shrinks keeps the invariant, if a stack stays in its segments. -/
theorem Inv.shrink {k : ℕ} (h : Inv s) (hk : s.p_region[k]? = some prp)
    (hrp : s.region prp.p_reg = rp) (hc : change < 0) (hn : rp.r_pgsz + change = n) (hn₀ : 0 ≤ n)
    (huniq : ∀ j q, s.p_region[j]? = some q → q.p_reg = prp.p_reg → j = k)
    (hstk : rp.r_stack = true → ptos n = ptos rp.r_pgsz) :
    Inv (resize (ptshrink s prp.p_reg rp.r_pgsz n) k prp change) := by
  have hn₁ : n < 2 ^ 15 := by have := hrp ▸ h.size prp.p_reg; omega
  have hsh := ptshrink_spec h.toOwns hn₀ (r := prp.p_reg) (by rw [hrp]; omega) (by rwa [hrp])
  rw [hrp] at hsh
  set t := ptshrink s prp.p_reg rp.r_pgsz n
  have hreg := hrp ▸ hsh.reg
  have hsize : (t.region prp.p_reg).r_pgsz = rp.r_pgsz := by rw [hreg]
  have hst : (t.region prp.p_reg).r_stack = rp.r_stack := by rw [hreg]
  have hle := ptos_mono (show n ≤ rp.r_pgsz by omega)
  have hcov {seg : ℤ} (hseg : (rp.sized n).Covers prp seg) : rp.Covers prp seg := by
    simp only [Reg.Covers, Reg.first] at hseg ⊢
    split_ifs at hseg ⊢ with hs <;> [rw [← hstk hs]; skip] <;> omega
  have hres : resize t k prp change = { t.setReg prp.p_reg ((t.region prp.p_reg).sized n) with
      p_region := t.p_region.set k (moved (t.region prp.p_reg) prp n)
      u_stbl := fun seg =>
        if rp.Covers prp seg ∧ ¬(rp.sized n).Covers prp seg then none else s.u_stbl seg } := by
    cases hs : rp.r_stack with
    | false =>
      have hm : moved (t.region prp.p_reg) prp n = prp := by rw [moved, hst, hs]; rfl
      rw [resize_of_neg (hst.trans hs) hc (by rw [hsize, hn]) hn₀ hn₁, hm, hsh.u_stbl]
      simp only [Reg.Covers, Reg.first, hst, hsize]
    | true =>
      have hno (seg : ℤ) : ¬(rp.Covers prp seg ∧ ¬(rp.sized n).Covers prp seg) := by
        simp only [Reg.Covers, Reg.first, hs, if_true, hstk hs]
        omega
      rw [resize_stack (hst.trans hs) hc (by rw [hsize, hn]) hn₀ hn₁]
      simp only [hno, if_false, ← hsh.u_stbl]
      rfl
  have hpiece : ((t.region prp.p_reg).sized n).piece (moved (t.region prp.p_reg) prp n) =
      (rp.sized n).piece prp := by
    refine Eq.trans (piece_moved rfl) (Reg.Same.piece ⟨hst, rfl, fun i hi => ?_⟩)
    exact (hsh.pt i (by rwa [hrp])).trans (by rw [hrp]; rfl)
  rw [hres]
  refine h.change (h.toOwns.sub ?_ ?_ ?_) hk huniq (congrArg (List.set · k _) hsh.p_region)
    moved_reg (fun r hr => (region_setReg_of_ne hr).trans (hsh.other r hr)) ?_ ?_ ?_ ?_
  · exact forall_setReg (P := fun _ rp => 0 ≤ rp.r_pgsz ∧ rp.r_pgsz < 2 ^ 15) ⟨hn₀, hn₁⟩
      fun r hr => hsh.other r hr ▸ h.size r
  · exact forall_setReg (P := fun _ rp => 0 ≤ rp.r_refcnt)
      (show 0 ≤ (t.region prp.p_reg).r_refcnt by rw [hreg, ← hrp]; exact h.refcnt _)
      fun r hr => hsh.other r hr ▸ h.refcnt r
  · refine forall_setReg (P := fun r rp' => ∀ i, rp'.InList i → (s.region r).InList i ∧
      rp'.pt i = (s.region r).pt i ∧ t.ptused ((s.region r).pt i) = true) (fun i hi => ?_)
      fun r hr i hi => ?_
    · replace hi : (rp.sized n).InList i := by simpa only [Reg.InList, hst] using hi
      refine ⟨?_, hsh.pt i (by rwa [hrp]), hsh.used i (by rwa [hrp])⟩
      rw [hrp]
      simp only [Reg.InList] at hi ⊢
      split_ifs at hi ⊢ with hs <;> [rw [← hstk hs]; skip] <;> omega
    · rw [hsh.other r hr] at hi ⊢
      exact ⟨hi, rfl, hsh.usedOther r i hr hi⟩
  · exact (congrArg Reg.r_refcnt region_setReg).trans (by rw [hreg, hrp])
  · intro seg hseg hold
    rw [hrp, Reg.piece_eq_none] at hold
    rw [show _ = (t.region prp.p_reg).sized n from region_setReg, hpiece] at hseg
    exact absurd (hcov (not_not.1 (mt Reg.piece_eq_none.2 hseg))) hold
  · intro seg
    rw [show _ = (t.region prp.p_reg).sized n from region_setReg, hpiece, hrp, Reg.or_piece]
    show ite _ _ _ = _
    by_cases hold : rp.Covers prp seg
    · by_cases hnew : (rp.sized n).Covers prp seg
      · rw [if_neg (fun hc => hc.2 hnew), if_pos hnew]
        exact (h.entry _).2 ⟨prp, List.mem_of_getElem? hk, by rwa [hrp], by rw [hrp]; rfl⟩
      · rw [if_pos ⟨hold, hnew⟩, if_neg hnew, if_neg (by rwa [Reg.piece_eq_none, not_not])]
    · rw [if_neg (fun hc => hold hc.1), if_neg (fun hc => hold (hcov hc)),
        if_pos (Reg.piece_eq_none.2 hold)]
  · intro hs
    rw [show _ = (t.region prp.p_reg).sized n from region_setReg] at hs ⊢
    have hs' : rp.r_stack = false := hst ▸ hs
    rw [moved, show (t.region prp.p_reg).r_stack = false from hs]
    obtain ⟨h₁, h₂, h₃⟩ := h.attached prp (List.mem_of_getElem? hk) (hrp ▸ hs')
    rw [hrp] at h₃
    refine ⟨h₁, h₂, ?_⟩
    simp only [ptob, PAGESIZE, Bool.false_eq_true, if_false] at *
    omega

end Resize

/-! ## Detaching -/

theorem count_eraseIdx {l : List Preg} {k : ℕ} (hk : l[k]? = some prp) (r : ℕ) :
    (l.map Preg.p_reg).count r =
      ((l.eraseIdx k).map Preg.p_reg).count r + if prp.p_reg = r then 1 else 0 := by
  obtain ⟨hlt, rfl⟩ := List.getElem?_eq_some_iff.1 hk
  rw [← ((List.getElem_cons_eraseIdx_perm hlt).map Preg.p_reg).count_eq r, List.map_cons,
    List.count_cons]
  simp only [beq_iff_eq]

/-- A region is detached: what it has in the table is taken out, and the others look
    the same. -/
theorem Inv.detach {k : ℕ} (h : Inv s) (how : s'.Owns) (hk : s.p_region[k]? = some prp)
    (hp : s'.p_region = s.p_region.eraseIdx k)
    (hsame : ∀ q ∈ s.p_region.eraseIdx k, (s.region q.p_reg).Same (s'.region q.p_reg))
    (hcnt : ∀ r, (s.region r).r_refcnt - (if prp.p_reg = r then 1 else 0) ≤
      (s'.region r).r_refcnt)
    (hu : ∀ seg, s'.u_stbl seg =
      if (s.region prp.p_reg).piece prp seg = none then s.u_stbl seg else none) : Inv s' where
  toOwns := how
  tiles := by
    have hpieces : s'.pieces = s.pieces.eraseIdx k := by
      rw [Space.pieces, Space.pieces, hp, List.eraseIdx_map]
      exact List.map_congr_left fun q hq => (hsame q hq).piece
    rw [hpieces]
    exact h.tiles.eraseIdx (by rw [Space.pieces, List.getElem?_map, hk]; rfl) hu
  refs r := by
    have hold := h.refs r
    have := hcnt r
    rw [count_eraseIdx hk r] at hold
    rw [hp]
    split_ifs at * <;> omega
  attached q hq hst := by
    rw [hp] at hq
    rw [(hsame q hq).r_stack] at hst
    rw [(hsame q hq).r_pgsz]
    exact h.attached q (List.mem_of_mem_eraseIdx hq) hst

theorem foldl_update_of_ne {f : ℕ → ℤ} {x : ℤ} {l : List ℕ} {used : ℤ → Bool}
    (h : ∀ i ∈ l, f i ≠ x) :
    l.foldl (fun used i => Function.update used (f i) false) used x = used x := by
  induction l generalizing used with
  | nil => rfl
  | cons i l ih =>
    rw [List.foldl_cons, ih fun j hj => h j (List.mem_cons_of_mem i hj)]
    exact Function.update_of_ne (h i List.mem_cons_self).symm ..

/-- The entries that `detachreg` makes invalid are those of the region, unless it is a
    stack whose size is a multiple of a page table. -/
theorem clearStes_detach {rp : Reg} (hn : 0 ≤ rp.r_pgsz)
    (hst : rp.r_stack = true → rp.r_pgsz = 0 ∨ rp.r_pgsz % NPGPT ≠ 0) {u : ℤ → Option Ste} :
    clearStes u (if rp.r_stack then NSEGP - 1 - ptots rp.r_pgsz else snum prp.p_regva)
      (ptos rp.r_pgsz).toNat seg = if rp.piece prp seg = none then u seg else none := by
  have hif : (if rp.piece prp seg = none then u seg else none) =
      if rp.Covers prp seg then none else u seg := by
    by_cases hc : rp.Covers prp seg
    · rw [if_pos hc, if_neg (by rwa [Reg.piece_eq_none, not_not])]
    · rw [if_neg hc, if_pos (Reg.piece_eq_none.2 hc)]
  rw [clearStes_apply, hif, Int.toNat_of_nonneg (ptos_nonneg hn)]
  refine if_congr ?_ rfl rfl
  cases hs : rp.r_stack with
  | false => simp [Reg.Covers, Reg.first, hs]
  | true =>
    have := hst hs
    simp only [Reg.Covers, Reg.first, hs, if_true, ptos, ptots, NPGPT] at this ⊢
    omega

theorem freereg_setReg {r : ℕ} (hc : rp.r_refcnt = 0) : freereg (s.setReg r rp) r =
    { s.setReg r { rp with nofree := false, r_list := none, r_pgsz := 0, r_stack := false } with
      ptused := (List.range (ptos rp.r_pgsz).toNat).foldl
        (fun used (i : ℕ) =>
          Function.update used (rp.pt (if rp.r_stack then NSEGP - 1 - i else i)) false)
        s.ptused } := by
  have hset (a b : Reg) : (s.setReg r a).setReg r b = s.setReg r b := by
    simp only [Space.setReg, Function.update_idem]
  simp only [freereg, region_setReg, hc, ne_eq, not_true_eq_false, if_false, hset]
  rfl

theorem Inv.detachreg {k : ℕ} (h : Inv s) (hc : (Act.detachreg k).Clean s)
    (hs : detachreg s k = some s') : Inv s' := by
  obtain ⟨prp, hk, hs⟩ := Option.bind_eq_some_iff.1 hs
  obtain rfl := Option.some.inj hs
  have hn := (h.size prp.p_reg).1
  have hu (seg : ℤ) := @clearStes_detach prp seg (s.region prp.p_reg) hn (hc prp hk) s.u_stbl
  have hpos : 0 < (s.region prp.p_reg).r_refcnt := by
    have := h.refs prp.p_reg
    have := List.count_pos_iff.2 (List.mem_map_of_mem (f := Preg.p_reg) (List.mem_of_getElem? hk))
    omega
  by_cases hfree : (s.region prp.p_reg).r_refcnt - 1 = 0 ∧ (s.region prp.p_reg).nofree = false
  · have hfr (u : ℤ → Option Ste) := @freereg_setReg { s with u_stbl := u }
      { s.region prp.p_reg with r_refcnt := (s.region prp.p_reg).r_refcnt - 1 } prp.p_reg hfree.1
    simp only [if_pos hfree, hfr]
    have hne (q : Preg) (hq : q ∈ s.p_region.eraseIdx k) : q.p_reg ≠ prp.p_reg := by
      intro he
      have hpos := List.count_pos_iff.2 (he ▸ List.mem_map_of_mem (f := Preg.p_reg) hq)
      have hrefs := h.refs prp.p_reg
      rw [count_eraseIdx hk, if_pos rfl] at hrefs
      omega
    have hsub : ∀ r i, ((s.setReg prp.p_reg { s.region prp.p_reg with
          nofree := false, r_list := none, r_pgsz := 0, r_stack := false
          r_refcnt := (s.region prp.p_reg).r_refcnt - 1 }).region r).InList i → r ≠ prp.p_reg := by
      refine forall_setReg (P := fun r rp => ∀ i, rp.InList i → r ≠ prp.p_reg) (fun i hi => ?_)
        fun r hr _ _ => hr
      simp only [Reg.InList, ptos, NPGPT, Bool.false_eq_true, if_false] at hi
      omega
    refine h.detach (h.toOwns.sub ?_ ?_ fun r i hi => ?_) hk rfl (fun q hq => ?_) ?_ hu
    · refine forall_setReg (P := fun _ rp => 0 ≤ rp.r_pgsz ∧ rp.r_pgsz < 2 ^ 15) ?_
        fun r _ => h.size r
      show (0 : ℤ) ≤ 0 ∧ (0 : ℤ) < 2 ^ 15
      decide
    · refine forall_setReg (P := fun _ rp => 0 ≤ rp.r_refcnt) ?_ fun r _ => h.refcnt r
      show 0 ≤ (s.region prp.p_reg).r_refcnt - 1
      omega
    · have hr := hsub r i hi
      have hreg (rp : Reg) : (s.setReg prp.p_reg rp).region r = s.region r :=
        region_setReg_of_ne hr
      replace hi : (s.region r).InList i := (congrArg (Reg.InList · i) (hreg _)).mp hi
      refine ⟨hi, congrArg (Reg.pt · i) (hreg _), (foldl_update_of_ne fun j hj he => ?_).trans
        (h.used r i hi)⟩
      refine hr (h.own _ _ _ _ ?_ hi he).1.symm
      have := List.mem_range.1 hj
      simp only [Reg.InList]
      split_ifs <;> omega
    · exact (congrArg (Reg.Same _) (region_setReg_of_ne (hne q hq))).mpr .refl
    · refine forall_setReg (P := fun r rp =>
        (s.region r).r_refcnt - (if prp.p_reg = r then 1 else 0) ≤ rp.r_refcnt) ?_ fun r hr => ?_
      · rw [if_pos rfl]
      · rw [if_neg (Ne.symm hr), sub_zero]
  · simp only [if_neg hfree]
    have hsame : ∀ r, (s.region r).Same ((s.setReg prp.p_reg { s.region prp.p_reg with
        r_refcnt := (s.region prp.p_reg).r_refcnt - 1 }).region r) :=
      forall_setReg (P := fun r rp => (s.region r).Same rp) ⟨rfl, rfl, fun _ _ => rfl⟩
        fun _ _ => .refl
    refine h.detach (h.toOwns.sub (fun r => ?_) ?_ fun r i hi => ?_) hk rfl
      (fun q _ => hsame q.p_reg) ?_ hu
    · exact (hsame r).r_pgsz.symm ▸ h.size r
    · exact forall_setReg (P := fun _ rp => 0 ≤ rp.r_refcnt)
        (show 0 ≤ (s.region prp.p_reg).r_refcnt - 1 by omega) fun r _ => h.refcnt r
    · replace hi := (hsame r).inList.1 hi
      exact ⟨hi, (hsame r).pt i hi, h.used r i hi⟩
    · refine forall_setReg (P := fun r rp =>
        (s.region r).r_refcnt - (if prp.p_reg = r then 1 else 0) ≤ rp.r_refcnt) ?_ fun r hr => ?_
      · rw [if_pos rfl]
      · rw [if_neg (Ne.symm hr), sub_zero]

/-! ## Runs -/

theorem Inv.attachreg {pregpp r : ℕ} {vaddr : ℤ} {type : PType} {rdonly : Bool} (h : Inv s)
    (hl : (Act.attachreg r vaddr type rdonly).Legal s)
    (hc : (Act.attachreg r vaddr type rdonly).Clean s) :
    Inv (attachreg pregpp s r vaddr type rdonly).1 := by
  obtain ⟨hva, -, hst⟩ := hl
  rw [Region.attachreg]
  by_cases hal : vaddr % (NPGPT * PAGESIZE) ≠ 0
  · rwa [if_pos hal]
  by_cases hroom : s.p_region.length + 1 ≥ pregpp
  · rwa [if_neg hal, if_pos hroom]
  rw [if_neg hal, if_neg hroom]
  replace h := h.setStack hst
  have hreg : (s.setReg r { s.region r with r_stack := decide (type = .stack) }).region r =
      { s.region r with r_stack := decide (type = .stack) } := region_setReg
  by_cases hchk : chkgrowth (s.setReg r { s.region r with r_stack := decide (type = .stack) })
      ⟨r, vaddr, rdonly, type⟩ 0 (s.region r).r_pgsz
  · simp only [hreg, if_pos hchk]
    exact h
  · simp only [hreg, if_neg hchk, region_loadstbl]
    refine @Inv.attach _ _ ⟨r, vaddr, rdonly, type⟩ h hva (not_not.1 hal) hreg
      (Bool.not_eq_true _ ▸ hchk) (fun hs => ?_) fun hs => ?_
    · simpa [Act.Clean, of_decide_eq_false hs] using hc
    · simpa [Act.Clean, of_decide_eq_true hs, Space.setReg] using hc

theorem Inv.growreg {k : ℕ} {change rv : ℤ} {list : Bool} {pts : List ℤ} (h : Inv s)
    (hl : (Act.growreg k change list pts).Legal s) (hc : (Act.growreg k change list pts).Clean s)
    (hs : growreg s k change list pts = some (s', rv)) : Inv s' := by
  obtain ⟨prp, hk, hs⟩ := Option.bind_eq_some_iff.1 hs
  obtain ⟨hn₁, huniq, hstk⟩ := hc prp hk
  have hn₀ := hl prp hk
  have hsize := h.size prp.p_reg
  by_cases hzero : change = 0
  · rw [if_pos hzero] at hs
    obtain rfl := congrArg Prod.fst (Option.some.inj hs)
    exact h
  rw [if_neg hzero] at hs
  by_cases hchk : change > 0 &&
      chkgrowth s prp (s.region prp.p_reg).r_pgsz ((s.region prp.p_reg).r_pgsz + change)
  · simp only [if_pos hchk] at hs
    obtain rfl := congrArg Prod.fst (Option.some.inj hs)
    exact h
  simp only [if_neg hchk] at hs
  obtain ⟨⟨t, failed⟩, hx, hs⟩ := Option.bind_eq_some_iff.1 hs
  rcases lt_or_gt_of_ne hzero with hc | hc
  · have ht : t = ptshrink s prp.p_reg (s.region prp.p_reg).r_pgsz
        ((s.region prp.p_reg).r_pgsz + change) ∧ failed = false := by
      simpa [ptexpand, hc.le, eq_comm] using hx
    obtain ⟨rfl, rfl⟩ := ht
    obtain rfl := congrArg Prod.fst (Option.some.inj hs)
    exact h.shrink hk rfl hc rfl hn₀ huniq fun hst => (hstk hst).1 hc
  · cases failed with
    | true =>
      obtain rfl := congrArg Prod.fst (Option.some.inj hs)
      exact h.expandFailed hc rfl hx
    | false =>
      obtain rfl := congrArg Prod.fst (Option.some.inj hs)
      refine h.grow hk rfl hc rfl hn₁ huniq ?_ (fun hst => (hstk hst).2 hc) hx
      simpa [hc] using hchk

theorem inv_of_clean {pregpp : ℕ} (hs : (process pregpp).ReachableIf
    (fun s a => a.Legal s ∧ a.Clean s) s) : Inv s := by
  refine hs.invariant (fun s hs => ?_) fun s a s' h ok hs => ?_
  · obtain ⟨hp, hu, how⟩ := hs
    refine ⟨how, ?_, fun r => ?_, fun prp hprp => ?_⟩
    · rw [Space.pieces, hp]
      exact .nil hu
    · rw [hp]
      exact how.refcnt r
    · rw [hp] at hprp
      exact nomatch hprp
  · cases a with
    | attachreg r vaddr type rdonly =>
      obtain rfl := Option.some.inj hs
      exact h.attachreg ok.1 ok.2
    | growreg k change list pts =>
      obtain ⟨⟨t, rv⟩, hg, rfl⟩ := Option.map_eq_some_iff.1 hs
      exact h.growreg ok.1 ok.2 hg
    | detachreg k => exact h.detachreg ok.2 hs

end Inv

/-- Runs whose steps are clean keep the table consistent. -/
theorem consistent_of_clean : ∀ (pregpp : ℕ) (s : Space),
    (process pregpp).ReachableIf (fun s a => a.Legal s ∧ a.Clean s) s → Consistent s :=
  fun _ _ hs => (inv_of_clean hs).consistent

/-! ## Concrete runs -/

/-- Regions without pages, and a process without regions. -/
def noRegions : Space := ⟨fun _ => ⟨false, none, 0, false, 0⟩, fun _ => false, [], fun _ => none⟩

theorem init_noRegions (pregpp : ℕ) : (process pregpp).init noRegions := by
  have hnone (r : ℕ) (i : ℤ) : ¬(noRegions.region r).InList i := by
    simp only [noRegions, Reg.InList, ptos, NPGPT, Bool.false_eq_true, if_false]
    omega
  exact ⟨rfl, fun _ => rfl, fun _ => ⟨le_rfl, show (0 : ℤ) < 2 ^ 15 by decide⟩, fun _ => le_rfl,
    fun r i hi => absurd hi (hnone r i), fun r _ i _ hi => absurd hi (hnone r i)⟩

/-- A data region is attached and given pages. -/
theorem consistent_data : ∃ s, (process 8).run noRegions
    [.attachreg 0 0 .data false, .growreg 0 513 true [2, 3]] = some s ∧ Consistent s := by
  obtain ⟨s₁, h₁, hp, hr⟩ : ∃ s₁,
      (process 8).next noRegions (.attachreg 0 0 .data false) = some s₁ ∧
      s₁.p_region = [⟨0, 0, false, .data⟩] ∧ s₁.region 0 = ⟨false, none, 0, false, 1⟩ :=
    ⟨_, rfl, rfl, rfl⟩
  have hs₁ : (process 8).ReachableIf (fun s a => a.Legal s ∧ a.Clean s) s₁ :=
    .step (.init (init_noRegions 8)) ⟨by decide, by simp [Act.Clean, noRegions, ptob]⟩ h₁
  have hclean : (Act.growreg 0 513 true [2, 3]).Legal s₁ ∧
      (Act.growreg 0 513 true [2, 3]).Clean s₁ := by
    simp only [Act.Legal, Act.Clean, hp, hr, List.getElem?_cons_zero, Option.mem_some_iff,
      forall_eq']
    refine ⟨by decide, by decide, fun j prp' hj _ => ?_, nofun⟩
    cases j with
    | zero => rfl
    | succ j => exact nomatch hj
  obtain ⟨s₂, h₂⟩ : ∃ s₂, (process 8).run noRegions
      [.attachreg 0 0 .data false, .growreg 0 513 true [2, 3]] = some s₂ := ⟨_, rfl⟩
  refine ⟨s₂, h₂, consistent_of_clean 8 s₂ (.step hs₁ hclean ?_)⟩
  rw [Machine.run, h₁] at h₂
  simpa [Machine.run] using h₂

/-- A stack gets two page tables, and shrinks to one. -/
def shrinkActs : List Act :=
  [.attachreg 0 (stob NSEGP) .stack false, .growreg 0 513 true [2, 3], .growreg 0 (-512) true []]

/-- The stack leaves an entry for the page table it has given up. -/
theorem not_consistent : ¬∀ (pregpp : ℕ) (s : Space),
    (process pregpp).ReachableIf (fun s a => a.Legal s) s → Consistent s := by
  intro h
  have hx : ((process 8).runIf (fun s a => a.Legal s) noRegions shrinkActs).map
      (fun s => (s.u_stbl 510, s.ptused 2)) = some (some ⟨false, 2⟩, false) := by
    decide
  obtain ⟨s, hs, hx⟩ := Option.map_eq_some_iff.1 hx
  have hu := (h 8 s (Machine.reachableIf_runIf (.init (init_noRegions 8)) hs)).used 510 ⟨false, 2⟩
    (congrArg Prod.fst hx)
  exact absurd (congrArg Prod.snd hx) (by simp [hu])

end AuxKernel.Region
