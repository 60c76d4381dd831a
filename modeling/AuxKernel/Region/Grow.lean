import AuxKernel.Region.Pages

/-!
# Growing and shrinking a region with its pages

`growreg` (`PAGING/os/region.c`) with what it does to the pages: those that a region gives up are
freed segment by segment, those that it takes are initialised. The pages of a region are numbered
upwards from where it is attached, or, in a stack, downwards from its end (`Paged.page`).

The segments of a stack are numbered like those of other regions where its pages are freed
(`freeSeg`), though they are the last ones of its list.
-/

namespace AuxKernel.Region

/-- The regions, the process, and the contents of the page tables. -/
structure Paged extends Space, Store

/-- A page that is to be filled, from where `type` says. -/
def Page.fresh (type : DbdType) (pg : Page) : Page := ⟨pg_zero, { pg.dbd with dbd_type := type }⟩

/-- Free the pages beyond `nsize` of the page table in the place `i`. -/
def freeSeg (rp : Reg) (osize nsize i : ℤ) (s : Store) : Store :=
  let size := if osize - stopg i > NPGPT then NPGPT else osize - stopg i
  if nsize > stopg i then
    let pt := if rp.r_stack then NPGPT - (osize - stopg i) else nsize - stopg i
    pfree (rp.pt i) pt (size - (nsize - stopg i)).toNat s
  else pfree (rp.pt i) 0 size.toNat s

/-- Free pages in `n` places of the list, from `i` on. -/
def freeSegs (rp : Reg) (osize nsize i : ℤ) : ℕ → Store → Store
  | 0, s => s
  | n + 1, s => freeSegs rp osize nsize (i + 1) n (freeSeg rp osize nsize i s)

/-- Initialise `size` pages of a page table, in steps of `ptincr` from the entry `j` on. -/
def initPages (type : DbdType) (pt j ptincr : ℤ) : ℕ → Store → Store
  | 0, s => s
  | size + 1, s =>
    initPages type pt (j + ptincr) ptincr size (s.setPage pt j ((s.tbl pt j).fresh type))

/-- Initialise the pages of the segment `i` beyond `osize`. -/
def initSeg (rp : Reg) (type : DbdType) (osize nsize i : ℤ) (s : Store) : Store :=
  let size := if nsize - stopg i ≥ NPGPT then NPGPT else nsize - stopg i
  let skip := if osize > stopg i then osize - stopg i else 0
  if rp.r_stack then
    initPages type (rp.pt (NSEGP - 1 - i)) (NPGPT - 1 - skip) (-1) (size - skip).toNat s
  else initPages type (rp.pt i) skip 1 (size - skip).toNat s

/-- Initialise pages in `n` segments, from `i` on. -/
def initSegs (rp : Reg) (type : DbdType) (osize nsize i : ℤ) : ℕ → Store → Store
  | 0, s => s
  | n + 1, s => initSegs rp type osize nsize (i + 1) n (initSeg rp type osize nsize i s)

/-- The page tables that `uptalloc` has handed out are cleared. -/
def clearNew (ptused ptused' : ℤ → Bool) (s : Store) : Store :=
  { s with tbl := fun x => if ptused' x && !ptused x then fun _ => zeroPage else s.tbl x }

/-- Change the size of the `k`-th region of the process, to pages that are filled from where
    `type` says. -/
def Paged.growreg (s : Paged) (k : ℕ) (change : ℤ) (type : DbdType) (list : Bool)
    (pts : List ℤ) : Option (Paged × ℤ) := do
  let prp ← s.p_region[k]?
  let rp := s.region prp.p_reg
  let osize := rp.r_pgsz
  if change = 0 then return (s, 0)
  if change < 0 then
    let i := if rp.r_stack then NSEGP - ptos (osize + change) else ptots (osize + change)
    let rlim := if rp.r_stack then NSEGP - ptots osize else ptos osize
    let st := freeSegs rp osize (osize + change) i (rlim - i).toNat s.toStore
    let (t, _) ← ptexpand s.toSpace prp.p_reg change list pts
    return (⟨resize t k prp change, st⟩, 1)
  if chkgrowth s.toSpace prp osize (osize + change) then return (s, -1)
  let (t, failed) ← ptexpand s.toSpace prp.p_reg change list pts
  let st := clearNew s.ptused t.ptused s.toStore
  if failed then return (⟨t, st⟩, -1)
  let i := ptots osize
  let st := initSegs (t.region prp.p_reg) type osize (osize + change) i
    (ptos (osize + change) - i).toNat st
  return (⟨resize t k prp change, st⟩, 1)

theorem ptexpand_of_nonpos {s : Space} {r : ℕ} {change : ℤ} {list : Bool} {pts : List ℤ}
    (h : change ≤ 0) : ptexpand s r change list pts =
      some (ptshrink s r (s.region r).r_pgsz ((s.region r).r_pgsz + change), false) := by
  rw [ptexpand]
  exact if_pos h

/-- It does to regions and page tables what is said without the pages. -/
theorem growreg_toSpace (s : Paged) (k : ℕ) (change : ℤ) (type : DbdType) (list : Bool)
    (pts : List ℤ) : (s.growreg k change type list pts).map (fun x => (x.1.toSpace, x.2)) =
      growreg s.toSpace k change list pts := by
  rw [Paged.growreg, growreg]
  cases s.p_region[k]? with
  | none => rfl
  | some prp =>
    simp only [Option.bind_eq_bind, Option.bind_some, Option.pure_def]
    by_cases h0 : change = 0
    · rw [if_pos h0, if_pos h0]
      rfl
    rw [if_neg h0, if_neg h0]
    by_cases hneg : change < 0
    · have hpos : decide (change > 0) = false := decide_eq_false (by omega)
      rw [if_pos hneg, ptexpand_of_nonpos hneg.le, hpos, Bool.false_and,
        if_neg Bool.false_ne_true]
      rfl
    have hpos : decide (change > 0) = true := decide_eq_true (by omega)
    rw [if_neg hneg, hpos, Bool.true_and]
    by_cases hc : chkgrowth s.toSpace prp (s.region prp.p_reg).r_pgsz
        ((s.region prp.p_reg).r_pgsz + change) = true
    · rw [if_pos hc, if_pos hc]
      rfl
    rw [if_neg hc, if_neg hc]
    cases ptexpand s.toSpace prp.p_reg change list pts with
    | none => rfl
    | some x =>
      simp only [Option.bind_some]
      split_ifs
      · rfl
      · rfl

/-! ## What it is to do -/

/-- Where in the list of a region the page table of a page is. -/
def Reg.seg (rp : Reg) (m : ℤ) : ℤ := if rp.r_stack then NSEGP - 1 - m / NPGPT else m / NPGPT

/-- Where in its page table a page is. -/
def Reg.ofs (rp : Reg) (m : ℤ) : ℤ := if rp.r_stack then NPGPT - 1 - m % NPGPT else m % NPGPT

/-- The page number `m` of a region. -/
def Store.page (s : Store) (rp : Reg) (m : ℤ) : Page := s.tbl (rp.pt (rp.seg m)) (rp.ofs m)

/-- The page tables of a region are those for its size, in use, and its list has no others. -/
structure Space.Fits (s : Space) (r : ℕ) : Prop where
  used : ∀ i, (s.region r).InList i → s.ptused ((s.region r).pt i) = true
  inj : ∀ i j, (s.region r).InList i → (s.region r).InList j →
    (s.region r).pt i = (s.region r).pt j → i = j
  rest : ∀ i, ¬(s.region r).InList i → (s.region r).pt i = 0

/-- The page table belongs to a region. -/
def Space.HasPt (s : Space) (r : ℕ) (x : ℤ) : Prop :=
  ∃ i, (s.region r).InList i ∧ (s.region r).pt i = x

/-- From `s` to `t`, the region `r` has got `n` pages. -/
structure Resized (s t : Paged) (r : ℕ) (n : ℤ) (type : DbdType) : Prop where
  size : (t.region r).r_pgsz = n
  fits : t.Fits r
  others : ∀ r', r' ≠ r → t.region r' = s.region r'
  ptused : ∀ x, t.ptused x = true ↔
    t.HasPt r x ∨ s.ptused x = true ∧ ¬s.HasPt r x
  kept : ∀ m, 0 ≤ m → m < n → m < (s.region r).r_pgsz →
    t.page (t.region r) m = s.page (s.region r) m
  new : ∀ m, (s.region r).r_pgsz ≤ m → m < n →
    ∃ pg : Page, t.page (t.region r) m = pg.fresh type
  tbl : ∀ x, s.ptused x = true → ¬s.HasPt r x → t.tbl x = s.tbl x
  freed : Drops (s.page (s.region r)) n ((s.region r).r_pgsz - n).toNat s.toStore t.toStore

/-- What a call does: nothing; or it changes the size; or it fails, and leaves the regions, the
    page tables and the segment table as they were. -/
def Exact (s t : Paged) (r : ℕ) (change rv : ℤ) (type : DbdType) : Prop :=
  rv = 0 ∧ change = 0 ∧ t = s ∨
  rv = 1 ∧ change ≠ 0 ∧ Resized s t r ((s.region r).r_pgsz + change) type ∨
  rv = -1 ∧ 0 < change ∧ t.toSpace = s.toSpace

end AuxKernel.Region
