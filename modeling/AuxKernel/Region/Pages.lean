import Mathlib.Data.List.Count
import AuxKernel.Region.Basic

/-!
# The pages of the page tables

What is in page tables, and the counts of what they refer to (`sys/page.h`, `PAGING/os/page.c`,
`PAGING/os/swapalloc.c`). Behind the entries of a page table are the descriptors of where the
pages are on disk; an entry and its descriptor make a `Page`. A page that is in core is counted
in `pf_use` of its frame, one that is swapped out in the use count of its block of swap.

`freemem`, the free pages of a swap file and the hash of pages by their blocks follow from this
and are left out.

* `tally`: how many of some pages there are, which refer to something;
* `Drops`: all references of some pages are given up, each of them once (`pfree_spec`).
-/

namespace AuxKernel.Region

/-- Where a page is on disk. -/
inductive DbdType
  | none
  | swap
  | file
  | lstfile
  | dzero
  | dfill
  deriving DecidableEq, Repr

/-- A page table entry. `bits` are those that are only copied. -/
structure Pte where
  pg_pfn : ℕ
  bits : ℕ
  pg_cw : Bool
  pg_prot : Bool
  pg_v : Bool
  deriving DecidableEq, Repr

/-- A disk block descriptor. -/
structure Dbd where
  dbd_type : DbdType
  dbd_swpi : ℕ
  dbd_blkno : ℤ
  deriving DecidableEq, Repr

/-- An entry and its descriptor. -/
structure Page where
  pte : Pte
  dbd : Dbd
  deriving DecidableEq, Repr

/-- The contents of the page tables, the counts of the frames and the blocks of swap, the list
    of the free frames, and where the swap files start. -/
structure Store where
  tbl : ℤ → ℤ → Page
  pf_use : ℕ → ℤ
  phead : List ℕ
  st_ucnt : ℕ × ℤ → ℤ
  st_swplo : ℕ → ℤ

/-- An entry of zeros. -/
def pg_zero : Pte := ⟨0, 0, false, false, false⟩

/-- A page that `bzero` leaves. -/
def zeroPage : Page := ⟨pg_zero, ⟨.none, 0, 0⟩⟩

/-- Disk blocks of a page. -/
def DPPSHFT : ℕ := 4

/-- The block of swap of a descriptor. -/
def blockOf (st_swplo : ℕ → ℤ) (dbd : Dbd) : ℕ × ℤ :=
  (dbd.dbd_swpi, (dbd.dbd_blkno - st_swplo dbd.dbd_swpi) / 2 ^ DPPSHFT)

def Store.setPage (s : Store) (pt j : ℤ) (pg : Page) : Store :=
  { s with tbl := Function.update s.tbl pt (Function.update (s.tbl pt) j pg) }

/-- Free one page of swap. -/
def swfree1 (dbd : Dbd) (s : Store) : Store :=
  let b := blockOf s.st_swplo dbd
  { s with st_ucnt := Function.update s.st_ucnt b (s.st_ucnt b - 1) }

/-- Put a frame that nobody uses on the free list: if it is on disk, at the end. -/
def enqueue (pg : Page) (pf_use : ℤ) (phead : List ℕ) : List ℕ :=
  if pf_use = 0 then
    if pg.dbd.dbd_type = .none then pg.pte.pg_pfn :: phead else phead ++ [pg.pte.pg_pfn]
  else phead

/-- Give up a frame; the last one who does frees it. -/
def dropFrame (pg : Page) (s : Store) : Store :=
  let pf_use := s.pf_use pg.pte.pg_pfn - 1
  { s with
    pf_use := Function.update s.pf_use pg.pte.pg_pfn pf_use
    phead := enqueue pg pf_use s.phead }

/-- The page is zapped. -/
def Page.zap (pg : Page) : Page := ⟨pg_zero, { pg.dbd with dbd_type := .none }⟩

/-- Free a page, and zap its entry. -/
def freePage (pt j : ℤ) (s : Store) : Store :=
  let pg := s.tbl pt j
  let s := if pg.pte.pg_v then dropFrame pg s else s
  let s := if pg.dbd.dbd_type = .swap then swfree1 pg.dbd s else s
  s.setPage pt j pg.zap

/-- Free `size` pages of a page table, from the entry `j` on. -/
def pfree (pt j : ℤ) : ℕ → Store → Store
  | 0, s => s
  | size + 1, s => pfree pt (j + 1) size (freePage pt j s)

/-! ## References -/

/-- The page is in core, in the frame `f`. -/
def Page.inFrame (f : ℕ) (pg : Page) : Bool := pg.pte.pg_v ∧ pg.pte.pg_pfn = f

/-- The page is swapped out, to the block `b`. -/
def Page.onBlock (st_swplo : ℕ → ℤ) (b : ℕ × ℤ) (pg : Page) : Bool :=
  pg.dbd.dbd_type = .swap ∧ blockOf st_swplo pg.dbd = b

/-- How many of `n` pages, from `lo` on, are such. -/
def tally (P : Page → Bool) (page : ℤ → Page) (lo : ℤ) (n : ℕ) : ℤ :=
  ((List.range n).countP fun i : ℕ => P (page (lo + i)) : ℕ)

section Tally

variable {P : Page → Bool} {page page' : ℤ → Page} {lo lo' : ℤ} {m n : ℕ}

theorem tally_add : tally P page lo (m + n) = tally P page lo m + tally P page (lo + m) n := by
  rw [tally, tally, tally, List.range_add, List.countP_append, List.countP_map, Nat.cast_add]
  congr 2
  refine List.countP_congr fun i _ => ?_
  rw [Function.comp_apply, Nat.cast_add, add_assoc]

theorem tally_one : tally P page lo 1 = if P (page lo) then 1 else 0 := by
  rw [tally, List.range_one, List.countP_singleton, Nat.cast_zero, add_zero]
  split_ifs
  · rfl
  · rfl

theorem tally_congr (h : ∀ i : ℤ, 0 ≤ i → i < n → page (lo + i) = page' (lo' + i)) :
    tally P page lo n = tally P page' lo' n := by
  refine congrArg _ (List.countP_congr fun i hi => ?_)
  rw [h i (by omega) (by have := List.mem_range.1 hi; omega)]

theorem tally_nonneg (P : Page → Bool) (page : ℤ → Page) (lo : ℤ) (n : ℕ) :
    0 ≤ tally P page lo n := Int.natCast_nonneg _

theorem tally_eq_zero :
    tally P page lo n = 0 ↔ ∀ i : ℤ, 0 ≤ i → i < n → P (page (lo + i)) = false := by
  rw [tally, Nat.cast_eq_zero, List.countP_eq_zero]
  refine ⟨fun h i hi hn => ?_, fun h i hi => ?_⟩
  · obtain ⟨k, rfl⟩ := Int.eq_ofNat_of_zero_le hi
    exact Bool.eq_false_of_not_eq_true (h k (List.mem_range.2 (by omega)))
  · have := List.mem_range.1 hi
    rw [h i (by omega) (by omega)]
    exact Bool.false_ne_true

end Tally

/-! ## Giving up references -/

/-- From `s` to `t`, the `n` pages from `lo` on give up what they refer to. -/
structure Drops (page : ℤ → Page) (lo : ℤ) (n : ℕ) (s t : Store) : Prop where
  swplo : t.st_swplo = s.st_swplo
  frame : ∀ f, t.pf_use f = s.pf_use f - tally (Page.inFrame f) page lo n
  block : ∀ b, t.st_ucnt b = s.st_ucnt b - tally (Page.onBlock s.st_swplo b) page lo n
  free : ∀ f, t.phead.count f = s.phead.count f + if t.pf_use f ≤ 0 ∧ 0 < s.pf_use f then 1 else 0

section Drops

variable {page page' : ℤ → Page} {lo lo' pt j : ℤ} {m n : ℕ} {s t u : Store}

theorem Drops.refl (page : ℤ → Page) (lo : ℤ) (s : Store) : Drops page lo 0 s s :=
  ⟨rfl, fun _ => (sub_zero _).symm, fun _ => (sub_zero _).symm,
    fun f => by rw [if_neg (by omega), add_zero]⟩

theorem Drops.trans (h : Drops page lo m s t) (h' : Drops page (lo + m) n t u) :
    Drops page lo (m + n) s u := by
  refine ⟨h'.swplo.trans h.swplo, fun f => ?_, fun b => ?_, fun f => ?_⟩
  · rw [h'.frame, h.frame, tally_add, sub_sub]
  · rw [h'.block, h.block, tally_add, sub_sub, h.swplo]
  · -- The count of a frame goes down, so that it gets to zero once.
    have hs := h.frame f
    have ht := h'.frame f
    have := tally_nonneg (Page.inFrame f) page lo m
    have := tally_nonneg (Page.inFrame f) page (lo + m) n
    rw [h'.free, h.free, add_assoc]
    congr 1
    split_ifs <;> omega

theorem Drops.congr (h : Drops page lo n s t)
    (hp : ∀ i : ℤ, 0 ≤ i → i < n → page (lo + i) = page' (lo' + i)) : Drops page' lo' n s t :=
  ⟨h.swplo, fun f => by rw [h.frame, tally_congr hp], fun b => by rw [h.block, tally_congr hp],
    h.free⟩

theorem freePage_tbl (pt j : ℤ) (s : Store) :
    (freePage pt j s).tbl = Function.update s.tbl pt
      (Function.update (s.tbl pt) j (s.tbl pt j).zap) := by
  rw [freePage]
  split_ifs
  · rfl
  · rfl
  · rfl
  · rfl

theorem count_enqueue (pg : Page) (pf_use : ℤ) (phead : List ℕ) (f : ℕ) :
    (enqueue pg pf_use phead).count f =
      phead.count f + if pf_use = 0 ∧ pg.pte.pg_pfn = f then 1 else 0 := by
  rw [enqueue]
  by_cases h0 : pf_use = 0
  · have hone : (if pf_use = 0 ∧ pg.pte.pg_pfn = f then 1 else 0) =
        if pg.pte.pg_pfn = f then 1 else 0 := if_congr (and_iff_right h0) rfl rfl
    rw [if_pos h0, hone]
    by_cases ht : pg.dbd.dbd_type = .none
    · rw [if_pos ht, List.count_cons]
      simp only [beq_iff_eq]
    · rw [if_neg ht, List.count_append, List.count_singleton]
      simp only [beq_iff_eq]
  · rw [if_neg h0, if_neg fun h => h0 h.1, add_zero]

/-- A frame that is given up. -/
theorem dropFrame_spec (pg : Page) (s : Store) (f : ℕ) :
    (dropFrame pg s).pf_use f = s.pf_use f - (if pg.pte.pg_pfn = f then 1 else 0) ∧
      (dropFrame pg s).phead.count f = s.phead.count f +
        if (dropFrame pg s).pf_use f ≤ 0 ∧ 0 < s.pf_use f then 1 else 0 := by
  have huse : (dropFrame pg s).pf_use f = s.pf_use f - (if pg.pte.pg_pfn = f then 1 else 0) := by
    change Function.update s.pf_use pg.pte.pg_pfn (s.pf_use pg.pte.pg_pfn - 1) f = _
    by_cases hf : f = pg.pte.pg_pfn
    · rw [hf, Function.update_self, if_pos rfl]
    · rw [Function.update_of_ne hf, if_neg (Ne.symm hf), sub_zero]
  refine ⟨huse, (count_enqueue ..).trans ?_⟩
  rw [huse]
  congr 1
  by_cases hf : pg.pte.pg_pfn = f
  · rw [if_pos hf, hf]
    exact if_congr (by omega) rfl rfl
  · rw [if_neg hf, if_neg fun h => hf h.2, if_neg (by omega)]

theorem swfree1_ucnt (dbd : Dbd) (s : Store) (b : ℕ × ℤ) :
    (swfree1 dbd s).st_ucnt b =
      s.st_ucnt b - if blockOf s.st_swplo dbd = b then 1 else 0 := by
  change Function.update s.st_ucnt (blockOf s.st_swplo dbd)
    (s.st_ucnt (blockOf s.st_swplo dbd) - 1) b = _
  by_cases hb : b = blockOf s.st_swplo dbd
  · rw [hb, Function.update_self, if_pos rfl]
  · rw [Function.update_of_ne hb, if_neg (Ne.symm hb), sub_zero]

/-- A page that is freed gives up its frame and its block. -/
theorem freePage_drops (pt j : ℤ) (s : Store) : Drops (s.tbl pt) j 1 s (freePage pt j s) := by
  set pg := s.tbl pt j with hpg
  have hkeep (f : ℕ) : s.phead.count f =
      s.phead.count f + if s.pf_use f ≤ 0 ∧ 0 < s.pf_use f then 1 else 0 := by
    rw [if_neg (by omega), add_zero]
  -- The frame is dropped first, and then the block.
  set t := if pg.pte.pg_v then dropFrame pg s else s with ht
  have hframe (f : ℕ) : t.pf_use f = s.pf_use f - (if pg.inFrame f then 1 else 0) ∧
      t.phead.count f =
        s.phead.count f + if t.pf_use f ≤ 0 ∧ 0 < s.pf_use f then 1 else 0 := by
    rw [ht]
    by_cases hv : pg.pte.pg_v = true
    · rw [if_pos hv]
      obtain ⟨huse, hfree⟩ := dropFrame_spec pg s f
      exact ⟨by simpa [Page.inFrame, hv] using huse, hfree⟩
    · rw [if_neg hv]
      exact ⟨by simp [Page.inFrame, hv], hkeep f⟩
  have hucnt : t.st_ucnt = s.st_ucnt ∧ t.st_swplo = s.st_swplo := by
    rw [ht]
    split_ifs
    · exact ⟨rfl, rfl⟩
    · exact ⟨rfl, rfl⟩
  rw [freePage, ← hpg, ← ht]
  by_cases hs : pg.dbd.dbd_type = .swap
  · rw [if_pos hs]
    refine ⟨hucnt.2, fun f => ?_, fun b => ?_, fun f => (hframe f).2⟩
    · rw [tally_one]
      exact (hframe f).1
    · rw [tally_one]
      refine (swfree1_ucnt pg.dbd t b).trans ?_
      rw [hucnt.1, hucnt.2, ← hpg]
      simp [Page.onBlock, hs]
  · rw [if_neg hs]
    refine ⟨hucnt.2, fun f => ?_, fun b => ?_, fun f => (hframe f).2⟩
    · rw [tally_one]
      exact (hframe f).1
    · rw [tally_one, ← hpg]
      simp [Page.onBlock, hs, Store.setPage, hucnt.1]

/-- Pages that are freed give up what they refer to, and are zapped. -/
theorem pfree_spec (pt j : ℤ) (n : ℕ) (s : Store) :
    Drops (s.tbl pt) j n s (pfree pt j n s) ∧
      ∀ x k, (pfree pt j n s).tbl x k =
        if x = pt ∧ j ≤ k ∧ k < j + n then (s.tbl x k).zap else s.tbl x k := by
  induction n generalizing j s with
  | zero => exact ⟨.refl .., fun x k => by rw [if_neg (by omega)]; rfl⟩
  | succ n ih =>
    obtain ⟨hd, ht⟩ := ih (j + 1) (freePage pt j s)
    have htbl (x k : ℤ) : (freePage pt j s).tbl x k =
        if x = pt ∧ k = j then (s.tbl x k).zap else s.tbl x k := by
      rw [freePage_tbl]
      by_cases hx : x = pt
      · subst hx
        rw [Function.update_self]
        by_cases hk : k = j
        · rw [hk, Function.update_self, if_pos ⟨rfl, rfl⟩]
        · rw [Function.update_of_ne hk, if_neg fun h => hk h.2]
      · rw [Function.update_of_ne hx, if_neg fun h => hx h.1]
    refine ⟨?_, fun x k => ?_⟩
    · have hd : Drops (s.tbl pt) j (1 + n) s (pfree pt (j + 1) n (freePage pt j s)) := by
        refine (freePage_drops pt j s).trans (hd.congr fun i hi hn => ?_)
        rw [htbl, if_neg (by omega)]
        rfl
      rwa [add_comm 1 n] at hd
    · refine (ht x k).trans ?_
      rw [htbl]
      split_ifs <;> first
        | rfl
        | omega

end Drops

end AuxKernel.Region
