import Mathlib.Algebra.Group.Fin.Basic
import Mathlib.Algebra.Ring.CharZero
import Mathlib.Algebra.Order.Ring.Int
import Mathlib.Data.Finset.Card
import AuxKernel.Swap.Basic

/-!
# Swap accounting

The counters of every swap file count the descriptors of its pages, and its free
pages are counted by `st_nfpgs` (`swap_sound`), as long as

* `swalloc` is not called while there is no swap file to allocate from;
* `swapadd` does not take up again a swap file that is being deleted;
* a `swapadd` that fails finds in its entry what it leaves there;
* and the blocks of every swap file have numbers that fit in `dbd_blkno`

(`Action.Clean`). Each of them goes wrong: `not_swap_sound` takes up a swap file
again.
-/

namespace AuxKernel.Swap

open UseCounts

/-! ## What is sound -/

/-- The pages of a swap file. -/
def pages (st : Swpt) : Finset ℤ := (Finset.range st.st_npgs.toNat).map Nat.castEmbedding

theorem mem_pages {st : Swpt} {pg : ℤ} : pg ∈ pages st ↔ 0 ≤ pg ∧ pg < st.st_npgs := by
  rw [pages, Finset.mem_map]
  refine ⟨?_, fun h => ⟨pg.toNat, Finset.mem_range.2 (by omega), Int.toNat_of_nonneg h.1⟩⟩
  rintro ⟨k, hk, rfl⟩
  rw [Finset.mem_range] at hk
  rw [Nat.castEmbedding_apply]
  omega

theorem card_pages (st : Swpt) : (pages st).card = st.st_npgs.toNat := by
  rw [pages, Finset.card_map, Finset.card_range]

/-- The descriptor of a page of a swap file. -/
def dbdOf (i : Fin MSFILES) (st : Swpt) (pg : ℤ) : Dbd := ⟨i, st.st_swplo + pg * 2 ^ DPPSHFT⟩

/-- The accounts of the entry `i`, with counters `c`, for descriptors `l`. -/
structure Accounts (i : Fin MSFILES) (st : Swpt) (c : ℤ → ℤ) (l : List Dbd) : Prop where
  free : st.st_nfpgs = zeros (pages st) c
  counted : Counted (pages st) (dbdOf i st) c l
  bound : ∀ pg ∈ pages st, c pg ≤ MAXSUSE

/-- The entry `i` is in use, with counters `c`. -/
def Active (s : State) (i : Fin MSFILES) (c : ℤ → ℤ) : Prop := (s.swaptab i).st_ucnt = some c

/-- It is not being deleted either. -/
def Usable (s : State) (i : Fin MSFILES) (c : ℤ → ℤ) : Prop :=
  Active s i c ∧ (s.swaptab i).st_indel = false

/-- The swap files are accounted for, and apart. -/
structure Sound (s : Run) : Prop where
  accounts : ∀ i c, Active s.st i c → Accounts i (s.st.swaptab i) c s.dbds
  apart : ∀ i j c d, Active s.st i c → Active s.st j d →
    (s.st.swaptab i).st_dev = (s.st.swaptab j).st_dev →
    (s.st.swaptab i).st_swplo = (s.st.swaptab j).st_swplo → i = j
  held : ∀ d ∈ s.dbds, ∃ c, Active s.st d.dbd_swpi c ∧
    ∃ pg ∈ pages (s.st.swaptab d.dbd_swpi), d = dbdOf d.dbd_swpi (s.st.swaptab d.dbd_swpi) pg

/-- The pages that `swalloc` returns were free, in a swap file not being deleted. -/
def Allocates (s : State) (swappg : ℤ) (size : ℕ) : Prop :=
  ∀ blkno l s', swalloc swappg size s = (some (blkno, l), s') →
    ∃ i c pg, Usable s i c ∧
      blkno = (s.swaptab i).st_swplo + pg * 2 ^ DPPSHFT ∧
      l = (List.range size).map (fun k : ℕ => dbdOf i (s.swaptab i) (pg + k)) ∧
      ∀ k : ℕ, k < size → pg + k ∈ pages (s.swaptab i) ∧ c (pg + k) = 0

/-- `swapadd` returns the index of the entry it made active, or leaves all as it was. -/
def Adds (s : State) (dev lowblk nblks : ℤ) (openErr : Option Errno)
    (fails : Option (ℤ → ℤ)) : Prop :=
  ∀ r e s', swapadd dev lowblk nblks openErr fails s = (r, e, s') →
    (r = -1 ∧ s' = s) ∨
    ∃ i : Fin MSFILES, r = i.val ∧ (∀ c, ¬Usable s i c) ∧
      (∃ c, Usable s' i c ∧ (s'.swaptab i).st_dev = dev ∧ (s'.swaptab i).st_swplo = lowblk) ∧
      ∀ j, j ≠ i → s'.swaptab j = s.swaptab j

/-- What a call returns is right. -/
def Returns (s : Run) : Action → Prop
  | .swalloc size _ => Allocates s.st 0 size
  | .again size _ => size ∈ s.waiting → Allocates s.st (-1) size
  | .swapadd dev lowblk nblks openErr fails => Adds s.st dev lowblk nblks openErr fails
  | _ => True

/-! ## The condition -/

/-- The first free entry, if no entry in use is of the swap file. -/
def freeEntry (s : State) (dev lowblk : ℤ) : Option (Fin MSFILES) :=
  if ∀ i, (s.swaptab i).st_ucnt.isSome →
      ¬((s.swaptab i).st_dev = dev ∧ (s.swaptab i).st_swplo = lowblk) then
    (List.finRange MSFILES).find? fun i => (s.swaptab i).st_ucnt.isNone
  else none

/-- What `swapadd` needs of the entry it takes. -/
def Fits (st : Swpt) (dev lowblk nblks : ℤ) (openErr : Option Errno) (fails : Option (ℤ → ℤ)) :
    Prop :=
  if openErr.isSome then st.st_indel = false
  else if npgtbls (nblks >>> DPPSHFT) = 0 then st.setFile dev lowblk nblks = st
  else fails = none ∧ 0 ≤ nblks ∧ 0 ≤ lowblk ∧ lowblk + nblks >>> DPPSHFT * 2 ^ DPPSHFT ≤ 2 ^ 24

/-- The condition on the calls. -/
def Action.Clean (s : Run) : Action → Prop
  | .swalloc _ _ => ∃ i c, Usable s.st i c
  | .swapadd dev lowblk nblks openErr fails =>
    (∀ i c, Active s.st i c → (s.st.swaptab i).st_dev = dev → (s.st.swaptab i).st_swplo = lowblk →
      (s.st.swaptab i).st_npgs = nblks >>> DPPSHFT → (s.st.swaptab i).st_indel = false) ∧
    ∀ i, freeEntry s.st dev lowblk = some i →
      Fits (s.st.swaptab i) dev lowblk nblks openErr fails
  | _ => True

/-! ## The invariant -/

/-- An entry whose pages are numbered rightly, and where the search may go on. -/
structure Ranged (st : Swpt) : Prop where
  next_nonneg : 0 ≤ st.st_next
  next_le : st.st_next ≤ st.st_npgs
  swplo_nonneg : 0 ≤ st.st_swplo
  blocks_le : st.st_swplo + st.st_npgs * 2 ^ DPPSHFT ≤ 2 ^ 24

/-- The invariant of the swap files. -/
structure Inv (s : Run) : Prop extends Sound s where
  ranged : ∀ i c, Active s.st i c → Ranged (s.st.swaptab i)

theorem dbdOf_injective (i : Fin MSFILES) (st : Swpt) : (dbdOf i st).Injective := by
  intro pg pg' h
  have := congrArg Dbd.dbd_blkno h
  simp only [dbdOf, DPPSHFT] at this
  omega

theorem shiftRight_dppshft (n : ℤ) : n >>> DPPSHFT = n / 2 ^ DPPSHFT := by
  rw [Int.shiftRight_eq_div_pow, Nat.cast_pow, Nat.cast_two]

theorem shiftLeft_dppshft (n : ℤ) : n <<< DPPSHFT = n * 2 ^ DPPSHFT := by
  rw [Int.shiftLeft_eq]

/-- The page of a descriptor is the one it was set for. -/
theorem pgnbr_dbdOf (i : Fin MSFILES) (st : Swpt) (pg : ℤ) : pgnbr st (dbdOf i st pg) = pg := by
  rw [pgnbr, shiftRight_dppshft]
  simp only [dbdOf, DPPSHFT]
  omega

/-! ## The search -/

theorem firstUsed_none {c : ℤ → ℤ} {n : ℕ} {p : ℤ} (h : firstUsed c n p = none) :
    ∀ k : ℕ, k < n → c (p + k) = 0 := by
  induction n generalizing p with
  | zero => exact fun k hk => absurd hk k.not_lt_zero
  | succ n ih =>
    rw [firstUsed] at h
    split_ifs at h with hp
    rintro (_ | k) hk
    · simpa using hp
    · have := ih h k (by omega)
      rwa [Nat.cast_succ, ← add_assoc, add_right_comm]

theorem firstUsed_some {c : ℤ → ℤ} {n : ℕ} {p q : ℤ} (h : firstUsed c n p = some q) :
    p ≤ q ∧ q < p + n ∧ c q ≠ 0 := by
  induction n generalizing p with
  | zero => exact nomatch h
  | succ n ih =>
    rw [firstUsed] at h
    split_ifs at h with hp
    · exact Option.some.inj h ▸ ⟨le_rfl, by omega, hp⟩
    · obtain ⟨h₁, h₂, h₃⟩ := ih h
      exact ⟨by omega, by omega, h₃⟩

/-- The pages `pg`, …, `pg + size - 1` are free. -/
def FreeRun (c : ℤ → ℤ) (size : ℕ) (pg : ℤ) : Prop := ∀ k : ℕ, k < size → c (pg + k) = 0

variable {c : ℤ → ℤ} {size : ℕ}

/-- From a free page on, the pages are free up to the first one in use. -/
theorem freeRun_of_firstUsed {p : ℤ} (hp : c p = 0) (h : firstUsed c (size - 1) (p + 1) = none) :
    FreeRun c size p := by
  rintro (_ | k) hk
  · simpa using hp
  · have := firstUsed_none h k (by omega)
    rwa [Nat.cast_succ, add_comm (k : ℤ), ← add_assoc]

theorem scan_some {e p b : ℤ} {n : ℕ} (h : scan c size e n p = some b) :
    p ≤ b ∧ b ≤ e ∧ FreeRun c size b := by
  induction n generalizing p with
  | zero => exact nomatch h
  | succ n ih =>
    rw [scan] at h
    split_ifs at h with he hp
    · split at h
      · rename_i hu
        exact Option.some.inj h ▸ ⟨le_rfl, by omega, freeRun_of_firstUsed hp hu⟩
      · rename_i q hu
        have hq := (firstUsed_some hu).1
        obtain ⟨h₁, h₂⟩ := ih h
        exact ⟨by omega, h₂⟩
    · obtain ⟨h₁, h₂⟩ := ih h
      exact ⟨by omega, h₂⟩

/-- The search misses no free pages. -/
theorem scan_none {e p : ℤ} {n : ℕ} (hn : upto p e ≤ n) (hsize : 0 < size)
    (h : scan c size e n p = none) : ∀ b, p ≤ b → b ≤ e → ¬FreeRun c size b := by
  induction n generalizing p with
  | zero => unfold upto at hn; omega
  | succ n ih =>
    rw [scan] at h
    split_ifs at h with he hp
    · omega
    · split at h
      · exact nomatch h
      · rename_i q hu
        obtain ⟨hpq, hq, hcq⟩ := firstUsed_some hu
        intro b hpb hbe hb
        by_cases hbq : b ≤ q
        · -- The page in use is one of the pages from `b` on.
          obtain ⟨k, rfl⟩ := Int.le.dest hbq
          exact hcq (hb k (by omega))
        · exact ih (by unfold upto at hn ⊢; omega) h b (by omega) hbe hb
    · intro b hpb hbe hb
      rcases hpb.eq_or_lt with rfl | hlt
      · exact hp (by simpa using hb 0 hsize)
      · exact ih (by unfold upto at hn ⊢; omega) h b (by omega) hbe hb

variable {st : Swpt}

/-- `swapfind` finds free pages, or returns `-1`; it only moves where to go on. -/
theorem swapfind_spec (h : Ranged st) (size : ℕ) (c : ℤ → ℤ) :
    ∃ nx, (swapfind st c size).2 = { st with st_next := nx } ∧ 0 ≤ nx ∧ nx ≤ st.st_npgs ∧
      ((swapfind st c size).1 = -1 ∨ 0 ≤ (swapfind st c size).1 ∧
        (swapfind st c size).1 + size ≤ st.st_npgs ∧ FreeRun c size (swapfind st c size).1) := by
  have hn := h.next_nonneg
  have hle := h.next_le
  unfold swapfind
  dsimp only
  split
  · rename_i b hb
    obtain ⟨h₁, h₂, h₃⟩ := scan_some hb
    exact ⟨_, rfl, by omega, by omega, .inr ⟨by omega, by omega, h₃⟩⟩
  · split
    · rename_i b hb
      obtain ⟨h₁, h₂, h₃⟩ := scan_some hb
      exact ⟨_, rfl, by omega, by omega, .inr ⟨by omega, by omega, h₃⟩⟩
    · exact ⟨_, rfl, le_rfl, by omega, .inl rfl⟩

/-- The tables are the same, but for where the searches go on. -/
def Moved (tab tab' : Swaptab) : Prop :=
  ∀ i, ∃ nx, tab' i = { tab i with st_next := nx } ∧
    ((tab i).st_ucnt.isSome → Ranged (tab i) → 0 ≤ nx ∧ nx ≤ (tab i).st_npgs)

theorem Moved.refl (tab : Swaptab) : Moved tab tab :=
  fun _ => ⟨_, rfl, fun _ h => ⟨h.next_nonneg, h.next_le⟩⟩

theorem Moved.trans {tab tab' tab'' : Swaptab} (h : Moved tab tab') (h' : Moved tab' tab'') :
    Moved tab tab'' := by
  intro i
  obtain ⟨nx, hi, hr⟩ := h i
  obtain ⟨nx', hi', hr'⟩ := h' i
  rw [hi] at hi' hr'
  refine ⟨nx', hi', fun hc hst => hr' hc ?_⟩
  obtain ⟨h₀, h₁⟩ := hr hc hst
  exact ⟨h₀, h₁, hst.swplo_nonneg, hst.blocks_le⟩

theorem Moved.ucnt {tab tab' : Swaptab} (h : Moved tab tab') (i : Fin MSFILES) :
    (tab' i).st_ucnt = (tab i).st_ucnt ∧ (tab' i).st_indel = (tab i).st_indel := by
  obtain ⟨nx, hi, -⟩ := h i
  rw [hi]
  exact ⟨rfl, rfl⟩

/-- The pages that `search` found. -/
def Found (tab : Swaptab) (size : ℕ) (smi : Fin MSFILES) (pg : ℤ) : Prop :=
  ∃ c, (tab smi).st_ucnt = some c ∧ (tab smi).st_indel = false ∧ 0 ≤ pg ∧
    pg + size ≤ (tab smi).st_npgs ∧ FreeRun c size pg

/-- What is found in a table that differs in where to go on is found in the table. -/
theorem Found.of_moved {tab tab' : Swaptab} {smi : Fin MSFILES} {pg : ℤ} (h : Moved tab tab')
    (hf : Found tab' size smi pg) : Found tab size smi pg := by
  obtain ⟨nx, hi, -⟩ := h smi
  rw [Found, hi] at hf
  exact hf

theorem search_spec (size : ℕ) (start : Fin MSFILES) {l : List (Fin MSFILES)} {swappg : ℤ}
    {tab : Swaptab}
    (hr : ∀ i, (tab i).st_ucnt.isSome → Ranged (tab i))
    (hpg : swappg < 0 ∨ ∃ i ∈ l, (tab i).st_ucnt.isSome ∧ (tab i).st_indel = false) :
    Moved tab (search size start l swappg tab).2.2 ∧
      (0 ≤ (search size start l swappg tab).2.1 →
        Found tab size (search size start l swappg tab).1
          (search size start l swappg tab).2.1) := by
  induction l generalizing swappg tab with
  | nil =>
    rcases hpg with hpg | ⟨i, hi, -⟩
    · exact ⟨.refl tab, fun h => absurd hpg h.not_gt⟩
    · exact nomatch hi
  | cons smi l ih =>
    rw [search]
    split
    · rename_i c hc hd
      obtain ⟨nx, hst, hnx, hnx', hfind⟩ := swapfind_spec (hr smi (by rw [hc]; rfl)) size c
      have hmoved : Moved tab (Function.update tab smi (swapfind (tab smi) c size).2) := by
        intro i
        by_cases hi : i = smi
        · subst hi
          exact ⟨nx, by rw [Function.update_self, hst], fun _ _ => ⟨hnx, hnx'⟩⟩
        · rw [Function.update_of_ne hi]
          exact Moved.refl tab i
      dsimp only
      split_ifs with hfound
      · refine ⟨hmoved, fun _ => ?_⟩
        rcases hfind with hfind | ⟨h₁, h₂, h₃⟩
        · omega
        · exact ⟨c, hc, hd, h₁, h₂, h₃⟩
      · have hr' (i : Fin MSFILES)
            (hi : (Function.update tab smi (swapfind (tab smi) c size).2 i).st_ucnt.isSome) :
            Ranged (Function.update tab smi (swapfind (tab smi) c size).2 i) := by
          rw [(hmoved.ucnt i).1] at hi
          obtain ⟨nx, he, h⟩ := hmoved i
          obtain ⟨h₁, h₂⟩ := h hi (hr i hi)
          rw [he]
          exact ⟨h₁, h₂, (hr i hi).swplo_nonneg, (hr i hi).blocks_le⟩
        obtain ⟨hm, hf⟩ := ih hr' (.inl (not_le.1 hfound))
        exact ⟨hmoved.trans hm, fun h => (hf h).of_moved hmoved⟩
    · rename_i hskip
      refine ih hr (hpg.imp_right fun ⟨i, hi, hc, hd⟩ => ⟨i, ?_, hc, hd⟩)
      -- The file that was skipped is not one to allocate from.
      rcases List.mem_cons.1 hi with rfl | hi
      · obtain ⟨c, hc⟩ := Option.isSome_iff_exists.1 hc
        exact absurd hd (hskip c hc)
      · exact hi

theorem mem_round (start i : Fin MSFILES) : i ∈ round start :=
  List.mem_map.2 ⟨i - start, List.mem_finRange _, add_sub_cancel start i⟩

/-! ## What the calls do -/

variable {s : Run}

theorem Accounts.moved {i : Fin MSFILES} {l : List Dbd} (h : Accounts i st c l) (nx : ℤ) :
    Accounts i { st with st_next := nx } c l := ⟨h.free, h.counted, h.bound⟩

/-- Moving where to go on keeps the invariant. -/
theorem Inv.moved {tab : Swaptab} (h : Inv s) (hm : Moved s.st.swaptab tab) (n : Fin MSFILES)
    (w : List ℕ) : Inv ⟨⟨tab, n⟩, s.dbds, w⟩ := by
  have hact {i c} (hc : Active ⟨tab, n⟩ i c) : Active s.st i c := (hm.ucnt i).1.symm.trans hc
  refine ⟨⟨fun i c hc => ?_, fun i j c d hc hd hdev hlo => ?_, fun d hd => ?_⟩, fun i c hc => ?_⟩
  · obtain ⟨nx, he, -⟩ := hm i
    show Accounts i (tab i) c s.dbds
    rw [he]
    exact (h.accounts i c (hact hc)).moved nx
  · obtain ⟨nx, he, -⟩ := hm i
    obtain ⟨nx', he', -⟩ := hm j
    dsimp only at hdev hlo
    rw [he, he'] at hdev hlo
    exact h.apart i j c d (hact hc) (hact hd) hdev hlo
  · obtain ⟨c, hc, pg, hpg, hd⟩ := h.held d hd
    obtain ⟨nx, he, -⟩ := hm d.dbd_swpi
    refine ⟨c, (hm.ucnt _).1.trans hc, pg, ?_⟩
    show pg ∈ pages (tab d.dbd_swpi) ∧ d = dbdOf d.dbd_swpi (tab d.dbd_swpi) pg
    rw [he]
    exact ⟨hpg, hd⟩
  · obtain ⟨nx, he, hr⟩ := hm i
    have hrange := h.ranged i c (hact hc)
    obtain ⟨h₁, h₂⟩ := hr (by rw [hact hc]; rfl) hrange
    show Ranged (tab i)
    rw [he]
    exact ⟨h₁, h₂, hrange.swplo_nonneg, hrange.blocks_le⟩

/-- Writing an entry keeps the invariant, if its accounts are right for the
    descriptors there are then, and only its own descriptors change. -/
theorem Inv.set (h : Inv s) {i : Fin MSFILES} {st : Swpt} {l : List Dbd}
    (hl : ∀ d : Dbd, d.dbd_swpi ≠ i → l.count d = s.dbds.count d)
    (hst : ∀ c, st.st_ucnt = some c → Accounts i st c l ∧ Ranged st)
    (hapart : ∀ j d, st.st_ucnt.isSome → j ≠ i → Active s.st j d →
      ¬((s.st.swaptab j).st_dev = st.st_dev ∧ (s.st.swaptab j).st_swplo = st.st_swplo))
    (hheld : ∀ d ∈ l, d.dbd_swpi = i →
      ∃ c, st.st_ucnt = some c ∧ ∃ pg ∈ pages st, d = dbdOf i st pg)
    (n : Fin MSFILES) (w : List ℕ) : Inv ⟨⟨Function.update s.st.swaptab i st, n⟩, l, w⟩ := by
  let tab := Function.update s.st.swaptab i st
  have hi : tab i = st := Function.update_self ..
  have hne {j} (hj : j ≠ i) : tab j = s.st.swaptab j := Function.update_of_ne hj ..
  have hact {j c} (hj : j ≠ i) (hc : (tab j).st_ucnt = some c) : Active s.st j c := by
    rwa [hne hj] at hc
  refine ⟨⟨fun j c hc => ?_, fun j k c d hc hd hdev hlo => ?_, fun d hd => ?_⟩, fun j c hc => ?_⟩
  · show Accounts j (tab j) c l
    by_cases hj : j = i
    · subst hj
      rw [hi]
      exact (hst c (hi ▸ hc)).1
    · have ha := h.accounts j c (hact hj hc)
      rw [hne hj]
      refine ⟨ha.free, fun pg hpg => (ha.counted pg hpg).trans ?_, ha.bound⟩
      exact congrArg _ (hl (dbdOf j _ pg) hj).symm
  · change (tab j).st_dev = (tab k).st_dev at hdev
    change (tab j).st_swplo = (tab k).st_swplo at hlo
    change (tab j).st_ucnt = some c at hc
    change (tab k).st_ucnt = some d at hd
    by_cases hj : j = i <;> by_cases hk : k = i
    · exact hj.trans hk.symm
    · rw [hj, hi] at hc hdev hlo
      rw [hne hk] at hdev hlo
      exact absurd ⟨hdev.symm, hlo.symm⟩ (hapart k d (by rw [hc]; rfl) hk (hact hk hd))
    · rw [hk, hi] at hd hdev hlo
      rw [hne hj] at hdev hlo
      exact absurd ⟨hdev, hlo⟩ (hapart j c (by rw [hd]; rfl) hj (hact hj hc))
    · rw [hne hj, hne hk] at hdev hlo
      exact h.apart j k c d (hact hj hc) (hact hk hd) hdev hlo
  · show ∃ c, (tab d.dbd_swpi).st_ucnt = some c ∧
      ∃ pg ∈ pages (tab d.dbd_swpi), d = dbdOf d.dbd_swpi (tab d.dbd_swpi) pg
    by_cases hj : d.dbd_swpi = i
    · rw [hj, hi]
      exact hheld d hd hj
    · rw [hne hj]
      have hd' : d ∈ s.dbds := by
        rw [← List.count_pos_iff, ← hl d hj]
        exact List.count_pos_iff.2 hd
      exact h.held d hd'
  · show Ranged (tab j)
    by_cases hj : j = i
    · subst hj
      rw [hi]
      exact (hst c (hi ▸ hc)).2
    · rw [hne hj]
      exact h.ranged j c (hact hj hc)

/-- Writing the counters and the flag of an entry in use keeps it apart from the others. -/
theorem Inv.apart_of_active (h : Inv s) {i j : Fin MSFILES} {c d : ℤ → ℤ} (hi : Active s.st i c)
    (hj : j ≠ i) (hd : Active s.st j d) :
    ¬((s.st.swaptab j).st_dev = (s.st.swaptab i).st_dev ∧
      (s.st.swaptab j).st_swplo = (s.st.swaptab i).st_swplo) :=
  fun he => hj (h.apart j i d c hd hi he.1 he.2)

/-! ### Allocation -/

/-- An entry with `size` pages from `pg` on allocated. -/
def Swpt.alloc (st : Swpt) (c : ℤ → ℤ) (size : ℕ) (pg : ℤ) : Swpt :=
  { st with
    st_nfpgs := st.st_nfpgs - size
    st_ucnt := some (setOnes (fun k : ℕ => pg + k) size c) }

/-- The descriptors of the pages from `pg` on. -/
def newDbds (i : Fin MSFILES) (st : Swpt) (size : ℕ) (pg : ℤ) : List Dbd :=
  (List.range size).map fun k : ℕ => dbdOf i st (pg + k)

theorem dbds_eq {i : Fin MSFILES} {pg : ℤ} (h : Ranged st) (hpg : 0 ≤ pg)
    (hle : pg + size ≤ st.st_npgs) :
    dbds i (st.st_swplo + pg * 2 ^ DPPSHFT) size = newDbds i st size pg := by
  unfold dbds newDbds
  refine List.map_congr_left fun k hk => ?_
  have hk := List.mem_range.1 hk
  have hlo := h.swplo_nonneg
  have hhi := h.blocks_le
  rw [shiftLeft_dppshft, dbdOf, toBlkno]
  simp only [DPPSHFT, Dbd.mk.injEq, true_and] at hhi ⊢
  rw [Int.emod_eq_of_lt (by omega) (by omega)]
  omega

/-- A pass of `swalloc` finds no space, or takes free pages of a usable swap file. -/
theorem swalloc_spec (h : Inv s) (size : ℕ) {swappg : ℤ}
    (hpg : swappg < 0 ∨ ∃ i c, Usable s.st i c) :
    (∃ tab, swalloc swappg size s.st = (none, ⟨tab, s.st.nextswap⟩) ∧ Moved s.st.swaptab tab) ∨
    ∃ i c pg tab n, swalloc swappg size s.st =
        (some ((s.st.swaptab i).st_swplo + pg * 2 ^ DPPSHFT,
          newDbds i (s.st.swaptab i) size pg),
          ⟨Function.update tab i ((tab i).alloc c size pg), n⟩) ∧
      Moved s.st.swaptab tab ∧ Usable s.st i c ∧ 0 ≤ pg ∧
      pg + size ≤ (s.st.swaptab i).st_npgs ∧ FreeRun c size pg := by
  have hr (i) (hi : (s.st.swaptab i).st_ucnt.isSome) : Ranged (s.st.swaptab i) := by
    obtain ⟨c, hc⟩ := Option.isSome_iff_exists.1 hi
    exact h.ranged i c hc
  have hpg' : swappg < 0 ∨ ∃ i ∈ round s.st.nextswap,
      (s.st.swaptab i).st_ucnt.isSome ∧ (s.st.swaptab i).st_indel = false :=
    hpg.imp_right fun ⟨i, c, hc, hd⟩ => ⟨i, mem_round _ i, by rw [hc]; rfl, hd⟩
  obtain ⟨hm, hf⟩ := search_spec size s.st.nextswap hr hpg'
  unfold swalloc
  generalize search size s.st.nextswap (round s.st.nextswap) swappg s.st.swaptab = r at hm hf
  obtain ⟨i, pg, tab⟩ := r
  dsimp only at hm hf ⊢
  split_ifs with h0
  · obtain ⟨c, hc, hd, -, hle, hfree⟩ := hf h0
    have hrange := h.ranged i c hc
    obtain ⟨nx, he, -⟩ := hm i
    have hlo := hrange.swplo_nonneg
    have hhi := hrange.blocks_le
    have hblk : toLong ((tab i).st_swplo + pg <<< DPPSHFT) =
        (s.st.swaptab i).st_swplo + pg * 2 ^ DPPSHFT := by
      rw [he, shiftLeft_dppshft]
      simp only [DPPSHFT] at hhi ⊢
      exact toLong_of_mem (by omega) (by omega)
    refine .inr ⟨i, c, pg, tab, i + 1, ?_, hm, ⟨hc, hd⟩, h0, hle, hfree⟩
    rw [hblk, dbds_eq hrange h0 hle, Swpt.alloc, (hm.ucnt i).1, hc]
    rfl
  · exact .inl ⟨tab, rfl, hm⟩

theorem Inv.allocates (h : Inv s) {swappg : ℤ} (hpg : swappg < 0 ∨ ∃ i c, Usable s.st i c) :
    Allocates s.st swappg size := by
  intro blkno l s' hs'
  rcases swalloc_spec h size hpg with ⟨tab, he, -⟩ | ⟨i, c, pg, tab, n, he, -, hu, h0, hle, hf⟩
  · rw [he] at hs'
    exact nomatch (Prod.mk.inj hs').1
  · rw [he] at hs'
    obtain ⟨rfl, rfl⟩ := Prod.mk.inj (Option.some.inj (Prod.mk.inj hs').1)
    exact ⟨i, c, pg, hu, rfl, rfl, fun k hk => ⟨mem_pages.2 ⟨by omega, by omega⟩, hf k hk⟩⟩

/-- The pages taken are accounted for. -/
theorem Accounts.alloc {i : Fin MSFILES} {l : List Dbd} {pg : ℤ} (h : Accounts i st c l)
    (h0 : 0 ≤ pg) (hle : pg + size ≤ st.st_npgs) (hf : FreeRun c size pg) :
    Accounts i (st.alloc c size pg) (setOnes (fun k : ℕ => pg + k) size c)
      (newDbds i st size pg ++ l) := by
  have hinj : (fun k : ℕ => pg + (k : ℤ)).Injective := fun a b hab => by
    simpa using hab
  refine ⟨?_, h.counted.fresh (dbdOf_injective i st) hinj hf, fun k hk =>
    setOnes_le (by decide) (h.bound k hk)⟩
  have hz := zeros_fresh (s := pages st)
    (fun k hk => mem_pages.2 ⟨by omega, by omega⟩) hinj hf
  have hfree := h.free
  show st.st_nfpgs - size = zeros (pages st) _
  omega

theorem Inv.pass (h : Inv s) {swappg : ℤ} (hpg : swappg < 0 ∨ ∃ i c, Usable s.st i c)
    (goOn : Bool) : Inv (s.pass swappg size goOn) := by
  unfold Run.pass
  rcases swalloc_spec h size hpg with ⟨tab, he, hm⟩ | ⟨i, c, pg, tab, n, he, hm, hu, h0, hle, hf⟩
  · rw [he]
    exact h.moved hm _ _
  · rw [he]
    have h' := h.moved hm s.st.nextswap s.waiting
    obtain ⟨nx, hi, -⟩ := hm i
    have hc : Active ⟨tab, s.st.nextswap⟩ i c := (hm.ucnt i).1.trans hu.1
    have hacc := h'.accounts i c hc
    have hrange := h'.ranged i c hc
    have hst : newDbds i (s.st.swaptab i) size pg = newDbds i (tab i) size pg := by rw [hi]; rfl
    have hle' : pg + size ≤ (tab i).st_npgs := by rw [hi]; exact hle
    rw [hst]
    refine h'.set (fun d hd => ?_) (fun d hd => ?_) (fun j d _ hj hd => ?_) (fun d hd hdi => ?_) n
      s.waiting
    · rw [List.count_append, List.count_eq_zero.2, zero_add]
      intro hmem
      obtain ⟨k, -, rfl⟩ := List.mem_map.1 hmem
      exact hd rfl
    · obtain rfl := Option.some.inj hd
      exact ⟨hacc.alloc h0 hle' hf, ⟨hrange.next_nonneg, hrange.next_le, hrange.swplo_nonneg,
        hrange.blocks_le⟩⟩
    · exact h'.apart_of_active hc hj hd
    · refine ⟨_, rfl, ?_⟩
      rcases List.mem_append.1 hd with hd | hd
      · obtain ⟨k, hk, rfl⟩ := List.mem_map.1 hd
        have hk := List.mem_range.1 hk
        exact ⟨pg + k, mem_pages.2 ⟨by omega, by show pg + k < (tab i).st_npgs; omega⟩, rfl⟩
      · obtain ⟨-, -, k, hk, hdk⟩ := h'.held d hd
        subst hdi
        exact ⟨k, hk, hdk⟩

/-! ### Use counts -/

/-- The counters of a page that is held, and the page. -/
theorem Inv.page (h : Inv s) {d : Dbd} (hd : d ∈ s.dbds) :
    ∃ c, Active s.st d.dbd_swpi c ∧
      ∃ pg ∈ pages (s.st.swaptab d.dbd_swpi), d = dbdOf d.dbd_swpi (s.st.swaptab d.dbd_swpi) pg ∧
        pgnbr (s.st.swaptab d.dbd_swpi) d = pg ∧ 0 < c pg ∧ c pg ≤ MAXSUSE := by
  obtain ⟨c, hc, pg, hpg, he⟩ := h.held d hd
  have hacc := h.accounts _ c hc
  refine ⟨c, hc, pg, hpg, he, ?_, hacc.counted.pos hpg (he ▸ hd), hacc.bound pg hpg⟩
  conv_lhs => rw [he]
  exact pgnbr_dbdOf _ _ _

/-- A counter changes by a reference to its page, and no other. -/
theorem Inv.recount (h : Inv s) {i : Fin MSFILES} {c : ℤ → ℤ} {pg v nfpgs : ℤ} {l : List Dbd}
    (hc : Active s.st i c) (hpg : pg ∈ pages (s.st.swaptab i)) (hpos : c pg ≠ 0) (hv : v ≤ MAXSUSE)
    (hn : nfpgs = (s.st.swaptab i).st_nfpgs + if v = 0 then 1 else 0)
    (hcount : Counted (pages (s.st.swaptab i)) (dbdOf i (s.st.swaptab i))
      (Function.update c pg v) l)
    (hl : ∀ d : Dbd, d.dbd_swpi ≠ i → l.count d = s.dbds.count d)
    (hmem : ∀ d ∈ l, d ∈ s.dbds) (n : Fin MSFILES) (w : List ℕ) :
    Inv ⟨⟨Function.update s.st.swaptab i { s.st.swaptab i with
      st_ucnt := some (Function.update c pg v)
      st_nfpgs := nfpgs }, n⟩, l, w⟩ := by
  have hacc := h.accounts i c hc
  have hrange := h.ranged i c hc
  refine h.set hl (fun d hd => ?_) (fun j d _ hj hd => ?_) (fun d hd hdi => ?_) n w
  · obtain rfl := Option.some.inj hd
    refine ⟨⟨?_, hcount, fun k hk => ?_⟩, ⟨hrange.next_nonneg, hrange.next_le,
      hrange.swplo_nonneg, hrange.blocks_le⟩⟩
    · have hz := zeros_update (c := c) hpg v
      rw [if_neg hpos, add_zero] at hz
      show nfpgs = (zeros (pages (s.st.swaptab i)) _ : ℤ)
      rw [hn, hacc.free, hz]
      split_ifs <;> simp
    · rw [Function.update_apply]
      split_ifs
      · exact hv
      · exact hacc.bound k hk
  · exact h.apart_of_active hc hj hd
  · obtain ⟨-, -, k, hk, hdk⟩ := h.held d (hmem d hd)
    subst hdi
    exact ⟨_, rfl, k, hk, hdk⟩

theorem Inv.free {s' : Run} (h : Inv s) {d : Dbd} (hs' : s.free d = some s') : Inv s' := by
  unfold Run.free swfree1 at hs'
  split_ifs at hs' with hd
  obtain ⟨c, hc, pg, hpg, he, hpgnbr, hpos, hmax⟩ := h.page hd
  obtain ⟨r, hr, rfl⟩ := Option.map_eq_some_iff.1 hs'
  dsimp only at hr
  rw [hc] at hr
  obtain rfl := Option.some.inj hr
  have hv : toUchar (c pg - 1) = c pg - 1 := by
    unfold MAXSUSE at hmax
    exact toUchar_of_mem (by omega) (by omega)
  dsimp only
  rw [hpgnbr, hv]
  have hacc := h.accounts _ c hc
  have hdec := hacc.counted.dec (dbdOf_injective _ _) (he ▸ hd)
  rw [← he] at hdec
  refine h.recount hc hpg hpos.ne' (by omega) ?_ hdec (fun d' hd' => ?_)
    (fun d' hd' => List.mem_of_mem_erase hd') _ _
  · split_ifs <;> simp
  · exact List.count_erase_of_ne fun heq => hd' (congrArg Dbd.dbd_swpi heq)

theorem Inv.inc {s' : Run} (h : Inv s) {d : Dbd} (hs' : next s (.swpinc d) = some s') : Inv s' := by
  unfold next swpinc at hs'
  dsimp only at hs'
  split_ifs at hs' with hd
  obtain ⟨c, hc, pg, hpg, he, hpgnbr, hpos, hmax⟩ := h.page hd
  rw [hc, hpgnbr] at hs'
  simp only [Option.map_some, Option.some.injEq] at hs'
  by_cases hfull : c pg ≥ MAXSUSE
  · rw [if_pos hfull] at hs'
    exact hs' ▸ h
  · rw [if_neg hfull] at hs'
    subst hs'
    have hv : toUchar (c pg + 1) = c pg + 1 := by
      unfold MAXSUSE at hfull
      exact toUchar_of_mem (by omega) (by omega)
    rw [hv]
    have hinc := (h.accounts _ c hc).counted.inc (dbdOf_injective _ _) pg
    rw [← he] at hinc
    refine h.recount hc hpg hpos.ne' (by omega) ?_ hinc (fun d' hd' => ?_) (fun d' hd' => ?_) _ _
    · rw [if_neg (by omega), add_zero]
    · exact List.count_cons_of_ne fun heq => hd' (congrArg Dbd.dbd_swpi heq).symm
    · rcases List.mem_cons.1 hd' with rfl | hd'
      · exact hd
      · exact hd'

/-! ### Swap files -/

/-- The loop of `swapadd` finds no entry in use of the swap file, and the first free
    one; or it fails with one that is not being deleted, or of another size. -/
theorem addLoop_spec (dev lowblk nblks : ℤ) (tab : Swaptab) (l : List (Fin MSFILES))
    (acc : Option (Fin MSFILES))
    (hclean : ∀ i ∈ l, (tab i).st_ucnt.isSome → (tab i).st_dev = dev → (tab i).st_swplo = lowblk →
      (tab i).st_npgs = nblks >>> DPPSHFT → (tab i).st_indel = false) :
    addLoop dev lowblk nblks tab l acc = .error (-1, some .eexist, tab) ∨
    addLoop dev lowblk nblks tab l acc = .ok (acc.or (l.find? fun i => (tab i).st_ucnt.isNone)) ∧
      ∀ i ∈ l, (tab i).st_ucnt.isSome → ¬((tab i).st_dev = dev ∧ (tab i).st_swplo = lowblk) := by
  induction l generalizing acc with
  | nil => exact .inr ⟨by simp [addLoop], fun _ h => nomatch h⟩
  | cons i l ih =>
    have hl := fun j hj => hclean j (List.mem_cons_of_mem i hj)
    rw [addLoop]
    cases hc : (tab i).st_ucnt with
    | none =>
      have hsome : ¬(tab i).st_ucnt.isSome := by simp [hc]
      rw [List.find?_cons_of_pos (by simp [hc])]
      refine (ih (acc.or (some i)) hl).imp id (And.imp (fun h => ?_) fun h j hj => ?_)
      · cases acc <;> simpa using h
      · rcases List.mem_cons.1 hj with rfl | hj
        · exact fun h => absurd h hsome
        · exact h j hj
    | some c =>
      rw [List.find?_cons_of_neg (by simp [hc]), if_neg (by simp)]
      split_ifs with hfile hdel
      · have := hclean i List.mem_cons_self (by simp [hc]) hfile.1 hfile.2 hdel.2
        exact absurd hdel.1 (by simp [this])
      · exact .inl rfl
      · refine (ih acc hl).imp id (And.imp id fun h j hj => ?_)
        rcases List.mem_cons.1 hj with rfl | hj
        · exact fun _ => hfile
        · exact h j hj

/-- A new swap file. -/
def newFile (dev lowblk nblks : ℤ) : Swpt :=
  ⟨dev, false, some fun _ => 0, 0, lowblk, nblks >>> DPPSHFT, nblks >>> DPPSHFT⟩

theorem State.set_self (s : State) (i : Fin MSFILES) : s.set i (s.swaptab i) = s := by
  unfold State.set
  rw [Function.update_eq_self]

/-- `swapadd` fails and leaves all as it was, or takes a free entry. -/
theorem swapadd_spec {dev lowblk nblks : ℤ} {openErr : Option Errno} {fails : Option (ℤ → ℤ)}
    (hclean : (Action.swapadd dev lowblk nblks openErr fails).Clean s) :
    (∃ e, swapadd dev lowblk nblks openErr fails s.st = (-1, e, s.st)) ∨
    ∃ i, swapadd dev lowblk nblks openErr fails s.st =
        ((i.val : ℤ), none, s.st.set i (newFile dev lowblk nblks)) ∧
      (s.st.swaptab i).st_ucnt = none ∧
      (∀ j c, Active s.st j c →
        ¬((s.st.swaptab j).st_dev = dev ∧ (s.st.swaptab j).st_swplo = lowblk)) ∧
      0 ≤ nblks ∧ 0 ≤ lowblk ∧ lowblk + nblks >>> DPPSHFT * 2 ^ DPPSHFT ≤ 2 ^ 24 := by
  obtain ⟨hdel, hfits⟩ := hclean
  unfold swapadd
  rcases addLoop_spec dev lowblk nblks s.st.swaptab (List.finRange MSFILES) none (fun i _ hc => by
    obtain ⟨c, hc⟩ := Option.isSome_iff_exists.1 hc
    exact hdel i c hc) with he | ⟨he, hnone⟩
  · rw [he]
    exact .inl ⟨_, rfl⟩
  · rw [he, Option.none_or]
    have hfree : freeEntry s.st dev lowblk =
        (List.finRange MSFILES).find? fun i => (s.st.swaptab i).st_ucnt.isNone :=
      if_pos fun i => hnone i (List.mem_finRange i)
    cases hi : (List.finRange MSFILES).find? fun i => (s.st.swaptab i).st_ucnt.isNone with
    | none => exact .inl ⟨_, rfl⟩
    | some i =>
      have hc : (s.st.swaptab i).st_ucnt = none := by simpa using List.find?_some hi
      have hfit := hfits i (hfree.trans hi)
      unfold Fits at hfit
      dsimp only
      cases openErr with
      | some e =>
        have hsame : { s.st.swaptab i with
            st_ucnt := none, st_indel := false } = s.st.swaptab i := by
          rw [← hc, ← (show (s.st.swaptab i).st_indel = false from hfit)]
        refine .inl ⟨some e, ?_⟩
        dsimp only
        rw [hsame, State.set_self]
      | none =>
        rw [if_neg (by simp)] at hfit
        dsimp only
        by_cases hz : npgtbls (nblks >>> DPPSHFT) = 0
        · rw [if_pos hz] at hfit
          have hnull : uptalloc (npgtbls ((s.st.swaptab i).setFile dev lowblk nblks).st_npgs)
              fails = none := if_pos hz
          refine .inl ⟨none, ?_⟩
          rw [hnull, hfit]
          dsimp only
          rw [← hc, State.set_self]
        · rw [if_neg hz] at hfit
          obtain ⟨rfl, hn, hlo, hhi⟩ := hfit
          have hzero : uptalloc (npgtbls ((s.st.swaptab i).setFile dev lowblk nblks).st_npgs) none =
              some fun _ => 0 := if_neg hz
          refine .inr ⟨i, ?_, hc, fun j c hj => hnone j (List.mem_finRange j) ?_, hn, hlo, hhi⟩
          · rw [hzero]
            rfl
          · rw [hj]
            rfl

theorem adds {dev lowblk nblks : ℤ} {openErr : Option Errno} {fails : Option (ℤ → ℤ)}
    (hclean : (Action.swapadd dev lowblk nblks openErr fails).Clean s) :
    Adds s.st dev lowblk nblks openErr fails := by
  intro r e s' hs'
  rcases swapadd_spec hclean with ⟨e', he⟩ | ⟨i, he, hc, -⟩
  · rw [he] at hs'
    obtain ⟨rfl, rfl, rfl⟩ : -1 = r ∧ e' = e ∧ s.st = s' := by simpa using hs'
    exact .inl ⟨rfl, rfl⟩
  · rw [he] at hs'
    obtain ⟨rfl, rfl, rfl⟩ : (i.val : ℤ) = r ∧ none = e ∧ s.st.set i _ = s' := by simpa using hs'
    have hi : (s.st.set i (newFile dev lowblk nblks)).swaptab i = newFile dev lowblk nblks :=
      Function.update_self ..
    refine .inr ⟨i, rfl, fun c hu => ?_, ⟨fun _ => 0, ?_⟩, fun j hj => Function.update_of_ne hj ..⟩
    · rw [Usable, Active, hc] at hu
      exact nomatch hu.1
    · rw [Usable, Active, hi]
      exact ⟨⟨rfl, rfl⟩, rfl, rfl⟩

theorem Inv.swapadd {dev lowblk nblks : ℤ} {openErr : Option Errno} {fails : Option (ℤ → ℤ)}
    (h : Inv s) (hclean : (Action.swapadd dev lowblk nblks openErr fails).Clean s) :
    Inv { s with st := (Swap.swapadd dev lowblk nblks openErr fails s.st).2.2 } := by
  rcases swapadd_spec hclean with ⟨e', he⟩ | ⟨i, he, hc, hapart, hn, hlo, hhi⟩
  · rw [he]
    exact h
  · rw [he]
    have hnone {d} (hd : d ∈ s.dbds) : d.dbd_swpi ≠ i := by
      rintro rfl
      obtain ⟨c, hc', -⟩ := h.held d hd
      exact nomatch hc.symm.trans hc'
    have hpgs : 0 ≤ nblks >>> DPPSHFT := by
      rw [shiftRight_dppshft]
      exact Int.ediv_nonneg hn (by decide)
    refine h.set (fun _ _ => rfl) (fun c he => ?_) (fun j c _ hj hd => hapart j c hd)
      (fun d hd hdi => absurd hdi (hnone hd)) _ _
    obtain rfl := Option.some.inj he
    refine ⟨⟨?_, counted_zero (fun _ _ => rfl) fun pg _ hmem => hnone hmem rfl,
      fun _ _ => show (0 : ℤ) ≤ MAXSUSE by decide⟩, le_rfl, hpgs, hlo, hhi⟩
    rw [zeros_eq_card fun _ _ => rfl, card_pages]
    exact (Int.toNat_of_nonneg hpgs).symm

theorem Inv.getswap {i : Fin MSFILES} {freed : List Dbd} {s' : Run} (h : Inv s)
    (hs' : s.getswap i freed = some s') : Inv s' := by
  unfold Run.getswap at hs'
  split_ifs at hs'
  clear * - h hs'
  induction freed generalizing s with
  | nil => exact Option.some.inj hs' ▸ h
  | cons d freed ih =>
    obtain ⟨s₁, hs₁, hs'⟩ := Option.bind_eq_some_iff.1 hs'
    exact ih (h.free hs₁) hs'

/-- Marking an entry keeps the invariant. -/
theorem Inv.mark (h : Inv s) (i : Fin MSFILES) :
    Inv { s with st := s.st.set i { s.st.swaptab i with st_indel := true } } := by
  refine h.set (fun _ _ => rfl) (fun c hc => ?_) (fun j d hi hj hd => ?_) (fun d hd hdi => ?_) _ _
  · have hacc := h.accounts i c hc
    have hrange := h.ranged i c hc
    exact ⟨⟨hacc.free, hacc.counted, hacc.bound⟩, ⟨hrange.next_nonneg, hrange.next_le,
      hrange.swplo_nonneg, hrange.blocks_le⟩⟩
  · obtain ⟨c, hc⟩ := Option.isSome_iff_exists.1 hi
    exact h.apart_of_active hc hj hd
  · obtain ⟨c, hc, pg, hpg, he⟩ := h.held d hd
    subst hdi
    exact ⟨c, hc, pg, hpg, he⟩

/-- A swap file whose pages are all free can be removed. -/
theorem Inv.remove (h : Inv s) {i : Fin MSFILES}
    (hfree : (s.st.swaptab i).st_nfpgs = (s.st.swaptab i).st_npgs) :
    Inv { s with st := s.st.set i { s.st.swaptab i with st_ucnt := none } } := by
  refine h.set (fun _ _ => rfl) (fun c hc => absurd hc (by simp))
    (fun j d hi => absurd hi (by simp)) (fun d hd hdi => ?_) _ _
  obtain ⟨c, hc, pg, hpg, he⟩ := h.held d hd
  subst hdi
  have hacc := h.accounts _ c hc
  have hcard : zeros (pages (s.st.swaptab d.dbd_swpi)) c =
      (pages (s.st.swaptab d.dbd_swpi)).card := by
    have hlt := mem_pages.1 hpg
    have := hacc.free
    rw [card_pages]
    omega
  exact absurd (he ▸ hd) (hacc.counted.not_mem hpg (eq_zero_of_zeros_eq_card hcard pg hpg))

theorem Inv.swapdel {dev lowblk : ℤ} {freed : List Dbd} {e : Option Errno} {s' : Run} (h : Inv s)
    (hs' : s.swapdel dev lowblk freed = some (e, s')) : Inv s' := by
  unfold Run.swapdel at hs'
  split at hs'
  · obtain ⟨-, rfl⟩ := Prod.mk.inj (Option.some.inj hs')
    exact h
  · obtain ⟨-, rfl⟩ := Prod.mk.inj (Option.some.inj hs')
    exact h
  · rename_i i _
    obtain ⟨s₁, hs₁, he⟩ := Option.map_eq_some_iff.1 hs'
    have h₁ := (h.mark i).getswap hs₁
    dsimp only at he
    split_ifs at he with hfree
    · obtain ⟨-, rfl⟩ := Prod.mk.inj he
      exact h₁.remove hfree
    · obtain ⟨-, rfl⟩ := Prod.mk.inj he
      exact h₁

/-! ## Runs -/

theorem Inv.step {s' : Run} {a : Action} (h : Inv s) (hclean : a.Clean s)
    (hs' : swap.next s a = some s') : Inv s' := by
  cases a with
  | swalloc size goOn =>
    change (if 0 < size then some (s.pass 0 size goOn) else none) = some s' at hs'
    split_ifs at hs' with hsize
    exact Option.some.inj hs' ▸ h.pass (.inr hclean) goOn
  | again size goOn =>
    change (if size ∈ s.waiting then _ else none) = some s' at hs'
    split_ifs at hs' with hw
    have h' : Inv { s with waiting := s.waiting.erase size } :=
      ⟨⟨h.accounts, h.apart, h.held⟩, h.ranged⟩
    exact Option.some.inj hs' ▸ h'.pass (.inl (by decide)) goOn
  | swfree1 d => exact h.free hs'
  | swpinc d => exact h.inc hs'
  | swapadd dev lowblk nblks openErr fails => exact Option.some.inj hs' ▸ h.swapadd hclean
  | swapdel dev lowblk freed =>
    obtain ⟨r, hr, rfl⟩ := Option.map_eq_some_iff.1 hs'
    exact h.swapdel hr

theorem Inv.init : swap.init s → Inv s := by
  rintro rfl
  exact ⟨⟨nofun, nofun, nofun⟩, nofun⟩

theorem Inv.returns (h : Inv s) {a : Action} (hclean : a.Clean s) : Returns s a := by
  cases a with
  | swalloc size goOn => exact h.allocates (.inr hclean)
  | again size goOn => exact fun _ => h.allocates (.inl (by decide))
  | swapadd dev lowblk nblks openErr fails => exact adds hclean
  | _ => trivial

/-- As long as the calls meet the condition, the swap files are accounted for and
    the calls return what they should. -/
theorem swap_sound (s : Run) (hs : swap.ReachableIf (fun s a => a.Clean s) s) :
    Sound s ∧ ∀ a, a.Clean s → Returns s a := by
  have h : Inv s := hs.invariant (fun _ => Inv.init) fun _ _ _ h hok hn => h.step hok hn
  exact ⟨h.toSound, fun _ => h.returns⟩

/-! ## A swap file taken up again -/

/-- Two swap files of a page each, a page allocated in the first, which is deleted. -/
def usedFile : List Action :=
  [.swapadd 0 0 16 none none, .swapadd 1 0 16 none none, .swalloc 1 false, .swapdel 0 0 []]

/-- The first swap file is being deleted, and `swapadd` takes it up again. -/
theorem run_usedFile (s₀ : Run) (h₀ : swap.init s₀) : ∃ s s', swap.run s₀ usedFile = some s ∧
    (s.st.swaptab 0).st_indel = true ∧
    swapadd 0 0 16 none none s.st = (-1, none, s') ∧ (s'.swaptab 0).st_indel = false := by
  subst h₀
  exact ⟨_, _, rfl, rfl, rfl, rfl⟩

/-- The calls do not always return what they should. -/
theorem not_swap_sound : ¬∀ s, swap.Reachable s → Sound s ∧ ∀ a, Returns s a := by
  intro h
  obtain ⟨s, s', hs, hdel, hadd, hnew⟩ := run_usedFile _ rfl
  have hreach : swap.Reachable s := Machine.reachableIf_run (.init rfl) (fun _ _ _ => trivial) hs
  rcases (h s hreach).2 (.swapadd 0 0 16 none none) _ _ _ hadd with ⟨-, hsame⟩ | ⟨i, hi, -⟩
  · rw [hsame, hdel] at hnew
    exact nomatch hnew
  · omega

/-- With one swap file added, the page it has is allocated soundly. -/
theorem sound_newFile : ∃ s, swap.next ⟨⟨fun _ => ⟨0, false, none, 0, 0, 0, 0⟩, 0⟩, [], []⟩
      (.swapadd 0 0 16 none none) = some s ∧
    Sound s ∧ Allocates s.st 0 1 ∧ (swalloc 0 1 s.st).1 = some (0, [⟨0, 0⟩]) := by
  let s₀ : Run := ⟨⟨fun _ => ⟨0, false, none, 0, 0, 0, 0⟩, 0⟩, [], []⟩
  have hs : ∃ s, swap.next s₀ (.swapadd 0 0 16 none none) = some s ∧
      (∃ c, Usable s.st 0 c) ∧ (swalloc 0 1 s.st).1 = some (0, [⟨0, 0⟩]) :=
    ⟨_, rfl, ⟨_, rfl, rfl⟩, rfl⟩
  obtain ⟨s, hs, hu, hr⟩ := hs
  have hclean : (Action.swapadd 0 0 16 none none).Clean s₀ :=
    ⟨nofun, fun i _ => show Fits ⟨0, false, none, 0, 0, 0, 0⟩ 0 0 16 none none from
      ⟨rfl, by decide, by decide, by decide⟩⟩
  obtain ⟨hsound, hret⟩ := swap_sound s (.step (.init rfl) hclean hs)
  exact ⟨s, hs, hsound, hret (.swalloc 1 false) ⟨0, hu⟩, hr⟩

end AuxKernel.Swap
