import Mathlib.Data.Fintype.Basic
import Mathlib.Data.List.FinRange
import AuxKernel.System
import AuxKernel.Basic
import AuxKernel.UseCounts

/-!
# Swap files

`swalloc`, `swfree1`, `swpinc`, `swapadd` and `swapdel` (`PAGING/os/swapalloc.c`),
on the table of the swap files (`swaptab`). The counters of an entry are a function
of the page, and pointers to them are page numbers; `none` is the null pointer.

A step is a call, but for `swalloc`: it is a pass over the table, and as many
further ones as find no space, when there were unused texts to remove, or the
caller waits. What may go wrong in a call is part of the step: an error of the
device's `d_open`, and where the page tables that `uptalloc` fails to get point to.

The machine (`swap`) remembers the disk block descriptors that refer to swap space.
-/

namespace AuxKernel.Swap

open UseCounts

/-- The number of swap files there may be. -/
def MSFILES : ℕ := 16

/-- The most often a page may be shared. -/
def MAXSUSE : ℤ := 255

/-- The shift for disk blocks per page. -/
def DPPSHFT : ℕ := 4

/-- The size of a page table. -/
def PTSIZE : ℤ := 1024

instance : NeZero MSFILES := ⟨by decide⟩

/-- A swap file; of its flags `ST_INDEL`. -/
structure Swpt where
  st_dev : ℤ
  st_indel : Bool
  st_ucnt : Option (ℤ → ℤ)
  st_next : ℤ
  st_swplo : ℤ
  st_npgs : ℤ
  st_nfpgs : ℤ

/-- The table of the swap files. -/
abbrev Swaptab : Type := Fin MSFILES → Swpt

/-- A disk block descriptor of type `DBD_SWAP`. -/
structure Dbd where
  dbd_swpi : Fin MSFILES
  dbd_blkno : ℤ
  deriving DecidableEq

/-- The value stored in `dbd_blkno`, which has 24 bits. -/
def toBlkno (n : ℤ) : ℤ := n % 2 ^ 24

/-- The swap files, and where to look first. -/
structure State where
  swaptab : Swaptab
  nextswap : Fin MSFILES

def State.set (s : State) (i : Fin MSFILES) (st : Swpt) : State :=
  { s with swaptab := Function.update s.swaptab i st }

/-! ## Allocation -/

/-- The first of the `n` counters from `p` that is not zero. -/
def firstUsed (c : ℤ → ℤ) : (n : ℕ) → (p : ℤ) → Option ℤ
  | 0, _ => none
  | n + 1, p => if c p ≠ 0 then some p else firstUsed c n (p + 1)

/-- The first of `size` zero counters, from `p` and no further than `e`. -/
def scan (c : ℤ → ℤ) (size : ℕ) (e : ℤ) : (fuel : ℕ) → (p : ℤ) → Option ℤ
  | 0, _ => none
  | n + 1, p =>
    if e < p then none
    else if c p = 0 then
      match firstUsed c (size - 1) (p + 1) with
      | none => some p
      | some q => scan c size e n (q + 1)
    else scan c size e n (p + 1)

/-- The pages up to `e`, from `p`. -/
def upto (p e : ℤ) : ℕ := (e + 1 - p).toNat

/-- Search the counters for `size` free pages in a row, from `st_next` on and then
    before it: the first one, or `-1`. -/
def swapfind (st : Swpt) (c : ℤ → ℤ) (size : ℕ) : ℤ × Swpt :=
  let e := st.st_npgs - size
  match scan c size e (upto st.st_next e) st.st_next with
  | some b => (b, { st with st_next := b + size })
  | none =>
    let e := st.st_next - size
    match scan c size e (upto 0 e) 0 with
    | some b => (b, { st with st_next := b + size })
    | none => (-1, { st with st_next := 0 })

/-- Search the swap files of a list. If none has the pages, `swappg` is what it
    was last, and `smi` the file the search began with. -/
def search (size : ℕ) (start : Fin MSFILES) :
    List (Fin MSFILES) → (swappg : ℤ) → Swaptab → Fin MSFILES × ℤ × Swaptab
  | [], swappg, tab => (start, swappg, tab)
  | smi :: l, swappg, tab =>
    match (tab smi).st_ucnt, (tab smi).st_indel with
    | some c, false =>
      let (pg, st) := swapfind (tab smi) c size
      let tab := Function.update tab smi st
      if 0 ≤ pg then (smi, pg, tab) else search size start l pg tab
    | _, _ => search size start l swappg tab

/-- The swap files, from `start` round to the one before it. -/
def round (start : Fin MSFILES) : List (Fin MSFILES) := (List.finRange MSFILES).map (start + ·)

/-- The descriptors of `size` pages from the block `blkno`. -/
def dbds (smi : Fin MSFILES) (blkno : ℤ) (size : ℕ) : List Dbd :=
  (List.range size).map fun i : ℕ => ⟨smi, toBlkno (blkno + (i : ℤ) <<< DPPSHFT)⟩

/-- A pass of `swalloc` over the table, with `swappg` as it is before it: the first
    block and the descriptors, if there is space. Counters behind a null pointer are
    not those of a swap file. -/
def swalloc (swappg : ℤ) (size : ℕ) (s : State) : Option (ℤ × List Dbd) × State :=
  let (smi, pg, tab) := search size s.nextswap (round s.nextswap) swappg s.swaptab
  if 0 ≤ pg then
    let st := tab smi
    let blkno := toLong (st.st_swplo + pg <<< DPPSHFT)
    let st := { st with
      st_nfpgs := st.st_nfpgs - size
      st_ucnt := st.st_ucnt.map (setOnes (fun i => pg + i) size) }
    (some (blkno, dbds smi blkno size), ⟨Function.update tab smi st, smi + 1⟩)
  else (none, { s with swaptab := tab })

/-! ## Use counts -/

/-- The page of a descriptor, in its swap file. -/
def pgnbr (st : Swpt) (dbd : Dbd) : ℤ := (dbd.dbd_blkno - st.st_swplo) >>> DPPSHFT

/-- Free a page: the use count it is left with. -/
def swfree1 (dbd : Dbd) (s : State) : Option (ℤ × State) :=
  let st := s.swaptab dbd.dbd_swpi
  st.st_ucnt.map fun c =>
    let retval := toUchar (c (pgnbr st dbd) - 1)
    let st := { st with
      st_ucnt := some (Function.update c (pgnbr st dbd) retval)
      st_nfpgs := if retval = 0 then st.st_nfpgs + 1 else st.st_nfpgs }
    (retval, s.set dbd.dbd_swpi st)

/-- Share a page once more, if it is not shared too often already. -/
def swpinc (dbd : Dbd) (s : State) : Option (Bool × State) :=
  let st := s.swaptab dbd.dbd_swpi
  st.st_ucnt.map fun c =>
    let pg := pgnbr st dbd
    if c pg ≥ MAXSUSE then (false, s)
    else (true, s.set dbd.dbd_swpi
      { st with st_ucnt := some (Function.update c pg (toUchar (c pg + 1))) })

/-! ## Swap files -/

/-- The index a call returns. -/
def index : Option (Fin MSFILES) → ℤ
  | none => -1
  | some i => i.val

/-- Look for a free entry, or one of the same swap file: what to return, and the
    table, if there is one. -/
def addLoop (dev lowblk nblks : ℤ) (tab : Swaptab) : List (Fin MSFILES) → Option (Fin MSFILES) →
    Except (ℤ × Option Errno × Swaptab) (Option (Fin MSFILES))
  | [], smi => .ok smi
  | i :: l, smi =>
    let st := tab i
    if st.st_ucnt.isNone then addLoop dev lowblk nblks tab l (smi.or (some i))
    else if st.st_dev = dev ∧ st.st_swplo = lowblk then
      if st.st_indel ∧ st.st_npgs = nblks >>> DPPSHFT then
        .error (index smi, none, Function.update tab i { st with st_indel := false })
      else .error (-1, some .eexist, tab)
    else addLoop dev lowblk nblks tab l smi

/-- The page tables that the counters of `npgs` pages take. -/
def npgtbls (npgs : ℤ) : ℤ := (npgs + PTSIZE - 1).tdiv PTSIZE

/-- Page tables: none for none, zeroed ones, or the pointer `-1`, to `fails`. -/
def uptalloc (n : ℤ) (fails : Option (ℤ → ℤ)) : Option (ℤ → ℤ) :=
  if n = 0 then none else some (fails.getD fun _ => 0)

/-- An entry with the swap file written to it. -/
def Swpt.setFile (st : Swpt) (dev lowblk nblks : ℤ) : Swpt :=
  { st with
    st_dev := dev
    st_swplo := lowblk
    st_npgs := nblks >>> DPPSHFT
    st_nfpgs := nblks >>> DPPSHFT }

/-- Add a swap file: its index, or `-1`, and the error. -/
def swapadd (dev lowblk nblks : ℤ) (openErr : Option Errno) (fails : Option (ℤ → ℤ)) (s : State) :
    ℤ × Option Errno × State :=
  match addLoop dev lowblk nblks s.swaptab (List.finRange MSFILES) none with
  | .error (r, e, tab) => (r, e, { s with swaptab := tab })
  | .ok none => (-1, some .enospc, s)
  | .ok (some smi) =>
    let st := s.swaptab smi
    match openErr with
    | some e => (-1, some e, s.set smi { st with st_ucnt := none, st_indel := false })
    | none =>
      let st := st.setFile dev lowblk nblks
      match uptalloc (npgtbls st.st_npgs) fails with
      | none => (-1, none, s.set smi { st with st_ucnt := none })
      | some c => (smi.val, none,
          s.set smi { st with st_ucnt := some c, st_next := 0, st_indel := false })

/-- The swap file to delete, and how many others are in use. -/
def delLoop (dev lowblk : ℤ) (tab : Swaptab) : List (Fin MSFILES) → ℕ → Option (Fin MSFILES) →
    ℕ × Option (Fin MSFILES)
  | [], ok, smi => (ok, smi)
  | i :: l, ok, smi =>
    let st := tab i
    if st.st_ucnt.isNone then delLoop dev lowblk tab l ok smi
    else if st.st_dev = dev ∧ st.st_swplo = lowblk then delLoop dev lowblk tab l ok (some i)
    else if ¬st.st_indel then delLoop dev lowblk tab l (ok + 1) smi
    else delLoop dev lowblk tab l ok smi

/-! ## Runs -/

/-- The swap files, the descriptors that refer to them, and the sizes of the calls
    of `swalloc` that are between two passes. -/
structure Run where
  st : State
  dbds : List Dbd
  waiting : List ℕ

/-- Free the page of a descriptor, which then refers to no page. -/
def Run.free (s : Run) (dbd : Dbd) : Option Run :=
  if dbd ∈ s.dbds then
    (swfree1 dbd s.st).map fun r => { s with st := r.2, dbds := s.dbds.erase dbd }
  else none

/-- Free the pages of a swap file that the descriptors `freed` refer to. -/
def Run.getswap (i : Fin MSFILES) (freed : List Dbd) (s : Run) : Option Run :=
  if ∀ dbd ∈ freed, dbd.dbd_swpi = i then freed.foldlM Run.free s else none

/-- Delete a swap file; `freed` is what `getswap` can free of it. -/
def Run.swapdel (dev lowblk : ℤ) (freed : List Dbd) (s : Run) : Option (Option Errno × Run) :=
  match delLoop dev lowblk s.st.swaptab (List.finRange MSFILES) 0 none with
  | (_, none) => some (some .einval, s)
  | (0, some _) => some (some .enomem, s)
  | (_ + 1, some i) =>
    let st := { s.st.swaptab i with st_indel := true }
    let s := { s with st := s.st.set i st }
    let freed := if st.st_nfpgs < st.st_npgs then freed else []
    (s.getswap i freed).map fun s =>
      let st := s.st.swaptab i
      if st.st_nfpgs = st.st_npgs then
        (none, { s with st := s.st.set i { st with st_ucnt := none } })
      else (none, s)

/-- A pass of `swalloc`; if it finds no space, the call makes another if `goOn`. -/
def Run.pass (s : Run) (swappg : ℤ) (size : ℕ) (goOn : Bool) : Run :=
  match swalloc swappg size s.st with
  | (some (_, l), st) => { s with st := st, dbds := l ++ s.dbds }
  | (none, st) => { s with st := st, waiting := if goOn then size :: s.waiting else s.waiting }

/-- What may happen. -/
inductive Action
  | swalloc (size : ℕ) (goOn : Bool)
  | again (size : ℕ) (goOn : Bool)
  | swfree1 (dbd : Dbd)
  | swpinc (dbd : Dbd)
  | swapadd (dev lowblk nblks : ℤ) (openErr : Option Errno) (fails : Option (ℤ → ℤ))
  | swapdel (dev lowblk : ℤ) (freed : List Dbd)

/-- A call, or a further pass of one. -/
def next (s : Run) : Action → Option Run
  | .swalloc size goOn => if 0 < size then some (s.pass 0 size goOn) else none
  | .again size goOn =>
    if size ∈ s.waiting then
      some ({ s with waiting := s.waiting.erase size }.pass (-1) size goOn)
    else none
  | .swfree1 dbd => s.free dbd
  | .swpinc dbd =>
    if dbd ∈ s.dbds then
      (Swap.swpinc dbd s.st).map fun (ok, st) =>
        { s with st := st, dbds := if ok then dbd :: s.dbds else s.dbds }
    else none
  | .swapadd dev lowblk nblks openErr fails =>
    some { s with st := (Swap.swapadd dev lowblk nblks openErr fails s.st).2.2 }
  | .swapdel dev lowblk freed => (s.swapdel dev lowblk freed).map Prod.snd

/-- Any sequence of calls, from no swap file. -/
def swap : Machine Run Action where
  init s := s = ⟨⟨fun _ => ⟨0, false, none, 0, 0, 0, 0⟩, 0⟩, [], []⟩
  next := next

end AuxKernel.Swap
