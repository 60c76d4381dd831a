import AuxKernel.Basic
import AuxKernel.System
import Mathlib.Logic.Function.Basic

/-!
# Regions

Regions and the segment table of a process (`PAGING/os/region.c`). A region has a
list of page tables; it covers whole segments of the address space, one page table
for each: upwards from where it is attached, or, a stack, downwards from the last
segment (its list is filled from the end then). Page tables are named by their
pointers, `0` is `NULL` and `-1` is what a failed `uptalloc` returns; an entry of
the segment table holds the page table it maps.

What happens to the pages themselves (`pfree`, the filling of new page table
entries) is left out, and so is the size of the process. `uptalloc` hands out any
page table that is not in use: which ones, and when it fails, is part of the action.
-/

namespace AuxKernel.Region

/-- Segments in the table of a process, pages of a page table, bytes of a page. -/
def NSEGP : ℤ := 512
def NPGPT : ℤ := 512
def PAGESIZE : ℤ := 8192

/-- Pages to segments, rounded up. -/
def ptos (x : ℤ) : ℤ := (x + (NPGPT - 1)) / NPGPT

/-- Pages to truncated segments. -/
def ptots (x : ℤ) : ℤ := x / NPGPT

/-- Segments to pages, and to bytes. -/
def stopg (x : ℤ) : ℤ := x * NPGPT
def stob (x : ℤ) : ℤ := x * (NPGPT * PAGESIZE)

/-- The segment number of an address. -/
def snum (x : ℤ) : ℤ := x / (NPGPT * PAGESIZE) % NSEGP

/-- Bytes to truncated pages, of an unsigned address. -/
def btotp (x : ℤ) : ℤ := x % 2 ^ 32 / PAGESIZE

/-- Pages to bytes. -/
def ptob (x : ℤ) : ℤ := x * PAGESIZE

/-- The types of an attached region. -/
inductive PType
  | text
  | data
  | stack
  | shmem
  | physcall
  deriving DecidableEq, Repr

/-- A region. -/
structure Reg where
  /-- `RG_NOFREE`. -/
  nofree : Bool
  r_list : Option (ℤ → ℤ)
  r_pgsz : ℤ
  r_stack : Bool
  r_refcnt : ℤ

/-- A region as it is attached to the process. -/
structure Preg where
  p_reg : ℕ
  p_regva : ℤ
  /-- `PF_RDONLY`. -/
  rdonly : Bool
  p_type : PType
  deriving DecidableEq, Repr

/-- A valid entry of the segment table. -/
structure Ste where
  rdonly : Bool
  pt : ℤ
  deriving DecidableEq, Repr

/-- The regions, the page tables in use, and the process: its attached regions and
    its segment table. -/
structure Space where
  region : ℕ → Reg
  ptused : ℤ → Bool
  p_region : List Preg
  u_stbl : ℤ → Option Ste

/-- The page table in a place of the list. -/
def Reg.pt (rp : Reg) (i : ℤ) : ℤ := (rp.r_list.map fun l => l i).getD 0

/-- Set a place of the list. -/
def Reg.setPt (rp : Reg) (i pt : ℤ) : Reg :=
  { rp with r_list := rp.r_list.map fun l => Function.update l i pt }

def Space.setReg (s : Space) (r : ℕ) (rp : Reg) : Space :=
  { s with region := Function.update s.region r rp }

/-- Set whether a page table is in use. -/
def Space.setUsed (s : Space) (pt : ℤ) (b : Bool) : Space :=
  { s with ptused := Function.update s.ptused pt b }

/-! ## The segment table -/

/-- Make `n` entries invalid, from `st` on. -/
def clearStes (u_stbl : ℤ → Option Ste) (st : ℤ) : ℕ → ℤ → Option Ste
  | 0 => u_stbl
  | n + 1 => clearStes (Function.update u_stbl st none) (st + 1) n

/-- Write `n` entries, from `st` on, for the page tables of the list from `lp` on. -/
def writeStes (rdonly : Bool) (rp : Reg) (u_stbl : ℤ → Option Ste) (st lp : ℤ) : ℕ → ℤ → Option Ste
  | 0 => u_stbl
  | n + 1 =>
    writeStes rdonly rp (Function.update u_stbl st (some ⟨rdonly, rp.pt lp⟩)) (st + 1) (lp + 1) n

/-- Whether one of `n` entries is valid, from `st` on. -/
def anyValid (u_stbl : ℤ → Option Ste) (st : ℤ) : ℕ → Bool
  | 0 => false
  | n + 1 => (u_stbl st).isSome || anyValid u_stbl (st + 1) n

/-- Load the segment table for a region that is about to change its size. -/
def loadstbl (s : Space) (prp : Preg) (change : ℤ) : Space :=
  let rp := s.region prp.p_reg
  if change < 0 then
    let size := rp.r_pgsz
    let (st, stlim) :=
      if rp.r_stack then (NSEGP + ptos size, NSEGP - ptos (size + change))
      else (snum prp.p_regva + ptos (size + change), snum prp.p_regva + ptos size)
    { s with u_stbl := clearStes s.u_stbl st (stlim - st).toNat }
  else
    let (st, lp, lplim) :=
      if rp.r_stack then
        (NSEGP - ptos (rp.r_pgsz + change), NSEGP - ptos (rp.r_pgsz + change), NSEGP)
      else (snum prp.p_regva, 0, ptos (rp.r_pgsz + change))
    { s with u_stbl := writeStes prp.rdonly rp s.u_stbl st lp (lplim - lp).toNat }

/-- Whether growing an attached region is illegal. -/
def chkgrowth (s : Space) (prp : Preg) (osize nsize : ℤ) : Bool :=
  let rp := s.region prp.p_reg
  if rp.r_stack && ptos nsize > NSEGP then true
  else if !rp.r_stack && btotp (prp.p_regva + ptob nsize) ≥ stopg NSEGP - 1 then true
  else
    let (st1, st2) :=
      if rp.r_stack then (NSEGP - 1 - ptots nsize, NSEGP - 1 - ptots osize)
      else (snum prp.p_regva + ptos osize, snum prp.p_regva + ptos nsize)
    if st2 < st1 then false
    else if nsize = 0 then (s.u_stbl st1).isSome
    else anyValid s.u_stbl st1 (st2 - st1).toNat

/-! ## Page tables -/

/-- Free the page tables of a region in `n` places of its list, from `lp` on. -/
def freePts (s : Space) (r : ℕ) (lp : ℤ) : ℕ → Space
  | 0 => s
  | n + 1 =>
    freePts ((s.setUsed ((s.region r).pt lp) false).setReg r ((s.region r).setPt lp 0)) r (lp + 1) n

/-- Allocate page tables for `n` places of the list, from `lp` on; those from `lp1`
    on are freed again if there are not enough. `pts` is what `uptalloc` returns. -/
def allocPts (s : Space) (r : ℕ) (lp1 lp : ℤ) : ℕ → List ℤ → Option (Space × Bool)
  | 0, _ => some (s, false)
  | _ + 1, [] => none
  | n + 1, pt :: pts =>
    if pt = -1 then
      some (freePts (s.setReg r ((s.region r).setPt lp (-1))) r lp1 (lp - lp1).toNat, true)
    else if pt = 0 ∨ s.ptused pt then none
    else allocPts ((s.setUsed pt true).setReg r ((s.region r).setPt lp pt)) r lp1 (lp + 1) n pts

/-- Free the page tables of a region that shrinks; its list too if nothing is left. -/
def ptshrink (s : Space) (r : ℕ) (osize nsize : ℤ) : Space :=
  if ptos nsize < ptos osize then
    let (lp, lp2) :=
      if (s.region r).r_stack then (NSEGP - ptos osize, NSEGP - ptos nsize)
      else (ptos nsize, ptos osize)
    let s := freePts s r lp (lp2 - lp).toNat
    if nsize ≤ 0 then s.setReg r { s.region r with r_list := none } else s
  else s

/-- Expand the page tables of a region; whether this failed. `list` is whether there
    is room for a list. -/
def ptexpand (s : Space) (r : ℕ) (change : ℤ) (list : Bool) (pts : List ℤ) :
    Option (Space × Bool) :=
  let osize := (s.region r).r_pgsz
  let nsize := osize + change
  let s := ptshrink s r osize nsize
  if change ≤ 0 then some (s, false)
  else if (s.region r).r_list = none ∧ list = false then some (s, true)
  else
    let s := s.setReg r { s.region r with r_list := some ((s.region r).r_list.getD fun _ => 0) }
    let (lp1, lp2) :=
      if (s.region r).r_stack then (NSEGP - ptos nsize, NSEGP - ptos osize)
      else (ptos osize, ptos nsize)
    allocPts s r lp1 lp1 (lp2 - lp1).toNat pts

/-! ## The calls -/

/-- Attach a region at an address. The process has room for `pregpp` regions, the
    last of which stays unused. -/
def attachreg (pregpp : ℕ) (s : Space) (r : ℕ) (vaddr : ℤ) (type : PType) (rdonly : Bool) :
    Space × Option Errno :=
  if vaddr % (NPGPT * PAGESIZE) ≠ 0 then (s, some .einval)
  else if s.p_region.length + 1 ≥ pregpp then (s, some .emfile)
  else
    let prp : Preg := ⟨r, vaddr, rdonly, type⟩
    let s := s.setReg r { s.region r with r_stack := type = .stack }
    if chkgrowth s prp 0 (s.region r).r_pgsz then (s, some .einval)
    else
      let s := loadstbl s prp 0
      ({ s.setReg r { s.region r with r_refcnt := (s.region r).r_refcnt + 1 } with
        p_region := s.p_region ++ [prp] }, none)

/-- Free a region: its page tables, and the region itself. -/
def freereg (s : Space) (r : ℕ) : Space :=
  let rp := s.region r
  if rp.r_refcnt ≠ 0 then s
  else
    { s.setReg r { rp with nofree := false, r_list := none, r_pgsz := 0, r_stack := false } with
      ptused := (List.range (ptos rp.r_pgsz).toNat).foldl
        (fun used (i : ℕ) =>
          Function.update used (rp.pt (if rp.r_stack then NSEGP - 1 - i else i)) false) s.ptused }

/-- Detach the `k`-th region of the process. The loop over the entries goes through
    the size of the region in steps of a page table. -/
def detachreg (s : Space) (k : ℕ) : Option Space := do
  let prp ← s.p_region[k]?
  let rp := s.region prp.p_reg
  let st := if rp.r_stack then NSEGP - 1 - ptots rp.r_pgsz else snum prp.p_regva
  let s := { s with u_stbl := clearStes s.u_stbl st (ptos rp.r_pgsz).toNat }
  let s := s.setReg prp.p_reg { rp with r_refcnt := rp.r_refcnt - 1 }
  let s := if rp.r_refcnt - 1 = 0 ∧ rp.nofree = false then freereg s prp.p_reg else s
  return { s with p_region := s.p_region.eraseIdx k }

/-- Where a stack is attached once it has `nsize` pages. -/
def stackva (nsize : ℤ) : ℤ := stob (ptots (stopg NSEGP - nsize))

/-- The end of `growreg`: the attach point of a stack, the segment table, the size. -/
def resize (s : Space) (k : ℕ) (prp : Preg) (change : ℤ) : Space :=
  let nsize := (s.region prp.p_reg).r_pgsz + change
  let prp := if (s.region prp.p_reg).r_stack then { prp with p_regva := stackva nsize } else prp
  let s := loadstbl { s with p_region := s.p_region.set k prp } prp change
  s.setReg prp.p_reg { s.region prp.p_reg with r_pgsz := toShort nsize }

/-- Change the size of the `k`-th region of the process: `0` if there is nothing to
    do, `-1` (and `ENOMEM`) on failure, and `1` on success. -/
def growreg (s : Space) (k : ℕ) (change : ℤ) (list : Bool) (pts : List ℤ) :
    Option (Space × ℤ) := do
  let prp ← s.p_region[k]?
  let osize := (s.region prp.p_reg).r_pgsz
  if change = 0 then return (s, 0)
  if change > 0 && chkgrowth s prp osize (osize + change) then return (s, -1)
  let (s, failed) ← ptexpand s prp.p_reg change list pts
  if failed then return (s, -1)
  return (resize s k prp change, 1)

/-! ## The machine -/

/-- What a process asks for. -/
inductive Act
  | attachreg (r : ℕ) (vaddr : ℤ) (type : PType) (rdonly : Bool)
  | growreg (k : ℕ) (change : ℤ) (list : Bool) (pts : List ℤ)
  | detachreg (k : ℕ)

/-- The places of its list that a region uses. -/
def Reg.InList (rp : Reg) (i : ℤ) : Prop :=
  if rp.r_stack then NSEGP - ptos rp.r_pgsz ≤ i ∧ i < NSEGP else 0 ≤ i ∧ i < ptos rp.r_pgsz

/-- Every region has a size and page tables of its own for it, all in use. -/
structure Space.Owns (s : Space) : Prop where
  size : ∀ r, 0 ≤ (s.region r).r_pgsz ∧ (s.region r).r_pgsz < 2 ^ 15
  refcnt : ∀ r, 0 ≤ (s.region r).r_refcnt
  used : ∀ r i, (s.region r).InList i → s.ptused ((s.region r).pt i) = true
  own : ∀ r r' i i', (s.region r).InList i → (s.region r').InList i' →
    (s.region r).pt i = (s.region r').pt i' → r = r' ∧ i = i'

/-- A process that starts without regions; the regions may have any sizes. -/
def process (pregpp : ℕ) : Machine Space Act where
  init s := s.p_region = [] ∧ (∀ seg, s.u_stbl seg = none) ∧ s.Owns
  next s
    | .attachreg r vaddr type rdonly => some (attachreg pregpp s r vaddr type rdonly).1
    | .growreg k change list pts => (growreg s k change list pts).map Prod.fst
    | .detachreg k => detachreg s k

end AuxKernel.Region
