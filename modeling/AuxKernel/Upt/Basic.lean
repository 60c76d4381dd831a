import Mathlib.Data.Finset.Card
import Mathlib.Order.Interval.Finset.Nat
import AuxKernel.Ranges
import AuxKernel.System

/-!
# Page tables

The allocator of page tables (`uptalloc` and `uptfree`, `PAGING/os/grow.c`), of which several fit
into a page. The page tables of a page that are free are the bits of a mask, and the pages that
have some that are free, and some that are not, are on a list. Larger allocations take whole
pages, and leave the rest of the last one.

Pages come from `sptalloc` and go back to `sptfree`: which pages and frames these give is up to
them (`Fresh`), and it is kept here how often a page was obtained and given back. What a page
table holds is left out.
-/

namespace AuxKernel.Upt

/-- The two memory management units. -/
inductive Mmu
  | mmb
  | pmmu
  deriving DecidableEq, Repr

def PAGESHIFT : ℕ := 13

/-- Page tables have 256 entries, or 512. -/
def PTSZSHFT : Mmu → ℕ
  | .mmb => 10
  | .pmmu => 11

def PAGESIZE : ℕ := 2 ^ PAGESHIFT

def PTSIZE (c : Mmu) : ℕ := 2 ^ PTSZSHFT c

/-- Page tables in a page. -/
def NPTPP (c : Mmu) : ℕ := 2 ^ (PAGESHIFT - PTSZSHFT c)

/-- Pages to bytes; bytes to pages, rounded up or down; page tables to pages. -/
def ptob (x : ℕ) : ℕ := x * PAGESIZE
@[inherit_doc ptob]
def btop (x : ℕ) : ℕ := (x + (PAGESIZE - 1)) / PAGESIZE
@[inherit_doc ptob]
def btotp (x : ℕ) : ℕ := x / PAGESIZE
@[inherit_doc ptob]
def pttopgs (c : Mmu) (x : ℕ) : ℕ := (x + NPTPP c - 1) / NPTPP c

/-- The first `n` bits. -/
def setmask (n : ℕ) : BitVec 16 := BitVec.ofNat 16 (2 ^ n - 1)

/-- The masks of the frames, the frames that have page tables to give, the addresses of the
    frames (`uptvaddrs`), the frame of a page of the kernel (`svtopfi`), and the counts; and how
    often a page was obtained and given back. -/
structure Upt where
  pf_use : ℕ → BitVec 16
  ptfree : List ℕ
  uptvaddrs : ℕ → ℕ
  svtopfi : ℕ → ℕ
  nptalloced : ℤ
  nptfree : ℤ
  sptalloced : ℕ → ℕ
  sptfreed : ℕ → ℕ

variable (c : Mmu)

/-- The first place in a page where `n` page tables in a row are free. -/
def fit (n : ℕ) (pf_use : BitVec 16) : Option ℕ :=
  (List.range (NPTPP c - n + 1)).find? fun j => pf_use &&& (setmask n <<< j) = setmask n <<< j

/-- The first page on the list with such a place. -/
def search (n : ℕ) (s : Upt) : Option (ℕ × ℕ) :=
  s.ptfree.findSome? fun f => (fit c n (s.pf_use f)).map fun j => (f, j)

/-- Take `n` page tables of a frame, from the place `j` on. -/
def carve (n f j : ℕ) (s : Upt) : Upt :=
  let use := s.pf_use f &&& ~~~(setmask n <<< j)
  { s with
    pf_use := Function.update s.pf_use f use
    ptfree := if use = 0 then s.ptfree.erase f else s.ptfree
    nptfree := s.nptfree - n }

/-- `size` pages from `v` on are obtained, with their frames. -/
def sptalloc (v size : ℕ) (frame : ℕ → ℕ) (s : Upt) : Upt :=
  { s with
    svtopfi := fun w => if v ≤ w ∧ w < v + size then frame w else s.svtopfi w
    sptalloced := fun w => s.sptalloced w + if v ≤ w ∧ w < v + size then 1 else 0 }

/-- No page table of the first `j` pages from `v` on is free, and their frames are known. -/
def clear (v : ℕ) : (j : ℕ) → Upt → Upt
  | 0, s => s
  | j + 1, s =>
    let s := clear v j s
    let pf := s.svtopfi (v + j)
    { s with
      pf_use := Function.update s.pf_use pf 0
      uptvaddrs := Function.update s.uptvaddrs pf (ptob (v + j)) }

/-- Obtain pages from `v` on for `n` page tables. What is left of the last one is free. -/
def extend (n v : ℕ) (frame : ℕ → ℕ) (s : Upt) : Upt :=
  let i := pttopgs c n
  let s := clear v i (sptalloc v i frame s)
  let s := { s with nptalloced := s.nptalloced + i * NPTPP c, nptfree := s.nptfree + i * NPTPP c }
  let j := n % NPTPP c
  let s :=
    if j > 0 then
      let pf := s.svtopfi (v + i - 1)
      { s with
        pf_use := Function.update s.pf_use pf (setmask (NPTPP c - j) <<< j)
        ptfree := pf :: s.ptfree }
    else s
  { s with nptfree := s.nptfree - n }

/-- Allocate `n` page tables: their address, if there are any. The pages that `sptalloc` would
    give are from `v` on, and have these frames. -/
def uptalloc (n : ℕ) (spt : Option (ℕ × (ℕ → ℕ))) (s : Upt) : Option ℕ × Upt :=
  if n = 0 then (some 0, s)
  else
    match if n < NPTPP c then search c n s else none with
    | some (f, j) => (some (s.uptvaddrs f + j * PTSIZE c), carve n f j s)
    | none =>
      match spt with
      | none => (none, s)
      | some (v, frame) => (some (ptob v), extend c n v frame s)

/-- How many of `n` page tables at `pt` are in the page of the first. -/
def nfreeAt (pt n : ℕ) : ℕ :=
  let nfree := min n (NPTPP c)
  if (ptob (btop (pt + 1)) - pt) / PTSIZE c < nfree then (ptob (btop pt) - pt) / PTSIZE c else nfree

/-- Free those of `n` page tables at `pt` that are in one page. A page of which nothing is used
    any more is given back. -/
def freeIn (pt n : ℕ) (s : Upt) : Upt :=
  let pf := s.svtopfi (btotp pt)
  let ndx := (pt - ptob (btotp pt)) / PTSIZE c
  let nfree := nfreeAt c pt n
  let ptfree := if s.pf_use pf = 0 ∧ nfree < NPTPP c then pf :: s.ptfree else s.ptfree
  let use := s.pf_use pf ||| setmask nfree <<< ndx
  if use = setmask (NPTPP c) then
    { s with
      pf_use := Function.update s.pf_use pf 1
      ptfree := if nfree ≠ NPTPP c then ptfree.erase pf else ptfree
      uptvaddrs := Function.update s.uptvaddrs pf 0
      sptfreed := Function.update s.sptfreed (btotp pt) (s.sptfreed (btotp pt) + 1)
      nptalloced := s.nptalloced - NPTPP c
      nptfree := s.nptfree - (NPTPP c - nfree) }
  else
    { s with
      pf_use := Function.update s.pf_use pf use
      ptfree
      nptfree := s.nptfree + nfree }

/-- Free `n` page tables at `pt`, in at most `fuel` pages. -/
def uptfreeLoop : (fuel : ℕ) → (pt n : ℕ) → Upt → Upt
  | 0, _, _, s => s
  | fuel + 1, pt, n, s =>
    if n > 0 then
      let nfree := nfreeAt c pt n
      uptfreeLoop fuel (pt + nfree * PTSIZE c) (n - nfree) (freeIn c pt n s)
    else s

def uptfree (pt n : ℕ) (s : Upt) : Upt := uptfreeLoop c n pt n s

/-! ## The machine -/

/-- The allocator, and the allocations that are outstanding: the number of the first page table,
    and how many they are. -/
structure State extends Upt where
  out : List Range

/-- A call. -/
inductive Act
  | alloc (n : ℕ) (spt : Option (ℕ × (ℕ → ℕ)))
  | free (r : Range)

def machine : Machine State Act where
  init s := (∀ v, s.sptalloced v = 0 ∧ s.sptfreed v = 0) ∧
    s.ptfree = [] ∧ s.nptalloced = 0 ∧ s.nptfree = 0 ∧ s.out = []
  next s
    | .alloc n spt =>
      match uptalloc c n spt s.toUpt with
      | (none, u) => some { s with toUpt := u }
      | (some pt, u) => some ⟨u, (pt / PTSIZE c, n) :: s.out⟩
    | .free r =>
      if r ∈ s.out then some ⟨uptfree c (r.1 * PTSIZE c) r.2 s.toUpt, s.out.erase r⟩ else none

/-- The pages that `sptalloc` gives, and their frames, are in use by nobody. -/
def Fresh (s : State) : Act → Prop
  | .alloc n (some (v, frame)) =>
    (∀ w, v ≤ w → w < v + pttopgs c n → s.sptalloced w = s.sptfreed w ∧
      ∀ w', s.sptalloced w' ≠ s.sptfreed w' → s.svtopfi w' ≠ frame w) ∧
    ∀ w w', v ≤ w → w < v + pttopgs c n → v ≤ w' → w' < v + pttopgs c n →
      frame w = frame w' → w = w'
  | _ => True

end AuxKernel.Upt
