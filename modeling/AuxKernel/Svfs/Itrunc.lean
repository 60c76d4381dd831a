import AuxKernel.Svfs.Bmap

/-!
# Truncation of an SVFS file

`itrunc` and `indirtrunc` (`SVFS/sys/5_inode.c`): the addresses that are not kept are cleared
in the inode and in the indirect blocks first, and what they were is freed from copies, the
last block of the file first.

A freed block may be overwritten by `free`, which keeps its list there: `spill` gives what it
has then. The blocks that cannot be read are `bad`. The sizes (`off_t`) are not negative, and
what counts the blocks for the quota is left out.
-/

namespace AuxKernel.Svfs.Itrunc

open Radix Bmap

/-- The indices of the levels of indirection. -/
def SINGLE : ℕ := 0
@[inherit_doc SINGLE]
def DOUBLE : ℕ := 1
@[inherit_doc SINGLE]
def TRIPLE : ℕ := 2

/-- What an inode has for its file: the addresses, and the size in bytes. -/
structure Inode where
  i_addr : ℕ → ℕ
  i_size : ℕ

/-- The blocks of the file system: the addresses in them, and which have been freed, the last
    one first. To clear more of a block than there is in it runs over other memory. -/
structure Blocks where
  daddr : Store
  freed : List ℕ
  overrun : Bool

variable (bad : ℕ → Bool) (spill : List ℕ → ℕ → (ℕ → ℕ) → ℕ → ℕ)

/-- Free the block `bn`. -/
def free (s : Blocks) (bn : ℕ) : Blocks :=
  { s with
    daddr := Function.update s.daddr bn (spill s.freed bn (s.daddr bn))
    freed := bn :: s.freed }

/-- Free the blocks `bap i`, with what `sub` frees below each, from the index `n - 1` down to
    the one after `last`. -/
def freeLoop (sub : Blocks → ℕ → Blocks) (bap : ℕ → ℕ) (last : ℤ) : ℕ → Blocks → Blocks
  | 0, s => s
  | n + 1, s =>
    if (n : ℤ) > last then
      if bap n = 0 then freeLoop sub bap last n s
      else freeLoop sub bap last n (free spill (sub s (bap n)) (bap n))
    else s

/-- Clear the addresses in the block `bn` after `last`, and free what they were. -/
def clearAfter (N : ℕ) (sub : Blocks → ℕ → Blocks) (s : Blocks) (bn : ℕ) (last : ℤ) : Blocks :=
  let bap := s.daddr bn
  let s := { s with
    daddr := Function.update s.daddr bn fun i => if (i : ℤ) > last ∧ i < N then 0 else bap i
    overrun := s.overrun || decide (last + 1 > N) }
  freeLoop spill sub bap last N s

/-- The index in a block of the last block to be kept, each address standing for `factor`. -/
def lastIndex (lastbn factor : ℤ) : ℤ := if lastbn > 0 then lastbn / factor else lastbn

/-- Free what is below the indirect block `bn` after its block `lastbn`; nothing, if it cannot
    be read. -/
def indirtrunc (N : ℕ) : (level : ℕ) → (s : Blocks) → (bn : ℕ) → (lastbn : ℤ) → Blocks
  | 0, s, bn, lastbn =>
    if bad bn then s else clearAfter spill N (fun s _ => s) s bn (lastIndex lastbn 1)
  | level + 1, s, bn, lastbn =>
    if bad bn then s
    else
      let factor : ℕ := N ^ (level + 1)
      let last := lastIndex lastbn factor
      let bap := s.daddr bn
      let s := clearAfter spill N (fun s nb => indirtrunc N level s nb (-1)) s bn last
      -- The last block is kept in part.
      if lastbn ≥ 0 then
        let nb := bap (min last (N - 1)).toNat
        if nb ≠ 0 then indirtrunc N level s nb (lastbn % factor) else s
      else s

/-- The indirect blocks of the inode, from the level `n - 1` down; whether it is done with the
    file, as one has been kept. -/
def indirects (N : ℕ) (lastiblock : ℕ → ℤ) : ℕ → (ℕ → ℕ) → Blocks → (ℕ → ℕ) × Blocks × Bool
  | 0, i_addr, s => (i_addr, s, false)
  | level + 1, i_addr, s =>
    let bn := i_addr (NDADDR + level)
    let (i_addr, s) :=
      if bn ≠ 0 then
        let s := indirtrunc bad spill N level s bn (lastiblock level)
        if lastiblock level < 0 then
          (Function.update i_addr (NDADDR + level) 0, free spill s bn)
        else (i_addr, s)
      else (i_addr, s)
    if lastiblock level ≥ 0 then (i_addr, s, true) else indirects N lastiblock level i_addr s

/-- The direct blocks of the inode, from the index `n - 1` down to the one after `lastblock`. -/
def directs (lastblock : ℤ) : ℕ → (ℕ → ℕ) → Blocks → (ℕ → ℕ) × Blocks
  | 0, i_addr, s => (i_addr, s)
  | n + 1, i_addr, s =>
    if (n : ℤ) > lastblock then
      if i_addr n = 0 then directs lastblock n i_addr s
      else directs lastblock n (Function.update i_addr n 0) (free spill s (i_addr n))
    else (i_addr, s)

/-- Truncate the inode to at most `length` bytes. It panics (`none`) where the addresses it has
    left differ from those it has put in the inode at first. -/
def itrunc (s_type : ℕ) (oip : Inode) (s : Blocks) (length : ℕ) : Option (Inode × Blocks) :=
  if oip.i_size ≤ length then some (oip, s)
  else
    let N := FsNINDIR s_type
    -- The last blocks to be kept, `-1` if there are none.
    let lastblock : ℤ := (FsBNO s_type (length + FsBSIZE s_type - 1) : ℤ) - 1
    let single := lastblock - NDADDR
    let double := single - N
    let triple := double - N * N
    let lastiblock (level : ℕ) : ℤ :=
      let last := if level = SINGLE then single else if level = DOUBLE then double else triple
      if last < 0 then -1 else last
    let ip : Inode :=
      { i_addr := fun i =>
          if i < NDADDR then if (i : ℤ) > lastblock then 0 else oip.i_addr i
          else if lastiblock (i - NDADDR) < 0 then 0 else oip.i_addr i
        i_size := length }
    let (i_addr, s, done) := indirects bad spill N lastiblock NIADDR oip.i_addr s
    let (i_addr, s) := if done then (i_addr, s) else directs spill lastblock NDADDR i_addr s
    if ∀ i < NADDR, i_addr i = ip.i_addr i then some (ip, s) else none

end AuxKernel.Svfs.Itrunc
