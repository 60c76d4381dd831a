import AuxKernel.System
import AuxKernel.Basic
import AuxKernel.Radix
import AuxKernel.Svfs.Params
import Mathlib.Data.Nat.Bitwise
import Mathlib.Logic.Relation

/-!
# The block map of an SVFS file

`bmap` (`SVFS/sys/5_bmap.c`): an inode has the addresses of the first blocks of its file, and
of three trees of blocks with the addresses of the others: a single, a double and a triple
indirect one. To write a block that is missing, `bmap` allocates it, with the blocks that
are missing on the way to it, from the top down.

The blocks that `alloc` returns are part of a call, and so are the blocks that cannot be
read. The block to read ahead is left out.
-/

namespace AuxKernel.Svfs.Bmap

open Radix

/-- The addresses in an inode: all of them, the indirect and the direct ones. -/
def NADDR : ℕ := 13
@[inherit_doc NADDR]
def NIADDR : ℕ := 3
@[inherit_doc NADDR]
def NDADDR : ℕ := NADDR - NIADDR

/-- An inode and the blocks of its file system: the addresses in the inode, the type of the
    file system, and the addresses in the blocks. -/
structure File where
  i_addr : ℕ → ℕ
  s_type : ℕ
  daddr : Store

/-- What a call returns: a block, or `-1`, with an error or without one. -/
inductive Ret
  | block (b : ℕ)
  | fail (e : Option Errno)
  deriving DecidableEq, Repr

/-- What `alloc` returns, call by call; the block it returns is cleared. -/
def alloc (d : Store) : List (Option ℕ) → Option (ℕ × Store × List (Option ℕ))
  | some b :: l => some (b, Function.update d b fun _ => 0, l)
  | _ => none

/-- How many levels of indirection: the place of the address in the inode, counted from the
    end, what is left of the block number, and how far it is to be shifted. -/
def levels (s_type : ℕ) : (j sh nb bn : ℕ) → Option (ℕ × ℕ × ℕ)
  | 0, _, _, _ => none
  | j + 1, sh, nb, bn =>
    let sh := sh + FsNSHIFT s_type
    let nb := nb <<< FsNSHIFT s_type
    if bn < nb then some (j + 1, bn, sh) else levels s_type j sh nb (bn - nb)

/-- Fetch through `n` indirect blocks, from the block `nb` on. -/
def fetch (s_type : ℕ) (write : Bool) (bad : ℕ → Bool) (bn : ℕ) :
    (n nb sh : ℕ) → (d : Store) → (allocs : List (Option ℕ)) → Store × Ret
  | 0, nb, _, d, _ => (d, .block nb)
  | n + 1, nb, sh, d, allocs =>
    if bad nb then (d, .fail (some .eio))
    else
      let sh := sh - FsNSHIFT s_type
      let i := (bn >>> sh) &&& FsNMASK s_type
      if d nb i = 0 then
        if write = false then (d, .fail none)
        else
          match alloc d allocs with
          | none => (d, .fail (some .enospc))
          | some (b, d, allocs) =>
            fetch s_type write bad bn n b sh
              (Function.update d nb (Function.update (d nb) i b)) allocs
      else fetch s_type write bad bn n (d nb i) sh d allocs

/-- The block number of the logical block `bn`. The process may not write blocks from
    `limit` on. -/
def bmap (f : File) (bn : ℤ) (write : Bool) (limit : ℤ) (bad : ℕ → Bool)
    (allocs : List (Option ℕ)) : File × Ret :=
  if bn < 0 then (f, .fail (some .efbig))
  else if write = true ∧ bn ≥ limit then (f, .fail (some .efbig))
  else if bn < NDADDR then
    -- The first `NDADDR` blocks are direct blocks.
    let i := bn.toNat
    if f.i_addr i = 0 then
      if write = false then (f, .fail none)
      else
        match alloc f.daddr allocs with
        | none => (f, .fail (some .enospc))
        | some (b, d, _) =>
          ({ f with i_addr := Function.update f.i_addr i b, daddr := d }, .block b)
    else (f, .block (f.i_addr i))
  else
    match levels f.s_type NIADDR 0 1 (bn.toNat - NDADDR) with
    | none => (f, .fail (some .efbig))
    | some (j, bn, sh) =>
      let slot := NADDR - j
      let n := NIADDR + 1 - j
      if f.i_addr slot = 0 then
        if write = false then (f, .fail none)
        else
          match alloc f.daddr allocs with
          | none => (f, .fail (some .enospc))
          | some (b, d, allocs) =>
            let (d, r) := fetch f.s_type write bad bn n b sh d allocs
            ({ f with i_addr := Function.update f.i_addr slot b, daddr := d }, r)
      else
        let (d, r) := fetch f.s_type write bad bn n (f.i_addr slot) sh f.daddr allocs
        ({ f with daddr := d }, r)

/-! ## The trees of a file -/

/-- The height of the tree at a place of the inode, and its first logical block. -/
def rootHeight (i : ℕ) : ℕ := i + 1 - NDADDR
@[inherit_doc rootHeight]
def rootBase (N i : ℕ) : ℕ :=
  if i ≤ 10 then i else if i = 11 then 10 + N else 10 + N + N ^ 2

/-- The blocks of a file, data and indirect ones. -/
def forest (N : ℕ) (addr : ℕ → ℕ) (d : Store) : List Node :=
  (List.range NADDR).flatMap fun i => nodes N d (rootHeight i) (addr i) (rootBase N i)

@[inherit_doc forest]
def File.forest (f : File) : List Node := Bmap.forest (FsNINDIR f.s_type) f.i_addr f.daddr

/-- The place in the inode of the tree with the logical block `l`. -/
def slotOf (N l : ℕ) : ℕ :=
  if l < 10 then l else if l < 10 + N then 10 else if l < 10 + N + N ^ 2 then 11 else 12

/-- The number of logical blocks that a file can have. -/
def maxBlocks (N : ℕ) : ℕ := 10 + N + N ^ 2 + N ^ 3

/-- The block that a logical block is mapped to, `0` if there is none. -/
def File.block (f : File) (l : ℕ) : ℕ :=
  let N := FsNINDIR f.s_type
  if l < maxBlocks N then
    lookup N f.daddr (rootHeight (slotOf N l)) (f.i_addr (slotOf N l))
      (l - rootBase N (slotOf N l))
  else 0

/-! ## The machine -/

/-- A call of `bmap`; and what else happens to the blocks of the file system. -/
inductive Act
  | bmap (bn : ℤ) (write : Bool) (limit : ℤ) (bad : ℕ → Bool) (allocs : List (Option ℕ))
  | other (d : Store)

/-- The blocks that `alloc` returns. -/
abbrev given (allocs : List (Option ℕ)) : List ℕ := allocs.filterMap id

/-- The blocks that `alloc` returns are not in use, nor returned twice; and the blocks with
    the addresses of the file are written by no one else. -/
def Env (f : File) : Act → Prop
  | .bmap _ _ _ _ allocs =>
    (given allocs).Nodup ∧ ∀ b ∈ given allocs, b ≠ 0 ∧ b ∉ blocks f.forest
  | .other d => ∀ n ∈ f.forest, n.height ≠ 0 → d n.block = f.daddr n.block

/-- A file under calls of `bmap`. At first, it has no block twice. -/
def files : Machine File Act where
  init f := (blocks f.forest).Nodup
  next f
    | .bmap bn write limit bad allocs => some (bmap f bn write limit bad allocs).1
    | .other d => some { f with daddr := d }

end AuxKernel.Svfs.Bmap
