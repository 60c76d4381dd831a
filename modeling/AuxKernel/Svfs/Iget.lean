import AuxKernel.Icache.Basic
import AuxKernel.Svfs.Ialloc
import AuxKernel.Svfs.Itrunc

/-!
# An inode that cannot be read

`iget` (`SVFS/sys/5_inode.c`) takes an in-core inode off the free list for an inode of the disk,
and reads that one in. Where it cannot be read, the in-core inode goes back through `iinactive`,
with the device and the file system that it was taken for, the number `0`, and all else of what
it was before: `iinactive` goes by that, and may free the inode `0` of the file system.

`iget` is taken up where it has not found the inode in core; what it does for a free inode when
the list is empty (`dnlc_purge`) is left out. Which blocks of the file system cannot be read is
part of the call, and so is what `free` writes to the blocks that it frees (`spill`).

* `left_alone_iff`: when nothing of the file system changes.
-/

namespace AuxKernel.Svfs.Iget

open Ilist (FsITOD FsITOO)

/-- What an inode on the disk has of an inode in core. -/
structure Dinode where
  di_mode : ℕ
  di_nlink : ℤ
  di_gen : ℤ
  file : Itrunc.Inode

/-- An in-core inode: its flags `IREF` and `ILOCKED`, and whether one of `IUPD`, `IACC` and
    `ICHG` is set; the device and the number it stands for; and what is read from the disk. -/
structure Inode where
  iref : Bool
  ilocked : Bool
  imarked : Bool
  i_dev : ℕ
  i_number : ℕ
  i_mode : ℕ
  i_rdev : ℕ
  i_nlink : ℤ
  i_gen : ℤ
  file : Itrunc.Inode

/-- The in-core inodes, with their hash chains and their free list. -/
structure Incore (n : ℕ) where
  inode : Fin n → Inode
  chain : ℕ → List (Fin n)
  free : List (Fin n)

/-- A file system: the super-block, the inodes on the disk by block and place, and the other
    blocks. -/
structure Volume where
  fs : Ilist.Filsys
  s_ronly : Bool
  dinode : ℕ → ℕ → Dinode
  blocks : Itrunc.Blocks

variable {n : ℕ} (spill : List ℕ → ℕ → (ℕ → ℕ) → ℕ → ℕ) (ioerr : ℕ → Bool)

/-! ## Letting an inode go -/

/-- What is written to the disk of an in-core inode. -/
def ipack (ip : Inode) : Dinode := ⟨ip.i_mode, ip.i_nlink, ip.i_gen, ip.file⟩

/-- What is read from the disk into an in-core inode. -/
def iunpack (ip : Inode) (dp : Dinode) : Inode :=
  { ip with i_mode := dp.di_mode, i_nlink := dp.di_nlink, i_gen := dp.di_gen, file := dp.file }

/-- Update an inode on the disk, if it is marked and its block can be read. -/
def iupdat (v : Volume) (ip : Inode) : Volume × Inode :=
  if ip.imarked then
    if v.s_ronly then (v, ip)
    else
      let blk := FsITOD v.fs ip.i_number
      if ioerr blk then (v, ip)
      else
        let blkInodes := Function.update (v.dinode blk) (FsITOO v.fs ip.i_number) (ipack ip)
        ({ v with dinode := Function.update v.dinode blk blkInodes }, { ip with imarked := false })
  else (v, ip)

/-- Truncate an inode, and update it. -/
def itrunc (v : Volume) (ip : Inode) (length : ℕ) : Option (Volume × Inode) :=
  (Itrunc.itrunc ioerr spill v.fs.s_type ip.file v.blocks length).map fun (file, blocks) =>
    let (v, ip') :=
      iupdat ioerr { v with blocks := blocks } { ip with file := file, imarked := true }
    (v, { ip' with imarked := ip'.imarked || decide (length < ip.file.i_size) })

/-- Put an inode that is not referenced on the disk, and free it there if it has no links. It
    panics (`none`) if the inode is locked. -/
def iinactive (v : Volume) (ip : Inode) : Option (Volume × Inode) :=
  if ip.ilocked then none
  else if v.s_ronly then some (v, { ip with iref := false, imarked := false })
  else
    let ip := { ip with ilocked := true }
    let freed :=
      if ip.i_nlink ≤ 0 then
        (itrunc spill ioerr v { ip with i_gen := ip.i_gen + 1 } 0).map fun (v, ip) =>
          ({ v with fs := Ilist.ifree v.fs ip.i_number },
            { ip with i_mode := 0, i_rdev := 0, imarked := true })
      else some (v, ip)
    freed.map fun (v, ip) =>
      let (v, ip) := iupdat ioerr v ip
      (v, { ip with ilocked := false, iref := false, imarked := false })

/-! ## Getting an inode -/

/-- Take an in-core inode off the chain it is on. -/
def remque (s : Incore n) (ip : Fin n) : Incore n :=
  { s with chain := fun h => (s.chain h).erase ip }

/-- Put an in-core inode at the head of a chain. -/
def insque (s : Incore n) (ip : Fin n) (h : ℕ) : Incore n :=
  { s with chain := Function.update s.chain h (ip :: s.chain h) }

/-- Get the inode `ino` of a device, which is not in core: the in-core inode, or none. -/
def iget (s : Incore n) (v : Volume) (dev ino : ℕ) : Option (Incore n × Volume × Option (Fin n)) :=
  match s.free with
  | [] => some (s, v, none)
  | ip :: free =>
    let s := insque (remque { s with free := free } ip) ip (Icache.INOHASH dev ino)
    let x := { s.inode ip with
      iref := true, ilocked := true, imarked := false, i_dev := dev, i_number := ino }
    let blk := FsITOD v.fs ino
    if ioerr blk then
      let s := remque s ip
      -- The rest of the inode is still that of the file it has had last.
      (iinactive spill ioerr v { x with i_number := 0, ilocked := false }).map fun (v, x) =>
        ({ s with inode := Function.update s.inode ip x, free := s.free ++ [ip] }, v, none)
    else
      let x := iunpack x (v.dinode blk (FsITOO v.fs ino))
      some ({ s with inode := Function.update s.inode ip x }, v, some ip)

/-! ## What a failure leaves -/

/-- The in-core inode is free, once, and on no chain; the lists of free inodes in the super-block
    and what is on the disk are as they were. -/
structure LeftAlone (ip : Fin n) (v : Volume) (s' : Incore n) (v' : Volume) : Prop where
  free : s'.free.count ip = 1
  chain : ∀ h, ip ∉ s'.chain h
  s_inode : v'.fs.s_inode = v.fs.s_inode
  s_ninode : v'.fs.s_ninode = v.fs.s_ninode
  s_tinode : v'.fs.s_tinode = v.fs.s_tinode
  dinode : v'.dinode = v.dinode
  blocks : v'.blocks = v.blocks

/-- To update an inode leaves the super-block alone. -/
theorem iupdat_fs (v : Volume) (ip : Inode) : (iupdat ioerr v ip).1.fs = v.fs := by
  unfold iupdat
  dsimp only
  split_ifs <;> rfl

/-- So does a truncation. -/
theorem itrunc_fs {v v' : Volume} {ip ip' : Inode} {length : ℕ}
    (h : itrunc spill ioerr v ip length = some (v', ip')) : v'.fs = v.fs := by
  obtain ⟨⟨file, blocks⟩, -, h⟩ := Option.map_eq_some_iff.1 h
  have hv' := congrArg (fun res => res.1.fs) h
  exact hv'.symm.trans (iupdat_fs ..)

/-- To free an inode counts it. -/
theorem ifree_s_tinode (fs : Ilist.Filsys) (ino : ℕ) :
    (Ilist.ifree fs ino).s_tinode = toUshort (fs.s_tinode + 1) := by
  unfold Ilist.ifree
  dsimp only
  split_ifs <;> rfl

theorem toUshort_succ_ne (x : ℤ) : toUshort (x + 1) ≠ x := by
  unfold toUshort
  omega

/-- An inode without links is freed. -/
theorem iinactive_unlinked {v v' : Volume} {ip ip' : Inode} (hv : v.s_ronly = false)
    (hlinks : ip.i_nlink ≤ 0) (h : iinactive spill ioerr v ip = some (v', ip')) :
    v'.fs.s_tinode = toUshort (v.fs.s_tinode + 1) := by
  unfold iinactive at h
  by_cases hlocked : ip.ilocked = true
  · rw [if_pos hlocked] at h
    cases h
  rw [if_neg hlocked, hv, if_neg Bool.false_ne_true] at h
  dsimp only at h
  rw [if_pos hlinks] at h
  obtain ⟨⟨v₁, ip₁⟩, h₁, h⟩ := Option.map_eq_some_iff.1 h
  obtain ⟨⟨v₂, ip₂⟩, h₂, hfreed⟩ := Option.map_eq_some_iff.1 h₁
  have hv₁ : v₁.fs = Ilist.ifree v₂.fs ip₂.i_number :=
    (congrArg (fun res => res.1.fs) hfreed).symm
  have hv' := (congrArg (fun res => res.1.fs) h).symm.trans (iupdat_fs ..)
  rw [hv', hv₁, ifree_s_tinode, itrunc_fs spill ioerr h₂]

/-- An inode that is not marked, and has links or is of a file system that may not be written,
    is let go. -/
theorem iinactive_linked {v : Volume} {ip : Inode} (hlocked : ip.ilocked = false)
    (hmarked : ip.imarked = false) (h : v.s_ronly = true ∨ 0 < ip.i_nlink) :
    ∃ ip', iinactive spill ioerr v ip = some (v, ip') := by
  unfold iinactive
  rw [hlocked, if_neg Bool.false_ne_true]
  by_cases hv : v.s_ronly = true
  · rw [if_pos hv]
    exact ⟨_, rfl⟩
  · have hlinks : ¬ip.i_nlink ≤ 0 := not_le.2 (h.resolve_left hv)
    rw [if_neg hv]
    dsimp only
    rw [if_neg hlinks, Option.map_some, iupdat, hmarked, if_neg Bool.false_ne_true]
    exact ⟨_, rfl⟩

/-- An in-core inode that is taken off the chains it is on is on none. -/
theorem not_mem_remque {s : Incore n} {ip : Fin n} (hchain : ∀ h, (s.chain h).Nodup) (h : ℕ) :
    ip ∉ (remque s ip).chain h := (hchain h).not_mem_erase

/-- Where the disk inode cannot be read, `iget` leaves all alone if and only if the file that the
    in-core inode was last has links, or nothing may be written. -/
theorem left_alone_iff {s : Incore n} {v : Volume} {dev ino : ℕ} {ip : Fin n} {free : List (Fin n)}
    (hfree : s.free = ip :: free) (hnodup : s.free.Nodup) (hchain : ∀ h, (s.chain h).Nodup)
    (hio : ioerr (FsITOD v.fs ino) = true) :
    (∃ s' v', iget spill ioerr s v dev ino = some (s', v', none) ∧ LeftAlone ip v s' v') ↔
      v.s_ronly = true ∨ 0 < (s.inode ip).i_nlink := by
  have hnot : ip ∉ free := by
    rw [hfree] at hnodup
    exact (List.nodup_cons.1 hnodup).1
  have hget : iget spill ioerr s v dev ino = (iinactive spill ioerr v
      { s.inode ip with
        iref := true, ilocked := false, imarked := false, i_dev := dev, i_number := 0 }).map
      fun (v, x) =>
        ({ remque (insque (remque { s with free := free } ip) ip (Icache.INOHASH dev ino)) ip with
          inode := Function.update s.inode ip x, free := free ++ [ip] }, v, none) := by
    unfold iget
    rw [hfree]
    dsimp only
    rw [if_pos hio]
    rfl
  rw [hget]
  constructor
  · rintro ⟨s', v', h, hleft⟩
    by_contra hcon
    rw [not_or, Bool.not_eq_true, not_lt] at hcon
    obtain ⟨⟨v₁, ip₁⟩, h₁, h⟩ := Option.map_eq_some_iff.1 h
    cases h
    have hcount := iinactive_unlinked spill ioerr hcon.1 (by exact hcon.2) h₁
    exact toUshort_succ_ne _ (hcount.symm.trans hleft.s_tinode)
  · intro hlinks
    obtain ⟨ip', hinactive⟩ : ∃ ip', iinactive spill ioerr v { s.inode ip with
        iref := true, ilocked := false, imarked := false, i_dev := dev, i_number := 0 } =
        some (v, ip') := iinactive_linked spill ioerr rfl rfl hlinks
    rw [hinactive, Option.map_some]
    refine ⟨_, _, rfl, ?_, fun h => ?_, rfl, rfl, rfl, rfl, rfl⟩
    · rw [List.count_append, List.count_eq_zero_of_not_mem hnot, List.count_singleton_self]
    · refine not_mem_remque (fun h => ?_) h
      dsimp only [insque]
      by_cases hh : h = Icache.INOHASH dev ino
      · rw [hh, Function.update_self]
        exact List.nodup_cons.2 ⟨not_mem_remque hchain _, (hchain _).erase _⟩
      · rw [Function.update_of_ne hh]
        exact (hchain h).erase _

/-- One in-core inode, which was last a file with some links. -/
def oneInode (links : ℤ) : Incore 1 where
  inode _ := ⟨false, false, false, 0, 7, 0o100644, 0, links, 0, ⟨fun _ => 0, 0⟩⟩
  chain h := if h = Icache.INOHASH 0 7 then [0] else []
  free := [0]

/-- A file system without free inodes in the super-block. -/
def noneListed : Volume where
  fs := ⟨10, 0, fun _ => 0, false, false, 5, 1⟩
  s_ronly := false
  dinode _ _ := ⟨0, 0, 0, ⟨fun _ => 0, 0⟩⟩
  blocks := ⟨fun _ _ => 0, [], false⟩

theorem left_alone_iff_linked :
    ∃ s' v', iget (fun _ _ row => row) (fun blk => blk = 2) (oneInode 1) noneListed 0 2 =
      some (s', v', none) ∧ LeftAlone 0 noneListed s' v' := by
  have hchain : ∀ h, ((oneInode 1).chain h).Nodup := by
    intro h
    dsimp only [oneInode]
    split_ifs
    · exact List.nodup_singleton _
    · exact List.nodup_nil
  exact (@left_alone_iff 1 (fun _ _ row => row) (fun blk => blk = 2) (oneInode 1) noneListed 0 2 0
    [] rfl (List.nodup_singleton _) hchain rfl).2 (.inr (by decide))

/-- The last file of the in-core inode was deleted: the inode `0` is put on the list of the free
    inodes. -/
theorem not_left_alone :
    ¬∃ s' v', iget (fun _ _ row => row) (fun blk => blk = 2) (oneInode 0) noneListed 0 2 =
      some (s', v', none) ∧ LeftAlone 0 noneListed s' v' := by
  rintro ⟨s', v', h, hleft⟩
  have hninode := congrArg (Option.map fun res => res.2.1.fs.s_ninode) h
  have hone : (iget (fun _ _ row => row) (fun blk => blk = 2) (oneInode 0) noneListed 0 2).map
      (fun res => res.2.1.fs.s_ninode) = some 1 := rfl
  rw [hone, Option.map_some, hleft.s_ninode] at hninode
  cases hninode

end AuxKernel.Svfs.Iget
