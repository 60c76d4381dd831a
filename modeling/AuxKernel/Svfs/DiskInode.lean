import AuxKernel.System
import AuxKernel.Svfs.Bmap
import Mathlib.Data.BitVec
import Mathlib.Logic.Function.Basic

/-!
# Inodes on the disk and in core

`iunpack` and `ipack` (`SVFS/sys/5_inode.c`): an address has three bytes on the disk, and four
in core, the first of which is `0`. An inode of a FIFO has ten addresses; in core the bytes
behind them are the pointers of the pipe, which do not go to the disk. The generation, a
`long` in core, is a `char` on the disk, behind the addresses.

* `iunpack_addr`, `ipack_addr`: the bytes that are moved;
* `dinode_round_trip`: there and back again, either way, and what becomes of the generation.
-/

namespace AuxKernel.Svfs.DiskInode

open Bmap

/-- The number of addresses of a FIFO. -/
def NFADDR : ℕ := 10

/-- The type of a file in its mode, and that of a FIFO. -/
def IFMT : BitVec 16 := 0o170000
@[inherit_doc IFMT]
def IFIFO : BitVec 16 := 0o010000

/-- The bytes of an array. -/
abbrev Bytes := ℕ → BitVec 8

/-- An in-core inode; `i_p` has the bytes of its addresses. -/
structure Inode where
  i_mode : BitVec 16
  i_nlink : BitVec 16
  i_uid : BitVec 16
  i_gid : BitVec 16
  i_size : BitVec 32
  i_p : Bytes
  i_gen : BitVec 32
  i_atime : BitVec 32
  i_mtime : BitVec 32
  i_ctime : BitVec 32

/-- An inode on the disk. -/
structure Dinode where
  di_mode : BitVec 16
  di_nlink : BitVec 16
  di_uid : BitVec 16
  di_gid : BitVec 16
  di_size : BitVec 32
  di_addr : Bytes
  di_atime : BitVec 32
  di_mtime : BitVec 32
  di_ctime : BitVec 32

/-- The generation, in the last of the forty bytes. -/
def Dinode.di_gen (dp : Dinode) : BitVec 8 := dp.di_addr 39

/-- The addresses of an inode: its high bytes come first. -/
def Inode.i_addr (ip : Inode) (i : ℕ) : BitVec 32 :=
  ip.i_p (4 * i) ++ ip.i_p (4 * i + 1) ++ ip.i_p (4 * i + 2) ++ ip.i_p (4 * i + 3)

/-- The inode of a FIFO. -/
def isFifo (mode : BitVec 16) : Prop := mode &&& IFMT = IFIFO

instance (mode : BitVec 16) : Decidable (isFifo mode) := inferInstanceAs (Decidable (_ = _))

/-! ## Moving the bytes -/

section Loops

variable (src : Bytes)

/-- One address of `iunpack`, from `p2` to `p1`. -/
def unpackAddr (p1 p2 : ℕ) (b : Bytes) : Bytes :=
  let b := Function.update b p1 0
  let b := Function.update b (p1 + 1) (src p2)
  let b := Function.update b (p1 + 2) (src (p2 + 1))
  Function.update b (p1 + 3) (src (p2 + 2))

/-- The loop of `iunpack`, which ends with the turn for `i = 0`. -/
def unpackloop : (i p1 p2 : ℕ) → Bytes → Bytes
  | 0, p1, p2, b => unpackAddr src p1 p2 b
  | i + 1, p1, p2, b => unpackloop i (p1 + 4) (p2 + 3) (unpackAddr src p1 p2 b)

/-- One address of `ipack`; if its first byte is not `0`, a message is printed. -/
def packAddr (p1 p2 : ℕ) (b : Bytes) : Bytes :=
  let b := Function.update b p1 (src (p2 + 1))
  let b := Function.update b (p1 + 1) (src (p2 + 2))
  Function.update b (p1 + 2) (src (p2 + 3))

/-- The loops of `ipack` over addresses. -/
def packloop : (i p1 p2 : ℕ) → Bytes → Bytes
  | 0, p1, p2, b => packAddr src p1 p2 b
  | i + 1, p1, p2, b => packloop i (p1 + 3) (p2 + 4) (packAddr src p1 p2 b)

/-- An address of zeros. -/
def zeroAddr (p1 : ℕ) (b : Bytes) : Bytes :=
  Function.update (Function.update (Function.update b p1 0) (p1 + 1) 0) (p1 + 2) 0

/-- The loop of `ipack` over the addresses that a FIFO does not have. -/
def zeroloop : (i p1 : ℕ) → Bytes → Bytes
  | 0, p1, b => zeroAddr p1 b
  | i + 1, p1, b => zeroloop i (p1 + 3) (zeroAddr p1 b)

end Loops

/-- Fill the in-core inode `ip` from the disk. -/
def iunpack (ip : Inode) (dp : Dinode) : Inode :=
  { ip with
    i_mode := dp.di_mode
    i_nlink := dp.di_nlink
    i_uid := dp.di_uid
    i_gid := dp.di_gid
    i_size := dp.di_size
    i_p := unpackloop dp.di_addr (NADDR - 1) 0 0 ip.i_p
    i_gen := dp.di_gen.signExtend 32
    i_atime := dp.di_atime
    i_mtime := dp.di_mtime
    i_ctime := dp.di_ctime }

/-- Fill the inode on the disk `dp`. -/
def ipack (dp : Dinode) (ip : Inode) : Dinode :=
  let di_addr :=
    if isFifo ip.i_mode then
      zeroloop (NADDR - NFADDR - 1) (3 * NFADDR) (packloop ip.i_p (NFADDR - 1) 0 0 dp.di_addr)
    else packloop ip.i_p (NADDR - 1) 0 0 dp.di_addr
  { dp with
    di_mode := ip.i_mode
    di_nlink := ip.i_nlink
    di_uid := ip.i_uid
    di_gid := ip.i_gid
    di_size := ip.i_size
    di_addr := Function.update di_addr 39 (ip.i_gen.setWidth 8)
    di_atime := ip.i_atime
    di_mtime := ip.i_mtime
    di_ctime := ip.i_ctime }

/-! ## The bytes that are moved -/

section Moves

variable {src : Bytes}

theorem unpackAddr_apply (p1 p2 : ℕ) (b : Bytes) (k : ℕ) :
    unpackAddr src p1 p2 b k =
      if p1 ≤ k ∧ k < p1 + 4 then if k = p1 then 0 else src (p2 + (k - p1 - 1)) else b k := by
  unfold unpackAddr
  by_cases hk : p1 ≤ k ∧ k < p1 + 4
  · obtain rfl | rfl | rfl | rfl : k = p1 ∨ k = p1 + 1 ∨ k = p1 + 2 ∨ k = p1 + 3 := by omega
    all_goals simp
  · simp only [Function.update_apply]
    rw [if_neg (by omega), if_neg (by omega), if_neg (by omega), if_neg (by omega), if_neg hk]

theorem packAddr_apply (p1 p2 : ℕ) (b : Bytes) (k : ℕ) :
    packAddr src p1 p2 b k =
      if p1 ≤ k ∧ k < p1 + 3 then src (p2 + (k - p1) + 1) else b k := by
  unfold packAddr
  by_cases hk : p1 ≤ k ∧ k < p1 + 3
  · obtain rfl | rfl | rfl : k = p1 ∨ k = p1 + 1 ∨ k = p1 + 2 := by omega
    all_goals simp
  · simp only [Function.update_apply]
    rw [if_neg (by omega), if_neg (by omega), if_neg (by omega), if_neg hk]

theorem zeroAddr_apply (p1 : ℕ) (b : Bytes) (k : ℕ) :
    zeroAddr p1 b k = if p1 ≤ k ∧ k < p1 + 3 then 0 else b k := by
  unfold zeroAddr
  by_cases hk : p1 ≤ k ∧ k < p1 + 3
  · obtain rfl | rfl | rfl : k = p1 ∨ k = p1 + 1 ∨ k = p1 + 2 := by omega
    all_goals simp
  · simp only [Function.update_apply]
    rw [if_neg (by omega), if_neg (by omega), if_neg (by omega), if_neg hk]

/-- The byte of an address that one turn of `iunpack` fills. -/
theorem unpackAddr_eq {p1 p2 k : ℕ} (b : Bytes) (hk : p1 ≤ k ∧ k < p1 + 4) :
    unpackAddr src p1 p2 b k =
      if (k - p1) % 4 = 0 then 0 else src (p2 + 3 * ((k - p1) / 4) + ((k - p1) % 4 - 1)) := by
  have hdiv : (k - p1) / 4 = 0 := Nat.div_eq_of_lt (by omega)
  have hmod : (k - p1) % 4 = k - p1 := Nat.mod_eq_of_lt (by omega)
  rw [unpackAddr_apply, if_pos hk, hdiv, hmod]
  exact if_congr (by omega) rfl rfl

/-- The loop of `iunpack` fills `i + 1` addresses. -/
theorem unpackloop_apply (k : ℕ) : ∀ (i p1 p2 : ℕ) (b : Bytes),
    unpackloop src i p1 p2 b k =
      if p1 ≤ k ∧ k < p1 + 4 * (i + 1) then
        if (k - p1) % 4 = 0 then 0 else src (p2 + 3 * ((k - p1) / 4) + ((k - p1) % 4 - 1))
      else b k
  | 0, p1, p2, b => by
    rw [unpackloop]
    by_cases hk : p1 ≤ k ∧ k < p1 + 4
    · rw [unpackAddr_eq b hk, if_pos (show p1 ≤ k ∧ k < p1 + 4 * (0 + 1) from hk)]
    · rw [unpackAddr_apply, if_neg hk, if_neg (show ¬ (p1 ≤ k ∧ k < p1 + 4 * (0 + 1)) from hk)]
  | i + 1, p1, p2, b => by
    rw [unpackloop, unpackloop_apply k i]
    by_cases hk : p1 + 4 ≤ k ∧ k < p1 + 4 + 4 * (i + 1)
    · obtain ⟨d, rfl⟩ := Nat.exists_eq_add_of_le hk.1
      have hsub : p1 + 4 + d - p1 = d + 4 := by omega
      rw [if_pos hk, if_pos (show p1 ≤ p1 + 4 + d ∧ _ by omega), hsub, Nat.add_sub_cancel_left,
        Nat.add_mod_right, Nat.add_div_right _ (by decide)]
      refine if_congr Iff.rfl rfl (congrArg src ?_)
      omega
    · rw [if_neg hk]
      by_cases hturn : p1 ≤ k ∧ k < p1 + 4
      · rw [unpackAddr_eq b hturn, if_pos (show p1 ≤ k ∧ k < p1 + 4 * (i + 1 + 1) by omega)]
      · rw [unpackAddr_apply, if_neg hturn,
          if_neg (show ¬ (p1 ≤ k ∧ k < p1 + 4 * (i + 1 + 1)) by omega)]

/-- The byte of an address that one turn of `ipack` fills. -/
theorem packAddr_eq {p1 p2 k : ℕ} (b : Bytes) (hk : p1 ≤ k ∧ k < p1 + 3) :
    packAddr src p1 p2 b k = src (p2 + 4 * ((k - p1) / 3) + ((k - p1) % 3 + 1)) := by
  have hdiv : (k - p1) / 3 = 0 := Nat.div_eq_of_lt (by omega)
  have hmod : (k - p1) % 3 = k - p1 := Nat.mod_eq_of_lt (by omega)
  rw [packAddr_apply, if_pos hk, hdiv, hmod, mul_zero, add_zero, add_assoc]

/-- The loops of `ipack` fill `i + 1` addresses. -/
theorem packloop_apply (k : ℕ) : ∀ (i p1 p2 : ℕ) (b : Bytes),
    packloop src i p1 p2 b k =
      if p1 ≤ k ∧ k < p1 + 3 * (i + 1) then
        src (p2 + 4 * ((k - p1) / 3) + ((k - p1) % 3 + 1))
      else b k
  | 0, p1, p2, b => by
    rw [packloop]
    by_cases hk : p1 ≤ k ∧ k < p1 + 3
    · rw [packAddr_eq b hk, if_pos (show p1 ≤ k ∧ k < p1 + 3 * (0 + 1) from hk)]
    · rw [packAddr_apply, if_neg hk, if_neg (show ¬ (p1 ≤ k ∧ k < p1 + 3 * (0 + 1)) from hk)]
  | i + 1, p1, p2, b => by
    rw [packloop, packloop_apply k i]
    by_cases hk : p1 + 3 ≤ k ∧ k < p1 + 3 + 3 * (i + 1)
    · obtain ⟨d, rfl⟩ := Nat.exists_eq_add_of_le hk.1
      have hsub : p1 + 3 + d - p1 = d + 3 := by omega
      rw [if_pos hk, if_pos (show p1 ≤ p1 + 3 + d ∧ _ by omega), hsub, Nat.add_sub_cancel_left,
        Nat.add_mod_right, Nat.add_div_right _ (by decide)]
      refine congrArg src ?_
      omega
    · rw [if_neg hk]
      by_cases hturn : p1 ≤ k ∧ k < p1 + 3
      · rw [packAddr_eq b hturn, if_pos (show p1 ≤ k ∧ k < p1 + 3 * (i + 1 + 1) by omega)]
      · rw [packAddr_apply, if_neg hturn,
          if_neg (show ¬ (p1 ≤ k ∧ k < p1 + 3 * (i + 1 + 1)) by omega)]

theorem zeroloop_apply (k : ℕ) : ∀ (i p1 : ℕ) (b : Bytes),
    zeroloop i p1 b k = if p1 ≤ k ∧ k < p1 + 3 * (i + 1) then 0 else b k
  | 0, p1, b => by rw [zeroloop, zeroAddr_apply]
  | i + 1, p1, b => by
    rw [zeroloop, zeroloop_apply k i, zeroAddr_apply]
    by_cases hk : p1 + 3 ≤ k ∧ k < p1 + 3 + 3 * (i + 1)
    · rw [if_pos hk, if_pos (by omega)]
    · rw [if_neg hk]
      by_cases hturn : p1 ≤ k ∧ k < p1 + 3
      · rw [if_pos hturn, if_pos (by omega)]
      · rw [if_neg hturn, if_neg (by omega)]

end Moves

/-- The bytes of the addresses in core. -/
theorem iunpack_addr (ip : Inode) (dp : Dinode) {k : ℕ} (hk : k < 4 * NADDR) :
    (iunpack ip dp).i_p k = if k % 4 = 0 then 0 else dp.di_addr (3 * (k / 4) + (k % 4 - 1)) := by
  change unpackloop dp.di_addr (NADDR - 1) 0 0 ip.i_p k = _
  rw [unpackloop_apply, if_pos ⟨Nat.zero_le k, by rw [NADDR] at hk ⊢; omega⟩, Nat.sub_zero,
    Nat.zero_add]

/-- The bytes of the addresses on the disk. -/
theorem ipack_addr (dp : Dinode) (ip : Inode) {k : ℕ} (hk : k < 3 * NADDR) :
    (ipack dp ip).di_addr k =
      if isFifo ip.i_mode ∧ 3 * NFADDR ≤ k then 0 else ip.i_p (4 * (k / 3) + (k % 3 + 1)) := by
  rw [NADDR] at hk
  rw [NFADDR]
  simp only [ipack, NADDR, NFADDR]
  rw [Function.update_of_ne (by omega)]
  by_cases hfifo : isFifo ip.i_mode
  · rw [if_pos hfifo, zeroloop_apply]
    by_cases htail : 3 * 10 ≤ k
    · rw [if_pos (by omega), if_pos ⟨hfifo, htail⟩]
    · rw [if_neg (by omega), if_neg (mt And.right htail), packloop_apply, if_pos (by omega),
        Nat.sub_zero, Nat.zero_add]
  · rw [if_neg hfifo, if_neg (mt And.left hfifo), packloop_apply, if_pos (by omega), Nat.sub_zero,
      Nat.zero_add]

theorem ipack_gen (dp : Dinode) (ip : Inode) : (ipack dp ip).di_gen = ip.i_gen.setWidth 8 := by
  dsimp only [Dinode.di_gen, ipack]
  rw [Function.update_self]

/-! ## There and back again -/

/-- Two inodes on the disk are the same. -/
structure Dinode.Same (dp dp' : Dinode) : Prop where
  mode : dp'.di_mode = dp.di_mode
  nlink : dp'.di_nlink = dp.di_nlink
  uid : dp'.di_uid = dp.di_uid
  gid : dp'.di_gid = dp.di_gid
  size : dp'.di_size = dp.di_size
  addr : ∀ k < 3 * NADDR, dp'.di_addr k = dp.di_addr k
  gen : dp'.di_gen = dp.di_gen
  atime : dp'.di_atime = dp.di_atime
  mtime : dp'.di_mtime = dp.di_mtime
  ctime : dp'.di_ctime = dp.di_ctime

/-- Two in-core inodes are the same, but for what follows the addresses of a FIFO, which is
    cleared. -/
structure Inode.Same (ip ip' : Inode) : Prop where
  mode : ip'.i_mode = ip.i_mode
  nlink : ip'.i_nlink = ip.i_nlink
  uid : ip'.i_uid = ip.i_uid
  gid : ip'.i_gid = ip.i_gid
  size : ip'.i_size = ip.i_size
  addr : ∀ i < NADDR, ip'.i_addr i = if isFifo ip.i_mode ∧ NFADDR ≤ i then 0 else ip.i_addr i
  gen : ip'.i_gen = ip.i_gen
  atime : ip'.i_atime = ip.i_atime
  mtime : ip'.i_mtime = ip.i_mtime
  ctime : ip'.i_ctime = ip.i_ctime

/-- The number of addresses that are used. -/
def naddr (mode : BitVec 16) : ℕ := if isFifo mode then NFADDR else NADDR

/-- An inode fits the disk: its addresses have three bytes, and its generation one. -/
structure Inode.Fits (ip : Inode) : Prop where
  addr : ∀ i < naddr ip.i_mode, (ip.i_addr i).toNat < 2 ^ 24
  gen : -2 ^ 7 ≤ ip.i_gen.toInt ∧ ip.i_gen.toInt < 2 ^ 7

/-- A char is kept by the way through a long. -/
theorem setWidth_signExtend (g : BitVec 8) : (g.signExtend 32).setWidth 8 = g := by
  ext i hi
  rw [BitVec.getElem_setWidth, BitVec.getLsbD_signExtend]
  simp [hi, show i < 32 by omega]

/-- A long that fits a char is kept by the way through it. -/
theorem signExtend_setWidth {g : BitVec 32} (h : -2 ^ 7 ≤ g.toInt ∧ g.toInt < 2 ^ 7) :
    (g.setWidth 8).signExtend 32 = g := by
  refine BitVec.eq_of_toInt_eq ?_
  have hmod : g.toInt.bmod (2 ^ 8) = (g.toNat : ℤ).bmod (2 ^ 8) := by
    rw [BitVec.toInt_eq_toNat_bmod]
    exact Int.bmod_bmod_of_dvd (by decide)
  rw [BitVec.toInt_signExtend_of_le (by decide), BitVec.toInt_setWidth, ← hmod]
  exact Int.bmod_eq_of_le (by omega) (by omega)

theorem toNat_append_eq {v w : ℕ} (a : BitVec v) (b : BitVec w) :
    (a ++ b).toNat = a.toNat * 2 ^ w + b.toNat := by
  rw [BitVec.toNat_append, ← Nat.shiftLeft_add_eq_or_of_lt b.isLt, Nat.shiftLeft_eq]

/-- The first byte of an address below 2^24. -/
theorem high_eq_zero {ip : Inode} {i : ℕ} (h : (ip.i_addr i).toNat < 2 ^ 24) :
    ip.i_p (4 * i) = 0 := by
  rw [Inode.i_addr, toNat_append_eq, toNat_append_eq, toNat_append_eq] at h
  refine BitVec.eq_of_toNat_eq ?_
  change _ = 0
  omega

/-- An inode on the disk goes through core unchanged, if it is not that of a FIFO. -/
theorem ipack_iunpack (dp dp' : Dinode) (ip : Inode) (hfifo : ¬ isFifo dp.di_mode) :
    dp.Same (ipack dp' (iunpack ip dp)) := by
  refine ⟨rfl, rfl, rfl, rfl, rfl, fun k hk => ?_, ?_, rfl, rfl, rfl⟩
  · have hNADDR : NADDR = 13 := rfl
    rw [ipack_addr dp' _ hk, if_neg fun h => hfifo h.1, iunpack_addr ip dp (by omega),
      if_neg (by omega)]
    refine congrArg dp.di_addr ?_
    omega
  · rw [ipack_gen]
    exact setWidth_signExtend dp.di_gen

/-- An in-core inode that fits goes through the disk unchanged. -/
theorem iunpack_ipack (ip ip' : Inode) (dp : Dinode) (h : ip.Fits) :
    ip.Same (iunpack ip' (ipack dp ip)) := by
  refine ⟨rfl, rfl, rfl, rfl, rfl, fun i hi => ?_, ?_, rfl, rfl, rfl⟩
  · have hNADDR : NADDR = 13 := rfl
    have hNFADDR : NFADDR = 10 := rfl
    -- The first byte is cleared, and the others have been on the disk.
    have hfirst : (iunpack ip' (ipack dp ip)).i_p (4 * i) = 0 := by
      rw [iunpack_addr _ _ (by omega), if_pos (by omega)]
    have hother : ∀ j < 3, (iunpack ip' (ipack dp ip)).i_p (4 * i + (j + 1)) =
        if isFifo ip.i_mode ∧ NFADDR ≤ i then 0 else ip.i_p (4 * i + (j + 1)) := by
      intro j hj
      have hdiv : (4 * i + (j + 1)) / 4 = i := by omega
      have hmod : (4 * i + (j + 1)) % 4 - 1 = j := by omega
      rw [iunpack_addr _ _ (by omega), if_neg (by omega), hdiv, hmod,
        ipack_addr _ _ (by omega)]
      refine if_congr (and_congr_right fun _ => ?_) rfl (congrArg ip.i_p ?_)
      all_goals omega
    rw [Inode.i_addr, hfirst, hother 0 (by decide), hother 1 (by decide), hother 2 (by decide)]
    by_cases htail : isFifo ip.i_mode ∧ NFADDR ≤ i
    · simp only [if_pos htail]
      rfl
    · simp only [if_neg htail]
      have hused : i < naddr ip.i_mode := by
        rw [naddr]
        split_ifs with hfifo
        · exact not_le.1 fun hle => htail ⟨hfifo, hle⟩
        · exact hi
      rw [Inode.i_addr, high_eq_zero (h.addr i hused)]
  · refine Eq.trans ?_ (signExtend_setWidth h.gen)
    exact congrArg (BitVec.signExtend 32) (ipack_gen dp ip)

/-! ## Generations -/

/-- The inode of a deleted file in `iinactive`: it gets a new generation; its size and its
    addresses are what `itrunc` leaves, but for the first one, which is cleared. -/
def iinactive (ip : Inode) (i_size : BitVec 32) (i_p : Bytes) : Inode :=
  { ip with i_gen := ip.i_gen + 1, i_mode := 0, i_size := i_size
            i_p := fun k => if k < 4 then 0 else i_p k }

/-- An inode in core and on the disk. -/
structure State where
  ip : Inode
  dp : Dinode

/-- What may happen to it: the file is deleted, and the inode written; the inode is written, or
    read; or the file is created, written or changed. -/
inductive Act
  | iinactive (i_size : BitVec 32) (i_p : Bytes)
  | iupdat
  | iget
  | changed (ip : Inode)

/-- The state after an action. None but the deletion changes the generation. -/
def next (s : State) : Act → State
  | .iinactive i_size i_p =>
    let ip := iinactive s.ip i_size i_p
    ⟨ip, ipack s.dp ip⟩
  | .iupdat => { s with dp := ipack s.dp s.ip }
  | .iget => { s with ip := iunpack s.ip s.dp }
  | .changed ip => { s with ip := { ip with i_gen := s.ip.i_gen } }

/-- The runs of an inode, from where it has been read. -/
def machine : Machine State Act where
  init s := ∃ ip dp, s = ⟨iunpack ip dp, dp⟩
  next s a := some (next s a)

/-- The generation on the disk is that in core. -/
theorem stored {s : State} (hs : machine.Reachable s) : s.dp.di_gen = s.ip.i_gen.setWidth 8 := by
  have hinit : ∀ s, machine.init s → s.dp.di_gen = s.ip.i_gen.setWidth 8 := by
    rintro _ ⟨ip, dp, rfl⟩
    exact (setWidth_signExtend dp.di_gen).symm
  refine hs.invariant hinit ?_
  · intro s a s' h _ hnext
    obtain rfl := Option.some.inj hnext
    cases a with
    | iinactive i_size i_p => exact ipack_gen _ _
    | iupdat => exact ipack_gen _ _
    | iget => exact (setWidth_signExtend s.dp.di_gen).symm
    | changed ip => exact h

/-- A deletion stores another generation. -/
theorem stored_ne {s : State} (hs : machine.Reachable s) (i_size : BitVec 32) (i_p : Bytes) :
    (next s (.iinactive i_size i_p)).dp.di_gen ≠ s.dp.di_gen := by
  have hgen : (next s (.iinactive i_size i_p)).dp.di_gen = (s.ip.i_gen + 1).setWidth 8 :=
    ipack_gen _ _
  rw [hgen, stored hs]
  generalize s.ip.i_gen = g
  intro h
  have hnat := congrArg BitVec.toNat h
  rw [BitVec.toNat_setWidth, BitVec.toNat_setWidth, BitVec.toNat_add] at hnat
  have hone : (1 : BitVec 32).toNat = 1 := rfl
  omega

/-- An inode on the disk that is not that of a FIFO goes through core unchanged, and an in-core
    inode that fits goes through the disk unchanged, but for the pointers of a FIFO; in all runs,
    the generation that is stored when the file is deleted is not the one before. -/
theorem dinode_round_trip :
    (∀ (dp dp' : Dinode) (ip : Inode), ¬ isFifo dp.di_mode →
      dp.Same (ipack dp' (iunpack ip dp))) ∧
    (∀ (ip ip' : Inode) (dp : Dinode), ip.Fits → ip.Same (iunpack ip' (ipack dp ip))) ∧
    ∀ s, machine.Reachable s → ∀ i_size i_p,
      (next s (.iinactive i_size i_p)).dp.di_gen ≠ s.dp.di_gen :=
  ⟨ipack_iunpack, iunpack_ipack, fun _ hs i_size i_p => stored_ne hs i_size i_p⟩

/-- A FIFO with its pointers set, and with the generation `-1`. -/
def fifoInode : Inode :=
  { i_mode := 0o010644, i_nlink := 1, i_uid := 0, i_gid := 0, i_size := 0
    i_p := fun k => if 4 * NFADDR ≤ k then 1 else if k % 4 = 3 then 7 else 0
    i_gen := -1, i_atime := 0, i_mtime := 0, i_ctime := 0 }

/-- A cleared inode on the disk. -/
def clearDinode : Dinode :=
  { di_mode := 0, di_nlink := 0, di_uid := 0, di_gid := 0, di_size := 0, di_addr := fun _ => 0
    di_atime := 0, di_mtime := 0, di_ctime := 0 }

/-- The pointers do not come back. -/
theorem dinode_round_trip_fifo :
    fifoInode.Same (iunpack fifoInode (ipack clearDinode fifoInode)) ∧
      (iunpack fifoInode (ipack clearDinode fifoInode)).i_addr 12 ≠ fifoInode.i_addr 12 := by
  have hsame := dinode_round_trip.2.1 fifoInode fifoInode clearDinode
    ⟨by decide, by decide, by decide⟩
  refine ⟨hsame, ?_⟩
  rw [hsame.addr 12 (by decide)]
  decide

end AuxKernel.Svfs.DiskInode
