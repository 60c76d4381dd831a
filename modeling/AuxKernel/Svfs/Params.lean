import AuxKernel.Basic
import Mathlib.Tactic.SplitIfs

/-!
# Blocks of an SVFS file system: sizes

The macros of `sys/param.h` for file systems with blocks of 512 and of 1024 bytes
(`FsTYPE` 3), by the type in the super-block (`s_type`).
-/

namespace AuxKernel.Svfs

/-- The types: blocks of 512 bytes, and of 1024. -/
def Fs1b : ℕ := 1
def Fs2b : ℕ := 2

/-- The size of a sector of the device. -/
def DEV_BSIZE : ℕ := 512

/-- The size of a block. -/
def FsBSIZE (s_type : ℕ) : ℕ := if s_type = Fs2b then 1024 else 512

/-- The block of a file that the byte `x` is in. -/
def FsBNO (s_type x : ℕ) : ℕ := if s_type = Fs2b then x / 1024 else x / 512

/-- The place of the byte `x` in its block. -/
def FsBLKOFF (s_type x : ℕ) : ℕ := if s_type = Fs2b then x % 1024 else x % 512

/-- The number of addresses in a block, its logarithm, and the mask for an index in it. -/
def FsNINDIR (s_type : ℕ) : ℕ := if s_type = Fs2b then 256 else 128
@[inherit_doc FsNINDIR]
def FsNSHIFT (s_type : ℕ) : ℕ := if s_type = Fs2b then 8 else 7
@[inherit_doc FsNINDIR]
def FsNMASK (s_type : ℕ) : ℕ := if s_type = Fs2b then 0o377 else 0o177

theorem FsBNO_eq (s_type x : ℕ) : FsBNO s_type x = x / FsBSIZE s_type := by
  simp only [FsBNO, FsBSIZE]
  split_ifs <;> rfl

theorem FsNINDIR_eq (s_type : ℕ) : FsNINDIR s_type = 2 ^ FsNSHIFT s_type := by
  simp only [FsNINDIR, FsNSHIFT]
  split_ifs <;> rfl

theorem FsNMASK_eq (s_type : ℕ) : FsNMASK s_type = 2 ^ FsNSHIFT s_type - 1 := by
  simp only [FsNMASK, FsNSHIFT]
  split_ifs <;> rfl

end AuxKernel.Svfs
