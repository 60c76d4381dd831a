import Mathlib.Data.Int.ModEq

/-!
# C integers and error numbers

The compiler's integers: `int` and `long` are 32-bit, `short` is 16-bit and `char` 8-bit,
all two's complement; arithmetic is on `ℤ` and is wrapped where the code stores it.
-/

namespace AuxKernel

/-- The value stored in a `long` (or an `int`). -/
def toLong (n : ℤ) : ℤ := Int.bmod n (2 ^ 32)

/-- The value stored in a `short`. -/
def toShort (n : ℤ) : ℤ := Int.bmod n (2 ^ 16)

/-- The value stored in a `ushort`. -/
def toUshort (n : ℤ) : ℤ := n % 2 ^ 16

/-- The value stored in an `unsigned char`. -/
def toUchar (n : ℤ) : ℤ := n % 2 ^ 8

/-- The value stored in a `char`. -/
def toChar (n : ℤ) : ℤ := Int.bmod n (2 ^ 8)

theorem toLong_of_mem {n : ℤ} (h₀ : -2 ^ 31 ≤ n) (h₁ : n < 2 ^ 31) : toLong n = n :=
  Int.bmod_eq_of_le (by omega) (by omega)

theorem toShort_of_mem {n : ℤ} (h₀ : -2 ^ 15 ≤ n) (h₁ : n < 2 ^ 15) : toShort n = n :=
  Int.bmod_eq_of_le (by omega) (by omega)

theorem toChar_of_mem {n : ℤ} (h₀ : -2 ^ 7 ≤ n) (h₁ : n < 2 ^ 7) : toChar n = n :=
  Int.bmod_eq_of_le (by omega) (by omega)

theorem toUchar_of_mem {n : ℤ} (h₀ : 0 ≤ n) (h₁ : n < 2 ^ 8) : toUchar n = n :=
  Int.emod_eq_of_lt h₀ h₁

theorem toUshort_of_mem {n : ℤ} (h₀ : 0 ≤ n) (h₁ : n < 2 ^ 16) : toUshort n = n :=
  Int.emod_eq_of_lt h₀ h₁

/-- The error numbers the modelled calls return. -/
inductive Errno
  | ebadf
  | eacces
  | einval
  | emfile
  | enospc
  | eintr
  | eio
  | edeadlk
  | edeadlock
  | eopnotsupp
  | eremote
  | erange
  | e2big
  | efbig
  | eidrm
  | eagain
  | efault
  | eexist
  | enomem
  | enomsg
  | enfile
  | ewouldblock
  | emsgsize
  | eaddrnotavail
  | enetunreach
  | enobufs
  | enoent
  | enotdir
  | eloop
  | enametoolong
  | eaddrinuse
  | eafnosupport
  | eperm
  | enotempty
  | esame
  | exdev
  | ebusy
  | etxtbsy
  | epipe
  | enotconn
  | edestaddrreq
  | esrch
  | enodata
  | enxio
  deriving DecidableEq, Repr

end AuxKernel
