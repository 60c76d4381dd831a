import Mathlib.Data.List.GetD
import AuxKernel.Rpc.Prot

/-!
# Counted bytes and strings

`xdr_bytes` and `xdr_string` (`RPC/sys/xdr.c`), which allocate storage for what they decode
when they are given none, and free it when they are called for that. Both work on any stream,
by the operations that it has; here is the one on memory (`xdr_mem.c`). A stream that fails is
`none`.
-/

namespace AuxKernel.Rpc.Alloc

open Prot (XdrOp rndup)

/-! ## Streams -/

/-- The operations of a stream (`struct xdr_ops`). What `getbytes` has copied before it fails
    is there too. -/
structure XdrOps (σ : Type) where
  getlong : σ → Option (UInt32 × σ)
  putlong : UInt32 → σ → Option σ
  getbytes : UInt32 → σ → List UInt8 × Option σ
  putbytes : List UInt8 → σ → Option σ
  length_getbytes : ∀ len s, (getbytes len s).1.length ≤ len.toNat

/-- A stream on memory: the memory, the position in it, and how many bytes are left. -/
structure Xdrmem where
  mem : ℕ → UInt8
  x_private : ℕ
  x_handy : ℤ

namespace Xdrmem

/-- The `n` bytes at the position. -/
def read (x : Xdrmem) (n : ℕ) : List UInt8 := (List.range n).map fun i => x.mem (x.x_private + i)

/-- Bytes are copied to the position. -/
def write (x : Xdrmem) (b : List UInt8) : Xdrmem :=
  { x with mem := fun i =>
      if x.x_private ≤ i then b.getD (i - x.x_private) (x.mem i) else x.mem i }

/-- Behind the next `n` bytes, if these are there. -/
def skip (x : Xdrmem) (n : ℕ) : Option Xdrmem :=
  let handy := toLong (x.x_handy - n)
  if handy < 0 then none else some { x with x_private := x.x_private + n, x_handy := handy }

def getlong (x : Xdrmem) : Option (UInt32 × Xdrmem) :=
  (x.skip 4).map fun x' => (UInt32.ofInt (ntohl (x.read 4)), x')

def putbytes (b : List UInt8) (x : Xdrmem) : Option Xdrmem := (x.write b).skip b.length

def putlong (w : UInt32) (x : Xdrmem) : Option Xdrmem := x.putbytes (htonl w.toNat)

def getbytes (len : UInt32) (x : Xdrmem) : List UInt8 × Option Xdrmem :=
  match x.skip len.toNat with
  | none => ([], none)
  | some x' => (x.read len.toNat, some x')

end Xdrmem

def xdrmem_ops : XdrOps Xdrmem where
  getlong := Xdrmem.getlong
  putlong w := Xdrmem.putlong w
  getbytes := Xdrmem.getbytes
  putbytes b := Xdrmem.putbytes b
  length_getbytes len x := by
    rw [Xdrmem.getbytes]
    split
    · exact Nat.zero_le _
    · rw [Xdrmem.read, List.length_map, List.length_range]

/-! ## Storage -/

/-- What lies at an address. -/
abbrev Memory := UInt32 → UInt8

/-- The `n` bytes at an address. -/
def Memory.read (mem : Memory) (p : UInt32) (n : ℕ) : List UInt8 :=
  (List.range n).map fun i => mem (p + UInt32.ofNat i)

/-- Bytes are copied to an address. -/
def Memory.write (mem : Memory) (p : UInt32) (b : List UInt8) : Memory :=
  fun a => b.getD (a - p).toNat (mem a)

/-- How many of the `n` bytes at an address come before a zero. -/
def strlenFrom (mem : Memory) (p : UInt32) : ℕ → ℕ
  | 0 => 0
  | n + 1 => if mem p = 0 then 0 else strlenFrom mem (p + 1) n + 1

def strlen (mem : Memory) (p : UInt32) : UInt32 := UInt32.ofNat (strlenFrom mem p (2 ^ 32))

/-- Memory, and what of it has been allocated and freed so far: addresses, and numbers of
    bytes. -/
structure Heap where
  mem : Memory
  allocated : List (UInt32 × UInt32)
  freed : List (UInt32 × UInt32)

/-- Where `kmem_alloc` finds so many bytes. -/
abbrev Arena := UInt32 → {p : UInt32 // p ≠ 0}

def mem_alloc (arena : Arena) (nbytes : UInt32) (h : Heap) : UInt32 × Heap :=
  if nbytes = 0 then (0, h)
  else (arena nbytes, { h with allocated := h.allocated ++ [((arena nbytes).1, nbytes)] })

def mem_free (ptr nbytes : UInt32) (h : Heap) : Heap :=
  if nbytes = 0 then h else { h with freed := h.freed ++ [(ptr, nbytes)] }

/-! ## Routines -/

variable {σ : Type} (ops : XdrOps σ) (arena : Arena)

def xdr_u_int (op : XdrOp) (s : σ) (u : UInt32) : Option (UInt32 × σ) :=
  match op with
  | .decode => ops.getlong s
  | .encode => (ops.putlong u s).map (u, ·)
  | .free => some (u, s)

def xdr_opaque (op : XdrOp) (s : σ) (mem : Memory) (cp cnt : UInt32) : Option σ × Memory :=
  if cnt = 0 then (some s, mem)
  else
    let pad := rndup cnt.toNat
    match op with
    | .decode =>
      let (b, s) := ops.getbytes cnt s
      (s.bind fun s => if pad = 0 then some s else (ops.getbytes (UInt32.ofNat pad) s).2,
        mem.write cp b)
    | .encode =>
      ((ops.putbytes (mem.read cp cnt.toNat) s).bind fun s =>
        if pad = 0 then some s else ops.putbytes (List.replicate pad 0) s, mem)
    | .free => (some s, mem)

/-- The object of `xdr_bytes`: where the bytes are, and how many. -/
structure Counted where
  cpp : UInt32
  sizep : UInt32
  deriving DecidableEq, Repr

def xdr_bytes (op : XdrOp) (s : σ) (h : Heap) (o : Counted) (maxsize : UInt32) :
    Option σ × Heap × Counted :=
  match xdr_u_int ops op s o.sizep with
  | none => (none, h, o)
  | some (nodesize, s) =>
    let o := { o with sizep := nodesize }
    if nodesize > maxsize ∧ op ≠ .free then (none, h, o)
    else
      match op with
      | .decode =>
        let (sp, h) := if o.cpp = 0 then mem_alloc arena nodesize h else (o.cpp, h)
        let (r, mem) := xdr_opaque ops .decode s h.mem sp nodesize
        (r, { h with mem }, { o with cpp := sp })
      | .encode =>
        let (r, mem) := xdr_opaque ops .encode s h.mem o.cpp nodesize
        (r, { h with mem }, o)
      | .free =>
        if o.cpp ≠ 0 then (some s, mem_free o.cpp nodesize h, { o with cpp := 0 })
        else (some s, h, o)

/-- The object of `xdr_string` is the address of the string. -/
def xdr_string (op : XdrOp) (s : σ) (h : Heap) (cpp maxsize : UInt32) :
    Option σ × Heap × UInt32 :=
  let size := if op ≠ .decode then strlen h.mem cpp else 0
  match xdr_u_int ops op s size with
  | none => (none, h, cpp)
  | some (size, s) =>
    if size > maxsize then (none, h, cpp)
    else
      let nodesize := size + 1
      match op with
      | .decode =>
        let (sp, h) := if cpp = 0 then mem_alloc arena nodesize h else (cpp, h)
        let (r, mem) := xdr_opaque ops .decode s (h.mem.write (sp + size) [0]) sp size
        (r, { h with mem }, sp)
      | .encode =>
        let (r, mem) := xdr_opaque ops .encode s h.mem cpp size
        (r, { h with mem }, cpp)
      | .free =>
        if cpp ≠ 0 then (some s, mem_free cpp nodesize h, 0) else (some s, h, cpp)

end AuxKernel.Rpc.Alloc
