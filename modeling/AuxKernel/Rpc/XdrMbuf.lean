import AuxKernel.System
import AuxKernel.Basic

/-!
# External data representation on mbufs

The streams of `RPC/sys/xdr_mbuf.c` on a chain of mbufs: the position is an mbuf of the chain,
a pointer into it, and the number of bytes left there (`x_handy`), of which a negative one
says to go on to the next mbuf. Memory does not end where the data of an mbuf do: what is
read or written behind them is what lies there.

Next to it are a decoder and an encoder of flat bytes, and the machines that run the two
side by side (`decoding`, `encoding`).
-/

namespace AuxKernel.Rpc

/-- The bytes of a `long` in the order of the network. -/
def htonl (v : ℤ) : List UInt8 :=
  let n := (v % 2 ^ 32).toNat
  [UInt8.ofNat (n / 2 ^ 24), UInt8.ofNat (n / 2 ^ 16), UInt8.ofNat (n / 2 ^ 8), UInt8.ofNat n]

/-- The `long` made of four bytes. -/
def ntohl (b : List UInt8) : ℤ := toLong (b.foldl (fun n x => n * 2 ^ 8 + x.toNat) (0 : ℕ))

/-- An mbuf: the length of its data, and the memory from where they start. -/
structure Mbuf where
  m_len : ℤ
  dat : ℤ → UInt8

/-- The `n` bytes at an offset. -/
def Mbuf.read (m : Mbuf) (off : ℤ) (n : ℕ) : List UInt8 :=
  (List.range n).map fun i : ℕ => m.dat (off + i)

/-- Bytes are copied to an offset. -/
def Mbuf.write (m : Mbuf) (off : ℤ) (b : List UInt8) : Mbuf :=
  { m with dat := fun i => if off ≤ i then b.getD (i - off).toNat (m.dat i) else m.dat i }

def Mbuf.data (m : Mbuf) : List UInt8 := m.read 0 m.m_len.toNat

/-- The bytes of a chain. -/
def chainBytes (l : List Mbuf) : List UInt8 := l.flatMap Mbuf.data

/-- A stream: the mbufs before the current one, the current one (`x_base`) and those behind
    it; the offset of the pointer in its data, and how many bytes are left in it. -/
structure Xdr where
  before : List Mbuf
  x_base : Mbuf
  m_next : List Mbuf
  x_private : ℤ
  x_handy : ℤ

def xdrmbuf_init (m : Mbuf) (l : List Mbuf) : Xdr := ⟨[], m, l, 0, m.m_len⟩

namespace Xdr

/-- The whole chain. -/
def chain (x : Xdr) : List Mbuf := x.before ++ x.x_base :: x.m_next

/-- What is left of the chain. -/
def rest (x : Xdr) : List UInt8 :=
  x.x_base.read x.x_private x.x_handy.toNat ++ chainBytes x.m_next

/-- The next mbuf, if there is one. -/
def advance (x : Xdr) : Option Xdr :=
  match x.m_next with
  | [] => none
  | m :: l => some ⟨x.before ++ [x.x_base], m, l, 0, m.m_len⟩

/-- Where the next `long` is: here, or at the start of the next mbuf if this one has not got
    four bytes left. -/
def atLong (x : Xdr) : Option Xdr :=
  let handy := toLong (x.x_handy - 4)
  if handy < 0 then x.advance.map fun x => { x with x_handy := toLong (x.x_handy - 4) }
  else some { x with x_handy := handy }

end Xdr

def xdrmbuf_getlong (x : Xdr) : Option (ℤ × Xdr) :=
  x.atLong.map fun x =>
    (ntohl (x.x_base.read x.x_private 4), { x with x_private := x.x_private + 4 })

def xdrmbuf_putlong (v : ℤ) (x : Xdr) : Option Xdr :=
  x.atLong.map fun x =>
    { x with
      x_base := x.x_base.write x.x_private (htonl v)
      x_private := x.x_private + 4 }

/-- Copy `len` bytes out of the mbuf `m`, of which `handy` are left at `off`, and out of the
    mbufs behind it. -/
def getbytesLoop : (l before : List Mbuf) → (m : Mbuf) → (off handy : ℤ) → (len : ℕ) →
    Option (List UInt8 × Xdr)
  | [], before, m, off, handy, len =>
    let left := toLong (handy - len)
    if left < 0 then none else some (m.read off len, ⟨before, m, [], off + len, left⟩)
  | m' :: l, before, m, off, handy, len =>
    let left := toLong (handy - len)
    if left < 0 then
      (getbytesLoop l (before ++ [m]) m' 0 m'.m_len (len - handy.toNat)).map fun (b, x) =>
        (m.read off handy.toNat ++ b, x)
    else some (m.read off len, ⟨before, m, m' :: l, off + len, left⟩)

def xdrmbuf_getbytes (len : ℕ) (x : Xdr) : Option (List UInt8 × Xdr) :=
  getbytesLoop x.m_next x.before x.x_base x.x_private x.x_handy len

/-- Copy bytes into the mbuf `m`, of which `handy` are left at `off`, and into the mbufs behind
    it. -/
def putbytesLoop : (l before : List Mbuf) → (m : Mbuf) → (off handy : ℤ) → (b : List UInt8) →
    Option Xdr
  | [], before, m, off, handy, b =>
    let left := toLong (handy - b.length)
    if left < 0 then none else some ⟨before, m.write off b, [], off + b.length, left⟩
  | m' :: l, before, m, off, handy, b =>
    let left := toLong (handy - b.length)
    if left < 0 then
      putbytesLoop l (before ++ [m.write off (b.take handy.toNat)]) m' 0 m'.m_len
        (b.drop handy.toNat)
    else some ⟨before, m.write off b, m' :: l, off + b.length, left⟩

def xdrmbuf_putbytes (b : List UInt8) (x : Xdr) : Option Xdr :=
  putbytesLoop x.m_next x.before x.x_base x.x_private x.x_handy b

/-- A pointer to `len` bytes, if they are left in this mbuf. -/
def xdrmbuf_inline (len : ℕ) (x : Xdr) : Option (List UInt8 × Xdr) :=
  let n := toLong len
  if x.x_handy ≥ n then
    some (x.x_base.read x.x_private len,
      { x with x_handy := toLong (x.x_handy - n), x_private := x.x_private + n })
  else none

/-! ## Decoding -/

/-- An operation of a decoder, and what it returns. -/
inductive Get
  | long
  | bytes (len : ℕ)
  | inline (len : ℕ)
  deriving DecidableEq, Repr

@[inherit_doc Get]
inductive Item
  | long (v : ℤ)
  | bytes (b : List UInt8)
  deriving DecidableEq, Repr

def Xdr.get (x : Xdr) : Get → Option (Item × Xdr)
  | .long => (xdrmbuf_getlong x).map fun (v, x) => (.long v, x)
  | .bytes len => (xdrmbuf_getbytes len x).map fun (b, x) => (.bytes b, x)
  | .inline len =>
    ((xdrmbuf_inline len x).or (xdrmbuf_getbytes len x)).map fun (b, x) => (.bytes b, x)

/-- Decoding from flat memory. -/
def flatGet (b : List UInt8) : Get → Option (Item × List UInt8)
  | .long => if 4 ≤ b.length then some (.long (ntohl (b.take 4)), b.drop 4) else none
  | .bytes len | .inline len =>
    if len ≤ b.length then some (.bytes (b.take len), b.drop len) else none

/-- Both decoders, what they have returned so far (`none` for a failure), and whether one of
    them has failed. -/
structure Decoding where
  x : Xdr
  flat : List UInt8
  got : List (Option Item)
  flatGot : List (Option Item)
  ended : Bool

def Decoding.step (s : Decoding) (g : Get) : Option Decoding :=
  if s.ended then none
  else
    let r := s.x.get g
    let f := flatGet s.flat g
    some
      { x := (r.map Prod.snd).getD s.x
        flat := (f.map Prod.snd).getD s.flat
        got := s.got ++ [r.map Prod.fst]
        flatGot := s.flatGot ++ [f.map Prod.fst]
        ended := r.isNone || f.isNone }

/-- The lengths of mbufs are not negative, and fit into a `short`. -/
def Short (l : List Mbuf) : Prop := ∀ m ∈ l, 0 ≤ m.m_len ∧ m.m_len < 2 ^ 15

/-- The decoder of a chain, and that of its bytes. -/
def decoding : Machine Decoding Get where
  init s := ∃ m l, Short (m :: l) ∧
    s = ⟨xdrmbuf_init m l, chainBytes (m :: l), [], [], false⟩
  next := Decoding.step

/-! ## Encoding -/

/-- An operation of an encoder. -/
inductive Put
  | long (v : ℤ)
  | bytes (b : List UInt8)
  deriving DecidableEq, Repr

def Put.encode : Put → List UInt8
  | .long v => htonl v
  | .bytes b => b

def Xdr.put (x : Xdr) : Put → Option Xdr
  | .long v => xdrmbuf_putlong v x
  | .bytes b => xdrmbuf_putbytes b x

/-- The encoder; the bytes that the chain held, and those a flat encoder has written. -/
structure Encoding where
  x : Xdr
  old : List UInt8
  written : List UInt8
  failed : Bool

def Encoding.step (s : Encoding) (p : Put) : Option Encoding :=
  if s.failed then none
  else
    match s.x.put p with
    | some x => some { s with x := x, written := s.written ++ p.encode }
    | none => some { s with failed := true }

/-- The encoder to a chain. -/
def encoding : Machine Encoding Put where
  init s := ∃ m l, Short (m :: l) ∧ s = ⟨xdrmbuf_init m l, chainBytes (m :: l), [], false⟩
  next := Encoding.step

end AuxKernel.Rpc
