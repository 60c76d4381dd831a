import AuxKernel.System
import AuxKernel.Pieces
import AuxKernel.Net.Mbuf

/-!
# IP reassembly

`ip_reass` (`NETinet/sys/ip_input.c`), and what `ipintr` makes of the header of a
fragment before it: the queue of the fragments of a datagram, and the datagram made of
them when they are all there.

The header of a fragment lies before the data of its first mbuf, where it is hidden
while the fragment is in the queue.
-/

namespace AuxKernel.Ip

open Net

/-- The header of a packet (`struct ip`) in host order, its options, and its data. -/
structure Packet where
  ip_v : ℕ
  ip_hl : ℕ
  ip_tos : ℕ
  ip_len : ℤ
  ip_id : ℕ
  ip_off : ℕ
  ip_ttl : ℕ
  ip_p : ℕ
  ip_sum : ℕ
  ip_src : ℕ
  ip_dst : ℕ
  options : List UInt8
  m : List (Mbuf UInt8)

/-- A fragment (`struct ipasfrag`): `ip_len` and `ip_off` are those of its data, in
    bytes, and there is a flag for more fragments in the place of `ip_tos`. -/
structure Ipasfrag where
  ip_v : ℕ
  ip_hl : ℕ
  ipf_mff : Bool
  ip_len : ℤ
  ip_id : ℕ
  ip_off : ℤ
  ip_ttl : ℕ
  ip_p : ℕ
  ip_sum : ℕ
  ip_src : ℕ
  ip_dst : ℕ
  options : List UInt8
  m : List (Mbuf UInt8)

/-- A number in memory, the high byte first. -/
def short (n : ℤ) : List UInt8 := [UInt8.ofNat (n / 256 % 256).toNat, UInt8.ofNat (n % 256).toNat]

/-- The bytes of a header. -/
def header (ip : Ipasfrag) : List UInt8 :=
  [UInt8.ofNat (16 * ip.ip_v + ip.ip_hl), if ip.ipf_mff then 1 else 0] ++ short ip.ip_len ++
    short ip.ip_id ++ short ip.ip_off ++ [UInt8.ofNat ip.ip_ttl, UInt8.ofNat ip.ip_p] ++
    short ip.ip_sum ++ short (ip.ip_src / 65536) ++ short ip.ip_src ++ short (ip.ip_dst / 65536) ++
    short ip.ip_dst ++ ip.options

/-- What `ipintr` makes of the header of a packet for this host: the lengths without
    the header, the flag for more fragments (`IP_MF` is bit 13), the offset in bytes. -/
def ours (ip : Packet) : Ipasfrag :=
  let hlen := 4 * ip.ip_hl
  { ip_v := ip.ip_v
    ip_hl := ip.ip_hl
    ipf_mff := ip.ip_off.testBit 13
    ip_len := toShort (ip.ip_len - hlen)
    ip_id := ip.ip_id
    ip_off := toShort (8 * ip.ip_off)
    ip_ttl := ip.ip_ttl
    ip_p := ip.ip_p
    ip_sum := ip.ip_sum
    ip_src := ip.ip_src
    ip_dst := ip.ip_dst
    options := ip.options
    m := ip.m }

/-- The packet is given to `ip_reass`. -/
def isFragment (ip : Packet) : Bool := (ours ip).ipf_mff || (ours ip).ip_off != 0

/-- The queue of the fragments of a datagram (`struct ipq`). -/
structure Ipq where
  ipq_ttl : ℕ
  ipq_p : ℕ
  ipq_id : ℕ
  ipq_src : ℕ
  ipq_dst : ℕ
  ipq_next : List Ipasfrag

/-- The time for a queue to live. -/
def IPFRAGTTL : ℕ := 15

/-- Fragments as pieces of the datagram, by their offsets. -/
def fragments : Pieces Ipasfrag where
  gt q p := q.ip_off > p.ip_off
  past q p := q.ip_off + q.ip_len - p.ip_off
  len := Ipasfrag.ip_len
  cut i q := { q with
    ip_off := toShort (q.ip_off + i)
    ip_len := toShort (q.ip_len - i)
    m := m_adj q.m i.toNat }

/-- The length of the data in the fragments `l`, if there is no gap behind the first
    `next` bytes. -/
def contiguous : (next : ℤ) → (l : List Ipasfrag) → Option ℤ
  | next, [] => some next
  | next, q :: l => if q.ip_off ≠ next then none else contiguous (next + q.ip_len) l

/-- Append the data of fragments to a chain that is not empty. -/
def concatenate : List (Mbuf UInt8) → List Ipasfrag → List (Mbuf UInt8)
  | m, [] => m
  | [], _ => []
  | m :: t, q :: l => concatenate (m_cat m t q.m) l

/-- The size of `struct ipasfrag`. -/
def sizeofIpasfrag : ℕ := 20

/-- Make the header of a packet visible that ends where the data of its first mbuf
    begin. -/
def unhide (hdr : List UInt8) : List (Mbuf UInt8) → List (Mbuf UInt8)
  | [] => []
  | m :: l => { m with
      m_off := m.m_off - sizeofIpasfrag
      data := hdr.drop (hdr.length - sizeofIpasfrag) ++ m.data } :: l

/-- The datagram made of the fragments `q :: l` with `next` bytes of data. -/
def assemble (fp : Ipq) (q : Ipasfrag) (l : List Ipasfrag) (next : ℤ) : Ipasfrag :=
  let m := match q.m with
    | [] => []
    | m :: t => m_cat m [] t
  let ip := { q with ip_len := toShort next, ip_src := fp.ipq_src, ip_dst := fp.ipq_dst }
  { ip with m := unhide (header ip) (concatenate m l) }

/-- Put a fragment in its place, and check for complete reassembly: the queue, if any
    is left, and the datagram. -/
def check (fp : Ipq) : Option Ipq × Option Ipasfrag :=
  match contiguous 0 fp.ipq_next, fp.ipq_next, fp.ipq_next.getLast? with
  | some next, q :: l, some last =>
    if last.ipf_mff then (some fp, none) else (none, some (assemble fp q l next))
  | _, _, _ => (some fp, none)

/-- A queue for the datagram of the fragment `ip`, the first one to arrive. -/
def newIpq (ip : Ipasfrag) : Ipq where
  ipq_ttl := IPFRAGTTL
  ipq_p := ip.ip_p
  ipq_id := ip.ip_id
  ipq_src := ip.ip_src
  ipq_dst := ip.ip_dst
  ipq_next := [ip]

/-- Try to reassemble a datagram with the fragment `ip`, in the queue `fp` if it exists
    already. There may be no mbuf for a new queue (`nobufs`). -/
def ip_reass (ip : Ipasfrag) (nobufs : Bool) : Option Ipq → Option Ipq × Option Ipasfrag
  | none => if nobufs then (none, none) else check (newIpq ip)
  | some fp =>
    match fragments.insert ip fp.ipq_next with
    | none => (some fp, none)
    | some l => check { fp with ipq_next := l }

/-! ## The machine -/

/-- A datagram: what its fragments have in common, and its data. -/
structure Datagram where
  ip_id : ℕ
  ip_p : ℕ
  ip_src : ℕ
  ip_dst : ℕ
  payload : List UInt8

/-- The queue of a datagram, if there is one, and the bytes of it that have arrived
    since the queue was made. -/
structure Run where
  fp : Option Ipq
  arrived : ℤ → Bool

/-- The fragments in the queue. -/
def queue (fp : Option Ipq) : List Ipasfrag := fp.elim [] Ipq.ipq_next

/-- A fragment arrives; the time for the queue to live is over. -/
inductive Act
  | fragment (ip : Packet) (nobufs : Bool)
  | expire

/-- The byte `x` is in the fragment. -/
def Packet.has (ip : Packet) (x : ℤ) : Bool :=
  8 * (ip.ip_off % 8192) ≤ x && x < 8 * (ip.ip_off % 8192) + (ip.ip_len - 4 * ip.ip_hl)

/-- The reassembly of one datagram. -/
def reassembly : Machine Run Act where
  init s := s.fp = none ∧ ∀ x, s.arrived x = false
  next s
    | .fragment ip nobufs =>
      if isFragment ip then
        match ip_reass (ours ip) nobufs s.fp with
        | (fp, none) => some ⟨fp, fun x => s.arrived x || ip.has x⟩
        | (fp, some _) => some ⟨fp, fun _ => false⟩
      else none
    | .expire => some ⟨none, fun _ => false⟩

/-- A fragment of the datagram `d`, with the bytes from `off` on: there are more
    fragments unless it reaches the end, and then its length is a multiple of 8. -/
structure FragmentOf (d : Datagram) (ip : Packet) : Prop where
  ip_id : ip.ip_id = d.ip_id
  ip_p : ip.ip_p = d.ip_p
  ip_src : ip.ip_src = d.ip_src
  ip_dst : ip.ip_dst = d.ip_dst
  ip_hl : 5 ≤ ip.ip_hl ∧ ip.options.length = 4 * ip.ip_hl - 20
  m : ip.m ≠ [] ∧ 0 < (bytes ip.m).length
  ip_len : ip.ip_len = 4 * ip.ip_hl + (bytes ip.m).length ∧ ip.ip_len ≤ 32767
  le : 8 * (ip.ip_off % 8192) + (bytes ip.m).length ≤ d.payload.length
  data : bytes ip.m <+: d.payload.drop (8 * (ip.ip_off % 8192))
  ip_mf : ip.ip_off.testBit 13 ↔
    8 * (ip.ip_off % 8192) + (bytes ip.m).length < d.payload.length
  units : ip.ip_off.testBit 13 → 8 ∣ (bytes ip.m).length

/-- The fragments that arrive are those of the datagram. -/
def Act.Valid (d : Datagram) : Act → Prop
  | .fragment ip _ => FragmentOf d ip
  | .expire => True

/-- Every byte of the datagram has arrived, with the fragment `ip`. -/
def Complete (d : Datagram) (s : Run) (ip : Packet) : Prop :=
  ∀ x : ℤ, 0 ≤ x → x < d.payload.length → s.arrived x ∨ ip.has x

/-- The datagram made of `f`, the fragment with its first byte. -/
structure Made (d : Datagram) (f ip : Ipasfrag) : Prop where
  ip_len : ip.ip_len = d.payload.length
  bytes : bytes ip.m = header { f with ip_len := d.payload.length } ++ d.payload

/-- What the calls of `ip_reass` achieve for the datagram `d`, if they meet `ok`. -/
structure Reassembled (ok : Run → Act → Prop) (d : Datagram) (s : Run) : Prop where
  /-- The queue is sorted and disjoint, with bytes of the datagram in it. -/
  sorted : fragments.Sorted Ipasfrag.ip_off (queue s.fp)
  data : ∀ q ∈ queue s.fp, 0 ≤ q.ip_off ∧ q.ip_len = (bytes q.m).length ∧
    bytes q.m <+: d.payload.drop q.ip_off.toNat
  /-- What has arrived is in the queue. -/
  held : ∀ x, fragments.Covers Ipasfrag.ip_off (queue s.fp) x ↔ s.arrived x
  /-- A datagram is returned when it is complete, and only then. -/
  returned {ip : Packet} {nobufs : Bool} : FragmentOf d ip → ok s (.fragment ip nobufs) →
    ((ip_reass (ours ip) nobufs s.fp).2.isSome ↔ Complete d s ip)
  /-- It is the fragment with its first byte, with all data. -/
  made {ip : Packet} {nobufs : Bool} {r : Ipasfrag} : FragmentOf d ip →
    ok s (.fragment ip nobufs) → (ip_reass (ours ip) nobufs s.fp).2 = some r →
    ∃ f, (f ∈ queue s.fp ∨ f = ours ip) ∧ f.ip_off = 0 ∧ Made d f r
  /-- Otherwise nothing is lost. -/
  kept {ip : Packet} {nobufs : Bool} : FragmentOf d ip → ok s (.fragment ip nobufs) →
    (ip_reass (ours ip) nobufs s.fp).2 = none → ∀ x,
      fragments.Covers Ipasfrag.ip_off (queue (ip_reass (ours ip) nobufs s.fp).1) x ↔
        s.arrived x ∨ ip.has x

end AuxKernel.Ip
