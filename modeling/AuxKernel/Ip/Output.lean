import AuxKernel.Net.Sockbuf
import AuxKernel.Ranges

/-!
# IP output

`ip_output` (`NETinet/sys/ip_output.c`): options are inserted, the header is filled in, and a
packet that is too large for its interface is cut into fragments, each with a copy of the
header, with those options that are copied, and with a part of the data (`m_copy`, of
`NET/sys/uipc_mbuf.c`).

A packet is its header and the chain of what follows the twenty bytes of that: the options
and the data. The route, the checksum, and whether there are mbufs, are what it is given.
-/

namespace AuxKernel.Ip.Output

open Net

/-! ## The header -/

/-- The header of a packet. The words are signed, in the order of the host. -/
structure Ip where
  ip_v : ℕ
  ip_hl : ℤ
  ip_tos : ℕ
  ip_len : ℤ
  ip_id : ℕ
  ip_off : ℤ
  ip_ttl : ℕ
  ip_p : ℕ
  ip_sum : ℕ
  ip_src : ℕ
  ip_dst : ℕ
  deriving DecidableEq, Repr

/-- The bytes of a header without options. -/
def sizeofIp : ℕ := 20

/-- The flags of `ip_off`: `IP_DF`, not to fragment; and `IP_MF`, more fragments. -/
def IP_DF : ℤ := 0x4000
@[inherit_doc IP_DF]
def IP_MF : ℤ := 0x2000

/-- Whether a flag, a power of two, is set in a word. -/
def hasFlag (flag n : ℤ) : Bool := n / flag % 2 = 1

def setFlag (flag n : ℤ) : ℤ := if hasFlag flag n then n else n + flag

def clearFlag (flag n : ℤ) : ℤ := if hasFlag flag n then n - flag else n

/-- The offset in `ip_off`, in units of eight bytes. -/
def Ip.offset (ip : Ip) : ℕ := (ip.ip_off % 0x2000).toNat

def Ip.mf (ip : Ip) : Bool := hasFlag IP_MF ip.ip_off

def Ip.df (ip : Ip) : Bool := hasFlag IP_DF ip.ip_off

/-- A packet as the interface gets it. -/
structure Sent where
  ip : Ip
  text : List (Mbuf UInt8)

/-! ## Copies of chains -/

variable {α : Type*}

/-- Skip the first `off` bytes of a chain; where they end in an mbuf. -/
def skipTo : List (Mbuf α) → (off : ℕ) → Option (List (Mbuf α) × ℕ)
  | l, 0 => some (l, 0)
  | [], _ + 1 => none
  | m :: l, off + 1 =>
    if off + 1 < m.m_len then some (m :: l, off + 1) else skipTo l (off + 1 - m.m_len)

/-- Copy `len` bytes of a chain, from `off` on in its first mbuf. -/
def copyFrom : List (Mbuf α) → (off len : ℕ) → Option (List (Mbuf α))
  | _, _, 0 => some []
  | [], _, _ + 1 => none
  | m :: l, off, len + 1 =>
    let n := min (len + 1) (m.m_len - off)
    (copyFrom l 0 (len + 1 - n)).map fun c =>
      ⟨if m.m_off > MMAXOFF ∧ n > MLEN then m.m_off + off else MMINOFF,
        (m.data.drop off).take n, false⟩ :: c

/-- A copy of a part of a chain; `none` if it is not that long (it panics). -/
def m_copy (l : List (Mbuf α)) (off len : ℕ) : Option (List (Mbuf α)) :=
  (skipTo l off).bind fun (l, off) => copyFrom l off len

/-! ## Options -/

/-- The options to be inserted, with the first hop to go to in place of the destination. -/
structure Ipoption where
  ipopt_dst : ℕ
  ipopt_list : List UInt8

/-- Insert options in front of the data; `none` if there is no mbuf for them. -/
def insertInto (opts : List UInt8) (mget : Bool) : List (Mbuf UInt8) → Option (List (Mbuf UInt8))
  | [] => if mget then some [⟨MMAXOFF - opts.length, opts, false⟩] else none
  | m :: l =>
    if m.m_off - sizeofIp ≥ MMAXOFF ∨ MMINOFF + opts.length > m.m_off - sizeofIp then
      if mget then some (⟨MMAXOFF - opts.length, opts, false⟩ :: m :: l) else none
    else some ({ m with m_off := m.m_off - opts.length, data := opts ++ m.data } :: l)

/-- The packet with options, and the length of its header. -/
def ip_insertoptions (ip : Ip) (m : List (Mbuf UInt8)) (p : Ipoption) (mget : Bool) :
    Ip × List (Mbuf UInt8) × ℤ :=
  let ip := if p.ipopt_dst ≠ 0 then { ip with ip_dst := p.ipopt_dst } else ip
  match insertInto p.ipopt_list mget m with
  | none => (ip, m, sizeofIp)
  | some m => ({ ip with ip_len := toShort (ip.ip_len + p.ipopt_list.length) }, m,
      sizeofIp + p.ipopt_list.length)

/-- The options that end a list, and that fill it up. -/
def IPOPT_EOL : UInt8 := 0
@[inherit_doc IPOPT_EOL]
def IPOPT_NOP : UInt8 := 1

/-- The options at `cp`, of `cnt` bytes, that are copied to the fragment at `off`. One that says
    it is zero bytes long is looked at again and again. -/
def optcopyLoop (off : ℤ) : ℕ → (cp : List UInt8) → (cnt : ℕ) → Option (List UInt8)
  | 0, _, cnt => if cnt = 0 then some [] else none
  | n + 1, cp, cnt =>
    if cnt = 0 then some []
    else
      let opt := cp.getD 0 0
      if opt = IPOPT_EOL then some []
      else
        let optlen := min (if opt = IPOPT_NOP then 1 else (cp.getD 1 0).toNat) cnt
        (optcopyLoop off n (cp.drop optlen) (cnt - optlen)).map fun dp =>
          if off = 0 ∨ opt ≥ 0x80 then cp.take optlen ++ dp else dp

/-- The options for a fragment, filled up to a multiple of four. -/
def ip_optcopy (ip : Ip) (cp : List UInt8) (off : ℤ) : Option (List UInt8) :=
  let cnt := (4 * ip.ip_hl - sizeofIp).toNat
  (optcopyLoop off cnt cp cnt).map fun dp =>
    dp ++ List.replicate ((4 - dp.length % 4) % 4) IPOPT_EOL

/-! ## Output -/

/-- What the routing finds: the interface, with its largest packet, whether it broadcasts, and
    its address; and whether the destination is a broadcast address. -/
structure Route where
  if_mtu : ℤ
  iff_broadcast : Bool
  in_broadcast : Bool
  ifaddr : Option ℕ

/-- What a call meets: the route, the next identification, the mbuf for options, and for each
    offset the mbuf for a header, those for the data, and what the interface answers. -/
structure Env where
  route : Except Errno Route
  ip_id : ℕ
  optbuf : Bool
  mget : ℤ → Bool
  mcopy : ℤ → Bool
  if_output : ℤ → Option Errno

/-- A call: a packet, with options or forwarded, and whether it may be broadcast. -/
structure Call where
  ip : Ip
  m : List (Mbuf UInt8)
  opt : Option Ipoption
  forwarding : Bool
  allowbroadcast : Bool

variable (in_cksum : Ip → List (Mbuf UInt8) → ℤ → ℕ)

/-- The header of the fragment at `off`, of `len` bytes or of what is left; and its length. -/
def fragmentIp (ip : Ip) (hlen off len : ℤ) : Ip × ℤ :=
  let ip_off := toShort (off / 8 + clearFlag IP_MF ip.ip_off)
  let ip_off := if hasFlag IP_MF ip.ip_off then setFlag IP_MF ip_off else ip_off
  let last := off + len ≥ ip.ip_len - hlen
  let len := if last then ip.ip_len - hlen - off else len
  ({ ip with
    ip_off := if last then ip_off else setFlag IP_MF ip_off
    ip_len := toUshort (toShort (toShort len + sizeofIp)) }, len)

/-- The fragment at `off` of a packet with a header of `hlen` bytes. -/
def fragment (env : Env) (ip : Ip) (m : List (Mbuf UInt8)) (hlen off len : ℤ) :
    Option (Except Errno Sent) :=
  if ¬env.mget off then some (.error .enobufs)
  else
    let olen := if hlen > sizeofIp then ip_optcopy ip (bytes m) off else some []
    olen.bind fun opts =>
      let (mhip, len) := fragmentIp ip hlen off len
      if ¬env.mcopy off then some (.error .enobufs)
      else
        (m_copy m off.toNat len.toNat).map fun c =>
          let text : List (Mbuf UInt8) := ⟨MMAXOFF - hlen.toNat + sizeofIp, opts, false⟩ :: c
          .ok ⟨{ mhip with ip_sum := in_cksum { mhip with ip_sum := 0 } text hlen }, text⟩

/-- The fragments from `off` on, at most `n` of them. -/
def fragmentLoop (env : Env) (ip : Ip) (m : List (Mbuf UInt8)) (hlen len : ℤ) :
    ℕ → (off : ℤ) → Option (List Sent × Option Errno)
  | 0, off => if off < ip.ip_len - hlen then none else some ([], none)
  | n + 1, off =>
    if off < ip.ip_len - hlen then
      (fragment in_cksum env ip m hlen off len).bind fun
        | .error e => some ([], some e)
        | .ok mh =>
          match env.if_output off with
          | some e => some ([mh], some e)
          | none => (fragmentLoop env ip m hlen len n (off + len)).map fun (l, e) => (mh :: l, e)
    else some ([], none)

/-- Send a packet as it is, or in fragments. -/
def transmit (env : Env) (route : Route) (ip : Ip) (m : List (Mbuf UInt8)) (hlen : ℤ) :
    Option (List Sent × Option Errno) :=
  if ip.ip_len ≤ route.if_mtu then
    let ip := { ip with ip_len := toUshort ip.ip_len }
    some ([⟨{ ip with ip_sum := in_cksum { ip with ip_sum := 0 } m hlen }, m⟩], env.if_output 0)
  else if ip.df then some ([], some .emsgsize)
  else
    let len := (route.if_mtu - hlen) / 8 * 8
    if len < 8 then some ([], some .emsgsize)
    else fragmentLoop in_cksum env ip m hlen len (ip.ip_len - hlen).toNat 0

/-- Fill in the header of a packet of our own. -/
def fillIn (env : Env) (ip : Ip) (hlen : ℤ) : Ip :=
  { ip with
    ip_v := 4
    ip_off := if ip.df then IP_DF else 0
    ip_id := env.ip_id
    ip_hl := hlen / 4 }

/-- The packet with its options and its header filled in, and the length of the header. -/
def prepare (env : Env) (c : Call) : Ip × List (Mbuf UInt8) × ℤ :=
  let (ip, m, hlen) := match c.opt with
    | none => (c.ip, c.m, (sizeofIp : ℤ))
    | some p => ip_insertoptions c.ip c.m p env.optbuf
  if c.forwarding then (ip, m, ip.ip_hl * 4)
  else (fillIn env ip hlen, m, hlen)

/-- The number of bytes of options a packet is sent with. -/
def Call.options (env : Env) (c : Call) : ℕ :=
  if c.forwarding then (4 * c.ip.ip_hl - sizeofIp).toNat
  else
    match c.opt with
    | none => 0
    | some p => if (insertInto p.ipopt_list env.optbuf c.m).isSome then p.ipopt_list.length else 0

def ip_output (env : Env) (c : Call) : Option (List Sent × Option Errno) :=
  let (ip, m, hlen) := prepare env c
  match env.route with
  | .error e => some ([], some e)
  | .ok route =>
    let ip := if ip.ip_src = 0 then { ip with ip_src := route.ifaddr.getD 0 } else ip
    if route.in_broadcast ∧ ¬route.iff_broadcast then some ([], some .eaddrnotavail)
    else if route.in_broadcast ∧ ¬c.allowbroadcast then some ([], some .eacces)
    else if route.in_broadcast ∧ ip.ip_len > route.if_mtu then some ([], some .emsgsize)
    else transmit in_cksum env route ip m hlen

end AuxKernel.Ip.Output
