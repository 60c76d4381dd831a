import AuxKernel.OnesComplement
import AuxKernel.Route.Basic

/-!
# Sending datagrams in fragments

`ku_fastsend` (`RPC/sys/kudp_fsend.c`), by which `ku_sendto_mbuf` sends datagrams without copies: a
route is looked up (`AuxKernel.Route`), and what the interface cannot send in one packet is cut in
place, by mbufs that point into those of the chain.

An mbuf has a name, and the bytes at its data pointer; where these lie is left out. Of the packets
there is what the interface gets, which frees them, whether or not it can send them. A `u_short` is
in the order of the net. `Env` is what surrounds a call: which calls of `MGET` get an mbuf, and what
the interface answers to which packet.
-/

namespace AuxKernel.Rpc.Fastsend

open Route

/-- The mbufs: those of the chain that is sent, and those that `MGET` has got. -/
inductive Name
  | own (i : ℕ)
  | got (n : ℕ)
  deriving DecidableEq, Repr

structure Mbuf where
  name : Name
  data : List UInt8
  deriving DecidableEq, Repr

def Mbuf.m_len (m : Mbuf) : ℕ := m.data.length

/-- The bytes of a chain. -/
def bytes (l : List Mbuf) : List UInt8 := l.flatMap Mbuf.data

/-! ## Packets -/

def sizeofIp : ℕ := 20
def sizeofUdphdr : ℕ := 8
def UDPMSGSIZE : ℕ := 8800
def IP_MF : BitVec 16 := 0x2000

/-- An IP header, of twenty bytes. What is the same in all of them is not here: its version and
    length, and the service are `0x4500`, the time to live (`MAXTTL`) and the protocol `0xff11`. -/
structure Ip where
  ip_len : BitVec 16
  ip_id : BitVec 16
  ip_off : BitVec 16
  ip_sum : BitVec 16
  ip_src : BitVec 32
  ip_dst : BitVec 32
  deriving DecidableEq, Repr

/-- The words of a header but for its checksum: `ips` without `ips[5]`. -/
def Ip.ips (ip : Ip) : List (BitVec 16) :=
  [0x4500, ip.ip_len, ip.ip_id, ip.ip_off, 0xff11,
    ip.ip_src.extractLsb' 16 16, ip.ip_src.extractLsb' 0 16,
    ip.ip_dst.extractLsb' 16 16, ip.ip_dst.extractLsb' 0 16]

/-- The sum of these words. -/
def Ip.sum (ip : Ip) : ℕ := (ip.ips.map BitVec.toNat).sum

/-- A UDP header. -/
def udphdr (uh_sport uh_dport uh_ulen : BitVec 16) : List UInt8 :=
  [uh_sport, uh_dport, uh_ulen, 0].flatMap fun w => [.ofNat (w.toNat / 256), .ofNat w.toNat]

/-- A packet: the mbuf with the headers, and the data behind. -/
structure Packet where
  hdr : Name
  ip : Ip
  udp : List UInt8
  data : List Mbuf
  deriving DecidableEq, Repr

/-- What follows the IP header. -/
def Packet.payload (p : Packet) : List UInt8 := p.udp ++ bytes p.data

/-- The mbufs of a packet. -/
def Packet.names (p : Packet) : List Name := p.hdr :: p.data.map Mbuf.name

/-! ## Fragments -/

/-- What surrounds a call. The local port is bound at this point. -/
structure Env (ι : Type) where
  mget : ℕ → Bool
  if_output : ℕ → Option Errno
  if_mtu : ι → ℕ
  ifptoia : ι → Option (BitVec 32)
  ip_id : BitVec 16
  inp_lport : BitVec 16

/-- What has happened: how often `MGET` has been called, the packets that the interface has got, and
    the mbufs that have been freed. -/
structure Run where
  mgets : ℕ
  sent : List Packet
  freed : List Name
  deriving DecidableEq, Repr

/-- The variables of the loop: the mbuf with the headers, and these; what is left of the chain. -/
structure Cur where
  m : Name
  ip : Ip
  udp : List UInt8
  am : List Mbuf
  curlen : ℕ
  fragoff : ℕ
  sentpck : Bool
  deriving DecidableEq, Repr

/-- A return, with what the chain of the caller is then; or more fragments. -/
inductive Out
  | ret (r : ℤ) (chain : List Mbuf)
  | more (c : Cur)
  deriving DecidableEq, Repr

/-- The mbufs that fit in a packet, its length, and the mbufs left. -/
def fill (maxlen : ℕ) : (curlen : ℕ) → List Mbuf → List Mbuf × ℕ × List Mbuf
  | curlen, [] => ([], curlen, [])
  | curlen, a :: am =>
    if a.m_len + curlen ≤ maxlen then
      let (text, curlen, am) := fill maxlen (curlen + a.m_len) am
      (a :: text, curlen, am)
    else ([], curlen, a :: am)

/-- The packet with these data. -/
def Cur.packet (c : Cur) (ip_off : BitVec 16) (text : List Mbuf) (curlen : ℕ) : Packet :=
  let ip := { c.ip with ip_off, ip_len := BitVec.ofNat 16 (sizeofIp + curlen) }
  { hdr := c.m
    ip := { ip with ip_sum := ~~~ BitVec.ofNat 16 (ip.sum + ip.sum / 2 ^ 16) }
    udp := c.udp
    data := text }

variable {ι : Type} (env : Env ι)

/-- From the label `send` on. -/
def send (c : Cur) (ip_off : BitVec 16) (text : List Mbuf) (curlen : ℕ) (am : List Mbuf)
    (nextip : Name) (run : Run) : Out × Run :=
  let err := env.if_output run.sent.length
  let run := { run with sent := run.sent ++ [c.packet ip_off text curlen] }
  if err.isSome then
    (.ret (-1) [],
      if am ≠ [] then { run with freed := run.freed ++ nextip :: am.map Mbuf.name } else run)
  else if am = [] then (.ret 0 [], run)
  else
    (.more
      { m := nextip
        ip := { c.ip with ip_off }
        udp := []
        am
        curlen := 0
        fragoff := c.fragoff + curlen
        sentpck := true }, run)

/-- From where a packet is full on: `text` are the mbufs that fit, and `mm` what points to a part of
    the next, if anything does. If none fit, `mm` is not in the chain of the caller. -/
def full (c : Cur) (text : List Mbuf) (mm : Option Mbuf) (curlen : ℕ) (am : List Mbuf)
    (run : Run) : Out × Run :=
  let ok := env.mget run.mgets
  let nextip := Name.got run.mgets
  let run := { run with mgets := run.mgets + 1 }
  if !ok then
    if c.sentpck then
      (.ret (-1) [],
        { run with freed := run.freed ++ c.m :: (text ++ mm.toList).map Mbuf.name })
    else
      (.ret (-2) (if text = [] then am else text ++ mm.toList),
        { run with freed := run.freed ++ [c.m] })
  else
    send env c (BitVec.ofNat 16 (c.fragoff / 2 ^ 3) ||| IP_MF) (text ++ mm.toList) curlen am nextip
      run

/-- A turn of the loop. -/
def fragment (maxlen : ℕ) (c : Cur) (run : Run) : Out × Run :=
  let (text, curlen, am) := fill maxlen c.curlen c.am
  match am with
  | [] => send env c (BitVec.ofNat 16 (c.fragoff / 2 ^ 3)) text curlen [] c.m run
  | a :: am =>
    if curlen = maxlen then full env c text none curlen (a :: am) run
    else
      let ok := env.mget run.mgets
      let mm := Name.got run.mgets
      let run := { run with mgets := run.mgets + 1 }
      if !ok then
        if c.sentpck then
          (.ret (-1) [], { run with freed := run.freed ++ c.m :: c.am.map Mbuf.name })
        else (.ret (-2) c.am, { run with freed := run.freed ++ [c.m] })
      else
        let grablen := maxlen - curlen
        full env c text (some ⟨mm, a.data.take grablen⟩) maxlen
          ({ a with data := a.data.drop grablen } :: am) run

/-- The loop. A turn takes a byte at least. -/
def fragLoop (maxlen : ℕ) : ℕ → Cur → Run → Option (ℤ × List Mbuf × Run)
  | 0, _, _ => none
  | n + 1, c, run =>
    match fragment env maxlen c run with
    | (.ret r chain, run) => some (r, chain, run)
    | (.more c, run) => fragLoop maxlen n c run

/-! ## The call -/

/-- Where datagrams go to. -/
structure SockaddrIn where
  sin_port : BitVec 16
  sin_addr : BitVec 32
  deriving DecidableEq, Repr

variable {α : Type}

/-- What a call returns; the chain of the caller, what has happened, and the routing tables. -/
structure Res (α ι : Type) where
  ret : ℤ
  chain : List Mbuf
  run : Run
  tab : Rtab α ι

/-- The most that a packet can carry, in eights of bytes. -/
def maxlen (mtu : ℕ) : ℕ := (mtu - sizeofIp) / 8 * 8

/-- The datagram: the header and the data. -/
def datagram (am : List Mbuf) (addr : SockaddrIn) : List UInt8 :=
  udphdr env.inp_lport addr.sin_port (BitVec.ofNat 16 (sizeofUdphdr + (bytes am).length)) ++
    bytes am

/-- From the headers on, through the interface `ifp`. -/
def output (ifp : ι) (am : List Mbuf) (addr : SockaddrIn) : Option (ℤ × List Mbuf × Run) :=
  if !env.mget 0 then some (-2, am, ⟨1, [], []⟩)
  else
    match env.ifptoia ifp with
    | none => some (-2, am, ⟨1, [], []⟩)
    | some ip_src =>
      fragLoop env (maxlen (env.if_mtu ifp)) (sizeofUdphdr + (bytes am).length + 1)
        { m := .got 0
          ip := ⟨0, env.ip_id, 0, 0, ip_src, addr.sin_addr⟩
          udp := udphdr env.inp_lport addr.sin_port
            (BitVec.ofNat 16 (sizeofUdphdr + (bytes am).length))
          am
          curlen := sizeofUdphdr
          fragoff := 0
          sentpck := false } ⟨1, [], []⟩

/-- `ku_fastsend`, of a chain with an mbuf at least. The address in its route is `zero`, but for the
    internet address. -/
def ku_fastsend [DecidableEq α] (afs : Afs α) (if_up : Option ι → Bool) (zero : α)
    (tab : Rtab α ι) (am : List Mbuf) (addr : SockaddrIn) : Option (Res α ι) :=
  let (ro, tab) := rtalloc afs if_up tab ⟨afs.setAddr zero addr.sin_addr.toNat, none⟩
  match ro.ro_rt with
  | none => some ⟨-2, am, ⟨0, [], []⟩, tab⟩
  | some e =>
    match (tab.rt e).rt_ifp with
    | none => some ⟨-2, am, ⟨0, [], []⟩, tab⟩
    | some ifp =>
      let tab := tab.set e { tab.rt e with rt_use := (tab.rt e).rt_use + 1 }
      (output env ifp am addr).map fun (ret, chain, run) => ⟨ret, chain, run, tab⟩

end AuxKernel.Rpc.Fastsend
