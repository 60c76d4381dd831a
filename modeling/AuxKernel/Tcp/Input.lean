import AuxKernel.System
import AuxKernel.Tcp.Output

/-!
# TCP input, as the sending side sees it

What `tcp_input` (`NETinet/sys/tcp_input.c`), the timers (`tcp_timer.c`) and the user's
requests (`tcp_usrreq.c`) do to the sending side of a connection: the handshake, the
processing of acknowledgements and of the window, and the states of the connection.

A segment is one that the receiving side has let through (it is within the receive
window); what the receiving side makes of it is an argument of the step: whether
`tcp_reass` returns `TH_FIN`. A connection that is dropped or closed is gone.
-/

namespace AuxKernel.Tcp.Send

open Net

/-- A segment that arrives: its flags, the fields the sending side looks at, and the value
    of its option `TCPOPT_MAXSEG`, if it has one. -/
structure Tcpiphdr where
  th_syn : Bool
  th_ack : Bool
  th_rst : Bool
  ti_seq : TcpSeq
  ti_ack : TcpSeq
  ti_win : ℤ
  maxseg : Option ℤ

/-- What becomes of a segment, and of the connection with it: the connection is gone,
    the segment is dropped, or its processing goes on. -/
inductive Outcome
  | gone
  | dropped (tp : Tcpcb)
  | goesOn (tp : Tcpcb)

namespace Tcpcb

variable (tp : Tcpcb)

/-- `tcp_sendseqinit`. -/
def sendseqinit (iss : TcpSeq) : Tcpcb :=
  { tp with iss := iss, snd_una := iss, snd_nxt := iss, snd_max := iss, snd_up := iss }

/-- Keep `snd_nxt` from falling behind `snd_una`. -/
def pullNxt : Tcpcb :=
  { tp with snd_nxt := if seqLt tp.snd_nxt tp.snd_una then tp.snd_una else tp.snd_nxt }

/-- Take over the maximum segment size of the other side. -/
def tcp_dooptions (ti : Tcpiphdr) : Tcpcb :=
  match ti.maxseg with
  | none => tp
  | some maxseg => { tp with t_maxseg := toShort maxseg }

/-- A connection in `LISTEN` gets a segment; it may find no mbufs for the address or the
    template. -/
def inListen (ti : Tcpiphdr) (tcp_iss : TcpSeq) (nobufs : Bool) : Outcome :=
  if ti.th_rst ∨ ti.th_ack ∨ ¬ ti.th_syn ∨ nobufs then .dropped tp
  else
    let tp := tp.sendseqinit tcp_iss
    .goesOn { tp with t_template := true, t_state := .synReceived, snd_wl1 := ti.ti_seq }

/-- A connection in `SYN_SENT` gets a segment. -/
def inSynSent (ti : Tcpiphdr) : Outcome :=
  if ti.th_ack ∧ (seqLt ti.ti_ack tp.iss ∨ seqGt ti.ti_ack tp.snd_max) then .dropped tp
  else if ti.th_rst then if ti.th_ack then .gone else .dropped tp
  else if ¬ ti.th_syn then .dropped tp
  else
    let tp := { tp with snd_una := ti.ti_ack }
    let tp := { tp.pullNxt with t_rexmt := 0, snd_wl1 := ti.ti_seq }
    .goesOn { tp with
      t_state := if seqGt tp.snd_una tp.iss then .established else .synReceived }

/-- A connection in `SYN_RECEIVED` gets an acknowledgement. -/
def inSynReceived (ti : Tcpiphdr) : Outcome :=
  if seqGt tp.snd_una ti.ti_ack ∨ seqGt ti.ti_ack tp.snd_max then .dropped tp
  else
    let tp := { tp with snd_una := tp.snd_una + 1 }
    .goesOn { tp.pullNxt with t_rexmt := 0, t_state := .established, snd_wl1 := ti.ti_seq - 1 }

/-- Update the round trip time when the timed number is acknowledged. -/
def rtt (ti : Tcpiphdr) : Tcpcb :=
  if tp.t_rtt ≠ 0 ∧ seqGt ti.ti_ack tp.t_rtseq then
    let t_rtt := tp.t_rtt - 1
    { tp with
      t_rtt := 0
      t_srtt := if tp.t_srtt = 0 then t_rtt * 256
        else (tcp_alpha * tp.t_srtt + (256 - tcp_alpha) * t_rtt * 256) / 256 }
  else tp

/-- Turn the retransmit timer off when nothing is outstanding, or start it again. -/
def retime (ti : Tcpiphdr) : Tcpcb :=
  if ti.ti_ack = tp.snd_max then { tp with t_rexmt := 0 }
  else { tp with t_rexmt := tp.rexmtval, t_rxtshift := 0 }

/-- Drop `len` bytes that are acknowledged, and take them off the window. -/
def drop (len : ℤ) : Option Tcpcb :=
  (tp.so_snd.sbdrop len.toNat tp.so_snd.sb_mb).map fun sb =>
    { tp with so_snd := sb, snd_wnd := (tp.snd_wnd - len) % 65536 }

/-- The state of a connection whose sending side is acknowledged as far as `ti_ack`, and
    what becomes of the segment. -/
def afterAck (ourfinisacked : Bool) : Outcome :=
  match tp.t_state with
  | .finWait1 => .goesOn (if ourfinisacked then { tp with t_state := .finWait2 } else tp)
  | .closing =>
    .goesOn (if ourfinisacked then { tp with t_state := .timeWait, t_rexmt := 0, t_persist := 0 }
      else tp)
  | .lastAck => if ourfinisacked then .gone else .dropped tp
  | .timeWait => .dropped tp
  | _ => .goesOn tp

/-- An established connection gets an acknowledgement. -/
def inEstablished (ti : Tcpiphdr) : Outcome :=
  if seqLeq ti.ti_ack tp.snd_una then .goesOn tp
  else if seqGt ti.ti_ack tp.snd_max then .dropped tp
  else
    let acked := ti.ti_ack.diff tp.snd_una
    let tp := (tp.rtt ti).retime ti
    match tp.drop (min acked tp.so_snd.sb_cc) with
    | none => .gone
    | some tp' =>
      { tp' with snd_una := ti.ti_ack }.pullNxt.afterAck (acked > tp.so_snd.sb_cc)

/-- A connection that is past `SYN_SENT` gets a segment. -/
def inSynchronized (ti : Tcpiphdr) : Outcome :=
  if ti.th_rst ∨ ti.th_syn then .gone
  else if ¬ ti.th_ack then .dropped tp
  else if tp.t_state = .synReceived then
    match tp.inSynReceived ti with
    | .goesOn tp => tp.inEstablished ti
    | r => r
  else tp.inEstablished ti

/-- Update the send window. -/
def step6 (ti : Tcpiphdr) : Tcpcb :=
  if seqLt tp.snd_wl1 ti.ti_seq ∨ (tp.snd_wl1 = ti.ti_seq ∧
      (seqLt tp.snd_wl2 ti.ti_ack ∨ (tp.snd_wl2 = ti.ti_ack ∧ ti.ti_win > tp.snd_wnd))) then
    { tp with
      snd_wnd := ti.ti_win
      snd_wl1 := ti.ti_seq
      snd_wl2 := ti.ti_ack
      t_persist := if ti.ti_win ≠ 0 then 0 else tp.t_persist }
  else tp

/-- A `FIN` of the other side is in order. -/
def finReceived : Tcpcb :=
  match tp.t_state with
  | .synReceived | .established => { tp with t_state := .closeWait }
  | .finWait1 => { tp with t_state := .closing }
  | .finWait2 => { tp with t_state := .timeWait, t_rexmt := 0, t_persist := 0 }
  | _ => tp

/-- Process the `ACK` and `SYN` of a segment (`step6` of `LISTEN` and `SYN_SENT` sees the
    sequence number of the byte after the `SYN`). -/
def handshake (ti : Tcpiphdr) (tcp_iss : TcpSeq) (nobufs : Bool) : Outcome :=
  match tp.t_state with
  | .closed => if ti.th_syn then .gone else if ti.th_ack then .goesOn tp else .dropped tp
  | .listen => tp.inListen ti tcp_iss nobufs
  | .synSent => tp.inSynSent ti
  | _ => tp.inSynchronized ti

/-- Process a segment; `none` if the connection is gone. -/
def tcp_input (ti : Tcpiphdr) (tcp_iss : TcpSeq) (nobufs th_fin : Bool) : Option Tcpcb :=
  let ti' := if tp.t_state = .listen ∨ tp.t_state = .synSent then
    { ti with ti_seq := ti.ti_seq + 1 } else ti
  match (tp.tcp_dooptions ti).handshake ti tcp_iss nobufs with
  | .gone => none
  | .dropped tp => some tp
  | .goesOn tp => some (if th_fin then (tp.step6 ti').finReceived else tp.step6 ti')

/-- The user closes the sending side; `none` if the connection is gone. -/
def tcp_usrclosed : Option Tcpcb :=
  match tp.t_state with
  | .closed | .listen | .synSent => none
  | .synReceived | .established => some { tp with t_state := .finWait1 }
  | .closeWait => some { tp with t_state := .lastAck }
  | _ => some tp

/-- The user connects. -/
def connect (tcp_iss : TcpSeq) : Tcpcb :=
  { tp.sendseqinit tcp_iss with t_template := true, t_state := .synSent }

/-- The retransmit timer goes off: start again at `snd_una` (`tcp_output` follows). -/
def rexmt (backoff : ℤ) : Option Tcpcb :=
  if tp.t_rxtshift + 1 > TCP_MAXRXTSHIFT then none
  else
    some { tp with
      t_rxtshift := tp.t_rxtshift + 1
      t_rexmt := rangeset (rangeset (tp.t_srtt / 256) TCPTV_MIN TCPTV_MAX * backoff / 256)
        TCPTV_MIN TCPTV_MAX
      snd_nxt := tp.snd_una }

end Tcpcb

/-! ## The machine -/

/-- A connection; the bytes its user has written; how far its sequence space is
    acknowledged and has been sent, counted from `iss`; and whether an acceptable
    acknowledgement of its `SYN` has arrived. -/
structure Run where
  tp : Tcpcb
  written : List UInt8
  una : ℤ
  sent : ℤ
  synAcked : Bool

/-- The user connects, listens, writes (with an urgent pointer, if `urgent`) or closes;
    a pass of `tcp_output`; a segment arrives; a timer goes off. -/
inductive Act
  | connect (tcp_iss : TcpSeq)
  | listen
  | send (m : List (Mbuf UInt8)) (urgent : Bool)
  | close
  | output (c : Call)
  | segment (ti : Tcpiphdr) (tcp_iss : TcpSeq) (nobufs th_fin : Bool)
  | rexmt (backoff : ℤ)
  | persist
  | keep

/-- The acknowledgement of a segment covers the `SYN` and nothing that was not sent. -/
def Tcpcb.acceptable (tp : Tcpcb) (ti : Tcpiphdr) : Bool :=
  ti.th_ack && seqLt tp.iss ti.ti_ack && seqLeq ti.ti_ack tp.snd_max

/-- The run with the connection `tp`. -/
def Run.to (s : Run) (tp : Tcpcb) : Run :=
  { s with tp := tp, una := s.una + tp.snd_una.diff s.tp.snd_una }

/-- The run in which a segment is sent, if any. -/
def Run.sends (s : Run) (seg : Option Segment) : Run :=
  { s with sent := match seg with
    | none => s.sent
    | some seg => max s.sent (s.una + seg.ti_seq.diff s.tp.snd_una + seg.len) }

/-- The sending side of a connection, from its creation on. -/
def sending : Machine Run Act where
  init s :=
    s.tp.t_state = .closed ∧ s.tp.t_template = false ∧ s.tp.snd_una = 0 ∧ s.tp.snd_nxt = 0 ∧
      s.tp.snd_max = 0 ∧ s.tp.so_snd = ⟨[], 0, 0⟩ ∧ s.written = [] ∧ s.una = 0 ∧ s.sent = 0 ∧
      s.synAcked = false
  next s
    | .connect tcp_iss =>
      if s.tp.t_state = .closed ∨ s.tp.t_state = .listen then
        some { s with tp := s.tp.connect tcp_iss, una := 0 }
      else none
    | .listen =>
      if s.tp.t_state = .closed then some { s with tp := { s.tp with t_state := .listen } }
      else none
    | .send m urgent => some { s with
        tp := { s.tp with
          snd_up := if urgent then s.tp.snd_una + BitVec.ofInt 32 (s.tp.so_snd.sb_cc + 1)
            else s.tp.snd_up
          so_snd := s.tp.so_snd.sbappend m }
        written := s.written ++ bytes m }
    | .close => s.tp.tcp_usrclosed.map s.to
    | .output c => (s.tp.tcp_output c).map fun r => (s.sends r.2).to r.1
    | .segment ti tcp_iss nobufs th_fin =>
      (s.tp.tcp_input ti tcp_iss nobufs th_fin).map fun tp =>
        { s.to tp with
          una := if s.tp.t_state = .listen then 0 else (s.to tp).una
          synAcked := s.synAcked ||
            (s.tp.t_state ≠ .listen && s.tp.t_state ≠ .closed && s.tp.acceptable ti) }
    | .rexmt backoff => (s.tp.rexmt backoff).map s.to
    | .persist =>
      match tcp_setpersist s.tp with
      | none => none
      | some (tp, often) =>
        if often ∧ tp.t_state = .lastAck then none else some (s.to tp)
    | .keep => if s.tp.t_state.num < TcpState.established.num then none else some { s with
        sent := max s.sent s.una }

/-- The user writes to a socket that is connected and not shut down, and the data fit in
    the buffer (`sosend` sees to both; `sb_cc` is a `short`). -/
def Act.Valid (s : Run) : Act → Prop
  | .send m _ => (s.tp.t_state = .established ∨ s.tp.t_state = .closeWait) ∧
      s.tp.so_snd.contents.length + (bytes m).length ≤ 32767
  | _ => True

/-- What the sequence variables of a connection mean. -/
structure SendSeq (s : Run) : Prop where
  /-- `snd_una ≤ snd_nxt ≤ snd_max`. -/
  una_le_nxt : seqLeq s.tp.snd_una s.tp.snd_nxt
  nxt_le_max : seqLeq s.tp.snd_nxt s.tp.snd_max
  /-- `snd_max` is past all that was sent. -/
  sent : s.sent ≤ s.una + s.tp.snd_max.diff s.tp.snd_una
  /-- The buffer holds the bytes that are not acknowledged; the first has the number
      after the `SYN`. -/
  so_snd : s.tp.so_snd.contents = s.written.drop (s.una - 1).toNat
  /-- The connection is established by an acknowledgement of its `SYN`. -/
  synAcked : s.tp.t_state.num ≥ TcpState.established.num → s.synAcked

end AuxKernel.Tcp.Send
