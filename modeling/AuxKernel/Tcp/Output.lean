import AuxKernel.Net.Mbuf
import AuxKernel.Tcp.Basic

/-!
# TCP output

The sending side of a connection, and one pass of `tcp_output`
(`NETinet/sys/tcp_output.c`) over it: what is sent, and how the sequence variables and
the timers move. The loop of `tcp_output` is one pass after another.

The receiving side has its say in whether a segment is sent at all (an acknowledgement
or a window update may be due); the fields of the segment that come from it, options
and the urgent pointer are not here.
-/

namespace AuxKernel.Tcp.Send

open Net

/-- The sending side of a connection. -/
structure Tcpcb where
  t_state : TcpState
  /-- `t_timer[TCPT_REXMT]` -/
  t_rexmt : ℤ
  /-- `t_timer[TCPT_PERSIST]` -/
  t_persist : ℤ
  t_rxtshift : ℤ
  t_maxseg : ℤ
  /-- There is a `t_template`. -/
  t_template : Bool
  snd_una : TcpSeq
  snd_nxt : TcpSeq
  snd_up : TcpSeq
  snd_wl1 : TcpSeq
  snd_wl2 : TcpSeq
  iss : TcpSeq
  snd_wnd : ℤ
  snd_max : TcpSeq
  t_rtt : ℤ
  t_rtseq : TcpSeq
  t_srtt : ℤ
  so_snd : Sockbuf UInt8

/-- The time constants, in units of half a second. -/
def TCPTV_MIN : ℤ := 2
@[inherit_doc TCPTV_MIN]
def TCPTV_PERSMIN : ℤ := 10
@[inherit_doc TCPTV_MIN]
def TCPTV_MAX : ℤ := 60

/-- The smoothing constants, in 256ths. -/
def tcp_alpha : ℤ := 230
@[inherit_doc tcp_alpha]
def tcp_beta : ℤ := 512

def TCP_MAXRXTSHIFT : ℤ := 10

/-- The size of a small packet. -/
def tcpsmall : ℤ := 10

/-- A time value forced in a range (`TCPT_RANGESET`). -/
def rangeset (value tvmin tvmax : ℤ) : ℤ := min (max (toShort value) tvmin) tvmax

/-- The initial value of the retransmit timer. -/
def Tcpcb.rexmtval (tp : Tcpcb) : ℤ := rangeset (tcp_beta * tp.t_srtt / 65536) TCPTV_MIN TCPTV_MAX

/-- The states in which a `SYN` is sent (`tcp_outflags`). -/
def outSyn (s : TcpState) : Bool := s = .synSent || s = .synReceived

/-- The states in which a `FIN` is sent. -/
def outFin (s : TcpState) : Bool := s = .finWait1 || s = .closing || s = .lastAck

/-- What is sent of a segment: its sequence number, its text, and its flags. -/
structure Segment where
  ti_seq : TcpSeq
  text : List UInt8
  th_syn : Bool
  th_fin : Bool

/-- The sequence numbers a segment takes. -/
def Segment.len (seg : Segment) : ℤ :=
  seg.text.length + if seg.th_syn || seg.th_fin then 1 else 0

/-- What a call of `tcp_output` finds: it is forced (`t_force`); no mbufs are left for
    the header or the options, or for a copy of the text; an acknowledgement or a window
    update is due. -/
structure Call where
  t_force : Bool
  nobufs : Bool
  nocopy : Bool
  owed : Bool

/-- Set the persist timer; whether it has been set often enough. It panics if the
    retransmit timer is set. -/
def tcp_setpersist (tp : Tcpcb) : Option (Tcpcb × Bool) :=
  if tp.t_rexmt ≠ 0 then none
  else
    let t_persist := rangeset (tcp_beta * tp.t_srtt / 65536 * 2 ^ tp.t_rxtshift.toNat)
      TCPTV_PERSMIN TCPTV_MAX
    if tp.t_rxtshift + 1 ≥ TCP_MAXRXTSHIFT then
      some ({ tp with t_persist := t_persist, t_rxtshift := 0 }, true)
    else some ({ tp with t_persist := t_persist, t_rxtshift := tp.t_rxtshift + 1 }, false)

namespace Tcpcb

variable (tp : Tcpcb)

/-- How far `snd_nxt` is past `snd_una`. -/
def off : ℤ := tp.snd_nxt.diff tp.snd_una

/-- The text that the window lets out. -/
def usable (t_force : Bool) : ℤ :=
  min tp.so_snd.sb_cc (tp.snd_wnd + if t_force then 1 else 0) - tp.off

/-- The length of the text to send: a segment of it. -/
def length (t_force : Bool) : ℤ :=
  if tp.usable t_force > tp.t_maxseg then tp.t_maxseg else tp.usable t_force

/-- A `FIN` goes with `len` bytes of text: they reach the end of what there is, by
    unsigned sequence numbers. -/
def fin (len : ℤ) : Bool :=
  outFin tp.t_state && !decide ((tp.snd_nxt + BitVec.ofInt 32 len).toNat <
    (tp.snd_una + BitVec.ofInt 32 tp.so_snd.sb_cc).toNat)

/-- Whether a segment with `len` bytes of text is sent. -/
def wants (len : ℤ) (c : Call) : Bool :=
  outSyn tp.t_state || tp.t_state = .closed || tp.fin len || seqGt tp.snd_up tp.snd_una ||
    (len ≠ 0 && (len = tp.t_maxseg ||
      (tp.off + len ≥ tp.so_snd.sb_cc && (tp.off = 0 || tp.off > tcpsmall || len > tcpsmall)) ||
      len * 4 ≥ tp.snd_wnd || c.t_force)) ||
    c.owed

/-- No segment is sent: the persist timer is set if the window is closed. -/
def idle : Option (Tcpcb × Option Segment) :=
  if tp.snd_wnd = 0 ∧ tp.so_snd.sb_cc ≠ 0 ∧ tp.t_rexmt = 0 ∧ tp.t_persist = 0 then
    (tcp_setpersist { tp with t_rxtshift := 0 }).map fun r => (r.1, none)
  else some (tp, none)

/-- The segment with `len` bytes of text. -/
def segment (len : ℤ) (nocopy : Bool) : Segment where
  ti_seq := tp.snd_nxt
  text := if nocopy then [] else (tp.so_snd.contents.drop tp.off.toNat).take len.toNat
  th_syn := outSyn tp.t_state
  th_fin := tp.fin len

/-- The urgent pointer is dragged along. -/
def dragUp : Tcpcb :=
  if seqGt tp.snd_up tp.snd_nxt then tp else { tp with snd_up := tp.snd_una }

/-- Advance `snd_nxt` over the sequence space of a segment. -/
def advance (seg : Segment) : Tcpcb :=
  let snd_nxt := tp.snd_nxt + BitVec.ofInt 32 seg.len
  let new := seqGt snd_nxt tp.snd_max
  let timed := new && tp.t_rtt = 0
  let starts := tp.t_rexmt = 0 ∧ snd_nxt ≠ tp.snd_una
  { tp with
    snd_nxt := snd_nxt
    snd_max := if new then snd_nxt else tp.snd_max
    t_rtt := if timed then 1 else tp.t_rtt
    t_rtseq := if timed then snd_nxt - BitVec.ofInt 32 seg.text.length else tp.t_rtseq
    t_rexmt := if starts then tp.rexmtval else tp.t_rexmt
    t_rxtshift := if starts then 0 else tp.t_rxtshift
    t_persist := 0 }

/-- A forced segment only counts as one byte at `snd_una`. -/
def forced : Tcpcb :=
  if seqGt (tp.snd_una + 1) tp.snd_max then { tp with snd_max := tp.snd_una + 1 } else tp

/-- Send a segment with `len` bytes of text. `m_copy` panics if they are not there. -/
def send (len : ℤ) (c : Call) : Option (Tcpcb × Option Segment) :=
  if c.nobufs then some (tp, none)
  else if (len ≠ 0 ∧ (tp.off < 0 ∨ len < 0 ∨ tp.off + len > tp.so_snd.contents.length)) ∨
      ¬ tp.t_template then none
  else
    let seg := tp.segment len c.nocopy
    let tp := tp.dragUp
    some (if c.t_force then tp.forced else tp.advance seg, some seg)

/-- One pass of `tcp_output`: the connection after it, and the segment that is sent;
    `none` where it panics. -/
def tcp_output (c : Call) : Option (Tcpcb × Option Segment) :=
  if tp.usable c.t_force < 0 then some (tp, none)
  else if tp.wants (tp.length c.t_force) c then tp.send (tp.length c.t_force) c
  else tp.idle

end Tcpcb

end AuxKernel.Tcp.Send
