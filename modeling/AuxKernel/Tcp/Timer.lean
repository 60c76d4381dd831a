import AuxKernel.LinkedList
import AuxKernel.Tcp.Output

/-!
# The slow timeout of TCP

`tcp_slowtimo` and `tcp_timers` (`NETinet/sys/tcp_timer.c`) with what they use of
`tcp_usrreq`, `tcp_drop`, `tcp_close`, `in_pcbdetach` and `remque`. The pcbs are linked to a
ring at the head `tcb`; control blocks and sockets have addresses, too.

Not here is what these do to anything but the pcbs, the control blocks and the sockets: it is
the `rest`. What `tcp_output` does to a control block is a parameter.

The kernel remembers which pcbs the sweep came to (`visited`), and of their timers which it
came to, decremented, and called the timer routine for (`log`).
-/

namespace AuxKernel.Tcp.Timer

open Send

/-- An Internet pcb. -/
structure Inpcb where
  inp_next : Option ℕ
  inp_prev : Option ℕ
  inp_socket : ℕ
  inp_ppcb : Option ℕ
  deriving DecidableEq, Repr

/-- What the timers depend on, of a control block. -/
structure Tcpcb where
  t_state : TcpState
  t_timer : ℕ → ℤ
  t_rxtshift : ℤ
  t_force : Bool
  t_inpcb : ℕ
  snd_una : TcpSeq
  snd_nxt : TcpSeq
  rcv_nxt : TcpSeq
  t_idle : ℤ
  t_rtt : ℤ
  t_srtt : ℤ

/-- What they depend on, of a socket. -/
structure Socket where
  so_pcb : Option ℕ
  /-- `SS_NOFDREF` of `so_state`. -/
  so_nofdref : Bool
  /-- `SO_KEEPALIVE` of `so_options`. -/
  so_keepalive : Bool
  so_error : ℤ
  deriving DecidableEq, Repr

/-- The sweep came to the timer `i` of a pcb, and found `x`; decremented it; called the
    timer routine for it. -/
inductive Event
  | reach (ip i : ℕ) (x : ℤ)
  | dec (ip i : ℕ)
  | call (ip i : ℕ)
  deriving DecidableEq, Repr

/-- The kernel; `rest` is what is not modelled of it. -/
structure Kernel (ω : Type*) where
  inpcb : ℕ → Inpcb
  tcpcb : ℕ → Tcpcb
  so : ℕ → Socket
  tcp_iss : TcpSeq
  rest : ω
  visited : List ℕ
  log : List Event

/-- The head of the pcbs, a flag, and what is not modelled: what `tcp_output` does to a
    control block, and what it, `tcp_respond` and the closing of a socket do to the rest. -/
structure Config (ω : Type*) where
  tcb : ℕ
  tcpexprexmtbackoff : Bool
  tcp_output : Tcpcb → Socket → ω → Tcpcb × ω
  tcp_respond : Tcpcb → TcpSeq → TcpSeq → ω → ω
  sofree : ℕ → ω → ω

/-- The timers of a connection. -/
def TCPT_REXMT : ℕ := 0
@[inherit_doc TCPT_REXMT]
def TCPT_PERSIST : ℕ := 1
@[inherit_doc TCPT_REXMT]
def TCPT_KEEP : ℕ := 2
@[inherit_doc TCPT_REXMT]
def TCPT_2MSL : ℕ := 3
def TCPT_NTIMERS : ℕ := 4

/-- The time constants, in units of half a second. -/
def TCPTV_MSL : ℤ := 60
@[inherit_doc TCPTV_MSL]
def TCPTV_KEEP : ℤ := 90
@[inherit_doc TCPTV_MSL]
def TCPTV_MAXIDLE : ℤ := 720

def TCP_ISSINCR : ℕ := 128
def PR_SLOWHZ : ℕ := 2
def ETIMEDOUT : ℤ := 80

/-- The backoff of the retransmit timer, in 256ths. -/
def tcp_backoff : List ℤ := [256, 307, 358, 435, 512, 768, 1280, 2048, 4096, 8192]

variable {ω : Type*}

namespace Kernel

def setPcb (k : Kernel ω) (ip : ℕ) (x : Inpcb) : Kernel ω :=
  { k with inpcb := Function.update k.inpcb ip x }

def setTp (k : Kernel ω) (t : ℕ) (c : Tcpcb) : Kernel ω :=
  { k with tcpcb := Function.update k.tcpcb t c }

def setSo (k : Kernel ω) (s : ℕ) (x : Socket) : Kernel ω :=
  { k with so := Function.update k.so s x }

@[simp] theorem setPcb_inpcb (k : Kernel ω) (ip : ℕ) (x : Inpcb) :
    (k.setPcb ip x).inpcb = Function.update k.inpcb ip x := rfl

@[simp] theorem setTp_self (k : Kernel ω) (t : ℕ) (c : Tcpcb) : (k.setTp t c).tcpcb t = c :=
  Function.update_self ..

theorem setTp_ne (k : Kernel ω) {t u : ℕ} (c : Tcpcb) (h : u ≠ t) :
    (k.setTp t c).tcpcb u = k.tcpcb u := Function.update_of_ne h ..

@[simp] theorem setSo_self (k : Kernel ω) (s : ℕ) (x : Socket) : (k.setSo s x).so s = x :=
  Function.update_self ..

theorem setSo_ne (k : Kernel ω) {s r : ℕ} (x : Socket) (h : r ≠ s) :
    (k.setSo s x).so r = k.so r := Function.update_of_ne h ..

/-- The socket of the pcb of a control block. -/
def socketOf (k : Kernel ω) (t : ℕ) : ℕ := (k.inpcb (k.tcpcb t).t_inpcb).inp_socket

end Kernel

/-- Set a timer. -/
def Tcpcb.setTimer (c : Tcpcb) (i : ℕ) (x : ℤ) : Tcpcb :=
  { c with t_timer := Function.update c.t_timer i x }

@[simp] theorem Tcpcb.setTimer_self (c : Tcpcb) (i : ℕ) (x : ℤ) :
    (c.setTimer i x).t_timer i = x := Function.update_self ..

theorem Tcpcb.setTimer_ne (c : Tcpcb) {i j : ℕ} (x : ℤ) (h : j ≠ i) :
    (c.setTimer i x).t_timer j = c.t_timer j := Function.update_of_ne h ..

variable (v : Config ω)

/-! ## Closing a connection -/

/-- Take a pcb out of its ring. -/
def remque (ip : ℕ) (k : Kernel ω) : Option (Kernel ω) :=
  (k.inpcb ip).inp_prev.map fun prev =>
    let k := k.setPcb prev { k.inpcb prev with inp_next := (k.inpcb ip).inp_next }
    match (k.inpcb ip).inp_next with
    | none => k
    | some next => k.setPcb next { k.inpcb next with inp_prev := (k.inpcb ip).inp_prev }

/-- Detach a pcb from its socket, and take it out of the ring. -/
def in_pcbdetach (ip : ℕ) (k : Kernel ω) : Option (Kernel ω) :=
  let so := (k.inpcb ip).inp_socket
  let k := k.setSo so { k.so so with so_pcb := none }
  remque ip { k with rest := v.sofree so k.rest }

/-- Close a connection. -/
def tcp_close (t : ℕ) (k : Kernel ω) : Option (Kernel ω) :=
  let ip := (k.tcpcb t).t_inpcb
  in_pcbdetach v ip (k.setPcb ip { k.inpcb ip with inp_ppcb := none })

/-- Output for a connection. -/
def tcp_output (t : ℕ) (k : Kernel ω) : Kernel ω :=
  let c := k.tcpcb t
  let r := v.tcp_output c (k.so (k.socketOf t)) k.rest
  { k.setTp t { r.1 with t_inpcb := c.t_inpcb } with rest := r.2 }

/-- Close a connection with an error; the peer is told, if it is synchronized. -/
def tcp_drop (t : ℕ) (errno : ℤ) (k : Kernel ω) : Option (Kernel ω) :=
  let so := k.socketOf t
  let k := if haveRcvdSyn (k.tcpcb t).t_state then
    tcp_output v t (k.setTp t { k.tcpcb t with t_state := .closed }) else k
  tcp_close v t (k.setSo so { k.so so with so_error := errno })

/-! ## The timers going off -/

/-- The retransmit timer of a connection, from its backoff. -/
def rexmtval (c : Tcpcb) : ℤ :=
  let x := rangeset (c.t_srtt / 256) TCPTV_MIN TCPTV_MAX
  if v.tcpexprexmtbackoff then rangeset (x * 2 ^ c.t_rxtshift.toNat) TCPTV_MIN TCPTV_MAX
  else
    rangeset (x * tcp_backoff.getD (c.t_rxtshift - 1).toNat 0 / 256) TCPTV_MIN TCPTV_MAX

/-- `TCPT_REXMT`: back off and retransmit, or give up. -/
def timerRexmt (t : ℕ) (k : Kernel ω) : Option (Kernel ω) :=
  let c := { k.tcpcb t with t_rxtshift := (k.tcpcb t).t_rxtshift + 1 }
  if c.t_rxtshift > TCP_MAXRXTSHIFT then tcp_drop v t ETIMEDOUT (k.setTp t c)
  else
    some (tcp_output v t
      (k.setTp t { c.setTimer TCPT_REXMT (rexmtval v c) with snd_nxt := c.snd_una }))

/-- Set the persist timer; whether it has been set often enough. It panics if the
    retransmit timer is set. -/
def tcp_setpersist (c : Tcpcb) : Option (Tcpcb × Bool) :=
  if c.t_timer TCPT_REXMT ≠ 0 then none
  else
    let c := c.setTimer TCPT_PERSIST
      (rangeset (tcp_beta * c.t_srtt / 65536 * 2 ^ c.t_rxtshift.toNat) TCPTV_PERSMIN TCPTV_MAX)
    if c.t_rxtshift + 1 ≥ TCP_MAXRXTSHIFT then some ({ c with t_rxtshift := 0 }, true)
    else some ({ c with t_rxtshift := c.t_rxtshift + 1 }, false)

/-- `TCPT_PERSIST`: force a byte out, or give up in `LAST_ACK`. -/
def timerPersist (t : ℕ) (k : Kernel ω) : Option (Kernel ω) :=
  (tcp_setpersist (k.tcpcb t)).bind fun r =>
    let k := k.setTp t r.1
    if r.2 ∧ r.1.t_state = .lastAck then tcp_drop v t ETIMEDOUT k
    else
      let k := tcp_output v t (k.setTp t { r.1 with t_force := true })
      some (k.setTp t { k.tcpcb t with t_force := false })

/-- `TCPT_KEEP`: probe the peer, or drop the connection if it has been idle for too long
    or is not established. -/
def timerKeep (t : ℕ) (k : Kernel ω) : Option (Kernel ω) :=
  let c := k.tcpcb t
  let so := k.so (k.socketOf t)
  if c.t_state.num < TcpState.established.num then tcp_drop v t ETIMEDOUT k
  else
    let c := if c.t_state = .finWait2 ∧ c.t_timer TCPT_2MSL = 0 ∧ so.so_nofdref then
      c.setTimer TCPT_2MSL TCPTV_MSL else c
    if so.so_keepalive then
      if c.t_idle ≥ TCPTV_MAXIDLE then tcp_drop v t ETIMEDOUT (k.setTp t c)
      else
        some { k.setTp t (c.setTimer TCPT_KEEP TCPTV_KEEP) with
          rest := v.tcp_respond c (c.rcv_nxt - 1) (c.snd_una - 1) k.rest }
    else some (k.setTp t ({ c with t_idle := 0 }.setTimer TCPT_KEEP TCPTV_KEEP))

/-- The timer routine. -/
def tcp_timers (t i : ℕ) (k : Kernel ω) : Option (Kernel ω) :=
  if i = TCPT_2MSL then tcp_close v t k
  else if i = TCPT_REXMT then timerRexmt v t k
  else if i = TCPT_PERSIST then timerPersist v t k
  else if i = TCPT_KEEP then timerKeep v t k
  else some k

/-- `PRU_SLOWTIMO`: the timer `i` of a socket went off. -/
def tcp_usrreq (so i : ℕ) (k : Kernel ω) : Option (Kernel ω) :=
  match (k.so so).so_pcb with
  | none => some k
  | some ip => (k.inpcb ip).inp_ppcb.bind fun t => tcp_timers v t i k

/-! ## The sweep -/

/-- The timers of the pcb `ip`, in turn; whether it is gone. -/
def timers (ip ipnxt t : ℕ) : List ℕ → Kernel ω → Option (Kernel ω × Bool)
  | [], k => some (k, false)
  | i :: l, k =>
    let x := (k.tcpcb t).t_timer i
    let k := { k with log := k.log ++ [.reach ip i x] }
    if x = 0 then timers ip ipnxt t l k
    else
      let k := { k.setTp t ((k.tcpcb t).setTimer i (toShort (x - 1))) with
        log := k.log ++ [.dec ip i] }
      if toShort (x - 1) ≠ 0 then timers ip ipnxt t l k
      else
        (tcp_usrreq v (k.socketOf t) i { k with log := k.log ++ [.call ip i] }).bind fun k =>
          if (k.inpcb ipnxt).inp_prev ≠ some ip then some (k, true) else timers ip ipnxt t l k

/-- A connection was idle for another half second, or is being timed for it. -/
def idle (t : ℕ) (k : Kernel ω) : Kernel ω :=
  let c := k.tcpcb t
  k.setTp t { c with
    t_idle := toShort (c.t_idle + 1)
    t_rtt := if c.t_rtt ≠ 0 then toShort (c.t_rtt + 1) else c.t_rtt }

/-- The sweep over the pcbs, from `p` on: at most `n` rounds of its loop, and `none` if it
    has not come back to the head by then. -/
def sweep : ℕ → Option ℕ → Kernel ω → Option (Kernel ω)
  | 0, _, _ => none
  | _, none, _ => none
  | n + 1, some ip, k =>
    if ip = v.tcb then some k
    else
      let k := { k with visited := k.visited ++ [ip] }
      match (k.inpcb ip).inp_ppcb with
      | none => sweep n (some ip) k
      | some t => (k.inpcb ip).inp_next.bind fun ipnxt =>
        (timers v ip ipnxt t (List.range TCPT_NTIMERS) k).bind fun r =>
          sweep n (some ipnxt) (if r.2 then r.1 else idle t r.1)

/-- The slow timeout, with at most `n` rounds of its loop. -/
def tcp_slowtimo (n : ℕ) (k : Kernel ω) : Option (Kernel ω) :=
  match (k.inpcb v.tcb).inp_next with
  | none => some k
  | some ip => (sweep v n (some ip) k).map fun k =>
    { k with tcp_iss := k.tcp_iss + BitVec.ofNat 32 (TCP_ISSINCR / PR_SLOWHZ) }

end AuxKernel.Tcp.Timer
