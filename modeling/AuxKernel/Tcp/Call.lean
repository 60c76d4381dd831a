import AuxKernel.Loop
import AuxKernel.Net.Sockbuf
import AuxKernel.Tcp.Input

/-!
# A call of TCP output

`tcp_output` (`NETinet/sys/tcp_output.c`) with its loop and the receiving side: the
acknowledgement that is owed, window updates, the options, the urgent pointer, and what
`ip_output` returns. A pass does to the sending side what one of `Send.Tcpcb.tcp_output`
does (`pass_ret`, `pass_again`); a call is a loop of passes, each of which may find other
mbufs free.

The checksum and the addresses of a segment are not here.
-/

namespace AuxKernel.Tcp.Send.Out

open Net

/-- A connection: its sending side, and the rest of what `tcp_output` looks at. -/
structure Conn extends Tcpcb where
  t_force : Bool
  /-- `TF_ACKNOW`, `TF_DELACK` and `TF_NOOPT` of `t_flags`. -/
  tf_acknow : Bool
  tf_delack : Bool
  tf_noopt : Bool
  /-- The bytes of `t_tcpopt`, which is an mbuf. -/
  t_tcpopt : Option { opt : List UInt8 // opt.length ≤ MLEN }
  rcv_nxt : TcpSeq
  rcv_adv : TcpSeq
  so_rcv : Sock UInt8

/-- A segment as it is built: `tcphdr` and the text behind it, and `ip_len`. -/
structure Packet extends Segment where
  ti_ack : TcpSeq
  th_rst : Bool
  th_ack : Bool
  th_push : Bool
  th_urg : Bool
  options : List UInt8
  ti_off : ℕ
  ti_win : ℤ
  ti_urp : ℕ
  ti_len : ℤ
  ip_len : ℤ

/-- What a pass finds: no mbuf for the header, for a copy of the text, for the options; and
    what `ip_output` returns. -/
structure Env where
  nohdr : Bool
  nocopy : Bool
  noopt : Bool
  error : ℤ

def ENOBUFS : ℤ := 75

/-- What a pass comes to: it panics, it returns an error (or `0`), or it goes `again`; the
    connection after it, and the segment it handed to `ip_output`. -/
inductive Result
  | panic
  | ret (tp : Conn) (error : ℤ) (packet : Option Packet)
  | again (tp : Conn) (packet : Packet)

/-- The segment that a pass built. -/
def Result.packet : Result → Option Packet
  | .panic => none
  | .ret _ _ packet => packet
  | .again _ packet => some packet

/-- The connection that the next pass finds, if there is one. -/
def Result.next : Result → Option Conn
  | .again tp _ => some tp
  | _ => none

/-- The size of the headers. -/
def sizeofTcphdr : ℕ := 20
@[inherit_doc sizeofTcphdr]
def sizeofTcpiphdr : ℕ := 40

/-- The size of a segment with its headers. -/
def Packet.total (packet : Packet) : ℕ :=
  sizeofTcpiphdr + packet.options.length + packet.text.length

/-- The states in which an acknowledgement is sent (`tcp_outflags`). -/
def outAck (s : TcpState) : Bool := s ≠ .listen && s ≠ .synSent

def TCPOPT_EOL : UInt8 := 0
@[inherit_doc TCPOPT_EOL]
def TCPOPT_NOP : UInt8 := 1
/-- The kinds of options. -/
def TCPOPT_MAXSEG : UInt8 := 2

/-- Copy the `len` bytes from `off` on, if there are mbufs; it panics if the bytes are not
    there. -/
def m_copy (bytes : List UInt8) (off len : ℤ) (nocopy : Bool) : Option (List UInt8) :=
  if len = 0 then some []
  else if off < 0 ∨ len < 0 ∨ off + len > bytes.length then none
  else some (if nocopy then [] else (bytes.drop off.toNat).take len.toNat)

namespace Conn

variable (tp : Conn) (e : Env)

/-- A window update is due: the window has grown by 35% of the buffer since it was last
    announced, by unsigned numbers. -/
def update : Bool :=
  tp.so_rcv.sbspace > 0 &&
    100 * (BitVec.ofInt 32 tp.so_rcv.sbspace - (tp.rcv_adv - tp.rcv_nxt)) /
      BitVec.ofInt 32 tp.so_rcv.sb_hiwat ≥ 35

/-- The window to announce: none if it is silly. -/
def win : ℤ :=
  if tp.so_rcv.sbspace < tp.so_rcv.sb_hiwat / 4 then 0 else tp.so_rcv.sbspace

/-- The options to send, if any: `tcp_initopt` before `ESTABLISHED`. -/
def opt : Option (List UInt8) :=
  if tp.t_state.num < TcpState.established.num then
    if tp.tf_noopt then none
    else
      let maxseg := BitVec.ofInt 16 (min (tp.so_rcv.sb_hiwat / 2) 1024)
      some [TCPOPT_MAXSEG, 4, .ofNat (maxseg.toNat / 256), .ofNat maxseg.toNat]
  else tp.t_tcpopt.map Subtype.val

/-- The options as they are sent, filled up to whole words. -/
def options : List UInt8 :=
  match tp.opt with
  | none => []
  | some opt => opt ++ List.replicate ((4 - opt.length % 4) % 4) TCPOPT_EOL

/-- What the sending side sees of the call. -/
def call : Call :=
  ⟨tp.t_force, e.nohdr || (tp.opt.isSome && e.noopt), e.nocopy, tp.tf_acknow || tp.update⟩

/-- The length of the text of this pass, before `m_copy`. -/
def len : ℤ := tp.length tp.t_force

/-- There is more text than goes into this segment. -/
def sendalot : Bool := tp.usable tp.t_force > tp.t_maxseg

/-- The segment with the text `text`; its flags were chosen for `tp.len` bytes. -/
def packet (text : List UInt8) : Packet where
  ti_seq := tp.snd_nxt
  text := text
  th_syn := outSyn tp.t_state
  th_fin := tp.fin tp.len
  ti_ack := tp.rcv_nxt
  th_rst := tp.t_state = .closed
  th_ack := outAck tp.t_state
  th_push := text ≠ [] && tp.off + text.length = tp.so_snd.sb_cc
  th_urg := seqGt tp.snd_up tp.snd_nxt
  options := tp.options
  ti_off := (sizeofTcphdr + tp.options.length) / 4 % 16
  ti_win := if tp.win > 0 then toUshort tp.win else 0
  ti_urp := if seqGt tp.snd_up tp.snd_nxt then (tp.snd_up - tp.snd_nxt).toNat % 2 ^ 16 else 0
  ti_len := toUshort (sizeofTcphdr + tp.options.length + text.length)
  ip_len := toShort (sizeofTcpiphdr + tp.options.length + text.length)

/-- The connection when the segment is handed to `ip_output`. -/
def handed (text : List UInt8) : Conn :=
  { tp with toTcpcb :=
      if tp.t_force then tp.dragUp.forced else tp.dragUp.advance (tp.packet text).toSegment }

/-- The connection when the segment is sent: no acknowledgement is owed any more. -/
def acked : Conn :=
  { tp with
    rcv_adv :=
      if tp.win > 0 ∧ seqGt (tp.rcv_nxt + BitVec.ofInt 32 tp.win) tp.rcv_adv then
        tp.rcv_nxt + BitVec.ofInt 32 tp.win
      else tp.rcv_adv
    tf_acknow := false
    tf_delack := false }

/-- Build the segment with the text `text`, and send it. -/
def transmit (text : List UInt8) : Result :=
  if e.error ≠ 0 then .ret (tp.handed text) e.error (tp.packet text)
  else if tp.sendalot ∧ ¬ tp.t_force then .again (tp.handed text).acked (tp.packet text)
  else .ret (tp.handed text).acked 0 (tp.packet text)

/-- From the label `send` on. -/
def send : Result :=
  if e.nohdr then .ret tp ENOBUFS none
  else
    match m_copy tp.so_snd.contents tp.off tp.len e.nocopy with
    | none => .panic
    | some text =>
      if ¬ tp.t_template then .panic
      else if tp.opt.isSome ∧ e.noopt then .ret tp ENOBUFS none
      else tp.transmit e text

/-- A pass, from the label `again` on. -/
def pass : Result :=
  if tp.usable tp.t_force < 0 then .ret tp 0 none
  else if tp.wants tp.len (tp.call e) then tp.send e
  else
    match tp.idle with
    | none => .panic
    | some r => .ret { tp with toTcpcb := r.1 } 0 none

end Conn

/-- A call of `tcp_output`: pass `n` finds `env n`. -/
def tcp_output (env : ℕ → Env) : Loop Conn := fun n tp => (tp.pass (env n)).next

/-! ## What a pass does -/

section Pass

variable {tp tq : Conn} {e : Env} {text : List UInt8}

theorem m_copy_eq_some {bytes : List UInt8} {off len : ℤ} {nocopy : Bool}
    (h : m_copy bytes off len nocopy = some text) :
    text = (if nocopy then [] else (bytes.drop off.toNat).take len.toNat) ∧
      (len ≠ 0 → 0 ≤ off ∧ 0 ≤ len ∧ off + len ≤ bytes.length) := by
  rw [m_copy] at h
  by_cases hlen : len = 0
  · rw [if_pos hlen] at h
    obtain rfl := Option.some.inj h
    refine ⟨?_, fun hne => absurd hlen hne⟩
    rw [hlen]
    split_ifs
    · rfl
    · exact List.take_zero.symm
  · rw [if_neg hlen] at h
    split at h
    next => exact absurd h (by simp)
    next hok => exact ⟨(Option.some.inj h).symm, fun _ => by omega⟩

/-- The pass sends a segment with the text `text`. -/
structure Conn.Sends (tp : Conn) (e : Env) (text : List UInt8) : Prop where
  usable : 0 ≤ tp.usable tp.t_force
  wants : tp.wants tp.len (tp.call e)
  nohdr : ¬ e.nohdr
  copy : m_copy tp.so_snd.contents tp.off tp.len e.nocopy = some text
  template : tp.t_template
  noopt : ¬ (tp.opt.isSome ∧ e.noopt)

theorem Conn.Sends.pass (h : tp.Sends e text) : tp.pass e = tp.transmit e text := by
  rw [Conn.pass, if_neg (not_lt.2 h.usable), if_pos h.wants, Conn.send, if_neg h.nohdr]
  simp only [h.copy]
  rw [if_neg (not_not.2 h.template), if_neg h.noopt]

theorem idle_none {tp : Tcpcb} {r : Tcpcb × Option Segment} (h : tp.idle = some r) :
    r.2 = none := by
  rw [Tcpcb.idle] at h
  split_ifs at h
  · obtain ⟨q, -, rfl⟩ := Option.map_eq_some_iff.1 h
    rfl
  · obtain rfl := Option.some.inj h
    rfl

/-- A pass does to the sending side what it does there. -/
theorem Conn.Sends.sending (h : tp.Sends e text) : tp.toTcpcb.tcp_output (tp.call e) =
    some ((tp.handed text).toTcpcb, some (tp.packet text).toSegment) := by
  obtain ⟨htext, hlen⟩ := m_copy_eq_some h.copy
  have hbufs : ¬ (tp.call e).nobufs := by
    have hhdr := h.nohdr
    have hopt := h.noopt
    simp only [Conn.call, Bool.or_eq_true, Bool.and_eq_true]
    tauto
  have hseg : tp.segment tp.len e.nocopy = (tp.packet text).toSegment := by
    rw [Tcpcb.segment, ← htext]
    rfl
  have hok : ¬ ((tp.len ≠ 0 ∧ (tp.off < 0 ∨ tp.len < 0 ∨
      tp.off + tp.len > tp.so_snd.contents.length)) ∨ ¬ tp.t_template) := by
    rintro (⟨hne, hbad⟩ | ht)
    · have := hlen hne
      omega
    · exact ht h.template
  change (if tp.usable tp.t_force < 0 then _ else if tp.wants tp.len (tp.call e) then
    tp.toTcpcb.send tp.len (tp.call e) else tp.idle) = _
  rw [if_neg (not_lt.2 h.usable), if_pos h.wants, Tcpcb.send, if_neg hbufs, if_neg hok]
  change some ((if tp.t_force then _ else tp.dragUp.advance (tp.segment tp.len e.nocopy)),
    some (tp.segment tp.len e.nocopy)) = _
  rw [hseg]
  rfl

/-- The ways a pass may go: it sends a segment, it panics, or it leaves the loop without one. -/
theorem pass_cases (tp : Conn) (e : Env) : (∃ text, tp.Sends e text) ∨ tp.pass e = .panic ∨
    ∃ tq error, tp.pass e = .ret tq error none ∧
      tp.toTcpcb.tcp_output (tp.call e) = some (tq.toTcpcb, none) := by
  by_cases husable : tp.usable tp.t_force < 0
  · exact .inr (.inr ⟨tp, 0, by rw [Conn.pass, if_pos husable], if_pos husable⟩)
  have hside : tp.toTcpcb.tcp_output (tp.call e) = if tp.wants tp.len (tp.call e) then
      tp.toTcpcb.send tp.len (tp.call e) else tp.idle := if_neg husable
  by_cases hwants : tp.wants tp.len (tp.call e)
  · rw [Conn.pass, if_neg husable, if_pos hwants, Conn.send, hside, if_pos hwants, Tcpcb.send]
    by_cases hhdr : e.nohdr
    · exact .inr (.inr ⟨tp, ENOBUFS, if_pos hhdr, if_pos (by simp [Conn.call, hhdr])⟩)
    rw [if_neg hhdr]
    cases hcopy : m_copy tp.so_snd.contents tp.off tp.len e.nocopy with
    | none => exact .inr (.inl rfl)
    | some text =>
      by_cases ht : tp.t_template
      · by_cases hopt : tp.opt.isSome ∧ e.noopt
        · refine .inr (.inr ⟨tp, ENOBUFS, ?_, if_pos (by simp [Conn.call, hopt])⟩)
          simp only
          rw [if_neg (not_not.2 ht), if_pos hopt]
        · exact .inl ⟨text, not_lt.1 husable, hwants, hhdr, hcopy, ht, hopt⟩
      · exact .inr (.inl (if_pos ht))
  · rw [Conn.pass, if_neg husable, if_neg hwants, hside, if_neg hwants]
    cases hidle : tp.idle with
    | none => exact .inr (.inl rfl)
    | some r => exact .inr (.inr ⟨_, 0, rfl, congrArg some (Prod.ext rfl (idle_none hidle))⟩)

theorem packet_transmit (tp : Conn) (e : Env) (text : List UInt8) :
    (tp.transmit e text).packet = some (tp.packet text) := by
  rw [Conn.transmit]
  split_ifs <;> rfl

/-- The segment of a pass. -/
theorem packet_pass {packet : Packet} :
    (tp.pass e).packet = some packet ↔ ∃ text, tp.Sends e text ∧ packet = tp.packet text := by
  constructor
  · intro h
    rcases pass_cases tp e with ⟨text, hs⟩ | hp | ⟨_, _, hp, -⟩
    · rw [hs.pass, packet_transmit] at h
      exact ⟨text, hs, (Option.some.inj h).symm⟩
    · exact absurd (hp ▸ h) (by simp [Result.packet])
    · exact absurd (hp ▸ h) (by simp [Result.packet])
  · rintro ⟨text, hs, rfl⟩
    rw [hs.pass, packet_transmit]

/-- The loop goes on after a segment that is sent, if there is more. -/
theorem next_pass : (tp.pass e).next = some tq ↔ ∃ text, tp.Sends e text ∧ e.error = 0 ∧
    tp.sendalot ∧ ¬ tp.t_force ∧ tq = (tp.handed text).acked := by
  constructor
  · intro h
    rcases pass_cases tp e with ⟨text, hs⟩ | hp | ⟨_, _, hp, -⟩
    · rw [hs.pass, Conn.transmit] at h
      split_ifs at h with herror hmore
      · exact absurd h (by simp [Result.next])
      · exact ⟨text, hs, not_not.1 herror, hmore.1, hmore.2, (Option.some.inj h).symm⟩
      · exact absurd h (by simp [Result.next])
    · exact absurd (hp ▸ h) (by simp [Result.next])
    · exact absurd (hp ▸ h) (by simp [Result.next])
  · rintro ⟨text, hs, herror, hmore, hforce, rfl⟩
    rw [hs.pass, Conn.transmit, if_neg (not_not.2 herror), if_pos ⟨hmore, hforce⟩]
    rfl

theorem pass_ret {error : ℤ} {packet : Option Packet} (h : tp.pass e = .ret tq error packet) :
    tp.toTcpcb.tcp_output (tp.call e) = some (tq.toTcpcb, packet.map Packet.toSegment) := by
  rcases pass_cases tp e with ⟨text, hs⟩ | hp | ⟨tr, error', hp, hside⟩
  · rw [hs.pass, Conn.transmit] at h
    rw [hs.sending]
    split_ifs at h <;> obtain ⟨rfl, rfl, rfl⟩ := Result.ret.inj h <;> rfl
  · exact absurd (hp.symm.trans h) (by simp)
  · obtain ⟨rfl, rfl, rfl⟩ := Result.ret.inj (hp.symm.trans h)
    exact hside

theorem pass_again {packet : Packet} (h : tp.pass e = .again tq packet) :
    tp.toTcpcb.tcp_output (tp.call e) = some (tq.toTcpcb, some packet.toSegment) := by
  rcases pass_cases tp e with ⟨text, hs⟩ | hp | ⟨tr, error', hp, hside⟩
  · rw [hs.pass, Conn.transmit] at h
    rw [hs.sending]
    split_ifs at h
    obtain ⟨rfl, rfl⟩ := Result.again.inj h
    rfl
  · exact absurd (hp.symm.trans h) (by simp)
  · exact absurd (hp.symm.trans h) (by simp)

/-- What the passes of a call leave as it is. -/
structure During (tp tq : Conn) : Prop where
  t_state : tq.t_state = tp.t_state
  t_maxseg : tq.t_maxseg = tp.t_maxseg
  snd_una : tq.snd_una = tp.snd_una
  snd_wnd : tq.snd_wnd = tp.snd_wnd
  so_snd : tq.so_snd = tp.so_snd
  t_force : tq.t_force = tp.t_force
  rcv_nxt : tq.rcv_nxt = tp.rcv_nxt
  so_rcv : tq.so_rcv = tp.so_rcv

theorem During.rfl' (tp : Conn) : During tp tp := ⟨rfl, rfl, rfl, rfl, rfl, rfl, rfl, rfl⟩

theorem During.trans {tr : Conn} (h : During tp tq) (h' : During tq tr) : During tp tr := by
  obtain ⟨h₁, h₂, h₃, h₄, h₅, h₆, h₇, h₈⟩ := h
  obtain ⟨h₁', h₂', h₃', h₄', h₅', h₆', h₇', h₈'⟩ := h'
  exact ⟨h₁'.trans h₁, h₂'.trans h₂, h₃'.trans h₃, h₄'.trans h₄, h₅'.trans h₅, h₆'.trans h₆,
    h₇'.trans h₇, h₈'.trans h₈⟩

theorem during_next (h : (tp.pass e).next = some tq) : During tp tq := by
  obtain ⟨text, -, -, -, hforce, rfl⟩ := next_pass.1 h
  constructor
  case t_force | rcv_nxt | so_rcv => rfl
  all_goals
    simp only [Conn.acked, Conn.handed, if_neg hforce, Tcpcb.advance, Tcpcb.dragUp]
    split_ifs <;> rfl

/-- The pass before another one was sent as the sending side sees it. -/
theorem sending_next (h : (tp.pass e).next = some tq) :
    ∃ seg, tp.toTcpcb.tcp_output (tp.call e) = some (tq.toTcpcb, some seg) := by
  cases hp : tp.pass e with
  | panic => simp [hp, Result.next] at h
  | ret tr error packet => simp [hp, Result.next] at h
  | again tr packet =>
    rw [hp] at h
    obtain rfl := Option.some.inj h
    exact ⟨_, pass_again hp⟩

end Pass

/-! ## The options of the other side -/

/-- Take over the options that are the `cnt` bytes from `cp` on: what `t_maxseg` becomes.
    The length of an option is looked up behind it even where the options end. -/
def dooptions (mem : ℕ → UInt8) (cp cnt : ℕ) (t_maxseg : ℤ) : ℤ :=
  if cnt = 0 ∨ mem cp = TCPOPT_EOL then t_maxseg
  else
    let optlen := if mem cp = TCPOPT_NOP then 1 else (mem (cp + 1)).toNat
    if h : optlen = 0 then t_maxseg
    else
      dooptions mem (cp + optlen) (cnt - optlen)
        (if mem cp = TCPOPT_MAXSEG ∧ optlen = 4 then
          toShort ((mem (cp + 2)).toNat * 256 + (mem (cp + 3)).toNat)
        else t_maxseg)
termination_by cnt
decreasing_by omega

def Conn.tcp_dooptions (tp : Conn) (mem : ℕ → UInt8) (cp cnt : ℕ) : Conn :=
  { tp with t_maxseg := dooptions mem cp cnt tp.t_maxseg }

section Options

variable {mem : ℕ → UInt8} {cp : ℕ}

/-- `t_maxseg` stays, or it is some 16-bit number, as a `short`. -/
theorem dooptions_spec (mem : ℕ → UInt8) (cp cnt : ℕ) (t_maxseg : ℤ) :
    dooptions mem cp cnt t_maxseg = t_maxseg ∨
      ∃ v : ℕ, v < 2 ^ 16 ∧ dooptions mem cp cnt t_maxseg = toShort v := by
  induction cnt using Nat.strongRecOn generalizing cp t_maxseg with
  | ind cnt ih =>
    rw [dooptions]
    generalize (if mem cp = TCPOPT_NOP then 1 else (mem (cp + 1)).toNat) = optlen
    by_cases hend : cnt = 0 ∨ mem cp = TCPOPT_EOL
    · exact .inl (if_pos hend)
    by_cases hzero : optlen = 0
    · exact .inl ((if_neg hend).trans (dif_pos hzero))
    rw [if_neg hend, dif_neg hzero]
    by_cases hmaxseg : mem cp = TCPOPT_MAXSEG ∧ optlen = 4
    · rw [if_pos hmaxseg]
      refine .inr ?_
      have hhi := (mem (cp + 2)).toNat_lt
      have hlo := (mem (cp + 3)).toNat_lt
      have hv : (mem (cp + 2)).toNat * 256 + (mem (cp + 3)).toNat < 2 ^ 16 := by omega
      rcases ih (cnt - optlen) (by omega) (cp + optlen) _ with hstays | hv'
      · exact ⟨_, hv, hstays⟩
      · exact hv'
    · rw [if_neg hmaxseg]
      exact ih (cnt - optlen) (by omega) (cp + optlen) _

/-- Any 16-bit number is taken over. -/
theorem dooptions_maxseg (hopt : mem cp = TCPOPT_MAXSEG) (hlen : mem (cp + 1) = 4) (t_maxseg : ℤ) :
    dooptions mem cp 4 t_maxseg = toShort ((mem (cp + 2)).toNat * 256 + (mem (cp + 3)).toNat) := by
  have hnop : TCPOPT_MAXSEG ≠ TCPOPT_NOP := by decide
  have hfour : UInt8.toNat 4 = 4 := rfl
  rw [dooptions, hopt, hlen, if_neg (by decide)]
  simp only [if_neg hnop, hfour, dif_neg (by decide : ¬ (4 : ℕ) = 0), and_self, if_true]
  rw [dooptions, if_pos (.inl rfl)]

/-- The sending side takes over the option as it is told. -/
theorem tcp_dooptions_toTcpcb (tp : Conn) (ti : Tcpiphdr) (mem : ℕ → UInt8) (cp cnt : ℕ) :
    ∃ maxseg, (tp.tcp_dooptions mem cp cnt).toTcpcb =
      tp.toTcpcb.tcp_dooptions { ti with maxseg := maxseg } := by
  rcases dooptions_spec mem cp cnt tp.t_maxseg with hstays | ⟨v, -, hv⟩
  · exact ⟨none, by rw [Conn.tcp_dooptions, hstays]; rfl⟩
  · exact ⟨some v, by rw [Conn.tcp_dooptions, hv]; rfl⟩

end Options

end AuxKernel.Tcp.Send.Out
