import AuxKernel.System
import AuxKernel.Pieces
import AuxKernel.Net.Mbuf
import AuxKernel.Tcp.Basic

/-!
# TCP reassembly

`tcp_reass` (`NETinet/sys/tcp_input.c`) and what its caller promises it: the queue of
the segments that have arrived ahead of their turn, and the bytes handed to the
socket.

A run gives it segments of one stream, in any order. A segment that begins before
`rcv_nxt` is trimmed by `tcp_input` first; what is left of it, if anything, is given
to `tcp_reass`.
-/

namespace AuxKernel.Tcp

open Net

/-- A segment: its sequence number, the length of its text, its `TH_FIN`, and its
    text. -/
structure Tcpiphdr (α : Type*) where
  ti_seq : TcpSeq
  ti_len : ℤ
  th_fin : Bool
  m : List (Mbuf α)

/-- The receiving side of a connection. -/
structure Tcpcb (α : Type*) where
  t_state : TcpState
  irs : TcpSeq
  rcv_nxt : TcpSeq
  seg_next : List (Tcpiphdr α)
  so_rcv : Sockbuf α
  /-- `SS_CANTRCVMORE` -/
  cantrcvmore : Bool

variable {α : Type*}

/-- Segments as pieces of the stream, by their sequence numbers. -/
def segments : Pieces (Tcpiphdr α) where
  gt q p := seqGt q.ti_seq p.ti_seq
  past q p := (q.ti_seq + BitVec.ofInt 32 q.ti_len).diff p.ti_seq
  len := Tcpiphdr.ti_len
  cut i q := { q with
    ti_seq := q.ti_seq + BitVec.ofInt 32 i
    ti_len := q.ti_len - i
    m := m_adj q.m i.toNat }

/-- Hand the segments `l` to the user as long as they are next in sequence. -/
def presentLoop (tp : Tcpcb α) (flags : Bool) : List (Tcpiphdr α) → Tcpcb α × Bool
  | [] => ({ tp with seg_next := [] }, flags)
  | ti :: l =>
    if ti.ti_seq = tp.rcv_nxt then
      presentLoop { tp with
        rcv_nxt := tp.rcv_nxt + BitVec.ofInt 32 ti.ti_len
        so_rcv := if tp.cantrcvmore then tp.so_rcv else tp.so_rcv.sbappend ti.m } ti.th_fin l
    else ({ tp with seg_next := ti :: l }, flags)

/-- Present data to the user, advancing `rcv_nxt`; whether `TH_FIN` is returned. -/
def present (tp : Tcpcb α) : Tcpcb α × Bool :=
  if ¬ haveRcvdSyn tp.t_state then (tp, false)
  else
    match tp.seg_next with
    | [] => (tp, false)
    | ti :: l =>
      if ti.ti_seq ≠ tp.rcv_nxt then (tp, false)
      else if tp.t_state = .synReceived ∧ ti.ti_len ≠ 0 then (tp, false)
      else presentLoop tp false (ti :: l)

/-- Put a segment in the queue, if there is one, and present what is in order. -/
def tcp_reass (tp : Tcpcb α) : Option (Tcpiphdr α) → Tcpcb α × Bool
  | none => present tp
  | some ti =>
    match segments.insert ti tp.seg_next with
    | none => (tp, false)
    | some l => present { tp with seg_next := l }

/-- What `tcp_input` leaves of a segment that begins before `rcv_nxt`. -/
def trimFront (rcv_nxt : TcpSeq) (ti : Tcpiphdr α) : Option (Tcpiphdr α) :=
  let todrop := rcv_nxt.diff ti.ti_seq
  if todrop > 0 then
    if todrop > ti.ti_len ∨ todrop = ti.ti_len ∧ ¬ ti.th_fin then none
    else some (segments.cut todrop ti)
  else some ti

/-- The segment that `tcp_input` gives to `tcp_reass`: it has text or a `TH_FIN`. -/
def given (rcv_nxt : TcpSeq) (ti : Tcpiphdr α) : Option (Tcpiphdr α) :=
  (trimFront rcv_nxt ti).filter fun ti => ti.ti_len ≠ 0 || ti.th_fin

/-! ## The machine -/

/-- A connection; the bytes its user has taken; the positions of the stream that
    `tcp_reass` has seen, and whether it has seen and returned a `TH_FIN`. -/
structure Run (α : Type*) where
  tp : Tcpcb α
  taken : List α
  seen : ℤ → Bool
  finSeen : Bool
  finReturned : Bool

/-- The position of a segment in the stream. -/
def pos (irs : TcpSeq) (ti : Tcpiphdr α) : ℤ := ti.ti_seq.diff (irs + 1)

/-- A segment arrives; the `SYN` of the connection is acknowledged; its state changes
    otherwise; its user shuts down the receiving side, or takes bytes. -/
inductive Act (α : Type*)
  | segment (ti : Tcpiphdr α)
  | establish
  | move (t_state : TcpState)
  | cantrcvmore
  | take (len : ℕ)

/-- The run after a call of `tcp_reass`. -/
def Run.called (s : Run α) (r : Tcpcb α × Bool) : Run α :=
  { s with tp := r.1, finReturned := s.finReturned || r.2 }

/-- The run in which `tcp_reass` sees a segment. -/
def Run.sees (s : Run α) (ti : Tcpiphdr α) : Run α :=
  { s with
    seen x := s.seen x || (pos s.tp.irs ti ≤ x && x < pos s.tp.irs ti + ti.ti_len)
    finSeen := s.finSeen || ti.th_fin }

/-- A connection that has received a `SYN`, with nothing queued yet. -/
def reassembly (α : Type*) : Machine (Run α) (Act α) where
  init s :=
    haveRcvdSyn s.tp.t_state ∧ s.tp.rcv_nxt = s.tp.irs + 1 ∧ s.tp.seg_next = [] ∧
      s.tp.so_rcv.sb_mb = [] ∧ s.taken = [] ∧ (∀ x, s.seen x = false) ∧ s.finSeen = false ∧
      s.finReturned = false
  next s
    | .segment ti =>
      match given s.tp.rcv_nxt ti with
      | none => some s
      | some ti => some ((s.sees ti).called (tcp_reass s.tp (some ti)))
    | .establish =>
      if s.tp.t_state = .synReceived then
        some (s.called (tcp_reass { s.tp with t_state := .established } none))
      else none
    | .move t_state =>
      if haveRcvdSyn t_state then some { s with tp := { s.tp with t_state := t_state } } else none
    | .cantrcvmore => some { s with tp := { s.tp with cantrcvmore := true } }
    | .take len => (s.tp.so_rcv.sbdrop len s.tp.so_rcv.sb_mb).map fun sb =>
        { s with
          tp := { s.tp with so_rcv := sb }
          taken := s.taken ++ s.tp.so_rcv.contents.take len }

/-- The segment is cut from the stream `S` that begins at `irs + 1`: its text is there,
    and a `TH_FIN` is at the end of the stream. -/
def CutFrom (S : List α) (irs : TcpSeq) (ti : Tcpiphdr α) : Prop :=
  ∃ off : ℕ, ti.ti_seq = irs + 1 + BitVec.ofInt 32 off ∧ ti.ti_len = (bytes ti.m).length ∧
    off + (bytes ti.m).length ≤ S.length ∧ bytes ti.m <+: S.drop off ∧
    (ti.th_fin → off + (bytes ti.m).length = S.length)

/-- The segments that arrive are cut from the stream. -/
def Act.Valid (S : List α) (s : Run α) : Act α → Prop
  | .segment ti => CutFrom S s.tp.irs ti
  | _ => True

/-- What `tcp_reass` achieves for the stream `S`. -/
structure Reassembled (S : List α) (s : Run α) : Prop where
  /-- The bytes handed to the user are the first `n` of the stream, and the segments in
      the queue are beyond them. -/
  delivered : ∃ n : ℕ, n ≤ S.length ∧ s.tp.rcv_nxt = s.tp.irs + 1 + BitVec.ofInt 32 n ∧
    (s.tp.cantrcvmore = false → s.taken ++ s.tp.so_rcv.contents = S.take n) ∧
    (∀ ti ∈ s.tp.seg_next, n ≤ pos s.tp.irs ti ∧
      (s.tp.t_state ≠ .synReceived → n < pos s.tp.irs ti)) ∧
    ∀ x, s.seen x → x < n ∨ segments.Covers (pos s.tp.irs) s.tp.seg_next x
  /-- The segments in the queue are cut from the stream, sorted, and disjoint. -/
  queued : ∀ ti ∈ s.tp.seg_next, CutFrom S s.tp.irs ti
  sorted : segments.Sorted (pos s.tp.irs) s.tp.seg_next
  /-- `TH_FIN` is returned only when the whole stream is delivered. -/
  fin : s.finReturned → s.tp.rcv_nxt = s.tp.irs + 1 + BitVec.ofInt 32 S.length
  /-- `TH_FIN` is returned once it and the whole stream have been seen. -/
  finSeen : s.tp.t_state ≠ .synReceived → s.finSeen →
    (∀ x, 0 ≤ x → x < S.length → s.seen x) → s.finReturned

end AuxKernel.Tcp
