import AuxKernel.System
import AuxKernel.Basic
import AuxKernel.LinkedList

/-!
# Message queues

`msgsnd`, `msgrcv` and `msgctl` (`PAGING/os/msg.c`), on the queues (`msgque`) and
the message headers (`msgh`). Headers are named by numbers, and following a null
pointer is `none`; the walks along a queue take fuel, of which the number of the
headers is enough.

A step takes a process from one point where it may sleep to the next: `copyin`,
`copyout` and `uiomove`, or waiting for a message, for space on the queue, or for
a header or space in the buffer. What these find is part of the step: whether a copy
fails, a signal arrives, or `malloc` finds space in the buffer, which is left out. A
process that waits may go on at any time, and looks again.

Messages are numbered as they are sent (`serial`), and the machine (`msgs`) remembers
which of them have left their queue, and how.
-/

namespace AuxKernel.MsgQueue

/-- A message header. -/
structure Msg where
  msg_next : Option ℕ
  msg_type : ℤ
  msg_ts : ℤ
  serial : ℕ
  deriving DecidableEq, Repr

/-- A message queue; of its mode `IPC_ALLOC`. -/
structure Msqid where
  alloc : Bool
  seq : ℤ
  msg_first : Option ℕ
  msg_last : Option ℕ
  msg_cbytes : ℤ
  msg_qnum : ℤ
  msg_qbytes : ℤ
  deriving DecidableEq, Repr

/-- The message parameters: the limits of a message and of a queue, the numbers of
    queues and of headers. -/
structure Config where
  msgmax : ℤ
  msgmnb : ℤ
  msgmni : ℕ
  msgtql : ℕ
  msgmni_pos : 0 < msgmni
  msgtql_pos : 0 < msgtql

/-- The arguments of `msgsnd`. -/
structure Snd where
  msqid : ℤ
  msgsz : ℤ
  nowait : Bool
  deriving DecidableEq, Repr

/-- The arguments of `msgrcv`. -/
structure Rcv where
  msqid : ℤ
  msgsz : ℤ
  msgtyp : ℤ
  nowait : Bool
  noerror : Bool
  deriving DecidableEq, Repr

/-- Where a process is: in no call, or at the end of one; in `msgsnd`, copying the
    type in, waiting, or copying the text in; in `msgrcv`, waiting, or copying out the
    message at `smp`, behind `spmp`. -/
inductive Proc
  | idle
  | failed (e : Errno)
  | done (rval : ℤ)
  | sndType (a : Snd) (qp : ℕ)
  | sndWait (a : Snd) (type : ℤ) (qp : ℕ)
  | sndCopy (a : Snd) (type : ℤ) (qp : ℕ)
  | rcvWait (a : Rcv) (qp : ℕ)
  | rcvCopy (qp : ℕ) (spmp : Option ℕ) (smp : ℕ) (sz : ℤ) (serial : ℕ)
  deriving DecidableEq, Repr

/-- The process is in no call. -/
def Proc.out : Proc → Bool
  | .idle | .failed _ | .done _ => true
  | _ => false

/-- How a message left its queue. -/
inductive Fate
  | received
  | removed
  deriving DecidableEq, Repr

/-- The queues, the headers and the free list of them, and the processes; how many
    messages have been sent, and which have left their queue. -/
structure State where
  msgque : ℕ → Msqid
  msgh : ℕ → Msg
  msgfp : Option ℕ
  proc : ℕ → Proc
  sent : ℕ
  gone : List (ℕ × Fate)

def State.setProc (s : State) (p : ℕ) (pc : Proc) : State :=
  { s with proc := Function.update s.proc p pc }

def State.setQueue (s : State) (i : ℕ) (q : Msqid) : State :=
  { s with msgque := Function.update s.msgque i q }

def State.setHeader (s : State) (x : ℕ) (m : Msg) : State :=
  { s with msgh := Function.update s.msgh x m }

variable (v : Config)

/-- The queue with the identifier `id`. -/
def msgconv (id : ℤ) (s : State) : Option ℕ :=
  if id < 0 then none
  else
    let qp := (id % v.msgmni).toNat
    if (s.msgque qp).alloc = false ∨ id / v.msgmni ≠ (s.msgque qp).seq then none
    else some qp

/-- Set the pointer that a message is reached by: that of its predecessor, or `msg_first`. -/
def relink (qp : ℕ) (pmp next : Option ℕ) (s : State) : State :=
  match pmp with
  | none => s.setQueue qp { s.msgque qp with msg_first := next }
  | some x => s.setHeader x { s.msgh x with msg_next := next }

/-- Unlink a message and free its header. -/
def msgfree (qp : ℕ) (pmp : Option ℕ) (mp : ℕ) (fate : Fate) (s : State) : State :=
  let m := s.msgh mp
  let s := relink qp pmp m.msg_next s
  let q := s.msgque qp
  let s := s.setQueue qp { q with
    msg_last := if m.msg_next = none then pmp else q.msg_last
    msg_qnum := toUshort (q.msg_qnum - 1) }
  let s := s.setHeader mp { s.msgh mp with msg_next := s.msgfp }
  { s with msgfp := some mp, gone := (m.serial, fate) :: s.gone }

/-! ## Receiving -/

/-- Search a queue for the best message of the type, with its predecessor. -/
def findmsg (msgtyp : ℤ) (h : ℕ → Msg) : (fuel : ℕ) → (pmp mp : Option ℕ) →
    (best : Option (Option ℕ × ℕ)) → Option (Option (Option ℕ × ℕ))
  | _, _, none, best => some best
  | 0, _, some _, _ => none
  | n + 1, pmp, some mp, best =>
    let m := h mp
    if 0 < msgtyp then
      if msgtyp ≠ m.msg_type then findmsg msgtyp h n (some mp) m.msg_next best
      else some (some (pmp, mp))
    else if m.msg_type ≤ toLong (-msgtyp) then
      if best.any fun b => (h b.2).msg_type ≤ m.msg_type then
        findmsg msgtyp h n (some mp) m.msg_next best
      else findmsg msgtyp h n (some mp) m.msg_next (some (pmp, mp))
    else findmsg msgtyp h n (some mp) m.msg_next best

/-- The message a call receives. -/
def select (qp : ℕ) (msgtyp : ℤ) (s : State) : Option (Option (Option ℕ × ℕ)) :=
  let first := (s.msgque qp).msg_first
  if msgtyp = 0 then some (first.map fun mp => (none, mp))
  else findmsg msgtyp s.msgh v.msgtql none first none

/-- Look for a message, and begin to copy it out, or wait for one. -/
def receive (p : ℕ) (a : Rcv) (qp : ℕ) (s : State) : Option State :=
  if msgconv v a.msqid s ≠ some qp then some (s.setProc p (.failed .eidrm))
  else
    (select v qp a.msgtyp s).map fun best =>
      match best with
      | some (spmp, smp) =>
        let m := s.msgh smp
        if a.msgsz < m.msg_ts then
          if a.noerror then s.setProc p (.rcvCopy qp spmp smp a.msgsz m.serial)
          else s.setProc p (.failed .e2big)
        else s.setProc p (.rcvCopy qp spmp smp m.msg_ts m.serial)
      | none =>
        if a.nowait then s.setProc p (.failed .enomsg) else s.setProc p (.rcvWait a qp)

/-- Call `msgrcv`; `access` is the error if the permission is missing. -/
def msgrcv (p : ℕ) (a : Rcv) (access : Option Errno) (s : State) : Option State :=
  match msgconv v a.msqid s, access with
  | none, _ => some (s.setProc p (.failed .einval))
  | some _, some e => some (s.setProc p (.failed e))
  | some qp, none =>
    if a.msgsz < 0 then some (s.setProc p (.failed .einval)) else receive v p a qp s

/-- Go on when the message is copied out: take it off the queue. -/
def received (p : ℕ) (qp : ℕ) (spmp : Option ℕ) (smp : ℕ) (sz : ℤ) (s : State) : State :=
  let q := s.msgque qp
  let s := s.setQueue qp { q with msg_cbytes := toUshort (q.msg_cbytes - (s.msgh smp).msg_ts) }
  (msgfree qp spmp smp .received s).setProc p (.done sz)

/-! ## Sending -/

/-- Put the message on the queue, in the header `mp`, the first of the free list. -/
def enqueue (a : Snd) (type : ℤ) (qp mp : ℕ) (s : State) : State :=
  let msgfp := (s.msgh mp).msg_next
  let s := s.setHeader mp ⟨none, type, toShort a.msgsz, s.sent⟩
  let s := relink qp (s.msgque qp).msg_last (some mp) s
  let q := s.msgque qp
  let s := s.setQueue qp { q with
    msg_last := some mp
    msg_qnum := toUshort (q.msg_qnum + 1)
    msg_cbytes := toUshort (q.msg_cbytes + a.msgsz) }
  { s with msgfp := msgfp, sent := s.sent + 1 }

/-- Send the message. -/
def put (p : ℕ) (a : Snd) (type : ℤ) (qp : ℕ) (s : State) : Option State :=
  s.msgfp.map fun mp => (enqueue a type qp mp s).setProc p (.done 0)

/-- Get what the message needs: space on the queue, a header, and space in the
    buffer, if there is (`spot`). -/
def getres (p : ℕ) (a : Snd) (type : ℤ) (qp : ℕ) (spot : Bool) (s : State) : Option State :=
  let q := s.msgque qp
  if msgconv v a.msqid s ≠ some qp then some (s.setProc p (.failed .eidrm))
  else if a.msgsz + q.msg_cbytes > q.msg_qbytes ∨ (a.msgsz ≠ 0 ∧ ¬spot) ∨ s.msgfp = none then
    if a.nowait then some (s.setProc p (.failed .eagain))
    else some (s.setProc p (.sndWait a type qp))
  else if a.msgsz ≠ 0 then some (s.setProc p (.sndCopy a type qp))
  else put p a type qp s

/-- Call `msgsnd`. -/
def msgsnd (p : ℕ) (a : Snd) (access : Option Errno) (s : State) : State :=
  match msgconv v a.msqid s, access with
  | none, _ => s.setProc p (.failed .einval)
  | some _, some e => s.setProc p (.failed e)
  | some qp, none =>
    if a.msgsz < 0 ∨ a.msgsz > v.msgmax then s.setProc p (.failed .einval)
    else s.setProc p (.sndType a qp)

/-! ## Queues -/

/-- Free all messages of a queue. -/
def freeAll (qp : ℕ) : (fuel : ℕ) → State → Option State
  | n, s =>
    match (s.msgque qp).msg_first, n with
    | none, _ => some s
    | some _, 0 => none
    | some mp, n + 1 => freeAll qp n (msgfree qp none mp .removed s)

/-- Remove a queue. -/
def rmid (id : ℤ) (qp : ℕ) (s : State) : Option State :=
  (freeAll qp v.msgtql s).map fun s =>
    let q := s.msgque qp
    let seq := if toLong (id + v.msgmni) < 0 then 0 else toUshort (q.seq + 1)
    s.setQueue qp { q with msg_cbytes := 0, seq := seq, alloc := false }

/-- Make a new queue. -/
def create (qp : ℕ) (s : State) : State :=
  s.setQueue qp { s.msgque qp with
    alloc := true
    msg_first := none
    msg_last := none
    msg_qnum := 0
    msg_qbytes := toUshort v.msgmnb }

/-! ## Runs -/

/-- What may happen. -/
inductive Action
  | msgsnd (p : ℕ) (a : Snd) (access : Option Errno)
  | sndType (p : ℕ) (type : Option ℤ) (spot : Bool)
  | sndWait (p : ℕ) (signal spot : Bool)
  | sndCopy (p : ℕ) (error : Option Errno)
  | msgrcv (p : ℕ) (a : Rcv) (access : Option Errno)
  | rcvWait (p : ℕ) (signal : Bool)
  | rcvCopy (p : ℕ) (error : Option Errno)
  | rmid (id : ℤ)
  | set (qp : ℕ) (qbytes : ℤ)
  | msgget (qp : ℕ)

/-- A process calls, or goes on where it slept. -/
def next (s : State) : Action → Option State
  | .msgsnd p a access => if (s.proc p).out then some (msgsnd v p a access s) else none
  | .sndType p type spot =>
    match s.proc p, type with
    | .sndType _ _, none => some (s.setProc p (.failed .efault))
    | .sndType a qp, some type =>
      if type < 1 then some (s.setProc p (.failed .einval)) else getres v p a type qp spot s
    | _, _ => none
  | .sndWait p signal spot =>
    match s.proc p, signal with
    | .sndWait _ _ _, true => some (s.setProc p (.failed .eintr))
    | .sndWait a type qp, false => getres v p a type qp spot s
    | _, _ => none
  | .sndCopy p error =>
    match s.proc p, error with
    | .sndCopy _ _ _, some e => some (s.setProc p (.failed e))
    | .sndCopy a type qp, none => put p a type qp s
    | _, _ => none
  | .msgrcv p a access => if (s.proc p).out then msgrcv v p a access s else none
  | .rcvWait p signal =>
    match s.proc p, signal with
    | .rcvWait _ _, true => some (s.setProc p (.failed .eintr))
    | .rcvWait a qp, false => receive v p a qp s
    | _, _ => none
  | .rcvCopy p error =>
    match s.proc p, error with
    | .rcvCopy _ _ _ _ _, some e => some (s.setProc p (.failed e))
    | .rcvCopy qp spmp smp sz _, none => some (received p qp spmp smp sz s)
    | _, _ => none
  | .rmid id => (msgconv v id s).bind fun qp => rmid v id qp s
  | .set qp qbytes => some (s.setQueue qp { s.msgque qp with msg_qbytes := toUshort qbytes })
  | .msgget qp => if qp < v.msgmni ∧ (s.msgque qp).alloc = false then some (create v qp s) else none

/-- No queue, all headers on the free list, and all processes in no call. -/
def State.init : State where
  msgque _ := ⟨false, 0, none, none, 0, 0, 0⟩
  msgh i := ⟨if i + 1 < v.msgtql then some (i + 1) else none, 0, 0, 0⟩
  msgfp := some 0
  proc _ := .idle
  sent := 0
  gone := []

/-- Any number of processes that send, receive, make and remove queues. -/
def msgs : Machine State Action where
  init s := s = .init v
  next := next v

end AuxKernel.MsgQueue
