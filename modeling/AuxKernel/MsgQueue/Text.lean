import AuxKernel.MsgQueue.Basic
import AuxKernel.Rmap.Basic

/-!
# The text of messages

The text of a message is in a buffer of `msgseg` units, which `malloc` and `mfree` give out and
take back by the map `msgmap`: the calls of `AuxKernel.MsgQueue.Basic`, with the units that they
get and free. `msgsnd` gets them before the text is copied in, and puts their address into the
header of the message (`msg_spot`), and `msgfree` frees them.

Whether there is space for a message is what the map says: the `spot` of an action has no
meaning here (`texts`).
-/

namespace AuxKernel.MsgQueue

/-- The buffer: `msgseg` units of `msgssz` bytes, and the entries that the map has room for
    besides the first. -/
structure Buffer where
  msgssz : ℤ
  msgseg : ℤ
  room : ℕ
  msgssz_pos : 0 < msgssz
  msgseg_pos : 0 < msgseg
  msgseg_lt : msgseg < 2 ^ 15

/-- The map, the addresses of the texts of the messages, and those that `malloc` returned to
    the processes. -/
structure TextState extends State where
  msgmap : Rmap.Map
  msg_spot : ℕ → ℤ
  spot : ℕ → ℤ

/-- The queues, the headers and the processes change, but not the buffer. -/
def TextState.lift (t : TextState) (s : State) : TextState := { t with toState := s }

def TextState.setProc (t : TextState) (p : ℕ) (pc : Proc) : TextState :=
  t.lift (t.toState.setProc p pc)

variable (v : Config) (c : Buffer)

/-- Convert bytes to units. -/
def btoq (x : ℤ) : ℤ := (x + c.msgssz - 1).tdiv c.msgssz

/-! ## Sending -/

/-- Get units for the text of a message, if it has one. -/
def allot (p : ℕ) (a : Snd) (t : TextState) : Option TextState :=
  if a.msgsz = 0 then some t
  else
    (Rmap.malloc t.msgmap (btoq c a.msgsz)).map fun r =>
      { t with msgmap := r.2, spot := Function.update t.spot p (r.1.getD 0) }

/-- Send the message. -/
def putText (p : ℕ) (a : Snd) (type : ℤ) (qp : ℕ) (t : TextState) : Option TextState :=
  t.msgfp.map fun mp =>
    { t with
      toState := (enqueue a type qp mp t.toState).setProc p (.done 0)
      msg_spot := Function.update t.msg_spot mp
        (if a.msgsz ≠ 0 then toShort (t.spot p - 1) else -1) }

/-- Get what the message needs. The units stay with the process when there is no header. -/
def getresText (p : ℕ) (a : Snd) (type : ℤ) (qp : ℕ) (t : TextState) : Option TextState :=
  let q := t.msgque qp
  if msgconv v a.msqid t.toState ≠ some qp then some (t.setProc p (.failed .eidrm))
  else if a.msgsz + q.msg_cbytes > q.msg_qbytes then
    if a.nowait then some (t.setProc p (.failed .eagain))
    else some (t.setProc p (.sndWait a type qp))
  else
    (allot c p a t).bind fun t =>
      if (a.msgsz ≠ 0 ∧ t.spot p = 0) ∨ t.msgfp = none then
        if a.nowait then some (t.setProc p (.failed .eagain))
        else some { t.setProc p (.sndWait a type qp) with
          msgmap := { t.msgmap with mapwant := true } }
      else if a.msgsz ≠ 0 then some (t.setProc p (.sndCopy a type qp))
      else putText p a type qp t

/-! ## Freeing -/

/-- Free the text of a message. -/
def freeText (mp : ℕ) (t : TextState) : Option TextState :=
  if (t.msgh mp).msg_ts = 0 then some t
  else
    (Rmap.mfree t.msgmap (btoq c (t.msgh mp).msg_ts) (t.msg_spot mp + 1)).map fun r =>
      { t with msgmap := r.2 }

/-- Unlink a message, and free its text and its header. -/
def msgfreeText (qp : ℕ) (pmp : Option ℕ) (mp : ℕ) (fate : Fate) (t : TextState) :
    Option TextState :=
  (freeText c mp t).map fun t => t.lift (msgfree qp pmp mp fate t.toState)

/-- Go on when the message is copied out. -/
def receivedText (p qp : ℕ) (spmp : Option ℕ) (smp : ℕ) (sz : ℤ) (t : TextState) :
    Option TextState :=
  (freeText c smp t).map fun t => t.lift (received p qp spmp smp sz t.toState)

/-- Free all messages of a queue. -/
def freeAllText (qp : ℕ) : (fuel : ℕ) → TextState → Option TextState
  | n, t =>
    match (t.msgque qp).msg_first, n with
    | none, _ => some t
    | some _, 0 => none
    | some mp, n + 1 => (msgfreeText c qp none mp .removed t).bind (freeAllText qp n)

/-- Remove a queue. -/
def rmidText (id : ℤ) (qp : ℕ) (t : TextState) : Option TextState :=
  (freeAllText c qp v.msgtql t).map fun t =>
    let q := t.msgque qp
    let seq := if toLong (id + v.msgmni) < 0 then 0 else toUshort (q.seq + 1)
    t.lift (t.toState.setQueue qp { q with msg_cbytes := 0, seq := seq, alloc := false })

/-! ## Runs -/

/-- A process calls, or goes on where it slept. -/
def nextText (t : TextState) : Action → Option TextState
  | .sndType p type spot =>
    match t.proc p, type with
    | .sndType a qp, some type =>
      if type < 1 then some (t.setProc p (.failed .einval)) else getresText v c p a type qp t
    | _, _ => (next v t.toState (.sndType p type spot)).map t.lift
  | .sndWait p signal spot =>
    match t.proc p, signal with
    | .sndWait a type qp, false => getresText v c p a type qp t
    | _, _ => (next v t.toState (.sndWait p signal spot)).map t.lift
  | .sndCopy p error =>
    match t.proc p, error with
    | .sndCopy a _ _, some e =>
      (Rmap.mfree t.msgmap (btoq c a.msgsz) (t.spot p)).map fun r =>
        { t.setProc p (.failed e) with msgmap := r.2 }
    | .sndCopy a type qp, none => putText p a type qp t
    | _, _ => none
  | .rcvCopy p error =>
    match t.proc p, error with
    | .rcvCopy qp spmp smp sz _, none => receivedText c p qp spmp smp sz t
    | _, _ => (next v t.toState (.rcvCopy p error)).map t.lift
  | .rmid id => (msgconv v id t.toState).bind fun qp => rmidText v c id qp t
  | a => (next v t.toState a).map t.lift

/-- All units are free. -/
def TextState.init : TextState where
  toState := .init v
  msgmap := (Rmap.Resource.one c.msgseg 1 c.room).map
  msg_spot _ := 0
  spot _ := 0

/-- The calls of any number of processes, with the text of the messages. -/
def texts : Machine TextState Action where
  init t := t = .init v c
  next := nextText v c

end AuxKernel.MsgQueue
