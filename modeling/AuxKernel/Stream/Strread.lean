import AuxKernel.Basic
import AuxKernel.System

/-!
# Reads at the head of a stream

`strread` (`COMMON/os/streamio.c`), with what happens to the stream meanwhile: messages that
`strrput` puts on the read queue, a hangup, and the timeout `str_unwait`.

The read queue is the list of its messages, which are all data: `getq` takes the first one off,
`putbq` puts one back before the others, and `putq` puts one behind them (what these do to the
links is in `AuxKernel.Stream.Order`). A message is its blocks, each the bytes between `b_rptr` and
`b_wptr`. The machine also remembers what the reader could have got (`total`), and what became of
each read and each sleep.
-/

namespace AuxKernel.Stream.Head

/-- A message: its first block and the others. -/
structure Msg (β : Type) where
  block : List β
  b_cont : List (List β)
  deriving DecidableEq, Repr

/-- The bytes of a message. -/
def Msg.data {β : Type} (bp : Msg β) : List β := bp.block ++ bp.b_cont.flatten

/-! ## Flags -/

def RSLEEP : BitVec 32 := 0o2
def STRHUP : BitVec 32 := 0o10
def RMSGDIS : BitVec 32 := 0o400
def RMSGNODIS : BitVec 32 := 0o1000
def STRERR : BitVec 32 := 0o2000
def TIME_OUT : BitVec 32 := 0o1000000
def TIME_WAIT : BitVec 32 := 0o2000000
def STR_NBIO : BitVec 32 := 0o20000000
def TIMED_OUT : BitVec 32 := 0o400000000

/-- The value of a comparison. -/
def cmp (b : Bool) : BitVec 32 := if b then 1 else 0

/-- The head of a stream, with its read queue. -/
structure Stdata (β : Type) where
  q : List (Msg β)
  sd_flag : BitVec 32
  sd_error : Errno
  sd_wait : BitVec 8
  sd_min : BitVec 8

namespace Stdata

variable {β : Type}

def has (stp : Stdata β) (f : BitVec 32) : Prop := stp.sd_flag &&& f ≠ 0

instance (stp : Stdata β) (f : BitVec 32) : Decidable (stp.has f) :=
  inferInstanceAs (Decidable (_ ≠ _))

def set (stp : Stdata β) (f : BitVec 32) : Stdata β := { stp with sd_flag := stp.sd_flag ||| f }

def clear (stp : Stdata β) (f : BitVec 32) : Stdata β :=
  { stp with sd_flag := stp.sd_flag &&& ~~~f }

def putbq (bp : Msg β) (stp : Stdata β) : Stdata β := { stp with q := bp :: stp.q }

end Stdata

variable {β : Type}

/-! ## What happens meanwhile -/

/-- A message with data or `M_HANGUP` comes up the stream, or a timeout is over. -/
inductive Event (β : Type)
  | data (bp : Msg β)
  | hangup
  | unwait
  deriving DecidableEq, Repr

/-- `strrput` -/
def strrput (bp : Msg β) (stp : Stdata β) : Stdata β :=
  let stp := if stp.has RSLEEP then stp.clear RSLEEP else stp
  { stp with q := stp.q ++ [bp] }

/-- `str_unwait` -/
def str_unwait (stp : Stdata β) : Stdata β :=
  if stp.has TIME_WAIT then (stp.set TIMED_OUT).clear TIME_WAIT else stp

def Event.apply : Event β → Stdata β → Stdata β
  | .data bp, stp => strrput bp stp
  | .hangup, stp => { stp with sd_error := .enxio }.set STRHUP
  | .unwait, stp => str_unwait stp

/-- The messages that come. -/
def Event.msgs : Event β → List (Msg β)
  | .data bp => [bp]
  | _ => []

/-! ## Blocks -/

/-- Free the blocks at the head that have been read. -/
def trim : List (List β) → List (List β)
  | [] => []
  | b :: l => if b.isEmpty then trim l else b :: l

/-- Read blocks, as far as the request goes: the bytes read, what is left of the request and of the
    blocks. -/
def readBlocks : (fuel : ℕ) → (uio_resid : ℕ) → List (List β) → List β × ℕ × List (List β)
  | 0, uio_resid, l => ([], uio_resid, l)
  | _, uio_resid, [] => ([], uio_resid, [])
  | fuel + 1, uio_resid, b :: l =>
    let n := min uio_resid b.length
    let l := trim (b.drop n :: l)
    if uio_resid - n = 0 then (b.take n, 0, l)
    else
      let (d, uio_resid, l) := readBlocks fuel (uio_resid - n) l
      (b.take n ++ d, uio_resid, l)

/-! ## The machine -/

/-- A read under way. -/
structure Reader (β : Type) where
  count : ℕ
  uio_resid : ℕ
  out : List β
  rflg : ℕ
  fndelay : Bool

/-- What the reader does: nothing, the loop from its start, the loop with a message it has got, or
    sleeping. -/
inductive Proc (β : Type)
  | idle
  | loop (r : Reader β)
  | got (r : Reader β) (bp : Msg β)
  | asleep (r : Reader β)

/-- A read that has returned: the flags and the request, the messages that were there for it, what
    it has read, its error, and the messages that it has left. -/
structure Read (β : Type) where
  sd_flag : BitVec 32
  count : ℕ
  total : List (List β)
  out : List β
  error : Option Errno
  left : List (List β)
  deriving DecidableEq, Repr

/-- The stream and its reader; the messages that there have been for the read, whether the timeout
    was over in this sleep, and whether it alone has ended the last one; all reads, and of all
    sleeps whether they came after one that the timeout had ended. -/
structure State (β : Type) where
  stp : Stdata β
  proc : Proc β
  total : List (Msg β)
  fired : Bool
  late : Bool
  reads : List (Read β)
  sleeps : List Bool

namespace State

/-- The read returns. -/
def ret (s : State β) (stp : Stdata β) (r : Reader β) (error : Option Errno) : State β :=
  { s with
    stp
    proc := .idle
    reads := s.reads ++ [{
      sd_flag := stp.sd_flag
      count := r.count
      total := s.total.map Msg.data
      out := r.out
      error
      left := stp.q.map Msg.data }] }

/-- Set the timeout, if it is time for it. -/
def arm (rflg : ℕ) (stp : Stdata β) : Stdata β :=
  if stp.sd_wait ≠ 0 ∧ ¬stp.has TIME_WAIT ∧ (rflg ≠ 0 ∨ stp.sd_min = 0) then
    (stp.clear TIMED_OUT).set TIME_WAIT
  else stp

/-- The loop, where there is no message: return or go to sleep. -/
def noMessage (s : State β) (r : Reader β) : State β :=
  let stp := s.stp
  if stp.has STRERR then s.ret stp r (some stp.sd_error)
  else if r.fndelay ∧ r.rflg = 0 then s.ret stp r (some .enodata)
  else if stp.has STR_NBIO then s.ret stp r (if r.rflg = 0 then some .ewouldblock else none)
  else if stp.has STRHUP then s.ret stp r none
  else if stp.has TIME_OUT ∧ r.rflg ≠ 0 ∧ stp.sd_min.toNat ≤ r.count - r.uio_resid then
    s.ret stp r none
  else if ¬stp.has TIME_OUT ∧ r.rflg ≠ 0 then s.ret stp r none
  else
    let stp := if stp.has TIME_OUT then arm r.rflg stp else stp
    { s with
      stp := stp.set RSLEEP
      proc := .asleep r
      fired := false
      sleeps := s.sleeps ++ [s.late] }

/-- The loop, with a message off the queue. -/
def message (s : State β) (r : Reader β) (bp : Msg β) : State β :=
  let stp := s.stp
  if bp.block.isEmpty then s.ret (if r.rflg ≠ 0 then stp.putbq bp else stp) r none
  else
    let (d, uio_resid, l) := readBlocks (bp.b_cont.length + 1) r.uio_resid (bp.block :: bp.b_cont)
    let r := { r with uio_resid, out := r.out ++ d, rflg := r.rflg + 1 }
    let stp := match l with
      | [] => stp
      | b :: l => if stp.has RMSGDIS then stp else stp.putbq ⟨b, l⟩
    if uio_resid = 0 ∨ stp.has (RMSGDIS ||| RMSGNODIS) then s.ret stp r none
    else { s with stp, proc := .loop r }

/-- The timeout has ended the sleep, and nothing else has. -/
def expired (s : State β) : Bool :=
  s.fired ∧ s.stp.q.isEmpty ∧ ¬s.stp.has STRHUP ∧ ¬s.stp.has STRERR

/-- The sleep is over. -/
def wake (s : State β) (r : Reader β) : State β :=
  let stp := s.stp
  let s := { s with late := s.expired }
  if stp.sd_flag &&& cmp (RSLEEP ||| TIMED_OUT ||| STRHUP ||| STRERR = RSLEEP ||| TIMED_OUT) ≠ 0
  then s.ret (stp.clear (RSLEEP ||| TIMED_OUT)) r none
  else if stp.sd_wait.setWidth 32 &&& TIME_WAIT ≠ 0 then
    { s with stp := stp.clear TIME_WAIT, proc := .loop r }
  else { s with proc := .loop r }

end State

/-- What happens. The flags and what goes with them change while no one reads; `strread` has the
    error of a process in the background, if it is one. -/
inductive Act (β : Type)
  | event (e : Event β)
  | setopt (sd_flag : BitVec 32) (sd_error : Errno) (sd_wait sd_min : BitVec 8)
  | strread (count : ℕ) (fndelay : Bool) (background : Option Errno)
  | getq
  | message
  | wake
  | intr

/-- The event, and what it is to the reader. -/
def State.event (s : State β) (e : Event β) : State β :=
  { s with
    stp := e.apply s.stp
    total := s.total ++ e.msgs
    fired := s.fired || (e matches .unwait) && s.stp.has TIME_WAIT }

/-- The machine of the reads. -/
def strread : Machine (State β) (Act β) where
  init s := s.stp.q = [] ∧ s.proc = .idle ∧ s.late = false ∧ s.reads = [] ∧ s.sleeps = []
  next s a :=
    match a, s.proc with
    | .event e, _ => some (s.event e)
    | .setopt sd_flag sd_error sd_wait sd_min, .idle =>
      some { s with stp := ⟨s.stp.q, sd_flag, sd_error, sd_wait, sd_min⟩ }
    | .strread count fndelay background, .idle =>
      let s := { s with total := s.stp.q, late := false }
      let r : Reader β := ⟨count, count, [], 0, fndelay⟩
      match background with
      | some error => some (s.ret s.stp r (some error))
      | none =>
        if s.stp.has STRERR then some (s.ret s.stp r (some s.stp.sd_error))
        else some { s with proc := .loop r }
    | .getq, .loop r =>
      match s.stp.q with
      | [] => some (s.noMessage r)
      | bp :: q => some { s with stp := { s.stp with q }, proc := .got r bp, late := false }
    | .message, .got r bp => some (s.message r bp)
    | .wake, .asleep r => some (s.wake r)
    | .intr, .asleep r =>
      some (s.ret (s.stp.clear (RSLEEP ||| TIME_WAIT ||| TIMED_OUT)) r (some .eintr))
    | _, _ => none

end AuxKernel.Stream.Head
