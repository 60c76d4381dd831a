import AuxKernel.System
import AuxKernel.Basic
import AuxKernel.LinkedList
import AuxKernel.ClassQueue

/-!
# The queues of a stream

`putq`, `putbq`, `getq` and `flushq` (`COMMON/os/stream.c`), on one queue. A
message is a chain of message blocks, by `b_cont`, each with a data block; the
messages of a queue are linked by `b_next` and `b_prev` of their first blocks.
Blocks are named by numbers, and following a null pointer is `none`. The loops
take fuel; `nmblock`, how many message blocks there are, is enough of it.

The machine (`stream`) also remembers the messages on the queue (`Msg`), as the
callers put them there: a list for each priority class.
-/

namespace AuxKernel.Stream

open ClassQueue

/-! ## Blocks -/

/-- A message block descriptor. -/
structure Mblk where
  b_next : Option ℕ
  b_prev : Option ℕ
  b_cont : Option ℕ
  b_datap : Option ℕ
  deriving DecidableEq, Repr

/-- A data block descriptor. -/
structure Dblk where
  db_freep : Option ℕ
  db_ref : ℕ
  db_type : BitVec 8
  db_class : ℕ
  deriving DecidableEq, Repr

/-- The message and data blocks, and their free lists. -/
structure Mem where
  mblk : ℕ → Mblk
  dblk : ℕ → Dblk
  mbfreelist : Option ℕ
  dbfreelist : ℕ → Option ℕ

/-- The size of the blocks of each class, for the limits of queues. -/
def bsize : List ℤ := [4, 16, 64, 100, 200, 300, 600, 1200, 2400]

/-- The bits of a type that are its priority class. -/
def typeclass (db_type : BitVec 8) : ℕ := (db_type &&& 0xC0#8).toNat

/-- The type of a message. -/
def msgtype (m : Mem) (bp : ℕ) : Option (BitVec 8) :=
  (m.mblk bp).b_datap.map fun d => (m.dblk d).db_type

/-- The priority class of a message. -/
def queclass (m : Mem) (bp : ℕ) : Option ℕ := (msgtype m bp).map typeclass

/-- The size of a block, for the limits of queues. -/
def blocksize (m : Mem) (bp : ℕ) : Option ℤ :=
  (m.mblk bp).b_datap.bind fun d => bsize[(m.dblk d).db_class]?

def Mem.setNext (m : Mem) (bp : ℕ) (p : Option ℕ) : Mem :=
  { m with mblk := Function.update m.mblk bp { m.mblk bp with b_next := p } }

def Mem.setPrev (m : Mem) (bp : ℕ) (p : Option ℕ) : Mem :=
  { m with mblk := Function.update m.mblk bp { m.mblk bp with b_prev := p } }

/-- Drop a reference to a data block; it goes to its free list when it has no other. -/
def dropData (d : ℕ) (m : Mem) : Mem :=
  let db := m.dblk d
  if db.db_ref ≤ 1 then
    { m with
      dblk := Function.update m.dblk d { db with db_ref := 0, db_freep := m.dbfreelist db.db_class }
      dbfreelist := Function.update m.dbfreelist db.db_class (some d) }
  else { m with dblk := Function.update m.dblk d { db with db_ref := db.db_ref - 1 } }

/-- Return a message block to its free list. -/
def freeb (bp : ℕ) (m : Mem) : Option Mem :=
  (m.mblk bp).b_datap.map fun d =>
    let m := dropData d { m.setNext bp m.mbfreelist with mbfreelist := some bp }
    { m with mblk := Function.update m.mblk bp { m.mblk bp with b_datap := none } }

/-- Free all blocks of a message. -/
def freemsg : ℕ → Option ℕ → Mem → Option Mem
  | _, none, m => some m
  | 0, some _, _ => none
  | n + 1, some bp, m => (freeb bp m).bind fun m' => freemsg n (m.mblk bp).b_cont m'

/-! ## Queues -/

/-- A queue; of its flags those that matter here. -/
structure Queue where
  q_first : Option ℕ
  q_last : Option ℕ
  q_count : ℤ
  q_hiwat : ℤ
  q_lowat : ℤ
  qwantr : Bool
  qwantw : Bool
  qfull : Bool
  qnoenb : Bool
  deriving DecidableEq, Repr

/-- The memory, the queue, and the scheduling of all queues: which are enabled,
    and the list of them. -/
structure State where
  mem : Mem
  q : Queue
  qenab : ℕ → Bool
  run : List ℕ

/-- The configuration: how many message blocks there are, the number of the queue,
    the queues with a service procedure, and the queues back from this one. -/
structure Config where
  nmblock : ℕ
  self : ℕ
  qi_srvp : ℕ → Bool
  backq : List ℕ

variable (v : Config)

/-- Enable a queue. -/
def qenable (i : ℕ) (s : State) : State :=
  if ¬v.qi_srvp i then s
  else if s.qenab i then s
  else { s with qenab := Function.update s.qenab i true, run := s.run ++ [i] }

/-- Enable the nearest back queue with a service procedure. -/
def enableBack (s : State) : State :=
  match v.backq.find? v.qi_srvp with
  | none => s
  | some i => qenable v i s

/-- Add the sizes of the blocks of a message, with a sign, to a count. -/
def addsize (sign : ℤ) (m : Mem) : ℕ → Option ℕ → ℤ → Option ℤ
  | _, none, c => some c
  | 0, some _, _ => none
  | n + 1, some bp, c => (blocksize m bp).bind fun k =>
    addsize sign m n (m.mblk bp).b_cont (toShort (c + sign * k))

/-! ## Getting a message -/

/-- Unlink the first message. -/
def getLink (bp : ℕ) (m : Mem) (q : Queue) : Mem × Queue :=
  match (m.mblk bp).b_next with
  | none => (m.setNext bp none, { q with q_first := none, q_last := none })
  | some n => ((m.setPrev n none).setNext bp none, { q with q_first := some n })

/-- Unlink the first message, and discount its blocks. -/
def getFirst (bp : ℕ) (s : State) : Option State :=
  let (m, q) := getLink bp s.mem s.q
  (addsize (-1) m v.nmblock (some bp) q.q_count).map fun c => { s with
    mem := m
    q := { q with q_count := c, qfull := q.qfull && ¬c < q.q_hiwat, qwantr := false } }

/-- Enable the nearest back queue, if one wants to write and the queue is low. -/
def getEnable (s : State) : State :=
  if s.q.q_count ≤ s.q.q_lowat ∧ s.q.qwantw then
    enableBack v { s with q := { s.q with qwantw := false } }
  else s

/-- Get the first message off the queue. -/
def getq (s : State) : Option (Option ℕ × State) :=
  match s.q.q_first with
  | none => some (none, getEnable v { s with q := { s.q with qwantr := true } })
  | some bp => (getFirst v bp s).map fun s => (some bp, getEnable v s)

/-! ## Putting a message -/

/-- The first message, from `nbp` on, of a lower class than `mcls`. -/
def findLower (m : Mem) (mcls : ℕ) : ℕ → ℕ → Option ℕ
  | 0, _ => none
  | n + 1, nbp => (queclass m nbp).bind fun c =>
    if c ≥ mcls then (m.mblk nbp).b_next.bind (findLower m mcls n) else some nbp

/-- The first message, from `nbp` on, whose next one is not of a higher class than
    `mcls`. -/
def findHigher (m : Mem) (mcls : ℕ) : ℕ → ℕ → Option ℕ
  | 0, _ => none
  | n + 1, nbp =>
    match (m.mblk nbp).b_next with
    | none => some nbp
    | some next => (queclass m next).bind fun c =>
      if c > mcls then findHigher m mcls n next else some nbp

/-- How `putq` links a message before `nbp`. -/
def putBefore (bp nbp : ℕ) (m : Mem) (q : Queue) : Mem × Queue :=
  let m := (m.setNext bp (some nbp)).setPrev bp (m.mblk nbp).b_prev
  match (m.mblk nbp).b_prev with
  | some b => ((m.setNext b (some bp)).setPrev nbp (some bp), q)
  | none => (m.setPrev nbp (some bp), { q with q_first := some bp })

/-- How `putbq` links a message behind `nbp`. -/
def putBehind (bp nbp : ℕ) (m : Mem) (q : Queue) : Mem × Queue :=
  let m := m.setNext bp (m.mblk nbp).b_next
  match (m.mblk bp).b_next with
  | some b => (((m.setPrev b (some bp)).setNext nbp (some bp)).setPrev bp (some nbp), q)
  | none => ((m.setNext nbp (some bp)).setPrev bp (some nbp), { q with q_last := some bp })

/-- How `putq` links a message of the class `mcls`: behind all of its class. -/
def putLink (mcls bp : ℕ) (m : Mem) (q : Queue) : Option (Mem × Queue) :=
  match q.q_first with
  | none => some ((m.setPrev bp none).setNext bp none,
      { q with q_first := some bp, q_last := some bp })
  | some first => do
    let last ← q.q_last
    let c ← queclass m last
    if mcls ≤ c then
      some (((m.setNext last (some bp)).setPrev bp (some last)).setNext bp none,
        { q with q_last := some bp })
    else do
      let nbp ← findLower m mcls v.nmblock first
      return putBefore bp nbp m q

/-- How `putbq` links a message of the class `mcls`: before all of its class. -/
def putbLink (mcls bp : ℕ) (m : Mem) (q : Queue) : Option (Mem × Queue) :=
  match q.q_first with
  | none => some ((m.setNext bp none).setPrev bp none,
      { q with q_first := some bp, q_last := some bp })
  | some first => do
    let c ← queclass m first
    if mcls ≥ c then
      some (((m.setNext bp (some first)).setPrev bp none).setPrev first (some bp),
        { q with q_first := some bp })
    else do
      let nbp ← findHigher m mcls v.nmblock first
      return putBehind bp nbp m q

/-- What follows the linking: count the blocks of the message, and enable the queue
    if a message is of a priority class or wanted. -/
def putCount (mcls bp : ℕ) (s : State) : Option State :=
  (addsize 1 s.mem v.nmblock (some bp) s.q.q_count).map fun c =>
    let s := { s with q := { s.q with q_count := c, qfull := s.q.qfull || c ≥ s.q.q_hiwat } }
    if ¬s.q.qnoenb ∧ (mcls > 0 ∨ s.q.qwantr) then qenable v v.self s else s

/-- Put a message on the queue. -/
def putq (bp : ℕ) (s : State) : Option State := do
  let mcls ← queclass s.mem bp
  let (m, q) ← putLink v mcls bp s.mem s.q
  putCount v mcls bp { s with mem := m, q := q }

/-- Put a message back on the queue. -/
def putbq (bp : ℕ) (s : State) : Option State := do
  let mcls ← queclass s.mem bp
  let (m, q) ← putbLink v mcls bp s.mem s.q
  putCount v mcls bp { s with mem := m, q := q }

/-! ## Flushing -/

/-- The loop of `flushq` over the messages from `bp` on. All but data messages are
    put back, unless `flag` is set. -/
def flushLoop (flag : Bool) : ℕ → Option ℕ → State → Option State
  | _, none, s => some s
  | 0, some _, _ => none
  | n + 1, some bp, s => do
    let nbp := (s.mem.mblk bp).b_next
    let t ← msgtype s.mem bp
    let s ← if t ≠ 0 ∧ ¬flag then putq v bp s
      else (freemsg v.nmblock (some bp) s.mem).map fun m => { s with mem := m }
    flushLoop flag n nbp s

/-- Let the last message point to no other. -/
def endLast (m : Mem) (q : Queue) : Mem :=
  match q.q_last with
  | none => m
  | some last => m.setNext last none

/-- Flush the queue. -/
def flushq (flag : Bool) (s : State) : Option State :=
  (flushLoop v flag v.nmblock s.q.q_first { s with
    mem := endLast s.mem s.q
    q := { s.q with q_first := none, q_last := none, q_count := 0, qfull := false } }).map fun s =>
      if s.q.q_count ≤ s.q.q_lowat ∧ s.q.qwantw then enableBack v s else s

/-! ## The machine -/

/-- A message: its first block, the others, its type, and the sizes of the blocks. -/
structure Msg where
  bp : ℕ
  conts : List ℕ
  db_type : BitVec 8
  sizes : List ℤ
  deriving DecidableEq, Repr

/-- The blocks of a message. -/
def Msg.blocks (x : Msg) : List ℕ := x.bp :: x.conts

/-- The priority class of a message. -/
def Msg.cls (x : Msg) : ℕ := typeclass x.db_type

/-- The size of a message. -/
def Msg.size (x : Msg) : ℤ := x.sizes.sum

/-- The priority classes, from the highest on. -/
def classes : List ℕ := [0xC0, 0x80, 0x40, 0]

/-- The message is in memory. -/
structure Mem.Holds (m : Mem) (x : Msg) : Prop where
  chain : Chained (fun a => (m.mblk a).b_cont) x.blocks
  type : msgtype m x.bp = some x.db_type
  sizes : x.blocks.map (blocksize m) = x.sizes.map some

/-- The state, and the messages on the queue, for each class. -/
structure Run where
  st : State
  queued : ℕ → List Msg

/-- All messages on the queue, in the order of the classes. -/
def Run.msgs (s : Run) : List Msg := flat classes s.queued

/-- The calls; `other` is whatever else the kernel does, to the state `st`. -/
inductive Act
  | putq (x : Msg)
  | putbq (x : Msg)
  | getq
  | flushq (flag : Bool)
  | other (st : State)

/-- The queue under the calls. -/
def stream : Machine Run Act where
  init s := s.st.q.q_first = none ∧ s.st.q.q_last = none ∧ s.st.q.q_count = 0 ∧
    s.st.q.qfull = false ∧ 0 < s.st.q.q_hiwat ∧ s.queued = fun _ => []
  next s
    | .putq x => (putq v x.bp s.st).map fun st => ⟨st, enqueue s.queued x.cls x⟩
    | .putbq x => (putbq v x.bp s.st).map fun st => ⟨st, requeue s.queued x.cls x⟩
    | .getq => (getq v s.st).map fun (_, st) => ⟨st, dequeue classes s.queued⟩
    | .flushq flag => (flushq v flag s.st).map fun st =>
      ⟨st, fun c => (s.queued c).filter fun x => x.db_type ≠ 0 ∧ ¬flag⟩
    | .other st => some ⟨st, s.queued⟩

end AuxKernel.Stream
