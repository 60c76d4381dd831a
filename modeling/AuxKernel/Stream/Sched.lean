import AuxKernel.Stream.Basic

/-!
# The scheduling of the queues of streams

`qenable`, `queuerun` and `runqueues` (`COMMON/os/stream.c`), over all queues. The
queues to be run are linked by `q_link`, from `qhead` to `qtail`. A queue is put on this
list by `qenable`: from `putq`, `putbq`, `getq` and `flushq`, or from anywhere else.

In the machine (`scheduler`) any of these may come between two steps of `queuerun`,
whether from the service procedure that it called or from an interrupt. What stands
between `splstr` and the next lowering of the priority is one step.

The machine remembers the queues as they were enabled (`enabled`), and as their service
procedures were called (`calls`).
-/

namespace AuxKernel.Stream.Sched

/-! ## Enabling -/

/-- The list of queues to run, their links and `QENAB` flags. -/
structure RunList where
  qhead : Option ℕ
  qtail : Option ℕ
  q_link : ℕ → Option ℕ
  qenab : ℕ → Bool
  qrunflag : Bool
  enabled : List ℕ

/-- The configuration: how many message blocks there are, and the queues with a
    service procedure. -/
structure Config where
  nmblock : ℕ
  qi_srvp : ℕ → Bool

variable (v : Config)

/-- Let the head or the last queue point to a queue. -/
def link (i : ℕ) (s : RunList) : Option RunList :=
  match s.qhead with
  | none => some { s with qhead := some i }
  | some _ => s.qtail.map fun t => { s with q_link := Function.update s.q_link t (some i) }

/-- Link a queue in at the end. -/
def append (i : ℕ) (s : RunList) : Option RunList :=
  (link i s).map fun s => { s with qtail := some i, q_link := Function.update s.q_link i none }

/-- Enable a queue. -/
def qenable (i : ℕ) (s : RunList) : Option RunList :=
  if ¬v.qi_srvp i then some s
  else if s.qenab i then some s
  else (append i { s with qenab := Function.update s.qenab i true }).map fun s =>
    { s with qrunflag := true, enabled := s.enabled ++ [i] }

/-! ## The operations on a queue -/

/-- The memory, the queues, the queues back from each, and the list of queues to run. -/
structure Kernel where
  mem : Mem
  q : ℕ → Queue
  backq : ℕ → List ℕ
  list : RunList

/-- The queue `i` becomes `q`. -/
def Kernel.setq (s : Kernel) (i : ℕ) (q : Queue) : Kernel :=
  { s with q := Function.update s.q i q }

/-- Enable a queue of the kernel. -/
def Kernel.enable (i : ℕ) (s : Kernel) : Option Kernel :=
  (qenable v i s.list).map fun l => { s with list := l }

/-- Enable the nearest back queue with a service procedure. -/
def enableBack (i : ℕ) (s : Kernel) : Option Kernel :=
  match (s.backq i).find? v.qi_srvp with
  | none => some s
  | some j => s.enable v j

/-- What the linking of messages depends on, of the configuration. -/
def Config.linking (i : ℕ) : Stream.Config := ⟨v.nmblock, i, v.qi_srvp, []⟩

/-- Unlink the first message, and discount its blocks. -/
def getFirst (i bp : ℕ) (s : Kernel) : Option Kernel :=
  let (m, q) := getLink bp s.mem (s.q i)
  (addsize (-1) m v.nmblock (some bp) q.q_count).map fun c =>
    { s with mem := m }.setq i
      { q with q_count := c, qfull := q.qfull && ¬c < q.q_hiwat, qwantr := false }

/-- Enable the nearest back queue, if one wants to write and the queue is low. -/
def getEnable (i : ℕ) (s : Kernel) : Option Kernel :=
  if (s.q i).q_count ≤ (s.q i).q_lowat ∧ (s.q i).qwantw then
    enableBack v i (s.setq i { s.q i with qwantw := false })
  else some s

/-- Get the first message off a queue. -/
def getq (i : ℕ) (s : Kernel) : Option Kernel :=
  match (s.q i).q_first with
  | none => getEnable v i (s.setq i { s.q i with qwantr := true })
  | some bp => (getFirst v i bp s).bind (getEnable v i)

/-- What follows the linking of a message: count its blocks, and enable the queue if
    the message is of a priority class or wanted. -/
def putCount (i mcls bp : ℕ) (s : Kernel) : Option Kernel :=
  (addsize 1 s.mem v.nmblock (some bp) (s.q i).q_count).bind fun c =>
    let s := s.setq i
      { s.q i with q_count := c, qfull := (s.q i).qfull || c ≥ (s.q i).q_hiwat }
    if ¬(s.q i).qnoenb ∧ (mcls > 0 ∨ (s.q i).qwantr) then s.enable v i else some s

/-- Put a message on a queue. -/
def putq (i bp : ℕ) (s : Kernel) : Option Kernel := do
  let mcls ← queclass s.mem bp
  let (m, q) ← putLink (v.linking i) mcls bp s.mem (s.q i)
  putCount v i mcls bp ({ s with mem := m }.setq i q)

/-- Put a message back on a queue. -/
def putbq (i bp : ℕ) (s : Kernel) : Option Kernel := do
  let mcls ← queclass s.mem bp
  let (m, q) ← putbLink (v.linking i) mcls bp s.mem (s.q i)
  putCount v i mcls bp ({ s with mem := m }.setq i q)

/-- The loop of `flushq` over the messages from `bp` on. All but data messages are
    put back, unless `flag` is set. -/
def flushLoop (i : ℕ) (flag : Bool) : ℕ → Option ℕ → Kernel → Option Kernel
  | _, none, s => some s
  | 0, some _, _ => none
  | n + 1, some bp, s => do
    let nbp := (s.mem.mblk bp).b_next
    let t ← msgtype s.mem bp
    let s ← if t ≠ 0 ∧ ¬flag then putq v i bp s
      else (freemsg v.nmblock (some bp) s.mem).map fun m => { s with mem := m }
    flushLoop i flag n nbp s

/-- Flush a queue. -/
def flushq (i : ℕ) (flag : Bool) (s : Kernel) : Option Kernel :=
  (flushLoop v i flag v.nmblock (s.q i).q_first ({ s with mem := endLast s.mem (s.q i) }.setq i
    { s.q i with q_first := none, q_last := none, q_count := 0, qfull := false })).bind fun s =>
      if (s.q i).q_count ≤ (s.q i).q_lowat ∧ (s.q i).qwantw then enableBack v i s else some s

/-! ## The machine -/

/-- Where `queuerun` is: not called, at the test of its loop, about to call the service
    procedure of a queue, in it, or returned, with `queueflag` still to be cleared. -/
inductive Pc
  | idle
  | loop
  | call (i : ℕ)
  | service (i : ℕ)
  | left
  deriving DecidableEq, Repr

/-- The queue that was taken off the list, its service procedure not called yet. -/
def Pc.pending : Pc → List ℕ
  | .call i => [i]
  | _ => []

/-- The state. -/
structure State where
  k : Kernel
  queueflag : Bool
  pc : Pc
  calls : List ℕ

/-- Test for a queue to run, and take it off the list; or leave. -/
def take (s : State) : State :=
  let l := s.k.list
  match l.qhead with
  | none => { s with k := { s.k with list := { l with qrunflag := false } }, pc := .left }
  | some i =>
    let l := { l with qhead := l.q_link i }
    let l := if l.qhead.isNone then { l with qtail := none } else l
    { s with
      k := { s.k with list := { l with qenab := Function.update l.qenab i false } }
      pc := .call i }

/-- The steps. `other` is whatever else the kernel does, to messages and queues. -/
inductive Act
  | qenable (i : ℕ)
  | putq (i bp : ℕ)
  | putbq (i bp : ℕ)
  | getq (i : ℕ)
  | flushq (i : ℕ) (flag : Bool)
  | other (mem : Mem) (q : ℕ → Queue) (backq : ℕ → List ℕ)
  | runqueues
  | take
  | call
  | ret
  | leave

/-- What an operation on the queues does to the kernel, wherever `queuerun` is. -/
def operate : Act → Kernel → Option Kernel
  | .qenable i, k => k.enable v i
  | .putq i bp, k => Sched.putq v i bp k
  | .putbq i bp, k => Sched.putbq v i bp k
  | .getq i, k => Sched.getq v i k
  | .flushq i flag, k => Sched.flushq v i flag k
  | .other mem q backq, k => some { k with mem := mem, q := q, backq := backq }
  | _, _ => none

/-- The scheduling of the queues. -/
def scheduler : Machine State Act where
  init s := s.k.list.qhead = none ∧ s.k.list.qtail = none ∧ (∀ i, s.k.list.qenab i = false) ∧
    s.k.list.qrunflag = false ∧ s.k.list.enabled = [] ∧ s.queueflag = false ∧ s.pc = .idle ∧
    s.calls = []
  next s
    | .runqueues =>
      if s.k.list.qrunflag ∧ ¬s.queueflag ∧ s.pc = .idle then
        some { s with queueflag := true, pc := .loop }
      else none
    | .take => if s.pc = .loop then some (Sched.take s) else none
    | .call => match s.pc with
      | .call i => some { s with pc := .service i, calls := s.calls ++ [i] }
      | _ => none
    | .ret => match s.pc with
      | .service _ => some { s with pc := .loop }
      | _ => none
    | .leave => if s.pc = .left then some { s with queueflag := false, pc := .idle } else none
    | a => (operate v a s.k).map fun k => { s with k := k }

end AuxKernel.Stream.Sched
