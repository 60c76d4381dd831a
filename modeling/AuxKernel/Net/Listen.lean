import AuxKernel.Basic
import AuxKernel.System
import AuxKernel.LinkedList

/-!
# Sockets that wait to be accepted

The two queues of a listening socket (`NET/sys/socket2.c`): `so_q0`, of connections that are not
complete, and `so_q`, of those that can be accepted. A queue is a ring through the field of its
name, in the listening socket and in those that wait.

What is called is `sonewconn`, `soisconnected`, `accept`, and `sofree`, by itself or when a
connection is closed or aborted (`in_pcbdetach`). `soqinsque` is called by the first two only.
A socket has the number of its mbuf, of which there are `nmb`.
-/

namespace AuxKernel.Net.Listen

/-- The largest `so_qlimit`. -/
def SOMAXCONN : ℤ := 5

structure Socket where
  so_head : Option ℕ
  so_q0 : Option ℕ
  so_q0len : ℤ
  so_q : Option ℕ
  so_qlen : ℤ
  so_qlimit : ℤ
  so_pcb : Bool
  ss_nofdref : Bool
  so_acceptconn : Bool
  deriving DecidableEq, Repr

/-- A socket in an mbuf that has been cleared. -/
def Socket.zero : Socket := ⟨none, none, 0, none, 0, 0, false, false, false⟩

/-- The link in a queue: `so_q`, or `so_q0`. -/
def Socket.link (q : Bool) (so : Socket) : Option ℕ := if q then so.so_q else so.so_q0

def Socket.setLink (q : Bool) (next : Option ℕ) (so : Socket) : Socket :=
  if q then { so with so_q := next } else { so with so_q0 := next }

/-- The length of a queue. -/
def Socket.len (q : Bool) (so : Socket) : ℤ := if q then so.so_qlen else so.so_q0len

def Socket.addLen (q : Bool) (n : ℤ) (so : Socket) : Socket :=
  if q then { so with so_qlen := toShort (so.so_qlen + n) }
  else { so with so_q0len := toShort (so.so_q0len + n) }

/-- The sockets, and which mbufs are in use. -/
structure State where
  so : ℕ → Socket
  used : ℕ → Bool

def State.modify (x : ℕ) (f : Socket → Socket) (s : State) : State :=
  { s with so := Function.update s.so x (f (s.so x)) }

def State.setUsed (x : ℕ) (b : Bool) (s : State) : State :=
  { s with used := Function.update s.used x b }

/-! ## Queues -/

def soqinsque (head so : ℕ) (q : Bool) (s : State) : State :=
  let s := s.modify so fun x => { x with so_head := some head }
  let s := s.modify head (Socket.addLen q 1)
  let s := s.modify so (Socket.setLink q ((s.so head).link q))
  s.modify head (Socket.setLink q (some so))

/-- The loop of `soqremque`, from `prev` on: the socket before `so`, if there is one; `none` if a
    link is missing, or the loop does not end. -/
def prevOf (link : ℕ → Option ℕ) (head so : ℕ) : ℕ → (prev : ℕ) → Option (Option ℕ)
  | 0, _ => none
  | n + 1, prev =>
    match link prev with
    | none => none
    | some next =>
      if next = so then some (some prev)
      else if next = head then some none
      else prevOf link head so n next

/-- Take `so` off a queue, where it is behind `prev`. -/
def State.unlink (head prev so : ℕ) (q : Bool) (s : State) : State :=
  let s := s.modify prev (Socket.setLink q ((s.so so).link q))
  let s := s.modify head (Socket.addLen q (-1))
  let s := s.modify so fun x => { x with so_q0 := none, so_q := none }
  s.modify so fun x => { x with so_head := none }

variable (nmb : ℕ)

/-- `soqremque`: whether `so` was on the queue. -/
def soqremque (so : ℕ) (q : Bool) (s : State) : Option (Bool × State) :=
  match (s.so so).so_head with
  | none => none
  | some head =>
    match prevOf (fun x => (s.so x).link q) head so nmb head with
    | none => none
    | some none => some (false, s)
    | some (some prev) => some (true, s.unlink head prev so q)

/-- `sofree`; `none` if it panics. -/
def sofree (so : ℕ) (s : State) : Option State :=
  let s := match (s.so so).so_head with
    | none => some s
    | some _ =>
      match soqremque nmb so false s with
      | none => none
      | some (true, s) => some (s.modify so fun x => { x with so_head := none })
      | some (false, s) =>
        match soqremque nmb so true s with
        | some (true, s) => some (s.modify so fun x => { x with so_head := none })
        | _ => none
  s.map fun s =>
    if (s.so so).so_pcb ∨ !(s.so so).ss_nofdref then s else s.setUsed so false

def in_pcbdetach (so : ℕ) (s : State) : Option State :=
  sofree nmb so (s.modify so fun x => { x with so_pcb := false })

/-- What becomes of an attach: it fails before there is a pcb, or after. -/
inductive Attach
  | ok
  | nopcb
  | notcpcb
  deriving DecidableEq, Repr

/-- `tcp_attach`: whether there is an error. -/
def tcp_attach (so : ℕ) (s : State) : Attach → Option (Bool × State)
  | .ok => some (false, s.modify so fun x => { x with so_pcb := true })
  | .nopcb => some (true, s)
  | .notcpcb =>
    let nofd := (s.so so).ss_nofdref
    let s := s.modify so fun x => { x with so_pcb := true, ss_nofdref := false }
    (in_pcbdetach nmb so s).map fun s =>
      (true, s.modify so fun x => { x with ss_nofdref := x.ss_nofdref || nofd })

/-- `sonewconn`, with the mbuf that there is. -/
def sonewconn (head : ℕ) (m : Option ℕ) (attach : Attach) (s : State) :
    Option (Option ℕ × State) :=
  let h := s.so head
  if h.so_qlen + h.so_q0len > Int.tdiv (3 * h.so_qlimit) 2 then some (none, s)
  else
    match m with
    | none => some (none, s)
    | some so =>
      let s := (s.setUsed so true).modify so fun _ => { Socket.zero with ss_nofdref := true }
      let s := soqinsque head so false s
      match tcp_attach nmb so s attach with
      | none => none
      | some (false, s) => some (some so, s)
      | some (true, s) =>
        let s := if (s.so so).so_head.isSome then (soqremque nmb so false s).map Prod.snd
          else some s
        s.map fun s => (none, s.setUsed so false)

/-- `soisconnected`, as far as queues are concerned; `none` if it panics. -/
def soisconnected (so : ℕ) (s : State) : Option State :=
  match (s.so so).so_head with
  | none => some s
  | some head =>
    match soqremque nmb so false s with
    | some (true, s) => some (soqinsque head so true s)
    | _ => none

/-- `accept`, of the first socket that can be; `none` if it panics. -/
def accept (head : ℕ) (s : State) : Option State :=
  match (s.so head).so_q with
  | none => none
  | some aso =>
    match soqremque nmb aso true s with
    | some (true, s) => some (s.modify aso fun x => { x with ss_nofdref := false })
    | _ => none

def solisten (so : ℕ) (backlog : ℤ) (s : State) : State :=
  let s := if (s.so so).so_q.isNone then
      s.modify so fun x => { x with so_q := some so, so_q0 := some so, so_acceptconn := true }
    else s
  s.modify so fun x => { x with so_qlimit := min (max backlog 0) SOMAXCONN }

/-! ## The machine -/

/-- What happens to the queues of a socket. The last is what happens to other sockets. -/
inductive Act
  | sonewconn (m : Option ℕ) (attach : Attach)
  | soisconnected (so : ℕ)
  | accept
  | in_pcbdetach (so : ℕ)
  | sofree (so : ℕ)
  | soqremque (so : ℕ) (q : Bool)
  | solisten (backlog : ℤ)
  | other (x : ℕ) (so : Socket) (used : Bool)

/-- The socket is not the one that listens, nor does it wait at another. -/
def State.mayFree (head so : ℕ) (s : State) : Prop :=
  so ≠ head ∧ ((s.so so).so_head = none ∨ (s.so so).so_head = some head)

instance (head so : ℕ) (s : State) : Decidable (s.mayFree head so) :=
  inferInstanceAs (Decidable (_ ∧ _))

/-- The queues of the socket `head`, from when it begins to listen. -/
def machine (head : ℕ) : Machine State Act where
  init s := ∃ s₀ backlog, s = solisten head backlog s₀ ∧ head < nmb ∧ s₀.used head ∧
    (s₀.so head).so_q = none ∧ (s₀.so head).so_head = none ∧
    (s₀.so head).so_q0len = 0 ∧ (s₀.so head).so_qlen = 0 ∧ ∀ x, (s₀.so x).so_head ≠ some head
  next s
    | .sonewconn m attach =>
      if ∀ so ∈ m, so < nmb ∧ !s.used so then
        (Listen.sonewconn nmb head m attach s).map Prod.snd
      else none
    | .soisconnected so =>
      if (s.so so).so_head = some head then Listen.soisconnected nmb so s else none
    | .accept => if (s.so head).so_qlen ≠ 0 then Listen.accept nmb head s else none
    | .in_pcbdetach so => if s.mayFree head so then Listen.in_pcbdetach nmb so s else none
    | .sofree so => if s.mayFree head so then Listen.sofree nmb so s else none
    | .soqremque so q =>
      if (s.so so).so_head = some head then (Listen.soqremque nmb so q s).map Prod.snd else none
    | .solisten backlog => some (Listen.solisten head backlog s)
    | .other x so used =>
      if x ≠ head ∧ (s.so x).so_head ≠ some head ∧ so.so_head ≠ some head then
        some ((s.modify x fun _ => so).setUsed x used)
      else none

end AuxKernel.Net.Listen
