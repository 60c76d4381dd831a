import AuxKernel.System
import AuxKernel.Basic
import Mathlib.Algebra.BigOperators.Group.Finset.Basic

/-!
# The file table

The descriptors of processes and the file entries they refer to (`COMMON/os/sys3.c`):
`falloc`, `dup`, `dup2`, `fcntl` (`F_DUPFD`) and `close`, and what `newproc`
(`PAGING/os/fork.c`) does with descriptors. An entry counts its references in `f_count`,
a `short`; the last one that goes closes the object, by `fo_close`, which may sleep and
may fail: the process is at its place (`Pc`) then.

The state also remembers how often each entry was opened by `falloc`, closed by `fo_close`
and its credentials freed. Of a file entry, what only the object uses is left out, and so
are record locks, which `closef` lets go first.
-/

namespace AuxKernel.FileTable

/-- The number of descriptors of a process. -/
def NOFILE : ℕ := 32

/-- The flag of a descriptor that it is closed on `exec`. -/
def UF_EXCLOSE : BitVec 8 := 1

/-- What follows a `closef`: nothing, or the rest of `dup2`. -/
inductive Cont
  | close
  | dup2 (i j fp : ℕ)
  deriving DecidableEq, Repr

/-- The place of a process: outside, or in the `fo_close` of an entry. -/
inductive Pc
  | idle
  | closing (fp : ℕ) (k : Cont)
  deriving DecidableEq, Repr

/-- The reference counts of the entries, where to look for a free one, and the descriptors
    and results of the processes; and what was done with the entries. -/
structure State where
  f_count : ℕ → ℤ
  lastf : ℕ
  u_ofile : ℕ → ℕ → Option ℕ
  u_pofile : ℕ → ℕ → BitVec 8
  u_error : ℕ → Option Errno
  u_rval1 : ℕ → ℕ
  pc : ℕ → Pc
  panicked : Bool
  opened : ℕ → ℕ
  closed : ℕ → ℕ
  freed : ℕ → ℕ

/-- How many processes and file entries there are. -/
structure Config where
  nproc : ℕ
  nfile : ℕ

def State.setError (s : State) (p : ℕ) (e : Option Errno) : State :=
  { s with u_error := Function.update s.u_error p e }

def State.setPc (s : State) (p : ℕ) (pc : Pc) : State :=
  { s with pc := Function.update s.pc p pc }

def State.setCount (s : State) (fp : ℕ) (n : ℤ) : State :=
  { s with f_count := Function.update s.f_count fp n }

/-- Let a descriptor refer to an entry, or to none. -/
def State.setFile (s : State) (p fd : ℕ) (r : Option ℕ) : State :=
  { s with u_ofile := Function.update s.u_ofile p (Function.update (s.u_ofile p) fd r) }

def State.setFlags (s : State) (p fd : ℕ) (flags : BitVec 8) : State :=
  { s with u_pofile := Function.update s.u_pofile p (Function.update (s.u_pofile p) fd flags) }

/-! ## Descriptors -/

/-- The entry that a descriptor refers to. -/
def getf (s : State) (p : ℕ) (f : ℤ) : Option ℕ :=
  if f < 0 ∨ NOFILE ≤ f then none else s.u_ofile p f.toNat

/-- Find a free descriptor, from `i` on. -/
def ufalloc (s : State) (p i : ℕ) : Option ℕ × State :=
  match (List.range' i (NOFILE - i)).find? fun j => s.u_ofile p j = none with
  | some j =>
    (some j, { s with u_rval1 := Function.update s.u_rval1 p j }.setFlags p j 0)
  | none => (none, s.setError p (some .emfile))

/-- Let a descriptor refer to an entry, too. -/
def dupit (s : State) (p fd fp : ℕ) (flags : BitVec 8) : State :=
  ((s.setFile p fd (some fp)).setFlags p fd (flags &&& ~~~UF_EXCLOSE)).setCount fp
    (toShort (s.f_count fp + 1))

variable (v : Config)

/-- Find a free entry for a free descriptor. -/
def falloc (s : State) (p : ℕ) : State :=
  match ufalloc s p 0 with
  | (none, s) => s
  | (some i, s) =>
    match (List.range' s.lastf (v.nfile - s.lastf) ++ List.range s.lastf).find?
      fun fp => s.f_count fp = 0 with
    | none => s.setError p (some .enfile)
    | some fp =>
      { (s.setFile p i (some fp)).setCount fp 1 with
        opened := Function.update s.opened fp (s.opened fp + 1)
        lastf := fp + 1 }

/-! ## Closing -/

/-- What a process goes on with after `closef`. -/
def after (s : State) (p : ℕ) : Cont → State
  | .close => s.setPc p .idle
  | .dup2 i j fp =>
    if s.u_error p = none then (dupit s p j fp (s.u_pofile p i)).setPc p .idle
    else s.setPc p .idle

/-- Give up a reference to an entry; with the last one, `fo_close` is called. -/
def closef (s : State) (p fp : ℕ) (k : Cont) : State :=
  if s.f_count fp > 1 then after (s.setCount fp (toShort (s.f_count fp - 1))) p k
  else if s.f_count fp < 1 then { s with panicked := true }
  else { s.setPc p (.closing fp k) with
    closed := Function.update s.closed fp (s.closed fp + 1) }

/-- `fo_close` is done, and may have failed: the entry is free. -/
def closed (s : State) (p fp : ℕ) (k : Cont) (e : Option Errno) : State :=
  after { (s.setError p e).setCount fp 0 with
    freed := Function.update s.freed fp (s.freed fp + 1) } p k

/-! ## System calls -/

def dup2 (s : State) (p : ℕ) (i j : ℤ) : State :=
  match getf s p i with
  | none => s.setError p (some .ebadf)
  | some fp =>
    if j < 0 ∨ NOFILE ≤ j then s.setError p (some .ebadf)
    else
      let s := { s with u_rval1 := Function.update s.u_rval1 p j.toNat }
      if i = j then s
      else
        match s.u_ofile p j.toNat with
        | some old => closef s p old (.dup2 i.toNat j.toNat fp)
        | none => after s p (.dup2 i.toNat j.toNat fp)

/-- `dup` is `dup2`, of the low bits of its argument, if there are others. -/
def dup (s : State) (p : ℕ) (i j : ℤ) : State :=
  if i < 0 ∨ 64 ≤ i then dup2 s p (i % 64) j
  else
    match getf s p i with
    | none => s.setError p (some .ebadf)
    | some fp =>
      match ufalloc s p 0 with
      | (none, s) => s
      | (some j, s) => dupit s p j fp (s.u_pofile p i.toNat)

/-- `fcntl` with the command `F_DUPFD`. -/
def fcntlDupfd (s : State) (p : ℕ) (fdes arg : ℤ) : State :=
  match getf s p fdes with
  | none => s.setError p (some .ebadf)
  | some fp =>
    if arg < 0 ∨ NOFILE ≤ arg then s.setError p (some .einval)
    else
      match ufalloc s p arg.toNat with
      | (none, s) => s
      | (some i, s) => dupit s p i fp (s.u_pofile p fdes.toNat)

def close (s : State) (p : ℕ) (i : ℤ) : State :=
  match getf s p i with
  | none => s.setError p (some .ebadf)
  | some fp => closef ((s.setFile p i.toNat none).setFlags p i.toNat 0) p fp .close

/-- One more reference for each of the descriptors `fds` of a process. -/
def holdFiles (u : ℕ → Option ℕ) (fds : List ℕ) (f_count : ℕ → ℤ) : ℕ → ℤ :=
  fds.foldl (fun c n =>
    match u n with
    | some fp => Function.update c fp (toShort (c fp + 1))
    | none => c) f_count

/-- A child, `q`, gets the descriptors of a process. -/
def newproc (s : State) (p q : ℕ) : State :=
  { s with
    f_count := holdFiles (s.u_ofile p) (List.range NOFILE) s.f_count
    u_ofile := Function.update s.u_ofile q (s.u_ofile p)
    u_pofile := Function.update s.u_pofile q (s.u_pofile p) }

/-! ## The machine -/

/-- The calls of a process, and the end of an `fo_close`. -/
inductive Act
  | falloc (p : ℕ)
  | dup (p : ℕ) (i j : ℤ)
  | dup2 (p : ℕ) (i j : ℤ)
  | fcntl (p : ℕ) (fdes arg : ℤ)
  | close (p : ℕ) (i : ℤ)
  | newproc (p q : ℕ)
  | closed (p : ℕ) (e : Option Errno)

/-- The process that calls. -/
def Act.caller : Act → ℕ
  | .falloc p | .dup p _ _ | .dup2 p _ _ | .fcntl p _ _ | .close p _ | .newproc p _ | .closed p _ =>
    p

/-- A process without descriptors, outside: there may be a new one in its place. -/
def State.Fresh (s : State) (q : ℕ) : Prop :=
  s.pc q = .idle ∧ ∀ fd < NOFILE, s.u_ofile q fd = none

instance (s : State) (q : ℕ) : Decidable (s.Fresh q) :=
  inferInstanceAs (Decidable (_ ∧ ∀ fd < NOFILE, _))

/-- A call of a process that is outside, without an error yet. -/
def call (s : State) : Act → Option State
  | .falloc p => some (falloc v s p)
  | .dup p i j => some (dup s p i j)
  | .dup2 p i j => some (dup2 s p i j)
  | .fcntl p fdes arg => some (fcntlDupfd s p fdes arg)
  | .close p i => some (close s p i)
  | .newproc p q => if q < v.nproc ∧ q ≠ p ∧ s.Fresh q then some (newproc s p q) else none
  | .closed _ _ => none

/-- A process goes on. -/
def step (s : State) (a : Act) : Option State :=
  if s.panicked ∨ v.nproc ≤ a.caller then none
  else
    match s.pc a.caller, a with
    | .closing fp k, .closed p e => some (closed s p fp k e)
    | .closing _ _, _ => none
    | .idle, a => call v (s.setError a.caller none) a

/-- The file table under the calls of all processes; all entries are free in the
    beginning. -/
def files : Machine State Act where
  init s := s = ⟨fun _ => 0, 0, fun _ _ => none, fun _ _ => 0, fun _ => none, fun _ => 0,
    fun _ => .idle, false, fun _ => 0, fun _ => 0, fun _ => 0⟩
  next := step v

end AuxKernel.FileTable
