import AuxKernel.LinkedList
import AuxKernel.RecordLock.Query

/-!
# The lists of lock headers

The record lock calls with the headers as `COMMON/os/flock.c` has them: those in use are doubly
linked from `fids` on, the free ones from `frfid` on, and a header is found by walking along
`fids`. A walk with more steps than there are headers is `none`.

The chains of records are lists, as in `RecordLock.Basic`; `nfrlock` records are on `frlock`. A
call that sleeps has its header and its record in `sleeplcks`.
-/

namespace AuxKernel.RecordLock.Headers

/-- The configuration: how many headers there are, and how many records. -/
structure Config where
  fils : ℕ
  recs : ℕ

/-- A header. -/
structure Flino where
  fl_dev : ℤ
  fl_number : ℤ
  fl_refcnt : ℤ
  fl_flck : List Filock
  prev : Option ℕ
  next : Option ℕ

/-- A call that sleeps in `setflck`, with its header and its record. -/
structure Waiter extends Sleeper where
  flip : ℕ

/-- The headers, the first ones in use and free, how many records are free, and the sleepers. -/
structure Table where
  flinotab : ℕ → Flino
  fids : Option ℕ
  frfid : Option ℕ
  nfrlock : ℕ
  sleeplcks : List Waiter

namespace Table

/-- Change a header. -/
def setFlino (s : Table) (a : ℕ) (x : Flino) : Table :=
  { s with flinotab := Function.update s.flinotab a x }

/-- Change the header before one, if there is one. -/
def setNext (s : Table) (a : Option ℕ) (p : Option ℕ) : Table :=
  match a with
  | none => s
  | some a => s.setFlino a { s.flinotab a with next := p }

/-- Change the header behind one, if there is one. -/
def setPrev (s : Table) (a : Option ℕ) (p : Option ℕ) : Table :=
  match a with
  | none => s
  | some a => s.setFlino a { s.flinotab a with prev := p }

end Table

variable (v : Config)

/-! ## Headers -/

/-- The loop of `findfid`, from a header on, for at most `n` headers. -/
def findLoop (id : ℤ × ℤ) (s : Table) : ℕ → Option ℕ → Option (Option ℕ)
  | _, none => some none
  | 0, some _ => none
  | n + 1, some a =>
    let x := s.flinotab a
    if x.fl_dev = id.1 ∧ x.fl_number = id.2 then some (some a) else findLoop id s n x.next

/-- Hold a header. -/
def hold (a : ℕ) (s : Table) : Table :=
  s.setFlino a { s.flinotab a with fl_refcnt := (s.flinotab a).fl_refcnt + 1 }

/-- Find the header of a file, and hold it. -/
def findfid (id : ℤ × ℤ) (s : Table) : Option (Option ℕ × Table) :=
  (findLoop id s v.fils s.fids).map fun
    | none => (none, s)
    | some a => (some a, hold a s)

/-- Give a file the first free header. -/
def allocfid (id : ℤ × ℤ) (s : Table) : Option ℕ × Table :=
  match s.frfid with
  | none => (none, s)
  | some a =>
    -- off the free list
    let s := { s with frfid := (s.flinotab a).next }
    let s := s.setPrev s.frfid none
    -- in front of those in use
    let s := s.setPrev s.fids (some a)
    let s := { s.setFlino a { s.flinotab a with next := s.fids } with fids := some a }
    (some a, s.setFlino a { s.flinotab a with
      fl_refcnt := (s.flinotab a).fl_refcnt + 1, fl_dev := id.1, fl_number := id.2 })

/-- Let a header go; it is free again once nobody needs it. -/
def freefid (a : ℕ) (s : Table) : Table :=
  let s := s.setFlino a { s.flinotab a with fl_refcnt := (s.flinotab a).fl_refcnt - 1 }
  let x := s.flinotab a
  if x.fl_refcnt ≤ 0 ∧ x.fl_flck = [] then
    let s := match x.prev with
      | some _ => s.setNext x.prev x.next
      | none => { s with fids := x.next }
    let s := s.setPrev x.next x.prev
    let s := s.setFlino a { s.flinotab a with fl_dev := 0, fl_number := 0, fl_refcnt := 0 }
    let s := s.setPrev s.frfid (some a)
    { s.setFlino a { s.flinotab a with next := s.frfid, prev := none } with frfid := some a }
  else s

/-! ## A pass of `setflck` -/

/-- Change the chain of a header. -/
def setChain (a : ℕ) (chain : List Filock) (s : Table) : Table :=
  s.setFlino a { s.flinotab a with fl_flck := chain }

/-- Adjust the chain of a header for a request. -/
def adjust (pid : ℤ) (a : ℕ) (ld : Flock) (insrt : ℕ) (s : Table) : Table × Outcome :=
  let r := flckadj pid (s.flinotab a).fl_flck s.nfrlock insrt ld
  ({ setChain a r.1 s with nfrlock := r.2.1 }, .ret r.2.2)

/-- The process that the record pointed to by `found` belongs to. -/
def owner (chain : List Filock) (found : ℕ) : ℤ :=
  (chain[found - 1]?.map fun f => f.set.l_pid).getD 0

/-- A pass for a lock: it is granted, refused, or its process sleeps on the record that blocks
    it; `none` if the deadlock detection goes round forever. -/
def lockPass (pid : ℤ) (id : ℤ × ℤ) (a : ℕ) (ld : Flock) (slpflg : Bool) (s : Table) :
    Option (Table × Outcome) :=
  let chain := (s.flinotab a).fl_flck
  match blocked pid chain ld with
  | (none, insrt) => some (adjust pid a ld insrt s)
  | (some found, _) =>
    if slpflg then
      match deadflck (s.sleeplcks.map Waiter.toSleeper) pid (owner chain found), s.nfrlock with
      | none, _ => none
      | some true, _ => some (s, .ret (some .edeadlk))
      | some false, 0 => some (s, .ret (some .enospc))
      | some false, n + 1 => some ({ setChain a (wakeflgUp chain found) s with
          nfrlock := n
          sleeplcks := ⟨⟨id, ⟨{ ld with l_pid := pid }, owner chain found⟩⟩, a⟩ :: s.sleeplcks },
          .sleep)
    else some (s, .ret (some .eacces))

/-- A pass of the loop of `setflck`, with its header held. -/
def pass (pid : ℤ) (id : ℤ × ℤ) (a : ℕ) (ld : Flock) (slpflg : Bool) (s : Table) :
    Option (Table × Outcome) :=
  match ld.l_type with
  | .rdlck | .wrlck => lockPass pid id a ld slpflg s
  | .unlck => some (adjust pid a ld (min 1 (s.flinotab a).fl_flck.length) s)
  | .other _ => some (s, .ret (some .einval))

/-- The end of a pass: a call that returns lets its header go. -/
def endPass (a : ℕ) (r : Table × Outcome) : Table :=
  match r.2 with
  | .ret _ => freefid a r.1
  | .sleep => r.1

/-! ## Calls -/

/-- A call of `setflck`, up to its return or its first sleep. -/
def setflck (pid : ℤ) (fp : File) (lckdat : Flock) (slpflg : Bool) (s : Table) : Option Table :=
  match request fp lckdat with
  | .error _ => some s
  | .ok ld => (findfid v fp.id s).bind fun r =>
    match r.1 with
    | some a => (pass pid fp.id a ld slpflg r.2).map (endPass a)
    | none =>
      if ld.l_type = .unlck then some s
      else
        let r := allocfid fp.id s
        match r.1 with
        | none => some s
        | some a => (pass pid fp.id a ld slpflg r.2).map (endPass a)

/-- A process goes on after its sleep in `setflck`. -/
def resume (k : ℕ) (intr : Bool) (s : Table) : Option Table :=
  s.sleeplcks[k]?.bind fun w =>
    let s := { s with sleeplcks := s.sleeplcks.eraseIdx k, nfrlock := s.nfrlock + 1 }
    if intr then some (freefid w.flip s)
    else (pass w.sf.set.l_pid w.id w.flip w.sf.set true s).map (endPass w.flip)

/-- What `getflck` leaves of the table, and what it returns. -/
def getflck (pid : ℤ) (fp : File) (lckdat : Flock) (s : Table) :
    Option (Table × Except Errno Flock) :=
  if !fp.isVnode then some (s, .error .eopnotsupp)
  else if !fp.isSvfs then some (s, .error .eremote)
  else (findfid v fp.id s).map fun r =>
    match r.1 with
    | none => (s, .ok { lckdat with l_type := .unlck })
    | some a =>
      match convoff fp lckdat 0 with
      | .error e => (r.2, .error e)
      | .ok ld =>
        let ld :=
          if ld.l_len = 0 then { ld with l_len := MAXEND }
          else { ld with l_len := toLong (ld.l_len + ld.l_start) }
        let ld := foundOr pid (r.2.flinotab a).fl_flck ld
        (freefid a r.2, convoff fp (restoreLen ld) lckdat.l_whence)

/-- A process closes a file: its locks on it are deleted. -/
def cleanlocks (pid : ℤ) (fp : File) (s : Table) : Option Table :=
  if fp.isVnode && fp.isSvfs then
    (findfid v fp.id s).map fun r =>
      match r.1 with
      | none => s
      | some a =>
        let chain := (r.2.flinotab a).fl_flck
        let kept := chain.filter fun f => f.set.l_pid ≠ pid
        freefid a { setChain a kept r.2 with
          nfrlock := r.2.nfrlock + (chain.length - kept.length) }
  else some s

/-! ## The machine -/

/-- What processes do: calls of `setflck`, `getflck` and `cleanlocks`, and going on with one
    after sleeping on the `k`-th sleeping record, or being interrupted. -/
inductive Act
  | setflck (pid : ℤ) (fp : File) (lckdat : Flock) (slpflg : Bool)
  | resume (k : ℕ) (intr : Bool)
  | getflck (pid : ℤ) (fp : File) (lckdat : Flock)
  | cleanlocks (pid : ℤ) (fp : File)

/-- The lists under the calls of all processes. At first all headers and records are free. -/
def headers : Machine Table Act where
  init s := (∀ a, (s.flinotab a).fl_refcnt = 0 ∧ (s.flinotab a).fl_flck = []) ∧ s.fids = none ∧
    (∃ l, List.Perm l (List.range v.fils) ∧ s.frfid = l.head? ∧
      Linked (fun a => (s.flinotab a).next) (fun a => (s.flinotab a).prev) none l) ∧
    s.nfrlock = v.recs ∧ s.sleeplcks = []
  next s
    | .setflck pid fp lckdat slpflg => setflck v pid fp lckdat slpflg s
    | .resume k intr => resume k intr s
    | .getflck pid fp lckdat => (getflck v pid fp lckdat s).map Prod.fst
    | .cleanlocks pid fp => cleanlocks v pid fp s

end AuxKernel.RecordLock.Headers
