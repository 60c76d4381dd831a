import AuxKernel.System
import AuxKernel.Basic

/-!
# Semaphores

`semop` and the calls around it (`PAGING/os/sem.c`). The operations of a call are
done one by one, with the adjustments to be made when the process exits; one that
cannot be done undoes those before it. A call that sleeps does them anew, from the
first on, when it wakes up: a *pass* is what it does up to there.

The undo structures of the processes are lists of entries; the free ones are
counted, and the active ones listed by their processes.
-/

namespace AuxKernel.Semaphores

/-- The configuration. Values of semaphores are stored in a `ushort`. -/
structure Config where
  semmni : ℤ
  semopm : ℕ
  semume : ℕ
  semvmx : ℤ
  semaem : ℤ
  semvmx_nonneg : 0 ≤ semvmx
  fits : semvmx < 2 ^ 16

/-- A set of semaphores. -/
structure Semid where
  alloc : Bool
  seq : ℤ
  sem_base : ℕ
  sem_nsems : ℕ
  deriving DecidableEq, Repr

/-- A semaphore. -/
structure Sem where
  semval : ℤ
  sempid : ℤ
  semncnt : ℤ
  semzcnt : ℤ
  deriving DecidableEq, Repr

/-- An undo entry: what to add to a semaphore when the process exits. -/
structure Undo where
  un_aoe : ℤ
  un_num : ℤ
  un_id : ℤ
  deriving DecidableEq, Repr

/-- The tables of the sets, the semaphores and the undo structures. -/
structure State where
  sema : ℤ → Semid
  sem : ℕ → Sem
  sem_undo : ℕ → Option (List Undo)
  semunp : List ℕ
  nfree : ℕ

/-- The undo entries of a process. -/
def State.entries (s : State) (p : ℕ) : List Undo := (s.sem_undo p).getD []

/-- An operation. `SEM_UNDO` and `IPC_NOWAIT` are its flags. -/
structure Sembuf where
  sem_num : ℕ
  sem_op : ℤ
  undo : Bool
  nowait : Bool
  isShort : -2 ^ 15 ≤ sem_op ∧ sem_op < 2 ^ 15

variable (v : Config)

/-! ## Adjustments -/

/-- The entry comes before those of the semaphore `num` of the set `id`. -/
def Undo.Before (id num : ℤ) (e : Undo) : Prop := e.un_id < id ∨ e.un_id = id ∧ e.un_num < num

instance (id num : ℤ) (e : Undo) : Decidable (e.Before id num) :=
  inferInstanceAs (Decidable (_ ∨ _))

/-- Create, update or delete the entry of a semaphore. No entry can be created when
    they are `full`. -/
def adjust (full : Bool) (val id num : ℤ) : List Undo → Except Errno (List Undo)
  | [] => if full then .error .einval else .ok [⟨toShort (-val), num, id⟩]
  | e :: l =>
    if e.Before id num then (adjust full val id num l).map (e :: ·)
    else if e.un_id = id ∧ e.un_num = num then
      let aoe := toShort (e.un_aoe - val)
      if aoe > v.semaem ∨ aoe < -v.semaem then .error .erange
      else if aoe = 0 then .ok l
      else .ok ({ e with un_aoe := aoe } :: l)
    else if full then .error .einval
    else .ok (⟨toShort (-val), num, id⟩ :: e :: l)

/-- Adjust the entries `l` of a process, which gets on or off the list of the active
    ones by it. -/
def adjustEntries (p : ℕ) (val id num : ℤ) (l : List Undo) (s : State) : Option Errno × State :=
  match adjust v (l.length ≥ v.semume) val id num l with
  | .error e => (some e, s)
  | .ok l' => (none, { s with
      sem_undo := Function.update s.sem_undo p (some l')
      semunp := if l = [] then p :: s.semunp
        else if l' = [] then s.semunp.erase p
        else s.semunp })

/-- Create or update the adjust on exit entry of a process. -/
def semaoe (p : ℕ) (val id num : ℤ) (s : State) : Option Errno × State :=
  if val = 0 then (none, s)
  else if val > v.semaem ∨ val < -v.semaem then (some .erange, s)
  else
    match s.sem_undo p with
    | some l => adjustEntries v p val id num l s
    | none =>
      if s.nfree = 0 then (some .enospc, s)
      else adjustEntries v p val id num []
        { s with sem_undo := Function.update s.sem_undo p (some []), nfree := s.nfree - 1 }

/-! ## Operations -/

/-- Change a semaphore. -/
def State.set (s : State) (i : ℕ) (x : Sem) : State :=
  { s with sem := Function.update s.sem i x }

/-- How a pass ends: all is done, or it fails, or it sleeps, for a greater value or
    for zero. -/
inductive Outcome
  | done
  | error (e : Errno)
  | sleepn
  | sleepz
  deriving DecidableEq, Repr

/-- Who does the operations on what: a process, a set, and its first semaphore. -/
structure Target where
  p : ℕ
  id : ℤ
  base : ℕ
  deriving DecidableEq, Repr

/-- Make the adjustment of an operation, if it wants one. -/
def semadj (c : Target) (op : Sembuf) (s : State) : Option Errno × State :=
  if op.undo then semaoe v c.p op.sem_op c.id (toShort op.sem_num) s else (none, s)

/-- Do an operation, unless it is not possible. -/
def doOp (c : Target) (op : Sembuf) (s : State) : Outcome × State :=
  let i := c.base + op.sem_num
  let semp := s.sem i
  if op.sem_op > 0 then
    if op.sem_op + semp.semval > v.semvmx then (.error .erange, s)
    else
      match semadj v c op s with
      | (some e, s) => (.error e, s)
      | (none, s) => (.done, s.set i
          { semp with semval := toUshort (semp.semval + op.sem_op), semncnt := 0 })
  else if op.sem_op < 0 then
    if semp.semval ≥ -op.sem_op then
      match semadj v c op s with
      | (some e, s) => (.error e, s)
      | (none, s) =>
        let semval := toUshort (semp.semval + op.sem_op)
        (.done, s.set i
          { semp with semval := semval, semzcnt := if semval = 0 then 0 else semp.semzcnt })
    else (.sleepn, s)
  else if semp.semval ≠ 0 then (.sleepz, s)
  else (.done, s)

/-- Make the adjustment of an operation the other way round. -/
def unadj (c : Target) (op : Sembuf) (s : State) : State :=
  if op.undo then (semaoe v c.p (toShort (-op.sem_op)) c.id (toShort op.sem_num) s).2 else s

/-- Undo an operation. -/
def undoOp (c : Target) (op : Sembuf) (s : State) : State :=
  let i := c.base + op.sem_num
  if op.sem_op = 0 then s
  else unadj v c op
    (s.set i { s.sem i with semval := toUshort ((s.sem i).semval - op.sem_op) })

/-- Undo the operations that were done, the last one first. -/
def semundo (c : Target) : List Sembuf → State → State
  | [], s => s
  | op :: ops, s => semundo c ops (undoOp v c op s)

/-- The end of a pass at an operation that is not possible. -/
def stopAt (c : Target) (op : Sembuf) (o : Outcome) (s : State) : Outcome × State :=
  let i := c.base + op.sem_num
  match o with
  | .sleepn =>
    if op.nowait then (.error .eagain, s)
    else (.sleepn, s.set i { s.sem i with semncnt := toShort ((s.sem i).semncnt + 1) })
  | .sleepz =>
    if op.nowait then (.error .eagain, s)
    else (.sleepz, s.set i { s.sem i with semzcnt := toShort ((s.sem i).semzcnt + 1) })
  | o => (o, s)

/-- Do operations, behind those that are `done`, the last one first. -/
def doOps (c : Target) : List Sembuf → List Sembuf → State → Outcome × State
  | _, [], s => (.done, s)
  | done, op :: ops, s =>
    match doOp v c op s with
    | (.done, s) => doOps c (op :: done) ops s
    | (o, s) => stopAt c op o (semundo v c done s)

/-! ## Calls -/

/-- The set of an identifier, if there is one. -/
def semconv (s : State) (id : ℤ) : Option Semid :=
  let sp := s.sema (id % v.semmni)
  if id < 0 ∨ ¬sp.alloc ∨ id / v.semmni ≠ sp.seq then none else some sp

/-- A pass of a call of `semop`: the process and its number, the arguments, whether
    it slept `again`, what it has access to, and whether the operations cannot be
    copied in. -/
structure Call where
  p : ℕ
  pid : ℤ
  semid : ℤ
  sops : List Sembuf
  again : Bool
  access : Sembuf → Bool
  fault : Bool

/-- Why an operation must not be done. -/
def denied (c : Call) (sp : Semid) (op : Sembuf) : Option Errno :=
  if ¬c.access op then some .eacces
  else if op.sem_num ≥ sp.sem_nsems then some .efbig
  else none

/-- Note who did the last operation on a semaphore. -/
def setpid (pid : ℤ) (i : ℕ) (s : State) : State := s.set i { s.sem i with sempid := pid }

/-- A pass of `semop`. -/
def semop (c : Call) (s : State) : Outcome × State :=
  match semconv v s c.semid with
  | none => (.error (if c.again then .eidrm else .einval), s)
  | some sp =>
    if ¬c.again ∧ c.sops.length > v.semopm then (.error .e2big, s)
    else if c.fault then (.error .efault, s)
    else
      match if c.again then none else c.sops.findSome? (denied c sp) with
      | some e => (.error e, s)
      | none =>
        match doOps v ⟨c.p, c.semid, sp.sem_base⟩ [] c.sops s with
        | (.done, s) =>
          (.done, c.sops.foldl (fun s op => setpid c.pid (sp.sem_base + op.sem_num) s) s)
        | (o, s) => (o, s)

/-- Remove the entries of the semaphores from `low` to `high` of the set `id`. -/
def unrm (id low high : ℤ) : List Undo → List Undo
  | [] => []
  | e :: l =>
    if id < e.un_id then e :: l
    else if id > e.un_id ∨ low > e.un_num then e :: unrm id low high l
    else if high < e.un_num then e :: l
    else unrm id low high l

/-- Remove entries of all active undo structures. -/
def semunrm (id low high : ℤ) (s : State) : State :=
  { s with
    sem_undo p := if p ∈ s.semunp then (s.sem_undo p).map (unrm id low high) else s.sem_undo p
    semunp := s.semunp.filter fun p => unrm id low high (s.entries p) ≠ [] }

/-- Set the value of a semaphore, and wake up who waits for it. -/
def setSem (val pid : ℤ) (i : ℕ) (s : State) : State :=
  s.set i ⟨toUshort val, pid, if toUshort val = 0 then (s.sem i).semncnt else 0,
    if toUshort val = 0 then 0 else (s.sem i).semzcnt⟩

/-- `SETVAL`. -/
def setval (pid id : ℤ) (num val : ℕ) (s : State) : State :=
  match semconv v s id with
  | none => s
  | some sp =>
    if num ≥ sp.sem_nsems ∨ val > v.semvmx then s
    else semunrm id num num (setSem val pid (sp.sem_base + num) s)

/-- Set the values of semaphores from `i` on. -/
def setSems (pid : ℤ) : List ℤ → ℕ → State → State
  | [], _, s => s
  | val :: vals, i, s => setSems pid vals (i + 1) (setSem val pid i s)

/-- `SETALL`. -/
def setall (pid id : ℤ) (vals : List ℕ) (s : State) : State :=
  match semconv v s id with
  | none => s
  | some sp =>
    if (vals.take sp.sem_nsems).any fun val => val > v.semvmx then s
    else setSems pid ((vals.take sp.sem_nsems).map (↑)) sp.sem_base (semunrm id 0 sp.sem_nsems s)

/-- `IPC_RMID`. -/
def rmid (id : ℤ) (s : State) : State :=
  match semconv v s id with
  | none => s
  | some sp =>
    let s := semunrm id 0 sp.sem_nsems s
    { s with
      sem i := if sp.sem_base ≤ i ∧ i < sp.sem_base + sp.sem_nsems then ⟨0, 0, 0, 0⟩ else s.sem i
      sema := Function.update s.sema (id % v.semmni)
        { sp with alloc := false, seq := if id + v.semmni < 2 ^ 31 then toUshort (sp.seq + 1) else 0 } }

/-- `semget`, which makes a new set of the slot `i`. -/
def semget (i : ℤ) (base nsems : ℕ) (s : State) : State :=
  { s with
    sema := Function.update s.sema i
      { s.sema i with alloc := true, sem_base := base, sem_nsems := nsems } }

/-- Make the adjustment of an entry when its process exits. -/
def adjustOnExit (s : State) (e : Undo) : State :=
  match semconv v s e.un_id with
  | none => s
  | some sp =>
    let i := (sp.sem_base + e.un_num).toNat
    let semp := s.sem i
    let val := semp.semval + e.un_aoe
    if val < 0 ∨ val > v.semvmx then s
    else s.set i { semp with
      semval := toUshort val
      semzcnt := if val = 0 then 0 else semp.semzcnt
      semncnt := if e.un_aoe > 0 then 0 else semp.semncnt }

/-- Clean up when a process exits, from the last entry on. -/
def semexit (p : ℕ) (s : State) : State :=
  match s.sem_undo p with
  | none => s
  | some l =>
    let s := l.reverse.foldl (adjustOnExit v) s
    { s with
      sem_undo := Function.update s.sem_undo p none
      semunp := s.semunp.erase p
      nfree := s.nfree + 1 }

/-! ## The machine -/

/-- What happens: passes of `semop`, the interruption of one that sleeps on a
    semaphore (for zero or not), and the other calls; those that are refused change
    nothing. -/
inductive Act
  | semop (c : Call)
  | eintr (i : ℕ) (zero : Bool)
  | setval (pid id : ℤ) (num val : ℕ)
  | setall (pid id : ℤ) (vals : List ℕ)
  | rmid (id : ℤ)
  | semget (i : ℤ) (base nsems : ℕ)
  | semexit (p : ℕ)

/-- A process that slept is interrupted. -/
def eintr (i : ℕ) (zero : Bool) (s : State) : State :=
  let semp := s.sem i
  s.set i (if zero then { semp with semzcnt := max 0 (toShort (semp.semzcnt - 1)) }
    else { semp with semncnt := max 0 (toShort (semp.semncnt - 1)) })

/-- The semaphores of the system. -/
def semaphores : Machine State Act where
  init s := (∀ i, s.sem i = ⟨0, 0, 0, 0⟩) ∧ (∀ i, s.sema i = ⟨false, 0, 0, 0⟩) ∧
    (∀ p, s.sem_undo p = none) ∧ s.semunp = []
  next s
    | .semop c => some (semop v c s).2
    | .eintr i zero => some (eintr i zero s)
    | .setval pid id num val => some (setval v pid id num val s)
    | .setall pid id vals => some (setall v pid id vals s)
    | .rmid id => some (rmid v id s)
    | .semget i base nsems => some (semget i base nsems s)
    | .semexit p => some (semexit v p s)

end AuxKernel.Semaphores
