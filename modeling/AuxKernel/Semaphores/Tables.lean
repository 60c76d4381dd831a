import AuxKernel.LinkedList
import AuxKernel.Semaphores.Adjust

/-!
# The undo structures of semaphores

The calls of `Semaphores.Basic` with the undo structures as `PAGING/os/sem.c` has them: an
array of entries with a count for each, which is shifted when an entry goes in or out; those
with entries are linked by `un_np` from `semunp` on, and those of no process from `semfup` on.
Following a null pointer is `none`, and so is a walk along a chain with more steps than there
are structures.

The machine (`undos`) remembers when each entry was made, and when the value of each semaphore
was last reset, by `SETVAL`, `SETALL` or `IPC_RMID`.
-/

namespace AuxKernel.Semaphores.Tables

/-- The configuration: also how many undo structures there are, and how many semaphores
    a set can have. Their numbers are stored in a `short`. -/
structure Config extends Semaphores.Config where
  semmnu : ℕ
  semmsl : ℕ
  semmsl_short : semmsl ≤ 2 ^ 15

/-- An undo structure. -/
structure SemUndo where
  un_np : Option ℕ
  un_cnt : ℕ
  un_ent : ℕ → Undo

/-- The sets, the semaphores, the undo structures, and those of the processes. -/
structure Tables where
  sema : ℤ → Semid
  sem : ℕ → Sem
  semu : ℕ → SemUndo
  sem_undo : ℕ → Option ℕ
  semunp : Option ℕ
  semfup : Option ℕ

namespace Tables

/-- Change a semaphore. -/
def setSem (s : Tables) (i : ℕ) (x : Sem) : Tables := { s with sem := Function.update s.sem i x }

/-- Change an undo structure. -/
def setUndo (s : Tables) (u : ℕ) (x : SemUndo) : Tables :=
  { s with semu := Function.update s.semu u x }

/-- Change the chain that an undo structure is on. -/
def setNp (s : Tables) (u : ℕ) (p : Option ℕ) : Tables :=
  s.setUndo u { s.semu u with un_np := p }

end Tables

variable (v : Config)

/-! ## Adjustments -/

/-- The undo structure of a process, which gets a free one if it has none. -/
def attach (p : ℕ) (s : Tables) : Option (ℕ × Tables) :=
  match s.sem_undo p with
  | some up => some (up, s)
  | none => s.semfup.map fun up => (up, { s.setNp up none with
      semfup := (s.semu up).un_np
      sem_undo := Function.update s.sem_undo p (some up) })

/-- The place of an entry, from `i` on among `n`, and whether it is there. -/
def scan (ent : ℕ → Undo) (id num : ℤ) : ℕ → ℕ → ℕ × Bool
  | 0, i => (i, false)
  | n + 1, i =>
    if (ent i).Before id num then scan ent id num n (i + 1)
    else (i, (ent i).un_id = id && (ent i).un_num = num)

/-- Shift the entries from `i` up to `m` by one, from the last on. -/
def shiftUp (i : ℕ) : ℕ → (ℕ → Undo) → ℕ → Undo
  | 0, ent => ent
  | m + 1, ent => if m + 1 > i then shiftUp i m (Function.update ent (m + 1) (ent m)) else ent

/-- Shift `n` entries down by one, to `i`. -/
def shiftDown : ℕ → ℕ → (ℕ → Undo) → ℕ → Undo
  | 0, _, ent => ent
  | n + 1, i, ent => shiftDown n (i + 1) (Function.update ent i (ent (i + 1)))

/-- Insert an entry. -/
def insert (up i : ℕ) (e : Undo) (s : Tables) : Tables :=
  let s := if (s.semu up).un_cnt = 0 then { s.setNp up s.semunp with semunp := some up } else s
  let x := s.semu up
  s.setUndo up { x with
    un_cnt := x.un_cnt + 1
    un_ent := Function.update (shiftUp i x.un_cnt x.un_ent) i e }

/-- The loop of `unlink`, from a structure on. -/
def unlinkLoop (up : ℕ) : ℕ → Option ℕ → Tables → Option Tables
  | _, none, s => some s
  | 0, some _, _ => none
  | n + 1, some up2, s =>
    if (s.semu up2).un_np = some up then some (s.setNp up2 (s.semu up).un_np)
    else unlinkLoop up n (s.semu up2).un_np s

/-- Take a structure off the chain of those with entries. -/
def unlink (up : ℕ) (s : Tables) : Option Tables :=
  if s.semunp = some up then some { s with semunp := (s.semu up).un_np }
  else unlinkLoop up v.semmnu s.semunp s

/-- Delete an entry. -/
def delete (up i : ℕ) (s : Tables) : Option Tables :=
  let x := s.semu up
  let cnt := x.un_cnt - 1
  let s := s.setUndo up { x with un_cnt := cnt, un_ent := shiftDown (cnt - i) i x.un_ent }
  if cnt = 0 then (unlink v up s).map fun s => s.setNp up none else some s

/-- Set the value of an entry. -/
def setAoe (up i : ℕ) (aoe : ℤ) (s : Tables) : Tables :=
  let x := s.semu up
  s.setUndo up { x with un_ent := Function.update x.un_ent i { x.un_ent i with un_aoe := aoe } }

/-- Create or update the adjust on exit entry of a process. -/
def semaoe (p : ℕ) (val id num : ℤ) (s : Tables) : Option (Option Errno × Tables) :=
  if val = 0 then some (none, s)
  else if val > v.semaem ∨ val < -v.semaem then some (some .erange, s)
  else
    match attach p s with
    | none => some (some .enospc, s)
    | some (up, s) =>
      let x := s.semu up
      let (i, found) := scan x.un_ent id num x.un_cnt 0
      if ¬found then
        if x.un_cnt ≥ v.semume then some (some .einval, s)
        else some (none, insert up i ⟨toShort (-val), num, id⟩ s)
      else
        let aoe := toShort ((x.un_ent i).un_aoe - val)
        if aoe > v.semaem ∨ aoe < -v.semaem then
          some (some .erange, setAoe up i (toShort (aoe + val)) s)
        else if aoe = 0 then (delete v up i (setAoe up i aoe s)).map fun s => (none, s)
        else some (none, setAoe up i aoe s)

/-! ## Operations -/

/-- Make the adjustment of an operation, if it wants one. -/
def semadj (c : Target) (op : Sembuf) (s : Tables) : Option (Option Errno × Tables) :=
  if op.undo then semaoe v c.p op.sem_op c.id (toShort op.sem_num) s else some (none, s)

/-- What follows the adjustment: the semaphore is changed, unless it failed. -/
def change (i : ℕ) (x : Sem) (r : Option Errno × Tables) : Outcome × Tables :=
  match r.1 with
  | some e => (.error e, r.2)
  | none => (.done, r.2.setSem i x)

/-- Do an operation, unless it is not possible. -/
def doOp (c : Target) (op : Sembuf) (s : Tables) : Option (Outcome × Tables) :=
  let i := c.base + op.sem_num
  let semp := s.sem i
  let semval := toUshort (semp.semval + op.sem_op)
  if op.sem_op > 0 then
    if op.sem_op + semp.semval > v.semvmx then some (.error .erange, s)
    else (semadj v c op s).map (change i { semp with semval := semval, semncnt := 0 })
  else if op.sem_op < 0 then
    if semp.semval ≥ -op.sem_op then
      (semadj v c op s).map (change i
        { semp with semval := semval, semzcnt := if semval = 0 then 0 else semp.semzcnt })
    else some (.sleepn, s)
  else if semp.semval ≠ 0 then some (.sleepz, s)
  else some (.done, s)

/-- Make the adjustment of an operation the other way round. -/
def unadj (c : Target) (op : Sembuf) (s : Tables) : Option Tables :=
  if op.undo then
    (semaoe v c.p (toShort (-op.sem_op)) c.id (toShort op.sem_num) s).map Prod.snd
  else some s

/-- Undo an operation. -/
def undoOp (c : Target) (op : Sembuf) (s : Tables) : Option Tables :=
  let i := c.base + op.sem_num
  if op.sem_op = 0 then some s
  else unadj v c op
    (s.setSem i { s.sem i with semval := toUshort ((s.sem i).semval - op.sem_op) })

/-- Undo the operations that were done, the last one first. -/
def semundo (c : Target) : List Sembuf → Tables → Option Tables
  | [], s => some s
  | op :: ops, s => (undoOp v c op s).bind (semundo c ops)

/-- The end of a pass at an operation that is not possible. -/
def stopAt (c : Target) (op : Sembuf) (o : Outcome) (s : Tables) : Outcome × Tables :=
  let i := c.base + op.sem_num
  match o with
  | .sleepn =>
    if op.nowait then (.error .eagain, s)
    else (.sleepn, s.setSem i { s.sem i with semncnt := toShort ((s.sem i).semncnt + 1) })
  | .sleepz =>
    if op.nowait then (.error .eagain, s)
    else (.sleepz, s.setSem i { s.sem i with semzcnt := toShort ((s.sem i).semzcnt + 1) })
  | o => (o, s)

/-- Do operations, behind those that are `done`, the last one first. -/
def doOps (c : Target) : List Sembuf → List Sembuf → Tables → Option (Outcome × Tables)
  | _, [], s => some (.done, s)
  | done, op :: ops, s => (doOp v c op s).bind fun r =>
    if r.1 = .done then doOps c (op :: done) ops r.2
    else (semundo v c done r.2).map (stopAt c op r.1)

/-! ## Calls -/

/-- The set of an identifier, if there is one. -/
def semconv (s : Tables) (id : ℤ) : Option Semid :=
  let sp := s.sema (id % v.semmni)
  if id < 0 ∨ ¬sp.alloc ∨ id / v.semmni ≠ sp.seq then none else some sp

/-- Note who did the last operation on a semaphore. -/
def setpid (pid : ℤ) (i : ℕ) (s : Tables) : Tables :=
  s.setSem i { s.sem i with sempid := pid }

/-- A pass of `semop`. -/
def semop (c : Call) (s : Tables) : Option (Outcome × Tables) :=
  match semconv v s c.semid with
  | none => some (.error (if c.again then .eidrm else .einval), s)
  | some sp =>
    if ¬c.again ∧ c.sops.length > v.semopm then some (.error .e2big, s)
    else if c.fault then some (.error .efault, s)
    else
      match if c.again then none else c.sops.findSome? (denied c sp) with
      | some e => some (.error e, s)
      | none => (doOps v ⟨c.p, c.semid, sp.sem_base⟩ [] c.sops s).map fun r =>
        if r.1 = .done then
          (r.1, c.sops.foldl (fun s op => setpid c.pid (sp.sem_base + op.sem_num) s) r.2)
        else r

/-- The loop of `semunrm` over the entries of a structure, from `i` on, of `cnt`; at most `n`
    rounds. -/
def unrmLoop (id low high : ℤ) : ℕ → ℕ → ℕ → (ℕ → Undo) → ℕ × (ℕ → Undo)
  | 0, _, cnt, ent => (cnt, ent)
  | n + 1, i, cnt, ent =>
    if i ≥ cnt then (cnt, ent)
    else if id < (ent i).un_id then (cnt, ent)
    else if id > (ent i).un_id ∨ low > (ent i).un_num then unrmLoop id low high n (i + 1) cnt ent
    else if high < (ent i).un_num then (cnt, ent)
    else unrmLoop id low high n i (cnt - 1) (shiftDown (cnt - 1 - i) i ent)

/-- The loop of `semunrm` over the structures, from `p` on, behind `pp`. -/
def unrmChain (id low high : ℤ) : ℕ → Option ℕ → Option ℕ → Tables → Option Tables
  | _, _, none, s => some s
  | 0, _, some _, _ => none
  | n + 1, pp, some p, s =>
    let x := s.semu p
    let r := unrmLoop id low high x.un_cnt 0 x.un_cnt x.un_ent
    let s := s.setUndo p { x with un_cnt := r.1, un_ent := r.2 }
    if r.1 ≠ 0 then unrmChain id low high n (some p) (s.semu p).un_np s
    else
      match pp with
      | none =>
        let s := { s with semunp := (s.semu p).un_np }
        unrmChain id low high n none s.semunp (s.setNp p none)
      | some q =>
        let s := (s.setNp q (s.semu p).un_np).setNp p none
        unrmChain id low high n (some q) (s.semu q).un_np s

/-- Remove entries of all active undo structures. -/
def semunrm (id low high : ℤ) (s : Tables) : Option Tables :=
  unrmChain id low high v.semmnu none s.semunp s

/-- Set the value of a semaphore, and wake up who waits for it. -/
def setSem (val pid : ℤ) (i : ℕ) (s : Tables) : Tables :=
  s.setSem i ⟨toUshort val, pid, if toUshort val = 0 then (s.sem i).semncnt else 0,
    if toUshort val = 0 then 0 else (s.sem i).semzcnt⟩

/-- `SETVAL`. -/
def setval (pid id : ℤ) (num val : ℕ) (s : Tables) : Option Tables :=
  match semconv v s id with
  | none => some s
  | some sp =>
    if num ≥ sp.sem_nsems ∨ val > v.semvmx then some s
    else semunrm v id num num (setSem val pid (sp.sem_base + num) s)

/-- Set the values of semaphores from `i` on. -/
def setSems (pid : ℤ) : List ℤ → ℕ → Tables → Tables
  | [], _, s => s
  | val :: vals, i, s => setSems pid vals (i + 1) (setSem val pid i s)

/-- `SETALL`. -/
def setall (pid id : ℤ) (vals : List ℕ) (s : Tables) : Option Tables :=
  match semconv v s id with
  | none => some s
  | some sp =>
    if (vals.take sp.sem_nsems).any fun val => val > v.semvmx then some s
    else (semunrm v id 0 sp.sem_nsems s).map
      (setSems pid ((vals.take sp.sem_nsems).map (↑)) sp.sem_base)

/-- The set has the semaphore `i`. -/
def has (sp : Semid) (i : ℕ) : Bool := sp.sem_base ≤ i && i < sp.sem_base + sp.sem_nsems

/-- `IPC_RMID`. -/
def rmid (id : ℤ) (s : Tables) : Option Tables :=
  match semconv v s id with
  | none => some s
  | some sp => (semunrm v id 0 sp.sem_nsems s).map fun s => { s with
      sem := fun i => if has sp i then ⟨0, 0, 0, 0⟩ else s.sem i
      sema := Function.update s.sema (id % v.semmni) { sp with
        alloc := false
        seq := if id + v.semmni < 2 ^ 31 then toUshort (sp.seq + 1) else 0 } }

/-- `semget`, which makes a new set of the free slot `i`, of semaphores that are free. -/
def Free (i : ℤ) (base nsems : ℕ) (s : Tables) : Prop :=
  0 ≤ i ∧ i < v.semmni ∧ (s.sema i).alloc = false ∧ nsems ≤ v.semmsl ∧
    ∀ j < v.semmni.toNat, (s.sema j).alloc = true → base + nsems ≤ (s.sema j).sem_base ∨
      (s.sema j).sem_base + (s.sema j).sem_nsems ≤ base

instance (i : ℤ) (base nsems : ℕ) (s : Tables) : Decidable (Free v i base nsems s) :=
  inferInstanceAs (Decidable (_ ∧ _))

@[inherit_doc Free]
def semget (i : ℤ) (base nsems : ℕ) (s : Tables) : Tables :=
  { s with
    sema := Function.update s.sema i
      { s.sema i with alloc := true, sem_base := base, sem_nsems := nsems } }

/-- Make the adjustment of an entry when its process exits. -/
def adjustOnExit (s : Tables) (e : Undo) : Tables :=
  match semconv v s e.un_id with
  | none => s
  | some sp =>
    let i := (sp.sem_base + e.un_num).toNat
    let semp := s.sem i
    let val := semp.semval + e.un_aoe
    if val < 0 ∨ val > v.semvmx then s
    else s.setSem i { semp with
      semval := toUshort val
      semzcnt := if val = 0 then 0 else semp.semzcnt
      semncnt := if e.un_aoe > 0 then 0 else semp.semncnt }

/-- The entries of an undo structure. -/
def SemUndo.entries (x : SemUndo) : List Undo := (List.range x.un_cnt).map x.un_ent

/-- Free the undo structure of a process. -/
def cleanup (p up : ℕ) (s : Tables) : Tables :=
  { s.setNp up s.semfup with
    semfup := some up
    sem_undo := Function.update s.sem_undo p none }

/-- Clean up when a process exits, from the last entry on. -/
def semexit (p : ℕ) (s : Tables) : Option Tables :=
  match s.sem_undo p with
  | none => some s
  | some up =>
    if (s.semu up).un_cnt = 0 then some (cleanup p up s)
    else
      let s := (s.semu up).entries.reverse.foldl (adjustOnExit v) s
      (unlink v up (s.setUndo up { s.semu up with un_cnt := 0 })).map (cleanup p up)

/-- A process that slept is interrupted. -/
def eintr (i : ℕ) (zero : Bool) (s : Tables) : Tables :=
  let semp := s.sem i
  s.setSem i (if zero then { semp with semzcnt := max 0 (toShort (semp.semzcnt - 1)) }
    else { semp with semncnt := max 0 (toShort (semp.semncnt - 1)) })

/-! ## The machine -/

/-- The undo entries of a process. -/
def Tables.entries (s : Tables) (p : ℕ) : List Undo :=
  ((s.sem_undo p).map fun u => (s.semu u).entries).getD []

/-- The process has an entry for a semaphore of a set. -/
def Tables.Has (s : Tables) (p : ℕ) (id num : ℤ) : Prop :=
  ∃ e ∈ s.entries p, e.un_id = id ∧ e.un_num = num

instance (s : Tables) (p : ℕ) (id num : ℤ) : Decidable (s.Has p id num) :=
  inferInstanceAs (Decidable (∃ e ∈ _, _))

/-- The tables; the time, when each entry was made, and when the value of each semaphore was
    last reset. -/
structure State where
  t : Tables
  now : ℕ
  made : ℕ → ℤ → ℤ → ℕ
  reset : ℕ → ℕ

/-- A call resets the value of the semaphore `i`. -/
def resets (s : Tables) (i : ℕ) : Act → Bool
  | .setval _ id num val => (semconv v s id).any fun sp =>
    num < sp.sem_nsems && val ≤ v.semvmx && i = sp.sem_base + num
  | .setall _ id vals => (semconv v s id).any fun sp =>
    (vals.take sp.sem_nsems).all (fun val => val ≤ v.semvmx) && has sp i
  | .rmid id => (semconv v s id).any fun sp => has sp i
  | _ => false

/-- The tables after a call. A new set is made of what is free. -/
def step (s : Tables) : Act → Option Tables
  | .semop c => (semop v c s).map Prod.snd
  | .eintr i zero => some (eintr i zero s)
  | .setval pid id num val => setval v pid id num val s
  | .setall pid id vals => setall v pid id vals s
  | .rmid id => rmid v id s
  | .semget i base nsems => if Free v i base nsems s then some (semget i base nsems s) else none
  | .semexit p => semexit v p s

/-- The undo structures of the processes. At first all of them are free. -/
def undos : Machine State Act where
  init s := (∀ i, s.t.sem i = ⟨0, 0, 0, 0⟩) ∧ (∀ i, s.t.sema i = ⟨false, 0, 0, 0⟩) ∧
    (∀ u, (s.t.semu u).un_cnt = 0) ∧ (∀ p, s.t.sem_undo p = none) ∧ s.t.semunp = none ∧
    Chained (fun u => (s.t.semu u).un_np) (List.range v.semmnu) ∧
    s.t.semfup = (List.range v.semmnu).head? ∧ s.now = 1 ∧ s.reset = fun _ => 0
  next s a := (step v s.t a).map fun t => {
    t := t
    now := s.now + 1
    made := fun p id num => if s.t.Has p id num then s.made p id num else s.now
    reset := fun i => if resets v s.t i a then s.now else s.reset i }

end AuxKernel.Semaphores.Tables
