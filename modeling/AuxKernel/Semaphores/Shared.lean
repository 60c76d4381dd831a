import Mathlib.Data.BitVec
import AuxKernel.Semaphores.Basic

/-!
# The buffer that all calls share

The operations of `semop`, the values of `SETALL` and the permissions of `IPC_SET` are copied
into one buffer, `semtmp` (`PAGING/os/sem.c`), byte by byte: a process may sleep before each
byte and after the last one, while others go on, and the byte is what its own array has at that
time. `semop` checks the operations when they have been copied for the first time; when it wakes
up it copies them again, and does them.

The machine (`shared`) remembers for each process what it has read (`own`), and, while it sleeps,
for which set its operations were checked, and whether for altering it (`Grant`).
-/

namespace AuxKernel.Semaphores

/-! ## Permissions -/

/-- The owner and the creator of a set, and its access modes. -/
structure Perm where
  uid : BitVec 16
  gid : BitVec 16
  cuid : BitVec 16
  cgid : BitVec 16
  mode : BitVec 16

/-- Who calls. -/
structure Cred where
  u_uid : BitVec 16
  u_gid : BitVec 16

/-- Permission to alter. -/
def SEM_A : BitVec 16 := 0x80

/-- Permission to read. -/
def SEM_R : BitVec 16 := 0x100

/-- Whether the access is granted. -/
def ipcaccess (u : Cred) (p : Perm) (mode : BitVec 16) : Bool :=
  let mode :=
    if u.u_uid ≠ p.uid ∧ u.u_uid ≠ p.cuid then
      if u.u_gid ≠ p.gid ∧ u.u_gid ≠ p.cgid then mode >>> 6 else mode >>> 3
    else mode
  u.u_uid = 0 ∨ mode &&& p.mode ≠ 0

/-- Whether the caller owns a set. -/
def owns (u : Cred) (p : Perm) : Bool := u.u_uid = p.uid ∨ u.u_uid = p.cuid ∨ u.u_uid = 0

/-! ## The buffer -/

/-- The word number `i` of the buffer. -/
def word (b : ℕ → BitVec 8) (i : ℕ) : BitVec 16 := b (2 * i) ++ b (2 * i + 1)

/-- The operation number `k` in the buffer. -/
def sembuf (b : ℕ → BitVec 8) (k : ℕ) : Sembuf where
  sem_num := (word b (3 * k)).toNat
  sem_op := (word b (3 * k + 1)).toInt
  undo := (word b (3 * k + 2)).getLsbD 12
  nowait := (word b (3 * k + 2)).getLsbD 11
  isShort := ⟨BitVec.le_toInt _, BitVec.toInt_lt⟩

/-- The first `n` operations in the buffer. -/
def semops (b : ℕ → BitVec 8) (n : ℕ) : List Sembuf := (List.range n).map (sembuf b)

/-- The arguments of `semop`. -/
structure Args where
  semid : ℤ
  nsops : ℕ
  deriving DecidableEq

/-- For which set operations were checked, and whether some of them alter it. -/
structure Grant where
  set : Semid
  alter : Bool
  deriving DecidableEq

/-- What is copied in: operations, for the first time or after a check; the values of
    semaphores; or permissions. -/
inductive Job
  | ops (a : Args) (g : Option Grant)
  | vals (pid id : ℤ) (nsems : ℕ)
  | perm (id : ℤ)

/-- How many bytes these are. -/
def Job.size : Job → ℕ
  | .ops a _ => 6 * a.nsops
  | .vals _ _ nsems => 2 * nsems
  | .perm _ => 30

/-- Where a process is: in no call; copying in, of which `k` bytes are done; or asleep on the
    semaphore `i`, for zero or a greater value. -/
inductive Pc
  | idle
  | copy (j : Job) (k : ℕ)
  | wait (a : Args) (g : Grant) (i : ℕ) (zero : Bool)

structure Shared extends State where
  perm : ℤ → Perm
  semtmp : ℕ → BitVec 8
  pc : ℕ → Pc
  own : ℕ → ℕ → BitVec 8

/-- The semaphores change. -/
def Shared.lift (s : Shared) (t : State) : Shared := { s with toState := t }

def Shared.setPc (s : Shared) (p : ℕ) (pc : Pc) : Shared :=
  { s with pc := Function.update s.pc p pc }

variable (v : Config) (u : ℕ → Cred)

/-- The set of an identifier, whether or not it is still there. -/
def Shared.set (s : Shared) (id : ℤ) : Semid := s.sema (id % v.semmni)

/-! ## The calls -/

/-- Copy a byte in. -/
def copyin (p : ℕ) (b : BitVec 8) (j : Job) (k : ℕ) (s : Shared) : Shared :=
  { s.setPc p (.copy j (k + 1)) with
    semtmp := Function.update s.semtmp k b
    own := Function.update s.own p (Function.update (s.own p) k b) }

/-- Whether an operation must not be done. -/
def deny (c : Cred) (perm : Perm) (sp : Semid) (op : Sembuf) : Bool :=
  ¬ipcaccess c perm (if op.sem_op ≠ 0 then SEM_A else SEM_R) ∨ op.sem_num ≥ sp.sem_nsems

/-- The operations that a pass comes to: those that are done, and the one that is not. -/
def reached (c : Target) : List Sembuf → State → List Sembuf
  | [], _ => []
  | op :: ops, s =>
    op :: match doOp v c op s with
      | (.done, s) => reached c ops s
      | _ => []

/-- What the operations are done on: the set that is in its place. -/
def target (p : ℕ) (a : Args) (s : Shared) : Target := ⟨p, a.semid, (s.set v a.semid).sem_base⟩

/-- The check fails; it is made when the operations are copied in for the first time. -/
def refused (p : ℕ) (a : Args) (g : Option Grant) (s : Shared) : Bool :=
  g.isNone ∧ (semops s.semtmp a.nsops).any
    (deny (u p) (s.perm (a.semid % v.semmni)) (s.set v a.semid))

/-- What the check was made for, now or before. -/
def grant (a : Args) (g : Option Grant) (s : Shared) : Grant :=
  g.getD ⟨s.set v a.semid, (semops s.semtmp a.nsops).any fun op => op.sem_op ≠ 0⟩

/-- The operations that the pass of a process comes to. -/
def accessed (p : ℕ) (a : Args) (g : Option Grant) (s : Shared) : List Sembuf :=
  if refused v u p a g s then []
  else reached v (target v p a s) (semops s.semtmp a.nsops) s.toState

/-- The operations cannot all be done: where the process sleeps. -/
def sleepOn (base : ℕ) (ops : List Sembuf) : ℕ :=
  base + (ops.getLast?.elim 0 fun op => op.sem_num)

/-- The operations are copied in: check them, and do them. -/
def pass (p : ℕ) (pid : ℤ) (a : Args) (g : Option Grant) (s : Shared) : Shared :=
  if refused v u p a g s then s.setPc p .idle
  else
    let c := target v p a s
    let ops := semops s.semtmp a.nsops
    let i := sleepOn c.base (reached v c ops s.toState)
    match doOps v c [] ops s.toState with
    | (.done, t) =>
      (s.lift (ops.foldl (fun s op => setpid pid (c.base + op.sem_num) s) t)).setPc p .idle
    | (.error _, t) => (s.lift t).setPc p .idle
    | (.sleepn, t) => (s.lift t).setPc p (.wait a (grant v a g s) i false)
    | (.sleepz, t) => (s.lift t).setPc p (.wait a (grant v a g s) i true)

/-- The values are copied in. -/
def setallGo (pid id : ℤ) (s : Shared) : Shared :=
  let sp := s.set v id
  let vals := (List.range sp.sem_nsems).map fun i => ((word s.semtmp i).toNat : ℤ)
  if vals.any fun val => val > v.semvmx then s
  else s.lift (setSems pid vals sp.sem_base (semunrm id 0 sp.sem_nsems s.toState))

/-- The permissions are copied in; the set has them, even if it was removed. -/
def ipcsetGo (id : ℤ) (s : Shared) : Shared :=
  let i := id % v.semmni
  { s with
    sema := Function.update s.sema i { s.sema i with alloc := true }
    perm := Function.update s.perm i { s.perm i with
      uid := word s.semtmp 0, gid := word s.semtmp 1, mode := word s.semtmp 4 &&& 0x1ff } }

/-! ## Runs -/

/-- A process calls, copies a byte or cannot, goes on with what it has copied, or wakes up. -/
inductive Event
  | semop (p : ℕ) (a : Args)
  | setall (p : ℕ) (pid id : ℤ)
  | ipcset (p : ℕ) (id : ℤ)
  | copyin (p : ℕ) (b : BitVec 8)
  | efault (p : ℕ)
  | go (p : ℕ) (pid : ℤ)
  | wake (p : ℕ) (signal : Bool)
  | setval (p : ℕ) (pid id : ℤ) (num val : ℕ)
  | rmid (p : ℕ) (id : ℤ)
  | semget (p : ℕ) (i : ℤ) (base nsems : ℕ) (perm : Perm)
  | semexit (p : ℕ)

/-- A process that is in no call does something. -/
def Shared.ifIdle (s : Shared) (p : ℕ) (t : Shared) : Option Shared :=
  match s.pc p with
  | .idle => some t
  | _ => none

def nextShared (s : Shared) : Event → Option Shared
  | .semop p a => s.ifIdle p <|
    if (semconv v s.toState a.semid).isNone ∨ a.nsops > v.semopm then s
    else s.setPc p (.copy (.ops a none) 0)
  | .setall p pid id => s.ifIdle p <|
    if (semconv v s.toState id).isNone ∨ ¬ipcaccess (u p) (s.perm (id % v.semmni)) SEM_A then s
    else s.setPc p (.copy (.vals pid id (s.set v id).sem_nsems) 0)
  | .ipcset p id => s.ifIdle p <|
    if (semconv v s.toState id).isNone ∨ ¬owns (u p) (s.perm (id % v.semmni)) then s
    else s.setPc p (.copy (.perm id) 0)
  | .copyin p b =>
    match s.pc p with
    | .copy j k => if k < j.size then some (copyin p b j k s) else none
    | _ => none
  | .efault p =>
    match s.pc p with
    | .copy _ _ => some (s.setPc p .idle)
    | _ => none
  | .go p pid =>
    match s.pc p with
    | .copy j k =>
      if k = j.size then
        match j with
        | .ops a g => some (pass v u p pid a g s)
        | .vals pid id _ => some ((setallGo v pid id s).setPc p .idle)
        | .perm id => some ((ipcsetGo v id s).setPc p .idle)
      else none
    | _ => none
  | .wake p signal =>
    match s.pc p with
    | .wait a g i zero =>
      if signal then some ((s.lift (eintr i zero s.toState)).setPc p .idle)
      else if (semconv v s.toState a.semid).isNone then some (s.setPc p .idle)
      else some (s.setPc p (.copy (.ops a (some g)) 0))
    | _ => none
  | .setval p pid id num val => s.ifIdle p <|
    if ipcaccess (u p) (s.perm (id % v.semmni)) SEM_A then
      s.lift (setval v pid id num val s.toState)
    else s
  | .rmid p id => s.ifIdle p <|
    if (semconv v s.toState id).isNone ∨ ¬owns (u p) (s.perm (id % v.semmni)) then s
    else { s.lift (rmid v id s.toState) with
      perm := Function.update s.perm (id % v.semmni) { s.perm (id % v.semmni) with mode := 0 } }
  | .semget p i base nsems perm => s.ifIdle p <|
    if (s.sema i).alloc then s
    else { s.lift (semget i base nsems s.toState) with perm := Function.update s.perm i perm }
  | .semexit p => s.ifIdle p (s.lift (semexit v p s.toState))

/-- No sets; all processes are in no call. -/
def shared : Machine Shared Event where
  init s := (semaphores v).init s.toState ∧ (∀ i, (s.perm i).mode = 0) ∧ ∀ p, s.pc p = .idle
  next := nextShared v u

end AuxKernel.Semaphores
