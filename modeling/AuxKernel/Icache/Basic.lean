import AuxKernel.System
import Mathlib.Data.List.Basic
import Mathlib.Logic.Function.Basic

/-!
# The inode cache

The in-core inodes (`SVFS/sys/5_inode.c`): a table of inodes, those in use or used
last on the hash chains by their device and number, those not referenced on the free
list. A process holds control until it sleeps: for a locked inode in `iget`, for the
disk in `iget` and in `iinactive`, which writes the inode out or frees its file.
What it has still to do then is its *place* (`Pc`). The chains and the free list,
doubly linked in the kernel, are lists from their heads.

`iget` asks the directory name cache to let its inodes go when the free list is empty;
of that cache, the inodes that its entries hold are kept. What is read from disk into
an inode, besides its identity, and what `iinactive` writes there, is left out.
Callers use inodes that are referenced, and no reference count wraps.
-/

namespace AuxKernel.Icache

/-- An in-core inode: its flags `IREF` and `ILOCKED`, the device and the number it
    stands for, and the references to its vnode. -/
structure Inode where
  iref : Bool
  ilocked : Bool
  i_dev : ℕ
  i_number : ℕ
  v_count : ℕ
  deriving DecidableEq, Repr

/-- What a process goes on with after releasing vnodes: nothing, or `iget`, whose
    `dnlc_purge` it was. -/
inductive Cont
  | done
  | purge (dev ino : ℕ)
  deriving DecidableEq, Repr

/-- The place of a process: outside; in `iget`, at its loop or waiting for the disk;
    about to release vnodes; waiting in `iinactive`, with more to release after it. -/
inductive Pc (n : ℕ)
  | idle
  | loop (dev ino : ℕ)
  | bread (dev ino : ℕ) (ip : Fin n)
  | rele (ips : List (Fin n)) (k : Cont)
  | inactive (ip : Fin n) (ips : List (Fin n)) (k : Cont)
  deriving DecidableEq, Repr

/-- The inode table with its hash chains and free list, the inodes of the directories
    and files in the name cache, and the processes. -/
structure Incore (n : ℕ) where
  inode : Fin n → Inode
  chain : ℕ → List (Fin n)
  free : List (Fin n)
  names : List (Fin n × Fin n)
  pc : ℕ → Pc n

/-- What `iget` returns to its caller: the inode for a device and a number. -/
structure Got (n : ℕ) where
  dev : ℕ
  ino : ℕ
  ip : Fin n
  deriving DecidableEq, Repr

variable {n : ℕ}

def INOHASH (dev ino : ℕ) : ℕ := (dev + ino) % 128

/-- Set an inode. -/
def Incore.setInode (s : Incore n) (ip : Fin n) (x : Inode) : Incore n :=
  { s with inode := Function.update s.inode ip x }

/-- Set the place of a process. -/
def Incore.setPc (s : Incore n) (p : ℕ) (pc : Pc n) : Incore n :=
  { s with pc := Function.update s.pc p pc }

/-- Take an inode off the chain it is on. -/
def remque (s : Incore n) (ip : Fin n) : Incore n :=
  { s with chain := fun h => (s.chain h).erase ip }

/-- Put an inode at the head of a chain. -/
def insque (s : Incore n) (ip : Fin n) (h : ℕ) : Incore n :=
  { s with chain := Function.update s.chain h (ip :: s.chain h) }

/-- Search the hash chain for an inode. -/
def lookup (s : Incore n) (dev ino : ℕ) : Option (Fin n) :=
  (s.chain (INOHASH dev ino)).find? fun ip =>
    ino = (s.inode ip).i_number ∧ dev = (s.inode ip).i_dev

/-! ## Getting an inode -/

/-- Take the first free inode for a new identity, and read it in; there may be none. -/
def takeFree (s : Incore n) (p dev ino : ℕ) : Incore n :=
  match s.free with
  | [] => s.setPc p .idle
  | ip :: free =>
    let s := insque (remque { s with free := free } ip) ip (INOHASH dev ino)
    (s.setInode ip { s.inode ip with
      iref := true, ilocked := true, i_dev := dev, i_number := ino }).setPc p (.bread dev ino ip)

/-- The loop of `iget`: a locked inode is waited for; one that is not in core gets a
    free inode, from the name cache if there is none. -/
def igetLoop (s : Incore n) (p dev ino : ℕ) : Incore n × Option (Got n) :=
  match lookup s dev ino with
  | some ip =>
    if (s.inode ip).ilocked then (s.setPc p (.loop dev ino), none)
    else
      let s := if (s.inode ip).iref then s else { s with free := s.free.erase ip }
      ((s.setInode ip { s.inode ip with
        iref := true, ilocked := true, v_count := (s.inode ip).v_count + 1 }).setPc p .idle,
        some ⟨dev, ino, ip⟩)
  | none =>
    if s.free = [] then (s.setPc p (.rele [] (.purge dev ino)), none)
    else (takeFree s p dev ino, none)

/-! ## Letting inodes go -/

/-- The end of `iinactive`: the inode is free. -/
def inactivated (s : Incore n) (p : ℕ) (ip : Fin n) (ips : List (Fin n)) (k : Cont) : Incore n :=
  let s := s.setInode ip { s.inode ip with iref := false, ilocked := false }
  { s with free := s.free ++ [ip] }.setPc p (.rele ips k)

/-- The last reference to an inode is gone. On a file system that may be written, the
    inode is locked for what is to be done on the disk. It panics if it is locked. -/
def iinactive (ronly : ℕ → Bool) (s : Incore n) (p : ℕ) (ip : Fin n) (ips : List (Fin n))
    (k : Cont) : Option (Incore n) :=
  if (s.inode ip).ilocked then none
  else if ronly (s.inode ip).i_dev then some (inactivated s p ip ips k)
  else some ((s.setInode ip { s.inode ip with ilocked := true }).setPc p (.inactive ip ips k))

/-- Release a vnode, and go on with the rest. It panics if it is not referenced. -/
def vn_rele (ronly : ℕ → Bool) (s : Incore n) (p : ℕ) (ip : Fin n) (ips : List (Fin n))
    (k : Cont) : Option (Incore n) :=
  match (s.inode ip).v_count with
  | 0 => none
  | c + 1 =>
    let s := s.setInode ip { s.inode ip with v_count := c }
    if c = 0 then iinactive ronly s p ip ips k else some (s.setPc p (.rele ips k))

/-- The disk has answered `iget`: the inode is read in, or taken off its chain again and
    let go. -/
def breadDone (ronly : ℕ → Bool) (s : Incore n) (p dev ino : ℕ) (ip : Fin n) (ok : Bool) :
    Option (Incore n × Option (Got n)) :=
  if ok then
    some ((s.setInode ip { s.inode ip with v_count := 1 }).setPc p .idle, some ⟨dev, ino, ip⟩)
  else
    let s := remque s ip
    let s := s.setInode ip { s.inode ip with i_number := 0, ilocked := false }
    (iinactive ronly s p ip [] .done).map (·, none)

/-- Drop an inode, locked by the caller, without writing it out. -/
def idrop (s : Incore n) (ip : Fin n) : Option (Incore n) :=
  if (s.inode ip).ilocked then
    match (s.inode ip).v_count with
    | 0 => none
    | c + 1 =>
      if c = 0 then
        some { s.setInode ip { s.inode ip with iref := false, ilocked := false, v_count := 0 } with
          free := s.free ++ [ip] }
      else some (s.setInode ip { s.inode ip with ilocked := false, v_count := c })
  else none

/-! ## The machine -/

/-- What a process does: it calls `iget`, goes on from its place (with the answer of the
    disk, or the entry of the name cache that `dnlc_purge` comes to), or uses an inode
    that is referenced. The name cache enters a directory and a file in it, and gives up
    an entry. -/
inductive Act (n : ℕ)
  | iget (p dev ino : ℕ)
  | go (p : ℕ) (ok : Bool) (entry : ℕ)
  | hold (p : ℕ) (ip : Fin n)
  | ilock (p : ℕ) (ip : Fin n)
  | iunlock (p : ℕ) (ip : Fin n)
  | irele (p : ℕ) (ip : Fin n)
  | iput (p : ℕ) (ip : Fin n)
  | idrop (p : ℕ) (ip : Fin n)
  | dnlcEnter (p : ℕ) (dp vp : Fin n)
  | dnlcRm (p entry : ℕ)

/-- The process that acts, if it calls something. -/
def Act.caller : Act n → Option ℕ
  | .iget p _ _ | .hold p _ | .ilock p _ | .iunlock p _ | .irele p _ | .iput p _ | .idrop p _
  | .dnlcEnter p _ _ | .dnlcRm p _ => some p
  | .go _ _ _ => none

/-- One more reference. -/
def hold (s : Incore n) (ip : Fin n) : Incore n :=
  s.setInode ip { s.inode ip with v_count := (s.inode ip).v_count + 1 }

/-- Set whether an inode is locked. -/
def setLocked (s : Incore n) (ip : Fin n) (b : Bool) : Incore n :=
  s.setInode ip { s.inode ip with ilocked := b }

/-- The name cache gives up an entry; then the process goes on with `k`. -/
def dnlc_rm (s : Incore n) (p entry : ℕ) (k : Cont) : Option (Incore n) :=
  s.names[entry]?.map fun nc =>
    { s with names := s.names.eraseIdx entry }.setPc p (.rele [nc.1, nc.2] k)

/-- A process goes on from its place. -/
def go (ronly : ℕ → Bool) (s : Incore n) (p : ℕ) (ok : Bool) (entry : ℕ) :
    Option (Incore n × Option (Got n)) :=
  match s.pc p with
  | .idle => none
  | .loop dev ino => some (igetLoop s p dev ino)
  | .bread dev ino ip => breadDone ronly s p dev ino ip ok
  | .rele [] .done => some (s.setPc p .idle, none)
  | .rele [] (.purge dev ino) =>
    if s.names = [] then some (takeFree s p dev ino, none)
    else (dnlc_rm s p entry (.purge dev ino)).map (·, none)
  | .rele (ip :: ips) k => (vn_rele ronly s p ip ips k).map (·, none)
  | .inactive ip ips k => some (inactivated s p ip ips k, none)

/-- A process calls something. -/
def call (ronly : ℕ → Bool) (s : Incore n) : Act n → Option (Incore n × Option (Got n))
  | .iget p dev ino => some (igetLoop s p dev ino)
  | .hold _ ip => if (s.inode ip).v_count = 0 then none else some (hold s ip, none)
  | .ilock _ ip =>
    if (s.inode ip).v_count = 0 ∨ (s.inode ip).ilocked then none
    else some (setLocked s ip true, none)
  | .iunlock _ ip =>
    if (s.inode ip).v_count = 0 ∨ (s.inode ip).ilocked = false then none
    else some (setLocked s ip false, none)
  | .irele p ip => (vn_rele ronly s p ip [] .done).map (·, none)
  | .iput p ip =>
    if (s.inode ip).v_count = 0 ∨ (s.inode ip).ilocked = false then none
    else (vn_rele ronly (setLocked s ip false) p ip [] .done).map (·, none)
  | .idrop _ ip => (idrop s ip).map (·, none)
  | .dnlcEnter _ dp vp =>
    if (s.inode dp).v_count = 0 ∨ (s.inode vp).v_count = 0 then none
    else some ({ hold (hold s dp) vp with names := (dp, vp) :: s.names }, none)
  | .dnlcRm p entry => (dnlc_rm s p entry .done).map (·, none)
  | .go _ _ _ => none

/-- The state after an action, and what `iget` returns in it. -/
def step (ronly : ℕ → Bool) (s : Incore n) : Act n → Option (Incore n × Option (Got n))
  | .go p ok entry => go ronly s p ok entry
  | a => if ∀ p ∈ a.caller, s.pc p = .idle then call ronly s a else none

/-- The inodes under the calls of all processes, all free in the beginning; `ronly` are
    the devices that may not be written. -/
def icache (ronly : ℕ → Bool) (n : ℕ) : Machine (Incore n) (Act n) where
  init s := s = ⟨fun _ => ⟨false, false, 0, 0, 0⟩, fun _ => [], List.finRange n, [], fun _ => .idle⟩
  next s a := (step ronly s a).map Prod.fst

end AuxKernel.Icache
