import AuxKernel.System
import AuxKernel.Ring

/-!
# Pipes

The part of `rwip` (`SVFS/sys/5_vnodeops.c`) that reads and writes a pipe, and `openp` and
`closep` (`SVFS/sys/5_pipe.c`). A pipe is the first `PIPSIZ` bytes of a file, used as a ring:
`i_frptr` is where the next byte is read, `i_fwptr` where the next one is written, and `i_size`
the number of bytes in between. A block is in the buffer cache, or on the disk, or both, and only
a buffer with `B_DELWRI` is written before it is used for another block.

The inode is locked while a process is in the loop (`Pass`), which takes one block a turn.
-/

namespace AuxKernel.Pipe

def NFADDR : ℕ := 10

def DEV_BSIZE : ℕ := 512

def PIPSIZ : ℕ := NFADDR * DEV_BSIZE

/-- The size of a block, in a small or a large file system. -/
def FsBSIZE (lrg : Bool) : ℕ := if lrg then 1024 else 512

/-! ## Blocks -/

/-- A block: its buffer, if it has one, and what is on the disk. -/
structure Block where
  buf : Option (ℕ → UInt8)
  B_DELWRI : Bool
  disk : ℕ → UInt8

namespace Block

/-- What is read from a block. -/
def data (b : Block) : ℕ → UInt8 := b.buf.getD b.disk

/-- The block is in a buffer, after it was read if it has to be. -/
def bread (b : Block) : Block := { b with buf := some b.data }

/-- The block has a buffer, in which is anything if it had none. -/
def getblk (b : Block) (garbage : ℕ → UInt8) : Block := { b with buf := some (b.buf.getD garbage) }

/-- Bytes are put into the buffer. -/
def put (b : Block) (on : ℕ) (bytes : List UInt8) : Block :=
  { b with buf := some fun i => if on ≤ i ∧ i < on + bytes.length then bytes.getD (i - on) 0
    else b.data i }

/-- The buffer is written, at once or later. -/
def bwrite (b : Block) : Block := { b with B_DELWRI := false, disk := b.data }

def bdwrite (b : Block) : Block := { b with B_DELWRI := true }

/-- The buffer need not be written any more. -/
def cancel (b : Block) : Block := { b with B_DELWRI := false }

end Block

/-- What the buffer cache does with a block: it reads it ahead, writes it, or uses its buffer for
    another, which it does not if that has to be written. -/
inductive Cache
  | breada
  | bawrite
  | reuse
  deriving DecidableEq, Repr

def Block.cache (b : Block) : Cache → Block
  | .breada => b.bread
  | .bawrite => b.bwrite
  | .reuse => if b.B_DELWRI then b else { b with buf := none }

/-! ## The inode -/

/-- What of an inode is used for a pipe. -/
structure Inode where
  i_size : ℕ
  i_frptr : ℕ
  i_fwptr : ℕ
  i_frcnt : ℕ
  i_fwcnt : ℕ
  i_faddr : ℕ → Option Block

namespace Inode

variable (lrg : Bool) (ip : Inode)

/-- A byte of the file; where it has no block, zero is read. -/
def byte (off : ℕ) : UInt8 :=
  (ip.i_faddr (off / FsBSIZE lrg)).elim 0 fun b => b.data (off % FsBSIZE lrg)

def setBlock (lbn : ℕ) (b : Option Block) : Inode :=
  { ip with i_faddr := Function.update ip.i_faddr lbn b }

end Inode

/-- What a process is doing: it reads, or writes these bytes. -/
inductive Call
  | read (resid : ℕ)
  | write (bytes : List UInt8)
  deriving DecidableEq, Repr

/-- A process in the loop: where it is, and what is left of what it does. Of a write, `usave` is
    what it does not do this time. -/
inductive Pass
  | read (uio_offset resid : ℕ)
  | write (uio_offset : ℕ) (bytes usave : List UInt8)
  deriving DecidableEq, Repr

/-- What happens in a turn of the loop: whether the block can be written, and be read; how many
    bytes are moved before there is a fault; what is in a buffer that was not read, and on the
    disk where a block is allocated; whether the write is synchronous. -/
structure Turn where
  bmap : Bool
  B_ERROR : Bool
  moved : ℕ
  garbage : ℕ → UInt8
  sync : Bool

/-- A pipe, the processes that use it, the one that is in the loop, and all bytes that were taken
    from processes that write, and given to those that read, since it was last empty and not
    open. -/
structure State (P : Type*) where
  ip : Inode
  procs : P → Option Call
  cur : Option (P × Pass)
  accepted : List UInt8
  delivered : List UInt8

namespace State

variable {P : Type*} [DecidableEq P] (lrg : Bool) (s : State P) (p : P)

/-- A process returns from the call. -/
def leave : State P := { s with procs := Function.update s.procs p none, cur := none }

/-- A process is in the loop. -/
def inLoop (pass : Pass) : State P := { s with cur := some (p, pass) }

/-- What is tested before the loop: a reader waits for bytes, a writer for room. A write that is
    larger than a pipe is done in parts. -/
def enter (fndelay : Bool) : Call → State P
  | .read resid =>
    if s.ip.i_size = 0 then
      if s.ip.i_fwcnt = 0 ∨ fndelay then s.leave p else s
    else s.inLoop p (.read s.ip.i_frptr resid)
  | .write bytes =>
    if s.ip.i_frcnt = 0 then s.leave p
    else if bytes.length + s.ip.i_size > PIPSIZ then
      if bytes.length > PIPSIZ ∧ s.ip.i_size < PIPSIZ then
        let room := PIPSIZ - s.ip.i_size
        s.inLoop p (.write s.ip.i_fwptr (bytes.take room) (bytes.drop room))
      else if fndelay then s.leave p
      else s
    else s.inLoop p (.write s.ip.i_fwptr bytes [])

/-- The end of a read. -/
def readDone (off : ℕ) : State P :=
  { s.leave p with
    ip := if s.ip.i_size ≠ 0 then { s.ip with i_frptr := off }
      else { s.ip with i_frptr := 0, i_fwptr := 0 } }

/-- The end of a write, or of a part of it. -/
def writeDone (off : ℕ) (usave : List UInt8) (error : Bool) : State P :=
  { s with
    ip := { s.ip with i_fwptr := off }
    procs := Function.update s.procs p (if error ∨ usave = [] then none else some (.write usave))
    cur := none }

/-- A turn of the loop that reads. -/
def readTurn (off resid : ℕ) (t : Turn) : State P :=
  let lbn := off / FsBSIZE lrg
  let on := off % FsBSIZE lrg
  let n := min (min (FsBSIZE lrg - on) resid) s.ip.i_size
  if t.B_ERROR ∧ (s.ip.i_faddr lbn).any (·.buf.isNone) then s.leave p
  else
    let b := (s.ip.i_faddr lbn).map Block.bread
    let k := min n t.moved
    let size := s.ip.i_size - n
    let off' := if off + k ≥ PIPSIZ then 0 else off + k
    let b := if on + n = FsBSIZE lrg ∧ size ≤ PIPSIZ - FsBSIZE lrg then b.map Block.cancel else b
    let s' := { s with
      ip := { s.ip.setBlock lbn b with i_size := size }
      delivered := s.delivered ++ (List.range k).map fun i => s.ip.byte lrg (off + i) }
    if n ≤ t.moved ∧ 0 < resid - k ∧ n ≠ 0 then s'.inLoop p (.read off' (resid - k))
    else s'.readDone p off'

/-- The buffer a write goes to, with what was in it unless nothing in it can be needed. -/
def writeBlock (lbn on : ℕ) (t : Turn) : Option Block :=
  match s.ip.i_faddr lbn with
  | none => if t.bmap then some ⟨some fun _ => 0, true, t.garbage⟩ else none
  | some b =>
    if t.bmap then
      if on = 0 ∧ s.ip.i_size < PIPSIZ - FsBSIZE lrg then some (b.getblk t.garbage)
      else if t.B_ERROR ∧ b.buf.isNone then none
      else some b.bread
    else none

/-- A turn of the loop that writes. -/
def writeTurn (off : ℕ) (bytes usave : List UInt8) (t : Turn) : State P :=
  let lbn := off / FsBSIZE lrg
  let on := off % FsBSIZE lrg
  let n := min (FsBSIZE lrg - on) bytes.length
  match s.writeBlock lrg lbn on t with
  | none => s.leave p
  | some b =>
    let k := min n t.moved
    let b := b.put on (bytes.take k)
    let off' := if off + k = PIPSIZ then 0 else off + k
    let s' := { s with
      ip := { s.ip.setBlock lbn (some (if t.sync then b.bwrite else b.bdwrite)) with
        i_size := s.ip.i_size + n }
      accepted := s.accepted ++ bytes.take k }
    if n ≤ t.moved ∧ 0 < bytes.length - k then s'.inLoop p (.write off' (bytes.drop k) usave)
    else s'.writeDone p off' usave (decide (t.moved < n))

/-- A turn of the loop. -/
def turn (t : Turn) : Pass → State P
  | .read off resid => s.readTurn lrg p off resid t
  | .write off bytes usave => s.writeTurn lrg p off bytes usave t

/-- `openp`, and `closep`, of which the last one frees the blocks. -/
def openp (fread fwrite : Bool) : State P :=
  { s with ip := { s.ip with
      i_frcnt := s.ip.i_frcnt + fread.toNat, i_fwcnt := s.ip.i_fwcnt + fwrite.toNat } }

def closep (fread fwrite : Bool) : State P :=
  let ip := { s.ip with
    i_frcnt := s.ip.i_frcnt - fread.toNat, i_fwcnt := s.ip.i_fwcnt - fwrite.toNat }
  if ip.i_frcnt = 0 ∧ ip.i_fwcnt = 0 then
    { s with ip := ⟨0, 0, 0, 0, 0, fun _ => none⟩, accepted := [], delivered := [] }
  else { s with ip := ip }

end State

/-! ## The system -/

/-- What happens to a pipe: a process calls `rwip`; it gets to the tests before the loop, the
    first time or when it was woken; there is a turn of the loop; its sleep is interrupted; the
    buffer cache goes on; the pipe is opened or closed. -/
inductive Act (P : Type*)
  | rwip (p : P) (call : Call)
  | enter (p : P) (fndelay : Bool)
  | turn (t : Turn)
  | interrupt (p : P)
  | cache (lbn : ℕ) (c : Cache)
  | openp (fread fwrite : Bool)
  | closep (fread fwrite : Bool)

variable {P : Type*} [DecidableEq P]

/-- The tests need the lock, and a pipe that a process is in is open. -/
def State.step (lrg : Bool) (s : State P) : Act P → Option (State P)
  | .rwip p call =>
    if s.procs p = none ∧ call ≠ .read 0 ∧ call ≠ .write [] then
      some { s with procs := Function.update s.procs p (some call) }
    else none
  | .enter p fndelay =>
    match s.cur, s.procs p with
    | none, some call => some (s.enter p fndelay call)
    | _, _ => none
  | .turn t => s.cur.map fun (p, pass) => s.turn lrg p t pass
  | .interrupt p => if s.cur = none then some (s.leave p) else none
  | .cache lbn c =>
    some { s with ip := s.ip.setBlock lbn ((s.ip.i_faddr lbn).map (·.cache c)) }
  | .openp fread fwrite => some (s.openp fread fwrite)
  | .closep fread fwrite => if s.cur = none then some (s.closep fread fwrite) else none

/-- The pipe is new. -/
def pipes (P : Type*) [DecidableEq P] (lrg : Bool) : Machine (State P) (Act P) where
  init s := s = ⟨⟨0, 0, 0, 0, 0, fun _ => none⟩, fun _ => none, none, [], []⟩
  next := State.step lrg

end AuxKernel.Pipe
