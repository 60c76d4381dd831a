import Mathlib.Logic.Function.Basic
import AuxKernel.System
import AuxKernel.Basic

/-!
# Character lists

`getc`, `putc`, `getcf`, `putcf`, `getcb` and `putcb` (`PAGING/io/clist.c`), on character lists
that share the blocks of a free list. Lists and blocks are named by numbers, and following a
null pointer is `none`, as is the panic of `getcb`.

The machine (`clists`) remembers which blocks are in the hands of the callers (`held`), who may
write into them, and the bytes that have been put into each list and taken out of it.
-/

namespace AuxKernel.Tty

/-- The size of the data of a block. -/
def CLSIZE : ℕ := 26

/-- A block of characters. -/
structure Cblock where
  c_next : Option ℕ
  c_first : ℕ
  c_last : ℕ
  c_data : ℕ → ℤ

structure Clist where
  c_cc : ℤ
  c_cf : Option ℕ
  c_cl : Option ℕ
  deriving DecidableEq, Repr

/-- The number of the blocks; their characters can be counted. -/
structure Pool where
  nclist : ℕ
  countable : nclist * CLSIZE < 2 ^ 31

/-- The lists, the blocks, and the free list of them (`c_next`); and what is remembered. -/
structure State where
  clist : ℕ → Clist
  block : ℕ → Cblock
  c_next : Option ℕ
  held : List ℕ
  bytesIn : ℕ → List ℤ
  bytesOut : ℕ → List ℤ

def State.setClist (s : State) (i : ℕ) (p : Clist) : State :=
  { s with clist := Function.update s.clist i p }

def State.setBlock (s : State) (cp : ℕ) (b : Cblock) : State :=
  { s with block := Function.update s.block cp b }

/-! ## The calls -/

/-- Put a block on the free list. -/
def putcf (cp : ℕ) (s : State) : State :=
  let s := s.setBlock cp { s.block cp with c_next := s.c_next }
  { s with c_next := some cp }

/-- Take the first block `cp` off a list. -/
def unlink (i cp : ℕ) (s : State) : State :=
  let p := s.clist i
  let next := (s.block cp).c_next
  s.setClist i { p with c_cf := next, c_cl := if next = none then none else p.c_cl }

/-- Link a block in at the end of a list. -/
def link (i cp : ℕ) (s : State) : State :=
  let p := s.clist i
  let s := s.setBlock cp { s.block cp with c_next := none }
  match p.c_cl with
  | none => s.setClist i { p with c_cf := some cp, c_cl := some cp }
  | some ocp =>
    let s := s.setBlock ocp { s.block ocp with c_next := some cp }
    s.setClist i { p with c_cl := some cp }

/-- Get the first character of a list, or `-1`. -/
def getc (i : ℕ) (s : State) : Option (ℤ × State) :=
  let p := s.clist i
  if 0 < p.c_cc then
    p.c_cf.map fun cp =>
      let b := s.block cp
      let s := s.setClist i { p with c_cc := toLong (p.c_cc - 1) }
      let s := s.setBlock cp { b with c_first := b.c_first + 1 }
      (toUchar (b.c_data b.c_first),
        if b.c_first + 1 = b.c_last then putcf cp (unlink i cp s) else s)
  else
    match p.c_cf with
    | none => some (-1, s)
    | some cp => some (-1, putcf cp (unlink i cp s))

/-- Get a block with the given indices from the free list. -/
def take (c_first c_last : ℕ) (s : State) : Option (ℕ × State) :=
  s.c_next.map fun cp =>
    let b := s.block cp
    (cp, { s.setBlock cp { b with c_next := none, c_first, c_last } with c_next := b.c_next })

/-- Link an empty block in at the end of a list. -/
def grow (i : ℕ) (s : State) : Option (ℕ × State) :=
  (take 0 0 s).map fun r => (r.1, link i r.1 r.2)

/-- The block of a list that the next character goes to. -/
def room (i : ℕ) (s : State) : Option (ℕ × State) :=
  match (s.clist i).c_cl with
  | none => grow i s
  | some cp => if (s.block cp).c_last = CLSIZE then grow i s else some (cp, s)

/-- Put a character at the end of a list. -/
def putc (c : ℤ) (i : ℕ) (s : State) : ℤ × State :=
  match room i s with
  | none => (-1, s)
  | some (cp, s) =>
    let b := s.block cp
    let s := s.setBlock cp { b with
      c_data := Function.update b.c_data b.c_last (toChar c), c_last := b.c_last + 1 }
    let p := s.clist i
    (0, s.setClist i { p with c_cc := toLong (p.c_cc + 1) })

/-- Get an empty block, to be filled. -/
def getcf (s : State) : Option (ℕ × State) := take 0 CLSIZE s

/-- Get the first block of a list. -/
def getcb (i : ℕ) (s : State) : Option (Option ℕ × State) :=
  let p := s.clist i
  match p.c_cf with
  | none => some (none, s)
  | some cp =>
    let b := s.block cp
    let c_cc := toLong (p.c_cc - (b.c_last - b.c_first))
    if c_cc < 0 then none
    else some (some cp, unlink i cp (s.setClist i { p with c_cc }))

/-- Put a block at the end of a list. -/
def putcb (cp i : ℕ) (s : State) : State :=
  let s := link i cp s
  let p := s.clist i
  let b := s.block cp
  s.setClist i { p with c_cc := toLong (p.c_cc + (b.c_last - b.c_first)) }

/-! ## Runs -/

/-- The bytes of a block. -/
def Cblock.bytes (b : Cblock) : List ℤ :=
  (List.range' b.c_first (b.c_last - b.c_first)).map fun k => toUchar (b.c_data k)

/-- A block that has bytes, and not too many. -/
def Cblock.Full (b : Cblock) : Prop := b.c_first < b.c_last ∧ b.c_last ≤ CLSIZE

instance (b : Cblock) : Decidable b.Full := inferInstanceAs (Decidable (_ ∧ _))

/-- Remember bytes that were put into a list. -/
def State.enter (s : State) (i : ℕ) (l : List ℤ) : State :=
  { s with bytesIn := Function.update s.bytesIn i (s.bytesIn i ++ l) }

/-- Remember bytes that were taken out of a list. -/
def State.leave (s : State) (i : ℕ) (l : List ℤ) : State :=
  { s with bytesOut := Function.update s.bytesOut i (s.bytesOut i ++ l) }

/-- What may happen: a call, or a caller writes into a block that it holds. -/
inductive Action
  | getc (i : ℕ)
  | putc (c : ℤ) (i : ℕ)
  | getcf
  | putcf (cp : ℕ)
  | getcb (i : ℕ)
  | putcb (cp i : ℕ)
  | fill (cp : ℕ) (b : Cblock)

def next (s : State) : Action → Option State
  | .getc i => (getc i s).map fun r => if r.1 = -1 then r.2 else r.2.leave i [r.1]
  | .putc c i =>
    let r := putc c i s
    some (if r.1 = -1 then r.2 else r.2.enter i [toUchar c])
  | .getcf => (getcf s).map fun r => { r.2 with held := r.1 :: r.2.held }
  | .putcf cp =>
    if cp ∈ s.held then some (putcf cp { s with held := s.held.erase cp }) else none
  | .getcb i => (getcb i s).map fun r =>
    match r.1 with
    | none => r.2
    | some cp => { r.2.leave i (s.block cp).bytes with held := cp :: s.held }
  | .putcb cp i =>
    if cp ∈ s.held ∧ (s.block cp).Full then
      some ((putcb cp i { s with held := s.held.erase cp }).enter i (s.block cp).bytes)
    else none
  | .fill cp b => if cp ∈ s.held then some (s.setBlock cp b) else none

/-- All lists are empty, and the blocks were freed one after the other. -/
def State.init (v : Pool) : State where
  clist _ := ⟨0, none, none⟩
  block cp := ⟨if cp = 0 then none else some (cp - 1), 0, 0, fun _ => 0⟩
  c_next := if v.nclist = 0 then none else some (v.nclist - 1)
  held := []
  bytesIn _ := []
  bytesOut _ := []

/-- Any number of lists, and the blocks of a pool. -/
def clists (v : Pool) : Machine State Action where
  init s := s = .init v
  next := next

end AuxKernel.Tty
