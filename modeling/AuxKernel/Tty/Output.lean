import AuxKernel.Basic
import AuxKernel.System

/-!
# Output to a terminal

`ttxput` and `ttout` (`COMMON/io/tt1.c`): characters are put on the output queue of a terminal, with
delays after some of them, and are got off it in packets. A delay is on the queue as `QESC` and a
byte greater than it; the character `QESC` is there twice.

The output queue is the list of its bytes (`AuxKernel.Tty.Fifo` is about its blocks), which there
are always blocks for. Where the bytes of a packet lie, the wakeups and the statistics are left out.
The machine also remembers what has been put, and what has been sent.
-/

namespace AuxKernel.Tty.Output

/-- The escape on the queue. -/
def QESC : BitVec 8 := 0o200

/-! ## Modes -/

def OPOST : BitVec 16 := 0o1
def OLCUC : BitVec 16 := 0o2
def ONLCR : BitVec 16 := 0o4
def OCRNL : BitVec 16 := 0o10
def ONOCR : BitVec 16 := 0o20
def ONLRET : BitVec 16 := 0o40
def OFILL : BitVec 16 := 0o100
def OFDEL : BitVec 16 := 0o200
def NLDLY : BitVec 16 := 0o400
def CRDLY : BitVec 16 := 0o3000
def CR1 : BitVec 16 := 0o1000
def CR2 : BitVec 16 := 0o2000
def CR3 : BitVec 16 := 0o3000
def TABDLY : BitVec 16 := 0o14000
def TAB0 : BitVec 16 := 0
def TAB1 : BitVec 16 := 0o4000
def TAB2 : BitVec 16 := 0o10000
def BSDLY : BitVec 16 := 0o20000
def VTDLY : BitVec 16 := 0o40000
def FFDLY : BitVec 16 := 0o100000
def XCASE : BitVec 8 := 0o4

/-- `t_oflag`, and the low byte of `t_lflag`. -/
structure Modes where
  t_oflag : BitVec 16
  t_lflag : BitVec 8

/-- A flag is set. -/
def has (flg f : BitVec 16) : Prop := flg &&& f ≠ 0

instance (flg f : BitVec 16) : Decidable (has flg f) := inferInstanceAs (Decidable (_ ≠ _))

/-- What characters do: of the low six bits, 0 is to take a column, 1 to take none, and others are
    the cases of the switch in `ttxput`. -/
def partab : List ℕ := [
  0o001, 0o201, 0o201, 0o001, 0o201, 0o001, 0o001, 0o201,
  0o202, 0o004, 0o003, 0o205, 0o007, 0o206, 0o201, 0o001,
  0o201, 0o001, 0o001, 0o201, 0o001, 0o201, 0o201, 0o001,
  0o001, 0o201, 0o201, 0o001, 0o201, 0o001, 0o001, 0o201,
  0o200, 0o000, 0o000, 0o200, 0o000, 0o200, 0o200, 0o000,
  0o000, 0o200, 0o200, 0o000, 0o200, 0o000, 0o000, 0o200,
  0o000, 0o200, 0o200, 0o000, 0o200, 0o000, 0o000, 0o200,
  0o200, 0o000, 0o000, 0o200, 0o000, 0o200, 0o200, 0o000,
  0o200, 0o000, 0o000, 0o200, 0o000, 0o200, 0o200, 0o000,
  0o000, 0o200, 0o200, 0o000, 0o200, 0o000, 0o000, 0o200,
  0o000, 0o200, 0o200, 0o000, 0o200, 0o000, 0o000, 0o200,
  0o200, 0o000, 0o000, 0o200, 0o000, 0o200, 0o200, 0o000,
  0o000, 0o200, 0o200, 0o000, 0o200, 0o000, 0o000, 0o200,
  0o200, 0o000, 0o000, 0o200, 0o000, 0o200, 0o200, 0o000,
  0o200, 0o000, 0o000, 0o200, 0o000, 0o200, 0o200, 0o000,
  0o000, 0o200, 0o200, 0o000, 0o200, 0o000, 0o000, 0o201] ++ List.replicate 128 0o210

/-- What a character does. -/
def ctype (c : BitVec 8) : ℕ := partab.getD c.toNat 0 % 0o100

/-! ## Putting characters on the queue -/

/-- The column and the output queue. -/
structure Outq where
  t_col : BitVec 8
  t_outq : List (BitVec 8)
  deriving DecidableEq, Repr

def Outq.putc (c : BitVec 8) (tp : Outq) : Outq := { tp with t_outq := tp.t_outq ++ [c] }

/-- Put a character on the queue, and a delay, or characters that fill it. -/
def putDelay (flg : BitVec 16) (cs : BitVec 8) (c : ℤ) (tp : Outq) : Outq :=
  let tp := tp.putc cs
  if c = 0 then tp
  else if c < 32 ∧ has flg OFILL then
    let cs := if has flg OFDEL then 0o177 else 0
    let tp := tp.putc cs
    if c > 3 then tp.putc cs else tp
  else (tp.putc QESC).putc (BitVec.ofInt 8 c ||| 0o200)

/-- The delay of a carriage return. The column is a `char`, what it is compared with `unsigned`. -/
def crDelay (flg : BitVec 16) (t_col : BitVec 8) : ℤ :=
  if flg &&& CRDLY = CR1 then
    if t_col ≠ 0 then toLong (max ((t_col.toInt / 16 + 3) % 2 ^ 32) 6) else 0
  else if flg &&& CRDLY = CR2 then 5
  else if flg &&& CRDLY = CR3 then 9
  else 0

/-- From the label `qcr` on. -/
def putCr (flg : BitVec 16) (cs : BitVec 8) (tp : Outq) : Outq :=
  putDelay flg cs (crDelay flg tp.t_col) { tp with t_col := 0 }

/-- From the label `qnl` on. -/
def putNl (flg : BitVec 16) (cs : BitVec 8) (tp : Outq) : Outq :=
  putDelay flg cs (if has flg NLDLY then 5 else 0) tp

/-- Put a tab on the queue, or spaces for it. -/
def putTab (flg : BitVec 16) (cs : BitVec 8) (tp : Outq) : Outq :=
  let c := 8 - tp.t_col.toNat % 8
  let tp := { tp with t_col := tp.t_col + BitVec.ofNat 8 c }
  if flg &&& TABDLY = TAB0 then putDelay flg cs 0 tp
  else if flg &&& TABDLY = TAB1 then putDelay flg cs (if c < 5 then 0 else c) tp
  else if flg &&& TABDLY = TAB2 then putDelay flg cs 2 tp
  else { tp with t_outq := tp.t_outq ++ List.replicate c 0o40 }

/-- The switch over what a character does, of which there are two copies. -/
def switch (flg : BitVec 16) (ctype : ℕ) (cs : BitVec 8) (tp : Outq) : Outq :=
  match ctype with
  | 0 => putDelay flg cs 0 { tp with t_col := tp.t_col + 1 }
  | 1 => putDelay flg cs 0 tp
  | 2 =>
    putDelay flg cs (if has flg BSDLY then 2 else 0)
      { tp with t_col := if tp.t_col ≠ 0 then tp.t_col - 1 else tp.t_col }
  | 3 =>
    if has flg ONLRET then putCr flg cs tp
    else if has flg ONLCR then
      putCr flg cs (if has flg ONOCR ∧ tp.t_col = 0 then tp else tp.putc 0o15)
    else putNl flg cs tp
  | 4 => putTab flg cs tp
  | 5 => putDelay flg cs (if has flg VTDLY then 0o177 else 0) tp
  | 6 =>
    if has flg OCRNL then putNl flg 0o12 tp
    else if has flg ONOCR ∧ tp.t_col = 0 then tp
    else putCr flg cs tp
  | 7 => putDelay flg cs (if has flg FFDLY then 0o177 else 0) tp
  | _ => putDelay flg cs 0 tp

/-- A character that is not ASCII. -/
def putHigh (c : BitVec 8) (tp : Outq) : Outq :=
  (if c = QESC then tp.putc QESC else tp).putc c

/-- A character, where there is no mapping. -/
def putPlain (flg : BitVec 16) (tp : Outq) (c : BitVec 8) : Outq :=
  if ctype c = 0 then { tp with t_col := tp.t_col + 1 }.putc c
  else if ctype c = 1 then tp.putc c
  else if c ≥ 0o200 then putHigh c tp
  else switch flg (ctype c) c tp

/-- What characters are on terminals with upper case only, after a backslash: `({`, `)}`, `!|`,
    `^~`, `'` and the grave accent, and backslashes. -/
def escapes : List (BitVec 8 × BitVec 8) :=
  [(0o50, 0o173), (0o51, 0o175), (0o41, 0o174), (0o136, 0o176), (0o47, 0o140), (0o134, 0o134)]

/-- The escapes for upper-case-only terminals. The backslash is a `ttxput` of its own, of a
    character that is not ASCII. -/
def putEscapes (c : BitVec 8) (tp : Outq) : BitVec 8 × Outq :=
  let (c, tp) := match escapes.find? fun p => p.2 = c with
    | some p => (p.1, putHigh (0o134 ||| 0o200) tp)
    | none => (c, tp)
  (c, if 0o101 ≤ c ∧ c ≤ 0o132 then putHigh (0o134 ||| 0o200) tp else tp)

/-- Upper case, if there is no other. -/
def upper (flg : BitVec 16) (c : BitVec 8) : BitVec 8 :=
  if has flg OLCUC ∧ 0o141 ≤ c ∧ c ≤ 0o172 then c + 0o101 - 0o141 else c

/-- A character, where there may be a mapping. -/
def putMapped (m : Modes) (tp : Outq) (c : BitVec 8) : Outq :=
  if c ≥ 0o200 then putHigh c tp
  else
    let (c, tp) := if m.t_lflag &&& XCASE ≠ 0 then putEscapes c tp else (c, tp)
    let c := upper m.t_oflag c
    switch m.t_oflag (ctype c) c tp

/-- How many columns a block takes, if all of its characters take one or none. -/
def ttxchk : List (BitVec 8) → (n : ℕ) → Option ℕ
  | [], n => some n
  | c :: l, n =>
    if c &&& 0o200 ≠ 0 then none
    else if ctype c = 0 then ttxchk l (n + 1)
    else if ctype c ≠ 1 then none
    else ttxchk l n

/-- What is put: a character, or a block, in which there is one at least. -/
inductive Arg
  | char (c : BitVec 8)
  | block (c : BitVec 8) (l : List (BitVec 8))
  deriving DecidableEq, Repr

/-- The bytes of it. -/
def Arg.bytes : Arg → List (BitVec 8)
  | .char c => [c]
  | .block c l => c :: l

/-- `ttxput` -/
def ttxput (m : Modes) (tp : Outq) (arg : Arg) : Outq :=
  if ¬has m.t_oflag OPOST then { tp with t_outq := tp.t_outq ++ arg.bytes }
  else if m.t_lflag &&& XCASE = 0 ∧ ¬has m.t_oflag OLCUC then
    match (if arg.bytes.length > 1 then ttxchk arg.bytes 0 else none) with
    | some n =>
      { t_col := tp.t_col + BitVec.ofNat 8 n, t_outq := tp.t_outq ++ arg.bytes }
    | none => arg.bytes.foldl (putPlain m.t_oflag) tp
  else arg.bytes.foldl (putMapped m) tp

/-! ## Getting packets off the queue -/

/-- What goes to the terminal: characters, or a timeout. -/
inductive Xmit
  | packet (l : List (BitVec 8))
  | timeout (ticks : ℕ)
  deriving DecidableEq, Repr

/-- The loop of `ttout`: the packet so far, `l`, and what follows it on the queue. The packet, the
    delay after it, and the rest of the queue. -/
def packet (c_size : ℕ) (l : List (BitVec 8)) : List (BitVec 8) →
    List (BitVec 8) × Option (BitVec 8) × List (BitVec 8)
  | [] => (l, none, [])
  | c :: q =>
    if c = QESC then
      match q with
      | [] => (l, none, [])
      | c :: q =>
        if c > 0o200 then (l, some c, q)
        else if l.length + 1 ≥ c_size then (l ++ [c], none, q)
        else packet c_size (l ++ [c]) q
    else if l.length + 1 ≥ c_size then (l ++ [c], none, q)
    else packet c_size (l ++ [c]) q

/-- The output queue, and the delay that is due (the high byte of `t_lflag`). -/
structure Tty extends Outq where
  hibyte : BitVec 8
  deriving DecidableEq, Repr

/-- From the label `delay` on, if there is one. -/
def delay (tp : Tty) : Option Xmit × Tty :=
  (some (.timeout ((tp.hibyte &&& 0o177).toNat + 6)), { tp with hibyte := 0 })

/-- `ttout`, with the size of packets: what goes to the terminal, if anything does. -/
def ttout (m : Modes) (c_size : ℕ) (tp : Tty) : Option Xmit × Tty :=
  if tp.hibyte ≠ 0 then delay tp
  else if ¬has m.t_oflag OPOST then
    (if tp.t_outq.isEmpty then none else some (.packet (tp.t_outq.take (max c_size 1))),
      { tp with t_outq := tp.t_outq.drop (max c_size 1) })
  else
    let (l, d, q) := packet c_size [] tp.t_outq
    let tp := { tp with t_outq := q }
    match d with
    | some d =>
      let tp := { tp with hibyte := d }
      if l.isEmpty then delay tp else (some (.packet l), tp)
    | none => (if l.isEmpty then none else some (.packet l), tp)

/-! ## The machine -/

/-- The terminal; the column at the start, what has been put, and what has been sent. -/
structure State extends Tty where
  start : BitVec 8
  given : List (BitVec 8)
  sent : List Xmit

/-- The calls. Packets may be of any sizes. -/
inductive Act
  | ttxput (arg : Arg)
  | ttout (c_size : ℕ)

/-- A terminal from when its queue is empty. -/
def terminal (m : Modes) : Machine State Act where
  init s := s.t_outq = [] ∧ s.hibyte = 0 ∧ s.start = s.t_col ∧ s.given = [] ∧ s.sent = []
  next s
    | .ttxput arg => some { s with
        toOutq := ttxput m s.toOutq arg
        given := s.given ++ arg.bytes }
    | .ttout c_size =>
      let (x, tp) := ttout m c_size s.toTty
      some { s with toTty := tp, sent := s.sent ++ x.toList }

end AuxKernel.Tty.Output
