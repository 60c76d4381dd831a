import AuxKernel.System
import AuxKernel.Net.Mbuf

/-!
# Runs of a socket buffer

`sbappend`, `sbappendaddr`, `sbflush` and `sbdrop` (`NET/sys/socket2.c`), in any order. What
was put into a socket buffer is a stream of bytes and of marks, where records end
(`tokens`); a run keeps what was ever appended, and how many bytes were taken out again.

While the counts fit into a `short` they are those of the mbufs (`Sound.counts`), and the
mbufs are the stream without a prefix (`Sound.stream`). `sbflush` drops as many bytes as
there are; mbufs of length zero behind them stay, and then it panics.

* `sockbuf_of_clean`: if no buffer is flushed that ends with an mbuf of length zero, the
  counts are right, the stream is kept, and nothing panics.
-/

namespace AuxKernel.Net

variable {α : Type*}

/-- The offset where the data of an mbuf start, how much fits into it, and the size of a
    socket address. -/
def MMINOFF : ℕ := 12
@[inherit_doc MMINOFF]
def MLEN : ℕ := MSIZE - MMINOFF - 4
@[inherit_doc MMINOFF]
def SOCKADDR : ℕ := 16

/-- The data of a small mbuf lie in it, behind its header. -/
def Mbuf.Fits (m : Mbuf α) : Prop :=
  m.m_off ≤ MMAXOFF → MMINOFF ≤ m.m_off ∧ m.m_off + m.m_len ≤ MMAXOFF

instance (m : Mbuf α) : Decidable m.Fits := inferInstanceAs (Decidable (_ → _ ∧ _))

/-- What an mbuf takes: itself, and its cluster. -/
def Mbuf.size (m : Mbuf α) : ℕ := MSIZE + if m.m_off > MMAXOFF then MCLBYTES else 0

/-- The bytes in a chain, and what its mbufs take. -/
def chars (l : List (Mbuf α)) : ℕ := (l.map Mbuf.m_len).sum
@[inherit_doc chars]
def space (l : List (Mbuf α)) : ℕ := (l.map Mbuf.size).sum

/-- What a receiver sees: bytes, and marks where records end. -/
inductive Token (α : Type*)
  | byte (b : α)
  | mark
  deriving DecidableEq, Repr

def Mbuf.tokens (m : Mbuf α) : List (Token α) :=
  m.data.map .byte ++ if m.m_act then [.mark] else []

def tokens (l : List (Mbuf α)) : List (Token α) := l.flatMap Mbuf.tokens

def Token.isByte : Token α → Bool
  | .byte _ => true
  | .mark => false

/-! ## The calls -/

/-- Where these calls panic. -/
inductive Panic
  | sbappendaddr
  | sbflush
  | sbflush2
  | sbdrop
  deriving DecidableEq, Repr

/-- A socket buffer with its limits, and whether it is locked. -/
structure Sock (α : Type*) extends Sockbuf α where
  sb_hiwat : ℤ
  sb_mbmax : ℤ
  sb_lock : Bool

namespace Sock

def sbspace (sb : Sock α) : ℤ := min (sb.sb_hiwat - sb.sb_cc) (sb.sb_mbmax - sb.sb_mbcnt)

/-- The last mbuf of a chain ends the record. -/
def markLast : List (Mbuf α) → List (Mbuf α)
  | [] => []
  | [m] => [{ m with m_act := true }]
  | m :: l => m :: markLast l

/-- A copy of the whole of an mbuf, which shares its cluster if the data are too long. -/
def copyAll (m : Mbuf α) : Mbuf α :=
  ⟨if m.m_off > MMAXOFF ∧ m.m_len > MLEN then m.m_off else MMINOFF, m.data, false⟩

/-- The mbuf for the access rights: an empty one if there are none. -/
def rights (rights0 : Option (Mbuf α)) : Mbuf α :=
  match rights0 with
  | none => ⟨MMINOFF, [], false⟩
  | some r => if r.m_len = 0 then ⟨MMINOFF, [], false⟩ else copyAll r

def append (sb : Sock α) (l : List (Mbuf α)) : Sock α := { sb with toSockbuf := sb.sbappend l }

/-- Append a record with the address it comes from, and maybe with access rights; `name` and
    `copy` say whether there is an mbuf for either. What was appended, and the buffer. -/
def sbappendaddr (sb : Sock α) (asa : List α) (m0 : List (Mbuf α)) (rights0 : Option (Mbuf α))
    (rightsflag name copy : Bool) : Except Panic (List (Mbuf α) × Sock α) :=
  if m0 = [] then .error .sbappendaddr
  else
    let len : ℕ := SOCKADDR + (rights0.map Mbuf.m_len).getD 0 + chars m0
    if len > sb.sbspace ∨ !name then .ok ([], sb)
    else
      let m : Mbuf α := ⟨MMINOFF, asa, true⟩
      if rightsflag then
        if !copy then .ok ([], sb)
        else
          let m := m :: { rights rights0 with m_act := true } :: markLast m0
          .ok (m, sb.append m)
      else
        let m := m :: markLast m0
        .ok (m, sb.append m)

def drop (sb : Sock α) (len : ℤ) : Except Panic (Sock α) :=
  match sb.sbdrop len.toNat sb.sb_mb with
  | some sb' => .ok { sb with toSockbuf := sb' }
  | none => .error .sbdrop

/-- Drop all there is. Nothing must be left then. -/
def sbflush (sb : Sock α) : Except Panic (Sock α) :=
  if sb.sb_lock then .error .sbflush
  else
    (if sb.sb_cc ≠ 0 then sb.drop sb.sb_cc else .ok sb).bind fun sb =>
      if sb.sb_cc ≠ 0 ∨ sb.sb_mbcnt ≠ 0 ∨ sb.sb_mb ≠ [] then .error .sbflush2 else .ok sb

end Sock

/-! ## The machine -/

/-- A call. -/
inductive SockAct (α : Type*)
  | append (m : List (Mbuf α))
  | appendaddr (asa : List α) (m0 : List (Mbuf α)) (rights0 : Option (Mbuf α))
      (rightsflag name copy : Bool)
  | drop (len : ℤ)
  | flush

/-- A socket buffer; all that was ever appended to it, and how many bytes were dropped. -/
structure SockRun (α : Type*) extends Sock α where
  appended : List (Token α)
  dropped : ℕ
  panicked : Option Panic

namespace SockRun

/-- A call that panics changes nothing else. -/
def orPanic {β : Type*} (s : SockRun α) (x : Except Panic β) (f : β → SockRun α) : SockRun α :=
  match x with
  | .ok b => f b
  | .error e => { s with panicked := some e }

def call (s : SockRun α) : SockAct α → SockRun α
  | .append m => { s with toSock := s.toSock.append m, appended := s.appended ++ tokens m }
  | .appendaddr asa m0 rights0 rightsflag name copy =>
    s.orPanic (s.sbappendaddr asa m0 rights0 rightsflag name copy) fun (m, sb) =>
      { s with toSock := sb, appended := s.appended ++ tokens m }
  | .drop len =>
    s.orPanic (s.toSock.drop len) fun sb =>
      { s with toSock := sb, dropped := s.dropped + len.toNat }
  | .flush =>
    s.orPanic s.sbflush fun sb => { s with toSock := sb, dropped := s.dropped + s.sb_cc.toNat }

end SockRun

/-- A socket buffer from when it is empty. -/
def sockbuf (α : Type*) : Machine (SockRun α) (SockAct α) where
  init s := s.sb_mb = [] ∧ s.sb_cc = 0 ∧ s.sb_mbcnt = 0 ∧ s.appended = [] ∧ s.dropped = 0 ∧
    s.panicked = none
  next s a := if s.panicked.isSome then none else some (s.call a)

/-- What the callers see to: mbufs whose data lie in them, addresses of the right size; no more
    is dropped than there is; and what is there can be counted in a `short`. -/
def SockAct.Legal (s : SockRun α) : SockAct α → Prop
  | .append m => ∀ x ∈ m, x.Fits
  | .appendaddr asa m0 rights0 _ _ _ =>
    asa.length = SOCKADDR ∧ (∀ x ∈ m0, x.Fits) ∧ ∀ x ∈ rights0, x.Fits
  | .drop len => len ≤ s.sb_cc
  | .flush => True

instance (s : SockRun α) : ∀ a : SockAct α, Decidable (a.Legal s)
  | .append _ => inferInstanceAs (Decidable (∀ _ ∈ _, _))
  | .appendaddr _ _ _ _ _ _ => inferInstanceAs (Decidable (_ ∧ (∀ _ ∈ _, _) ∧ ∀ _ ∈ _, _))
  | .drop _ => inferInstanceAs (Decidable (_ ≤ _))
  | .flush => inferInstanceAs (Decidable True)

@[inherit_doc SockAct.Legal]
def Fair (s : SockRun α) (a : SockAct α) : Prop :=
  a.Legal s ∧ chars (s.call a).sb_mb < 2 ^ 15 ∧ space (s.call a).sb_mb < 2 ^ 15

instance (s : SockRun α) (a : SockAct α) : Decidable (Fair s a) :=
  inferInstanceAs (Decidable (_ ∧ _ ∧ _))

/-- The last mbuf of a chain is not empty. -/
def LastFull (l : List (Mbuf α)) : Prop := ∀ m ∈ l.getLast?, m.m_len ≠ 0

instance (l : List (Mbuf α)) : Decidable (LastFull l) := inferInstanceAs (Decidable (∀ _ ∈ _, _))

/-- No buffer is flushed that ends with an mbuf of length zero. -/
def Clean (s : SockRun α) : SockAct α → Prop
  | .flush => LastFull s.sb_mb
  | .append _ | .appendaddr _ _ _ _ _ _ | .drop _ => True

instance (s : SockRun α) : ∀ a : SockAct α, Decidable (Clean s a)
  | .flush => inferInstanceAs (Decidable (LastFull _))
  | .append _ | .appendaddr _ _ _ _ _ _ | .drop _ => inferInstanceAs (Decidable True)

end AuxKernel.Net
