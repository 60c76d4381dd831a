import AuxKernel.Net.Sockbuf

/-!
# Sending on a socket

`sosend` (`NET/sys/socket.c`). The message is copied into mbufs as long as there is space in
the send buffer, which is measured in bytes and in the storage of the mbufs, and what has been
copied is given to the protocol; then the rest is sent in the same way.

What happens around the call is given for each time it looks at the socket: the state it
sees, the mbufs it gets, and what the protocol answers.
-/

namespace AuxKernel.Net.Send

variable {α : Type*}

/-- The limits and the counts of a send buffer. -/
structure Sndbuf where
  sb_cc : ℤ
  sb_hiwat : ℤ
  sb_mbcnt : ℤ
  sb_mbmax : ℤ
  deriving DecidableEq, Repr

def sbspace (sb : Sndbuf) : ℤ := min (sb.sb_hiwat - sb.sb_cc) (sb.sb_mbmax - sb.sb_mbcnt)

/-- An mbuf of `len` bytes, in a cluster or not. -/
def sballoc (sb : Sndbuf) (len : ℕ) (cluster : Bool) : Sndbuf :=
  { sb with
    sb_cc := toShort (sb.sb_cc + len)
    sb_mbcnt :=
      let mbcnt := toShort (sb.sb_mbcnt + MSIZE)
      if cluster then toShort (mbcnt + MCLBYTES) else mbcnt }

/-- What a socket is: the flags of its protocol, and whether an address is given. -/
structure Kind where
  pr_atomic : Bool
  pr_connrequired : Bool
  msg_oob : Bool
  nam : Bool
  deriving DecidableEq, Repr

/-- What a call finds when it looks at the socket. -/
structure Look where
  ss_cantsendmore : Bool
  so_error : Option Errno
  ss_isconnected : Bool
  ss_nbio : Bool
  so_snd : Sndbuf
  deriving DecidableEq, Repr

/-- What there is for an mbuf: the mbuf, a cluster for it, and whether the data for it are
    accessible. -/
structure Supply where
  mget : Bool
  mclget : Bool
  readable : Bool
  deriving DecidableEq, Repr

/-- The number of bytes that are left (`uio_resid`). -/
def resid (uio : List (List α)) : ℕ := (uio.map List.length).sum

/-- What the loop that copies has come to. -/
inductive Filled (α : Type*)
  | asleep
  | failed (error : Errno)
  | full (top : List α) (uio : List (List α))

/-- How much of `iov` is copied into the next mbuf, and whether that gets a cluster. -/
def piece (s : Supply) (space : ℤ) (iov : List α) : ℕ × Bool :=
  if (iov.length ≥ MCLBYTES ∧ space ≥ MCLBYTES) ∧ s.mclget then (MCLBYTES, true)
  else (min MLEN iov.length, false)

/-- The space behind an mbuf, and the copy of the send buffer with it. -/
def behind (oob : Bool) (space : ℤ) (sendtempbuf : Sndbuf) (len : ℕ) (cluster : Bool) :
    ℤ × Sndbuf :=
  if oob then (space - len, sendtempbuf)
  else (sbspace (sballoc sendtempbuf len cluster), sballoc sendtempbuf len cluster)

/-- Copy into mbufs while there are data and space. -/
def fill (oob : Bool) : List Supply → (space : ℤ) → (sendtempbuf : Sndbuf) →
    (uio : List (List α)) → (top : List α) → Filled α
  | [], space, _, uio, top => if resid uio > 0 ∧ space > 0 then .asleep else .full top uio
  | s :: supply, space, sendtempbuf, uio, top =>
    if resid uio > 0 ∧ space > 0 then
      match uio.dropWhile List.isEmpty with
      | [] => .full top uio
      | iov :: uio =>
        if !s.mget then .failed .enobufs
        else
          let (len, cluster) := piece s space iov
          if !s.readable then .failed .efault
          else
            let (space, sendtempbuf) := behind oob space sendtempbuf len cluster
            fill oob supply space sendtempbuf (iov.drop len :: uio) (top ++ iov.take len)
    else .full top uio

/-- What a look at the socket leads to: an end, a sleep, or the loop with some space. -/
inductive Admission
  | refused (error : Option Errno)
  | wait
  | room (space : ℤ)
  deriving DecidableEq, Repr

/-- Whether there is something to send now. -/
def admission (k : Kind) (l : Look) (first : Bool) (uio : List (List α)) : Admission :=
  if l.ss_cantsendmore then .refused (some .epipe)
  else if l.so_error.isSome then .refused l.so_error
  else if !l.ss_isconnected ∧ k.pr_connrequired then .refused (some .enotconn)
  else if !l.ss_isconnected ∧ !k.nam then .refused (some .edestaddrreq)
  else if k.msg_oob then .room 1024
  else
    let space := sbspace l.so_snd
    if space ≤ 0 ∨ (k.pr_atomic ∧ space < resid uio) ∨
        (resid uio ≥ MCLBYTES ∧ space < MCLBYTES ∧ l.so_snd.sb_cc ≥ MCLBYTES ∧ !l.ss_nbio) then
      if l.ss_nbio then .refused (if first then some .ewouldblock else none) else .wait
    else .room space

/-- A look at the socket, the mbufs there are then, and what the protocol answers if it gets
    something. -/
structure Turn where
  look : Look
  supply : List Supply
  answer : Option Errno

/-- What the protocol was given (`PRU_SEND`), and its answer. -/
structure Request (α : Type*) where
  top : List α
  answer : Option Errno
  deriving DecidableEq, Repr

/-- Whether the call has returned, and the error then. -/
inductive Outcome
  | blocked
  | returned (error : Option Errno)
  deriving DecidableEq, Repr

def sosendLoop (k : Kind) : List Turn → (first : Bool) → (uio : List (List α)) →
    Outcome × List (Request α)
  | [], _, _ => (.blocked, [])
  | t :: turns, first, uio =>
    match admission k t.look first uio with
    | .refused error => (.returned error, [])
    | .wait => sosendLoop k turns first uio
    | .room space =>
      match fill k.msg_oob t.supply space t.look.so_snd uio [] with
      | .asleep => (.blocked, [])
      | .failed error => (.returned (some error), [])
      | .full top uio =>
        let request := ⟨top, t.answer⟩
        if t.answer.isSome ∨ resid uio = 0 then (.returned t.answer, [request])
        else
          -- The rest is sent as another message.
          let (outcome, requests) := sosendLoop k turns (first && top.isEmpty) uio
          (outcome, request :: requests)

/-- Send a message on a socket whose send buffer has a limit of `sb_hiwat` bytes. -/
def sosend (k : Kind) (sb_hiwat : ℤ) (turns : List Turn) (uio : List (List α)) :
    Outcome × List (Request α) :=
  if k.pr_atomic ∧ resid uio > sb_hiwat then (.returned (some .emsgsize), [])
  else sosendLoop k turns true uio

end AuxKernel.Net.Send
