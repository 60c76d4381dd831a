import AuxKernel.System
import AuxKernel.Basic

/-!
# Internet protocol control blocks

`in_pcballoc`, `in_pcbbind`, `in_pcbconnect`, `in_pcbdisconnect`, `in_pcbdetach` and
`in_pcblookup` (`NETinet/sys/in_pcb.c`), on the blocks of one protocol: a block has a
local and a foreign address and port, each `0` where it is not set (a wildcard). A
local port that the caller does not give is the next one, from a counter in the head
of the list, that no block matches.

What is outside of the list is part of a call: the interfaces, the route to the
destination, and the options of the socket. The host is big-endian, so that `htons`
changes nothing.
-/

namespace AuxKernel.InPcb

/-- Ports below this one are reserved. -/
def IPPORT_RESERVED : ℕ := 1024

def INADDR_ANY : ℕ := 0
def INADDR_BROADCAST : ℕ := 2 ^ 32 - 1

/-- A control block, by its address `id`, and what is read of its socket. -/
structure Inpcb where
  id : ℕ
  inp_laddr : ℕ
  inp_lport : ℕ
  inp_faddr : ℕ
  inp_fport : ℕ
  so_reuseaddr : Bool
  so_acceptconn : Bool
  ss_nofdref : Bool
  deriving DecidableEq, Repr

/-- The blocks of a protocol from the head of the list on, and the counter in the head;
    whether the protocol needs connections (`PR_CONNREQUIRED`). -/
structure Pcbs where
  pcbs : List Inpcb
  head_lport : ℕ
  pr_connrequired : Bool

/-- An address given by a caller, of the right length. -/
structure Sockaddr where
  sin_family_inet : Bool
  sin_addr : ℕ
  sin_port : ℕ

/-- The interfaces: whether there are any, the primary address with the broadcast address
    of its interface, the addresses they have, and the address that is picked for a
    destination. There is an address only if there is an interface. -/
structure Ifs where
  ifnet : Bool
  in_ifaddr : Option (ℕ × Option ℕ)
  ifa_ifwithaddr : ℕ → Bool
  ifaddr : ℕ → Option ℕ
  ifnet_of_ifaddr : ∀ a, (ifaddr a).isSome → ifnet = true

/-! ## Lookups -/

/-- Whether the local addresses of a block and a lookup match by a wildcard; `none` where
    they differ. -/
def localWild (inp : Inpcb) (laddr : ℕ) : Option ℕ :=
  if inp.inp_laddr ≠ INADDR_ANY then
    if laddr = INADDR_ANY then some 1
    else if inp.inp_laddr ≠ laddr then none
    else some 0
  else if laddr ≠ INADDR_ANY then some 1
  else some 0

/-- The same for the foreign addresses, with their ports. -/
def foreignWild (inp : Inpcb) (faddr fport : ℕ) : Option ℕ :=
  if inp.inp_faddr ≠ INADDR_ANY then
    if faddr = INADDR_ANY then some 1
    else if inp.inp_faddr ≠ faddr ∨ inp.inp_fport ≠ fport then none
    else some 0
  else if faddr ≠ INADDR_ANY then some 1
  else some 0

/-- The wildcards in the match of a block; `none` where it does not match. -/
def wildcards (inp : Inpcb) (faddr fport laddr : ℕ) : Option ℕ :=
  (localWild inp laddr).bind fun wildcard =>
    (foreignWild inp faddr fport).map fun n => wildcard + n

/-- The loop of a lookup, with the best match so far. -/
def lookupLoop (faddr fport laddr lport : ℕ) (wild : Bool) :
    List Inpcb → (best : Option Inpcb) → (matchwild : ℕ) → Option Inpcb
  | [], best, _ => best
  | inp :: l, best, matchwild =>
    if inp.inp_lport ≠ lport then lookupLoop faddr fport laddr lport wild l best matchwild
    else
      match wildcards inp faddr fport laddr with
      | none => lookupLoop faddr fport laddr lport wild l best matchwild
      | some wildcard =>
        if wildcard ≠ 0 ∧ wild = false then
          lookupLoop faddr fport laddr lport wild l best matchwild
        else if wildcard < matchwild then
          if wildcard = 0 then some inp
          else lookupLoop faddr fport laddr lport wild l (some inp) wildcard
        else lookupLoop faddr fport laddr lport wild l best matchwild

/-- Look for a block; `wild` is `INPLOOKUP_WILDCARD`. -/
def in_pcblookup (l : List Inpcb) (faddr fport laddr lport : ℕ) (wild : Bool) : Option Inpcb :=
  lookupLoop faddr fport laddr lport wild l none 3

/-! ## Calls -/

/-- The list with the block `inp` in place of the one at its address. -/
def set (inp : Inpcb) (l : List Inpcb) : List Inpcb :=
  l.map fun q => if q.id = inp.id then inp else q

/-- The counter moved on; it is a `u_short`. -/
def nextPort (lport : ℕ) : ℕ :=
  if lport < IPPORT_RESERVED then IPPORT_RESERVED else (lport + 1) % 2 ^ 16

/-- The next port that no block matches, in at most `n` turns. -/
def ephemeral (l : List Inpcb) (laddr : ℕ) : (n lport : ℕ) → Option ℕ
  | 0, _ => none
  | n + 1, lport =>
    if (in_pcblookup l 0 0 laddr (nextPort lport) true).isSome then
      ephemeral l laddr n (nextPort lport)
    else some (nextPort lport)

/-- Give the block `inp` a port of the system, at the local address it has. The ports
    repeat after `2 ^ 16` turns; it does not return (`none`) if none of them will do. -/
def noname (s : Pcbs) (inp : Inpcb) : Option Pcbs :=
  let l := set inp s.pcbs
  (ephemeral l inp.inp_laddr (2 ^ 16) s.head_lport).map fun lport =>
    { s with pcbs := set { inp with inp_lport := lport } l, head_lport := lport }

/-- Bind the block `inp` to the address `nam`, if there is one; it may have the wrong length
    (`none`). It returns an error, or none. -/
def in_pcbbind (s : Pcbs) (inp : Inpcb) (ifs : Ifs) (suser : Bool)
    (nam : Option (Option Sockaddr)) : Option (Pcbs × Option Errno) :=
  if ifs.ifnet = false then some (s, some .eaddrnotavail)
  else if inp.inp_lport ≠ 0 ∨ inp.inp_laddr ≠ INADDR_ANY then some (s, some .einval)
  else
    match nam with
    | none => (noname s inp).map (·, none)
    | some none => some (s, some .einval)
    | some (some sin) =>
      if sin.sin_addr ≠ INADDR_ANY ∧ ifs.ifa_ifwithaddr sin.sin_addr = false then
        some (s, some .eaddrnotavail)
      else if sin.sin_port = 0 then
        (noname s { inp with inp_laddr := sin.sin_addr }).map (·, none)
      else if sin.sin_port < IPPORT_RESERVED ∧ suser = false then some (s, some .eacces)
      else
        let wild := !inp.so_reuseaddr && (!s.pr_connrequired || !inp.so_acceptconn)
        if (in_pcblookup s.pcbs 0 0 sin.sin_addr sin.sin_port wild).isSome then
          some (s, some .eaddrinuse)
        else
          let inp := { inp with inp_laddr := sin.sin_addr, inp_lport := sin.sin_port }
          some ({ s with pcbs := set inp s.pcbs }, none)

/-- The destination of a connection: for the wildcard, the primary address, and for the
    broadcast address that of its interface. -/
def destination (ifs : Ifs) (sin_addr : ℕ) : ℕ :=
  match ifs.in_ifaddr with
  | none => sin_addr
  | some (addr, broadaddr) =>
    if sin_addr = INADDR_ANY then addr
    else if sin_addr = INADDR_BROADCAST then broadaddr.getD sin_addr
    else sin_addr

/-- The block at the address `id`. -/
def find (l : List Inpcb) (id : ℕ) : Option Inpcb := l.find? (·.id = id)

/-- Connect the block `inp`, from the local address `laddr` that it has or that was picked
    for it, to the destination. -/
def setaddr (s : Pcbs) (inp : Inpcb) (ifs : Ifs) (faddr fport laddr : ℕ) :
    Option (Pcbs × Option Errno) :=
  if (in_pcblookup s.pcbs faddr fport laddr inp.inp_lport false).isSome then
    some (s, some .eaddrinuse)
  else
    let bound : Option Pcbs :=
      if inp.inp_laddr = INADDR_ANY ∧ inp.inp_lport = 0 then
        (in_pcbbind s inp ifs true none).map (·.1)
      else some s
    bound.map fun s =>
      let inp := (find s.pcbs inp.id).getD inp
      let inp := { inp with inp_laddr := laddr, inp_faddr := faddr, inp_fport := fport }
      ({ s with pcbs := set inp s.pcbs }, none)

def in_pcbsetaddr (s : Pcbs) (inp : Inpcb) (ifs : Ifs) (sin : Sockaddr) :
    Option (Pcbs × Option Errno) :=
  if sin.sin_family_inet = false then some (s, some .eafnosupport)
  else if sin.sin_port = 0 then some (s, some .eaddrnotavail)
  else
    let faddr := destination ifs sin.sin_addr
    if inp.inp_laddr = INADDR_ANY then
      match ifs.ifaddr faddr with
      | none => some (s, some .eaddrnotavail)
      | some laddr => setaddr s inp ifs faddr sin.sin_port laddr
    else setaddr s inp ifs faddr sin.sin_port inp.inp_laddr

/-- Connect the block `inp` to the address `nam`, which may have the wrong length. -/
def in_pcbconnect (s : Pcbs) (inp : Inpcb) (ifs : Ifs) (nam : Option Sockaddr) :
    Option (Pcbs × Option Errno) :=
  match nam with
  | none => some (s, some .einval)
  | some sin => in_pcbsetaddr s inp ifs sin

def in_pcbdetach (s : Pcbs) (inp : Inpcb) : Pcbs :=
  { s with pcbs := s.pcbs.filter (·.id ≠ inp.id) }

def in_pcbdisconnect (s : Pcbs) (inp : Inpcb) : Pcbs :=
  let inp := { inp with inp_faddr := INADDR_ANY, inp_fport := 0 }
  let s := { s with pcbs := set inp s.pcbs }
  if inp.ss_nofdref then in_pcbdetach s inp else s

/-- A cleared block at the head of the list, for a socket with the options. -/
def in_pcballoc (s : Pcbs) (id : ℕ) (so_reuseaddr so_acceptconn : Bool) : Pcbs :=
  { s with pcbs := ⟨id, 0, 0, 0, 0, so_reuseaddr, so_acceptconn, false⟩ :: s.pcbs }

/-! ## The machine -/

/-- The calls, on the block at the address `id`; and what else happens to its socket: the
    options are set, it is listened on, and its last file is closed. -/
inductive Act
  | alloc (id : ℕ) (so_reuseaddr so_acceptconn : Bool)
  | bind (id : ℕ) (ifs : Ifs) (suser : Bool) (nam : Option (Option Sockaddr))
  | connect (id : ℕ) (ifs : Ifs) (nam : Option Sockaddr)
  | disconnect (id : ℕ)
  | detach (id : ℕ)
  | socket (id : ℕ) (so_reuseaddr so_acceptconn ss_nofdref : Bool)

/-- The blocks of one protocol under the calls. At first there are none, and the
    counter is cleared. -/
def inpcbs : Machine Pcbs Act where
  init s := s.pcbs = [] ∧ s.head_lport = 0
  next s
    | .alloc id reuse accept =>
      if (find s.pcbs id).isNone then some (in_pcballoc s id reuse accept) else none
    | .bind id ifs suser nam =>
      (find s.pcbs id).bind fun inp => (in_pcbbind s inp ifs suser nam).map (·.1)
    | .connect id ifs nam =>
      (find s.pcbs id).bind fun inp => (in_pcbconnect s inp ifs nam).map (·.1)
    | .disconnect id => (find s.pcbs id).map (in_pcbdisconnect s)
    | .detach id => (find s.pcbs id).map (in_pcbdetach s)
    | .socket id reuse accept nofdref => (find s.pcbs id).map fun inp =>
      { s with
        pcbs := set { inp with
          so_reuseaddr := reuse, so_acceptconn := accept, ss_nofdref := nofdref } s.pcbs }

end AuxKernel.InPcb
