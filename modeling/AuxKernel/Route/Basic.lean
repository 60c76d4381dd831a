import AuxKernel.Basic
import AuxKernel.System
import Mathlib.Logic.Function.Basic

/-!
# Routes

The routing tables (`NET/sys/route.c`): entries in hashed chains, which the holders of route
structures refer to. An entry that is deleted while it is referred to is freed by the last one
who gives it up.

Of the callers there is what they do to their routes: `ip_output`, on the route of a pcb or on one
of its own, `in_pcbsetaddr` and `in_pcbdetach`. What addresses are, and how they are hashed and
matched, is left to the address families (`Afs`). Entries are named by the number of their
allocation; what is in the memory of one that has been freed is what was there before. Statistics
are left out.
-/

namespace AuxKernel.Route

/-- The address families: their hashes and matches, and the internet address in a socket
    address. -/
structure Afs (α : Type) where
  sa_family : α → ℕ
  AF_MAX : ℕ
  af_hosthash : α → ℕ
  af_nethash : α → ℕ
  af_netmatch : α → α → Bool
  wildcard : α
  sin_addr : α → ℕ
  setAddr : α → ℕ → α

/-- The number of chains. -/
def RTHASHSIZ : ℕ := 8

/-- An entry: its flags (`RTF_UP`, `RTF_HOST`, `RTF_GATEWAY`, `RTF_DYNAMIC`), and the interface,
    if it has one. -/
structure Rt (α ι : Type) where
  rt_hash : ℕ
  rt_dst : α
  rt_gateway : α
  rtf_up : Bool
  rtf_host : Bool
  rtf_gateway : Bool
  rtf_dynamic : Bool
  rt_refcnt : ℤ
  rt_use : ℕ
  rt_ifp : Option ι
  deriving DecidableEq, Repr

/-- The entries, the chains for hosts and for networks, how many entries have been allocated, those
    that have been freed, and how many are in no chain and not freed. -/
structure Rtab (α ι : Type) where
  rt : ℕ → Rt α ι
  chain : Bool → ℕ → List ℕ
  nalloc : ℕ
  freed : List ℕ
  rttrash : ℤ

/-- A route structure: where to, and the entry for it. -/
structure Ro (α : Type) where
  ro_dst : α
  ro_rt : Option ℕ
  deriving DecidableEq, Repr

variable {α ι : Type}

namespace Rtab

def set (s : Rtab α ι) (e : ℕ) (rt : Rt α ι) : Rtab α ι :=
  { s with rt := Function.update s.rt e rt }

/-- One reference more. -/
def hold (e : ℕ) (s : Rtab α ι) : Rtab α ι :=
  s.set e { s.rt e with rt_refcnt := toShort ((s.rt e).rt_refcnt + 1) }

/-- One reference less. -/
def drop (e : ℕ) (s : Rtab α ι) : Rtab α ι :=
  s.set e { s.rt e with rt_refcnt := toShort ((s.rt e).rt_refcnt - 1) }

def rtfree (e : ℕ) (s : Rtab α ι) : Rtab α ι :=
  let s := s.drop e
  if (s.rt e).rt_refcnt = 0 ∧ !(s.rt e).rtf_up then
    { s with rttrash := s.rttrash - 1, freed := s.freed ++ [e] }
  else s

/-- The macro, which calls `rtfree` for the last reference only. -/
def RTFREE (e : ℕ) (s : Rtab α ι) : Rtab α ι :=
  if (s.rt e).rt_refcnt = 1 then s.rtfree e else s.drop e

end Rtab

/-! ## Lookups -/

variable [DecidableEq α] (afs : Afs α) (if_up : Option ι → Bool)

/-- The entry has this hash, and can be used. -/
def Rt.works (rt : Rt α ι) (hash : ℕ) : Bool :=
  rt.rt_hash = hash ∧ rt.rtf_up ∧ if_up rt.rt_ifp

/-- Of all entries to a host, the one that has been used least. -/
def findHost (s : Rtab α ι) (dst : α) : List ℕ → (rtmin : Option ℕ) → Option ℕ
  | [], rtmin => rtmin
  | e :: l, rtmin =>
    if (s.rt e).works if_up (afs.af_hosthash dst) ∧ (s.rt e).rt_dst = dst ∧
        (rtmin.all fun m => decide ((s.rt e).rt_use < (s.rt m).rt_use)) then
      findHost s dst l (some e)
    else findHost s dst l rtmin

/-- The first entry to the network of `dst`. -/
def findNet (s : Rtab α ι) (af : ℕ) (dst : α) (hash : ℕ) (match' : α → α → Bool) : Option ℕ :=
  (s.chain false (hash % RTHASHSIZ)).find? fun e =>
    (s.rt e).works if_up hash ∧ afs.sa_family (s.rt e).rt_dst = af ∧ match' (s.rt e).rt_dst dst

/-- The entry for `dst`: to the host, to its network, or to any. -/
def find (s : Rtab α ι) (dst : α) : Option ℕ :=
  (findHost afs if_up s dst (s.chain true (afs.af_hosthash dst % RTHASHSIZ)) none).or <|
    (findNet afs if_up s (afs.sa_family dst) dst (afs.af_nethash dst) afs.af_netmatch).or
      (findNet afs if_up s (afs.sa_family dst) afs.wildcard 0 afs.af_netmatch)

/-- The route has an entry that can be used, but for its interface being down. -/
def Ro.usable (s : Rtab α ι) (ro : Ro α) : Bool :=
  ro.ro_rt.any fun e => (s.rt e).rt_ifp.isSome && (s.rt e).rtf_up

/-- Find an entry for a route. What it had before is not looked at any more. -/
def rtalloc (s : Rtab α ι) (ro : Ro α) : Ro α × Rtab α ι :=
  if ro.usable s ∨ afs.sa_family ro.ro_dst ≥ afs.AF_MAX then (ro, s)
  else
    match find afs if_up s ro.ro_dst with
    | some rtmin => ({ ro with ro_rt := some rtmin }, s.hold rtmin)
    | none => ({ ro with ro_rt := none }, s)

/-! ## Requests -/

/-- What is asked for: an entry with these flags. -/
structure Entry (α : Type) where
  rt_dst : α
  rt_gateway : α
  rtf_host : Bool
  rtf_gateway : Bool
  rtf_dynamic : Bool
  deriving DecidableEq, Repr

/-- The hash of an entry. -/
def Entry.hash (entry : Entry α) : ℕ :=
  if entry.rtf_host then afs.af_hosthash entry.rt_dst else afs.af_nethash entry.rt_dst

/-- The entry that is there already. -/
def Entry.find (entry : Entry α) (s : Rtab α ι) : Option ℕ :=
  (s.chain entry.rtf_host (entry.hash afs % RTHASHSIZ)).find? fun e =>
    (s.rt e).rt_hash = entry.hash afs ∧
      (if entry.rtf_host then (s.rt e).rt_dst = entry.rt_dst
      else afs.sa_family (s.rt e).rt_dst = afs.sa_family entry.rt_dst ∧
        afs.af_netmatch (s.rt e).rt_dst entry.rt_dst) ∧
      (s.rt e).rt_gateway = entry.rt_gateway

/-- Take an entry out of its chain. -/
def Rtab.unlink (host : Bool) (hash e : ℕ) (s : Rtab α ι) : Rtab α ι :=
  { s with chain := Function.update s.chain host (Function.update (s.chain host) (hash % RTHASHSIZ)
      ((s.chain host (hash % RTHASHSIZ)).erase e)) }

/-- Put a new entry at the head of its chain. -/
def Rtab.link (rt : Rt α ι) (s : Rtab α ι) : Rtab α ι :=
  { s with
    rt := Function.update s.rt s.nalloc rt
    chain := Function.update s.chain rt.rtf_host (Function.update (s.chain rt.rtf_host)
      (rt.rt_hash % RTHASHSIZ) (s.nalloc :: s.chain rt.rtf_host (rt.rt_hash % RTHASHSIZ)))
    nalloc := s.nalloc + 1 }

/-- `SIOCDELRT` -/
def delrt (entry : Entry α) (s : Rtab α ι) : Option Errno × Rtab α ι :=
  if afs.sa_family entry.rt_dst ≥ afs.AF_MAX ∨ afs.sa_family entry.rt_dst = 0 then
    (some .eafnosupport, s)
  else
    match entry.find afs s with
    | none => (some .esrch, s)
    | some e =>
      let s := s.unlink entry.rtf_host (entry.hash afs) e
      if (s.rt e).rt_refcnt > 0 then
        (none, { s.set e { s.rt e with rtf_up := false } with rttrash := s.rttrash + 1 })
      else (none, { s with freed := s.freed ++ [e] })

/-- `SIOCADDRT`, with the interface that is found for the gateway, if there is one, and whether
    there is an mbuf. -/
def addrt (entry : Entry α) (ifa : Option (Option ι)) (mget : Bool) (s : Rtab α ι) :
    Option Errno × Rtab α ι :=
  if afs.sa_family entry.rt_dst ≥ afs.AF_MAX ∨ afs.sa_family entry.rt_dst = 0 then
    (some .eafnosupport, s)
  else if (entry.find afs s).isSome then (some .eexist, s)
  else if afs.sa_family entry.rt_dst ≠ afs.sa_family entry.rt_gateway then (some .eafnosupport, s)
  else
    match ifa with
    | none => (some .enetunreach, s)
    | some ifa_ifp =>
      if !mget then (some .enobufs, s)
      else (none, s.link
        { rt_hash := entry.hash afs
          rt_dst := entry.rt_dst
          rt_gateway := entry.rt_gateway
          rtf_up := true
          rtf_host := entry.rtf_host
          rtf_gateway := entry.rtf_gateway
          rtf_dynamic := entry.rtf_dynamic
          rt_refcnt := 0
          rt_use := 0
          rt_ifp := ifa_ifp })

/-- Send what goes to `dst` through another gateway, if this can be reached (`direct`). The flags
    are those of the message. -/
def rtredirect (direct : Bool) (dst gateway : α) (rtf_host rtf_gateway : Bool)
    (ifa : Option (Option ι)) (mget : Bool) (s : Rtab α ι) : Rtab α ι :=
  if !direct then s
  else
    let (ro, s) := rtalloc afs if_up s ⟨dst, none⟩
    let (rt, s) := match ro.ro_rt with
      | some e => if afs.af_netmatch afs.wildcard (s.rt e).rt_dst then (none, s.rtfree e)
        else (some e, s)
      | none => (none, s)
    match rt with
    | none => (addrt afs ⟨dst, gateway, rtf_host, true, true⟩ ifa mget s).2
    | some e =>
      if !(s.rt e).rtf_host ∧ rtf_host then
        (addrt afs ⟨dst, gateway, rtf_host, rtf_gateway, true⟩ ifa mget (s.rtfree e)).2
      else (s.set e { s.rt e with rt_gateway := gateway }).rtfree e

/-! ## Callers -/

/-- What `ip_output` does to a route, to an interface only or not, before it sends to `ip_dst`. -/
def ip_output (toif : Bool) (ip_dst : ℕ) (s : Rtab α ι) (ro : Ro α) : Ro α × Rtab α ι :=
  let (ro, s) := match ro.ro_rt with
    | some e =>
      if !(s.rt e).rtf_up ∨ afs.sin_addr ro.ro_dst ≠ ip_dst then
        ({ ro with ro_rt := none }, s.RTFREE e)
      else (ro, s)
    | none => (ro, s)
  let ro := if ro.ro_rt.isNone then { ro with ro_dst := afs.setAddr ro.ro_dst ip_dst } else ro
  if toif then (ro, s)
  else
    let (ro, s) := if ro.ro_rt.isNone then rtalloc afs if_up s ro else (ro, s)
    match ro.ro_rt with
    | none => (ro, s)
    | some e =>
      if (s.rt e).rt_ifp.isNone then (ro, s)
      else (ro, s.set e { s.rt e with rt_use := (s.rt e).rt_use + 1 })

/-- What `in_pcbsetaddr` does to the route of a pcb without a local address. -/
def in_pcbsetaddr (dontroute : Bool) (sin_addr : ℕ) (s : Rtab α ι) (ro : Ro α) :
    Ro α × Rtab α ι :=
  let (ro, s) := match ro.ro_rt with
    | some e =>
      if afs.sin_addr ro.ro_dst ≠ sin_addr then ({ ro with ro_rt := none }, s.RTFREE e)
      else (ro, s)
    | none => (ro, s)
  if !dontroute ∧ (ro.ro_rt.all fun e => (s.rt e).rt_ifp.isNone) then
    rtalloc afs if_up s { ro with ro_dst := afs.setAddr ro.ro_dst sin_addr }
  else (ro, s)

/-! ## The machine -/

/-- The tables, the route structures there are, and which interfaces are up. What an entry without
    an interface seems to have is what lies at address zero. -/
structure State (α ι : Type) where
  tab : Rtab α ι
  routes : List (Ro α)
  if_up : Option ι → Bool

/-- What happens: calls, on the route structure number `i` where they take one, and changes of
    interfaces. That an entry loses its interface is looked for by the callers; nothing here makes
    it happen. -/
inductive Act (α ι : Type)
  | open (ro_dst : α)
  | rtalloc (i : ℕ) (ro_dst : α)
  | rtfree (i : ℕ)
  | ip_output (i : ℕ) (toif : Bool) (ip_dst : ℕ)
  | done (i : ℕ)
  | in_pcbsetaddr (i : ℕ) (dontroute : Bool) (sin_addr : ℕ)
  | in_pcbdetach (i : ℕ)
  | delrt (entry : Entry α)
  | addrt (entry : Entry α) (ifa : Option (Option ι)) (mget : Bool)
  | rtredirect (direct : Bool) (dst gateway : α) (rtf_host rtf_gateway : Bool)
      (ifa : Option (Option ι)) (mget : Bool)
  | if_flags (if_up : Option ι → Bool)
  | if_lost (e : ℕ)

/-- A call on a route structure. -/
def State.on (s : State α ι) (i : ℕ) (f : Rtab α ι → Ro α → Ro α × Rtab α ι) :
    Option (State α ι) :=
  s.routes[i]?.map fun ro =>
    let (ro, tab) := f s.tab ro
    { s with tab, routes := s.routes.set i ro }

/-- A route structure vanishes, and gives up its entry. -/
def State.close (s : State α ι) (i : ℕ) (f : ℕ → Rtab α ι → Rtab α ι) : Option (State α ι) :=
  s.routes[i]?.map fun ro =>
    { s with
      tab := ro.ro_rt.elim s.tab fun e => f e s.tab
      routes := s.routes.eraseIdx i }

/-- The machine of the routes. -/
def machine : Machine (State α ι) (Act α ι) where
  init s := s.tab.nalloc = 0 ∧ s.tab.freed = [] ∧ s.tab.rttrash = 0 ∧
    (∀ host k, s.tab.chain host k = []) ∧ s.routes = []
  next s
    | .open ro_dst => some { s with routes := s.routes ++ [⟨ro_dst, none⟩] }
    | .rtalloc i ro_dst => s.on i fun tab ro => rtalloc afs s.if_up tab { ro with ro_dst }
    | .rtfree i => s.on i fun tab ro =>
      ({ ro with ro_rt := none }, ro.ro_rt.elim tab fun e => tab.rtfree e)
    | .ip_output i toif ip_dst => s.on i fun tab ro => ip_output afs s.if_up toif ip_dst tab ro
    | .done i => s.close i Rtab.RTFREE
    | .in_pcbsetaddr i dontroute sin_addr => s.on i fun tab ro =>
      in_pcbsetaddr afs s.if_up dontroute sin_addr tab ro
    | .in_pcbdetach i => s.close i Rtab.rtfree
    | .delrt entry => some { s with tab := (delrt afs entry s.tab).2 }
    | .addrt entry ifa mget => some { s with tab := (addrt afs entry ifa mget s.tab).2 }
    | .rtredirect direct dst gateway rtf_host rtf_gateway ifa mget =>
      some { s with
        tab := rtredirect afs s.if_up direct dst gateway rtf_host rtf_gateway ifa mget s.tab }
    | .if_flags if_up => some { s with if_up }
    | .if_lost e => some { s with tab := s.tab.set e { s.tab.rt e with rt_ifp := none } }

end AuxKernel.Route
