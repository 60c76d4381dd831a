import AuxKernel.Basic
import Mathlib.Logic.Relation
import Mathlib.Data.List.GetD

/-!
# The options of a received packet

The loop of `ip_dooptions` over the options of a header (`NETinet/sys/ip_input.c`), with what it
does for source routes, recorded routes and timestamps, and `save_rte`. A four-byte entry is read
and written at the pointer of an option, which is compared with the length of the option less four:
for an option shorter than four bytes the difference is a large unsigned number. A pointer in a
timestamp option has no lower bound.

An access to a byte that is not in the option is `none`, and so is one outside `ip_srcrt`. What the
rest of the kernel answers (routes, addresses, the time) may be different at each option.

* `Fits`: what an option has to be like for the accesses to stay in it;
* `Keeps`: when the time or address that is written over its first bytes leaves its length as it is;
* `doOption_answers`, `step_answers`: an option is processed as these say;
* `processes_iff`: what all options that the loop gets to have to be like.
-/

namespace AuxKernel.Ip.Options

def IPOPT_EOL : UInt8 := 0
def IPOPT_NOP : UInt8 := 1
def IPOPT_RR : UInt8 := 7
def IPOPT_TS : UInt8 := 68
def IPOPT_LSRR : UInt8 := 131
def IPOPT_SSRR : UInt8 := 137

/-- Where the length and the pointer of an option are, and the least value of the pointer. -/
def IPOPT_OLEN : ℕ := 1
@[inherit_doc IPOPT_OLEN]
def IPOPT_OFFSET : ℕ := 2
@[inherit_doc IPOPT_OLEN]
def IPOPT_MINOFF : ℕ := 4

def MAX_IPOPTLEN : ℕ := 40

def ICMP_UNREACH : ℕ := 3
def ICMP_UNREACH_SRCFAIL : ℕ := 5
def ICMP_PARAMPROB : ℕ := 12

/-- Four bytes: an address, or a time. -/
structure Quad where
  b0 : UInt8
  b1 : UInt8
  b2 : UInt8
  b3 : UInt8
  deriving DecidableEq

/-! ## Accesses to an option -/

abbrev Bytes := List UInt8

def byte (o : Bytes) (i : ℕ) : Option UInt8 := o[i]?

def setByte (o : Bytes) (i : ℕ) (x : UInt8) : Option Bytes :=
  if i < o.length then some (o.set i x) else none

def quadAt (o : Bytes) (k : ℕ) : Quad :=
  ⟨o.getD k 0, o.getD (k + 1) 0, o.getD (k + 2) 0, o.getD (k + 3) 0⟩

def get4 (o : Bytes) (i : ℤ) : Option Quad :=
  if 0 ≤ i ∧ i + 4 ≤ o.length then some (quadAt o i.toNat) else none

def put4 (o : Bytes) (i : ℤ) (q : Quad) : Option Bytes :=
  if 0 ≤ i ∧ i + 4 ≤ o.length then
    some ((((o.set i.toNat q.b0).set (i.toNat + 1) q.b1).set (i.toNat + 2) q.b2).set
      (i.toNat + 3) q.b3)
  else none

/-- The pointer is moved behind four bytes. -/
def bump (o : Bytes) : Option Bytes :=
  (byte o IPOPT_OFFSET).bind fun ptr => setByte o IPOPT_OFFSET (ptr + 4)

/-! ## One option -/

/-- What the rest of the kernel answers, for the option at an offset of the header. -/
structure Env where
  ip_src : Quad
  ifa_ifwithaddr : ℕ → Quad → Bool
  in_iaonnetof : ℕ → Quad → Bool
  ip_rtaddr : ℕ → Quad → Option Quad
  in_ifaddr : Option Quad
  iptime : ℕ → Quad

/-- The saved source route (`ip_srcrt`), as bytes: a `nop`, `srcopt`, and the addresses of
    `route`. -/
structure Route where
  ip_srcrt : ℕ → UInt8
  ip_nhops : ℕ

/-- The size of `ip_srcrt`. -/
def sizeofSrcrt : ℕ := 4 + 4 * MAX_IPOPTLEN

/-- What the loop changes outside the options. -/
structure State where
  ip_dst : Quad
  saved : Route

/-- What becomes of an option: it is passed over, or the packet is refused because of it. -/
inductive Outcome
  | next (o : Bytes) (st : State)
  | bad (o : Bytes) (type code : ℕ)

/-- The bytes of an option are copied behind the `nop`, and an address behind the last of
    `nhops`. -/
def Route.put (r : Route) (option : Bytes) (nhops : ℕ) (dst : Quad) : Route where
  ip_srcrt i :=
    if i = 4 + 4 * nhops then dst.b0 else if i = 5 + 4 * nhops then dst.b1
    else if i = 6 + 4 * nhops then dst.b2 else if i = 7 + 4 * nhops then dst.b3
    else if 1 ≤ i ∧ i < 1 + option.length then option.getD (i - 1) 0
    else r.ip_srcrt i
  ip_nhops := nhops + 1

/-- The number of addresses is unsigned. -/
def save_rte (r : Route) (option : Bytes) (dst : Quad) : Option Route :=
  (byte option IPOPT_OLEN).bind fun olen =>
    if olen.toNat > sizeofSrcrt - 1 then some r
    else if olen.toNat > option.length then none
    else
      let nhops := (((olen.toNat : ℤ) - IPOPT_OFFSET - 1) % 2 ^ 32).toNat / 4
      if 4 + 4 * (nhops + 1) > sizeofSrcrt then none
      else some (r.put (option.take olen.toNat) nhops dst)

/-- An unsigned comparison: there is no entry at `off`, as `optlen - 4` has it. -/
def pastEnd (off : ℕ) (o : Bytes) : Prop := (off : ℤ) > ((o.length : ℤ) - 4) % 2 ^ 32

instance (off : ℕ) (o : Bytes) : Decidable (pastEnd off o) := inferInstanceAs (Decidable (_ > _))

def sourceRoute (env : Env) (pos : ℕ) (st : State) (opt : UInt8) (o : Bytes) : Option Outcome :=
  (byte o IPOPT_OFFSET).bind fun ptr =>
    if ptr.toNat < IPOPT_MINOFF then some (.bad o ICMP_PARAMPROB (pos + IPOPT_OFFSET))
    else if env.ifa_ifwithaddr pos st.ip_dst = false then
      if opt = IPOPT_SSRR then some (.bad o ICMP_UNREACH ICMP_UNREACH_SRCFAIL)
      else some (.next o st)
    else if pastEnd (ptr.toNat - 1) o then
      (save_rte st.saved o env.ip_src).map fun r => .next o { st with saved := r }
    else
      (get4 o (ptr.toNat - 1)).bind fun addr =>
        if opt = IPOPT_SSRR ∧ env.in_iaonnetof pos addr = false then
          some (.bad o ICMP_UNREACH ICMP_UNREACH_SRCFAIL)
        else
          match env.ip_rtaddr pos addr with
          | none => some (.bad o ICMP_UNREACH ICMP_UNREACH_SRCFAIL)
          | some ia =>
            ((put4 o (ptr.toNat - 1) ia).bind bump).map fun o => .next o { st with ip_dst := addr }

def recordRoute (env : Env) (pos : ℕ) (st : State) (o : Bytes) : Option Outcome :=
  (byte o IPOPT_OFFSET).bind fun ptr =>
    if ptr.toNat < IPOPT_MINOFF then some (.bad o ICMP_PARAMPROB (pos + IPOPT_OFFSET))
    else if pastEnd (ptr.toNat - 1) o then some (.next o st)
    else
      (get4 o (ptr.toNat - 1)).bind fun addr =>
        match env.ip_rtaddr pos addr with
        | none => some (.bad o ICMP_UNREACH ICMP_UNREACH_SRCFAIL)
        | some ia => ((put4 o (ptr.toNat - 1) ia).bind bump).map fun o => .next o st

def IPOPT_TS_TSONLY : ℕ := 0
def IPOPT_TS_TSANDADDR : ℕ := 1
def IPOPT_TS_PRESPEC : ℕ := 2

/-- The flags of a timestamp option, and its counter of overflows. -/
def ipt_flg (b : UInt8) : ℕ := b.toNat / 16
@[inherit_doc ipt_flg]
def ipt_oflw (b : UInt8) : ℕ := b.toNat % 16

/-- The time is written at `sin`, and the pointer moved behind it. -/
def stamp (env : Env) (pos : ℕ) (st : State) (o : Bytes) (sin : ℤ) : Option Outcome :=
  ((put4 o sin (env.iptime pos)).bind bump).map fun o => .next o st

/-- There is no room for an address and a time. -/
def full (ptr len : UInt8) : Prop := ptr.toNat + 4 + 4 > len.toNat

instance (ptr len : UInt8) : Decidable (full ptr len) := inferInstanceAs (Decidable (_ > _))

/-- An address and the time (`IPOPT_TS_TSANDADDR`). -/
def stampAddr (env : Env) (pos : ℕ) (st : State) (o : Bytes) (ptr len : UInt8) : Option Outcome :=
  if full ptr len then some (.bad o ICMP_PARAMPROB pos)
  else
    match env.in_ifaddr with
    | none => some (.bad o ICMP_PARAMPROB pos)
    | some a =>
      (put4 o (ptr.toNat - 1) a).bind fun o => stamp env pos st o ((ptr.toNat - 1) + 4)

/-- The time, if the address at the pointer is one of ours (`IPOPT_TS_PRESPEC`). -/
def stampPrespec (env : Env) (pos : ℕ) (st : State) (o : Bytes) (ptr len : UInt8) :
    Option Outcome :=
  (get4 o (ptr.toNat - 1)).bind fun addr =>
    if env.ifa_ifwithaddr pos addr = false then some (.next o st)
    else if full ptr len then some (.bad o ICMP_PARAMPROB pos)
    else (setByte o IPOPT_OFFSET (ptr + 4)).bind fun o => stamp env pos st o (ptr.toNat - 1)

def timestamp (env : Env) (pos : ℕ) (st : State) (o : Bytes) : Option Outcome :=
  (byte o IPOPT_OLEN).bind fun len =>
    if len.toNat < 5 then some (.bad o ICMP_PARAMPROB pos)
    else (byte o IPOPT_OFFSET).bind fun ptr => (byte o 3).bind fun b =>
      if (ptr.toNat : ℤ) > ((len.toNat : ℤ) - 4) % 2 ^ 32 then
        let oflw := (ipt_oflw b + 1) % 16
        (setByte o 3 (UInt8.ofNat (16 * ipt_flg b + oflw))).map fun o =>
          if oflw = 0 then .bad o ICMP_PARAMPROB pos else .next o st
      else if ipt_flg b = IPOPT_TS_TSONLY then stamp env pos st o (ptr.toNat - 1)
      else if ipt_flg b = IPOPT_TS_TSANDADDR then stampAddr env pos st o ptr len
      else if ipt_flg b = IPOPT_TS_PRESPEC then stampPrespec env pos st o ptr len
      else some (.bad o ICMP_PARAMPROB pos)

def doOption (env : Env) (pos : ℕ) (st : State) (opt : UInt8) (o : Bytes) : Option Outcome :=
  if opt = IPOPT_LSRR ∨ opt = IPOPT_SSRR then sourceRoute env pos st opt o
  else if opt = IPOPT_RR then recordRoute env pos st o
  else if opt = IPOPT_TS then timestamp env pos st o
  else some (.next o st)

/-! ## The loop -/

/-- The loop before an option: the offset of the option in the header, and the bytes from there
    on. -/
structure Cursor where
  st : State
  pos : ℕ
  cp : Bytes

/-- A pass over the loop: it ends, goes on behind an option, or refuses the packet. -/
inductive Pass
  | done
  | more (o : Bytes) (s : Cursor)
  | bad (o : Bytes) (type code : ℕ)

/-- What the loop does with what has become of an option of length `n`. -/
def Outcome.pass (s : Cursor) (n : ℕ) : Outcome → Pass
  | .next o st => .more o ⟨st, s.pos + n, s.cp.drop n⟩
  | .bad o type code => .bad (o ++ s.cp.drop n) type code

/-- An option of one byte that is not a `NOP` has its length outside of it. -/
def step (env : Env) (s : Cursor) : Option Pass :=
  match s.cp with
  | [] => some .done
  | opt :: l =>
    if opt = IPOPT_EOL then some .done
    else if opt = IPOPT_NOP then some (.more [opt] ⟨s.st, s.pos + 1, l⟩)
    else
      match l with
      | [] => none
      | len :: _ =>
        if len.toNat = 0 ∨ len.toNat > s.cp.length then
          some (.bad s.cp ICMP_PARAMPROB (s.pos + IPOPT_OLEN))
        else if len.toNat = 1 then none
        else
          (doOption env s.pos s.st opt (s.cp.take len.toNat)).map (Outcome.pass s len.toNat)

/-- What the loop leaves: the bytes of the options, the state, and why the packet is refused, if it
    is. -/
structure Result where
  cp : Bytes
  st : State
  refused : Option (ℕ × ℕ)

/-- What may be before the loop: the end, a `NOP`, an option without a length byte, or with a
    length that is too small or too large, or an option. -/
inductive Kind : Bytes → Prop
  | nil : Kind []
  | eol l : Kind (IPOPT_EOL :: l)
  | nop l : Kind (IPOPT_NOP :: l)
  | short {opt} (heol : opt ≠ IPOPT_EOL) (hnop : opt ≠ IPOPT_NOP) : Kind [opt]
  | bad {opt len l} (heol : opt ≠ IPOPT_EOL) (hnop : opt ≠ IPOPT_NOP)
      (hlen : len.toNat = 0 ∨ len.toNat > (opt :: len :: l).length) : Kind (opt :: len :: l)
  | one {opt len l} (heol : opt ≠ IPOPT_EOL) (hnop : opt ≠ IPOPT_NOP) (hlen : len.toNat = 1) :
      Kind (opt :: len :: l)
  | option {opt len l} (heol : opt ≠ IPOPT_EOL) (hnop : opt ≠ IPOPT_NOP) (hlen : 2 ≤ len.toNat)
      (hle : len.toNat ≤ (opt :: len :: l).length) : Kind (opt :: len :: l)

theorem kind : ∀ b, Kind b
  | [] => .nil
  | opt :: l => by
    by_cases heol : opt = IPOPT_EOL
    · exact heol ▸ .eol l
    by_cases hnop : opt = IPOPT_NOP
    · exact hnop ▸ .nop l
    rcases l with _ | ⟨len, l⟩
    · exact .short heol hnop
    by_cases hbad : len.toNat = 0 ∨ len.toNat > (opt :: len :: l).length
    · exact .bad heol hnop hbad
    by_cases hone : len.toNat = 1
    · exact .one heol hnop hone
    · exact .option heol hnop (by omega) (by omega)

section Step

variable {env : Env} {st : State} {pos : ℕ} {opt len : UInt8} {l : Bytes}

theorem step_nil : step env ⟨st, pos, []⟩ = some .done := rfl

theorem step_eol : step env ⟨st, pos, IPOPT_EOL :: l⟩ = some .done := rfl

theorem step_nop :
    step env ⟨st, pos, IPOPT_NOP :: l⟩ = some (.more [IPOPT_NOP] ⟨st, pos + 1, l⟩) := rfl

theorem step_short (heol : opt ≠ IPOPT_EOL) (hnop : opt ≠ IPOPT_NOP) :
    step env ⟨st, pos, [opt]⟩ = none :=
  (if_neg heol).trans (if_neg hnop)

theorem step_bad (heol : opt ≠ IPOPT_EOL) (hnop : opt ≠ IPOPT_NOP)
    (hlen : len.toNat = 0 ∨ len.toNat > (opt :: len :: l).length) :
    step env ⟨st, pos, opt :: len :: l⟩ =
      some (.bad (opt :: len :: l) ICMP_PARAMPROB (pos + IPOPT_OLEN)) :=
  ((if_neg heol).trans (if_neg hnop)).trans (if_pos hlen)

theorem step_one (heol : opt ≠ IPOPT_EOL) (hnop : opt ≠ IPOPT_NOP) (hlen : len.toNat = 1) :
    step env ⟨st, pos, opt :: len :: l⟩ = none := by
  refine ((if_neg heol).trans (if_neg hnop)).trans ((if_neg ?_).trans (if_pos hlen))
  rw [List.length_cons, List.length_cons]
  omega

theorem step_option (heol : opt ≠ IPOPT_EOL) (hnop : opt ≠ IPOPT_NOP) (hlen : 2 ≤ len.toNat)
    (hle : len.toNat ≤ (opt :: len :: l).length) :
    step env ⟨st, pos, opt :: len :: l⟩ =
      (doOption env pos st opt ((opt :: len :: l).take len.toNat)).map
        (Outcome.pass ⟨st, pos, opt :: len :: l⟩ len.toNat) :=
  ((if_neg heol).trans (if_neg hnop)).trans
    ((if_neg (not_or.2 ⟨by omega, not_lt.2 hle⟩)).trans (if_neg (by omega)))

end Step

/-- A pass of the loop goes on with fewer bytes. -/
theorem length_of_more {env : Env} {s s' : Cursor} {o : Bytes}
    (h : step env s = some (.more o s')) : s'.cp.length < s.cp.length := by
  obtain ⟨st, pos, cp⟩ := s
  cases kind cp with
  | nil => cases h
  | eol l => rw [step_eol] at h; cases h
  | nop l => rw [step_nop] at h; cases h; exact Nat.lt_succ_self _
  | short heol hnop => rw [step_short heol hnop] at h; cases h
  | bad heol hnop hlen => rw [step_bad heol hnop hlen] at h; cases h
  | one heol hnop hlen => rw [step_one heol hnop hlen] at h; cases h
  | option heol hnop hlen hle =>
    rw [step_option heol hnop hlen hle] at h
    obtain ⟨r, -, hr⟩ := Option.map_eq_some_iff.1 h
    cases r with
    | next o st =>
      cases hr
      dsimp only
      rw [List.length_drop]
      exact Nat.sub_lt (Nat.succ_pos _) (by omega)
    | bad o type code => cases hr

def run (env : Env) (s : Cursor) : Option Result :=
  match _h : step env s with
  | none => none
  | some .done => some ⟨s.cp, s.st, none⟩
  | some (.bad cp type code) => some ⟨cp, s.st, some (type, code)⟩
  | some (.more o s') => (run env s').map fun r => { r with cp := o ++ r.cp }
termination_by s.cp.length
decreasing_by exact length_of_more _h

/-! ## What an option must be like -/

/-- The pointer of an option, and the entry that it points to. -/
def ptr (o : Bytes) : ℕ := (o.getD IPOPT_OFFSET 0).toNat
@[inherit_doc ptr]
def entry (o : Bytes) : Quad := quadAt o (ptr o - 1)

def flags (o : Bytes) : ℕ := ipt_flg (o.getD 3 0)

/-- An option with a route that is `used` has an entry if its pointer is good. -/
def RouteFits (o : Bytes) (used : Prop) : Prop :=
  3 ≤ o.length ∧ (4 ≤ o.length ∨ ptr o < IPOPT_MINOFF ∨ ¬used)

/-- A timestamp option is refused before the pointer is used, or the pointer is not 0. -/
def StampFits (env : Env) (o : Bytes) : Prop :=
  o.length < 5 ∨ 1 ≤ ptr o ∨
    flags o = IPOPT_TS_TSANDADDR ∧ (o.length < 8 ∨ env.in_ifaddr = none) ∨ 2 < flags o

section Conditions

variable (env : Env) (pos : ℕ) (st : State) (opt : UInt8) (o : Bytes)

def Fits : Prop :=
  if opt = IPOPT_LSRR ∨ opt = IPOPT_SSRR then
    RouteFits o (env.ifa_ifwithaddr pos st.ip_dst = true)
  else if opt = IPOPT_RR then RouteFits o True
  else if opt = IPOPT_TS then StampFits env o
  else True

def SourceRefused : Prop :=
  ptr o < IPOPT_MINOFF ∨ opt = IPOPT_SSRR ∧ env.ifa_ifwithaddr pos st.ip_dst = false ∨
    env.ifa_ifwithaddr pos st.ip_dst = true ∧ ptr o + 3 ≤ o.length ∧
      (opt = IPOPT_SSRR ∧ env.in_iaonnetof pos (entry o) = false ∨
        env.ip_rtaddr pos (entry o) = none)

def RecordRefused : Prop :=
  ptr o < IPOPT_MINOFF ∨ ptr o + 3 ≤ o.length ∧ env.ip_rtaddr pos (entry o) = none

def StampRefused : Prop :=
  o.length < 5 ∨ o.length < ptr o + 4 ∧ ipt_oflw (o.getD 3 0) = 15 ∨
    ptr o + 4 ≤ o.length ∧
      (flags o = IPOPT_TS_TSANDADDR ∧ (o.length < ptr o + 8 ∨ env.in_ifaddr = none) ∨
        flags o = IPOPT_TS_PRESPEC ∧ env.ifa_ifwithaddr pos (entry o) = true ∧
          o.length < ptr o + 8 ∨
        2 < flags o)

def Refused : Prop :=
  if opt = IPOPT_LSRR ∨ opt = IPOPT_SSRR then SourceRefused env pos st opt o
  else if opt = IPOPT_RR then RecordRefused env pos o
  else if opt = IPOPT_TS then StampRefused env pos o
  else False

/-- What is written at the pointer of a timestamp option. -/
def written : Option Quad :=
  if flags o = IPOPT_TS_TSONLY then some (env.iptime pos)
  else if flags o = IPOPT_TS_TSANDADDR then env.in_ifaddr
  else if flags o = IPOPT_TS_PRESPEC ∧ env.ifa_ifwithaddr pos (entry o) = true then
    some (env.iptime pos)
  else none

/-- What is written over the first bytes of a timestamp option leaves its length as it is. -/
def StampKeeps : Prop :=
  ptr o + 4 ≤ o.length → ∀ q, written env pos o = some q →
    (ptr o = 1 → q.b0 ≠ IPOPT_EOL ∧ q.b0 ≠ IPOPT_NOP ∧ q.b1.toNat = o.length) ∧
      (ptr o = 2 → q.b0.toNat = o.length)

def Keeps : Prop := opt = IPOPT_TS → StampKeeps env pos o

end Conditions

/-- The length of an option is in a second byte, which is in the option. -/
def HasLength : Bytes → Prop
  | [] => True
  | [opt] => opt = IPOPT_EOL ∨ opt = IPOPT_NOP
  | opt :: len :: _ => opt = IPOPT_EOL ∨ opt = IPOPT_NOP ∨ len.toNat ≠ 1

/-- The length of an option is 0, or larger than what is left of the header. -/
def BadLength : Bytes → Prop
  | opt :: len :: l => opt ≠ IPOPT_EOL ∧ opt ≠ IPOPT_NOP ∧
      (len.toNat = 0 ∨ len.toNat > (opt :: len :: l).length)
  | _ => False

/-- The option at the beginning, with its type, if it has more than one byte. -/
def current : Bytes → Option (UInt8 × Bytes)
  | opt :: len :: l =>
    if opt ≠ IPOPT_EOL ∧ opt ≠ IPOPT_NOP ∧ 2 ≤ len.toNat ∧
        len.toNat ≤ (opt :: len :: l).length then
      some (opt, (opt :: len :: l).take len.toNat)
    else none
  | _ => none

section Conditions

variable (env : Env) (s : Cursor)

/-- All that is read and written for the option at a cursor is in the option. -/
def AccessOk : Prop :=
  HasLength s.cp ∧ ∀ opt o, current s.cp = some (opt, o) → Fits env s.pos s.st opt o

/-- The packet is refused because of the option at a cursor. -/
def Rejects : Prop :=
  BadLength s.cp ∨ ∃ opt o, current s.cp = some (opt, o) ∧ Refused env s.pos s.st opt o

/-- The option at a cursor is as long as before. -/
def KeepsLength : Prop := ∀ opt o, current s.cp = some (opt, o) → Keeps env s.pos opt o

end Conditions

/-! ## Where the options begin -/

/-- The length of the first option, if there is one. -/
def optlen : Bytes → Option ℕ
  | [] => none
  | opt :: l =>
    if opt = IPOPT_EOL then none
    else if opt = IPOPT_NOP then some 1
    else
      match l with
      | [] => none
      | len :: l =>
        if len.toNat = 0 ∨ len.toNat > (opt :: len :: l).length then none else some len.toNat

theorem optlen_eq_some {b : Bytes} {n : ℕ} (h : optlen b = some n) : 1 ≤ n ∧ n ≤ b.length := by
  cases kind b with
  | nil => cases h
  | eol l => cases h
  | nop l =>
    cases h
    exact ⟨le_rfl, Nat.succ_pos _⟩
  | short heol hnop =>
    rw [optlen, if_neg heol, if_neg hnop] at h
    cases h
  | bad heol hnop hlen =>
    rw [optlen, if_neg heol, if_neg hnop] at h
    rw [if_pos hlen] at h
    cases h
  | @one opt len l heol hnop hlen =>
    rw [optlen, if_neg heol, if_neg hnop] at h
    split at h
    · cases h
    · cases h
      omega
  | @option opt len l heol hnop hlen hle =>
    rw [optlen, if_neg heol, if_neg hnop] at h
    split at h
    · cases h
    · cases h
      omega

/-- The lengths of the options, one after the other. -/
def boundaries (b : Bytes) : List ℕ :=
  match _h : optlen b with
  | none => []
  | some n => n :: boundaries (b.drop n)
termination_by b.length
decreasing_by
  have := optlen_eq_some _h
  rw [List.length_drop]
  omega

theorem boundaries_eq_cons_iff {b : Bytes} {n : ℕ} {l : List ℕ} :
    boundaries b = n :: l ↔ optlen b = some n ∧ boundaries (b.drop n) = l := by
  rw [boundaries]
  split
  · next h => simp [h]
  · next m h =>
    rw [List.cons.injEq, h, Option.some.injEq]
    constructor
    · rintro ⟨rfl, h⟩
      exact ⟨rfl, h⟩
    · rintro ⟨rfl, h⟩
      exact ⟨rfl, h⟩

/-! ## What an option becomes -/

section Writes

variable {o o' o'' : Bytes} {i : ℕ} {k : ℤ} {q : Quad}

theorem byte_of_lt (h : i < o.length) : byte o i = some (o.getD i 0) := by
  rw [byte, List.getElem?_eq_getElem h, List.getD_eq_getElem _ _ h]

theorem byte_of_le (h : o.length ≤ i) : byte o i = none := List.getElem?_eq_none h

/-- The length is kept, and the two bytes before the pointer. -/
structure Same (o o' : Bytes) : Prop where
  length : o'.length = o.length
  type : byte o' 0 = byte o 0
  optlen : byte o' 1 = byte o 1

theorem exists_setByte (x : UInt8) (h2 : 2 ≤ i) (h : i < o.length) :
    ∃ o', setByte o i x = some o' ∧ Same o o' :=
  ⟨o.set i x, if_pos h, List.length_set, List.getElem?_set_ne (by omega),
    List.getElem?_set_ne (by omega)⟩

theorem exists_bump (h : 3 ≤ o.length) : ∃ o', bump o = some o' ∧ Same o o' := by
  obtain ⟨o', ho', hsame⟩ := exists_setByte (o.getD 2 0 + 4) le_rfl h
  refine ⟨o', ?_, hsame⟩
  have hbyte : byte o IPOPT_OFFSET = some (o.getD 2 0) := byte_of_lt h
  rw [bump, hbyte, Option.bind_some]
  exact ho'

/-- Four bytes are written: what the first two bytes become. -/
structure Wrote (o : Bytes) (k : ℤ) (q : Quad) (o' : Bytes) : Prop where
  length : o'.length = o.length
  type : byte o' 0 = if k = 0 then some q.b0 else byte o 0
  optlen : byte o' 1 = if k = 0 then some q.b1 else if k = 1 then some q.b0 else byte o 1

theorem Wrote.same (h : Wrote o k q o') (hk : 2 ≤ k) : Same o o' := by
  refine ⟨h.length, ?_, ?_⟩
  · rw [h.type, if_neg (by omega)]
  · rw [h.optlen, if_neg (by omega), if_neg (by omega)]

theorem Wrote.trans_same (h : Wrote o k q o') (h' : Same o' o'') : Wrote o k q o'' :=
  ⟨h'.length.trans h.length, h'.type.trans h.type, h'.optlen.trans h.optlen⟩

theorem Same.trans_wrote (h : Same o o') (h' : Wrote o' k q o'') : Wrote o k q o'' :=
  ⟨h'.length.trans h.length, h.type ▸ h'.type, h.optlen ▸ h'.optlen⟩

theorem exists_put4 (q : Quad) (h0 : 0 ≤ k) (h : k + 4 ≤ o.length) :
    ∃ o', put4 o k q = some o' ∧ Wrote o k q o' := by
  refine ⟨_, if_pos ⟨h0, h⟩, ?_, ?_, ?_⟩
  · simp only [List.length_set]
  · simp only [byte]
    grind
  · simp only [byte]
    grind

theorem put4_of_neg (h0 : k < 0) : put4 o k q = none := if_neg (by omega)

theorem get4_of_neg (h0 : k < 0) : get4 o k = none := if_neg (by omega)

/-- A byte short of the end, four bytes are written and the pointer is moved. -/
theorem exists_put4_bump (q : Quad) (h0 : 0 ≤ k) (h : k + 4 ≤ o.length) :
    ∃ o', (put4 o k q).bind bump = some o' ∧ Wrote o k q o' := by
  obtain ⟨o₁, h₁, hwrote⟩ := exists_put4 q h0 h
  obtain ⟨o₂, h₂, hsame⟩ := exists_bump (o := o₁) (by have := hwrote.length; omega)
  exact ⟨o₂, by rw [h₁, Option.bind_some, h₂], hwrote.trans_same hsame⟩

end Writes

/-! ## What becomes of one option -/

/-- The first bytes of an option that says that it is `n` bytes long. -/
structure Heads (n : ℕ) (o : Bytes) : Prop where
  eol : byte o 0 ≠ some IPOPT_EOL
  nop : byte o 0 ≠ some IPOPT_NOP
  optlen : (byte o 1).map UInt8.toNat = some n

theorem Heads.same {n : ℕ} {o o' : Bytes} (h : Heads n o) (hs : Same o o') : Heads n o' :=
  ⟨hs.type ▸ h.eol, hs.type ▸ h.nop, hs.optlen ▸ h.optlen⟩

/-- What an option may become: all accesses are in it or not, it is refused or not, and its length
    is kept or not. -/
def Answers (o : Bytes) (fits refused keeps : Prop) : Option Outcome → Prop
  | none => ¬fits
  | some (.bad o' _ _) => fits ∧ refused ∧ o'.length = o.length
  | some (.next o' st) => fits ∧ ¬refused ∧ o'.length = o.length ∧
      (Heads o.length o' ↔ keeps) ∧ st.saved.ip_nhops ≤ MAX_IPOPTLEN

section Answers

variable {env : Env} {pos : ℕ} {st : State} {opt : UInt8} {o : Bytes} {keeps : Prop}

theorem pastEnd_iff {off : ℕ} (h4 : 4 ≤ o.length) (hlen : o.length ≤ MAX_IPOPTLEN) :
    pastEnd off o ↔ o.length < off + 4 := by
  rw [pastEnd, Int.emod_eq_of_lt (by omega) (by have : o.length ≤ 40 := hlen; omega)]
  omega

/-- In an option of three bytes no pointer is past the end. -/
theorem not_pastEnd {off : ℕ} (h3 : o.length = 3) (hoff : off < 256) : ¬pastEnd off o := by
  rw [pastEnd, h3, show ((3 : ℕ) - 4 : ℤ) % 2 ^ 32 = 2 ^ 32 - 1 from rfl]
  omega

theorem ptr_lt : ptr o < 256 := UInt8.toNat_lt _

/-- The length of an option with a route is at most 40: the route is saved. -/
theorem exists_save_rte (r : Route) (dst : Quad) (hhead : Heads o.length o) (h3 : 3 ≤ o.length)
    (hlen : o.length ≤ MAX_IPOPTLEN) :
    ∃ r', save_rte r o dst = some r' ∧ r'.ip_nhops ≤ MAX_IPOPTLEN := by
  obtain ⟨olen, holen, hval⟩ := Option.map_eq_some_iff.1 hhead.optlen
  have h40 : o.length ≤ 40 := hlen
  have hnhops : (((olen.toNat : ℤ) - IPOPT_OFFSET - 1) % 2 ^ 32).toNat = o.length - 3 := by
    rw [hval, IPOPT_OFFSET, Int.emod_eq_of_lt (by omega) (by omega)]
    omega
  have hsmall : ¬olen.toNat > sizeofSrcrt - 1 := by
    rw [hval, sizeofSrcrt, MAX_IPOPTLEN]
    omega
  have hin : ¬4 + 4 * ((o.length - 3) / 4 + 1) > sizeofSrcrt := by
    rw [sizeofSrcrt, MAX_IPOPTLEN]
    omega
  refine ⟨r.put (o.take olen.toNat) ((o.length - 3) / 4) dst, ?_, ?_⟩
  · have hbyte : byte o IPOPT_OLEN = some olen := holen
    rw [save_rte, hbyte, Option.bind_some, if_neg hsmall, if_neg (by omega), hnhops]
    exact if_neg hin
  · show (o.length - 3) / 4 + 1 ≤ 40
    omega

theorem byte_offset (h3 : 3 ≤ o.length) : byte o IPOPT_OFFSET = some (o.getD IPOPT_OFFSET 0) :=
  byte_of_lt h3

theorem toNat_offset : (o.getD IPOPT_OFFSET 0).toNat = ptr o := rfl

theorem get4_entry (h1 : 1 ≤ ptr o) (hle : ptr o + 3 ≤ o.length) :
    get4 o (ptr o - 1) = some (entry o) := by
  rw [get4, if_pos (by omega), entry, show ((ptr o : ℤ) - 1).toNat = ptr o - 1 by omega]

/-- The entry of a route is written over and the pointer is moved. -/
theorem exists_put4_entry (q : Quad) (hmin : 3 ≤ ptr o) (hle : ptr o + 3 ≤ o.length) :
    ∃ o', (put4 o (ptr o - 1) q).bind bump = some o' ∧ Same o o' := by
  obtain ⟨o', ho', hwrote⟩ := exists_put4_bump (o := o) (k := ptr o - 1) q (by omega) (by omega)
  exact ⟨o', ho', hwrote.same (by omega)⟩

theorem get4_of_short (h3 : o.length = 3) (hmin : 4 ≤ ptr o) : get4 o (ptr o - 1) = none :=
  if_neg (by omega)

theorem recordRoute_answers (hhead : Heads o.length o) (hlen : o.length ≤ MAX_IPOPTLEN)
    (hn : st.saved.ip_nhops ≤ MAX_IPOPTLEN) :
    Answers o (RouteFits o True) (RecordRefused env pos o) True (recordRoute env pos st o) := by
  by_cases h3 : 3 ≤ o.length
  swap
  · rw [recordRoute, byte_of_le (by rw [IPOPT_OFFSET]; omega)]
    exact fun h => h3 h.1
  rw [recordRoute, byte_offset h3, Option.bind_some, toNat_offset]
  by_cases hmin : ptr o < IPOPT_MINOFF
  · rw [if_pos hmin]
    exact ⟨⟨h3, .inr (.inl hmin)⟩, .inl hmin, rfl⟩
  have hmin' : 4 ≤ ptr o := not_lt.1 hmin
  rw [if_neg hmin]
  by_cases h4 : 4 ≤ o.length
  swap
  · rw [if_neg (not_pastEnd (by omega) (by have := ptr_lt (o := o); omega)),
      get4_of_short (by omega) hmin']
    exact fun h => h.2.elim h4 fun h => h.elim hmin (absurd trivial)
  have hfits : RouteFits o True := ⟨h3, .inl h4⟩
  by_cases hend : pastEnd (ptr o - 1) o
  · rw [if_pos hend]
    have hout := (pastEnd_iff h4 hlen).1 hend
    exact ⟨hfits, fun h => h.elim hmin fun h => by have := h.1; omega, rfl,
      iff_of_true hhead trivial, hn⟩
  have hle : ptr o + 3 ≤ o.length := by
    have := mt (pastEnd_iff h4 hlen).2 hend
    omega
  rw [if_neg hend, get4_entry (by omega) hle, Option.bind_some]
  cases haddr : env.ip_rtaddr pos (entry o) with
  | none => exact ⟨hfits, .inr ⟨hle, haddr⟩, rfl⟩
  | some ia =>
    obtain ⟨o', ho', hsame⟩ := exists_put4_entry ia (by omega) hle
    dsimp only
    rw [ho', Option.map_some]
    refine ⟨hfits, fun h => h.elim hmin fun h => ?_, hsame.length,
      iff_of_true (hhead.same hsame) trivial, hn⟩
    rw [haddr] at h
    cases h.2

theorem sourceRoute_answers (hhead : Heads o.length o) (hlen : o.length ≤ MAX_IPOPTLEN)
    (hn : st.saved.ip_nhops ≤ MAX_IPOPTLEN) :
    Answers o (RouteFits o (env.ifa_ifwithaddr pos st.ip_dst = true))
      (SourceRefused env pos st opt o) True (sourceRoute env pos st opt o) := by
  by_cases h3 : 3 ≤ o.length
  swap
  · rw [sourceRoute, byte_of_le (by rw [IPOPT_OFFSET]; omega)]
    exact fun h => h3 h.1
  rw [sourceRoute, byte_offset h3, Option.bind_some, toNat_offset]
  by_cases hmin : ptr o < IPOPT_MINOFF
  · rw [if_pos hmin]
    exact ⟨⟨h3, .inr (.inl hmin)⟩, .inl hmin, rfl⟩
  have hmin' : 4 ≤ ptr o := not_lt.1 hmin
  rw [if_neg hmin]
  cases hifa : env.ifa_ifwithaddr pos st.ip_dst with
  | false =>
    have hfits : RouteFits o (false = true) := ⟨h3, .inr (.inr Bool.false_ne_true)⟩
    rw [if_pos rfl]
    by_cases hopt : opt = IPOPT_SSRR
    · rw [if_pos hopt]
      exact ⟨hfits, .inr (.inl ⟨hopt, hifa⟩), rfl⟩
    · rw [if_neg hopt]
      refine ⟨hfits, fun h => ?_, rfl, iff_of_true hhead trivial, hn⟩
      rcases h with h | h | h
      · exact hmin h
      · exact hopt h.1
      · rw [hifa] at h
        cases h.1
  | true =>
    rw [if_neg Bool.false_ne_true.symm]
    by_cases h4 : 4 ≤ o.length
    swap
    · rw [if_neg (not_pastEnd (by omega) (by have := ptr_lt (o := o); omega)),
        get4_of_short (by omega) hmin']
      exact fun h => h.2.elim h4 fun h => h.elim hmin (absurd rfl)
    have hfits : RouteFits o (true = true) := ⟨h3, .inl h4⟩
    by_cases hend : pastEnd (ptr o - 1) o
    · have hout := (pastEnd_iff h4 hlen).1 hend
      obtain ⟨r, hr, hhops⟩ := exists_save_rte st.saved env.ip_src hhead h3 hlen
      rw [if_pos hend, hr, Option.map_some]
      refine ⟨hfits, fun h => ?_, rfl, iff_of_true hhead trivial, hhops⟩
      rcases h with h | h | h
      · exact hmin h
      · rw [hifa] at h
        cases h.2
      · have := h.2.1
        omega
    have hle : ptr o + 3 ≤ o.length := by
      have := mt (pastEnd_iff h4 hlen).2 hend
      omega
    rw [if_neg hend, get4_entry (by omega) hle, Option.bind_some]
    by_cases hnet : opt = IPOPT_SSRR ∧ env.in_iaonnetof pos (entry o) = false
    · rw [if_pos hnet]
      exact ⟨hfits, .inr (.inr ⟨hifa, hle, .inl hnet⟩), rfl⟩
    rw [if_neg hnet]
    cases haddr : env.ip_rtaddr pos (entry o) with
    | none => exact ⟨hfits, .inr (.inr ⟨hifa, hle, .inr haddr⟩), rfl⟩
    | some ia =>
      obtain ⟨o', ho', hsame⟩ := exists_put4_entry ia (by omega) hle
      dsimp only
      rw [ho', Option.map_some]
      refine ⟨hfits, fun h => ?_, hsame.length, iff_of_true (hhead.same hsame) trivial, hn⟩
      rcases h with h | h | h
      · exact hmin h
      · rw [hifa] at h
        cases h.2
      · rcases h.2.2 with h | h
        · exact hnet h
        · rw [haddr] at h
          cases h

/-- What is written at a pointer of 1 or 2 is in the first bytes. -/
theorem heads_iff_of_wrote {o' : Bytes} {q : Quad} (hhead : Heads o.length o) (h1 : 1 ≤ ptr o)
    (h : Wrote o (ptr o - 1) q o') :
    Heads o.length o' ↔
      (ptr o = 1 → q.b0 ≠ IPOPT_EOL ∧ q.b0 ≠ IPOPT_NOP ∧ q.b1.toNat = o.length) ∧
        (ptr o = 2 → q.b0.toNat = o.length) := by
  obtain ⟨hlength, htype, hoptlen⟩ := h
  rcases Nat.lt_or_ge (ptr o) 2 with h2 | h2
  · have hp : ptr o = 1 := by omega
    rw [if_pos (by omega)] at htype hoptlen
    constructor
    · intro hheads
      refine ⟨fun _ => ⟨fun heq => hheads.eol (htype.trans (congrArg some heq)),
        fun heq => hheads.nop (htype.trans (congrArg some heq)), ?_⟩, by omega⟩
      have := hheads.optlen
      rw [hoptlen] at this
      exact Option.some.inj this
    · intro hkeeps
      obtain ⟨heol, hnop, hlen⟩ := hkeeps.1 hp
      refine ⟨?_, ?_, ?_⟩
      · rw [htype]
        exact fun heq => heol (Option.some.inj heq)
      · rw [htype]
        exact fun heq => hnop (Option.some.inj heq)
      · rw [hoptlen]
        exact congrArg some hlen
  · rw [if_neg (by omega)] at htype hoptlen
    rcases Nat.lt_or_ge (ptr o) 3 with h3 | h3
    · have hp : ptr o = 2 := by omega
      rw [if_pos (by omega)] at hoptlen
      constructor
      · intro hheads
        refine ⟨by omega, fun _ => ?_⟩
        have := hheads.optlen
        rw [hoptlen] at this
        exact Option.some.inj this
      · intro hkeeps
        refine ⟨htype ▸ hhead.eol, htype ▸ hhead.nop, ?_⟩
        rw [hoptlen]
        exact congrArg some (hkeeps.2 hp)
    · rw [if_neg (by omega)] at hoptlen
      exact iff_of_true ⟨htype ▸ hhead.eol, htype ▸ hhead.nop, hoptlen ▸ hhead.optlen⟩
        ⟨by omega, by omega⟩

/-- The time is written at a pointer that is not 0. -/
theorem exists_stamp (env : Env) (pos : ℕ) (st : State) {k : ℤ} (h0 : 0 ≤ k)
    (h : k + 4 ≤ o.length) :
    ∃ o', stamp env pos st o k = some (.next o' st) ∧ Wrote o k (env.iptime pos) o' := by
  obtain ⟨o', ho', hwrote⟩ := exists_put4_bump (env.iptime pos) h0 h
  exact ⟨o', by rw [stamp, ho', Option.map_some], hwrote⟩

theorem stamp_of_neg {sin : ℤ} (h0 : sin < 0) : stamp env pos st o sin = none := by
  rw [stamp, put4_of_neg h0]
  rfl

theorem full_iff {p len : UInt8} : full p len ↔ len.toNat < p.toNat + 8 := by
  rw [full, Nat.add_assoc]

/-- An option that is stamped, with `q` at its pointer. -/
theorem answers_of_wrote {o' : Bytes} {q : Quad} {refused : Prop} (hhead : Heads o.length o)
    (h1 : 1 ≤ ptr o) (hle : ptr o + 4 ≤ o.length) (hn : st.saved.ip_nhops ≤ MAX_IPOPTLEN)
    (hq : written env pos o = some q) (hwrote : Wrote o (ptr o - 1) q o') (hnot : ¬refused) :
    Answers o (StampFits env o) refused (StampKeeps env pos o) (some (.next o' st)) := by
  refine ⟨.inr (.inl h1), hnot, hwrote.length, ?_, hn⟩
  rw [heads_iff_of_wrote hhead h1 hwrote, StampKeeps]
  constructor
  · intro h _ q' hq'
    cases hq.symm.trans hq'
    exact h
  · exact fun h => h hle q hq

theorem oflw_eq_zero_iff (b : UInt8) : (ipt_oflw b + 1) % 16 = 0 ↔ ipt_oflw b = 15 := by
  rw [ipt_oflw]
  omega

theorem stampAddr_answers {p len : UInt8} (hhead : Heads o.length o) (hval : len.toNat = o.length)
    (hptr : p.toNat = ptr o) (h5 : 5 ≤ o.length) (hle : ptr o + 4 ≤ o.length)
    (hflags : flags o = IPOPT_TS_TSANDADDR) (hn : st.saved.ip_nhops ≤ MAX_IPOPTLEN) :
    Answers o (StampFits env o) (StampRefused env pos o) (StampKeeps env pos o)
      (stampAddr env pos st o p len) := by
  have hflags' : flags o = 1 := hflags
  have hroom : full p len ↔ o.length < ptr o + 8 := by rw [full_iff, hval, hptr]
  rw [stampAddr, hptr]
  by_cases hfull : full p len
  · rw [if_pos hfull]
    rw [hroom] at hfull
    refine ⟨?_, .inr (.inr ⟨hle, .inl ⟨hflags, .inl hfull⟩⟩), rfl⟩
    rcases Nat.eq_zero_or_pos (ptr o) with h0 | h1
    · exact .inr (.inr (.inl ⟨hflags, .inl (by omega)⟩))
    · exact .inr (.inl h1)
  rw [if_neg hfull]
  rw [hroom] at hfull
  cases haddr : env.in_ifaddr with
  | none => exact ⟨.inr (.inr (.inl ⟨hflags, .inr haddr⟩)),
      .inr (.inr ⟨hle, .inl ⟨hflags, .inr haddr⟩⟩), rfl⟩
  | some a =>
    dsimp only
    rcases Nat.eq_zero_or_pos (ptr o) with h0 | h1
    · rw [put4_of_neg (by omega)]
      intro h
      rcases h with h | h | ⟨-, h | h⟩ | h
      · omega
      · omega
      · omega
      · rw [haddr] at h
        cases h
      · omega
    · obtain ⟨o₁, ho₁, hwrote⟩ := exists_put4 (o := o) (k := ptr o - 1) a (by omega) (by omega)
      have hlength := hwrote.length
      obtain ⟨o₂, ho₂, hwrote'⟩ := exists_stamp env pos st (o := o₁)
        (k := ptr o - 1 + 4) (by omega) (by omega)
      rw [ho₁, Option.bind_some, ho₂]
      have hq : written env pos o = some a := by
        rw [written, if_neg (by rw [hflags]; decide), if_pos hflags, haddr]
      refine answers_of_wrote hhead h1 hle hn hq (hwrote.trans_same (hwrote'.same (by omega))) ?_
      intro h
      rcases h with h | h | ⟨-, ⟨-, h | h⟩ | h | h⟩
      · omega
      · omega
      · exact hfull h
      · rw [haddr] at h
        cases h
      · rw [hflags] at h
        exact absurd h.1 (by decide)
      · omega

theorem stampPrespec_answers {p len : UInt8} (hhead : Heads o.length o)
    (hval : len.toNat = o.length) (hptr : p.toNat = ptr o) (h5 : 5 ≤ o.length)
    (hle : ptr o + 4 ≤ o.length) (hflags : flags o = IPOPT_TS_PRESPEC)
    (hn : st.saved.ip_nhops ≤ MAX_IPOPTLEN) :
    Answers o (StampFits env o) (StampRefused env pos o) (StampKeeps env pos o)
      (stampPrespec env pos st o p len) := by
  have hflags' : flags o = 2 := hflags
  have hroom : full p len ↔ o.length < ptr o + 8 := by rw [full_iff, hval, hptr]
  rw [stampPrespec, hptr]
  rcases Nat.eq_zero_or_pos (ptr o) with h0 | h1
  · rw [get4_of_neg (by omega)]
    intro h
    rcases h with h | h | ⟨h, -⟩ | h
    · omega
    · omega
    · rw [hflags] at h
      exact absurd h (by decide)
    · omega
  have hfits : StampFits env o := .inr (.inl h1)
  rw [get4_entry h1 (by omega), Option.bind_some]
  cases hifa : env.ifa_ifwithaddr pos (entry o) with
  | false =>
    rw [if_pos rfl]
    refine ⟨hfits, ?_, rfl, iff_of_true hhead fun _ q hq => ?_, hn⟩
    · intro h
      rcases h with h | h | ⟨-, h | h | h⟩
      · omega
      · omega
      · rw [hflags] at h
        exact absurd h.1 (by decide)
      · rw [hifa] at h
        cases h.2.1
      · omega
    · rw [written, hflags, hifa] at hq
      cases hq
  | true =>
    rw [if_neg Bool.false_ne_true.symm]
    by_cases hfull : full p len
    · rw [if_pos hfull]
      exact ⟨hfits, .inr (.inr ⟨hle, .inr (.inl ⟨hflags, hifa, hroom.1 hfull⟩)⟩), rfl⟩
    rw [if_neg hfull]
    rw [hroom] at hfull
    obtain ⟨o₁, ho₁, hsame⟩ := exists_setByte (o := o) (p + 4) (le_refl 2) (by omega)
    have ho₁' : setByte o IPOPT_OFFSET (p + 4) = some o₁ := ho₁
    have hlength := hsame.length
    obtain ⟨o₂, ho₂, hwrote⟩ := exists_stamp env pos st (o := o₁)
      (k := ptr o - 1) (by omega) (by omega)
    rw [ho₁', Option.bind_some, ho₂]
    have hq : written env pos o = some (env.iptime pos) := by
      rw [written, if_neg (by rw [hflags]; decide), if_neg (by rw [hflags]; decide),
        if_pos ⟨hflags, hifa⟩]
    refine answers_of_wrote hhead h1 hle hn hq (hsame.trans_wrote hwrote) ?_
    intro h
    rcases h with h | h | ⟨-, h | h | h⟩
    · omega
    · omega
    · rw [hflags] at h
      exact absurd h.1 (by decide)
    · exact hfull h.2.2
    · omega

theorem timestamp_answers (hhead : Heads o.length o) (hlen : o.length ≤ MAX_IPOPTLEN)
    (hn : st.saved.ip_nhops ≤ MAX_IPOPTLEN) :
    Answers o (StampFits env o) (StampRefused env pos o) (StampKeeps env pos o)
      (timestamp env pos st o) := by
  obtain ⟨len, hbyte, hval⟩ := Option.map_eq_some_iff.1 hhead.optlen
  have h40 : o.length ≤ 40 := hlen
  have hbyte' : byte o IPOPT_OLEN = some len := hbyte
  rw [timestamp, hbyte', Option.bind_some, hval]
  by_cases h5 : o.length < 5
  · rw [if_pos h5]
    exact ⟨.inl h5, .inl h5, rfl⟩
  rw [if_neg h5, byte_offset (by omega), Option.bind_some, byte_of_lt (by omega),
    Option.bind_some, toNat_offset, Int.emod_eq_of_lt (by omega) (by omega)]
  by_cases hend : (ptr o : ℤ) > o.length - 4
  · -- The time is not written, but the overflow is counted.
    obtain ⟨o', ho', hsame⟩ := exists_setByte (o := o)
      (UInt8.ofNat (16 * ipt_flg (o.getD 3 0) + (ipt_oflw (o.getD 3 0) + 1) % 16))
      (show 2 ≤ 3 by decide) (by omega)
    have hfits : StampFits env o := .inr (.inl (by omega))
    rw [if_pos hend]
    dsimp only
    rw [ho', Option.map_some]
    by_cases hoflw : (ipt_oflw (o.getD 3 0) + 1) % 16 = 0
    · rw [if_pos hoflw]
      exact ⟨hfits, .inr (.inl ⟨by omega, (oflw_eq_zero_iff _).1 hoflw⟩), hsame.length⟩
    · rw [if_neg hoflw]
      refine ⟨hfits, fun h => ?_, hsame.length,
        iff_of_true (hhead.same hsame) fun hle => absurd hle (by omega), hn⟩
      rcases h with h | h | h
      · exact h5 h
      · exact hoflw ((oflw_eq_zero_iff _).2 h.2)
      · have := h.1
        omega
  have hle : ptr o + 4 ≤ o.length := by omega
  rw [if_neg hend, show ipt_flg (o.getD 3 0) = flags o from rfl]
  by_cases honly : flags o = IPOPT_TS_TSONLY
  · have honly' : flags o = 0 := honly
    rw [if_pos honly]
    have haddr : flags o ≠ IPOPT_TS_TSANDADDR := by
      rw [honly]
      decide
    have hprespec : flags o ≠ IPOPT_TS_PRESPEC := by
      rw [honly]
      decide
    rcases Nat.eq_zero_or_pos (ptr o) with h0 | h1
    · rw [stamp_of_neg (by omega)]
      intro h
      rcases h with h | h | ⟨h, -⟩ | h
      · omega
      · omega
      · exact haddr h
      · omega
    · obtain ⟨o', ho', hwrote⟩ := exists_stamp env pos st (o := o)
        (k := ptr o - 1) (by omega) (by omega)
      rw [ho']
      refine answers_of_wrote hhead h1 hle hn (if_pos honly) hwrote ?_
      intro h
      rcases h with h | h | ⟨-, h | h | h⟩
      · omega
      · omega
      · exact haddr h.1
      · exact hprespec h.1
      · omega
  rw [if_neg honly]
  by_cases haddr : flags o = IPOPT_TS_TSANDADDR
  · rw [if_pos haddr]
    exact stampAddr_answers hhead hval toNat_offset (by omega) hle haddr hn
  rw [if_neg haddr]
  by_cases hprespec : flags o = IPOPT_TS_PRESPEC
  · rw [if_pos hprespec]
    exact stampPrespec_answers hhead hval toNat_offset (by omega) hle hprespec hn
  rw [if_neg hprespec]
  have h2 : 2 < flags o := by
    have h0 : flags o ≠ 0 := honly
    have h1 : flags o ≠ 1 := haddr
    have h2 : flags o ≠ 2 := hprespec
    omega
  exact ⟨.inr (.inr (.inr h2)), .inr (.inr ⟨hle, .inr (.inr h2)⟩), rfl⟩

theorem doOption_answers (hhead : Heads o.length o) (hlen : o.length ≤ MAX_IPOPTLEN)
    (hn : st.saved.ip_nhops ≤ MAX_IPOPTLEN) :
    Answers o (Fits env pos st opt o) (Refused env pos st opt o) (Keeps env pos opt o)
      (doOption env pos st opt o) := by
  by_cases hsource : opt = IPOPT_LSRR ∨ opt = IPOPT_SSRR
  · have hkeeps : Keeps env pos opt o ↔ True := by
      refine iff_true_intro fun hts => ?_
      rw [hts] at hsource
      exact absurd hsource (by decide)
    rw [doOption, Fits, Refused, if_pos hsource, if_pos hsource, if_pos hsource, hkeeps]
    exact sourceRoute_answers hhead hlen hn
  rw [doOption, Fits, Refused, if_neg hsource, if_neg hsource, if_neg hsource]
  by_cases hrr : opt = IPOPT_RR
  · have hkeeps : Keeps env pos opt o ↔ True := by
      refine iff_true_intro fun hts => ?_
      rw [hts] at hrr
      exact absurd hrr (by decide)
    rw [if_pos hrr, if_pos hrr, if_pos hrr, hkeeps]
    exact recordRoute_answers hhead hlen hn
  rw [if_neg hrr, if_neg hrr, if_neg hrr]
  by_cases hts : opt = IPOPT_TS
  · have hkeeps : Keeps env pos opt o ↔ StampKeeps env pos o := forall_prop_of_true hts
    rw [if_pos hts, if_pos hts, if_pos hts, hkeeps]
    exact timestamp_answers hhead hlen hn
  · rw [if_neg hts, if_neg hts, if_neg hts]
    exact ⟨trivial, id, rfl, iff_of_true hhead fun h => absurd h hts, hn⟩

end Answers

/-! ## One pass of the loop -/

/-- An option that has its length is found again if its first bytes say so. -/
theorem optlen_append_iff {o x : Bytes} (h2 : 2 ≤ o.length) :
    optlen (o ++ x) = some o.length ↔ Heads o.length o := by
  obtain ⟨opt, len, l, rfl⟩ : ∃ opt len l, o = opt :: len :: l := by
    rcases o with _ | ⟨opt, _ | ⟨len, l⟩⟩
    · exact absurd h2 (by decide)
    · exact absurd h2 (by simp)
    · exact ⟨opt, len, l, rfl⟩
  rw [List.cons_append, List.cons_append, optlen]
  by_cases heol : opt = IPOPT_EOL
  · rw [if_pos heol]
    exact iff_of_false (by simp) fun h => h.eol (congrArg some heol)
  by_cases hnop : opt = IPOPT_NOP
  · rw [if_neg heol, if_pos hnop, Option.some.injEq]
    exact iff_of_false (by omega) fun h => h.nop (congrArg some hnop)
  rw [if_neg heol, if_neg hnop]
  have hhead : Heads (opt :: len :: l).length (opt :: len :: l) ↔
      len.toNat = (opt :: len :: l).length :=
    ⟨fun h => Option.some.inj h.optlen, fun h => ⟨fun h' => heol (Option.some.inj h'),
      fun h' => hnop (Option.some.inj h'), congrArg some h⟩⟩
  rw [hhead]
  constructor
  · intro h
    split at h
    · cases h
    · exact Option.some.inj h
  · intro h
    rw [if_neg, h]
    rw [List.length_cons, List.length_cons] at h ⊢
    rw [List.length_append]
    omega

/-- What a pass of the loop may do, and what it leaves of an option. -/
def PassAnswers (env : Env) (s : Cursor) : Option Pass → Prop
  | none => ¬AccessOk env s
  | some .done => AccessOk env s ∧ ¬Rejects env s ∧ KeepsLength env s
  | some (.bad cp _ _) => AccessOk env s ∧ Rejects env s ∧ cp.length = s.cp.length
  | some (.more o s') => AccessOk env s ∧ ¬Rejects env s ∧ o.length ≤ s.cp.length ∧
      s'.cp = s.cp.drop o.length ∧ optlen s.cp = some o.length ∧
      (∀ x, optlen (o ++ x) = some o.length ↔ KeepsLength env s) ∧
      s'.st.saved.ip_nhops ≤ MAX_IPOPTLEN

section Pass

variable {env : Env} {s : Cursor} {opt len : UInt8} {l o : Bytes}

theorem current_eol : current (IPOPT_EOL :: l) = none := by
  rcases l with _ | ⟨len, l⟩
  · rfl
  · rw [current, if_neg]
    exact fun h => h.1 rfl

theorem current_nop : current (IPOPT_NOP :: l) = none := by
  rcases l with _ | ⟨len, l⟩
  · rfl
  · rw [current, if_neg]
    exact fun h => h.2.1 rfl

theorem hasLength_of_eq (h : opt = IPOPT_EOL ∨ opt = IPOPT_NOP) : HasLength (opt :: l) := by
  rcases l with _ | ⟨len, l⟩
  · exact h
  · exact h.imp_right .inl

theorem not_badLength_of_eq (h : opt = IPOPT_EOL ∨ opt = IPOPT_NOP) : ¬BadLength (opt :: l) := by
  rcases l with _ | ⟨len, l⟩
  · exact id
  · exact fun hbad => h.elim hbad.1 hbad.2.1

theorem accessOk_of_none (h : current s.cp = none) : AccessOk env s ↔ HasLength s.cp :=
  and_iff_left fun _ _ hc => by rw [h] at hc; cases hc

theorem rejects_of_none (h : current s.cp = none) : Rejects env s ↔ BadLength s.cp := by
  refine or_iff_left ?_
  rintro ⟨opt, o, hc, -⟩
  rw [h] at hc
  cases hc

theorem keepsLength_of_none (h : current s.cp = none) : KeepsLength env s :=
  fun _ _ hc => by rw [h] at hc; cases hc

theorem accessOk_of_some (env : Env) (s : Cursor) (h : current s.cp = some (opt, o))
    (hlen : HasLength s.cp) :
    AccessOk env s ↔ Fits env s.pos s.st opt o := by
  refine ⟨fun hok => hok.2 _ _ h, fun hfits => ⟨hlen, fun opt' o' hc => ?_⟩⟩
  cases h.symm.trans hc
  exact hfits

theorem rejects_of_some (env : Env) (s : Cursor) (h : current s.cp = some (opt, o))
    (hlen : ¬BadLength s.cp) :
    Rejects env s ↔ Refused env s.pos s.st opt o := by
  constructor
  · rintro (hbad | ⟨opt', o', hc, hrefused⟩)
    · exact absurd hbad hlen
    · cases h.symm.trans hc
      exact hrefused
  · exact fun hrefused => .inr ⟨opt, o, h, hrefused⟩

theorem keepsLength_of_some (env : Env) (s : Cursor) (h : current s.cp = some (opt, o)) :
    KeepsLength env s ↔ Keeps env s.pos opt o := by
  refine ⟨fun hkeeps => hkeeps _ _ h, fun hkeeps opt' o' hc => ?_⟩
  cases h.symm.trans hc
  exact hkeeps

theorem optlen_option (heol : opt ≠ IPOPT_EOL) (hnop : opt ≠ IPOPT_NOP) (hlen : 2 ≤ len.toNat)
    (hle : len.toNat ≤ (opt :: len :: l).length) :
    optlen (opt :: len :: l) = some len.toNat := by
  rw [optlen, if_neg heol, if_neg hnop]
  exact if_neg (not_or.2 ⟨by omega, not_lt.2 hle⟩)

theorem heads_take {n : ℕ} (heol : opt ≠ IPOPT_EOL) (hnop : opt ≠ IPOPT_NOP) (hlen : 2 ≤ n)
    (hn : len.toNat = n) : Heads n ((opt :: len :: l).take n) := by
  obtain ⟨k, rfl⟩ := Nat.exists_eq_add_of_le' hlen
  exact ⟨fun h => heol (Option.some.inj h), fun h => hnop (Option.some.inj h), congrArg some hn⟩

theorem step_answers (hcp : s.cp.length ≤ MAX_IPOPTLEN)
    (hn : s.st.saved.ip_nhops ≤ MAX_IPOPTLEN) : PassAnswers env s (step env s) := by
  obtain ⟨st, pos, cp⟩ := s
  cases kind cp with
  | nil =>
    have hc : current [] = none := rfl
    rw [step_nil]
    exact ⟨(accessOk_of_none hc).2 trivial, mt (rejects_of_none hc).1 id, keepsLength_of_none hc⟩
  | eol l =>
    have hc : current (IPOPT_EOL :: l) = none := current_eol
    rw [step_eol]
    exact ⟨(accessOk_of_none hc).2 (hasLength_of_eq (.inl rfl)),
      mt (rejects_of_none hc).1 (not_badLength_of_eq (.inl rfl)), keepsLength_of_none hc⟩
  | nop l =>
    have hc : current (IPOPT_NOP :: l) = none := current_nop
    rw [step_nop]
    exact ⟨(accessOk_of_none hc).2 (hasLength_of_eq (.inr rfl)),
      mt (rejects_of_none hc).1 (not_badLength_of_eq (.inr rfl)), Nat.succ_pos _, rfl, rfl,
      fun x => iff_of_true rfl (keepsLength_of_none hc), hn⟩
  | short heol hnop =>
    rw [step_short heol hnop]
    exact fun h => h.1.elim heol hnop
  | @bad opt len l heol hnop hlen =>
    have hc : current (opt :: len :: l) = none := if_neg fun h => by omega
    have hone : len.toNat ≠ 1 := by
      rw [List.length_cons, List.length_cons] at hlen
      omega
    rw [step_bad heol hnop hlen]
    exact ⟨(accessOk_of_none hc).2 (.inr (.inr hone)),
      (rejects_of_none hc).2 ⟨heol, hnop, hlen⟩, rfl⟩
  | one heol hnop hlen =>
    rw [step_one heol hnop hlen]
    exact fun h => h.1.elim heol fun h => h.elim hnop fun h => h hlen
  | @option opt len l heol hnop hlen hle =>
    have htake : ((opt :: len :: l).take len.toNat).length = len.toNat := List.length_take_of_le hle
    have hc : current (opt :: len :: l) = some (opt, (opt :: len :: l).take len.toNat) :=
      if_pos ⟨heol, hnop, hlen, hle⟩
    have haccess := accessOk_of_some env ⟨st, pos, opt :: len :: l⟩ hc
      (.inr (.inr (by omega)))
    have hrejects := rejects_of_some env ⟨st, pos, opt :: len :: l⟩ hc
      fun h => by have := h.2.2; omega
    have hkeeps := keepsLength_of_some env ⟨st, pos, opt :: len :: l⟩ hc
    generalize ho : (opt :: len :: l).take len.toNat = o at *
    have hhead : Heads o.length o := by
      rw [htake, ← ho]
      exact heads_take heol hnop hlen rfl
    have hans : Answers o (Fits env pos st opt o) (Refused env pos st opt o) (Keeps env pos opt o)
        (doOption env pos st opt o) :=
      doOption_answers hhead (by rw [htake]; exact hle.trans hcp) hn
    rw [step_option heol hnop hlen hle, ho]
    cases hdo : doOption env pos st opt o with
    | none =>
      rw [hdo] at hans
      exact mt haccess.1 hans
    | some r =>
      rw [hdo] at hans
      cases r with
      | bad o' type code =>
        obtain ⟨hfits, hrefused, hlength⟩ := hans
        refine ⟨haccess.2 hfits, hrejects.2 hrefused, ?_⟩
        rw [List.length_append, List.length_drop, hlength]
        dsimp only
        omega
      | next o' st' =>
        obtain ⟨hfits, hrefused, hlength, hheads, hn'⟩ := hans
        have ho' : o'.length = len.toNat := hlength.trans htake
        refine ⟨haccess.2 hfits, mt hrejects.1 hrefused, by rw [ho']; exact hle, by rw [ho'],
          ?_, ?_, hn'⟩
        · rw [ho']
          exact optlen_option heol hnop hlen hle
        · intro x
          rw [optlen_append_iff (by omega), hlength, hheads, hkeeps]

/-- The options that the loop gets to, one after the other. -/
def Next (env : Env) (s s' : Cursor) : Prop := ∃ o, step env s = some (.more o s')

abbrev Visits (env : Env) : Cursor → Cursor → Prop := Relation.ReflTransGen (Next env)

theorem forall_visits {p : Cursor → Prop} :
    (∀ v, Visits env s v → p v) ↔ p s ∧ ∀ s', Next env s s' → ∀ v, Visits env s' v → p v := by
  constructor
  · exact fun h => ⟨h s .refl, fun s' hs' v hv => h v (.head hs' hv)⟩
  · rintro ⟨hs, hnext⟩ v hv
    rcases hv.cases_head with rfl | ⟨s', hs', hv⟩
    · exact hs
    · exact hnext s' hs' v hv

theorem forall_next {s' : Cursor} {p : Cursor → Prop} (h : step env s = some (.more o s')) :
    (∀ s'', Next env s s'' → p s'') ↔ p s' := by
  refine ⟨fun hp => hp s' ⟨o, h⟩, ?_⟩
  rintro hp s'' ⟨o', h'⟩
  cases h.symm.trans h'
  exact hp

/-- Where the loop does not go on, there are no more options. -/
theorem forall_visits_of_last {p : Cursor → Prop}
    (h : ∀ o s', step env s ≠ some (.more o s')) : (∀ v, Visits env s v → p v) ↔ p s := by
  rw [forall_visits]
  refine and_iff_left ?_
  rintro s' ⟨o, ho⟩
  exact absurd ho (h o s')

end Pass

/-! ## The whole loop -/

/-- What is claimed of the loop: all accesses are to the option that they are for, the saved
    addresses fit, and where the packet is not refused, the options are as long as before. -/
structure InBounds (s : Cursor) (r : Result) : Prop where
  ip_nhops : r.st.saved.ip_nhops ≤ MAX_IPOPTLEN
  length : r.cp.length = s.cp.length
  boundaries : r.refused = none → boundaries r.cp = boundaries s.cp

section Run

variable {env : Env}

/-- What the loop answers, by what the options that it gets to are like. -/
def RunAnswers (env : Env) (s : Cursor) : Option Result → Prop
  | none => ¬∀ v, Visits env s v → AccessOk env v
  | some r => (∀ v, Visits env s v → AccessOk env v) ∧ r.st.saved.ip_nhops ≤ MAX_IPOPTLEN ∧
      r.cp.length = s.cp.length ∧ (r.refused = none ↔ ∀ v, Visits env s v → ¬Rejects env v) ∧
      (r.refused = none → (boundaries r.cp = boundaries s.cp ↔
        ∀ v, Visits env s v → KeepsLength env v))

theorem run_answers (s : Cursor) (hcp : s.cp.length ≤ MAX_IPOPTLEN)
    (hn : s.st.saved.ip_nhops ≤ MAX_IPOPTLEN) : RunAnswers env s (run env s) := by
  induction hlen : s.cp.length using Nat.strong_induction_on generalizing s with
  | _ n ih =>
  have hpass : PassAnswers env s (step env s) := step_answers hcp hn
  rw [run]
  split
  · next h =>
    rw [h] at hpass
    exact fun hall => hpass (hall s .refl)
  · next h =>
    rw [h] at hpass
    obtain ⟨hok, hnot, hkeeps⟩ := hpass
    have hlast : ∀ o s', step env s ≠ some (.more o s') := fun o s' h' => by
      cases h.symm.trans h'
    exact ⟨(forall_visits_of_last hlast).2 hok, hn, rfl,
      iff_of_true rfl ((forall_visits_of_last hlast).2 hnot),
      fun _ => iff_of_true rfl ((forall_visits_of_last hlast).2 hkeeps)⟩
  · next cp type code h =>
    rw [h] at hpass
    obtain ⟨hok, hrejects, hlength⟩ := hpass
    have hlast : ∀ o s', step env s ≠ some (.more o s') := fun o s' h' => by
      cases h.symm.trans h'
    exact ⟨(forall_visits_of_last hlast).2 hok, hn, hlength,
      iff_of_false (by simp) fun hall => hall s .refl hrejects, fun h => by cases h⟩
  · next o s' h =>
    have hlt := length_of_more h
    rw [h] at hpass
    obtain ⟨hok, hnot, hle, hcp', hoptlen, hkeeps, hn'⟩ := hpass
    have hrun := ih s'.cp.length (by omega) s' (by omega) hn' rfl
    cases hr : run env s' with
    | none =>
      rw [hr] at hrun
      intro hall
      rw [forall_visits, forall_next h] at hall
      exact hrun hall.2
    | some r =>
      rw [hr] at hrun
      obtain ⟨hok', hhops, hlength, hrefused, hbound⟩ := hrun
      refine ⟨?_, hhops, ?_, ?_, fun hnone => ?_⟩
      · rw [forall_visits, forall_next h]
        exact ⟨hok, hok'⟩
      · show (o ++ r.cp).length = s.cp.length
        rw [List.length_append, hlength, hcp', List.length_drop]
        omega
      · rw [forall_visits, forall_next h]
        exact hrefused.trans (and_iff_right hnot).symm
      · have hs : boundaries s.cp = o.length :: boundaries s'.cp :=
          boundaries_eq_cons_iff.2 ⟨hoptlen, by rw [hcp']⟩
        show boundaries (o ++ r.cp) = boundaries s.cp ↔ _
        rw [forall_visits, forall_next h, hs, boundaries_eq_cons_iff, hkeeps, List.drop_left,
          hbound hnone]

/-- The options of a header are processed within bounds, and kept, if and only if all accesses are
    in their option and, where none is refused, none is written over its length. -/
theorem processes_iff {s : Cursor} (hcp : s.cp.length ≤ MAX_IPOPTLEN)
    (hn : s.st.saved.ip_nhops ≤ MAX_IPOPTLEN) :
    (∃ r, run env s = some r ∧ InBounds s r) ↔
      (∀ v, Visits env s v → AccessOk env v) ∧
        ((∀ v, Visits env s v → ¬Rejects env v) → ∀ v, Visits env s v → KeepsLength env v) := by
  have hrun : RunAnswers env s (run env s) := run_answers s hcp hn
  cases hr : run env s with
  | none =>
    rw [hr] at hrun
    constructor
    · rintro ⟨r, h, -⟩
      cases h
    · exact fun h => absurd h.1 hrun
  | some r =>
    rw [hr] at hrun
    obtain ⟨hok, hhops, hlength, hrefused, hbound⟩ := hrun
    constructor
    · rintro ⟨r', h, hin⟩
      cases h
      refine ⟨hok, fun hnot => ?_⟩
      have hnone := hrefused.2 hnot
      exact (hbound hnone).1 (hin.boundaries hnone)
    · rintro ⟨-, hkeeps⟩
      exact ⟨r, rfl, hhops, hlength, fun hnone => (hbound hnone).2 (hkeeps (hrefused.1 hnone))⟩

end Run

/-- A kernel that has a route to every address, and one address of its own. -/
def anyRoute : Env where
  ip_src := ⟨10, 0, 0, 1⟩
  ifa_ifwithaddr _ a := a = ⟨10, 0, 0, 2⟩
  in_iaonnetof _ _ := true
  ip_rtaddr _ _ := some ⟨10, 0, 0, 2⟩
  in_ifaddr := some ⟨10, 0, 0, 2⟩
  iptime _ := ⟨0, 0, 0, 0⟩

/-- The options of a header, with its destination the kernel's own address. -/
def received (cp : Bytes) : Cursor := ⟨⟨⟨10, 0, 0, 2⟩, fun _ => 0, 0⟩, 20, cp⟩

/-- A route is recorded in the one entry there is, and a `NOP` is passed over. -/
theorem processes_record : ∃ r,
    run anyRoute (received [7, 7, 4, 10, 0, 0, 3, 1]) = some r ∧
      InBounds (received [7, 7, 4, 10, 0, 0, 3, 1]) r := by
  have h₁ : step anyRoute (received [7, 7, 4, 10, 0, 0, 3, 1]) =
      some (.more [7, 7, 8, 10, 0, 0, 2] ⟨⟨⟨10, 0, 0, 2⟩, ⟨fun _ => 0, 0⟩⟩, 27, [1]⟩) := rfl
  have h₂ : step anyRoute ⟨⟨⟨10, 0, 0, 2⟩, ⟨fun _ => 0, 0⟩⟩, 27, [1]⟩ =
      some (.more [1] ⟨⟨⟨10, 0, 0, 2⟩, ⟨fun _ => 0, 0⟩⟩, 28, []⟩) := rfl
  have h₃ : ∀ o s', step anyRoute ⟨⟨⟨10, 0, 0, 2⟩, ⟨fun _ => 0, 0⟩⟩, 28, []⟩ ≠
      some (.more o s') := fun o s' h => by cases h
  have hall : ∀ p : Cursor → Prop, p (received [7, 7, 4, 10, 0, 0, 3, 1]) →
      p ⟨⟨⟨10, 0, 0, 2⟩, ⟨fun _ => 0, 0⟩⟩, 27, [1]⟩ →
      p ⟨⟨⟨10, 0, 0, 2⟩, ⟨fun _ => 0, 0⟩⟩, 28, []⟩ →
      ∀ v, Visits anyRoute (received [7, 7, 4, 10, 0, 0, 3, 1]) v → p v := by
    intro p hp₁ hp₂ hp₃
    rw [forall_visits, forall_next h₁, forall_visits, forall_next h₂, forall_visits_of_last h₃]
    exact ⟨hp₁, hp₂, hp₃⟩
  have hrecord : current [7, 7, 4, 10, 0, 0, 3, 1] = some (IPOPT_RR, [7, 7, 4, 10, 0, 0, 3]) := rfl
  refine (processes_iff (by decide) (by decide)).2 ⟨hall _ ?_ ?_ ?_, fun _ => hall _ ?_ ?_ ?_⟩
  · have hlen : HasLength [7, 7, 4, 10, 0, 0, 3, 1] := .inr (.inr (by decide))
    refine (accessOk_of_some _ _ hrecord hlen).2 ?_
    rw [Fits, if_neg (by decide), if_pos rfl]
    exact ⟨by decide, .inl (by decide)⟩
  · exact (accessOk_of_none rfl).2 (.inr rfl)
  · exact (accessOk_of_none rfl).2 trivial
  · exact (keepsLength_of_some _ _ hrecord).2 fun h => absurd h (by decide)
  · exact keepsLength_of_none rfl
  · exact keepsLength_of_none rfl

/-- A route is recorded in an option of three bytes: the entry is outside of it. -/
theorem not_processes : ¬∀ (env : Env) (s : Cursor), s.cp.length ≤ MAX_IPOPTLEN →
    s.st.saved.ip_nhops ≤ MAX_IPOPTLEN → ∃ r, run env s = some r ∧ InBounds s r := by
  intro h
  obtain ⟨r, hr, -⟩ := h anyRoute (received [7, 3, 4, 0]) (by decide) (by decide)
  rw [run] at hr
  split at hr
  · cases hr
  · next h' => cases h'
  · next h' => cases h'
  · next h' => cases h'

end AuxKernel.Ip.Options
