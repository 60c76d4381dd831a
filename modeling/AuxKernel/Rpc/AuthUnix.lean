import AuxKernel.Rpc.ProtPaths

/-!
# Credentials of AUTH_UNIX

`_svcauth_unix` reads the parameters straight from the credential of a call: the stream over it
always has its bytes inline, so that the routine that would decode them field by field is not
used. It copies the name by the length that it finds, before the length is compared with the space
for it, and it reads everything before it compares what it has read with the length of the
credential. The number of groups is compared as a signed number.

An access outside the credential, the space for the name or that for the groups is `none`.

* `encoded_iff`: where the fields of parameters are in a credential that encodes them;
* `parses_iff`: when all accesses are inside, and the credential is accepted if and only if it
  encodes parameters, which are then the decoded ones.
-/

namespace AuxKernel.Rpc.AuthUnix

open Prot

def MAX_MACHINE_NAME : ℕ := 255

def NGRPS : ℕ := 8

inductive AuthStat
  | AUTH_OK
  | AUTH_BADCRED
  deriving DecidableEq

/-- The parameters as they are decoded, with the space for the name and the groups. -/
structure Area where
  aup_time : UInt32
  aup_uid : UInt32
  aup_gid : UInt32
  aup_len : UInt32
  area_machname : ℕ → UInt8
  area_gids : ℕ → UInt32

/-- A credential: its length, and the memory from its first byte on. -/
structure Cred where
  oa_length : ℕ
  oa_base : ℕ → UInt8

/-- A word as an `int`. -/
def int (w : UInt32) : ℤ := toLong w.toNat

namespace Cred

variable (c : Cred)

/-- The `n` bytes at an offset. -/
def read (i n : ℕ) : List UInt8 := (List.range n).map fun j => c.oa_base (i + j)

def word (i : ℕ) : UInt32 := UInt32.ofInt (ntohl (c.read i 4))

/-- `IXDR_GET_LONG`, at an offset. -/
def getLong (i : ℕ) : Option UInt32 := if i + 4 ≤ c.oa_length then some (c.word i) else none

/-- The name is copied, and a zero put behind it. -/
def copyName (str_len : ℤ) (machname : ℕ → UInt8) : Option (ℕ → UInt8) :=
  if 0 ≤ str_len ∧ str_len < MAX_MACHINE_NAME ∧ 8 + str_len ≤ c.oa_length then
    some fun i => if i < str_len then c.oa_base (8 + i) else if i = str_len then 0 else machname i
  else none

/-- The loop over the groups: `k` more of them, from group `i` on. -/
def getGids (buf : ℕ) : (k i : ℕ) → (ℕ → UInt32) → Option (ℕ → UInt32)
  | 0, _, gids => some gids
  | k + 1, i, gids =>
    if i < NGRPS then
      (c.getLong (buf + 4 * i)).bind fun gid => getGids buf k (i + 1) (Function.update gids i gid)
    else none

end Cred

/-- The value of the routine, and what it leaves in the area. -/
def svcauth_unix (c : Cred) (area : Area) : Option (AuthStat × Area) := do
  let time ← c.getLong 0
  let len ← c.getLong 4
  let str_len := int len
  let machname ← c.copyName str_len area.area_machname
  let rnd := RNDUP str_len.toNat
  let uid ← c.getLong (8 + rnd)
  let gid ← c.getLong (12 + rnd)
  let glen ← c.getLong (16 + rnd)
  let gid_len := int glen
  let area := { area with
    aup_time := time, area_machname := machname, aup_uid := uid, aup_gid := gid }
  if gid_len > NGRPS then return (.AUTH_BADCRED, area)
  let gids ← c.getGids (20 + rnd) gid_len.toNat 0 area.area_gids
  let area := { area with aup_len := glen, area_gids := gids }
  -- The length is unsigned, and so is the comparison with it.
  if ((5 + gid_len) * 4 + rnd) % 2 ^ 32 > c.oa_length then return (.AUTH_BADCRED, area)
  return (.AUTH_OK, area)

/-! ## What is encoded -/

/-- The parameters of a credential. -/
structure Parms where
  time : UInt32
  machname : List UInt8
  uid : UInt32
  gid : UInt32
  gids : List UInt32

/-- The XDR of parameters, with the bytes that fill up the name. -/
def Parms.xdr (p : Parms) (pad : List UInt8) : List UInt8 :=
  longs [p.time, UInt32.ofNat p.machname.length] ++ (p.machname ++ (pad ++
    (longs [p.uid, p.gid, UInt32.ofNat p.gids.length] ++ longs p.gids)))

/-- The credential begins with the XDR of the parameters. -/
def Encoded (p : Parms) (c : Cred) : Prop :=
  p.machname.length ≤ MAX_MACHINE_NAME ∧ p.gids.length ≤ NGRPS ∧
    ∃ pad, pad.length = rndup p.machname.length ∧ p.xdr pad <+: c.read 0 c.oa_length

/-- The parameters are decoded. -/
structure Holds (area : Area) (p : Parms) : Prop where
  time : area.aup_time = p.time
  machname : ∀ i (h : i < p.machname.length), area.area_machname i = p.machname[i]
  terminated : area.area_machname p.machname.length = 0
  uid : area.aup_uid = p.uid
  gid : area.aup_gid = p.gid
  len : area.aup_len = UInt32.ofNat p.gids.length
  gids : ∀ i (h : i < p.gids.length), area.area_gids i = p.gids[i]

section Encoding

variable {c : Cred} {p : Parms} {i : ℕ}

theorem length_read (n : ℕ) : (c.read i n).length = n := by
  rw [Cred.read, List.length_map, List.length_range]

theorem read_add (n k : ℕ) : c.read i (n + k) = c.read i n ++ c.read (i + n) k := by
  simp only [Cred.read, List.range_add, List.map_append, List.map_map, Function.comp_def,
    Nat.add_assoc]

/-- The bytes lie in the credential at an offset. -/
def At (c : Cred) (i : ℕ) (x : List UInt8) : Prop :=
  i + x.length ≤ c.oa_length ∧ c.read i x.length = x

theorem at_append {x y : List UInt8} : At c i (x ++ y) ↔ At c i x ∧ At c (i + x.length) y := by
  simp only [At, List.length_append, read_add]
  constructor
  · rintro ⟨hle, hread⟩
    obtain ⟨hx, hy⟩ := List.append_inj hread (length_read _)
    exact ⟨⟨by omega, hx⟩, by omega, hy⟩
  · rintro ⟨⟨hle, hx⟩, hle', hy⟩
    exact ⟨by omega, by rw [hx, hy]⟩

theorem at_zero {x : List UInt8} : At c 0 x ↔ x <+: c.read 0 c.oa_length := by
  constructor
  · rintro ⟨hle, hread⟩
    rw [Nat.zero_add] at hle
    rw [← Nat.add_sub_cancel' hle, read_add, hread]
    exact List.prefix_append x _
  · rintro ⟨t, ht⟩
    have hlen := congrArg List.length ht
    rw [List.length_append, length_read] at hlen
    rw [← hlen, read_add] at ht
    exact ⟨by omega, (List.append_inj ht (length_read _).symm).1.symm⟩

/-- Four bytes are those of the word they make. -/
theorem htonl_ntohl (a b d e : UInt8) :
    htonl (UInt32.ofInt (ntohl [a, b, d, e])).toNat = [a, b, d, e] := by
  have ha := a.toNat_lt
  have hb := b.toNat_lt
  have hd := d.toNat_lt
  have he := e.toNat_lt
  have hword : (UInt32.ofInt (ntohl [a, b, d, e])).toNat =
      ((a.toNat * 2 ^ 8 + b.toNat) * 2 ^ 8 + d.toNat) * 2 ^ 8 + e.toNat := by
    generalize hn : ((a.toNat * 2 ^ 8 + b.toNat) * 2 ^ 8 + d.toNat) * 2 ^ 8 + e.toNat = n
    have hfold : ntohl [a, b, d, e] = toLong n := by
      rw [ntohl, ← hn]
      push_cast
      simp
    have hmod : Int.bmod n (2 ^ 32) % 2 ^ 32 = n % 2 ^ 32 := Int.bmod_emod (m := 2 ^ 32)
    rw [hfold, UInt32.ofInt, toLong, hmod, UInt32.toNat_ofNat']
    omega
  have hbyte {x : UInt8} {n : ℕ} (h : n % 2 ^ 8 = x.toNat) : UInt8.ofNat n = x := by
    refine UInt8.toNat_inj.1 ?_
    rw [UInt8.toNat_ofNat']
    exact h
  rw [hword, htonl]
  simp only [List.cons.injEq, and_true]
  exact ⟨hbyte (by omega), hbyte (by omega), hbyte (by omega), hbyte (by omega)⟩

theorem htonl_word (i : ℕ) : htonl (c.word i).toNat = c.read i 4 := htonl_ntohl _ _ _ _

theorem at_long {w : UInt32} : At c i (htonl w.toNat) ↔ i + 4 ≤ c.oa_length ∧ c.word i = w := by
  rw [At, length_htonl]
  refine and_congr_right fun _ => ⟨fun h => ?_, ?_⟩
  · rw [Cred.word, h, ofInt_ntohl]
  · rintro rfl
    exact (htonl_word i).symm

/-- A list of words lies at an offset if each word is at its place. -/
theorem at_longs {ws : List UInt32} (hne : ws ≠ []) : At c i (longs ws) ↔
    i + 4 * ws.length ≤ c.oa_length ∧ ∀ j (h : j < ws.length), c.word (i + 4 * j) = ws[j] := by
  induction ws generalizing i with
  | nil => exact absurd rfl hne
  | cons w ws ih =>
    rw [longs_cons, at_append, at_long, length_htonl]
    cases ws with
    | nil =>
      constructor
      · rintro ⟨⟨hle, hw⟩, -⟩
        refine ⟨hle, fun j hj => ?_⟩
        obtain rfl : j = 0 := Nat.lt_one_iff.1 hj
        exact hw
      · rintro ⟨hle, hws⟩
        exact ⟨⟨hle, hws 0 Nat.one_pos⟩, hle, rfl⟩
    | cons v ws =>
      rw [ih (List.cons_ne_nil v ws)]
      constructor
      · rintro ⟨⟨-, hw⟩, hle, hws⟩
        refine ⟨by simp only [List.length_cons] at hle ⊢; omega, fun j hj => ?_⟩
        cases j with
        | zero => exact hw
        | succ j =>
          have := hws j (Nat.lt_of_succ_lt_succ hj)
          rw [show i + 4 * (j + 1) = i + 4 + 4 * j by omega]
          exact this
      · rintro ⟨hle, hws⟩
        simp only [List.length_cons] at hle hws
        refine ⟨⟨by omega, hws 0 (by omega)⟩, by simp only [List.length_cons]; omega,
          fun j hj => ?_⟩
        have := hws (j + 1) (Nat.succ_lt_succ hj)
        rw [show i + 4 * (j + 1) = i + 4 + 4 * j by omega] at this
        exact this

/-- Where the fields are in a credential that encodes parameters. -/
theorem encoded_iff : Encoded p c ↔
    p.machname.length ≤ MAX_MACHINE_NAME ∧ p.gids.length ≤ NGRPS ∧
      20 + RNDUP p.machname.length + 4 * p.gids.length ≤ c.oa_length ∧
      c.word 0 = p.time ∧ c.word 4 = UInt32.ofNat p.machname.length ∧
      c.read 8 p.machname.length = p.machname ∧
      c.word (8 + RNDUP p.machname.length) = p.uid ∧
      c.word (12 + RNDUP p.machname.length) = p.gid ∧
      c.word (16 + RNDUP p.machname.length) = UInt32.ofNat p.gids.length ∧
      ∀ j (h : j < p.gids.length),
        c.word (20 + RNDUP p.machname.length + 4 * j) = p.gids[j] := by
  have hxdr (pad : List UInt8) (hpad : pad.length = rndup p.machname.length) :
      At c 0 (p.xdr pad) ↔ At c 0 (longs [p.time, UInt32.ofNat p.machname.length]) ∧
        At c 8 p.machname ∧ At c (8 + p.machname.length) pad ∧
        At c (8 + RNDUP p.machname.length)
          (longs ([p.uid, p.gid, UInt32.ofNat p.gids.length] ++ p.gids)) := by
    have hlongs : longs [p.uid, p.gid, UInt32.ofNat p.gids.length] ++ longs p.gids =
        longs ([p.uid, p.gid, UInt32.ofNat p.gids.length] ++ p.gids) := rfl
    rw [Parms.xdr, hlongs, at_append, at_append, at_append, hpad, RNDUP_eq, ← Nat.add_assoc]
    rfl
  rw [Encoded]
  refine and_congr_right fun _ => and_congr_right fun _ => ?_
  have hfields : At c (8 + RNDUP p.machname.length)
      (longs ([p.uid, p.gid, UInt32.ofNat p.gids.length] ++ p.gids)) ↔
      20 + RNDUP p.machname.length + 4 * p.gids.length ≤ c.oa_length ∧
        c.word (8 + RNDUP p.machname.length) = p.uid ∧
        c.word (12 + RNDUP p.machname.length) = p.gid ∧
        c.word (16 + RNDUP p.machname.length) = UInt32.ofNat p.gids.length ∧
        ∀ j (h : j < p.gids.length),
          c.word (20 + RNDUP p.machname.length + 4 * j) = p.gids[j] := by
    rw [at_longs (by simp)]
    generalize RNDUP p.machname.length = r
    constructor
    · rintro ⟨hle, hws⟩
      simp only [List.length_append, List.length_cons, List.length_nil] at hle hws
      refine ⟨by omega, hws 0 (by omega), ?_, ?_, fun j hj => ?_⟩
      · rw [show 12 + r = 8 + r + 4 * 1 by omega]
        exact hws 1 (by omega)
      · rw [show 16 + r = 8 + r + 4 * 2 by omega]
        exact hws 2 (by omega)
      · rw [show 20 + r + 4 * j = 8 + r + 4 * (j + 3) by omega]
        exact hws (j + 3) (by omega)
    · rintro ⟨hle, huid, hgid, hlen, hgids⟩
      refine ⟨by simp only [List.length_append, List.length_cons, List.length_nil]; omega,
        fun j hj => ?_⟩
      simp only [List.length_append, List.length_cons, List.length_nil] at hj
      rcases j with _ | _ | _ | j
      · exact huid
      · rw [show 8 + r + 4 * (0 + 1) = 12 + r by omega]
        exact hgid
      · rw [show 8 + r + 4 * (0 + 1 + 1) = 16 + r by omega]
        exact hlen
      · rw [show 8 + r + 4 * (j + 1 + 1 + 1) = 20 + r + 4 * j by omega]
        exact hgids j (by omega)
  have hhead : At c 0 (longs [p.time, UInt32.ofNat p.machname.length]) ↔ 8 ≤ c.oa_length ∧
      c.word 0 = p.time ∧ c.word 4 = UInt32.ofNat p.machname.length := by
    rw [at_longs (by simp)]
    constructor
    · rintro ⟨hle, hws⟩
      exact ⟨hle, hws 0 (by simp), hws 1 (by simp)⟩
    · rintro ⟨hle, htime, hlen⟩
      refine ⟨hle, fun j hj => ?_⟩
      rcases j with _ | _ | j
      · exact htime
      · exact hlen
      · simp only [List.length_cons, List.length_nil] at hj
        omega
  have hrnd := RNDUP_eq p.machname.length
  constructor
  · rintro ⟨pad, hpad, hpre⟩
    obtain ⟨h₁, h₂, -, h₄⟩ := (hxdr pad hpad).1 (at_zero.2 hpre)
    obtain ⟨-, htime, hlen⟩ := hhead.1 h₁
    obtain ⟨hle, hrest⟩ := hfields.1 h₄
    exact ⟨hle, htime, hlen, h₂.2, hrest⟩
  · rintro ⟨hle, htime, hlen, hname, hrest⟩
    refine ⟨c.read (8 + p.machname.length) (rndup p.machname.length), length_read _,
      at_zero.1 ((hxdr _ (length_read _)).2 ⟨hhead.2 ⟨by omega, htime, hlen⟩, ⟨by omega, hname⟩,
        ⟨?_, by rw [length_read]⟩, hfields.2 ⟨hle, hrest⟩⟩)⟩
    rw [length_read]
    omega

end Encoding

/-! ## What is decoded -/

/-- The credential is parsed as its encoding says: all accesses are inside, it is accepted if and
    only if it encodes parameters, and these are the decoded ones. -/
def Parses (c : Cred) (area : Area) : Prop :=
  ∃ stat area', svcauth_unix c area = some (stat, area') ∧
    (stat = .AUTH_OK ↔ ∃ p, Encoded p c) ∧
    (stat = .AUTH_OK → ∃ p, Encoded p c ∧ Holds area' p)

namespace Cred

variable (c : Cred)

def strLen : ℤ := int (c.word 4)

def rnd : ℕ := RNDUP c.strLen.toNat

def gidLen : ℤ := int (c.word (16 + c.rnd))

/-- The fields before the groups are in the credential, and the name in its space. -/
structure Head : Prop where
  nonneg : 0 ≤ c.strLen
  fits : c.strLen < MAX_MACHINE_NAME
  inside : 20 + c.rnd ≤ c.oa_length

/-- What the lengths in the credential have to be for it to be parsed. A negative number of groups
    has to make a length that is too large as an unsigned number. -/
def InBounds : Prop :=
  c.Head ∧ (NGRPS < c.gidLen ∨
    (0 ≤ c.gidLen ∧ 20 + c.rnd + 4 * c.gidLen ≤ c.oa_length) ∨
    (c.gidLen < 0 ∧ c.oa_length < ((5 + c.gidLen) * 4 + c.rnd) % 2 ^ 32))

/-- The area with the fields before the groups. -/
def head (area : Area) : Area := { area with
  aup_time := c.word 0
  area_machname := fun i => if i < c.strLen then c.oa_base (8 + i)
    else if i = c.strLen then 0 else area.area_machname i
  aup_uid := c.word (8 + c.rnd)
  aup_gid := c.word (12 + c.rnd) }

/-- The parameters at the places that the lengths give. -/
def parms : Parms where
  time := c.word 0
  machname := c.read 8 c.strLen.toNat
  uid := c.word (8 + c.rnd)
  gid := c.word (12 + c.rnd)
  gids := (List.range c.gidLen.toNat).map fun j => c.word (20 + c.rnd + 4 * j)

variable {c}

theorem getLong_of_le {i : ℕ} (h : i + 4 ≤ c.oa_length) : c.getLong i = some (c.word i) := if_pos h

theorem getLong_of_lt {i : ℕ} (h : c.oa_length < i + 4) : c.getLong i = none :=
  if_neg (Nat.not_le_of_lt h)

/-- The loop over the groups stops short outside of the credential or of the space for them. -/
theorem getGids_eq (buf k i : ℕ) (gids : ℕ → UInt32) : c.getGids buf k i gids =
    if k = 0 ∨ i + k ≤ NGRPS ∧ buf + 4 * (i + k) ≤ c.oa_length then
      some fun j => if i ≤ j ∧ j < i + k then c.word (buf + 4 * j) else gids j
    else none := by
  induction k generalizing i gids with
  | zero =>
    rw [getGids, if_pos (Or.inl rfl)]
    congr 1
    funext j
    rw [if_neg (by omega)]
  | succ k ih =>
    rw [getGids]
    by_cases hi : i < NGRPS
    · by_cases hb : buf + 4 * i + 4 ≤ c.oa_length
      · rw [if_pos hi, getLong_of_le hb, Option.bind_some, ih]
        have hcond : (k = 0 ∨ i + 1 + k ≤ NGRPS ∧ buf + 4 * (i + 1 + k) ≤ c.oa_length) ↔
            (k + 1 = 0 ∨ i + (k + 1) ≤ NGRPS ∧ buf + 4 * (i + (k + 1)) ≤ c.oa_length) := by omega
        rw [if_congr hcond rfl rfl]
        congr 2
        funext j
        rw [Function.update_apply]
        by_cases hj : j = i
        · subst hj
          rw [if_neg (by omega), if_pos rfl, if_pos (by omega)]
        · rw [if_neg hj]
          exact if_congr (by omega) rfl rfl
      · rw [if_pos hi, getLong_of_lt (by omega), Option.bind_none, if_neg (by omega)]
    · rw [if_neg hi, if_neg (by omega)]

end Cred

section Decoding

variable {c : Cred} {area area' : Area} {stat : AuthStat} {p : Parms}

/-- A result shows that the fields before the groups are where they should be. -/
theorem head_of_svcauth_unix (h : svcauth_unix c area = some (stat, area')) : c.Head := by
  rw [svcauth_unix] at h
  simp only [Option.bind_eq_bind, Option.bind_eq_some_iff] at h
  obtain ⟨-, -, len, hlen, name, hname, -, -, -, -, glen, hglen, -⟩ := h
  obtain rfl : c.word 4 = len := by
    rw [Cred.getLong, Option.ite_none_right_eq_some] at hlen
    exact Option.some.inj hlen.2
  rw [Cred.copyName, Option.ite_none_right_eq_some] at hname
  rw [Cred.getLong, Option.ite_none_right_eq_some] at hglen
  have hle : 16 + c.rnd + 4 ≤ c.oa_length := hglen.1
  exact ⟨hname.1.1, hname.1.2.1, by omega⟩

theorem getLong_of_head (h : c.Head) {i : ℕ} (hi : i ≤ 16) :
    c.getLong (i + c.rnd) = some (c.word (i + c.rnd)) := by
  have hinside := h.inside
  exact Cred.getLong_of_le (by omega)

theorem copyName_of_head (h : c.Head) :
    c.copyName c.strLen area.area_machname = some (c.head area).area_machname := by
  have hinside := h.inside
  have hrnd : c.strLen.toNat ≤ c.rnd := by
    rw [Cred.rnd, RNDUP_eq]
    exact Nat.le_add_right _ _
  rw [Cred.copyName, if_pos ⟨h.nonneg, h.fits, by omega⟩, Cred.head]

/-- With the fields before the groups where they should be, the rest is left to the groups. -/
theorem svcauth_unix_of_head (h : c.Head) : svcauth_unix c area =
    if c.gidLen > NGRPS then some (.AUTH_BADCRED, c.head area)
    else (c.getGids (20 + c.rnd) c.gidLen.toNat 0 area.area_gids).map fun gids =>
      (if ((5 + c.gidLen) * 4 + c.rnd) % 2 ^ 32 > c.oa_length then .AUTH_BADCRED else .AUTH_OK,
        { c.head area with aup_len := c.word (16 + c.rnd), area_gids := gids }) := by
  have hinside := h.inside
  rw [svcauth_unix, Cred.getLong_of_le (by omega), Cred.getLong_of_le (by omega),
    Option.bind_eq_bind, Option.bind_some, Option.bind_eq_bind, Option.bind_some]
  dsimp only
  rw [← Cred.strLen, ← Cred.rnd, copyName_of_head h, Option.bind_eq_bind, Option.bind_some,
    getLong_of_head h (by omega), Option.bind_some, getLong_of_head h (by omega),
    Option.bind_some, getLong_of_head h (by omega), Option.bind_some, ← Cred.gidLen]
  by_cases hk : c.gidLen > NGRPS
  · rw [if_pos hk, if_pos hk, Option.pure_def, Cred.head]
  · rw [if_neg hk, if_neg hk, Option.map_eq_bind]
    refine Option.bind_congr fun gids _ => ?_
    by_cases hle : ((5 + c.gidLen) * 4 + c.rnd) % 2 ^ 32 > c.oa_length
    · rw [if_pos hle, Function.comp_apply, if_pos hle, Option.pure_def, Cred.head]
    · rw [if_neg hle, Function.comp_apply, if_neg hle, Option.pure_def, Cred.head]

theorem int_ofNat {n : ℕ} (h : n ≤ MAX_MACHINE_NAME) : int (UInt32.ofNat n) = n := by
  have hmax : MAX_MACHINE_NAME = 255 := rfl
  have hsize : UInt32.size = 2 ^ 32 := rfl
  rw [int, UInt32.toNat_ofNat_of_lt' (by omega)]
  exact toLong_of_mem (by omega) (by omega)

theorem ofNat_int {w : UInt32} (h : 0 ≤ int w) : UInt32.ofNat (int w).toNat = w := by
  have hlt := w.toNat_lt
  have hnat : (int w).toNat = w.toNat := by
    rw [int, toLong] at h ⊢
    have hmod : Int.bmod w.toNat (2 ^ 32) % 2 ^ 32 = w.toNat % 2 ^ 32 :=
      Int.bmod_emod (m := 2 ^ 32)
    have hbound := Int.bmod_lt (x := w.toNat) (m := 2 ^ 32) (by decide)
    omega
  rw [hnat]
  exact UInt32.ofNat_toNat

/-- The lengths of a credential that encodes parameters are theirs. -/
theorem lengths_of_encoded (h : Encoded p c) : c.strLen = p.machname.length ∧
    c.rnd = RNDUP p.machname.length ∧ c.gidLen = p.gids.length := by
  obtain ⟨hname, hgids, -, -, hlen, -, -, -, hglen, -⟩ := encoded_iff.1 h
  have hstr : c.strLen = p.machname.length := by rw [Cred.strLen, hlen, int_ofNat hname]
  have hrnd : c.rnd = RNDUP p.machname.length := by rw [Cred.rnd, hstr, Int.toNat_natCast]
  refine ⟨hstr, hrnd, ?_⟩
  have hmax : NGRPS ≤ MAX_MACHINE_NAME := by decide
  rw [Cred.gidLen, hrnd, hglen, int_ofNat (hgids.trans hmax)]

theorem gidLen_of_encoded (h : Encoded p c) : 0 ≤ c.gidLen ∧ c.gidLen ≤ NGRPS := by
  rw [(lengths_of_encoded h).2.2]
  exact ⟨Int.natCast_nonneg _, Int.ofNat_le.2 h.2.1⟩

/-- The parameters at the places that the lengths give are encoded, if the groups are there. -/
theorem encoded_parms (h : c.Head) (hle : c.gidLen ≤ NGRPS) (hnonneg : 0 ≤ c.gidLen)
    (hinside : 20 + c.rnd + 4 * c.gidLen ≤ c.oa_length) : Encoded c.parms c := by
  have hname : c.parms.machname.length = c.strLen.toNat := by
    rw [Cred.parms, length_read]
  have hgids : c.parms.gids.length = c.gidLen.toNat := by
    rw [Cred.parms, List.length_map, List.length_range]
  have hstr : c.word 4 = UInt32.ofNat c.strLen.toNat := by rw [Cred.strLen, ofNat_int h.nonneg]
  have hfits := h.fits
  rw [encoded_iff, hname, ← Cred.rnd]
  simp only [hgids]
  refine ⟨by omega, by omega, by omega, rfl, hstr, by rw [Cred.parms], rfl, rfl,
    (ofNat_int hnonneg).symm, fun j hj => ?_⟩
  simp only [Cred.parms, List.getElem_map, List.getElem_range]

/-- They are also what is decoded. -/
theorem holds_parms (h : c.Head) (hnonneg : 0 ≤ c.gidLen) (gids : ℕ → UInt32)
    (hgids : ∀ j < c.gidLen.toNat, gids j = c.word (20 + c.rnd + 4 * j)) :
    Holds { c.head area with aup_len := c.word (16 + c.rnd), area_gids := gids } c.parms := by
  have hname : c.parms.machname.length = c.strLen.toNat := by
    rw [Cred.parms, length_read]
  have hlen : c.parms.gids.length = c.gidLen.toNat := by
    rw [Cred.parms, List.length_map, List.length_range]
  have hstr := h.nonneg
  constructor
  case time | uid | gid => rfl
  case machname =>
    intro i hi
    rw [hname] at hi
    simp only [Cred.head, Cred.parms, Cred.read, List.getElem_map, List.getElem_range]
    rw [if_pos (by omega)]
  case terminated =>
    rw [hname, Cred.head]
    dsimp only
    rw [if_neg (by omega), if_pos (by omega)]
  case len => rw [hlen, Cred.gidLen, ofNat_int hnonneg]
  case gids =>
    intro j hj
    rw [hlen] at hj
    simp only [Cred.parms, List.getElem_map, List.getElem_range]
    exact hgids j hj

theorem svcauth_unix_of_gt (h : c.Head) (hgt : c.gidLen > NGRPS) :
    svcauth_unix c area = some (.AUTH_BADCRED, c.head area) := by
  rw [svcauth_unix_of_head h, if_pos hgt]

/-- A negative number of groups reads none of them, and is left to the comparison of the length. -/
theorem svcauth_unix_of_neg (h : c.Head) (hneg : c.gidLen < 0) :
    ∃ area', svcauth_unix c area = some
      (if ((5 + c.gidLen) * 4 + c.rnd) % 2 ^ 32 > c.oa_length then .AUTH_BADCRED else .AUTH_OK,
        area') := by
  rw [svcauth_unix_of_head h, if_neg (by omega), Int.toNat_of_nonpos hneg.le]
  exact ⟨_, rfl⟩

theorem svcauth_unix_of_le (h : c.Head) (hnonneg : 0 ≤ c.gidLen) (hle : c.gidLen ≤ NGRPS)
    (hinside : 20 + c.rnd + 4 * c.gidLen ≤ c.oa_length) :
    ∃ gids, svcauth_unix c area = some
        (.AUTH_OK, { c.head area with aup_len := c.word (16 + c.rnd), area_gids := gids }) ∧
      ∀ j < c.gidLen.toNat, gids j = c.word (20 + c.rnd + 4 * j) := by
  have hgids := Cred.getGids_eq (c := c) (20 + c.rnd) c.gidLen.toNat 0 area.area_gids
  rw [if_pos (by omega)] at hgids
  refine ⟨fun j => if 0 ≤ j ∧ j < 0 + c.gidLen.toNat then c.word (20 + c.rnd + 4 * j)
    else area.area_gids j, ?_, fun j hj => if_pos ⟨Nat.zero_le j, by rwa [Nat.zero_add]⟩⟩
  rw [svcauth_unix_of_head h, if_neg (by omega), hgids, Option.map_some, if_neg (by omega)]

/-- What is refused is parsed, unless the number of groups is a possible one. -/
theorem parses_of_refused (h : svcauth_unix c area = some (.AUTH_BADCRED, area'))
    (hk : c.gidLen < 0 ∨ c.gidLen > NGRPS) : Parses c area := by
  have hno : ¬∃ p, Encoded p c := by
    rintro ⟨p, hp⟩
    have := gidLen_of_encoded hp
    omega
  exact ⟨_, _, h, iff_of_false (by decide) hno, fun hok => absurd hok (by decide)⟩

/-- A credential is parsed if and only if its lengths keep all accesses inside, and a negative
    number of groups does not pass. -/
theorem parses_iff : Parses c area ↔ c.InBounds := by
  constructor
  · rintro ⟨stat, area', heq, hok, -⟩
    have hhead := head_of_svcauth_unix heq
    have hinside := hhead.inside
    refine ⟨hhead, ?_⟩
    by_cases hneg : c.gidLen < 0
    · refine Or.inr (Or.inr ⟨hneg, ?_⟩)
      -- Accepted, it would encode parameters, of which there is a number of groups.
      by_contra hle
      obtain ⟨area'', heq'⟩ := @svcauth_unix_of_neg c area hhead hneg
      rw [heq, if_neg hle] at heq'
      obtain ⟨p, hp⟩ := hok.1 (Prod.mk.inj (Option.some.inj heq')).1
      exact absurd (gidLen_of_encoded hp).1 (not_le_of_gt hneg)
    · by_cases hgt : c.gidLen > NGRPS
      · exact Or.inl hgt
      · rw [svcauth_unix_of_head hhead, if_neg hgt, Cred.getGids_eq,
          Option.map_eq_some_iff] at heq
        obtain ⟨gids, hgids, -⟩ := heq
        rw [Option.ite_none_right_eq_some] at hgids
        exact Or.inr (Or.inl ⟨by omega, by omega⟩)
  · rintro ⟨hhead, hgt | ⟨hnonneg, hinside⟩ | ⟨hneg, hlt⟩⟩
    · exact parses_of_refused (svcauth_unix_of_gt hhead hgt) (Or.inr hgt)
    · by_cases hgt : c.gidLen > NGRPS
      · exact parses_of_refused (svcauth_unix_of_gt hhead hgt) (Or.inr hgt)
      · have hle := not_lt.1 hgt
        obtain ⟨gids, heq, hgids⟩ := @svcauth_unix_of_le c area hhead hnonneg hle hinside
        have hp := encoded_parms hhead hle hnonneg hinside
        exact ⟨_, _, heq, iff_of_true rfl ⟨_, hp⟩, fun _ =>
          ⟨_, hp, holds_parms hhead hnonneg gids hgids⟩⟩
    · obtain ⟨area', heq⟩ := @svcauth_unix_of_neg c area hhead hneg
      rw [if_pos hlt] at heq
      exact parses_of_refused heq (Or.inl hneg)

end Decoding

/-- A credential of the host `ab`, with one group. -/
def oneGroup : Cred where
  oa_length := 28
  oa_base i := [0, 0, 0, 7, 0, 0, 0, 2, 97, 98, 0, 0, 0, 0, 0, 4, 0, 0, 0, 5, 0, 0, 0, 1, 0, 0, 0,
    6].getD i 0

/-- An area in which nothing has been decoded. -/
def noArea : Area where
  aup_time := 0
  aup_uid := 0
  aup_gid := 0
  aup_len := 0
  area_machname _ := 0
  area_gids _ := 0

theorem parses_oneGroup : Parses oneGroup noArea :=
  parses_iff.2 ⟨⟨by decide, by decide, by decide⟩, Or.inr (Or.inl (by decide))⟩

/-- A credential without a name, with a number of groups that is `-1`. -/
def minusOneGroup : Cred where
  oa_length := 20
  oa_base i := if 16 ≤ i ∧ i < 20 then 255 else 0

/-- It is accepted, although it encodes no parameters. -/
theorem not_parses : ¬∀ (c : Cred) (area : Area), c.oa_length ≤ MAX_AUTH_BYTES → Parses c area := by
  intro h
  obtain ⟨stat, area', heq, hok, -⟩ := h minusOneGroup noArea (by decide)
  have hhead : minusOneGroup.Head := ⟨by decide, by decide, by decide⟩
  obtain ⟨area'', heq'⟩ := @svcauth_unix_of_neg minusOneGroup noArea hhead (by decide)
  rw [heq, if_neg (by decide)] at heq'
  obtain ⟨p, hp⟩ := hok.1 (Prod.mk.inj (Option.some.inj heq')).1
  exact absurd (gidLen_of_encoded hp).1 (by decide)

end AuxKernel.Rpc.AuthUnix
