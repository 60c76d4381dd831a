import AuxKernel.Inpcb.Basic
import Mathlib.Data.List.Nodup

/-!
# Connections are unique

`in_pcbbind` and `in_pcbconnect` check a part of what identifies a connection each.
A block gets its foreign address in `in_pcbconnect` only, which looks for the whole
connection, except for the local port when there is none: then this is a port that no
block at all has.

* `lookup_spec`: a lookup returns a match with the fewest wildcards;
* `noname_spec`: a port of the system is not reserved, and matches no other block; it is
  not `0`, which the counter comes to after `65535`, because the block itself has that;
* `inpcbs_contract`: both hold in every state, and connections are unique.
-/

namespace AuxKernel.InPcb

/-! ## Lookups -/

/-- The block matches the addresses and ports, wildcards allowed. -/
def Matches (inp : Inpcb) (faddr fport laddr lport : ℕ) : Prop :=
  inp.inp_lport = lport ∧
    (inp.inp_laddr ≠ 0 → laddr ≠ 0 → inp.inp_laddr = laddr) ∧
    (inp.inp_faddr ≠ 0 → faddr ≠ 0 → inp.inp_faddr = faddr ∧ inp.inp_fport = fport)

/-- The number of addresses that are a wildcard on one side only. -/
def wildFields (inp : Inpcb) (faddr laddr : ℕ) : ℕ :=
  (if inp.inp_laddr = 0 ↔ laddr = 0 then 0 else 1) +
    (if inp.inp_faddr = 0 ↔ faddr = 0 then 0 else 1)

theorem wildFields_le (inp : Inpcb) (faddr laddr : ℕ) : wildFields inp faddr laddr ≤ 2 := by
  unfold wildFields
  split_ifs <;> omega

theorem localWild_eq_some_iff {inp : Inpcb} {laddr n : ℕ} : localWild inp laddr = some n ↔
    (inp.inp_laddr ≠ 0 → laddr ≠ 0 → inp.inp_laddr = laddr) ∧
      n = if inp.inp_laddr = 0 ↔ laddr = 0 then 0 else 1 := by
  simp only [localWild, INADDR_ANY]
  by_cases hl : inp.inp_laddr = 0
  · by_cases hl' : laddr = 0 <;> simp [hl, hl', eq_comm]
  · by_cases hl' : laddr = 0
    · simp [hl, hl', eq_comm]
    · by_cases he : inp.inp_laddr = laddr
      · simp [hl', he, eq_comm]
      · simp [hl, hl', he]

theorem foreignWild_eq_some_iff {inp : Inpcb} {faddr fport n : ℕ} :
    foreignWild inp faddr fport = some n ↔
    (inp.inp_faddr ≠ 0 → faddr ≠ 0 → inp.inp_faddr = faddr ∧ inp.inp_fport = fport) ∧
      n = if inp.inp_faddr = 0 ↔ faddr = 0 then 0 else 1 := by
  simp only [foreignWild, INADDR_ANY]
  by_cases hf : inp.inp_faddr = 0
  · by_cases hf' : faddr = 0 <;> simp [hf, hf', eq_comm]
  · by_cases hf' : faddr = 0
    · simp [hf, hf', eq_comm]
    · by_cases he : inp.inp_faddr = faddr
      · by_cases hp : inp.inp_fport = fport <;> simp [hf', he, hp, eq_comm]
      · simp [hf, hf', he]

/-- `wildcards` counts the wildcards of a match. -/
theorem wildcards_eq_some_iff {inp : Inpcb} {faddr fport laddr lport n : ℕ}
    (hp : inp.inp_lport = lport) : wildcards inp faddr fport laddr = some n ↔
      Matches inp faddr fport laddr lport ∧ n = wildFields inp faddr laddr := by
  simp only [wildcards, Option.bind_eq_some_iff, Option.map_eq_some_iff, localWild_eq_some_iff,
    foreignWild_eq_some_iff]
  constructor
  · rintro ⟨a, ⟨hl, rfl⟩, b, ⟨hf, rfl⟩, rfl⟩
    exact ⟨⟨hp, hl, hf⟩, rfl⟩
  · rintro ⟨⟨-, hl, hf⟩, rfl⟩
    exact ⟨_, ⟨hl, rfl⟩, _, ⟨hf, rfl⟩, rfl⟩

/-- The block is one that the lookup may return, with `n` wildcards. -/
def Candidate (faddr fport laddr lport : ℕ) (wild : Bool) (inp : Inpcb) (n : ℕ) : Prop :=
  Matches inp faddr fport laddr lport ∧ n = wildFields inp faddr laddr ∧ (n = 0 ∨ wild = true)

variable {faddr fport laddr lport : ℕ} {wild : Bool}

/-- A turn of the lookup, for a candidate and for another block. -/
theorem lookupLoop_candidate {inp : Inpcb} {n : ℕ}
    (h : Candidate faddr fport laddr lport wild inp n) (l : List Inpcb) (best : Option Inpcb)
    (matchwild : ℕ) :
    lookupLoop faddr fport laddr lport wild (inp :: l) best matchwild =
      if n < matchwild then
        if n = 0 then some inp else lookupLoop faddr fport laddr lport wild l (some inp) n
      else lookupLoop faddr fport laddr lport wild l best matchwild := by
  have hw := (wildcards_eq_some_iff h.1.1).2 ⟨h.1, h.2.1⟩
  rw [lookupLoop, if_neg (not_not.2 h.1.1), hw]
  dsimp only
  rw [if_neg]
  rintro ⟨h0, hwild⟩
  rcases h.2.2 with hn | hwild'
  · exact h0 hn
  · rw [hwild] at hwild'
    cases hwild'

theorem lookupLoop_of_not {inp : Inpcb} (h : ∀ n, ¬Candidate faddr fport laddr lport wild inp n)
    (l : List Inpcb) (best : Option Inpcb) (matchwild : ℕ) :
    lookupLoop faddr fport laddr lport wild (inp :: l) best matchwild =
      lookupLoop faddr fport laddr lport wild l best matchwild := by
  rw [lookupLoop]
  by_cases hp : inp.inp_lport = lport
  · rw [if_neg (not_not.2 hp)]
    cases hw : wildcards inp faddr fport laddr with
    | none => rfl
    | some n =>
      obtain ⟨hm, hn⟩ := (wildcards_eq_some_iff hp).1 hw
      refine if_pos ⟨fun h0 => h n ⟨hm, hn, .inl h0⟩, ?_⟩
      exact Bool.eq_false_iff.2 fun hwild => h n ⟨hm, hn, .inr hwild⟩
  · rw [if_pos hp]

/-- What a lookup returns, with a best match so far: a candidate with the fewest wildcards,
    or nothing if there is none. -/
theorem lookupLoop_spec (l : List Inpcb) {best : Option Inpcb} {matchwild : ℕ}
    (hbest : (best = none ∧ 3 ≤ matchwild) ∨
      ∃ b, best = some b ∧ Candidate faddr fport laddr lport wild b matchwild) :
    (lookupLoop faddr fport laddr lport wild l best matchwild = none ∧ best = none ∧
      ∀ q ∈ l, ∀ n, ¬Candidate faddr fport laddr lport wild q n) ∨
    ∃ r n, lookupLoop faddr fport laddr lport wild l best matchwild = some r ∧
      (best = some r ∨ r ∈ l) ∧ Candidate faddr fport laddr lport wild r n ∧ n ≤ matchwild ∧
      ∀ q ∈ l, ∀ n', Candidate faddr fport laddr lport wild q n' → n ≤ n' := by
  induction l generalizing best matchwild with
  | nil =>
    rcases hbest with ⟨rfl, -⟩ | ⟨b, rfl, hb⟩
    · exact .inl ⟨rfl, rfl, fun q hq => absurd hq List.not_mem_nil⟩
    · exact .inr ⟨b, matchwild, rfl, .inl rfl, hb, le_rfl, fun q hq => absurd hq List.not_mem_nil⟩
  | cons inp l ih =>
    by_cases hc : ∃ n, Candidate faddr fport laddr lport wild inp n
    · obtain ⟨n, hc⟩ := hc
      have hinp : ∀ n', Candidate faddr fport laddr lport wild inp n' → n' = n :=
        fun n' h => h.2.1.trans hc.2.1.symm
      rw [lookupLoop_candidate hc]
      by_cases hlt : n < matchwild
      · rw [if_pos hlt]
        by_cases h0 : n = 0
        · rw [if_pos h0]
          refine .inr ⟨inp, n, rfl, .inr List.mem_cons_self, hc, hlt.le, fun q _ n' _ => ?_⟩
          omega
        · rw [if_neg h0]
          rcases ih (.inr ⟨inp, rfl, hc⟩) with ⟨-, hnone, -⟩ | ⟨r, k, hr, hmem, hk, hle, hall⟩
          · cases hnone
          · refine .inr ⟨r, k, hr, .inr ?_, hk, hle.trans hlt.le, fun q hq n' hn' => ?_⟩
            · rcases hmem with hmem | hmem
              · exact Option.some.inj hmem ▸ List.mem_cons_self
              · exact List.mem_cons_of_mem _ hmem
            · rcases List.mem_cons.1 hq with rfl | hq
              · exact hle.trans (hinp n' hn').ge
              · exact hall q hq n' hn'
      · rw [if_neg hlt]
        have hbest' : ∃ b, best = some b ∧ Candidate faddr fport laddr lport wild b matchwild := by
          refine hbest.resolve_left fun h => ?_
          have := wildFields_le inp faddr laddr
          have := hc.2.1
          omega
        rcases ih (.inr hbest') with ⟨-, hnone, -⟩ | ⟨r, k, hr, hmem, hk, hle, hall⟩
        · obtain ⟨b, hb, -⟩ := hbest'
          rw [hnone] at hb
          cases hb
        · refine .inr ⟨r, k, hr, hmem.imp_right (List.mem_cons_of_mem _), hk, hle,
            fun q hq n' hn' => ?_⟩
          rcases List.mem_cons.1 hq with rfl | hq
          · have := hinp n' hn'
            omega
          · exact hall q hq n' hn'
    · have hc : ∀ n, ¬Candidate faddr fport laddr lport wild inp n := fun n h => hc ⟨n, h⟩
      rw [lookupLoop_of_not hc]
      rcases ih hbest with ⟨hnone, hb, hall⟩ | ⟨r, k, hr, hmem, hk, hle, hall⟩
      · refine .inl ⟨hnone, hb, fun q hq n => ?_⟩
        rcases List.mem_cons.1 hq with rfl | hq
        · exact hc n
        · exact hall q hq n
      · refine .inr ⟨r, k, hr, hmem.imp_right (List.mem_cons_of_mem _), hk, hle,
          fun q hq n' hn' => ?_⟩
        rcases List.mem_cons.1 hq with rfl | hq
        · exact absurd hn' (hc n')
        · exact hall q hq n' hn'

/-- A lookup returns a candidate with the fewest wildcards, or nothing if there is none. -/
theorem lookup_spec (l : List Inpcb) (faddr fport laddr lport : ℕ) (wild : Bool) :
    (in_pcblookup l faddr fport laddr lport wild = none ∧
      ∀ q ∈ l, ∀ n, ¬Candidate faddr fport laddr lport wild q n) ∨
    ∃ r n, in_pcblookup l faddr fport laddr lport wild = some r ∧ r ∈ l ∧
      Candidate faddr fport laddr lport wild r n ∧
      ∀ q ∈ l, ∀ n', Candidate faddr fport laddr lport wild q n' → n ≤ n' := by
  rcases @lookupLoop_spec faddr fport laddr lport wild l none 3 (.inl ⟨rfl, le_rfl⟩) with
    ⟨hnone, -, hall⟩ | ⟨r, n, hr, hmem, hn, -, hall⟩
  · exact .inl ⟨hnone, hall⟩
  · refine .inr ⟨r, n, hr, hmem.resolve_left fun h => ?_, hn, hall⟩
    cases h

/-- Nothing is found where nothing matches. -/
theorem not_matches_of_lookup {l : List Inpcb}
    (h : in_pcblookup l faddr fport laddr lport true = none) {q : Inpcb} (hq : q ∈ l) :
    ¬Matches q faddr fport laddr lport := by
  intro hm
  rcases lookup_spec l faddr fport laddr lport true with ⟨-, hall⟩ | ⟨r, n, hr, -⟩
  · exact hall q hq _ ⟨hm, rfl, .inr rfl⟩
  · rw [h] at hr
    cases hr

/-! ## The list -/

theorem mem_set {inp q : Inpcb} {l : List Inpcb} : q ∈ set inp l ↔
    (q = inp ∧ ∃ x ∈ l, x.id = inp.id) ∨ (q ∈ l ∧ q.id ≠ inp.id) := by
  simp only [set, List.mem_map]
  constructor
  · rintro ⟨x, hx, he⟩
    by_cases hid : x.id = inp.id
    · rw [if_pos hid] at he
      exact .inl ⟨he.symm, x, hx, hid⟩
    · rw [if_neg hid] at he
      exact .inr ⟨he ▸ hx, he ▸ hid⟩
  · rintro (⟨rfl, x, hx, hid⟩ | ⟨hq, hid⟩)
    · exact ⟨x, hx, if_pos hid⟩
    · exact ⟨q, hq, if_neg hid⟩

theorem map_id_set (inp : Inpcb) (l : List Inpcb) :
    (set inp l).map Inpcb.id = l.map Inpcb.id := by
  rw [set, List.map_map]
  refine List.map_congr_left fun q _ => ?_
  by_cases hid : q.id = inp.id
  · simp [hid]
  · simp [hid]

/-- The block is replaced once for all. -/
theorem set_set {inp inp' : Inpcb} (h : inp'.id = inp.id) (l : List Inpcb) :
    set inp' (set inp l) = set inp' l := by
  rw [set, set, List.map_map]
  refine List.map_congr_left fun q _ => ?_
  by_cases hid : q.id = inp.id
  · simp [hid, h]
  · simp [hid, h]

theorem find_eq_some {l : List Inpcb} {id : ℕ} {inp : Inpcb} (h : find l id = some inp) :
    inp ∈ l ∧ inp.id = id :=
  ⟨List.mem_of_find?_eq_some h, by simpa using List.find?_some h⟩

theorem find_eq_none {l : List Inpcb} {id : ℕ} (h : find l id = none) {q : Inpcb} (hq : q ∈ l) :
    q.id ≠ id := by
  simpa using List.find?_eq_none.1 h q hq

theorem find_of_mem {l : List Inpcb} (hl : (l.map Inpcb.id).Nodup) {inp : Inpcb} (h : inp ∈ l) :
    find l inp.id = some inp := by
  cases hf : find l inp.id with
  | none => exact absurd rfl (find_eq_none hf h)
  | some q =>
    obtain ⟨hq, hid⟩ := find_eq_some hf
    rw [List.inj_on_of_nodup_map hl hq h hid]

/-- A block that has been changed is found as it is then. -/
theorem find_set {l : List Inpcb} (hl : (l.map Inpcb.id).Nodup) {inp : Inpcb} (inp' : Inpcb)
    (hmem : inp ∈ l) (hid : inp'.id = inp.id) : find (set inp' l) inp.id = some inp' := by
  rw [← hid]
  refine find_of_mem ?_ (mem_set.2 (.inl ⟨rfl, inp, hmem, hid.symm⟩))
  rw [map_id_set]
  exact hl

/-! ## Ports of the system -/

theorem nextPort_lt (lport : ℕ) : nextPort lport < 2 ^ 16 := by
  unfold nextPort IPPORT_RESERVED
  split_ifs <;> omega

/-- The counter is not reserved, or has just wrapped. -/
theorem nextPort_cases {lport : ℕ} (h : lport < 2 ^ 16) :
    nextPort lport = 0 ∨ IPPORT_RESERVED ≤ nextPort lport := by
  unfold nextPort IPPORT_RESERVED
  split_ifs <;> omega

theorem ephemeral_spec {l : List Inpcb} {n p₀ p : ℕ} (hp₀ : p₀ < 2 ^ 16)
    (h : ephemeral l laddr n p₀ = some p) :
    (p = 0 ∨ IPPORT_RESERVED ≤ p) ∧ p < 2 ^ 16 ∧ in_pcblookup l 0 0 laddr p true = none := by
  induction n generalizing p₀ with
  | zero => cases h
  | succ n ih =>
    rw [ephemeral] at h
    by_cases hf : (in_pcblookup l 0 0 laddr (nextPort p₀) true).isSome
    · rw [if_pos hf] at h
      exact ih (nextPort_lt p₀) h
    · rw [if_neg hf] at h
      obtain rfl := Option.some.inj h
      exact ⟨nextPort_cases hp₀, nextPort_lt p₀, by simpa using hf⟩

/-- A port that may be given to the block `inp` at the local address `laddr`: it is not `0`
    nor reserved, and no other block matches it, wildcards allowed. -/
structure Good (s : Pcbs) (inp : Inpcb) (laddr lport : ℕ) : Prop where
  ne_zero : lport ≠ 0
  unreserved : IPPORT_RESERVED ≤ lport
  lt : lport < 2 ^ 16
  unused : ∀ q ∈ s.pcbs, q.id ≠ inp.id → ¬Matches q 0 0 laddr lport

/-- The block gets a good port. -/
theorem noname_spec {s s' : Pcbs} (inp : Inpcb) {inp₀ : Inpcb} (hmem : inp₀ ∈ s.pcbs)
    (hid : inp₀.id = inp.id) (h0 : inp.inp_lport = 0) (hs : s.head_lport < 2 ^ 16)
    (h : noname s inp = some s') :
    ∃ p, Good s inp inp.inp_laddr p ∧
      s' = { s with pcbs := set { inp with inp_lport := p } s.pcbs, head_lport := p } := by
  obtain ⟨p, hp, rfl⟩ := Option.map_eq_some_iff.1 h
  obtain ⟨hres, hlt, hnone⟩ := ephemeral_spec hs hp
  -- the block itself has the port `0`
  have hself : inp ∈ set inp s.pcbs := mem_set.2 (.inl ⟨rfl, inp₀, hmem, hid⟩)
  have hne : p ≠ 0 := by
    rintro rfl
    exact not_matches_of_lookup hnone hself ⟨h0, fun _ _ => rfl, fun _ h => absurd rfl h⟩
  refine ⟨p, ⟨hne, hres.resolve_left hne, hlt, fun q hq hqid => ?_⟩, by rw [set_set]; rfl⟩
  exact not_matches_of_lookup hnone (mem_set.2 (.inr ⟨hq, hqid⟩))

/-! ## The invariant -/

/-- Both addresses are set. -/
def Full (inp : Inpcb) : Prop := inp.inp_laddr ≠ 0 ∧ inp.inp_faddr ≠ 0

/-- What identifies a connection. -/
def Inpcb.tuple (inp : Inpcb) : ℕ × ℕ × ℕ × ℕ :=
  (inp.inp_laddr, inp.inp_lport, inp.inp_faddr, inp.inp_fport)

/-- A block that has an address has a local port, and no two connections are the same. -/
structure Inv (s : Pcbs) : Prop where
  ids : (s.pcbs.map Inpcb.id).Nodup
  head : s.head_lport < 2 ^ 16
  port : ∀ q ∈ s.pcbs, q.inp_laddr ≠ 0 ∨ q.inp_faddr ≠ 0 → q.inp_lport ≠ 0
  unique : ∀ p ∈ s.pcbs, ∀ q ∈ s.pcbs, p.id ≠ q.id → Full p → Full q → p.tuple ≠ q.tuple

/-- A block is changed. -/
theorem Inv.set {s : Pcbs} (h : Inv s) (inp : Inpcb) {head_lport : ℕ} (hhead : head_lport < 2 ^ 16)
    (hport : inp.inp_laddr ≠ 0 ∨ inp.inp_faddr ≠ 0 → inp.inp_lport ≠ 0)
    (hnew : Full inp → ∀ q ∈ s.pcbs, q.id ≠ inp.id → Full q → q.tuple ≠ inp.tuple) :
    Inv { s with pcbs := InPcb.set inp s.pcbs, head_lport := head_lport } where
  ids := by
    rw [map_id_set]
    exact h.ids
  head := hhead
  port q hq := by
    rcases mem_set.1 hq with ⟨rfl, -⟩ | ⟨hq, -⟩
    · exact hport
    · exact h.port q hq
  unique p hp q hq hne hfp hfq := by
    rcases mem_set.1 hp with ⟨rfl, -⟩ | ⟨hpl, hpid⟩
    · rcases mem_set.1 hq with ⟨rfl, -⟩ | ⟨hql, hqid⟩
      · exact absurd rfl hne
      · exact (hnew hfp q hql hqid hfq).symm
    · rcases mem_set.1 hq with ⟨rfl, -⟩ | ⟨hql, -⟩
      · exact hnew hfq p hpl hpid hfp
      · exact h.unique p hpl q hql hne hfp hfq

/-- A call of `in_pcbbind` that succeeds gives the block a port, a good one if the caller gives
    none. -/
theorem bind_ok {s s' : Pcbs} {inp : Inpcb} {ifs : Ifs} {suser : Bool}
    {nam : Option (Option Sockaddr)} (hI : Inv s) (hmem : inp ∈ s.pcbs)
    (h : in_pcbbind s inp ifs suser nam = some (s', none)) :
    (inp.inp_lport = 0 ∧ inp.inp_laddr = 0) ∧
      ∃ laddr lport head_lport, head_lport < 2 ^ 16 ∧ lport ≠ 0 ∧
        s' = { s with
          pcbs := set { inp with inp_laddr := laddr, inp_lport := lport } s.pcbs
          head_lport := head_lport } ∧
        ((∀ sin, nam = some (some sin) → sin.sin_port = 0) → Good s inp laddr lport) ∧
        (nam = none → laddr = 0) := by
  unfold in_pcbbind at h
  by_cases hifnet : ifs.ifnet = false
  · rw [if_pos hifnet] at h
    cases h
  rw [if_neg hifnet] at h
  by_cases hset : inp.inp_lport ≠ 0 ∨ inp.inp_laddr ≠ INADDR_ANY
  · rw [if_pos hset] at h
    cases h
  rw [if_neg hset] at h
  obtain ⟨h0, hl0⟩ := not_or.1 hset
  have h0 := not_not.1 h0
  have hl0 : inp.inp_laddr = 0 := not_not.1 hl0
  refine ⟨⟨h0, hl0⟩, ?_⟩
  rcases nam with _ | _ | sin
  · obtain ⟨s₁, hs₁, he⟩ := Option.map_eq_some_iff.1 h
    cases he
    obtain ⟨p, hp, rfl⟩ := noname_spec inp hmem rfl h0 hI.head hs₁
    refine ⟨inp.inp_laddr, p, p, hp.lt, hp.ne_zero, rfl, fun _ => hp, fun _ => hl0⟩
  · cases h
  dsimp only at h
  by_cases haddr : sin.sin_addr ≠ INADDR_ANY ∧ ifs.ifa_ifwithaddr sin.sin_addr = false
  · rw [if_pos haddr] at h
    cases h
  rw [if_neg haddr] at h
  by_cases hport : sin.sin_port = 0
  · rw [if_pos hport] at h
    obtain ⟨s₁, hs₁, he⟩ := Option.map_eq_some_iff.1 h
    cases he
    obtain ⟨p, hp, rfl⟩ :=
      noname_spec { inp with inp_laddr := sin.sin_addr } hmem rfl h0 hI.head hs₁
    exact ⟨sin.sin_addr, p, p, hp.lt, hp.ne_zero, rfl,
      fun _ => ⟨hp.ne_zero, hp.unreserved, hp.lt, hp.unused⟩, fun hn => by cases hn⟩
  rw [if_neg hport] at h
  by_cases hres : sin.sin_port < IPPORT_RESERVED ∧ suser = false
  · rw [if_pos hres] at h
    cases h
  rw [if_neg hres] at h
  split_ifs at h with huse
  · cases h
  cases h
  exact ⟨sin.sin_addr, sin.sin_port, s.head_lport, hI.head, hport, rfl,
    fun hz => absurd (hz sin rfl) hport, fun hn => by cases hn⟩

/-- A call of `in_pcbbind` that fails changes nothing. -/
theorem bind_error {s s' : Pcbs} {inp : Inpcb} {ifs : Ifs} {suser : Bool}
    {nam : Option (Option Sockaddr)} {e : Errno}
    (h : in_pcbbind s inp ifs suser nam = some (s', some e)) : s' = s := by
  unfold in_pcbbind at h
  split_ifs at h
  · cases h
    rfl
  · cases h
    rfl
  · rcases nam with _ | _ | sin
    · obtain ⟨s₁, -, he⟩ := Option.map_eq_some_iff.1 h
      cases he
    · cases h
      rfl
    · dsimp only at h
      split_ifs at h
      · cases h
        rfl
      · obtain ⟨s₁, -, he⟩ := Option.map_eq_some_iff.1 h
        cases he
      · cases h
        rfl
      · cases h
        rfl
      · cases h

/-- `in_pcbbind` keeps connections unique: the block it changes has no foreign address. -/
theorem Inv.bind {s s' : Pcbs} {inp : Inpcb} {ifs : Ifs} {suser : Bool}
    {nam : Option (Option Sockaddr)} {e : Option Errno} (hI : Inv s) (hmem : inp ∈ s.pcbs)
    (h : in_pcbbind s inp ifs suser nam = some (s', e)) : Inv s' := by
  cases e with
  | some e =>
    rw [bind_error h]
    exact hI
  | none =>
    obtain ⟨⟨h0, hl0⟩, laddr, lport, head_lport, hhead, hne, rfl, -⟩ := bind_ok hI hmem h
    refine hI.set _ hhead (fun _ => hne) fun hf => absurd ?_ hf.2
    by_contra hfa
    exact hI.port inp hmem (.inr hfa) h0

/-- What a call of `in_pcbconnect` that succeeds does: the block has the local port it had, or
    a good one. -/
theorem connect_ok {s s' : Pcbs} {inp : Inpcb} {ifs : Ifs} {nam : Option Sockaddr} (hI : Inv s)
    (hmem : inp ∈ s.pcbs) (h : in_pcbconnect s inp ifs nam = some (s', none)) :
    ∃ laddr lport faddr fport head_lport, head_lport < 2 ^ 16 ∧ lport ≠ 0 ∧
      (inp.inp_laddr ≠ 0 → laddr = inp.inp_laddr) ∧
      (inp.inp_lport = lport ∨ inp.inp_lport = 0 ∧ Good s inp 0 lport) ∧
      in_pcblookup s.pcbs faddr fport laddr inp.inp_lport false = none ∧
      s' = { s with
        pcbs := set { inp with
          inp_laddr := laddr, inp_lport := lport, inp_faddr := faddr, inp_fport := fport } s.pcbs
        head_lport := head_lport } := by
  rcases nam with _ | sin
  · cases h
  simp only [in_pcbconnect, in_pcbsetaddr] at h
  by_cases hfam : sin.sin_family_inet = false
  · rw [if_pos hfam] at h
    cases h
  rw [if_neg hfam] at h
  by_cases hport : sin.sin_port = 0
  · rw [if_pos hport] at h
    cases h
  rw [if_neg hport] at h
  -- the local address
  obtain ⟨laddr, hladdr, hif, h⟩ : ∃ laddr, (inp.inp_laddr ≠ 0 → laddr = inp.inp_laddr) ∧
      (inp.inp_laddr = 0 → ifs.ifnet = true) ∧
      setaddr s inp ifs (destination ifs sin.sin_addr) sin.sin_port laddr = some (s', none) := by
    by_cases hl : inp.inp_laddr = INADDR_ANY
    · rw [if_pos hl] at h
      cases ha : ifs.ifaddr (destination ifs sin.sin_addr) with
      | none =>
        rw [ha] at h
        cases h
      | some laddr =>
        rw [ha] at h
        refine ⟨laddr, fun hne => absurd hl hne, fun _ => ?_, h⟩
        exact ifs.ifnet_of_ifaddr _ (by rw [ha]; rfl)
    · rw [if_neg hl] at h
      exact ⟨inp.inp_laddr, fun _ => rfl, fun he => absurd he hl, h⟩
  rw [setaddr] at h
  by_cases huse : (in_pcblookup s.pcbs (destination ifs sin.sin_addr) sin.sin_port laddr
      inp.inp_lport false).isSome
  · rw [if_pos huse] at h
    cases h
  rw [if_neg huse] at h
  have hnone : in_pcblookup s.pcbs (destination ifs sin.sin_addr) sin.sin_port laddr
      inp.inp_lport false = none := by simpa using huse
  obtain ⟨s₁, hs₁, he⟩ := Option.map_eq_some_iff.1 h
  cases he
  by_cases hbind : inp.inp_laddr = INADDR_ANY ∧ inp.inp_lport = 0
  · -- a port of the system
    rw [if_pos hbind] at hs₁
    obtain ⟨⟨s₂, e⟩, hs₂, he⟩ := Option.map_eq_some_iff.1 hs₁
    cases he
    cases e with
    | some e =>
      unfold in_pcbbind at hs₂
      rw [if_neg (by rw [hif hbind.1]; decide), if_neg (by simp [hbind])] at hs₂
      obtain ⟨s₃, -, he⟩ := Option.map_eq_some_iff.1 hs₂
      cases he
    | none =>
      obtain ⟨-, laddr₁, lport, head_lport, hhead, hne, rfl, hgood, hz⟩ := bind_ok hI hmem hs₂
      obtain rfl := hz rfl
      refine ⟨laddr, lport, _, _, head_lport, hhead, hne, hladdr,
        .inr ⟨hbind.2, hgood fun _ hn => by cases hn⟩, hnone, ?_⟩
      have hfind := find_set hI.ids { inp with inp_laddr := 0, inp_lport := lport } hmem rfl
      simp only [hfind, Option.getD_some]
      rw [set_set]
      rfl
  · -- the port it has
    rw [if_neg hbind] at hs₁
    obtain rfl := Option.some.inj hs₁
    have hlport : inp.inp_lport ≠ 0 := fun h0 => by
      by_cases hl : inp.inp_laddr = 0
      · exact hbind ⟨hl, h0⟩
      · exact hI.port inp hmem (.inl hl) h0
    refine ⟨laddr, inp.inp_lport, _, _, s.head_lport, hI.head, hlport, hladdr, .inl rfl, hnone, ?_⟩
    simp only [find_of_mem hI.ids hmem, Option.getD_some]

/-- A call of `in_pcbconnect` that fails changes nothing. -/
theorem connect_error {s s' : Pcbs} {inp : Inpcb} {ifs : Ifs} {nam : Option Sockaddr} {e : Errno}
    (h : in_pcbconnect s inp ifs nam = some (s', some e)) : s' = s := by
  have hset : ∀ laddr faddr fport, setaddr s inp ifs faddr fport laddr = some (s', some e) →
      s' = s := by
    intro laddr faddr fport h
    rw [setaddr] at h
    split_ifs at h
    · cases h
      rfl
    · obtain ⟨s₁, -, he⟩ := Option.map_eq_some_iff.1 h
      cases he
    · obtain ⟨s₁, -, he⟩ := Option.map_eq_some_iff.1 h
      cases he
  rcases nam with _ | sin
  · cases h
    rfl
  simp only [in_pcbconnect, in_pcbsetaddr] at h
  split_ifs at h
  · cases h
    rfl
  · cases h
    rfl
  · cases ha : ifs.ifaddr (destination ifs sin.sin_addr) with
    | none =>
      rw [ha] at h
      cases h
      rfl
    | some laddr =>
      rw [ha] at h
      exact hset _ _ _ h
  · exact hset _ _ _ h

/-- `in_pcbconnect` keeps connections unique: no block has the new one, up to the port where that
    is new. -/
theorem Inv.connect {s s' : Pcbs} {inp : Inpcb} {ifs : Ifs} {nam : Option Sockaddr}
    {e : Option Errno} (hI : Inv s) (hmem : inp ∈ s.pcbs)
    (h : in_pcbconnect s inp ifs nam = some (s', e)) : Inv s' := by
  cases e with
  | some e =>
    rw [connect_error h]
    exact hI
  | none =>
    obtain ⟨laddr, lport, faddr, fport, head_lport, hhead, hne, -, hlport, hnone, rfl⟩ :=
      connect_ok hI hmem h
    refine hI.set _ hhead (fun _ => hne) fun hf q hq hqid hfq he => ?_
    obtain ⟨rfl, rfl, rfl, rfl⟩ : q.inp_laddr = laddr ∧ q.inp_lport = lport ∧
        q.inp_faddr = faddr ∧ q.inp_fport = fport := by
      simpa only [Inpcb.tuple, Prod.mk.injEq] using he
    rcases hlport with hlport | ⟨-, hgood⟩
    · -- the lookup would have found it
      rcases lookup_spec s.pcbs q.inp_faddr q.inp_fport q.inp_laddr inp.inp_lport false with
        ⟨-, hall⟩ | ⟨r, n, hr, -⟩
      · refine hall q hq 0 ⟨⟨hlport.symm, fun _ _ => rfl, fun _ _ => ⟨rfl, rfl⟩⟩, ?_, .inl rfl⟩
        simp [wildFields]
      · rw [hnone] at hr
        cases hr
    · exact hgood.unused q hq hqid ⟨rfl, fun _ h => absurd rfl h, fun _ h => absurd rfl h⟩

/-! ## The runs -/

/-- What a block list is to be good for. -/
structure Contract (s : Pcbs) : Prop where
  /-- No two connections are the same. -/
  unique : ∀ p ∈ s.pcbs, ∀ q ∈ s.pcbs, p.id ≠ q.id → Full p → Full q → p.tuple ≠ q.tuple
  /-- A port that `in_pcbbind` chooses is good at the address of the block. -/
  bind : ∀ inp ∈ s.pcbs, ∀ ifs suser nam s', (∀ sin, nam = some (some sin) → sin.sin_port = 0) →
    in_pcbbind s inp ifs suser nam = some (s', none) →
      ∃ inp', find s'.pcbs inp.id = some inp' ∧ Good s inp inp'.inp_laddr inp'.inp_lport
  /-- A port that `in_pcbconnect` chooses is good at any address. -/
  connect : ∀ inp ∈ s.pcbs, ∀ ifs nam s', inp.inp_lport = 0 →
    in_pcbconnect s inp ifs nam = some (s', none) →
      ∃ inp', find s'.pcbs inp.id = some inp' ∧ Good s inp 0 inp'.inp_lport
  /-- A lookup with wildcards returns a match with the fewest of them, if there is one. -/
  fewest : ∀ faddr fport laddr lport,
    (∀ q ∈ s.pcbs, Matches q faddr fport laddr lport →
      ∃ r, in_pcblookup s.pcbs faddr fport laddr lport true = some r) ∧
    ∀ r, in_pcblookup s.pcbs faddr fport laddr lport true = some r →
      r ∈ s.pcbs ∧ Matches r faddr fport laddr lport ∧
        ∀ q ∈ s.pcbs, Matches q faddr fport laddr lport →
          wildFields r faddr laddr ≤ wildFields q faddr laddr
  /-- It returns the connection itself. -/
  full : ∀ q ∈ s.pcbs, Full q →
    in_pcblookup s.pcbs q.inp_faddr q.inp_fport q.inp_laddr q.inp_lport true = some q

theorem lookup_fewest (l : List Inpcb) (faddr fport laddr lport : ℕ) :
    (∀ q ∈ l, Matches q faddr fport laddr lport →
      ∃ r, in_pcblookup l faddr fport laddr lport true = some r) ∧
    ∀ r, in_pcblookup l faddr fport laddr lport true = some r →
      r ∈ l ∧ Matches r faddr fport laddr lport ∧
        ∀ q ∈ l, Matches q faddr fport laddr lport →
          wildFields r faddr laddr ≤ wildFields q faddr laddr := by
  rcases lookup_spec l faddr fport laddr lport true with
    ⟨hnone, hall⟩ | ⟨r, n, hr, hmem, hn, hall⟩
  · refine ⟨fun q hq hm => absurd ⟨hm, rfl, .inr rfl⟩ (hall q hq _), fun r hr => ?_⟩
    rw [hnone] at hr
    cases hr
  · refine ⟨fun _ _ _ => ⟨r, hr⟩, fun r' hr' => ?_⟩
    obtain rfl : r = r' := Option.some.inj (hr.symm.trans hr')
    refine ⟨hmem, hn.1, fun q hq hm => ?_⟩
    rw [← hn.2.1]
    exact hall q hq _ ⟨hm, rfl, .inr rfl⟩

/-- The match of a connection without wildcards is the connection. -/
theorem Inv.lookup_full {s : Pcbs} (h : Inv s) {q : Inpcb} (hq : q ∈ s.pcbs) (hf : Full q) :
    in_pcblookup s.pcbs q.inp_faddr q.inp_fport q.inp_laddr q.inp_lport true = some q := by
  have hmq : Matches q q.inp_faddr q.inp_fport q.inp_laddr q.inp_lport :=
    ⟨rfl, fun _ _ => rfl, fun _ _ => ⟨rfl, rfl⟩⟩
  obtain ⟨hsome, hbest⟩ :=
    lookup_fewest s.pcbs q.inp_faddr q.inp_fport q.inp_laddr q.inp_lport
  obtain ⟨r, hr⟩ := hsome q hq hmq
  obtain ⟨hmem, hm, hle⟩ := hbest r hr
  -- it has no wildcard either, and is the same connection
  have h0 := hle q hq hmq
  simp only [wildFields, hf.1, hf.2, iff_false, iff_self, if_true] at h0
  have hlr : r.inp_laddr ≠ 0 := fun he => by simp [he] at h0
  have hfr : r.inp_faddr ≠ 0 := fun he => by simp [he] at h0
  have htuple : r.tuple = q.tuple := by
    simp only [Inpcb.tuple, hm.1, hm.2.1 hlr hf.1, (hm.2.2 hfr hf.2).1, (hm.2.2 hfr hf.2).2]
  have hid : r.id = q.id := by
    by_contra hne
    exact h.unique r hmem q hq hne ⟨hlr, hfr⟩ hf htuple
  rw [hr, List.inj_on_of_nodup_map h.ids hmem hq hid]

theorem Inv.contract {s : Pcbs} (h : Inv s) : Contract s where
  unique := h.unique
  bind inp hmem ifs suser nam s' hnam hs := by
    obtain ⟨-, laddr, lport, head_lport, -, -, rfl, hgood, -⟩ := bind_ok h hmem hs
    exact ⟨_, find_set h.ids _ hmem rfl, hgood hnam⟩
  connect inp hmem ifs nam s' h0 hs := by
    obtain ⟨laddr, lport, faddr, fport, head_lport, -, hne, -, hlport, -, rfl⟩ :=
      connect_ok h hmem hs
    refine ⟨_, find_set h.ids _ hmem rfl, ?_⟩
    rcases hlport with hlport | ⟨-, hgood⟩
    · exact absurd (hlport.symm.trans h0) hne
    · exact hgood
  fewest := lookup_fewest s.pcbs
  full _ hq hf := h.lookup_full hq hf

theorem Inv.detach {s : Pcbs} (h : Inv s) (inp : Inpcb) : Inv (in_pcbdetach s inp) where
  ids := (List.filter_sublist.map _).nodup h.ids
  head := h.head
  port q hq := h.port q (List.mem_of_mem_filter hq)
  unique p hp q hq := h.unique p (List.mem_of_mem_filter hp) q (List.mem_of_mem_filter hq)

theorem Inv.disconnect {s : Pcbs} (h : Inv s) {inp : Inpcb} (hmem : inp ∈ s.pcbs) :
    Inv (in_pcbdisconnect s inp) := by
  have hset := h.set { inp with inp_faddr := INADDR_ANY, inp_fport := 0 } h.head
    (fun hor => h.port inp hmem (.inl (hor.resolve_right fun hne => hne rfl)))
    fun hf => absurd rfl hf.2
  simp only [in_pcbdisconnect]
  split_ifs
  · exact hset.detach _
  · exact hset

theorem Inv.alloc {s : Pcbs} (h : Inv s) {id : ℕ} (hid : find s.pcbs id = none)
    (reuse accept : Bool) : Inv (in_pcballoc s id reuse accept) where
  ids := by
    refine List.nodup_cons.2 ⟨fun hmem => ?_, h.ids⟩
    obtain ⟨q, hq, he⟩ := List.mem_map.1 hmem
    exact find_eq_none hid hq he
  head := h.head
  port q hq hor := by
    rcases List.mem_cons.1 hq with rfl | hq
    · simp at hor
    · exact h.port q hq hor
  unique p hp q hq hne hfp hfq := by
    rcases List.mem_cons.1 hp with rfl | hp
    · exact absurd rfl hfp.1
    · rcases List.mem_cons.1 hq with rfl | hq
      · exact absurd rfl hfq.1
      · exact h.unique p hp q hq hne hfp hfq

/-- Every call keeps connections unique. -/
theorem Inv.next {s s' : Pcbs} {a : Act} (h : Inv s) (hs : inpcbs.next s a = some s') : Inv s' := by
  cases a with
  | alloc id reuse accept =>
    simp only [inpcbs] at hs
    by_cases hid : (find s.pcbs id).isNone
    · rw [if_pos hid] at hs
      obtain rfl := Option.some.inj hs
      exact h.alloc (by simpa using hid) reuse accept
    · rw [if_neg hid] at hs
      cases hs
  | bind id ifs suser nam =>
    obtain ⟨inp, hf, hs⟩ := Option.bind_eq_some_iff.1 hs
    obtain ⟨r, hr, rfl⟩ := Option.map_eq_some_iff.1 hs
    exact h.bind (find_eq_some hf).1 hr
  | connect id ifs nam =>
    obtain ⟨inp, hf, hs⟩ := Option.bind_eq_some_iff.1 hs
    obtain ⟨r, hr, rfl⟩ := Option.map_eq_some_iff.1 hs
    exact h.connect (find_eq_some hf).1 hr
  | disconnect id =>
    obtain ⟨inp, hf, rfl⟩ := Option.map_eq_some_iff.1 hs
    exact h.disconnect (find_eq_some hf).1
  | detach id =>
    obtain ⟨inp, -, rfl⟩ := Option.map_eq_some_iff.1 hs
    exact h.detach inp
  | socket id reuse accept nofdref =>
    obtain ⟨inp, hf, rfl⟩ := Option.map_eq_some_iff.1 hs
    have hmem := (find_eq_some hf).1
    refine h.set _ h.head (h.port inp hmem) fun hfull q hq hqid hfq => ?_
    exact h.unique q hq inp hmem hqid hfq hfull

/-- In every state that the calls reach, connections are unique, the ports the system
    chooses are good, and a lookup returns the best match. -/
theorem inpcbs_contract {s : Pcbs} (hs : inpcbs.Reachable s) : Contract s := by
  refine Inv.contract (hs.invariant (P := Inv) ?_ fun s a s' h _ hn => h.next hn)
  rintro s ⟨hpcbs, hhead⟩
  refine ⟨?_, ?_, ?_, ?_⟩
  · simp [hpcbs]
  · rw [hhead]
    decide
  · simp [hpcbs]
  · simp [hpcbs]

/-- An interface with the address `9`. -/
def loopback : Ifs := ⟨true, some (9, none), fun a => a == 9, fun _ => some 9, fun _ _ => rfl⟩

/-- Two sockets are connected to one port, the first from a port of the system, and the second
    one bound to another. -/
theorem inpcbs_contract_two : ∃ s, inpcbs.run ⟨[], 0, true⟩
      [.alloc 1 false false, .connect 1 loopback (some ⟨true, 9, 7⟩), .alloc 2 true false,
        .bind 2 loopback false (some (some ⟨true, 9, 2000⟩)),
        .connect 2 loopback (some ⟨true, 9, 7⟩)] = some s ∧
      s.pcbs.map Inpcb.tuple = [(9, 2000, 9, 7), (9, 1024, 9, 7)] ∧ Contract s := by
  have hrun : ∃ s, inpcbs.run ⟨[], 0, true⟩
      [.alloc 1 false false, .connect 1 loopback (some ⟨true, 9, 7⟩), .alloc 2 true false,
        .bind 2 loopback false (some (some ⟨true, 9, 2000⟩)),
        .connect 2 loopback (some ⟨true, 9, 7⟩)] = some s ∧
      s.pcbs.map Inpcb.tuple = [(9, 2000, 9, 7), (9, 1024, 9, 7)] :=
    Option.map_eq_some_iff.1 (by decide +kernel)
  obtain ⟨s, hs, ht⟩ := hrun
  exact ⟨s, hs, ht, inpcbs_contract
    (Machine.reachableIf_run (.init ⟨rfl, rfl⟩) (fun _ _ _ => trivial) hs)⟩

end AuxKernel.InPcb
