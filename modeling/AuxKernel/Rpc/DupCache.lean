import AuxKernel.System
import AuxKernel.LinkedList
import Mathlib.Logic.Function.Basic
import Mathlib.Data.BitVec

/-!
# The duplicate request cache

`svckudp_dupsave` and `svckudp_dup`: the requests saved last are kept in entries that form a
ring in the order of their saving (`dr_next`, from the oldest entry to the newest, `drmru`, and
back to the oldest), and in a table of chains by the hash of their transaction ids (`dr_chain`).
Once there are `MAXDUPREQS` entries, the oldest one is recycled.

The machine of the cache (`dupCache`) also remembers the requests that were saved, and the
blocks that `kmem_alloc` has handed out.

* `dup_iff`: in every run the ring and the chains are well formed, and a request is reported as
  a duplicate if and only if it is one of the last `MAXDUPREQS` saved.
-/

namespace AuxKernel.Rpc.DupCache

/-- The socket address of a client, all sixteen bytes of it. -/
structure SockaddrIn where
  sin_family : BitVec 16
  sin_port : BitVec 16
  sin_addr : BitVec 32
  sin_zero : BitVec 64
  deriving DecidableEq

/-- What the cache reads of a request: its transaction id, what it calls, and the address it
    comes from. -/
@[ext] structure SvcReq where
  ud_xid : BitVec 32
  rq_prog : BitVec 32
  rq_vers : BitVec 32
  rq_proc : BitVec 32
  xp_raddr : SockaddrIn
  deriving DecidableEq

/-- An entry. A pointer that is `NULL` is `none`. -/
structure Dupreq where
  dr_xid : BitVec 32
  dr_addr : SockaddrIn
  dr_proc : BitVec 32
  dr_vers : BitVec 32
  dr_prog : BitVec 32
  dr_next : Option ℕ
  dr_chain : Option ℕ

@[irreducible] def MAXDUPREQS : ℕ := 400

theorem maxdupreqs_pos : 0 < MAXDUPREQS := by simp [MAXDUPREQS]

abbrev DRHASHSZ : ℕ := 32

def XIDHASH (xid : BitVec 32) : Fin DRHASHSZ := ⟨(xid &&& 31#32).toNat, by
  rw [BitVec.toNat_and]
  exact Nat.lt_succ_of_le Nat.and_le_right⟩

def DRHASH (dr : Dupreq) : Fin DRHASHSZ := XIDHASH dr.dr_xid

/-- The variables of the cache, and the memory its entries are in. -/
structure Cache where
  ndupreqs : ℕ
  dupreqs : ℕ
  dupchecks : ℕ
  drhashtbl : Fin DRHASHSZ → Option ℕ
  drmru : Option ℕ
  mem : ℕ → Dupreq

namespace Cache

def setNext (c : Cache) (dr : ℕ) (p : Option ℕ) : Cache :=
  { c with mem := Function.update c.mem dr { c.mem dr with dr_next := p } }

def setChain (c : Cache) (dr : ℕ) (p : Option ℕ) : Cache :=
  { c with mem := Function.update c.mem dr { c.mem dr with dr_chain := p } }

/-- What points to an entry of the chain of `h`, the entry `prev` before it or the table, is
    made to point to `p`. -/
def setLink (c : Cache) (h : Fin DRHASHSZ) (p : Option ℕ) : Option ℕ → Cache
  | none => { c with drhashtbl := Function.update c.drhashtbl h p }
  | some prev => c.setChain prev p

end Cache

/-- The loop of `unhash`, at the entry `drt` behind `drtprev`. It is given as many passes as
    there are entries, and one more; a chain that takes more of them has no end. -/
def unhashFrom (dr : ℕ) (c : Cache) : ℕ → Option ℕ → Option ℕ → Option Cache
  | 0, _, _ => none
  | _ + 1, _, none => some c
  | n + 1, drtprev, some drt =>
    if drt = dr then some (c.setLink (DRHASH (c.mem dr)) (c.mem drt).dr_chain drtprev)
    else unhashFrom dr c n (some drt) (c.mem drt).dr_chain

def unhash (dr : ℕ) (c : Cache) : Option Cache :=
  unhashFrom dr c (c.ndupreqs + 1) none (c.drhashtbl (DRHASH (c.mem dr)))

/-- A new entry is linked in between the newest entry and the oldest. -/
def linkIn (dr : ℕ) (c : Cache) : Cache :=
  match c.drmru with
  | some mru => (c.setNext dr (c.mem mru).dr_next).setNext mru (some dr)
  | none => c.setNext dr (some dr)

/-- The entry that the next request is saved in: a new one, which `kmem_alloc` returns, or the
    oldest. A store through `NULL` traps. -/
def dupentry (new : Option ℕ) (c : Cache) : Option (ℕ × Cache) :=
  if c.ndupreqs < MAXDUPREQS then
    new.map fun dr => (dr, { linkIn dr c with ndupreqs := c.ndupreqs + 1 })
  else
    c.drmru.bind fun mru => (c.mem mru).dr_next.bind fun dr => (unhash dr c).map (dr, ·)

/-- The entry is made the newest one, filled in and put on the chain of its hash. -/
def dupfill (req : SvcReq) (dr : ℕ) (c : Cache) : Cache :=
  let h := XIDHASH req.ud_xid
  { c with
    drmru := some dr
    mem := Function.update c.mem dr {
      dr_xid := req.ud_xid
      dr_addr := req.xp_raddr
      dr_proc := req.rq_proc
      dr_vers := req.rq_vers
      dr_prog := req.rq_prog
      dr_next := (c.mem dr).dr_next
      dr_chain := c.drhashtbl h }
    drhashtbl := Function.update c.drhashtbl h (some dr) }

def svckudp_dupsave (new : Option ℕ) (req : SvcReq) (c : Cache) : Option Cache :=
  (dupentry new c).map fun e => dupfill req e.1 e.2

/-- The loop of `svckudp_dup`, with as many passes as that of `unhash`. -/
def dupFrom (req : SvcReq) (c : Cache) : ℕ → Option ℕ → Option Bool
  | 0, _ => none
  | _ + 1, none => some false
  | n + 1, some dr =>
    let d := c.mem dr
    if d.dr_xid ≠ req.ud_xid ∨ d.dr_prog ≠ req.rq_prog ∨ d.dr_vers ≠ req.rq_vers ∨
        d.dr_proc ≠ req.rq_proc ∨ d.dr_addr ≠ req.xp_raddr then
      dupFrom req c n d.dr_chain
    else some true

def svckudp_dup (req : SvcReq) (c : Cache) : Option (Bool × Cache) :=
  (dupFrom req c (c.ndupreqs + 1) (c.drhashtbl (XIDHASH req.ud_xid))).map fun b =>
    (b, { c with dupchecks := c.dupchecks + 1, dupreqs := c.dupreqs + b.toNat })

/-! ## The machine -/

/-- The cache, the requests that were saved, the latest one last, and the blocks it has. -/
structure Run where
  cache : Cache
  saved : List SvcReq
  blocks : List ℕ

inductive Act
  | dupsave (new : Option ℕ) (req : SvcReq)
  | dup (req : SvcReq)

/-- `kmem_alloc` does not hand out a block twice. -/
def Act.Valid (s : Run) : Act → Prop
  | dupsave (some dr) _ => dr ∉ s.blocks
  | _ => True

/-- The machine of the cache. -/
def dupCache : Machine Run Act where
  init s := s.cache.ndupreqs = 0 ∧ (∀ h, s.cache.drhashtbl h = none) ∧ s.cache.drmru = none ∧
    s.saved = [] ∧ s.blocks = []
  next s
    | .dupsave new req => (svckudp_dupsave new req s.cache).map fun c =>
      ⟨c, s.saved ++ [req],
        if s.cache.ndupreqs < MAXDUPREQS then new.toList ++ s.blocks else s.blocks⟩
    | .dup req => (svckudp_dup req s.cache).map fun r => { s with cache := r.2 }

/-- The last `MAXDUPREQS` requests that were saved. -/
def Run.recent (s : Run) : List SvcReq := s.saved.drop (s.saved.length - MAXDUPREQS)

/-! ## What is well formed -/

/-- The request that is saved in an entry. -/
def Dupreq.req (dr : Dupreq) : SvcReq := ⟨dr.dr_xid, dr.dr_prog, dr.dr_vers, dr.dr_proc, dr.dr_addr⟩

def Cache.next (c : Cache) (dr : ℕ) : Option ℕ := (c.mem dr).dr_next

def Cache.chain (c : Cache) (dr : ℕ) : Option ℕ := (c.mem dr).dr_chain

/-- The entries `l` are the chain of the hash `h`. -/
structure IsChain (c : Cache) (h : Fin DRHASHSZ) (l : List ℕ) : Prop where
  head : c.drhashtbl h = l.head?
  chained : Chained c.chain l
  nodup : l.Nodup

/-- The chains hold exactly the entries `live`, each on the chain of its own transaction id. -/
def Hashed (c : Cache) (live : List ℕ) : Prop :=
  ∀ h, ∃ l, IsChain c h l ∧ ∀ dr, dr ∈ l ↔ dr ∈ live ∧ DRHASH (c.mem dr) = h

/-- The entries `live`, from the oldest to the newest, form the ring. -/
structure IsRing (c : Cache) (live : List ℕ) : Prop where
  nodup : live.Nodup
  mru : c.drmru = live.getLast?
  circular : Circular c.next live

/-- The cache is well formed: its live entries hold the recent requests. -/
def WellFormed (s : Run) : Prop :=
  ∃ live, IsRing s.cache live ∧ Hashed s.cache live ∧ s.cache.ndupreqs = live.length ∧
    (live.map fun dr => (s.cache.mem dr).req) = s.recent ∧ ∀ dr ∈ live, dr ∈ s.blocks

/-! ## The chains -/

variable {c c' : Cache} {dr : ℕ} {live rest l l₁ l₂ : List ℕ} {h : Fin DRHASHSZ} {req : SvcReq}

/-- The entries hold the same requests. -/
def SameReqs (c c' : Cache) : Prop := ∀ a, (c'.mem a).req = (c.mem a).req

theorem DRHASH_eq (dr : Dupreq) : DRHASH dr = XIDHASH dr.req.ud_xid := rfl

theorem SameReqs.hash (hs : SameReqs c c') (a : ℕ) : DRHASH (c'.mem a) = DRHASH (c.mem a) := by
  rw [DRHASH_eq, hs a, DRHASH_eq]

section setLink

variable {p prev : Option ℕ}

theorem setLink_sameReqs : SameReqs c (c.setLink h p prev) := by
  intro a
  cases prev with
  | none => rfl
  | some q =>
    by_cases hq : a = q
    · subst hq; simp [Cache.setLink, Cache.setChain, Dupreq.req]
    · simp [Cache.setLink, Cache.setChain, hq]

@[simp] theorem setLink_next : (c.setLink h p prev).next = c.next := by
  funext a
  cases prev with
  | none => rfl
  | some q =>
    by_cases hq : a = q
    · subst hq; simp [Cache.setLink, Cache.setChain, Cache.next]
    · simp [Cache.setLink, Cache.setChain, Cache.next, hq]

theorem setLink_chain (a : ℕ) :
    (c.setLink h p prev).chain a = if prev = some a then p else c.chain a := by
  cases prev with
  | none => rfl
  | some q =>
    by_cases hq : q = a
    · subst hq; simp [Cache.setLink, Cache.setChain, Cache.chain]
    · simp [Cache.setLink, Cache.setChain, Cache.chain, hq, Ne.symm hq]

theorem setLink_drhashtbl (h' : Fin DRHASHSZ) :
    (c.setLink h p prev).drhashtbl h' = if prev = none ∧ h' = h then p else c.drhashtbl h' := by
  cases prev with
  | none => simp [Cache.setLink, Function.update_apply]
  | some q => rfl

@[simp] theorem setLink_ndupreqs : (c.setLink h p prev).ndupreqs = c.ndupreqs := by
  cases prev <;> rfl

end setLink

/-- The loop of `unhash` finds the entry and links it out. -/
theorem unhashFrom_eq {n : ℕ} {prev : Option ℕ} (hl : Chained c.chain (l₁ ++ dr :: l₂))
    (hdr : dr ∉ l₁) (hn : l₁.length < n) :
    unhashFrom dr c n prev (l₁ ++ dr :: l₂).head? =
      some (c.setLink (DRHASH (c.mem dr)) l₂.head? (l₁.getLast?.or prev)) := by
  induction l₁ generalizing n prev with
  | nil =>
    obtain ⟨n, rfl⟩ := Nat.exists_eq_succ_of_ne_zero (Nat.ne_of_gt hn)
    have hch : (c.mem dr).dr_chain = l₂.head? := hl.1
    simp [unhashFrom, hch]
  | cons a l₁ ih =>
    obtain ⟨n, rfl⟩ := Nat.exists_eq_succ_of_ne_zero (Nat.ne_of_gt (Nat.zero_lt_of_lt hn))
    have hne : a ≠ dr := fun he => hdr (he ▸ List.mem_cons_self)
    have hch : (c.mem a).dr_chain = (l₁ ++ dr :: l₂).head? := hl.1
    rw [List.cons_append, List.head?_cons, unhashFrom, if_neg hne, hch,
      ih hl.2 (fun hm => hdr (List.mem_cons_of_mem a hm)) (Nat.lt_of_succ_lt_succ hn),
      List.getLast?_cons]
    cases l₁.getLast? <;> rfl

theorem Hashed.congr (hc : Hashed c live) (htbl : c'.drhashtbl = c.drhashtbl)
    (hch : c'.chain = c.chain) (hs : SameReqs c c') : Hashed c' live := by
  intro h
  obtain ⟨l, hl, hmem⟩ := hc h
  refine ⟨l, ⟨by rw [htbl, hl.head], by rw [hch]; exact hl.chained, hl.nodup⟩, fun a => ?_⟩
  rw [hmem, hs.hash]

/-- A chain is no longer than the list of the entries. -/
theorem IsChain.length_le (hl : IsChain c h l) (hsub : ∀ a ∈ l, a ∈ live) :
    l.length ≤ live.length :=
  (List.subperm_of_subset hl.nodup hsub).length_le

/-- Linking an entry out of its chain leaves the rest of it. -/
theorem IsChain.setLink (hl : IsChain c h (l₁ ++ dr :: l₂)) :
    IsChain (c.setLink h l₂.head? l₁.getLast?) h (l₁ ++ l₂) := by
  have hnd := hl.nodup
  rw [List.nodup_middle, List.nodup_cons] at hnd
  refine ⟨?_, hl.chained.remove (List.nodup_append.1 hnd.2).1 (fun x _ => setLink_chain x)
    fun x hx => ?_, hnd.2⟩
  · rw [setLink_drhashtbl, hl.head]
    cases l₁ with
    | nil => simp
    | cons a l₁ => simp
  · -- The entry before is not behind the one that is taken out.
    rw [setLink_chain, if_neg]
    intro hlast
    exact (List.nodup_append.1 hnd.2).2.2 x (List.mem_of_getLast? hlast) x hx rfl

/-- The chain of another hash is as it was. -/
theorem IsChain.setLink_of_ne {h' : Fin DRHASHSZ} {p prev : Option ℕ} (hl : IsChain c h' l)
    (hne : h' ≠ h) (hprev : ∀ q, prev = some q → q ∉ l) : IsChain (c.setLink h p prev) h' l := by
  refine ⟨?_, hl.chained.congr fun x hx => ?_, hl.nodup⟩
  · rw [setLink_drhashtbl, if_neg fun hh => hne hh.2, hl.head]
  · rw [setLink_chain, if_neg fun hx' => hprev x hx' hx]

/-- `unhash` takes an entry off the chain it is on. -/
theorem Hashed.unhash (hc : Hashed c (dr :: rest)) (hdr : dr ∉ rest)
    (hn : rest.length < c.ndupreqs) :
    ∃ prev p, unhash dr c = some (c.setLink (DRHASH (c.mem dr)) p prev) ∧
      Hashed (c.setLink (DRHASH (c.mem dr)) p prev) rest := by
  obtain ⟨l, hl, hmem⟩ := hc (DRHASH (c.mem dr))
  obtain ⟨l₁, l₂, rfl⟩ := List.append_of_mem ((hmem dr).2 ⟨List.mem_cons_self, rfl⟩)
  have hnd := hl.nodup
  rw [List.nodup_middle, List.nodup_cons] at hnd
  have hlen := hl.length_le fun a ha => ((hmem a).1 ha).1
  refine ⟨l₁.getLast?, l₂.head?, ?_, fun h => ?_⟩
  · have hlt : l₁.length < c.ndupreqs + 1 := by
      simp only [List.length_append, List.length_cons] at hlen
      omega
    rw [DupCache.unhash, hl.head,
      unhashFrom_eq hl.chained (fun hm => hnd.1 (List.mem_append_left _ hm)) hlt, Option.or_none]
  · by_cases hh : h = DRHASH (c.mem dr)
    · subst hh
      refine ⟨_, hl.setLink, fun a => ?_⟩
      have ha := hmem a
      rw [setLink_sameReqs.hash]
      simp only [List.mem_append, List.mem_cons] at ha hnd ⊢
      grind
    · obtain ⟨l, hl', hmem'⟩ := hc h
      refine ⟨l, hl'.setLink_of_ne hh fun q hq hql => hh ?_, fun a => ?_⟩
      · have hq' := (hmem q).1 (List.mem_append_left _ (List.mem_of_getLast? hq))
        exact ((hmem' q).1 hql).2.symm.trans hq'.2
      · rw [setLink_sameReqs.hash, hmem']
        grind

section dupfill

@[simp] theorem dupfill_next : (dupfill req dr c).next = c.next := by
  funext a
  by_cases ha : a = dr
  · subst ha; simp [dupfill, Cache.next]
  · simp [dupfill, Cache.next, ha]

theorem dupfill_req (a : ℕ) :
    ((dupfill req dr c).mem a).req = if a = dr then req else (c.mem a).req := by
  by_cases ha : a = dr
  · subst ha; simp [dupfill, Dupreq.req]
  · simp [dupfill, ha]

theorem dupfill_chain (a : ℕ) : (dupfill req dr c).chain a =
    if a = dr then c.drhashtbl (XIDHASH req.ud_xid) else c.chain a := by
  by_cases ha : a = dr
  · subst ha; simp [dupfill, Cache.chain]
  · simp [dupfill, Cache.chain, ha]

theorem dupfill_hash (a : ℕ) : DRHASH ((dupfill req dr c).mem a) =
    if a = dr then XIDHASH req.ud_xid else DRHASH (c.mem a) := by
  rw [DRHASH_eq, dupfill_req]
  split <;> rfl

end dupfill

/-- An entry that is filled in is on the chain of its hash. -/
theorem Hashed.dupfill (hc : Hashed c live) (hdr : dr ∉ live) :
    Hashed (dupfill req dr c) (live ++ [dr]) := by
  intro h
  obtain ⟨l, hl, hmem⟩ := hc h
  have hdrl : dr ∉ l := fun hm => hdr ((hmem dr).1 hm).1
  have hch : Chained (DupCache.dupfill req dr c).chain l := hl.chained.congr fun x hx => by
    rw [dupfill_chain, if_neg fun he : x = dr => hdrl (he ▸ hx)]
  by_cases hh : h = XIDHASH req.ud_xid
  · subst hh
    refine ⟨dr :: l, ⟨Function.update_self _ _ _, ⟨?_, hch⟩, hl.nodup.cons hdrl⟩, fun a => ?_⟩
    · rw [dupfill_chain, if_pos rfl, hl.head]
    · rw [List.mem_cons, hmem, dupfill_hash]
      grind
  · refine ⟨l, ⟨(Function.update_of_ne hh _ _).trans hl.head, hch, hl.nodup⟩, fun a => ?_⟩
    rw [hmem, dupfill_hash]
    grind


/-! ## The ring -/

section setNext

variable {p : Option ℕ}

theorem setNext_next (a : ℕ) : (c.setNext dr p).next a = if a = dr then p else c.next a := by
  by_cases ha : a = dr
  · subst ha; simp [Cache.setNext, Cache.next]
  · simp [Cache.setNext, Cache.next, ha]

@[simp] theorem setNext_chain : (c.setNext dr p).chain = c.chain := by
  funext a
  by_cases ha : a = dr
  · subst ha; simp [Cache.setNext, Cache.chain]
  · simp [Cache.setNext, Cache.chain, ha]

theorem setNext_sameReqs : SameReqs c (c.setNext dr p) := by
  intro a
  by_cases ha : a = dr
  · subst ha; simp [Cache.setNext, Dupreq.req]
  · simp [Cache.setNext, ha]

end setNext

theorem SameReqs.trans {c'' : Cache} (hs : SameReqs c c') (hs' : SameReqs c' c'') :
    SameReqs c c'' := fun a => (hs' a).trans (hs a)

/-- Linking an entry in changes no chain and no request. -/
theorem linkIn_frame : (linkIn dr c).drhashtbl = c.drhashtbl ∧ (linkIn dr c).chain = c.chain ∧
    SameReqs c (linkIn dr c) := by
  rw [linkIn]
  split
  · exact ⟨rfl, by simp, setNext_sameReqs.trans setNext_sameReqs⟩
  · exact ⟨rfl, by simp, setNext_sameReqs⟩

theorem IsRing.linkIn (hr : IsRing c live) (hdr : dr ∉ live) :
    Circular (linkIn dr c).next (live ++ [dr]) := by
  cases hlast : live.getLast? with
  | none =>
    obtain rfl := List.getLast?_eq_none_iff.1 hlast
    have hmru : c.drmru = none := hr.mru
    refine hr.circular.concat hr.nodup ?_ fun x hx => absurd hx List.not_mem_nil
    rw [DupCache.linkIn, hmru]
    exact (setNext_next dr).trans (if_pos rfl)
  | some mru =>
    have hmru : c.drmru = some mru := hr.mru.trans hlast
    have hmem : mru ∈ live := List.mem_of_getLast? hlast
    have hne : dr ≠ mru := fun he => hdr (he ▸ hmem)
    have hnext (x : ℕ) : (DupCache.linkIn dr c).next x =
        if x = mru then some dr else if x = dr then c.next mru else c.next x := by
      rw [DupCache.linkIn, hmru]
      exact (setNext_next x).trans (by rw [setNext_next]; rfl)
    refine hr.circular.concat hr.nodup ?_ fun x hx => ?_
    · -- The newest entry pointed to the oldest.
      rw [hnext, if_neg hne, if_pos rfl, hr.circular.next_getLast hlast]
      cases live with
      | nil => exact absurd hmem List.not_mem_nil
      | cons a live => rfl
    · rw [hnext, hlast]
      have hx' : x ≠ dr := fun he => hdr (he ▸ hx)
      simp only [hx', if_false, Option.some.injEq, eq_comm]

/-- The entry that the next request is saved in, with the entries that stay behind it. -/
structure Vacated (c : Cache) (live : List ℕ) (c' : Cache) (rest : List ℕ) (dr : ℕ) : Prop where
  rest_eq : rest = live.drop (live.length + 1 - MAXDUPREQS)
  nodup : (rest ++ [dr]).Nodup
  circular : Circular c'.next (rest ++ [dr])
  hashed : Hashed c' rest
  reqs : SameReqs c c'
  count : c'.ndupreqs = (rest ++ [dr]).length

/-- While the cache fills, `kmem_alloc` gives the entry, and it is linked into the ring. -/
theorem dupentry_new (hr : IsRing c live) (hc : Hashed c live) (hn : c.ndupreqs = live.length)
    (hlt : c.ndupreqs < MAXDUPREQS) (hdr : dr ∉ live) :
    ∃ c', dupentry (some dr) c = some (dr, c') ∧ Vacated c live c' live dr := by
  obtain ⟨htbl, hch, hs⟩ := @linkIn_frame c dr
  refine ⟨{ linkIn dr c with ndupreqs := c.ndupreqs + 1 }, if_pos hlt, ?_, ?_, hr.linkIn hdr,
    hc.congr htbl hch hs, hs, ?_⟩
  · rw [Nat.sub_eq_zero_of_le (by omega), List.drop_zero]
  · exact List.nodup_append.2 ⟨hr.nodup, List.nodup_singleton dr, fun a ha b hb he =>
      hdr (List.mem_singleton.1 hb ▸ he ▸ ha)⟩
  · simp [hn]

/-- Once it is full, the oldest entry is taken off its chain. -/
theorem dupentry_oldest (hr : IsRing c live) (hc : Hashed c live) (hn : c.ndupreqs = live.length)
    (hlen : live.length = MAXDUPREQS) (new : Option ℕ) :
    ∃ dr rest c', live = dr :: rest ∧ dupentry new c = some (dr, c') ∧
      Vacated c live c' rest dr := by
  cases live with
  | nil => exact absurd hlen (Nat.ne_of_lt maxdupreqs_pos)
  | cons dr rest =>
    obtain ⟨hdr, hnd⟩ := List.nodup_cons.1 hr.nodup
    obtain ⟨prev, p, hun, hc'⟩ := hc.unhash hdr (hn ▸ Nat.lt_succ_self rest.length)
    obtain ⟨mru, hmru⟩ : ∃ mru, (dr :: rest).getLast? = some mru :=
      ⟨_, List.getLast?_eq_some_getLast (List.cons_ne_nil dr rest)⟩
    have hnext : (c.mem mru).dr_next = some dr := hr.circular.next_getLast hmru
    refine ⟨dr, rest, _, rfl, ?_, ?_, ?_, ?_, hc', setLink_sameReqs, ?_⟩
    · rw [dupentry, if_neg (by omega), hr.mru, hmru, Option.bind_some, hnext, Option.bind_some,
        hun, Option.map_some]
    · rw [hlen, Nat.add_sub_cancel_left, List.drop_one, List.tail_cons]
    · exact List.nodup_append.2 ⟨hnd, List.nodup_singleton dr, fun a ha b hb he =>
        hdr (List.mem_singleton.1 hb ▸ he ▸ ha)⟩
    · rw [setLink_next]
      exact hr.circular.rotate
    · rw [setLink_ndupreqs, hn, List.length_append, List.length_cons, List.length_singleton]

/-! ## The calls -/

/-- The loop of `svckudp_dup` looks at every entry of the chain. -/
theorem dupFrom_eq {n : ℕ} (hl : Chained c.chain l) (hn : l.length < n) :
    dupFrom req c n l.head? = some (decide (∃ a ∈ l, (c.mem a).req = req)) := by
  induction l generalizing n with
  | nil =>
    obtain ⟨n, rfl⟩ := Nat.exists_eq_succ_of_ne_zero (Nat.ne_of_gt hn)
    simp [dupFrom]
  | cons a l ih =>
    obtain ⟨n, rfl⟩ := Nat.exists_eq_succ_of_ne_zero (Nat.ne_of_gt (Nat.zero_lt_of_lt hn))
    have hch : (c.mem a).dr_chain = l.head? := hl.1
    have hreq : (c.mem a).req = req ↔ ¬((c.mem a).dr_xid ≠ req.ud_xid ∨
        (c.mem a).dr_prog ≠ req.rq_prog ∨ (c.mem a).dr_vers ≠ req.rq_vers ∨
        (c.mem a).dr_proc ≠ req.rq_proc ∨ (c.mem a).dr_addr ≠ req.xp_raddr) := by
      simp [Dupreq.req, SvcReq.ext_iff]
    by_cases ha : (c.mem a).req = req
    · rw [List.head?_cons, dupFrom, if_neg (hreq.1 ha)]
      simp [ha]
    · rw [List.head?_cons, dupFrom, if_pos (not_not.1 fun hne => ha (hreq.2 hne)), hch,
        ih hl.2 (Nat.lt_of_succ_lt_succ hn)]
      simp [ha]

variable {s s' : Run}

/-- A call reports whether the request is a recent one. -/
theorem WellFormed.dup (hs : WellFormed s) (req : SvcReq) :
    svckudp_dup req s.cache = some (decide (req ∈ s.recent), { s.cache with
      dupchecks := s.cache.dupchecks + 1
      dupreqs := s.cache.dupreqs + (decide (req ∈ s.recent)).toNat }) := by
  obtain ⟨live, hr, hc, hn, hreqs, -⟩ := hs
  obtain ⟨l, hl, hmem⟩ := hc (XIDHASH req.ud_xid)
  have hlen := hl.length_le fun a ha => ((hmem a).1 ha).1
  have hiff : (∃ a ∈ l, (s.cache.mem a).req = req) ↔ req ∈ s.recent := by
    rw [← hreqs, List.mem_map]
    constructor
    · rintro ⟨a, ha, rfl⟩
      exact ⟨a, ((hmem a).1 ha).1, rfl⟩
    · rintro ⟨a, ha, rfl⟩
      exact ⟨a, (hmem a).2 ⟨ha, rfl⟩, rfl⟩
  rw [svckudp_dup, hl.head, dupFrom_eq hl.chained (by omega), Option.map_some,
    decide_eq_decide.2 hiff]

theorem WellFormed.dup_wellFormed {r : Bool × Cache} (hs : WellFormed s) (req : SvcReq)
    (h : svckudp_dup req s.cache = some r) : WellFormed { s with cache := r.2 } := by
  rw [hs.dup] at h
  obtain rfl := Option.some.inj h
  obtain ⟨live, hr, hc, hn, hreqs, hb⟩ := hs
  exact ⟨live, ⟨hr.nodup, hr.mru, hr.circular⟩, hc.congr rfl rfl fun _ => rfl, hn, hreqs, hb⟩

/-- An entry is vacated for the next request, if there is a block for it where one is needed. -/
theorem WellFormed.vacated {new : Option ℕ} (hs : WellFormed s)
    (hnew : s.cache.ndupreqs < MAXDUPREQS → ∃ dr, new = some dr ∧ dr ∉ s.blocks) :
    ∃ live rest dr c', (live.map fun a => (s.cache.mem a).req) = s.recent ∧
      dupentry new s.cache = some (dr, c') ∧ Vacated s.cache live c' rest dr ∧
      ∀ a ∈ rest ++ [dr],
        a ∈ if s.cache.ndupreqs < MAXDUPREQS then new.toList ++ s.blocks else s.blocks := by
  obtain ⟨live, hr, hc, hn, hreqs, hb⟩ := hs
  by_cases hlt : s.cache.ndupreqs < MAXDUPREQS
  · obtain ⟨dr, rfl, hdr⟩ := hnew hlt
    obtain ⟨c', hentry, hv⟩ := dupentry_new hr hc hn hlt fun hm => hdr (hb dr hm)
    refine ⟨live, live, dr, c', hreqs, hentry, hv, fun a ha => ?_⟩
    rw [if_pos hlt]
    rcases List.mem_append.1 ha with ha | ha
    · exact List.mem_append_right _ (hb a ha)
    · exact List.mem_append_left _ ha
  · have hlen : live.length = MAXDUPREQS := by
      have hle := congrArg List.length hreqs
      rw [List.length_map, Run.recent, List.length_drop] at hle
      omega
    obtain ⟨dr, rest, c', rfl, hentry, hv⟩ := dupentry_oldest hr hc hn hlen new
    refine ⟨dr :: rest, rest, dr, c', hreqs, hentry, hv, fun a ha => ?_⟩
    rw [if_neg hlt]
    refine hb a ?_
    rw [List.mem_append, List.mem_singleton] at ha
    exact List.mem_cons.2 ha.symm

/-- The request is saved in the vacated entry. -/
theorem Vacated.wellFormed {s : Run} {blocks : List ℕ} (hv : Vacated s.cache live c' rest dr)
    (hreqs : (live.map fun a => (s.cache.mem a).req) = s.recent)
    (hb : ∀ a ∈ rest ++ [dr], a ∈ blocks) (req : SvcReq) :
    WellFormed ⟨dupfill req dr c', s.saved ++ [req], blocks⟩ := by
  have hdr : dr ∉ rest := fun hm =>
    (List.nodup_append.1 hv.nodup).2.2 dr hm dr List.mem_cons_self rfl
  refine ⟨rest ++ [dr], ⟨hv.nodup, List.getLast?_concat.symm, ?_⟩, hv.hashed.dupfill hdr, hv.count,
    ?_, hb⟩
  · rw [dupfill_next]
    exact hv.circular
  · have hlen := congrArg List.length hreqs
    rw [List.length_map, Run.recent, List.length_drop] at hlen
    have hrest : (rest.map fun a => ((dupfill req dr c').mem a).req) =
        (live.map fun a => (s.cache.mem a).req).drop (live.length + 1 - MAXDUPREQS) := by
      rw [← List.map_drop, ← hv.rest_eq]
      refine List.map_congr_left fun a ha => ?_
      rw [dupfill_req, if_neg fun he : a = dr => hdr (he ▸ ha), hv.reqs]
    -- The window moves on by one request once it is full.
    have hpos := maxdupreqs_pos
    rw [List.map_append, hrest, hreqs, Run.recent, Run.recent, List.drop_drop, List.map_singleton,
      dupfill_req, if_pos rfl, List.length_append, List.length_singleton,
      List.drop_append_of_le_length (Nat.sub_le_of_le_add (Nat.add_le_add_left hpos _))]
    exact congrArg (fun k => s.saved.drop k ++ [req]) (by omega)

theorem WellFormed.next {a : Act} (hs : WellFormed s) (ha : a.Valid s)
    (h : dupCache.next s a = some s') : WellFormed s' := by
  cases a with
  | dup req =>
    obtain ⟨r, hr, rfl⟩ := Option.map_eq_some_iff.1 h
    exact hs.dup_wellFormed req hr
  | dupsave new req =>
    obtain ⟨c, hc, rfl⟩ := Option.map_eq_some_iff.1 h
    obtain ⟨⟨dr, c'⟩, hentry, rfl⟩ := Option.map_eq_some_iff.1 hc
    have hnew : s.cache.ndupreqs < MAXDUPREQS → ∃ dr, new = some dr ∧ dr ∉ s.blocks := by
      intro hlt
      rw [dupentry, if_pos hlt] at hentry
      cases new with
      | none => exact nomatch hentry
      | some dr => exact ⟨dr, rfl, ha⟩
    obtain ⟨live, rest, dr', c'', hreqs, hentry', hv, hb⟩ := hs.vacated hnew
    obtain ⟨rfl, rfl⟩ := Prod.mk.inj (Option.some.inj (hentry'.symm.trans hentry))
    exact hv.wellFormed hreqs hb req

theorem wellFormed_init (h : dupCache.init s) : WellFormed s := by
  obtain ⟨hn, htbl, hmru, hsaved, -⟩ := h
  refine ⟨[], ⟨List.nodup_nil, hmru, trivial⟩, fun h => ⟨[], ⟨htbl h, trivial, List.nodup_nil⟩, ?_⟩,
    hn, ?_, fun a ha => absurd ha List.not_mem_nil⟩
  · simp
  · rw [Run.recent, hsaved, List.drop_nil, List.map_nil]

/-- In every run the cache is well formed, and both calls return: a request is reported as a
    duplicate if and only if it is one of the last `MAXDUPREQS` saved, and any request can be
    saved. -/
theorem dup_iff : ∀ s, dupCache.ReachableIf (fun s a => a.Valid s) s → WellFormed s ∧
    (∀ req, ∃ c, svckudp_dup req s.cache = some (decide (req ∈ s.recent), c)) ∧
    ∀ req dr, dr ∉ s.blocks → ∃ c, svckudp_dupsave (some dr) req s.cache = some c := by
  intro s hs
  have hwf : WellFormed s := hs.invariant (fun s => wellFormed_init)
    fun s a s' hs ha h => hs.next ha h
  refine ⟨hwf, fun req => ⟨_, hwf.dup req⟩, fun req dr hdr => ?_⟩
  obtain ⟨-, -, dr', c', -, hentry, -⟩ := hwf.vacated fun _ => ⟨dr, rfl, hdr⟩
  exact ⟨_, by rw [svckudp_dupsave, hentry]; rfl⟩

/-- A request. -/
def lookupReq : SvcReq := ⟨7, 100003, 2, 4, ⟨2, 1023, 2130706433, 0⟩⟩

/-- The empty cache. -/
def emptyCache : Cache :=
  ⟨0, 0, 0, fun _ => none, none, fun _ => ⟨0, ⟨0, 0, 0, 0⟩, 0, 0, 0, none, none⟩⟩

/-- After the request is saved, it is a duplicate. -/
theorem dup_lookupReq : ∃ c c', svckudp_dupsave (some 4096) lookupReq emptyCache = some c ∧
    WellFormed ⟨c, [lookupReq], [4096]⟩ ∧ svckudp_dup lookupReq c = some (true, c') := by
  have hinit : dupCache.ReachableIf (fun s a => a.Valid s) ⟨emptyCache, [], []⟩ :=
    .init ⟨rfl, fun _ => rfl, rfl, rfl, rfl⟩
  obtain ⟨c, hc⟩ := (dup_iff ⟨emptyCache, [], []⟩ hinit).2.2 lookupReq 4096 List.not_mem_nil
  have hvalid : (Act.dupsave (some 4096) lookupReq).Valid ⟨emptyCache, [], []⟩ := List.not_mem_nil
  have hlt : emptyCache.ndupreqs < MAXDUPREQS := maxdupreqs_pos
  have h := dup_iff ⟨c, [lookupReq], [4096]⟩ (.step hinit hvalid (by simp [dupCache, hc, hlt]))
  obtain ⟨c', hdup⟩ := h.2.1 lookupReq
  exact ⟨c, c', hc, h.1, by simpa [Run.recent, MAXDUPREQS] using hdup⟩

end AuxKernel.Rpc.DupCache
