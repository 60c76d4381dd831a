import AuxKernel.RecordLock.HeaderLists
import Mathlib.Algebra.BigOperators.Group.Finset.Basic

/-!
# References to lock headers

A header counts the calls that are at work on it, and is in use while there are some or it has
records (`Counted`). Every call keeps this, but for `getflck` when it cannot convert a request:
it has found the header by then, and does not let it go (`not_counted`).

* `flckadj_count`: adjusting neither makes nor loses records;
* `Counted.pass`: a pass of `setflck`, with its header held, either lets it go or sleeps on it;
* `counted_of_converts`: the runs in which every request is converted after a header was found.
-/

namespace AuxKernel.RecordLock.Headers

variable {v : Config} {s t : Table} {L F : List ℕ} {busy busy' : List ℕ} {a b x : ℕ} {pid : ℤ}
  {id : ℤ × ℤ} {ld : Flock}

/-! ## Records -/

/-- The records on the chain and the free ones. -/
def Scan.count : Scan → ℕ
  | .ret chain nfree _ => chain.length + nfree
  | .fin chain nfree _ _ => chain.length + nfree

theorem insflck_count {chain chain' : List Filock} {nfree n fl : ℕ}
    (h : insflck pid chain nfree ld fl = some (chain', n)) :
    chain'.length + n = chain.length + nfree := by
  cases nfree with
  | zero => exact absurd h.symm (Option.some_ne_none _)
  | succ m =>
    obtain ⟨rfl, rfl⟩ := Prod.mk.inj (Option.some.inj h)
    have hsplit := congrArg List.length (List.take_append_drop fl chain)
    rw [List.length_append] at hsplit ⊢
    rw [List.length_cons]
    omega

/-- A record that is severed is one more, and deleted one less. -/
theorem severed_count (done : List Filock) {rest chain : List Filock} {flp : Filock}
    {nfree n fl : ℕ}
    (h : insflck pid (flp :: rest) nfree ld fl = some (chain, n)) :
    (done ++ chain.tail).length + (n + 1) = done.length + (flp :: rest).length + nfree := by
  have hcount := insflck_count h
  rw [List.length_append, List.length_tail, List.length_cons]
  rw [List.length_cons] at hcount
  have hpos : 0 < chain.length := by
    cases nfree with
    | zero => exact absurd h.symm (Option.some_ne_none _)
    | succ m =>
      obtain ⟨rfl, -⟩ := Prod.mk.inj (Option.some.inj h)
      rw [List.length_append, List.length_cons]
      omega
  omega

/-- The scan neither makes nor loses records. -/
theorem adjLoop_count (pid : ℤ) (done todo : List Filock) (nfree insrtp : ℕ) (ld : Flock) :
    Scan.count (adjLoop pid done todo nfree insrtp ld) =
      done.length + todo.length + nfree := by
  induction todo generalizing done nfree insrtp ld with
  | nil => rfl
  | cons flp rest ih =>
    have hall : (done ++ flp :: rest).length + nfree =
        done.length + (flp :: rest).length + nfree := by rw [List.length_append]
    have hdel : (done ++ rest).length + (nfree + 1) =
        done.length + (flp :: rest).length + nfree := by
      rw [List.length_append, List.length_cons]
      omega
    have hdel' : done.length + rest.length + (nfree + 1) =
        done.length + (flp :: rest).length + nfree := by
      rw [List.length_cons]
      omega
    have hnext : ∀ g : Filock, (done ++ [g]).length + rest.length + nfree =
        done.length + (flp :: rest).length + nfree := fun g => by
      rw [List.length_append, List.length_singleton, List.length_cons]
      omega
    rw [adjLoop]
    by_cases hp : flp.set.l_pid = pid
    · rw [if_pos hp]
      rcases regflck ld flp with ⟨s, e⟩
      cases s with
      | before =>
        cases e with
        | before => exact hall
        | start =>
          dsimp only
          split_ifs
          · exact hdel
          · exact hall
        | middle =>
          dsimp only
          split_ifs
          · exact hdel
          · split
            · exact hall
            · exact severed_count done ‹_›
        | atEnd =>
          dsimp only
          split_ifs
          · exact hdel
          · exact (ih ..).trans hdel'
        | after => exact (ih ..).trans hdel'
      | start =>
        cases e with
        | middle =>
          dsimp only
          split_ifs
          · exact hall
          · split
            · exact hall
            · exact severed_count done ‹_›
        | atEnd =>
          dsimp only
          split_ifs
          · exact hall
          · exact (ih ..).trans hdel'
        | after => exact (ih ..).trans hdel'
        | before | start => exact (ih ..).trans (hnext flp)
      | middle =>
        cases e with
        | middle =>
          dsimp only
          split_ifs
          · exact hall
          · split
            · exact hall
            · have hcount := severed_count done ‹_›
              refine Eq.trans ?_ hcount
              rw [Scan.count, List.length_append, List.length_cons, List.length_append]
              omega
        | atEnd =>
          dsimp only
          split_ifs
          · exact hall
          · exact (ih ..).trans (hnext _)
        | after =>
          dsimp only
          split_ifs
          · exact (ih ..).trans hdel'
          · exact (ih ..).trans (hnext _)
        | before | start => exact (ih ..).trans (hnext flp)
      | atEnd =>
        cases e with
        | after =>
          dsimp only
          split_ifs
          · exact (ih ..).trans hdel'
          · exact (ih ..).trans (hnext _)
        | before | start | middle | atEnd => exact (ih ..).trans (hnext flp)
      | after => cases e <;> exact (ih ..).trans (hnext flp)
    · rw [if_neg hp]
      split_ifs
      · exact hall
      · exact (ih ..).trans (hnext flp)

/-- Adjusting neither makes nor loses records. -/
theorem flckadj_count (pid : ℤ) (chain : List Filock) (nfree insrtp : ℕ) (ld : Flock) :
    (flckadj pid chain nfree insrtp ld).1.length + (flckadj pid chain nfree insrtp ld).2.1 =
      chain.length + nfree := by
  have hcount := adjLoop_count pid (chain.take (insrtp - 1)) (chain.drop (insrtp - 1)) nfree insrtp
    ld
  rw [← List.length_append, List.take_append_drop] at hcount
  rw [flckadj]
  split
  · rename_i heq
    rw [heq] at hcount
    exact hcount
  · rename_i heq
    rw [heq] at hcount
    split_ifs
    · exact hcount
    · split
      · exact hcount
      · exact (insflck_count ‹_›).trans hcount

/-! ## The invariant -/

/-- The calls that sleep on a header. -/
def Table.asleep (s : Table) (a : ℕ) : ℕ := s.sleeplcks.countP fun w => w.flip = a

/-- The records on the chains, those of sleepers, and those on `frlock`. -/
def Table.records (v : Config) (s : Table) : ℕ :=
  ∑ a ∈ Finset.range v.fils, (s.chain a).length + s.sleeplcks.length + s.nfrlock

/-- Each header is on one of the lists `L`, in use, and `F`, free. It counts the calls at work on
    it, those asleep and those in `busy`, and is in use if there are any or it has records. -/
structure Counted (v : Config) (s : Table) (busy L F : List ℕ) : Prop where
  lists : Lists v s L F
  refcnt : ∀ a, s.refcnt a = s.asleep a + busy.count a
  used : ∀ a, a ∈ L ↔ 0 < s.refcnt a ∨ s.chain a ≠ []
  file : ∀ a ∈ L, ∀ b ∈ L, s.file a = s.file b → a = b
  records : s.records v = v.recs

theorem Counted.lt (h : Counted v s busy L F) (ha : a ∈ L) : a < v.fils :=
  List.mem_range.1 (h.lists.perm.mem_iff.1 (List.mem_append_left F ha))

theorem Counted.mem_of_busy (h : Counted v s busy L F) (ha : a ∈ busy) : a ∈ L := by
  refine (h.used a).2 (.inl ?_)
  have hpos := List.count_pos_iff.2 ha
  rw [h.refcnt a]
  omega

theorem Counted.mem_of_asleep (h : Counted v s busy L F) {w : Waiter} (hw : w ∈ s.sleeplcks) :
    w.flip ∈ L := by
  refine (h.used _).2 (.inl ?_)
  have hpos : 0 < s.asleep w.flip := List.countP_pos_iff.2 ⟨w, hw, decide_eq_true rfl⟩
  rw [h.refcnt]
  omega

/-- The records of the chains, when one of them changes. -/
theorem sum_chain (hlt : a < v.fils) (hal : ∀ x, x ≠ a → t.chain x = s.chain x) :
    ∑ x ∈ Finset.range v.fils, (t.chain x).length + (s.chain a).length =
      ∑ x ∈ Finset.range v.fils, (s.chain x).length + (t.chain a).length := by
  have ha := Finset.mem_range.2 hlt
  rw [← Finset.add_sum_erase _ (fun x => (t.chain x).length) ha,
    ← Finset.add_sum_erase _ (fun x => (s.chain x).length) ha]
  have hsame : ∑ x ∈ (Finset.range v.fils).erase a, (t.chain x).length =
      ∑ x ∈ (Finset.range v.fils).erase a, (s.chain x).length :=
    Finset.sum_congr rfl fun x hx => by rw [hal x (Finset.ne_of_mem_erase hx)]
  omega

/-- The chain of a header in use changes, and who is at work on it. -/
theorem Counted.change (h : Counted v s busy L F) (ha : a ∈ L) (hl : SameLinks s t)
    (hfids : t.fids = s.fids) (hfrfid : t.frfid = s.frfid) (hfile : t.file = s.file)
    (hcnt : t.refcnt = s.refcnt) (hal : ∀ x, x ≠ a → t.chain x = s.chain x)
    (hbusy : ∀ x, t.asleep x + busy'.count x = s.asleep x + busy.count x)
    (hused : 0 < t.asleep a + busy'.count a)
    (hrec : (t.chain a).length + t.sleeplcks.length + t.nfrlock =
      (s.chain a).length + s.sleeplcks.length + s.nfrlock) : Counted v t busy' L F where
  lists := h.lists.congr hl hfids hfrfid
  refcnt x := by
    rw [hcnt, h.refcnt x]
    have := hbusy x
    omega
  used x := by
    by_cases hx : x = a
    · subst hx
      refine iff_of_true ha (.inl ?_)
      rw [hcnt, h.refcnt]
      have := hbusy x
      omega
    · rw [hcnt, hal x hx]
      exact h.used x
  file := hfile ▸ h.file
  records := by
    have hsum := sum_chain (h.lt ha) hal
    have hall := h.records
    rw [Table.records] at hall ⊢
    omega

/-! ## Headers -/

/-- The header that is found is held. -/
theorem Counted.findfid (h : Counted v s [] L F) (id : ℤ × ℤ) :
    (findfid v id s = some (none, s) ∧ ∀ a ∈ L, s.file a ≠ id) ∨
      ∃ a ∈ L, findfid v id s = some (some a, hold a s) ∧ Counted v (hold a s) [a] L F := by
  refine (findfid_spec h.lists id).imp_right fun hfound => ?_
  obtain ⟨a, ha, -, hfind⟩ := hfound
  obtain ⟨hlinks, hrest, hcnt, hfile, hchain, hal⟩ := hold_spec s a
  have hasleep : ∀ x, (hold a s).asleep x = s.asleep x := fun x => by
    rw [Table.asleep, hrest.sleeplcks, Table.asleep]
  have hchains : (hold a s).chain = s.chain := by
    funext x
    by_cases hx : x = a
    · rw [hx, hchain]
    · exact (hal x hx).chain
  have hfiles : (hold a s).file = s.file := by
    funext x
    by_cases hx : x = a
    · rw [hx, hfile]
    · exact (hal x hx).file
  refine ⟨a, ha, hfind, h.lists.congr hlinks rfl rfl, fun x => ?_, fun x => ?_, hfiles ▸ h.file, ?_⟩
  · rw [hasleep]
    by_cases hx : x = a
    · rw [hx, hcnt, h.refcnt a]
      simp
    · rw [(hal x hx).refcnt, h.refcnt x, List.count_singleton, List.count_nil,
        if_neg (by simpa using Ne.symm hx)]
  · rw [hchains]
    by_cases hx : x = a
    · rw [hx, hcnt]
      refine iff_of_true ha (.inl ?_)
      rw [h.refcnt a]
      omega
    · rw [(hal x hx).refcnt]
      exact h.used x
  · have hall := h.records
    rw [Table.records] at hall ⊢
    rw [hchains, hrest.sleeplcks, hrest.nfrlock]
    exact hall

/-- A free header that a file gets is held. -/
theorem Counted.allocfid (h : Counted v s [] L F) (hno : ∀ a ∈ L, s.file a ≠ id) :
    allocfid id s = (none, s) ∨ ∃ a t L' F', allocfid id s = (some a, t) ∧
      Counted v t [a] L' F' := by
  rcases allocfid_spec h.lists id with ⟨-, hnone⟩ | ⟨a, F', t, rfl, halloc, hlists, hrest, hcnt,
    hfile, hchain, hal⟩
  · exact .inl hnone
  refine .inr ⟨a, t, a :: L, F', halloc, hlists, fun x => ?_, fun x => ?_, fun x hx y hy hxy => ?_,
    ?_⟩
  · have hasleep : t.asleep x = s.asleep x := by
      rw [Table.asleep, hrest.sleeplcks, Table.asleep]
    rw [hasleep]
    by_cases hx : x = a
    · rw [hx, hcnt, h.refcnt a]
      simp
    · rw [(hal x hx).refcnt, h.refcnt x, List.count_singleton, List.count_nil,
        if_neg (by simpa using Ne.symm hx)]
  · by_cases hx : x = a
    · rw [hx, hcnt]
      refine iff_of_true List.mem_cons_self (.inl ?_)
      rw [h.refcnt a]
      omega
    · rw [List.mem_cons, (hal x hx).refcnt, (hal x hx).chain, or_iff_right hx]
      exact h.used x
  · -- the file had no header before
    rcases List.mem_cons.1 hx with rfl | hx' <;> rcases List.mem_cons.1 hy with rfl | hy'
    · rfl
    · by_contra hne
      exact hno y hy' (((hal y (Ne.symm hne)).file.symm.trans hxy.symm).trans hfile)
    · by_contra hne
      exact hno x hx' (((hal x hne).file.symm.trans hxy).trans hfile)
    · by_cases hxa : x = a
      · by_cases hya : y = a
        · rw [hxa, hya]
        · exact absurd (((hal y hya).file.symm.trans hxy.symm).trans (hxa ▸ hfile)) (hno y hy')
      · by_cases hya : y = a
        · exact absurd (((hal x hxa).file.symm.trans hxy).trans (hya ▸ hfile)) (hno x hx')
        · exact h.file x hx' y hy' ((hal x hxa).file.symm.trans (hxy.trans (hal y hya).file))
  · have hchains : t.chain = s.chain := by
      funext x
      by_cases hx : x = a
      · rw [hx, hchain]
      · exact (hal x hx).chain
    have hall := h.records
    rw [Table.records] at hall ⊢
    rw [hchains, hrest.sleeplcks, hrest.nfrlock]
    exact hall

/-- A header that is let go is free if nobody needs it. -/
theorem Counted.freefid (h : Counted v s [a] L F) :
    ∃ L' F', Counted v (freefid a s) [] L' F' := by
  have ha : a ∈ L := h.mem_of_busy List.mem_cons_self
  obtain ⟨L₁, L₂, rfl⟩ := List.append_of_mem ha
  obtain ⟨hrest, hal, hchain, hif⟩ := freefid_spec h.lists
  have hasleep : ∀ x, (Headers.freefid a s).asleep x = s.asleep x := fun x => by
    rw [Table.asleep, hrest.sleeplcks, Table.asleep]
  have hchains : (Headers.freefid a s).chain = s.chain := by
    funext x
    by_cases hx : x = a
    · rw [hx, hchain]
    · exact (hal x hx).chain
  have hrecords : (Headers.freefid a s).records v = v.recs := by
    rw [Table.records, hchains, hrest.sleeplcks, hrest.nfrlock]
    exact h.records
  have hcnt : s.refcnt a = s.asleep a + 1 := by
    rw [h.refcnt a]
    simp
  have hothers : ∀ x, x ≠ a → (Headers.freefid a s).refcnt x = s.asleep x := fun x hx => by
    rw [(hal x hx).refcnt, h.refcnt x, List.count_singleton, if_neg (by simpa using Ne.symm hx)]
    rfl
  by_cases hfree : s.refcnt a - 1 ≤ 0 ∧ s.chain a = []
  · rw [if_pos hfree] at hif
    obtain ⟨hlists, hzero⟩ := hif
    have hnd := (List.nodup_append.1 h.lists.nodup).1
    have haL : a ∉ L₁ ++ L₂ := (List.nodup_middle.1 hnd |> List.nodup_cons.1).1
    have hsub : ∀ x ∈ L₁ ++ L₂, x ∈ L₁ ++ a :: L₂ ∧ x ≠ a := fun x hx =>
      ⟨by rcases List.mem_append.1 hx with hx | hx <;> simp [hx], fun he => haL (he ▸ hx)⟩
    refine ⟨L₁ ++ L₂, a :: F, hlists, fun x => ?_, fun x => ?_, fun x hx y hy hxy => ?_, hrecords⟩
    · rw [hasleep]
      by_cases hx : x = a
      · rw [hx, hzero, List.count_nil]
        omega
      · rw [hothers x hx]
        rfl
    · rw [hchains]
      by_cases hx : x = a
      · rw [hx, hzero]
        refine iff_of_false haL fun hor => ?_
        exact hor.elim (lt_irrefl 0) fun hne => hne hfree.2
      · rw [(hal x hx).refcnt, ← h.used x]
        simp [hx]
    · obtain ⟨hx, hxa⟩ := hsub x hx
      obtain ⟨hy, hya⟩ := hsub y hy
      exact h.file x hx y hy ((hal x hxa).file.symm.trans (hxy.trans (hal y hya).file))
  · rw [if_neg hfree] at hif
    obtain ⟨hlists, hone, hfile⟩ := hif
    have hfiles : (Headers.freefid a s).file = s.file := by
      funext x
      by_cases hx : x = a
      · rw [hx, hfile]
      · exact (hal x hx).file
    refine ⟨L₁ ++ a :: L₂, F, hlists, fun x => ?_, fun x => ?_, hfiles ▸ h.file, hrecords⟩
    · rw [hasleep]
      by_cases hx : x = a
      · rw [hx, hone, List.count_nil]
        omega
      · rw [hothers x hx]
        rfl
    · rw [hchains]
      by_cases hx : x = a
      · rw [hx, hone]
        refine iff_of_true ha ?_
        by_cases hpos : 0 < s.refcnt a - 1
        · exact .inl hpos
        · exact .inr fun hnil => hfree ⟨not_lt.1 hpos, hnil⟩
      · rw [(hal x hx).refcnt]
        exact h.used x

/-! ## Passes -/

/-- The chain of the header that is held changes, with as many records in all. -/
theorem Counted.setChain (h : Counted v s [a] L F) {c : List Filock} {n : ℕ}
    (hn : c.length + n = (s.chain a).length + s.nfrlock) :
    Counted v { setChain a c s with nfrlock := n } [a] L F := by
  have ha : a ∈ L := h.mem_of_busy List.mem_cons_self
  have hself : Table.chain { Headers.setChain a c s with nfrlock := n } a = c := by
    rw [Table.chain, Headers.setChain, setFlino_self]
  refine h.change ha (sameLinks_setFlino rfl rfl) rfl rfl ?_ ?_ (fun x hx => ?_) (fun x => rfl)
    ?_ ?_
  · funext x
    by_cases hx : x = a
    · rw [hx, Table.file, Headers.setChain, setFlino_self, Table.file]
    · exact (alike_setFlino s _ hx).file
  · funext x
    by_cases hx : x = a
    · rw [hx, Table.refcnt, Headers.setChain, setFlino_self, Table.refcnt]
    · exact (alike_setFlino s _ hx).refcnt
  · exact (alike_setFlino s _ hx).chain
  · simp
  · rw [hself]
    dsimp only [Headers.setChain, Table.setFlino]
    omega

/-- A call that returns lets its header go. -/
theorem Counted.ret (h : Counted v s [a] L F) (rv : Option Errno) :
    ∃ L' F', Counted v (endPass a (s, .ret rv)) [] L' F' :=
  h.freefid

theorem Counted.adjust (h : Counted v s [a] L F) (pid : ℤ) (ld : Flock) (insrt : ℕ) :
    ∃ L' F', Counted v (endPass a (adjust pid a ld insrt s)) [] L' F' :=
  (h.setChain (flckadj_count pid (s.chain a) s.nfrlock insrt ld)).ret _

/-- A call that goes to sleep on the header keeps it, and has a record of its own. -/
theorem Counted.sleep (h : Counted v s [a] L F) {c : List Filock} {n : ℕ} {w : Waiter}
    (hc : c.length = (s.chain a).length) (hn : s.nfrlock = n + 1) (hw : w.flip = a) :
    Counted v { Headers.setChain a c s with nfrlock := n, sleeplcks := w :: s.sleeplcks }
      [] L F := by
  obtain ⟨t, ht⟩ : ∃ t, t = { Headers.setChain a c s with nfrlock := s.nfrlock } := ⟨_, rfl⟩
  have h₁ : Counted v t [a] L F := ht ▸ h.setChain (by rw [hc])
  refine h₁.change (h.mem_of_busy List.mem_cons_self) (ht ▸ ⟨rfl, rfl⟩) (ht ▸ rfl) (ht ▸ rfl)
    (ht ▸ rfl) (ht ▸ rfl) (fun x hx => ht ▸ rfl) (fun x => ?_) ?_ ?_
  · have hasleep : t.asleep x = s.asleep x := ht ▸ rfl
    rw [hasleep, Table.asleep, Table.asleep, List.countP_cons, List.count_nil,
      List.count_singleton, hw]
    by_cases hx : x = a
    · rw [if_pos (by simpa using hx.symm), if_pos (by simpa using hx.symm)]
    · rw [if_neg (by simpa using Ne.symm hx), if_neg (by simpa using Ne.symm hx)]
  · rw [Table.asleep, List.countP_cons, hw]
    simp
  · have hchain : Table.chain { Headers.setChain a c s with
        nfrlock := n, sleeplcks := w :: s.sleeplcks } a = t.chain a := ht ▸ rfl
    rw [hchain, ht]
    dsimp only [Headers.setChain, Table.setFlino]
    rw [List.length_cons]
    omega

/-- A pass ends with its header let go, or asleep on it. -/
theorem Counted.pass {slpflg : Bool} {r : Table × Outcome} (h : Counted v s [a] L F)
    (hr : pass pid id a ld slpflg s = some r) : ∃ L' F', Counted v (endPass a r) [] L' F' := by
  have hlock : ∀ r, lockPass pid id a ld slpflg s = some r →
      ∃ L' F', Counted v (endPass a r) [] L' F' := by
    intro r hr
    rw [lockPass] at hr
    dsimp only at hr
    split at hr
    · exact Option.some.inj hr ▸ h.adjust ..
    · by_cases hslp : slpflg = true
      · rw [if_pos hslp] at hr
        split at hr
        · exact absurd hr.symm (Option.some_ne_none _)
        · exact Option.some.inj hr ▸ h.ret _
        · exact Option.some.inj hr ▸ h.ret _
        · rename_i hfree
          obtain rfl := Option.some.inj hr
          refine ⟨L, F, h.sleep ?_ hfree rfl⟩
          rw [wakeflgUp, List.length_modify]
          rfl
      · rw [if_neg hslp] at hr
        exact Option.some.inj hr ▸ h.ret _
  rw [Headers.pass.eq_def] at hr
  cases hty : ld.l_type with
  | rdlck =>
    rw [hty] at hr
    exact hlock r hr
  | wrlck =>
    rw [hty] at hr
    exact hlock r hr
  | unlck =>
    rw [hty] at hr
    exact Option.some.inj hr ▸ h.adjust ..
  | other n =>
    rw [hty] at hr
    exact Option.some.inj hr ▸ h.ret _

/-- After a pass that has an end. -/
theorem Counted.map_pass {slpflg : Bool} (h : Counted v s [a] L F)
    (hn : (Headers.pass pid id a ld slpflg s).map (endPass a) = some t) :
    ∃ L' F', Counted v t [] L' F' := by
  obtain ⟨r, hr, rfl⟩ := Option.map_eq_some_iff.1 hn
  exact h.pass hr

/-! ## Calls -/

theorem Counted.setflck {fp : File} {lckdat : Flock} {slpflg : Bool} (h : Counted v s [] L F)
    (hn : setflck v pid fp lckdat slpflg s = some t) : ∃ L' F', Counted v t [] L' F' := by
  rw [Headers.setflck.eq_def] at hn
  cases hq : request fp lckdat with
  | error e =>
    rw [hq] at hn
    exact ⟨L, F, Option.some.inj hn ▸ h⟩
  | ok ld =>
    rw [hq] at hn
    dsimp only at hn
    rcases h.findfid fp.id with ⟨hnone, hno⟩ | ⟨a, ha, hsome, h₁⟩
    · rw [hnone, Option.bind_some] at hn
      dsimp only at hn
      by_cases hty : ld.l_type = .unlck
      · rw [if_pos hty] at hn
        exact ⟨L, F, Option.some.inj hn ▸ h⟩
      rw [if_neg hty] at hn
      rcases h.allocfid hno with halloc | ⟨a, s₁, L', F', halloc, h₁⟩
      · rw [halloc] at hn
        exact ⟨L, F, Option.some.inj hn ▸ h⟩
      · rw [halloc] at hn
        exact h₁.map_pass hn
    · rw [hsome, Option.bind_some] at hn
      exact h₁.map_pass hn

/-- A call that wakes up has its header held again, and gives back its record. -/
theorem Counted.wake {k : ℕ} {w : Waiter} (h : Counted v s [] L F)
    (hw : s.sleeplcks[k]? = some w) :
    Counted v { s with sleeplcks := s.sleeplcks.eraseIdx k, nfrlock := s.nfrlock + 1 }
      [w.flip] L F := by
  obtain ⟨hk, hget⟩ := List.getElem?_eq_some_iff.1 hw
  have hmem : w ∈ s.sleeplcks := hget ▸ List.getElem_mem hk
  -- who sleeps is the call and the others
  have hperm : (w :: s.sleeplcks.eraseIdx k).Perm s.sleeplcks := by
    rw [← hget]
    exact List.getElem_cons_eraseIdx_perm hk
  have hasleep : ∀ x, (s.sleeplcks.eraseIdx k).countP (fun w => w.flip = x) + [w.flip].count x =
      s.asleep x := fun x => by
    rw [Table.asleep, ← hperm.countP_eq, List.countP_cons, List.count_singleton]
    by_cases hx : w.flip = x
    · rw [if_pos (by simpa using hx), if_pos (by simpa using hx)]
    · rw [if_neg (by simpa using hx), if_neg (by simpa using hx)]
  have hlen := hperm.length_eq
  rw [List.length_cons] at hlen
  refine h.change (h.mem_of_asleep hmem) ⟨rfl, rfl⟩ rfl rfl rfl rfl (fun _ _ => rfl)
    (fun x => hasleep x) ?_ ?_
  · simp
  · have hchain : Table.chain { s with
        sleeplcks := s.sleeplcks.eraseIdx k, nfrlock := s.nfrlock + 1 } w.flip =
        s.chain w.flip := rfl
    rw [hchain]
    dsimp only
    omega

theorem Counted.resume {k : ℕ} {intr : Bool} (h : Counted v s [] L F)
    (hn : resume k intr s = some t) : ∃ L' F', Counted v t [] L' F' := by
  obtain ⟨w, hw, hn⟩ := Option.bind_eq_some_iff.1 hn
  have h₁ := h.wake hw
  dsimp only at hn
  by_cases hi : intr = true
  · rw [if_pos hi] at hn
    exact Option.some.inj hn ▸ h₁.freefid
  · rw [if_neg hi] at hn
    exact h₁.map_pass hn

theorem Counted.cleanlocks {fp : File} (h : Counted v s [] L F)
    (hn : cleanlocks v pid fp s = some t) : ∃ L' F', Counted v t [] L' F' := by
  rw [Headers.cleanlocks.eq_def] at hn
  by_cases hv : (fp.isVnode && fp.isSvfs) = true
  · rw [if_pos hv] at hn
    rcases h.findfid fp.id with ⟨hnone, -⟩ | ⟨a, -, hsome, h₁⟩
    · rw [hnone] at hn
      exact ⟨L, F, Option.some.inj hn ▸ h⟩
    · rw [hsome] at hn
      obtain rfl := Option.some.inj hn
      have hle := List.length_filter_le (fun f : Filock => decide (f.set.l_pid ≠ pid))
        ((hold a s).chain a)
      have hcount : (((hold a s).chain a).filter fun f => f.set.l_pid ≠ pid).length +
          ((hold a s).nfrlock + (((hold a s).chain a).length -
            (((hold a s).chain a).filter fun f => f.set.l_pid ≠ pid).length)) =
          ((hold a s).chain a).length + (hold a s).nfrlock := by omega
      exact (h₁.setChain hcount).freefid
  · rw [if_neg hv] at hn
    exact ⟨L, F, Option.some.inj hn ▸ h⟩

/-- The request can be converted, if the file has a header. -/
def Converts (v : Config) (s : Table) : Act → Prop
  | .getflck _ fp lckdat => fp.isVnode = true → fp.isSvfs = true →
    findLoop fp.id s v.fils s.fids ≠ some none → ∃ ld, convoff fp lckdat 0 = .ok ld
  | _ => True

theorem Counted.getflck {fp : File} {lckdat : Flock} (h : Counted v s [] L F)
    (hc : Converts v s (.getflck pid fp lckdat))
    (hn : (getflck v pid fp lckdat s).map Prod.fst = some t) : ∃ L' F', Counted v t [] L' F' := by
  rw [Headers.getflck.eq_def] at hn
  cases hv : fp.isVnode with
  | false =>
    rw [hv] at hn
    exact ⟨L, F, Option.some.inj hn ▸ h⟩
  | true =>
    cases hs : fp.isSvfs with
    | false =>
      rw [hv, hs] at hn
      exact ⟨L, F, Option.some.inj hn ▸ h⟩
    | true =>
      rw [hv, hs] at hn
      rcases h.findfid fp.id with ⟨hnone, -⟩ | ⟨a, -, hsome, h₁⟩
      · rw [hnone] at hn
        exact ⟨L, F, Option.some.inj hn ▸ h⟩
      · have hfound : findLoop fp.id s v.fils s.fids ≠ some none := fun he => by
          rw [Headers.findfid, he] at hsome
          exact Option.some_ne_none a (congrArg Prod.fst (Option.some.inj hsome)).symm
        obtain ⟨ld, hld⟩ := hc hv hs hfound
        rw [hsome] at hn
        have ht := Option.some.inj hn
        dsimp only at ht
        rw [hld] at ht
        exact ht ▸ h₁.freefid

/-- In every run in which `getflck` can convert the requests for files with headers, each header
    is on one list, counts the calls at work on it, and is in use if there are any or it has
    records; no file has two headers in use, and no record is lost. -/
theorem counted_of_converts (hs : (headers v).ReachableIf (Converts v) s) :
    ∃ L F, Counted v s [] L F := by
  refine hs.invariant (P := fun s => ∃ L F, Counted v s [] L F) (fun s hi => ?_)
    fun s a t h hc hn => ?_
  · obtain ⟨hflino, hfids, ⟨F, hperm, hhead, hlinks⟩, hrecs, hsleep⟩ := hi
    refine ⟨[], F, ⟨trivial, hfids, hlinks, hhead, hperm⟩, fun a => ?_, fun a => ?_, ?_, ?_⟩
    · rw [Table.refcnt, (hflino a).1, Table.asleep, hsleep]
      rfl
    · rw [Table.refcnt, Table.chain, (hflino a).1, (hflino a).2]
      simp
    · exact fun a ha => absurd ha List.not_mem_nil
    · rw [Table.records, hsleep, hrecs]
      have hzero : ∑ a ∈ Finset.range v.fils, (s.chain a).length = 0 :=
        Finset.sum_eq_zero fun a _ => by rw [Table.chain, (hflino a).2, List.length_nil]
      rw [hzero]
      simp
  · obtain ⟨L, F, h⟩ := h
    cases a with
    | setflck pid fp lckdat slpflg => exact h.setflck hn
    | resume k intr => exact h.resume hn
    | getflck pid fp lckdat => exact h.getflck hc hn
    | cleanlocks pid fp => exact h.cleanlocks hn

/-! ## A header that is not let go -/

/-- One header and two records. -/
def oneHeader : Config := ⟨1, 2⟩

/-- All is free. -/
def noLocks : Table where
  flinotab := fun _ => ⟨0, 0, 0, [], none, none⟩
  fids := none
  frfid := some 0
  nfrlock := 2
  sleeplcks := []

theorem noLocks_init : (headers oneHeader).init noLocks :=
  ⟨fun _ => ⟨rfl, rfl⟩, rfl, ⟨[0], .refl _, rfl, rfl, rfl, trivial⟩, rfl, rfl⟩

/-- A process locks ten bytes of a file. -/
def locksTen : Act := .setflck 1 anyFile (ask .wrlck 10 10) false

theorem counted_locksTen : ∃ s, (headers oneHeader).run noLocks [locksTen] = some s ∧
    ∃ L F, Counted oneHeader s [] L F := by
  obtain ⟨s, hs⟩ := Option.isSome_iff_exists.1
    (show ((headers oneHeader).run noLocks [locksTen]).isSome = true by decide)
  refine ⟨s, hs, counted_of_converts
    (Machine.reachableIf_run (.init noLocks_init) (fun a ha s => ?_) hs)⟩
  rw [List.mem_singleton.1 ha]
  trivial

/-- A request with a bad `l_whence` leaves the header of the file held by nobody. -/
theorem not_counted :
    ¬∀ v s, (headers v).Reachable s → ∃ L F, Counted v s [] L F := by
  intro hall
  have hx : ((headers oneHeader).run noLocks [locksTen,
      .getflck 2 anyFile { ask .wrlck 10 10 with l_whence := 7 }]).map (fun s =>
        (s.refcnt 0, s.asleep 0)) = some (1, 0) := by decide
  obtain ⟨s, hs, hx⟩ := Option.map_eq_some_iff.1 hx
  obtain ⟨hcnt, hasleep⟩ := Prod.mk.inj hx
  obtain ⟨L, F, h⟩ := hall oneHeader s (Machine.reachableIf_run (.init noLocks_init)
    (fun _ _ _ => trivial) hs)
  have hzero := h.refcnt 0
  rw [hcnt, hasleep] at hzero
  exact absurd hzero (by decide)

end AuxKernel.RecordLock.Headers
