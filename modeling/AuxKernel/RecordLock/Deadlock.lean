import AuxKernel.RecordLock.Exclusion
import AuxKernel.WaitFor

/-!
# Deadlock detection

Whether `deadflck` follows a way that ends, and refuses the locks that would close
a cycle of blocked processes, and no others. What it follows is the table of the
sleeping processes: each waits for the process that blocked it when it went to
sleep (`Waits`).

The table never has a cycle, so that its loop ends: an edge is only added after
the loop has come to no record of the new sleeper. But a record stays in the
table until its process runs again, while the lock it waited for may be gone, and
the loop does not ask for that. So it refuses locks that close no cycle
(`not_detects`), unless every record on its way is of a process that is still
blocked (`detects`).
-/

namespace AuxKernel.RecordLock

open Relation WaitFor

/-- The sleeping process `x` waits, by the table, for the process `y`. -/
def Waits (sleeplcks : List Sleeper) (x y : ℤ) : Prop :=
  ∃ sl ∈ sleeplcks, sl.sf.set.l_pid = x ∧ sl.sf.stat = y

/-- The sleeping process `x` is blocked, by now, by a lock of the process `y`. -/
def BlockedBy (s : Locks) (x y : ℤ) : Prop :=
  ∃ sl ∈ s.sleeplcks, sl.sf.set.l_pid = x ∧ ∃ flip, s.flino sl.id = some flip ∧
    ∃ f ∈ flip.fl_flck, f.set.l_pid = y ∧ conflicts x sl.sf.set f

/-- A pass of `setflck`: the process, its file and its request, and the lock table
    at the start of the pass. -/
structure Pass where
  pid : ℤ
  id : ℤ × ℤ
  ld : Flock
  slpflg : Bool
  table : Locks

/-- Make the pass. -/
def Pass.run (p : Pass) : Option (Locks × Outcome) := pass p.pid p.id p.ld p.slpflg p.table

/-- The pass an action comes to, if it gets to the loop of `setflck`. -/
def Act.passOf (s : Locks) : Act → Option Pass
  | .setflck pid fp lckdat slpflg =>
    match request fp lckdat with
    | .error _ => none
    | .ok ld =>
      match findfid s fp.id with
      | some s => some ⟨pid, fp.id, ld, slpflg, s⟩
      | none =>
        if ld.l_type = .unlck then none
        else (allocfid s fp.id).map fun s => ⟨pid, fp.id, ld, slpflg, s⟩
  | .resume k intr =>
    s.sleeplcks[k]?.bind fun sl =>
      if intr then none
      else some ⟨sl.sf.set.l_pid, sl.id, sl.sf.set, true,
        { s with sleeplcks := s.sleeplcks.eraseIdx k, nfrlock := s.nfrlock + 1 }⟩
  | .cleanlocks _ _ => none

/-- A process that makes a call is not asleep. -/
def Act.Awake (s : Locks) : Act → Prop
  | .setflck pid _ _ _ | .cleanlocks pid _ => ∀ sl ∈ s.sleeplcks, sl.sf.set.l_pid ≠ pid
  | .resume _ _ => True

instance (s : Locks) (a : Act) : Decidable (a.Awake s) :=
  match a with
  | .setflck _ _ _ _ | .cleanlocks _ _ => inferInstanceAs (Decidable (∀ sl ∈ s.sleeplcks, _))
  | .resume _ _ => instDecidableTrue

/-- The lock asked for closes a cycle: a process whose lock blocks it is blocked by
    another, and so on up to the process that asks. -/
def Pass.Deadlock (p : Pass) : Prop :=
  ∃ flip, p.table.flino p.id = some flip ∧ ∃ f ∈ flip.fl_flck, conflicts p.pid p.ld f ∧
    ReflTransGen (BlockedBy p.table) f.set.l_pid p.pid

/-- Every process on the way from the owner of the blocking record to the process
    that asks still is blocked by a lock of the process it waits for. -/
def Pass.Fresh (p : Pass) : Prop :=
  ∀ flip found, p.table.flino p.id = some flip → (blocked p.pid flip.fl_flck p.ld).1 = some found →
    ∀ x y, ReflTransGen (Waits p.table.sleeplcks) (ownerOf flip found) x →
      Waits p.table.sleeplcks x y → ReflTransGen (Waits p.table.sleeplcks) y p.pid →
      BlockedBy p.table x y

/-- What the deadlock detection is for, in a state: the table has no cycle, the
    loop ends wherever it starts, and a pass that meets `ok` is only refused if its
    lock would close a cycle of blocked processes. -/
structure Detects (ok : Pass → Prop) (s : Locks) : Prop where
  acyclic : Acyclic (Waits s.sleeplcks)
  ends : ∀ (a : Act) (p : Pass), a.Awake s → a.passOf s = some p →
    ∀ blckpid, deadflck p.table.sleeplcks p.pid blckpid ≠ none
  deadlock : ∀ (a : Act) (p : Pass) (s' : Locks), a.Awake s → a.passOf s = some p → ok p →
    p.run = some (s', .ret (some .edeadlk)) → p.Deadlock

/-- The step of an action that comes to a pass is that pass. -/
theorem next_of_pass {s : Locks} {a : Act} {p : Pass} (h : a.passOf s = some p) :
    locks.next s a = p.run.map (endPass p.id) := by
  cases a with
  | setflck pid fp lckdat slpflg =>
    show setflck pid fp lckdat slpflg s = _
    rw [Act.passOf] at h
    rw [setflck]
    cases hr : request fp lckdat with
    | error e => simp [hr] at h
    | ok ld =>
      simp only [hr] at h ⊢
      cases hf : findfid s fp.id with
      | some t =>
        simp only [hf, Option.some.injEq] at h ⊢
        subst h
        rfl
      | none =>
        simp only [hf] at h ⊢
        by_cases hu : ld.l_type = .unlck
        · simp [hu] at h
        · rw [if_neg hu] at h ⊢
          obtain ⟨t, ht, rfl⟩ := Option.map_eq_some_iff.1 h
          simp only [ht]
          rfl
  | resume k intr =>
    show resume k intr s = _
    obtain ⟨sl, hk, h⟩ := Option.bind_eq_some_iff.1 h
    cases intr with
    | true => simp at h
    | false =>
      obtain rfl := Option.some.inj h
      simp only [resume, hk]
      rfl
  | cleanlocks => cases h

/-! ## What a pass does to the table -/

section Table

variable {s s' : Locks} {id : ℤ × ℤ} {pid : ℤ} {ld : Flock} {slpflg : Bool}

theorem sleeplcks_findfid (h : findfid s id = some s') : s'.sleeplcks = s.sleeplcks := by
  obtain ⟨flip, -, rfl⟩ := Option.map_eq_some_iff.1 h
  rfl

theorem sleeplcks_allocfid (h : allocfid s id = some s') : s'.sleeplcks = s.sleeplcks := by
  rw [allocfid] at h
  cases hn : s.nfrfid with
  | zero => simp [hn] at h
  | succ n =>
    rw [hn] at h
    obtain rfl := Option.some.inj h
    rfl

theorem sleeplcks_freefid : (freefid s id).sleeplcks = s.sleeplcks := by
  rw [freefid]
  cases s.flino id with
  | none => rfl
  | some flip =>
    show (ite _ _ _ : Locks).sleeplcks = _
    rw [apply_ite Locks.sleeplcks]
    exact ite_self _

theorem sleeplcks_endPass {r : Locks × Outcome} :
    (endPass id r).sleeplcks = r.1.sleeplcks := by
  obtain ⟨t, _ | _⟩ := r
  · exact sleeplcks_freefid
  · rfl

/-- How a pass over the header `flip` ends: it has adjusted the chain, it fails
    for something else than a deadlock, it has found a deadlock, or its process
    sleeps. -/
inductive PassEnd (pid : ℤ) (flip : Flino) (ld : Flock) (s : Locks) : Locks × Outcome → Prop
  | adjust (id : ℤ × ℤ) (insrt : ℕ) : PassEnd pid flip ld s (adjust pid id flip ld insrt s)
  | fail {e : Errno} (h : e ≠ .edeadlk) : PassEnd pid flip ld s (s, .ret (some e))
  | deadlock {found : ℕ} (hb : (blocked pid flip.fl_flck ld).1 = some found)
      (hd : deadflck s.sleeplcks pid (ownerOf flip found) = some true) :
      PassEnd pid flip ld s (s, .ret (some .edeadlk))
  | sleep {t : Locks} {sl : Sleeper} {found : ℕ} (ht : t.sleeplcks = sl :: s.sleeplcks)
      (hp : sl.sf.set.l_pid = pid) (hst : sl.sf.stat = ownerOf flip found)
      (hd : deadflck s.sleeplcks pid (ownerOf flip found) = some false) :
      PassEnd pid flip ld s (t, .sleep)

theorem lockPass_cases {flip : Flino} {r : Locks × Outcome}
    (h : lockPass pid id flip ld slpflg s = some r) : PassEnd pid flip ld s r := by
  rw [lockPass] at h
  cases hb : blocked pid flip.fl_flck ld with
  | mk found insrt =>
    cases found with
    | none =>
      rw [hb] at h
      exact Option.some.inj h ▸ .adjust id insrt
    | some found =>
      cases slpflg with
      | false =>
        rw [hb] at h
        exact Option.some.inj h ▸ .fail (by decide)
      | true =>
        simp only [hb, if_true] at h
        cases hd : deadflck s.sleeplcks pid (ownerOf flip found) with
        | none => simp [hd] at h
        | some b =>
          cases b with
          | true =>
            simp only [hd] at h
            exact Option.some.inj h ▸ .deadlock (by rw [hb]) hd
          | false =>
            cases hn : s.nfrlock with
            | zero =>
              simp only [hd, hn] at h
              exact Option.some.inj h ▸ .fail (by decide)
            | succ n =>
              simp only [hd, hn] at h
              obtain rfl := Option.some.inj h
              exact .sleep rfl rfl rfl hd

theorem pass_cases {r : Locks × Outcome} (h : pass pid id ld slpflg s = some r) :
    ∃ flip, s.flino id = some flip ∧ PassEnd pid flip ld s r := by
  obtain ⟨flip, hf, h⟩ := Option.bind_eq_some_iff.1 h
  refine ⟨flip, hf, ?_⟩
  cases ht : ld.l_type with
  | rdlck => exact lockPass_cases (by simpa only [ht] using h)
  | wrlck => exact lockPass_cases (by simpa only [ht] using h)
  | unlck =>
    simp only [ht] at h
    exact Option.some.inj h ▸ .adjust id _
  | other =>
    simp only [ht] at h
    exact Option.some.inj h ▸ .fail (by decide)

/-- A pass leaves the sleepers as they are, or adds its process to them, after the
    detection has come to no record of it. -/
theorem sleeplcks_pass {r : Locks × Outcome} (h : pass pid id ld slpflg s = some r) :
    r.1.sleeplcks = s.sleeplcks ∨ ∃ sl : Sleeper, r.1.sleeplcks = sl :: s.sleeplcks ∧
      sl.sf.set.l_pid = pid ∧ deadflck s.sleeplcks pid sl.sf.stat = some false := by
  obtain ⟨flip, -, h⟩ := pass_cases h
  cases h with
  | adjust => exact .inl rfl
  | fail => exact .inl rfl
  | deadlock => exact .inl rfl
  | sleep ht hp hst hd => exact .inr ⟨_, ht, hp, hst ▸ hd⟩

end Table

theorem sleeplcks_cleanlocks {fp : File} {s : Locks} {pid : ℤ} :
    (cleanlocks pid fp s).sleeplcks = s.sleeplcks := by
  rw [cleanlocks]
  by_cases hv : fp.isVnode && fp.isSvfs
  · rw [if_pos hv]
    cases hf : findfid s fp.id with
    | none => rfl
    | some t =>
      rw [← sleeplcks_findfid hf]
      cases hflip : t.flino fp.id with
      | none => simp only [hflip]
      | some flip => simp only [hflip, sleeplcks_freefid]; rfl
  · rw [if_neg hv]

/-! ## Refusals -/

section Refusal

variable {pid : ℤ} {ld : Flock}

/-- Adjusting a chain only fails for want of a free record. -/
theorem adjLoop_ret {done todo : List Filock} {nfree insrtp : ℕ} {chain : List Filock}
    {n : ℕ} {rv : Option Errno} (h : adjLoop pid done todo nfree insrtp ld = .ret chain n rv) :
    rv = none ∨ rv = some .enospc := by
  fun_induction adjLoop pid done todo nfree insrtp ld <;> grind

theorem flckadj_ret {chain : List Filock} {nfree insrtp : ℕ} :
    (flckadj pid chain nfree insrtp ld).2.2 = none ∨
      (flckadj pid chain nfree insrtp ld).2.2 = some .enospc := by
  rw [flckadj]
  cases h : adjLoop pid (chain.take (insrtp - 1)) (chain.drop (insrtp - 1)) nfree insrtp ld with
  | ret chain n rv => exact adjLoop_ret h
  | fin chain n insrtp ld' =>
    by_cases hu : ld'.l_type = .unlck
    · simp [hu]
    · simp only [if_neg hu]
      cases insflck pid chain n ld' (place chain insrtp ld') <;> simp

theorem blockedTail_some {k found : ℕ} {fs : List Filock}
    (h : blockedTail pid ld k fs = some found) :
    ∃ i f, found = k + i + 1 ∧ fs[i]? = some f ∧ conflicts pid ld f := by
  induction fs generalizing k with
  | nil => exact nomatch h
  | cons f fs ih =>
    rw [blockedTail] at h
    by_cases hc : conflicts pid ld f
    · rw [if_pos hc] at h
      exact ⟨0, f, (Option.some.inj h).symm, rfl, hc⟩
    · rw [if_neg hc] at h
      by_cases he : f.set.l_start > ld.l_end
      · simp [he] at h
      · rw [if_neg he] at h
        obtain ⟨i, g, rfl, hg, hcg⟩ := ih h
        exact ⟨i + 1, g, by omega, hg, hcg⟩

theorem blockedHead_some {k insrt found : ℕ} {fs : List Filock}
    (h : (blockedHead pid ld k insrt fs).1 = some found) :
    ∃ i f, found = k + i + 1 ∧ fs[i]? = some f ∧ conflicts pid ld f := by
  induction fs generalizing k insrt with
  | nil => exact nomatch h
  | cons f fs ih =>
    have hnext {insrt : ℕ} (h : (blockedHead pid ld (k + 1) insrt fs).1 = some found) :
        ∃ i g, found = k + i + 1 ∧ (f :: fs)[i]? = some g ∧ conflicts pid ld g := by
      obtain ⟨i, g, rfl, hg, hcg⟩ := ih h
      exact ⟨i + 1, g, by omega, hg, hcg⟩
    rw [blockedHead] at h
    by_cases hs : f.set.l_start < ld.l_start
    · rw [if_pos hs] at h
      by_cases hp : f.set.l_pid = pid
      · rw [if_pos hp] at h
        by_cases hm : ld.l_start ≤ f.set.l_end ∧ ld.l_end ≥ f.set.l_start
        · rw [if_pos hm] at h
          exact blockedTail_some h
        · rw [if_neg hm] at h
          exact hnext h
      · rw [if_neg hp] at h
        by_cases hc : conflicts pid ld f
        · rw [if_pos hc] at h
          exact ⟨0, f, (Option.some.inj h).symm, rfl, hc⟩
        · rw [if_neg hc] at h
          exact hnext h
    · rw [if_neg hs] at h
      exact blockedTail_some h

/-- The record that blocks a request conflicts with it. -/
theorem conflicts_of_blocked {flip : Flino} {found : ℕ}
    (h : (blocked pid flip.fl_flck ld).1 = some found) :
    ∃ f ∈ flip.fl_flck, conflicts pid ld f ∧ f.set.l_pid = ownerOf flip found := by
  obtain ⟨i, f, rfl, hf, hc⟩ := blockedHead_some h
  refine ⟨f, List.mem_of_getElem? hf, hc, ?_⟩
  rw [ownerOf, show 0 + i + 1 - 1 = i by omega, hf]
  rfl

/-- A pass that is refused for a deadlock: a record blocks it, and the detection
    gets from its owner to the process of the pass. -/
theorem Pass.edeadlk {p : Pass} {s' : Locks} (h : p.run = some (s', .ret (some .edeadlk))) :
    ∃ flip, p.table.flino p.id = some flip ∧ ∃ found,
      (blocked p.pid flip.fl_flck p.ld).1 = some found ∧
      deadflck p.table.sleeplcks p.pid (ownerOf flip found) = some true := by
  obtain ⟨flip, hf, h⟩ := pass_cases h
  generalize hr : (s', Outcome.ret (some .edeadlk)) = r at h
  cases h with
  | adjust id insrt =>
    have hrv := (Outcome.ret.inj (congrArg Prod.snd hr)).symm
    rcases flckadj_ret.imp (hrv.symm.trans ·) (hrv.symm.trans ·) with h | h
    · exact nomatch h
    · exact nomatch h
  | fail he => exact absurd (Option.some.inj (Outcome.ret.inj (congrArg Prod.snd hr))).symm he
  | deadlock hb hd => exact ⟨flip, hf, _, hb, hd⟩
  | sleep => exact nomatch hr

end Refusal

/-! ## The table of the sleepers -/

/-- The invariant of the table: a process sleeps once, and there is no cycle. -/
structure WaitInv (l : List Sleeper) : Prop where
  nodup : (l.map fun sl => sl.sf.set.l_pid).Nodup
  acyclic : Acyclic (Waits l)

/-- The process that the process `pid` waits for, by the first record of it. -/
def blkpid (l : List Sleeper) (pid : ℤ) : Option ℤ :=
  (l.find? fun sl => sl.sf.set.l_pid = pid).map fun sl => sl.sf.stat

theorem deadLoop_eq_walk {l : List Sleeper} {pid b : ℤ} {n : ℕ} :
    deadLoop l pid n b = walk (blkpid l) pid n b := by
  induction n generalizing b with
  | zero => rfl
  | succ n ih =>
    rw [deadLoop, walk, blkpid]
    by_cases hb : b = pid
    · rw [if_pos hb, if_pos hb]
    · rw [if_neg hb, if_neg hb]
      cases l.find? fun sl => sl.sf.set.l_pid = b with
      | none => rfl
      | some sl => exact ih

namespace WaitInv

variable {l l' : List Sleeper} {pid b : ℤ}

theorem edge_iff (h : WaitInv l) {x y : ℤ} : Edge (blkpid l) x y ↔ Waits l x y := by
  constructor
  · intro he
    obtain ⟨sl, hf, hst⟩ := Option.map_eq_some_iff.1 he
    exact ⟨sl, List.mem_of_find?_eq_some hf, by simpa using List.find?_some hf, hst⟩
  · rintro ⟨sl, hsl, hp, hst⟩
    cases hf : l.find? fun sl => sl.sf.set.l_pid = x with
    | none => simpa [hp] using List.find?_eq_none.1 hf sl hsl
    | some sl' =>
      have hp' : sl'.sf.set.l_pid = x := by simpa using List.find?_some hf
      have := List.inj_on_of_nodup_map h.nodup (List.mem_of_find?_eq_some hf) hsl
        (hp'.trans hp.symm)
      rw [Edge, blkpid, hf, this]
      exact congrArg some hst

theorem edge_eq (h : WaitInv l) : Edge (blkpid l) = Waits l :=
  funext fun _ => funext fun _ => propext h.edge_iff

/-- The detection answers whether there is a way by the table. -/
theorem of_deadflck_true (h : WaitInv l) (hd : deadflck l pid b = some true) :
    ReflTransGen (Waits l) b pid := by
  rw [deadflck, deadLoop_eq_walk] at hd
  exact h.edge_eq ▸ walk_true hd

theorem of_deadflck_false (h : WaitInv l) (hd : deadflck l pid b = some false) :
    ¬ReflTransGen (Waits l) b pid := by
  rw [deadflck, deadLoop_eq_walk] at hd
  exact h.edge_eq ▸ walk_false hd

/-- The detection ends. -/
theorem deadflck_ne_none (h : WaitInv l) : deadflck l pid b ≠ none := by
  rw [deadflck, deadLoop_eq_walk]
  refine Acyclic.walk_ne_none (h.edge_eq ▸ h.acyclic)
    (fun x hx => ?_) (show (l.map fun sl => sl.sf.set.l_pid).length < _ by simp)
  obtain ⟨y, hy⟩ := Option.ne_none_iff_exists'.1 hx
  obtain ⟨sl, hsl, rfl, -⟩ := h.edge_iff.1 hy
  exact List.mem_map_of_mem hsl

theorem sublist (h : WaitInv l) (hl : l'.Sublist l) : WaitInv l' where
  nodup := h.nodup.sublist (hl.map _)
  acyclic := h.acyclic.mono fun _ _ ⟨sl, hsl, hw⟩ => ⟨sl, hl.subset hsl, hw⟩

/-- A process goes to sleep where the detection has come to no record of it. -/
theorem cons (h : WaitInv l) {sl : Sleeper} (hp : ∀ sl' ∈ l, sl'.sf.set.l_pid ≠ sl.sf.set.l_pid)
    (hd : deadflck l sl.sf.set.l_pid sl.sf.stat = some false) : WaitInv (sl :: l) where
  nodup := List.nodup_cons.2 ⟨by simpa using hp, h.nodup⟩
  acyclic := (h.acyclic.insert (h.of_deadflck_false hd)).mono fun x y ⟨sl', hsl, hx, hy⟩ => by
    rcases List.mem_cons.1 hsl with rfl | hsl
    · exact .inr ⟨hx.symm, hy.symm⟩
    · exact .inl ⟨sl', hsl, hx, hy⟩

end WaitInv

/-! ## Runs -/

section Runs

variable {s s' : Locks} {a : Act} {p : Pass}

theorem pass_table (h : a.passOf s = some p) (ha : a.Awake s) (hi : WaitInv s.sleeplcks) :
    p.table.sleeplcks.Sublist s.sleeplcks ∧
      ∀ sl ∈ p.table.sleeplcks, sl.sf.set.l_pid ≠ p.pid := by
  cases a with
  | setflck pid fp lckdat slpflg =>
    have hkeep (ht : p.table.sleeplcks = s.sleeplcks) (hp : p.pid = pid) :
        p.table.sleeplcks.Sublist s.sleeplcks ∧
          ∀ sl ∈ p.table.sleeplcks, sl.sf.set.l_pid ≠ p.pid := by
      rw [ht, hp]
      exact ⟨List.Sublist.refl _, ha⟩
    rw [Act.passOf] at h
    cases hr : request fp lckdat with
    | error e => simp [hr] at h
    | ok ld =>
      simp only [hr] at h
      cases hf : findfid s fp.id with
      | some t =>
        simp only [hf, Option.some.injEq] at h
        subst h
        exact hkeep (sleeplcks_findfid hf) rfl
      | none =>
        simp only [hf] at h
        by_cases hu : ld.l_type = .unlck
        · simp [hu] at h
        · rw [if_neg hu] at h
          obtain ⟨t, ht, rfl⟩ := Option.map_eq_some_iff.1 h
          exact hkeep (sleeplcks_allocfid ht) rfl
  | resume k intr =>
    obtain ⟨sl, hk, h⟩ := Option.bind_eq_some_iff.1 h
    cases intr with
    | true => simp at h
    | false =>
      obtain rfl := Option.some.inj h
      obtain ⟨hlt, rfl⟩ := List.getElem?_eq_some_iff.1 hk
      have hperm := (List.getElem_cons_eraseIdx_perm hlt).map fun sl => sl.sf.set.l_pid
      have hnot := (List.nodup_cons.1 (hperm.nodup_iff.2 hi.nodup)).1
      exact ⟨List.eraseIdx_sublist .., fun sl hsl he => hnot (List.mem_map.2 ⟨sl, hsl, he⟩)⟩
  | cleanlocks => exact nomatch h

theorem sleeplcks_of_no_pass (h : a.passOf s = none) (hs : locks.next s a = some s') :
    s'.sleeplcks.Sublist s.sleeplcks := by
  cases a with
  | setflck pid fp lckdat slpflg =>
    replace hs : setflck pid fp lckdat slpflg s = some s' := hs
    rw [Act.passOf] at h
    rw [setflck] at hs
    cases hr : request fp lckdat with
    | error e =>
      simp only [hr, Option.some.injEq] at hs
      exact hs ▸ List.Sublist.refl _
    | ok ld =>
      simp only [hr] at h hs
      cases hf : findfid s fp.id with
      | some t => simp [hf] at h
      | none =>
        simp only [hf] at h hs
        by_cases hu : ld.l_type = .unlck
        · rw [if_pos hu] at hs
          exact Option.some.inj hs ▸ List.Sublist.refl _
        · rw [if_neg hu] at h hs
          rw [Option.map_eq_none_iff.1 h] at hs
          exact Option.some.inj hs ▸ List.Sublist.refl _
  | resume k intr =>
    obtain ⟨sl, hk, hs⟩ := Option.bind_eq_some_iff.1 (show resume k intr s = some s' from hs)
    cases intr with
    | true =>
      obtain rfl := Option.some.inj hs
      rw [sleeplcks_freefid]
      exact List.eraseIdx_sublist ..
    | false => simp [Act.passOf, hk] at h
  | cleanlocks pid fp =>
    obtain rfl := Option.some.inj hs
    rw [sleeplcks_cleanlocks]

theorem waitInv_next (hi : WaitInv s.sleeplcks) (ha : a.Awake s) (hs : locks.next s a = some s') :
    WaitInv s'.sleeplcks := by
  cases hp : a.passOf s with
  | none => exact hi.sublist (sleeplcks_of_no_pass hp hs)
  | some p =>
    obtain ⟨hsub, hpid⟩ := pass_table hp ha hi
    rw [next_of_pass hp] at hs
    obtain ⟨r, hr, rfl⟩ := Option.map_eq_some_iff.1 hs
    rw [sleeplcks_endPass]
    rcases sleeplcks_pass hr with hr | ⟨sl, hr, hsl, hd⟩
    · exact hr ▸ hi.sublist hsub
    · exact hr ▸ (hi.sublist hsub).cons (hsl ▸ hpid) (hsl ▸ hd)

theorem waitInv_of_reachable (hs : locks.ReachableIf (fun s a => a.Awake s) s) :
    WaitInv s.sleeplcks :=
  hs.invariant (fun s h => h.2 ▸ ⟨List.nodup_nil, fun x hx => by
    obtain ⟨_, ⟨sl, hsl, _⟩, _⟩ := TransGen.head'_iff.1 hx
    exact nomatch hsl⟩) fun _ _ _ => waitInv_next

/-- On the way by the table, every process is blocked. -/
theorem Pass.deadlock_of_fresh (hf : p.Fresh) (hi : WaitInv p.table.sleeplcks)
    (h : p.run = some (s', .ret (some .edeadlk))) : p.Deadlock := by
  obtain ⟨flip, hflip, found, hb, hd⟩ := p.edeadlk h
  obtain ⟨f, hmem, hc, hown⟩ := conflicts_of_blocked hb
  refine ⟨flip, hflip, f, hmem, hc, hown ▸ ?_⟩
  exact reflTransGen_of_between (hi.of_deadflck_true hd) fun x y => hf flip found hflip hb x y

/-- In every state of every run, the table has no cycle, the detection ends, and
    where the processes on its way are still blocked, it refuses deadlocks only. -/
theorem detects : ∀ s, locks.ReachableIf (fun s a => a.Awake s) s → Detects Pass.Fresh s := by
  intro s hs
  have hi := waitInv_of_reachable hs
  exact {
    acyclic := hi.acyclic
    ends := fun a p ha hp b => (hi.sublist (pass_table hp ha hi).1).deadflck_ne_none
    deadlock := fun a p s' ha hp hf h =>
      p.deadlock_of_fresh hf (hi.sublist (pass_table hp ha hi).1) h }

end Runs

/-! ## A lock refused for no cycle -/

/-- The processes 1 and 2 have write locks, and process 2 sleeps on that of process 1. -/
def waitActs : List Act :=
  [.setflck 1 anyFile (ask .wrlck 0 10) true, .setflck 2 anyFile (ask .wrlck 20 10) true,
    .setflck 2 anyFile (ask .wrlck 0 10) true]

/-- The detection does so where process 2 sleeps on the lock of process 1. -/
theorem detects_waiting : ∃ s, locks.runIf (fun s a => a.Awake s) emptyLocks waitActs = some s ∧
    Detects Pass.Fresh s := by
  obtain ⟨s, hs⟩ : ∃ s, locks.runIf (fun s a => a.Awake s) emptyLocks waitActs = some s :=
    ⟨_, rfl⟩
  exact ⟨s, hs, detects s (Machine.reachableIf_runIf (.init ⟨fun _ => rfl, rfl⟩) hs)⟩

/-- Then process 1 unlocks its bytes, and before process 2 goes on, it asks for
    those of process 2. -/
def staleActs : List Act := waitActs ++ [.setflck 1 anyFile (ask .unlck 0 10) true]

/-- The lock it asks for. -/
def staleAsk : Act := .setflck 1 anyFile (ask .wrlck 20 10) true

/-- No sleeping process is blocked. -/
def Pass.Unblocked (p : Pass) : Prop :=
  ∀ sl ∈ p.table.sleeplcks, ∀ flip ∈ p.table.flino sl.id, ∀ f ∈ flip.fl_flck,
    ¬conflicts sl.sf.set.l_pid sl.sf.set f

instance (p : Pass) : Decidable p.Unblocked :=
  inferInstanceAs (Decidable (∀ sl ∈ p.table.sleeplcks, ∀ flip ∈ p.table.flino sl.id, _))

theorem Pass.Unblocked.not_deadlock {p : Pass} (h : p.Unblocked) : ¬p.Deadlock := by
  rintro ⟨flip, -, f, -, hc, hp⟩
  rcases hp.cases_head with hp | ⟨y, ⟨sl, hsl, hx, flip', hflip, g, hg, -, hcg⟩, -⟩
  · simp [conflicts, hp] at hc
  · exact h sl hsl flip' hflip g hg (hx ▸ hcg)

/-- A lock is refused though it closes no cycle of blocked processes. -/
theorem not_detects : ¬∀ s, locks.ReachableIf (fun s a => a.Awake s) s →
    Detects (fun _ => True) s := by
  intro h
  have hx : ((locks.runIf (fun s a => a.Awake s) emptyLocks staleActs).bind fun s =>
      (staleAsk.passOf s).map fun p => decide (staleAsk.Awake s ∧ p.Unblocked ∧
        p.run.map Prod.snd = some (.ret (some .edeadlk)))) = some true := by
    decide
  obtain ⟨s, hs, hx⟩ := Option.bind_eq_some_iff.1 hx
  obtain ⟨p, hp, hx⟩ := Option.map_eq_some_iff.1 hx
  obtain ⟨ha, hu, hr⟩ := of_decide_eq_true hx
  obtain ⟨⟨s', _⟩, hr, rfl⟩ := Option.map_eq_some_iff.1 hr
  exact hu.not_deadlock ((h s (Machine.reachableIf_runIf (.init ⟨fun _ => rfl, rfl⟩) hs)).deadlock
    staleAsk p s' ha hp trivial hr)

end AuxKernel.RecordLock
