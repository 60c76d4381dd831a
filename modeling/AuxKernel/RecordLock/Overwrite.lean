import AuxKernel.RecordLock.Bytes
import AuxKernel.RecordLock.Calls

/-!
# Record locks as an overwrite

A request that is granted is written over the locks of the process, byte by byte, and nothing else
changes (`Overwrites`). What may go wrong is the order of the chain: the place of a severed piece is
looked for by the start of the request, so that an unlock puts it before the records that start in
the range of the request (`overwrites_iff`).
-/

namespace AuxKernel.RecordLock

variable {pid : ℤ} {c c' done todo rest : List Filock} {ld : Flock} {nfree insrtp : ℕ}

/-- The chain `c'` is `c` with the request written over the locks of the process `pid`; it is
    ordered by the starts, and the records of the process are disjoint. -/
structure Overwrites (pid : ℤ) (ld : Flock) (c c' : List Filock) : Prop where
  asked : ∀ b t, ld.Asks b → (Held c' pid b t ↔ t = ld.l_type ∧ t ≠ .unlck)
  own : ∀ b t, ¬ld.Asks b → (Held c' pid b t ↔ Held c pid b t)
  others : ∀ q ≠ pid, ∀ b t, Held c' q b t ↔ Held c q b t
  sorted : c'.Pairwise fun f g => f.set.l_start ≤ g.set.l_start
  disjoint : c'.Pairwise fun f g => f.set.l_pid = pid → g.set.l_pid = pid →
    f.set.l_end ≤ g.set.l_start ∨ g.set.l_end ≤ f.set.l_start

/-! ## The bytes -/

theorem Held.ne_unlck (h : Ordered c) {q b : ℤ} {t : LockType} (ht : Held c q b t) :
    t ≠ .unlck := by
  obtain ⟨f, hf, -, rfl, -⟩ := ht
  rcases (h.proper f hf).type with ht | ht
  · rw [ht]
    nofun
  · rw [ht]
    nofun

/-- The request, as merged, asks for nothing more that the process does not have. -/
theorem Trims.held_of_asks {ld' : Flock} (h : Trims pid c ld c' ld') (ho : Ordered c) {b : ℤ}
    (hb : ld'.Asks b) (ha : ¬ld.Asks b) (t : LockType) : Held c pid b t ↔ t = ld.l_type := by
  have hheld := (h.grown b hb).resolve_left ha
  exact ⟨fun ht => ht.unique ho hheld, fun ht => ht ▸ hheld⟩

/-- What is in the chain besides the request, as merged, is what the process had outside it. -/
theorem Trims.held_of_not_asks {ld' : Flock} (h : Trims pid c ld c' ld') {b : ℤ}
    (hb : ¬ld'.Asks b) (t : LockType) : Held c' pid b t ↔ Held c pid b t :=
  ⟨h.own b t, fun ht => (h.kept b t ht).resolve_right hb⟩

theorem Trims.asks {ld' : Flock} (h : Trims pid c ld c' ld') {b : ℤ} (hb : ld.Asks b) :
    ld'.Asks b :=
  ⟨h.start_le.trans hb.1, hb.2.trans_le h.le_end⟩

/-- The locks after the request, as merged, was written: those of the request. -/
theorem Trims.overwrites {ld' : Flock} {c'' : List Filock} (h : Trims pid c ld c' ld')
    (ho : Ordered c) (hu : ld.l_type ≠ .unlck)
    (hin : ∀ b t, ld'.Asks b → (Held c'' pid b t ↔ t = ld.l_type))
    (hout : ∀ b t, ¬ld'.Asks b → (Held c'' pid b t ↔ Held c' pid b t)) (b : ℤ) (t : LockType) :
    (ld.Asks b → (Held c'' pid b t ↔ t = ld.l_type ∧ t ≠ .unlck)) ∧
      (¬ld.Asks b → (Held c'' pid b t ↔ Held c pid b t)) := by
  constructor
  · intro hb
    rw [hin b t (h.asks hb)]
    exact ⟨fun ht => ⟨ht, ht ▸ hu⟩, fun ht => ht.1⟩
  · intro hb
    by_cases hb' : ld'.Asks b
    · rw [hin b t hb', h.held_of_asks ho hb' hb t]
    · rw [hout b t hb', h.held_of_not_asks hb']

/-- The locks of a chain that the request was put in. -/
theorem held_insert {r : List Filock × ℕ} {fl : ℕ} (hi : insflck pid c nfree ld fl = some r)
    (q b : ℤ) (t : LockType) :
    Held r.1 q b t ↔ (q = pid ∧ t = ld.l_type ∧ ld.Asks b) ∨ Held c q b t := by
  cases nfree with
  | zero => cases hi
  | succ k =>
    obtain rfl := Option.some.inj hi
    have hmem (f : Filock) : f ∈ c.take fl ++ ⟨{ ld with l_pid := pid }, 0⟩ :: c.drop fl ↔
        f = ⟨{ ld with l_pid := pid }, 0⟩ ∨ f ∈ c := by
      rw [mem_mid, List.take_append_drop]
    constructor
    · rintro ⟨f, hf, hq, ht, hb⟩
      rcases (hmem f).1 hf with rfl | hf
      · exact .inl ⟨hq.symm, ht.symm, hb⟩
      · exact .inr ⟨f, hf, hq, ht, hb⟩
    · rintro (⟨rfl, rfl, hb⟩ | ⟨f, hf, hq, ht, hb⟩)
      · exact ⟨_, (hmem _).2 (.inl rfl), rfl, rfl, hb⟩
      · exact ⟨f, (hmem f).2 (.inr hf), hq, ht, hb⟩

/-- What a request that is granted does to the locks of the bytes. -/
theorem flckadj_held {n : ℕ} (h : OwnInv pid (c.take (insrtp - 1)) (c.drop (insrtp - 1)) ld)
    (hok : flckadj pid c nfree insrtp ld = (c', n, none)) :
    (∀ b t, (ld.Asks b → (Held c' pid b t ↔ t = ld.l_type ∧ t ≠ .unlck)) ∧
      (¬ld.Asks b → (Held c' pid b t ↔ Held c pid b t))) ∧
      ∀ q ≠ pid, ∀ b t, Held c' q b t ↔ Held c q b t := by
  have ho : Ordered c := List.take_append_drop (insrtp - 1) c ▸ h.ordered
  have htrims := adjLoop_trims h nfree insrtp
  rw [List.take_append_drop] at htrims
  rw [flckadj] at hok
  split at hok
  · -- The process has a lock of the type on the whole request.
    rename_i chain m rv heq
    rw [heq] at htrims
    obtain ⟨rfl, -, rfl⟩ : chain = c' ∧ m = n ∧ rv = none := by
      simpa only [Prod.mk.injEq] using hok
    obtain ⟨ld', ht, ho', f, hf, hp, htype, hcov⟩ := htrims
    have hheld (b) (hb : ld'.Asks b) : Held chain pid b ld.l_type :=
      ⟨f, hf, hp, htype.trans ht.type, hcov b hb⟩
    have hu : ld.l_type ≠ .unlck := by
      rw [← ht.type, ← htype]
      rcases (ho'.proper f hf).type with ht | ht
      · rw [ht]
        decide
      · rw [ht]
        decide
    refine ⟨ht.overwrites ho hu (fun b t hb => ?_) fun _ _ _ => Iff.rfl, ht.others⟩
    exact ⟨fun hb' => hb'.unique ho' (hheld b hb), fun he => he ▸ hheld b hb⟩
  · rename_i chain m i ld' heq
    rw [heq] at htrims
    obtain ⟨ht, hfree⟩ := htrims
    have hnot (b t) (hb : ld'.Asks b) : ¬Held chain pid b t := by
      rintro ⟨f, hf, hp, -, hcov⟩
      rcases hfree f hf hp with hle | hle
      · exact (hcov.2.trans_le hle).not_ge hb.1
      · exact (hb.2.trans_le hle).not_ge hcov.1
    by_cases hu : ld'.l_type = .unlck
    · rw [if_pos hu] at hok
      obtain ⟨rfl, -, -⟩ : chain = c' ∧ m = n ∧ _ := by simpa only [Prod.mk.injEq] using hok
      rw [ht.type] at hu
      refine ⟨fun b t => ⟨fun hb => ?_, fun hb => ?_⟩, ht.others⟩
      · exact iff_of_false (hnot b t (ht.asks hb)) fun he => he.2 (he.1.trans hu)
      · refine ht.held_of_not_asks (fun hb' => ?_) t
        exact ((ht.grown b hb').resolve_left hb).ne_unlck ho hu
    · rw [if_neg hu] at hok
      split at hok
      · cases hok
      · rename_i c₁ n₁ hi
        obtain ⟨rfl, -, -⟩ : c₁ = c' ∧ n₁ = n ∧ _ := by simpa only [Prod.mk.injEq] using hok
        have hins := held_insert hi
        rw [ht.type] at hu
        refine ⟨ht.overwrites ho hu (fun b t hb => ?_) fun b t hb => ?_, fun q hq b t => ?_⟩
        · rw [hins, or_iff_left (hnot b t hb), ht.type]
          exact ⟨fun h => h.2.1, fun he => ⟨rfl, he, hb⟩⟩
        · rw [hins]
          exact or_iff_right fun h => hb h.2.2
        · rw [hins, ht.others q hq b t]
          exact or_iff_right fun h => hq h.1

/-! ## The order -/

/-- What comes after a record of the process, or of others, is not severed by the request. -/
theorem severs_of_le {f r : Filock} (h : f.set.l_pid = pid → f.set.l_start < ld.l_end →
    f.set.l_end ≤ ld.l_end) : Severs pid ld f r :=
  fun hp hs he _ => absurd (h hp hs) he.not_ge

/-- Records that start after the request are not severed. -/
theorem pairwise_severs {l : List Filock} (h : ∀ f ∈ l, f.set.l_pid = pid →
    ld.l_end ≤ f.set.l_start) : l.Pairwise (Severs pid ld) := by
  refine List.pairwise_iff_forall_sublist.2 fun {a b} hab => ?_
  have ha : a ∈ l := hab.subset (List.mem_cons_self)
  exact fun hp hs _ _ => absurd (h a ha hp) hs.not_ge

/-- The records after the place of a severed piece start after the request, if the chain is
    ordered. -/
theorem severs_of_insflck {flp r : Filock} {n : ℕ} {chain done' : List Filock}
    (hins : insflck pid (flp :: rest) nfree (severed ld flp) (severAt ld flp rest) =
      some (chain, n))
    (hs : (done' ++ chain.tail).Pairwise fun f g => f.set.l_start ≤ g.set.l_start)
    (hr : r ∈ rest) : Severs pid ld flp r := by
  intro _ _ _ hle
  rw [insflck_severed hins, ← List.append_assoc] at hs
  have hpiece := (List.pairwise_cons.1 (List.pairwise_append.1 hs).2.1).1
  have hdrop : r ∈ rest.drop (passed ld flp rest) := by
    rw [← List.take_append_drop (passed ld flp rest) rest] at hr
    refine (List.mem_append.1 hr).resolve_left fun hr => ?_
    exact (lt_of_mem_passed hr).not_ge hle
  exact hpiece r hdrop

/-- An unlock that leaves the chain ordered severs no piece past another record. -/
theorem adjLoop_severs {n i : ℕ} {ld' : Flock} (h : OwnInv pid done todo ld)
    (hu : ld.l_type = .unlck) (hfin : adjLoop pid done todo nfree insrtp ld = .fin c' n i ld')
    (hs : c'.Pairwise fun f g => f.set.l_start ≤ g.set.l_start) :
    todo.Pairwise (Severs pid ld) := by
  induction todo generalizing done nfree insrtp with
  | nil => exact .nil
  | cons flp rest ih =>
    have hne : ld.l_type ≠ flp.set.l_type := by
      rw [hu]
      rcases h.ordered.mid.type with ht | ht
      · rw [ht]
        nofun
      · rw [ht]
        nofun
    have hafter (hp : flp.set.l_pid = pid) (he : ld.l_end < flp.set.l_end) :
        rest.Pairwise (Severs pid ld) :=
      pairwise_severs fun f hf hf' => he.le.trans (h.own_after hp hf hf')
    generalize hr : adjLoop pid done (flp :: rest) nfree insrtp ld = r at hfin
    cases hr ▸ h.adjCase with
    | stop i he =>
      refine pairwise_severs fun f hf _ => ?_
      rcases List.mem_cons.1 hf with rfl | hf
      · exact he
      · exact he.trans (h.ordered.after hf).1
    | keep i he =>
      refine List.pairwise_cons.2 ⟨fun r _ => severs_of_le fun hp _ => ?_, ?_⟩
      · exact (he hp).le.trans h.lt.le
      · exact ih (h.keep fun hp => (he hp).le) hfin
    | granted hp ht => exact absurd ht hne
    | delete i hp _ he =>
      exact List.pairwise_cons.2 ⟨fun r _ => severs_of_le fun _ _ => he, ih h.delete hfin⟩
    | cut i hp _ hs' hse he =>
      exact List.pairwise_cons.2 ⟨fun r _ => severs_of_le fun _ _ => he,
        ih (h.keepCut hs' hse) hfin⟩
    | mergeStart i hp ht => exact absurd ht hne
    | mergeEnd i hp ht => exact absurd ht hne
    | full => cases hfin
    | sever i n chain hp _ _ _ he hins =>
      obtain ⟨rfl, -⟩ := Scan.fin.inj hfin
      exact List.pairwise_cons.2 ⟨fun r hr => severs_of_insflck hins hs hr, hafter hp he⟩
    | severCut i n chain hp _ _ he hins =>
      obtain ⟨rfl, -⟩ := Scan.fin.inj hfin
      exact List.pairwise_cons.2 ⟨fun r hr => severs_of_insflck hins hs hr, hafter hp he⟩

/-- Where `setflck` starts to adjust the chain: at the first record for an unlock, and for a lock
    where `blocked` says. -/
structure Starts (pid : ℤ) (c : List Filock) (ld : Flock) (i : ℕ) : Prop where
  unlock : ld.l_type = .unlck → i ≤ 1
  lock : ld.l_type ≠ .unlck → blocked pid c ld = (none, i)

theorem Starts.ownInv {i : ℕ} (h : Starts pid c ld i) (ho : Ordered c)
    (hld : ld.l_start < ld.l_end) : OwnInv pid (c.take (i - 1)) (c.drop (i - 1)) ld := by
  refine ⟨by rwa [List.take_append_drop], hld, ?_⟩
  by_cases hu : ld.l_type = .unlck
  · have hi : i - 1 = 0 := Nat.sub_eq_zero_of_le (h.unlock hu)
    rw [hi]
    nofun
  · exact (unblocked_of_blocked hld ho (h.lock hu)).behind

/-- An unlock that is granted and leaves the chain ordered severs no piece past another record. -/
theorem severs_of_flckadj {i n : ℕ} (ho : Ordered c) (hld : ld.l_start < ld.l_end)
    (hi : Starts pid c ld i) (hu : ld.l_type = .unlck)
    (hok : flckadj pid c nfree i ld = (c', n, none))
    (hs : c'.Pairwise fun f g => f.set.l_start ≤ g.set.l_start) : c.Pairwise (Severs pid ld) := by
  have h := hi.ownInv ho hld
  have htrims := adjLoop_trims h nfree i
  rw [flckadj] at hok
  split at hok
  · rename_i chain m rv heq
    rw [heq] at htrims
    obtain ⟨rfl, -, rfl⟩ : chain = c' ∧ m = n ∧ rv = none := by
      simpa only [Prod.mk.injEq] using hok
    obtain ⟨ld', ht, ho', f, hf, -, htype, -⟩ := htrims
    rw [ht.type, hu] at htype
    rcases (ho'.proper f hf).type with ht | ht
    · cases htype.symm.trans ht
    · cases htype.symm.trans ht
  · rename_i chain m j ld' heq
    rw [heq] at htrims
    rw [if_pos (htrims.1.type.trans hu)] at hok
    obtain ⟨rfl, -, -⟩ : chain = c' ∧ m = n ∧ _ := by simpa only [Prod.mk.injEq] using hok
    have hsub := adjLoop_severs h hu heq hs
    have hi' : i - 1 = 0 := Nat.sub_eq_zero_of_le (hi.unlock hu)
    rwa [hi', List.drop_zero] at hsub

theorem Request.ordered_flckadj {i : ℕ} (ho : Ordered c) (hld : Request ld)
    (hi : Starts pid c ld i) (hsev : ld.l_type = .unlck → c.Pairwise (Severs pid ld)) (nfree : ℕ) :
    Ordered (flckadj pid c nfree i ld).1 := by
  by_cases hu : ld.l_type = .unlck
  · exact ordered_unlock ho hld hu (hi.unlock hu) (hsev hu)
  · exact ordered_lock ho hld hu (hi.lock hu)

/-- A granted request is written over the locks of the process, if and only if, as an unlock, it
    severs no piece past another record. -/
theorem flckadj_overwrites {i n : ℕ} (ho : Ordered c) (hld : Request ld) (hi : Starts pid c ld i)
    (hok : flckadj pid c nfree i ld = (c', n, none)) :
    Overwrites pid ld c c' ↔ (ld.l_type = .unlck → c.Pairwise (Severs pid ld)) := by
  constructor
  · intro h hu
    exact severs_of_flckadj ho hld.lt hi hu hok h.sorted
  · intro hsev
    obtain ⟨hown, hothers⟩ := flckadj_held (hi.ownInv ho hld.lt) hok
    have hord := hld.ordered_flckadj ho hi hsev nfree
    rw [hok] at hord
    refine ⟨fun b t => (hown b t).1, fun b t => (hown b t).2, hothers,
      hord.pairwise.imp fun hc => hc.1, hord.pairwise.imp fun hc hp hp' => ?_⟩
    exact hc.2.elim .inl fun hc => absurd (hp.trans hp'.symm) hc.1

/-! ## Calls -/

/-- How a pass of `setflck` returns: it adjusts the chain, or it changes nothing. -/
theorem pass_ret {id : ℤ × ℤ} {slpflg : Bool} {s s' : Locks} {flip : Flino} {rv : Option Errno}
    (hflip : s.flino id = some flip) (hpass : pass pid id ld slpflg s = some (s', .ret rv)) :
    (∃ i, Starts pid flip.fl_flck ld i ∧ (ld.l_type = .rdlck ∨ ld.l_type = .wrlck ∨
      ld.l_type = .unlck) ∧ adjust pid id flip ld i s = (s', .ret rv)) ∨
      s' = s ∧ rv ≠ none ∧ (rv = some .enospc → ld.l_type ≠ .unlck ∧
        (blocked pid flip.fl_flck ld).1 ≠ none) := by
  have hlock (ht : ld.l_type = .rdlck ∨ ld.l_type = .wrlck)
      (hpass : lockPass pid id flip ld slpflg s = some (s', .ret rv)) :
      (∃ i, Starts pid flip.fl_flck ld i ∧ (ld.l_type = .rdlck ∨ ld.l_type = .wrlck ∨
        ld.l_type = .unlck) ∧ adjust pid id flip ld i s = (s', .ret rv)) ∨
        s' = s ∧ rv ≠ none ∧ (rv = some .enospc → ld.l_type ≠ .unlck ∧
          (blocked pid flip.fl_flck ld).1 ≠ none) := by
    have hu : ld.l_type ≠ .unlck := by
      rcases ht with ht | ht
      · rw [ht]
        nofun
      · rw [ht]
        nofun
    rw [lockPass] at hpass
    split at hpass
    · rename_i i hb
      refine .inl ⟨i, ⟨fun h => absurd h hu, fun _ => hb⟩, ?_, Option.some.inj hpass⟩
      exact ht.imp_right .inl
    · rename_i found i hb
      have hb' : (blocked pid flip.fl_flck ld).1 ≠ none := by
        rw [hb]
        exact Option.some_ne_none found
      split_ifs at hpass
      · split at hpass
        · cases hpass
        · cases hpass
          exact .inr ⟨rfl, nofun, nofun⟩
        · cases hpass
          exact .inr ⟨rfl, nofun, fun _ => ⟨hu, hb'⟩⟩
        · cases hpass
      · cases hpass
        exact .inr ⟨rfl, nofun, nofun⟩
  rw [pass, hflip, Option.bind_some] at hpass
  split at hpass
  · rename_i ht
    exact hlock (.inl ht) hpass
  · rename_i ht
    exact hlock (.inr ht) hpass
  · rename_i ht
    refine .inl ⟨_, ⟨fun _ => min_le_left _ _, fun hu => absurd ht hu⟩, .inr (.inr ht),
      Option.some.inj hpass⟩
  · cases hpass
    exact .inr ⟨rfl, nofun, nofun⟩

theorem adjust_eq {id : ℤ × ℤ} {s s' : Locks} {flip : Flino} {rv : Option Errno} {i : ℕ}
    (h : adjust pid id flip ld i s = (s', .ret rv)) :
    ∃ c' n, flckadj pid flip.fl_flck s.nfrlock i ld = (c', n, rv) ∧
      s'.flino id = some { flip with fl_flck := c' } := by
  rw [adjust] at h
  generalize flckadj pid flip.fl_flck s.nfrlock i ld = r at h
  obtain ⟨c', n, rv'⟩ := r
  obtain ⟨rfl, hrv⟩ := Prod.mk.inj h
  obtain rfl := Outcome.ret.inj hrv
  exact ⟨c', n, rfl, Function.update_self ..⟩

/-- A call of `setflck` that succeeds on an ordered chain writes the request over the locks of the
    process, and leaves an ordered chain, if and only if it is not an unlock that severs a piece
    past another record. -/
theorem overwrites_iff {id : ℤ × ℤ} {slpflg : Bool} {s s' : Locks} {flip : Flino}
    (ho : Ordered flip.fl_flck) (hflip : s.flino id = some flip) (hld : ld.l_start < ld.l_end)
    (hpass : pass pid id ld slpflg s = some (s', .ret none)) :
    ∃ flip', s'.flino id = some flip' ∧ (Overwrites pid ld flip.fl_flck flip'.fl_flck ↔
      (ld.l_type = .unlck → flip.fl_flck.Pairwise (Severs pid ld))) := by
  obtain ⟨i, hi, ht, hadj⟩ | ⟨-, hne, -⟩ := pass_ret hflip hpass
  · obtain ⟨c', n, hok, hflip'⟩ := adjust_eq hadj
    exact ⟨_, hflip', flckadj_overwrites ho ⟨hld, ht⟩ hi hok⟩
  · exact absurd rfl hne

instance (a b : Filock) : Decidable (Compat a b) := inferInstanceAs (Decidable (_ ∧ _))

instance (pid : ℤ) (ld : Flock) (f r : Filock) : Decidable (Severs pid ld f r) :=
  inferInstanceAs (Decidable (_ → _))

/-- The record of the process `pid` for the bytes from `start` up to `last`. -/
def record (l_type : LockType) (start last pid : ℤ) : Filock := ⟨⟨l_type, 0, start, last, pid⟩, 0⟩

/-- The lock table with one file, which has a chain, and `nfree` free records. -/
def tableOf (c : List Filock) (nfree : ℕ) : Locks :=
  ⟨fun _ => some ⟨1, c⟩, 1, nfree, []⟩

/-- Process 1 and process 2 have read locks. -/
def readers : List Filock := [record .rdlck 0 100 1, record .rdlck 10 20 2]

theorem ordered_readers : Ordered readers := by
  refine ⟨by decide, fun f hf => ?_⟩
  rcases List.mem_cons.1 hf with rfl | hf
  · exact ⟨by decide, .inl rfl⟩
  · obtain rfl := List.mem_singleton.1 hf
    exact ⟨by decide, .inl rfl⟩

/-- Process 1 unlocks bytes after the lock of process 2. -/
theorem overwrites_iff_readers : ∃ s' flip',
    pass 1 (0, 0) ⟨.unlck, 0, 30, 50, 0⟩ false (tableOf readers 1) = some (s', .ret none) ∧
      s'.flino (0, 0) = some flip' ∧ Overwrites 1 ⟨.unlck, 0, 30, 50, 0⟩ readers flip'.fl_flck := by
  have hret : (pass 1 (0, 0) ⟨.unlck, 0, 30, 50, 0⟩ false (tableOf readers 1)).map
      (fun r => r.2) = some (.ret none) := by decide
  obtain ⟨⟨s', o⟩, hpass, rfl⟩ := Option.map_eq_some_iff.1 hret
  obtain ⟨flip', hflip', hiff⟩ := overwrites_iff ordered_readers rfl (by decide) hpass
  exact ⟨s', flip', hpass, hflip', hiff.2 fun _ => by decide⟩

/-- Process 1 unlocks its bytes up to 50, where the lock of process 2 starts: what is left of its
    lock is put before that. -/
theorem not_overwrites : ∃ s' flip',
    pass 1 (0, 0) ⟨.unlck, 0, 0, 50, 0⟩ false (tableOf readers 1) = some (s', .ret none) ∧
      s'.flino (0, 0) = some flip' ∧ Ordered readers ∧
      ¬Overwrites 1 ⟨.unlck, 0, 0, 50, 0⟩ readers flip'.fl_flck := by
  have hret : (pass 1 (0, 0) ⟨.unlck, 0, 0, 50, 0⟩ false (tableOf readers 1)).map
      (fun r => ((r.1.flino (0, 0)).map fun flip => flip.fl_flck, r.2)) =
        some (some [record .rdlck 50 100 1, record .rdlck 10 20 2], .ret none) := by decide
  obtain ⟨⟨s', o⟩, hpass, hr⟩ := Option.map_eq_some_iff.1 hret
  obtain ⟨hchain, rfl⟩ := Prod.mk.inj hr
  obtain ⟨flip', hflip', hchain⟩ := Option.map_eq_some_iff.1 hchain
  refine ⟨s', flip', hpass, hflip', ordered_readers, fun h => ?_⟩
  have hs := h.sorted
  rw [hchain] at hs
  exact absurd hs (by decide)

/-! ## No free record -/

/-- A request that is refused for want of a record keeps the locks of the process: it has no lock of
    another type that goes on from before the request into it, or such a lock goes on after it too,
    and there is no record for the piece. -/
def Keeps (pid : ℤ) (ld : Flock) (nfree : ℕ) (c : List Filock) : Prop :=
  ∀ f ∈ c, f.set.l_pid = pid → f.set.l_type ≠ ld.l_type → f.set.l_start < ld.l_start →
    ld.l_start < f.set.l_end → nfree = 0 ∧ ld.l_end < f.set.l_end

/-- The locks of the bytes are the same. -/
def SameLocks (c c' : List Filock) : Prop := ∀ q b t, Held c' q b t ↔ Held c q b t

theorem SameLocks.trans {c'' : List Filock} (h : SameLocks c c') (h' : SameLocks c' c'') :
    SameLocks c c'' :=
  fun q b t => (h' q b t).trans (h q b t)

/-- The scan does not run out of records. -/
def Scan.Spare : Scan → Prop
  | ret _ _ rv => rv = none
  | fin _ n _ _ => 1 ≤ n

/-- A scan that runs out of records has not changed the locks of the bytes. -/
def Scan.Same (c : List Filock) : Scan → Prop
  | ret chain _ (some _) => SameLocks c chain
  | ret _ _ none => True
  | fin chain n _ _ => n = 0 → SameLocks c chain

theorem Scan.Spare.same {r : Scan} (h : r.Spare) : r.Same c := by
  match r, h with
  | .ret _ _ none, _ => trivial
  | .fin _ n _ _, hn => exact fun h₀ => absurd h₀ (Nat.one_le_iff_ne_zero.1 hn)

theorem Scan.Same.after {r : Scan} (h : SameLocks c c') (hr : r.Same c') : r.Same c := by
  match r, hr with
  | .ret _ _ none, _ => trivial
  | .ret _ _ (some _), hr => exact h.trans hr
  | .fin _ _ _ _, hr => exact fun h₀ => h.trans (hr h₀)

end AuxKernel.RecordLock
