import AuxKernel.Semaphores.UndoOps

/-!
# The undo table

What holds of the undo structures in all runs (`UndoOk`): the entries of a process are ordered
and not zero, its structure is on the chain of those with entries once if it has any, and no
entry is older than the value of the semaphore that it is for.

`semop` reads its operations anew after it slept, and does not check their semaphores again: it
can make an entry for a semaphore that is not in its set, which no call on the set that has it
removes (`not_undoOk`). Where all operations that are read again are for semaphores in the set
(`InSet`), the table is as it should in all runs (`undoOk`).
-/

namespace AuxKernel.Semaphores.Tables

variable {v : Config} {s : State} {t t' : Tables} {a : Act} {e : Undo} {l : List Undo} {p : ℕ}
  {id id' low high n n' : ℤ} {sp sp' : Semid}

/-- The undo table is as it should. -/
structure UndoOk (v : Config) (s : State) : Prop where
  ordered : ∀ p, Ordered (s.t.entries p)
  range : ∀ p, ∀ e ∈ s.t.entries p, e.un_aoe ≠ 0 ∧ -v.semaem ≤ e.un_aoe ∧ e.un_aoe ≤ v.semaem
  active : ∃ U, s.t.semunp = U.head? ∧ Chained s.t.np U ∧
    ∀ u < v.semmnu, U.count u = if (s.t.semu u).un_cnt > 0 then 1 else 0
  free : ∃ F, s.t.semfup = F.head? ∧ Chained s.t.np F ∧ ∀ u < v.semmnu,
    (F.count u = 1 ↔ ∀ p, s.t.sem_undo p ≠ some u) ∧ F.count u ≤ 1
  current : ∀ p, ∀ e ∈ s.t.entries p, ∃ sp, semconv v s.t e.un_id = some sp ∧
    ¬s.made p e.un_id e.un_num < s.reset (sp.sem_base + e.un_num).toNat

/-- The operations that are read again after a sleep are for semaphores in the set. -/
def InSet (v : Config) (s : State) : Act → Prop
  | .semop c => c.again = true → (semconv v s.t c.semid).all fun sp =>
    c.sops.all fun op => !op.undo || op.sem_num < sp.sem_nsems
  | _ => True

instance (v : Config) (s : State) (a : Act) : Decidable (InSet v s a) :=
  match a with
  | .semop _ => inferInstanceAs (Decidable (_ = _ → _))
  | .eintr .. | .setval .. | .setall .. | .rmid .. | .semget .. | .semexit .. =>
    inferInstanceAs (Decidable True)

/-! ## Sets -/

/-- The sets are in the slots, and have no semaphore in common. -/
structure Sets (v : Config) (t : Tables) : Prop where
  slot : ∀ i, (t.sema i).alloc = true → 0 ≤ i ∧ i < v.semmni
  short : ∀ i, (t.sema i).alloc = true → (t.sema i).sem_nsems ≤ v.semmsl
  disjoint : ∀ i j, (t.sema i).alloc = true → (t.sema j).alloc = true → i ≠ j →
    (t.sema i).sem_base + (t.sema i).sem_nsems ≤ (t.sema j).sem_base ∨
      (t.sema j).sem_base + (t.sema j).sem_nsems ≤ (t.sema i).sem_base

/-- What it means that a set has an identifier. -/
theorem semconv_eq_some (h : semconv v t id = some sp) :
    sp = t.sema (id % v.semmni) ∧ sp.alloc = true ∧ id / v.semmni = sp.seq ∧ 0 ≤ id := by
  rw [semconv] at h
  by_cases hno : id < 0 ∨ ¬(t.sema (id % v.semmni)).alloc = true ∨
      id / v.semmni ≠ (t.sema (id % v.semmni)).seq
  · rw [if_pos hno] at h
    exact absurd h.symm (Option.some_ne_none sp)
  · rw [if_neg hno] at h
    obtain rfl := Option.some.inj h
    obtain ⟨h₁, h₂⟩ := not_or.1 hno
    obtain ⟨h₂, h₃⟩ := not_or.1 h₂
    exact ⟨rfl, not_not.1 h₂, not_not.1 h₃, not_lt.1 h₁⟩

/-- It depends on the slot only. -/
theorem semconv_congr (h : t'.sema (id % v.semmni) = t.sema (id % v.semmni)) :
    semconv v t' id = semconv v t id := by
  rw [semconv, semconv, h]

/-- A slot has one identifier. -/
theorem semconv_slot (h : semconv v t id = some sp) (h' : semconv v t id' = some sp')
    (hslot : id % v.semmni = id' % v.semmni) : id = id' := by
  obtain ⟨rfl, -, hseq, -⟩ := semconv_eq_some h
  obtain ⟨rfl, -, hseq', -⟩ := semconv_eq_some h'
  have hdiv : id / v.semmni = id' / v.semmni := by rw [hseq, hseq', hslot]
  rw [← Int.mul_ediv_add_emod id v.semmni, ← Int.mul_ediv_add_emod id' v.semmni, hdiv, hslot]

/-- A semaphore is in one set. -/
theorem Sets.unique (h : Sets v t) (hsp : semconv v t id = some sp)
    (hsp' : semconv v t id' = some sp') (hn : 0 ≤ n ∧ n < sp.sem_nsems)
    (hn' : 0 ≤ n' ∧ n' < sp'.sem_nsems)
    (he : (sp.sem_base + n).toNat = (sp'.sem_base + n').toNat) : id = id' ∧ n = n' := by
  obtain ⟨heq, halloc, -, -⟩ := semconv_eq_some hsp
  obtain ⟨heq', halloc', -, -⟩ := semconv_eq_some hsp'
  have hslot : id % v.semmni = id' % v.semmni := by
    by_contra hne
    have hdisj := h.disjoint _ _ (heq ▸ halloc) (heq' ▸ halloc') hne
    rw [← heq, ← heq'] at hdisj
    omega
  have hid := semconv_slot hsp hsp' hslot
  have hsame : sp = sp' := by rw [heq, heq', hslot]
  rw [hsame] at he
  exact ⟨hid, by omega⟩

/-! ## Removed entries -/

/-- As the entries are ordered, those of the semaphores are all removed. -/
theorem not_mem_unrm (ho : Ordered l) (he : e ∈ unrm id low high l) :
    ¬(e.un_id = id ∧ low ≤ e.un_num ∧ e.un_num ≤ high) := by
  induction l with
  | nil => exact absurd he List.not_mem_nil
  | cons f l ih =>
    obtain ⟨hf, ho⟩ := List.pairwise_cons.1 ho
    have hbehind : ∀ g ∈ l, f.un_id < g.un_id ∨ f.un_id = g.un_id ∧ f.un_num < g.un_num := hf
    rw [unrm] at he
    by_cases h₁ : id < f.un_id
    · -- all entries from here on are of other sets
      rw [if_pos h₁] at he
      rcases List.mem_cons.1 he with rfl | he
      · omega
      · have := hbehind e he
        omega
    rw [if_neg h₁] at he
    by_cases h₂ : id > f.un_id ∨ low > f.un_num
    · rw [if_pos h₂] at he
      rcases List.mem_cons.1 he with rfl | he
      · omega
      · exact ih ho he
    rw [if_neg h₂] at he
    by_cases h₃ : high < f.un_num
    · -- all entries from here on are of semaphores behind
      rw [if_pos h₃] at he
      rcases List.mem_cons.1 he with rfl | he
      · omega
      · have := hbehind e he
        omega
    · rw [if_neg h₃] at he
      exact ih ho he

/-! ## The invariant -/

/-- An entry is for a semaphore of a set. -/
def For (v : Config) (t : Tables) (e : Undo) (sp : Semid) : Prop :=
  semconv v t e.un_id = some sp ∧ 0 ≤ e.un_num ∧ e.un_num < sp.sem_nsems

/-- What holds in all runs. -/
structure TableInv (v : Config) (s : State) : Prop where
  sound : Sound v s.t
  sets : Sets v s.t
  entry : ∀ p, ∀ e ∈ s.t.entries p, ∃ sp, For v s.t e sp ∧
    ¬s.made p e.un_id e.un_num < s.reset (sp.sem_base + e.un_num).toNat
  past : ∀ i, s.reset i ≤ s.now

theorem Sound.good (h : Sound v t) (p : ℕ) : Good v.toConfig (t.entries p) := by
  obtain ⟨U, F, h⟩ := h
  cases hp : t.sem_undo p with
  | none =>
    rw [Tables.entries_none hp]
    exact .nil _
  | some u =>
    rw [Tables.entries_of hp]
    exact h.good p u hp

/-- A step keeps the invariant if what it does to the semaphore of an entry that was there
    before is not a reset. -/
theorem TableInv.next (h : TableInv v s) (ht : step v s.t a = some t') (hsound : Sound v t')
    (hsets : Sets v t') (hentry : ∀ p, ∀ e ∈ t'.entries p, ∃ sp, For v t' e sp ∧
      (s.t.Has p e.un_id e.un_num → semconv v s.t e.un_id = some sp ∧
        resets v s.t (sp.sem_base + e.un_num).toNat a = false)) :
    ∃ s', (undos v).next s a = some s' ∧ TableInv v s' := by
  refine ⟨_, by dsimp only [undos]; rw [ht, Option.map_some], hsound, hsets, fun p e he => ?_,
    fun i => ?_⟩
  · obtain ⟨sp, hfor, hold⟩ := hentry p e he
    refine ⟨sp, hfor, ?_⟩
    dsimp only
    by_cases hhas : s.t.Has p e.un_id e.un_num
    · obtain ⟨hconv, hno⟩ := hold hhas
      obtain ⟨f, hf, hid, hnum⟩ := hhas
      obtain ⟨sp', hfor', hlt⟩ := h.entry p f hf
      rw [hid, hnum] at hlt
      obtain rfl : sp' = sp := Option.some.inj (hfor'.1.symm.trans (hid ▸ hconv))
      rw [if_pos ⟨f, hf, hid, hnum⟩, hno, if_neg Bool.false_ne_true]
      exact hlt
    · rw [if_neg hhas]
      by_cases hr : resets v s.t (sp.sem_base + e.un_num).toNat a = true
      · rw [if_pos hr]
        exact lt_irrefl _
      · rw [if_neg hr]
        exact not_lt.2 (h.past _)
  · dsimp only
    by_cases hr : resets v s.t i a = true
    · rw [if_pos hr]
      exact Nat.le_succ _
    · rw [if_neg hr]
      exact (h.past i).trans (Nat.le_succ _)

/-- It is enough that the step keeps the sets, and removes entries. -/
theorem TableInv.next_of_subset (h : TableInv v s) (ht : step v s.t a = some t')
    (hsound : Sound v t') (hsema : t'.sema = s.t.sema)
    (hentry : ∀ p, ∀ e ∈ t'.entries p, e ∈ s.t.entries p ∧ ∀ sp, For v s.t e sp →
      resets v s.t (sp.sem_base + e.un_num).toNat a = false) :
    ∃ s', (undos v).next s a = some s' ∧ TableInv v s' := by
  have hconv : ∀ id, semconv v t' id = semconv v s.t id := fun id =>
    semconv_congr (by rw [hsema])
  refine h.next ht hsound ⟨hsema ▸ h.sets.slot, hsema ▸ h.sets.short, hsema ▸ h.sets.disjoint⟩
    fun p e he => ?_
  obtain ⟨hmem, hno⟩ := hentry p e he
  obtain ⟨sp, hfor, -⟩ := h.entry p e hmem
  refine ⟨sp, ⟨(hconv _).trans hfor.1, hfor.2⟩, fun _ => ⟨hfor.1, hno sp hfor⟩⟩

theorem TableInv.init (h : (undos v).init s) : TableInv v s := by
  obtain ⟨-, hsema, hcnt, hundo, hhead, hchain, hfree, hnow, hreset⟩ := h
  have hfree' : ∀ i, ¬(s.t.sema i).alloc = true := fun i => by
    rw [hsema i]
    exact Bool.false_ne_true
  refine ⟨⟨[], List.range v.semmnu, trivial, hhead, hchain, hfree, List.nodup_range,
    fun u hu => List.mem_range.1 hu, ?_, ?_, fun u hu => ?_, ?_, fun u _ => hcnt u, ?_⟩,
    ⟨fun i hi => absurd hi (hfree' i), fun i hi => absurd hi (hfree' i),
      fun i _ hi => absurd hi (hfree' i)⟩, fun p e he => ?_, fun i => ?_⟩
  · exact fun p u hp => absurd (hundo p ▸ hp) nofun
  · exact fun p q u hp => absurd (hundo p ▸ hp) nofun
  · exact iff_of_true (List.mem_range.2 hu) fun p hp => absurd (hundo p ▸ hp) nofun
  · exact fun p u hp => absurd (hundo p ▸ hp) nofun
  · exact fun p u hp => absurd (hundo p ▸ hp) nofun
  · rw [Tables.entries_none (hundo p)] at he
    exact absurd he List.not_mem_nil
  · rw [hreset, hnow]
    exact Nat.zero_le 1

/-! ## Its steps -/

/-- Setting values changes only semaphores. -/
theorem setSems_eq (pid : ℤ) (vals : List ℤ) (i : ℕ) (t : Tables) :
    ∃ sem, setSems pid vals i t = { t with sem := sem } := by
  induction vals generalizing i t with
  | nil => exact ⟨t.sem, rfl⟩
  | cons val vals ih =>
    obtain ⟨sem, hsem⟩ := ih (i + 1) (setSem val pid i t)
    exact ⟨sem, hsem⟩

/-- A semaphore that entries are kept for is not one that is reset. -/
theorem TableInv.other (h : TableInv v s) (hsp : semconv v s.t id = some sp)
    (hn : 0 ≤ n ∧ n < sp.sem_nsems) {spe : Semid} (hfor : For v s.t e spe)
    (hne : ¬(e.un_id = id ∧ e.un_num = n)) :
    (spe.sem_base + e.un_num).toNat ≠ (sp.sem_base + n).toNat := fun he =>
  hne (h.sets.unique hfor.1 hsp hfor.2 hn he)

/-- The entries of the semaphores that are removed. -/
theorem TableInv.unrm (h : TableInv v s) {t : Tables} (hsema : t.sema = s.t.sema)
    (hsemu : t.semu = s.t.semu) (hundo : t.sem_undo = s.t.sem_undo)
    (hhead : t.semunp = s.t.semunp) (hfree : t.semfup = s.t.semfup) (id low high : ℤ) :
    ∃ t', semunrm v id low high t = some t' ∧ Sound v t' ∧ t'.sema = s.t.sema ∧
      ∀ p, ∀ e ∈ t'.entries p, e ∈ s.t.entries p ∧
        ¬(e.un_id = id ∧ low ≤ e.un_num ∧ e.un_num ≤ high) := by
  obtain ⟨U, F, hholds⟩ := h.sound
  obtain ⟨t', U', he, h', hsema', -, hentries⟩ :=
    semunrm_spec (hholds.congr hsemu hundo hhead hfree) id low high
  have hsame : ∀ p, t.entries p = s.t.entries p := fun p => by
    rw [Tables.entries, Tables.entries, hundo, hsemu]
  refine ⟨t', he, ⟨U', F, h'⟩, hsema'.trans hsema, fun p e hmem => ?_⟩
  rw [hentries p, hsame p] at hmem
  exact ⟨(unrm_sublist ..).subset hmem, not_mem_unrm (h.sound.good p).ordered hmem⟩

/-- A step that changes nothing resets nothing. -/
theorem TableInv.same (h : TableInv v s) (ht : step v s.t a = some s.t)
    (hno : ∀ i, resets v s.t i a = false) : ∃ s', (undos v).next s a = some s' ∧ TableInv v s' :=
  h.next_of_subset ht h.sound rfl fun _ _ he => ⟨he, fun _ _ => hno _⟩

theorem TableInv.setval (h : TableInv v s) (pid id : ℤ) (num val : ℕ) :
    ∃ s', (undos v).next s (.setval pid id num val) = some s' ∧ TableInv v s' := by
  cases hsp : semconv v s.t id with
  | none =>
    refine h.same (by rw [step, Tables.setval, hsp]) fun i => ?_
    rw [resets, hsp]
    rfl
  | some sp =>
    by_cases hbad : num ≥ sp.sem_nsems ∨ val > v.semvmx
    · refine h.same (by rw [step, Tables.setval, hsp]; exact if_pos hbad) fun i => ?_
      rw [resets, hsp, Option.any_some, Bool.and_eq_false_iff, Bool.and_eq_false_iff]
      rcases hbad with hbad | hbad
      · exact .inl (.inl (decide_eq_false (not_lt.2 hbad)))
      · exact .inl (.inr (decide_eq_false (not_le.2 hbad)))
    obtain ⟨t', ht', hsound, hsema, hentries⟩ := h.unrm
      (t := setSem val pid (sp.sem_base + num) s.t) rfl rfl rfl rfl rfl id num num
    refine h.next_of_subset (by rw [step, Tables.setval, hsp]; exact (if_neg hbad).trans ht')
      hsound hsema fun p e he => ?_
    obtain ⟨hmem, hne⟩ := hentries p e he
    refine ⟨hmem, fun spe hfor => ?_⟩
    have hother := h.other hsp (n := num) (by omega) hfor fun hk => hne (by omega)
    rw [resets, hsp, Option.any_some, Bool.and_eq_false_iff]
    refine .inr (decide_eq_false fun heq => hother ?_)
    rw [heq]
    omega

/-- What is removed of a whole set. -/
theorem TableInv.unrm_set (h : TableInv v s) (hsp : semconv v s.t id = some sp) :
    ∃ t', semunrm v id 0 sp.sem_nsems s.t = some t' ∧ Sound v t' ∧ t'.sema = s.t.sema ∧
      ∀ p, ∀ e ∈ t'.entries p, e ∈ s.t.entries p ∧ e.un_id ≠ id ∧
        ∀ spe, For v s.t e spe → has sp (spe.sem_base + e.un_num).toNat = false := by
  obtain ⟨t', ht', hsound, hsema, hentries⟩ :=
    h.unrm rfl rfl rfl rfl rfl id 0 sp.sem_nsems
  refine ⟨t', ht', hsound, hsema, fun p e he => ?_⟩
  obtain ⟨hmem, hne⟩ := hentries p e he
  have hid : e.un_id ≠ id := fun hid => by
    obtain ⟨spe, hfor, -⟩ := h.entry p e hmem
    obtain rfl : spe = sp := Option.some.inj (hfor.1.symm.trans (hid ▸ hsp))
    exact hne ⟨hid, hfor.2.1, hfor.2.2.le⟩
  refine ⟨hmem, hid, fun spe hfor => ?_⟩
  rw [has, Bool.and_eq_false_iff, decide_eq_false_iff_not, decide_eq_false_iff_not]
  by_contra hin
  have := h.other hsp (n := (spe.sem_base + e.un_num).toNat - sp.sem_base) (by omega) hfor
    fun hk => hid hk.1
  omega

theorem TableInv.setall (h : TableInv v s) (pid id : ℤ) (vals : List ℕ) :
    ∃ s', (undos v).next s (.setall pid id vals) = some s' ∧ TableInv v s' := by
  cases hsp : semconv v s.t id with
  | none =>
    refine h.same (by rw [step, Tables.setall, hsp]) fun i => ?_
    rw [resets, hsp]
    rfl
  | some sp =>
    by_cases hbad : ((vals.take sp.sem_nsems).any fun val => val > v.semvmx) = true
    · refine h.same (by rw [step, Tables.setall, hsp]; exact if_pos hbad) fun i => ?_
      rw [resets, hsp, Option.any_some, Bool.and_eq_false_iff]
      refine .inl ?_
      obtain ⟨val, hval, hgt⟩ := List.any_eq_true.1 hbad
      rw [List.all_eq_false]
      exact ⟨val, hval, by simpa using hgt⟩
    obtain ⟨t', ht', ⟨U, F, hholds⟩, hsema, hentries⟩ := h.unrm_set hsp
    obtain ⟨sem, hsem⟩ := setSems_eq pid ((vals.take sp.sem_nsems).map (↑)) sp.sem_base t'
    have hstep : step v s.t (.setall pid id vals) = some { t' with sem := sem } := by
      rw [Tables.step, Tables.setall, hsp]
      dsimp only
      rw [if_neg hbad, ht', Option.map_some, hsem]
    refine h.next_of_subset hstep ⟨U, F, hholds.congr rfl rfl rfl rfl⟩ hsema fun p e he => ?_
    · obtain ⟨hmem, -, hno⟩ := hentries p e he
      refine ⟨hmem, fun spe hfor => ?_⟩
      rw [resets, hsp, Option.any_some, hno spe hfor, Bool.and_false]

theorem TableInv.rmid (h : TableInv v s) (id : ℤ) :
    ∃ s', (undos v).next s (.rmid id) = some s' ∧ TableInv v s' := by
  cases hsp : semconv v s.t id with
  | none =>
    refine h.same (by rw [step, Tables.rmid, hsp]) fun i => ?_
    rw [resets, hsp]
    rfl
  | some sp =>
    obtain ⟨t₁, ht₁, ⟨U, F, hholds⟩, hsema, hentries⟩ := h.unrm_set hsp
    obtain ⟨x, hx, hfalse⟩ : ∃ x : Semid, x = { sp with
        alloc := false
        seq := if id + v.semmni < 2 ^ 31 then toUshort (sp.seq + 1) else 0 } ∧
        x.alloc = false := ⟨_, rfl, rfl⟩
    obtain ⟨t', ht'⟩ : ∃ t', t' = { t₁ with
        sem := fun i => if has sp i then ⟨0, 0, 0, 0⟩ else t₁.sem i
        sema := Function.update t₁.sema (id % v.semmni) x } := ⟨_, rfl⟩
    have hkeep : ∀ i, i ≠ id % v.semmni → t'.sema i = s.t.sema i := fun i hi => by
      rw [ht', ← hsema]
      exact Function.update_of_ne hi ..
    have halloc : ∀ i, (t'.sema i).alloc = true → i ≠ id % v.semmni := fun i hi he => by
      rw [ht', he] at hi
      dsimp only at hi
      rw [Function.update_self, hfalse] at hi
      exact Bool.false_ne_true hi
    have hstep : step v s.t (.rmid id) = some t' := by
      rw [Tables.step, Tables.rmid, hsp]
      dsimp only
      rw [ht₁, Option.map_some, ht', hx]
    refine h.next hstep ⟨U, F, hholds.congr (ht' ▸ rfl) (ht' ▸ rfl) (ht' ▸ rfl) (ht' ▸ rfl)⟩
      ⟨fun i hi => ?_, fun i hi => ?_, fun i j hi hj hij => ?_⟩ fun p e he => ?_
    · exact h.sets.slot i (hkeep i (halloc i hi) ▸ hi)
    · rw [hkeep i (halloc i hi)]
      exact h.sets.short i (hkeep i (halloc i hi) ▸ hi)
    · rw [hkeep i (halloc i hi), hkeep j (halloc j hj)]
      exact h.sets.disjoint i j (hkeep i (halloc i hi) ▸ hi) (hkeep j (halloc j hj) ▸ hj) hij
    · have hsame : t'.entries p = t₁.entries p := by
        rw [ht']
        rfl
      obtain ⟨hmem, hid, hno⟩ := hentries p e (hsame ▸ he)
      obtain ⟨spe, hfor, -⟩ := h.entry p e hmem
      have hslot : e.un_id % v.semmni ≠ id % v.semmni := fun hs =>
        hid (semconv_slot hfor.1 hsp hs)
      refine ⟨spe, ⟨(semconv_congr (hkeep _ hslot)).trans hfor.1, hfor.2⟩, fun _ => ⟨hfor.1, ?_⟩⟩
      rw [resets, hsp, Option.any_some, hno spe hfor]

theorem TableInv.semget (h : TableInv v s) {i : ℤ} {base nsems : ℕ}
    (hf : Free v i base nsems s.t) :
    ∃ s', (undos v).next s (.semget i base nsems) = some s' ∧ TableInv v s' := by
  obtain ⟨hi₀, hi₁, hfree, hshort, hdisj⟩ := hf
  obtain ⟨t', ht'⟩ : ∃ t', t' = Tables.semget i base nsems s.t := ⟨_, rfl⟩
  have hself : t'.sema i = { s.t.sema i with
      alloc := true, sem_base := base, sem_nsems := nsems } := by
    rw [ht']
    exact Function.update_self ..
  have hkeep : ∀ j, j ≠ i → t'.sema j = s.t.sema j := fun j hj => by
    rw [ht']
    exact Function.update_of_ne hj ..
  -- the new set has no semaphore of another
  have hnew : ∀ j, j ≠ i → (t'.sema j).alloc = true →
      base + nsems ≤ (t'.sema j).sem_base ∨
        (t'.sema j).sem_base + (t'.sema j).sem_nsems ≤ base := by
    intro j hj halloc
    rw [hkeep j hj] at halloc ⊢
    obtain ⟨hj₀, hj₁⟩ := h.sets.slot j halloc
    obtain ⟨k, rfl⟩ := Int.eq_ofNat_of_zero_le hj₀
    exact hdisj k (by omega) halloc
  obtain ⟨U, F, hholds⟩ := h.sound
  have hstep : step v s.t (.semget i base nsems) = some t' := by
    rw [Tables.step, if_pos ⟨hi₀, hi₁, hfree, hshort, hdisj⟩, ht']
  refine h.next hstep ⟨U, F, hholds.congr (ht' ▸ rfl) (ht' ▸ rfl) (ht' ▸ rfl) (ht' ▸ rfl)⟩
    ⟨fun j hj => ?_, fun j hj => ?_, fun j k hj hk hjk => ?_⟩ fun p e he => ?_
  · by_cases hji : j = i
    · rw [hji]
      exact ⟨hi₀, hi₁⟩
    · exact h.sets.slot j (hkeep j hji ▸ hj)
  · by_cases hji : j = i
    · rw [hji, hself]
      exact hshort
    · rw [hkeep j hji]
      exact h.sets.short j (hkeep j hji ▸ hj)
  · by_cases hji : j = i
    · have hki : k ≠ i := fun he => hjk (hji.trans he.symm)
      rw [hji, hself]
      exact hnew k hki hk
    · by_cases hki : k = i
      · rw [hki, hself]
        exact (hnew j hji hj).symm
      · rw [hkeep j hji, hkeep k hki]
        exact h.sets.disjoint j k (hkeep j hji ▸ hj) (hkeep k hki ▸ hk) hjk
  · have hsame : t'.entries p = s.t.entries p := by
      rw [ht']
      rfl
    obtain ⟨sp, hfor, -⟩ := h.entry p e (hsame ▸ he)
    have hslot : e.un_id % v.semmni ≠ i := fun hs => by
      obtain ⟨rfl, halloc, -, -⟩ := semconv_eq_some hfor.1
      rw [hs, hfree] at halloc
      exact Bool.false_ne_true halloc
    exact ⟨sp, ⟨(semconv_congr (hkeep _ hslot)).trans hfor.1, hfor.2⟩, fun _ => ⟨hfor.1, rfl⟩⟩

theorem TableInv.semop (h : TableInv v s) {c : Call} (hin : InSet v s (.semop c)) :
    ∃ s', (undos v).next s (.semop c) = some s' ∧ TableInv v s' := by
  obtain ⟨r, hr, hsound, hkept⟩ := semop_spec h.sound c
  have hconv : ∀ id, semconv v r.2 id = semconv v s.t id := fun id =>
    semconv_congr (by rw [hkept.sema])
  have hstep : step v s.t (.semop c) = some r.2 := by rw [Tables.step, hr, Option.map_some]
  refine h.next hstep hsound
    ⟨hkept.sema ▸ h.sets.slot, hkept.sema ▸ h.sets.short, hkept.sema ▸ h.sets.disjoint⟩
    fun p e he => ?_
  -- an entry with the semaphore of one that was there
  have hold : ∀ q, ∀ f ∈ s.t.entries q, e.un_id = f.un_id → e.un_num = f.un_num →
      ∃ sp, For v r.2 e sp ∧ (s.t.Has p e.un_id e.un_num → semconv v s.t e.un_id = some sp ∧
        resets v s.t (sp.sem_base + e.un_num).toNat (.semop c) = false) := by
    intro q f hf hid hnum
    obtain ⟨sp, hfor, -⟩ := h.entry q f hf
    rw [For, ← hid, ← hnum] at hfor
    exact ⟨sp, ⟨(hconv _).trans hfor.1, hfor.2⟩, fun _ => ⟨hfor.1, rfl⟩⟩
  by_cases hp : p = c.p
  · subst hp
    rcases hkept.keys e he with ⟨sp, hsp, ⟨hid, op, hop, hundo, hnum⟩, hfirst⟩ | ⟨f, hf, hid, hnum⟩
    · have hlt : op.sem_num < sp.sem_nsems := by
        cases hagain : c.again with
        | false => exact hfirst hagain op hop
        | true =>
          have hall := hin hagain
          rw [hsp, Option.all_some, List.all_eq_true] at hall
          simpa [hundo] using hall op hop
      have hshort := v.semmsl_short
      obtain ⟨heq, halloc, -, -⟩ := semconv_eq_some hsp
      have hmsl : sp.sem_nsems ≤ v.semmsl := heq ▸ h.sets.short _ (heq ▸ halloc)
      have hnum' : e.un_num = op.sem_num := hnum.trans (toShort_of_mem (by omega) (by omega))
      refine ⟨sp, ⟨?_, by omega, by omega⟩, fun _ => ⟨hid ▸ hsp, rfl⟩⟩
      rw [hconv, hid, hsp]
    · exact hold c.p f hf hid hnum
  · exact hold p e (hkept.other p hp ▸ he) rfl rfl

theorem TableInv.semexit (h : TableInv v s) (p : ℕ) :
    ∃ s', (undos v).next s (.semexit p) = some s' ∧ TableInv v s' := by
  obtain ⟨U, F, hholds⟩ := h.sound
  obtain ⟨t', U', F', ht', h', hsema, hentries⟩ := semexit_spec hholds p
  refine h.next_of_subset (a := .semexit p) ht' ⟨U', F', h'⟩ hsema fun q e he => ?_
  rw [hentries q] at he
  by_cases hq : q = p
  · rw [if_pos hq] at he
    exact absurd he List.not_mem_nil
  · rw [if_neg hq] at he
    exact ⟨he, fun _ _ => rfl⟩

theorem TableInv.eintr (h : TableInv v s) (i : ℕ) (zero : Bool) :
    ∃ s', (undos v).next s (.eintr i zero) = some s' ∧ TableInv v s' :=
  h.next_of_subset (a := .eintr i zero) rfl (h.sound.setSem ..) rfl
    fun _ _ he => ⟨he, fun _ _ => rfl⟩

/-- Every step keeps it, and is a step: no chain is followed too far. -/
theorem TableInv.step (h : TableInv v s) (hin : InSet v s a) :
    (∃ s', (undos v).next s a = some s' ∧ TableInv v s') ∨ ∃ i base nsems,
      a = .semget i base nsems ∧ ¬Free v i base nsems s.t ∧ (undos v).next s a = none := by
  cases a with
  | semop c => exact .inl (h.semop hin)
  | eintr i zero => exact .inl (h.eintr i zero)
  | setval pid id num val => exact .inl (h.setval pid id num val)
  | setall pid id vals => exact .inl (h.setall pid id vals)
  | rmid id => exact .inl (h.rmid id)
  | semget i base nsems =>
    by_cases hf : Free v i base nsems s.t
    · exact .inl (h.semget hf)
    · refine .inr ⟨i, base, nsems, rfl, hf, ?_⟩
      dsimp only [undos]
      rw [Tables.step, if_neg hf, Option.map_none]
  | semexit p => exact .inl (h.semexit p)

/-- The invariant holds in all states that are reached in this way. -/
theorem tableInv (hs : (undos v).ReachableIf (InSet v) s) : TableInv v s := by
  refine hs.invariant (fun _ => TableInv.init) fun s a s' h hin hn => ?_
  rcases h.step hin with ⟨s'', hn', h'⟩ | ⟨-, -, -, -, -, hnone⟩
  · exact Option.some.inj (hn.symm.trans hn') ▸ h'
  · exact absurd (hn.symm.trans hnone) nofun

theorem TableInv.table (h : TableInv v s) : UndoOk v s := by
  obtain ⟨U, F, hholds⟩ := h.sound
  obtain ⟨hndU, hndF, hdisj⟩ := List.nodup_append.1 hholds.nodup
  refine ⟨fun p => (h.sound.good p).ordered, fun p e he => ?_,
    ⟨U, hholds.headU, hholds.active, fun u hu => ?_⟩,
    ⟨F, hholds.headF, hholds.free, fun u hu => ⟨?_, List.nodup_iff_count_le_one.1 hndF u⟩⟩,
    fun p e he => ?_⟩
  · have hok := (h.sound.good p).ok e he
    exact ⟨hok.ne, hok.range⟩
  · by_cases hcnt : (s.t.semu u).un_cnt > 0
    · rw [if_pos hcnt]
      have huF : u ∉ F := fun hF => hcnt.ne' (hholds.zero u hF)
      have hown : ∃ p, s.t.sem_undo p = some u := by
        by_contra hno
        exact huF ((hholds.mem_F u hu).2 fun p hp => hno ⟨p, hp⟩)
      obtain ⟨p, hp⟩ := hown
      exact List.count_eq_one_of_mem hndU ((hholds.mem_U p u hp).2 hcnt.ne')
    · rw [if_neg hcnt]
      refine List.count_eq_zero_of_not_mem fun hU => ?_
      obtain ⟨p, hp⟩ := hholds.owner hU
      exact (hholds.mem_U p u hp).1 hU (Nat.eq_zero_of_not_pos hcnt)
  · rw [← hholds.mem_F u hu]
    constructor
    · intro hone
      by_contra hF
      rw [List.count_eq_zero_of_not_mem hF] at hone
      exact Nat.zero_ne_one hone
    · exact List.count_eq_one_of_mem hndF
  · obtain ⟨sp, hfor, hlt⟩ := h.entry p e he
    exact ⟨sp, hfor.1, hlt⟩

/-- The undo table is as it should in every run in which the operations that are read again
    after a sleep are for semaphores in the set. -/
theorem undoOk (hs : (undos v).ReachableIf (InSet v) s) : UndoOk v s := (tableInv hs).table

/-! ## An entry for a semaphore of another set -/

/-- Two sets, and one undo structure. -/
def twoSets : Config where
  semmni := 2
  semopm := 10
  semume := 10
  semvmx := 10
  semaem := 10
  semmnu := 1
  semmsl := 10
  semvmx_nonneg := by decide
  fits := by decide
  semmsl_short := by decide

/-- No semaphore is used yet. -/
def unused : State where
  t := {
    sema := fun _ => ⟨false, 0, 0, 0⟩
    sem := fun _ => ⟨0, 0, 0, 0⟩
    semu := fun _ => ⟨none, 0, fun _ => ⟨0, 0, 0⟩⟩
    sem_undo := fun _ => none
    semunp := none
    semfup := some 0 }
  now := 1
  made := fun _ _ _ => 0
  reset := fun _ => 0

theorem unused_init : (undos twoSets).init unused :=
  ⟨fun _ => rfl, fun _ => rfl, fun _ => rfl, fun _ => rfl, rfl, ⟨rfl, trivial⟩, rfl, rfl, rfl⟩

theorem short_one : -2 ^ 15 ≤ (1 : ℤ) ∧ (1 : ℤ) < 2 ^ 15 := by decide

theorem short_neg_one : -2 ^ 15 ≤ (-1 : ℤ) ∧ (-1 : ℤ) < 2 ^ 15 := by decide

/-- A process waits for the only semaphore of a set, and then adds to the semaphore `num`, with
    an adjustment when it exits. -/
def waits (num : ℕ) : List Act :=
  [.semget 0 0 1, .semget 1 1 8,
    .semop ⟨0, 7, 0, [⟨0, -1, true, false, short_neg_one⟩], false, fun _ => true, false⟩,
    .semop ⟨0, 7, 0, [⟨num, 1, true, false, short_one⟩], true, fun _ => true, false⟩]

theorem undoOk_waits : ∃ s, (undos twoSets).runIf (InSet twoSets) unused
    (waits 0 ++ [.setval 8 0 0 3, .semexit 0]) = some s ∧ UndoOk twoSets s := by
  obtain ⟨s, hs⟩ : ∃ s, (undos twoSets).runIf (InSet twoSets) unused
      (waits 0 ++ [.setval 8 0 0 3, .semexit 0]) = some s := Option.isSome_iff_exists.1 (by decide)
  exact ⟨s, hs, undoOk (Machine.reachableIf_runIf (.init unused_init) hs)⟩

/-- The entry made for the semaphore 7 of the first set is for the semaphore 6 of the second,
    and is still there when that is reset. -/
theorem not_undoOk : ¬∀ v s, (undos v).Reachable s → UndoOk v s := by
  intro hall
  obtain ⟨s, hs⟩ : ∃ s, (undos twoSets).run unused (waits 7 ++ [.setval 8 1 6 0]) = some s :=
    Option.isSome_iff_exists.1 (by decide)
  have hbad : ∀ s ∈ (undos twoSets).run unused (waits 7 ++ [.setval 8 1 6 0]),
      (∃ e ∈ s.t.entries 0, e.un_id = 0 ∧ e.un_num = 7) ∧
      (semconv twoSets s.t 0 = some ⟨true, 0, 0, 1⟩) ∧ s.made 0 0 7 < s.reset 7 := by decide
  obtain ⟨⟨e, he, hid, hnum⟩, hsp, hlt⟩ := hbad s hs
  obtain ⟨sp, hsp', hnot⟩ := (hall twoSets s (Machine.reachableIf_run (.init unused_init)
    (fun _ _ _ => trivial) hs)).current 0 e he
  rw [hid, hsp] at hsp'
  obtain rfl := Option.some.inj hsp'
  rw [hid, hnum] at hnot
  exact hnot hlt

end AuxKernel.Semaphores.Tables
