import AuxKernel.Semaphores.UndoArray

/-!
# The chains of undo structures

The structures with entries are on the chain `semunp`, those of no process on `semfup`, and
those of a process with no entry on neither (`Holds`). The functions that change the chains:

* `unlink_spec`: a structure is taken off the first chain, wherever it is on it;
* `semaoe_spec`: an adjustment is one of `adjust`, and puts the structure on the chain or
  takes it off;
* `semunrm_spec`: what is left of all structures on the chain, which keeps those with entries.
-/

namespace AuxKernel.Semaphores.Tables

variable {v : Config} {s s' t : Tables} {U F U₁ U₂ : List ℕ} {p q u : ℕ} {id num val : ℤ}

/-- The next structure on the chain of a structure. -/
def Tables.np (s : Tables) (u : ℕ) : Option ℕ := (s.semu u).un_np

/-- The chains `U` of the structures with entries, and `F` of the free ones. -/
structure Holds (v : Config) (s : Tables) (U F : List ℕ) : Prop where
  active : Chained s.np U
  headU : s.semunp = U.head?
  free : Chained s.np F
  headF : s.semfup = F.head?
  nodup : (U ++ F).Nodup
  lt : ∀ u ∈ U ++ F, u < v.semmnu
  own : ∀ p u, s.sem_undo p = some u → u < v.semmnu
  inj : ∀ p q u, s.sem_undo p = some u → s.sem_undo q = some u → p = q
  mem_F : ∀ u < v.semmnu, u ∈ F ↔ ∀ p, s.sem_undo p ≠ some u
  mem_U : ∀ p u, s.sem_undo p = some u → (u ∈ U ↔ (s.semu u).un_cnt ≠ 0)
  zero : ∀ u ∈ F, (s.semu u).un_cnt = 0
  good : ∀ p u, s.sem_undo p = some u → Good v.toConfig (s.semu u).entries

/-- It does not depend on the semaphores. -/
theorem Holds.congr (h : Holds v s U F) (hsemu : t.semu = s.semu)
    (hundo : t.sem_undo = s.sem_undo) (hu : t.semunp = s.semunp) (hf : t.semfup = s.semfup) :
    Holds v t U F := by
  have hnp : t.np = s.np := by
    funext u
    rw [Tables.np, Tables.np, hsemu]
  exact ⟨hnp ▸ h.active, hu ▸ h.headU, hnp ▸ h.free, hf ▸ h.headF, h.nodup, h.lt, hundo ▸ h.own,
    hundo ▸ h.inj, hundo ▸ h.mem_F, hundo ▸ hsemu ▸ h.mem_U, hsemu ▸ h.zero,
    hundo ▸ hsemu ▸ h.good⟩

theorem Holds.owner (h : Holds v s U F) (hu : u ∈ U) : ∃ p, s.sem_undo p = some u := by
  have huF : u ∉ F := fun hf =>
    (List.nodup_append.1 h.nodup).2.2 u hu u hf rfl
  by_contra hne
  exact huF ((h.mem_F u (h.lt u (List.mem_append_left F hu))).2 fun p hp => hne ⟨p, hp⟩)

theorem Holds.not_free (h : Holds v s U F) (hp : s.sem_undo p = some u) : u ∉ F := fun hf =>
  (h.mem_F u (h.own p u hp)).1 hf p hp

theorem Tables.entries_of (h : s.sem_undo p = some u) : s.entries p = (s.semu u).entries := by
  rw [Tables.entries, h]
  rfl

theorem Tables.entries_none (h : s.sem_undo p = none) : s.entries p = [] := by
  rw [Tables.entries, h]
  rfl

theorem entries_eq_nil {x : SemUndo} (h : x.un_cnt = 0) : x.entries = [] := by
  rw [SemUndo.entries, h]
  rfl

@[simp] theorem Tables.setUndo_self (s : Tables) (u : ℕ) (x : SemUndo) :
    (s.setUndo u x).semu u = x := Function.update_self ..

theorem Tables.setUndo_ne (s : Tables) (x : SemUndo) (h : q ≠ u) :
    (s.setUndo u x).semu q = s.semu q := Function.update_of_ne h ..

/-- The contents of a structure change, but not its link. -/
theorem Tables.np_setUndo {x : SemUndo} (h : x.un_np = s.np u) : (s.setUndo u x).np = s.np := by
  funext w
  by_cases hw : w = u
  · rw [Tables.np, hw, s.setUndo_self, h]
  · rw [Tables.np, s.setUndo_ne x hw, Tables.np]

/-! ## What an adjustment changes -/

/-- Only the entries of the process `p` changed, and new ones of them are for semaphores `K`. -/
structure Kept (p : ℕ) (K : ℤ → ℤ → Prop) (s s' : Tables) : Prop where
  sema : s'.sema = s.sema
  other : ∀ q, q ≠ p → s'.entries q = s.entries q
  keys : ∀ e ∈ s'.entries p, K e.un_id e.un_num ∨
    ∃ f ∈ s.entries p, e.un_id = f.un_id ∧ e.un_num = f.un_num

theorem Kept.refl (p : ℕ) (K : ℤ → ℤ → Prop) (s : Tables) : Kept p K s s :=
  ⟨rfl, fun _ _ => rfl, fun e he => .inr ⟨e, he, rfl, rfl⟩⟩

theorem Kept.trans {K : ℤ → ℤ → Prop} (h : Kept p K s s') (h' : Kept p K s' t) : Kept p K s t where
  sema := h'.sema.trans h.sema
  other q hq := (h'.other q hq).trans (h.other q hq)
  keys e he := by
    rcases h'.keys e he with hk | ⟨f, hf, hid, hnum⟩
    · exact .inl hk
    · rw [hid, hnum]
      exact h.keys f hf

theorem Kept.mono {K K' : ℤ → ℤ → Prop} (h : Kept p K s s') (hK : ∀ id num, K id num → K' id num) :
    Kept p K' s s' :=
  ⟨h.sema, h.other, fun e he => (h.keys e he).imp_left (hK _ _)⟩

/-- The entries are as they were. -/
theorem Kept.of_entries {K : ℤ → ℤ → Prop} (hsema : s'.sema = s.sema)
    (h : ∀ q, s'.entries q = s.entries q) : Kept p K s s' :=
  ⟨hsema, fun q _ => h q, fun e he => .inr ⟨e, h p ▸ he, rfl, rfl⟩⟩

/-! ## Getting a structure -/

/-- A process that has no undo structure gets the first free one. -/
theorem attach_spec (h : Holds v s U F) (p : ℕ) : attach p s = none ∨ ∃ up s' F',
    attach p s = some (up, s') ∧ Holds v s' U F' ∧ s'.sem_undo p = some up ∧
      s'.sema = s.sema ∧ ∀ q, s'.entries q = s.entries q := by
  rw [attach]
  cases hp : s.sem_undo p with
  | some up => exact .inr ⟨up, s, F, rfl, h, hp, rfl, fun _ => rfl⟩
  | none =>
    cases F with
    | nil =>
      refine .inl ?_
      have hnil : s.semfup = none := h.headF
      rw [hnil]
      rfl
    | cons up F =>
      obtain ⟨hnp, hfree⟩ := h.free
      obtain ⟨hndU, hndF, hdisj⟩ := List.nodup_append.1 h.nodup
      obtain ⟨hupF, hndF⟩ := List.nodup_cons.1 hndF
      have hupU : up ∉ U := fun hu => hdisj up hu up List.mem_cons_self rfl
      have hup : ∀ q, s.sem_undo q ≠ some up :=
        (h.mem_F up (h.lt up (by simp))).1 List.mem_cons_self
      have hsome : s.semfup = some up := h.headF
      have hsub : ∀ x ∈ U ++ F, x ∈ U ++ up :: F := fun x hx => by
        rcases List.mem_append.1 hx with hx | hx
        · exact List.mem_append_left _ hx
        · exact List.mem_append_right _ (List.mem_cons_of_mem up hx)
      rw [hsome, Option.map_some]
      refine .inr ⟨up, _, F, rfl, ?_, Function.update_self .., rfl, fun q => ?_⟩
      · have hkeep : ∀ x, x ≠ up → (s.setNp up none).np x = s.np x := fun x hx => by
          rw [Tables.np, Tables.setNp, s.setUndo_ne _ hx, Tables.np]
        have hcnt : ∀ x, ((s.setNp up none).semu x).un_cnt = (s.semu x).un_cnt ∧
            ((s.setNp up none).semu x).un_ent = (s.semu x).un_ent := fun x => by
          by_cases hx : x = up
          · rw [hx, Tables.setNp, s.setUndo_self]
            exact ⟨rfl, rfl⟩
          · rw [Tables.setNp, s.setUndo_ne _ hx]
            exact ⟨rfl, rfl⟩
        have hent : ∀ x, ((s.setNp up none).semu x).entries = (s.semu x).entries := fun x => by
          rw [entries_eq, entries_eq, (hcnt x).1, (hcnt x).2]
        have hcases : ∀ q w, Function.update s.sem_undo p (some up) q = some w →
            (q = p ∧ w = up) ∨ (q ≠ p ∧ s.sem_undo q = some w) := fun q w hq => by
          by_cases hqp : q = p
          · rw [hqp, Function.update_self] at hq
            exact .inl ⟨hqp, (Option.some.inj hq).symm⟩
          · rw [Function.update_of_ne hqp] at hq
            exact .inr ⟨hqp, hq⟩
        have hzero : (s.semu up).un_cnt = 0 := h.zero up List.mem_cons_self
        refine ⟨h.active.congr fun x hx => hkeep x fun he => hupU (he ▸ hx), h.headU,
          hfree.congr fun x hx => hkeep x fun he => hupF (he ▸ hx), hnp,
          List.nodup_append.2 ⟨hndU, hndF, fun a ha b hb =>
            hdisj a ha b (List.mem_cons_of_mem up hb)⟩,
          fun x hx => h.lt x (hsub x hx), fun q w hq => ?_, fun q r w hq hr => ?_, fun w hw => ?_,
          fun q w hq => ?_, fun w hw => (hcnt w).1.trans (h.zero w (List.mem_cons_of_mem up hw)),
          fun q w hq => ?_⟩
        · rcases hcases q w hq with ⟨-, rfl⟩ | ⟨-, hq⟩
          · exact h.lt w (by simp)
          · exact h.own q w hq
        · rcases hcases q w hq with ⟨hqp, hw⟩ | ⟨-, hsq⟩ <;>
            rcases hcases r w hr with ⟨hrp, hw'⟩ | ⟨-, hsr⟩
          · rw [hqp, hrp]
          · exact absurd (hw ▸ hsr) (hup r)
          · exact absurd (hw' ▸ hsq) (hup q)
          · exact h.inj q r w hsq hsr
        · have hmem := h.mem_F w hw
          constructor
          · intro hwF q hq
            rcases hcases q w hq with ⟨-, rfl⟩ | ⟨-, hq⟩
            · exact hupF hwF
            · exact hmem.1 (List.mem_cons_of_mem up hwF) q hq
          · intro hne
            have hwup : w ≠ up := fun he => hne p (by rw [he]; exact Function.update_self ..)
            refine (List.mem_cons.1 (hmem.2 fun q hq => hne q ?_)).resolve_left hwup
            have hqp : q ≠ p := fun he => by
              rw [he, hp] at hq
              exact absurd hq (Option.some_ne_none w).symm
            exact (Function.update_of_ne hqp ..).trans hq
        · rw [show _ = (s.semu w).un_cnt from (hcnt w).1]
          rcases hcases q w hq with ⟨-, rfl⟩ | ⟨-, hq⟩
          · exact iff_of_false hupU (not_not_intro hzero)
          · exact h.mem_U q w hq
        · rw [show _ = (s.semu w).entries from hent w]
          rcases hcases q w hq with ⟨-, rfl⟩ | ⟨-, hq⟩
          · rw [entries_eq_nil hzero]
            exact .nil v.toConfig
          · exact h.good q w hq
      · by_cases hqp : q = p
        · rw [hqp, Tables.entries_none hp]
          have hzero : (s.semu up).un_cnt = 0 := h.zero up List.mem_cons_self
          rw [Tables.entries_of (u := up) (Function.update_self ..)]
          refine entries_eq_nil ?_
          rw [Tables.setNp, s.setUndo_self]
          exact hzero
        · cases hq : s.sem_undo q with
          | none =>
            rw [Tables.entries_none hq, Tables.entries_none]
            exact (Function.update_of_ne hqp ..).trans hq
          | some w =>
            have hw : w ≠ up := fun he => hup q (he ▸ hq)
            rw [Tables.entries_of hq, Tables.entries_of (u := w)]
            · rw [Tables.setNp, s.setUndo_ne _ hw]
            · exact (Function.update_of_ne hqp ..).trans hq

/-! ## Changing the entries -/

/-- Only the structure `u` got other entries. -/
structure Others (u : ℕ) (s t : Tables) : Prop where
  cnt : ∀ w, w ≠ u → (t.semu w).un_cnt = (s.semu w).un_cnt
  ent : ∀ w, w ≠ u → (t.semu w).un_ent = (s.semu w).un_ent
  sema : t.sema = s.sema
  sem_undo : t.sem_undo = s.sem_undo
  semfup : t.semfup = s.semfup

theorem Others.setUndo (u : ℕ) (x : SemUndo) (s : Tables) : Others u s (s.setUndo u x) where
  cnt w hw := by rw [s.setUndo_ne x hw]
  ent w hw := by rw [s.setUndo_ne x hw]
  sema := rfl
  sem_undo := rfl
  semfup := rfl

theorem Others.trans {u : ℕ} {s s' t : Tables} (h : Others u s s') (h' : Others u s' t) :
    Others u s t where
  cnt w hw := (h'.cnt w hw).trans (h.cnt w hw)
  ent w hw := (h'.ent w hw).trans (h.ent w hw)
  sema := h'.sema.trans h.sema
  sem_undo := h'.sem_undo.trans h.sem_undo
  semfup := h'.semfup.trans h.semfup

theorem Others.entries_eq {w : ℕ} (h : Others u s t) (hw : w ≠ u) :
    (t.semu w).entries = (s.semu w).entries := by
  rw [SemUndo.entries, SemUndo.entries, h.cnt w hw, h.ent w hw]

/-- The structure of a process gets other entries, and gets on or off the chain by that. -/
theorem Holds.setEntries {U' : List ℕ} (h : Holds v s U F) (ho : Others u s t)
    (hp : s.sem_undo p = some u) (hgood : Good v.toConfig (t.semu u).entries)
    (hU : Chained t.np U') (hhead : t.semunp = U'.head?)
    (hmem : ∀ w, w ∈ U' ↔ if w = u then (t.semu u).un_cnt ≠ 0 else w ∈ U) (hnd : U'.Nodup)
    (hnp : ∀ w ∈ F, t.np w = s.np w) : Holds v t U' F := by
  have huF := h.not_free hp
  have hF : ∀ w ∈ F, w ≠ u := fun w hw he => huF (he ▸ hw)
  obtain ⟨hndU, hndF, hdisj⟩ := List.nodup_append.1 h.nodup
  have hsub : ∀ w ∈ U', w = u ∨ w ∈ U := fun w hw => by
    have hw' := (hmem w).1 hw
    by_cases he : w = u
    · exact .inl he
    · rw [if_neg he] at hw'
      exact .inr hw'
  refine ⟨hU, hhead, h.free.congr hnp, ho.semfup ▸ h.headF,
    List.nodup_append.2 ⟨hnd, hndF, fun a ha b hb => ?_⟩, fun w hw => ?_, ho.sem_undo ▸ h.own,
    ho.sem_undo ▸ h.inj, ho.sem_undo ▸ h.mem_F, fun q w hq => ?_, fun w hw => ?_,
    fun q w hq => ?_⟩
  · rcases hsub a ha with rfl | ha
    · exact (hF b hb).symm
    · exact hdisj a ha b hb
  · rcases List.mem_append.1 hw with hw | hw
    · rcases hsub w hw with rfl | hw
      · exact h.own p w hp
      · exact h.lt w (List.mem_append_left F hw)
    · exact h.lt w (List.mem_append_right U hw)
  · rw [ho.sem_undo] at hq
    rw [hmem w]
    by_cases he : w = u
    · rw [if_pos he, he]
    · rw [if_neg he, ho.cnt w he]
      exact h.mem_U q w hq
  · rw [ho.cnt w (hF w hw)]
    exact h.zero w hw
  · rw [ho.sem_undo] at hq
    by_cases he : w = u
    · rw [he]
      exact hgood
    · rw [ho.entries_eq he]
      exact h.good q w hq

/-- The entries of the other processes are as they were. -/
theorem Others.entries (h : Holds v s U F) (ho : Others u s t) (hp : s.sem_undo p = some u) :
    t.entries p = (t.semu u).entries ∧ ∀ q, q ≠ p → t.entries q = s.entries q := by
  refine ⟨Tables.entries_of (ho.sem_undo ▸ hp), fun q hq => ?_⟩
  cases hsq : s.sem_undo q with
  | none => rw [Tables.entries_none hsq, Tables.entries_none (ho.sem_undo ▸ hsq)]
  | some w =>
    have hw : w ≠ u := fun he => hq (h.inj q p u (he ▸ hsq) hp)
    rw [Tables.entries_of hsq, Tables.entries_of (ho.sem_undo ▸ hsq), ho.entries_eq hw]

/-! ## Off the chain -/

/-- The loop finds the structure before `u`, and lets it point behind `u`. -/
theorem unlinkLoop_spec {W : List ℕ} {a n : ℕ} (hc : Chained s.np (a :: W ++ u :: U₂))
    (hnd : (a :: W ++ u :: U₂).Nodup) (hn : W.length < n) :
    ∃ w, (a :: W).getLast? = some w ∧
      unlinkLoop u n (some a) s = some (s.setNp w U₂.head?) := by
  induction W generalizing a n with
  | nil =>
    obtain ⟨n, rfl⟩ := Nat.exists_eq_succ_of_ne_zero (Nat.ne_of_gt hn)
    have hnext : (s.semu a).un_np = some u := hc.1
    have hu : (s.semu u).un_np = U₂.head? := hc.2.1
    exact ⟨a, rfl, by rw [unlinkLoop, if_pos hnext, hu]⟩
  | cons b W ih =>
    obtain ⟨n, rfl⟩ := Nat.exists_eq_succ_of_ne_zero (Nat.ne_of_gt (Nat.zero_lt_of_lt hn))
    have hnext : (s.semu a).un_np = some b := hc.1
    have hbu : b ≠ u := fun he => by
      have hnd' := (List.nodup_cons.1 hnd).2
      rw [he] at hnd'
      exact (List.nodup_cons.1 hnd').1 (by simp)
    obtain ⟨w, hw, hloop⟩ := ih hc.2 (List.nodup_cons.1 hnd).2 (Nat.lt_of_succ_lt_succ hn)
    refine ⟨w, by rwa [List.getLast?_cons_cons], ?_⟩
    rw [unlinkLoop, if_neg fun he => hbu (Option.some.inj (hnext.symm.trans he)), hnext]
    exact hloop

/-- A structure is taken off the chain, wherever it is on it. -/
theorem unlink_spec (hc : Chained s.np (U₁ ++ u :: U₂)) (hnd : (U₁ ++ u :: U₂).Nodup)
    (hh : s.semunp = (U₁ ++ u :: U₂).head?) (hlt : U₁.length ≤ v.semmnu) :
    ∃ s', unlink v u s = some s' ∧ s'.semunp = (U₁ ++ U₂).head? ∧ Chained s'.np (U₁ ++ U₂) ∧
      Others u s s' ∧ ∀ w, w ∉ U₁ → s'.semu w = s.semu w := by
  rw [unlink]
  cases U₁ with
  | nil =>
    have hu : s.semunp = some u := hh
    have hnp : (s.semu u).un_np = U₂.head? := hc.1
    exact ⟨_, if_pos hu, hnp, hc.2, ⟨fun _ _ => rfl, fun _ _ => rfl, rfl, rfl, rfl⟩,
      fun _ _ => rfl⟩
  | cons a W =>
    have ha : s.semunp = some a := hh
    have hau : a ≠ u := fun he => by
      rw [he] at hnd
      exact (List.nodup_cons.1 hnd).1 (by simp)
    obtain ⟨w, hw, hloop⟩ := unlinkLoop_spec hc hnd (n := v.semmnu) hlt
    have hwmem : w ∈ a :: W := List.mem_of_getLast? hw
    rw [if_neg fun he => hau (Option.some.inj (ha.symm.trans he)), ha, hloop]
    refine ⟨_, rfl, ha, ?_, ⟨fun x _ => ?_, fun x _ => ?_, rfl, rfl, rfl⟩, fun x hx => ?_⟩
    · have hset : ∀ x, (s.setNp w U₂.head?).np x = if x = w then U₂.head? else s.np x := by
        intro x
        by_cases hx : x = w
        · rw [if_pos hx, hx, Tables.np, Tables.setNp, s.setUndo_self]
        · rw [if_neg hx, Tables.np, Tables.setNp, s.setUndo_ne _ hx, Tables.np]
      refine hc.remove (List.nodup_append.1 hnd).1 (fun x _ => ?_) fun x hx => ?_
      · rw [hset, hw]
        by_cases hx : x = w
        · rw [if_pos hx, if_pos (congrArg some hx.symm)]
        · rw [if_neg hx, if_neg fun he => hx (Option.some.inj he).symm]
      · rw [hset, if_neg fun he => ?_]
        exact (List.nodup_append.1 hnd).2.2 w hwmem x (List.mem_cons_of_mem u hx) he.symm
    · by_cases hx : x = w
      · rw [hx, Tables.setNp, s.setUndo_self]
      · rw [Tables.setNp, s.setUndo_ne _ hx]
    · by_cases hx : x = w
      · rw [hx, Tables.setNp, s.setUndo_self]
      · rw [Tables.setNp, s.setUndo_ne _ hx]
    · exact s.setUndo_ne _ fun he => hx (he ▸ hwmem)

/-- A structure whose last entries are gone is taken off the chain. -/
theorem Holds.unlink (h : Holds v s U F) (hp : s.sem_undo p = some u)
    (hcnt : (s.semu u).un_cnt ≠ 0) (ho : Others u s t) (hnp : t.np = s.np)
    (hhead : t.semunp = s.semunp) (hzero : (t.semu u).un_cnt = 0) :
    ∃ s' U', unlink v u t = some s' ∧ Holds v s' U' F ∧ Others u s s' ∧
      (s'.semu u).un_cnt = 0 := by
  obtain ⟨hndU, -, hdisj⟩ := List.nodup_append.1 h.nodup
  obtain ⟨U₁, U₂, rfl⟩ := List.append_of_mem ((h.mem_U p u hp).2 hcnt)
  have hmid : u ∉ U₁ ∧ u ∉ U₂ := by
    obtain ⟨-, hnd₂, hd⟩ := List.nodup_append.1 hndU
    exact ⟨fun hu => hd u hu u List.mem_cons_self rfl, (List.nodup_cons.1 hnd₂).1⟩
  have hlen : U₁.length ≤ v.semmnu := by
    refine length_le_of_nodup (List.nodup_append.1 hndU).1 fun w hw => h.lt w ?_
    exact List.mem_append_left F (List.mem_append_left _ hw)
  obtain ⟨s₂, hs₂, hhead₂, hchain, ho₂, hrest⟩ := unlink_spec (v := v) (hnp ▸ h.active) hndU
    (hhead.trans h.headU) hlen
  have hu : (s₂.semu u).un_cnt = 0 := by
    rw [hrest u hmid.1]
    exact hzero
  refine ⟨s₂, U₁ ++ U₂, hs₂, h.setEntries (ho.trans ho₂) hp ?_ hchain hhead₂ (fun w => ?_) ?_
    fun w hw => ?_, ho.trans ho₂, hu⟩
  · rw [entries_eq_nil hu]
    exact .nil v.toConfig
  · by_cases hw : w = u
    · rw [if_pos hw, hw, hu]
      refine iff_of_false (fun hm => ?_) (not_not_intro rfl)
      exact (List.mem_append.1 hm).elim hmid.1 hmid.2
    · rw [if_neg hw]
      simp [hw]
  · exact hndU.sublist (List.Sublist.append_left (List.sublist_cons_self u U₂) U₁)
  · have hwU : w ∉ U₁ := fun hu => hdisj w (List.mem_append_left _ hu) w hw rfl
    rw [Tables.np, hrest w hwU, ← hnp]
    rfl

/-- The link of a structure that is on no chain does not matter. -/
theorem Holds.setNp (h : Holds v s U F) (hU : u ∉ U) (hF : u ∉ F) (x : Option ℕ) :
    Holds v (s.setNp u x) U F := by
  have hself : ∀ w, ((s.setNp u x).semu w).un_cnt = (s.semu w).un_cnt ∧
      ((s.setNp u x).semu w).un_ent = (s.semu w).un_ent := fun w => by
    by_cases hw : w = u
    · rw [hw, Tables.setNp, s.setUndo_self]
      exact ⟨rfl, rfl⟩
    · rw [Tables.setNp, s.setUndo_ne _ hw]
      exact ⟨rfl, rfl⟩
  have hkeep : ∀ w, w ≠ u → (s.setNp u x).np w = s.np w := fun w hw => by
    rw [Tables.np, Tables.setNp, s.setUndo_ne _ hw, Tables.np]
  refine ⟨h.active.congr fun w hw => hkeep w fun he => hU (he ▸ hw), h.headU,
    h.free.congr fun w hw => hkeep w fun he => hF (he ▸ hw), h.headF, h.nodup, h.lt, h.own, h.inj,
    h.mem_F, fun q w hq => ?_, fun w hw => (hself w).1.trans (h.zero w hw), fun q w hq => ?_⟩
  · rw [(hself w).1]
    exact h.mem_U q w hq
  · rw [entries_eq, (hself w).1, (hself w).2, ← entries_eq]
    exact h.good q w hq

/-! ## The cases of an adjustment -/

section Cases

variable {up k : ℕ}

/-- An entry is inserted; the structure gets on the chain if it had none. -/
theorem insert_spec {e : Undo} (h : Holds v s U F) (hp : s.sem_undo p = some up)
    (hk : k ≤ (s.semu up).un_cnt)
    (hgood : Good v.toConfig (slice (s.semu up).un_ent 0 k ++
      e :: slice (s.semu up).un_ent k ((s.semu up).un_cnt - k))) :
    ∃ U', Holds v (insert up k e s) U' F ∧ Others up s (insert up k e s) ∧
      ((insert up k e s).semu up).entries = slice (s.semu up).un_ent 0 k ++
        e :: slice (s.semu up).un_ent k ((s.semu up).un_cnt - k) := by
  obtain ⟨hndU, -, -⟩ := List.nodup_append.1 h.nodup
  have huF := h.not_free hp
  by_cases hzero : (s.semu up).un_cnt = 0
  · have hupU : up ∉ U := fun hu => (h.mem_U p up hp).1 hu hzero
    obtain ⟨s₁, hs₁⟩ : ∃ s₁, s₁ = { s.setNp up s.semunp with semunp := some up } := ⟨_, rfl⟩
    have hself : s₁.semu up = { s.semu up with un_np := s.semunp } := by
      rw [hs₁]
      exact s.setUndo_self ..
    have hne : ∀ w, w ≠ up → s₁.semu w = s.semu w := fun w hw => by
      rw [hs₁]
      exact s.setUndo_ne _ hw
    have hinsert : insert up k e s = s₁.setUndo up { s₁.semu up with
        un_cnt := (s₁.semu up).un_cnt + 1
        un_ent := Function.update (shiftUp k (s₁.semu up).un_cnt (s₁.semu up).un_ent) k e } := by
      rw [insert, if_pos hzero, hs₁]
    have ho₁ : Others up s s₁ := ⟨fun w hw => by rw [hne w hw], fun w hw => by rw [hne w hw],
      hs₁ ▸ rfl, hs₁ ▸ rfl, hs₁ ▸ rfl⟩
    have ho : Others up s (insert up k e s) := by
      rw [hinsert]
      exact ho₁.trans (Others.setUndo ..)
    have hentries : ((insert up k e s).semu up).entries = slice (s.semu up).un_ent 0 k ++
        e :: slice (s.semu up).un_ent k ((s.semu up).un_cnt - k) := by
      rw [hinsert, s₁.setUndo_self, entries_eq, hself]
      exact slice_shiftUp e hk
    have hnp : ∀ w, (insert up k e s).np w = if w = up then s.semunp else s.np w := fun w => by
      have hnp₁ : (insert up k e s).np = s₁.np := by
        rw [hinsert]
        exact Tables.np_setUndo rfl
      rw [hnp₁, Tables.np]
      by_cases hw : w = up
      · rw [if_pos hw, hw, hself]
      · rw [if_neg hw, hne w hw, Tables.np]
    refine ⟨up :: U, h.setEntries ho hp (hentries ▸ hgood) ⟨?_, ?_⟩ ?_ (fun w => ?_)
      (List.nodup_cons.2 ⟨hupU, hndU⟩) fun w hw => ?_, ho, hentries⟩
    · rw [hnp, if_pos rfl, h.headU]
    · refine h.active.congr fun w hw => ?_
      have hne : w ≠ up := fun he => hupU (he ▸ hw)
      rw [hnp, if_neg hne]
    · rw [hinsert, hs₁]
      rfl
    · by_cases hw : w = up
      · rw [if_pos hw, hw, hinsert, s₁.setUndo_self]
        exact iff_of_true List.mem_cons_self (Nat.succ_ne_zero _)
      · rw [if_neg hw]
        simp [hw]
    · have hne : w ≠ up := fun he => huF (he ▸ hw)
      rw [hnp, if_neg hne]
  · have hinsert : insert up k e s = s.setUndo up { s.semu up with
        un_cnt := (s.semu up).un_cnt + 1
        un_ent := Function.update (shiftUp k (s.semu up).un_cnt (s.semu up).un_ent) k e } := by
      rw [insert, if_neg hzero]
    have ho : Others up s (insert up k e s) := by
      rw [hinsert]
      exact Others.setUndo ..
    have hentries : ((insert up k e s).semu up).entries = slice (s.semu up).un_ent 0 k ++
        e :: slice (s.semu up).un_ent k ((s.semu up).un_cnt - k) := by
      rw [hinsert, s.setUndo_self, entries_eq]
      exact slice_shiftUp e hk
    have hnp : (insert up k e s).np = s.np := by
      rw [hinsert]
      exact Tables.np_setUndo rfl
    refine ⟨U, h.setEntries ho hp (hentries ▸ hgood) (hnp ▸ h.active) ?_ (fun w => ?_) hndU
      fun w _ => by rw [hnp], ho, hentries⟩
    · rw [hinsert]
      exact h.headU
    · by_cases hw : w = up
      · rw [if_pos hw, hw, hinsert, s.setUndo_self]
        exact iff_of_true ((h.mem_U p up hp).2 hzero) (Nat.succ_ne_zero _)
      · rw [if_neg hw]

/-- The entries change, but not how many there are. -/
theorem update_spec (h : Holds v s U F) (hp : s.sem_undo p = some up) (ent : ℕ → Undo)
    (hgood : Good v.toConfig (slice ent 0 (s.semu up).un_cnt)) :
    Holds v (s.setUndo up { s.semu up with un_ent := ent }) U F := by
  obtain ⟨hndU, -, -⟩ := List.nodup_append.1 h.nodup
  have hnp : (s.setUndo up { s.semu up with un_ent := ent }).np = s.np := Tables.np_setUndo rfl
  refine h.setEntries (Others.setUndo ..) hp ?_ (hnp ▸ h.active) h.headU (fun w => ?_) hndU
    fun w _ => by rw [hnp]
  · rw [s.setUndo_self, entries_eq]
    exact hgood
  · by_cases hw : w = up
    · rw [if_pos hw, hw, s.setUndo_self]
      exact h.mem_U p up hp
    · rw [if_neg hw]

/-- An entry is deleted, whatever its value; the structure gets off the chain with the last. -/
theorem delete_spec (h : Holds v s U F) (hp : s.sem_undo p = some up)
    (hk : k < (s.semu up).un_cnt) (ent : ℕ → Undo)
    (hgood : Good v.toConfig (slice ent 0 k ++ slice ent (k + 1) ((s.semu up).un_cnt - 1 - k))) :
    ∃ s' U', delete v up k (s.setUndo up { s.semu up with un_ent := ent }) = some s' ∧
      Holds v s' U' F ∧ Others up s s' ∧ (s'.semu up).entries =
        slice ent 0 k ++ slice ent (k + 1) ((s.semu up).un_cnt - 1 - k) := by
  obtain ⟨hndU, -, -⟩ := List.nodup_append.1 h.nodup
  obtain ⟨m, hm⟩ : ∃ m, m = (s.semu up).un_cnt - 1 := ⟨_, rfl⟩
  obtain ⟨s₁, hs₁⟩ : ∃ s₁, s₁ = s.setUndo up { s.semu up with
      un_cnt := m, un_ent := shiftDown (m - k) k ent } := ⟨_, rfl⟩
  have hdelete : delete v up k (s.setUndo up { s.semu up with un_ent := ent })
      = if m = 0 then (unlink v up s₁).map fun s => s.setNp up none else some s₁ := by
    rw [delete, s.setUndo_self, hs₁, hm]
    simp only [Tables.setUndo, Function.update_idem]
  have ho₁ : Others up s s₁ := hs₁ ▸ Others.setUndo ..
  have hself : s₁.semu up = { s.semu up with
      un_cnt := m, un_ent := shiftDown (m - k) k ent } := by rw [hs₁, s.setUndo_self]
  have hentries : (s₁.semu up).entries = slice ent 0 k ++ slice ent (k + 1) (m - k) := by
    rw [hself, entries_eq]
    dsimp only
    rw [hm]
    exact slice_shiftDown hk
  have hnp : s₁.np = s.np := by
    rw [hs₁]
    exact Tables.np_setUndo rfl
  rw [← hm] at hgood ⊢
  rw [hdelete]
  by_cases hzero : m = 0
  · -- it was the last one
    rw [if_pos hzero]
    obtain ⟨s₂, U', hs₂, h₂, ho₂, hcnt₂⟩ := h.unlink hp (by omega) ho₁ hnp
      (hs₁ ▸ rfl) (by rw [hself]; exact hzero)
    have hp₂ : s₂.sem_undo p = some up := ho₂.sem_undo ▸ hp
    have hupU : up ∉ U' := fun hu => (h₂.mem_U p up hp₂).1 hu hcnt₂
    have hnil : ((s₂.setNp up none).semu up).entries = [] := by
      rw [Tables.setNp, s₂.setUndo_self]
      exact entries_eq_nil hcnt₂
    rw [hs₂, Option.map_some]
    refine ⟨_, U', rfl, h₂.setNp hupU (h₂.not_free hp₂) none, ho₂.trans (Others.setUndo ..), ?_⟩
    rw [hnil, ← hentries, entries_eq_nil (by rw [hself]; exact hzero)]
  · rw [if_neg hzero]
    refine ⟨s₁, U, rfl, h.setEntries ho₁ hp (hentries ▸ hgood) (hnp ▸ h.active)
      ((congrArg Tables.semunp hs₁).trans h.headU) (fun w => ?_) hndU fun w _ => by rw [hnp], ho₁,
      hentries⟩
    by_cases hw : w = up
    · rw [if_pos hw, hself, hw]
      exact iff_of_true ((h.mem_U p up hp).2 (by omega)) hzero
    · rw [if_neg hw]

end Cases

/-- An adjustment is one of `adjust`, or is refused; what else it does is on the chains. -/
theorem semaoe_spec (h : Holds v s U F) (p : ℕ) (hshort : -2 ^ 15 ≤ val ∧ val < 2 ^ 15)
    (id num : ℤ) : ∃ r s' U' F', semaoe v p val id num s = some (r, s') ∧ Holds v s' U' F' ∧
      Kept p (fun i n => i = id ∧ n = num) s s' := by
  rw [semaoe]
  by_cases hne : val = 0
  · exact ⟨none, s, U, F, if_pos hne, h, .refl ..⟩
  rw [if_neg hne]
  by_cases hrange : val > v.semaem ∨ val < -v.semaem
  · exact ⟨some .erange, s, U, F, if_pos hrange, h, .refl ..⟩
  rw [if_neg hrange]
  have hv : Adjustable v.toConfig val := ⟨hshort, by omega, hne⟩
  rcases attach_spec h p with hnone | ⟨up, s₁, F', hattach, h₁, hp, hsema, hent⟩
  · rw [hnone]
    exact ⟨some .enospc, s, U, F, rfl, h, .refl ..⟩
  rw [hattach]
  have hk₁ : Kept p (fun i n => i = id ∧ n = num) s s₁ := .of_entries hsema hent
  obtain ⟨cnt, hcnt⟩ : ∃ cnt, cnt = (s₁.semu up).un_cnt := ⟨_, rfl⟩
  obtain ⟨ent, hentdef⟩ : ∃ ent, ent = (s₁.semu up).un_ent := ⟨_, rfl⟩
  have hentries : s₁.entries p = slice ent 0 cnt := by
    rw [Tables.entries_of hp, entries_eq, hcnt, hentdef]
  have hgood : Good v.toConfig (slice ent 0 cnt) := by
    have hg := h₁.good p up hp
    rwa [entries_eq, ← hcnt, ← hentdef] at hg
  obtain ⟨k, found, hscan, hk, hbefore, hnot, hfound⟩ := scan_spec ent id num cnt 0
  rw [Nat.zero_add] at hscan
  simp only [Nat.zero_add] at hnot hfound
  -- whatever `adjust` makes of the entries is good, and what was there but for this semaphore
  have hadjust : ∀ l full, full = decide ((slice ent 0 cnt).length ≥ v.semume) →
      adjust v.toConfig full val id num (slice ent 0 cnt) = .ok l → Good v.toConfig l ∧
      ∀ s₂, s₂.sema = s₁.sema → s₂.entries p = l → (∀ q, q ≠ p → s₂.entries q = s₁.entries q) →
        Kept p (fun i n => i = id ∧ n = num) s s₂ := by
    intro l full hfull hl
    refine ⟨hgood.adjust hv (hfull ▸ hl),
      fun s₂ hs₂ hp₂ hq₂ => hk₁.trans ⟨hs₂, hq₂, fun e he => ?_⟩⟩
    rw [hentries]
    exact adjust_keys hl (hp₂ ▸ he)
  have hsplit : slice ent 0 cnt = slice ent 0 k ++ slice ent k (cnt - k) := by
    rw [show cnt = k + (cnt - k) by omega, slice_add, Nat.zero_add, Nat.add_sub_cancel_left]
  dsimp only
  rw [← hcnt, ← hentdef, hscan]
  dsimp only
  cases hf : found with
  | false =>
    rw [if_pos Bool.false_ne_true]
    by_cases hfull : cnt ≥ v.semume
    · exact ⟨some .einval, s₁, U, F', if_pos hfull, h₁, hk₁⟩
    rw [if_neg hfull]
    have hadj : adjust v.toConfig false val id num (slice ent 0 cnt) =
        .ok (slice ent 0 k ++ ⟨toShort (-val), num, id⟩ :: slice ent k (cnt - k)) := by
      have hb : adjust v.toConfig false val id num (slice ent k (cnt - k)) =
          .ok (⟨toShort (-val), num, id⟩ :: slice ent k (cnt - k)) := by
        rcases Nat.eq_or_lt_of_le hk with he | hlt
        · rw [he, Nat.sub_self]
          rfl
        · have hmiss : ¬((ent k).un_id = id ∧ (ent k).un_num = num) := fun hm =>
            absurd (hfound.2 ⟨hlt, hm⟩) (by simp [hf])
          rw [show cnt - k = (cnt - (k + 1)) + 1 by omega, slice_succ, adjust, if_neg (hnot hlt),
            if_neg hmiss, if_neg Bool.false_ne_true]
      rw [hsplit, adjust_append hbefore, hb]
      rfl
    obtain ⟨hg, hkept⟩ := hadjust _ false (by
      rw [length_slice]
      exact (decide_eq_false hfull).symm) hadj
    obtain ⟨U', h₂, ho, hentries₂⟩ := insert_spec (e := ⟨toShort (-val), num, id⟩) h₁ hp
      (hcnt ▸ hk) (by rw [← hcnt, ← hentdef]; exact hg)
    obtain ⟨hep, heq⟩ := Others.entries h₁ ho hp
    refine ⟨none, _, U', F', rfl, h₂, hkept _ ho.sema (hep.trans ?_) heq⟩
    rw [hentries₂, ← hcnt, ← hentdef]
  | true =>
    obtain ⟨hlt, hid, hnum⟩ := hfound.1 hf
    rw [if_neg (not_not_intro rfl)]
    obtain ⟨aoe, haoe⟩ : ∃ aoe, aoe = toShort ((ent k).un_aoe - val) := ⟨_, rfl⟩
    have hentk : ent k = ⟨(ent k).un_aoe, num, id⟩ := by rw [← hid, ← hnum]
    have htail : slice ent k (cnt - k) = ent k :: slice ent (k + 1) (cnt - 1 - k) := by
      rw [show cnt - k = (cnt - 1 - k) + 1 by omega, slice_succ]
    have hok := hgood.ok (ent k) (by rw [hsplit, htail]; simp)
    have hadj : adjust v.toConfig (decide ((slice ent 0 cnt).length ≥ v.semume)) val id num
        (slice ent 0 cnt) = Except.map (slice ent 0 k ++ ·)
          (if aoe > v.semaem ∨ aoe < -v.semaem then .error .erange
          else if aoe = 0 then .ok (slice ent (k + 1) (cnt - 1 - k))
          else .ok (⟨aoe, num, id⟩ :: slice ent (k + 1) (cnt - 1 - k))) := by
      generalize decide ((slice ent 0 cnt).length ≥ v.semume) = full
      rw [hsplit, adjust_append hbefore, htail, hentk, adjust_found, ← haoe]
    -- the entry with another value
    have hset : ∀ x, setAoe up k x s₁ = s₁.setUndo up { s₁.semu up with
        un_ent := Function.update ent k { ent k with un_aoe := x } } := fun x => by
      rw [setAoe, ← hentdef]
    have hslice : ∀ x, slice (Function.update ent k { ent k with un_aoe := x }) 0 cnt =
        slice ent 0 k ++ { ent k with un_aoe := x } :: slice ent (k + 1) (cnt - 1 - k) := fun x =>
      slice_update _ hlt
    rw [← haoe]
    by_cases hbad : aoe > v.semaem ∨ aoe < -v.semaem
    · -- the value goes back to what it was
      have hback : toShort (aoe + val) = (ent k).un_aoe := by
        rw [haoe]
        unfold toShort
        rw [Int.bmod_add_bmod, sub_add_cancel]
        exact toShort_of_mem hok.short.1 hok.short.2
      have hsame : Function.update ent k { ent k with un_aoe := (ent k).un_aoe } = ent :=
        Function.update_eq_self k ent
      rw [if_pos hbad, hback, hset, hsame]
      have h₂ := update_spec h₁ hp ent (hcnt ▸ hgood)
      obtain ⟨hep, heq⟩ := Others.entries h₁ (Others.setUndo up
        { s₁.semu up with un_ent := ent } s₁) hp
      refine ⟨some .erange, _, U, F', rfl, h₂, hk₁.trans (.of_entries rfl fun q => ?_)⟩
      by_cases hq : q = p
      · rw [hq, hep, s₁.setUndo_self, hentries, entries_eq, ← hcnt]
      · exact heq q hq
    rw [if_neg hbad] at hadj ⊢
    by_cases hzero : aoe = 0
    · rw [if_pos hzero] at hadj ⊢
      obtain ⟨hg, hkept⟩ := hadjust _ _ rfl hadj
      -- the entries around the one with the value zero are as they were
      have haround : slice (Function.update ent k { ent k with un_aoe := aoe }) 0 k ++
          slice (Function.update ent k { ent k with un_aoe := aoe }) (k + 1)
            ((s₁.semu up).un_cnt - 1 - k) = slice ent 0 k ++ slice ent (k + 1) (cnt - 1 - k) := by
        rw [← hcnt]
        congr 1
        · exact slice_congr fun j _ hj => Function.update_of_ne (by omega) _ _
        · exact slice_congr fun j hj _ => Function.update_of_ne (by omega) _ _
      rw [hset]
      obtain ⟨s₂, U', hdelete, h₂, ho, hentries₂⟩ := delete_spec h₁ hp (hcnt ▸ hlt)
        (Function.update ent k { ent k with un_aoe := aoe }) (haround ▸ hg)
      obtain ⟨hep, heq⟩ := Others.entries h₁ ho hp
      refine ⟨none, s₂, U', F', by rw [hdelete]; rfl, h₂, hkept _ ho.sema ?_ heq⟩
      rw [hep, hentries₂, haround]
    · rw [if_neg hzero] at hadj ⊢
      obtain ⟨hg, hkept⟩ := hadjust _ _ rfl hadj
      have hnew : ({ ent k with un_aoe := aoe } : Undo) = ⟨aoe, num, id⟩ := by rw [← hid, ← hnum]
      rw [hset]
      have h₂ := update_spec h₁ hp
        (Function.update ent k { ent k with un_aoe := aoe }) (by
          rw [← hcnt, hslice, hnew]
          exact hg)
      obtain ⟨hep, heq⟩ := Others.entries h₁ (Others.setUndo up { s₁.semu up with
        un_ent := Function.update ent k { ent k with un_aoe := aoe } } s₁) hp
      refine ⟨none, _, U, F', rfl, h₂, hkept _ rfl ?_ heq⟩
      rw [hep, s₁.setUndo_self, entries_eq]
      dsimp only
      rw [← hcnt, hslice, hnew]

end AuxKernel.Semaphores.Tables
