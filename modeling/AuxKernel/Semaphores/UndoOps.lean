import AuxKernel.Semaphores.Atomic
import AuxKernel.Semaphores.UndoChain

/-!
# The calls on the undo structures

What the calls do to the undo structures, and to the entries.

* `unrmChain_spec`, `semunrm_spec`: the entries of a set that is reset are removed from all
  structures, and the structures that have none left from the chain;
* `semexit_spec`: a process that exits gives its structure back;
* `semop_spec`: a pass of `semop` is a sequence of adjustments, for its own process, of the
  semaphores of its operations.
-/

namespace AuxKernel.Semaphores.Tables

variable {v : Config} {s s' t : Tables} {U F : List ℕ} {p : ℕ} {id low high : ℤ}

/-! ## Removing entries -/

/-- A structure whose entries were removed is taken off the chain if it has none left. -/
theorem unrm_round {u : ℕ} {W R : List ℕ} (h : Holds v s (W ++ u :: R) F) (id low high : ℤ) :
    ∃ r s₁, r = unrmLoop id low high (s.semu u).un_cnt 0 (s.semu u).un_cnt (s.semu u).un_ent ∧
      s₁ = s.setUndo u { s.semu u with un_cnt := r.1, un_ent := r.2 } ∧
      (s₁.semu u).entries = unrm id low high (s.semu u).entries ∧ s₁.np = s.np ∧
      (r.1 ≠ 0 → Holds v s₁ ((W ++ [u]) ++ R) F) ∧
      ∀ t, r.1 = 0 → Others u s t → (t.semu u).entries = (s₁.semu u).entries →
        t.semunp = (W ++ R).head? → (∀ w, w ≠ u → W.getLast? ≠ some w → t.np w = s.np w) →
        (∀ w, W.getLast? = some w → t.np w = R.head?) → Holds v t (W ++ R) F := by
  obtain ⟨r, hr⟩ : ∃ r, r = unrmLoop id low high (s.semu u).un_cnt 0 (s.semu u).un_cnt
      (s.semu u).un_ent := ⟨_, rfl⟩
  obtain ⟨s₁, hs₁⟩ : ∃ s₁, s₁ = s.setUndo u { s.semu u with un_cnt := r.1, un_ent := r.2 } :=
    ⟨_, rfl⟩
  have hu : u ∈ W ++ u :: R := by simp
  obtain ⟨p, hp⟩ := h.owner hu
  obtain ⟨hndU, -, hdisj⟩ := List.nodup_append.1 h.nodup
  obtain ⟨hndW, hndR, hd⟩ := List.nodup_append.1 hndU
  have huW : u ∉ W := fun hw => hd u hw u List.mem_cons_self rfl
  have huR : u ∉ R := (List.nodup_cons.1 hndR).1
  have hself : s₁.semu u = { s.semu u with un_cnt := r.1, un_ent := r.2 } := by
    rw [hs₁, s.setUndo_self]
  have hentries : (s₁.semu u).entries = unrm id low high (s.semu u).entries := by
    obtain ⟨m', ent', hloop, hslice⟩ := unrmLoop_spec id low high (s.semu u).un_cnt 0
      (s.semu u).un_cnt (s.semu u).un_ent (Nat.le_add_left _ _) (Nat.zero_le _)
    rw [hself, entries_eq, entries_eq]
    dsimp only
    rw [hr, hloop]
    exact hslice
  have hnp : s₁.np = s.np := by
    rw [hs₁]
    exact Tables.np_setUndo rfl
  have hgood : Good v.toConfig (s₁.semu u).entries := by
    rw [hentries]
    exact (h.good p u hp).sublist (unrm_sublist ..)
  refine ⟨r, s₁, hr, hs₁, hentries, hnp, fun hne => ?_, fun t hzero ho ht hhead hkeep hlast => ?_⟩
  · rw [List.append_assoc]
    refine h.setEntries (hs₁ ▸ Others.setUndo ..) hp hgood (hnp ▸ h.active)
      ((congrArg Tables.semunp hs₁).trans h.headU) (fun w => ?_) hndU fun w _ => by rw [hnp]
    by_cases hw : w = u
    · rw [if_pos hw, hself, hw]
      exact iff_of_true hu hne
    · rw [if_neg hw]
      rfl
  · have hcnt : (t.semu u).un_cnt = 0 := by
      have hlen := congrArg List.length ht
      rw [entries_eq, entries_eq, length_slice, length_slice, hself] at hlen
      exact hlen.trans hzero
    refine h.setEntries ho hp (ht ▸ hgood) ?_ hhead (fun w => ?_)
      (hndU.sublist (List.Sublist.append_left (List.sublist_cons_self u R) W)) fun w hw => ?_
    · refine h.active.remove hndW (fun x hx => ?_) fun x hx => ?_
      · by_cases hlx : W.getLast? = some x
        · rw [if_pos hlx]
          exact hlast x hlx
        · rw [if_neg hlx]
          exact hkeep x (fun he => huW (he ▸ hx)) hlx
      · refine hkeep x (fun he => huR (he ▸ hx)) fun hlx => ?_
        exact hd x (List.mem_of_getLast? hlx) x (List.mem_cons_of_mem u hx) rfl
    · by_cases hw : w = u
      · rw [if_pos hw, hw, hcnt]
        refine iff_of_false (fun hm => ?_) (not_not_intro rfl)
        exact (List.mem_append.1 hm).elim huW huR
      · rw [if_neg hw]
        simp [hw]
    · refine hkeep w (fun he => hdisj u hu w hw he.symm) fun hlw => ?_
      exact hdisj w (List.mem_append_left _ (List.mem_of_getLast? hlw)) w hw rfl

section Round

variable {n u : ℕ} {r : ℕ × (ℕ → Undo)} {s₁ : Tables}
  (hr : r = unrmLoop id low high (s.semu u).un_cnt 0 (s.semu u).un_cnt (s.semu u).un_ent)
  (hs₁ : s₁ = s.setUndo u { s.semu u with un_cnt := r.1, un_ent := r.2 })

include hr hs₁

/-- A round for a structure that keeps entries. -/
theorem unrmChain_keep (hne : r.1 ≠ 0) (pp : Option ℕ) :
    unrmChain id low high (n + 1) pp (some u) s =
      unrmChain id low high n (some u) (s₁.semu u).un_np s₁ := by
  subst hr hs₁
  exact if_pos hne

/-- A round that takes the first structure off the chain. -/
theorem unrmChain_first (hzero : r.1 = 0) :
    unrmChain id low high (n + 1) none (some u) s =
      unrmChain id low high n none (s₁.semu u).un_np
        ({ s₁ with semunp := (s₁.semu u).un_np }.setNp u none) := by
  subst hr hs₁
  exact if_neg (not_not_intro hzero)

/-- A round that takes a structure off the chain behind another. -/
theorem unrmChain_behind (hzero : r.1 = 0) (q : ℕ) :
    unrmChain id low high (n + 1) (some q) (some u) s =
      unrmChain id low high n (some q) (((s₁.setNp q (s₁.semu u).un_np).setNp u none).semu q).un_np
        ((s₁.setNp q (s₁.semu u).un_np).setNp u none) := by
  subst hr hs₁
  exact if_neg (not_not_intro hzero)

end Round

/-- The loop over the structures `R`, behind those that were kept, `W`. -/
theorem unrmChain_spec (id low high : ℤ) {n : ℕ} {W R : List ℕ} (h : Holds v s (W ++ R) F)
    (hn : R.length ≤ n) :
    ∃ s' U', unrmChain id low high n W.getLast? R.head? s = some s' ∧ Holds v s' U' F ∧
      s'.sema = s.sema ∧ s'.sem = s.sem ∧ s'.sem_undo = s.sem_undo ∧
      ∀ u, (s'.semu u).entries =
        if u ∈ R then unrm id low high (s.semu u).entries else (s.semu u).entries := by
  induction R generalizing s n W with
  | nil =>
    refine ⟨s, W, by cases n <;> rfl, by simpa using h, rfl, rfl, rfl, fun u => ?_⟩
    rw [if_neg List.not_mem_nil]
  | cons u R ih =>
    obtain ⟨n, rfl⟩ := Nat.exists_eq_succ_of_ne_zero
      (Nat.ne_of_gt (Nat.lt_of_lt_of_le (Nat.succ_pos R.length) hn))
    obtain ⟨r, s₁, hr, hs₁, hentries, hnp, hkeep, hoff⟩ := unrm_round h id low high
    obtain ⟨hndU, -, -⟩ := List.nodup_append.1 h.nodup
    obtain ⟨hndW, hndR, hd⟩ := List.nodup_append.1 hndU
    have huR : u ∉ R := (List.nodup_cons.1 hndR).1
    have hsome : s.np u = R.head? := h.active.next_eq
    have hn' : R.length ≤ n := Nat.le_of_succ_le_succ hn
    -- what the rest of the loop finds
    have hfinal : ∀ t s' : Tables, Others u s t → (t.semu u).entries = (s₁.semu u).entries →
        (∀ w, (s'.semu w).entries =
          if w ∈ R then unrm id low high (t.semu w).entries else (t.semu w).entries) →
        ∀ w, (s'.semu w).entries =
          if w ∈ u :: R then unrm id low high (s.semu w).entries else (s.semu w).entries := by
      intro t s' ho ht hrest w
      rw [hrest w]
      by_cases hw : w = u
      · rw [hw, if_neg huR, if_pos List.mem_cons_self, ht, hentries]
      · rw [ho.entries_eq hw]
        by_cases hwR : w ∈ R
        · rw [if_pos hwR, if_pos (List.mem_cons_of_mem u hwR)]
        · rw [if_neg hwR, if_neg (by simp [hw, hwR])]
    have ho₁ : Others u s s₁ := hs₁ ▸ Others.setUndo ..
    rw [List.head?_cons]
    by_cases hne : r.1 ≠ 0
    · rw [unrmChain_keep hr hs₁ hne]
      obtain ⟨s', U', hchain, h', hsema, hsem, hundo, hrest⟩ := ih (hkeep hne) hn'
      rw [List.getLast?_concat] at hchain
      have hnext : (s₁.semu u).un_np = R.head? := (congrFun hnp u).trans hsome
      refine ⟨s', U', by rw [hnext, hchain], h', hsema.trans (hs₁ ▸ rfl), hsem.trans (hs₁ ▸ rfl),
        hundo.trans (hs₁ ▸ rfl), hfinal s₁ s' ho₁ rfl hrest⟩
    have hzero : r.1 = 0 := not_not.1 hne
    have hnext : (s₁.semu u).un_np = R.head? := (congrFun hnp u).trans hsome
    rcases List.eq_nil_or_concat' W with rfl | ⟨W₀, q, rfl⟩
    · obtain ⟨t, ht⟩ : ∃ t, t = { s₁ with semunp := (s₁.semu u).un_np }.setNp u none := ⟨_, rfl⟩
      have hot : Others u s t := ho₁.trans (ht ▸ ⟨fun w hw => by rw [Tables.setNp,
        Tables.setUndo_ne _ _ hw], fun w hw => by rw [Tables.setNp, Tables.setUndo_ne _ _ hw], rfl,
        rfl, rfl⟩)
      have htu : (t.semu u).entries = (s₁.semu u).entries := by
        rw [ht, Tables.setNp, Tables.setUndo_self]
        rfl
      have hholds : Holds v t ([] ++ R) F := by
        refine hoff t hzero hot htu ?_ (fun w hw _ => ?_) fun w hw =>
          absurd hw.symm (Option.some_ne_none w)
        · rw [ht]
          exact hnext
        · rw [← hnp, ht, Tables.np, Tables.setNp, Tables.setUndo_ne _ _ hw]
          rfl
      obtain ⟨s', U', hchain, h', hsema, hsem, hundo, hrest⟩ := ih hholds hn'
      refine ⟨s', U', ?_, h', hsema.trans hot.sema, hsem.trans (by rw [ht, hs₁]; rfl),
        hundo.trans hot.sem_undo, hfinal t s' hot htu hrest⟩
      rw [List.getLast?_nil] at hchain ⊢
      rw [unrmChain_first hr hs₁ hzero, ← ht, hnext, hchain]
    · have hqu : q ≠ u := fun he => hd q (by simp) u List.mem_cons_self he
      obtain ⟨t, ht⟩ : ∃ t, t = (s₁.setNp q (s₁.semu u).un_np).setNp u none := ⟨_, rfl⟩
      have htw : ∀ w, w ≠ u → (t.semu w) =
          if w = q then { s₁.semu q with un_np := R.head? } else s₁.semu w := fun w hw => by
        rw [ht, Tables.setNp, Tables.setUndo_ne _ _ hw, Tables.setNp, hnext]
        by_cases hwq : w = q
        · rw [if_pos hwq, hwq, Tables.setUndo_self]
        · rw [if_neg hwq, Tables.setUndo_ne _ _ hwq]
      have hot : Others u s t := by
        refine ho₁.trans ⟨fun w hw => ?_, fun w hw => ?_, ht ▸ rfl, ht ▸ rfl, ht ▸ rfl⟩ <;>
          rw [htw w hw]
        · by_cases hwq : w = q
          · rw [if_pos hwq, hwq]
          · rw [if_neg hwq]
        · by_cases hwq : w = q
          · rw [if_pos hwq, hwq]
          · rw [if_neg hwq]
      have htu : (t.semu u).entries = (s₁.semu u).entries := by
        rw [ht, Tables.setNp, Tables.setUndo_self, Tables.setNp, Tables.setUndo_ne _ _ hqu.symm]
        rfl
      have hlast : (W₀ ++ [q]).getLast? = some q := List.getLast?_concat
      have hholds : Holds v t ((W₀ ++ [q]) ++ R) F := by
        refine hoff t hzero hot htu ?_ (fun w hw hwq => ?_) fun w hw => ?_
        · have hhead : s₁.semunp = ((W₀ ++ [q]) ++ u :: R).head? :=
            (congrArg Tables.semunp hs₁).trans h.headU
          rw [ht]
          refine hhead.trans ?_
          cases W₀ <;> rfl
        · rw [hlast] at hwq
          rw [← hnp, Tables.np, htw w hw, if_neg fun he => hwq (congrArg some he.symm), Tables.np]
        · obtain rfl : q = w := Option.some.inj (hlast.symm.trans hw)
          rw [Tables.np, htw q hqu, if_pos rfl]
      obtain ⟨s', U', hchain, h', hsema, hsem, hundo, hrest⟩ := ih hholds hn'
      refine ⟨s', U', ?_, h', hsema.trans hot.sema, hsem.trans (by rw [ht, hs₁]; rfl),
        hundo.trans hot.sem_undo, hfinal t s' hot htu hrest⟩
      have hq : (t.semu q).un_np = R.head? := by rw [htw q hqu, if_pos rfl]
      rw [hlast] at hchain ⊢
      rw [unrmChain_behind hr hs₁ hzero, ← ht, hq, hchain]

/-- The entries of the semaphores are removed from all processes. -/
theorem semunrm_spec (h : Holds v s U F) (id low high : ℤ) :
    ∃ s' U', semunrm v id low high s = some s' ∧ Holds v s' U' F ∧ s'.sema = s.sema ∧
      s'.sem = s.sem ∧ ∀ q, s'.entries q = unrm id low high (s.entries q) := by
  have hlen : U.length ≤ v.semmnu :=
    length_le_of_nodup (List.nodup_append.1 h.nodup).1 fun w hw =>
      h.lt w (List.mem_append_left F hw)
  have h₀ : Holds v s ([] ++ U) F := h
  obtain ⟨s', U', hchain, h', hsema, hsem, hundo, hrest⟩ :=
    unrmChain_spec id low high h₀ hlen
  refine ⟨s', U', ?_, h', hsema, hsem, fun q => ?_⟩
  · rw [semunrm, h.headU]
    exact hchain
  · cases hq : s.sem_undo q with
    | none =>
      rw [Tables.entries_none hq, Tables.entries_none (hundo ▸ hq)]
      rfl
    | some u =>
      rw [Tables.entries_of hq, Tables.entries_of (hundo ▸ hq), hrest u]
      by_cases hu : u ∈ U
      · rw [if_pos hu]
      · rw [if_neg hu, entries_eq_nil (not_not.1 fun hne => hu ((h.mem_U q u hq).2 hne))]
        rfl

/-! ## Exit -/

/-- An adjustment at exit changes only a semaphore. -/
theorem adjustOnExit_eq (v : Config) (s : Tables) (l : List Undo) :
    ∃ sem, l.foldl (adjustOnExit v) s = { s with sem := sem } := by
  induction l generalizing s with
  | nil => exact ⟨s.sem, rfl⟩
  | cons e l ih =>
    obtain ⟨sem, hsem⟩ : ∃ sem, adjustOnExit v s e = { s with sem := sem } := by
      rw [adjustOnExit]
      cases semconv v s e.un_id with
      | none => exact ⟨s.sem, rfl⟩
      | some sp =>
        dsimp only
        by_cases hout : (s.sem (sp.sem_base + e.un_num).toNat).semval + e.un_aoe < 0 ∨
            (s.sem (sp.sem_base + e.un_num).toNat).semval + e.un_aoe > v.semvmx
        · exact ⟨s.sem, if_pos hout⟩
        · exact ⟨_, if_neg hout⟩
    rw [List.foldl_cons, hsem]
    obtain ⟨sem', hsem'⟩ := ih { s with sem := sem }
    exact ⟨sem', hsem'⟩

/-- The structure of a process with no entries goes in front of the free ones. -/
theorem cleanup_spec {up : ℕ} (h : Holds v s U F) (hp : s.sem_undo p = some up)
    (hzero : (s.semu up).un_cnt = 0) : Holds v (cleanup p up s) U (up :: F) ∧
      ∀ q, (cleanup p up s).entries q = if q = p then [] else s.entries q := by
  have hupU : up ∉ U := fun hu => (h.mem_U p up hp).1 hu hzero
  have hupF := h.not_free hp
  have h₁ := h.setNp hupU hupF s.semfup
  obtain ⟨hndU, hndF, hdisj⟩ := List.nodup_append.1 h.nodup
  have hcases : ∀ q w, (cleanup p up s).sem_undo q = some w → q ≠ p ∧ s.sem_undo q = some w := by
    intro q w hq
    by_cases hqp : q = p
    · rw [hqp] at hq
      exact absurd ((Function.update_self ..).symm.trans hq) nofun
    · exact ⟨hqp, (Function.update_of_ne hqp ..).symm.trans hq⟩
  have hne : ∀ q w, q ≠ p → s.sem_undo q = some w → w ≠ up := fun q w hqp hq he =>
    hqp (h.inj q p up (he ▸ hq) hp)
  refine ⟨⟨h₁.active, h₁.headU, ⟨?_, h₁.free⟩, rfl,
    List.nodup_append.2 ⟨hndU, List.nodup_cons.2 ⟨hupF, hndF⟩, fun a ha b hb => ?_⟩,
    fun w hw => ?_, fun q w hq => h.own q w (hcases q w hq).2,
    fun q r w hq hr => h.inj q r w (hcases q w hq).2 (hcases r w hr).2, fun w hw => ?_,
    fun q w hq => h₁.mem_U q w (hcases q w hq).2, fun w hw => ?_,
    fun q w hq => h₁.good q w (hcases q w hq).2⟩, fun q => ?_⟩
  · rw [Tables.np, cleanup, Tables.setNp, s.setUndo_self]
    exact h.headF
  · rcases List.mem_cons.1 hb with rfl | hb
    · exact fun he => hupU (he ▸ ha)
    · exact hdisj a ha b hb
  · rcases List.mem_append.1 hw with hw | hw
    · exact h.lt w (List.mem_append_left F hw)
    · rcases List.mem_cons.1 hw with rfl | hw
      · exact h.own p w hp
      · exact h.lt w (List.mem_append_right U hw)
  · rw [List.mem_cons, h.mem_F w hw]
    constructor
    · intro hor q hq
      obtain ⟨hqp, hsq⟩ := hcases q w hq
      rcases hor with rfl | hall
      · exact hne q w hqp hsq rfl
      · exact hall q hsq
    · intro hall
      by_cases hwu : w = up
      · exact .inl hwu
      · refine .inr fun q hq => ?_
        by_cases hqp : q = p
        · exact hwu (Option.some.inj ((hqp ▸ hq).symm.trans hp))
        · exact hall q ((Function.update_of_ne hqp ..).trans hq)
  · rcases List.mem_cons.1 hw with rfl | hw
    · rw [cleanup, Tables.setNp, s.setUndo_self]
      exact hzero
    · exact h₁.zero w hw
  · by_cases hqp : q = p
    · rw [if_pos hqp, hqp, Tables.entries_none]
      exact Function.update_self ..
    · rw [if_neg hqp]
      cases hq : s.sem_undo q with
      | none =>
        rw [Tables.entries_none hq, Tables.entries_none]
        exact (Function.update_of_ne hqp ..).trans hq
      | some w =>
        rw [Tables.entries_of hq, Tables.entries_of (u := w)]
        · rw [cleanup, Tables.setNp, s.setUndo_ne _ (hne q w hqp hq)]
        · exact (Function.update_of_ne hqp ..).trans hq

/-- A process that exits gives back its structure, with all its entries. -/
theorem semexit_spec (h : Holds v s U F) (p : ℕ) : ∃ s' U' F', semexit v p s = some s' ∧
    Holds v s' U' F' ∧ s'.sema = s.sema ∧
      ∀ q, s'.entries q = if q = p then [] else s.entries q := by
  rw [semexit]
  cases hp : s.sem_undo p with
  | none =>
    refine ⟨s, U, F, rfl, h, rfl, fun q => ?_⟩
    by_cases hqp : q = p
    · rw [if_pos hqp, hqp, Tables.entries_none hp]
    · rw [if_neg hqp]
  | some up =>
    dsimp only
    by_cases hzero : (s.semu up).un_cnt = 0
    · rw [if_pos hzero]
      obtain ⟨h', hentries⟩ := cleanup_spec h hp hzero
      exact ⟨_, U, up :: F, rfl, h', rfl, hentries⟩
    rw [if_neg hzero]
    obtain ⟨sem, hsem⟩ := adjustOnExit_eq v s (s.semu up).entries.reverse
    have h₁ : Holds v { s with sem := sem } U F := h.congr rfl rfl rfl rfl
    rw [hsem]
    obtain ⟨s₂, U', hs₂, h₂, ho, hcnt⟩ := h₁.unlink
      (t := Tables.setUndo { s with sem := sem } up { s.semu up with un_cnt := 0 }) hp hzero
      (Others.setUndo ..) (Tables.np_setUndo rfl) rfl (by rw [Tables.setUndo_self])
    have hp₂ : s₂.sem_undo p = some up := ho.sem_undo ▸ hp
    obtain ⟨h', hentries⟩ := cleanup_spec h₂ hp₂ hcnt
    refine ⟨_, U', up :: F, by rw [hs₂]; rfl, h', ho.sema, fun q => ?_⟩
    rw [hentries q]
    by_cases hqp : q = p
    · rw [if_pos hqp, if_pos hqp]
    · rw [if_neg hqp, if_neg hqp, (Others.entries h₁ ho hp).2 q hqp]
      rfl

/-! ## Operations -/

/-- The chains of undo structures are as they should. -/
def Sound (v : Config) (s : Tables) : Prop := ∃ U F, Holds v s U F

theorem Sound.setSem (h : Sound v s) (i : ℕ) (x : Sem) : Sound v (s.setSem i x) := by
  obtain ⟨U, F, h⟩ := h
  exact ⟨U, F, h.congr rfl rfl rfl rfl⟩

/-- The semaphores of a set that operations adjust for. -/
def Adjusts (id : ℤ) (ops : List Sembuf) (i n : ℤ) : Prop :=
  i = id ∧ ∃ op ∈ ops, op.undo = true ∧ n = toShort op.sem_num

theorem Adjusts.mono {ops ops' : List Sembuf} (hsub : ops ⊆ ops') (i n : ℤ)
    (h : Adjusts id ops i n) : Adjusts id ops' i n :=
  ⟨h.1, h.2.imp fun _ hop => ⟨hsub hop.1, hop.2⟩⟩

theorem Kept.setSem {K : ℤ → ℤ → Prop} (h : Kept p K s s') (i : ℕ) (x : Sem) :
    Kept p K s (s'.setSem i x) :=
  h.trans (.of_entries rfl fun _ => rfl)

variable {c : Target} {op : Sembuf} {ops done : List Sembuf}

theorem adjusts_single (hundo : op.undo = true) (i n : ℤ)
    (h : i = id ∧ n = toShort op.sem_num) : Adjusts id [op] i n :=
  ⟨h.1, op, List.mem_cons_self, hundo, h.2⟩

theorem semadj_spec (h : Sound v s) (c : Target) (op : Sembuf) :
    ∃ r, semadj v c op s = some r ∧ Sound v r.2 ∧ Kept c.p (Adjusts c.id [op]) s r.2 := by
  rw [semadj]
  by_cases hundo : op.undo = true
  · rw [if_pos hundo]
    obtain ⟨U, F, h⟩ := h
    obtain ⟨r, s', U', F', he, h', hkept⟩ :=
      semaoe_spec h c.p op.isShort c.id (toShort op.sem_num)
    exact ⟨(r, s'), he, ⟨U', F', h'⟩, hkept.mono (adjusts_single hundo)⟩
  · exact ⟨(none, s), if_neg hundo, h, .refl ..⟩

theorem change_spec {K : ℤ → ℤ → Prop} {r : Option Errno × Tables} (h : Sound v r.2)
    (hkept : Kept p K s r.2) (i : ℕ) (x : Sem) :
    Sound v (change i x r).2 ∧ Kept p K s (change i x r).2 := by
  rw [change]
  cases r.1 with
  | some e => exact ⟨h, hkept⟩
  | none => exact ⟨h.setSem i x, hkept.setSem i x⟩

theorem doOp_spec (h : Sound v s) (c : Target) (op : Sembuf) :
    ∃ r, doOp v c op s = some r ∧ Sound v r.2 ∧ Kept c.p (Adjusts c.id [op]) s r.2 := by
  have hsame : ∀ o : Outcome, ∃ r, some (o, s) = some r ∧ Sound v r.2 ∧
      Kept c.p (Adjusts c.id [op]) s r.2 := fun o => ⟨(o, s), rfl, h, .refl ..⟩
  obtain ⟨r, hr, h', hkept⟩ := semadj_spec h c op
  rw [doOp, hr]
  dsimp only [Option.map_some]
  by_cases hpos : op.sem_op > 0
  · rw [if_pos hpos]
    by_cases hmax : op.sem_op + (s.sem (c.base + op.sem_num)).semval > v.semvmx
    · rw [if_pos hmax]
      exact hsame _
    · rw [if_neg hmax]
      exact ⟨_, rfl, change_spec h' hkept ..⟩
  rw [if_neg hpos]
  by_cases hneg : op.sem_op < 0
  · rw [if_pos hneg]
    by_cases hge : (s.sem (c.base + op.sem_num)).semval ≥ -op.sem_op
    · rw [if_pos hge]
      exact ⟨_, rfl, change_spec h' hkept ..⟩
    · rw [if_neg hge]
      exact hsame _
  rw [if_neg hneg]
  by_cases hne : (s.sem (c.base + op.sem_num)).semval ≠ 0
  · rw [if_pos hne]
    exact hsame _
  · rw [if_neg hne]
    exact hsame _

theorem undoOp_spec (h : Sound v s) (c : Target) (op : Sembuf) :
    ∃ s', undoOp v c op s = some s' ∧ Sound v s' ∧ Kept c.p (Adjusts c.id [op]) s s' := by
  rw [undoOp]
  dsimp only
  by_cases hzero : op.sem_op = 0
  · exact ⟨s, if_pos hzero, h, .refl ..⟩
  rw [if_neg hzero, unadj]
  obtain ⟨t, ht⟩ : ∃ t, t = s.setSem (c.base + op.sem_num) { s.sem (c.base + op.sem_num) with
      semval := toUshort ((s.sem (c.base + op.sem_num)).semval - op.sem_op) } := ⟨_, rfl⟩
  have hs : Sound v t := ht ▸ h.setSem ..
  have hkept : Kept c.p (Adjusts c.id [op]) s t := ht ▸ (Kept.refl ..).setSem ..
  rw [← ht]
  by_cases hundo : op.undo = true
  · rw [if_pos hundo]
    obtain ⟨U, F, h⟩ := hs
    obtain ⟨r, s', U', F', he, h', hkept'⟩ :=
      semaoe_spec h c.p (toShort_range (-op.sem_op)) c.id (toShort op.sem_num)
    exact ⟨s', by rw [he]; rfl, ⟨U', F', h'⟩, hkept.trans (hkept'.mono (adjusts_single hundo))⟩
  · exact ⟨t, if_neg hundo, hs, hkept⟩

theorem semundo_spec (h : Sound v s) (c : Target) (ops : List Sembuf) :
    ∃ s', semundo v c ops s = some s' ∧ Sound v s' ∧ Kept c.p (Adjusts c.id ops) s s' := by
  induction ops generalizing s with
  | nil => exact ⟨s, rfl, h, .refl ..⟩
  | cons op ops ih =>
    obtain ⟨s₁, h₁, hs₁, hkept⟩ := undoOp_spec h c op
    obtain ⟨s', h', hs', hkept'⟩ := ih hs₁
    refine ⟨s', by rw [semundo, h₁, Option.bind_some, h'], hs', ?_⟩
    exact (hkept.mono (Adjusts.mono (by simp))).trans (hkept'.mono (Adjusts.mono (by simp)))

theorem stopAt_spec {K : ℤ → ℤ → Prop} (h : Sound v s') (hkept : Kept p K s s') (c : Target)
    (op : Sembuf) (o : Outcome) :
    Sound v (stopAt c op o s').2 ∧ Kept p K s (stopAt c op o s').2 := by
  cases o with
  | done => exact ⟨h, hkept⟩
  | error e => exact ⟨h, hkept⟩
  | sleepn =>
    rw [stopAt]
    by_cases hw : op.nowait = true
    · rw [if_pos hw]
      exact ⟨h, hkept⟩
    · rw [if_neg hw]
      exact ⟨h.setSem .., hkept.setSem ..⟩
  | sleepz =>
    rw [stopAt]
    by_cases hw : op.nowait = true
    · rw [if_pos hw]
      exact ⟨h, hkept⟩
    · rw [if_neg hw]
      exact ⟨h.setSem .., hkept.setSem ..⟩

theorem doOps_spec (h : Sound v s) (c : Target) (done ops : List Sembuf) :
    ∃ r, doOps v c done ops s = some r ∧ Sound v r.2 ∧
      Kept c.p (Adjusts c.id (done ++ ops)) s r.2 := by
  induction ops generalizing s done with
  | nil => exact ⟨(.done, s), by cases done <;> rfl, h, .refl ..⟩
  | cons op ops ih =>
    obtain ⟨⟨o, s₁⟩, h₁, hs₁, hkept⟩ := doOp_spec h c op
    have hkept₁ : Kept c.p (Adjusts c.id (done ++ op :: ops)) s s₁ :=
      hkept.mono (Adjusts.mono (by simp))
    rw [doOps, h₁, Option.bind_some]
    by_cases ho : o = .done
    · rw [if_pos ho]
      obtain ⟨r, hr, hs', hkept'⟩ := ih hs₁ (op :: done)
      refine ⟨r, hr, hs', hkept₁.trans (hkept'.mono (Adjusts.mono fun x hx => ?_))⟩
      rcases List.mem_append.1 hx with hx | hx
      · rcases List.mem_cons.1 hx with rfl | hx
        · simp
        · exact List.mem_append_left _ hx
      · exact List.mem_append_right _ (List.mem_cons_of_mem op hx)
    · rw [if_neg ho]
      obtain ⟨s', h', hs', hkept'⟩ := semundo_spec hs₁ c done
      refine ⟨_, by rw [h', Option.map_some],
        stopAt_spec hs' (hkept₁.trans (hkept'.mono ?_)) c op o⟩
      exact Adjusts.mono (List.subset_append_left done (op :: ops))

theorem setpid_spec {K : ℤ → ℤ → Prop} (h : Sound v s') (hkept : Kept p K s s') (pid : ℤ)
    (i : Sembuf → ℕ) (ops : List Sembuf) :
    Sound v (ops.foldl (fun s op => setpid pid (i op) s) s') ∧
      Kept p K s (ops.foldl (fun s op => setpid pid (i op) s) s') := by
  induction ops generalizing s' with
  | nil => exact ⟨h, hkept⟩
  | cons op ops ih => exact ih (h.setSem ..) (hkept.setSem ..)

/-- A pass of `semop` adjusts only for semaphores of its operations, which are those of the set
    unless it slept. -/
theorem semop_spec (h : Sound v s) (c : Call) :
    ∃ r, semop v c s = some r ∧ Sound v r.2 ∧ Kept c.p (fun i n => ∃ sp,
      semconv v s c.semid = some sp ∧ Adjusts c.semid c.sops i n ∧
        (c.again = false → ∀ op ∈ c.sops, op.sem_num < sp.sem_nsems)) s r.2 := by
  rw [semop]
  cases hsp : semconv v s c.semid with
  | none => exact ⟨_, rfl, h, .refl ..⟩
  | some sp =>
    dsimp only
    by_cases hbig : ¬c.again = true ∧ c.sops.length > v.semopm
    · exact ⟨_, if_pos hbig, h, .refl ..⟩
    rw [if_neg hbig]
    by_cases hfault : c.fault = true
    · exact ⟨_, if_pos hfault, h, .refl ..⟩
    rw [if_neg hfault]
    cases hden : if c.again = true then none else c.sops.findSome? (denied c sp) with
    | some e => exact ⟨_, rfl, h, .refl ..⟩
    | none =>
      dsimp only
      obtain ⟨r, hr, hs, hkept⟩ := doOps_spec h ⟨c.p, c.semid, sp.sem_base⟩ [] c.sops
      -- the operations of a first pass were checked
      have hin : c.again = false → ∀ op ∈ c.sops, op.sem_num < sp.sem_nsems := by
        intro hagain op hop
        rw [hagain, if_neg Bool.false_ne_true] at hden
        have hnone := List.findSome?_eq_none_iff.1 hden op hop
        rw [denied] at hnone
        by_contra hge
        by_cases hacc : ¬c.access op = true
        · rw [if_pos hacc] at hnone
          exact Option.some_ne_none _ hnone
        · rw [if_neg hacc, if_pos (Nat.le_of_not_lt hge)] at hnone
          exact Option.some_ne_none _ hnone
      have hkept₁ : Kept c.p (fun i n => ∃ sp', some sp = some sp' ∧ Adjusts c.semid c.sops i n ∧
          (c.again = false → ∀ op ∈ c.sops, op.sem_num < sp'.sem_nsems)) s r.2 :=
        hkept.mono fun i n hK => ⟨sp, rfl, hK, hin⟩
      rw [hr, Option.map_some]
      by_cases hdone : r.1 = .done
      · rw [if_pos hdone]
        exact ⟨_, rfl, setpid_spec hs hkept₁ c.pid (fun op => sp.sem_base + op.sem_num) c.sops⟩
      · exact ⟨r, by rw [if_neg hdone], hs, hkept₁⟩

end AuxKernel.Semaphores.Tables
