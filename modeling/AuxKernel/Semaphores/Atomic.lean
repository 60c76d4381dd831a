import AuxKernel.Semaphores.Adjust

/-!
# Semaphore operations are atomic

A pass of `semop` does all operations, in turn (`Applied`), or none: when one of
them is not possible, those before it are undone, with their adjustments, and all
values, process numbers and undo entries are as they were (`Unchanged`). The
invariant is that the undo entries of all processes are as they may be (`Inv`); then
an operation that was done can be undone (`doOp_done`).
-/

namespace AuxKernel.Semaphores

variable {v : Config} {s s' t : State} {c : Target} {op : Sembuf}

/-- The values of the semaphores. -/
def State.vals (s : State) : ℕ → ℤ := fun i => (s.sem i).semval

/-! ## What a pass does -/

/-- Nothing that a process sees has changed. -/
structure Unchanged (s s' : State) : Prop where
  semval : ∀ i, (s'.sem i).semval = (s.sem i).semval
  sempid : ∀ i, (s'.sem i).sempid = (s.sem i).sempid
  entries : ∀ p, s'.entries p = s.entries p

/-- What an operation does to the values of semaphores from `base` on, if it is
    possible. -/
def apply (v : Config) (base : ℕ) (vals : ℕ → ℤ) (op : Sembuf) : Option (ℕ → ℤ) :=
  let i := base + op.sem_num
  if op.sem_op > 0 then
    if op.sem_op + vals i ≤ v.semvmx then some (Function.update vals i (vals i + op.sem_op))
    else none
  else if op.sem_op < 0 then
    if vals i ≥ -op.sem_op then some (Function.update vals i (vals i + op.sem_op)) else none
  else if vals i = 0 then some vals else none

/-- What an operation does to the undo entries of its process. -/
def applyUndo (v : Config) (id : ℤ) (l : List Undo) (op : Sembuf) : Except Errno (List Undo) :=
  if op.undo ∧ op.sem_op ≠ 0 then
    adjust v (l.length ≥ v.semume) op.sem_op id (toShort op.sem_num) l
  else .ok l

/-- The values are in the range of semaphores. -/
def InRange (v : Config) (vals : ℕ → ℤ) : Prop := ∀ i, 0 ≤ vals i ∧ vals i ≤ v.semvmx

/-- All operations were done, in turn, with all values in range on the way. -/
structure Applied (v : Config) (c : Call) (base : ℕ) (s s' : State) : Prop where
  vals : c.sops.foldlM (apply v base) s.vals = some s'.vals
  range : ∀ k, ∃ vals, (c.sops.take k).foldlM (apply v base) s.vals = some vals ∧ InRange v vals
  sempid : ∀ i, (s'.sem i).sempid =
    if ∃ op ∈ c.sops, i = base + op.sem_num then c.pid else (s.sem i).sempid
  undo : c.sops.foldlM (applyUndo v c.semid) (s.entries c.p) = .ok (s'.entries c.p)
  entries : ∀ p, p ≠ c.p → s'.entries p = s.entries p

/-! ## The invariant -/

/-- All values are in range, and all undo entries as they may be. -/
structure Inv (v : Config) (s : State) : Prop where
  range : InRange v s.vals
  good : ∀ p l, s.sem_undo p = some l → Good v l

theorem Inv.entries (h : Inv v s) (p : ℕ) : Good v (s.entries p) := by
  unfold State.entries
  cases hp : s.sem_undo p with
  | none => exact .nil v
  | some l => exact h.good p l hp

/-- The state `t` is like `s` for the process `p`, which can have got its undo
    structure. -/
structure Like (p : ℕ) (s t : State) : Prop extends Unchanged s t where
  has : (s.sem_undo p).isSome → (t.sem_undo p).isSome

theorem Like.refl (p : ℕ) (s : State) : Like p s s := ⟨⟨fun _ => rfl, fun _ => rfl, fun _ => rfl⟩, id⟩

theorem Like.trans {p : ℕ} (h : Like p s s') (h' : Like p s' t) : Like p s t :=
  ⟨⟨fun i => (h'.semval i).trans (h.semval i), fun i => (h'.sempid i).trans (h.sempid i),
    fun q => (h'.entries q).trans (h.entries q)⟩, h'.has ∘ h.has⟩

/-! ## Adjusting -/

section Adjust

variable {p : ℕ} {val id num : ℤ} {r : Option Errno × State}

/-- The cases of an adjustment: it is refused at once, or made to the entries of
    the process, which gets an undo structure if it has none. -/
theorem semaoe_cases (h : semaoe v p val id num s = r) :
    (val = 0 ∧ r = (none, s)) ∨ (∃ e, r = (some e, s)) ∨
      ((-v.semaem ≤ val ∧ val ≤ v.semaem) ∧ ∃ t, t.sem = s.sem ∧
        (∀ q, q ≠ p → t.sem_undo q = s.sem_undo q) ∧ t.sem_undo p = some (s.entries p) ∧
        r = adjustEntries v p val id num (s.entries p) t) := by
  rw [semaoe] at h
  by_cases h₀ : val = 0
  · rw [if_pos h₀] at h
    exact .inl ⟨h₀, h.symm⟩
  rw [if_neg h₀] at h
  by_cases hr : val > v.semaem ∨ val < -v.semaem
  · rw [if_pos hr] at h
    exact .inr (.inl ⟨_, h.symm⟩)
  rw [if_neg hr] at h
  have hrange : -v.semaem ≤ val ∧ val ≤ v.semaem := by omega
  cases hl : s.sem_undo p with
  | some l =>
    have hent : s.entries p = l := by rw [State.entries, hl]; rfl
    rw [hl] at h
    exact .inr (.inr ⟨hrange, s, rfl, fun _ _ => rfl, hent ▸ hl, hent ▸ h.symm⟩)
  | none =>
    have hent : s.entries p = [] := by rw [State.entries, hl]; rfl
    rw [hl] at h
    dsimp only at h
    by_cases hf : s.nfree = 0
    · rw [if_pos hf] at h
      exact .inr (.inl ⟨_, h.symm⟩)
    · rw [if_neg hf] at h
      refine .inr (.inr ⟨hrange, { s with
        sem_undo := Function.update s.sem_undo p (some [])
        nfree := s.nfree - 1 }, rfl, fun q hq => Function.update_of_ne hq _ _, ?_, hent ▸ h.symm⟩)
      rw [hent]
      exact Function.update_self ..

/-- An adjustment that is made changes the entries of its process only. -/
theorem semaoe_done (hs : -2 ^ 15 ≤ val ∧ val < 2 ^ 15) (hne : val ≠ 0)
    (h : semaoe v p val id num s = (none, s')) : s'.sem = s.sem ∧ Adjustable v val ∧
      ∃ l', adjust v ((s.entries p).length ≥ v.semume) val id num (s.entries p) = .ok l' ∧
        ∀ q, s'.sem_undo q = if q = p then some l' else s.sem_undo q := by
  rcases semaoe_cases h with ⟨h₀, -⟩ | ⟨e, he⟩ | ⟨hr, t, ht, hu, -, he⟩
  · exact absurd h₀ hne
  · simp at he
  rw [adjustEntries] at he
  split at he
  · simp at he
  · rename_i l' ha
    obtain rfl := (Prod.mk.inj he).2
    refine ⟨ht, ⟨hs, hr, hne⟩, l', ha, fun q => ?_⟩
    by_cases hq : q = p
    · simp [hq]
    · simp [hq, hu q hq]

/-- One that is not changes no entry. -/
theorem semaoe_error {e : Errno} (h : semaoe v p val id num s = (some e, s')) : Like p s s' := by
  rcases semaoe_cases h with ⟨-, h₀⟩ | ⟨e, he⟩ | ⟨-, t, ht, hu, hp, he⟩
  · simp at h₀
  · obtain rfl := (Prod.mk.inj he).2
    exact .refl p s'
  rw [adjustEntries] at he
  split at he
  · obtain rfl := (Prod.mk.inj he).2
    refine ⟨⟨fun i => by rw [ht], fun i => by rw [ht], fun q => ?_⟩, fun _ => by simp [hp]⟩
    by_cases hq : q = p
    · rw [hq, State.entries, hp]
      rfl
    · rw [State.entries, hu q hq]
      rfl
  · simp at he

/-- An adjustment to entries of a process that has an undo structure. -/
theorem semaoe_run {l l' : List Undo} (hv : Adjustable v val) (hl : s.sem_undo p = some l)
    (h : adjust v (l.length ≥ v.semume) val id num l = .ok l') :
    (semaoe v p val id num s).2.sem = s.sem ∧
      ∀ q, (semaoe v p val id num s).2.sem_undo q = if q = p then some l' else s.sem_undo q := by
  have hr := hv.range
  rw [semaoe, if_neg hv.ne, if_neg (by omega), hl]
  dsimp only
  rw [adjustEntries, h]
  refine ⟨rfl, fun q => ?_⟩
  by_cases hq : q = p <;> simp [hq]

end Adjust

/-! ## Operations -/

@[simp] theorem set_sem (s : State) (i j : ℕ) (x : Sem) :
    (s.set i x).sem j = if j = i then x else s.sem j := by
  simp [State.set, Function.update]

@[simp] theorem set_undo (s : State) (i : ℕ) (x : Sem) : (s.set i x).sem_undo = s.sem_undo := rfl

/-- What an operation that was done did, and that it can be undone. -/
structure Done (v : Config) (c : Target) (op : Sembuf) (s s' : State) : Prop where
  inv : Inv v s'
  vals : apply v c.base s.vals op = some s'.vals
  sempid : ∀ i, (s'.sem i).sempid = (s.sem i).sempid
  undo : applyUndo v c.id (s.entries c.p) op = .ok (s'.entries c.p)
  entries : ∀ p, p ≠ c.p → s'.entries p = s.entries p
  undone : ∀ t, Like c.p s' t → Like c.p s (undoOp v c op t)

theorem toUshort_sub_add (a b : ℤ) (h₀ : 0 ≤ a) (h₁ : a < 2 ^ 16) :
    toUshort (toUshort (a + b) - b) = a := by
  unfold toUshort
  omega

/-- The adjustment of an operation is made. -/
structure Adjusted (v : Config) (c : Target) (op : Sembuf) (s s' : State) : Prop where
  sem : s'.sem = s.sem
  good : ∀ p l, s'.sem_undo p = some l → Good v l
  undo : applyUndo v c.id (s.entries c.p) op = .ok (s'.entries c.p)
  entries : ∀ p, p ≠ c.p → s'.entries p = s.entries p
  /-- It can be made the other way round, from a state like that. -/
  undone : ∀ t, (∀ p, t.entries p = s'.entries p) →
    ((s'.sem_undo c.p).isSome → (t.sem_undo c.p).isSome) →
    (unadj v c op t).sem = t.sem ∧ (∀ p, (unadj v c op t).entries p = s.entries p) ∧
      ((s.sem_undo c.p).isSome → ((unadj v c op t).sem_undo c.p).isSome)

theorem semadj_done (h : Inv v s) (hne : op.sem_op ≠ 0) (hs : semadj v c op s = (none, s')) :
    Adjusted v c op s s' := by
  unfold semadj at hs
  split_ifs at hs with hu
  swap
  · -- No adjustment is wanted.
    obtain rfl := (Prod.mk.inj hs).2
    have hun (t : State) : unadj v c op t = t := by rw [unadj, if_neg hu]
    exact ⟨rfl, h.good, by rw [applyUndo, if_neg fun h => hu h.1], fun _ _ => rfl,
      fun t ht hi => by rw [hun]; exact ⟨rfl, ht, hi⟩⟩
  obtain ⟨hsem, hv, l', ha, hl'⟩ := semaoe_done op.isShort hne hs
  have hg := h.entries c.p
  have hent (q : ℕ) : s'.entries q = if q = c.p then l' else s.entries q := by
    rw [State.entries, hl']
    split_ifs <;> rfl
  have hentp : s'.entries c.p = l' := by rw [hent, if_pos rfl]
  refine ⟨hsem, fun q l hq => ?_, ?_, fun q hq => by rw [hent, if_neg hq], fun t ht hi => ?_⟩
  · rw [hl'] at hq
    split_ifs at hq
    · exact Option.some.inj hq ▸ hg.adjust hv ha
    · exact h.good q l hq
  · rw [applyUndo, if_pos ⟨hu, hne⟩, ha, hentp]
  · have hsome : (t.sem_undo c.p).isSome := hi (by rw [hl', if_pos rfl]; rfl)
    obtain ⟨lt, hlt⟩ := Option.isSome_iff_exists.1 hsome
    obtain rfl : lt = l' := by
      have := ht c.p
      rw [hentp, State.entries, hlt] at this
      exact this
    have hroom : lt.length < (s.entries c.p).length →
        (decide (lt.length ≥ v.semume)) = false := by
      intro hlen
      have := hg.length
      exact decide_eq_false (by omega)
    obtain ⟨hsem', hun⟩ := semaoe_run hv.neg hlt (adjust_inverse hv hg.ordered hg.ok ha hroom)
    rw [unadj, if_pos hu]
    refine ⟨hsem', fun q => ?_, fun _ => by rw [hun, if_pos rfl]; rfl⟩
    rw [State.entries, hun]
    split_ifs with hq
    · rw [hq]
      rfl
    · exact (ht q).trans (by rw [hent, if_neg hq])

/-- The adjustment is made, and then the value is changed. -/
theorem Adjusted.done {x : Sem} (h : Inv v s) (hne : op.sem_op ≠ 0) (ha : Adjusted v c op s s')
    (hlo : 0 ≤ s.vals (c.base + op.sem_num) + op.sem_op)
    (hhi : s.vals (c.base + op.sem_num) + op.sem_op ≤ v.semvmx)
    (hval : x.semval = toUshort (s.vals (c.base + op.sem_num) + op.sem_op))
    (hpid : x.sempid = (s.sem (c.base + op.sem_num)).sempid) :
    Done v c op s (s'.set (c.base + op.sem_num) x) := by
  set i := c.base + op.sem_num with hi
  have hfits := v.fits
  have hx : x.semval = s.vals i + op.sem_op := hval.trans (toUshort_of_mem hlo (by omega))
  have hvals : (s'.set i x).vals = Function.update s.vals i (s.vals i + op.sem_op) := by
    funext j
    show ((s'.set i x).sem j).semval = _
    rw [set_sem, ha.sem]
    by_cases hj : j = i <;> simp [hj, hx, State.vals]
  refine ⟨⟨?_, ha.good⟩, ?_, fun j => ?_, ha.undo, ha.entries, fun t ht => ?_⟩
  · rw [hvals]
    intro j
    by_cases hj : j = i
    · rw [hj, Function.update_self]
      exact ⟨hlo, hhi⟩
    · rw [Function.update_of_ne hj]
      exact h.range j
  · rw [apply, hvals, ← hi]
    split_ifs <;> first | rfl | omega
  · rw [set_sem, ha.sem]
    split_ifs with hj
    · rw [hpid, hj]
    · rfl
  · -- What was added to the value is taken off again.
    rw [undoOp, if_neg hne]
    set u := t.set i { t.sem i with semval := toUshort ((t.sem i).semval - op.sem_op) } with hu
    obtain ⟨hsem, hent, hhas⟩ := ha.undone u (fun q => ht.entries q) ht.has
    have hti : (t.sem i).semval = x.semval := by simpa using ht.semval i
    have hr := h.range i
    have hback : toUshort (x.semval - op.sem_op) = s.vals i := by
      rw [hval]
      exact toUshort_sub_add _ _ hr.1 (by omega)
    refine ⟨⟨fun j => ?_, fun j => ?_, hent⟩, hhas⟩ <;> rw [hsem, hu, set_sem]
    · split_ifs with hj
      · rw [hj, hti]
        exact hback
      · have := ht.semval j
        rwa [set_sem, if_neg hj, ha.sem] at this
    · split_ifs with hj
      · have := ht.sempid i
        rw [set_sem, if_pos rfl, hpid] at this
        rw [hj]
        exact this
      · have := ht.sempid j
        rwa [set_sem, if_neg hj, ha.sem] at this

/-- An operation that was done can be undone. -/
theorem doOp_done (h : Inv v s) (hs : doOp v c op s = (.done, s')) : Done v c op s s' := by
  have hr := h.range (c.base + op.sem_num)
  unfold doOp at hs
  dsimp only at hs
  rcases lt_trichotomy op.sem_op 0 with hlt | h0 | hgt
  · rw [if_neg (by omega), if_pos hlt] at hs
    by_cases hge : (s.sem (c.base + op.sem_num)).semval ≥ -op.sem_op
    · rw [if_pos hge] at hs
      split at hs
      · simp at hs
      · rename_i s₁ ha
        obtain rfl := (Prod.mk.inj hs).2
        refine (semadj_done h hlt.ne ha).done h hlt.ne ?_ ?_ rfl rfl <;> unfold State.vals at * <;>
          omega
    · rw [if_neg hge] at hs
      simp at hs
  · rw [if_neg (by omega), if_neg (by omega)] at hs
    by_cases hz : (s.sem (c.base + op.sem_num)).semval ≠ 0
    · rw [if_pos hz] at hs
      simp at hs
    · rw [if_neg hz] at hs
      obtain rfl := (Prod.mk.inj hs).2
      refine ⟨h, ?_, fun _ => rfl, ?_, fun _ _ => rfl, fun t ht => ?_⟩
      · have hv : s.vals (c.base + op.sem_num) = 0 := not_not.1 hz
        rw [apply, if_neg (by omega), if_neg (by omega), if_pos hv]
      · rw [applyUndo, if_neg fun hu => hu.2 h0]
      · rw [undoOp, if_pos h0]
        exact ht
  · rw [if_pos hgt] at hs
    by_cases hmx : op.sem_op + (s.sem (c.base + op.sem_num)).semval > v.semvmx
    · rw [if_pos hmx] at hs
      simp at hs
    · rw [if_neg hmx] at hs
      split at hs
      · simp at hs
      · rename_i s₁ ha
        obtain rfl := (Prod.mk.inj hs).2
        refine (semadj_done h hgt.ne' ha).done h hgt.ne' ?_ ?_ rfl rfl <;> unfold State.vals at * <;>
          omega

/-- An adjustment that is not made changes nothing. -/
theorem semadj_error {e : Errno} (h : semadj v c op s = (some e, s')) : Like c.p s s' := by
  unfold semadj at h
  split_ifs at h
  · exact semaoe_error h
  · simp at h

/-- An operation that was not done has changed nothing. -/
theorem doOp_stop {o : Outcome} (ho : o ≠ .done) (hs : doOp v c op s = (o, s')) :
    Like c.p s s' := by
  unfold doOp at hs
  dsimp only at hs
  rcases ha : semadj v c op s with ⟨r, t⟩
  rw [ha] at hs
  cases r with
  | none =>
    -- the adjustment was made: the operation is done, or it did not get so far
    split_ifs at hs <;> first
      | exact absurd (Prod.mk.inj hs).1.symm ho
      | exact (Prod.mk.inj hs).2 ▸ .refl c.p s
  | some e =>
    split_ifs at hs <;> first
      | exact (Prod.mk.inj hs).2 ▸ semadj_error ha
      | exact (Prod.mk.inj hs).2 ▸ .refl c.p s

/-! ## Passes -/

/-- The end of a pass changes nothing either. -/
theorem stopAt_like (o : Outcome) (s : State) : Like c.p s (stopAt c op o s).2 := by
  have hset {f : Sem → Sem} (hf : ∀ x, (f x).semval = x.semval ∧ (f x).sempid = x.sempid) :
      Like c.p s (s.set (c.base + op.sem_num) (f (s.sem (c.base + op.sem_num)))) := by
    refine ⟨⟨fun i => ?_, fun i => ?_, fun _ => rfl⟩, id⟩ <;> rw [set_sem] <;> split_ifs with hi
    · rw [hi, (hf _).1]
    · rfl
    · rw [hi, (hf _).2]
    · rfl
  unfold stopAt
  dsimp only
  split
  · split_ifs
    · exact .refl c.p s
    · exact hset (f := fun x => { x with semncnt := toShort (x.semncnt + 1) }) fun _ => ⟨rfl, rfl⟩
  · split_ifs
    · exact .refl c.p s
    · exact hset (f := fun x => { x with semzcnt := toShort (x.semzcnt + 1) }) fun _ => ⟨rfl, rfl⟩
  · exact .refl c.p s

theorem stopAt_ne {o : Outcome} (ho : o ≠ .done) (s : State) : (stopAt c op o s).1 ≠ .done := by
  unfold stopAt
  dsimp only
  split
  · split_ifs <;> simp
  · split_ifs <;> simp
  · exact ho

theorem Like.inv {p : ℕ} (h : Like p s t) (hi : Inv v s) : Inv v t := by
  refine ⟨fun i => by rw [State.vals, h.semval]; exact hi.range i, fun q l hl => ?_⟩
  have := hi.entries q
  rw [← h.entries q, State.entries, hl] at this
  exact this

/-- A pass over operations does all, or changes nothing since before those done. -/
theorem doOps_spec {done ops : List Sembuf} {s₀ : State} {o : Outcome} (h₀ : Inv v s₀)
    (h : Inv v s) (hun : ∀ t, Like c.p s t → Like c.p s₀ (semundo v c done t))
    (hs : doOps v c done ops s = (o, s')) :
    (o ≠ .done → Like c.p s₀ s') ∧ Inv v s' ∧ (o = .done →
      ops.foldlM (apply v c.base) s.vals = some s'.vals ∧
      (∀ k, ∃ vals, (ops.take k).foldlM (apply v c.base) s.vals = some vals ∧ InRange v vals) ∧
      (∀ i, (s'.sem i).sempid = (s.sem i).sempid) ∧
      ops.foldlM (applyUndo v c.id) (s.entries c.p) = .ok (s'.entries c.p) ∧
      ∀ p, p ≠ c.p → s'.entries p = s.entries p) := by
  induction ops generalizing done s with
  | nil =>
    rw [doOps] at hs
    obtain ⟨rfl, rfl⟩ := Prod.mk.inj hs
    refine ⟨fun h => absurd rfl h, h, fun _ => ⟨rfl, fun k => ⟨s.vals, ?_, h.range⟩, fun _ => rfl,
      rfl, fun _ _ => rfl⟩⟩
    simp
  | cons op ops ih =>
    rw [doOps] at hs
    split at hs
    · rename_i s₁ hdo
      have hd := doOp_done h hdo
      obtain ⟨hstop, hinv, hall⟩ := ih hd.inv (fun t ht => hun (undoOp v c op t) (hd.undone t ht)) hs
      refine ⟨hstop, hinv, fun ho => ?_⟩
      obtain ⟨hvals, hrange, hpid, hundo, hent⟩ := hall ho
      refine ⟨?_, fun k => ?_, fun i => (hpid i).trans (hd.sempid i), ?_,
        fun p hp => (hent p hp).trans (hd.entries p hp)⟩
      · rw [List.foldlM_cons, hd.vals]
        exact hvals
      · cases k with
        | zero => exact ⟨s.vals, rfl, h.range⟩
        | succ k =>
          obtain ⟨vals, hk, hr⟩ := hrange k
          exact ⟨vals, by rw [List.take_succ_cons, List.foldlM_cons, hd.vals]; exact hk, hr⟩
      · rw [List.foldlM_cons, hd.undo]
        exact hundo
    · rename_i o' s₁ hne hdo
      have hlike : Like c.p s₀ (stopAt c op o' (semundo v c done s₁)).2 :=
        (hun s₁ (doOp_stop hne hdo)).trans (stopAt_like o' _)
      have hout : (stopAt c op o' (semundo v c done s₁)).1 ≠ .done := stopAt_ne hne _
      rw [hs] at hlike hout
      exact ⟨fun _ => hlike, hlike.inv h₀, fun ho => absurd ho hout⟩

theorem foldl_setpid (ops : List Sembuf) (pid : ℤ) (base : ℕ) (s : State) :
    (ops.foldl (fun s op => setpid pid (base + op.sem_num) s) s).sem_undo = s.sem_undo ∧
      ∀ i, ((ops.foldl (fun s op => setpid pid (base + op.sem_num) s) s).sem i).semval =
          (s.sem i).semval ∧
        ((ops.foldl (fun s op => setpid pid (base + op.sem_num) s) s).sem i).sempid =
          if ∃ op ∈ ops, i = base + op.sem_num then pid else (s.sem i).sempid := by
  induction ops generalizing s with
  | nil => simp
  | cons op ops ih =>
    obtain ⟨hu, hs⟩ := ih (setpid pid (base + op.sem_num) s)
    refine ⟨hu, fun i => ?_⟩
    obtain ⟨hval, hpid⟩ := hs i
    rw [List.foldl_cons, hval, hpid, setpid, set_sem]
    simp only [List.mem_cons, exists_eq_or_imp]
    by_cases hi : i = base + op.sem_num
    · simp [hi]
    · simp [hi]

/-- A pass of `semop` changes nothing, or applies all operations. -/
theorem semop_spec {c : Call} {o : Outcome} (h : Inv v s) (hs : semop v c s = (o, s')) :
    Inv v s' ∧ (o ≠ .done → Unchanged s s') ∧
      (o = .done → ∃ sp, semconv v s c.semid = some sp ∧ Applied v c sp.sem_base s s') := by
  have hfail {e : Errno} (he : (Outcome.error e, s) = (o, s')) : Inv v s' ∧
      (o ≠ .done → Unchanged s s') ∧
      (o = .done → ∃ sp, semconv v s c.semid = some sp ∧ Applied v c sp.sem_base s s') := by
    obtain ⟨rfl, rfl⟩ := Prod.mk.inj he
    exact ⟨h, fun _ => ⟨fun _ => rfl, fun _ => rfl, fun _ => rfl⟩, fun ho => by simp at ho⟩
  unfold semop at hs
  cases hsp : semconv v s c.semid with
  | none =>
    rw [hsp] at hs
    exact hsp ▸ hfail hs
  | some sp =>
    rw [hsp] at hs hfail
    dsimp only at hs
    by_cases h₁ : ¬c.again = true ∧ c.sops.length > v.semopm
    · rw [if_pos h₁] at hs
      exact hfail hs
    rw [if_neg h₁] at hs
    by_cases h₂ : c.fault = true
    · rw [if_pos h₂] at hs
      exact hfail hs
    rw [if_neg h₂] at hs
    have hun : ∀ t, Like c.p s t → Like c.p s (semundo v ⟨c.p, c.semid, sp.sem_base⟩ [] t) :=
      fun _ => id
    split at hs
    · exact hfail hs
    split at hs
    · rename_i s₁ hdo
      obtain ⟨hstop, hinv, hall⟩ := doOps_spec h h hun hdo
      obtain ⟨hvals, hrange, hpid, hundo, hent⟩ := hall rfl
      obtain ⟨rfl, rfl⟩ := Prod.mk.inj hs
      obtain ⟨hu, hsem⟩ := foldl_setpid c.sops c.pid sp.sem_base s₁
      set s₂ := c.sops.foldl (fun s op => setpid c.pid (sp.sem_base + op.sem_num) s) s₁
      have hvals₂ : s₂.vals = s₁.vals := funext fun i => (hsem i).1
      have hent₂ (q : ℕ) : s₂.entries q = s₁.entries q := by rw [State.entries, hu]; rfl
      refine ⟨⟨hvals₂ ▸ hinv.range, fun q l hl => hinv.good q l (hu ▸ hl)⟩,
        fun ho => absurd rfl ho, fun _ => ⟨sp, rfl, hvals₂ ▸ hvals, hrange, fun i => ?_,
          (hent₂ c.p) ▸ hundo, fun q hq => (hent₂ q).trans (hent q hq)⟩⟩
      rw [(hsem i).2, hpid i]
    · rename_i o' s₁ hne hdo
      obtain ⟨hstop, hinv, -⟩ := doOps_spec h h hun hdo
      obtain ⟨rfl, rfl⟩ := Prod.mk.inj hs
      exact ⟨hinv, fun ho => (hstop ho).toUnchanged, fun ho => absurd ho hne⟩

/-! ## Runs -/

theorem Inv.set {i : ℕ} {x : Sem} (h : Inv v s) (hx : 0 ≤ x.semval ∧ x.semval ≤ v.semvmx) :
    Inv v (s.set i x) := by
  refine ⟨fun j => ?_, h.good⟩
  rw [State.vals, set_sem]
  split_ifs
  · exact hx
  · exact h.range j

theorem Inv.setSem {val pid : ℤ} {i : ℕ} (h : Inv v s) (hval : 0 ≤ val ∧ val ≤ v.semvmx) :
    Inv v (setSem val pid i s) := by
  have hfits := v.fits
  refine h.set ?_
  dsimp only
  rw [toUshort_of_mem hval.1 (by omega)]
  exact hval

theorem Inv.setSems {vals : List ℤ} {pid : ℤ} {i : ℕ} (h : Inv v s)
    (hvals : ∀ val ∈ vals, 0 ≤ val ∧ val ≤ v.semvmx) : Inv v (setSems pid vals i s) := by
  induction vals generalizing i s with
  | nil => exact h
  | cons val vals ih =>
    obtain ⟨hval, hvals⟩ := List.forall_mem_cons.1 hvals
    exact ih (h.setSem hval) hvals

theorem unrm_sublist (id low high : ℤ) (l : List Undo) : (unrm id low high l).Sublist l := by
  induction l with
  | nil => exact .slnil
  | cons e l ih =>
    rw [unrm]
    split_ifs
    · exact .refl _
    · exact ih.cons_cons e
    · exact .refl _
    · exact ih.cons e

theorem Inv.semunrm {id low high : ℤ} (h : Inv v s) : Inv v (semunrm id low high s) := by
  refine ⟨h.range, fun p l hl => ?_⟩
  unfold Semaphores.semunrm at hl
  dsimp only at hl
  split_ifs at hl
  · obtain ⟨l', hl', rfl⟩ := Option.map_eq_some_iff.1 hl
    exact (h.good p l' hl').sublist (unrm_sublist id low high l')
  · exact h.good p l hl

theorem Inv.setval {pid id : ℤ} {num val : ℕ} (h : Inv v s) : Inv v (setval v pid id num val s) := by
  unfold Semaphores.setval
  split
  · exact h
  · split_ifs with hc
    · exact h
    · refine (h.setSem ?_).semunrm
      omega

theorem Inv.setall {pid id : ℤ} {vals : List ℕ} (h : Inv v s) : Inv v (setall v pid id vals s) := by
  unfold Semaphores.setall
  split
  · exact h
  · split_ifs with hc
    · exact h
    · refine h.semunrm.setSems fun val hval => ?_
      obtain ⟨n, hn, rfl⟩ := List.mem_map.1 hval
      simp only [List.any_eq_true, decide_eq_true_eq, not_exists, not_and, not_lt] at hc
      exact ⟨Int.natCast_nonneg n, hc n hn⟩

theorem Inv.rmid {id : ℤ} (h : Inv v s) : Inv v (rmid v id s) := by
  unfold Semaphores.rmid
  split
  · exact h
  · rename_i sp _
    have hu : Inv v (Semaphores.semunrm id 0 sp.sem_nsems s) := h.semunrm
    refine ⟨fun i => ?_, hu.good⟩
    unfold State.vals
    dsimp only
    split_ifs
    · exact ⟨le_rfl, v.semvmx_nonneg⟩
    · exact hu.range i

theorem Inv.adjustOnExit {e : Undo} (h : Inv v s) : Inv v (adjustOnExit v s e) := by
  unfold Semaphores.adjustOnExit
  split
  · exact h
  · rename_i sp _
    dsimp only
    by_cases hc : (s.sem (sp.sem_base + e.un_num).toNat).semval + e.un_aoe < 0 ∨
        (s.sem (sp.sem_base + e.un_num).toNat).semval + e.un_aoe > v.semvmx
    · rw [if_pos hc]
      exact h
    · rw [if_neg hc]
      have hfits := v.fits
      refine h.set ?_
      dsimp only
      rw [toUshort_of_mem (by omega) (by omega)]
      omega

theorem Inv.semexit {p : ℕ} (h : Inv v s) : Inv v (semexit v p s) := by
  unfold Semaphores.semexit
  split
  · exact h
  · rename_i l _
    have hf (l : List Undo) (s : State) (h : Inv v s) : Inv v (l.foldl (Semaphores.adjustOnExit v) s) := by
      induction l generalizing s with
      | nil => exact h
      | cons e l ih => exact ih _ h.adjustOnExit
    have h' := hf l.reverse s h
    refine ⟨h'.range, fun q l' hl => ?_⟩
    dsimp only at hl
    by_cases hq : q = p
    · simp [hq] at hl
    · rw [Function.update_of_ne hq] at hl
      exact h'.good q l' hl

theorem Inv.eintr {i : ℕ} {zero : Bool} (h : Inv v s) : Inv v (eintr i zero s) := by
  unfold Semaphores.eintr
  refine h.set ?_
  split_ifs <;> exact h.range i

/-- The invariant holds in every run. -/
theorem inv_of_reachable (hs : (semaphores v).Reachable s) : Inv v s := by
  refine hs.invariant (fun s h => ?_) fun s a s' h _ hn => ?_
  · obtain ⟨hsem, -, hu, -⟩ := h
    refine ⟨fun i => ?_, fun p l hl => by simp [hu] at hl⟩
    rw [State.vals, hsem]
    exact ⟨le_rfl, v.semvmx_nonneg⟩
  · cases a with
    | semop c => exact Option.some.inj hn ▸ (semop_spec h rfl).1
    | eintr i zero => exact Option.some.inj hn ▸ h.eintr
    | setval pid id num val => exact Option.some.inj hn ▸ h.setval
    | setall pid id vals => exact Option.some.inj hn ▸ h.setall
    | rmid id => exact Option.some.inj hn ▸ h.rmid
    | semget i base nsems => exact Option.some.inj hn ▸ ⟨h.range, h.good⟩
    | semexit p => exact Option.some.inj hn ▸ h.semexit

/-- In every run all values are in range, and a pass of `semop` applies all its
    operations, if it is done, or changes nothing. -/
theorem semop_atomic (v : Config) : ∀ s, (semaphores v).Reachable s → InRange v s.vals ∧
    ∀ c, ((semop v c s).1 ≠ .done → Unchanged s (semop v c s).2) ∧
      ((semop v c s).1 = .done →
        ∃ sp, semconv v s c.semid = some sp ∧ Applied v c sp.sem_base s (semop v c s).2) := by
  intro s hs
  have h := inv_of_reachable hs
  exact ⟨h.range, fun c => (semop_spec h rfl).2⟩

/-- A system with one set, of two semaphores. -/
def pairConfig : Config := ⟨10, 10, 10, 32767, 16384, by decide, by decide⟩

def pairStart : State := ⟨fun _ => ⟨false, 0, 0, 0⟩, fun _ => ⟨0, 0, 0, 0⟩, fun _ => none, [], 30⟩

/-- The first semaphore is increased, but the second one cannot be decreased. -/
def pairCall : Call where
  p := 3
  pid := 30
  semid := 0
  sops := [⟨0, 2, true, false, by decide⟩, ⟨1, -1, true, true, by decide⟩]
  again := false
  access _ := true
  fault := false

/-- So nothing changes. -/
theorem unchanged_pairCall :
    (semop pairConfig pairCall (semget 0 0 2 pairStart)).1 = .error .eagain ∧
      Unchanged (semget 0 0 2 pairStart) (semop pairConfig pairCall (semget 0 0 2 pairStart)).2 := by
  have hout : (semop pairConfig pairCall (semget 0 0 2 pairStart)).1 = .error .eagain := rfl
  refine ⟨hout, ((semop_atomic pairConfig (semget 0 0 2 pairStart)
    (.step (a := .semget 0 0 2) (.init ?_) trivial rfl)).2 pairCall).1 (by rw [hout]; simp)⟩
  exact ⟨fun _ => rfl, fun _ => rfl, fun _ => rfl, rfl⟩

end AuxKernel.Semaphores
