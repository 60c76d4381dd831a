import AuxKernel.Semaphores.Shared
import AuxKernel.Semaphores.Atomic

/-!
# Whose operations are done, and on what

What a process does with the operations in the shared buffer is *lawful* (`Lawful`) if they are
those that it has read itself, on the semaphores of the set that was checked for it, which it
changes only if that was checked.

* `Frame`: what operations do not touch, kept by all parts of a pass (`doOps_frame`);
* `Event.Fair`: nobody changes a byte that another process has copied in, and operations that
  are copied in again would pass the check that was made of the first ones;
* `Shared.Inv`, `Inv.next`: what holds in the runs that are fair;
* `semop_lawful`: the steps of these runs are lawful.
-/

namespace AuxKernel.Semaphores

variable {v : Config} {s s' t : State} {c : Target} {op : Sembuf} {ops done l l' : List Sembuf}

/-! ## What a pass touches -/

/-- Only the semaphores of the operations `l` are touched, on the set with the first semaphore
    `base`, and only the values of those of them that are not for zero. -/
structure Frame (base : ℕ) (l : List Sembuf) (s t : State) : Prop where
  sema : t.sema = s.sema
  sem : ∀ i, t.sem i ≠ s.sem i → ∃ op ∈ l, i = base + op.sem_num
  semval : ∀ i, (t.sem i).semval ≠ (s.sem i).semval →
    ∃ op ∈ l, op.sem_op ≠ 0 ∧ i = base + op.sem_num

theorem Frame.refl (base : ℕ) (l : List Sembuf) (s : State) : Frame base l s s :=
  ⟨rfl, fun _ h => absurd rfl h, fun _ h => absurd rfl h⟩

theorem Frame.mono {base : ℕ} (h : Frame base l s t) (hl : l ⊆ l') : Frame base l' s t := by
  refine ⟨h.sema, fun i hi => ?_, fun i hi => ?_⟩
  · obtain ⟨op, hop, heq⟩ := h.sem i hi
    exact ⟨op, hl hop, heq⟩
  · obtain ⟨op, hop, heq⟩ := h.semval i hi
    exact ⟨op, hl hop, heq⟩

theorem Frame.trans {base : ℕ} (h : Frame base l s t) (h' : Frame base l t s') :
    Frame base l s s' := by
  refine ⟨h'.sema.trans h.sema, fun i hi => ?_, fun i hi => ?_⟩
  · by_cases ht : t.sem i = s.sem i
    · exact h'.sem i (ht ▸ hi)
    · exact h.sem i ht
  · by_cases ht : (t.sem i).semval = (s.sem i).semval
    · exact h'.semval i (ht ▸ hi)
    · exact h.semval i ht

/-- Semaphores are as they were. -/
theorem Frame.of_sem {base : ℕ} (hsema : t.sema = s.sema) (hsem : t.sem = s.sem) :
    Frame base l s t :=
  ⟨hsema, fun i h => absurd (congrFun hsem i) h,
    fun i h => absurd (congrArg Sem.semval (congrFun hsem i)) h⟩

/-- An operation sets its semaphore. -/
theorem Frame.set {base : ℕ} {x : Sem} (hop : op ∈ l)
    (hx : x.semval ≠ (s.sem (base + op.sem_num)).semval → op.sem_op ≠ 0) :
    Frame base l s (s.set (base + op.sem_num) x) := by
  refine ⟨rfl, fun i hi => ⟨op, hop, ?_⟩, fun i hi => ?_⟩
  · by_contra hne
    exact hi (Function.update_of_ne hne ..)
  · have heq : i = base + op.sem_num := by
      by_contra hne
      exact hi (congrArg Sem.semval (Function.update_of_ne hne ..))
    subst heq
    refine ⟨op, hop, hx fun h => hi ?_, rfl⟩
    exact (congrArg Sem.semval (Function.update_self ..)).trans h

theorem adjustEntries_sem (v : Config) (p : ℕ) (val id num : ℤ) (l : List Undo) (s : State) :
    (adjustEntries v p val id num l s).2.sem = s.sem ∧
      (adjustEntries v p val id num l s).2.sema = s.sema := by
  rw [adjustEntries]
  split
  · exact ⟨rfl, rfl⟩
  · exact ⟨rfl, rfl⟩

/-- An adjustment touches no semaphore. -/
theorem semaoe_sem (v : Config) (p : ℕ) (val id num : ℤ) (s : State) :
    (semaoe v p val id num s).2.sem = s.sem ∧ (semaoe v p val id num s).2.sema = s.sema := by
  rw [semaoe]
  by_cases h0 : val = 0
  · rw [if_pos h0]
    exact ⟨rfl, rfl⟩
  rw [if_neg h0]
  by_cases hr : val > v.semaem ∨ val < -v.semaem
  · rw [if_pos hr]
    exact ⟨rfl, rfl⟩
  rw [if_neg hr]
  split
  · exact adjustEntries_sem ..
  · split_ifs
    · exact ⟨rfl, rfl⟩
    · exact adjustEntries_sem ..

theorem semadj_frame (v : Config) (c : Target) (op : Sembuf) (base : ℕ) (l : List Sembuf)
    (s : State) : Frame base l s (semadj v c op s).2 := by
  rw [semadj]
  split_ifs
  · exact .of_sem (semaoe_sem ..).2 (semaoe_sem ..).1
  · exact .refl ..

/-- What an operation touches, whether or not it is done. -/
theorem doOp_frame (v : Config) (c : Target) (op : Sembuf) (s : State) :
    Frame c.base [op] s (doOp v c op s).2 := by
  have hmem : op ∈ [op] := List.mem_singleton_self op
  have hadj := semadj_frame v c op c.base [op] s
  rw [doOp]
  dsimp only
  rcases ha : semadj v c op s with ⟨r, t⟩
  rw [ha] at hadj
  by_cases hpos : op.sem_op > 0
  · rw [if_pos hpos]
    by_cases hmax : op.sem_op + (s.sem (c.base + op.sem_num)).semval > v.semvmx
    · rw [if_pos hmax]
      exact .refl ..
    · rw [if_neg hmax]
      cases r with
      | none => exact hadj.trans (.set hmem fun _ => hpos.ne')
      | some e => exact hadj
  rw [if_neg hpos]
  by_cases hneg : op.sem_op < 0
  · rw [if_pos hneg]
    by_cases hval : (s.sem (c.base + op.sem_num)).semval ≥ -op.sem_op
    · rw [if_pos hval]
      cases r with
      | none => exact hadj.trans (.set hmem fun _ => hneg.ne)
      | some e => exact hadj
    · rw [if_neg hval]
      exact .refl ..
  · rw [if_neg hneg]
    split_ifs
    · exact .refl ..
    · exact .refl ..

theorem undoOp_frame (hop : op ∈ l) (s : State) : Frame c.base l s (undoOp v c op s) := by
  rw [undoOp]
  dsimp only
  split_ifs with h0
  · exact .refl ..
  · rw [unadj]
    split_ifs
    · exact (Frame.set hop fun _ => h0).trans (.of_sem (semaoe_sem ..).2 (semaoe_sem ..).1)
    · exact .set hop fun _ => h0

theorem semundo_frame (hl : done ⊆ l) (s : State) : Frame c.base l s (semundo v c done s) := by
  induction done generalizing s with
  | nil => exact .refl ..
  | cons op done ih =>
    obtain ⟨hop, hdone⟩ := List.cons_subset.1 hl
    exact (undoOp_frame hop s).trans (ih hdone _)

theorem stopAt_frame {o : Outcome} (hop : op ∈ l) (s : State) :
    Frame c.base l s (stopAt c op o s).2 := by
  cases o with
  | done => exact .refl ..
  | error e => exact .refl ..
  | sleepn =>
    dsimp only [stopAt]
    split_ifs
    · exact .refl ..
    · exact .set hop fun h => absurd rfl h
  | sleepz =>
    dsimp only [stopAt]
    split_ifs
    · exact .refl ..
    · exact .set hop fun h => absurd rfl h

/-- A pass touches the semaphores of the operations that it comes to. -/
theorem doOps_frame (hd : done ⊆ l) (hr : reached v c ops s ⊆ l) :
    Frame c.base l s (doOps v c done ops s).2 := by
  induction ops generalizing done s with
  | nil => exact .refl ..
  | cons op ops ih =>
    have hop : op ∈ l := hr List.mem_cons_self
    have hdo := (doOp_frame v c op s).mono (List.cons_subset.2 ⟨hop, List.nil_subset l⟩)
    rw [reached] at hr
    rw [doOps]
    rcases ho : doOp v c op s with ⟨o, t⟩
    rw [ho] at hr hdo
    cases o with
    | done => exact hdo.trans (ih (List.cons_subset.2 ⟨hop, hd⟩)
        fun x hx => hr (List.mem_cons_of_mem op hx))
    | error e => exact hdo.trans ((semundo_frame hd t).trans (stopAt_frame hop _))
    | sleepn => exact hdo.trans ((semundo_frame hd t).trans (stopAt_frame hop _))
    | sleepz => exact hdo.trans ((semundo_frame hd t).trans (stopAt_frame hop _))

/-- All operations of a pass that is done have been reached. -/
theorem reached_of_done (h : (doOps v c done ops s).1 = .done) : reached v c ops s = ops := by
  induction ops generalizing done s with
  | nil => rfl
  | cons op ops ih =>
    rw [doOps] at h
    rw [reached]
    rcases ho : doOp v c op s with ⟨o, t⟩
    rw [ho] at h
    cases o with
    | done => exact congrArg _ (ih h)
    | error e => exact absurd h (stopAt_ne Outcome.noConfusion _)
    | sleepn => exact absurd h (stopAt_ne Outcome.noConfusion _)
    | sleepz => exact absurd h (stopAt_ne Outcome.noConfusion _)

theorem foldl_setpid_frame {base : ℕ} {pid : ℤ} (hl : ops ⊆ l) (s : State) :
    Frame base l s (ops.foldl (fun s op => setpid pid (base + op.sem_num) s) s) := by
  induction ops generalizing s with
  | nil => exact .refl ..
  | cons op ops ih =>
    obtain ⟨hop, hops⟩ := List.cons_subset.1 hl
    have hset : Frame base l s (setpid pid (base + op.sem_num) s) := .set hop fun h => absurd rfl h
    exact hset.trans (ih hops _)

/-- The semaphore to sleep on is that of an operation that the pass came to. -/
theorem sleepOn_mem (base : ℕ) (h : l ≠ []) : ∃ op ∈ l, sleepOn base l = base + op.sem_num := by
  refine ⟨l.getLast h, List.getLast_mem h, ?_⟩
  rw [sleepOn, List.getLast?_eq_getLast_of_ne_nil h]
  rfl

/-! ## Lawful steps -/

/-- A process goes on with operations that it has read itself, and touches only what it was
    given access to. -/
structure Lawful (v : Config) (u : ℕ → Cred) (p : ℕ) (pid : ℤ) (a : Args) (g : Option Grant)
    (s : Shared) : Prop where
  own : semops s.semtmp a.nsops = semops (s.own p) a.nsops
  set : accessed v u p a g s ≠ [] →
    (grant v a g s).set = s.set v a.semid ∧ (s.set v a.semid).alloc = true
  inside : ∀ op ∈ accessed v u p a g s, op.sem_num < (grant v a g s).set.sem_nsems
  covered : ∀ op ∈ accessed v u p a g s, op.sem_op ≠ 0 → (grant v a g s).alter = true
  access : g = none → ∀ op ∈ accessed v u p a g s,
    ipcaccess (u p) (s.perm (a.semid % v.semmni)) (if op.sem_op ≠ 0 then SEM_A else SEM_R) = true
  frame : Frame (s.set v a.semid).sem_base (accessed v u p a g s) s.toState
    (pass v u p pid a g s).toState

/-- A process that is interrupted touches the semaphore that it sleeps on. -/
structure LawfulIntr (v : Config) (a : Args) (g : Grant) (i : ℕ) (s : Shared) : Prop where
  set : g.set = s.set v a.semid ∧ g.set.alloc = true
  inside : g.set.sem_base ≤ i ∧ i < g.set.sem_base + g.set.sem_nsems

/-- What `semop` does in a step is lawful. -/
def Event.Lawful (v : Config) (u : ℕ → Cred) (s : Shared) : Event → Prop
  | .go p pid => ∀ a g, s.pc p = .copy (.ops a g) (6 * a.nsops) → Semaphores.Lawful v u p pid a g s
  | .wake p true => ∀ a g i zero, s.pc p = .wait a g i zero → LawfulIntr v a g i s
  | _ => True

/-- Nobody changes a byte that another process has copied in. What is copied in for the first
    time is for a set that is still there, unless access to it is refused; after that it is for
    the same set, in its range, and alters it only if that was checked. -/
def Event.Fair (v : Config) (u : ℕ → Cred) (s : Shared) : Event → Prop
  | .copyin q b => ∀ j k, s.pc q = .copy j k → ∀ p a g l, p ≠ q → s.pc p = .copy (.ops a g) l →
    k < l → b = s.semtmp k
  | .go p _ => ∀ a g, s.pc p = .copy (.ops a g) (6 * a.nsops) →
    match g with
    | none => (s.set v a.semid).alloc = true ∨ (u p).u_uid ≠ 0
    | some g => g.set = s.set v a.semid ∧ ∀ op ∈ semops s.semtmp a.nsops,
      op.sem_num < g.set.sem_nsems ∧ (op.sem_op ≠ 0 → g.alter = true)
  | .wake p true => ∀ a g i zero, s.pc p = .wait a g i zero → g.set = s.set v a.semid
  | _ => True

/-- What holds of a process: the bytes that it has copied in are its own; it was given access to
    a set; and it sleeps on a semaphore of this. -/
def PcOk (b : ℕ → BitVec 8) (own : ℕ → BitVec 8) : Pc → Prop
  | .copy (.ops _ g) k => (∀ j < k, b j = own j) ∧ ∀ x ∈ g, x.set.alloc = true
  | .wait _ g i _ => g.set.alloc = true ∧
    g.set.sem_base ≤ i ∧ i < g.set.sem_base + g.set.sem_nsems
  | _ => True

/-- Nobody but root has access to a set that is gone, and all processes are as they should. -/
structure Shared.Inv (s : Shared) : Prop where
  mode : ∀ i, (s.sema i).alloc = true ∨ (s.perm i).mode = 0
  procs : ∀ p, PcOk s.semtmp (s.own p) (s.pc p)

section Step

variable {u : ℕ → Cred} {s s' : Shared} {p : ℕ} {pid : ℤ} {a : Args} {g : Option Grant}

theorem semops_congr {b b' : ℕ → BitVec 8} {n : ℕ} (h : ∀ j < 6 * n, b j = b' j) :
    semops b n = semops b' n := by
  refine List.map_congr_left fun k hk => ?_
  have hk := List.mem_range.1 hk
  have hword (i : ℕ) (hi : i < 3) : word b (3 * k + i) = word b' (3 * k + i) := by
    rw [word, word, h _ (by omega), h _ (by omega)]
  have h0 := hword 0 (by decide)
  have h1 := hword 1 (by decide)
  have h2 := hword 2 (by decide)
  rw [Nat.add_zero] at h0
  simp only [sembuf, h0, h1, h2]

theorem reached_subset (s : State) : reached v c ops s ⊆ ops := by
  induction ops generalizing s with
  | nil => exact List.Subset.refl _
  | cons op ops ih =>
    rw [reached]
    refine List.cons_subset_cons op ?_
    rcases doOp v c op s with ⟨o, t⟩
    cases o with
    | done => exact ih t
    | error e => exact List.nil_subset ops
    | sleepn => exact List.nil_subset ops
    | sleepz => exact List.nil_subset ops

/-- To a set without modes only root has access. -/
theorem ipcaccess_eq_false {u : Cred} {perm : Perm} (hu : u.u_uid ≠ 0) (hm : perm.mode = 0)
    (mode : BitVec 16) : ipcaccess u perm mode = false := by
  rw [ipcaccess, hm]
  exact decide_eq_false (not_or.2 ⟨hu, fun h => h BitVec.and_zero⟩)

theorem accessed_subset : accessed v u p a g s ⊆ semops s.semtmp a.nsops := by
  rw [accessed]
  split_ifs
  · exact List.nil_subset _
  · exact reached_subset _

/-- Operations that are done after the first check have passed it. -/
theorem not_deny (h : op ∈ accessed v u p a none s) :
    ipcaccess (u p) (s.perm (a.semid % v.semmni)) (if op.sem_op ≠ 0 then SEM_A else SEM_R) = true ∧
      op.sem_num < (s.set v a.semid).sem_nsems := by
  have hop := accessed_subset h
  rw [accessed] at h
  split_ifs at h with hr
  · exact absurd h List.not_mem_nil
  · have hdeny : deny (u p) (s.perm (a.semid % v.semmni)) (s.set v a.semid) op = false := by
      by_contra hd
      refine hr (decide_eq_true ⟨rfl, List.any_eq_true.2 ⟨op, hop, ?_⟩⟩)
      exact Bool.eq_true_of_not_eq_false hd
    simpa [deny] using hdeny

/-- How a pass ends: the process is in no call, or sleeps on the semaphore of an operation. -/
def Ends (v : Config) (u : ℕ → Cred) (p : ℕ) (a : Args) (g : Option Grant) (s : Shared) :
    Pc → Prop
  | .wait a' g' i _ => a' = a ∧ g' = grant v a g s ∧
    ∃ op ∈ accessed v u p a g s, i = (s.set v a.semid).sem_base + op.sem_num
  | .copy _ _ => False
  | .idle => True

/-- A pass touches what the operations are on, and ends. -/
theorem pass_spec (v : Config) (u : ℕ → Cred) (p : ℕ) (pid : ℤ) (a : Args) (g : Option Grant)
    (s : Shared) : ∃ t x, pass v u p pid a g s = (s.lift t).setPc p x ∧
      Frame (s.set v a.semid).sem_base (accessed v u p a g s) s.toState t ∧ Ends v u p a g s x := by
  rw [pass]
  by_cases hr : refused v u p a g s
  · rw [if_pos hr]
    exact ⟨s.toState, .idle, rfl, .refl .., trivial⟩
  have hacc : accessed v u p a g s =
      reached v (target v p a s) (semops s.semtmp a.nsops) s.toState := if_neg hr
  have hf : Frame (target v p a s).base (accessed v u p a g s) s.toState
      (doOps v (target v p a s) [] (semops s.semtmp a.nsops) s.toState).2 :=
    doOps_frame (List.nil_subset _) (by rw [hacc]; exact List.Subset.refl _)
  rw [if_neg hr]
  dsimp only
  rw [← hacc]
  rcases ho : doOps v (target v p a s) [] (semops s.semtmp a.nsops) s.toState with ⟨o, t⟩
  rw [ho] at hf
  -- A pass that is not done came to an operation.
  have hsleep (hne : o ≠ .done) : ∃ op ∈ accessed v u p a g s,
      sleepOn (target v p a s).base (accessed v u p a g s) =
        (s.set v a.semid).sem_base + op.sem_num := by
    refine sleepOn_mem _ fun hnil => hne ?_
    rw [hacc] at hnil
    cases hops : semops s.semtmp a.nsops with
    | nil =>
      rw [hops] at ho
      exact (Prod.mk.inj ho).1.symm
    | cons op ops =>
      rw [hops, reached] at hnil
      exact absurd hnil (List.cons_ne_nil _ _)
  cases o with
  | done =>
    -- All operations are done, so all were reached, and the process is noted on their semaphores.
    have hsub : semops s.semtmp a.nsops ⊆ accessed v u p a g s := by
      rw [hacc, reached_of_done (congrArg Prod.fst ho)]
      exact List.Subset.refl _
    exact ⟨_, .idle, rfl, hf.trans (foldl_setpid_frame hsub t), trivial⟩
  | error e => exact ⟨t, .idle, rfl, hf, trivial⟩
  | sleepn => exact ⟨t, _, rfl, hf, rfl, rfl, hsleep Outcome.noConfusion⟩
  | sleepz => exact ⟨t, _, rfl, hf, rfl, rfl, hsleep Outcome.noConfusion⟩

theorem pass_frame : Frame (s.set v a.semid).sem_base (accessed v u p a g s) s.toState
    (pass v u p pid a g s).toState := by
  obtain ⟨t, x, heq, hf, -⟩ := pass_spec v u p pid a g s
  rw [heq]
  exact hf

/-- In a fair step, what a process does with the operations is lawful. -/
theorem lawful_go (h : s.Inv) (hp : s.pc p = .copy (.ops a g) (6 * a.nsops))
    (hfair : (Event.go p pid).Fair v u s) : Lawful v u p pid a g s := by
  obtain ⟨hown, hg⟩ : (∀ j < 6 * a.nsops, s.semtmp j = s.own p j) ∧
      ∀ x ∈ g, x.set.alloc = true := by
    have := h.procs p
    rwa [hp] at this
  have hfair := hfair a g hp
  cases g with
  | none =>
    refine ⟨semops_congr hown, fun hne => ⟨rfl, ?_⟩, fun op hop => (not_deny hop).2,
      fun op hop h0 => ?_, fun _ op hop => (not_deny hop).1, pass_frame⟩
    · -- If the set is gone, then it has no modes, and the caller, who is not root, no access.
      obtain ⟨op, hop⟩ := List.exists_mem_of_ne_nil _ hne
      refine hfair.elim id fun hu => (h.mode _).elim id fun hm => ?_
      have := (not_deny hop).1
      rw [ipcaccess_eq_false hu hm] at this
      exact Bool.noConfusion this
    · exact List.any_eq_true.2 ⟨op, accessed_subset hop, decide_eq_true h0⟩
  | some x =>
    obtain ⟨hset, hops⟩ := hfair
    have halloc := hg x rfl
    refine ⟨semops_congr hown, fun _ => ⟨hset, hset ▸ halloc⟩, fun op hop => ?_,
      fun op hop h0 => ?_, fun hn => absurd hn (Option.some_ne_none x), pass_frame⟩
    · exact (hops op (accessed_subset hop)).1
    · exact (hops op (accessed_subset hop)).2 h0

theorem lawful_wake (h : s.Inv) {i : ℕ} {zero : Bool} {g : Grant} (hp : s.pc p = .wait a g i zero)
    (hfair : (Event.wake p true).Fair v u s) : LawfulIntr v a g i s := by
  have hok := h.procs p
  rw [hp] at hok
  exact ⟨⟨hfair a g i zero hp, hok.1⟩, hok.2⟩

/-- What is lawful in a state where the invariant holds. -/
theorem Shared.Inv.lawful (h : s.Inv) {e : Event} (hfair : e.Fair v u s) : e.Lawful v u s := by
  cases e with
  | go p pid => exact fun a g hp => lawful_go h hp hfair
  | wake p signal =>
    cases signal with
    | true => exact fun a g i zero hp => lawful_wake h hp hfair
    | false => exact trivial
  | _ => exact trivial

/-! ## Steps -/

/-- A process goes on, and leaves what others have copied in as it is. -/
theorem Shared.Inv.setPc {x : Pc} (h : s.Inv) (hx : PcOk s.semtmp (s.own p) x) :
    (s.setPc p x).Inv := by
  refine ⟨h.mode, fun q => ?_⟩
  change PcOk s.semtmp (s.own q) (Function.update s.pc p x q)
  by_cases hq : q = p
  · rw [hq, Function.update_self]
    exact hx
  · rw [Function.update_of_ne hq]
    exact h.procs q

theorem Shared.Inv.lift {t : State} (h : s.Inv) (ht : t.sema = s.sema) : (s.lift t).Inv :=
  ⟨fun i => (congrFun ht i).symm ▸ h.mode i, h.procs⟩

/-- The sets and their permissions change, in one place. -/
theorem Shared.Inv.setSema {t : State} {i : ℤ} {x : Semid} {y : Perm} (h : s.Inv)
    (ht : t.sema = Function.update s.sema i x) (hx : x.alloc = true ∨ y.mode = 0) :
    ({ s.lift t with perm := Function.update s.perm i y } : Shared).Inv := by
  refine ⟨fun j => ?_, h.procs⟩
  change (t.sema j).alloc = true ∨ (Function.update s.perm i y j).mode = 0
  rw [ht]
  by_cases hj : j = i
  · rw [hj, Function.update_self, Function.update_self]
    exact hx
  · rw [Function.update_of_ne hj, Function.update_of_ne hj]
    exact h.mode j

/-- A process reads a byte that changes no other process's. -/
theorem Shared.Inv.copyin {b : BitVec 8} {j : Job} {k : ℕ} (h : s.Inv) (hp : s.pc p = .copy j k)
    (hfair : (Event.copyin p b).Fair v u s) : (copyin p b j k s).Inv := by
  refine ⟨h.mode, fun q => ?_⟩
  change PcOk (Function.update s.semtmp k b)
    (Function.update s.own p (Function.update (s.own p) k b) q)
    (Function.update s.pc p (.copy j (k + 1)) q)
  have hq := h.procs q
  by_cases hqp : q = p
  · subst hqp
    rw [Function.update_self, Function.update_self]
    rw [hp] at hq
    cases j with
    | ops a g =>
      refine ⟨fun l hl => ?_, hq.2⟩
      by_cases hlk : l = k
      · rw [hlk, Function.update_self, Function.update_self]
      · rw [Function.update_of_ne hlk, Function.update_of_ne hlk]
        exact hq.1 l (by omega)
    | vals pid id nsems => exact trivial
    | perm id => exact trivial
  · rw [Function.update_of_ne hqp, Function.update_of_ne hqp]
    cases hpc : s.pc q with
    | idle => exact trivial
    | wait a g i zero =>
      rw [hpc] at hq
      exact hq
    | copy j' l =>
      rw [hpc] at hq
      cases j' with
      | ops a g =>
        refine ⟨fun m hm => ?_, hq.2⟩
        by_cases hmk : m = k
        · -- The byte is one that the other process has copied in.
          subst hmk
          rw [Function.update_self, hfair j m hp q a g l hqp hpc hm]
          exact hq.1 m hm
        · rw [Function.update_of_ne hmk]
          exact hq.1 m hm
      | vals pid id nsems => exact trivial
      | perm id => exact trivial

theorem setval_sema (v : Config) (pid id : ℤ) (num val : ℕ) (s : State) :
    (setval v pid id num val s).sema = s.sema := by
  rw [setval]
  split
  · rfl
  · split_ifs
    · rfl
    · rfl

theorem setSems_sema (pid : ℤ) (vals : List ℤ) (i : ℕ) (s : State) :
    (setSems pid vals i s).sema = s.sema := by
  induction vals generalizing i s with
  | nil => rfl
  | cons val vals ih => exact ih (i + 1) _

theorem adjustOnExit_sema (v : Config) (s : State) (e : Undo) :
    (adjustOnExit v s e).sema = s.sema := by
  rw [adjustOnExit]
  split
  · rfl
  · exact (apply_ite State.sema _ _ _).trans (ite_self _)

theorem semexit_sema (v : Config) (p : ℕ) (s : State) : (semexit v p s).sema = s.sema := by
  have hfold (l : List Undo) (t : State) : (l.foldl (adjustOnExit v) t).sema = t.sema := by
    induction l generalizing t with
    | nil => rfl
    | cons e l ih => exact (ih _).trans (adjustOnExit_sema v t e)
  rw [semexit]
  split
  · rfl
  · exact hfold _ s

theorem rmid_sema (v : Config) (id : ℤ) (s : State) :
    ∃ x, (rmid v id s).sema = Function.update s.sema (id % v.semmni) x := by
  rw [rmid]
  split
  · exact ⟨s.sema (id % v.semmni), (Function.update_eq_self ..).symm⟩
  · exact ⟨_, rfl⟩

/-- A process is given the set that its operations were checked for. -/
theorem Shared.Inv.pass (h : s.Inv) (hl : Lawful v u p pid a g s) : (pass v u p pid a g s).Inv := by
  obtain ⟨t, x, heq, hf, hx⟩ := pass_spec v u p pid a g s
  rw [heq]
  refine (h.lift hf.sema).setPc ?_
  cases x with
  | idle => exact trivial
  | copy j k => exact hx.elim
  | wait a' g' i zero =>
    obtain ⟨rfl, rfl, op, hop, rfl⟩ := hx
    obtain ⟨hset, halloc⟩ := hl.set (List.ne_nil_of_mem hop)
    have hin := hl.inside op hop
    refine ⟨hset ▸ halloc, ?_⟩
    rw [hset] at hin ⊢
    exact ⟨Nat.le_add_right .., Nat.add_lt_add_left hin _⟩

/-- A call begins. -/
theorem Shared.Inv.begin {refused : Prop} [Decidable refused] {j : Job} (h : s.Inv)
    (hj : ∀ a g, j = .ops a g → g = none) : (if refused then s else s.setPc p (.copy j 0)).Inv := by
  split_ifs
  · exact h
  · refine h.setPc ?_
    cases j with
    | ops a g =>
      obtain rfl := hj a g rfl
      exact ⟨fun _ hk => absurd hk (Nat.not_lt_zero _), fun _ hx => nomatch hx⟩
    | vals pid id nsems => exact trivial
    | perm id => exact trivial

theorem of_ifIdle {t : Shared} (hs : s.ifIdle p t = some s') : s' = t := by
  rw [Shared.ifIdle] at hs
  split at hs
  · exact (Option.some.inj hs).symm
  · cases hs

/-- The invariant is kept by every fair step. -/
theorem Shared.Inv.next {e : Event} (h : s.Inv) (hfair : e.Fair v u s)
    (hs : nextShared v u s e = some s') : s'.Inv := by
  have hlawful := h.lawful hfair
  cases e with
  | semop p a =>
    obtain rfl := of_ifIdle hs
    exact h.begin fun a' g hj => (Job.ops.inj hj).2 ▸ rfl
  | setall p pid id =>
    obtain rfl := of_ifIdle hs
    exact h.begin fun a' g hj => nomatch hj
  | ipcset p id =>
    obtain rfl := of_ifIdle hs
    exact h.begin fun a' g hj => nomatch hj
  | copyin p b =>
    dsimp only [nextShared] at hs
    split at hs
    · rename_i j k hp
      split_ifs at hs
      obtain rfl := Option.some.inj hs
      exact h.copyin hp hfair
    · cases hs
  | efault p =>
    dsimp only [nextShared] at hs
    split at hs
    · obtain rfl := Option.some.inj hs
      exact h.setPc trivial
    · cases hs
  | go p pid =>
    dsimp only [nextShared] at hs
    split at hs
    · rename_i j k hp
      split_ifs at hs with hk
      subst hk
      cases j with
      | ops a g =>
        obtain rfl := Option.some.inj hs
        exact h.pass (hlawful a g hp)
      | vals pid id nsems =>
        obtain rfl := Option.some.inj hs
        refine Shared.Inv.setPc ?_ trivial
        rw [setallGo]
        split_ifs
        · exact h
        · exact h.lift (setSems_sema ..)
      | perm id =>
        obtain rfl := Option.some.inj hs
        exact (h.setSema (t := { s.toState with sema := _ }) rfl (.inl rfl)).setPc trivial
    · cases hs
  | wake p signal =>
    dsimp only [nextShared] at hs
    split at hs
    · rename_i a g i zero hp
      have hok := h.procs p
      rw [hp] at hok
      split_ifs at hs
      · obtain rfl := Option.some.inj hs
        exact (h.lift (t := eintr i zero s.toState) rfl).setPc trivial
      · obtain rfl := Option.some.inj hs
        exact h.setPc trivial
      · obtain rfl := Option.some.inj hs
        refine h.setPc ⟨fun _ hk => absurd hk (Nat.not_lt_zero _), fun x hx => ?_⟩
        obtain rfl := Option.some.inj hx
        exact hok.1
    · cases hs
  | setval p pid id num val =>
    obtain rfl := of_ifIdle hs
    split_ifs
    · exact h.lift (setval_sema ..)
    · exact h
  | rmid p id =>
    obtain rfl := of_ifIdle hs
    split_ifs
    · exact h
    · obtain ⟨x, hx⟩ := rmid_sema v id s.toState
      exact h.setSema hx (.inr rfl)
  | semget p i base nsems perm =>
    obtain rfl := of_ifIdle hs
    split_ifs
    · exact h
    · exact h.setSema rfl (.inl rfl)
  | semexit p =>
    obtain rfl := of_ifIdle hs
    exact h.lift (semexit_sema ..)

end Step

/-- In the runs whose steps are fair, all steps are lawful. -/
theorem semop_lawful (v : Config) (u : ℕ → Cred) (s : Shared)
    (hs : (shared v u).ReachableIf (fun s e => e.Fair v u s) s) (e : Event)
    (hfair : e.Fair v u s) : e.Lawful v u s := by
  have hinv : s.Inv := by
    refine hs.invariant (fun s h => ?_) fun s e s' h hfair hs' => h.next hfair hs'
    obtain ⟨-, hmode, hidle⟩ := h
    exact ⟨fun i => .inr (hmode i), fun p => by rw [hidle]; trivial⟩
  exact hinv.lawful hfair

/-! ## Two runs -/

/-- No set; a user. -/
def userStart : Shared :=
  { pairStart with
    perm := fun _ => ⟨0, 0, 0, 0, 0⟩
    semtmp := fun _ => 0
    pc := fun _ => .idle
    own := fun _ _ => 0 }

def user : ℕ → Cred := fun _ => ⟨1, 1⟩

theorem init_userStart : (shared pairConfig user).init userStart :=
  ⟨⟨fun _ => rfl, fun _ => rfl, fun _ => rfl, rfl⟩, fun _ => rfl, fun _ => rfl⟩

/-- The user makes a set of one semaphore, and a process begins to decrease this. -/
def userOne : List Event := [.semget 0 0 0 1 ⟨1, 1, 1, 1, 0x180⟩, .semop 0 ⟨0, 1⟩]

def decrease : List (BitVec 8) := [0, 0, 0xff, 0xff, 0, 0]

/-- Its bytes are copied in, from the number `k` on. -/
def copyAll (p : ℕ) (j : Job) : List (BitVec 8) → ℕ → Shared → Shared
  | [], _, s => s
  | b :: bs, k, s => copyAll p j bs (k + 1) (copyin p b j k s)

/-- A process that is alone copies in fairly. -/
theorem reachable_copyAll {v : Config} {u : ℕ → Cred} {p : ℕ} {j : Job} {bs : List (BitVec 8)}
    {k : ℕ} {s : Shared} (hs : (shared v u).ReachableIf (fun s e => e.Fair v u s) s)
    (hp : s.pc p = .copy j k) (hidle : ∀ q, q ≠ p → s.pc q = .idle) (hk : k + bs.length ≤ j.size) :
    (shared v u).ReachableIf (fun s e => e.Fair v u s) (copyAll p j bs k s) := by
  induction bs generalizing k s with
  | nil => exact hs
  | cons b bs ih =>
    rw [List.length_cons] at hk
    refine ih (hs.step (a := .copyin p b) (fun j' k' _ q a g l hq hpc _ => ?_) ?_)
      (Function.update_self ..) (fun q hq => ?_) (by omega)
    · rw [hidle q hq] at hpc
      cases hpc
    · change nextShared v u s (.copyin p b) = _
      dsimp only [nextShared]
      rw [hp]
      exact if_pos (by omega)
    · exact (Function.update_of_ne hq ..).trans (hidle q hq)

/-- The process goes on with the operation that it has copied in. -/
def userCopied : Shared :=
  copyAll 0 (.ops ⟨0, 1⟩ none) decrease 0
    (((shared pairConfig user).run userStart userOne).getD userStart)

theorem lawful_userCopied : (Event.go 0 30).Lawful pairConfig user userCopied := by
  have hstart : (shared pairConfig user).ReachableIf (fun s e => e.Fair pairConfig user s)
      (((shared pairConfig user).run userStart userOne).getD userStart) := by
    have hinit : (shared pairConfig user).ReachableIf (fun s e => e.Fair pairConfig user s)
        userStart := .init init_userStart
    have hget (t : Shared) : (Event.semget 0 0 0 1 ⟨1, 1, 1, 1, 0x180⟩).Fair pairConfig user t :=
      trivial
    have hsemop (t : Shared) : (Event.semop 0 ⟨0, 1⟩).Fair pairConfig user t := trivial
    exact (hinit.step (hget _) rfl).step (hsemop _) rfl
  refine semop_lawful pairConfig user userCopied (reachable_copyAll hstart rfl (fun q hq => ?_)
    (by decide)) (.go 0 30) fun a g hp => ?_
  · exact Function.update_of_ne hq ..
  · obtain ⟨rfl, rfl⟩ := Job.ops.inj (Pc.copy.inj hp).1
    exact .inl rfl

def increaseSeven : List (BitVec 8) := [0, 7, 0, 1, 0, 0]

/-- The process sleeps, the semaphore is increased, and the process finds another operation in
    its array when it wakes up. -/
def userEvents : List Event :=
  userOne ++ decrease.map (.copyin 0) ++ [.go 0 30, .setval 1 31 0 0 1, .wake 0 false] ++
    increaseSeven.map (.copyin 0)

def userAwake : Shared := ((shared pairConfig user).run userStart userEvents).getD userStart

/-- Steps that are not fair: the process increases the eighth semaphore of a set of one. -/
theorem not_semop_lawful : ¬∀ s, (shared pairConfig user).Reachable s →
    ∀ e : Event, e.Lawful pairConfig user s := by
  intro h
  have hrun : (shared pairConfig user).run userStart userEvents = some userAwake := rfl
  have hs : (shared pairConfig user).Reachable userAwake :=
    Machine.reachableIf_run (.init init_userStart) (fun _ _ _ => trivial) hrun
  have hl := h userAwake hs (.go 0 30) ⟨0, 1⟩ (some ⟨⟨true, 0, 0, 1⟩, true⟩) rfl
  have hop : sembuf userAwake.semtmp 0 ∈
      accessed pairConfig user 0 ⟨0, 1⟩ (some ⟨⟨true, 0, 0, 1⟩, true⟩) userAwake :=
    List.mem_cons_self
  exact absurd (hl.inside _ hop) (by decide)

end AuxKernel.Semaphores
