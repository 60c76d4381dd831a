import AuxKernel.Mount.Basic
import AuxKernel.UseCounts
import Mathlib.Algebra.Order.Group.Multiset
import Mathlib.Tactic.Abel

/-!
# The mount table is sound

In every state (`Inv`) the list has each mounted file system once, a vnode that is mounted on and
the file system that covers it know each other, and the references are those of the calls, one for
each mount, and those of others. A vnode that `mount` has found to be unused (`Call.claims`) stays
so until something is mounted on it. `unmount` gives back the reference of the mount before the
list is changed, and may sleep in between (`Clean`); and `mount` leaves its path buffer when it
fails (`CleanMount`).
-/

namespace AuxKernel.Mount

variable {V M P : Type*}

namespace Call

/-- The references of a call; a vnode that is added to the table is that of the mount. -/
def held : Call V M → Multiset V
  | lookup vp | rooting vp _ | found vp | checked vp | copied vp | locking vp _ => {vp}
  | _ => 0

/-- The vnode that `mount` has found to be unused. -/
def claims : Call V M → Option V
  | checked vp | copied vp | locking vp _ => some vp
  | _ => none

/-- The vfs that is not on the list yet. -/
def fresh : Call V M → Option M
  | locking _ vfsp => some vfsp
  | _ => none

/-- The vfs that is locked, with what it covers. -/
def locks : Call V M → Option (M × Option V)
  | mounting vp vfsp => some (vfsp, some vp)
  | unmounting vfsp coveredvp => some (vfsp, coveredvp)
  | _ => none

/-- The call has to do with no vfs that it may change. -/
def plain : Call V M → Bool
  | locking .. | mounting .. | unmounting .. | uncovering .. => false
  | _ => true

theorem of_plain {call : Call V M} (hc : call.plain) :
    call.fresh = none ∧ call.locks = none ∧ call.mounts = none ∧
      ∀ vfsp vp, call ≠ .uncovering vfsp vp := by
  cases call with
  | locking | mounting | unmounting | uncovering => cases hc
  | _ => exact ⟨rfl, rfl, rfl, nofun⟩

/-- The vfs that a call goes on to use. -/
def uses : Call V M → Option M
  | locking _ vfsp | mounting _ vfsp | released vfsp | unmounting vfsp _ | uncovering vfsp _ =>
    some vfsp
  | _ => none

/-- A process in `VFS_MOUNT` or `VFS_UNMOUNT` has no vnode. -/
theorem of_locks {call : Call V M} {l : M × Option V} (hl : call.locks = some l) :
    call.held = 0 ∧ call.fresh = none ∧ call.claims = none := by
  cases call with
  | mounting | unmounting => exact ⟨rfl, rfl, rfl⟩
  | _ => cases hl

theorem held_of_claims {call : Call V M} {vp : V} (hc : call.claims = some vp) :
    call.held = {vp} := by
  cases call with
  | checked | copied | locking =>
    obtain rfl := Option.some.inj hc
    rfl
  | _ => cases hc

end Call

variable [DecidableEq V] [DecidableEq M] [DecidableEq P] [Fintype P] {w : Vnodes V M}

/-- What a file system is mounted on. -/
def State.covered (s : State V M P) (vfsp : M) : Option V := (s.vfs vfsp).bind (·.vfs_vnodecovered)

/-- The mount table as it should be. -/
structure Table (w : Vnodes V M) (s : State V M P) : Prop where
  head : s.list.head? = some w.rootvfs
  nodup : s.list.Nodup
  mounted : ∀ vfsp, vfsp ∈ s.list ↔ vfsp = w.rootvfs ∨ ∃ vp, s.v_vfsmountedhere vp = some vfsp
  inverse : ∀ vp vfsp, s.v_vfsmountedhere vp = some vfsp ↔ s.covered vfsp = some vp
  refs : s.refs = s.others + ∑ p, (s.procs p).held + (s.list.filterMap s.covered : Multiset V)
  alloc : ∀ vfsp, s.vfs vfsp ≠ none ↔ vfsp ∈ s.list ∨ ∃ p, (s.procs p).fresh = some vfsp
  used : ∀ p vfsp, (s.procs p).uses = some vfsp → s.vfs vfsp ≠ none
  panic : s.panic = false

/-- What is kept. -/
structure Inv (w : Vnodes V M) (s : State V M P) : Prop where
  head : s.list.head? = some w.rootvfs
  nodup : s.list.Nodup
  mounted : ∀ vfsp ∈ s.list, vfsp ≠ w.rootvfs → (s.covered vfsp).isSome
  root : s.covered w.rootvfs = none
  inverse : ∀ vp vfsp, s.v_vfsmountedhere vp = some vfsp ↔ s.covered vfsp = some vp
  refs : s.refs = s.others + ∑ p, (s.procs p).held + (s.list.filterMap s.covered : Multiset V)
  alloc : ∀ vfsp, s.vfs vfsp ≠ none ↔ vfsp ∈ s.list ∨ ∃ p, (s.procs p).fresh = some vfsp
  fresh : ∀ p vfsp, (s.procs p).fresh = some vfsp →
    s.vfs vfsp = some ⟨none, false⟩ ∧ vfsp ∉ s.list ∧ ∀ q, (s.procs q).fresh = some vfsp → q = p
  locks : ∀ p vfsp coveredvp, (s.procs p).locks = some (vfsp, coveredvp) →
    s.vfs vfsp = some ⟨coveredvp, true⟩ ∧
      ∀ q c, (s.procs q).locks = some (vfsp, c) → q = p
  claims : ∀ p vp, (s.procs p).claims = some vp →
    s.v_vfsmountedhere vp = none ∧ ∀ q, (s.procs q).claims = some vp → q = p
  active : ∀ vfsp, ¬s.Unused w vfsp → s.Mounted vfsp
  rootdir : w.root w.rootvfs ∈ s.others
  uncovering : ∀ p vfsp vp, s.procs p ≠ .uncovering vfsp vp
  panic : s.panic = false

/-- In `unmount` the covered vnode is released at once. -/
def Clean (_ : State V M P) : Act V M P → Prop
  | .unmounted _ ok sleeps => ¬(ok ∧ sleeps)
  | _ => True

/-- And `mount` does not fail once it has the path. -/
def CleanMount (s : State V M P) : Act V M P → Prop
  | .alloc _ _ ok | .mounted _ ok => ok
  | a => Clean s a

theorem CleanMount.clean {s : State V M P} {a : Act V M P} (hc : CleanMount s a) : Clean s a := by
  cases a with
  | alloc | mounted => trivial
  | _ => exact hc

namespace Inv

variable {s : State V M P} {p : P}

/-- The references of the processes, after one of them went on. -/
theorem sum_held (procs : P → Call V M) (p : P) (call : Call V M) :
    ∑ q, (Function.update procs p call q).held + (procs p).held =
      ∑ q, (procs q).held + call.held := by
  have hoff : ∀ q ≠ p, (Function.update procs p call q).held = (procs q).held := fun q hq => by
    rw [Function.update_of_ne hq]
  simpa only [Function.update_self] using UseCounts.sum_of_eq_off (Finset.mem_univ p) hoff

/-- What is said of no process before and after one went on, is said of the same others. -/
theorem update_iff {α : Type*} {procs : P → Call V M} {call : Call V M} (f : Call V M → Option α)
    (hold : f (procs p) = none) (hnew : f call = none) (q : P) (a : α) :
    f (Function.update procs p call q) = some a ↔ f (procs q) = some a := by
  by_cases hqp : q = p
  · rw [hqp, Function.update_self, hnew, hold]
  · rw [Function.update_of_ne hqp]

/-- A process that is where none has gone was there before. -/
theorem of_update {procs : P → Call V M} {call call' : Call V M} {q : P}
    (hq : Function.update procs p call q = call') (hne : call ≠ call') : procs q = call' := by
  by_cases hqp : q = p
  · rw [hqp, Function.update_self] at hq
    exact absurd hq hne
  · rwa [Function.update_of_ne hqp] at hq

theorem list_mem (h : Inv w s) {vfsp : M} (hv : s.vfs vfsp ≠ none)
    (hfresh : ∀ q, (s.procs q).fresh ≠ some vfsp) : vfsp ∈ s.list :=
  ((h.alloc vfsp).1 hv).resolve_right fun ⟨q, hq⟩ => hfresh q hq

theorem table (h : Inv w s) : Table w s := by
  refine ⟨h.head, h.nodup, fun vfsp => ⟨fun hmem => ?_, ?_⟩, h.inverse, h.refs, h.alloc,
    fun p vfsp hp => ?_, h.panic⟩
  · by_cases hroot : vfsp = w.rootvfs
    · exact .inl hroot
    · obtain ⟨vp, hvp⟩ := Option.isSome_iff_exists.1 (h.mounted vfsp hmem hroot)
      exact .inr ⟨vp, (h.inverse vp vfsp).2 hvp⟩
  · rintro (rfl | ⟨vp, hvp⟩)
    · exact List.mem_of_mem_head? h.head
    · have hcov := (h.inverse vp vfsp).1 hvp
      refine h.list_mem (fun hnone => ?_) fun q hq => ?_
      · rw [State.covered, hnone] at hcov
        cases hcov
      · rw [State.covered, (h.fresh q vfsp hq).1] at hcov
        cases hcov
  · cases hcall : s.procs p with
    | locking vp m =>
      rw [hcall] at hp
      obtain rfl := Option.some.inj hp
      rw [(h.fresh p m (by rw [hcall]; rfl)).1]
      exact Option.some_ne_none _
    | mounting vp m =>
      rw [hcall] at hp
      obtain rfl := Option.some.inj hp
      rw [(h.locks p m (some vp) (by rw [hcall]; rfl)).1]
      exact Option.some_ne_none _
    | unmounting m c =>
      rw [hcall] at hp
      obtain rfl := Option.some.inj hp
      rw [(h.locks p m c (by rw [hcall]; rfl)).1]
      exact Option.some_ne_none _
    | released m =>
      rw [hcall] at hp
      obtain rfl := Option.some.inj hp
      exact (h.alloc m).2 (.inl (h.active m fun hun => hun.2 p hcall).1)
    | uncovering m vp => exact absurd hcall (h.uncovering p m vp)
    | _ =>
      rw [hcall] at hp
      cases hp

/-- A step that leaves the table alone: a process goes on, with other references. -/
theorem plain (h : Inv w s) {call : Call V M} {refs others : Multiset V} (leaked : ℕ)
    (hp : (s.procs p).plain) (hcall : call.plain)
    (hrefs : refs + s.others + (s.procs p).held = s.refs + others + call.held)
    (hclaims : ∀ vp, call.claims = some vp → s.v_vfsmountedhere vp = none ∧
      ∀ q ≠ p, (s.procs q).claims ≠ some vp)
    (hactive : ∀ x ∈ refs, s.Mounted (w.v_vfsp x)) (hrel : ∀ m, call = .released m → s.Mounted m)
    (hroot : w.root w.rootvfs ∈ others) :
    Inv w { s.setProc p call with refs := refs, others := others, leaked := leaked } := by
  obtain ⟨hfresh, hlocks, hmounts, -⟩ := Call.of_plain hp
  obtain ⟨hfresh', hlocks', hmounts', huncov⟩ := Call.of_plain hcall
  have hmounted {m : M} (hm : s.Mounted m) :
      State.Mounted { s.setProc p call with refs := refs, others := others, leaked := leaked } m :=
    ⟨hm.1, fun q hq => hm.2 q ((update_iff Call.mounts hmounts hmounts' q m).1 hq)⟩
  refine ⟨h.head, h.nodup, h.mounted, h.root, h.inverse, ?_, fun m => ?_, fun q m hq => ?_,
    fun q m c hq => ?_, fun q vp hq => ?_, fun m hm => ?_, hroot,
    fun q m vp hq => h.uncovering q m vp (of_update hq (huncov m vp)), h.panic⟩
  · have hsum := sum_held s.procs p call
    have hold := h.refs
    refine add_right_cancel (b := s.others + (s.procs p).held) ?_
    calc refs + (s.others + (s.procs p).held)
      _ = s.refs + others + call.held := by rw [← add_assoc, hrefs]
      _ = others + (∑ q, (s.procs q).held + call.held) +
          (s.list.filterMap s.covered : Multiset V) + s.others := by rw [hold]; abel
      _ = others + ∑ q, (Function.update s.procs p call q).held +
          (s.list.filterMap s.covered : Multiset V) + (s.others + (s.procs p).held) := by
        rw [← hsum]
        abel
  · refine (h.alloc m).trans (or_congr_right (exists_congr fun q => ?_))
    exact (update_iff Call.fresh hfresh hfresh' q m).symm
  · obtain ⟨hv, hl, huniq⟩ := h.fresh q m ((update_iff Call.fresh hfresh hfresh' q m).1 hq)
    exact ⟨hv, hl, fun q' hq' => huniq q' ((update_iff Call.fresh hfresh hfresh' q' m).1 hq')⟩
  · obtain ⟨hv, huniq⟩ := h.locks q m c ((update_iff Call.locks hlocks hlocks' q _).1 hq)
    exact ⟨hv, fun q' c' hq' => huniq q' c' ((update_iff Call.locks hlocks hlocks' q' _).1 hq')⟩
  · by_cases hqp : q = p
    · subst hqp
      change (Function.update s.procs q call q).claims = some vp at hq
      rw [Function.update_self] at hq
      refine ⟨(hclaims vp hq).1, fun q' hq' => ?_⟩
      by_contra hne
      change (Function.update s.procs q call q').claims = some vp at hq'
      rw [Function.update_of_ne hne] at hq'
      exact (hclaims vp hq).2 q' hne hq'
    · change (Function.update s.procs p call q).claims = some vp at hq
      rw [Function.update_of_ne hqp] at hq
      refine ⟨(h.claims q vp hq).1, fun q' hq' => ?_⟩
      change (Function.update s.procs p call q').claims = some vp at hq'
      by_cases hq'p : q' = p
      · rw [hq'p, Function.update_self] at hq'
        exact absurd hq ((hclaims vp hq').2 q hqp)
      · rw [Function.update_of_ne hq'p] at hq'
        exact (h.claims q vp hq).2 q' hq'
  · rw [State.Unused, not_and_or] at hm
    refine hmounted ?_
    rcases hm with hm | hm
    · simp only [not_forall, not_not] at hm
      obtain ⟨x, hx, rfl⟩ := hm
      exact hactive x hx
    · simp only [not_forall, not_not] at hm
      obtain ⟨q, hq⟩ := hm
      change Function.update s.procs p call q = _ at hq
      by_cases hqp : q = p
      · rw [hqp, Function.update_self] at hq
        exact hrel m hq
      · rw [Function.update_of_ne hqp] at hq
        exact h.active m fun hun => hun.2 q hq

theorem held_le (h : Inv w s) (p : P) : (s.procs p).held ≤ s.refs := by
  rw [h.refs, ← Finset.add_sum_erase _ _ (Finset.mem_univ p)]
  exact (Multiset.le_add_right _ _).trans
    ((Multiset.le_add_left _ _).trans (Multiset.le_add_right _ _))

theorem others_le (h : Inv w s) : s.others ≤ s.refs := by
  rw [h.refs, add_assoc]
  exact Multiset.le_add_right _ _

theorem active_mem (h : Inv w s) {x : V} (hx : x ∈ s.refs) : s.Mounted (w.v_vfsp x) :=
  h.active _ fun hun => hun.1 x hx rfl

/-- A process goes on with the vnode that it has. -/
theorem move (h : Inv w s) {call call' : Call V M} (hp : s.procs p = call) (hcall : call.plain)
    (hcall' : call'.plain) (hheld : call'.held = call.held)
    (hclaims : ∀ vp, call'.claims = some vp → s.v_vfsmountedhere vp = none ∧
      ∀ q ≠ p, (s.procs q).claims ≠ some vp)
    (hrel : ∀ m, call' = .released m → s.Mounted m) : Inv w (s.setProc p call') :=
  h.plain s.leaked (by rwa [hp]) hcall' (by rw [hp, hheld]) hclaims (fun _ hx => h.active_mem hx)
    hrel h.rootdir

/-- A process releases the vnode that it has. -/
theorem drop (h : Inv w s) {call : Call V M} (call' : Call V M) {vp : V} (hp : s.procs p = call)
    (hcall : call.plain) (hheld : call.held = {vp}) (hcall' : call'.plain) (hheld' : call'.held = 0)
    (hclaims : call'.claims = none) (hrel : ∀ m, call' = .released m → s.Mounted m) (leaked : ℕ) :
    Inv w { (s.rele vp).setProc p call' with leaked := leaked } := by
  have hmem : vp ∈ s.refs := Multiset.singleton_le.1 (by rw [← hheld, ← hp]; exact h.held_le p)
  refine h.plain leaked (by rwa [hp]) hcall' ?_ (fun vp' hvp' => ?_)
    (fun x hx => h.active_mem (Multiset.mem_of_mem_erase hx)) hrel h.rootdir
  · have hcons := Multiset.cons_erase hmem
    rw [← Multiset.singleton_add] at hcons
    rw [hp, hheld, hheld', add_zero, add_right_comm]
    change s.refs.erase vp + {vp} + s.others = s.refs + s.others
    rw [add_comm _ ({vp} : Multiset V), hcons]
  · rw [hclaims] at hvp'
    cases hvp'

theorem leave (h : Inv w s) {call : Call V M} {vp : V} (hp : s.procs p = call) (hcall : call.plain)
    (hheld : call.held = {vp}) (leaked : ℕ) : Inv w { s.leave p vp with leaked := leaked } :=
  h.drop .idle hp hcall hheld rfl rfl rfl nofun leaked

theorem covered_setVfs_self (vfsp : M) (vfs : Option (Vfs V)) :
    (s.setVfs vfsp vfs).covered vfsp = vfs.bind (·.vfs_vnodecovered) := by
  change (Function.update s.vfs vfsp vfs vfsp).bind _ = _
  rw [Function.update_self]

theorem covered_setVfs_of_ne {vfsp m : M} {vfs : Option (Vfs V)} (hm : m ≠ vfsp) :
    (s.setVfs vfsp vfs).covered m = s.covered m := by
  change (Function.update s.vfs vfsp vfs m).bind _ = _
  rw [Function.update_of_ne hm]
  rfl

theorem covered_setVfs {vfsp : M} {vfs : Option (Vfs V)}
    (hc : vfs.bind (·.vfs_vnodecovered) = s.covered vfsp) :
    (s.setVfs vfsp vfs).covered = s.covered := by
  funext m
  by_cases hm : m = vfsp
  · rw [hm, covered_setVfs_self, hc]
  · exact covered_setVfs_of_ne hm

theorem locks_mem (h : Inv w s) {vfsp : M} {c : Option V}
    (hp : (s.procs p).locks = some (vfsp, c)) : vfsp ∈ s.list := by
  have hv := (h.locks p vfsp c hp).1
  refine h.list_mem (by rw [hv]; exact Option.some_ne_none _) fun q hq => ?_
  have hf := hv.symm.trans (h.fresh q vfsp hq).1
  simp at hf

/-- A file system on the list is locked or unlocked, while no other process has it locked. -/
theorem flag (h : Inv w s) {vfsp : M} {c : Option V} {b b' : Bool} {call : Call V M}
    (hv : s.vfs vfsp = some ⟨c, b⟩) (hmem : vfsp ∈ s.list)
    (hfree : ∀ q ≠ p, ∀ c', (s.procs q).locks ≠ some (vfsp, c'))
    (hp : (s.procs p).held = 0 ∧ (s.procs p).fresh = none ∧ (s.procs p).claims = none)
    (hheld : call.held = 0 ∧ call.fresh = none ∧ call.claims = none) (hmounts : call.mounts = none)
    (hlocks : call.locks = none ∨ call.locks = some (vfsp, c) ∧ b' = true)
    (hrel : ∀ m, call ≠ .released m) (huncov : ∀ m vp, call ≠ .uncovering m vp) :
    Inv w ((s.setVfs vfsp (some ⟨c, b'⟩)).setProc p call) := by
  have hcov : (s.setVfs vfsp (some ⟨c, b'⟩)).covered = s.covered :=
    covered_setVfs (by rw [State.covered, hv]; rfl)
  have hvne {m : M} : Function.update s.vfs vfsp (some ⟨c, b'⟩) m ≠ none ↔ s.vfs m ≠ none := by
    by_cases hm : m = vfsp
    · rw [hm, Function.update_self, hv]
      exact iff_of_true (Option.some_ne_none _) (Option.some_ne_none _)
    · rw [Function.update_of_ne hm]
  refine ⟨h.head, h.nodup, fun m hm hne => ?_, (congrFun hcov _).trans h.root, fun vp m => ?_, ?_,
    fun m => ?_, fun q m hq => ?_, fun q m c' hq => ?_, fun q vp hq => ?_, fun m hm => ?_,
    h.rootdir, fun q m vp hq => h.uncovering q m vp (of_update hq (huncov m vp)), h.panic⟩
  · change ((s.setVfs vfsp (some ⟨c, b'⟩)).covered m).isSome
    rw [hcov]
    exact h.mounted m hm hne
  · change _ ↔ (s.setVfs vfsp (some ⟨c, b'⟩)).covered m = some vp
    rw [hcov]
    exact h.inverse vp m
  · have hsum := sum_held s.procs p call
    rw [hp.1, hheld.1, add_zero, add_zero] at hsum
    change s.refs = s.others + ∑ q, (Function.update s.procs p call q).held +
      (s.list.filterMap (s.setVfs vfsp (some ⟨c, b'⟩)).covered : Multiset V)
    rw [hsum, hcov]
    exact h.refs
  · refine hvne.trans ((h.alloc m).trans (or_congr_right (exists_congr fun q => ?_)))
    exact (update_iff Call.fresh hp.2.1 hheld.2.1 q m).symm
  · obtain ⟨hvm, hl, huniq⟩ := h.fresh q m ((update_iff Call.fresh hp.2.1 hheld.2.1 q m).1 hq)
    have hm : m ≠ vfsp := fun he => hl (he ▸ hmem)
    refine ⟨(Function.update_of_ne hm _ _).trans hvm, hl, fun q' hq' => huniq q' ?_⟩
    exact (update_iff Call.fresh hp.2.1 hheld.2.1 q' m).1 hq'
  · change (Function.update s.procs p call q).locks = some (m, c') at hq
    by_cases hqp : q = p
    · subst hqp
      rw [Function.update_self] at hq
      obtain hnone | ⟨hsome, rfl⟩ := hlocks
      · rw [hnone] at hq
        cases hq
      · obtain ⟨rfl, rfl⟩ := Prod.mk.inj (Option.some.inj (hsome.symm.trans hq))
        refine ⟨Function.update_self .., fun q' c'' hq' => ?_⟩
        by_contra hne
        change (Function.update s.procs q call q').locks = some _ at hq'
        rw [Function.update_of_ne hne] at hq'
        exact hfree q' hne c'' hq'
    · rw [Function.update_of_ne hqp] at hq
      have hm : m ≠ vfsp := fun he => hfree q hqp c' (he ▸ hq)
      obtain ⟨hvm, huniq⟩ := h.locks q m c' hq
      refine ⟨(Function.update_of_ne hm _ _).trans hvm, fun q' c'' hq' => ?_⟩
      change (Function.update s.procs p call q').locks = some (m, c'') at hq'
      by_cases hq'p : q' = p
      · rw [hq'p, Function.update_self] at hq'
        obtain hnone | ⟨hsome, -⟩ := hlocks
        · rw [hnone] at hq'
          cases hq'
        · exact absurd (Prod.mk.inj (Option.some.inj (hsome.symm.trans hq'))).1.symm hm
      · rw [Function.update_of_ne hq'p] at hq'
        exact huniq q' c'' hq'
  · obtain ⟨hvp, huniq⟩ := h.claims q vp ((update_iff Call.claims hp.2.2 hheld.2.2 q vp).1 hq)
    exact ⟨hvp, fun q' hq' => huniq q' ((update_iff Call.claims hp.2.2 hheld.2.2 q' vp).1 hq')⟩
  · have hact := h.active m fun hun =>
      hm ⟨hun.1, fun q hq => hun.2 q (of_update hq (hrel m))⟩
    refine ⟨hact.1, fun q hq => ?_⟩
    change (Function.update s.procs p call q).mounts = some m at hq
    by_cases hqp : q = p
    · rw [hqp, Function.update_self, hmounts] at hq
      cases hq
    · rw [Function.update_of_ne hqp] at hq
      exact hact.2 q hq

theorem rootvfs_mem (h : Inv w s) : w.rootvfs ∈ s.list := List.mem_of_mem_head? h.head

/-- A vfs is allocated. -/
theorem alloc_vfs (h : Inv w s) {vp : V} {vfsp : M} (hp : s.procs p = .copied vp)
    (hv : s.vfs vfsp = none) :
    Inv w ((s.setVfs vfsp (some ⟨none, false⟩)).setProc p (.locking vp vfsp)) := by
  have hcov : (s.setVfs vfsp (some ⟨none, false⟩)).covered = s.covered :=
    covered_setVfs (by rw [State.covered, hv]; rfl)
  have hmem : vfsp ∉ s.list := fun hl => (h.alloc vfsp).2 (.inl hl) hv
  have hfree : ∀ q, (s.procs q).fresh ≠ some vfsp := fun q hq => (h.alloc vfsp).2 (.inr ⟨q, hq⟩) hv
  have hlocks (q : P) (l : M × Option V) :
      (Function.update s.procs p (.locking vp vfsp) q).locks = some l ↔
        (s.procs q).locks = some l := update_iff Call.locks (by rw [hp]; rfl) rfl q l
  have hmounts (q : P) (m : M) : (Function.update s.procs p (.locking vp vfsp) q).mounts = some m ↔
      (s.procs q).mounts = some m := update_iff Call.mounts (by rw [hp]; rfl) rfl q m
  have hclaims (q : P) : (Function.update s.procs p (.locking vp vfsp) q).claims =
      (s.procs q).claims := by
    by_cases hqp : q = p
    · rw [hqp, Function.update_self, hp]
      rfl
    · rw [Function.update_of_ne hqp]
  refine ⟨h.head, h.nodup, fun m hm hne => ?_, (congrFun hcov _).trans h.root, fun vp m => ?_, ?_,
    fun m => ?_, fun q m hq => ?_, fun q m c hq => ?_, fun q vp' hq => ?_, fun m hm => ?_,
    h.rootdir, fun q m vp' hq => h.uncovering q m vp' (of_update hq nofun), h.panic⟩
  · change ((s.setVfs vfsp (some ⟨none, false⟩)).covered m).isSome
    rw [hcov]
    exact h.mounted m hm hne
  · change _ ↔ (s.setVfs vfsp (some ⟨none, false⟩)).covered m = some vp
    rw [hcov]
    exact h.inverse vp m
  · have hsum := sum_held s.procs p (.locking vp vfsp)
    rw [hp] at hsum
    change s.refs = s.others + ∑ q, (Function.update s.procs p (.locking vp vfsp) q).held +
      (s.list.filterMap (s.setVfs vfsp (some ⟨none, false⟩)).covered : Multiset V)
    rw [add_right_cancel hsum, hcov]
    exact h.refs
  · change Function.update s.vfs vfsp _ m ≠ none ↔
      _ ∨ ∃ q, (Function.update s.procs p (.locking vp vfsp) q).fresh = some m
    by_cases hm : m = vfsp
    · subst hm
      rw [Function.update_self]
      exact iff_of_true (Option.some_ne_none _) (.inr ⟨p, by rw [Function.update_self]; rfl⟩)
    · rw [Function.update_of_ne hm, h.alloc]
      refine or_congr_right (exists_congr fun q => ?_)
      by_cases hqp : q = p
      · rw [hqp, Function.update_self, hp]
        refine iff_of_false (fun he => ?_) fun he => hm (Option.some.inj he).symm
        cases he
      · rw [Function.update_of_ne hqp]
  · change (Function.update s.procs p (.locking vp vfsp) q).fresh = some m at hq
    by_cases hqp : q = p
    · rw [hqp, Function.update_self] at hq
      obtain rfl := Option.some.inj hq
      refine ⟨Function.update_self .., hmem, fun q' hq' => ?_⟩
      by_contra hne
      change (Function.update s.procs p (.locking vp vfsp) q').fresh = some vfsp at hq'
      rw [Function.update_of_ne (hqp ▸ hne)] at hq'
      exact hfree q' hq'
    · rw [Function.update_of_ne hqp] at hq
      have hm : m ≠ vfsp := fun he => hfree q (he ▸ hq)
      obtain ⟨hvm, hl, huniq⟩ := h.fresh q m hq
      refine ⟨(Function.update_of_ne hm _ _).trans hvm, hl, fun q' hq' => ?_⟩
      change (Function.update s.procs p (.locking vp vfsp) q').fresh = some m at hq'
      by_cases hq'p : q' = p
      · rw [hq'p, Function.update_self] at hq'
        exact absurd (Option.some.inj hq').symm hm
      · rw [Function.update_of_ne hq'p] at hq'
        exact huniq q' hq'
  · obtain ⟨hvm, huniq⟩ := h.locks q m c ((hlocks q _).1 hq)
    have hm : m ≠ vfsp := by
      rintro rfl
      rw [hv] at hvm
      cases hvm
    exact ⟨(Function.update_of_ne hm _ _).trans hvm, fun q' c' hq' =>
      huniq q' c' ((hlocks q' _).1 hq')⟩
  · obtain ⟨hvp, huniq⟩ := h.claims q vp' ((hclaims q).symm.trans hq)
    exact ⟨hvp, fun q' hq' => huniq q' ((hclaims q').symm.trans hq')⟩
  · have hact := h.active m fun hun => hm ⟨hun.1, fun q hq => hun.2 q (of_update hq nofun)⟩
    exact ⟨hact.1, fun q hq => hact.2 q ((hmounts q m).1 hq)⟩

/-- `vfs_add` succeeds: nothing is mounted on the vnode, and the vfs becomes the second one. -/
theorem add (h : Inv w s) {vp : V} {vfsp : M} (hp : s.procs p = .locking vp vfsp) :
    ∃ s', s.vfs_add vp vfsp = some s' ∧ Inv w (s'.setProc p (.mounting vp vfsp)) := by
  obtain ⟨hfree, hclaim⟩ := h.claims p vp (by rw [hp]; rfl)
  obtain ⟨hv, hmem, hfresh⟩ := h.fresh p vfsp (by rw [hp]; rfl)
  refine ⟨_, if_pos hfree, ?_⟩
  have hperm : (s.list.take 1 ++ vfsp :: s.list.drop 1).Perm (vfsp :: s.list) :=
    List.perm_middle.trans (by rw [List.take_append_drop])
  have hin (m : M) : m ∈ s.list.take 1 ++ vfsp :: s.list.drop 1 ↔ m = vfsp ∨ m ∈ s.list :=
    hperm.mem_iff.trans List.mem_cons
  have hne {m : M} (hm : m ∈ s.list) : m ≠ vfsp := fun he => hmem (he ▸ hm)
  refine ⟨?_, hperm.nodup_iff.2 (List.nodup_cons.2 ⟨hmem, h.nodup⟩), fun m hm hroot => ?_,
    (covered_setVfs_of_ne (hne h.rootvfs_mem)).trans h.root, fun vp' m => ?_, ?_,
    fun m => ?_, fun q m hq => ?_, fun q m c hq => ?_, fun q vp' hq => ?_, fun m hm => ?_,
    h.rootdir, fun q m vp' hq => h.uncovering q m vp' (of_update hq nofun), h.panic⟩
  · have hhead := h.head
    change (s.list.take 1 ++ vfsp :: s.list.drop 1).head? = _
    cases hl : s.list with
    | nil =>
      rw [hl] at hhead
      cases hhead
    | cons m l =>
      rw [hl] at hhead
      exact hhead
  · change ((s.setVfs vfsp (some ⟨some vp, true⟩)).covered m).isSome
    rcases (hin m).1 hm with rfl | hm
    · rw [covered_setVfs_self]
      rfl
    · rw [covered_setVfs_of_ne (hne hm)]
      exact h.mounted m hm hroot
  · change Function.update s.v_vfsmountedhere vp (some vfsp) vp' = some m ↔
      (s.setVfs vfsp (some ⟨some vp, true⟩)).covered m = some vp'
    by_cases hm : m = vfsp
    · rw [hm, covered_setVfs_self]
      by_cases hvp : vp' = vp
      · rw [hvp, Function.update_self]
        exact iff_of_true rfl rfl
      · rw [Function.update_of_ne hvp]
        refine iff_of_false (fun he => ?_) fun he => hvp (Option.some.inj he).symm
        have hcov := (h.inverse vp' vfsp).1 he
        rw [State.covered, hv] at hcov
        cases hcov
    · rw [covered_setVfs_of_ne hm]
      by_cases hvp : vp' = vp
      · rw [hvp, Function.update_self]
        refine iff_of_false (fun he => hm (Option.some.inj he).symm) fun he => ?_
        have hmnt := (h.inverse vp m).2 he
        rw [hfree] at hmnt
        cases hmnt
      · rw [Function.update_of_ne hvp]
        exact h.inverse vp' m
  · have hsum := sum_held s.procs p (.mounting vp vfsp)
    rw [hp] at hsum
    have hcovs : ((s.list.take 1 ++ vfsp :: s.list.drop 1).filterMap
        (s.setVfs vfsp (some ⟨some vp, true⟩)).covered).Perm
          (vp :: s.list.filterMap s.covered) := by
      refine (hperm.filterMap _).trans (.of_eq ?_)
      rw [List.filterMap_cons_some (covered_setVfs_self ..)]
      exact congrArg _ (List.filterMap_congr fun m hm => covered_setVfs_of_ne (hne hm))
    change s.refs = s.others + ∑ q, (Function.update s.procs p (.mounting vp vfsp) q).held +
      (((s.list.take 1 ++ vfsp :: s.list.drop 1).filterMap
        (s.setVfs vfsp (some ⟨some vp, true⟩)).covered : List V) : Multiset V)
    rw [Multiset.coe_eq_coe.2 hcovs, ← Multiset.cons_coe, ← Multiset.singleton_add, h.refs]
    change _ + ({vp} : Multiset V) = _ + 0 at hsum
    rw [add_zero] at hsum
    rw [← hsum]
    abel
  · change Function.update s.vfs vfsp _ m ≠ none ↔ m ∈ s.list.take 1 ++ vfsp :: s.list.drop 1 ∨
      ∃ q, (Function.update s.procs p (.mounting vp vfsp) q).fresh = some m
    rw [hin]
    by_cases hm : m = vfsp
    · rw [hm, Function.update_self]
      exact iff_of_true (Option.some_ne_none _) (.inl (.inl rfl))
    · rw [Function.update_of_ne hm, h.alloc]
      refine or_congr (or_iff_right hm).symm (exists_congr fun q => ?_)
      by_cases hqp : q = p
      · rw [hqp, Function.update_self, hp]
        refine iff_of_false (fun he => hm (Option.some.inj he).symm) fun he => ?_
        cases he
      · rw [Function.update_of_ne hqp]
  · change (Function.update s.procs p (.mounting vp vfsp) q).fresh = some m at hq
    have hqp : q ≠ p := by
      rintro rfl
      rw [Function.update_self] at hq
      cases hq
    rw [Function.update_of_ne hqp] at hq
    have hm : m ≠ vfsp := fun he => hqp (hfresh q (he ▸ hq))
    obtain ⟨hvm, hl, huniq⟩ := h.fresh q m hq
    refine ⟨(Function.update_of_ne hm _ _).trans hvm, fun he => ?_, fun q' hq' => ?_⟩
    · exact ((hin m).1 he).elim hm hl
    · change (Function.update s.procs p (.mounting vp vfsp) q').fresh = some m at hq'
      by_cases hq'p : q' = p
      · rw [hq'p, Function.update_self] at hq'
        cases hq'
      · rw [Function.update_of_ne hq'p] at hq'
        exact huniq q' hq'
  · change (Function.update s.procs p (.mounting vp vfsp) q).locks = some (m, c) at hq
    have hfreel {q c'} (hl : (s.procs q).locks = some (vfsp, c')) : False := by
      have he := hv.symm.trans (h.locks q vfsp c' hl).1
      simp at he
    by_cases hqp : q = p
    · rw [hqp, Function.update_self] at hq
      obtain ⟨rfl, rfl⟩ := Prod.mk.inj (Option.some.inj hq)
      refine ⟨Function.update_self .., fun q' c' hq' => ?_⟩
      by_contra hne
      change (Function.update s.procs p (.mounting vp vfsp) q').locks = some _ at hq'
      rw [Function.update_of_ne (hqp ▸ hne)] at hq'
      exact hfreel hq'
    · rw [Function.update_of_ne hqp] at hq
      have hm : m ≠ vfsp := by
        rintro rfl
        exact hfreel hq
      obtain ⟨hvm, huniq⟩ := h.locks q m c hq
      refine ⟨(Function.update_of_ne hm _ _).trans hvm, fun q' c' hq' => ?_⟩
      change (Function.update s.procs p (.mounting vp vfsp) q').locks = some (m, c') at hq'
      by_cases hq'p : q' = p
      · rw [hq'p, Function.update_self] at hq'
        exact absurd (Prod.mk.inj (Option.some.inj hq')).1.symm hm
      · rw [Function.update_of_ne hq'p] at hq'
        exact huniq q' c' hq'
  · change (Function.update s.procs p (.mounting vp vfsp) q).claims = some vp' at hq
    have hqp : q ≠ p := by
      rintro rfl
      rw [Function.update_self] at hq
      cases hq
    rw [Function.update_of_ne hqp] at hq
    have hvp : vp' ≠ vp := fun he => hqp (hclaim q (he ▸ hq))
    obtain ⟨hmnt, huniq⟩ := h.claims q vp' hq
    refine ⟨(Function.update_of_ne hvp _ _).trans hmnt, fun q' hq' => ?_⟩
    change (Function.update s.procs p (.mounting vp vfsp) q').claims = some vp' at hq'
    by_cases hq'p : q' = p
    · rw [hq'p, Function.update_self] at hq'
      cases hq'
    · rw [Function.update_of_ne hq'p] at hq'
      exact huniq q' hq'
  · have hact := h.active m fun hun => hm ⟨hun.1, fun q hq => hun.2 q (of_update hq nofun)⟩
    refine ⟨(hin m).2 (.inr hact.1), fun q hq => ?_⟩
    change (Function.update s.procs p (.mounting vp vfsp) q).mounts = some m at hq
    by_cases hqp : q = p
    · rw [hqp, Function.update_self] at hq
      exact hne hact.1 (Option.some.inj hq).symm
    · rw [Function.update_of_ne hqp] at hq
      exact hact.2 q hq

/-- What a process is mounting, or unmounting, is on the list; it is not `rootvfs`. -/
theorem vfs_remove_eq (h : Inv w s) {vp : V} {vfsp : M}
    (hp : (s.procs p).locks = some (vfsp, some vp)) (refs : Multiset V) :
    State.vfs_remove w { s with refs := refs } vfsp =
      { s.setVfs vfsp none with
        refs := refs
        list := s.list.erase vfsp
        v_vfsmountedhere := Function.update s.v_vfsmountedhere vp none } := by
  have hv := (h.locks p vfsp _ hp).1
  have hroot : vfsp ≠ w.rootvfs := by
    rintro rfl
    have hcov := h.root
    rw [State.covered, hv] at hcov
    cases hcov
  have hok : ¬(vfsp = w.rootvfs ∨ vfsp ∉ s.list) :=
    not_or.2 ⟨hroot, not_not.2 (h.locks_mem hp)⟩
  rw [State.vfs_remove]
  simp only [hv, if_neg hok]
  rfl

/-- Nothing of a file system is in use before `VFS_MOUNT` returns. -/
theorem unused_of_mounts (h : Inv w s) {vfsp : M} (hp : (s.procs p).mounts = some vfsp) :
    s.Unused w vfsp :=
  by_contra fun hun => (h.active vfsp hun).2 p hp

/-- A file system that is not in use is taken off the list, and its vnode released. -/
theorem remove (h : Inv w s) {vp : V} {vfsp : M} (hp : (s.procs p).locks = some (vfsp, some vp))
    (hun : s.Unused w vfsp) (leaked : ℕ) :
    Inv w
      { s.setProc p .idle with
        vfs := Function.update s.vfs vfsp none
        refs := s.refs.erase vp
        list := s.list.erase vfsp
        v_vfsmountedhere := Function.update s.v_vfsmountedhere vp none
        leaked := leaked } := by
  obtain ⟨hv, hown⟩ := h.locks p vfsp _ hp
  obtain ⟨hheld, hfresh, hclaims⟩ := Call.of_locks hp
  have hcov : s.covered vfsp = some vp := by
    rw [State.covered, hv]
    rfl
  have hmem := h.locks_mem hp
  have hroot : vfsp ≠ w.rootvfs := by
    rintro rfl
    rw [h.root] at hcov
    cases hcov
  have hin (m : M) : m ∈ s.list.erase vfsp ↔ m ≠ vfsp ∧ m ∈ s.list := h.nodup.mem_erase_iff
  have hsplit : s.refs = vp ::ₘ (s.others + ∑ q, (s.procs q).held +
      ((s.list.erase vfsp).filterMap s.covered : Multiset V)) := by
    have hperm := (List.perm_cons_erase hmem).filterMap s.covered
    rw [List.filterMap_cons_some hcov] at hperm
    rw [h.refs, Multiset.coe_eq_coe.2 hperm, ← Multiset.cons_coe, Multiset.add_cons]
  refine ⟨?_, h.nodup.erase vfsp, fun m hm hne => ?_, ?_, fun vp' m => ?_, ?_, fun m => ?_,
    fun q m hq => ?_, fun q m c hq => ?_, fun q vp' hq => ?_, fun m hm => ?_, h.rootdir,
    fun q m vp' hq => h.uncovering q m vp' (of_update hq nofun), h.panic⟩
  · have hhead := h.head
    change (s.list.erase vfsp).head? = _
    cases hl : s.list with
    | nil =>
      rw [hl] at hhead
      cases hhead
    | cons m l =>
      rw [hl] at hhead
      obtain rfl := Option.some.inj hhead
      rw [List.erase_cons_tail (by simpa using hroot.symm)]
      rfl
  · change ((s.setVfs vfsp none).covered m).isSome
    rw [covered_setVfs_of_ne ((hin m).1 hm).1]
    exact h.mounted m ((hin m).1 hm).2 hne
  · exact (covered_setVfs_of_ne hroot.symm).trans h.root
  · change Function.update s.v_vfsmountedhere vp none vp' = some m ↔
      (s.setVfs vfsp none).covered m = some vp'
    by_cases hm : m = vfsp
    · rw [hm, covered_setVfs_self]
      by_cases hvp : vp' = vp
      · rw [hvp, Function.update_self]
        exact iff_of_false (Option.some_ne_none _).symm (Option.some_ne_none _).symm
      · rw [Function.update_of_ne hvp, h.inverse, hcov]
        exact iff_of_false (fun he => hvp (Option.some.inj he).symm) (Option.some_ne_none _).symm
    · rw [covered_setVfs_of_ne hm, ← h.inverse]
      by_cases hvp : vp' = vp
      · rw [hvp, Function.update_self, (h.inverse vp vfsp).2 hcov]
        exact iff_of_false (Option.some_ne_none _).symm fun he => hm (Option.some.inj he).symm
      · rw [Function.update_of_ne hvp]
  · have hsum := sum_held s.procs p .idle
    rw [hheld] at hsum
    change s.refs.erase vp = s.others + ∑ q, (Function.update s.procs p .idle q).held +
      ((s.list.erase vfsp).filterMap (s.setVfs vfsp none).covered : Multiset V)
    rw [add_right_cancel hsum, hsplit, Multiset.erase_cons_head,
      List.filterMap_congr fun m hm => covered_setVfs_of_ne ((hin m).1 hm).1]
  · change Function.update s.vfs vfsp none m ≠ none ↔ m ∈ s.list.erase vfsp ∨
      ∃ q, (Function.update s.procs p .idle q).fresh = some m
    have hfresh' : (∃ q, (Function.update s.procs p .idle q).fresh = some m) ↔
        ∃ q, (s.procs q).fresh = some m :=
      exists_congr fun q => update_iff Call.fresh hfresh rfl q m
    rw [hin, hfresh']
    by_cases hm : m = vfsp
    · rw [hm, Function.update_self]
      refine iff_of_false (fun he => he rfl) ?_
      rintro (he | ⟨q, hq⟩)
      · exact he.1 rfl
      · exact (h.fresh q vfsp hq).2.1 hmem
    · rw [Function.update_of_ne hm, h.alloc, and_iff_right hm]
  · obtain ⟨hvm, hl, huniq⟩ := h.fresh q m ((update_iff Call.fresh hfresh rfl q m).1 hq)
    have hm : m ≠ vfsp := fun he => hl (he ▸ hmem)
    exact ⟨(Function.update_of_ne hm _ _).trans hvm, fun he => hl ((hin m).1 he).2, fun q' hq' =>
      huniq q' ((update_iff Call.fresh hfresh rfl q' m).1 hq')⟩
  · change (Function.update s.procs p .idle q).locks = some (m, c) at hq
    have hqp : q ≠ p := by
      rintro rfl
      rw [Function.update_self] at hq
      cases hq
    rw [Function.update_of_ne hqp] at hq
    have hm : m ≠ vfsp := fun he => hqp (hown q c (he ▸ hq))
    obtain ⟨hvm, huniq⟩ := h.locks q m c hq
    refine ⟨(Function.update_of_ne hm _ _).trans hvm, fun q' c' hq' => ?_⟩
    change (Function.update s.procs p .idle q').locks = some (m, c') at hq'
    by_cases hq'p : q' = p
    · rw [hq'p, Function.update_self] at hq'
      cases hq'
    · rw [Function.update_of_ne hq'p] at hq'
      exact huniq q' c' hq'
  · obtain ⟨hmnt, huniq⟩ := h.claims q vp' ((update_iff Call.claims hclaims rfl q vp').1 hq)
    refine ⟨?_, fun q' hq' => huniq q' ((update_iff Call.claims hclaims rfl q' vp').1 hq')⟩
    change Function.update s.v_vfsmountedhere vp none vp' = none
    rw [Function.update_apply, hmnt, ite_self]
  · have hun' : ¬s.Unused w m := fun hun' =>
      hm ⟨fun x hx => hun'.1 x (Multiset.mem_of_mem_erase hx),
        fun q hq => hun'.2 q (of_update hq nofun)⟩
    have hact := h.active m hun'
    refine ⟨(hin m).2 ⟨fun he => hun' (he ▸ hun), hact.1⟩, fun q hq => ?_⟩
    change (Function.update s.procs p .idle q).mounts = some m at hq
    by_cases hqp : q = p
    · rw [hqp, Function.update_self] at hq
      cases hq
    · rw [Function.update_of_ne hqp] at hq
      exact hact.2 q hq

/-- A locked file system is unlocked. -/
theorem unlock (h : Inv w s) {vfsp : M} {c : Option V}
    (hp : (s.procs p).locks = some (vfsp, c)) :
    Inv w ((s.vfs_unlock vfsp).setProc p .idle) := by
  obtain ⟨hv, hown⟩ := h.locks p vfsp c hp
  have heq : s.vfs_unlock vfsp = s.setVfs vfsp (some ⟨c, false⟩) := by
    rw [State.vfs_unlock, hv]
  rw [heq]
  exact h.flag hv (h.locks_mem hp) (fun q hq c' hl => hq (hown q c' hl)) (Call.of_locks hp)
    ⟨rfl, rfl, rfl⟩ rfl (.inl rfl) nofun nofun

/-- The root was released, and the file system is locked unless another process has it locked. -/
theorem lock (h : Inv w s) {vfsp : M} (hp : s.procs p = .released vfsp) :
    Inv w (s.lock p vfsp) := by
  have hmem := (h.active vfsp fun hun => hun.2 p hp).1
  obtain ⟨⟨c, b⟩, hv⟩ := Option.ne_none_iff_exists'.1 ((h.alloc vfsp).2 (.inl hmem))
  have hown {q : P} {c' : Option V} (hl : (s.procs q).locks = some (vfsp, c')) : b = true := by
    have hv' := hv.symm.trans (h.locks q vfsp c' hl).1
    exact congrArg Vfs.VFS_MLOCK (Option.some.inj hv')
  rw [State.lock, hv]
  cases b with
  | true =>
    exact h.move hp rfl rfl rfl nofun nofun
  | false =>
    refine h.flag hv hmem (fun q _ c' hl => nomatch hown hl) ?_ ⟨rfl, rfl, rfl⟩ rfl
      (.inr ⟨rfl, rfl⟩) nofun nofun
    rw [hp]
    exact ⟨rfl, rfl, rfl⟩

end Inv

end AuxKernel.Mount
