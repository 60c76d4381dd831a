import AuxKernel.Mount.Table

/-!
# Runs of `mount` and `unmount`

No step breaks the mount table (`Inv.step`), so it is sound in all runs in which `unmount` does
not sleep in the release of the covered vnode; there `mount` gives back all that it took when it
fails, but for the path buffer.
-/

namespace AuxKernel.Mount

variable {V M P : Type*} [DecidableEq V] [DecidableEq M] [DecidableEq P] [Fintype P]
  {w : Vnodes V M} {s : State V M P} {p : P}

namespace Inv

/-- A vnode that `mount` finds to have the one reference is not mounted on, nor claimed. -/
theorem unclaimed (h : Inv w s) {vp : V} (hp : (s.procs p).held = {vp})
    (hcount : s.refs.count vp = 1) :
    s.v_vfsmountedhere vp = none ∧ ∀ q ≠ p, (s.procs q).claims ≠ some vp := by
  have hrefs := h.refs
  rw [← Finset.add_sum_erase _ _ (Finset.mem_univ p), hp] at hrefs
  rw [hrefs] at hcount
  simp only [Multiset.count_add, Multiset.count_singleton_self] at hcount
  constructor
  · rw [Option.eq_none_iff_forall_ne_some]
    intro m hm
    have hcov := (h.inverse vp m).1 hm
    have hmem : m ∈ s.list := (h.table.mounted m).2 (.inr ⟨vp, hm⟩)
    have hin : vp ∈ (s.list.filterMap s.covered : Multiset V) :=
      Multiset.mem_coe.2 (List.mem_filterMap.2 ⟨m, hmem, hcov⟩)
    have hpos := Multiset.count_pos.2 hin
    omega
  · intro q hqp hq
    have hheld := Call.held_of_claims hq
    rw [← Finset.add_sum_erase _ _ (Finset.mem_erase.2 ⟨hqp, Finset.mem_univ q⟩), hheld] at hcount
    simp only [Multiset.count_add, Multiset.count_singleton_self] at hcount
    omega

theorem cross (h : Inv w s) {vp : V} (hp : s.procs p = .lookup vp) : Inv w (s.cross p vp) := by
  rw [State.cross]
  cases hm : s.v_vfsmountedhere vp with
  | none => exact h.move hp rfl rfl rfl nofun nofun
  | some m =>
    have hmem : m ∈ s.list := (h.table.mounted m).2 (.inr ⟨vp, hm⟩)
    obtain ⟨⟨c, b⟩, hv⟩ := Option.ne_none_iff_exists'.1 ((h.alloc m).2 (.inl hmem))
    simp only [hv]
    cases b with
    | true => exact h
    | false => exact h.move hp rfl rfl rfl nofun nofun

/-- A process has a vnode of a file system that is in use. -/
theorem enter (h : Inv w s) {call call' : Call V M} {vp : V} (hp : s.procs p = call)
    (hcall : call.plain) (hcall' : call'.plain) (hheld : call'.held = vp ::ₘ call.held)
    (hclaims : call'.claims = none) (hrel : ∀ m, call' ≠ .released m)
    (hmounted : s.Mounted (w.v_vfsp vp)) : Inv w ((s.hold vp).setProc p call') := by
  refine h.plain s.leaked (by rwa [hp]) hcall' ?_ (fun vp' hvp' => ?_) (fun x hx => ?_)
    (fun m hm => absurd hm (hrel m)) h.rootdir
  · change vp ::ₘ s.refs + s.others + _ = s.refs + s.others + _
    rw [hp, hheld, Multiset.add_cons, Multiset.cons_add, Multiset.cons_add]
  · rw [hclaims] at hvp'
    cases hvp'
  · rcases Multiset.mem_cons.1 hx with rfl | hx
    · exact hmounted
    · exact h.active_mem hx

/-- `VFS_ROOT` returned: the process has the root instead of the vnode. -/
theorem rooted (h : Inv w s) {vp : V} {vfsp : M} (hp : s.procs p = .rooting vp vfsp)
    (hm : s.Mounted vfsp) :
    Inv w (((s.hold (w.root vfsp)).rele vp).setProc p (.lookup (w.root vfsp))) := by
  have hmem : vp ∈ s.refs := by
    refine Multiset.singleton_le.1 ?_
    have hle := h.held_le p
    rwa [hp] at hle
  have hsub : (w.root vfsp ::ₘ s.refs).erase vp + {vp} = s.refs + {w.root vfsp} := by
    rw [add_comm, Multiset.singleton_add, Multiset.cons_erase (Multiset.mem_cons_of_mem hmem),
      add_comm, Multiset.singleton_add]
  refine h.plain s.leaked (by rw [hp]; rfl) rfl ?_ nofun (fun x hx => ?_) nofun h.rootdir
  · rw [hp]
    change (w.root vfsp ::ₘ s.refs).erase vp + s.others + {vp} = s.refs + s.others + {w.root vfsp}
    rw [add_right_comm, hsub, add_right_comm]
  · rcases Multiset.mem_cons.1 (Multiset.mem_of_mem_erase hx) with rfl | hx
    · rwa [w.v_vfsp_root]
    · exact h.active_mem hx

theorem lock_setProc {vfsp : M} (call : Call V M) (hv : s.vfs vfsp ≠ none) :
    (s.setProc p call).lock p vfsp = s.lock p vfsp := by
  obtain ⟨⟨c, b⟩, hv⟩ := Option.ne_none_iff_exists'.1 hv
  have hv' : (s.setProc p call).vfs vfsp = some ⟨c, b⟩ := hv
  rw [State.lock, State.lock, hv, hv']
  cases b with
  | true =>
    change { s with procs := Function.update (Function.update s.procs p call) p .idle } = _
    rw [Function.update_idem]
    rfl
  | false =>
    change { s.setVfs vfsp _ with
      procs := Function.update (Function.update s.procs p call) p (.unmounting vfsp c) } = _
    rw [Function.update_idem]
    rfl

/-- `unmount` releases the root that was looked up. -/
theorem unmount (h : Inv w s) {vp : V} (hp : s.procs p = .found vp) (sleeps : Bool) :
    Inv w (if sleeps then (s.rele vp).setProc p (.released (w.v_vfsp vp))
      else (s.rele vp).lock p (w.v_vfsp vp)) := by
  have hmem : vp ∈ s.refs := by
    refine Multiset.singleton_le.1 ?_
    have hle := h.held_le p
    rwa [hp] at hle
  have hmnt := h.active_mem hmem
  have hrel : Inv w ((s.rele vp).setProc p (.released (w.v_vfsp vp))) := by
    refine h.drop (.released (w.v_vfsp vp)) hp rfl rfl rfl rfl rfl (fun m hm => ?_) s.leaked
    injection hm with hm
    rwa [← hm]
  cases sleeps with
  | true => exact hrel
  | false =>
    have hlock := hrel.lock (p := p) (Function.update_self ..)
    rwa [lock_setProc] at hlock
    exact (h.alloc _).2 (.inl hmnt.1)

/-- Others take references and release them. -/
theorem other (h : Inv w s) {refs others : Multiset V} (hrefs : refs + s.others = s.refs + others)
    (hactive : ∀ x ∈ refs, s.Mounted (w.v_vfsp x)) (hroot : w.root w.rootvfs ∈ others) :
    Inv w { s with refs := refs, others := others } := by
  refine ⟨h.head, h.nodup, h.mounted, h.root, h.inverse, ?_, h.alloc, h.fresh, h.locks, h.claims,
    fun m hm => ?_, hroot, h.uncovering, h.panic⟩
  · refine add_right_cancel (b := s.others) ?_
    change refs + s.others = others + _ + (s.list.filterMap s.covered : Multiset V) + s.others
    rw [hrefs, h.refs]
    abel
  · by_contra hmnt
    refine hm ⟨fun x hx he => hmnt (he ▸ hactive x hx), fun q hq => ?_⟩
    exact hmnt (h.active m fun hun => hun.2 q hq)

theorem of_active (h : Inv w s) {vp : V} (ha : s.Active w vp) : s.Mounted (w.v_vfsp vp) := by
  obtain ⟨x, hx, he⟩ := ha
  rw [← he]
  exact h.active_mem hx

theorem step (h : Inv w s) {s' : State V M P} {a : Act V M P} (hs : s.step w a = some s')
    (hc : Clean s a) : Inv w s' := by
  cases a with
  | start p vp =>
    rw [State.step, Option.ite_none_right_eq_some] at hs
    obtain ⟨⟨hp, ha⟩, hs⟩ := hs
    obtain rfl := Option.some.inj hs
    exact h.enter hp rfl rfl rfl rfl nofun (h.of_active ha)
  | cross p =>
    rw [State.step] at hs
    split at hs
    · obtain rfl := Option.some.inj hs
      exact h.cross ‹_›
    · cases hs
  | rooted p ok =>
    rw [State.step] at hs
    split at hs
    · rename_i vp m hp
      cases ok with
      | true =>
        rw [if_pos rfl, Option.ite_none_right_eq_some] at hs
        obtain ⟨hm, hs⟩ := hs
        obtain rfl := Option.some.inj hs
        exact h.rooted hp hm
      | false =>
        obtain rfl := Option.some.inj hs
        exact h.leave hp rfl rfl s.leaked
    · cases hs
  | drop p =>
    rw [State.step] at hs
    split at hs
    · obtain rfl := Option.some.inj hs
      exact h.leave ‹_› rfl rfl s.leaked
    · cases hs
  | mount p =>
    rw [State.step] at hs
    split at hs
    · rename_i vp hp
      split_ifs at hs with hbad
      · obtain rfl := Option.some.inj hs
        exact h.leave hp rfl rfl s.leaked
      · obtain rfl := Option.some.inj hs
        rw [not_or, not_not] at hbad
        refine h.move hp rfl rfl rfl (fun vp' hvp' => ?_) nofun
        obtain rfl := Option.some.inj hvp'
        exact h.unclaimed (by rw [hp]; rfl) hbad.1
    · cases hs
  | pn_get p ok =>
    rw [State.step] at hs
    split at hs
    · rename_i vp hp
      obtain rfl := Option.some.inj hs
      cases ok with
      | true =>
        obtain ⟨hfree, huniq⟩ := h.claims p vp (by rw [hp]; rfl)
        refine h.move hp rfl rfl rfl (fun vp' hvp' => ?_) nofun
        obtain rfl := Option.some.inj hvp'
        exact ⟨hfree, fun q hqp hq => hqp (huniq q hq)⟩
      | false => exact h.leave hp rfl rfl s.leaked
    · cases hs
  | alloc p vfsp ok =>
    rw [State.step] at hs
    split at hs
    · rename_i vp hp
      cases ok with
      | true =>
        rw [if_pos rfl, Option.ite_none_right_eq_some] at hs
        obtain ⟨hv, hs⟩ := hs
        obtain rfl := Option.some.inj hs
        exact h.alloc_vfs hp hv
      | false =>
        obtain rfl := Option.some.inj hs
        exact h.leave hp rfl rfl (s.leaked + 1)
    · cases hs
  | vfs_add p =>
    rw [State.step] at hs
    split at hs
    · rename_i vp m hp
      obtain ⟨s₁, hadd, hinv⟩ := h.add hp
      rw [hadd] at hs
      obtain rfl := Option.some.inj hs
      exact hinv
    · cases hs
  | mounted p ok =>
    rw [State.step] at hs
    split at hs
    · rename_i vp m hp
      have hl : (s.procs p).locks = some (m, some vp) := by
        rw [hp]
        rfl
      cases ok with
      | true =>
        obtain rfl := Option.some.inj hs
        exact h.unlock hl
      | false =>
        rw [if_neg Bool.false_ne_true] at hs
        obtain rfl := Option.some.inj hs
        rw [h.vfs_remove_eq hl s.refs]
        exact h.remove hl (h.unused_of_mounts (by rw [hp]; rfl)) (s.leaked + 1)
    · cases hs
  | unmount p sleeps =>
    rw [State.step] at hs
    split at hs
    · rename_i vp hp
      cases hroot : w.VROOT vp with
      | true =>
        rw [if_pos hroot] at hs
        obtain rfl := Option.some.inj hs
        exact h.unmount hp sleeps
      | false =>
        rw [if_neg (by rw [hroot]; exact Bool.false_ne_true)] at hs
        obtain rfl := Option.some.inj hs
        exact h.leave hp rfl rfl s.leaked
    · cases hs
  | lock p =>
    rw [State.step] at hs
    split at hs
    · obtain rfl := Option.some.inj hs
      exact h.lock ‹_›
    · cases hs
  | unmounted p ok sleeps =>
    rw [State.step] at hs
    split at hs
    · rename_i m c hp
      have hl : (s.procs p).locks = some (m, c) := by
        rw [hp]
        rfl
      cases ok with
      | true =>
        rw [if_pos rfl, Option.ite_none_right_eq_some] at hs
        obtain ⟨hun, hs⟩ := hs
        have hsl : sleeps = false := by simpa [Clean] using hc
        subst hsl
        cases c with
        | none =>
          refine absurd ?_ (hun.1 (w.root w.rootvfs) (Multiset.mem_of_le h.others_le h.rootdir))
          rw [w.v_vfsp_root]
          by_contra hne
          have hcov := h.mounted m (h.locks_mem hl) (Ne.symm hne)
          rw [State.covered, (h.locks p m none hl).1] at hcov
          cases hcov
        | some vp =>
          obtain rfl := Option.some.inj hs
          change Inv w (((State.vfs_remove w { s with refs := s.refs.erase vp } m)).setProc p .idle)
          rw [h.vfs_remove_eq hl (s.refs.erase vp)]
          exact h.remove hl hun s.leaked
      | false =>
        obtain rfl := Option.some.inj hs
        exact h.unlock hl
    · cases hs
  | removed p =>
    rw [State.step] at hs
    split at hs
    · rename_i m vp hp
      exact absurd hp (h.uncovering p m vp)
    · cases hs
  | hold vp =>
    rw [State.step, Option.ite_none_right_eq_some] at hs
    obtain ⟨ha, hs⟩ := hs
    obtain rfl := Option.some.inj hs
    refine h.other ?_ (fun x hx => ?_) (Multiset.mem_cons_of_mem h.rootdir)
    · change vp ::ₘ s.refs + s.others = s.refs + vp ::ₘ s.others
      rw [Multiset.add_cons, Multiset.cons_add]
    · rcases Multiset.mem_cons.1 hx with rfl | hx
      · exact h.of_active ha
      · exact h.active_mem hx
  | rele vp =>
    rw [State.step, Option.ite_none_right_eq_some] at hs
    obtain ⟨⟨hmem, hroot⟩, hs⟩ := hs
    obtain rfl := Option.some.inj hs
    refine h.other ?_ (fun x hx => h.active_mem (Multiset.mem_of_mem_erase hx)) ?_
    · have h₁ := Multiset.cons_erase (Multiset.mem_of_le h.others_le hmem)
      have h₂ := Multiset.cons_erase hmem
      calc s.refs.erase vp + s.others
        _ = vp ::ₘ (s.refs.erase vp + s.others.erase vp) := by
          rw [← Multiset.add_cons, h₂]
        _ = s.refs + s.others.erase vp := by rw [← Multiset.cons_add, h₁]
    · by_cases he : w.root w.rootvfs = vp
      · subst he
        rw [← Multiset.count_pos, Multiset.count_erase_self]
        have hcount := hroot rfl
        omega
      · exact (Multiset.mem_erase_of_ne he).2 h.rootdir

/-- The states that a run starts in. -/
theorem init (hi : (mounts w P).init s) : Inv w s := by
  obtain ⟨others, hroot, hall, rfl⟩ := hi
  have hcov : State.covered (P := P) ⟨[w.rootvfs],
      Function.update (fun _ => none) w.rootvfs (some ⟨none, false⟩), fun _ => none, others,
      fun _ => .idle, others, 0, false⟩ = fun _ => none := by
    funext m
    change (Function.update (fun _ => none) w.rootvfs (some (⟨none, false⟩ : Vfs V)) m).bind _ = _
    rw [Function.update_apply]
    split_ifs
    · rfl
    · rfl
  refine ⟨rfl, List.nodup_singleton _, fun m hm hne => absurd (List.mem_singleton.1 hm) hne,
    congrFun hcov _, fun vp m => ?_, ?_, fun m => ?_, nofun, nofun, nofun, fun m hm => ?_, hroot,
    nofun, rfl⟩
  · rw [hcov]
    exact iff_of_false (Option.some_ne_none _).symm (Option.some_ne_none _).symm
  · rw [hcov]
    change others = others + ∑ q : P, 0 + 0
    rw [Finset.sum_const_zero, add_zero, add_zero]
  · change Function.update (fun _ => none) w.rootvfs _ m ≠ none ↔ m ∈ [w.rootvfs] ∨ _
    rw [List.mem_singleton, Function.update_apply]
    split_ifs with hm
    · exact iff_of_true (Option.some_ne_none _) (.inl hm)
    · refine iff_of_false (fun he => he rfl) ?_
      rintro (he | ⟨q, hq⟩)
      · exact hm he
      · cases hq
  · refine ⟨List.mem_singleton.2 ?_, nofun⟩
    by_contra hne
    exact hm ⟨fun x hx he => hne (he.symm.trans (hall x hx)), nofun⟩

theorem reachable (hs : (mounts w P).ReachableIf Clean s) : Inv w s :=
  hs.invariant (fun _ => init) fun _ _ _ h hc hs => h.step hs hc

end Inv

/-- The steps of `mount` that may fail. -/
def Act.mounting : Act V M P → Option P
  | .mount p | .pn_get p _ | .alloc p _ false | .vfs_add p | .mounted p false => some p
  | _ => none

/-- The vnode that `mount` looked up. -/
def Call.vnode : Call V M → Option V
  | .found vp | .checked vp | .copied vp | .locking vp _ | .mounting vp _ => some vp
  | _ => none

/-- What a call of `mount` that fails leaves behind: its vfs is neither on the list nor mounted
    on a vnode, and is freed; the vnode has lost the reference of the call. -/
structure Restored (s s' : State V M P) (p : P) : Prop where
  list : s'.list = s.list.filter fun vfsp => (s.procs p).mounts ≠ some vfsp
  v_vfsmountedhere : s'.v_vfsmountedhere = fun vp =>
    (s.v_vfsmountedhere vp).filter fun vfsp => (s.procs p).mounts ≠ some vfsp
  freed : ∀ vfsp, (s.procs p).uses = some vfsp → s'.vfs vfsp = none
  refs : ∃ vp, (s.procs p).vnode = some vp ∧ s'.refs = s.refs.erase vp

namespace Inv

theorem filter_self {f : M → Bool} {o : Option M} (ho : ∀ m, o = some m → f m = true) :
    o.filter f = o := by
  cases o with
  | none => rfl
  | some m => exact if_pos (ho m rfl)

theorem setProc_self (s : State V M P) (p : P) (call : Call V M) :
    (s.setProc p call).procs p = call :=
  Function.update_self ..

theorem restored_leave {vp : V} (hvp : (s.procs p).vnode = some vp)
    (hp : (s.procs p).mounts = none) (hu : (s.procs p).uses = none) (leaked : ℕ) :
    Restored s { s.leave p vp with leaked := leaked } p := by
  refine ⟨?_, ?_, fun m hm => ?_, vp, hvp, rfl⟩
  · rw [hp]
    exact (List.filter_eq_self.2 fun m _ => by simp).symm
  · rw [hp]
    funext vp'
    exact (filter_self fun m _ => by simp).symm
  · rw [hu] at hm
    cases hm

theorem restored (h : Inv w s) {s' : State V M P} {a : Act V M P} (ha : a.mounting = some p)
    (hs : s.step w a = some s') (hp' : s'.procs p = .idle) : Restored s s' p := by
  cases a with
  | mount q =>
    obtain rfl := Option.some.inj ha
    rw [State.step] at hs
    split at hs
    · rename_i vp hp
      split_ifs at hs with hbad
      · obtain rfl := Option.some.inj hs
        exact restored_leave (by rw [hp]; rfl) (by rw [hp]; rfl) (by rw [hp]; rfl) s.leaked
      · obtain rfl := Option.some.inj hs
        exact absurd ((setProc_self s q (.checked vp)).symm.trans hp') nofun
    · cases hs
  | pn_get q ok =>
    obtain rfl := Option.some.inj ha
    rw [State.step] at hs
    split at hs
    · rename_i vp hp
      obtain rfl := Option.some.inj hs
      cases ok with
      | true => exact absurd ((setProc_self s q (.copied vp)).symm.trans hp') nofun
      | false => exact restored_leave (by rw [hp]; rfl) (by rw [hp]; rfl) (by rw [hp]; rfl) s.leaked
    · cases hs
  | alloc q m ok =>
    cases ok with
    | true => cases ha
    | false =>
      obtain rfl := Option.some.inj ha
      rw [State.step] at hs
      split at hs
      · rename_i vp hp
        obtain rfl := Option.some.inj hs
        exact restored_leave (by rw [hp]; rfl) (by rw [hp]; rfl) (by rw [hp]; rfl) (s.leaked + 1)
      · cases hs
  | vfs_add q =>
    obtain rfl := Option.some.inj ha
    rw [State.step] at hs
    split at hs
    · rename_i vp m hp
      obtain ⟨s₁, hadd, -⟩ := h.add hp
      rw [hadd] at hs
      obtain rfl := Option.some.inj hs
      exact absurd ((setProc_self s₁ q (.mounting vp m)).symm.trans hp') nofun
    · cases hs
  | mounted q ok =>
    cases ok with
    | true => cases ha
    | false =>
      obtain rfl := Option.some.inj ha
      rw [State.step] at hs
      split at hs
      · rename_i vp m hp
        have hl : (s.procs q).locks = some (m, some vp) := by
          rw [hp]
          rfl
        rw [if_neg Bool.false_ne_true] at hs
        obtain rfl := Option.some.inj hs
        rw [h.vfs_remove_eq hl s.refs]
        refine ⟨?_, ?_, fun m' hm' => ?_, vp, by rw [hp]; rfl, rfl⟩
        · rw [hp]
          change s.list.erase m = _
          rw [h.nodup.erase_eq_filter]
          refine List.filter_congr fun m' _ => ?_
          simp [Call.mounts, bne, eq_comm, Bool.beq_eq_decide_eq]
        · rw [hp]
          change Function.update s.v_vfsmountedhere vp none = _
          have hm : s.v_vfsmountedhere vp = some m := by
            rw [h.inverse, State.covered, (h.locks q m _ hl).1]
            rfl
          funext vp'
          by_cases hvp : vp' = vp
          · rw [hvp, Function.update_self, hm]
            simp [Call.mounts, Option.filter]
          · rw [Function.update_of_ne hvp]
            refine (filter_self fun m' hm' => ?_).symm
            rw [decide_eq_true_iff]
            intro he
            refine hvp ?_
            obtain rfl := Option.some.inj he
            exact Option.some.inj (((h.inverse vp' m).1 hm').symm.trans ((h.inverse vp m).1 hm))
        · rw [hp] at hm'
          obtain rfl := Option.some.inj hm'
          exact Function.update_self ..
      · cases hs
  | _ => cases ha

theorem cross_leaked (vp : V) : (s.cross p vp).leaked = s.leaked := by
  rw [State.cross]
  split
  · rfl
  · split
    · rfl
    · split_ifs <;> rfl

theorem lock_leaked (m : M) : (s.lock p m).leaked = s.leaked := by
  rw [State.lock]
  split
  · rfl
  · split_ifs <;> rfl

theorem vfs_unlock_leaked (m : M) : (s.vfs_unlock m).leaked = s.leaked := by
  rw [State.vfs_unlock]
  split <;> rfl

theorem vfs_remove_leaked (m : M) : (s.vfs_remove w m).leaked = s.leaked := by
  rw [State.vfs_remove]
  split
  · split_ifs <;> rfl
  · rfl

/-- Path buffers are left only by calls of `mount` that fail once they have one. -/
theorem leaked (h : Inv w s) {s' : State V M P} {a : Act V M P} (hs : s.step w a = some s')
    (hc : CleanMount s a) : s'.leaked = s.leaked := by
  cases a with
  | vfs_add p =>
    rw [State.step] at hs
    split at hs
    · rename_i vp m hp
      obtain ⟨s₁, hadd, -⟩ := h.add hp
      rw [hadd] at hs
      obtain rfl := Option.some.inj hs
      rw [State.vfs_add, Option.ite_none_right_eq_some] at hadd
      obtain rfl := Option.some.inj hadd.2
      rfl
    · cases hs
  | alloc p m ok =>
    obtain rfl : ok = true := hc
    grind [State.step, State.setVfs, State.setProc]
  | mounted p ok =>
    obtain rfl : ok = true := hc
    grind [State.step, State.setProc, vfs_unlock_leaked]
  | cross | unmount | lock | unmounted | removed =>
    grind [State.step, State.leave, State.rele, State.setProc, cross_leaked, lock_leaked,
      vfs_unlock_leaked, vfs_remove_leaked]
  | _ => grind [State.step, State.hold, State.leave, State.rele, State.setProc]

end Inv

/-- In every run in which `unmount` does not sleep when it releases the covered vnode the mount
    table is sound, and a call of `mount` that fails changes nothing; it frees all that it took if
    it fails before it copies the path. -/
theorem table_of_clean (hs : (mounts w P).ReachableIf Clean s) :
    Table w s ∧
      (∀ p a s', a.mounting = some p → s.step w a = some s' → s'.procs p = .idle →
        Restored s s' p) ∧
      ((mounts w P).ReachableIf CleanMount s → s.leaked = 0) := by
  have h := Inv.reachable hs
  refine ⟨h.table, fun p a s' ha hs hp => h.restored ha hs hp, fun hc => ?_⟩
  refine (hc.invariant (P := fun s => Inv w s ∧ s.leaked = 0) (fun s hi => ⟨Inv.init hi, ?_⟩) ?_).2
  · obtain ⟨_, _, _, rfl⟩ := hi
    rfl
  · rintro s a s' ⟨h, hl⟩ hok hs
    exact ⟨h.step hs hok.clean, (h.leaked hs hok).trans hl⟩

instance (s : State V M P) (a : Act V M P) : Decidable (Clean s a) :=
  match a with
  | .unmounted .. => inferInstanceAs (Decidable ¬(_ ∧ _))
  | .start .. | .cross _ | .rooted .. | .drop _ | .mount _ | .pn_get .. | .alloc .. | .vfs_add _
  | .mounted .. | .unmount .. | .lock _ | .removed _ | .hold _ | .rele _ => isTrue trivial

instance (s : State V M P) (a : Act V M P) : Decidable (CleanMount s a) :=
  match a with
  | .alloc .. | .mounted .. => inferInstanceAs (Decidable (_ = true))
  | .unmounted p ok sleeps => inferInstanceAs (Decidable (Clean s (.unmounted p ok sleeps)))
  | .start .. | .cross _ | .rooted .. | .drop _ | .mount _ | .pn_get .. | .vfs_add _
  | .unmount .. | .lock _ | .removed _ | .hold _ | .rele _ => isTrue trivial

/-- Two file systems of two directories; the root file system is `false`. -/
def twoFs : Vnodes (Bool × Bool) Bool where
  v_vfsp := Prod.fst
  VROOT := Prod.snd
  VDIR _ := true
  root m := (m, true)
  rootvfs := false
  v_vfsp_root _ := rfl

/-- The root file system is mounted, and nobody runs. -/
def booted : State (Bool × Bool) Bool Unit :=
  ⟨[false], Function.update (fun _ => none) false (some ⟨none, false⟩), fun _ => none,
    {(false, true)}, fun _ => .idle, {(false, true)}, 0, false⟩

theorem init_booted : (mounts twoFs Unit).init booted :=
  ⟨{(false, true)}, Multiset.mem_singleton_self _, fun x hx => by
    rw [Multiset.mem_singleton.1 hx]
    rfl, rfl⟩

/-- The second file system is mounted on the other directory of the first one. -/
def mountActs : List (Act (Bool × Bool) Bool Unit) :=
  [.start () (false, false), .cross (), .mount (), .pn_get () true, .alloc () true true,
    .vfs_add (), .mounted () true]

theorem table_of_clean_mounted : ∃ s : State (Bool × Bool) Bool Unit,
    s.list = [false, true] ∧ Table twoFs s ∧ s.leaked = 0 := by
  have hrun : ((mounts twoFs Unit).runIf CleanMount booted mountActs).map (fun s => s.list) =
      some [false, true] := by decide
  obtain ⟨s, hs, hl⟩ := Option.map_eq_some_iff.1 hrun
  have hc := Machine.reachableIf_runIf (.init init_booted) hs
  obtain ⟨htable, -, hleaked⟩ := table_of_clean (hc.mono fun _ _ hok => hok.clean)
  exact ⟨s, hl, htable, hleaked hc⟩

/-- A type that there is not leaves the path buffer; and while `unmount` sleeps in the release of
    the covered vnode, that is mounted on without a reference. -/
theorem not_table :
    (∃ s, (mounts twoFs Unit).Reachable s ∧ s.leaked ≠ 0) ∧
      ∃ s, (mounts twoFs Unit).Reachable s ∧ ¬Table twoFs s := by
  constructor
  · have hrun : ((mounts twoFs Unit).run booted [.start () (false, false), .cross (), .mount (),
        .pn_get () true, .alloc () true false]).map (fun s => s.leaked) = some 1 := by decide
    obtain ⟨s, hs, hl⟩ := Option.map_eq_some_iff.1 hrun
    refine ⟨s, Machine.reachableIf_run (.init init_booted) (fun _ _ _ => trivial) hs, ?_⟩
    rw [hl]
    exact one_ne_zero
  · have hrun : ((mounts twoFs Unit).run booted (mountActs ++ [.start () (false, false), .cross (),
        .rooted () true, .cross (), .unmount () false, .unmounted () true true])).map
          (fun s => (s.refs.count (false, false), s.list.filterMap s.covered)) =
        some (0, [(false, false)]) := by decide
    obtain ⟨s, hs, hl⟩ := Option.map_eq_some_iff.1 hrun
    obtain ⟨hcount, hcov⟩ := Prod.mk.inj hl
    refine ⟨s, Machine.reachableIf_run (.init init_booted) (fun _ _ _ => trivial) hs, fun h => ?_⟩
    rw [h.refs, hcov, Multiset.count_add] at hcount
    simp at hcount

end AuxKernel.Mount
