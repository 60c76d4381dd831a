import AuxKernel.Lookup.Resolve
import Mathlib.Data.List.TakeWhile

/-!
# The walk of `lookuppn`

In a tree of file systems `lookuppn` returns, with what the pathname resolves to (`Good`): from
each label, if the references are those to `vp` and `cvp` (`At`), it gets to a return (`Returns`),
or to another label (`Leads`). No vnode it is at is outside of the root directory (`Inside`).
-/

namespace AuxKernel.Lookup

variable {V M : Type*} {u : User V}

/-! ## Inside of the root directory -/

/-- The vnodes below the root directory, and what is mounted there. -/
inductive Inside (w : Vnodes V M) (u : User V) : V → Prop
  | root : Inside w u (root w u)
  | child {d c : V} {nm : List UInt8} : Inside w u d → nm ≠ dotdot → w.VOP_LOOKUP d nm = .ok c →
    Inside w u c
  | mount {c v : V} {m : M} : Inside w u c → w.v_vfsmountedhere c = some m →
    w.VFS_ROOT m = .ok v → Inside w u v

theorem isRoot_root (w : Vnodes V M) (u : User V) : IsRoot w u (root w u) := by
  cases hu : u.u_rdir with
  | none => exact .inr (by rw [root, hu]; rfl)
  | some v => exact .inl (by rw [root, hu]; rfl)

variable {t : Tree V M}

/-- ".." does not lead out. -/
theorem Inside.parent {v p : V} (h : Inside t.toVnodes u v) (hroot : ¬IsRoot t.toVnodes u v)
    (hv : t.VROOT v = false) (hp : t.VOP_LOOKUP v dotdot = .ok p) : Inside t.toVnodes u p := by
  induction h with
  | root => exact absurd (isRoot_root _ _) hroot
  | @child d c nm hd hnm hc ih =>
    by_cases hdot : nm = dot
    · subst hdot
      obtain rfl := t.lookup_dot d c hc
      exact ih hroot hv hp
    · rwa [(t.lookup_child d nm c hc hdot hnm).2 p hp]
  | mount _ hm hr => exact absurd ((t.mounted _ _ _ hm hr).1.symm.trans hv) (by decide)

theorem Inside.covered {v c : V} (h : Inside t.toVnodes u v) (hroot : ¬IsRoot t.toVnodes u v)
    (hv : t.VROOT v = true) (hc : t.vfs_vnodecovered v = some c) : Inside t.toVnodes u c := by
  induction h with
  | root => exact absurd (isRoot_root _ _) hroot
  | @child d c' nm hd hnm hlook ih =>
    by_cases hdot : nm = dot
    · subst hdot
      obtain rfl := t.lookup_dot d c' hlook
      exact ih hroot hv hc
    · exact absurd ((t.lookup_child d nm c' hlook hdot hnm).1.symm.trans hv) (by decide)
  | mount hin hm hr =>
    obtain rfl := Option.some.inj ((t.mounted _ _ _ hm hr).2.1.symm.trans hc)
    exact hin

/-! ## References -/

variable [DecidableEq V]

/-- How many references to `v` there are if there is one to `x`. -/
def ref (x v : V) : ℤ := if v = x then 1 else 0

def refs (x : Option V) (v : V) : ℤ := x.elim 0 (ref · v)

@[simp] theorem refs_none (v : V) : refs none v = 0 := rfl

@[simp] theorem refs_some (x v : V) : refs (some x) v = ref x v := rfl

@[simp] theorem holds_hold (s : State V M) (x v : V) :
    (s.hold x).holds v = s.holds v + ref x v := by
  change Function.update s.holds x (s.holds x + 1) v = _
  rw [Function.update_apply, ref]
  split_ifs with h
  · rw [h]
  · rw [add_zero]

@[simp] theorem holds_rele (s : State V M) (x v : V) :
    (s.rele x).holds v = s.holds v - ref x v := by
  change Function.update s.holds x (s.holds x - 1) v = _
  rw [Function.update_apply, ref]
  split_ifs with h
  · rw [h]
  · rw [sub_zero]

variable [DecidableEq M]

/-- The references are those to `vp` and `cvp`, besides those there were before, and all vnodes
    are inside. -/
structure At (w : Vnodes V M) (u : User V) (holds : V → ℤ) (s : State V M) : Prop where
  holds : ∀ v, s.holds v = holds v + ref s.vp v + refs s.cvp v
  visited : ∀ v ∈ s.visited, Inside w u v
  vp : Inside w u s.vp
  cvp : ∀ v ∈ s.cvp, Inside w u v

/-- What `lookuppn` should return of what a pathname resolves to. -/
def Flags.answer (f : Flags) : Outcome V → Option Errno × Option V × Option V
  | .error e => (some e, none, none)
  | .missing d e => if f.dirvpp ∧ e ≠ .eacces then (none, some d, none) else (some e, none, none)
  | .found d v =>
    if f.dirvpp ∧ (d = none ∨ d = some v) then (some .einval, none, none)
    else (none, if f.dirvpp then d else none, if f.compvpp then some v else none)

/-- What is returned is right, and the references are those to the vnodes that are returned. -/
structure Good (w : Vnodes V M) (u : User V) (f : Flags) (holds : V → ℤ) (o : Outcome V)
    (r : Return V) : Prop where
  answer : (r.error, r.dirvp, r.compvp) = f.answer o
  holds : ∀ v, r.holds v = holds v + refs r.dirvp v + refs r.compvp v
  visited : ∀ v ∈ r.visited, Inside w u v

/-! ## Jumps -/

/-- From a label the function gets to a return. -/
inductive Returns (w : Vnodes V M) (u : User V) (f : Flags) : State V M → Label → Return V → Prop
  | ret {s : State V M} {l : Label} {r : Return V} : step w u f s l = .ret r → Returns w u f s l r
  | goto {s s' : State V M} {l l' : Label} {r : Return V} : step w u f s l = .goto l' s' →
    Returns w u f s' l' r → Returns w u f s l r

/-- From a label the function gets to another. -/
def Leads (w : Vnodes V M) (u : User V) (f : Flags) (s : State V M) (l : Label) (s' : State V M)
    (l' : Label) : Prop :=
  ∀ r, Returns w u f s' l' r → Returns w u f s l r

variable {w : Vnodes V M} {f : Flags} {holds : V → ℤ} {s : State V M}

theorem Returns.run {l : Label} {r : Return V} (h : Returns w u f s l r) :
    ∃ n, ∀ m ≥ n, Lookup.run w u f m s l = some r := by
  induction h with
  | ret h =>
    refine ⟨1, fun m hm => ?_⟩
    obtain ⟨m, rfl⟩ := Nat.exists_eq_add_of_le' hm
    rw [Lookup.run, h]
  | goto h _ ih =>
    obtain ⟨n, hn⟩ := ih
    refine ⟨n + 1, fun m hm => ?_⟩
    obtain ⟨m, rfl⟩ := Nat.exists_eq_add_of_le' (Nat.le_of_add_left_le hm)
    rw [Lookup.run, h]
    exact hn m (by omega)

theorem At.bad (h : At w u holds s) (e : Errno) :
    ∃ r, Returns w u f s (.bad e) r ∧ Good w u f holds (.error e) r := by
  refine ⟨_, .ret rfl, rfl, fun v => ?_, ?_⟩
  · have hv := h.holds v
    cases hc : s.cvp with
    | none =>
      simp only [State.fail, Option.elim_none, holds_rele, refs_none, hc] at hv ⊢
      omega
    | some c =>
      have hvp : (s.rele c).vp = s.vp := rfl
      simp only [State.fail, Option.elim_some, holds_rele, refs_none, refs_some, hc, hvp] at hv ⊢
      omega
  · cases hc : s.cvp with
    | none => exact h.visited
    | some c => exact h.visited

/-- The last component is there. -/
theorem At.skip_last (h : At w u holds s) {c : V} (hc : s.cvp = some c) (hpn : s.pn = []) :
    ∃ r, Returns w u f s .skip r ∧ Good w u f holds (.found (some s.vp) c) r := by
  have hstep := fun r => Returns.ret (w := w) (u := u) (f := f) (s := s) (l := .skip) (r := r)
  simp only [step, hc, hpn, if_true] at hstep
  by_cases hsame : f.dirvpp ∧ s.vp = c
  · rw [if_pos hsame] at hstep
    refine ⟨_, hstep _ rfl, ?_, fun v => ?_, h.visited⟩
    · rw [Flags.answer, if_pos ⟨hsame.1, .inr (congrArg some hsame.2)⟩]
      rfl
    · have hv := h.holds v
      simp only [State.fail, holds_rele, refs_none, hc, refs_some] at hv ⊢
      omega
  · rw [if_neg hsame] at hstep
    have hother : ¬(f.dirvpp ∧ (some s.vp = none ∨ some s.vp = some c)) := fun hor =>
      hsame ⟨hor.1, by simpa using hor.2⟩
    refine ⟨_, hstep _ rfl, ?_, fun v => ?_, h.visited⟩
    · rw [Flags.answer, if_neg hother]
    · have hv := h.holds v
      simp only [hc, refs_some] at hv
      cases f.dirvpp <;> cases f.compvpp <;> simp <;> omega

/-- There is more to be looked up. -/
theorem At.skip_more (h : At w u holds s) {c : V} (hc : s.cvp = some c) (hpn : s.pn ≠ []) :
    ∃ s', Leads w u f s .skip s' .next ∧ At w u holds s' ∧ s'.vp = c ∧ s'.cvp = none ∧
      s'.pn = pn_skipslash s.pn ∧ s'.nlink = s.nlink := by
  refine ⟨{ s.rele s.vp with pn := pn_skipslash s.pn, vp := c, cvp := none }, fun r => .goto ?_,
    ⟨fun v => ?_, h.visited, h.cvp c hc, fun v hv => by cases hv⟩, rfl, rfl, rfl, rfl⟩
  · simp only [step, hc, hpn, if_false]
  · have hv := h.holds v
    simp only [hc, refs_some] at hv
    change (s.rele s.vp).holds v = holds v + ref c v + 0
    rw [holds_rele]
    omega

/-! ## Components -/

/-- A lock is waited for. -/
theorem At.mlock (h : At w u holds s) {c : V} (hc : s.cvp = some c) {m : M}
    (hm : w.v_vfsmountedhere c = some m) :
    ∃ s', At w u holds s' ∧ s'.vp = s.vp ∧ s'.cvp = s.cvp ∧ s'.pn = s.pn ∧ s'.nlink = s.nlink ∧
      s'.mlock m = 0 ∧ Leads w u f s .mloop s' .mloop := by
  induction hk : s.mlock m generalizing s with
  | zero => exact ⟨s, h, rfl, rfl, rfl, rfl, hk, fun r hret => hret⟩
  | succ k ih =>
    let s₁ : State V M := { s with mlock := Function.update s.mlock m (s.mlock m - 1) }
    have h₁ : At w u holds s₁ := ⟨h.holds, h.visited, h.vp, h.cvp⟩
    have hjump : Leads w u f s .mloop s₁ .mloop := fun r => .goto (by simp [step, hc, hm, hk, s₁])
    have hk₁ : s₁.mlock m = k := by
      simp only [s₁, Function.update_self, hk]
      omega
    obtain ⟨s', hat, hvp, hcvp, hpn, hnlink, hlock, hleads⟩ := ih h₁ hc hk₁
    exact ⟨s', hat, hvp, hcvp, hpn, hnlink, hlock, fun r hret => hjump r (hleads r hret)⟩

/-- Through the roots that are mounted on each other, to the last, or one that cannot be had. -/
theorem At.mloop (h : At t.toVnodes u holds s) {c : V} (hc : s.cvp = some c) :
    ∃ s', At t.toVnodes u holds s' ∧ s'.vp = s.vp ∧ s'.pn = s.pn ∧ s'.nlink = s.nlink ∧
      ((∃ v, Cross t.toVnodes c (.ok v) ∧ s'.cvp = some v ∧
          Leads t.toVnodes u f s .mloop s' .skip) ∨
        ∃ e, Cross t.toVnodes c (.error e) ∧ Leads t.toVnodes u f s .mloop s' (.bad e)) := by
  -- each root is deeper than what it is mounted on
  induction hk : t.bound - t.depth c using Nat.strong_induction_on generalizing s c with
  | _ k ih =>
    cases hm : t.v_vfsmountedhere c with
    | none =>
      exact ⟨s, h, rfl, rfl, rfl, .inl ⟨c, .stop hm, hc, fun r =>
        .goto (by simp only [step, hc, hm])⟩⟩
    | some m =>
      obtain ⟨s₁, h₁, hvp₁, hcvp₁, hpn₁, hnlink₁, hlock, hwait⟩ := h.mlock (f := f) hc hm
      have hc₁ : s₁.cvp = some c := hcvp₁.trans hc
      cases hr : t.VFS_ROOT m with
      | error e =>
        have hbad : Leads t.toVnodes u f s₁ .mloop s₁ (.bad e) := fun r =>
          .goto (by simp [step, hc₁, hm, hr, hlock])
        exact ⟨s₁, h₁, hvp₁, hpn₁, hnlink₁, .inr ⟨e, .error hm hr, fun r hret =>
          hwait r (hbad r hret)⟩⟩
      | ok v =>
        have hdepth := (t.mounted c m v hm hr).2.2
        have hle := t.depth_le v
        have hinside : Inside t.toVnodes u v := .mount (h.cvp c hc) hm hr
        have h' : At t.toVnodes u holds ((s₁.got v).rele c) := by
          refine ⟨fun x => ?_, List.forall_mem_cons.2 ⟨hinside, h₁.visited⟩, h₁.vp, fun x hx => ?_⟩
          · have hx := h₁.holds x
            have hgot : (s₁.got v).holds x = (s₁.hold v).holds x := rfl
            have hcvp : ((s₁.got v).rele c).cvp = some v := rfl
            have hvp : ((s₁.got v).rele c).vp = s₁.vp := rfl
            simp only [holds_rele, hgot, holds_hold, hcvp, hvp, hc₁, refs_some] at hx ⊢
            omega
          · cases hx
            exact hinside
        have hjump : Leads t.toVnodes u f s₁ .mloop ((s₁.got v).rele c) .mloop := fun r =>
          .goto (by simp [step, hc₁, hm, hr, hlock])
        obtain ⟨s', hat, hvp, hpn, hnlink, hends⟩ := ih (t.bound - t.depth v) (by omega) h' rfl rfl
        refine ⟨s', hat, hvp.trans hvp₁, hpn.trans hpn₁, hnlink.trans hnlink₁, ?_⟩
        rcases hends with ⟨x, hx, hcvp, hleads⟩ | ⟨e, he, hleads⟩
        · exact .inl ⟨x, .root hm hr hx, hcvp, fun r hret =>
            hwait r (hjump r (hleads r hret))⟩
        · exact .inr ⟨e, .root hm hr he, fun r hret => hwait r (hjump r (hleads r hret))⟩

/-- Up from the roots of mounted file systems, to where ".." is looked up, or to a root. -/
theorem At.checkforroot (h : At t.toVnodes u holds s) (hc : s.cvp = none) :
    ∃ d s', Up t.toVnodes u s.vp d ∧ At t.toVnodes u holds s' ∧ s'.vp = d ∧ s'.pn = s.pn ∧
      s'.nlink = s.nlink ∧ s'.component = s.component ∧
      (IsRoot t.toVnodes u d ∧ s'.cvp = some d ∧
          Leads t.toVnodes u f s .checkforroot s' .skip ∨
        ¬IsRoot t.toVnodes u d ∧ t.VROOT d = false ∧ s'.cvp = none ∧
          Leads t.toVnodes u f s .checkforroot s' .lookup) := by
  induction hk : t.depth s.vp using Nat.strong_induction_on generalizing s with
  | _ k ih =>
    by_cases hroot : IsRoot t.toVnodes u s.vp
    · refine ⟨s.vp, { s with cvp := some s.vp }.hold s.vp, .stop (.inl hroot), ⟨fun v => ?_,
        h.visited, h.vp, fun v hv => ?_⟩, rfl, rfl, rfl, rfl, .inl ⟨hroot, rfl, fun r =>
          .goto (by simp only [step, hroot, if_true])⟩⟩
      · have hv := h.holds v
        have hcvp : (State.hold { s with cvp := some s.vp } s.vp).cvp = some s.vp := rfl
        have hvp : (State.hold { s with cvp := some s.vp } s.vp).vp = s.vp := rfl
        simp only [holds_hold, hcvp, hvp, refs_some, hc, refs_none] at hv ⊢
        omega
      · cases hv
        exact h.vp
    · cases hv : t.VROOT s.vp with
      | false =>
        exact ⟨s.vp, s, .stop (.inr hv), h, rfl, rfl, rfl, rfl, .inr ⟨hroot, hv, hc, fun r =>
          .goto (by simp [step, hroot, hv])⟩⟩
      | true =>
        obtain ⟨c, hcov, hdepth⟩ := t.covered s.vp hv fun heq => hroot (.inr heq)
        have hinside : Inside t.toVnodes u c := h.vp.covered hroot hv hcov
        let s₁ : State V M := (State.hold { s with vp := c, visited := c :: s.visited } c).rele s.vp
        have h' : At t.toVnodes u holds s₁ := by
          refine ⟨fun v => ?_, List.forall_mem_cons.2 ⟨hinside, h.visited⟩, hinside, h.cvp⟩
          have hv := h.holds v
          have hcvp : s₁.cvp = s.cvp := rfl
          have hvp : s₁.vp = c := rfl
          simp only [hcvp, hvp, hc, refs_none] at hv ⊢
          simp only [s₁, holds_rele, holds_hold]
          omega
        have hjump : Leads t.toVnodes u f s .checkforroot s₁ .checkforroot := fun r =>
          .goto (by simp [step, hroot, hv, hcov, s₁])
        obtain ⟨d, s', hup, hat, hvp, hpn, hnlink, hcomp, hends⟩ :=
          ih (t.depth c) (by omega) h' hc rfl
        refine ⟨d, s', .climb hroot hv hcov hup, hat, hvp, hpn, hnlink, hcomp, ?_⟩
        rcases hends with ⟨hd, hcvp, hleads⟩ | ⟨hd, hd', hcvp, hleads⟩
        · exact .inl ⟨hd, hcvp, fun r hret => hjump r (hleads r hret)⟩
        · exact .inr ⟨hd, hd', hcvp, fun r hret => hjump r (hleads r hret)⟩

/-- What the function does where the component is `x`: it returns, or the pathname goes on, from a
    vnode or with the text of a link. -/
structure Does (w : Vnodes V M) (u : User V) (f : Flags) (holds : V → ℤ) (s : State V M) (l : Label)
    (x : Component V) : Prop where
  last : ∀ o, x.last s.pn = some o → ∃ r, Returns w u f s l r ∧ Good w u f holds o r
  vnode : ∀ d v, x = .vnode d v → s.pn ≠ [] → ∃ s', At w u holds s' ∧ s'.cvp = some v ∧
    s'.pn = s.pn ∧ s'.nlink = s.nlink ∧ Leads w u f s l s' .skip
  link : ∀ d text, x = .link d text → text.length + s.pn.length < MAXPATHLEN →
    ∃ s', At w u holds s' ∧ s'.vp = d ∧ s'.cvp = none ∧ s'.pn = text ++ s.pn ∧
      s'.nlink = s.nlink + 1 ∧ Leads w u f s l s' .begin

/-- A component that is an error. -/
theorem At.does_error {l : Label} {e : Errno} {s' : State V M} (h : At w u holds s')
    (hleads : Leads w u f s l s' (.bad e)) : Does w u f holds s l (.error e) := by
  refine ⟨fun o ho => ?_, fun _ _ hx => (by cases hx), fun _ _ hx => (by cases hx)⟩
  obtain rfl := Option.some.inj ho
  obtain ⟨r, hret, hgood⟩ := h.bad (f := f) e
  exact ⟨r, hleads r hret, hgood⟩

/-- A component that is a vnode. -/
theorem At.does_vnode {l : Label} {v : V} {s' : State V M} (h : At w u holds s')
    (hcvp : s'.cvp = some v) (hpn : s'.pn = s.pn) (hnlink : s'.nlink = s.nlink)
    (hleads : Leads w u f s l s' .skip) : Does w u f holds s l (.vnode s'.vp v) := by
  refine ⟨fun o ho => ?_, fun d v' hx hrest => ?_, fun _ _ hx => (by cases hx)⟩
  · obtain ⟨hrest, ho⟩ := Option.ite_none_right_eq_some.1 ho
    obtain rfl := Option.some.inj ho
    obtain ⟨r, hret, hgood⟩ := h.skip_last (f := f) hcvp (hpn.trans hrest)
    exact ⟨r, hleads r hret, hgood⟩
  · cases hx
    exact ⟨s', h, hcvp, hpn, hnlink, hleads⟩

/-- Where a label only leads to another one. -/
theorem Does.leads {l l' : Label} {x : Component V} {s' : State V M} (h : Does w u f holds s' l' x)
    (hpn : s'.pn = s.pn) (hnlink : s'.nlink = s.nlink) (hleads : Leads w u f s l s' l') :
    Does w u f holds s l x := by
  refine ⟨fun o ho => ?_, fun d v hx hrest => ?_, fun d text hx hlen => ?_⟩
  · obtain ⟨r, hret, hgood⟩ := h.last o (hpn ▸ ho)
    exact ⟨r, hleads r hret, hgood⟩
  · obtain ⟨s₁, hat, hcvp, hpn₁, hnlink₁, hleads₁⟩ := h.vnode d v hx (hpn ▸ hrest)
    exact ⟨s₁, hat, hcvp, hpn₁.trans hpn, hnlink₁.trans hnlink, fun r hret =>
      hleads r (hleads₁ r hret)⟩
  · obtain ⟨s₁, hat, hvp, hcvp, hpn₁, hnlink₁, hleads₁⟩ := h.link d text hx (hpn ▸ hlen)
    exact ⟨s₁, hat, hvp, hcvp, hpn ▸ hpn₁, hnlink ▸ hnlink₁, fun r hret =>
      hleads r (hleads₁ r hret)⟩

/-- The buffer cuts off the text of a link only if that is too long anyway. -/
theorem pn_combine_take (pn text : Pathname) :
    pn_combine pn (if text.take MAXPATHLEN = [] then dot else text.take MAXPATHLEN) =
      if MAXPATHLEN ≤ (if text = [] then dot else text).length + pn.length then
        .error .enametoolong
      else .ok ((if text = [] then dot else text) ++ pn) := by
  by_cases htext : text = []
  · subst htext
    rw [List.take_nil, if_pos rfl, pn_combine, add_comm]
  · have htake : text.take MAXPATHLEN ≠ [] := by
      rw [Ne, List.take_eq_nil_iff]
      exact not_or.2 ⟨by decide, htext⟩
    rw [if_neg htake, if_neg htext, pn_combine, List.length_take]
    by_cases hlong : MAXPATHLEN ≤ text.length + pn.length
    · rw [if_pos (by omega), if_pos hlong]
    · rw [if_neg (by omega), if_neg hlong, List.take_of_length_le (by omega)]

/-- A link is followed. -/
theorem At.does_symlink {l : Label} {s' : State V M} {c : V} (h : At w u holds s')
    (hcvp : s'.cvp = some c) (hpn : s'.pn = s.pn) (hnlink : s'.nlink = s.nlink) (hvp : s'.vp = s.vp)
    (hstep : step w u f s l = symlink w s' c) :
    Does w u f holds s l (expand w s.nlink s.vp c) := by
  obtain ⟨pn, nlink, vp, cvp, component, holds', visited, mlock⟩ := s'
  obtain rfl : pn = s.pn := hpn
  obtain rfl : nlink = s.nlink := hnlink
  obtain rfl : vp = s.vp := hvp
  obtain rfl : cvp = some c := hcvp
  have hcount : At w u holds ⟨s.pn, s.nlink + 1, s.vp, some c, component, holds', visited, mlock⟩ :=
    ⟨h.holds, h.visited, h.vp, h.cvp⟩
  rw [symlink] at hstep
  by_cases hmany : 20 ≤ s.nlink
  · rw [expand, if_pos hmany]
    rw [if_pos (by dsimp only; omega)] at hstep
    exact hcount.does_error fun r => .goto hstep
  rw [expand, if_neg hmany]
  rw [if_neg (by dsimp only; omega), getsymlink] at hstep
  cases hread : w.VOP_READLINK c with
  | error e =>
    simp only [hread, Except.map] at hstep
    exact hcount.does_error fun r => .goto hstep
  | ok text =>
    simp only [hread, Except.map, pn_combine_take] at hstep
    refine ⟨fun o ho => ?_, fun _ _ hx => (by cases hx), fun d txt hx hlen => ?_⟩
    · obtain ⟨hlong, ho⟩ := Option.ite_none_right_eq_some.1 ho
      obtain rfl := Option.some.inj ho
      simp only [if_pos hlong] at hstep
      obtain ⟨r, hret, hgood⟩ := hcount.bad (f := f) .enametoolong
      exact ⟨r, .goto hstep hret, hgood⟩
    · cases hx
      simp only [if_neg (not_le.2 hlen)] at hstep
      refine ⟨⟨(if text = [] then dot else text) ++ s.pn, s.nlink + 1, s.vp, none, component,
        Function.update holds' c (holds' c - 1), visited, mlock⟩, ⟨fun v => ?_, h.visited, h.vp,
        fun v hv => (by cases hv)⟩, rfl, rfl, rfl, rfl, fun r => .goto hstep⟩
      have hv : holds' v = holds v + ref s.vp v + ref c v := h.holds v
      calc Function.update holds' c (holds' c - 1) v
        _ = holds' v - ref c v :=
          holds_rele ⟨s.pn, s.nlink, s.vp, some c, component, holds', visited, mlock⟩ c v
        _ = holds v + ref s.vp v + 0 := by omega

/-- A name is looked up. -/
theorem At.lookup (h : At t.toVnodes u holds s) (hcvp : s.cvp = none)
    (hparent : s.component = dotdot → ¬IsRoot t.toVnodes u s.vp ∧ t.VROOT s.vp = false) :
    ∃ x, Found t.toVnodes f.followlink (s.pn ≠ []) s.nlink s.vp
        (t.VOP_LOOKUP s.vp s.component) x ∧ Does t.toVnodes u f holds s .lookup x := by
  cases hlook : t.VOP_LOOKUP s.vp s.component with
  | error e =>
    refine ⟨_, .missing, fun o ho => ?_, fun _ _ hx => (by cases hx), fun _ _ hx => (by cases hx)⟩
    obtain rfl := Option.some.inj ho
    by_cases hbad : s.pn ≠ [] ∨ ¬f.dirvpp ∨ e = .eacces
    · obtain ⟨r, hret, hgood⟩ := h.bad (f := f) e
      have hs : { s with cvp := none } = s := by rw [← hcvp]
      refine ⟨r, .goto (by simp only [step, hlook, hbad, if_true, hs]) hret, ?_⟩
      by_cases hpn : s.pn = []
      · have hhard : ¬(f.dirvpp ∧ e ≠ .eacces) := by
          rcases hbad with hne | hdir | heacces
          · exact absurd hpn hne
          · exact fun h => hdir h.1
          · exact fun h => h.2 heacces
        have hanswer : f.answer (.missing s.vp e) = f.answer (.error e) := if_neg hhard
        rw [if_pos hpn]
        exact ⟨hgood.answer.trans hanswer.symm, hgood.holds, hgood.visited⟩
      · rw [if_neg hpn]
        exact hgood
    · refine ⟨_, .ret (by simp only [step, hlook, hbad, if_false]; rfl), ?_, fun v => ?_, h.visited⟩
      · simp only [not_or, not_not] at hbad
        rw [if_pos hbad.1]
        exact (if_pos ⟨hbad.2.1, hbad.2.2⟩).symm
      · have hv := h.holds v
        rw [hcvp] at hv
        exact hv
  | ok c =>
    -- the vnode, and the reference to it
    have hinside : Inside t.toVnodes u c := by
      by_cases hnm : s.component = dotdot
      · exact h.vp.parent (hparent hnm).1 (hparent hnm).2 (hnm ▸ hlook)
      · exact .child h.vp hnm hlook
    have hgot : At t.toVnodes u holds (s.got c) := by
      refine ⟨fun v => ?_, List.forall_mem_cons.2 ⟨hinside, h.visited⟩, h.vp, fun v hv => ?_⟩
      · have hv := h.holds v
        have hholds : (s.got c).holds v = (s.hold c).holds v := rfl
        have hc : (s.got c).cvp = some c := rfl
        have hvp : (s.got c).vp = s.vp := rfl
        simp only [hholds, holds_hold, hc, hvp, hcvp, refs_some, refs_none] at hv ⊢
        omega
      · cases hv
        exact hinside
    by_cases hlink : Followed t.toVnodes f.followlink (s.pn ≠ []) c
    · have hfollow : t.v_type c = .VLNK ∧ (f.followlink ∨ s.pn ≠ []) := by
        simpa [Followed] using hlink
      exact ⟨_, .link hlink, hgot.does_symlink rfl rfl rfl rfl
        (by simp only [step, hlook]; exact if_pos hfollow)⟩
    · have hfollow : ¬(t.v_type c = .VLNK ∧ (f.followlink ∨ s.pn ≠ [])) := by
        simpa [Followed] using hlink
      have hjump : Leads t.toVnodes u f s .lookup (s.got c) .mloop := fun r =>
        .goto (by simp only [step, hlook]; exact if_neg hfollow)
      obtain ⟨s', hat, hvp, hpn, hnlink, hends⟩ := hgot.mloop (f := f) rfl
      rcases hends with ⟨v, hv, hcvp, hleads⟩ | ⟨e, he, hleads⟩
      · refine ⟨_, .vnode hlink hv, ?_⟩
        have hdoes : Does t.toVnodes u f holds s .lookup (.vnode s'.vp v) :=
          hat.does_vnode hcvp hpn hnlink fun r hret => hjump r (hleads r hret)
        rw [hvp] at hdoes
        exact hdoes
      · exact ⟨_, .vnode hlink he, hat.does_error fun r hret => hjump r (hleads r hret)⟩

/-! ## Pathnames -/

/-- The first component is looked up. -/
theorem At.component (h : At t.toVnodes u holds s) (hcvp : s.cvp = none) (h₀ : 0 ∉ s.pn)
    (hname : HasName t.toVnodes s.vp s.pn) :
    ∃ x s' l, Entry t.toVnodes u f.followlink (rest s.pn ≠ []) s.nlink s.vp (name s.pn) x ∧
      s'.pn = rest s.pn ∧ s'.nlink = s.nlink ∧ Leads t.toVnodes u f s .next s' l ∧
      Does t.toVnodes u f holds s' l x := by
  obtain ⟨hdir, hlen, hne⟩ := hname
  have hstring : (name s.pn).takeWhile (· ≠ 0) = name s.pn := by
    refine List.takeWhile_eq_self_iff.2 fun c hc => decide_eq_true fun h => h₀ ?_
    exact h ▸ (List.takeWhile_sublist _).subset hc
  have hget : pn_getcomponent s.pn = .ok (name s.pn, rest s.pn) := by
    rw [pn_getcomponent]
    exact (if_neg (not_lt.2 hlen)).trans (by rw [← name, hstring]; rfl)
  let s₁ : State V M := { s with component := name s.pn, pn := rest s.pn }
  have h₁ : At t.toVnodes u holds s₁ := ⟨h.holds, h.visited, h.vp, h.cvp⟩
  by_cases hnm : name s.pn = dotdot
  · have hjump : Leads t.toVnodes u f s .next s₁ .checkforroot := fun r =>
      .goto (by simp [step, hdir, hget, hnm, s₁])
    obtain ⟨d, s', hup, hat, hvp, hpn, hnlink, hcomp, hends⟩ := h₁.checkforroot (f := f) hcvp
    rcases hends with ⟨hd, hcvp', hleads⟩ | ⟨hd, hd', hcvp', hleads⟩
    · refine ⟨_, s₁, .checkforroot, .root hnm hup hd, rfl, rfl, hjump, ?_⟩
      have hdoes : Does t.toVnodes u f holds s₁ .checkforroot (.vnode s'.vp d) :=
        hat.does_vnode hcvp' hpn hnlink hleads
      rw [hvp] at hdoes
      exact hdoes
    · obtain ⟨x, hfound, hdoes⟩ := hat.lookup (f := f) hcvp' fun _ => hvp ▸ ⟨hd, hd'⟩
      rw [hvp, hcomp, hpn, hnlink] at hfound
      exact ⟨x, s₁, .checkforroot, .lookup (by rw [In, if_pos hnm]; exact ⟨hup, hd⟩) hfound, rfl,
        rfl, hjump, hdoes.leads hpn hnlink hleads⟩
  · have hjump : Leads t.toVnodes u f s .next s₁ .lookup := fun r =>
      .goto (by simp [step, hdir, hget, hnm, hne, s₁])
    obtain ⟨x, hfound, hdoes⟩ := h₁.lookup (f := f) hcvp fun h => absurd h hnm
    exact ⟨x, s₁, .lookup, .lookup (by rw [In, if_neg hnm]) hfound, rfl, rfl, hjump, hdoes⟩

/-- A name begins: where it starts is where it goes on. -/
theorem At.begin (h : At w u holds s) (hcvp : s.cvp = none) (hne : s.pn ≠ []) (h₀ : 0 ∉ s.pn) :
    ∃ s', Leads w u f s .begin s' .next ∧ At w u holds s' ∧ s'.vp = start w u s.vp s.pn ∧
      s'.cvp = none ∧ s'.pn = pn_skipslash s.pn ∧ s'.nlink = s.nlink := by
  obtain ⟨c, pn, hpn⟩ := List.exists_cons_of_ne_nil hne
  by_cases hslash : c = slash
  · subst hslash
    refine ⟨{ State.hold { (s.rele s.vp) with
        component := [], pn := pn_skipslash s.pn, vp := root w u } (root w u) with
        visited := root w u :: s.visited }, fun r => .goto ?_, ⟨fun v => ?_,
        List.forall_mem_cons.2 ⟨.root, h.visited⟩, .root, h.cvp⟩, ?_, hcvp, rfl, rfl⟩
    · simp [step, pn_peekchar, hpn, State.rele, State.hold]
    · have hv := h.holds v
      change (State.hold { (s.rele s.vp) with
        component := [], pn := pn_skipslash s.pn, vp := root w u } (root w u)).holds v =
          holds v + ref (root w u) v + refs s.cvp v
      rw [holds_hold]
      change (s.rele s.vp).holds v + _ = _
      rw [holds_rele]
      omega
    · rw [start, hpn, List.head?_cons, if_pos rfl]
      rfl
  · have hc : c ≠ 0 := fun h => h₀ (hpn ▸ h ▸ List.mem_cons_self)
    have hskip : pn_skipslash s.pn = s.pn := by
      rw [hpn, pn_skipslash, List.dropWhile_cons_of_neg (by simpa using hslash)]
    refine ⟨{ s with component := [] }, fun r => .goto ?_, ⟨h.holds, h.visited, h.vp, h.cvp⟩, ?_,
      hcvp, hskip.symm, rfl⟩
    · simp [step, pn_peekchar, hpn, hslash, hc]
    · rw [start, hpn, List.head?_cons, if_neg fun h => hslash (Option.some.inj h)]

omit [DecidableEq V] [DecidableEq M] in
/-- There are at most twenty links, and each has a text. -/
theorem Entry.link_text {follow more : Bool} {nlink : ℕ} {dir d : V} {nm : List UInt8}
    {text : Pathname} (h : Entry t.toVnodes u follow more nlink dir nm (.link d text)) :
    nlink < 20 ∧ 0 ∉ text ∧ text ≠ [] := by
  cases h with
  | lookup _ hfound =>
    generalize t.VOP_LOOKUP _ nm = y at hfound
    generalize hx : Component.link d text = x at hfound
    cases hfound with
    | missing => cases hx
    | @link c _ =>
      rw [expand] at hx
      by_cases hmany : 20 ≤ nlink
      · rw [if_pos hmany] at hx
        cases hx
      rw [if_neg hmany] at hx
      cases hread : t.VOP_READLINK c with
      | error e =>
        rw [hread] at hx
        cases hx
      | ok str =>
        rw [hread] at hx
        cases hx
        refine ⟨by omega, ?_⟩
        by_cases hnil : str = []
        · rw [if_pos hnil]
          exact ⟨by decide, by decide⟩
        · rw [if_neg hnil]
          exact ⟨t.readlink c str hread, hnil⟩
    | vnode _ hcross =>
      cases ‹Except Errno V› <;> cases hx

theorem length_skipslash (pn : Pathname) : (pn_skipslash pn).length ≤ pn.length :=
  (List.dropWhile_sublist _).length_le

theorem rest_length_lt {pn : Pathname} (h : name pn ≠ []) : (rest pn).length < pn.length := by
  have hlen := congrArg List.length (List.takeWhile_append_dropWhile (p := (· ≠ slash)) (l := pn))
  rw [List.length_append] at hlen
  have := List.length_pos_iff.2 h
  rw [name] at this
  rw [rest]
  omega

/-- There is no name left: the directory is what was asked for. -/
theorem At.here (h : At w u holds s) (hcvp : s.cvp = none) (hdir : w.v_type s.vp = .VDIR)
    (hne : name s.pn = []) :
    ∃ r, Returns w u f s .next r ∧ Good w u f holds (.found none s.vp) r := by
  have hget : pn_getcomponent s.pn = .ok ([], rest s.pn) := by
    rw [pn_getcomponent, ← name, hne]
    rfl
  have hstep := fun r => Returns.ret (w := w) (u := u) (f := f) (s := s) (l := .next) (r := r)
  simp only [step, hdir, hget, ne_eq, not_true_eq_false, if_false, if_true] at hstep
  have hholds := h.holds
  simp only [hcvp, refs_none, add_zero] at hholds
  by_cases hd : f.dirvpp
  · simp only [hd, if_true] at hstep
    refine ⟨_, hstep _ rfl, ?_, fun v => ?_, h.visited⟩
    · rw [Flags.answer, if_pos ⟨hd, .inl rfl⟩]
      rfl
    · change (s.rele s.vp).holds v = holds v + 0 + 0
      rw [holds_rele, hholds]
      omega
  simp only [hd] at hstep
  have hanswer : f.answer (.found none s.vp) =
      (none, none, if f.compvpp then some s.vp else none) := by
    rw [Flags.answer, if_neg fun h => hd h.1, if_neg hd]
  by_cases hcomp : f.compvpp
  · simp only [hcomp, if_true] at hstep hanswer
    refine ⟨_, hstep _ rfl, hanswer.symm, fun v => ?_, h.visited⟩
    change s.holds v = holds v + 0 + ref s.vp v
    rw [hholds]
    omega
  · simp only [hcomp] at hstep hanswer
    refine ⟨_, hstep _ rfl, hanswer.symm, fun v => ?_, h.visited⟩
    change (s.rele s.vp).holds v = holds v + 0 + 0
    rw [holds_rele, hholds]
    omega

/-- From `next` on, `lookuppn` takes the way along the pathname, and returns. -/
theorem At.walk (s : State V M) (h : At t.toVnodes u holds s) (hcvp : s.cvp = none)
    (h₀ : 0 ∉ s.pn) :
    ∃ r o, Returns t.toVnodes u f s .next r ∧ Walk t.toVnodes u f.followlink s.nlink s.vp s.pn o ∧
      Good t.toVnodes u f holds o r := by
  by_cases hdir : t.v_type s.vp = .VDIR
  swap
  · obtain ⟨r, hret, hgood⟩ := h.bad (f := f) .enotdir
    exact ⟨r, _, .goto (by simp [step, hdir]) hret, .notdir hdir, hgood⟩
  by_cases hlen : (name s.pn).length ≤ MAXNAMLEN
  swap
  · obtain ⟨r, hret, hgood⟩ := h.bad (f := f) .enametoolong
    have hget : pn_getcomponent s.pn = .error .enametoolong := if_pos (not_le.1 hlen)
    exact ⟨r, _, .goto (by simp [step, hdir, hget]) hret, .toolong hdir (not_le.1 hlen), hgood⟩
  by_cases hne : name s.pn = []
  · obtain ⟨r, hret, hgood⟩ := h.here (f := f) hcvp hdir hne
    exact ⟨r, _, hret, .here hdir hne, hgood⟩
  obtain ⟨x, s₁, l, hentry, hpn₁, hnlink₁, hleads₁, hdoes⟩ :=
    h.component (f := f) hcvp h₀ ⟨hdir, hlen, hne⟩
  cases hlast : x.last (rest s.pn) with
  | some o =>
    obtain ⟨r, hret, hgood⟩ := hdoes.last o (by rw [hpn₁]; exact hlast)
    exact ⟨r, o, hleads₁ r hret, .last ⟨hdir, hlen, hne⟩ hentry hlast, hgood⟩
  | none =>
    cases x with
    | error e => cases hlast
    | missing d e => cases hlast
    | vnode d v =>
      have hrest : rest s.pn ≠ [] := fun hnil => by
        rw [hnil] at hlast
        cases hlast
      obtain ⟨s₂, hat₂, hcvp₂, hpn₂, hnlink₂, hleads₂⟩ := hdoes.vnode d v rfl (by rwa [hpn₁])
      obtain ⟨s₃, hleads₃, hat₃, hvp₃, hcvp₃, hpn₃, hnlink₃⟩ :=
        hat₂.skip_more (f := f) hcvp₂ (by rwa [hpn₂, hpn₁])
      rw [hpn₂, hpn₁] at hpn₃
      have h₃ : 0 ∉ s₃.pn := fun hmem => h₀ <| by
        rw [hpn₃] at hmem
        exact (List.dropWhile_sublist _).subset ((List.dropWhile_sublist _).subset hmem)
      have hn : s₃.nlink = s.nlink := by rw [hnlink₃, hnlink₂, hnlink₁]
      have hshorter : s₃.pn.length < s.pn.length := by
        rw [hpn₃]
        exact (length_skipslash _).trans_lt (rest_length_lt hne)
      obtain ⟨r, o, hret, hwalk, hgood⟩ := At.walk s₃ hat₃ hcvp₃ h₃
      rw [hpn₃, hvp₃, hn] at hwalk
      exact ⟨r, o, hleads₁ r (hleads₂ r (hleads₃ r hret)),
        .vnode ⟨hdir, hlen, hne⟩ hentry hrest hwalk, hgood⟩
    | link d text =>
      have hshort : text.length + (rest s.pn).length < MAXPATHLEN := by
        by_contra hlong
        rw [Component.last, if_pos (not_lt.1 hlong)] at hlast
        cases hlast
      obtain ⟨hfew, h₀', htext⟩ := hentry.link_text
      obtain ⟨s₂, hat₂, hvp₂, hcvp₂, hpn₂, hnlink₂, hleads₂⟩ :=
        hdoes.link d text rfl (by rwa [hpn₁])
      rw [hpn₁] at hpn₂
      have h₂ : 0 ∉ s₂.pn := fun hmem => by
        rw [hpn₂, List.mem_append] at hmem
        exact hmem.elim h₀' fun hmem => h₀ ((List.dropWhile_sublist _).subset hmem)
      obtain ⟨s₃, hleads₃, hat₃, hvp₃, hcvp₃, hpn₃, hnlink₃⟩ :=
        hat₂.begin (f := f) hcvp₂ (by rw [hpn₂]; exact List.append_ne_nil_of_left_ne_nil htext _) h₂
      have h₃ : 0 ∉ s₃.pn := fun hmem => h₂ <| by
        rw [hpn₃] at hmem
        exact (List.dropWhile_sublist _).subset hmem
      have hn : s₃.nlink = s.nlink + 1 := by rw [hnlink₃, hnlink₂, hnlink₁]
      obtain ⟨r, o, hret, hwalk, hgood⟩ := At.walk s₃ hat₃ hcvp₃ h₃
      rw [hpn₃, hpn₂, hvp₃, hvp₂, hpn₂, hn] at hwalk
      exact ⟨r, o, hleads₁ r (hleads₂ r (hleads₃ r hret)),
        .link ⟨hdir, hlen, hne⟩ hentry hshort hwalk, hgood⟩
termination_by (20 - s.nlink, s.pn.length)
decreasing_by
  · rw [hn]
    exact .right _ hshorter
  · rw [hn]
    exact .left _ _ (by omega)

/-- In a tree of file systems, from a current directory inside of the root directory, `lookuppn`
    returns, after however many jumps. There is one thing that the pathname resolves to, and it
    returns that; no vnode it was at is outside of the root directory; and there is one more
    reference to each vnode that is returned, and none to others. -/
theorem lookuppn_resolves (t : Tree V M) (u : User V) (hcdir : Inside t.toVnodes u u.u_cdir)
    (f : Flags) (holds : V → ℤ) (mlock : M → ℕ) (pn : Pathname) (h₀ : 0 ∉ pn) :
    ∃ n r o, (∀ m ≥ n, lookuppn t.toVnodes u f holds mlock pn m = some r) ∧
      (∀ o', Resolves t.toVnodes u f.followlink pn o' ↔ o' = o) ∧
      (r.error, r.dirvp, r.compvp) = f.answer o ∧
      (∀ v ∈ r.visited, Inside t.toVnodes u v) ∧
      ∀ v, r.holds v = holds v + refs r.dirvp v + refs r.compvp v := by
  have hstart : At t.toVnodes u holds
      (State.hold ⟨pn, 0, u.u_cdir, none, [], holds, [u.u_cdir], mlock⟩ u.u_cdir) := by
    refine ⟨fun v => ?_, fun v hv => List.mem_singleton.1 hv ▸ hcdir, hcdir,
      fun v hv => by cases hv⟩
    rw [holds_hold]
    exact (add_zero _).symm
  suffices h : ∃ r o, Returns t.toVnodes u f
      (State.hold ⟨pn, 0, u.u_cdir, none, [], holds, [u.u_cdir], mlock⟩ u.u_cdir) .begin r ∧
      Resolves t.toVnodes u f.followlink pn o ∧ Good t.toVnodes u f holds o r by
    obtain ⟨r, o, hret, hres, hgood⟩ := h
    obtain ⟨n, hn⟩ := hret.run
    exact ⟨n, r, o, hn, fun o' => ⟨fun ho' => ho'.unique hres, fun ho' => ho' ▸ hres⟩,
      hgood.answer, hgood.visited, hgood.holds⟩
  by_cases hnil : pn = []
  · subst hnil
    obtain ⟨r, hret, hgood⟩ := hstart.bad (f := f) .enoent
    exact ⟨r, _, .goto rfl hret, by rw [Resolves, if_pos rfl], hgood⟩
  · obtain ⟨s', hleads, hat, hvp, hcvp, hpn, hnlink⟩ := hstart.begin (f := f) rfl hnil h₀
    have h₀' : 0 ∉ s'.pn := fun hmem => h₀ <| by
      rw [hpn] at hmem
      exact (List.dropWhile_sublist _).subset hmem
    obtain ⟨r, o, hret, hwalk, hgood⟩ := At.walk s' hat hcvp h₀'
    rw [hnlink, hvp, hpn] at hwalk
    exact ⟨r, o, hleads r hret, by rw [Resolves, if_neg hnil]; exact hwalk, hgood⟩

/-- A root directory with "d" in it, on which a file system is mounted with a link "l" to "/d". -/
def two : Tree (Fin 4) Unit where
  rootdir := 0
  v_type v := if v = 3 then .VLNK else .VDIR
  VROOT v := v = 0 ∨ v = 2
  vfs_vnodecovered v := if v = 2 then some 1 else none
  v_vfsmountedhere v := if v = 1 then some () else none
  VFS_ROOT _ := .ok 2
  VOP_LOOKUP d nm :=
    if d = 3 then .error .enotdir
    else if nm = dot then .ok d
    else if nm = dotdot then .ok (if d = 1 then 0 else d)
    else if d = 0 ∧ nm = [100] then .ok 1
    else if d = 2 ∧ nm = [108] then .ok 3
    else .error .enoent
  VOP_READLINK v := if v = 3 then .ok [47, 100] else .error .einval
  depth v := if v = 0 ∨ v = 1 then 0 else 1
  bound := 1
  depth_le := by decide
  lookup_dot := by decide
  lookup_child := by
    intro d nm c h hdot hdotdot
    rw [if_neg hdot, if_neg hdotdot] at h
    split_ifs at h with h₃ hroot hlink
    · obtain ⟨rfl, -⟩ := hroot
      cases h
      decide
    · obtain ⟨rfl, -⟩ := hlink
      cases h
      decide
  mounted := by
    intro c m v
    cases m
    revert c v
    decide
  covered := by decide
  readlink := by
    intro v text h
    split_ifs at h
    cases h
    decide

theorem lookuppn_resolves_link :
    ∃ n r o, (∀ m ≥ n, lookuppn two.toVnodes ⟨1, none⟩ ⟨true, false, true⟩ (fun _ => 1) (fun _ => 2)
        [46, 46, 47, 100, 47, 108] m = some r) ∧
      Resolves two.toVnodes ⟨1, none⟩ true [46, 46, 47, 100, 47, 108] o ∧
      (r.error, r.dirvp, r.compvp) = Flags.answer ⟨true, false, true⟩ o := by
  have hroot : Inside two.toVnodes ⟨1, none⟩ 0 := .root
  have hcdir : Inside two.toVnodes ⟨1, none⟩ 1 :=
    hroot.child (show [100] ≠ dotdot by decide) rfl
  obtain ⟨n, r, o, hret, hres, hanswer, -⟩ := lookuppn_resolves two ⟨1, none⟩ hcdir
    ⟨true, false, true⟩ (fun _ => 1) (fun _ => 2) [46, 46, 47, 100, 47, 108] (by decide)
  exact ⟨n, r, o, hret, (hres o).2 rfl, hanswer⟩

/-- The link leads back to the root that is mounted, and there is one reference more to it. -/
example : (lookuppn two.toVnodes ⟨1, none⟩ ⟨true, false, true⟩ (fun _ => 1) (fun _ => 2)
    [46, 46, 47, 100, 47, 108] 40).map (fun r => (r.error, r.compvp, r.holds 2, r.holds 3)) =
    some (none, some 2, 2, 1) := by decide

end AuxKernel.Lookup
