import AuxKernel.System
import Mathlib.Algebra.BigOperators.Group.Finset.Basic
import Mathlib.Data.Fintype.Basic
import Mathlib.Data.Multiset.AddSub

/-!
# The mount table

`mount` and `unmount`, `vfs_add`, `vfs_remove`, `vfs_lock` and `vfs_unlock` of `COMMON/os/vfs.c`,
and what `lookuppn` does at a vnode that is mounted on (`COMMON/os/vfs_lookup.c`). A call is
divided where it may sleep (`Call`), and any number of processes are in one.

Of the file systems it is taken that `VFS_ROOT` returns the root of one that is mounted, and that
`VFS_UNMOUNT` fails while there is a reference to one of its vnodes, or one is released.
-/

namespace AuxKernel.Mount

variable {V M P : Type*} [DecidableEq V] [DecidableEq M] [DecidableEq P] [Fintype P]

/-- The vnodes, each with its file system, and the roots of the file systems. -/
structure Vnodes (V M : Type*) where
  v_vfsp : V → M
  VROOT : V → Bool
  VDIR : V → Bool
  root : M → V
  rootvfs : M
  v_vfsp_root : ∀ m, v_vfsp (root m) = m

/-- A mounted file system, or one that is being mounted or unmounted. -/
structure Vfs (V : Type*) where
  vfs_vnodecovered : Option V
  VFS_MLOCK : Bool
  deriving DecidableEq

/-- Where a process is: in `lookuppn`, at a vnode, or in `VFS_ROOT` of what is mounted there; it
    has a vnode that was looked up; in `mount` it knows that nobody else has the vnode, has the
    path too, waits for the lock of the inode, or is in `VFS_MOUNT`; in `unmount` it releases the
    root, is in `VFS_UNMOUNT`, or releases the vnode that was covered. -/
inductive Call (V M : Type*)
  | idle
  | lookup (vp : V)
  | rooting (vp : V) (vfsp : M)
  | found (vp : V)
  | checked (vp : V)
  | copied (vp : V)
  | locking (vp : V) (vfsp : M)
  | mounting (vp : V) (vfsp : M)
  | released (vfsp : M)
  | unmounting (vfsp : M) (coveredvp : Option V)
  | uncovering (vfsp : M) (coveredvp : V)
  deriving DecidableEq

/-- The list from `rootvfs` on, what is allocated for file systems, what is mounted on each vnode,
    the references to vnodes (`v_count` of them), and the processes. Besides, the references that
    are not of these calls, how many path buffers were left by calls of `mount` that failed, and
    whether the kernel came to a panic or a vfs that is not allocated. -/
structure State (V M P : Type*) where
  list : List M
  vfs : M → Option (Vfs V)
  v_vfsmountedhere : V → Option M
  refs : Multiset V
  procs : P → Call V M
  others : Multiset V
  leaked : ℕ
  panic : Bool

namespace State

variable (w : Vnodes V M) (s : State V M P) (p : P)

def setProc (call : Call V M) : State V M P :=
  { s with procs := Function.update s.procs p call }

def setVfs (vfsp : M) (vfs : Option (Vfs V)) : State V M P :=
  { s with vfs := Function.update s.vfs vfsp vfs }

/-- `VN_HOLD` and `VN_RELE` -/
def hold (vp : V) : State V M P := { s with refs := vp ::ₘ s.refs }

def rele (vp : V) : State V M P := { s with refs := s.refs.erase vp }

/-- The process returns, and releases a vnode. -/
def leave (vp : V) : State V M P := (s.rele vp).setProc p .idle

/-- The process returns from `mount` with an error, and does not free its path buffer. -/
def fail (vp : V) : State V M P := { s.leave p vp with leaked := s.leaked + 1 }

/-- `vfs_add`; it fails if something is mounted on the vnode. -/
def vfs_add (coveredvp : V) (vfsp : M) : Option (State V M P) :=
  if s.v_vfsmountedhere coveredvp = none then
    some { s.setVfs vfsp (some ⟨some coveredvp, true⟩) with
      list := s.list.take 1 ++ vfsp :: s.list.drop 1
      v_vfsmountedhere := Function.update s.v_vfsmountedhere coveredvp (some vfsp) }
  else none

/-- `vfs_remove`, and the vfs is freed; it panics if that is `rootvfs`, or not on the list. -/
def vfs_remove (vfsp : M) : State V M P :=
  match s.vfs vfsp with
  | some ⟨some vp, _⟩ =>
    if vfsp = w.rootvfs ∨ vfsp ∉ s.list then { s with panic := true }
    else
      { s.setVfs vfsp none with
        list := s.list.erase vfsp
        v_vfsmountedhere := Function.update s.v_vfsmountedhere vp none }
  | _ => { s with panic := true }

/-- `vfs_unlock`; it panics if the vfs is not locked. -/
def vfs_unlock (vfsp : M) : State V M P :=
  match s.vfs vfsp with
  | some ⟨coveredvp, true⟩ => s.setVfs vfsp (some ⟨coveredvp, false⟩)
  | _ => { s with panic := true }

/-- At a vnode that may be mounted on: a lock is waited for, and then it is looked at again. -/
def cross (vp : V) : State V M P :=
  match s.v_vfsmountedhere vp with
  | none => s.setProc p (.found vp)
  | some vfsp =>
    match s.vfs vfsp with
    | none => { s with panic := true }
    | some vfs => if vfs.VFS_MLOCK then s else s.setProc p (.rooting vp vfsp)

/-- The root of a file system is released, and the file system is locked, if nobody else has. -/
def lock (vfsp : M) : State V M P :=
  match s.vfs vfsp with
  | none => { s with panic := true }
  | some ⟨coveredvp, mlock⟩ =>
    if mlock then s.setProc p .idle
    else (s.setVfs vfsp (some ⟨coveredvp, true⟩)).setProc p (.unmounting vfsp coveredvp)

end State

/-- What happens: a process looks up a vnode in a directory; it goes on from a vnode that may be
    mounted on; `VFS_ROOT` returns; a vnode that was looked up is no longer used; in `mount`, it is
    tested, the path is copied, a vfs is allocated if there is such a type, it is added, `VFS_MOUNT`
    returns; in `unmount`, the root is released, the vfs is locked, `VFS_UNMOUNT` returns, the
    release of the covered vnode ends; others refer to a vnode, or release one. -/
inductive Act (V M P : Type*)
  | start (p : P) (vp : V)
  | cross (p : P)
  | rooted (p : P) (ok : Bool)
  | drop (p : P)
  | mount (p : P)
  | pn_get (p : P) (ok : Bool)
  | alloc (p : P) (vfsp : M) (ok : Bool)
  | vfs_add (p : P)
  | mounted (p : P) (ok : Bool)
  | unmount (p : P) (sleeps : Bool)
  | lock (p : P)
  | unmounted (p : P) (ok sleeps : Bool)
  | removed (p : P)
  | hold (vp : V)
  | rele (vp : V)
  deriving DecidableEq

variable (w : Vnodes V M)

/-- There is a reference to a vnode of the same file system. -/
def State.Active (s : State V M P) (vp : V) : Prop := ∃ x ∈ s.refs, w.v_vfsp x = w.v_vfsp vp

instance (s : State V M P) (vp : V) : Decidable (s.Active w vp) :=
  Multiset.decidableExistsMultiset

/-- What a process is mounting. -/
def Call.mounts : Call V M → Option M
  | .mounting _ vfsp => some vfsp
  | _ => none

/-- `VFS_MOUNT` has returned for a file system on the list. -/
def State.Mounted (s : State V M P) (vfsp : M) : Prop :=
  vfsp ∈ s.list ∧ ∀ p, (s.procs p).mounts ≠ some vfsp

instance (s : State V M P) (vfsp : M) : Decidable (s.Mounted vfsp) :=
  inferInstanceAs (Decidable (_ ∧ _))

/-- Nothing of a file system is in use. -/
def State.Unused (s : State V M P) (vfsp : M) : Prop :=
  (∀ x ∈ s.refs, w.v_vfsp x ≠ vfsp) ∧ ∀ p, s.procs p ≠ .released vfsp

instance (s : State V M P) (vfsp : M) : Decidable (s.Unused w vfsp) :=
  inferInstanceAs (Decidable (_ ∧ _))

def State.step (s : State V M P) : Act V M P → Option (State V M P)
  | .start p vp =>
    if s.procs p = .idle ∧ s.Active w vp then some ((s.hold vp).setProc p (.lookup vp)) else none
  | .cross p =>
    match s.procs p with
    | .lookup vp => some (s.cross p vp)
    | _ => none
  | .rooted p ok =>
    match s.procs p with
    | .rooting vp vfsp =>
      if ok then
        if s.Mounted vfsp then
          some (((s.hold (w.root vfsp)).rele vp).setProc p (.lookup (w.root vfsp)))
        else none
      else some (s.leave p vp)
    | _ => none
  | .drop p =>
    match s.procs p with
    | .found vp => some (s.leave p vp)
    | _ => none
  | .mount p =>
    match s.procs p with
    | .found vp =>
      if s.refs.count vp ≠ 1 ∨ w.VDIR vp = false then some (s.leave p vp)
      else some (s.setProc p (.checked vp))
    | _ => none
  | .pn_get p ok =>
    match s.procs p with
    | .checked vp => some (if ok then s.setProc p (.copied vp) else s.leave p vp)
    | _ => none
  | .alloc p vfsp ok =>
    match s.procs p with
    | .copied vp =>
      if ok then
        if s.vfs vfsp = none then
          some ((s.setVfs vfsp (some ⟨none, false⟩)).setProc p (.locking vp vfsp))
        else none
      else some (s.fail p vp)
    | _ => none
  | .vfs_add p =>
    match s.procs p with
    | .locking vp vfsp =>
      match s.vfs_add vp vfsp with
      | some s' => some (s'.setProc p (.mounting vp vfsp))
      | none => some ((s.vfs_remove w vfsp).fail p vp)
    | _ => none
  | .mounted p ok =>
    match s.procs p with
    | .mounting vp vfsp =>
      if ok then some ((s.vfs_unlock vfsp).setProc p .idle)
      else some ((s.vfs_remove w vfsp).fail p vp)
    | _ => none
  | .unmount p sleeps =>
    match s.procs p with
    | .found vp =>
      if w.VROOT vp then
        let vfsp := w.v_vfsp vp
        some (if sleeps then (s.rele vp).setProc p (.released vfsp) else (s.rele vp).lock p vfsp)
      else some (s.leave p vp)
    | _ => none
  | .lock p =>
    match s.procs p with
    | .released vfsp => some (s.lock p vfsp)
    | _ => none
  | .unmounted p ok sleeps =>
    match s.procs p with
    | .unmounting vfsp coveredvp =>
      if ok then
        if s.Unused w vfsp then
          match coveredvp with
          | none => some { s with panic := true }
          | some vp =>
            some (if sleeps then (s.rele vp).setProc p (.uncovering vfsp vp)
              else ((s.rele vp).vfs_remove w vfsp).setProc p .idle)
        else none
      else some ((s.vfs_unlock vfsp).setProc p .idle)
    | _ => none
  | .removed p =>
    match s.procs p with
    | .uncovering vfsp _ => some ((s.vfs_remove w vfsp).setProc p .idle)
    | _ => none
  | .hold vp =>
    if s.Active w vp then some { s.hold vp with others := vp ::ₘ s.others } else none
  | .rele vp =>
    if vp ∈ s.others ∧ (vp = w.root w.rootvfs → 1 < s.others.count vp) then
      some { s.rele vp with others := s.others.erase vp }
    else none

/-- The root file system is mounted, and there are references to vnodes of it only, one of them to
    `rootdir`. -/
def mounts (P : Type*) [DecidableEq P] [Fintype P] : Machine (State V M P) (Act V M P) where
  init s := ∃ others : Multiset V, w.root w.rootvfs ∈ others ∧
    (∀ x ∈ others, w.v_vfsp x = w.rootvfs) ∧
    s = ⟨[w.rootvfs], Function.update (fun _ => none) w.rootvfs (some ⟨none, false⟩), fun _ => none,
      others, fun _ => .idle, others, 0, false⟩
  next := State.step w

end AuxKernel.Mount
