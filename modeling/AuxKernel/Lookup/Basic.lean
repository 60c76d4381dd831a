import AuxKernel.Basic
import Mathlib.Logic.Function.Basic

/-!
# Pathname resolution

`lookuppn` and `getsymlink` of `COMMON/os/vfs_lookup.c`, on the operations on pathnames of
`COMMON/os/vfs_pathname.c`. File systems are what the vnode operations say (`Vnodes`).

The function is its labels (`Label`), between which it jumps (`step`); `lookuppn` follows the
jumps. A reference to a vnode is counted in `holds` when it is made or given back, and each vnode
that the function gets hold of is noted in `visited`.
-/

namespace AuxKernel.Lookup

def MAXNAMLEN : ℕ := 255

def MAXPATHLEN : ℕ := 1024

inductive VType
  | VNON
  | VREG
  | VDIR
  | VBLK
  | VCHR
  | VLNK
  | VSOCK
  | VFIFO
  | VBAD
  deriving DecidableEq, Repr

/-! ## Pathnames -/

/-- A pathname: the characters from `pn_path` on, `pn_pathlen` of them. -/
abbrev Pathname := List UInt8

abbrev slash : UInt8 := 47

/-- The names "." and "..". -/
abbrev dot : List UInt8 := [46]

abbrev dotdot : List UInt8 := [46, 46]

def pn_peekchar (pn : Pathname) : UInt8 := pn.head?.getD 0

def pn_skipslash (pn : Pathname) : Pathname := pn.dropWhile (· = slash)

/-- The next component, which is a string that ends with the first zero in it, and what is left of
    the pathname. -/
def pn_getcomponent (pn : Pathname) : Except Errno (List UInt8 × Pathname) :=
  let component := pn.takeWhile (· ≠ slash)
  if component.length > MAXNAMLEN then .error .enametoolong
  else .ok (component.takeWhile (· ≠ 0), pn.dropWhile (· ≠ slash))

/-- A link's text is put before what is left of a pathname. -/
def pn_combine (pn sympn : Pathname) : Except Errno Pathname :=
  if pn.length + sympn.length ≥ MAXPATHLEN then .error .enametoolong else .ok (sympn ++ pn)

/-! ## File systems -/

/-- The vnodes of type `V`, and the file systems of type `M` that are mounted. Of a root,
    `vfs_vnodecovered` is the vnode its file system is mounted on. -/
structure Vnodes (V M : Type*) where
  rootdir : V
  v_type : V → VType
  VROOT : V → Bool
  vfs_vnodecovered : V → Option V
  v_vfsmountedhere : V → Option M
  VFS_ROOT : M → Except Errno V
  VOP_LOOKUP : V → List UInt8 → Except Errno V
  VOP_READLINK : V → Except Errno (List UInt8)

/-- The current directory of a process, and its root directory if that is not `rootdir`. -/
structure User (V : Type*) where
  u_cdir : V
  u_rdir : Option V

/-- What `lookuppn` is asked: whether to follow a link at the end, and which vnodes to return. -/
structure Flags where
  followlink : Bool
  dirvpp : Bool
  compvpp : Bool
  deriving DecidableEq, Repr

variable {V M : Type*} [DecidableEq V] [DecidableEq M] (w : Vnodes V M) (u : User V)

/-- Where absolute names start. -/
def root : V := u.u_rdir.getD w.rootdir

/-- Where ".." goes nowhere. -/
def IsRoot (vp : V) : Prop := some vp = u.u_rdir ∨ vp = w.rootdir

instance (vp : V) : Decidable (IsRoot w u vp) := inferInstanceAs (Decidable (_ ∨ _))

/-- A link's text, as far as the buffer has room for it. -/
def getsymlink (vp : V) : Except Errno Pathname :=
  (w.VOP_READLINK vp).map (·.take MAXPATHLEN)

/-! ## The walk -/

/-- The variables of `lookuppn`, how many references there are to each vnode, and the vnodes it
    was at. While a file system is being mounted or unmounted it is locked, and `mlock` is how often
    a process that waits for it wakes up and finds it locked still. -/
structure State (V M : Type*) where
  pn : Pathname
  nlink : ℕ
  vp : V
  cvp : Option V
  component : List UInt8
  holds : V → ℤ
  visited : List V
  mlock : M → ℕ

/-- The labels of `lookuppn`; one is added before the call of `VOP_LOOKUP`. -/
inductive Label
  | begin
  | next
  | checkforroot
  | lookup
  | mloop
  | skip
  | bad (error : Errno)
  deriving DecidableEq, Repr

/-- What `lookuppn` returns: an error, the vnodes, and what is left in the pathname. -/
structure Return (V : Type*) where
  error : Option Errno
  dirvp : Option V
  compvp : Option V
  pn : Pathname
  holds : V → ℤ
  visited : List V

namespace State

variable (s : State V M)

/-- `VN_HOLD` -/
def hold (vp : V) : State V M := { s with holds := Function.update s.holds vp (s.holds vp + 1) }

/-- `VN_RELE` -/
def rele (vp : V) : State V M := { s with holds := Function.update s.holds vp (s.holds vp - 1) }

/-- A vnode operation returned a vnode, with a reference to it. -/
def got (vp : V) : State V M := { s.hold vp with cvp := some vp, visited := vp :: s.visited }

/-- Return an error. -/
def fail (error : Errno) : Return V := ⟨some error, none, none, s.pn, s.holds, s.visited⟩

end State

/-- A jump, or the return; without a covered vnode the kernel would fault. -/
inductive Next (V M : Type*)
  | goto (l : Label) (s : State V M)
  | ret (r : Return V)
  | fault

open Label Next

/-- A link's text goes before what is left of the pathname. -/
def symlink (s : State V M) (tvp : V) : Next V M :=
  let s := { s with nlink := s.nlink + 1 }
  if s.nlink > 20 then goto (bad .eloop) s
  else match getsymlink w tvp with
  | .error error => goto (bad error) s
  | .ok linkpath =>
    match pn_combine s.pn (if linkpath = [] then dot else linkpath) with
    | .error error => goto (bad error) s
    | .ok pn => goto begin { s.rele tvp with pn := pn, cvp := none }

/-- From a label to the next. -/
def step (f : Flags) (s : State V M) : Label → Next V M
  | begin =>
    let s := { s with component := [] }
    if pn_peekchar s.pn = slash then
      let s := s.rele s.vp
      let s := ({ s with pn := pn_skipslash s.pn, vp := root w u }).hold (root w u)
      goto next { s with visited := s.vp :: s.visited }
    else if pn_peekchar s.pn = 0 then goto (bad .enoent) s
    else goto next s
  | next =>
    if w.v_type s.vp ≠ .VDIR then goto (bad .enotdir) s
    else match pn_getcomponent s.pn with
    | .error error => goto (bad error) s
    | .ok (component, pn) =>
      let s := { s with component := component, pn := pn }
      if component = [] then
        if f.dirvpp then ret ((s.rele s.vp).fail .einval)
        else if f.compvpp then ret ⟨none, none, some s.vp, dot, s.holds, s.visited⟩
        else ret ⟨none, none, none, dot, (s.rele s.vp).holds, s.visited⟩
      else if component = dotdot then goto checkforroot s
      else goto lookup s
  | checkforroot =>
    if IsRoot w u s.vp then goto skip ({ s with cvp := some s.vp }.hold s.vp)
    else if w.VROOT s.vp then
      match w.vfs_vnodecovered s.vp with
      | none => fault
      | some vp =>
        let s' := { s with vp := vp, visited := vp :: s.visited }
        goto checkforroot ((s'.hold vp).rele s.vp)
    else goto lookup s
  | lookup =>
    match w.VOP_LOOKUP s.vp s.component with
    | .error error =>
      if s.pn ≠ [] ∨ ¬f.dirvpp ∨ error = .eacces then goto (bad error) { s with cvp := none }
      else ret ⟨none, some s.vp, none, s.component, s.holds, s.visited⟩
    | .ok tvp =>
      let s := s.got tvp
      if w.v_type tvp = .VLNK ∧ (f.followlink ∨ s.pn ≠ []) then symlink w s tvp else goto mloop s
  | mloop =>
    match s.cvp with
    | none => fault
    | some cvp =>
      match w.v_vfsmountedhere cvp with
      | none => goto skip s
      | some vfsp =>
        -- the lock is waited for, and what is mounted there is looked at again
        if s.mlock vfsp ≠ 0 then
          goto mloop { s with mlock := Function.update s.mlock vfsp (s.mlock vfsp - 1) }
        else match w.VFS_ROOT vfsp with
        | .error error => goto (bad error) s
        | .ok tvp => goto mloop ((s.got tvp).rele cvp)
  | skip =>
    match s.cvp with
    | none => fault
    | some cvp =>
      if s.pn = [] then
        if f.dirvpp ∧ s.vp = cvp then ret (((s.rele s.vp).rele cvp).fail .einval)
        else
          let s' := if f.dirvpp then s else s.rele s.vp
          let s' := if f.compvpp then s' else s'.rele cvp
          ret ⟨none, if f.dirvpp then some s.vp else none, if f.compvpp then some cvp else none,
            s.component, s'.holds, s.visited⟩
      else
        goto next { s.rele s.vp with pn := pn_skipslash s.pn, vp := cvp, cvp := none }
  | bad error =>
    let s := s.cvp.elim s s.rele
    ret ((s.rele s.vp).fail error)

/-- Follow the jumps, at most so many. -/
def run (f : Flags) : ℕ → State V M → Label → Option (Return V)
  | 0, _, _ => none
  | n + 1, s, l =>
    match step w u f s l with
    | goto l s => run f n s l
    | ret r => some r
    | fault => none

/-- `lookuppn`, with at most so many jumps. -/
def lookuppn (f : Flags) (holds : V → ℤ) (mlock : M → ℕ) (pn : Pathname) (n : ℕ) :
    Option (Return V) :=
  run w u f n (State.hold ⟨pn, 0, u.u_cdir, none, [], holds, [u.u_cdir], mlock⟩ u.u_cdir) begin

end AuxKernel.Lookup
