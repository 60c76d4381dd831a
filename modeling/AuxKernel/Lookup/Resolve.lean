import AuxKernel.Lookup.Basic

/-!
# What a pathname resolves to

The file systems form a tree (`Tree`): a directory is in one place only, a root is mounted on one
vnode, and the mounts go down from `rootdir`. A pathname is resolved component by component
(`Walk`): each is looked up in a directory (`Entry`), after ".." has gone up through the roots it
is at (`Up`); a vnode that is mounted on stands for the root that is mounted there (`Cross`); a
link stands for its text, and what follows the link comes behind it. This has one result
(`Resolves.unique`).
-/

namespace AuxKernel.Lookup

/-- File systems in which each directory, and each mount, has one place. The mounts that lead to
    a vnode are counted by `depth`, and no vnode is below more than `bound` of them. -/
structure Tree (V M : Type*) extends Vnodes V M where
  depth : V → ℕ
  bound : ℕ
  depth_le : ∀ v, depth v ≤ bound
  /-- "." is the directory itself. -/
  lookup_dot : ∀ d c, VOP_LOOKUP d dot = .ok c → c = d
  /-- What is in a directory is no root of a file system, and ".." leads back to the directory. -/
  lookup_child : ∀ d nm c, VOP_LOOKUP d nm = .ok c → nm ≠ dot → nm ≠ dotdot →
    VROOT c = false ∧ ∀ p, VOP_LOOKUP c dotdot = .ok p → p = d
  /-- The root of what is mounted on a vnode. -/
  mounted : ∀ c m v, v_vfsmountedhere c = some m → VFS_ROOT m = .ok v →
    VROOT v = true ∧ vfs_vnodecovered v = some c ∧ depth v = depth c + 1
  /-- Only `rootdir` is the root of a file system that is not mounted on a vnode. -/
  covered : ∀ v, VROOT v = true → v ≠ rootdir →
    ∃ c, vfs_vnodecovered v = some c ∧ depth v = depth c + 1
  /-- A link's text is a string. -/
  readlink : ∀ v text, VOP_READLINK v = .ok text → 0 ∉ text

variable {V M : Type*} (w : Vnodes V M) (u : User V)

/-! ## Components -/

/-- Where ".." is looked up. -/
inductive Up : V → V → Prop
  | stop {v : V} : IsRoot w u v ∨ w.VROOT v = false → Up v v
  | climb {v c d : V} : ¬IsRoot w u v → w.VROOT v = true → w.vfs_vnodecovered v = some c →
    Up c d → Up v d

/-- What a vnode stands for, if something is mounted on it. -/
inductive Cross : V → Except Errno V → Prop
  | stop {v : V} : w.v_vfsmountedhere v = none → Cross v (.ok v)
  | error {v : V} {m : M} {error : Errno} : w.v_vfsmountedhere v = some m →
    w.VFS_ROOT m = .error error → Cross v (.error error)
  | root {v r : V} {m : M} {x : Except Errno V} : w.v_vfsmountedhere v = some m →
    w.VFS_ROOT m = .ok r → Cross r x → Cross v x

/-- What a component is: a vnode, in a directory; not there; a link; or an error. -/
inductive Component (V : Type*)
  | vnode (d v : V)
  | missing (d : V) (error : Errno)
  | link (d : V) (text : Pathname)
  | error (error : Errno)

/-- The directory a name is looked up in. -/
def In (dir : V) (nm : List UInt8) (d : V) : Prop :=
  if nm = dotdot then Up w u dir d ∧ ¬IsRoot w u d else d = dir

/-- A vnode is a link that is to be followed. -/
def Followed (follow more : Bool) (c : V) : Prop := w.v_type c = .VLNK ∧ (follow || more)

/-- A link to be followed, unless there were too many, or it cannot be read. -/
def expand (nlink : ℕ) (d c : V) : Component V :=
  if 20 ≤ nlink then .error .eloop
  else match w.VOP_READLINK c with
  | .error error => .error error
  | .ok text => .link d (if text = [] then dot else text)

/-- A vnode in a directory, or an error. -/
def Component.of (d : V) : Except Errno V → Component V
  | .ok v => .vnode d v
  | .error e => .error e

/-- What a name is that was looked up, after `nlink` links, where `more` of the pathname follows. -/
inductive Found (follow more : Bool) (nlink : ℕ) (d : V) : Except Errno V → Component V → Prop
  | missing {error : Errno} : Found follow more nlink d (.error error) (.missing d error)
  | link {c : V} : Followed w follow more c → Found follow more nlink d (.ok c) (expand w nlink d c)
  | vnode {c : V} {x : Except Errno V} : ¬Followed w follow more c → Cross w c x →
    Found follow more nlink d (.ok c) (.of d x)

/-- What a name is, in a directory: ".." at a root is the root. -/
inductive Entry (follow more : Bool) (nlink : ℕ) (dir : V) (nm : List UInt8) :
    Component V → Prop
  | root {d : V} : nm = dotdot → Up w u dir d → IsRoot w u d →
    Entry follow more nlink dir nm (.vnode d d)
  | lookup {d : V} {x : Component V} : In w u dir nm d →
    Found w follow more nlink d (w.VOP_LOOKUP d nm) x → Entry follow more nlink dir nm x

/-! ## Pathnames -/

/-- What a pathname resolves to: an error; a directory in which the last component is not; or a
    vnode, in a directory if the pathname has a last component. -/
inductive Outcome (V : Type*)
  | error (error : Errno)
  | missing (d : V) (error : Errno)
  | found (d : Option V) (v : V)

/-- The first component, and what follows it. -/
def name (path : Pathname) : List UInt8 := path.takeWhile (· ≠ slash)

def rest (path : Pathname) : Pathname := path.dropWhile (· ≠ slash)

/-- There is a component to be looked up in a directory. -/
def HasName (dir : V) (path : Pathname) : Prop :=
  w.v_type dir = .VDIR ∧ (name path).length ≤ MAXNAMLEN ∧ name path ≠ []

/-- Where a pathname starts: an absolute one at the root. -/
def start (dir : V) (path : Pathname) : V := if path.head? = some slash then root w u else dir

/-- Where the way along a pathname ends with a component. -/
def Component.last (rest : Pathname) : Component V → Option (Outcome V)
  | .error e => some (.error e)
  | .missing d e => some (if rest = [] then .missing d e else .error e)
  | .vnode d v => if rest = [] then some (.found (some d) v) else none
  | .link _ text =>
    if MAXPATHLEN ≤ text.length + rest.length then some (.error .enametoolong) else none

/-- The way along a pathname, from a directory on, after `nlink` links. -/
inductive Walk (follow : Bool) : ℕ → V → Pathname → Outcome V → Prop
  | notdir {nlink : ℕ} {dir : V} {path : Pathname} : w.v_type dir ≠ .VDIR →
    Walk follow nlink dir path (.error .enotdir)
  | toolong {nlink : ℕ} {dir : V} {path : Pathname} : w.v_type dir = .VDIR →
    MAXNAMLEN < (name path).length → Walk follow nlink dir path (.error .enametoolong)
  | here {nlink : ℕ} {dir : V} {path : Pathname} : w.v_type dir = .VDIR → name path = [] →
    Walk follow nlink dir path (.found none dir)
  | last {nlink : ℕ} {dir : V} {path : Pathname} {x : Component V} {o : Outcome V} :
    HasName w dir path → Entry w u follow (rest path ≠ []) nlink dir (name path) x →
    x.last (rest path) = some o → Walk follow nlink dir path o
  | vnode {nlink : ℕ} {dir d v : V} {path : Pathname} {o : Outcome V} : HasName w dir path →
    Entry w u follow (rest path ≠ []) nlink dir (name path) (.vnode d v) → rest path ≠ [] →
    Walk follow nlink v (pn_skipslash (rest path)) o → Walk follow nlink dir path o
  | link {nlink : ℕ} {dir d : V} {path text : Pathname} {o : Outcome V} : HasName w dir path →
    Entry w u follow (rest path ≠ []) nlink dir (name path) (.link d text) →
    text.length + (rest path).length < MAXPATHLEN →
    Walk follow (nlink + 1) (start w u d (text ++ rest path)) (pn_skipslash (text ++ rest path)) o →
    Walk follow nlink dir path o

/-- What a pathname resolves to, for a process. -/
def Resolves (follow : Bool) (path : Pathname) (o : Outcome V) : Prop :=
  if path = [] then o = .error .enoent
  else Walk w u follow 0 (start w u u.u_cdir path) (pn_skipslash path) o

/-! ## There is one result -/

section Unique

variable {w u}

theorem Up.unique {v d d' : V} (h : Up w u v d) (h' : Up w u v d') : d = d' := by
  induction h with
  | stop h =>
    cases h' with
    | stop => rfl
    | climb hroot hvroot _ _ => exact absurd h (not_or.2 ⟨hroot, by simp [hvroot]⟩)
  | climb hroot hvroot hc _ ih =>
    cases h' with
    | stop h => exact absurd h (not_or.2 ⟨hroot, by simp [hvroot]⟩)
    | climb _ _ hc' h' =>
      cases hc.symm.trans hc'
      exact ih h'

theorem Cross.unique {v : V} {x x' : Except Errno V} (h : Cross w v x) (h' : Cross w v x') :
    x = x' := by
  induction h with
  | stop h =>
    cases h' with
    | stop => rfl
    | error hm _ => exact absurd (h.symm.trans hm) (by simp)
    | root hm _ _ => exact absurd (h.symm.trans hm) (by simp)
  | error hm he =>
    cases h' with
    | stop h => exact absurd (h.symm.trans hm) (by simp)
    | error hm' he' =>
      cases hm.symm.trans hm'
      cases he.symm.trans he'
      rfl
    | root hm' hr _ =>
      cases hm.symm.trans hm'
      cases he.symm.trans hr
  | root hm hr _ ih =>
    cases h' with
    | stop h => exact absurd (h.symm.trans hm) (by simp)
    | error hm' he =>
      cases hm.symm.trans hm'
      cases hr.symm.trans he
    | root hm' hr' h' =>
      cases hm.symm.trans hm'
      cases hr.symm.trans hr'
      exact ih h'

theorem In.unique {dir d d' : V} {nm : List UInt8} (h : In w u dir nm d) (h' : In w u dir nm d') :
    d = d' := by
  rw [In] at h h'
  split_ifs at h h'
  · exact h.1.unique h'.1
  · exact h.trans h'.symm

theorem Entry.unique {follow more : Bool} {nlink : ℕ} {dir : V} {nm : List UInt8}
    {x x' : Component V} (h : Entry w u follow more nlink dir nm x)
    (h' : Entry w u follow more nlink dir nm x') : x = x' := by
  -- ".." is looked up only where it does not end at a root
  have hroot {d d' : V} (hnm : nm = dotdot) (hup : Up w u dir d) (hd : IsRoot w u d)
      (hin : In w u dir nm d') : False := by
    rw [In, if_pos hnm] at hin
    exact hin.2 (hup.unique hin.1 ▸ hd)
  cases h with
  | root hnm hup hd =>
    cases h' with
    | root _ hup' _ => rw [hup.unique hup']
    | lookup hin _ => exact (hroot hnm hup hd hin).elim
  | lookup hin hfound =>
    cases h' with
    | root hnm hup hd => exact (hroot hnm hup hd hin).elim
    | lookup hin' hfound' =>
      cases hin.unique hin'
      generalize w.VOP_LOOKUP _ nm = y at hfound hfound'
      cases hfound with
      | missing => cases hfound' with | missing => rfl
      | link hf =>
        cases hfound' with
        | link => rfl
        | vnode hf' _ => exact absurd hf hf'
      | vnode hf hx =>
        cases hfound' with
        | link hf' => exact absurd hf' hf
        | vnode _ hx' => rw [hx.unique hx']

theorem Walk.unique {follow : Bool} {nlink : ℕ} {dir : V} {path : Pathname} {o o' : Outcome V}
    (h : Walk w u follow nlink dir path o) (h' : Walk w u follow nlink dir path o') : o = o' := by
  induction h with
  | notdir hdir =>
    cases h' with
    | notdir => rfl
    | toolong hdir' _ => exact absurd hdir' hdir
    | here hdir' _ => exact absurd hdir' hdir
    | last hname _ _ => exact absurd hname.1 hdir
    | vnode hname _ _ _ => exact absurd hname.1 hdir
    | link hname _ _ _ => exact absurd hname.1 hdir
  | toolong hdir hlen =>
    cases h' with
    | notdir hdir' => exact absurd hdir hdir'
    | toolong => rfl
    | here _ hnil => exact absurd hlen (by rw [hnil]; decide)
    | last hname _ _ => exact absurd hlen (not_lt.2 hname.2.1)
    | vnode hname _ _ _ => exact absurd hlen (not_lt.2 hname.2.1)
    | link hname _ _ _ => exact absurd hlen (not_lt.2 hname.2.1)
  | here hdir hnil =>
    cases h' with
    | notdir hdir' => exact absurd hdir hdir'
    | toolong _ hlen => exact absurd hlen (by rw [hnil]; decide)
    | here => rfl
    | last hname _ _ => exact absurd hnil hname.2.2
    | vnode hname _ _ _ => exact absurd hnil hname.2.2
    | link hname _ _ _ => exact absurd hnil hname.2.2
  | last hname hentry hlast =>
    cases h' with
    | notdir hdir => exact absurd hname.1 hdir
    | toolong _ hlen => exact absurd hlen (not_lt.2 hname.2.1)
    | here _ hnil => exact absurd hnil hname.2.2
    | last _ hentry' hlast' =>
      cases hentry.unique hentry'
      exact Option.some.inj (hlast.symm.trans hlast')
    | vnode _ hentry' hrest _ =>
      cases hentry.unique hentry'
      rw [Component.last, if_neg hrest] at hlast
      cases hlast
    | link _ hentry' hlen _ =>
      cases hentry.unique hentry'
      rw [Component.last, if_neg (not_le.2 hlen)] at hlast
      cases hlast
  | vnode hname hentry hrest _ ih =>
    cases h' with
    | notdir hdir => exact absurd hname.1 hdir
    | toolong _ hlen => exact absurd hlen (not_lt.2 hname.2.1)
    | here _ hnil => exact absurd hnil hname.2.2
    | last _ hentry' hlast =>
      cases hentry.unique hentry'
      rw [Component.last, if_neg hrest] at hlast
      cases hlast
    | vnode _ hentry' _ hwalk =>
      cases hentry.unique hentry'
      exact ih hwalk
    | link _ hentry' _ _ => cases hentry.unique hentry'
  | link hname hentry hlen _ ih =>
    cases h' with
    | notdir hdir => exact absurd hname.1 hdir
    | toolong _ hlen => exact absurd hlen (not_lt.2 hname.2.1)
    | here _ hnil => exact absurd hnil hname.2.2
    | last _ hentry' hlast =>
      cases hentry.unique hentry'
      rw [Component.last, if_neg (not_le.2 hlen)] at hlast
      cases hlast
    | vnode _ hentry' _ _ => cases hentry.unique hentry'
    | link _ hentry' _ hwalk =>
      cases hentry.unique hentry'
      exact ih hwalk

theorem Resolves.unique {follow : Bool} {path : Pathname} {o o' : Outcome V}
    (h : Resolves w u follow path o) (h' : Resolves w u follow path o') : o = o' := by
  rw [Resolves] at h h'
  split_ifs at h h'
  · rw [h, h']
  · exact h.unique h'

end Unique

end AuxKernel.Lookup
