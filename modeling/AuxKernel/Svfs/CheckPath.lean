import AuxKernel.Svfs.Dirlook
import Mathlib.Logic.Relation

/-!
# Checking the path of a directory

`dircheckpath` (`SVFS/sys/5_dir.c`): a directory must not be renamed into one below it, so the
walk up from the target to the root is to find that the source is not on the way. The target comes
locked; as it goes up, the walk unlocks a directory before it gets, and locks, its parent.

What a turn of the walk finds, the inodes on the disk and whether they can be read and had, is part
of the call (`Turn`), as others may change the tree in between. There is one in-core inode for each
number.

* `walk_spec`: where the walk stops, and what it holds then;
* `walk_isSome`: it stops if the way up ends;
* `dircheckpath_iff`: the target is locked again, and nothing else, if and only if `iget` finds all
  directories on the way.
-/

namespace AuxKernel.Svfs.CheckPath

open Directory

/-- The number of the root. -/
def ROOTINO : ℕ := 2

/-- The bits of `serialize_flag`. -/
def RENAME_IN_PROGRESS : ℕ := 1
@[inherit_doc RENAME_IN_PROGRESS]
def RENAME_WAITING : ℕ := 2

/-- An inode, and the second entry in the first block of the file. -/
structure Inode where
  isdir : Bool
  i_nlink : ℤ
  i_size : ℕ
  dirp1 : Svfsdirect

/-- What there is in a turn of the walk: the inodes, by their numbers; the errors with which the
    first block of a directory cannot be read, and an inode cannot be had; and whether another
    rename comes to wait for this one. -/
structure Turn where
  inode : ℕ → Inode
  blkatoff : ℕ → Option Errno
  iget : ℕ → Option Errno
  waiting : Bool

/-- What the caller holds, the inodes that it has locked and the number of buffers, and the flag
    for all renames. -/
structure State where
  locks : List ℕ
  bufs : ℕ
  serialize_flag : ℕ

namespace State

variable (s : State)

def ilock (ip : ℕ) : State := { s with locks := ip :: s.locks }

/-- Unlock an inode; `iput` does it too. -/
def iunlock (ip : ℕ) : State := { s with locks := s.locks.erase ip }

def bread : State := { s with bufs := s.bufs + 1 }

def brelse : State := { s with bufs := s.bufs - 1 }

/-- Another rename comes to wait. -/
def wait (waiting : Bool) : State :=
  if waiting then { s with serialize_flag := s.serialize_flag ||| RENAME_WAITING } else s

end State

/-- It cannot be the directory of anything: bad size, unlinked or not dir. -/
def Inode.bad (ip : Inode) : Bool := !ip.isdir || ip.i_nlink = 0 || ip.i_size < sizeofDirect * 2

/-- Where the loop is left: the inode and the buffer in hand, the error, and the turn. -/
structure Stop where
  s : State
  ip : Option ℕ
  bp : Bool
  error : Option Errno
  turn : ℕ

/-- The loop, from the turn `t` on in at most `n` turns, with the directory `ip` locked, and a
    buffer in hand (`bp`) or not. -/
def walk (w : ℕ → Turn) (source : ℕ) : (n t ip : ℕ) → (bp : Bool) → State → Option Stop
  | 0, _, _, _, _ => none
  | n + 1, t, ip, bp, s =>
    let s := s.wait (w t).waiting
    if ((w t).inode ip).bad then some ⟨s, some ip, bp, some .enotdir, t⟩
    else
      let s := if bp then s.brelse else s
      match (w t).blkatoff ip with
      | some e => some ⟨s, some ip, false, some e, t⟩
      | none =>
        let s := s.bread
        let dirp1 := ((w t).inode ip).dirp1
        if strncmp dirp1.d_name dotdot 3 ≠ 0 then some ⟨s, some ip, true, some .enotdir, t⟩
        else if dirp1.d_ino = source then some ⟨s, some ip, true, some .einval, t⟩
        else if dirp1.d_ino = ROOTINO then some ⟨s, some ip, true, none, t⟩
        else
          let s := s.iunlock ip
          match (w t).iget dirp1.d_ino with
          | some e => some ⟨s, none, true, some e, t⟩
          | none => walk w source n (t + 1) dirp1.d_ino true (s.ilock dirp1.d_ino)

/-- From `out` on: relock the target, and make sure that it has not gone away. -/
def out (w : ℕ → Turn) (target : ℕ) (r : Stop) : State × Option Errno :=
  match r.ip with
  | some ip =>
    if ip ≠ target then
      let s := (r.s.iunlock ip).ilock target
      ({ s with serialize_flag := 0 },
        if r.error = none ∧ ((w r.turn).inode target).i_nlink = 0 then some .enoent else r.error)
    else ({ r.s with serialize_flag := 0 }, r.error)
  | none => ({ r.s with serialize_flag := 0 }, r.error)

/-- Check if the directory `source` is in the path of the directory `target`, in at most `n` turns.
    No other rename is in progress by now. -/
def dircheckpath (w : ℕ → Turn) (source target n : ℕ) (s : State) : Option (State × Option Errno) :=
  let s := { s with serialize_flag := RENAME_IN_PROGRESS }
  if target = source then some (out w target ⟨s, some target, false, some .einval, 0⟩)
  else if target = ROOTINO then some (out w target ⟨s, some target, false, none, 0⟩)
  else
    (walk w source n 0 target false s).map fun r =>
      out w target { r with s := if r.bp then r.s.brelse else r.s }

/-! ## The way up -/

variable {w : ℕ → Turn} {source target : ℕ} {s : State}

/-- The way up: the parent of a directory is the one that it has in its turn. -/
def path (w : ℕ → Turn) (target : ℕ) : ℕ → ℕ
  | 0 => target
  | t + 1 => ((w t).inode (path w target t)).dirp1.d_ino

/-- The walk goes on from the directory `ip`. -/
structure GoesOn (turn : Turn) (source ip : ℕ) : Prop where
  good : (turn.inode ip).bad = false
  read : turn.blkatoff ip = none
  named : strncmp (turn.inode ip).dirp1.d_name dotdot 3 = 0
  ne_source : (turn.inode ip).dirp1.d_ino ≠ source
  ne_root : (turn.inode ip).dirp1.d_ino ≠ ROOTINO

/-- The walk gets to the turn `t`. -/
structure Gets (w : ℕ → Turn) (source target t : ℕ) : Prop where
  ne_source : target ≠ source
  ne_root : target ≠ ROOTINO
  goesOn : ∀ i < t, GoesOn (w i) source (path w target i)
  iget : ∀ i < t, (w i).iget (path w target (i + 1)) = none

theorem Gets.succ {t : ℕ} (h : Gets w source target t)
    (hon : GoesOn (w t) source (path w target t))
    (higet : (w t).iget (path w target (t + 1)) = none) : Gets w source target (t + 1) := by
  refine ⟨h.ne_source, h.ne_root, fun i hi => ?_, fun i hi => ?_⟩
  · rcases Nat.lt_succ_iff_lt_or_eq.1 hi with hlt | rfl
    · exact h.goesOn i hlt
    · exact hon
  · rcases Nat.lt_succ_iff_lt_or_eq.1 hi with hlt | rfl
    · exact h.iget i hlt
    · exact higet

/-- The source is not on the way to the turn `t`. -/
theorem Gets.path_ne {t i : ℕ} (h : Gets w source target t) (hi : i ≤ t) :
    path w target i ≠ source := by
  cases i with
  | zero => exact h.ne_source
  | succ i => exact (h.goesOn i hi).ne_source

/-- What the walk holds: the directory that it is at, and the buffer in hand. -/
structure Holds (s : State) (ip : ℕ) (bp : Bool) : Prop where
  locks : s.locks = [ip]
  bufs : s.bufs = if bp then 1 else 0

theorem Holds.wait {ip : ℕ} {bp : Bool} (h : Holds s ip bp) (waiting : Bool) :
    Holds (s.wait waiting) ip bp := by
  cases waiting
  · exact h
  · exact ⟨h.locks, h.bufs⟩

/-- Where the walk stops in the turn `t`, with the directory locked. -/
structure Stopped (w : ℕ → Turn) (source target : ℕ) (r : Stop) : Prop where
  gets : Gets w source target r.turn
  holds : Holds r.s (path w target r.turn) r.bp
  ip : r.ip = some (path w target r.turn)
  not_goesOn : ¬ GoesOn (w r.turn) source (path w target r.turn)
  root : r.error = none →
    path w target (r.turn + 1) ≠ source ∧ path w target (r.turn + 1) = ROOTINO

/-- Where `iget` does not find the next directory. -/
structure Lost (w : ℕ → Turn) (source target : ℕ) (r : Stop) : Prop where
  gets : Gets w source target r.turn
  locks : r.s.locks = []
  ip : r.ip = none
  goesOn : GoesOn (w r.turn) source (path w target r.turn)
  iget : (w r.turn).iget (path w target (r.turn + 1)) ≠ none

/-- Where the walk stops: at a directory that it does not go on from, or where `iget` fails. -/
theorem walk_spec {r : Stop} : ∀ {n t : ℕ} {bp : Bool} {s : State}, Gets w source target t →
    Holds s (path w target t) bp → walk w source n t (path w target t) bp s = some r →
      Stopped w source target r ∨ Lost w source target r
  | 0, _, _, _, _, _, h => by cases h
  | n + 1, t, bp, s, hgets, hholds, h => by
    rw [walk] at h
    have hwait := hholds.wait (w t).waiting
    -- With the buffer released, or with the next one.
    have hreleased : Holds (if bp then (s.wait (w t).waiting).brelse else s.wait (w t).waiting)
        (path w target t) false := by
      cases bp
      · exact hwait
      · exact ⟨hwait.locks, congrArg (· - 1) hwait.bufs⟩
    have hread : Holds (if bp then (s.wait (w t).waiting).brelse
        else s.wait (w t).waiting).bread (path w target t) true :=
      ⟨hreleased.locks, congrArg (· + 1) hreleased.bufs⟩
    by_cases hbad : ((w t).inode (path w target t)).bad
    · rw [if_pos hbad] at h
      obtain rfl := Option.some.inj h
      exact .inl ⟨hgets, hwait, rfl, fun hon => Bool.false_ne_true (hon.good.symm.trans hbad),
        fun hnone => absurd hnone (Option.some_ne_none _)⟩
    · rw [if_neg hbad] at h
      dsimp only at h
      cases hblk : (w t).blkatoff (path w target t) with
      | some e =>
        rw [hblk] at h
        obtain rfl := Option.some.inj h
        refine .inl ⟨hgets, hreleased, rfl, fun hon => ?_,
          fun hnone => absurd hnone (Option.some_ne_none _)⟩
        exact Option.some_ne_none e (hblk.symm.trans hon.read)
      | none =>
        rw [hblk] at h
        dsimp only at h
        by_cases hname : strncmp ((w t).inode (path w target t)).dirp1.d_name dotdot 3 ≠ 0
        · rw [if_pos hname] at h
          obtain rfl := Option.some.inj h
          exact .inl ⟨hgets, hread, rfl, fun hon => hname hon.named,
            fun hnone => absurd hnone (Option.some_ne_none _)⟩
        rw [if_neg hname] at h
        by_cases hsource : ((w t).inode (path w target t)).dirp1.d_ino = source
        · rw [if_pos hsource] at h
          obtain rfl := Option.some.inj h
          exact .inl ⟨hgets, hread, rfl, fun hon => hon.ne_source hsource,
            fun hnone => absurd hnone (Option.some_ne_none _)⟩
        rw [if_neg hsource] at h
        by_cases hroot : ((w t).inode (path w target t)).dirp1.d_ino = ROOTINO
        · rw [if_pos hroot] at h
          obtain rfl := Option.some.inj h
          exact .inl ⟨hgets, hread, rfl, fun hon => hon.ne_root hroot, fun _ => ⟨hsource, hroot⟩⟩
        rw [if_neg hroot] at h
        have hon : GoesOn (w t) source (path w target t) :=
          ⟨Bool.eq_false_iff.2 hbad, hblk, not_not.1 hname, hsource, hroot⟩
        have hunlocked := congrArg (List.erase · (path w target t)) hread.locks
        rw [List.erase_cons_head] at hunlocked
        cases higet : (w t).iget ((w t).inode (path w target t)).dirp1.d_ino with
        | some e =>
          rw [higet] at h
          obtain rfl := Option.some.inj h
          refine .inr ⟨hgets, hunlocked, rfl, hon, fun hnone => ?_⟩
          exact Option.some_ne_none e (higet.symm.trans hnone)
        | none =>
          rw [higet] at h
          refine walk_spec (hgets.succ hon higet) ?_ h
          exact ⟨congrArg (path w target (t + 1) :: ·) hunlocked, hread.bufs⟩

/-- The walk comes to an end if the way up does. -/
theorem walk_isSome : ∀ {d t : ℕ} (bp : Bool) (s : State),
    ¬ GoesOn (w (t + d)) source (path w target (t + d)) →
      (walk w source (d + 1) t (path w target t) bp s).isSome
  | d, t, bp, s, h => by
    rw [walk]
    dsimp only
    by_cases hbad : ((w t).inode (path w target t)).bad
    · rw [if_pos hbad]
      rfl
    rw [if_neg hbad]
    cases hblk : (w t).blkatoff (path w target t) with
    | some e => rfl
    | none =>
      dsimp only
      by_cases hname : strncmp ((w t).inode (path w target t)).dirp1.d_name dotdot 3 ≠ 0
      · rw [if_pos hname]
        rfl
      rw [if_neg hname]
      by_cases hsource : ((w t).inode (path w target t)).dirp1.d_ino = source
      · rw [if_pos hsource]
        rfl
      rw [if_neg hsource]
      by_cases hroot : ((w t).inode (path w target t)).dirp1.d_ino = ROOTINO
      · rw [if_pos hroot]
        rfl
      rw [if_neg hroot]
      cases higet : (w t).iget ((w t).inode (path w target t)).dirp1.d_ino with
      | some e => rfl
      | none =>
        cases d with
        | zero =>
          exact absurd ⟨Bool.eq_false_iff.2 hbad, hblk, not_not.1 hname, hsource, hroot⟩ h
        | succ d =>
          have hnext : t + (d + 1) = t + 1 + d := by omega
          rw [hnext] at h
          exact walk_isSome true _ h

/-! ## What `dircheckpath` leaves -/

/-- The directories above `ip`, up to the root. -/
def Above (inode : ℕ → Inode) : ℕ → ℕ → Prop :=
  Relation.TransGen fun ip pp => ip ≠ ROOTINO ∧ pp = (inode ip).dirp1.d_ino

/-- A way to the root that the source is not on. -/
def Clear (w : ℕ → Turn) (source target : ℕ) : Prop :=
  ∃ m, path w target m = ROOTINO ∧ ∀ i ≤ m, path w target i ≠ source

/-- The target is locked once, and no other inode; no buffer is held, and the flag is clear.
    Without an error, the source is not the target, and not on the way up that the walk has gone;
    so it is not above the target, in a tree that has not changed. -/
structure Contract (w : ℕ → Turn) (source target : ℕ) (s : State) (error : Option Errno) : Prop
    where
  locks : s.locks = [target]
  bufs : s.bufs = 0
  serialize_flag : s.serialize_flag = 0
  ne : error = none → source ≠ target
  clear : error = none → Clear w source target
  not_above : error = none → (∀ t, (w t).inode = (w 0).inode) → ¬ Above (w 0).inode target source

/-- In a tree that does not change, the way up has all that is above the target. -/
theorem Clear.not_above (h : Clear w source target) (hw : ∀ t, (w t).inode = (w 0).inode) :
    ¬ Above (w 0).inode target source := by
  obtain ⟨m, hroot, hne⟩ := h
  have hpath : ∀ {pp}, Above (w 0).inode target pp → ∃ i ≤ m, pp = path w target i := by
    have hstep : ∀ {i ip pp}, i ≤ m → ip = path w target i →
        ip ≠ ROOTINO ∧ pp = ((w 0).inode ip).dirp1.d_ino → ∃ i ≤ m, pp = path w target i := by
      rintro i _ _ hi rfl ⟨hip, rfl⟩
      refine ⟨i + 1, lt_of_le_of_ne hi ?_, ?_⟩
      · rintro rfl
        exact hip hroot
      · rw [path, hw i]
    intro pp habove
    induction habove with
    | single h => exact hstep (Nat.zero_le m) rfl h
    | tail _ h ih =>
      obtain ⟨i, hi, heq⟩ := ih
      exact hstep hi heq h
  intro habove
  obtain ⟨i, hi, heq⟩ := hpath habove
  exact hne i hi heq.symm

theorem contract_of_error {s : State} {e : Errno} (hlocks : s.locks = [target]) (hbufs : s.bufs = 0)
    (hflag : s.serialize_flag = 0) : Contract w source target s (some e) := by
  have hsome : some e ≠ none := Option.some_ne_none e
  exact ⟨hlocks, hbufs, hflag, (absurd · hsome), (absurd · hsome), (absurd · hsome)⟩

theorem contract_of_clear {s : State} (error : Option Errno) (hlocks : s.locks = [target])
    (hbufs : s.bufs = 0) (hflag : s.serialize_flag = 0) (hne : target ≠ source)
    (hclear : error = none → Clear w source target) : Contract w source target s error :=
  ⟨hlocks, hbufs, hflag, fun _ => hne.symm, hclear, fun h => (hclear h).not_above⟩

/-- The target has not been unlocked. -/
theorem out_target {r : Stop} (h : r.ip = some target) :
    out w target r = ({ r.s with serialize_flag := 0 }, r.error) := by
  rw [out, h]
  dsimp only
  rw [if_neg (not_not.2 rfl)]

/-- The walk stops at a directory: that one is unlocked, and the target locked. -/
theorem Stopped.contract {r : Stop} (h : Stopped w source target r) :
    Contract w source target (out w target { r with s := if r.bp then r.s.brelse else r.s }).1
      (out w target { r with s := if r.bp then r.s.brelse else r.s }).2 := by
  have hclear : r.error = none → Clear w source target := by
    intro herror
    obtain ⟨hne, hroot⟩ := h.root herror
    refine ⟨r.turn + 1, hroot, fun i hi => ?_⟩
    rcases Nat.le_succ_iff.1 hi with hle | rfl
    · exact h.gets.path_ne hle
    · exact hne
  have hheld : (if r.bp then r.s.brelse else r.s).locks = [path w target r.turn] ∧
      (if r.bp then r.s.brelse else r.s).bufs = 0 := by
    have hbufs := h.holds.bufs
    cases hbp : r.bp
    · rw [hbp] at hbufs
      exact ⟨h.holds.locks, hbufs⟩
    · rw [hbp] at hbufs
      exact ⟨h.holds.locks, congrArg (· - 1) hbufs⟩
  rw [out]
  dsimp only
  rw [h.ip]
  dsimp only
  by_cases htarget : path w target r.turn ≠ target
  · rw [if_pos htarget]
    have hlocks := congrArg (fun l => target :: List.erase l (path w target r.turn)) hheld.1
    rw [List.erase_cons_head] at hlocks
    by_cases hgone : r.error = none ∧ ((w r.turn).inode target).i_nlink = 0
    · rw [if_pos hgone]
      exact contract_of_error hlocks hheld.2 rfl
    · rw [if_neg hgone]
      exact contract_of_clear r.error hlocks hheld.2 rfl h.gets.ne_source hclear
  · rw [if_neg htarget]
    rw [not_not.1 htarget] at hheld
    exact contract_of_clear r.error hheld.1 hheld.2 rfl h.gets.ne_source hclear

/-- Where `iget` does not find a directory, nothing is locked in the end. -/
theorem Lost.locks_out {r : Stop} (h : Lost w source target r) :
    (out w target { r with s := if r.bp then r.s.brelse else r.s }).1.locks = [] := by
  rw [out]
  dsimp only
  rw [h.ip]
  dsimp only
  cases r.bp <;> exact h.locks

/-- `dircheckpath` returns, and with the target locked and all that belongs to it. -/
def Meets (w : ℕ → Turn) (source target : ℕ) (s : State) : Prop :=
  (∃ n, (dircheckpath w source target n s).isSome) ∧
    ∀ n s' error, dircheckpath w source target n s = some (s', error) →
      Contract w source target s' error

/-- `dircheckpath`, called with the target locked, where the way up from it has an end: it meets
    its contract if and only if `iget` finds each directory on the way that the walk goes on to. -/
theorem dircheckpath_iff (w : ℕ → Turn) (source target : ℕ) (s : State)
    (hs : s.locks = [target] ∧ s.bufs = 0)
    (hends : ∃ d, ¬ GoesOn (w d) source (path w target d)) :
    Meets w source target s ↔ ∀ t, Gets w source target t → GoesOn (w t) source (path w target t) →
      (w t).iget (path w target (t + 1)) = none := by
  have hmeets : ∀ r, (∀ n, dircheckpath w source target n s = some r) →
      Contract w source target r.1 r.2 → Meets w source target s := by
    intro r hr hc
    refine ⟨⟨0, by rw [hr]; rfl⟩, fun n s' error h => ?_⟩
    obtain rfl := Option.some.inj ((hr n).symm.trans h)
    exact hc
  by_cases hsource : target = source
  · refine iff_of_true (hmeets _ (fun n => by rw [dircheckpath, if_pos hsource]) ?_)
      fun t hgets => absurd hsource hgets.ne_source
    rw [out_target rfl]
    exact contract_of_error hs.1 hs.2 rfl
  by_cases hroot : target = ROOTINO
  · refine iff_of_true (hmeets _ (fun n => by rw [dircheckpath, if_neg hsource, if_pos hroot]) ?_)
      fun t hgets => absurd hroot hgets.ne_root
    rw [out_target rfl]
    refine contract_of_clear none hs.1 hs.2 rfl hsource fun _ => ⟨0, hroot, fun i hi => ?_⟩
    rw [Nat.le_zero.1 hi]
    exact hsource
  have hgets : Gets w source target 0 := ⟨hsource, hroot, fun i hi => absurd hi (Nat.not_lt_zero i),
    fun i hi => absurd hi (Nat.not_lt_zero i)⟩
  have hholds : Holds { s with serialize_flag := RENAME_IN_PROGRESS } (path w target 0) false :=
    ⟨hs.1, hs.2⟩
  have hrun : ∀ n, dircheckpath w source target n s =
      (walk w source n 0 (path w target 0) false
        { s with serialize_flag := RENAME_IN_PROGRESS }).map fun r =>
          out w target { r with s := if r.bp then r.s.brelse else r.s } := by
    intro n
    rw [dircheckpath, if_neg hsource, if_neg hroot]
    rfl
  obtain ⟨d, hd⟩ := hends
  have hends : (dircheckpath w source target (d + 1) s).isSome := by
    rw [hrun, Option.isSome_map]
    refine walk_isSome false _ ?_
    rw [Nat.zero_add]
    exact hd
  constructor
  · intro hmeets t hgets_t hon
    obtain ⟨⟨s', error⟩, hsome⟩ := Option.isSome_iff_exists.1 hends
    have hlocks := (hmeets.2 _ _ _ hsome).locks
    rw [hrun] at hsome
    obtain ⟨r, hwalk, hout⟩ := Option.map_eq_some_iff.1 hsome
    by_contra higet
    rcases walk_spec hgets hholds hwalk with hstop | hlost
    · -- The walk gets past neither the turn where it stops nor the one where `iget` fails.
      rcases Nat.lt_trichotomy r.turn t with hlt | heq | hlt
      · exact hstop.not_goesOn (hgets_t.goesOn _ hlt)
      · exact hstop.not_goesOn (heq ▸ hon)
      · exact higet (hstop.gets.iget t hlt)
    · have hnone := hlost.locks_out
      rw [hout, hlocks] at hnone
      exact List.cons_ne_nil _ _ hnone
  · intro higet
    refine ⟨⟨d + 1, hends⟩, fun n s' error hsome => ?_⟩
    rw [hrun] at hsome
    obtain ⟨r, hwalk, hout⟩ := Option.map_eq_some_iff.1 hsome
    rcases walk_spec hgets hholds hwalk with hstop | hlost
    · have hcontract := hstop.contract
      rw [hout] at hcontract
      exact hcontract
    · exact absurd (higet _ hlost.gets hlost.goesOn) hlost.iget

/-- A chain of directories, each number the parent of the next, where the inode `lost` cannot be
    had. -/
def chain (lost : ℕ) : ℕ → Turn := fun _ =>
  { inode := fun ip => ⟨true, 2, 32, ⟨ip - 1, dotdot⟩⟩, blkatoff := fun _ => none
    iget := fun ip => if ip = lost then some .eio else none, waiting := false }

/-- The directory 5, three levels below the root. -/
theorem dircheckpath_iff_chain :
    Meets (chain 0) 9 5 ⟨[5], 0, 0⟩ ↔ ∀ t, Gets (chain 0) 9 5 t →
      GoesOn (chain 0 t) 9 (path (chain 0) 5 t) →
        (chain 0 t).iget (path (chain 0) 5 (t + 1)) = none :=
  dircheckpath_iff (chain 0) 9 5 ⟨[5], 0, 0⟩ ⟨rfl, rfl⟩ ⟨2, fun h => h.ne_root rfl⟩

/-- The parent of the directory 5 cannot be had: nothing is locked in the end. -/
theorem not_dircheckpath :
    ¬ ∀ (w : ℕ → Turn) (source target : ℕ) (s : State), s.locks = [target] ∧ s.bufs = 0 →
      (∃ d, ¬ GoesOn (w d) source (path w target d)) → Meets w source target s := by
  intro hall
  have hmeets := hall (chain 4) 9 5 ⟨[5], 0, 0⟩ ⟨rfl, rfl⟩ ⟨2, fun h => h.ne_root rfl⟩
  have hlocks := (hmeets.2 1 ⟨[], 0, 0⟩ (some .eio) rfl).locks
  exact List.cons_ne_nil _ _ hlocks.symm

end AuxKernel.Svfs.CheckPath
