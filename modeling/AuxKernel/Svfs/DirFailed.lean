import AuxKernel.Svfs.Direnter
import Mathlib.Data.List.GetD

/-!
# What a failed call leaves in the directories

A call that fails leaves the entries of all directories and the link counts as they were, but for
one: the rename of a directory onto an empty one of another parent, where the `".."` cannot be
changed. The entry has been rewritten then, and the links of the old directory are gone.

* `diraddentry_failed`, `dirmakeinode_failed`, `dirrename_failed`: the functions that change
  something before they fail;
* `Call.Strands`: the exception;
* `failed_iff`: nothing changes where a call fails, if and only if it is not the exception.
-/

namespace AuxKernel.Svfs.Direnter

open Directory

variable {env : Env} {s s' s'' : Incore}

/-- The entry in a slot, if the slot is one of a directory that is in use. -/
def Inode.live (ip : Inode) (k : ℕ) : Option (ℕ × List ℕ) :=
  if ip.isdir ∧ k < ip.slots ∧ (ip.slot k).d_ino ≠ 0 then
    some ((ip.slot k).d_ino, chars (ip.slot k).d_name SVFSDIRSIZ)
  else none

/-- The link counts and the entries in use are the same. -/
structure Same (s s' : Incore) : Prop where
  links : ∀ p, (s' p).i_nlink = (s p).i_nlink
  live : ∀ p k, (s' p).live k = (s p).live k

theorem Same.refl (s : Incore) : Same s s := ⟨fun _ => rfl, fun _ _ => rfl⟩

theorem Same.trans (h : Same s s') (h' : Same s' s'') : Same s s'' :=
  ⟨fun p => (h'.links p).trans (h.links p), fun p k => (h'.live p k).trans (h.live p k)⟩

/-- One inode is changed. -/
theorem Same.update {p : ℕ} {x : Inode} (hlinks : x.i_nlink = (s p).i_nlink)
    (hlive : ∀ k, x.live k = (s p).live k) : Same s (Function.update s p x) := by
  refine ⟨fun q => ?_, fun q k => ?_⟩ <;> by_cases hq : q = p
  · subst hq
    rw [Function.update_self, hlinks]
  · rw [Function.update_of_ne hq]
  · subst hq
    rw [Function.update_self, hlive]
  · rw [Function.update_of_ne hq]

/-! ## Link counts -/

/-- What an inode keeps when it is changed. -/
theorem update_eq {α : Type*} (f : Inode → α) {p : ℕ} {x : Inode} (hf : f x = f (s p)) (q : ℕ) :
    f (Function.update s p x q) = f (s q) := by
  by_cases hq : q = p
  · rw [hq, Function.update_self, hf]
  · rw [Function.update_of_ne hq]

/-- What does not depend on the link count is left alone by `link` and `unlink`. -/
theorem link_eq {α : Type*} (f : Inode → α) (hf : ∀ ip n, f { ip with i_nlink := n } = f ip)
    (p q : ℕ) : f (link s p q) = f (s q) :=
  update_eq f (hf _ _) q

@[inherit_doc link_eq]
theorem unlink_eq {α : Type*} (f : Inode → α) (hf : ∀ ip n, f { ip with i_nlink := n } = f ip)
    (p q : ℕ) : f (unlink s p q) = f (s q) :=
  update_eq f (hf _ _) q

@[inherit_doc link_eq]
theorem setSlot_eq {α : Type*} (f : Inode → α) (hf : ∀ ip slot, f { ip with slot := slot } = f ip)
    (p k : ℕ) (ep : Svfsdirect) (q : ℕ) : f (setSlot s p k ep q) = f (s q) :=
  update_eq f (hf _ _) q

@[inherit_doc link_eq]
theorem setSize_eq {α : Type*} (f : Inode → α) (hf : ∀ ip n, f { ip with i_size := n } = f ip)
    (p i_size q : ℕ) : f (setSize s p i_size q) = f (s q) :=
  update_eq f (hf _ _) q

/-- What `link` makes of an inode depends on that inode. -/
theorem link_congr {d p : ℕ} (h : s' p = s p) : link s' d p = link s d p := by
  by_cases hp : p = d
  · subst hp
    rw [link, link, Function.update_self, Function.update_self, h]
  · rw [link, link, Function.update_of_ne hp, Function.update_of_ne hp, h]

theorem link_self (p : ℕ) : (link s p p).i_nlink = (s p).i_nlink + 1 := by
  rw [link, Function.update_self]

theorem link_of_ne {p q : ℕ} (h : q ≠ p) : link s p q = s q := Function.update_of_ne h _ _

theorem unlink_self (p : ℕ) : (unlink s p p).i_nlink = (s p).i_nlink - 1 := by
  rw [unlink, Function.update_self]

theorem unlink_of_ne {p q : ℕ} (h : q ≠ p) : unlink s p q = s q := Function.update_of_ne h _ _

theorem live_link (p q k : ℕ) : (link s p q).live k = (s q).live k :=
  link_eq (·.live k) (fun _ _ => rfl) p q

theorem live_unlink (p q k : ℕ) : (unlink s p q).live k = (s q).live k :=
  unlink_eq (·.live k) (fun _ _ => rfl) p q

/-- `unlink` undoes `link`. -/
theorem unlink_link {p q : ℕ} (h : (s' q).i_nlink = (link s p q).i_nlink) :
    (unlink s' p q).i_nlink = (s q).i_nlink := by
  by_cases hq : q = p
  · subst hq
    rw [unlink_self, h, link_self, BitVec.add_sub_cancel]
  · rw [unlink_of_ne hq, h, link_of_ne hq]

/-- The link that is undone. -/
theorem Same.unlink {p : ℕ} (h : Same (link s p) s') : Same s (unlink s' p) := by
  refine ⟨fun q => unlink_link (h.links q), fun q k => ?_⟩
  rw [live_unlink, h.live, live_link]

/-! ## Slots -/

/-- Past the end of a directory, there are no entries in its blocks. -/
def Clear (s : Incore) : Prop :=
  ∀ p, (s p).isdir → ∀ k, (s p).slots ≤ k → ((s p).slot k).d_ino = 0

theorem Clear.link (h : Clear s) (p : ℕ) : Clear (link s p) := by
  intro q hq k hk
  rw [link_eq Inode.isdir fun _ _ => rfl] at hq
  rw [link_eq Inode.slots fun _ _ => rfl] at hk
  rw [link_eq (fun ip => (ip.slot k).d_ino) fun _ _ => rfl]
  exact h q hq k hk

/-- A slot is not in use. -/
theorem live_eq_none {ip : Inode} {k : ℕ} (h : (ip.slot k).d_ino = 0) : ip.live k = none :=
  if_neg fun hlive => hlive.2.2 h

theorem slots_mono {ip : Inode} {i_size : ℕ} (h : ip.i_size ≤ i_size) :
    ip.slots ≤ Inode.slots { ip with i_size := i_size } := by
  simp only [Inode.slots, roundup, DIRBLKSIZ, DEV_BSIZE, sizeofDirect, SVFSDIRSIZ]
  omega

/-- A directory that grows has no new entries. -/
theorem live_setSize {ip : Inode} {i_size : ℕ} (hclear : ∀ k, ip.slots ≤ k → (ip.slot k).d_ino = 0)
    (hsize : ip.i_size ≤ i_size) (k : ℕ) :
    Inode.live { ip with i_size := i_size } k = ip.live k := by
  unfold Inode.live
  have hmono := slots_mono hsize
  refine if_congr (and_congr_right fun _ => and_congr_left fun hk => ?_) rfl rfl
  refine ⟨fun _ => ?_, fun h => h.trans_le hmono⟩
  by_contra hle
  exact hk (hclear k (not_lt.1 hle))

/-- Slots that are not in use may be overwritten by others that are not. -/
theorem live_setSlots {ip : Inode} {slot : ℕ → Svfsdirect}
    (h : ∀ k, slot k = ip.slot k ∨ (slot k).d_ino = 0 ∧ (ip.slot k).d_ino = 0) (k : ℕ) :
    Inode.live { ip with slot := slot } k = ip.live k := by
  rcases h k with hk | ⟨hk, hk'⟩
  · simp only [Inode.live, hk]
    rfl
  · rw [live_eq_none hk', live_eq_none hk]

/-- The slot for a new entry is not in use. -/
def Unused (s : Incore) (dp : ℕ) (slot : Option ℕ) : Prop :=
  ((s dp).slot (slotOf s dp slot)).d_ino = 0

/-- To adjust the size of a directory. -/
theorem setSize_same {dp i_size : ℕ} (hclear : ∀ k, (s dp).slots ≤ k → ((s dp).slot k).d_ino = 0)
    (hsize : (s dp).i_size ≤ i_size) : Same s (setSize s dp i_size) :=
  .update rfl (live_setSize hclear hsize)

/-- To clear slots that are not in use. -/
theorem bzero_same {dp k : ℕ}
    (h : ∀ j, k ≤ j → j < k + DIRBLKSIZ / sizeofDirect → ((s dp).slot j).d_ino = 0) :
    Same s (bzero s dp k) := by
  refine .update rfl (live_setSlots fun j => ?_)
  by_cases hj : k ≤ j ∧ j < k + DIRBLKSIZ / sizeofDirect
  · rw [if_pos hj]
    exact .inr ⟨rfl, h j hj.1 hj.2⟩
  · rw [if_neg hj]
    exact .inl rfl

/-- To take the inode from a slot that has none. -/
theorem setIno_same {p k : ℕ} (h : ((s p).slot k).d_ino = 0) : Same s (setIno s p k 0) := by
  refine .update rfl (live_setSlots fun j => ?_)
  by_cases hj : j = k
  · subst hj
    rw [Function.update_self]
    exact .inr ⟨rfl, h⟩
  · rw [Function.update_of_ne hj]
    exact .inl rfl

/-- To prepare a slot changes no entry. -/
theorem dirprepareentry_same {dp : ℕ} {slot : Option ℕ} {e : Option Errno}
    (hclear : ∀ k, (s dp).slots ≤ k → ((s dp).slot k).d_ino = 0) (hslot : Unused s dp slot)
    (h : dirprepareentry env s dp slot = (s', e)) :
    Same s s' ∧ ((s' dp).slot (slotOf s dp slot)).d_ino = 0 ∧ ∀ p, (s' p).isdir = (s p).isdir := by
  unfold dirprepareentry at h
  dsimp only at h
  cases hbmap : if slot.isNone then env.bmap .prepare dp (sizeofDirect * slotOf s dp slot) else none
    with
  | some e =>
    rw [hbmap] at h
    cases h
    exact ⟨.refl s, hslot, fun _ => rfl⟩
  | none =>
    rw [hbmap] at h
    dsimp only at h
    set s₁ := if sizeofDirect * slotOf s dp slot + sizeofDirect > (s dp).i_size then
      setSize s dp (sizeofDirect * slotOf s dp slot + sizeofDirect) else s with hs₁
    have hgrown : Same s s₁ ∧ (s₁ dp).slot = (s dp).slot ∧ ∀ p, (s₁ p).isdir = (s p).isdir := by
      rw [hs₁]
      split_ifs with hsize
      · refine ⟨setSize_same hclear hsize.le, ?_, fun p => ?_⟩
        · rw [setSize, Function.update_self]
        · exact setSize_eq Inode.isdir (fun _ _ => rfl) dp _ p
      · exact ⟨.refl s, rfl, fun _ => rfl⟩
    obtain ⟨hsame, hslots, hisdir⟩ := hgrown
    cases hread : env.blkatoff .prepare dp (sizeofDirect * slotOf s dp slot) with
    | some e =>
      rw [hread] at h
      dsimp only at h
      obtain ⟨rfl, rfl⟩ := Prod.mk.inj h
      rw [hslots]
      exact ⟨hsame, hslot, hisdir⟩
    | none =>
      rw [hread] at h
      dsimp only at h
      obtain ⟨hs', rfl⟩ := Prod.mk.inj h
      cases slot with
      | some k =>
        rw [if_neg (by simp)] at hs'
        subst hs'
        rw [hslots]
        exact ⟨hsame, hslot, hisdir⟩
      | none =>
        rw [if_pos (by simp)] at hs'
        subst hs'
        refine ⟨hsame.trans (bzero_same fun j hj _ => ?_), ?_, fun p => ?_⟩
        · rw [hslots]
          exact hclear j hj
        · rw [bzero, Function.update_self]
          dsimp only
          rw [if_pos ⟨le_rfl, Nat.lt_add_of_pos_right (by decide)⟩]
        · rw [← hisdir p]
          exact update_eq Inode.isdir (by rfl) p

/-! ## The `".."` of a directory -/

/-- Where the `".."` cannot be changed, nothing is. -/
theorem dirfixdotdot_eq {dp npdp : ℕ} {opdp : Option ℕ} {e : Errno}
    (h : dirfixdotdot env s dp opdp npdp = (s', some e)) :
    s' = s ∧ dotdotError env s dp npdp = some e := by
  unfold dirfixdotdot at h
  cases herror : dotdotError env s dp npdp with
  | some e =>
    rw [herror] at h
    cases h
    exact ⟨rfl, rfl⟩
  | none =>
    rw [herror] at h
    dsimp only at h
    split_ifs at h
    · cases h
    · cases h
    · cases opdp <;> cases h

/-- The error depends on the directory, and on the number of the new parent. -/
theorem dotdotError_congr {dp npdp : ℕ} (hdp : s' dp = s dp)
    (hnpdp : (s' npdp).i_number = (s npdp).i_number) :
    dotdotError env s' dp npdp = dotdotError env s dp npdp := by
  unfold dotdotError
  rw [hdp, hnpdp]

/-! ## Entering a name that is not there -/

/-- A search that does not find the name keeps a slot that is not in use. -/
theorem searchFrom_absent {tdp : ℕ} {namep : ℕ → ℕ} {slot' : Option ℕ} : ∀ {n k : ℕ}
    {slot : Option ℕ}, (∀ j ∈ slot, ((s tdp).slot j).d_ino = 0) →
      searchFrom env s tdp namep n k slot = .absent slot' →
        ∀ j ∈ slot', ((s tdp).slot j).d_ino = 0
  | 0, _, slot, hslot, h => by
    rw [← Found.absent.inj h]
    exact hslot
  | n + 1, k, slot, hslot, h => by
    unfold searchFrom at h
    dsimp only at h
    -- An empty slot is kept where none has been found yet.
    have hkept : ∀ j ∈ if slot.isNone ∧ ((s tdp).slot k).d_ino = 0 then some k else slot,
        ((s tdp).slot j).d_ino = 0 := by
      intro j hj
      by_cases hempty : slot.isNone ∧ ((s tdp).slot k).d_ino = 0
      · rw [if_pos hempty] at hj
        rw [← Option.mem_some.1 hj]
        exact hempty.2
      · rw [if_neg hempty] at hj
        exact hslot j hj
    split at h
    · cases h
    · by_cases hmangled : dirmangled ((s tdp).slot k)
      · rw [if_pos hmangled] at h
        exact searchFrom_absent hslot h
      · rw [if_neg hmangled] at h
        by_cases hname : ((s tdp).slot k).d_ino ≠ 0 ∧
            strncmp namep ((s tdp).slot k).d_name SVFSDIRSIZ = 0
        · rw [if_pos hname] at h
          by_cases hself : (s tdp).i_number = ((s tdp).slot k).d_ino
          · rw [if_pos hself] at h
            cases h
          · rw [if_neg hself] at h
            split at h <;> cases h
        · rw [if_neg hname] at h
          exact searchFrom_absent hkept h

/-- A name that is not there can be entered in a slot that is not in use. -/
theorem dircheckforname_unused {tdp : ℕ} {namep : ℕ → ℕ} {slot : Option ℕ}
    (hclear : ∀ k, (s tdp).slots ≤ k → ((s tdp).slot k).d_ino = 0)
    (h : dircheckforname env s tdp namep none = .absent slot) : Unused s tdp slot := by
  have hslot := searchFrom_absent (fun j hj => absurd hj (Option.not_mem_none j)) h
  cases slot with
  | none => exact hclear _ le_rfl
  | some k => exact hslot k rfl

/-- An entry that cannot be added. -/
theorem diraddentry_failed {tdp sip : ℕ} {namep : ℕ → ℕ} {slot sdp : Option ℕ} {e : Errno}
    (hclear : ∀ k, (s tdp).slots ≤ k → ((s tdp).slot k).d_ino = 0) (hslot : Unused s tdp slot)
    (h : diraddentry env s tdp namep slot sip sdp = (s', some e)) :
    Same s s' ∧ ∀ p, (s' p).isdir = (s p).isdir := by
  unfold diraddentry at h
  dsimp only at h
  rcases hprep : dirprepareentry env s tdp slot with ⟨s₁, _ | e'⟩
  · obtain ⟨hsame, hunused, hisdir⟩ := dirprepareentry_same hclear hslot hprep
    rw [hprep] at h
    dsimp only at h
    -- Whichever check fails, it has changed nothing, and the slot is cleared.
    have hcleared : s' = setIno s₁ tdp (slotOf s tdp slot) 0 := by
      by_cases hdev : (s₁ tdp).v_vfsp ≠ (s₁ sip).v_vfsp
      · rw [if_pos hdev] at h
        exact (Prod.mk.inj h).1.symm
      · rw [if_neg hdev] at h
        by_cases hdir : (s₁ sip).isdir
        · rw [if_pos hdir] at h
          rcases hfix : dirfixdotdot env s₁ sip sdp tdp with ⟨s₂, _ | e'⟩
          · rw [hfix] at h
            cases h
          · rw [hfix] at h
            rw [← (dirfixdotdot_eq hfix).1]
            exact (Prod.mk.inj h).1.symm
        · rw [if_neg hdir] at h
          cases h
    rw [hcleared]
    refine ⟨hsame.trans (setIno_same hunused), fun p => ?_⟩
    rw [← hisdir p, setIno, setSlot_eq Inode.isdir fun _ _ => rfl]
  · obtain ⟨hsame, -, hisdir⟩ := dirprepareentry_same hclear hslot hprep
    rw [hprep] at h
    cases h
    exact ⟨hsame, hisdir⟩

/-! ## Creating a file -/

/-- A file that the call has made is let go of, and nothing else has changed. -/
theorem irele_same {ip : ℕ} (hlinks : ∀ p, p ≠ ip → (s' p).i_nlink = (s p).i_nlink)
    (hlive : ∀ p, p ≠ ip → ∀ k, (s' p).live k = (s p).live k)
    (hip : (s ip).isdir = false ∧ (s ip).i_nlink = 0) : Same s (irele s' ip) := by
  have hdead : ∀ {x : Inode} {k : ℕ}, x.isdir = false → x.live k = none := fun hx =>
    if_neg fun hlive => Bool.false_ne_true (hx.symm.trans hlive.1)
  refine ⟨fun p => ?_, fun p k => ?_⟩ <;> by_cases hp : p = ip
  · rw [hp, irele, Function.update_self, hip.2]
  · rw [irele, Function.update_of_ne hp, hlinks p hp]
  · rw [hp, irele, Function.update_self, hdead rfl, hdead hip.1]
  · rw [irele, Function.update_of_ne hp, hlive p hp]

/-- To make a prototype directory changes the new inode, and the link count of the parent unless it
    fails. -/
theorem dirmakedirect_of_ne {ip dp p : ℕ} {e : Option Errno}
    (h : dirmakedirect env s ip dp = (s', e)) (hp : p ≠ ip) :
    s' p = if e.isNone then link s dp p else s p := by
  unfold dirmakedirect at h
  cases hbmap : env.bmap .make ip 0 with
  | some e =>
    rw [hbmap] at h
    cases h
    rfl
  | none =>
    rw [hbmap] at h
    dsimp only at h
    cases hread : env.blkatoff .make ip 0 with
    | some e =>
      rw [hread] at h
      cases h
      exact Function.update_of_ne hp _ _
    | none =>
      rw [hread] at h
      cases h
      rw [setSlot, Function.update_of_ne hp, setSlot, Function.update_of_ne hp]
      exact link_congr (Function.update_of_ne hp _ _)

/-- A prototype directory is a directory if the inode is. -/
theorem dirmakedirect_isdir {ip dp : ℕ} {e : Option Errno}
    (h : dirmakedirect env s ip dp = (s', e)) (p : ℕ) : (s' p).isdir = (s p).isdir := by
  unfold dirmakedirect at h
  split at h
  · cases h
    rfl
  · dsimp only at h
    split at h
    · cases h
      exact setSize_eq Inode.isdir (fun _ _ => rfl) ip _ p
    · cases h
      rw [setSlot_eq Inode.isdir fun _ _ => rfl, setSlot_eq Inode.isdir fun _ _ => rfl,
        link_eq Inode.isdir fun _ _ => rfl, setSize_eq Inode.isdir fun _ _ => rfl]

/-- A new inode that cannot be made. The one that `ialloc` returns has no links, and is not a
    directory. -/
theorem dirmakeinode_failed {tdp : ℕ} {vdir : Bool} {e : Errno}
    (hialloc : ∀ p, env.ialloc = .ok p → (s p).isdir = false ∧ (s p).i_nlink = 0)
    (h : dirmakeinode env s tdp vdir = (s', .error e)) : Same s s' := by
  unfold dirmakeinode at h
  cases halloc : env.ialloc with
  | error e' =>
    rw [halloc] at h
    cases h
    exact .refl s
  | ok ip =>
    rw [halloc] at h
    dsimp only at h
    have hother : ∀ p, p ≠ ip → Function.update s ip
        { s ip with isdir := vdir, i_nlink := if vdir then 2 else 1, i_size := 0 } p = s p :=
      fun p hp => Function.update_of_ne hp _ _
    cases vdir with
    | false => cases h
    | true =>
      rw [if_pos rfl] at h
      rcases hmade : dirmakedirect env _ ip tdp with ⟨s₁, _ | e'⟩
      · rw [hmade] at h
        cases h
      · rw [hmade] at h
        cases h
        have hs₁ : ∀ p, p ≠ ip → s₁ p = s p := fun p hp =>
          (dirmakedirect_of_ne hmade hp).trans (hother p hp)
        exact irele_same (fun p hp => by rw [hs₁ p hp]) (fun p hp k => by rw [hs₁ p hp])
          (hialloc ip halloc)

/-- A new inode that has been made: it is as `ialloc` returns it, and the parent has one more link
    if it is a directory. -/
theorem dirmakeinode_ok {tdp ip : ℕ} {vdir : Bool}
    (h : dirmakeinode env s tdp vdir = (s', .ok ip)) :
    env.ialloc = .ok ip ∧ (s' ip).isdir = vdir ∧
      ∀ p, p ≠ ip → s' p = if vdir then link s tdp p else s p := by
  unfold dirmakeinode at h
  cases halloc : env.ialloc with
  | error e' =>
    rw [halloc] at h
    cases h
  | ok ip' =>
    rw [halloc] at h
    dsimp only at h
    cases vdir with
    | false =>
      cases h
      refine ⟨rfl, ?_, fun p hp => Function.update_of_ne hp _ _⟩
      rw [Function.update_self]
    | true =>
      rw [if_pos rfl] at h
      rcases hmade : dirmakedirect env _ ip' tdp with ⟨s₁, _ | e'⟩
      · rw [hmade] at h
        cases h
        refine ⟨rfl, ?_, fun p hp => ?_⟩
        · rw [dirmakedirect_isdir hmade, Function.update_self]
        · rw [dirmakedirect_of_ne hmade hp]
          exact link_congr (Function.update_of_ne hp _ _)
      · rw [hmade] at h
        cases h

/-- A name that cannot be entered. -/
theorem enterNew_failed {tdp sip : ℕ} {namep : ℕ → ℕ} {op : Op} {sdp slot : Option ℕ}
    {vdir ipp : Bool} {e : Errno} {r : Option ℕ} (htdp : (s tdp).isdir)
    (hclear : ∀ k, (s tdp).slots ≤ k → ((s tdp).slot k).d_ino = 0) (hslot : Unused s tdp slot)
    (hialloc : op = .create →
      ∀ p, env.ialloc = .ok p → (s p).isdir = false ∧ (s p).i_nlink = 0)
    (h : enterNew env s tdp namep op sdp sip vdir ipp slot = (s', ⟨some e, r⟩)) : Same s s' := by
  unfold enterNew at h
  split at h
  · cases h
    exact .refl s
  · by_cases hop : op = .create
    · rw [if_pos hop] at h
      rcases hmade : dirmakeinode env s tdp vdir with ⟨s₁, e' | ip⟩
      · rw [hmade] at h
        cases h
        exact dirmakeinode_failed (hialloc hop) hmade
      · rw [hmade] at h
        dsimp only at h
        obtain ⟨halloc, hisdir, hother⟩ := dirmakeinode_ok hmade
        have hip := hialloc hop ip halloc
        have hne : tdp ≠ ip := by
          rintro rfl
          rw [hip.1] at htdp
          cases htdp
        -- The blocks of the parent are as before.
        have hblocks : (s₁ tdp).slots = (s tdp).slots ∧ (s₁ tdp).slot = (s tdp).slot := by
          rw [hother tdp hne]
          cases vdir with
          | false => exact ⟨rfl, rfl⟩
          | true => exact ⟨link_eq Inode.slots (fun _ _ => rfl) tdp tdp,
              link_eq Inode.slot (fun _ _ => rfl) tdp tdp⟩
        rcases hadd : diraddentry env s₁ tdp namep slot ip sdp with ⟨s₂, _ | e'⟩
        · rw [hadd] at h
          cases h
        · obtain ⟨hsame, hsame_isdir⟩ := diraddentry_failed
            (by rw [hblocks.1, hblocks.2]; exact hclear)
            (by rw [Unused, slotOf, hblocks.1, hblocks.2]; exact hslot) hadd
          rw [hadd] at h
          dsimp only at h
          rw [if_pos hop, hsame_isdir, hisdir] at h
          cases h
          cases vdir with
          | false =>
            refine irele_same (fun p hp => ?_) (fun p hp k => ?_) hip
            · rw [if_neg Bool.false_ne_true, hsame.links, hother p hp, if_neg Bool.false_ne_true]
            · rw [if_neg Bool.false_ne_true, hsame.live, hother p hp, if_neg Bool.false_ne_true]
          | true =>
            refine irele_same (fun p hp => ?_) (fun p hp k => ?_) hip
            · rw [if_pos rfl]
              refine unlink_link ?_
              rw [hsame.links, hother p hp, if_pos rfl]
            · rw [if_pos rfl, live_unlink, hsame.live, hother p hp, if_pos rfl, live_link]
    · rw [if_neg hop] at h
      dsimp only at h
      rcases hadd : diraddentry env s tdp namep slot sip sdp with ⟨s₁, _ | e'⟩
      · rw [hadd] at h
        cases h
      · rw [hadd] at h
        dsimp only at h
        rw [if_neg hop] at h
        cases h
        exact (diraddentry_failed hclear hslot hadd).1

/-! ## Renaming onto a name that is there -/

/-- The directories when the entry `k` of `tdp` has been rewritten, `tip` has lost its links and its
    blocks, and `tdp` the link of its `".."`. -/
def rewritten (s : Incore) (tdp tip k ino : ℕ) : Incore :=
  unlink (setSize (unlink (unlink (setIno s tdp k ino) tip) tip) tip 0) tdp

theorem rewritten_of_ne {tdp tip k ino p : ℕ} (htdp : p ≠ tdp) (htip : p ≠ tip) :
    rewritten s tdp tip k ino p = s p := by
  rw [rewritten, unlink_of_ne htdp, setSize, Function.update_of_ne htip, unlink_of_ne htip,
    unlink_of_ne htip, setIno, setSlot, Function.update_of_ne htdp]

theorem rewritten_i_number (tdp tip k ino p : ℕ) :
    (rewritten s tdp tip k ino p).i_number = (s p).i_number := by
  rw [rewritten, unlink_eq Inode.i_number fun _ _ => rfl, setSize_eq Inode.i_number fun _ _ => rfl,
    unlink_eq Inode.i_number fun _ _ => rfl, unlink_eq Inode.i_number fun _ _ => rfl, setIno,
    setSlot_eq Inode.i_number fun _ _ => rfl]

/-- Before the panic, `tip` has two links less. -/
theorem unlink_twice (tdp tip k ino : ℕ) :
    (unlink (unlink (setIno s tdp k ino) tip) tip tip).i_nlink = (s tip).i_nlink - 2 := by
  have hset : (setIno s tdp k ino tip).i_nlink = (s tip).i_nlink :=
    setSlot_eq Inode.i_nlink (fun _ _ => rfl) tdp k _ tip
  rw [unlink_self, unlink_self, hset]
  generalize (s tip).i_nlink = n
  bv_omega

/-- The links of `tip` are not what they were. -/
theorem rewritten_i_nlink (tdp tip k ino : ℕ) :
    (rewritten s tdp tip k ino tip).i_nlink ≠ (s tip).i_nlink := by
  have hsize : (setSize (unlink (unlink (setIno s tdp k ino) tip) tip) tip 0 tip).i_nlink =
      (s tip).i_nlink - 2 := by
    rw [← unlink_twice tdp tip k ino]
    exact setSize_eq Inode.i_nlink (fun _ _ => rfl) tip 0 tip
  rw [rewritten]
  by_cases hself : tip = tdp
  · subst hself
    rw [unlink_self, hsize]
    generalize (s tip).i_nlink = n
    bv_omega
  · rw [unlink_of_ne hself, hsize]
    generalize (s tip).i_nlink = n
    bv_omega

/-- The directory `sip` passes all checks for a rename onto the directory `tip`, in a `tdp` that is
    not its parent, but its `".."` cannot be changed. -/
def Stranded (env : Env) (s : Incore) (sdp : Option ℕ) (sip tdp tip : ℕ) : Prop :=
  renameError env s sip tdp tip = none ∧ (s sip).isdir ∧ (s tip).i_nlink = 2 ∧ sdp ≠ some tdp ∧
    dotdotError env s sip tdp ≠ none

/-- A rename that fails has changed nothing, or it is stuck at the `".."`. -/
theorem dirrename_failed {sdp : Option ℕ} {sip tdp tip k : ℕ} {e : Errno} (htip : sip ≠ tip)
    (htdp : (s sip).isdir → sdp ≠ some tdp → sip ≠ tdp)
    (h : dirrename env s sdp sip tdp tip k = some (s', some e)) :
    s' = s ∨ Stranded env s sdp sip tdp tip := by
  unfold dirrename at h
  cases herror : renameError env s sip tdp tip with
  | some e' =>
    rw [herror] at h
    cases h
    exact .inl rfl
  | none =>
    rw [herror] at h
    dsimp only at h
    by_cases hdir : (s sip).isdir
    · rw [if_pos hdir] at h
      rw [unlink_twice] at h
      by_cases hlinks : (s tip).i_nlink - 2 ≠ 0
      · rw [if_pos hlinks] at h
        cases h
      · rw [if_neg hlinks] at h
        by_cases hparent : sdp ≠ some tdp
        · rw [if_pos hparent] at h
          refine .inr ⟨herror, hdir, ?_, hparent, ?_⟩
          · revert hlinks
            generalize (s tip).i_nlink = n
            bv_omega
          · have hfix : dotdotError env (rewritten s tdp tip k (s sip).i_number) sip tdp = some e :=
              (dirfixdotdot_eq (Option.some.inj h)).2
            rw [dotdotError_congr (rewritten_of_ne (htdp hdir hparent) htip)
              (rewritten_i_number tdp tip k _ tdp)] at hfix
            rw [hfix]
            exact Option.some_ne_none e
        · rw [if_neg hparent] at h
          cases h
    · rw [if_neg hdir] at h
      cases h

/-- A rename that is stuck at the `".."` fails when it has changed the entry and the links. -/
theorem Stranded.failed {sdp : Option ℕ} {sip tdp tip : ℕ} (k : ℕ) (htip : sip ≠ tip)
    (htdp : sip ≠ tdp) (h : Stranded env s sdp sip tdp tip) :
    ∃ e, dirrename env s sdp sip tdp tip k =
      some (rewritten s tdp tip k (s sip).i_number, some e) := by
  obtain ⟨herror, hdir, hlinks, hparent, hdotdot⟩ := h
  obtain ⟨e, he⟩ := Option.ne_none_iff_exists'.1 hdotdot
  refine ⟨e, ?_⟩
  have hfix : dirfixdotdot env (rewritten s tdp tip k (s sip).i_number) sip sdp tdp =
      (rewritten s tdp tip k (s sip).i_number, some e) := by
    rw [dirfixdotdot, dotdotError_congr (rewritten_of_ne htdp htip)
      (rewritten_i_number tdp tip k _ tdp), he]
  rw [← hfix, dirrename, herror]
  dsimp only
  rw [if_pos hdir, unlink_twice, hlinks, if_neg (by decide), if_pos hparent, rewritten]

/-! ## Calls -/

/-- The name is that of a directory that the rename is stuck with. -/
def LockedStrands (env : Env) (s : Incore) (tdp : ℕ) (namep : ℕ → ℕ) (sdp : Option ℕ) (sip : ℕ) :
    Prop :=
  enterError env s tdp .rename sdp sip = none ∧
    ∃ k tip, dircheckforname env s tdp namep none = .exist k tip ∧
      (s sip).i_number ≠ (s tip).i_number ∧ Stranded env s sdp sip tdp tip

/-- The call renames a directory onto an empty one of another parent; all checks pass, but its
    `".."` cannot be changed. -/
def Call.Strands (env : Env) (s : Incore) : Call → Prop
  | .enter tdp namep op sdp sip _ _ =>
    op = .rename ∧ ¬(strncmp namep dot 2 = 0 ∨ strncmp namep dotdot 3 = 0) ∧
      dirbadname namep SVFSDIRSIZ = false ∧ (s sip).i_nlink ≠ 0 ∧
        LockedStrands env (link s sip) tdp namep sdp sip
  | .remove .. => False

/-- The checks pass for a directory only if it is not the target. -/
theorem ne_of_enterError {tdp sip : ℕ} {sdp : Option ℕ}
    (h : enterError env s tdp .rename sdp sip = none) (hdir : (s sip).isdir)
    (hparent : sdp ≠ some tdp) : sip ≠ tdp := by
  rintro rfl
  unfold enterError at h
  rw [hdir, if_neg Bool.true_eq_false.mp] at h
  by_cases hnlink : (s sip).i_nlink = 0
  · rw [if_pos hnlink] at h
    cases h
  · rw [if_neg hnlink] at h
    split at h
    · cases h
    · rw [if_pos ⟨rfl, rfl, hparent⟩] at h
      split at h
      · cases h
      · rw [dircheckpath, if_pos rfl] at h
        cases h

/-- Only directories are entered. -/
theorem isdir_of_enterError {tdp sip : ℕ} {op : Op} {sdp : Option ℕ}
    (h : enterError env s tdp op sdp sip = none) : (s tdp).isdir := by
  unfold enterError at h
  by_contra hisdir
  rw [if_pos (Bool.eq_false_iff.2 hisdir)] at h
  cases h

theorem enterExisting_failed {tdp sip tip k : ℕ} {op : Op} {sdp : Option ℕ} {ipp : Bool} {e : Errno}
    {r : Option ℕ} (herror : enterError env s tdp op sdp sip = none)
    (h : enterExisting env s tdp op sdp sip tip k ipp = some (s', ⟨some e, r⟩)) :
    s' = s ∨ op = .rename ∧ (s sip).i_number ≠ (s tip).i_number ∧
      Stranded env s sdp sip tdp tip := by
  cases op with
  | create =>
    left
    cases ipp <;> cases h
    rfl
  | link =>
    cases h
    exact .inl rfl
  | rename =>
    unfold enterExisting at h
    dsimp only at h
    by_cases hsame : (s sip).i_number = (s tip).i_number
    · rw [if_pos hsame] at h
      cases h
      exact .inl rfl
    · rw [if_neg hsame] at h
      obtain ⟨⟨s₁, e₁⟩, hrename, hret⟩ := Option.map_eq_some_iff.1 h
      cases hret
      have hne : sip ≠ tip := by
        rintro rfl
        exact hsame rfl
      rcases dirrename_failed hne (ne_of_enterError herror) hrename with heq | hstranded
      · exact .inl heq
      · exact .inr ⟨rfl, hsame, hstranded⟩

theorem enterLocked_failed {tdp sip : ℕ} {namep : ℕ → ℕ} {op : Op} {sdp : Option ℕ}
    {vdir ipp : Bool} {e : Errno} {r : Option ℕ} (hclear : Clear s)
    (hialloc : op = .create →
      ∀ p, env.ialloc = .ok p → (s p).isdir = false ∧ (s p).i_nlink = 0)
    (h : enterLocked env s tdp namep op sdp sip vdir ipp = some (s', ⟨some e, r⟩)) :
    Same s s' ∨ op = .rename ∧ LockedStrands env s tdp namep sdp sip := by
  unfold enterLocked at h
  cases herror : enterError env s tdp op sdp sip with
  | some e' =>
    rw [herror] at h
    cases h
    exact .inl (.refl s)
  | none =>
    rw [herror] at h
    dsimp only at h
    have hcleared := hclear tdp (isdir_of_enterError herror)
    cases hfound : dircheckforname env s tdp namep none with
    | failed e' =>
      rw [hfound] at h
      cases h
      exact .inl (.refl s)
    | exist k tip =>
      rw [hfound] at h
      rcases enterExisting_failed herror h with rfl | ⟨rfl, hne, hstranded⟩
      · exact .inl (.refl s')
      · exact .inr ⟨rfl, herror, k, tip, hfound, hne, hstranded⟩
    | absent slot =>
      rw [hfound] at h
      exact .inl (enterNew_failed (isdir_of_enterError herror) hcleared
        (dircheckforname_unused hcleared hfound) hialloc (Option.some.inj h))

theorem direnter_failed {tdp sip : ℕ} {namep : ℕ → ℕ} {op : Op} {sdp : Option ℕ} {vdir ipp : Bool}
    {e : Errno} {r : Option ℕ} (hclear : Clear s)
    (hialloc : ∀ p, env.ialloc = .ok p → (s p).isdir = false ∧ (s p).i_nlink = 0)
    (h : direnter env s tdp namep op sdp sip vdir ipp = some (s', ⟨some e, r⟩)) :
    Same s s' ∨ Call.Strands env s (.enter tdp namep op sdp sip vdir ipp) := by
  unfold direnter at h
  by_cases hdots : strncmp namep dot 2 = 0 ∨ strncmp namep dotdot 3 = 0
  · rw [if_pos hdots] at h
    left
    split_ifs at h
    · cases h
      exact .refl s
    · split at h <;> cases h <;> exact .refl s
    · cases h
      exact .refl s
  · rw [if_neg hdots] at h
    by_cases hbad : dirbadname namep SVFSDIRSIZ
    · rw [if_pos hbad] at h
      cases h
      exact .inl (.refl s)
    · rw [if_neg hbad] at h
      by_cases hop : op = .create
      · rw [if_pos hop] at h
        rcases enterLocked_failed hclear (fun _ => hialloc) h with hsame | ⟨rfl, -⟩
        · exact .inl hsame
        · cases hop
      · rw [if_neg hop] at h
        by_cases hnlink : (s sip).i_nlink = 0
        · rw [if_pos hnlink] at h
          cases h
          exact .inl (.refl s)
        · rw [if_neg hnlink] at h
          obtain ⟨⟨s₁, r₁⟩, hlocked, hret⟩ := Option.map_eq_some_iff.1 h
          obtain ⟨rfl, rfl⟩ := Prod.mk.inj hret
          rcases enterLocked_failed (hclear.link sip) (fun hcreate => absurd hcreate hop) hlocked
            with hsame | ⟨rfl, hstrands⟩
          · exact .inl hsame.unlink
          · exact .inr ⟨rfl, hdots, Bool.eq_false_iff.2 hbad, hnlink, hstrands⟩

/-- A name that cannot be removed. -/
theorem dirremove_failed {dp : ℕ} {namep : ℕ → ℕ} {oip : Option ℕ} {rmdir : Bool} {e : Errno}
    (h : dirremove env s dp namep oip rmdir = (s', some e)) : s' = s := by
  unfold dirremove at h
  dsimp only at h
  split_ifs at h with hdot hdotdot hisdir
  · exact (Prod.mk.inj h).1.symm
  · exact (Prod.mk.inj h).1.symm
  · exact (Prod.mk.inj h).1.symm
  · split at h
    · exact (Prod.mk.inj h).1.symm
    · split at h
      · exact (Prod.mk.inj h).1.symm
      · exact (Prod.mk.inj h).1.symm
      · split at h
        · exact (Prod.mk.inj h).1.symm
        · split_ifs at h <;> cases h

/-- A rename that strands the directory fails, and the directory that had the name has lost its
    links. -/
theorem Call.Strands.failed {tdp sip : ℕ} {namep : ℕ → ℕ} {op : Op} {sdp : Option ℕ}
    {vdir ipp : Bool} (h : Call.Strands env s (.enter tdp namep op sdp sip vdir ipp)) :
    ∃ s' e tip, direnter env s tdp namep op sdp sip vdir ipp = some (s', ⟨some e, none⟩) ∧
      (s' tip).i_nlink ≠ (s tip).i_nlink := by
  obtain ⟨rfl, hdots, hbad, hnlink, herror, k, tip, hfound, hnumber, hstranded⟩ := h
  have hne : sip ≠ tip := by
    rintro rfl
    exact hnumber rfl
  have htdp : sip ≠ tdp := ne_of_enterError herror hstranded.2.1 hstranded.2.2.2.1
  obtain ⟨e, he⟩ := hstranded.failed k hne htdp
  refine ⟨unlink (rewritten (link s sip) tdp tip k (link s sip sip).i_number) sip, e, tip, ?_, ?_⟩
  · rw [direnter, if_neg hdots, hbad, if_neg Bool.false_ne_true, if_neg (by decide), if_neg hnlink,
      enterLocked, herror]
    dsimp only
    rw [hfound]
    dsimp only [enterExisting]
    rw [if_neg hnumber, he]
    rfl
  · rw [unlink_of_ne hne.symm]
    have hlinked : (link s sip tip).i_nlink = (s tip).i_nlink := by rw [link_of_ne hne.symm]
    rw [← hlinked]
    exact rewritten_i_nlink tdp tip k _

/-- A call that fails leaves the entries and the link counts as they were, if and only if it is not
    a rename of a directory onto an empty one of another parent that passes all checks, and the
    `".."` cannot be changed. -/
theorem failed_iff (env : Env) (s : Incore) (c : Call) (hclear : Clear s)
    (hialloc : ∀ p, env.ialloc = .ok p → (s p).isdir = false ∧ (s p).i_nlink = 0) :
    (∀ s' e r, c.run env s = some (s', ⟨some e, r⟩) → Same s s') ↔ ¬ c.Strands env s := by
  cases c with
  | enter tdp namep op sdp sip vdir ipp =>
    constructor
    · intro hfailed hstrands
      obtain ⟨s', e, tip, hrun, hlinks⟩ := hstrands.failed
      exact hlinks ((hfailed s' e none hrun).links tip)
    · intro hstrands s' e r hrun
      exact (direnter_failed hclear hialloc hrun).resolve_right hstrands
  | remove dp namep oip rmdir =>
    refine iff_of_true (fun s' e r hrun => ?_) not_false
    rcases hremove : dirremove env s dp namep oip rmdir with ⟨s₁, e₁⟩
    rw [Call.run, hremove] at hrun
    cases hrun
    rw [dirremove_failed hremove]
    exact .refl s

/-- A directory with entries. -/
def directory (i_number : ℕ) (i_nlink : BitVec 16) (entries : List (ℕ × List ℕ)) : Inode :=
  { i_number := i_number, v_vfsp := 0, i_dev := 0, s_type := Fs2b, isdir := true
    i_nlink := i_nlink, i_size := sizeofDirect * entries.length
    slot := fun k => ⟨(entries.getD k (0, [])).1, fun i => (entries.getD k (0, [])).2.getD i 0⟩ }

/-- The root with the empty directory `"b"`, another directory with the directory `"a"`, and these
    two. -/
def twoParents : Incore
  | 0 => directory 2 4 [(2, [46]), (2, [46, 46]), (3, [99]), (5, [98])]
  | 1 => directory 3 3 [(3, [46]), (2, [46, 46]), (4, [97])]
  | 2 => directory 4 2 [(4, [46]), (3, [46, 46])]
  | 3 => directory 5 2 [(5, [46]), (2, [46, 46])]
  | _ => { directory 0 0 [] with isdir := false }

theorem twoParents_clear : Clear twoParents := by
  have hclear : ∀ i_number i_nlink entries k, (directory i_number i_nlink entries).slots ≤ k →
      ((directory i_number i_nlink entries).slot k).d_ino = 0 := by
    intro i_number i_nlink entries k hk
    have hle : entries.length ≤ k := by
      refine le_trans ?_ hk
      simp only [Inode.slots, directory, roundup, DIRBLKSIZ, DEV_BSIZE, sizeofDirect, SVFSDIRSIZ]
      omega
    simp only [directory, List.getD_eq_default _ _ hle]
  intro p _ k hk
  rcases p with _ | _ | _ | _ | p
  · exact hclear _ _ _ k hk
  · exact hclear _ _ _ k hk
  · exact hclear _ _ _ k hk
  · exact hclear _ _ _ k hk
  · exact hclear 0 0 [] k hk

/-- Everything can be read, but for the `".."` of a directory if it is the one to be changed. -/
def readable (dotdot : Option Errno) : Env :=
  { iaccess := fun _ _ => none, path := none, dirlook := .error .enoent
    iget := fun ino => .ok (ino - 2), ialloc := .ok 4
    blkatoff := fun r _ _ => if r = .dotdot then dotdot else none, bmap := fun _ _ _ => none
    rdwri := fun _ _ => false, vtext := fun _ => false }

/-- Entering a file under a name that is there. -/
theorem failed_iff_link :
    Clear twoParents ∧
      ((∀ s' e r, Call.run (readable none) twoParents
        (.enter 0 (fun i => if i = 0 then 98 else 0) .link none 2 false false) =
          some (s', ⟨some e, r⟩) → Same twoParents s') ↔
        ¬ Call.Strands (readable none) twoParents
          (.enter 0 (fun i => if i = 0 then 98 else 0) .link none 2 false false)) := by
  refine ⟨twoParents_clear, failed_iff _ _ _ twoParents_clear fun p hp => ?_⟩
  cases hp
  decide

/-- Renaming `"a"` to `"b"` in the root, where the first block of `"a"` cannot be read. -/
theorem not_failed :
    ¬ ∀ (env : Env) (s : Incore) (c : Call), Clear s →
      (∀ p, env.ialloc = .ok p → (s p).isdir = false ∧ (s p).i_nlink = 0) →
        ∀ s' e r, c.run env s = some (s', ⟨some e, r⟩) → Same s s' := by
  intro hall
  have hstrands : Call.Strands (readable (some .eio)) twoParents
      (.enter 0 (fun i => if i = 0 then 98 else 0) .rename (some 1) 2 false false) := by
    refine ⟨rfl, by decide, by decide, by decide, by decide, 3, 3, by decide, by decide, ?_⟩
    exact ⟨by decide, by decide, by decide, by decide, by decide⟩
  obtain ⟨s', e, tip, hrun, hlinks⟩ := hstrands.failed
  have hsame : Same twoParents s' := by
    refine hall (readable (some .eio)) twoParents
      (.enter 0 (fun i => if i = 0 then 98 else 0) .rename (some 1) 2 false false) twoParents_clear
      (fun p hp => ?_) s' e none hrun
    cases hp
    decide
  exact hlinks (hsame.links tip)

end AuxKernel.Svfs.Direnter
