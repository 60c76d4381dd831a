import AuxKernel.Route.Basic
import Mathlib.Data.Finset.Card
import Mathlib.Data.List.Count

/-!
# Counts of the references to routes

An entry's reference count is the number of route structures that have it, an entry is freed once,
when it is out of its chain and no route structure has it any more, and `rttrash` is the number of
entries which are out of their chains and still held (`Counted`).

`rtalloc` does not give up what the route structure had before. Where that is an entry that has
been deleted, or one without an interface, the reference is lost (`not_counted_again`). All of it
holds in the runs where no one calls it so (`Act.Ok`, `counted_of_ok`). The invariant (`Inv`) is
about a number `h e` of references to each entry `e`, of which those of the route structures are
one instance: `rtredirect` has one more, of its own, while it runs.
-/

namespace AuxKernel.Route

variable {α ι : Type}

/-- How many of the route structures have the entry. -/
def holders (l : List (Ro α)) (e : ℕ) : ℕ := l.countP fun ro => ro.ro_rt = some e

/-- The entry is in a chain. -/
def Rtab.Linked (s : Rtab α ι) (e : ℕ) : Prop := ∃ host k, e ∈ s.chain host k

/-- The entry's memory is its own. -/
def Rtab.Alive (s : Rtab α ι) (e : ℕ) : Prop := e < s.nalloc ∧ e ∉ s.freed

open Classical in
/-- What the counts say. -/
structure Counted (s : State α ι) : Prop where
  /-- A count is the number of the route structures. -/
  refcnt : ∀ e, s.tab.Alive e → (s.tab.rt e).rt_refcnt = holders s.routes e
  /-- A route structure has no entry that has been freed. -/
  alive : ∀ ro ∈ s.routes, ∀ e ∈ ro.ro_rt, s.tab.Alive e
  /-- An entry is freed once, if it is deleted and no one has it, and not before. -/
  freed : ∀ e < s.tab.nalloc,
    s.tab.freed.count e = if ¬s.tab.Linked e ∧ holders s.routes e = 0 then 1 else 0
  /-- The entries that are deleted and still held. -/
  rttrash : s.tab.rttrash =
    ((Finset.range s.tab.nalloc).filter fun e => ¬s.tab.Linked e ∧ 0 < holders s.routes e).card

/-! ## The invariant -/

/-- The entries that are deleted and still held, by their flags. -/
def Rtab.trash (s : Rtab α ι) (h : ℕ → ℕ) : Finset ℕ :=
  (Finset.range s.nalloc).filter fun e => (s.rt e).rtf_up = false ∧ 0 < h e

theorem Rtab.mem_trash {s : Rtab α ι} {h : ℕ → ℕ} {e : ℕ} :
    e ∈ s.trash h ↔ e < s.nalloc ∧ (s.rt e).rtf_up = false ∧ 0 < h e := by
  rw [trash, Finset.mem_filter, Finset.mem_range]

/-- The table is sound where there are `h e` references to the entry `e`. -/
structure Inv (s : Rtab α ι) (h : ℕ → ℕ) : Prop where
  chain : ∀ host k e, e ∈ s.chain host k ↔ s.Alive e ∧ (s.rt e).rtf_up = true ∧
    (s.rt e).rtf_host = host ∧ (s.rt e).rt_hash % RTHASHSIZ = k
  nodup : ∀ host k, (s.chain host k).Nodup
  refcnt : ∀ e, s.Alive e → (s.rt e).rt_refcnt = toShort (h e)
  lt : ∀ e, h e < 2 ^ 16
  alive : ∀ e, 0 < h e → s.Alive e
  held : ∀ e, s.Alive e → (s.rt e).rtf_up = false → 0 < h e
  freed_nodup : s.freed.Nodup
  freed_lt : ∀ e ∈ s.freed, e < s.nalloc
  rttrash : s.rttrash = (s.trash h).card

/-- One reference to `e`. -/
def one (e : Option ℕ) (e' : ℕ) : ℕ := if e = some e' then 1 else 0

@[simp]
theorem one_none (e : ℕ) : one none e = 0 := rfl

@[simp]
theorem one_self (e : ℕ) : one (some e) e = 1 := if_pos rfl

theorem one_of_ne {e e' : ℕ} (h : e' ≠ e) : one (some e) e' = 0 :=
  if_neg fun he => h (Option.some.inj he).symm

theorem one_le (e : Option ℕ) (e' : ℕ) : one e e' ≤ 1 := by
  rw [one]
  split <;> decide

theorem toShort_succ (n : ℤ) : toShort (toShort n + 1) = toShort (n + 1) := by
  simp [toShort]

theorem toShort_pred (n : ℕ) : toShort (toShort ((n + 1 : ℕ) : ℤ) - 1) = toShort n := by
  simp [toShort]

theorem toShort_eq_zero {n : ℕ} (hn : n < 2 ^ 16) : toShort n = 0 ↔ n = 0 := by
  rw [toShort, Int.bmod_def]
  split <;> omega

theorem toShort_eq_one {n : ℕ} (hn : n < 2 ^ 16) : toShort n = 1 ↔ n = 1 := by
  rw [toShort, Int.bmod_def]
  split <;> omega

namespace Inv

variable {s : Rtab α ι} {h g : ℕ → ℕ} {e : ℕ}

theorem congr (hs : Inv s h) (hh : ∀ e, h e = g e) : Inv s g := by
  have : h = g := funext hh
  exact this ▸ hs

/-- An entry in a chain is one that has not been deleted. -/
theorem linked_iff (hs : Inv s h) : s.Linked e ↔ s.Alive e ∧ (s.rt e).rtf_up = true := by
  constructor
  · rintro ⟨host, k, he⟩
    exact ⟨((hs.chain host k e).1 he).1, ((hs.chain host k e).1 he).2.1⟩
  · rintro ⟨ha, hup⟩
    exact ⟨_, _, (hs.chain _ _ e).2 ⟨ha, hup, rfl, rfl⟩⟩

/-- Nothing that the table depends on changes in `rt`. -/
theorem set (hs : Inv s h) {rt : Rt α ι} (hup : rt.rtf_up = (s.rt e).rtf_up)
    (hhost : rt.rtf_host = (s.rt e).rtf_host) (hhash : rt.rt_hash = (s.rt e).rt_hash)
    (hg : ∀ e', e' ≠ e → g e' = h e') (hlt : g e < 2 ^ 16)
    (hcnt : s.Alive e → rt.rt_refcnt = toShort (g e)) (halive : 0 < g e → s.Alive e)
    (hheld : s.Alive e → rt.rtf_up = false → 0 < h e ∧ 0 < g e) :
    Inv (s.set e rt) g := by
  have hflags (e' : ℕ) : ((s.set e rt).rt e').rtf_up = (s.rt e').rtf_up ∧
      ((s.set e rt).rt e').rtf_host = (s.rt e').rtf_host ∧
      ((s.set e rt).rt e').rt_hash = (s.rt e').rt_hash := by
    by_cases he : e' = e
    · subst he
      simp [Rtab.set, hup, hhost, hhash]
    · simp [Rtab.set, Function.update_of_ne he]
  refine ⟨fun host k e' => ?_, hs.nodup, fun e' ha => ?_, fun e' => ?_, fun e' hpos => ?_,
    fun e' ha hup' => ?_, hs.freed_nodup, hs.freed_lt, ?_⟩
  · rw [(hflags e').1, (hflags e').2.1, (hflags e').2.2]
    exact hs.chain host k e'
  · by_cases he : e' = e
    · subst he
      simpa [Rtab.set] using hcnt ha
    · rw [hg e' he]
      simpa [Rtab.set, Function.update_of_ne he] using hs.refcnt e' ha
  · by_cases he : e' = e
    · exact he ▸ hlt
    · exact hg e' he ▸ hs.lt e'
  · by_cases he : e' = e
    · subst he
      exact halive hpos
    · exact hs.alive e' (hg e' he ▸ hpos)
  · rw [(hflags e').1] at hup'
    by_cases he : e' = e
    · subst he
      exact (hheld ha (hup.trans hup')).2
    · exact hg e' he ▸ hs.held e' ha hup'
  · have : (s.set e rt).trash g = s.trash h := by
      ext e'
      simp only [Rtab.mem_trash, (hflags e').1]
      refine and_congr_right fun hlt' => and_congr_right fun hup' => ?_
      by_cases he : e' = e
      · subst he
        -- An entry that has been freed has no references, neither before nor after.
        by_cases ha : s.Alive e'
        · exact iff_of_true (hheld ha (hup.trans hup')).2 (hheld ha (hup.trans hup')).1
        · exact iff_of_false (fun hp => ha (halive hp)) fun hp => ha (hs.alive e' hp)
      · rw [hg e' he]
    rw [this]
    exact hs.rttrash

/-- A change of an entry that leaves its count alone. -/
theorem write (hs : Inv s h) (rt : Rt α ι) (hup : rt.rtf_up = (s.rt e).rtf_up)
    (hhost : rt.rtf_host = (s.rt e).rtf_host) (hhash : rt.rt_hash = (s.rt e).rt_hash)
    (hcnt : rt.rt_refcnt = (s.rt e).rt_refcnt) : Inv (s.set e rt) h :=
  hs.set hup hhost hhash (fun _ _ => rfl) (hs.lt e) (fun ha => hcnt.trans (hs.refcnt e ha))
    (hs.alive e) fun ha hf => ⟨hs.held e ha (hup ▸ hf), hs.held e ha (hup ▸ hf)⟩

/-- One reference more. -/
theorem hold (hs : Inv s g) (ha : s.Alive e) (hlt : g e + 1 < 2 ^ 16) :
    Inv (s.hold e) fun e' => g e' + one (some e) e' := by
  refine hs.set rfl rfl rfl (fun e' he => ?_) ?_ (fun ha => ?_) (fun _ => ha) fun ha hup => ?_
  · rw [one_of_ne he, Nat.add_zero]
  · rwa [one_self]
  · rw [one_self, hs.refcnt e ha, toShort_succ]
    push_cast
    rfl
  · rw [one_self]
    exact ⟨hs.held e ha hup, Nat.succ_pos _⟩

/-- One reference less, where this is not the last one to an entry that has been deleted. -/
theorem drop (hs : Inv s fun e' => g e' + one (some e) e')
    (hlast : (s.rt e).rtf_up = false → 0 < g e) : Inv (s.drop e) g := by
  have hcnt := hs.refcnt e
  have hlt := hs.lt e
  simp only [one_self] at hcnt hlt
  refine hs.set rfl rfl rfl (fun e' he => ?_) (Nat.lt_of_succ_lt hlt) (fun ha => ?_) (fun _ => ?_)
    fun ha hup => ⟨?_, hlast hup⟩
  · rw [one_of_ne he, Nat.add_zero]
  · rw [hcnt ha, toShort_pred]
  · exact hs.alive e (by simp)
  · simp

/-- Giving up a reference, the last one of which frees an entry that has been deleted. -/
theorem rtfree (hs : Inv s fun e' => g e' + one (some e) e') : Inv (s.rtfree e) g := by
  have ha : s.Alive e := hs.alive e (by simp)
  have hcnt := hs.refcnt e ha
  have hlt := hs.lt e
  simp only [one_self] at hcnt hlt
  have hzero : ((s.drop e).rt e).rt_refcnt = 0 ↔ g e = 0 := by
    rw [← toShort_eq_zero (Nat.lt_of_succ_lt hlt), ← toShort_pred, ← hcnt]
    simp [Rtab.drop, Rtab.set]
  have hup : ((s.drop e).rt e).rtf_up = (s.rt e).rtf_up := by simp [Rtab.drop, Rtab.set]
  rw [Rtab.rtfree]
  by_cases hlast : g e = 0 ∧ (s.rt e).rtf_up = false
  · rw [if_pos ⟨hzero.2 hlast.1, by simp [hup, hlast.2]⟩]
    have hflags (e' : ℕ) : ((s.drop e).rt e').rtf_up = (s.rt e').rtf_up ∧
        ((s.drop e).rt e').rtf_host = (s.rt e').rtf_host ∧
        ((s.drop e).rt e').rt_hash = (s.rt e').rt_hash := by
      by_cases he : e' = e
      · subst he
        simp [Rtab.drop, Rtab.set]
      · simp [Rtab.drop, Rtab.set, Function.update_of_ne he]
    have halive (e' : ℕ) : Rtab.Alive { s.drop e with
        rttrash := (s.drop e).rttrash - 1, freed := (s.drop e).freed ++ [e] } e' ↔
        s.Alive e' ∧ e' ≠ e := by
      simp [Rtab.Alive, Rtab.drop, Rtab.set, and_assoc]
    have hpos (e' : ℕ) : 0 < g e' ↔ 0 < g e' + one (some e) e' ∧ e' ≠ e := by
      by_cases he : e' = e
      · subst he
        simp [hlast.1]
      · simp [one_of_ne he, he]
    refine ⟨fun host k e' => ?_, hs.nodup, fun e' h' => ?_, fun e' => ?_, fun e' h' => ?_,
      fun e' h' hup' => ?_, ?_, fun e' h' => ?_, ?_⟩
    · rw [halive]
      have := hs.chain host k e'
      simp only [(hflags e').1, (hflags e').2.1, (hflags e').2.2]
      refine this.trans ⟨fun ⟨h₁, h₂, h₃⟩ => ⟨⟨h₁, fun he => ?_⟩, h₂, h₃⟩,
        fun ⟨⟨h₁, _⟩, h₂, h₃⟩ => ⟨h₁, h₂, h₃⟩⟩
      subst he
      simp [hlast.2] at h₂
    · obtain ⟨h', he⟩ := (halive e').1 h'
      have := hs.refcnt e' h'
      rw [one_of_ne he, Nat.add_zero] at this
      simpa [Rtab.drop, Rtab.set, Function.update_of_ne he] using this
    · exact (Nat.le_add_right _ _).trans_lt (hs.lt e')
    · exact (halive e').2 ⟨hs.alive e' ((hpos e').1 h').1, ((hpos e').1 h').2⟩
    · obtain ⟨h', he⟩ := (halive e').1 h'
      exact (hpos e').2 ⟨hs.held e' h' ((hflags e').1 ▸ hup'), he⟩
    · exact List.nodup_append.2 ⟨hs.freed_nodup, List.nodup_singleton e, fun a h₁ b h₂ => by
        rw [List.mem_singleton.1 h₂]
        exact fun hab => ha.2 (hab ▸ h₁)⟩
    · rcases List.mem_append.1 h' with h' | h'
      · exact hs.freed_lt e' h'
      · exact List.mem_singleton.1 h' ▸ ha.1
    · -- It was one of the deleted entries that were still held.
      have hmem : e ∈ s.trash fun e' => g e' + one (some e) e' := by
        simp [Rtab.mem_trash, ha.1, hlast.2]
      have htrash : Rtab.trash { s.drop e with
          rttrash := (s.drop e).rttrash - 1, freed := (s.drop e).freed ++ [e] } g =
          (s.trash fun e' => g e' + one (some e) e').erase e := by
        ext e'
        simp only [Rtab.mem_trash, Finset.mem_erase, (hflags e').1, hpos e']
        exact ⟨fun ⟨h₁, h₂, h₃, h₄⟩ => ⟨h₄, h₁, h₂, h₃⟩, fun ⟨h₄, h₁, h₂, h₃⟩ => ⟨h₁, h₂, h₃, h₄⟩⟩
      rw [htrash, Finset.card_erase_of_mem hmem, Nat.cast_sub (Finset.card_pos.2 ⟨e, hmem⟩),
        ← hs.rttrash]
      rfl
  · rw [if_neg fun hc => hlast ⟨hzero.1 hc.1, by simpa [hup] using hc.2⟩]
    refine hs.drop fun hf => Nat.pos_of_ne_zero fun h0 => hlast ⟨h0, hf⟩

/-- What the macro does without calling `rtfree` is what `rtfree` would do. -/
theorem RTFREE_eq (hs : Inv s fun e' => g e' + one (some e) e') : s.RTFREE e = s.rtfree e := by
  rw [Rtab.RTFREE]
  by_cases h1 : (s.rt e).rt_refcnt = 1
  · rw [if_pos h1]
  · have ha : s.Alive e := hs.alive e (by simp)
    have hlt := hs.lt e
    have hcnt := hs.refcnt e ha
    simp only [one_self] at hcnt hlt
    have hne : g e ≠ 0 := fun h0 => h1 (hcnt.trans ((toShort_eq_one hlt).2 (by omega)))
    have hdrop : ((s.drop e).rt e).rt_refcnt ≠ 0 := by
      simp only [Rtab.drop, Rtab.set, Function.update_self, hcnt, toShort_pred, ne_eq,
        toShort_eq_zero (Nat.lt_of_succ_lt hlt)]
      exact hne
    rw [if_neg h1, Rtab.rtfree, if_neg fun hc => hdrop hc.1]

theorem RTFREE (hs : Inv s fun e' => g e' + one (some e) e') : Inv (s.RTFREE e) g :=
  hs.RTFREE_eq ▸ hs.rtfree

end Inv

/-! ## Calls -/

section Calls

variable [DecidableEq α] {afs : Afs α} {if_up : Option ι → Bool} {s : Rtab α ι} {h g : ℕ → ℕ}

theorem findHost_mem {dst : α} {l : List ℕ} {rtmin : Option ℕ} {e : ℕ}
    (h : findHost afs if_up s dst l rtmin = some e) : rtmin = some e ∨ e ∈ l := by
  induction l generalizing rtmin with
  | nil => exact .inl h
  | cons b l ih =>
    rw [findHost] at h
    split at h
    · rcases ih h with h | h
      · exact .inr (Option.some.inj h ▸ List.mem_cons_self)
      · exact .inr (List.mem_cons_of_mem b h)
    · exact (ih h).imp_right (List.mem_cons_of_mem b)

/-- What a lookup finds is in a chain. -/
theorem find_linked {dst : α} {e : ℕ} (h : find afs if_up s dst = some e) : s.Linked e := by
  rw [find, Option.or_eq_some_iff, Option.or_eq_some_iff] at h
  rcases h with h | ⟨_, h | ⟨_, h⟩⟩
  · exact ⟨_, _, (findHost_mem h).resolve_left (Option.some_ne_none e ∘ Eq.symm)⟩
  · exact ⟨_, _, List.mem_of_find?_eq_some h⟩
  · exact ⟨_, _, List.mem_of_find?_eq_some h⟩

/-- The reference that the route structure had is not lost in a lookup: it had none, or the lookup
    leaves it alone. -/
def Ro.Kept (afs : Afs α) (s : Rtab α ι) (ro : Ro α) : Prop :=
  ro.ro_rt = none ∨ ro.usable s = true ∨ afs.AF_MAX ≤ afs.sa_family ro.ro_dst

theorem rtalloc_inv (afs : Afs α) (if_up : Option ι → Bool) {ro : Ro α}
    (hs : Inv s fun e => g e + one ro.ro_rt e) (hkept : ro.Kept afs s)
    (hlt : ∀ e, g e + 1 < 2 ^ 16) :
    Inv (rtalloc afs if_up s ro).2 fun e => g e + one (rtalloc afs if_up s ro).1.ro_rt e := by
  rw [rtalloc]
  by_cases huse : ro.usable s ∨ afs.sa_family ro.ro_dst ≥ afs.AF_MAX
  · rw [if_pos huse]
    exact hs
  · have hnone : ro.ro_rt = none := hkept.resolve_right huse
    rw [if_neg huse]
    cases hf : find afs if_up s ro.ro_dst with
    | none => exact hs.congr fun e => by rw [hnone]
    | some e =>
      have hs' : Inv s g := hs.congr fun e => by rw [hnone, one_none, Nat.add_zero]
      exact hs'.hold (hs'.linked_iff.1 (find_linked hf)).1 (hlt e)

theorem entry_find_mem {entry : Entry α} {e : ℕ} (h : entry.find afs s = some e) :
    e ∈ s.chain entry.rtf_host (entry.hash afs % RTHASHSIZ) :=
  List.mem_of_find?_eq_some h

/-- An entry is taken out of its chain and is freed, or stays for those who have it. -/
theorem delrt_inv {entry : Entry α} (hs : Inv s h) (hlt : ∀ e, h e < 2 ^ 15) :
    Inv (delrt afs entry s).2 h := by
  rw [delrt]
  by_cases haf : afs.sa_family entry.rt_dst ≥ afs.AF_MAX ∨ afs.sa_family entry.rt_dst = 0
  · rw [if_pos haf]
    exact hs
  rw [if_neg haf]
  cases hf : entry.find afs s with
  | none => exact hs
  | some e =>
    have hmem := entry_find_mem hf
    obtain ⟨ha, hup, hhost, hhash⟩ := (hs.chain _ _ e).1 hmem
    have hcnt : (s.rt e).rt_refcnt = h e := by
      rw [hs.refcnt e ha, toShort_of_mem (by omega) (by exact_mod_cast hlt e)]
    -- It is in no other chain, and once in this one.
    have hchain (host : Bool) (k e' : ℕ) :
        e' ∈ (s.unlink entry.rtf_host (entry.hash afs) e).chain host k ↔
        e' ≠ e ∧ e' ∈ s.chain host k := by
      by_cases hb : host = entry.rtf_host
      · subst hb
        by_cases hk : k = entry.hash afs % RTHASHSIZ
        · subst hk
          simp only [Rtab.unlink, Function.update_self]
          exact (hs.nodup _ _).mem_erase_iff
        · simp only [Rtab.unlink, Function.update_self, Function.update_of_ne hk]
          exact ⟨fun h' => ⟨fun he => hk (((hs.chain _ _ e').1 h').2.2.2.symm.trans
            (he ▸ hhash)), h'⟩, And.right⟩
      · simp only [Rtab.unlink, Function.update_of_ne hb]
        exact ⟨fun h' => ⟨fun he => hb (((hs.chain _ _ e').1 h').2.2.1.symm.trans
          (he ▸ hhost)), h'⟩, And.right⟩
    have hnodup (host : Bool) (k : ℕ) :
        ((s.unlink entry.rtf_host (entry.hash afs) e).chain host k).Nodup := by
      by_cases hb : host = entry.rtf_host
      · subst hb
        by_cases hk : k = entry.hash afs % RTHASHSIZ
        · subst hk
          simp only [Rtab.unlink, Function.update_self]
          exact (hs.nodup _ _).erase e
        · simpa only [Rtab.unlink, Function.update_self, Function.update_of_ne hk] using
            hs.nodup _ k
      · simpa only [Rtab.unlink, Function.update_of_ne hb] using hs.nodup host k
    dsimp only
    by_cases hpos : (s.rt e).rt_refcnt > 0
    · rw [if_pos (show ((s.unlink entry.rtf_host (entry.hash afs) e).rt e).rt_refcnt > 0 from hpos)]
      have hpos : 0 < h e := by omega
      refine ⟨fun host k e' => (hchain host k e').trans ?_, hnodup, fun e' h' => ?_, hs.lt,
        hs.alive, fun e' h' hup' => ?_, hs.freed_nodup, hs.freed_lt, ?_⟩
      · by_cases he : e' = e
        · subst he
          simp [Rtab.set]
        · simpa [Rtab.set, Rtab.unlink, Rtab.Alive, Function.update_of_ne he, he] using
            hs.chain host k e'
      · by_cases he : e' = e
        · subst he
          simpa [Rtab.set, Rtab.unlink] using hs.refcnt e' h'
        · simpa [Rtab.set, Rtab.unlink, Function.update_of_ne he] using hs.refcnt e' h'
      · by_cases he : e' = e
        · exact he ▸ hpos
        · simp only [Rtab.set, Rtab.unlink, Function.update_of_ne he] at hup'
          exact hs.held e' h' hup'
      · have hmem : e ∉ s.trash h := by
          simp [Rtab.mem_trash, hup]
        have htrash : Rtab.trash { (s.unlink entry.rtf_host (entry.hash afs) e).set e
            { (s.unlink entry.rtf_host (entry.hash afs) e).rt e with rtf_up := false } with
            rttrash := (s.unlink entry.rtf_host (entry.hash afs) e).rttrash + 1 } h =
            insert e (s.trash h) := by
          ext e'
          by_cases he : e' = e
          · subst he
            simp [Rtab.mem_trash, Rtab.set, Rtab.unlink, hpos, ha.1]
          · simp [Rtab.mem_trash, Rtab.set, Rtab.unlink, he]
        rw [htrash, Finset.card_insert_of_notMem hmem, Nat.cast_succ, ← hs.rttrash]
        rfl
    · rw [if_neg (show ¬((s.unlink entry.rtf_host (entry.hash afs) e).rt e).rt_refcnt > 0
        from hpos)]
      have hzero : h e = 0 := by omega
      have halive (e' : ℕ) : Rtab.Alive { s.unlink entry.rtf_host (entry.hash afs) e with
          freed := (s.unlink entry.rtf_host (entry.hash afs) e).freed ++ [e] } e' ↔
          s.Alive e' ∧ e' ≠ e := by
        simp [Rtab.Alive, Rtab.unlink, and_assoc]
      refine ⟨fun host k e' => (hchain host k e').trans ?_, hnodup, fun e' h' => ?_, hs.lt,
        fun e' h' => ?_, fun e' h' hup' => ?_, ?_, fun e' h' => ?_, ?_⟩
      · rw [halive, hs.chain host k e']
        exact ⟨fun ⟨h₁, h₂, h₃⟩ => ⟨⟨h₂, h₁⟩, h₃⟩, fun ⟨⟨h₂, h₁⟩, h₃⟩ => ⟨h₁, h₂, h₃⟩⟩
      · exact hs.refcnt e' ((halive e').1 h').1
      · exact (halive e').2 ⟨hs.alive e' h', fun he => by simp [he, hzero] at h'⟩
      · exact hs.held e' ((halive e').1 h').1 hup'
      · exact List.nodup_append.2 ⟨hs.freed_nodup, List.nodup_singleton e, fun a h₁ b h₂ => by
          rw [List.mem_singleton.1 h₂]
          exact fun hab => ha.2 (hab ▸ h₁)⟩
      · rcases List.mem_append.1 h' with h' | h'
        · exact hs.freed_lt e' h'
        · exact List.mem_singleton.1 h' ▸ ha.1
      · exact hs.rttrash

omit [DecidableEq α] in
/-- A new entry, which no one has yet. -/
theorem link_inv {rt : Rt α ι} (hs : Inv s h) (hup : rt.rtf_up = true) (hcnt : rt.rt_refcnt = 0) :
    Inv (s.link rt) h := by
  have hnew : ¬s.Alive s.nalloc := fun h' => h'.1.false
  have hzero : h s.nalloc = 0 := Nat.eq_zero_of_not_pos fun hp => hnew (hs.alive _ hp)
  have hfree : s.nalloc ∉ s.freed := fun h' => (hs.freed_lt _ h').false
  have halive (e : ℕ) : (s.link rt).Alive e ↔ s.Alive e ∨ e = s.nalloc := by
    simp only [Rtab.Alive, Rtab.link]
    constructor
    · rintro ⟨h₁, h₂⟩
      rcases Nat.lt_succ_iff_lt_or_eq.1 h₁ with h₁ | h₁
      · exact .inl ⟨h₁, h₂⟩
      · exact .inr h₁
    · rintro (⟨h₁, h₂⟩ | rfl)
      · exact ⟨h₁.trans (Nat.lt_succ_self _), h₂⟩
      · exact ⟨Nat.lt_succ_self _, hfree⟩
  have hne {e : ℕ} (h' : s.Alive e) : e ≠ s.nalloc := h'.1.ne
  have hrt {e : ℕ} (h' : e ≠ s.nalloc) : (s.link rt).rt e = s.rt e := by
    simp [Rtab.link, Function.update_of_ne h']
  have hself : (s.link rt).rt s.nalloc = rt := by simp [Rtab.link]
  have hold (host : Bool) (k : ℕ) : s.nalloc ∉ s.chain host k :=
    fun h' => hnew ((hs.chain host k _).1 h').1
  have hchain (host : Bool) (k : ℕ) : (s.link rt).chain host k =
      if rt.rtf_host = host ∧ rt.rt_hash % RTHASHSIZ = k then s.nalloc :: s.chain host k
      else s.chain host k := by
    by_cases hb : host = rt.rtf_host
    · subst hb
      by_cases hk : k = rt.rt_hash % RTHASHSIZ
      · subst hk
        simp [Rtab.link]
      · simp [Rtab.link, Function.update_of_ne hk, Ne.symm hk]
    · simp [Rtab.link, Function.update_of_ne hb, Ne.symm hb]
  refine ⟨fun host k e => ?_, fun host k => ?_, fun e h' => ?_, hs.lt,
    fun e h' => (halive e).2 (.inl (hs.alive e h')), fun e h' hup' => ?_, hs.freed_nodup,
    fun e h' => (hs.freed_lt e h').trans (Nat.lt_succ_self _), ?_⟩
  · rw [halive, hchain]
    by_cases he : e = s.nalloc
    · subst he
      rw [hself]
      split <;> rename_i hc
      · simp [hup, hc]
      · simpa [hup, hold] using fun h₁ h₂ => hc ⟨h₁, h₂⟩
    · rw [hrt he]
      have := hs.chain host k e
      split <;> simpa [he] using this
  · rw [hchain]
    split
    · exact List.nodup_cons.2 ⟨hold host k, hs.nodup host k⟩
    · exact hs.nodup host k
  · rcases (halive e).1 h' with h' | rfl
    · rw [hrt (hne h')]
      exact hs.refcnt e h'
    · rw [hself, hcnt, hzero]
      rfl
  · rcases (halive e).1 h' with h' | rfl
    · exact hs.held e h' (hrt (hne h') ▸ hup')
    · rw [hself, hup] at hup'
      cases hup'
  · have htrash : (s.link rt).trash h = s.trash h := by
      ext e
      by_cases he : e = s.nalloc
      · subst he
        simp [Rtab.mem_trash, hzero]
      · have : e < (s.link rt).nalloc ↔ e < s.nalloc := by
          show e < s.nalloc + 1 ↔ _
          omega
        simp [Rtab.mem_trash, hrt he, this]
    rw [htrash]
    exact hs.rttrash

theorem addrt_inv {entry : Entry α} {ifa : Option (Option ι)} {mget : Bool} (hs : Inv s h) :
    Inv (addrt afs entry ifa mget s).2 h := by
  rw [addrt.eq_def]
  split
  · exact hs
  split
  · exact hs
  split
  · exact hs
  split
  · exact hs
  · split
    · exact hs
    · exact link_inv hs rfl rfl

/-- The route that `rtredirect` asks for is given up again. -/
theorem rtredirect_inv {direct : Bool} {dst gateway : α} {rtf_host rtf_gateway : Bool}
    {ifa : Option (Option ι)} {mget : Bool} (hs : Inv s h) (hlt : ∀ e, h e + 1 < 2 ^ 16) :
    Inv (rtredirect afs if_up direct dst gateway rtf_host rtf_gateway ifa mget s) h := by
  rw [rtredirect]
  cases direct with
  | false => exact hs
  | true =>
    have hs' := rtalloc_inv afs if_up (g := h)
      (show Inv s fun e => h e + one (⟨dst, none⟩ : Ro α).ro_rt e from hs) (.inl rfl) hlt
    generalize rtalloc afs if_up s ⟨dst, none⟩ = p at hs' ⊢
    obtain ⟨ro, t⟩ := p
    simp only [Bool.not_true, Bool.false_eq_true, if_false]
    cases hro : ro.ro_rt with
    | none => exact addrt_inv (hs'.congr fun e => by rw [hro, one_none, Nat.add_zero])
    | some e =>
      have hs' : Inv t fun e' => h e' + one (some e) e' := hs'.congr fun e' => by rw [hro]
      by_cases hw : afs.af_netmatch afs.wildcard (t.rt e).rt_dst = true
      · simp only [hw, if_true]
        exact addrt_inv hs'.rtfree
      · simp only [hw, Bool.false_eq_true, if_false]
        split
        · exact addrt_inv hs'.rtfree
        · have hs' := hs'.write { t.rt e with rt_gateway := gateway } rfl rfl rfl rfl
          exact hs'.rtfree

/-- `ip_output` on a route structure without an entry. -/
theorem ip_output_inv_none {toif : Bool} {ip_dst : ℕ} {ro : Ro α} (hro : ro.ro_rt = none)
    (hs : Inv s g) (hlt : ∀ e, g e + 1 < 2 ^ 16) :
    Inv (ip_output afs if_up toif ip_dst s ro).2
      fun e => g e + one (ip_output afs if_up toif ip_dst s ro).1.ro_rt e := by
  have hs₀ (dst : α) : Inv s fun e => g e + one (⟨dst, none⟩ : Ro α).ro_rt e :=
    hs.congr fun e => by rw [one_none, Nat.add_zero]
  simp only [ip_output, hro, Option.isNone_none, if_true]
  cases toif with
  | true => exact hs₀ _
  | false =>
    have hs' := rtalloc_inv afs if_up (hs₀ (afs.setAddr ro.ro_dst ip_dst)) (.inl rfl) hlt
    generalize rtalloc afs if_up s _ = p at hs' ⊢
    obtain ⟨ro', t⟩ := p
    simp only [Bool.false_eq_true, if_false]
    cases hro' : ro'.ro_rt with
    | none => exact hs'
    | some e =>
      dsimp only
      split
      · exact hs'
      · exact hs'.write _ rfl rfl rfl rfl

/-- `ip_output` gives up what it does not want any more before it looks for something else. -/
theorem ip_output_inv {toif : Bool} {ip_dst : ℕ} {ro : Ro α}
    (hs : Inv s fun e => g e + one ro.ro_rt e) (hlt : ∀ e, g e + 1 < 2 ^ 16) :
    Inv (ip_output afs if_up toif ip_dst s ro).2
      fun e => g e + one (ip_output afs if_up toif ip_dst s ro).1.ro_rt e := by
  cases hro : ro.ro_rt with
  | none => exact ip_output_inv_none hro (hs.congr fun e => by rw [hro, one_none, Nat.add_zero]) hlt
  | some e =>
    by_cases hstale : !(s.rt e).rtf_up ∨ afs.sin_addr ro.ro_dst ≠ ip_dst
    · have : ip_output afs if_up toif ip_dst s ro =
          ip_output afs if_up toif ip_dst (s.RTFREE e) { ro with ro_rt := none } := by
        simp only [ip_output, hro, if_pos hstale]
      rw [this]
      exact ip_output_inv_none rfl (hs.congr fun e' => by rw [hro]).RTFREE hlt
    · simp only [ip_output, hro, if_neg hstale, Option.isNone_some, Bool.false_eq_true, if_false]
      have hwrite := hs.write { s.rt e with rt_use := (s.rt e).rt_use + 1 } rfl rfl rfl rfl
      split
      · exact hs
      · split
        · exact hs
        · exact hwrite

/-- `in_pcbsetaddr` gives up an entry to another address; what it has to the same address is not
    to have lost its interface. -/
theorem in_pcbsetaddr_inv {dontroute : Bool} {sin_addr : ℕ} {ro : Ro α}
    (hs : Inv s fun e => g e + one ro.ro_rt e) (hlt : ∀ e, g e + 1 < 2 ^ 16)
    (hifp : dontroute = false → afs.sin_addr ro.ro_dst = sin_addr →
      ∀ e ∈ ro.ro_rt, (s.rt e).rt_ifp.isSome = true) :
    Inv (in_pcbsetaddr afs if_up dontroute sin_addr s ro).2
      fun e => g e + one (in_pcbsetaddr afs if_up dontroute sin_addr s ro).1.ro_rt e := by
  -- Without an entry, it is a lookup if anything.
  have hnone {t : Rtab α ι} {ro : Ro α} (hro : ro.ro_rt = none) (ht : Inv t g) :
      Inv (in_pcbsetaddr afs if_up dontroute sin_addr t ro).2
        fun e => g e + one (in_pcbsetaddr afs if_up dontroute sin_addr t ro).1.ro_rt e := by
    have ht₀ : Inv t fun e => g e + one ro.ro_rt e :=
      ht.congr fun e => by rw [hro, one_none, Nat.add_zero]
    simp only [in_pcbsetaddr, hro, Option.all_none, and_true]
    split
    · exact rtalloc_inv afs if_up (hro ▸ ht₀) (.inl rfl) hlt
    · exact ht₀
  cases hro : ro.ro_rt with
  | none => exact hnone hro (hs.congr fun e => by rw [hro, one_none, Nat.add_zero])
  | some e =>
    by_cases hdst : afs.sin_addr ro.ro_dst ≠ sin_addr
    · have : in_pcbsetaddr afs if_up dontroute sin_addr s ro =
          in_pcbsetaddr afs if_up dontroute sin_addr (s.RTFREE e) { ro with ro_rt := none } := by
        simp only [in_pcbsetaddr, hro, if_pos hdst]
      rw [this]
      exact hnone rfl (hs.congr fun e' => by rw [hro]).RTFREE
    · have hkeep : ¬((!dontroute) = true ∧ (s.rt e).rt_ifp.isNone = true) := by
        rintro ⟨hd, hi⟩
        have := hifp (by simpa using hd) (not_not.1 hdst) e hro
        rw [Option.isNone_iff_eq_none.1 hi] at this
        cases this
      simp only [in_pcbsetaddr, hro, if_neg hdst, Option.all_some, if_neg hkeep]
      exact hs.congr fun e' => by rw [hro]

end Calls

/-! ## Runs -/

section Runs

theorem holders_append (l₁ l₂ : List (Ro α)) (e : ℕ) :
    holders (l₁ ++ l₂) e = holders l₁ e + holders l₂ e :=
  List.countP_append

theorem holders_cons (ro : Ro α) (l : List (Ro α)) (e : ℕ) :
    holders (ro :: l) e = holders l e + one ro.ro_rt e := by
  simp [holders, List.countP_cons, one]


/-- No entry has as many route structures as its count can tell, so that one more can be counted. -/
def State.Room (s : State α ι) : Prop := ∀ e, holders s.routes e + 1 < 2 ^ 15

variable [DecidableEq α] (afs : Afs α)

/-- The calls that lose no reference: no lookup is on a route structure that has an entry which
    will not do. -/
def Act.Ok (s : State α ι) : Act α ι → Prop
  | .rtalloc i ro_dst => s.Room ∧ ∀ ro ∈ s.routes[i]?, Ro.Kept afs s.tab { ro with ro_dst }
  | .ip_output .. => s.Room
  | .in_pcbsetaddr i dontroute sin_addr => s.Room ∧ (dontroute = false → ∀ ro ∈ s.routes[i]?,
      afs.sin_addr ro.ro_dst = sin_addr → ∀ e ∈ ro.ro_rt, (s.tab.rt e).rt_ifp.isSome = true)
  | _ => True

variable {s s' : State α ι}

/-- The invariant of the machine. -/
structure Sound (s : State α ι) : Prop where
  tab : Inv s.tab (holders s.routes)
  lt : ∀ e, holders s.routes e < 2 ^ 15

omit [DecidableEq α] in
/-- A call on a route structure that keeps the table sound, whatever else there is. -/
theorem Sound.on (hs : Sound s) {i : ℕ} {f : Rtab α ι → Ro α → Ro α × Rtab α ι}
    (hf : ∀ (g : ℕ → ℕ) (ro : Ro α), s.routes[i]? = some ro →
      (∀ e, holders s.routes e = g e + one ro.ro_rt e) →
      Inv s.tab (fun e => g e + one ro.ro_rt e) →
      Inv (f s.tab ro).2 (fun e => g e + one (f s.tab ro).1.ro_rt e) ∧
        ∀ e, g e + one (f s.tab ro).1.ro_rt e < 2 ^ 15)
    (h : s.on i f = some s') : Sound s' := by
  obtain ⟨ro, hro, rfl⟩ := Option.map_eq_some_iff.1 h
  obtain ⟨hi, hget⟩ := List.getElem?_eq_some_iff.1 hro
  have hold (e : ℕ) : holders s.routes e =
      (holders (s.routes.take i) e + holders (s.routes.drop (i + 1)) e) + one ro.ro_rt e := by
    conv_lhs => rw [← List.take_append_drop i s.routes, List.drop_eq_getElem_cons hi, hget]
    rw [holders_append, holders_cons, Nat.add_assoc]
  have hnew (ro' : Ro α) (e : ℕ) : holders (s.routes.set i ro') e =
      (holders (s.routes.take i) e + holders (s.routes.drop (i + 1)) e) + one ro'.ro_rt e := by
    rw [List.set_eq_take_append_cons_drop, if_pos hi, holders_append, holders_cons, Nat.add_assoc]
  have := hf _ ro hro hold (hs.tab.congr hold)
  exact ⟨this.1.congr fun e => (hnew _ e).symm, fun e => (hnew _ e).trans_lt (this.2 e)⟩

omit [DecidableEq α] in
/-- A route structure that vanishes gives its entry up. -/
theorem Sound.close (hs : Sound s) {i : ℕ} {f : ℕ → Rtab α ι → Rtab α ι}
    (hf : ∀ (g : ℕ → ℕ) (e : ℕ), Inv s.tab (fun e' => g e' + one (some e) e') → Inv (f e s.tab) g)
    (h : s.close i f = some s') : Sound s' := by
  obtain ⟨ro, hro, rfl⟩ := Option.map_eq_some_iff.1 h
  obtain ⟨hi, hget⟩ := List.getElem?_eq_some_iff.1 hro
  have hold (e : ℕ) : holders s.routes e = holders (s.routes.eraseIdx i) e + one ro.ro_rt e := by
    conv_lhs => rw [← List.take_append_drop i s.routes, List.drop_eq_getElem_cons hi, hget]
    rw [List.eraseIdx_eq_take_drop_succ, holders_append, holders_append, holders_cons,
      Nat.add_assoc]
  refine ⟨?_, fun e => ?_⟩
  · have htab := hs.tab.congr hold
    cases he : ro.ro_rt with
    | none => exact htab.congr fun e => by rw [he, one_none, Nat.add_zero]
    | some e =>
      rw [he] at htab
      exact hf _ e htab
  · exact (Nat.le_add_right _ _).trans_lt (hold e ▸ hs.lt e)

/-- What every step keeps. -/
theorem Sound.step {a : Act α ι} (hs : Sound s) (hok : a.Ok afs s)
    (h : (machine afs).next s a = some s') : Sound s' := by
  have hroom {g : ℕ → ℕ} {ro : Ro α} (hg : ∀ e, holders s.routes e = g e + one ro.ro_rt e)
      (hr : s.Room) (e : ℕ) : g e + 1 < 2 ^ 15 := by
    have := hr e
    rw [hg e] at this
    omega
  have hlt {g : ℕ → ℕ} (hr : ∀ e, g e + 1 < 2 ^ 15) (r : Option ℕ) (e : ℕ) :
      g e + one r e < 2 ^ 15 :=
    (Nat.add_le_add_left (one_le r e) _).trans_lt (hr e)
  have hwide {g : ℕ → ℕ} (hr : ∀ e, g e + 1 < 2 ^ 15) (e : ℕ) : g e + 1 < 2 ^ 16 :=
    (hr e).trans (by decide)
  cases a with
  | «open» ro_dst =>
    cases h
    have (e : ℕ) : holders (s.routes ++ [⟨ro_dst, none⟩]) e = holders s.routes e := by
      rw [holders_append, holders_cons]
      rfl
    exact ⟨hs.tab.congr fun e => (this e).symm, fun e => (this e).trans_lt (hs.lt e)⟩
  | rtalloc i ro_dst =>
    dsimp only [machine] at h
    refine hs.on (fun g ro hro hg hinv => ?_) h
    have hr := hroom hg hok.1
    have hkept : Ro.Kept afs s.tab { ro with ro_dst } := hok.2 ro hro
    exact ⟨rtalloc_inv afs s.if_up hinv hkept (hwide hr), hlt hr _⟩
  | rtfree i =>
    dsimp only [machine] at h
    refine hs.on (fun g ro hro hg hinv => ?_) h
    have hle (e : ℕ) : g e < 2 ^ 15 :=
      (Nat.le_add_right _ _).trans_lt ((hg e).symm.trans_lt (hs.lt e))
    cases he : ro.ro_rt with
    | none => exact ⟨hinv.congr fun e => by rw [he], hle⟩
    | some e =>
      rw [he] at hinv
      exact ⟨hinv.rtfree, hle⟩
  | ip_output i toif ip_dst =>
    dsimp only [machine] at h
    refine hs.on (fun g ro hro hg hinv => ?_) h
    have hr := hroom hg hok
    exact ⟨ip_output_inv hinv (hwide hr), hlt hr _⟩
  | done i => exact hs.close (fun g e => Inv.RTFREE) h
  | in_pcbsetaddr i dontroute sin_addr =>
    dsimp only [machine] at h
    refine hs.on (fun g ro hro hg hinv => ?_) h
    have hr := hroom hg hok.1
    exact ⟨in_pcbsetaddr_inv hinv (hwide hr) fun hd => hok.2 hd ro hro, hlt hr _⟩
  | in_pcbdetach i => exact hs.close (fun g e => Inv.rtfree) h
  | delrt entry =>
    cases h
    exact ⟨delrt_inv hs.tab hs.lt, hs.lt⟩
  | addrt entry ifa mget =>
    cases h
    exact ⟨addrt_inv hs.tab, hs.lt⟩
  | rtredirect direct dst gateway rtf_host rtf_gateway ifa mget =>
    cases h
    exact ⟨rtredirect_inv hs.tab fun e => (Nat.succ_le_of_lt (hs.lt e)).trans_lt (by decide), hs.lt⟩
  | if_flags if_up =>
    cases h
    exact ⟨hs.tab, hs.lt⟩
  | if_lost e =>
    cases h
    exact ⟨hs.tab.write _ rfl rfl rfl rfl, hs.lt⟩

omit [DecidableEq α] in
/-- The invariant says what the counts are to say. -/
theorem Sound.counted (hs : Sound s) : Counted s := by
  have hinv := hs.tab
  -- A deleted entry is alive for as long as it is held.
  have hdead {e : ℕ} (hd : ¬s.tab.Linked e) : s.tab.Alive e ↔ 0 < holders s.routes e :=
    ⟨fun ha => hinv.held e ha (by simpa [hinv.linked_iff, ha] using hd), hinv.alive e⟩
  refine ⟨fun e ha => ?_, fun ro hro e he => ?_, fun e he => ?_, ?_⟩
  · rw [hinv.refcnt e ha, toShort_of_mem (by omega) (by exact_mod_cast hs.lt e)]
  · exact hinv.alive e (List.countP_pos_iff.2 ⟨ro, hro, by simpa using he⟩)
  · by_cases hfree : e ∈ s.tab.freed
    · rw [List.count_eq_one_of_mem hinv.freed_nodup hfree, if_pos]
      have hd : ¬s.tab.Linked e := fun hl => (hinv.linked_iff.1 hl).1.2 hfree
      exact ⟨hd, Nat.eq_zero_of_not_pos fun hp => ((hdead hd).2 hp).2 hfree⟩
    · rw [List.count_eq_zero_of_not_mem hfree, if_neg]
      rintro ⟨hd, hzero⟩
      exact ((hdead hd).1 ⟨he, hfree⟩).ne' hzero
  · rw [hinv.rttrash]
    congr 1
    apply congrArg Finset.card
    ext e
    simp only [Rtab.mem_trash, Finset.mem_filter, Finset.mem_range]
    refine and_congr_right fun he => and_congr_left fun hpos => ?_
    rw [hinv.linked_iff, and_iff_right (hinv.alive e hpos), Bool.not_eq_true]

/-- The counts are right in every run whose lookups lose no reference. -/
theorem counted_of_ok (hs : (machine afs).ReachableIf (fun s a => a.Ok afs s) s) : Counted s := by
  have hsound : Sound s := hs.invariant (fun s hs => ?_) fun s a s' => Sound.step afs
  · exact hsound.counted
  · obtain ⟨hn, hf, ht, hc, hr⟩ := hs
    have hnot (e : ℕ) : ¬s.tab.Alive e := fun h => absurd h.1 (by omega)
    refine ⟨⟨fun host k e => ?_, fun host k => ?_, fun e h => absurd h (hnot e), fun e => ?_,
      fun e h => ?_, fun e h => absurd h (hnot e), ?_, fun e h => ?_, ?_⟩, fun e => ?_⟩
    · simp [hc, hnot e]
    · simp [hc]
    · simp [hr, holders]
    · simp [hr, holders] at h
    · simp [hf]
    · simp [hf] at h
    · simp [ht, Rtab.trash, hn]
    · simp [hr, holders]

/-- Socket addresses that are numbers: 256 to a network, of one family. -/
def natAfs : Afs ℕ where
  sa_family _ := 2
  AF_MAX := 17
  af_hosthash := id
  af_nethash a := a / 256
  af_netmatch a b := a / 256 = b / 256
  wildcard := 0
  sin_addr := id
  setAddr _ a := a

/-- No routes, and all interfaces up. -/
def blank : State ℕ Unit where
  tab :=
    { rt _ := ⟨0, 0, 0, false, false, false, false, 0, 0, none⟩
      chain _ _ := []
      nalloc := 0
      freed := []
      rttrash := 0 }
  routes := []
  if_up _ := true

omit [DecidableEq α] in
/-- One route structure is not too many. -/
theorem room_of_length {s : State α ι} (h : s.routes.length + 1 < 2 ^ 15) : s.Room :=
  fun _ => (Nat.succ_le_succ List.countP_le_length).trans_lt h

/-- A route is added, used, deleted while it is held, and given up. -/
def heldRun : List (Act ℕ Unit) :=
  [.open 0, .addrt ⟨1000, 5, false, true, false⟩ (some (some ())) true, .ip_output 0 false 1001,
    .delrt ⟨1000, 5, false, true, false⟩, .done 0]

/-- It is freed when it is given up. -/
theorem counted_held : ∃ s, (machine natAfs).run blank heldRun = some s ∧ s.tab.freed = [0] ∧
    Counted s := by
  have h₀ : (machine natAfs).ReachableIf (fun s a => a.Ok natAfs s) blank :=
    .init ⟨rfl, rfl, rfl, fun _ _ => rfl, rfl⟩
  have h₁ := (h₀.step (a := Act.open 0) trivial rfl).step
    (a := Act.addrt ⟨1000, 5, false, true, false⟩ (some (some ())) true) trivial rfl
  have h₂ := (h₁.step (a := Act.ip_output 0 false 1001)
    (room_of_length (by decide) : State.Room _) rfl).step
    (a := Act.delrt ⟨1000, 5, false, true, false⟩) trivial rfl
  have h₃ := h₂.step (a := Act.done 0) trivial rfl
  exact ⟨_, rfl, by decide, counted_of_ok natAfs h₃⟩

/-- A route is looked up again when it has been deleted. -/
def againRun : List (Act ℕ Unit) :=
  [.open 0, .addrt ⟨1000, 5, false, true, false⟩ (some (some ())) true, .rtalloc 0 1001,
    .delrt ⟨1000, 5, false, true, false⟩, .rtalloc 0 1001]

/-- The lookup finds nothing, and the count of what the route structure had stays. -/
theorem not_counted_again : ¬∀ (afs : Afs ℕ) (s : State ℕ Unit),
    (machine afs).Reachable s → Counted s := by
  intro h
  have hinit : (machine natAfs).Reachable (blank : State ℕ Unit) :=
    .init ⟨rfl, rfl, rfl, fun _ _ => rfl, rfl⟩
  obtain ⟨s, hs⟩ : ∃ s, (machine natAfs).run blank againRun = some s :=
    Option.isSome_iff_exists.1 (by decide)
  have hc := (h natAfs s (Machine.reachableIf_run hinit (fun _ _ _ => trivial) hs)).refcnt 0
  have hend : ((machine natAfs).run blank againRun).map (fun s => (s.tab.nalloc, s.tab.freed,
      (s.tab.rt 0).rt_refcnt, holders s.routes 0)) = some (1, [], 1, 0) := by decide
  rw [hs, Option.map_some, Option.some.injEq, Prod.mk.injEq, Prod.mk.injEq, Prod.mk.injEq] at hend
  obtain ⟨hn, hf, hr, hh⟩ := hend
  rw [hr, hh] at hc
  exact absurd (hc ⟨by rw [hn]; decide, by rw [hf]; exact List.not_mem_nil⟩) (by decide)

end Runs

end AuxKernel.Route
