import AuxKernel.Locking.Basic

/-!
# The regions of two processes lie apart

While no request ends before it begins, the items of the list lie apart and in order
(`Apart`): a region that is given up is cut off from items in place
(`Apart.unlockScan`), and one that no other process has locked is joined to those it
touches (`Apart.lockRange`). The scan for a lock of another process may then stop at
the first item behind the request (`apart_of_conflict`).

* `locks_of_clean`: the list is in order, and no byte is locked by two processes.
-/

namespace AuxKernel.Locking

variable {v_flock p : ℕ} {LB UB : ℤ} {cl nl : Locklist} {l l' : List Locklist} {t t' : Table}

/-- A byte lies in the region of an item. -/
def Locklist.Covers (nl : Locklist) (b : ℤ) : Prop := nl.ll_start ≤ b ∧ b < nl.ll_end

instance (nl : Locklist) (b : ℤ) : Decidable (nl.Covers b) := inferInstanceAs (Decidable (_ ∧ _))

/-- Regions that are not empty, lie apart, and in order. -/
structure Apart (l : List Locklist) : Prop where
  lt : ∀ x ∈ l, x.ll_start < x.ll_end
  order : l.Pairwise fun x y => x.ll_end ≤ y.ll_start

/-- No item starts before `b`. -/
def From (b : ℤ) (l : List Locklist) : Prop := ∀ x ∈ l, b ≤ x.ll_start

/-- Nothing another process has locked overlaps the range. -/
def Free (p : ℕ) (LB UB : ℤ) (l : List Locklist) : Prop :=
  ∀ x ∈ l, x.ll_proc ≠ p → x.ll_end ≤ LB ∨ UB ≤ x.ll_start

theorem apart_nil : Apart [] := ⟨fun _ h => absurd h List.not_mem_nil, .nil⟩

theorem from_nil {b : ℤ} : From b [] := fun _ h => absurd h List.not_mem_nil

theorem apart_cons : Apart (nl :: l) ↔ nl.ll_start < nl.ll_end ∧ From nl.ll_end l ∧ Apart l := by
  constructor
  · intro h
    obtain ⟨hfrom, horder⟩ := List.pairwise_cons.1 h.order
    exact ⟨h.lt nl List.mem_cons_self, hfrom, fun x hx => h.lt x (List.mem_cons_of_mem _ hx),
      horder⟩
  · rintro ⟨hlt, hfrom, h⟩
    exact ⟨List.forall_mem_cons.2 ⟨hlt, h.lt⟩, List.pairwise_cons.2 ⟨hfrom, h.order⟩⟩

theorem from_cons {b : ℤ} : From b (nl :: l) ↔ b ≤ nl.ll_start ∧ From b l := List.forall_mem_cons

theorem From.mono {b b' : ℤ} (h : From b l) (hb : b' ≤ b) : From b' l := fun x hx =>
  hb.trans (h x hx)

theorem free_cons : Free p LB UB (nl :: l) ↔
    (nl.ll_proc ≠ p → nl.ll_end ≤ LB ∨ UB ≤ nl.ll_start) ∧ Free p LB UB l :=
  List.forall_mem_cons

/-- An item whose region is not empty, before others. -/
theorem Apart.cons (h : Apart l) (hlt : nl.ll_start < nl.ll_end) (hfrom : From nl.ll_end l) :
    Apart (nl :: l) :=
  apart_cons.2 ⟨hlt, hfrom, h⟩

theorem wake_fields (nl : Locklist) (t : Table) :
    (wake nl t).1.ll_start = nl.ll_start ∧ (wake nl t).1.ll_end = nl.ll_end := by
  rw [wake]
  split_ifs <;> exact ⟨rfl, rfl⟩

theorem lockadd_some (h : lockadd v_flock p LB UB t = (some nl, t')) :
    nl.ll_start = LB ∧ nl.ll_end = UB ∧ nl.ll_proc = p := by
  obtain ⟨i, -, rfl⟩ := Option.map_eq_some_iff.1 (Prod.mk.inj h).1
  exact ⟨rfl, rfl, rfl⟩

/-! ## Unlocking -/

theorem apart_unlockScan (hlt : LB < UB) (h : Apart l) :
    Apart (unlockScan v_flock p LB UB l t).1 ∧
      ∀ b, From b l → From b (unlockScan v_flock p LB UB l t).1 := by
  induction l generalizing t with
  | nil => exact ⟨apart_nil, fun _ h => h⟩
  | cons nl l ih =>
    obtain ⟨hne, hfrom, hl⟩ := apart_cons.1 h
    have hskip (t : Table) : Apart (nl :: (unlockScan v_flock p LB UB l t).1) ∧
        ∀ b, From b (nl :: l) → From b (nl :: (unlockScan v_flock p LB UB l t).1) :=
      ⟨(ih hl).1.cons hne ((ih hl).2 _ hfrom), fun b hb =>
        from_cons.2 ⟨(from_cons.1 hb).1, (ih hl).2 b (from_cons.1 hb).2⟩⟩
    rw [unlockScan]
    split_ifs with hp hbehind hbefore hin
    · exact hskip t
    · exact ⟨h, fun _ hb => hb⟩
    · exact hskip t
    · exact ⟨(ih hl).1, fun b hb => (ih hl).2 b (from_cons.1 hb).2⟩
    -- a part of the item stays
    obtain ⟨hs, he⟩ := wake_fields nl t
    rcases hw : wake nl t with ⟨nl', t₁⟩
    rw [hw] at hs he
    dsimp only at hs he ⊢
    split_ifs with hmid hfirst
    · rcases hadd : lockadd v_flock p UB nl'.ll_end t₁ with ⟨_ | last, t₂⟩
      · exact ⟨hl.cons (by omega) (he ▸ hfrom), fun b hb => from_cons.2 ⟨hs ▸ (from_cons.1 hb).1,
          (from_cons.1 hb).2⟩⟩
      · obtain ⟨hls, hle, -⟩ := lockadd_some hadd
        refine ⟨(hl.cons (by omega) (by rw [hle, he]; exact hfrom)).cons hmid.1 ?_, ?_⟩
        · exact from_cons.2 ⟨by dsimp only; omega, hfrom.mono (by dsimp only; omega)⟩
        · intro b hb
          obtain ⟨hb, hbl⟩ := from_cons.1 hb
          exact from_cons.2 ⟨by dsimp only; omega, from_cons.2 ⟨by omega, hbl⟩⟩
    · refine ⟨hl.cons (by dsimp only; omega) (he ▸ hfrom), fun b hb => ?_⟩
      obtain ⟨hb, hbl⟩ := from_cons.1 hb
      exact from_cons.2 ⟨by dsimp only; omega, hbl⟩
    · have hcut : From LB l := hfrom.mono (by omega)
      refine ⟨(ih hl).1.cons (by dsimp only; omega) ((ih hl).2 _ hcut), fun b hb => ?_⟩
      obtain ⟨hb, hbl⟩ := from_cons.1 hb
      exact from_cons.2 ⟨by dsimp only; omega, (ih hl).2 b hbl⟩

theorem sublist_unlock : (unlock p l t).1.Sublist l := by
  induction l generalizing t with
  | nil => exact .refl _
  | cons nl l ih =>
    rw [unlock]
    split_ifs with hp
    · exact ih.cons nl
    · exact ih.cons_cons nl

theorem Apart.sublist (h : Apart l) (hs : l'.Sublist l) : Apart l' :=
  ⟨fun x hx => h.lt x (hs.subset hx), h.order.sublist hs⟩

/-! ## Locking -/

/-- The scan finds what another process has locked in a range. -/
theorem free_of_conflict (h : Apart l) (hc : conflict p LB UB l = none) : Free p LB UB l := by
  induction l with
  | nil => exact fun _ hx => absurd hx List.not_mem_nil
  | cons nl l ih =>
    obtain ⟨hne, hfrom, hl⟩ := apart_cons.1 h
    rw [conflict] at hc
    split_ifs at hc with hstart hskip
    · exact free_cons.2 ⟨fun hp => .inl (hskip.resolve_left hp), ih hl hc⟩
    · -- the items behind this one start still later
      have hle : UB ≤ nl.ll_start := not_lt.1 hstart
      refine free_cons.2 ⟨fun _ => .inr hle, fun x hx _ => .inr ?_⟩
      exact hle.trans (hne.le.trans (hfrom x hx))

/-- What `cl` was extended over is its own process's. -/
theorem apart_compact (hl : Apart l) (hlt : cl.ll_start < cl.ll_end) (hfrom : From cl.ll_start l)
    (hother : ∀ x ∈ l, x.ll_proc ≠ p → cl.ll_end ≤ x.ll_start) :
    Apart (compact p cl l t).1 ∧ From cl.ll_start (compact p cl l t).1 := by
  induction l generalizing t with
  | nil => exact ⟨apart_nil.cons hlt from_nil, from_cons.2 ⟨le_rfl, hfrom⟩⟩
  | cons nl l ih =>
    obtain ⟨hne, hnl, hl'⟩ := apart_cons.1 hl
    obtain ⟨hs, hfrom'⟩ := from_cons.1 hfrom
    have hstop (hle : cl.ll_end ≤ nl.ll_start) :
        Apart (cl :: nl :: l) ∧ From cl.ll_start (cl :: nl :: l) :=
      ⟨hl.cons hlt (from_cons.2 ⟨hle, hnl.mono (by omega)⟩), from_cons.2 ⟨le_rfl, hfrom⟩⟩
    rw [compact]
    split_ifs with hp hbefore hin
    · exact hstop (hother nl List.mem_cons_self (Ne.symm hp))
    · exact hstop hbefore.le
    · exact ⟨hl'.cons (by dsimp only; omega) hnl, from_cons.2 ⟨le_rfl, hfrom'⟩⟩
    · exact ih hl' hfrom' fun x hx => hother x (List.mem_cons_of_mem _ hx)

/-- An item that starts before the request, and is not extended, ends before it. -/
theorem end_le (hfree : cl.ll_proc ≠ p → cl.ll_end ≤ LB ∨ UB ≤ cl.ll_start)
    (hext : ¬(LB ≤ cl.ll_end ∧ p = cl.ll_proc)) (hcl : cl.ll_start < UB) : cl.ll_end ≤ LB := by
  by_cases hp : p = cl.ll_proc
  · exact (not_le.1 fun hle => hext ⟨hle, hp⟩).le
  · exact (hfree (Ne.symm hp)).resolve_right (not_le.2 hcl)

theorem apart_lockHere (h : Apart (cl :: l)) (hlt : LB < UB) (hcl : cl.ll_start ≤ LB)
    (hl : From LB l) (hfree : Free p LB UB (cl :: l)) :
    Apart (lockHere v_flock p LB UB cl l t).1 ∧
      From cl.ll_start (lockHere v_flock p LB UB cl l t).1 := by
  obtain ⟨hne, hfrom, hl'⟩ := apart_cons.1 h
  obtain ⟨hfree, hfree'⟩ := free_cons.1 hfree
  have hkeep : Apart (cl :: l) ∧ From cl.ll_start (cl :: l) :=
    ⟨h, from_cons.2 ⟨le_rfl, hl.mono hcl⟩⟩
  have hother : ∀ x ∈ l, x.ll_proc ≠ p → UB ≤ x.ll_start := by
    intro x hx hp
    have hLB := hl x hx
    have hx' := hl'.lt x hx
    rcases hfree' x hx hp with hle | hle <;> omega
  rw [lockHere]
  split_ifs with hin hext
  · exact hkeep
  · exact apart_compact hl' (by dsimp only; omega) (hl.mono hcl) hother
  · have hend := end_le hfree hext (by omega)
    rw [addAfter]
    rcases hadd : lockadd v_flock p LB UB t with ⟨_ | new, t'⟩
    · exact hkeep
    · obtain ⟨hns, hnend, -⟩ := lockadd_some hadd
      have hnew : new.ll_start < new.ll_end := by omega
      obtain ⟨hc, hcf⟩ := apart_compact (p := p) (t := t') hl' hnew (hns ▸ hl) (hnend ▸ hother)
      rw [hns] at hcf
      exact ⟨hc.cons hne (hcf.mono hend), from_cons.2 ⟨le_rfl, hcf.mono hcl⟩⟩

theorem apart_lockScan (h : Apart (cl :: l)) (hlt : LB < UB) (hcl : cl.ll_start ≤ LB)
    (hfree : Free p LB UB (cl :: l)) :
    Apart (lockScan v_flock p LB UB cl l t).1 ∧
      From cl.ll_start (lockScan v_flock p LB UB cl l t).1 := by
  induction l generalizing cl t with
  | nil =>
    obtain ⟨hne, -, -⟩ := apart_cons.1 h
    rw [lockScan]
    split_ifs with hext hgt
    · exact ⟨apart_nil.cons (by dsimp only; omega) from_nil, from_cons.2 ⟨le_rfl, from_nil⟩⟩
    · exact ⟨h, from_cons.2 ⟨le_rfl, from_nil⟩⟩
    · have hend := end_le (free_cons.1 hfree).1 hext (by omega)
      rcases hadd : lockadd v_flock p LB UB t with ⟨_ | new, t'⟩
      · exact ⟨h, from_cons.2 ⟨le_rfl, from_nil⟩⟩
      · obtain ⟨hns, hnend, -⟩ := lockadd_some hadd
        exact ⟨(apart_nil.cons (by omega) from_nil).cons hne (from_cons.2 ⟨by omega, from_nil⟩),
          from_cons.2 ⟨le_rfl, from_cons.2 ⟨by omega, from_nil⟩⟩⟩
  | cons nl l ih =>
    obtain ⟨hne, hfrom, hl⟩ := apart_cons.1 h
    obtain ⟨hnl, hfrom'⟩ := from_cons.1 hfrom
    rw [lockScan]
    split_ifs with hstart
    · -- on to the next item, which starts before the request as well
      obtain ⟨hr, hrf⟩ := ih (t := t) hl hstart.le (free_cons.1 hfree).2
      exact ⟨hr.cons hne (hrf.mono hnl), from_cons.2 ⟨le_rfl, hrf.mono (by omega)⟩⟩
    · have hl' := apart_cons.1 hl
      exact apart_lockHere h hlt hcl (from_cons.2 ⟨not_lt.1 hstart, hl'.2.1.mono (by omega)⟩) hfree

theorem apart_addFirst (h : Apart l) (hlt : LB < UB) (hl : From UB l) :
    Apart (addFirst v_flock p LB UB l t).1 := by
  rw [addFirst]
  rcases hadd : lockadd v_flock p LB UB t with ⟨_ | new, t'⟩
  · exact h
  · obtain ⟨hs, he, -⟩ := lockadd_some hadd
    exact h.cons (by omega) (he ▸ hl)

theorem Apart.lockRange (h : Apart l) (hlt : LB < UB) (hfree : Free p LB UB l) :
    Apart (lockRange v_flock p LB UB l t).1 := by
  cases l with
  | nil => exact apart_addFirst h hlt from_nil
  | cons nl l =>
    obtain ⟨hne, hfrom, hl⟩ := apart_cons.1 h
    have hfirst (hle : UB ≤ nl.ll_start) : From UB (nl :: l) :=
      from_cons.2 ⟨hle, hfrom.mono (by omega)⟩
    rw [Locking.lockRange]
    split_ifs with hbefore htouch hext
    · exact apart_addFirst h hlt (hfirst hbefore.le)
    · exact apart_addFirst h hlt (hfirst htouch.1)
    · -- the first item, which is extended downwards, is the process's own
      have hown : nl.ll_proc = p := by
        by_contra hp
        rcases (free_cons.1 hfree).1 hp with hle | hle
        · omega
        · exact htouch ⟨hle, Ne.symm hp⟩
      have hcl : Apart ({ nl with ll_start := LB } :: l) := hl.cons (hext.2.trans hne) hfrom
      exact (apart_lockScan hcl hlt (le_refl LB)
        (free_cons.2 ⟨fun hp => absurd hown hp, (free_cons.1 hfree).2⟩)).1
    · exact (apart_lockScan h hlt (by omega) hfree).1

/-! ## The processes -/

/-- The request of a process in `locked` ends behind its beginning. -/
def Pc.Legal : Pc → Prop
  | .idle => True
  | .asleep _ r | .awake r => r.LB < r.UB

def Legal (t : Table) : Prop := ∀ p, (t.pc p).Legal

theorem Legal.setPc {pc : Pc} (h : Legal t) (hpc : pc.Legal) : Legal (t.setPc p pc) := by
  intro q
  rcases eq_or_ne q p with rfl | hq
  · simpa [Table.setPc] using hpc
  · simpa [Table.setPc, hq] using h q

theorem Legal.wakeup (h : Legal t) (i : ℕ) : Legal (wakeup i t) := by
  intro q
  have hq := h q
  change ((t.pc q).wake i).Legal
  cases hpc : t.pc q with
  | idle => trivial
  | awake r =>
    rw [hpc] at hq
    exact hq
  | asleep j r =>
    rw [hpc] at hq
    rw [Pc.wake]
    split_ifs <;> exact hq

theorem Legal.wake {nl' : Locklist} (h : Legal t) (hw : wake nl t = (nl', t')) : Legal t' := by
  rw [Locking.wake] at hw
  split_ifs at hw
  · exact (Prod.mk.inj hw).2 ▸ h.wakeup nl.id
  · exact (Prod.mk.inj hw).2 ▸ h

theorem Legal.lockfree (h : Legal t) : Legal (lockfree nl t) := by
  rcases hw : Locking.wake nl t with ⟨nl', t'⟩
  have ht : Legal t' := h.wake hw
  rw [Locking.lockfree, hw]
  exact ht

theorem Legal.lockadd {r : Option Locklist} (h : Legal t)
    (hadd : lockadd v_flock p LB UB t = (r, t')) : Legal t' := by
  have hlink : Legal (link v_flock t) := by
    rw [link]
    split_ifs <;> exact h
  have halloc : Legal (lockalloc v_flock p t).2 := by
    unfold lockalloc
    dsimp only
    split <;> exact hlink
  exact (Prod.mk.inj hadd).2 ▸ halloc

theorem Legal.unlockScan (h : Legal t) : Legal (unlockScan v_flock p LB UB l t).2 := by
  induction l generalizing t with
  | nil => exact h
  | cons nl l ih =>
    rw [Locking.unlockScan]
    split_ifs
    · exact ih h
    · exact h
    · exact ih h
    · exact ih h.lockfree
    rcases hw : Locking.wake nl t with ⟨nl', t₁⟩
    dsimp only
    split_ifs
    · rcases hadd : Locking.lockadd v_flock p UB nl'.ll_end t₁ with ⟨_ | last, t₂⟩ <;>
        exact (h.wake hw).lockadd hadd
    · exact h.wake hw
    · exact ih (h.wake hw)

theorem Legal.unlock (h : Legal t) : Legal (unlock p l t).2 := by
  induction l generalizing t with
  | nil => exact h
  | cons nl l ih =>
    rw [Locking.unlock]
    split_ifs
    · exact ih h.lockfree
    · exact ih h

theorem Legal.compact (h : Legal t) : Legal (compact p cl l t).2 := by
  induction l generalizing t with
  | nil => exact h
  | cons nl l ih =>
    rw [Locking.compact]
    split_ifs
    · exact h
    · exact h
    · exact h.lockfree
    · exact ih h.lockfree

theorem Legal.lockHere (h : Legal t) : Legal (lockHere v_flock p LB UB cl l t).2 := by
  rw [Locking.lockHere]
  split_ifs
  · exact h
  · exact h.compact
  · rw [addAfter]
    rcases hadd : Locking.lockadd v_flock p LB UB t with ⟨_ | new, t₁⟩
    · exact h.lockadd hadd
    · exact (h.lockadd hadd).compact

theorem Legal.lockScan (h : Legal t) : Legal (lockScan v_flock p LB UB cl l t).2 := by
  induction l generalizing cl with
  | nil =>
    rw [Locking.lockScan]
    split_ifs
    · exact h
    · exact h
    · rcases hadd : Locking.lockadd v_flock p LB UB t with ⟨_ | new, t₁⟩ <;> exact h.lockadd hadd
  | cons nl l ih =>
    rw [Locking.lockScan]
    split_ifs
    · exact ih
    · exact h.lockHere

theorem Legal.lockRange (h : Legal t) : Legal (lockRange v_flock p LB UB l t).2 := by
  have hadd (l : List Locklist) : Legal (addFirst v_flock p LB UB l t).2 := by
    rw [addFirst]
    rcases hadd : Locking.lockadd v_flock p LB UB t with ⟨_ | new, t₁⟩ <;> exact h.lockadd hadd
  cases l with
  | nil => exact hadd []
  | cons nl l =>
    rw [Locking.lockRange]
    split_ifs
    · exact hadd _
    · exact hadd _
    · exact h.lockScan
    · exact h.lockScan

/-! ## Runs -/

/-- The size of a request is positive, and the request does not reach over the largest
    offset; or it ends at `MAXSIZE`, which is behind its offset. -/
def Sized (f_offset size : ℤ) : Prop :=
  0 < size ∧ f_offset + size < 2 ^ 31 ∨ f_offset < MAXSIZE ∧ (size < 0 → f_offset + size ≤ 0)

/-- Every request has a size as it should be. -/
def Clean : State → Act → Prop
  | _, .locking _ fp _ size => Sized fp.f_offset size
  | _, .unlock _ | _, .go _ | _, .intr _ => True

instance : ∀ s a, Decidable (Clean s a)
  | _, .locking _ _ _ _ => inferInstanceAs (Decidable (_ ∧ _ ∨ _ ∧ (_ → _)))
  | _, .unlock _ | _, .go _ | _, .intr _ => inferInstanceAs (Decidable True)

/-- A request ends behind its beginning just when its size is as it should be. -/
theorem lt_upper {f_offset size : ℤ} (h₀ : 0 ≤ f_offset) (h₁ : f_offset < 2 ^ 31)
    (hs₀ : -2 ^ 31 ≤ size) (hs₁ : size < 2 ^ 31) :
    f_offset < upper f_offset size ↔ Sized f_offset size := by
  rw [upper, Sized, toLong, MAXSIZE]
  rcases lt_or_ge (f_offset + size) (2 ^ 31) with hlt | hge
  · rw [Int.bmod_eq_of_le (by omega) (by omega)]
    dsimp only
    split_ifs <;> omega
  · have hwrap : (f_offset + size).bmod (2 ^ 32) = f_offset + size - 2 ^ 32 := by
      rw [← Int.sub_bmod_right, Int.bmod_eq_of_le (by omega) (by omega)]
      rfl
    rw [hwrap]
    dsimp only
    split_ifs <;> omega

/-- The regions lie apart, and so will those that processes wait for. -/
structure Inv (s : State) : Prop where
  apart : Apart s.i_locklist
  legal : Legal s.toTable

variable {s s' : State}

theorem Inv.tryLock {r : Request} (h : Inv s) (hr : r.LB < r.UB)
    (hn : tryLock v_flock p r s = some s') : Inv s' := by
  have hret (e : Option Errno) : Legal ((s.setPc p .idle).error p e) := h.legal.setPc trivial
  rw [Locking.tryLock] at hn
  cases hc : conflict p r.LB r.UB s.i_locklist with
  | none =>
    rw [hc] at hn
    obtain rfl := Option.some.inj hn
    exact ⟨h.apart.lockRange hr (free_of_conflict h.apart hc), (hret none).lockRange⟩
  | some nl =>
    rw [hc] at hn
    dsimp only at hn
    split_ifs at hn
    · obtain rfl := Option.some.inj hn
      exact ⟨h.apart, hret _⟩
    · split at hn
      · exact nomatch hn
      · obtain rfl := Option.some.inj hn
        exact ⟨h.apart, hret _⟩
      · -- the process sleeps: only the mark on the item changes
        obtain rfl := Option.some.inj hn
        refine ⟨⟨fun x hx => ?_, List.pairwise_map.2 (h.apart.order.imp fun {x y} hxy => ?_)⟩,
          h.legal.setPc hr⟩
        · obtain ⟨y, hy, rfl⟩ := List.mem_map.1 hx
          have := h.apart.lt y hy
          split_ifs <;> exact this
        · split_ifs <;> exact hxy

theorem Inv.step {a : Act} (h : Inv s) (ha : Clean s a) (hn : step v_flock s a = some s') :
    Inv s' := by
  cases a with
  | locking p fp flag size =>
    rw [Locking.step] at hn
    split_ifs at hn with hin
    obtain ⟨-, h₀, h₁, hs₀, hs₁⟩ := hin
    have hlt := (lt_upper h₀ h₁ hs₀ hs₁).2 ha
    rw [Locking.locking] at hn
    split_ifs at hn with hvnode hdir hflag
    · exact Option.some.inj hn ▸ ⟨h.apart, h.legal⟩
    · exact Option.some.inj hn ▸ ⟨h.apart, h.legal⟩
    · obtain rfl := Option.some.inj hn
      exact ⟨(apart_unlockScan hlt h.apart).1, Legal.unlockScan (t := s.error p none) h.legal⟩
    · exact h.tryLock hlt hn
  | unlock p =>
    rw [Locking.step] at hn
    split_ifs at hn with hp
    obtain rfl := Option.some.inj hn
    exact ⟨h.apart.sublist sublist_unlock, h.legal.unlock⟩
  | go p =>
    have hp := h.legal p
    rw [Locking.step] at hn
    split at hn
    · exact nomatch hn
    · exact nomatch hn
    · rename_i r hr
      rw [hr] at hp
      exact h.tryLock hp hn
  | intr p =>
    rw [Locking.step] at hn
    split at hn
    · exact nomatch hn
    · exact Option.some.inj hn ▸ ⟨h.apart, h.legal.setPc trivial⟩
    · exact Option.some.inj hn ▸ ⟨h.apart, h.legal.setPc trivial⟩

theorem inv_of_sized (h : (locks v_flock).ReachableIf Clean s) : Inv s := by
  refine h.invariant (fun s hs => ?_) fun s a s' h ha hn => h.step ha hn
  obtain rfl : s = _ := hs
  exact ⟨apart_nil, fun _ => trivial⟩

theorem Apart.ordered (h : Apart l) : l.Pairwise fun x y => x.ll_start ≤ y.ll_start := by
  refine h.order.imp_of_mem fun {x y} hx _ hxy => ?_
  exact (h.lt x hx).le.trans hxy

/-- No byte lies in two regions. -/
theorem Apart.eq_of_covers (h : Apart l) {x y : Locklist} {b : ℤ} (hx : x ∈ l) (hy : y ∈ l)
    (hbx : x.Covers b) (hby : y.Covers b) : x = y := by
  have hnot : l.Pairwise fun x y => ¬(x.Covers b ∧ y.Covers b) :=
    h.order.imp fun {x y} hxy hb => absurd (hb.1.2.trans_le (hxy.trans hb.2.1)) (lt_irrefl b)
  exact List.Pairwise.forall_of_forall_of_flip (R := fun x y => x.Covers b → y.Covers b → x = y)
    (fun _ _ _ _ => rfl) (hnot.imp fun h hx hy => absurd ⟨hx, hy⟩ h)
    (hnot.imp fun h hy hx => absurd ⟨hx, hy⟩ h) hx hy hbx hby

/-- While every request has a size as it should be, the list is in order, its items are
    well formed, and no byte is covered by items of two processes. -/
theorem locks_of_clean (h : (locks v_flock).ReachableIf Clean s) :
    s.i_locklist.Pairwise (fun x y => x.ll_start ≤ y.ll_start) ∧
    (∀ x ∈ s.i_locklist, x.ll_start < x.ll_end) ∧
    ∀ x ∈ s.i_locklist, ∀ y ∈ s.i_locklist, x.ll_proc ≠ y.ll_proc →
      ∀ b, ¬(x.Covers b ∧ y.Covers b) := by
  have ha := (inv_of_sized h).apart
  refine ⟨ha.ordered, ha.lt, fun x hx y hy hne b hb => ?_⟩
  exact hne (congrArg Locklist.ll_proc (ha.eq_of_covers hx hy hb.1 hb.2))

/-- Two processes lock regions side by side, and one gives up the middle of its own. -/
theorem locks_split : ∃ s : State, (s.i_locklist.map fun x => (x.ll_proc, x.ll_start, x.ll_end)) =
    [(1, 0, 40), (1, 60, 100), (2, 100, MAXSIZE)] ∧
    s.i_locklist.Pairwise (fun x y => x.ll_start ≤ y.ll_start) ∧
    (∀ x ∈ s.i_locklist, x.ll_start < x.ll_end) ∧
    ∀ x ∈ s.i_locklist, ∀ y ∈ s.i_locklist, x.ll_proc ≠ y.ll_proc →
      ∀ b, ¬(x.Covers b ∧ y.Covers b) := by
  let fp (f_offset : ℤ) : File := ⟨true, true, false, f_offset⟩
  let acts : List Act := [.locking 1 (fp 0) 1 100, .locking 2 (fp 100) 2 0, .locking 1 (fp 40) 0 20]
  let start : State := ⟨⟨false, [], fun _ => .idle, fun _ => none⟩, []⟩
  obtain ⟨s, hs, hl⟩ := Option.map_eq_some_iff.1
    (show ((locks 8).runIf Clean start acts).map
      (fun s => s.i_locklist.map fun x => (x.ll_proc, x.ll_start, x.ll_end)) =
      some [(1, 0, 40), (1, 60, 100), (2, 100, MAXSIZE)] by decide)
  exact ⟨s, hl, locks_of_clean (Machine.reachableIf_runIf (.init rfl) hs)⟩

/-- With a negative size a request ends before it begins. One that gives up such a region
    leaves the list out of order, and the scan for a lock stops too early: a byte comes to be
    locked by two processes. -/
theorem not_locks : ¬∀ s : State, (locks 8).Reachable s →
    s.i_locklist.Pairwise (fun x y => x.ll_start ≤ y.ll_start) ∧
    (∀ x ∈ s.i_locklist, x.ll_start < x.ll_end) ∧
    ∀ x ∈ s.i_locklist, ∀ y ∈ s.i_locklist, x.ll_proc ≠ y.ll_proc →
      ∀ b, ¬(x.Covers b ∧ y.Covers b) := by
  intro h
  let fp (f_offset : ℤ) : File := ⟨true, true, false, f_offset⟩
  let acts : List Act := [.locking 1 (fp 0) 1 200, .locking 1 (fp 100) 0 (-50),
    .locking 1 (fp 60) 0 20, .locking 2 (fp 60) 1 10]
  let start : State := ⟨⟨false, [], fun _ => .idle, fun _ => none⟩, []⟩
  obtain ⟨s, hs, hl⟩ := Option.map_eq_some_iff.1
    (show ((locks 8).run start acts).map (fun s => s.i_locklist) =
      some [⟨7, false, 1, 0, 60⟩, ⟨4, false, 2, 60, 70⟩, ⟨5, false, 1, 80, 100⟩,
        ⟨6, false, 1, 50, 200⟩] by decide)
  obtain ⟨-, -, hexcl⟩ := h s (Machine.reachableIf_run (.init rfl) (fun _ _ _ => trivial) hs)
  rw [hl] at hexcl
  exact hexcl ⟨4, false, 2, 60, 70⟩ (by decide) ⟨6, false, 1, 50, 200⟩ (by decide) (by decide) 65
    (by decide)

end AuxKernel.Locking
