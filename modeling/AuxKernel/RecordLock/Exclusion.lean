import AuxKernel.RecordLock.Adjust
import AuxKernel.RecordLock.Calls
import Mathlib.Tactic.FinCases

/-!
# Mutual exclusion of record locks

Whether the calls keep the processes' locks apart (`Exclusion`). They do, as long
as the chains stay ordered by their starts, on which the scans of `blocked` rely.

`flckadj` looks for the place of a severed piece by the start of the *request*,
not of the piece. So it puts a piece that an unlock severs off a read lock
before the read locks of others that start inside the unlocked range, and
`blocked`, stopping at the piece, no longer sees them
(`not_exclusion`). Without such unlocks (`Act.Clean`) the chains stay ordered in
every run (`exclusion_of_clean`).
-/

namespace AuxKernel.RecordLock

/-- Two records share a byte. -/
def Intersect (a b : Filock) : Prop :=
  a.set.l_start < b.set.l_end ∧ b.set.l_start < a.set.l_end

instance (a b : Filock) : Decidable (Intersect a b) := inferInstanceAs (Decidable (_ ∧ _))

/-- No two records of a chain that belong to different processes intersect, if
    one of them is a write lock. -/
def Excludes (chain : List Filock) : Prop :=
  chain.Pairwise fun a b => a.set.l_pid ≠ b.set.l_pid →
    (a.set.l_type = .wrlck ∨ b.set.l_type = .wrlck) → ¬Intersect a b

instance (chain : List Filock) : Decidable (Excludes chain) :=
  inferInstanceAs (Decidable (chain.Pairwise _))

/-- The chains of all files keep the processes' locks apart. -/
def Exclusion (s : Locks) : Prop := ∀ id flip, s.flino id = some flip → Excludes flip.fl_flck

theorem Ordered.excludes {chain : List Filock} (h : Ordered chain) : Excludes chain := by
  refine h.pairwise.imp fun {a b} hc hne hw hi => ?_
  rcases hc.2 with hc | hc
  · exact absurd hi.2 (not_lt.2 hc)
  · exact hw.elim hc.2.1 hc.2.2

/-- The requests that are granted lock or unlock some bytes below `MAXEND`. -/
def Act.InRange : Act → Prop
  | .setflck _ fp lckdat _ => ∀ ld, request fp lckdat = .ok ld →
      0 ≤ ld.l_start ∧ ld.l_start < ld.l_end ∧ ld.l_end ≤ MAXEND
  | _ => True

/-- An unlock severs no piece off a record of its process past another record:
    no record after one that goes on past the end of the range starts inside it. -/
def Act.Clean (s : Locks) : Act → Prop
  | .setflck pid fp lckdat _ => ∀ ld flip, request fp lckdat = .ok ld → ld.l_type = .unlck →
      s.flino fp.id = some flip → flip.fl_flck.Pairwise (Severs pid ld)
  | _ => True

/-! ## A run that lets a conflicting lock through -/

/-- A file open for reading and writing. -/
def anyFile : File := ⟨true, true, true, true, 0, 0, 2, 0⟩

/-- A request for the bytes from `start` on, `len` of them. -/
def ask (l_type : LockType) (start len : ℤ) : Flock := ⟨l_type, 0, start, len, 0⟩

/-- Process 1 and process 2 have read locks, and process 1 unlocks its bytes up
    to 50, where the other lock starts. Then process 3 asks for a write lock on
    bytes of process 2. -/
def throughActs : List Act :=
  [.setflck 1 anyFile (ask .rdlck 0 100) false, .setflck 2 anyFile (ask .rdlck 10 10) false,
    .setflck 1 anyFile (ask .unlck 0 50) false, .setflck 3 anyFile (ask .wrlck 12 3) false]

/-- An empty lock table with eight free records. -/
def emptyLocks : Locks := ⟨fun _ => none, 1, 8, []⟩

theorem inRange_throughActs : ∀ a ∈ throughActs, ∀ _ : Locks, a.InRange := by
  intro a ha s
  fin_cases ha <;> rintro ld ⟨⟩ <;> decide

/-- Locks of different processes get to conflict. -/
theorem not_exclusion : ¬∀ s, locks.ReachableIf (fun _ a => a.InRange) s → Exclusion s := by
  intro h
  have hx : ((locks.run emptyLocks throughActs).bind fun s =>
      (s.flino anyFile.id).map fun flip => decide (Excludes flip.fl_flck)) = some false := by
    decide
  obtain ⟨s, hs, hx⟩ := Option.bind_eq_some_iff.1 hx
  obtain ⟨flip, hf, hx⟩ := Option.map_eq_some_iff.1 hx
  exact of_decide_eq_false hx
    (h s (Machine.reachableIf_run (.init ⟨fun _ => rfl, rfl⟩) inRange_throughActs hs) _ _ hf)

/-! ## Runs whose unlocks are clean -/

/-- The invariant of the lock table: its chains are ordered, and the sleeping
    processes wait for locks. -/
structure Inv (s : Locks) : Prop where
  ordered : ∀ id flip, s.flino id = some flip → Ordered flip.fl_flck
  sleeping : ∀ sl ∈ s.sleeplcks, Request sl.sf.set ∧ sl.sf.set.l_type ≠ .unlck

/-- The order of a chain depends on its locking data only. -/
theorem Ordered.congr {l l' : List Filock} (h : Ordered l)
    (he : l'.map Filock.set = l.map Filock.set) : Ordered l' := by
  have hpair : ∀ l : List Filock, l.Pairwise Compat ↔ (l.map Filock.set).Pairwise fun a b =>
      Compat ⟨a, 0⟩ ⟨b, 0⟩ := fun l => by rw [List.pairwise_map]; rfl
  refine ⟨(hpair l').2 (he ▸ (hpair l).1 h.pairwise), fun f hf => ?_⟩
  obtain ⟨g, hg, hgf⟩ := List.mem_map.1 (he ▸ List.mem_map_of_mem (f := Filock.set) hf)
  have hp := h.proper g hg
  exact ⟨hgf ▸ hp.lt, hgf ▸ hp.type⟩

theorem Ordered.wakeflgUp {chain : List Filock} (h : Ordered chain) (found : ℕ) :
    Ordered (wakeflgUp chain found) := by
  refine h.congr (List.ext_getElem? fun i => ?_)
  simp only [RecordLock.wakeflgUp, List.getElem?_map, List.getElem?_modify]
  split_ifs <;> cases chain[i]? <;> rfl

section Steps

variable {s s' : Locks} {id : ℤ × ℤ} {pid : ℤ} {ld : Flock}

theorem Inv.setFlino (h : Inv s) {flip : Option Flino}
    (hf : ∀ f, flip = some f → Ordered f.fl_flck) : Inv (s.setFlino id flip) := by
  refine ⟨fun id' flip' h' => ?_, h.sleeping⟩
  by_cases he : id' = id
  · subst he
    exact hf flip' (by simpa [Locks.setFlino] using h')
  · exact h.ordered id' flip' (by simpa [Locks.setFlino, he] using h')

/-- The invariant does not depend on how many headers and records are free. -/
theorem Inv.setFree (h : Inv s) (m n : ℕ) : Inv { s with nfrfid := m, nfrlock := n } :=
  ⟨h.ordered, h.sleeping⟩

theorem Inv.findfid (h : Inv s) (hf : findfid s id = some s') : Inv s' := by
  obtain ⟨flip, hflip, rfl⟩ := Option.map_eq_some_iff.1 hf
  exact h.setFlino fun f hf => Option.some.inj hf ▸ h.ordered id flip hflip

theorem Inv.allocfid (h : Inv s) (hf : allocfid s id = some s') : Inv s' := by
  unfold RecordLock.allocfid at hf
  split at hf
  · exact absurd hf (by simp)
  · obtain rfl := Option.some.inj hf
    exact (h.setFlino fun f hf => Option.some.inj hf ▸ ordered_nil).setFree _ _

theorem Inv.freefid (h : Inv s) : Inv (freefid s id) := by
  unfold RecordLock.freefid
  split
  · exact h
  · rename_i flip hflip
    split_ifs
    · exact (h.setFlino fun f hf => absurd hf (by simp)).setFree _ _
    · exact h.setFlino fun f hf => Option.some.inj hf ▸ h.ordered id flip hflip

theorem Inv.endPass {r : Locks × Outcome} (h : Inv r.1) : Inv (endPass id r) := by
  unfold RecordLock.endPass
  split
  · exact Inv.freefid h
  · exact h

theorem Inv.adjust {flip : Flino} {insrt : ℕ} (h : Inv s)
    (ho : Ordered (flckadj pid flip.fl_flck s.nfrlock insrt ld).1) :
    Inv (adjust pid id flip ld insrt s).1 :=
  (h.setFlino fun f hf => by rw [← Option.some.inj hf]; exact ho).setFree _ _

theorem Inv.lockPass {slpflg : Bool} {flip : Flino} {r : Locks × Outcome} (h : Inv s)
    (ho : Ordered flip.fl_flck) (hld : Request ld) (hu : ld.l_type ≠ .unlck)
    (hr : lockPass pid id flip ld slpflg s = some r) : Inv r.1 := by
  unfold RecordLock.lockPass at hr
  split at hr
  · rename_i hb
    exact Option.some.inj hr ▸ h.adjust (ordered_lock ho hld hu hb)
  · split_ifs at hr
    · split at hr
      · exact absurd hr (by simp)
      · exact Option.some.inj hr ▸ h
      · exact Option.some.inj hr ▸ h
      · -- The process sleeps, leaving its request in `sleeplcks`.
        obtain rfl := Option.some.inj hr
        refine ⟨(h.setFlino fun f hf => ?_).ordered, fun sl hsl => ?_⟩
        · exact Option.some.inj hf ▸ ho.wakeflgUp _
        · rcases List.mem_cons.1 hsl with rfl | hsl
          · exact ⟨⟨hld.lt, hld.type⟩, hu⟩
          · exact h.sleeping sl hsl
    · exact Option.some.inj hr ▸ h

/-- A pass keeps the invariant, if the unlock it makes is clean. -/
theorem Inv.pass {slpflg : Bool} {r : Locks × Outcome} (h : Inv s)
    (hld : ld.l_start < ld.l_end)
    (hc : ld.l_type = .unlck → ∀ flip, s.flino id = some flip →
      flip.fl_flck.Pairwise (Severs pid ld))
    (hr : pass pid id ld slpflg s = some r) : Inv r.1 := by
  obtain ⟨flip, hflip, hr⟩ := Option.bind_eq_some_iff.1 hr
  have ho := h.ordered id flip hflip
  split at hr
  · rename_i ht
    exact h.lockPass ho ⟨hld, .inl ht⟩ (by simp [ht]) hr
  · rename_i ht
    exact h.lockPass ho ⟨hld, .inr (.inl ht)⟩ (by simp [ht]) hr
  · rename_i ht
    exact Option.some.inj hr ▸ h.adjust (ordered_unlock ho ⟨hld, .inr (.inr ht)⟩ ht
      (min_le_left _ _) (hc ht flip hflip))
  · exact Option.some.inj hr ▸ h

/-- The header that `findfid` holds has the chain it had. -/
theorem flino_findfid (hf : findfid s id = some s') {flip : Flino} (h : s'.flino id = some flip) :
    ∃ flip', s.flino id = some flip' ∧ flip'.fl_flck = flip.fl_flck := by
  obtain ⟨flip', hflip, rfl⟩ := Option.map_eq_some_iff.1 hf
  refine ⟨flip', hflip, ?_⟩
  simp only [Locks.setFlino, Function.update_self, Option.some.injEq] at h
  rw [← h]

theorem Inv.setflck {fp : File} {lckdat : Flock} {slpflg : Bool} (h : Inv s)
    (hr : (Act.setflck pid fp lckdat slpflg).InRange)
    (hc : (Act.setflck pid fp lckdat slpflg).Clean s)
    (hs : setflck pid fp lckdat slpflg s = some s') : Inv s' := by
  unfold RecordLock.setflck at hs
  split at hs
  · exact Option.some.inj hs ▸ h
  · rename_i ld hld
    have hlt := (hr ld hld).2.1
    split at hs
    · rename_i hf
      obtain ⟨r, hr, rfl⟩ := Option.map_eq_some_iff.1 hs
      refine ((h.findfid hf).pass hlt (fun ht flip hflip => ?_) hr).endPass
      obtain ⟨flip', hflip', he⟩ := flino_findfid hf hflip
      exact he ▸ hc ld flip' hld ht hflip'
    · split_ifs at hs with hu
      · exact Option.some.inj hs ▸ h
      · split at hs
        · exact Option.some.inj hs ▸ h
        · rename_i ha
          obtain ⟨r, hr, rfl⟩ := Option.map_eq_some_iff.1 hs
          exact ((h.allocfid ha).pass hlt (fun ht => absurd ht hu) hr).endPass

theorem Inv.resume {k : ℕ} {intr : Bool} (h : Inv s) (hs : resume k intr s = some s') : Inv s' := by
  obtain ⟨sl, hsl, hs⟩ := Option.bind_eq_some_iff.1 hs
  obtain ⟨hld, hu⟩ := h.sleeping sl (List.mem_of_getElem? hsl)
  have h' : Inv { s with sleeplcks := s.sleeplcks.eraseIdx k, nfrlock := s.nfrlock + 1 } :=
    ⟨h.ordered, fun sl hsl => h.sleeping sl (List.mem_of_mem_eraseIdx hsl)⟩
  split_ifs at hs
  · exact Option.some.inj hs ▸ h'.freefid
  · obtain ⟨r, hr, rfl⟩ := Option.map_eq_some_iff.1 hs
    exact (h'.pass hld.lt (fun ht => absurd ht hu) hr).endPass

theorem Inv.cleanlocks {fp : File} (h : Inv s) : Inv (cleanlocks pid fp s) := by
  unfold RecordLock.cleanlocks
  split_ifs
  · split
    · exact h
    · rename_i hf
      split
      · exact h.findfid hf
      · rename_i flip hflip
        have ho := (h.findfid hf).ordered _ flip hflip
        exact (((h.findfid hf).setFlino fun f hf => Option.some.inj hf ▸
          ho.sublist (List.filter_sublist)).setFree _ _).freefid
  · exact h

end Steps

/-- In every run of calls in range whose unlocks are clean, the invariant holds. -/
theorem inv_of_clean {s : Locks}
    (hs : locks.ReachableIf (fun s a => a.InRange ∧ a.Clean s) s) : Inv s := by
  refine hs.invariant (fun s h => ?_) fun s a s' h hok hn => ?_
  · exact ⟨fun id flip hf => absurd hf (by simp [h.1 id]), fun sl hsl => absurd hsl (by simp [h.2])⟩
  · cases a with
    | setflck pid fp lckdat slpflg => exact h.setflck hok.1 hok.2 hn
    | resume k intr => exact h.resume hn
    | cleanlocks pid fp => exact Option.some.inj hn ▸ h.cleanlocks

/-- In every run of calls in range whose unlocks are clean, no two records of
    different processes intersect if one of them is a write lock. -/
theorem exclusion_of_clean : ∀ s,
    locks.ReachableIf (fun s a => a.InRange ∧ a.Clean s) s → Exclusion s :=
  fun _ hs id flip hf => ((inv_of_clean hs).ordered id flip hf).excludes

/-- The processes 1 and 2 share a range, which process 3 is refused. -/
def sharedActs : List Act :=
  [.setflck 1 anyFile (ask .rdlck 0 100) false, .setflck 2 anyFile (ask .rdlck 10 10) false,
    .setflck 3 anyFile (ask .wrlck 12 3) false]

theorem exclusion_sharedActs : ∃ s, locks.run emptyLocks sharedActs = some s ∧ Exclusion s := by
  obtain ⟨s, hs⟩ := Option.isSome_iff_exists.1
    (show (locks.run emptyLocks sharedActs).isSome = true by decide)
  refine ⟨s, hs, exclusion_of_clean s ?_⟩
  refine Machine.reachableIf_run (.init ⟨fun _ => rfl, rfl⟩) (fun a ha s => ⟨?_, ?_⟩) hs
  · fin_cases ha <;> rintro ld ⟨⟩ <;> decide
  · fin_cases ha <;> rintro ld flip ⟨⟩ ⟨⟩

end AuxKernel.RecordLock
