import AuxKernel.RecordLock.Deadlock
import AuxKernel.RecordLock.Ranges

/-!
# Asking for a lock

`getflck` tells which record keeps a process from a lock. It scans the chain as `setflck` does,
and gives the header of the file back unless it returns from its first `convoff`.

* `busy_of_reachable`: a header is only kept while it is held or has locks, so holding it for the
  time of the call changes nothing (`freefid_hold`);
* `agrees_iff`: when the answer agrees with what `setflck` would do, and the call changes nothing.
-/

namespace AuxKernel.RecordLock

/-- The record pointed to by `found` takes the place of the request. -/
def recordAt (chain : List Filock) (found : ℕ) (ld : Flock) : Flock :=
  (chain[found - 1]?.map Filock.set).getD ld

/-- The record that blocks the request, or the request as an unlock. -/
def foundOr (pid : ℤ) (chain : List Filock) (ld : Flock) : Flock :=
  match (blocked pid chain ld).1 with
  | some found => recordAt chain found ld
  | none => { ld with l_type := .unlck }

/-- The length in place of the end again. -/
def restoreLen (ld : Flock) : Flock :=
  if ld.l_end = MAXEND then { ld with l_len := 0 }
  else { ld with l_len := toLong (ld.l_len - ld.l_start) }

/-- What `getflck` leaves of the table, and what it returns: an error, or the request as it is
    copied out to the process. -/
def getflck (pid : ℤ) (fp : File) (lckdat : Flock) (s : Locks) : Locks × Except Errno Flock :=
  if !fp.isVnode then (s, .error .eopnotsupp)
  else if !fp.isSvfs then (s, .error .eremote)
  else
    match findfid s fp.id with
    | none => (s, .ok { lckdat with l_type := .unlck })
    | some s =>
      match convoff fp lckdat 0 with
      | .error e => (s, .error e)
      | .ok ld =>
        let ld :=
          if ld.l_len = 0 then { ld with l_len := MAXEND }
          else { ld with l_len := toLong (ld.l_len + ld.l_start) }
        let ld := foundOr pid (s.chain fp.id) ld
        (freefid s fp.id, convoff fp (restoreLen ld) lckdat.l_whence)

/-! ## Headers -/

/-- A header is held, or has locks. -/
def Flino.Busy (flip : Flino) : Prop := 0 < flip.fl_refcnt ∨ flip.fl_flck ≠ []

/-- Only such headers are kept. -/
def Busy (s : Locks) : Prop := ∀ id flip, s.flino id = some flip → flip.Busy

section Busy

variable {s s' : Locks} {id : ℤ × ℤ} {pid : ℤ} {ld : Flock} {flip : Flino}

/-- All headers but that of `id` are busy. -/
def BusyBut (id : ℤ × ℤ) (s : Locks) : Prop :=
  ∀ id' flip, id' ≠ id → s.flino id' = some flip → flip.Busy

theorem Busy.but (h : Busy s) : BusyBut id s := fun id' flip _ hf => h id' flip hf

theorem BusyBut.setFlino {flip : Option Flino} (h : BusyBut id s) :
    BusyBut id (s.setFlino id flip) := by
  intro id' flip' hne hf
  exact h id' flip' hne (by simpa [Locks.setFlino, hne] using hf)

/-- Letting the header go leaves it busy, or free. -/
theorem BusyBut.freefid (h : BusyBut id s) : Busy (freefid s id) := by
  intro id' flip' hf
  unfold RecordLock.freefid at hf
  split at hf
  · rename_i hnone
    by_cases he : id' = id
    · rw [he, hnone] at hf
      cases hf
    · exact h id' flip' he hf
  · rename_i flip hflip
    by_cases he : id' = id
    · subst he
      split_ifs at hf with hfree
      · simp [Locks.setFlino] at hf
      · simp only [Locks.setFlino, Function.update_self, Option.some.injEq] at hf
        rw [← hf, Flino.Busy]
        by_cases hch : flip.fl_flck = []
        · exact .inl (Int.not_le.1 fun hle => hfree ⟨hle, hch⟩)
        · exact .inr hch
    · split_ifs at hf
      · exact h id' flip' he (by simpa [Locks.setFlino, he] using hf)
      · exact h id' flip' he (by simpa [Locks.setFlino, he] using hf)

theorem BusyBut.findfid (h : BusyBut id s) (hf : findfid s id = some s') : BusyBut id s' := by
  obtain ⟨flip, -, rfl⟩ := Option.map_eq_some_iff.1 hf
  exact h.setFlino

theorem BusyBut.allocfid (h : BusyBut id s) (hf : allocfid s id = some s') : BusyBut id s' := by
  unfold RecordLock.allocfid at hf
  split at hf
  · cases hf
  · obtain rfl := Option.some.inj hf
    exact fun id' flip hne hf => h.setFlino id' flip hne hf

/-- A pass only changes the header it is about, and one that sleeps leaves locks in it. -/
theorem BusyBut.pass {slpflg : Bool} {r : Locks × Outcome} (h : BusyBut id s)
    (hr : pass pid id ld slpflg s = some r) : BusyBut id r.1 ∧ (r.2 = .sleep → Busy r.1) := by
  obtain ⟨flip, hflip, hr⟩ := Option.bind_eq_some_iff.1 hr
  have hadj (i : ℕ) : BusyBut id (adjust pid id flip ld i s).1 ∧
      ((adjust pid id flip ld i s).2 = .sleep → Busy (adjust pid id flip ld i s).1) :=
    ⟨fun id' flip' hne hf => h.setFlino id' flip' hne hf, fun he => by cases he⟩
  have hlock (hr : lockPass pid id flip ld slpflg s = some r) :
      BusyBut id r.1 ∧ (r.2 = .sleep → Busy r.1) := by
    unfold lockPass at hr
    split at hr
    · exact Option.some.inj hr ▸ hadj _
    · rename_i found _ hb
      split_ifs at hr
      · split at hr
        · cases hr
        · exact Option.some.inj hr ▸ ⟨h, fun he => by cases he⟩
        · exact Option.some.inj hr ▸ ⟨h, fun he => by cases he⟩
        · obtain rfl := Option.some.inj hr
          have hbut : BusyBut id (s.setFlino id
              (some { flip with fl_flck := wakeflgUp flip.fl_flck found })) := h.setFlino
          refine ⟨fun id' flip' hne hf => hbut id' flip' hne hf, fun _ id' flip' hf => ?_⟩
          by_cases he : id' = id
          · -- The record that blocks the request is in the chain.
            subst he
            simp only [Locks.setFlino, Function.update_self, Option.some.injEq] at hf
            have hbl : (blocked pid flip.fl_flck ld).1 = some found := by rw [hb]
            obtain ⟨f, hfm, -⟩ := conflicts_of_blocked hbl
            rw [← hf]
            refine .inr fun hnil => ?_
            have hlen := congrArg List.length hnil
            rw [wakeflgUp, List.length_modify] at hlen
            exact List.not_mem_nil (List.length_eq_zero_iff.1 hlen ▸ hfm)
          · exact hbut id' flip' he hf
      · exact Option.some.inj hr ▸ ⟨h, fun he => by cases he⟩
  split at hr
  · exact hlock hr
  · exact hlock hr
  · exact Option.some.inj hr ▸ hadj _
  · exact Option.some.inj hr ▸ ⟨h, fun he => by cases he⟩

theorem BusyBut.endPass {slpflg : Bool} {r : Locks × Outcome} (h : BusyBut id s)
    (hr : RecordLock.pass pid id ld slpflg s = some r) : Busy (endPass id r) := by
  obtain ⟨hbut, hsleep⟩ := h.pass hr
  obtain ⟨t, o⟩ := r
  cases o with
  | ret rv => exact hbut.freefid
  | sleep => exact hsleep rfl

theorem Busy.setflck {fp : File} {lckdat : Flock} {slpflg : Bool} (h : Busy s)
    (hs : setflck pid fp lckdat slpflg s = some s') : Busy s' := by
  unfold RecordLock.setflck at hs
  split at hs
  · exact Option.some.inj hs ▸ h
  · split at hs
    · rename_i hf
      obtain ⟨r, hr, rfl⟩ := Option.map_eq_some_iff.1 hs
      exact (h.but.findfid hf).endPass hr
    · split_ifs at hs
      · exact Option.some.inj hs ▸ h
      · split at hs
        · exact Option.some.inj hs ▸ h
        · rename_i hf
          obtain ⟨r, hr, rfl⟩ := Option.map_eq_some_iff.1 hs
          exact (h.but.allocfid hf).endPass hr

theorem Busy.resume {k : ℕ} {intr : Bool} (h : Busy s) (hs : resume k intr s = some s') :
    Busy s' := by
  obtain ⟨sl, hsl, hs⟩ := Option.bind_eq_some_iff.1 hs
  have h' : Busy { s with sleeplcks := s.sleeplcks.eraseIdx k, nfrlock := s.nfrlock + 1 } := h
  split_ifs at hs
  · exact Option.some.inj hs ▸ h'.but.freefid
  · obtain ⟨r, hr, rfl⟩ := Option.map_eq_some_iff.1 hs
    exact h'.but.endPass hr

theorem Busy.cleanlocks {fp : File} (h : Busy s) : Busy (cleanlocks pid fp s) := by
  unfold RecordLock.cleanlocks
  split_ifs
  · split
    · exact h
    · rename_i hf
      have hbut := h.but.findfid hf
      split
      · rename_i hnone
        intro id flip hid
        by_cases he : id = fp.id
        · rw [he, hnone] at hid
          cases hid
        · exact hbut id flip he hid
      · refine BusyBut.freefid ?_
        exact fun id flip hne hid => hbut.setFlino id flip hne hid
  · exact h

/-- In every run, only busy headers are kept. -/
theorem busy_of_reachable (hs : locks.Reachable s) : Busy s := by
  refine hs.invariant (fun s h => ?_) fun s a s' h _ hn => ?_
  · exact fun id flip hf => absurd hf (by simp [h.1 id])
  · cases a with
    | setflck pid fp lckdat slpflg => exact h.setflck hn
    | resume k intr => exact h.resume hn
    | cleanlocks pid fp => exact Option.some.inj hn ▸ h.cleanlocks

/-- Holding a busy header and letting it go changes nothing. -/
theorem freefid_hold (hflip : s.flino id = some flip) (hb : flip.Busy)
    (hf : RecordLock.findfid s id = some s') : RecordLock.freefid s' id = s := by
  obtain ⟨flip', hflip', rfl⟩ := Option.map_eq_some_iff.1 hf
  obtain rfl := Option.some.inj (hflip'.symm.trans hflip)
  have hkeep : ¬(flip'.fl_refcnt ≤ 0 ∧ flip'.fl_flck = []) := by
    rintro ⟨hle, hnil⟩
    exact hb.elim (fun hpos => absurd hpos (Int.not_lt.2 hle)) fun hne => hne hnil
  have hupd : Function.update (Function.update s.flino id
      (some { flip' with fl_refcnt := flip'.fl_refcnt + 1 })) id (some flip') = s.flino := by
    rw [Function.update_idem, ← hflip, Function.update_eq_self]
  simp only [RecordLock.freefid, Locks.setFlino, Function.update_self, add_sub_cancel_right,
    if_neg hkeep, hupd]

end Busy

/-! ## What the records are relative to -/

/-- Locking data that start in the file, counted from its beginning. -/
structure Stored (ld : Flock) : Prop where
  l_whence : ld.l_whence = 0
  nonneg : 0 ≤ ld.l_start

theorem stored_adjClosed : AdjClosed Stored where
  pid _ h := ⟨h.l_whence, h.nonneg⟩
  sever _ hf hs _ := ⟨hf.l_whence, hf.nonneg.trans hs.le⟩
  cut _ hf _ _ := ⟨hf.l_whence, hf.nonneg⟩
  mergeStart hld hf _ := ⟨hld.l_whence, hf.nonneg⟩
  mergeEnd hld _ _ := ⟨hld.l_whence, hld.nonneg⟩

theorem stored_of_reachable {s : Locks} (hs : locks.Reachable s) : TableAll Stored s := by
  refine tableAll_of_reachable stored_adjClosed (hs.mono fun s a _ => ?_)
  cases a with
  | setflck pid fp lckdat slpflg =>
    intro ld hld _
    obtain ⟨-, -, h₀, rfl⟩ := request_ok_iff.1 hld
    exact ⟨rfl, h₀⟩
  | resume k intr => trivial
  | cleanlocks pid fp => trivial

/-! ## What `setflck` refuses -/

/-- The request as both calls use it. -/
def asked (fp : File) (lckdat : Flock) : Flock :=
  { converted fp lckdat with l_len := storedEnd fp lckdat }

section Refuse

variable {s : Locks} {id : ℤ × ℤ} {pid : ℤ} {ld lckdat : Flock} {flip : Flino} {fp : File}

/-- A pass that does not sleep refuses a lock if a record blocks it. -/
theorem pass_eacces (hflip : s.flino id = some flip) : ∃ r, pass pid id ld false s = some r ∧
    (r.2 = .ret (some .eacces) ↔ (ld.l_type = .rdlck ∨ ld.l_type = .wrlck) ∧
      (blocked pid flip.fl_flck ld).1 ≠ none) := by
  have hadj (i : ℕ) : (adjust pid id flip ld i s).2 ≠ .ret (some .eacces) := by
    intro he
    rcases flckadj_ret.imp ((Outcome.ret.inj he).symm.trans ·) ((Outcome.ret.inj he).symm.trans ·)
      with h | h
    · cases h
    · cases h
  have hlock (ht : ld.l_type = .rdlck ∨ ld.l_type = .wrlck) : ∃ r,
      lockPass pid id flip ld false s = some r ∧ (r.2 = .ret (some .eacces) ↔
        (ld.l_type = .rdlck ∨ ld.l_type = .wrlck) ∧ (blocked pid flip.fl_flck ld).1 ≠ none) := by
    rw [lockPass]
    cases hb : blocked pid flip.fl_flck ld with
    | mk found insrt =>
      cases found with
      | none => exact ⟨_, rfl, fun he => absurd he (hadj insrt), fun h => absurd rfl h.2⟩
      | some found => exact ⟨_, rfl, fun _ => ⟨ht, by simp⟩, fun _ => rfl⟩
  simp only [pass, hflip, Option.bind_some]
  cases ht : ld.l_type with
  | rdlck => simpa only [ht] using hlock (.inl ht)
  | wrlck => simpa only [ht] using hlock (.inr ht)
  | unlck => exact ⟨_, rfl, fun he => absurd he (hadj _), fun h => by simp at h⟩
  | other t => exact ⟨_, rfl, fun he => by simp at he, fun h => by simp at h⟩

theorem request_ne_eacces {e : Errno} (h : request fp lckdat = .error e) : e ≠ .eacces := by
  rintro rfl
  rw [request, convoff_zero] at h
  split_ifs at h
  · cases h
  · cases h
  · cases h
  · by_cases hlen : (converted fp lckdat).l_len = 0
    · simp [bind, Except.bind, pure, Except.pure, hlen] at h
    · simp [bind, Except.bind, pure, Except.pure, hlen] at h
  · cases h

/-- `setflck` refuses a request that a record blocks. -/
theorem setflck_eacces_iff : (setflckCall pid fp lckdat false s).map Prod.snd =
    some (.ret (some .eacces)) ↔ fp.Admits lckdat.l_type ∧
      (lckdat.l_whence = 0 ∨ lckdat.l_whence = 1 ∨ lckdat.l_whence = 2) ∧
      0 ≤ storedStart fp lckdat ∧ (lckdat.l_type = .rdlck ∨ lckdat.l_type = .wrlck) ∧
      (blocked pid (s.chain fp.id) (asked fp lckdat)).1 ≠ none := by
  have hend {s' : Locks} {flip : Flino} (hflip : s'.flino fp.id = some flip)
      (hch : flip.fl_flck = s.chain fp.id) :
      ((pass pid fp.id (asked fp lckdat) false s').map fun r =>
        (endPass fp.id r, r.2)).map Prod.snd = some (.ret (some .eacces)) ↔
        (lckdat.l_type = .rdlck ∨ lckdat.l_type = .wrlck) ∧
          (blocked pid (s.chain fp.id) (asked fp lckdat)).1 ≠ none := by
    obtain ⟨r, hr, hiff⟩ : ∃ r, pass pid fp.id (asked fp lckdat) false s' = some r ∧
        (r.2 = .ret (some .eacces) ↔ (lckdat.l_type = .rdlck ∨ lckdat.l_type = .wrlck) ∧
          (blocked pid flip.fl_flck (asked fp lckdat)).1 ≠ none) := pass_eacces hflip
    rw [hr, ← hch]
    simpa using hiff
  unfold setflckCall
  cases hreq : request fp lckdat with
  | error e =>
    have hne := request_ne_eacces hreq
    simp only [Option.map_some, Option.some.injEq, Outcome.ret.injEq]
    refine ⟨fun h => absurd h hne, fun h => ?_⟩
    have := request_ok_iff.2 ⟨h.1, h.2.1, h.2.2.1, rfl⟩
    cases hreq.symm.trans this
  | ok ld =>
    obtain ⟨hadm, hw, h₀, hld⟩ := request_ok_iff.1 hreq
    obtain rfl : ld = asked fp lckdat := hld
    rw [and_iff_right hadm, and_iff_right hw, and_iff_right h₀]
    dsimp only
    cases hf : findfid s fp.id with
    | some s' =>
      obtain ⟨flip, hflip, rfl⟩ := Option.map_eq_some_iff.1 hf
      exact hend (Function.update_self _ _ _) (by simp [Locks.chain, hflip])
    | none =>
      have hnone := Option.map_eq_none_iff.1 hf
      have hblocked : (blocked pid (s.chain fp.id) (asked fp lckdat)).1 = none := by
        simp [Locks.chain, hnone, blocked, blockedHead]
      by_cases hu : (asked fp lckdat).l_type = .unlck
      · simp [if_pos hu, hblocked]
      · simp only [if_neg hu]
        cases ha : allocfid s fp.id with
        | none => simp [hblocked]
        | some s' => exact hend (flino_allocfid ha) (by simp [Locks.chain, hnone])

end Refuse

/-! ## The answer -/

/-- A record as `getflck` presents it. -/
def presented (fp : File) (whence : ℤ) (f : Flock) : Flock :=
  { f with
    l_whence := whence
    l_start := if whence = 0 then f.l_start else toLong (f.l_start - fp.base whence)
    l_len := if f.l_end = MAXEND then 0 else toLong (f.l_end - f.l_start) }

/-- The record keeps the process from the request: it is of another process, they intersect, and
    one of them is a write lock. -/
def KeepsFrom (pid : ℤ) (fp : File) (lckdat : Flock) (f : Filock) : Prop :=
  f.set.l_pid ≠ pid ∧ Intersect ⟨asked fp lckdat, 0⟩ f ∧
    (f.set.l_type = .wrlck ∨ lckdat.l_type = .wrlck)

/-- The answer is a record. -/
def Reports (r : Except Errno Flock) : Prop := ∃ ld, r = .ok ld ∧ ld.l_type ≠ .unlck

/-- The answer agrees with what `setflck` would do, and asking changes nothing. -/
structure Agrees (pid : ℤ) (fp : File) (lckdat : Flock) (s : Locks) : Prop where
  reports_iff : Reports (getflck pid fp lckdat s).2 ↔
    (setflckCall pid fp lckdat false s).map Prod.snd = some (.ret (some .eacces))
  record : ∀ ld, (getflck pid fp lckdat s).2 = .ok ld → ld.l_type ≠ .unlck →
    ∃ f ∈ s.chain fp.id, KeepsFrom pid fp lckdat f ∧ ld = presented fp lckdat.l_whence f.set
  unlocked : ∀ ld, (getflck pid fp lckdat s).2 = .ok ld → ld.l_type = .unlck →
    ld = { lckdat with l_type := .unlck }
  unchanged : (getflck pid fp lckdat s).1 = s

/-- When it does: the file is not one for locks, or has no header; or the start of the request is
    one that `convoff` converts, and if a record blocks the request, it is one for a lock that the
    file admits, if none does, it does not give the length of all bytes up to `MAXEND`. -/
def Answers (pid : ℤ) (fp : File) (lckdat : Flock) (s : Locks) : Prop :=
  fp.isVnode = false ∨ fp.isSvfs = false ∨ s.flino fp.id = none ∨
    ((lckdat.l_whence = 0 ∨ lckdat.l_whence = 1 ∨ lckdat.l_whence = 2) ∧
      0 ≤ storedStart fp lckdat ∧
      if (blocked pid (s.chain fp.id) (asked fp lckdat)).1 = none then
        lckdat.l_len = 0 ∨ storedStart fp lckdat + lckdat.l_len ≠ MAXEND
      else fp.Admits lckdat.l_type ∧ (lckdat.l_type = .rdlck ∨ lckdat.l_type = .wrlck))

/-- The start and the length of a request are `long`s. -/
structure Flock.Long (ld : Flock) : Prop where
  start_ge : -2 ^ 31 ≤ ld.l_start
  start_lt : ld.l_start < 2 ^ 31
  len_ge : -2 ^ 31 ≤ ld.l_len
  len_lt : ld.l_len < 2 ^ 31

section Answer

variable {s : Locks} {pid : ℤ} {ld lckdat : Flock} {flip : Flino} {fp : File}

/-- A start in the file is converted back. -/
theorem convoff_back {whence : ℤ} (hld : ld.l_whence = 0) (h₀ : 0 ≤ ld.l_start)
    (hw : whence = 0 ∨ whence = 1 ∨ whence = 2) : convoff fp ld whence = .ok { ld with
      l_whence := whence
      l_start := if whence = 0 then ld.l_start else toLong (ld.l_start - fp.base whence) } := by
  have hn : ¬ld.l_start < 0 := Int.not_lt.2 h₀
  rcases hw with rfl | rfl | rfl
  · simp [convoff, hld, hn, bind, Except.bind, pure, Except.pure]
  · simp [convoff, hld, hn, bind, Except.bind, pure, Except.pure, File.base]
  · simp [convoff, hld, hn, bind, Except.bind, pure, Except.pure, File.base]

theorem storedStart_lt (hl : lckdat.Long) : storedStart fp lckdat < 2 ^ 31 := by
  rw [storedStart]
  split_ifs
  · exact hl.start_lt
  · exact Int.bmod_lt (by decide)

/-- The start is given back as it was. -/
theorem storedStart_back (hl : lckdat.Long) : (if lckdat.l_whence = 0 then storedStart fp lckdat
    else toLong (storedStart fp lckdat - fp.base lckdat.l_whence)) = lckdat.l_start := by
  rw [storedStart]
  split_ifs
  · rfl
  · rw [toLong, toLong, Int.bmod_sub_bmod, askedStart, add_sub_cancel_right]
    exact toLong_of_mem hl.start_ge hl.start_lt

/-- The length is given back as it was, unless it makes the end `MAXEND`. -/
theorem storedEnd_back (hl : lckdat.Long) (h₀ : 0 ≤ storedStart fp lckdat) :
    (if storedEnd fp lckdat = MAXEND then 0
      else toLong (storedEnd fp lckdat - storedStart fp lckdat)) = lckdat.l_len ↔
      lckdat.l_len = 0 ∨ storedStart fp lckdat + lckdat.l_len ≠ MAXEND := by
  have hmax : MAXEND = 2 ^ 31 - 1 := rfl
  have hlt : storedStart fp lckdat < 2 ^ 31 := storedStart_lt hl
  have hge := hl.len_ge
  have hlt' := hl.len_lt
  by_cases hlen : lckdat.l_len = 0
  · simp [storedEnd, hlen]
  have hend : storedEnd fp lckdat = toLong (lckdat.l_len + storedStart fp lckdat) := if_neg hlen
  have hback : toLong (storedEnd fp lckdat - storedStart fp lckdat) = lckdat.l_len := by
    rw [hend, toLong, toLong, Int.bmod_sub_bmod, add_sub_cancel_right]
    exact toLong_of_mem hge hlt'
  -- A sum that is too large is negative.
  have hiff : storedEnd fp lckdat = MAXEND ↔ storedStart fp lckdat + lckdat.l_len = MAXEND := by
    rw [hend]
    rcases lt_or_ge (lckdat.l_len + storedStart fp lckdat) (2 ^ 31) with h | h
    · rw [toLong_of_mem (by omega) h, add_comm]
    · have hwrap : toLong (lckdat.l_len + storedStart fp lckdat) =
          lckdat.l_len + storedStart fp lckdat - 2 ^ 32 := by
        rw [toLong, ← Int.sub_bmod_right]
        exact toLong_of_mem (by push_cast; omega) (by push_cast; omega)
      omega
  by_cases hm : storedEnd fp lckdat = MAXEND
  · rw [if_pos hm]
    simp [hlen, hiff.1 hm, eq_comm]
  · rw [if_neg hm, hback]
    simp [mt hiff.2 hm]

theorem asked_eq (fp : File) (lckdat : Flock) : (if (converted fp lckdat).l_len = 0 then
    { converted fp lckdat with l_len := MAXEND } else { converted fp lckdat with
      l_len := toLong ((converted fp lckdat).l_len + (converted fp lckdat).l_start) }) =
    asked fp lckdat := by
  unfold asked storedEnd
  by_cases hlen : lckdat.l_len = 0
  · simp [converted, hlen]
  · simp [converted, hlen]

/-- The answer about a file with a header. -/
theorem getflck_eq {s' : Locks} (hv : fp.isVnode = true) (hsv : fp.isSvfs = true)
    (hf : findfid s fp.id = some s')
    (hw : lckdat.l_whence = 0 ∨ lckdat.l_whence = 1 ∨ lckdat.l_whence = 2)
    (h₀ : 0 ≤ storedStart fp lckdat) :
    getflck pid fp lckdat s = (freefid s' fp.id,
      convoff fp (restoreLen (foundOr pid (s.chain fp.id) (asked fp lckdat))) lckdat.l_whence) := by
  rw [getflck, hv, hsv, if_neg (by decide), if_neg (by decide)]
  simp only [hf, convoff_zero, if_pos (And.intro hw h₀), asked_eq, chain_findfid hf]

/-- A record that is found is presented. -/
theorem convoff_record {f : Flock} (hf : Stored f) {whence : ℤ}
    (hw : whence = 0 ∨ whence = 1 ∨ whence = 2) :
    convoff fp (restoreLen f) whence = .ok (presented fp whence f) := by
  have hlen : restoreLen f =
      { f with l_len := if f.l_end = MAXEND then 0 else toLong (f.l_end - f.l_start) } := by
    unfold restoreLen
    split_ifs
    · rfl
    · rfl
  rw [hlen]
  exact convoff_back hf.l_whence hf.nonneg hw

/-- The request is given back as an unlock, with the length that is restored. -/
theorem convoff_unlocked (hl : lckdat.Long) (h₀ : 0 ≤ storedStart fp lckdat)
    (hw : lckdat.l_whence = 0 ∨ lckdat.l_whence = 1 ∨ lckdat.l_whence = 2) :
    convoff fp (restoreLen { asked fp lckdat with l_type := .unlck }) lckdat.l_whence =
      .ok { lckdat with
        l_type := .unlck
        l_len := if storedEnd fp lckdat = MAXEND then 0
          else toLong (storedEnd fp lckdat - storedStart fp lckdat) } := by
  have hstored : Stored { asked fp lckdat with l_type := .unlck } := ⟨rfl, h₀⟩
  have hback := @storedStart_back _ fp hl
  rw [convoff_record hstored hw]
  simp only [presented, asked, converted, Flock.l_end, hback]
  rfl

/-- The record that is found keeps the process from the request. -/
theorem foundOr_record (hb : (blocked pid (s.chain fp.id) (asked fp lckdat)).1 ≠ none) :
    ∃ f ∈ s.chain fp.id, KeepsFrom pid fp lckdat f ∧ f.set.l_type ≠ .unlck ∧
      foundOr pid (s.chain fp.id) (asked fp lckdat) = f.set := by
  obtain ⟨found, hfound⟩ := Option.ne_none_iff_exists'.1 hb
  obtain ⟨i, f, rfl, hf, hc⟩ := blockedHead_some hfound
  refine ⟨f, List.mem_of_getElem? hf, ?_, ?_, ?_⟩
  · simp only [conflicts, Bool.and_eq_true, Bool.or_eq_true, decide_eq_true_eq] at hc
    obtain ⟨⟨⟨hs, he⟩, hp⟩, ht⟩ := hc
    exact ⟨by simpa using hp, ⟨hs, he⟩, ht.imp id And.right⟩
  · rintro ht
    simp [conflicts, ht] at hc
  · rw [foundOr, hfound]
    simp [recordAt, hf]

/-- An error, or an unlock, where `setflck` would not refuse the request for a record. -/
theorem Agrees.of_eq {r : Except Errno Flock} (hr : getflck pid fp lckdat s = (s, r))
    (hok : ∀ ld, r = .ok ld → ld = { lckdat with l_type := .unlck })
    (hno : (setflckCall pid fp lckdat false s).map Prod.snd ≠ some (.ret (some .eacces))) :
    Agrees pid fp lckdat s := by
  have hrep : ∀ ld, r = .ok ld → ld.l_type = .unlck := fun ld h => by rw [hok ld h]
  refine ⟨⟨?_, fun h => absurd h hno⟩, ?_, ?_, by rw [hr]⟩
  · rintro ⟨ld, hld, hne⟩
    rw [hr] at hld
    exact absurd (hrep ld hld) hne
  · intro ld hld hne
    rw [hr] at hld
    exact absurd (hrep ld hld) hne
  · intro ld hld _
    rw [hr] at hld
    exact hok ld hld

/-- In every reachable state, the answer agrees with what `setflck` would do, and asking changes
    nothing, if and only if the request meets the condition. -/
theorem agrees_iff (s : Locks) (hs : locks.Reachable s) (pid : ℤ) (fp : File) (lckdat : Flock)
    (hl : lckdat.Long) : Agrees pid fp lckdat s ↔ Answers pid fp lckdat s := by
  by_cases hv : fp.isVnode = true
  swap
  · -- The file is not one for locks.
    refine ⟨fun _ => .inl (Bool.eq_false_iff.2 hv), fun _ => ?_⟩
    refine Agrees.of_eq (r := .error .eopnotsupp) (by simp [getflck, hv])
      (fun ld h => by cases h) fun h => hv ?_
    exact (setflck_eacces_iff.1 h).1.1
  by_cases hsv : fp.isSvfs = true
  swap
  · refine ⟨fun _ => .inr (.inl (Bool.eq_false_iff.2 hsv)), fun _ => ?_⟩
    refine Agrees.of_eq (r := .error .eremote) (by simp [getflck, hv, hsv])
      (fun ld h => by cases h) fun h => hsv ?_
    exact (setflck_eacces_iff.1 h).1.2.1
  cases hflip : s.flino fp.id with
  | none =>
    refine ⟨fun _ => .inr (.inr (.inl hflip)), fun _ => ?_⟩
    refine Agrees.of_eq (r := .ok { lckdat with l_type := .unlck }) ?_ ?_ ?_
    · simp [getflck, hv, hsv, findfid, hflip]
    · intro ld h
      exact (Except.ok.inj h).symm
    · intro h
      refine (setflck_eacces_iff.1 h).2.2.2.2 ?_
      simp [Locks.chain, hflip, blocked, blockedHead]
  | some flip =>
    obtain ⟨s', hf⟩ : ∃ s', findfid s fp.id = some s' := ⟨_, by rw [findfid, hflip]; rfl⟩
    have hfree := freefid_hold hflip (busy_of_reachable hs _ _ hflip) hf
    by_cases hok : (lckdat.l_whence = 0 ∨ lckdat.l_whence = 1 ∨ lckdat.l_whence = 2) ∧
        0 ≤ storedStart fp lckdat
    swap
    · -- The header is not given back.
      constructor
      · intro h
        have hs' : s' = s := by
          have hu := h.unchanged
          rw [getflck, hv, hsv, if_neg (by decide), if_neg (by decide)] at hu
          simpa only [hf, convoff_zero, if_neg hok] using hu
        obtain ⟨flip', hflip', rfl⟩ := Option.map_eq_some_iff.1 hf
        obtain rfl := Option.some.inj (hflip'.symm.trans hflip)
        have hcnt := congrArg (fun t : Locks => t.flino fp.id) hs'
        simp only [Locks.setFlino, Function.update_self, hflip'] at hcnt
        have := congrArg Flino.fl_refcnt (Option.some.inj hcnt)
        simp at this
      · rintro (h | h | h | ⟨hw, h₀, -⟩)
        · exact absurd hv (Bool.eq_false_iff.1 h)
        · exact absurd hsv (Bool.eq_false_iff.1 h)
        · cases hflip.symm.trans h
        · exact absurd ⟨hw, h₀⟩ hok
    obtain ⟨hw, h₀⟩ := hok
    have hget := @getflck_eq s pid lckdat fp s' hv hsv hf hw h₀
    rw [hfree] at hget
    have hans : Answers pid fp lckdat s ↔
        if (blocked pid (s.chain fp.id) (asked fp lckdat)).1 = none then
          lckdat.l_len = 0 ∨ storedStart fp lckdat + lckdat.l_len ≠ MAXEND
        else fp.Admits lckdat.l_type ∧ (lckdat.l_type = .rdlck ∨ lckdat.l_type = .wrlck) := by
      simp [Answers, hv, hsv, hflip, hw, h₀]
    rw [hans]
    by_cases hb : (blocked pid (s.chain fp.id) (asked fp lckdat)).1 = none
    · rw [if_pos hb]
      rw [foundOr, hb] at hget
      rw [convoff_unlocked hl h₀ hw] at hget
      rw [← storedEnd_back hl h₀]
      constructor
      · intro h
        have := h.unlocked _ (by rw [hget]) rfl
        exact congrArg Flock.l_len this
      · intro hlen
        rw [hlen] at hget
        refine Agrees.of_eq hget (fun ld h => (Except.ok.inj h).symm) fun h => ?_
        exact (setflck_eacces_iff.1 h).2.2.2.2 hb
    · rw [if_neg hb]
      obtain ⟨f, hmem, hkeeps, htype, hfound⟩ := foundOr_record hb
      have hchain : s.chain fp.id = flip.fl_flck := by simp [Locks.chain, hflip]
      have hstored := (stored_of_reachable hs).chains _ _ hflip f (hchain ▸ hmem)
      rw [hfound, convoff_record hstored hw] at hget
      have hrep : Reports (getflck pid fp lckdat s).2 := 
        ⟨presented fp lckdat.l_whence f.set, by rw [hget], htype⟩
      constructor
      · intro h
        have heacces := setflck_eacces_iff.1 (h.reports_iff.1 hrep)
        exact ⟨heacces.1, heacces.2.2.2.1⟩
      · rintro ⟨hadm, ht⟩
        refine ⟨⟨fun _ => setflck_eacces_iff.2 ⟨hadm, hw, h₀, ht, hb⟩, fun _ => hrep⟩, ?_, ?_,
          by rw [hget]⟩
        · intro ld hld _
          rw [hget] at hld
          exact ⟨f, hmem, hkeeps, (Except.ok.inj hld).symm⟩
        · intro ld hld hu
          rw [hget] at hld
          rw [← Except.ok.inj hld] at hu
          exact absurd hu htype

end Answer

/-- Process 2 is told of the write lock that process 1 has. -/
theorem agrees_tenBytes : ∃ s, locks.run emptyLocks [tenBytes] = some s ∧
    Agrees 2 anyFile (ask .rdlck 15 100) s := by
  obtain ⟨s, hs⟩ := Option.isSome_iff_exists.1
    (show (locks.run emptyLocks [tenBytes]).isSome = true by decide)
  have hb : (locks.run emptyLocks [tenBytes]).map (fun s =>
      decide ((blocked 2 (s.chain anyFile.id) (asked anyFile (ask .rdlck 15 100))).1 = none)) =
      some false := by decide
  rw [hs] at hb
  refine ⟨s, hs, (agrees_iff s (Machine.reachableIf_run (.init ⟨fun _ => rfl, rfl⟩)
    (fun _ _ _ => trivial) hs) 2 anyFile (ask .rdlck 15 100) ⟨by decide, by decide, by decide,
    by decide⟩).2 (.inr (.inr (.inr ⟨.inl rfl, by decide, ?_⟩)))⟩
  rw [if_neg (of_decide_eq_false (Option.some.inj hb))]
  exact ⟨⟨rfl, rfl, fun _ => rfl, fun _ => rfl⟩, .inl rfl⟩

/-- A request that starts before the file keeps the header held. -/
theorem not_agrees : ¬∀ s, locks.Reachable s → ∀ pid fp lckdat, lckdat.Long →
    Agrees pid fp lckdat s := by
  intro h
  obtain ⟨s, hs⟩ := Option.isSome_iff_exists.1
    (show (locks.run emptyLocks [tenBytes]).isSome = true by decide)
  have hx : (locks.run emptyLocks [tenBytes]).map (fun s =>
      decide (((getflck 2 anyFile (ask .rdlck (-1) 5) s).1.flino anyFile.id).map Flino.fl_refcnt =
        (s.flino anyFile.id).map Flino.fl_refcnt)) = some false := by decide
  rw [hs] at hx
  refine of_decide_eq_false (Option.some.inj hx) ?_
  rw [(h s (Machine.reachableIf_run (.init ⟨fun _ => rfl, rfl⟩) (fun _ _ _ => trivial) hs) 2 anyFile
    (ask .rdlck (-1) 5) ⟨by decide, by decide, by decide, by decide⟩).unchanged]

end AuxKernel.RecordLock
