import AuxKernel.RecordLock.Calls
import AuxKernel.RecordLock.Exclusion

/-!
# The ranges of the records

A property of locking data that is handed on when records are cut, severed and merged
(`AdjClosed`) holds of all records in every run in which it holds of the requests
(`tableAll_of_reachable`), whatever the order of the chains.

`setflck` checks the start of a request, but not its end. So a request with a negative length,
or one that goes past `MAXEND`, is put into the chain (`not_wellRanged`). In every run whose
requests are for a range of bytes below `MAXEND`, or refused by the checks there are, every record
is such a range, and the requests for other ranges change nothing (`wellRanged_of_checked`).
-/

namespace AuxKernel.RecordLock

/-! ## What adjusting hands on -/

/-- A property of locking data that the pieces of records have. -/
structure AdjClosed (R : Flock → Prop) : Prop where
  pid : ∀ {f : Flock} (pid : ℤ), R f → R { f with l_pid := pid }
  sever : ∀ {ld f : Flock}, R ld → R f → f.l_start < ld.l_end → ld.l_end < f.l_end →
    R { f with l_start := ld.l_end }
  cut : ∀ {ld f : Flock}, R ld → R f → f.l_start < ld.l_start → ld.l_start ≤ f.l_end →
    R { f with l_len := ld.l_start }
  mergeStart : ∀ {ld f : Flock}, R ld → R f → f.l_start < ld.l_start →
    R { ld with l_start := f.l_start }
  mergeEnd : ∀ {ld f : Flock}, R ld → R f → ld.l_start < f.l_start → R { ld with l_len := f.l_end }

/-- All records of a chain have the property. -/
def ChainAll (R : Flock → Prop) (chain : List Filock) : Prop := ∀ f ∈ chain, R f.set

def Scan.All (R : Flock → Prop) : Scan → Prop
  | ret chain _ _ => ChainAll R chain
  | fin chain _ _ ld => ChainAll R chain ∧ R ld

section Adjust

variable {R : Flock → Prop} {pid : ℤ} {done todo rest chain : List Filock} {flp : Filock}
  {nfree insrtp : ℕ} {ld : Flock}

theorem chainAll_append : ChainAll R (done ++ rest) ↔ ChainAll R done ∧ ChainAll R rest :=
  List.forall_mem_append

theorem chainAll_cons : ChainAll R (flp :: rest) ↔ R flp.set ∧ ChainAll R rest :=
  List.forall_mem_cons

theorem ChainAll.insflck {fl n : ℕ} (hR : AdjClosed R) (h : ChainAll R done) (hld : R ld)
    (hi : insflck pid done nfree ld fl = some (chain, n)) : ChainAll R chain := by
  cases nfree with
  | zero => exact nomatch hi
  | succ m =>
    obtain ⟨rfl, -⟩ := Prod.mk.inj (Option.some.inj hi)
    rw [chainAll_append, chainAll_cons]
    exact ⟨fun f hf => h f (List.mem_of_mem_take hf), hR.pid pid hld,
      fun f hf => h f (List.mem_of_mem_drop hf)⟩

/-- What a region says of any request and any record. -/
theorem regflck_weak {s : StartRegion} {e : EndRegion} (h : regflck ld flp = (s, e)) :
    (s = .before → ld.l_start < flp.set.l_start) ∧
      (s = .middle ∨ s = .atEnd → flp.set.l_start < ld.l_start ∧ ld.l_start ≤ flp.set.l_end) ∧
      (e = .middle → flp.set.l_start < ld.l_end ∧ ld.l_end < flp.set.l_end) := by
  unfold regflck at h
  split_ifs at h <;> obtain ⟨rfl, rfl⟩ := Prod.mk.inj h <;> simp <;> omega

theorem cutAt_all (hR : AdjClosed R) (hld : R ld) (hf : R flp.set)
    (hs : flp.set.l_start < ld.l_start ∧ ld.l_start ≤ flp.set.l_end) : R (cutAt ld flp).set :=
  hR.cut hld hf hs.1 hs.2

/-- The chain with the piece that is severed. -/
theorem ChainAll.severed {n fl : ℕ} (hR : AdjClosed R) (h : ChainAll R (flp :: rest)) (hld : R ld)
    (he : flp.set.l_start < ld.l_end ∧ ld.l_end < flp.set.l_end)
    (hi : RecordLock.insflck pid (flp :: rest) nfree (severed ld flp) fl = some (chain, n)) :
    ChainAll R chain.tail := fun f hf =>
  h.insflck hR (hR.sever hld (chainAll_cons.1 h).1 he.1 he.2) hi f (List.mem_of_mem_tail hf)

/-- The scan hands the property on. -/
theorem adjLoop_all (hR : AdjClosed R) (h : ChainAll R (done ++ todo)) (hld : R ld) :
    (adjLoop pid done todo nfree insrtp ld).All R := by
  induction todo generalizing done nfree insrtp ld with
  | nil => exact ⟨(chainAll_append.1 h).1, hld⟩
  | cons flp rest ih =>
    obtain ⟨hdone, htodo⟩ := chainAll_append.1 h
    obtain ⟨hflp, hrest⟩ := chainAll_cons.1 htodo
    have hdel : ChainAll R (done ++ rest) := chainAll_append.2 ⟨hdone, hrest⟩
    have hnext {g : Filock} (hg : R g.set) : ChainAll R (done ++ [g] ++ rest) := by
      rw [List.append_assoc, chainAll_append]
      exact ⟨hdone, chainAll_cons.2 ⟨hg, hrest⟩⟩
    rw [adjLoop]
    by_cases hp : flp.set.l_pid = pid
    · rw [if_pos hp]
      rcases hr : regflck ld flp with ⟨s, e⟩
      obtain ⟨hb, hm, he⟩ := regflck_weak hr
      cases s with
      | before =>
        have hs := hb rfl
        cases e with
        | before => exact ⟨h, hld⟩
        | start =>
          dsimp only
          split_ifs
          · exact ⟨hdel, hR.mergeEnd hld hflp hs⟩
          · exact ⟨h, hld⟩
        | middle =>
          dsimp only
          split_ifs
          · exact ⟨hdel, hR.mergeEnd hld hflp hs⟩
          · split
            · exact h
            · exact ⟨chainAll_append.2 ⟨hdone, htodo.severed hR hld (he rfl) ‹_›⟩, hld⟩
        | atEnd =>
          dsimp only
          split_ifs
          · exact ⟨hdel, hld⟩
          · exact ih hdel hld
        | after => exact ih hdel hld
      | start =>
        cases e with
        | middle =>
          dsimp only
          split_ifs
          · exact h
          · split
            · exact h
            · exact ⟨chainAll_append.2 ⟨hdone, htodo.severed hR hld (he rfl) ‹_›⟩, hld⟩
        | atEnd =>
          dsimp only
          split_ifs
          · exact h
          · exact ih hdel hld
        | after => exact ih hdel hld
        | before | start => exact ih (hnext hflp) hld
      | middle =>
        have hs := hm (.inl rfl)
        have hcut := cutAt_all hR hld hflp hs
        cases e with
        | middle =>
          dsimp only
          split_ifs
          · exact h
          · split
            · exact h
            · exact ⟨chainAll_append.2 ⟨hdone, chainAll_cons.2
                ⟨hcut, htodo.severed hR hld (he rfl) ‹_›⟩⟩, hld⟩
        | atEnd =>
          dsimp only
          split_ifs
          · exact h
          · exact ih (hnext hcut) hld
        | after =>
          dsimp only
          split_ifs
          · exact ih hdel (hR.mergeStart hld hflp hs.1)
          · exact ih (hnext hcut) hld
        | before | start => exact ih (hnext hflp) hld
      | atEnd =>
        have hs := hm (.inr rfl)
        cases e with
        | after =>
          dsimp only
          split_ifs
          · exact ih hdel (hR.mergeStart hld hflp hs.1)
          · exact ih (hnext (cutAt_all hR hld hflp hs)) hld
        | before | start | middle | atEnd => exact ih (hnext hflp) hld
      | after => cases e <;> exact ih (hnext hflp) hld
    · rw [if_neg hp]
      split_ifs
      · exact ⟨h, hld⟩
      · exact ih (hnext hflp) hld

theorem flckadj_all (hR : AdjClosed R) (h : ChainAll R chain) (hld : R ld) :
    ChainAll R (flckadj pid chain nfree insrtp ld).1 := by
  have hall : (adjLoop pid (chain.take (insrtp - 1)) (chain.drop (insrtp - 1)) nfree insrtp ld).All
      R := adjLoop_all hR (by rwa [List.take_append_drop]) hld
  rw [flckadj]
  split
  · rename_i heq
    rw [heq] at hall
    exact hall
  · rename_i heq
    rw [heq] at hall
    split_ifs
    · exact hall.1
    · split
      · exact hall.1
      · exact hall.1.insflck hR hall.2 ‹_›

end Adjust

/-! ## The table -/

/-- All records of all chains and all sleeping requests have the property. -/
structure TableAll (R : Flock → Prop) (s : Locks) : Prop where
  chains : ∀ id flip, s.flino id = some flip → ChainAll R flip.fl_flck
  sleeping : ∀ sl ∈ s.sleeplcks, R sl.sf.set

section Table

variable {R : Flock → Prop} {s s' : Locks} {id : ℤ × ℤ} {pid : ℤ} {ld : Flock}

theorem TableAll.setFlino (h : TableAll R s) {flip : Option Flino} (m n : ℕ)
    (hf : ∀ f, flip = some f → ChainAll R f.fl_flck) :
    TableAll R { s.setFlino id flip with nfrfid := m, nfrlock := n } := by
  refine ⟨fun id' flip' h' => ?_, h.sleeping⟩
  by_cases he : id' = id
  · subst he
    exact hf flip' (by simpa [Locks.setFlino] using h')
  · exact h.chains id' flip' (by simpa [Locks.setFlino, he] using h')

theorem TableAll.findfid (h : TableAll R s) (hf : findfid s id = some s') : TableAll R s' := by
  obtain ⟨flip, hflip, rfl⟩ := Option.map_eq_some_iff.1 hf
  exact h.setFlino _ _ fun f hf => Option.some.inj hf ▸ h.chains id flip hflip

theorem TableAll.allocfid (h : TableAll R s) (hf : allocfid s id = some s') : TableAll R s' := by
  unfold RecordLock.allocfid at hf
  split at hf
  · exact nomatch hf
  · obtain rfl := Option.some.inj hf
    exact h.setFlino _ _ fun f hf => by
      rw [← Option.some.inj hf]
      exact fun f hf => absurd hf List.not_mem_nil

theorem TableAll.freefid (h : TableAll R s) : TableAll R (freefid s id) := by
  unfold RecordLock.freefid
  split
  · exact h
  · rename_i flip hflip
    split_ifs
    · exact h.setFlino _ _ fun f hf => nomatch hf
    · exact h.setFlino _ _ fun f hf => Option.some.inj hf ▸ h.chains id flip hflip

theorem TableAll.endPass {r : Locks × Outcome} (h : TableAll R r.1) :
    TableAll R (endPass id r) := by
  unfold RecordLock.endPass
  split
  · exact TableAll.freefid h
  · exact h

theorem chainAll_wakeflgUp {chain : List Filock} (h : ChainAll R chain) (found : ℕ) :
    ChainAll R (wakeflgUp chain found) := by
  have hset : (wakeflgUp chain found).map Filock.set = chain.map Filock.set := by
    refine List.ext_getElem? fun i => ?_
    simp only [RecordLock.wakeflgUp, List.getElem?_map, List.getElem?_modify]
    split_ifs <;> cases chain[i]? <;> rfl
  intro f hf
  obtain ⟨g, hg, hgf⟩ := List.mem_map.1 (hset ▸ List.mem_map_of_mem (f := Filock.set) hf)
  exact hgf ▸ h g hg

/-- A pass hands the property on. -/
theorem TableAll.pass {slpflg : Bool} {r : Locks × Outcome} (hR : AdjClosed R) (h : TableAll R s)
    (hld : (∀ t, ld.l_type ≠ .other t) → R ld) (hr : pass pid id ld slpflg s = some r) :
    TableAll R r.1 := by
  obtain ⟨flip, hflip, hr⟩ := Option.bind_eq_some_iff.1 hr
  have hch := h.chains id flip hflip
  have hadj (i : ℕ) (hl : R ld) : TableAll R (adjust pid id flip ld i s).1 :=
    h.setFlino _ _ fun f hf => by rw [← Option.some.inj hf]; exact flckadj_all hR hch hl
  have hlock (hl : R ld) (hr : lockPass pid id flip ld slpflg s = some r) : TableAll R r.1 := by
    unfold RecordLock.lockPass at hr
    split at hr
    · exact Option.some.inj hr ▸ hadj _ hl
    · split_ifs at hr
      · split at hr
        · exact nomatch hr
        · exact Option.some.inj hr ▸ h
        · exact Option.some.inj hr ▸ h
        · -- The process sleeps, leaving its request in `sleeplcks`.
          obtain rfl := Option.some.inj hr
          refine ⟨fun id' => (h.setFlino 0 0 fun f hf => ?_).chains id', fun sl hsl => ?_⟩
          · exact Option.some.inj hf ▸ chainAll_wakeflgUp hch _
          · rcases List.mem_cons.1 hsl with rfl | hsl
            · exact hR.pid pid hl
            · exact h.sleeping sl hsl
      · exact Option.some.inj hr ▸ h
  split at hr
  · rename_i ht
    exact hlock (hld fun t he => nomatch ht.symm.trans he) hr
  · rename_i ht
    exact hlock (hld fun t he => nomatch ht.symm.trans he) hr
  · rename_i ht
    exact Option.some.inj hr ▸ hadj _ (hld fun t he => nomatch ht.symm.trans he)
  · exact Option.some.inj hr ▸ h

/-- The request of a call has the property, if there is anything to lock or unlock for it. -/
def Act.Asks (R : Flock → Prop) : Act → Prop
  | .setflck _ fp lckdat _ =>
    ∀ ld, request fp lckdat = .ok ld → (∀ t, ld.l_type ≠ .other t) → R ld
  | _ => True

theorem TableAll.setflck {fp : File} {lckdat : Flock} {slpflg : Bool} (hR : AdjClosed R)
    (h : TableAll R s) (ha : (Act.setflck pid fp lckdat slpflg).Asks R)
    (hs : setflck pid fp lckdat slpflg s = some s') : TableAll R s' := by
  unfold RecordLock.setflck at hs
  split at hs
  · exact Option.some.inj hs ▸ h
  · rename_i ld hld
    split at hs
    · rename_i hf
      obtain ⟨r, hr, rfl⟩ := Option.map_eq_some_iff.1 hs
      exact ((h.findfid hf).pass hR (ha ld hld) hr).endPass
    · split_ifs at hs
      · exact Option.some.inj hs ▸ h
      · split at hs
        · exact Option.some.inj hs ▸ h
        · rename_i hf
          obtain ⟨r, hr, rfl⟩ := Option.map_eq_some_iff.1 hs
          exact ((h.allocfid hf).pass hR (ha ld hld) hr).endPass

theorem TableAll.resume {k : ℕ} {intr : Bool} (hR : AdjClosed R) (h : TableAll R s)
    (hs : resume k intr s = some s') : TableAll R s' := by
  obtain ⟨sl, hsl, hs⟩ := Option.bind_eq_some_iff.1 hs
  have hld := h.sleeping sl (List.mem_of_getElem? hsl)
  have h' : TableAll R { s with sleeplcks := s.sleeplcks.eraseIdx k, nfrlock := s.nfrlock + 1 } :=
    ⟨h.chains, fun sl hsl => h.sleeping sl (List.mem_of_mem_eraseIdx hsl)⟩
  split_ifs at hs
  · exact Option.some.inj hs ▸ h'.freefid
  · obtain ⟨r, hr, rfl⟩ := Option.map_eq_some_iff.1 hs
    exact (h'.pass hR (fun _ => hld) hr).endPass

theorem TableAll.cleanlocks {fp : File} (h : TableAll R s) : TableAll R (cleanlocks pid fp s) := by
  unfold RecordLock.cleanlocks
  split_ifs
  · split
    · exact h
    · rename_i hf
      split
      · exact h.findfid hf
      · rename_i flip hflip
        have hch := (h.findfid hf).chains _ flip hflip
        refine ((h.findfid hf).setFlino _ _ fun f hf => ?_).freefid
        rw [← Option.some.inj hf]
        exact fun f hf => hch f (List.mem_of_mem_filter hf)
  · exact h

/-- In a run whose requests have the property, all records have it. -/
theorem tableAll_of_reachable (hR : AdjClosed R)
    (hs : locks.ReachableIf (fun _ a => a.Asks R) s) : TableAll R s := by
  refine hs.invariant (fun s h => ?_) fun s a s' h ha hn => ?_
  · exact ⟨fun id flip hf => absurd hf (by simp [h.1 id]), fun sl hsl => absurd hsl (by simp [h.2])⟩
  · cases a with
    | setflck pid fp lckdat slpflg => exact h.setflck hR ha hn
    | resume k intr => exact h.resume hR hn
    | cleanlocks pid fp => exact Option.some.inj hn ▸ h.cleanlocks

end Table

/-! ## The call with its value -/

/-- A call of `setflck`, up to its return, with the value returned, or its first sleep. -/
def setflckCall (pid : ℤ) (fp : File) (lckdat : Flock) (slpflg : Bool) (s : Locks) :
    Option (Locks × Outcome) :=
  match request fp lckdat with
  | .error e => some (s, .ret (some e))
  | .ok ld =>
    match findfid s fp.id with
    | some s => (pass pid fp.id ld slpflg s).map fun r => (endPass fp.id r, r.2)
    | none =>
      if ld.l_type = .unlck then some (s, .ret none)
      else
        match allocfid s fp.id with
        | none => some (s, .ret (some .emfile))
        | some s => (pass pid fp.id ld slpflg s).map fun r => (endPass fp.id r, r.2)

/-- It is the call of the machine. -/
theorem setflck_eq (pid : ℤ) (fp : File) (lckdat : Flock) (slpflg : Bool) (s : Locks) :
    setflck pid fp lckdat slpflg s = (setflckCall pid fp lckdat slpflg s).map Prod.fst := by
  rw [setflck, setflckCall]
  cases request fp lckdat with
  | error e => rfl
  | ok ld =>
    cases findfid s fp.id with
    | some s' =>
      simp only [Option.map_map]
      rfl
    | none =>
      by_cases hu : ld.l_type = .unlck
      · simp only [if_pos hu, Option.map_some]
      · simp only [if_neg hu]
        cases allocfid s fp.id with
        | none => rfl
        | some s' =>
          simp only [Option.map_map]
          rfl

/-! ## Requests -/

/-- What the start of a request is relative to. -/
def File.base (fp : File) (whence : ℤ) : ℤ :=
  if whence = 1 then fp.f_offset else if whence = 2 then fp.i_size else 0

/-- The first byte that a request asks for, and the end of the bytes. -/
def askedStart (fp : File) (lckdat : Flock) : ℤ := lckdat.l_start + fp.base lckdat.l_whence
@[inherit_doc askedStart]
def askedEnd (fp : File) (lckdat : Flock) : ℤ :=
  if lckdat.l_len = 0 then MAXEND else askedStart fp lckdat + lckdat.l_len

/-- The request is for some bytes below `MAXEND`. -/
def ProperRange (fp : File) (lckdat : Flock) : Prop :=
  0 ≤ askedStart fp lckdat ∧ askedStart fp lckdat < askedEnd fp lckdat ∧
    askedEnd fp lckdat ≤ MAXEND

/-- The start of a request as `convoff` stores it. -/
def storedStart (fp : File) (lckdat : Flock) : ℤ :=
  if lckdat.l_whence = 0 then lckdat.l_start else toLong (askedStart fp lckdat)

/-- What `setflck` checks of a file before it looks at the range. -/
def File.Admits (fp : File) (l_type : LockType) : Prop :=
  fp.isVnode = true ∧ fp.isSvfs = true ∧ (l_type = .rdlck → fp.fread = true) ∧
    (l_type = .wrlck → fp.fwrite = true)

/-- The range of a request is not looked at further: the file does not admit the request, its start
    is relative to nothing or negative, or it is for no type of lock. -/
def Refused (fp : File) (lckdat : Flock) : Prop :=
  ¬fp.Admits lckdat.l_type ∨ ¬(lckdat.l_whence = 0 ∨ lckdat.l_whence = 1 ∨ lckdat.l_whence = 2) ∨
    storedStart fp lckdat < 0 ∨ ∃ t, lckdat.l_type = .other t

/-- The request from the beginning of the file. -/
def converted (fp : File) (lckdat : Flock) : Flock :=
  { lckdat with l_start := storedStart fp lckdat, l_whence := 0 }

/-- The end of a request as `setflck` stores it. -/
def storedEnd (fp : File) (lckdat : Flock) : ℤ :=
  if lckdat.l_len = 0 then MAXEND else toLong (lckdat.l_len + storedStart fp lckdat)

section Request

variable {fp : File} {lckdat ld : Flock}

theorem convoff_zero : convoff fp lckdat 0 =
    if (lckdat.l_whence = 0 ∨ lckdat.l_whence = 1 ∨ lckdat.l_whence = 2) ∧
      0 ≤ storedStart fp lckdat then .ok (converted fp lckdat) else .error .einval := by
  have hstart (start : ℤ) : (do
      let start ← (pure start : Except Errno ℤ)
      if start < 0 then throw .einval
      let start ← (pure start : Except Errno ℤ)
      return { lckdat with l_start := start, l_whence := 0 }) =
      if 0 ≤ start then Except.ok { lckdat with l_start := start, l_whence := 0 }
      else .error .einval := by
    by_cases h : start < 0
    · rw [if_neg (by omega)]
      simp [h]
      rfl
    · rw [if_pos (by omega)]
      simp [h]
      rfl
  simp only [convoff, converted, storedStart, askedStart, File.base]
  by_cases h₀ : lckdat.l_whence = 0
  · simpa [h₀] using hstart lckdat.l_start
  by_cases h₁ : lckdat.l_whence = 1
  · simpa [h₁] using hstart (toLong (lckdat.l_start + fp.f_offset))
  by_cases h₂ : lckdat.l_whence = 2
  · simpa [h₂] using hstart (toLong (lckdat.l_start + fp.i_size))
  · simp [h₀, h₁, h₂]
    rfl

theorem request_ok_iff : request fp lckdat = .ok ld ↔ fp.Admits lckdat.l_type ∧
    (lckdat.l_whence = 0 ∨ lckdat.l_whence = 1 ∨ lckdat.l_whence = 2) ∧
    0 ≤ storedStart fp lckdat ∧ ld = { converted fp lckdat with l_len := storedEnd fp lckdat } := by
  have hadm : fp.Admits lckdat.l_type ↔ fp.isVnode = true ∧ fp.isSvfs = true ∧
      ¬((lckdat.l_type = .rdlck ∧ fp.fread = false) ∨
        (lckdat.l_type = .wrlck ∧ fp.fwrite = false)) := by
    rw [File.Admits, not_or, not_and, not_and, Bool.not_eq_false, Bool.not_eq_false]
  rw [request, convoff_zero, hadm]
  by_cases hv : fp.isVnode = true
  · by_cases hsv : fp.isSvfs = true
    · by_cases hperm : (lckdat.l_type = .rdlck ∧ fp.fread = false) ∨
          (lckdat.l_type = .wrlck ∧ fp.fwrite = false)
      · simp [hv, hsv, hperm]
      · by_cases hok : (lckdat.l_whence = 0 ∨ lckdat.l_whence = 1 ∨ lckdat.l_whence = 2) ∧
            0 ≤ storedStart fp lckdat
        · rw [if_pos hok]
          have heq : (do
              let ld ← Except.ok (converted fp lckdat)
              if ld.l_len = 0 then return { ld with l_len := MAXEND }
              else return { ld with l_len := toLong (ld.l_len + ld.l_start) } :
                Except Errno Flock) =
              .ok { converted fp lckdat with l_len := storedEnd fp lckdat } := by
            by_cases hlen : lckdat.l_len = 0
            · simp [converted, storedEnd, hlen, bind, Except.bind, pure, Except.pure]
            · simp [converted, storedEnd, hlen, bind, Except.bind, pure, Except.pure]
          rw [hv, hsv, if_neg (by decide), if_neg (by decide), if_neg hperm, heq]
          constructor
          · intro h
            exact ⟨⟨rfl, rfl, hperm⟩, hok.1, hok.2, (Except.ok.inj h).symm⟩
          · rintro ⟨-, -, -, rfl⟩
            rfl
        · rw [hv, hsv, if_neg hok, if_neg (by decide), if_neg (by decide), if_neg hperm]
          constructor
          · intro h
            exact nomatch h
          · rintro ⟨-, hw, h₀, -⟩
            exact absurd ⟨hw, h₀⟩ hok
    · simp [hv, hsv]
  · simp [hv]

/-- A request for a proper range is stored as it is asked for. -/
theorem ProperRange.stored (h : ProperRange fp lckdat) :
    storedStart fp lckdat = askedStart fp lckdat ∧ storedEnd fp lckdat = askedEnd fp lckdat := by
  obtain ⟨h₀, hlt, hle⟩ := h
  have hmax : MAXEND = 2 ^ 31 - 1 := rfl
  have hstart : storedStart fp lckdat = askedStart fp lckdat := by
    rw [storedStart]
    split_ifs with hw
    · rw [askedStart, hw]
      exact (add_zero _).symm
    · exact toLong_of_mem (by omega) (by omega)
  refine ⟨hstart, ?_⟩
  rw [storedEnd, hstart]
  unfold askedEnd at hlt hle ⊢
  split_ifs at hlt hle ⊢ with hl
  · rfl
  · rw [add_comm]
    exact toLong_of_mem (by omega) (by omega)

/-- Locking data of some bytes below `MAXEND`. -/
structure Ranged (ld : Flock) : Prop where
  nonneg : 0 ≤ ld.l_start
  lt : ld.l_start < ld.l_end
  le : ld.l_end ≤ MAXEND

theorem ranged_adjClosed : AdjClosed Ranged where
  pid _ h := ⟨h.nonneg, h.lt, h.le⟩
  sever _ hf hs he := ⟨hf.nonneg.trans hs.le, he, hf.le⟩
  cut _ hf hs he := ⟨hf.nonneg, hs, he.trans hf.le⟩
  mergeStart hld hf hs := ⟨hf.nonneg, hs.trans hld.lt, hld.le⟩
  mergeEnd hld hf hs := ⟨hld.nonneg, hs.trans hf.lt, hf.le⟩

/-- The request is for a proper range, or refused before its range is used. -/
def Checked (fp : File) (lckdat : Flock) : Prop := ProperRange fp lckdat ∨ Refused fp lckdat

theorem Checked.ranged (h : Checked fp lckdat) (hok : request fp lckdat = .ok ld)
    (ht : ∀ t, ld.l_type ≠ .other t) : Ranged ld := by
  obtain ⟨hadm, hw, h₀, rfl⟩ := request_ok_iff.1 hok
  rcases h with h | h | h | h | ⟨t, h⟩
  · obtain ⟨hs, he⟩ := h.stored
    obtain ⟨h₀, hlt, hle⟩ := h
    exact ⟨h₀.trans_eq hs.symm, (hs.trans_lt hlt).trans_eq he.symm, he.trans_le hle⟩
  · exact absurd hadm h
  · exact absurd hw h
  · exact absurd h₀ (not_le.2 h)
  · exact absurd h (ht t)

end Request

/-- Every call of `setflck` makes a request that is checked. -/
def Act.Checked : Act → Prop
  | .setflck _ fp lckdat _ => RecordLock.Checked fp lckdat
  | _ => True

/-! ## What a refused request changes -/

/-- The chain of a file, which is empty without a header. -/
def Locks.chain (s : Locks) (id : ℤ × ℤ) : List Filock := ((s.flino id).map Flino.fl_flck).getD []

section Chain

variable {s s' : Locks} {id : ℤ × ℤ} {flip : Flino}

theorem chain_setFlino {flip : Option Flino}
    (h : (flip.map Flino.fl_flck).getD [] = s.chain id) (id' : ℤ × ℤ) :
    (s.setFlino id flip).chain id' = s.chain id' := by
  by_cases he : id' = id
  · subst he
    simpa [Locks.setFlino, Locks.chain] using h
  · simp [Locks.setFlino, Locks.chain, he]

theorem chain_findfid (hf : findfid s id = some s') (id' : ℤ × ℤ) : s'.chain id' = s.chain id' := by
  obtain ⟨flip, hflip, rfl⟩ := Option.map_eq_some_iff.1 hf
  exact chain_setFlino (by simp [Locks.chain, hflip]) id'

theorem chain_allocfid (hnone : s.flino id = none) (hf : allocfid s id = some s') (id' : ℤ × ℤ) :
    s'.chain id' = s.chain id' := by
  unfold allocfid at hf
  split at hf
  · exact nomatch hf
  · obtain rfl := Option.some.inj hf
    exact chain_setFlino (by simp [Locks.chain, hnone]) id'

theorem flino_allocfid (hf : allocfid s id = some s') : s'.flino id = some ⟨1, []⟩ := by
  unfold allocfid at hf
  split at hf
  · exact nomatch hf
  · obtain rfl := Option.some.inj hf
    exact Function.update_self _ _ _

theorem chain_freefid (id' : ℤ × ℤ) : (freefid s id).chain id' = s.chain id' := by
  unfold freefid
  split
  · rfl
  · rename_i flip hflip
    split_ifs with hfree
    · exact chain_setFlino (by simp [Locks.chain, hflip, hfree.2]) id'
    · exact chain_setFlino (by simp [Locks.chain, hflip]) id'

end Chain

/-- A refused request is answered with an error, and changes no chain. -/
theorem Refused.unchanged {fp : File} {lckdat : Flock} (h : Refused fp lckdat) (pid : ℤ)
    (slpflg : Bool) (s : Locks) :
    ∃ s' e, setflckCall pid fp lckdat slpflg s = some (s', .ret (some e)) ∧
      ∀ id, s'.chain id = s.chain id := by
  unfold setflckCall
  cases hreq : request fp lckdat with
  | error e => exact ⟨s, e, rfl, fun _ => rfl⟩
  | ok ld =>
    -- Only the type of the lock is left to be refused.
    obtain ⟨hadm, hw, h₀, rfl⟩ := request_ok_iff.1 hreq
    obtain ⟨t, ht⟩ : ∃ t, lckdat.l_type = .other t := by
      rcases h with h | h | h | h
      · exact absurd hadm h
      · exact absurd hw h
      · exact absurd h₀ (not_le.2 h)
      · exact h
    have hpass {s' : Locks} {flip : Flino} (hflip : s'.flino fp.id = some flip) :
        pass pid fp.id { converted fp lckdat with l_len := storedEnd fp lckdat } slpflg s' =
          some (s', .ret (some .einval)) := by
      simp [pass, hflip, converted, ht]
    have hend {s' : Locks} (hflip : ∃ flip, s'.flino fp.id = some flip)
        (hch : ∀ id, s'.chain id = s.chain id) : ∃ s'' e,
        (pass pid fp.id { converted fp lckdat with l_len := storedEnd fp lckdat } slpflg s').map
          (fun r => (endPass fp.id r, r.2)) = some (s'', .ret (some e)) ∧
          ∀ id, s''.chain id = s.chain id := by
      obtain ⟨flip, hflip⟩ := hflip
      refine ⟨freefid s' fp.id, .einval, ?_, fun id => (chain_freefid id).trans (hch id)⟩
      rw [hpass hflip]
      rfl
    dsimp only
    cases hf : findfid s fp.id with
    | some s' =>
      refine hend ?_ (chain_findfid hf)
      obtain ⟨flip, -, hs'⟩ := Option.map_eq_some_iff.1 hf
      refine ⟨{ flip with fl_refcnt := flip.fl_refcnt + 1 }, ?_⟩
      rw [← hs']
      exact Function.update_self _ _ _
    | none =>
      have hu : ¬(converted fp lckdat).l_type = .unlck := by simp [converted, ht]
      simp only [if_neg hu]
      cases ha : allocfid s fp.id with
      | none => exact ⟨s, .emfile, rfl, fun _ => rfl⟩
      | some s' =>
        refine hend ⟨_, flino_allocfid ha⟩ (chain_allocfid (Option.map_eq_none_iff.1 hf) ha)

/-! ## The runs -/

/-- In every run whose requests are checked, every record is a range of bytes below `MAXEND`, and
    the next request for another range, if it is checked, is refused and changes no chain. -/
theorem wellRanged_of_checked : ∀ s, locks.ReachableIf (fun _ a => a.Checked) s →
    (∀ id, ChainAll Ranged (s.chain id)) ∧
      ∀ pid fp lckdat slpflg, Checked fp lckdat → ¬ProperRange fp lckdat →
        ∃ s' e, setflckCall pid fp lckdat slpflg s = some (s', .ret (some e)) ∧
          ∀ id, s'.chain id = s.chain id := by
  intro s hs
  have hall : TableAll Ranged s := tableAll_of_reachable ranged_adjClosed
    (hs.mono fun s a ha => by
      cases a with
      | setflck pid fp lckdat slpflg => exact fun ld hld ht => Checked.ranged ha hld ht
      | resume k intr => trivial
      | cleanlocks pid fp => trivial)
  refine ⟨fun id f hf => ?_, fun pid fp lckdat slpflg hc hn => ?_⟩
  · rw [Locks.chain] at hf
    cases hflip : s.flino id with
    | none =>
      rw [hflip] at hf
      exact absurd hf List.not_mem_nil
    | some flip =>
      rw [hflip] at hf
      exact hall.chains id flip hflip f hf
  · exact (hc.resolve_left hn).unchanged pid slpflg s

/-- A write lock for the bytes 10 to 19. -/
def tenBytes : Act := .setflck 1 anyFile (ask .wrlck 10 10) false

theorem wellRanged_tenBytes : ∃ s, locks.run emptyLocks [tenBytes] = some s ∧
    ChainAll Ranged (s.chain anyFile.id) ∧
      ∃ s' e, setflckCall 2 anyFile (ask .rdlck (-1) 5) false s = some (s', .ret (some e)) ∧
        ∀ id, s'.chain id = s.chain id := by
  obtain ⟨s, hs⟩ := Option.isSome_iff_exists.1
    (show (locks.run emptyLocks [tenBytes]).isSome = true by decide)
  have hreach : locks.ReachableIf (fun _ a => a.Checked) s := by
    refine Machine.reachableIf_run (.init ⟨fun _ => rfl, rfl⟩) (fun a ha s => ?_) hs
    rw [List.mem_singleton.1 ha]
    exact .inl (by unfold ProperRange; decide)
  have h := wellRanged_of_checked s hreach
  refine ⟨s, hs, h.1 _, h.2 _ _ _ _ (.inr (.inr (.inr (.inl (by decide))))) ?_⟩
  unfold ProperRange
  decide

/-- A request for the bytes from 10 back to 5 is granted, and its record ends before it starts. -/
theorem not_wellRanged : ¬∀ s, locks.Reachable s → ∀ id, ChainAll Ranged (s.chain id) := by
  intro h
  have hx : ((locks.run emptyLocks [.setflck 1 anyFile (ask .wrlck 10 (-5)) false]).map fun s =>
      (s.chain anyFile.id).map fun f => (f.set.l_start, f.set.l_end)) = some [(10, 5)] := by
    decide
  obtain ⟨s, hs, hx⟩ := Option.map_eq_some_iff.1 hx
  have hall := h s (Machine.reachableIf_run (.init ⟨fun _ => rfl, rfl⟩) (fun _ _ _ => trivial) hs)
    anyFile.id
  obtain ⟨f, hf, hfx⟩ := List.mem_map.1 (hx ▸ List.mem_singleton_self (10, 5))
  obtain ⟨h10, h5⟩ := Prod.mk.inj hfx
  have := (hall f hf).lt
  rw [h10, h5] at this
  exact absurd this (by decide)

end AuxKernel.RecordLock
