import AuxKernel.FileTable.Counts

/-!
# The calls on descriptors

Each call keeps the references counted (`Inv.step`), but for two cases: `dup2`, when the
`fo_close` of what it closes fails, returns with the descriptor still referring to the
entry that is free now; and `f_count`, a `short`, wraps at the 32768th reference.

* `files_of_clean`: in runs without these two, `f_count` is the number of descriptors
  that refer to an entry, each entry that was opened is closed once, and `closef` does not
  panic.
-/

namespace AuxKernel.FileTable

variable {v : Config}

/-! ## Descriptors -/

theorem getf_some {s : State} {p : ℕ} {f : ℤ} {fp : ℕ} (h : getf s p f = some fp) :
    0 ≤ f ∧ f.toNat < NOFILE ∧ s.u_ofile p f.toNat = some fp := by
  rw [getf] at h
  split_ifs at h with hf
  obtain ⟨h₀, h₁⟩ := not_or.1 hf
  exact ⟨by omega, by omega, h⟩

/-- `ufalloc` finds a free descriptor, or fails. -/
theorem ufalloc_spec (s : State) (p i : ℕ) :
    (∃ j, ufalloc s p i = (some j, { s with
      u_rval1 := Function.update s.u_rval1 p j }.setFlags p j 0) ∧ j < NOFILE ∧
      s.u_ofile p j = none) ∨
    ufalloc s p i = (none, s.setError p (some .emfile)) := by
  cases h : (List.range' i (NOFILE - i)).find? fun j => s.u_ofile p j = none with
  | none => exact .inr (by rw [ufalloc, h])
  | some j =>
    have hmem := List.mem_of_find?_eq_some h
    rw [List.mem_range'_1] at hmem
    exact .inl ⟨j, by rw [ufalloc, h], by omega, by simpa using List.find?_some h⟩

theorem dupit_setFile (s : State) (p fd fp : ℕ) (r : Option ℕ) (flags : BitVec 8) :
    dupit (s.setFile p fd r) p fd fp flags = dupit s p fd fp flags := by
  simp [dupit, State.setFile, State.setFlags, State.setCount]

/-- A process that is outside stays there. -/
theorem Inv.setIdle {s : State} (h : Inv v s) {p : ℕ} (hidle : s.pc p = .idle) :
    Inv v (s.setPc p .idle) := by
  refine h.congr rfl rfl ?_ rfl rfl rfl rfl
  rw [State.setPc, ← hidle, Function.update_eq_self]

/-! ## Opening and closing -/

theorem Inv.falloc {s : State} (h : Inv v s) {p : ℕ} (hp : p < v.nproc)
    (hidle : s.pc p = .idle) : Inv v (falloc v s p) := by
  rw [FileTable.falloc]
  rcases ufalloc_spec s p 0 with ⟨i, hi, hlt, hnone⟩ | hi <;> rw [hi]
  · dsimp only
    have h' : Inv v ({ s with u_rval1 := Function.update s.u_rval1 p i }.setFlags p i 0) :=
      h.congr rfl rfl rfl rfl rfl rfl rfl
    split
    · exact h'.setError p _
    next fp hfp =>
      have hfree : s.f_count fp = 0 := by
        have := List.find?_some hfp
        exact of_decide_eq_true this
      exact h'.opens hp hidle hlt hnone hfree rfl rfl rfl rfl rfl rfl rfl
  · exact h.setError p _

/-- `closef` is called with a descriptor that is free already. -/
theorem Inv.close {s : State} (h : Inv v s) {p : ℕ} (i : ℤ) (hp : p < v.nproc)
    (hidle : s.pc p = .idle) : Inv v (close s p i) := by
  rw [FileTable.close]
  split
  · exact h.setError p _
  next fp hfp =>
    obtain ⟨-, hlt, hs⟩ := getf_some hfp
    have hpos := h.pos hp hlt hs
    set t := (s.setFile p i.toNat none).setFlags p i.toNat 0 with ht
    have hcount : t.f_count fp = s.f_count fp := rfl
    rw [closef, hcount]
    split_ifs with hgt hlt₁
    · have hdrop := (h.drop hp hidle hlt hs hgt).setIdle hidle
      exact hdrop.congr rfl rfl rfl rfl rfl rfl rfl
    · omega
    · refine h.closes (k := .close) hp hidle (by omega) rfl (fun q hq => ?_) (fun e => ?_) rfl rfl
        rfl rfl nofun rfl
      · simp [ht, State.setFile, State.setFlags, State.setPc, hq]
      · have hrow : (s.setFile p i.toNat none).u_ofile p =
            Function.update (s.u_ofile p) i.toNat none := by
          simp [State.setFile]
        have huses := uses_setFile hlt hrow rfl e
        have hpc : (t.setPc p (.closing fp .close)).pc p = .closing fp .close := by
          simp [State.setPc]
        show slots (t.u_ofile p) e + (if ((t.setPc p (.closing fp .close)).pc p).counted = some e
          then 1 else 0) = _
        rw [hs] at huses
        rw [uses, show (s.setFile p i.toNat none).pc p = .idle from hidle] at huses
        simp only [Pc.counted, reduceCtorEq, if_false, add_zero, Option.some_inj] at huses
        rw [hpc]
        simp only [Pc.counted, Option.some_inj]
        exact huses

/-- `fo_close` is done. -/
theorem Inv.closed_call {s : State} (h : Inv v s) {p fp : ℕ} (e : Option Errno) (hp : p < v.nproc)
    (hpc : s.pc p = .closing fp .close) : Inv v (FileTable.closed s p fp .close e) := by
  have hself : (FileTable.closed s p fp .close e).pc p = .idle := by
    simp [FileTable.closed, after, State.setPc]
  refine h.frees hp (by rw [hpc, Pc.closes]) rfl (fun _ _ => rfl) (fun d => ?_) rfl rfl rfl rfl rfl
  rw [uses, uses, hself, hpc]
  simp [Pc.counted, eq_comm]
  rfl

/-- `fo_close` is done in `dup2`, without an error. -/
theorem Inv.closed_dup2 {s : State} (h : Inv v s) {p fp i j fp' : ℕ} (hp : p < v.nproc)
    (hpc : s.pc p = .closing fp (.dup2 i j fp')) (hlt : s.f_count fp' < 2 ^ 15 - 1) :
    Inv v (FileTable.closed s p fp (.dup2 i j fp') none) := by
  obtain ⟨hj, hsj, hi, hsi, hij⟩ := h.dup2 p hp fp i j fp' hpc
  have hone := h.one p hp fp (by rw [hpc, Pc.closes])
  set t : State := { (((s.setError p none).setCount fp 0).setPc p .idle).setFile p j none with
    freed := Function.update s.freed fp (s.freed fp + 1) } with ht
  have hself : t.pc p = .idle := by simp [ht, State.setPc, State.setFile]
  have hrow : t.u_ofile p = Function.update (s.u_ofile p) j none := by
    simp [ht, State.setPc, State.setFile, State.setCount, State.setError]
  have huses (d : ℕ) : uses t d p + (if d = fp then 1 else 0) = uses s d p := by
    have := slots_update (u := s.u_ofile p) hj none d
    rw [hsj] at this
    rw [uses, uses, hself, hpc, hrow]
    simpa [Pc.counted, eq_comm] using this
  have hinv : Inv v t := by
    refine h.frees hp (by rw [hpc, Pc.closes]) rfl (fun q hq => ?_) huses rfl rfl rfl rfl rfl
    simp [ht, State.setPc, State.setFile, State.setCount, State.setError, hq]
  have hti : t.u_ofile p i = some fp' := by rw [hrow, Function.update_of_ne hij, hsi]
  have huse : 1 ≤ uses t fp' p := uses_of_slot hi hti
  -- the entry that was closed had one reference, and that of `i` is another
  have hne : fp' ≠ fp := by
    rintro rfl
    have h₁ := huses fp'
    have h₂ := h.uses_le hp fp'
    rw [if_pos rfl] at h₁
    omega
  have hcount : t.f_count fp' = s.f_count fp' := by
    simp [ht, State.setPc, State.setFile, State.setCount, State.setError, hne]
  have hdup := hinv.dupit hp hself hj (by rw [hrow, Function.update_self]) huse
    (by rw [hcount]; exact hlt) (s.u_pofile p i)
  have herr : ({ (s.setError p none).setCount fp 0 with
      freed := Function.update s.freed fp (s.freed fp + 1) } : State).u_error p = none := by
    simp [State.setError, State.setCount]
  rw [FileTable.closed, after, if_pos herr]
  refine hdup.congr rfl ?_ rfl rfl rfl rfl rfl
  simp [ht, FileTable.dupit, State.setPc, State.setFile, State.setCount, State.setError,
    State.setFlags]

/-! ## Duplicating -/

/-- There is room for one more reference to the entry of a descriptor, if a free descriptor
    is found, from `n` on. -/
def Room (s : State) (p : ℕ) (f : ℤ) (n : ℕ) : Prop :=
  (ufalloc s p n).1 ≠ none → ∀ fp ∈ getf s p f, s.f_count fp < 2 ^ 15 - 1

instance (s : State) (p : ℕ) (f : ℤ) (n : ℕ) : Decidable (Room s p f n) :=
  inferInstanceAs (Decidable (_ → ∀ fp ∈ getf s p f, _))

/-- There is room for one more reference to the entry of `i`, if `dup2` takes it at once:
    nothing is to be closed in `j`. -/
def RoomDup2 (s : State) (p : ℕ) (i j : ℤ) : Prop :=
  ∀ fp ∈ getf s p i, 0 ≤ j → j < NOFILE → i ≠ j → s.u_ofile p j.toNat ≠ some fp →
    (∀ old ∈ s.u_ofile p j.toNat, 1 < s.f_count old) → s.f_count fp < 2 ^ 15 - 1

instance (s : State) (p : ℕ) (i j : ℤ) : Decidable (RoomDup2 s p i j) :=
  inferInstanceAs (Decidable (∀ fp ∈ getf s p i, 0 ≤ j → j < NOFILE → i ≠ j → _ ≠ _ →
    (∀ old ∈ s.u_ofile p j.toNat, 1 < s.f_count old) → _))

/-- The descriptor that is found gets to refer to the entry of another. -/
theorem Inv.dup_free {s : State} (h : Inv v s) {p n : ℕ} {f : ℤ} {fp : ℕ} (hp : p < v.nproc)
    (hidle : s.pc p = .idle) (hf : getf s p f = some fp) (hroom : Room s p f n)
    (g : State → BitVec 8) :
    Inv v (match ufalloc s p n with
      | (none, s) => s
      | (some j, s) => FileTable.dupit s p j fp (g s)) := by
  obtain ⟨-, hflt, hsf⟩ := getf_some hf
  rcases ufalloc_spec s p n with ⟨j, hj, hlt, hnone⟩ | hj
  · have hc := hroom (by rw [hj]; nofun) fp hf
    have h' : Inv v ({ s with u_rval1 := Function.update s.u_rval1 p j }.setFlags p j 0) :=
      h.congr rfl rfl rfl rfl rfl rfl rfl
    rw [hj]
    exact h'.dupit hp hidle hlt hnone (uses_of_slot hflt hsf) hc _
  · rw [hj]
    exact h.setError p _

theorem Inv.dup2_call {s : State} (h : Inv v s) {p : ℕ} {i j : ℤ} (hp : p < v.nproc)
    (hidle : s.pc p = .idle) (herr : s.u_error p = none) (hroom : RoomDup2 s p i j) :
    Inv v (FileTable.dup2 s p i j) := by
  rw [FileTable.dup2]
  split
  · exact h.setError p _
  next fp hfp =>
    obtain ⟨hi₀, hi, hsi⟩ := getf_some hfp
    split_ifs with hj hij
    · exact h.setError p _
    · exact h.congr rfl rfl rfl rfl rfl rfl rfl
    obtain ⟨hj₀, hj₁⟩ := not_or.1 hj
    have hjlt : j.toNat < NOFILE := by omega
    have hne : i.toNat ≠ j.toNat := by omega
    have hroom' := hroom fp hfp (by omega) (by omega) hij
    set t : State := { s with u_rval1 := Function.update s.u_rval1 p j.toNat } with ht
    have hinv : Inv v t := h.congr rfl rfl rfl rfl rfl rfl rfl
    have hafter (t' : State) (he : t'.u_error p = none) :
        after t' p (.dup2 i.toNat j.toNat fp) =
          (FileTable.dupit t' p j.toNat fp (t'.u_pofile p i.toNat)).setPc p .idle := by
      rw [after, if_pos he]
    dsimp only
    split
    next old hold =>
      have hold' : s.u_ofile p j.toNat = some old := hold
      have hpos := h.pos hp hjlt hold'
      have hcount : t.f_count old = s.f_count old := rfl
      rw [closef, hcount]
      split_ifs with hgt hlt
      · -- others refer to what was in `j`, too
        rw [hafter (t.setCount old (toShort (s.f_count old - 1))) herr]
        have hdrop := hinv.drop hp hidle hjlt hold hgt
        refine Inv.setIdle ?_ hidle
        rw [← dupit_setFile _ _ _ _ none]
        refine hdrop.dupit hp hidle hjlt (by simp [State.setFile, State.setCount]) ?_ ?_ _
        · refine uses_of_slot hi ?_
          simpa [State.setFile, State.setCount, hne] using hsi
        · by_cases hfo : fp = old
          · subst hfo
            have hle := h.le fp
            simp only [State.setFile, State.setCount, Function.update_self]
            rw [hcount, toShort_of_mem (by omega) (by omega)]
            omega
          · simp only [State.setFile, State.setCount, Function.update_of_ne hfo]
            refine hroom' (fun he => hfo (Option.some.inj (he.symm.trans hold'))) fun o ho => ?_
            obtain rfl : old = o := Option.some.inj (hold'.symm.trans ho)
            exact hgt
      · omega
      · refine h.closes (k := .dup2 i.toNat j.toNat fp) hp hidle (by omega) rfl (fun _ _ => rfl)
          (fun e => ?_) rfl rfl rfl rfl (fun i' j' fp' hk => ?_) rfl
        · have hself : (t.setPc p (.closing old (.dup2 i.toNat j.toNat fp))).pc p =
              .closing old (.dup2 i.toNat j.toNat fp) := by simp [State.setPc]
          show slots (s.u_ofile p) e + (if ((t.setPc p (.closing old
            (.dup2 i.toNat j.toNat fp))).pc p).counted = some e then 1 else 0) = _
          rw [uses, hself, hidle]
          rfl
        · obtain ⟨rfl, rfl, rfl⟩ := Cont.dup2.inj hk
          exact ⟨hjlt, hold', hi, hsi, hne⟩
    next hnone =>
      have hnone' : s.u_ofile p j.toNat = none := hnone
      rw [hafter t herr]
      refine Inv.setIdle (hinv.dupit hp hidle hjlt hnone (uses_of_slot hi hsi) ?_ _) hidle
      exact hroom' (by simp [hnone']) (by simp [hnone'])

theorem Inv.dup_call {s : State} (h : Inv v s) {p : ℕ} {i j : ℤ} (hp : p < v.nproc)
    (hidle : s.pc p = .idle) (herr : s.u_error p = none)
    (hroom : if i < 0 ∨ 64 ≤ i then RoomDup2 s p (i % 64) j else Room s p i 0) :
    Inv v (dup s p i j) := by
  rw [dup]
  split_ifs with hi
  · rw [if_pos hi] at hroom
    exact h.dup2_call hp hidle herr hroom
  · rw [if_neg hi] at hroom
    split
    · exact h.setError p _
    next fp hfp => exact h.dup_free hp hidle hfp hroom fun s => s.u_pofile p i.toNat

theorem Inv.fcntl_call {s : State} (h : Inv v s) {p : ℕ} {fdes arg : ℤ} (hp : p < v.nproc)
    (hidle : s.pc p = .idle) (hroom : 0 ≤ arg → Room s p fdes arg.toNat) :
    Inv v (fcntlDupfd s p fdes arg) := by
  rw [fcntlDupfd]
  split
  · exact h.setError p _
  next fp hfp =>
    split_ifs with harg
    · exact h.setError p _
    · exact h.dup_free hp hidle hfp (hroom (by omega)) fun s => s.u_pofile p fdes.toNat

/-! ## Steps -/

/-- The entry that `dup2` is to refer to when it has closed another. -/
def Pc.dups : Pc → Option ℕ
  | .closing _ (.dup2 _ _ fp) => some fp
  | .idle | .closing _ .close => none

/-- A step makes no count wrap, and no `fo_close` fails in `dup2`. -/
def Clean (s : State) : Act → Prop
  | .falloc _ | .close _ _ => True
  | .dup p i j => if i < 0 ∨ 64 ≤ i then RoomDup2 s p (i % 64) j else Room s p i 0
  | .dup2 p i j => RoomDup2 s p i j
  | .fcntl p fdes arg => 0 ≤ arg → Room s p fdes arg.toNat
  | .newproc p _ => ∀ fd < NOFILE, ∀ fp ∈ s.u_ofile p fd,
      s.f_count fp + slots (s.u_ofile p) fp < 2 ^ 15
  | .closed p e => ∀ fp ∈ (s.pc p).dups, e = none ∧ s.f_count fp < 2 ^ 15 - 1

instance (s : State) : (a : Act) → Decidable (Clean s a)
  | .falloc _ | .close _ _ => inferInstanceAs (Decidable True)
  | .dup p i j => inferInstanceAs (Decidable (if i < 0 ∨ 64 ≤ i then _ else _))
  | .dup2 p i j => inferInstanceAs (Decidable (RoomDup2 s p i j))
  | .fcntl p fdes arg => inferInstanceAs (Decidable (0 ≤ arg → Room s p fdes arg.toNat))
  | .newproc p _ => inferInstanceAs (Decidable (∀ fd < NOFILE, ∀ fp ∈ s.u_ofile p fd, _))
  | .closed p e => inferInstanceAs (Decidable (∀ fp ∈ (s.pc p).dups, _))

theorem Inv.call {s s' : State} {a : Act} (h : Inv v s) (hp : a.caller < v.nproc)
    (hidle : s.pc a.caller = .idle) (herr : s.u_error a.caller = none) (hc : Clean s a)
    (hs : call v s a = some s') : Inv v s' := by
  cases a with
  | falloc p => exact Option.some.inj hs ▸ h.falloc hp hidle
  | dup p i j => exact Option.some.inj hs ▸ h.dup_call hp hidle herr hc
  | dup2 p i j => exact Option.some.inj hs ▸ h.dup2_call hp hidle herr hc
  | fcntl p fdes arg => exact Option.some.inj hs ▸ h.fcntl_call hp hidle hc
  | close p i => exact Option.some.inj hs ▸ h.close i hp hidle
  | newproc p q =>
    rw [FileTable.call] at hs
    split_ifs at hs with hq
    refine Option.some.inj hs ▸ h.newproc hp hq.1 hq.2.1 hidle hq.2.2 fun e => ?_
    by_cases hzero : slots (s.u_ofile p) e = 0
    · simpa [hzero] using h.le e
    · obtain ⟨fd, hfd⟩ := Finset.card_pos.1 (Nat.pos_of_ne_zero hzero)
      obtain ⟨hlt, hfd⟩ := Finset.mem_filter.1 hfd
      exact hc fd (Finset.mem_range.1 hlt) e hfd
  | closed p e => exact nomatch hs

/-- Whether there is room does not depend on an error before the call. -/
theorem Clean.setError {s : State} {a : Act} (h : Clean s a) (p : ℕ) :
    Clean (s.setError p none) a := by
  have hroom (q n : ℕ) (f : ℤ) (h : Room s q f n) : Room (s.setError p none) q f n := by
    intro hn fp hfp
    refine h (fun hnone => hn ?_) fp hfp
    rw [ufalloc] at hnone ⊢
    split at hnone
    · exact nomatch hnone
    next hf => rw [show (List.range' n (NOFILE - n)).find?
        (fun j => (s.setError p none).u_ofile q j = none) = none from hf]
  cases a with
  | dup q i j =>
    simp only [Clean] at h ⊢
    split_ifs at h ⊢
    · exact h
    · exact hroom q 0 i h
  | fcntl q fdes arg => exact fun h₀ => hroom q arg.toNat fdes (h h₀)
  | _ => exact h

/-- A step keeps all counts right. -/
theorem Inv.step {s s' : State} {a : Act} (h : Inv v s) (hc : Clean s a)
    (hs : step v s a = some s') : Inv v s' := by
  unfold FileTable.step at hs
  split_ifs at hs with hp
  have hp' : a.caller < v.nproc := Nat.lt_of_not_le (not_or.1 hp).2
  split at hs
  next fp k p e hpc =>
    obtain rfl := Option.some.inj hs
    cases k with
    | close => exact h.closed_call e hp' hpc
    | dup2 i j fp' =>
      have hpc' : s.pc p = .closing fp (.dup2 i j fp') := hpc
      obtain ⟨rfl, hlt⟩ := hc fp' (by rw [hpc']; rfl)
      exact h.closed_dup2 hp' hpc' hlt
  · exact nomatch hs
  next hpc =>
    exact (h.setError _ none).call hp' hpc (by simp [State.setError]) (hc.setError _) hs

/-! ## Runs -/

theorem inv_init : Inv v ⟨fun _ => 0, 0, fun _ _ => none, fun _ _ => 0, fun _ => none, fun _ => 0,
    fun _ => .idle, false, fun _ => 0, fun _ => 0, fun _ => 0⟩ where
  count _ := by simp [uses, slots, Pc.counted]
  le _ := show (0 : ℤ) < 2 ^ 15 by decide
  one _ _ _ h := nomatch h
  dup2 _ _ _ _ _ _ h := nomatch h
  opened _ := rfl
  closed _ := by simp [closing, Pc.closes]
  panicked := rfl

theorem inv_of_clean {s : State} (hs : (files v).ReachableIf Clean s) : Inv v s :=
  hs.invariant (fun _ h => h ▸ inv_init) fun _ _ _ h hc hn => h.step hc hn

/-- The references to an entry that nobody is closing are counted, and it was closed, and
    its credentials freed, as often as it was opened, but for once if it is in use; no
    descriptor refers to an entry that is not; and nothing panicked. -/
structure Consistent (v : Config) (s : State) : Prop where
  count : ∀ fp, (∀ p < v.nproc, (s.pc p).closes ≠ some fp) →
    s.f_count fp = ∑ p ∈ Finset.range v.nproc, slots (s.u_ofile p) fp
  used : ∀ p < v.nproc, ∀ fd < NOFILE, ∀ fp, s.u_ofile p fd = some fp → s.f_count fp ≠ 0
  once : ∀ fp, (∀ p < v.nproc, (s.pc p).closes ≠ some fp) → s.closed fp = s.freed fp ∧
    s.opened fp = s.closed fp + if s.f_count fp = 0 then 0 else 1
  panicked : s.panicked = false

theorem counted_closes {pc : Pc} {fp : ℕ} (h : pc.counted = some fp) : pc.closes = some fp := by
  cases pc with
  | idle => exact nomatch h
  | closing fp' k =>
    cases k with
    | close => exact h
    | dup2 i j fp'' => exact nomatch h

/-- However processes open, duplicate and close descriptors, and however closes of objects
    fail: the file table stays consistent, as long as none fails in `dup2` and no count
    reaches 2^15. -/
theorem files_of_clean : ∀ (v : Config) (s : State), (files v).ReachableIf Clean s →
    Consistent v s := by
  intro v s hs
  have h := inv_of_clean hs
  refine ⟨fun fp hfp => ?_, fun p hp fd hfd fp hu => ?_, fun fp hfp => ?_, h.panicked⟩
  · rw [h.count fp]
    refine congrArg _ (Finset.sum_congr rfl fun p hp => ?_)
    rw [uses, if_neg fun hc => hfp p (Finset.mem_range.1 hp) (counted_closes hc), add_zero]
  · have := h.pos hp hfd hu
    omega
  · have hclosed : s.closed fp = s.freed fp := by
      have hzero : ∑ p ∈ Finset.range v.nproc, closing s fp p = 0 :=
        Finset.sum_eq_zero fun p hp => if_neg (hfp p (Finset.mem_range.1 hp))
      rw [h.closed fp, hzero, add_zero]
    exact ⟨hclosed, hclosed ▸ h.opened fp⟩

/-! ## Concrete runs -/

/-- No file is open. -/
def noFiles : State := ⟨fun _ => 0, 0, fun _ _ => none, fun _ _ => 0, fun _ => none, fun _ => 0,
  fun _ => .idle, false, fun _ => 0, fun _ => 0, fun _ => 0⟩

/-- Two files are opened, and `dup2` lets the second descriptor refer to the first file. -/
def dup2Acts (e : Option Errno) : List Act := [.falloc 0, .falloc 0, .dup2 0 0 1, .closed 0 e]

/-- The close of the second file does not fail; a child closes what it got. -/
theorem files_dup2 : ∃ s, (files ⟨2, 2⟩).runIf Clean noFiles
    (dup2Acts none ++ [.newproc 0 1, .close 1 0, .close 1 1]) = some s ∧ Consistent ⟨2, 2⟩ s := by
  obtain ⟨s, hs⟩ : ∃ s, (files ⟨2, 2⟩).runIf Clean noFiles
      (dup2Acts none ++ [.newproc 0 1, .close 1 0, .close 1 1]) = some s := ⟨_, rfl⟩
  exact ⟨s, hs, files_of_clean _ s (Machine.reachableIf_runIf (.init rfl) hs)⟩

/-- The close of the second file fails, and the second descriptor refers to it still. -/
theorem not_files : ¬∀ (v : Config) (s : State), (files v).Reachable s → Consistent v s := by
  intro h
  have hx : ((files ⟨2, 2⟩).run noFiles (dup2Acts (some .eio))).map
      (fun s => (s.u_ofile 0 1, s.f_count 1)) = some (some 1, 0) := by
    decide
  obtain ⟨s, hs, hx⟩ := Option.map_eq_some_iff.1 hx
  obtain ⟨hu, hc⟩ := Prod.mk.inj hx
  have hs' := h ⟨2, 2⟩ s (Machine.reachableIf_run (.init rfl) (fun _ _ _ => trivial) hs)
  exact hs'.used 0 (by decide) 1 (by decide) 1 hu hc

end AuxKernel.FileTable
