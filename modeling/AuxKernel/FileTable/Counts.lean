import Mathlib.Algebra.Order.BigOperators.Group.Finset
import AuxKernel.FileTable.Basic
import AuxKernel.UseCounts

/-!
# The references to file entries

An entry counts the descriptors that refer to it, and the reference that a process in
`close` has no descriptor for any more (`Inv.count`). A call changes the references of one
process, and the counts with them (`Inv.move`).

* `Inv.dupit`, `Inv.drop`: a reference more, and one less;
* `Inv.opens`, `Inv.closes`, `Inv.frees`: the first reference, and the last;
* `Inv.newproc`: a child gets the references of its parent.
-/

namespace AuxKernel.FileTable

open UseCounts

variable {v : Config}

/-- The entry whose last reference a process is giving up. -/
def Pc.closes : Pc → Option ℕ
  | .idle => none
  | .closing fp _ => some fp

/-- The entry that counts a reference of a process that has no descriptor for it any
    more. -/
def Pc.counted : Pc → Option ℕ
  | .closing fp .close => some fp
  | .idle | .closing _ (.dup2 _ _ _) => none

/-- How many descriptors of a table refer to an entry. -/
def slots (u : ℕ → Option ℕ) (fp : ℕ) : ℕ :=
  ((Finset.range NOFILE).filter fun fd => u fd = some fp).card

/-- The references of a process to an entry. -/
def uses (s : State) (fp p : ℕ) : ℕ :=
  slots (s.u_ofile p) fp + if (s.pc p).counted = some fp then 1 else 0

/-- Whether a process is closing an entry. -/
def closing (s : State) (fp p : ℕ) : ℕ := if (s.pc p).closes = some fp then 1 else 0

/-- The counts are right; and so is what is known of each process that is in `fo_close`, for
    `dup2` or `close`. -/
structure Inv (v : Config) (s : State) : Prop where
  count : ∀ fp, s.f_count fp = ∑ p ∈ Finset.range v.nproc, uses s fp p
  le : ∀ fp, s.f_count fp < 2 ^ 15
  one : ∀ p < v.nproc, ∀ fp, (s.pc p).closes = some fp → s.f_count fp = 1
  dup2 : ∀ p < v.nproc, ∀ fp i j fp', s.pc p = .closing fp (.dup2 i j fp') →
    j < NOFILE ∧ s.u_ofile p j = some fp ∧ i < NOFILE ∧ s.u_ofile p i = some fp' ∧ i ≠ j
  opened : ∀ fp, s.opened fp = s.freed fp + if s.f_count fp = 0 then 0 else 1
  closed : ∀ fp, s.closed fp = s.freed fp + ∑ p ∈ Finset.range v.nproc, closing s fp p
  panicked : s.panicked = false

theorem slots_update {u : ℕ → Option ℕ} {fd : ℕ} (hfd : fd < NOFILE) (r : Option ℕ) (fp : ℕ) :
    slots (Function.update u fd r) fp + (if u fd = some fp then 1 else 0) =
      slots u fp + if r = some fp then 1 else 0 :=
  card_filter_update (Finset.mem_range.2 hfd) r (some fp)

theorem slots_pos {u : ℕ → Option ℕ} {fd fp : ℕ} (hfd : fd < NOFILE) (h : u fd = some fp) :
    0 < slots u fp :=
  Finset.card_pos.2 ⟨fd, Finset.mem_filter.2 ⟨Finset.mem_range.2 hfd, h⟩⟩

/-! ## References -/

/-- The references of a process are some of those an entry counts. -/
theorem Inv.uses_le {s : State} (h : Inv v s) {p : ℕ} (hp : p < v.nproc) (fp : ℕ) :
    (uses s fp p : ℤ) ≤ s.f_count fp := by
  rw [h.count fp]
  exact_mod_cast Finset.single_le_sum (f := uses s fp) (fun _ _ => Nat.zero_le _)
    (Finset.mem_range.2 hp)

/-- The references of two processes are. -/
theorem Inv.uses_add_le {s : State} (h : Inv v s) {p q : ℕ} (hp : p < v.nproc) (hq : q < v.nproc)
    (hpq : p ≠ q) (fp : ℕ) : (uses s fp p + uses s fp q : ℤ) ≤ s.f_count fp := by
  rw [h.count fp]
  have hsub : ({p, q} : Finset ℕ) ⊆ Finset.range v.nproc := by
    intro x hx
    rw [Finset.mem_insert, Finset.mem_singleton] at hx
    rcases hx with rfl | rfl <;> rwa [Finset.mem_range]
  have := Finset.sum_le_sum_of_subset (f := uses s fp) hsub
  rw [Finset.sum_pair hpq] at this
  exact_mod_cast this

theorem uses_of_slot {s : State} {p fd fp : ℕ} (hfd : fd < NOFILE)
    (h : s.u_ofile p fd = some fp) : 1 ≤ uses s fp p :=
  (slots_pos hfd h).trans_le (Nat.le_add_right _ _)

/-- A descriptor refers to an entry that is in use. -/
theorem Inv.pos {s : State} (h : Inv v s) {p fd fp : ℕ} (hp : p < v.nproc) (hfd : fd < NOFILE)
    (hs : s.u_ofile p fd = some fp) : 1 ≤ s.f_count fp := by
  have h₁ := h.uses_le hp fp
  have h₂ := uses_of_slot hfd hs
  omega

/-- A process that is closing an entry refers to it. -/
theorem Inv.uses_of_closes {s : State} (h : Inv v s) {p fp : ℕ} (hp : p < v.nproc)
    (hc : (s.pc p).closes = some fp) : 1 ≤ uses s fp p := by
  cases hpc : s.pc p with
  | idle => simp [hpc, Pc.closes] at hc
  | closing fp' k =>
    obtain rfl : fp' = fp := by simpa [hpc, Pc.closes] using hc
    cases k with
    | close => simp [uses, hpc, Pc.counted]
    | dup2 i j fp'' =>
      obtain ⟨hj, hu, -⟩ := h.dup2 p hp fp' i j fp'' hpc
      exact uses_of_slot hj hu

/-- No other process is closing an entry to which a process has a descriptor. -/
theorem Inv.not_closes {s : State} (h : Inv v s) {p q fp : ℕ} (hp : p < v.nproc)
    (hq : q < v.nproc) (hpq : q ≠ p) (hu : 1 ≤ uses s fp p) : (s.pc q).closes ≠ some fp := by
  intro hc
  have h₁ := h.uses_add_le hp hq hpq.symm fp
  have h₂ := h.one q hq fp hc
  have h₃ := h.uses_of_closes hq hc
  omega

/-! ## Changes of one process -/

/-- The counts are right again when the counts change as the references of one process. -/
theorem Inv.count_of_eq_off {s s' : State} (h : Inv v s) {p : ℕ} (hp : p < v.nproc)
    (hu : ∀ q ≠ p, s'.u_ofile q = s.u_ofile q) (hpc : ∀ q ≠ p, s'.pc q = s.pc q) (fp : ℕ)
    (hc : s'.f_count fp + uses s fp p = s.f_count fp + uses s' fp p) :
    s'.f_count fp = ∑ q ∈ Finset.range v.nproc, uses s' fp q := by
  have hoff : ∀ q ≠ p, uses s' fp q = uses s fp q :=
    fun q hq => by rw [uses, uses, hu q hq, hpc q hq]
  have hsum := sum_of_eq_off (Finset.mem_range.2 hp) hoff
  have hold := h.count fp
  have : (∑ q ∈ Finset.range v.nproc, uses s' fp q : ℤ) + uses s fp p =
      ∑ q ∈ Finset.range v.nproc, uses s fp q + uses s' fp p := by exact_mod_cast hsum
  push_cast at hold this ⊢
  omega

theorem Inv.closed_of_eq_off {s s' : State} (h : Inv v s) {p : ℕ} (hp : p < v.nproc)
    (hpc : ∀ q ≠ p, s'.pc q = s.pc q) (fp : ℕ)
    (hc : s'.closed fp + s.freed fp + closing s fp p =
      s.closed fp + s'.freed fp + closing s' fp p) :
    s'.closed fp = s'.freed fp + ∑ q ∈ Finset.range v.nproc, closing s' fp q := by
  have hoff : ∀ q ≠ p, closing s' fp q = closing s fp q :=
    fun q hq => by rw [closing, closing, hpc q hq]
  have hsum := sum_of_eq_off (Finset.mem_range.2 hp) hoff
  have hold := h.closed fp
  omega

theorem uses_setFile {s s' : State} {p fd : ℕ} {r : Option ℕ} (hfd : fd < NOFILE)
    (hu : s'.u_ofile p = Function.update (s.u_ofile p) fd r) (hpc : s'.pc p = s.pc p) (fp : ℕ) :
    uses s' fp p + (if s.u_ofile p fd = some fp then 1 else 0) =
      uses s fp p + if r = some fp then 1 else 0 := by
  have := slots_update (u := s.u_ofile p) hfd r fp
  rw [uses, uses, hu, hpc]
  omega

/-- A process moves: the counts change as its references, of which it gets no new ones to
    an entry that somebody is closing; and all is right with the place it moves to. -/
theorem Inv.move {s s' : State} (h : Inv v s) {p : ℕ} (hp : p < v.nproc)
    (hu : ∀ q ≠ p, s'.u_ofile q = s.u_ofile q) (hpc : ∀ q ≠ p, s'.pc q = s.pc q)
    (hcount : ∀ fp, s'.f_count fp + uses s fp p = s.f_count fp + uses s' fp p)
    (hle : ∀ fp, s'.f_count fp < 2 ^ 15)
    (hnew : ∀ fp, uses s fp p = 0 → 0 < uses s' fp p →
      ∀ q < v.nproc, (s.pc q).closes ≠ some fp)
    (hone : ∀ fp, (s'.pc p).closes = some fp → s'.f_count fp = 1)
    (hdup2 : ∀ fp i j fp', s'.pc p = .closing fp (.dup2 i j fp') →
      j < NOFILE ∧ s'.u_ofile p j = some fp ∧ i < NOFILE ∧ s'.u_ofile p i = some fp' ∧ i ≠ j)
    (hopened : ∀ fp, s'.opened fp = s'.freed fp + if s'.f_count fp = 0 then 0 else 1)
    (hclosed : ∀ fp, s'.closed fp + s.freed fp + closing s fp p =
      s.closed fp + s'.freed fp + closing s' fp p)
    (hpan : s'.panicked = s.panicked) : Inv v s' where
  count fp := h.count_of_eq_off hp hu hpc fp (hcount fp)
  le := hle
  one q hq fp hc := by
    by_cases hqp : q = p
    · subst hqp
      exact hone fp hc
    · rw [hpc q hqp] at hc
      have hone' := h.one q hq fp hc
      have hzero : uses s fp p = 0 := by
        by_contra hne
        exact h.not_closes hp hq hqp (Nat.pos_of_ne_zero hne) hc
      have hzero' : uses s' fp p = 0 := by
        by_contra hne
        exact hnew fp hzero (Nat.pos_of_ne_zero hne) q hq hc
      have := hcount fp
      omega
  dup2 q hq fp i j fp' hc := by
    by_cases hqp : q = p
    · subst hqp
      exact hdup2 fp i j fp' hc
    · rw [hpc q hqp] at hc
      rw [hu q hqp]
      exact h.dup2 q hq fp i j fp' hc
  opened := hopened
  closed fp := h.closed_of_eq_off hp hpc fp (hclosed fp)
  panicked := hpan.trans h.panicked

/-- What the counts are not about does not matter. -/
theorem Inv.congr {s s' : State} (h : Inv v s) (hc : s'.f_count = s.f_count)
    (hu : s'.u_ofile = s.u_ofile) (hpc : s'.pc = s.pc) (ho : s'.opened = s.opened)
    (hcl : s'.closed = s.closed) (hf : s'.freed = s.freed) (hpan : s'.panicked = s.panicked) :
    Inv v s' where
  count fp := by
    rw [hc, h.count fp]
    simp only [uses, hu, hpc]
  le := hc ▸ h.le
  one := by
    rw [hc, hpc]
    exact h.one
  dup2 := by
    rw [hu, hpc]
    exact h.dup2
  opened := by
    rw [ho, hf, hc]
    exact h.opened
  closed fp := by
    rw [hcl, hf, h.closed fp]
    simp only [closing, hpc]
  panicked := hpan.trans h.panicked

theorem Inv.setError {s : State} (h : Inv v s) (p : ℕ) (e : Option Errno) :
    Inv v (s.setError p e) :=
  h.congr rfl rfl rfl rfl rfl rfl rfl

theorem toShort_succ {n : ℤ} (h₀ : 0 ≤ n) (h₁ : n < 2 ^ 15 - 1) : toShort (n + 1) = n + 1 :=
  toShort_of_mem (by omega) (by omega)

/-- A free descriptor gets to refer to an entry that the process refers to already. -/
theorem Inv.dupit {s : State} (h : Inv v s) {p fd fp : ℕ} (hp : p < v.nproc)
    (hidle : s.pc p = .idle) (hfd : fd < NOFILE) (hnone : s.u_ofile p fd = none)
    (huse : 1 ≤ uses s fp p) (hlt : s.f_count fp < 2 ^ 15 - 1) (flags : BitVec 8) :
    Inv v (dupit s p fd fp flags) := by
  have hpos : 1 ≤ s.f_count fp := by
    have := h.uses_le hp fp
    omega
  have hrow : (FileTable.dupit s p fd fp flags).u_ofile p =
      Function.update (s.u_ofile p) fd (some fp) := by
    simp [FileTable.dupit, State.setFile, State.setFlags, State.setCount]
  have huses (e : ℕ) : uses (FileTable.dupit s p fd fp flags) e p =
      uses s e p + if e = fp then 1 else 0 := by
    simpa [hnone, eq_comm] using uses_setFile (s := s) hfd hrow rfl e
  have hcount (e : ℕ) : (FileTable.dupit s p fd fp flags).f_count e =
      s.f_count e + if e = fp then 1 else 0 := by
    by_cases he : e = fp
    · subst he
      simp [FileTable.dupit, State.setFile, State.setFlags, State.setCount,
        toShort_succ (by omega : 0 ≤ s.f_count e) hlt]
    · simp [FileTable.dupit, State.setFile, State.setFlags, State.setCount, he]
  have hidle' : (FileTable.dupit s p fd fp flags).pc p = .idle := hidle
  refine h.move hp (fun q hq => ?_) (fun _ _ => rfl) (fun e => ?_) (fun e => ?_)
    (fun e he he' => ?_) (fun e hc => by simp [hidle', Pc.closes] at hc)
    (fun e i j e' hc => by simp [hidle'] at hc) (fun e => ?_) (fun _ => rfl) rfl
  · simp [FileTable.dupit, State.setFile, State.setFlags, State.setCount, hq]
  · rw [hcount, huses]
    push_cast
    omega
  · rw [hcount]
    have := h.le e
    split_ifs with hfp
    · subst hfp
      omega
    · omega
  · rw [huses] at he'
    split_ifs at he' with hfp
    · subst hfp
      omega
    · omega
  · have hopen := h.opened e
    rw [hcount]
    by_cases hfp : e = fp
    · subst hfp
      rw [if_neg (by omega)] at hopen
      rw [if_pos rfl, if_neg (by omega)]
      exact hopen
    · rw [if_neg hfp, add_zero]
      exact hopen

/-- A descriptor lets go of an entry that others refer to. -/
theorem Inv.drop {s : State} (h : Inv v s) {p fd fp : ℕ} (hp : p < v.nproc)
    (hidle : s.pc p = .idle) (hfd : fd < NOFILE) (hs : s.u_ofile p fd = some fp)
    (hgt : 1 < s.f_count fp) :
    Inv v ((s.setFile p fd none).setCount fp (toShort (s.f_count fp - 1))) := by
  set t := (s.setFile p fd none).setCount fp (toShort (s.f_count fp - 1)) with ht
  have hrow : t.u_ofile p = Function.update (s.u_ofile p) fd none := by
    simp [ht, State.setFile, State.setCount]
  have huses (e : ℕ) : uses t e p + (if e = fp then 1 else 0) = uses s e p := by
    simpa [hs, eq_comm] using uses_setFile (s := s) hfd hrow rfl e
  have hcount (e : ℕ) : t.f_count e = s.f_count e - if e = fp then 1 else 0 := by
    by_cases he : e = fp
    · subst he
      have hle := h.le e
      simp [ht, State.setFile, State.setCount, toShort_of_mem (by omega : -2 ^ 15 ≤ s.f_count e - 1)
        (by omega)]
    · simp [ht, State.setFile, State.setCount, he]
  have hidle' : t.pc p = .idle := hidle
  refine h.move hp (fun q hq => ?_) (fun _ _ => rfl) (fun e => ?_) (fun e => ?_)
    (fun e he he' => ?_) (fun e hc => by simp [hidle', Pc.closes] at hc)
    (fun e i j e' hc => by simp [hidle'] at hc) (fun e => ?_) (fun _ => rfl) rfl
  · simp [ht, State.setFile, State.setCount, hq]
  · rw [hcount, ← huses]
    push_cast
    omega
  · rw [hcount]
    have := h.le e
    split_ifs <;> omega
  · have := huses e
    omega
  · have hopen := h.opened e
    rw [hcount]
    by_cases hfp : e = fp
    · subst hfp
      rw [if_neg (by omega)] at hopen
      rw [if_pos rfl, if_neg (by omega)]
      exact hopen
    · rw [if_neg hfp, sub_zero]
      exact hopen

/-- A free descriptor gets to refer to a free entry. -/
theorem Inv.opens {s s' : State} (h : Inv v s) {p fd fp : ℕ} (hp : p < v.nproc)
    (hidle : s.pc p = .idle) (hfd : fd < NOFILE) (hnone : s.u_ofile p fd = none)
    (hfree : s.f_count fp = 0) (hc : s'.f_count = Function.update s.f_count fp 1)
    (hu : s'.u_ofile = (s.setFile p fd (some fp)).u_ofile) (hpc : s'.pc = s.pc)
    (ho : s'.opened = Function.update s.opened fp (s.opened fp + 1))
    (hcl : s'.closed = s.closed) (hf : s'.freed = s.freed) (hpan : s'.panicked = s.panicked) :
    Inv v s' := by
  have hrow : s'.u_ofile p = Function.update (s.u_ofile p) fd (some fp) := by
    simp [hu, State.setFile]
  have huses (e : ℕ) : uses s' e p = uses s e p + if e = fp then 1 else 0 := by
    simpa [hnone, eq_comm] using uses_setFile (s := s) hfd hrow (congrFun hpc p) e
  have hcount (e : ℕ) : s'.f_count e = s.f_count e + if e = fp then 1 else 0 := by
    by_cases he : e = fp
    · subst he
      simp [hc, hfree]
    · simp [hc, he]
  have hidle' : s'.pc p = .idle := by rw [hpc, hidle]
  refine h.move hp (fun q hq => ?_) (fun q _ => congrFun hpc q) (fun e => ?_) (fun e => ?_)
    (fun e he he' q hq hcq => ?_) (fun e hc => by simp [hidle', Pc.closes] at hc)
    (fun e i j e' hc => by simp [hidle'] at hc) (fun e => ?_)
    (fun e => by simp only [hcl, hf, closing, hpc]) hpan
  · simp [hu, State.setFile, hq]
  · rw [hcount, huses]
    push_cast
    omega
  · rw [hcount]
    have := h.le e
    split_ifs with hfp
    · subst hfp
      omega
    · omega
  · rw [huses, he] at he'
    split_ifs at he' with hfp
    · subst hfp
      have := h.one q hq e hcq
      omega
    · omega
  · have hopen := h.opened e
    rw [hcount, ho, hf]
    by_cases hfp : e = fp
    · subst hfp
      simpa [hfree] using hopen
    · simpa [hfp] using hopen

/-- A process calls `fo_close`, with the last reference to an entry. -/
theorem Inv.closes {s s' : State} (h : Inv v s) {p fp : ℕ} {k : Cont} (hp : p < v.nproc)
    (hidle : s.pc p = .idle) (hone : s.f_count fp = 1) (hc : s'.f_count = s.f_count)
    (hu : ∀ q ≠ p, s'.u_ofile q = s.u_ofile q) (huses : ∀ e, uses s' e p = uses s e p)
    (hpc : s'.pc = Function.update s.pc p (.closing fp k)) (ho : s'.opened = s.opened)
    (hcl : s'.closed = Function.update s.closed fp (s.closed fp + 1)) (hf : s'.freed = s.freed)
    (hdup2 : ∀ i j fp', k = .dup2 i j fp' →
      j < NOFILE ∧ s'.u_ofile p j = some fp ∧ i < NOFILE ∧ s'.u_ofile p i = some fp' ∧ i ≠ j)
    (hpan : s'.panicked = s.panicked) : Inv v s' := by
  have hself : s'.pc p = .closing fp k := by simp [hpc]
  refine h.move hp hu (fun q hq => by simp [hpc, hq]) (fun e => by rw [hc, huses])
    (fun e => hc ▸ h.le e) (fun e he he' => absurd (huses e ▸ he') (by omega)) (fun e he => ?_)
    (fun e i j e' he => ?_) (fun e => by rw [ho, hf, hc]; exact h.opened e) (fun e => ?_) hpan
  · obtain rfl : fp = e := by simpa [hself, Pc.closes] using he
    rw [hc, hone]
  · obtain ⟨rfl, rfl⟩ := Pc.closing.inj (hself.symm.trans he)
    exact hdup2 i j e' rfl
  · rw [hcl, hf, closing, closing, hself, hidle]
    by_cases he : e = fp
    · subst he
      simp [Pc.closes]
      omega
    · simp [Pc.closes, he, Ne.symm he]

/-- A process has closed an entry: its last reference is gone. -/
theorem Inv.frees {s s' : State} (h : Inv v s) {p fp : ℕ} (hp : p < v.nproc)
    (hpcs : (s.pc p).closes = some fp) (hc : s'.f_count = Function.update s.f_count fp 0)
    (hu : ∀ q ≠ p, s'.u_ofile q = s.u_ofile q)
    (huses : ∀ e, uses s' e p + (if e = fp then 1 else 0) = uses s e p)
    (hpc : s'.pc = Function.update s.pc p .idle) (ho : s'.opened = s.opened)
    (hcl : s'.closed = s.closed) (hf : s'.freed = Function.update s.freed fp (s.freed fp + 1))
    (hpan : s'.panicked = s.panicked) : Inv v s' := by
  have hone := h.one p hp fp hpcs
  have hself : s'.pc p = .idle := by simp [hpc]
  have hcount (e : ℕ) : s'.f_count e = s.f_count e - if e = fp then 1 else 0 := by
    by_cases he : e = fp
    · subst he
      simp [hc, hone]
    · simp [hc, he]
  refine h.move hp hu (fun q hq => by simp [hpc, hq]) (fun e => ?_) (fun e => ?_)
    (fun e he he' => ?_) (fun e he => by simp [hself, Pc.closes] at he)
    (fun e i j e' he => by simp [hself] at he) (fun e => ?_) (fun e => ?_) hpan
  · rw [hcount, ← huses]
    push_cast
    omega
  · rw [hcount]
    have := h.le e
    split_ifs <;> omega
  · have := huses e
    omega
  · have hopen := h.opened e
    rw [hcount, ho, hf]
    by_cases he : e = fp
    · subst he
      simpa [hone] using hopen
    · simpa [he] using hopen
  · rw [hcl, hf, closing, closing, hself, hpcs]
    by_cases he : e = fp
    · subst he
      simp [Pc.closes]
      omega
    · simp [Pc.closes, he, Ne.symm he]

/-! ## Processes -/

/-- Each descriptor of a list that refers to an entry adds a reference to it. -/
theorem holdFiles_eq (u : ℕ → Option ℕ) (fds : List ℕ) (c : ℕ → ℤ) (h₀ : ∀ e, 0 ≤ c e)
    (hlt : ∀ e, c e + fds.countP (fun n => u n = some e) < 2 ^ 15) (e : ℕ) :
    holdFiles u fds c e = c e + fds.countP fun n => u n = some e := by
  induction fds generalizing c with
  | nil => simp [holdFiles]
  | cons n fds ih =>
    have hcons (e : ℕ) : ((n :: fds).countP fun n => u n = some e : ℤ) =
        (fds.countP fun n => u n = some e : ℤ) + if u n = some e then 1 else 0 := by
      rw [List.countP_cons]
      split_ifs <;> simp_all
    cases hn : u n with
    | none =>
      have hrest (e : ℕ) : ((n :: fds).countP fun n => u n = some e : ℤ) =
          fds.countP fun n => u n = some e := by simp [hcons, hn]
      rw [holdFiles, List.foldl_cons, hn, hrest e]
      exact ih c h₀ fun e => hrest e ▸ hlt e
    | some fp =>
      have hfp : toShort (c fp + 1) = c fp + 1 := by
        have := hlt fp
        rw [hcons, hn, if_pos rfl] at this
        exact toShort_of_mem (by have := h₀ fp; omega) (by omega)
      have hupd (e : ℕ) : Function.update c fp (toShort (c fp + 1)) e =
          c e + if u n = some e then 1 else 0 := by
        by_cases he : e = fp
        · subst he
          simp [hfp, hn]
        · simp [he, hn, Ne.symm he]
      rw [holdFiles, List.foldl_cons, hn]
      refine (ih (Function.update c fp (toShort (c fp + 1))) (fun e => ?_) fun e => ?_).trans ?_
      · rw [hupd]
        have := h₀ e
        split_ifs <;> omega
      · have := hlt e
        rw [hcons] at this
        rw [hupd]
        omega
      · rw [hupd, hcons]
        omega

theorem countP_range_eq_slots (u : ℕ → Option ℕ) (fp : ℕ) :
    (List.range NOFILE).countP (fun n => u n = some fp) = slots u fp := by
  rw [List.countP_eq_length_filter]
  rfl

/-- A child refers to what its parent refers to. -/
theorem Inv.newproc {s : State} (h : Inv v s) {p q : ℕ} (hp : p < v.nproc) (hq : q < v.nproc)
    (hqp : q ≠ p) (hidle : s.pc p = .idle) (hfresh : s.Fresh q)
    (hlt : ∀ e, s.f_count e + slots (s.u_ofile p) e < 2 ^ 15) : Inv v (newproc s p q) := by
  have hcount (e : ℕ) : (FileTable.newproc s p q).f_count e =
      s.f_count e + slots (s.u_ofile p) e := by
    rw [← countP_range_eq_slots]
    refine holdFiles_eq _ _ _ (fun e => ?_) (fun e => ?_) e
    · have := h.uses_le hp e
      omega
    · rw [countP_range_eq_slots]
      exact hlt e
  have hnone (e : ℕ) : slots (s.u_ofile q) e = 0 := by
    refine Finset.card_eq_zero.2 (Finset.filter_eq_empty_iff.2 fun fd hfd => ?_)
    simp [hfresh.2 fd (Finset.mem_range.1 hfd)]
  have huses (e : ℕ) : uses s e q = 0 := by
    simp [uses, hnone, hfresh.1, Pc.counted]
  have hself : (FileTable.newproc s p q).pc q = .idle := hfresh.1
  have huses' (e : ℕ) : uses (FileTable.newproc s p q) e q = slots (s.u_ofile p) e := by
    rw [uses, hself]
    simp [Pc.counted, FileTable.newproc]
  have hslots (e : ℕ) : uses s e p = slots (s.u_ofile p) e := by
    simp [uses, hidle, Pc.counted]
  refine h.move hq (fun r hr => ?_) (fun _ _ => rfl) (fun e => ?_) (fun e => ?_)
    (fun e he he' r hr hc => ?_) (fun e he => by simp [hself, Pc.closes] at he)
    (fun e i j e' he => by simp [hself] at he) (fun e => ?_) (fun _ => rfl) rfl
  · simp [FileTable.newproc, hr]
  · rw [hcount, huses, huses']
    omega
  · rw [hcount]
    exact hlt e
  · have hrp : r ≠ p := by
      rintro rfl
      simp [hidle, Pc.closes] at hc
    exact h.not_closes hp hr hrp (by rw [hslots, ← huses']; exact he') hc
  · have hopen := h.opened e
    have hle := h.uses_le hp e
    rw [hslots] at hle
    rw [hcount]
    refine hopen.trans (congrArg _ ?_)
    by_cases hz : s.f_count e = 0
    · have hzero : slots (s.u_ofile p) e = 0 := by omega
      simp [hz, hzero]
    · rw [if_neg hz, if_neg (by omega)]

end AuxKernel.FileTable
