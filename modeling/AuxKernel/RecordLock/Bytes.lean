import AuxKernel.RecordLock.Adjust
import Mathlib.Data.List.Pairwise

/-!
# The locks of the bytes

A chain says which locks the processes have on the bytes of the file (`Held`). The scan of
`flckadj` takes the bytes of the request from the process, and extends the request over bytes on
which the process has a lock of its type (`Trims`); no other process loses or gets a lock.

* `Trims.split`: a record is replaced by what is left of it outside the request;
* `OwnInv`: what the scan needs of the chain, and keeps;
* `adjLoop_trims`: what the scan leaves.
-/

namespace AuxKernel.RecordLock

/-- The byte `b` is in the range of a record. -/
def Filock.Covers (f : Filock) (b : ℤ) : Prop := f.set.l_start ≤ b ∧ b < f.set.l_end

/-- The byte `b` is in the range of a request. -/
def Flock.Asks (ld : Flock) (b : ℤ) : Prop := ld.l_start ≤ b ∧ b < ld.l_end

/-- The process `q` has a lock of the type `t` on the byte `b`. -/
def Held (chain : List Filock) (q b : ℤ) (t : LockType) : Prop :=
  ∃ f ∈ chain, f.set.l_pid = q ∧ f.set.l_type = t ∧ f.Covers b

/-- A process has at most one record for a byte. -/
theorem Ordered.eq_of_covers {chain : List Filock} (h : Ordered chain) {f g : Filock}
    (hf : f ∈ chain) (hg : g ∈ chain) (hp : f.set.l_pid = g.set.l_pid) {b : ℤ} (hbf : f.Covers b)
    (hbg : g.Covers b) : f = g := by
  have : Std.Symm fun f g : Filock =>
      f.set.l_pid = g.set.l_pid → f.Covers b → ¬g.Covers b :=
    ⟨fun _ _ h hp hg hf => h hp.symm hf hg⟩
  have hpair : chain.Pairwise fun f g =>
      f.set.l_pid = g.set.l_pid → f.Covers b → ¬g.Covers b := by
    refine h.pairwise.imp fun {a c} hc hp ha hb => ?_
    rcases hc.2 with hc | hc
    · exact absurd (ha.2.trans_le hc) (not_lt.2 hb.1)
    · exact absurd hp hc.1
  by_contra hne
  exact hpair.forall hf hg hne hp hbf hbg

/-- A process has one lock on a byte. -/
theorem Held.unique {chain : List Filock} (h : Ordered chain) {q b : ℤ} {t t' : LockType}
    (ht : Held chain q b t) (ht' : Held chain q b t') : t = t' := by
  obtain ⟨f, hf, hp, rfl, hb⟩ := ht
  obtain ⟨g, hg, hp', rfl, hb'⟩ := ht'
  rw [h.eq_of_covers hf hg (hp.trans hp'.symm) hb hb']

/-- From the chain `c` and the request `ld` to `c'` and `ld'`: the process gives up bytes of the
    request only, which takes in bytes that it has a lock of its type on. -/
structure Trims (pid : ℤ) (c : List Filock) (ld : Flock) (c' : List Filock) (ld' : Flock) :
    Prop where
  type : ld'.l_type = ld.l_type
  start_le : ld'.l_start ≤ ld.l_start
  le_end : ld.l_end ≤ ld'.l_end
  others : ∀ q ≠ pid, ∀ b t, Held c' q b t ↔ Held c q b t
  own : ∀ b t, Held c' pid b t → Held c pid b t
  kept : ∀ b t, Held c pid b t → Held c' pid b t ∨ ld'.Asks b
  grown : ∀ b, ld'.Asks b → ld.Asks b ∨ Held c pid b ld.l_type

section Trims

variable {pid : ℤ} {c c' c'' : List Filock} {ld ld' ld'' : Flock}

theorem Trims.refl (h : ∀ f, f ∈ c' ↔ f ∈ c) : Trims pid c ld c' ld := by
  have hheld (q b t) : Held c' q b t ↔ Held c q b t :=
    exists_congr fun f => and_congr_left fun _ => h f
  exact ⟨rfl, le_rfl, le_rfl, fun q _ => hheld q, fun b t => (hheld pid b t).1,
    fun b t hb => .inl ((hheld pid b t).2 hb), fun _ => .inl⟩

theorem Trims.trans (h : Trims pid c ld c' ld') (h' : Trims pid c' ld' c'' ld'') :
    Trims pid c ld c'' ld'' := by
  refine ⟨h'.type.trans h.type, h'.start_le.trans h.start_le, h.le_end.trans h'.le_end,
    fun q hq b t => (h'.others q hq b t).trans (h.others q hq b t),
    fun b t hb => h.own b t (h'.own b t hb), fun b t hb => ?_, fun b hb => ?_⟩
  · rcases h.kept b t hb with hb | hb
    · exact h'.kept b t hb
    · exact .inr ⟨h'.start_le.trans hb.1, hb.2.trans_le h'.le_end⟩
  · rcases h'.grown b hb with hb | hb
    · exact h.grown b hb
    · exact .inr (h.own b _ (h.type ▸ hb))

/-- A record of the process is replaced by the pieces of it that are not in the request. -/
theorem Trims.split {flp : Filock} {rest : List Filock} (pieces : List Filock)
    (hc : ∀ f, f ∈ c ↔ f = flp ∨ f ∈ rest) (hc' : ∀ f, f ∈ c' ↔ f ∈ pieces ∨ f ∈ rest)
    (hp : flp.set.l_pid = pid)
    (hpieces : ∀ g ∈ pieces, g.set.l_pid = pid ∧ g.set.l_type = flp.set.l_type)
    (hcov : ∀ b, (∃ g ∈ pieces, g.Covers b) ↔ flp.Covers b ∧ ¬ld'.Asks b)
    (type : ld'.l_type = ld.l_type) (start_le : ld'.l_start ≤ ld.l_start)
    (le_end : ld.l_end ≤ ld'.l_end)
    (grown : ∀ b, ld'.Asks b → ld.Asks b ∨ flp.Covers b ∧ flp.set.l_type = ld.l_type) :
    Trims pid c ld c' ld' := by
  refine ⟨type, start_le, le_end, fun q hq b t => ?_, ?_, ?_, fun b hb => ?_⟩
  · constructor
    · rintro ⟨f, hf, hfq, hft, hfb⟩
      rcases (hc' f).1 hf with hf | hf
      · exact absurd (hfq.symm.trans (hpieces f hf).1) hq
      · exact ⟨f, (hc f).2 (.inr hf), hfq, hft, hfb⟩
    · rintro ⟨f, hf, hfq, hft, hfb⟩
      rcases (hc f).1 hf with rfl | hf
      · exact absurd (hfq.symm.trans hp) hq
      · exact ⟨f, (hc' f).2 (.inr hf), hfq, hft, hfb⟩
  · rintro b t ⟨f, hf, hfq, hft, hfb⟩
    rcases (hc' f).1 hf with hf | hf
    · have hb := ((hcov b).1 ⟨f, hf, hfb⟩).1
      exact ⟨flp, (hc flp).2 (.inl rfl), hp, (hpieces f hf).2.symm.trans hft, hb⟩
    · exact ⟨f, (hc f).2 (.inr hf), hfq, hft, hfb⟩
  · rintro b t ⟨f, hf, hfq, hft, hfb⟩
    rcases (hc f).1 hf with rfl | hf
    · by_cases hb : ld'.Asks b
      · exact .inr hb
      · obtain ⟨g, hg, hgb⟩ := (hcov b).2 ⟨hfb, hb⟩
        exact .inl ⟨g, (hc' g).2 (.inl hg), (hpieces g hg).1, (hpieces g hg).2.trans hft, hgb⟩
    · exact .inl ⟨f, (hc' f).2 (.inr hf), hfq, hft, hfb⟩
  · rcases grown b hb with hb | ⟨hb, ht⟩
    · exact .inl hb
    · exact .inr ⟨flp, (hc flp).2 (.inl rfl), hp, ht, hb⟩

end Trims

/-! ## The loop -/

/-- What the loop of `flckadj` needs of the chain to know the records of the process. -/
structure OwnInv (pid : ℤ) (done todo : List Filock) (ld : Flock) : Prop where
  ordered : Ordered (done ++ todo)
  lt : ld.l_start < ld.l_end
  behind : ∀ f ∈ done, f.set.l_pid = pid → f.set.l_end ≤ ld.l_start

section Loop

variable {pid : ℤ} {done todo rest : List Filock} {flp : Filock} {ld : Flock}

theorem mem_mid {f : Filock} : f ∈ done ++ flp :: rest ↔ f = flp ∨ f ∈ done ++ rest := by
  simp only [List.mem_append, List.mem_cons]
  tauto

section Record

variable (h : OwnInv pid done (flp :: rest) ld)
include h

theorem OwnInv.keep (hb : flp.set.l_pid = pid → flp.set.l_end ≤ ld.l_start) :
    OwnInv pid (done ++ [flp]) rest ld := by
  refine ⟨by simpa using h.ordered, h.lt, fun f hf => ?_⟩
  rcases List.mem_append.1 hf with hf | hf
  · exact h.behind f hf
  · exact List.mem_singleton.1 hf ▸ hb

theorem OwnInv.keepCut (h₁ : flp.set.l_start < ld.l_start) (h₂ : ld.l_start ≤ flp.set.l_end) :
    OwnInv pid (done ++ [cutAt ld flp]) rest ld := by
  refine ⟨by simpa using h.ordered.cut h₁ h₂, h.lt, fun f hf hf' => ?_⟩
  rcases List.mem_append.1 hf with hf | hf
  · exact h.behind f hf hf'
  · exact (List.mem_singleton.1 hf).symm ▸ le_refl ld.l_start

theorem OwnInv.delete : OwnInv pid done rest ld :=
  ⟨h.ordered.delete, h.lt, h.behind⟩

theorem OwnInv.own_before (hp : flp.set.l_pid = pid) {f : Filock} (hf : f ∈ done)
    (hf' : f.set.l_pid = pid) : f.set.l_end ≤ flp.set.l_start := by
  rcases (h.ordered.before hf).2 with hc | hc
  · exact hc
  · exact absurd (hf'.trans hp.symm) hc.1

theorem OwnInv.own_after (hp : flp.set.l_pid = pid) {f : Filock} (hf : f ∈ rest)
    (hf' : f.set.l_pid = pid) : flp.set.l_end ≤ f.set.l_start := by
  rcases (h.ordered.after hf).2 with hc | hc
  · exact hc
  · exact absurd (hp.trans hf'.symm) hc.1

theorem OwnInv.mergeStart (hp : flp.set.l_pid = pid) (h₁ : flp.set.l_start < ld.l_start) :
    OwnInv pid done rest { ld with l_start := flp.set.l_start } :=
  ⟨h.ordered.delete, h₁.trans h.lt, fun _ hf hf' => h.own_before hp hf hf'⟩

end Record

/-- Deleting a record that the request covers. -/
theorem trims_delete (hp : flp.set.l_pid = pid) (h₁ : ld.l_start ≤ flp.set.l_start)
    (h₂ : flp.set.l_end ≤ ld.l_end) : Trims pid (done ++ flp :: rest) ld (done ++ rest) ld := by
  refine Trims.split [] (fun _ => mem_mid) (by simp) hp (by simp) (fun b => ?_) rfl
    le_rfl le_rfl fun _ => .inl
  refine iff_of_false (by simp) fun hb => hb.2 ⟨h₁.trans hb.1.1, hb.1.2.trans_le h₂⟩

/-- Cutting a record off that the request starts in and does not end in. -/
theorem trims_cut (hp : flp.set.l_pid = pid)
    (h₂ : ld.l_start ≤ flp.set.l_end) (h₃ : flp.set.l_end ≤ ld.l_end) :
    Trims pid (done ++ flp :: rest) ld (done ++ cutAt ld flp :: rest) ld := by
  refine Trims.split [cutAt ld flp] (fun _ => mem_mid)
    (fun f => by rw [mem_mid, List.mem_singleton]) hp (fun g hg => ?_) (fun b => ?_) rfl le_rfl
    le_rfl fun _ => .inl
  · obtain rfl := List.mem_singleton.1 hg
    exact ⟨hp, rfl⟩
  · simp only [List.mem_singleton, exists_eq_left, Filock.Covers, Flock.Asks, cutAt,
      Flock.l_end] at *
    omega

/-- Merging the request with a record of its type that it starts in. -/
theorem trims_mergeStart (hp : flp.set.l_pid = pid) (ht : ld.l_type = flp.set.l_type)
    (h₁ : flp.set.l_start ≤ ld.l_start) (h₂ : ld.l_start ≤ flp.set.l_end)
    (h₃ : flp.set.l_end ≤ ld.l_end) :
    Trims pid (done ++ flp :: rest) ld (done ++ rest)
      { ld with l_start := flp.set.l_start } := by
  refine Trims.split [] (fun _ => mem_mid) (by simp) hp (by simp) (fun b => ?_) rfl
    h₁ le_rfl fun b hb => ?_
  · exact iff_of_false (by simp) fun hb => hb.2 ⟨hb.1.1, hb.1.2.trans_le h₃⟩
  · rcases lt_or_ge b ld.l_start with hb' | hb'
    · exact .inr ⟨⟨hb.1, hb'.trans_le h₂⟩, ht.symm⟩
    · exact .inl ⟨hb', hb.2⟩

/-- Merging the request with a record of its type that it ends in. -/
theorem trims_mergeEnd (hp : flp.set.l_pid = pid) (ht : ld.l_type = flp.set.l_type)
    (h₁ : ld.l_start ≤ flp.set.l_start) (h₂ : flp.set.l_start ≤ ld.l_end)
    (h₃ : ld.l_end ≤ flp.set.l_end) :
    Trims pid (done ++ flp :: rest) ld (done ++ rest) { ld with l_len := flp.set.l_end } := by
  refine Trims.split [] (fun _ => mem_mid) (by simp) hp (by simp) (fun b => ?_) rfl
    le_rfl h₃ fun b hb => ?_
  · exact iff_of_false (by simp) fun hb => hb.2 ⟨h₁.trans hb.1.1, hb.1.2⟩
  · rcases lt_or_ge b ld.l_end with hb' | hb'
    · exact .inl ⟨hb.1, hb'⟩
    · exact .inr ⟨⟨h₂.trans hb', hb.2⟩, ht.symm⟩

/-! ### Severing -/

theorem mem_severed {nfree n : ℕ} {chain : List Filock} {done' : List Filock} {f : Filock}
    (h : insflck pid (flp :: rest) nfree (severed ld flp) (severAt ld flp rest) = some (chain, n)) :
    f ∈ done' ++ chain.tail ↔ f = piece pid ld flp ∨ f ∈ done' ++ rest := by
  have hrest : rest.take (passed ld flp rest) ++ rest.drop (passed ld flp rest) = rest :=
    List.take_append_drop _ _
  rw [insflck_severed h, ← List.append_assoc, mem_mid, List.append_assoc, hrest]

/-- A piece is severed off a record that starts in the request. -/
theorem trims_sever {nfree n : ℕ} {chain : List Filock} (hp : flp.set.l_pid = pid)
    (h₁ : ld.l_start ≤ flp.set.l_start) (h₂ : flp.set.l_start ≤ ld.l_end)
    (hins : insflck pid (flp :: rest) nfree (severed ld flp) (severAt ld flp rest) =
      some (chain, n)) :
    Trims pid (done ++ flp :: rest) ld (done ++ chain.tail) ld := by
  refine Trims.split [piece pid ld flp] (fun _ => mem_mid)
    (fun f => by rw [mem_severed hins, List.mem_singleton]) hp (fun g hg => ?_) (fun b => ?_) rfl
    le_rfl le_rfl fun _ => .inl
  · obtain rfl := List.mem_singleton.1 hg
    exact ⟨rfl, rfl⟩
  · simp only [List.mem_singleton, exists_eq_left, Filock.Covers, Flock.Asks, piece, severed,
      Flock.l_end] at *
    omega

/-- A piece is severed off a record that goes on on both sides of the request. -/
theorem trims_severCut {nfree n : ℕ} {chain : List Filock} (hp : flp.set.l_pid = pid)
    (h₁ : flp.set.l_start ≤ ld.l_start) (h₂ : ld.l_start ≤ ld.l_end) (h₃ : ld.l_end ≤ flp.set.l_end)
    (hins : insflck pid (flp :: rest) nfree (severed ld flp) (severAt ld flp rest) =
      some (chain, n)) :
    Trims pid (done ++ flp :: rest) ld (done ++ cutAt ld flp :: chain.tail) ld := by
  refine Trims.split [cutAt ld flp, piece pid ld flp] (fun _ => mem_mid) (fun f => ?_)
    hp (fun g hg => ?_) (fun b => ?_) rfl le_rfl le_rfl fun _ => .inl
  · rw [mem_mid, mem_severed hins, List.mem_cons, List.mem_singleton, or_assoc]
  · rcases List.mem_cons.1 hg with rfl | hg
    · exact ⟨hp, rfl⟩
    · obtain rfl := List.mem_singleton.1 hg
      exact ⟨rfl, rfl⟩
  · simp only [List.mem_cons, List.not_mem_nil, or_false, exists_eq_or_imp, exists_eq_left,
      Filock.Covers, Flock.Asks, piece, severed, cutAt, Flock.l_end] at *
    omega

end Loop

/-- What the scan of `flckadj` leaves: the request, as merged, is already granted, or the process
    has no lock in it. -/
def Scan.Trims (pid : ℤ) (c : List Filock) (ld : Flock) : Scan → Prop
  | ret chain _ none => ∃ ld', RecordLock.Trims pid c ld chain ld' ∧ Ordered chain ∧
      ∃ f ∈ chain, f.set.l_pid = pid ∧ f.set.l_type = ld'.l_type ∧ ∀ b, ld'.Asks b → f.Covers b
  | ret _ _ (some _) => True
  | fin chain _ _ ld' => RecordLock.Trims pid c ld chain ld' ∧
      ∀ f ∈ chain, f.set.l_pid = pid → f.set.l_end ≤ ld'.l_start ∨ ld'.l_end ≤ f.set.l_start

theorem Scan.Trims.after {pid : ℤ} {c c' : List Filock} {ld ld' : Flock} {r : Scan}
    (h : RecordLock.Trims pid c ld c' ld') (hr : r.Trims pid c' ld') : r.Trims pid c ld := by
  match r, hr with
  | .ret _ _ none, ⟨ld'', h', hgranted⟩ => exact ⟨ld'', h.trans h', hgranted⟩
  | .ret _ _ (some _), _ => trivial
  | .fin _ _ _ _, ⟨h', hfree⟩ => exact ⟨h.trans h', hfree⟩

section Spec

variable {pid : ℤ} {done todo rest : List Filock} {flp : Filock} {ld : Flock} {nfree insrtp : ℕ}

/-- The scan ends, and what follows starts after the request. -/
theorem OwnInv.fin (h : OwnInv pid done todo ld)
    (ha : ∀ f ∈ todo, f.set.l_pid = pid → ld.l_end ≤ f.set.l_start) :
    (Scan.fin (done ++ todo) nfree insrtp ld).Trims pid (done ++ todo) ld := by
  refine ⟨.refl fun _ => Iff.rfl, fun f hf hp => ?_⟩
  rcases List.mem_append.1 hf with hf | hf
  · exact .inl (h.behind f hf hp)
  · exact .inr (ha f hf hp)

/-- The scan finds that the process has a lock of the type on the whole request. -/
theorem OwnInv.granted (h : OwnInv pid done (flp :: rest) ld) (hp : flp.set.l_pid = pid)
    (ht : ld.l_type = flp.set.l_type) (h₁ : flp.set.l_start ≤ ld.l_start)
    (h₂ : ld.l_end ≤ flp.set.l_end) :
    (Scan.ret (done ++ flp :: rest) nfree none).Trims pid (done ++ flp :: rest) ld :=
  ⟨ld, .refl fun _ => Iff.rfl, h.ordered, flp, by simp, hp, ht.symm,
    fun _ hb => ⟨h₁.trans hb.1, hb.2.trans_le h₂⟩⟩

/-- The scan ends after severing a piece. -/
theorem OwnInv.sever {done' chain : List Filock} {m n : ℕ}
    (h : OwnInv pid done (flp :: rest) ld) (h' : OwnInv pid done' rest ld)
    (hp : flp.set.l_pid = pid) (h₂ : ld.l_end < flp.set.l_end)
    (hins : insflck pid (flp :: rest) nfree (severed ld flp) (severAt ld flp rest) =
      some (chain, n)) (ht : Trims pid (done ++ flp :: rest) ld (done' ++ chain.tail) ld) :
    (Scan.fin (done' ++ chain.tail) m insrtp ld).Trims pid (done ++ flp :: rest) ld := by
  refine ⟨ht, fun f hf hpf => ?_⟩
  rcases (mem_severed hins).1 hf with rfl | hf
  · exact .inr (le_refl ld.l_end)
  · rcases List.mem_append.1 hf with hf | hf
    · exact .inl (h'.behind f hf hpf)
    · exact .inr (h₂.le.trans (h.own_after hp hf hpf))

/-- What the scan does at the record `flp`, and how it goes on. -/
inductive AdjCase (pid : ℤ) (done : List Filock) (flp : Filock) (rest : List Filock) (nfree : ℕ)
    (ld : Flock) : Scan → Prop
  /-- The record starts after the request. -/
  | stop (i : ℕ) (he : ld.l_end ≤ flp.set.l_start) :
    AdjCase pid done flp rest nfree ld (.fin (done ++ flp :: rest) nfree i ld)
  | keep (i : ℕ) (he : flp.set.l_pid = pid → flp.set.l_end < ld.l_start) :
    AdjCase pid done flp rest nfree ld (adjLoop pid (done ++ [flp]) rest nfree i ld)
  | granted (hp : flp.set.l_pid = pid) (ht : ld.l_type = flp.set.l_type)
    (hs : flp.set.l_start ≤ ld.l_start) (he : ld.l_end ≤ flp.set.l_end) :
    AdjCase pid done flp rest nfree ld (.ret (done ++ flp :: rest) nfree none)
  | delete (i : ℕ) (hp : flp.set.l_pid = pid) (hs : ld.l_start ≤ flp.set.l_start)
    (he : flp.set.l_end ≤ ld.l_end) :
    AdjCase pid done flp rest nfree ld (adjLoop pid done rest (nfree + 1) i ld)
  | cut (i : ℕ) (hp : flp.set.l_pid = pid) (ht : ld.l_type ≠ flp.set.l_type)
    (hs : flp.set.l_start < ld.l_start) (hse : ld.l_start ≤ flp.set.l_end)
    (he : flp.set.l_end ≤ ld.l_end) :
    AdjCase pid done flp rest nfree ld (adjLoop pid (done ++ [cutAt ld flp]) rest nfree i ld)
  | mergeStart (i : ℕ) (hp : flp.set.l_pid = pid) (ht : ld.l_type = flp.set.l_type)
    (hs : flp.set.l_start < ld.l_start) (hse : ld.l_start ≤ flp.set.l_end)
    (he : flp.set.l_end ≤ ld.l_end) :
    AdjCase pid done flp rest nfree ld
      (adjLoop pid done rest (nfree + 1) i { ld with l_start := flp.set.l_start })
  | mergeEnd (i : ℕ) (hp : flp.set.l_pid = pid) (ht : ld.l_type = flp.set.l_type)
    (hs : ld.l_start < flp.set.l_start) (hse : flp.set.l_start ≤ ld.l_end)
    (he : ld.l_end ≤ flp.set.l_end) :
    AdjCase pid done flp rest nfree ld
      (.fin (done ++ rest) (nfree + 1) i { ld with l_len := flp.set.l_end })
  | full (hp : flp.set.l_pid = pid) (ht : ld.l_type ≠ flp.set.l_type)
    (hs : flp.set.l_start < ld.l_end) (he : ld.l_end < flp.set.l_end)
    (hins : insflck pid (flp :: rest) nfree (severed ld flp) (severAt ld flp rest) = none) :
    AdjCase pid done flp rest nfree ld (.ret (done ++ flp :: rest) nfree (some .enospc))
  | sever (i n : ℕ) (chain : List Filock) (hp : flp.set.l_pid = pid)
    (ht : ld.l_type ≠ flp.set.l_type) (hs : ld.l_start ≤ flp.set.l_start)
    (hse : flp.set.l_start < ld.l_end) (he : ld.l_end < flp.set.l_end)
    (hins : insflck pid (flp :: rest) nfree (severed ld flp) (severAt ld flp rest) =
      some (chain, n)) :
    AdjCase pid done flp rest nfree ld (.fin (done ++ chain.tail) (n + 1) i ld)
  | severCut (i n : ℕ) (chain : List Filock) (hp : flp.set.l_pid = pid)
    (ht : ld.l_type ≠ flp.set.l_type) (hs : flp.set.l_start < ld.l_start)
    (he : ld.l_end < flp.set.l_end)
    (hins : insflck pid (flp :: rest) nfree (severed ld flp) (severAt ld flp rest) =
      some (chain, n)) :
    AdjCase pid done flp rest nfree ld
      (.fin (done ++ [cutAt ld flp] ++ chain.tail) n i ld)

/-- The regions of a request of some bytes. -/
theorem OwnInv.adjCase (h : OwnInv pid done (flp :: rest) ld) :
    AdjCase pid done flp rest nfree ld (adjLoop pid done (flp :: rest) nfree insrtp ld) := by
  have hlt := h.lt
  have hflp := h.ordered.mid.lt
  rw [adjLoop]
  by_cases hp : flp.set.l_pid = pid
  · rw [if_pos hp]
    rcases hr : regflck ld flp with ⟨s, e⟩
    obtain ⟨hs, he⟩ := regflck_spec hlt h.ordered.mid hr
    cases s with
    | before =>
      cases e with
      | before => exact .stop insrtp he.le
      | start =>
        dsimp only
        split_ifs with ht
        · exact .mergeEnd _ hp ht hs he.ge (he.le.trans hflp.le)
        · exact .stop insrtp he.le
      | middle =>
        dsimp only
        split_ifs with ht
        · exact .mergeEnd _ hp ht hs he.1.le he.2.le
        -- A piece is severed, or there is no record for it.
        · split
          · exact .full hp ht he.1 he.2 ‹_›
          · exact .sever _ _ _ hp ht hs.le he.1 he.2 ‹_›
      | atEnd =>
        dsimp only
        split_ifs with ht
        · have hld : ld = { ld with l_len := flp.set.l_end } := by
            rw [← he]
          have hcase : AdjCase pid done flp rest nfree ld _ :=
            .mergeEnd (backOff done insrtp) hp ht hs (hflp.le.trans he.ge) he.le
          rwa [← hld] at hcase
        · exact .delete _ hp hs.le he.ge
      | after => exact .delete _ hp hs.le he.le
    | start =>
      cases e with
      | middle =>
        dsimp only
        split_ifs with ht
        · exact .granted hp ht hs.ge he.2.le
        · split
          · exact .full hp ht he.1 he.2 ‹_›
          · exact .sever _ _ _ hp ht hs.le he.1 he.2 ‹_›
      | atEnd =>
        dsimp only
        split_ifs with ht
        · exact .granted hp ht hs.ge he.le
        · exact .delete _ hp hs.le he.ge
      | after => exact .delete _ hp hs.le he.le
      -- The region of an empty request.
      | before | start =>
        simp only [StartRegion.Holds, EndRegion.Holds] at hs he
        omega
    | middle =>
      cases e with
      | middle =>
        dsimp only
        split_ifs with ht
        · exact .granted hp ht hs.1.le he.2.le
        · split
          · exact .full hp ht he.1 he.2 ‹_›
          · rename_i chain n hins
            have hcase : AdjCase pid done flp rest nfree ld _ :=
              .severCut (done.length + 1) n chain hp ht hs.1 he.2 hins
            rwa [List.append_assoc, List.singleton_append] at hcase
      | atEnd =>
        dsimp only
        split_ifs with ht
        · exact .granted hp ht hs.1.le he.le
        · exact .cut _ hp ht hs.1 hs.2.le he.ge
      | after =>
        dsimp only
        split_ifs with ht
        · exact .mergeStart _ hp ht hs.1 hs.2.le he.le
        · exact .cut _ hp ht hs.1 hs.2.le he.le
      -- The region of an empty request.
      | before | start =>
        simp only [StartRegion.Holds, EndRegion.Holds] at hs he
        omega
    | atEnd =>
      cases e with
      | after =>
        dsimp only
        split_ifs with ht
        · exact .mergeStart _ hp ht (hflp.trans_eq hs.symm) hs.le he.le
        · exact .cut _ hp ht (hflp.trans_eq hs.symm) hs.le he.le
      -- The region of an empty request.
      | before | start | middle | atEnd =>
        simp only [StartRegion.Holds, EndRegion.Holds] at hs he
        omega
    | after =>
      cases e with
      | after => exact .keep _ fun _ => hs
      -- The region of an empty request.
      | before | start | middle | atEnd =>
        simp only [StartRegion.Holds, EndRegion.Holds] at hs he
        omega
  · rw [if_neg hp]
    split_ifs with hs
    · exact .stop insrtp hs.le
    · exact .keep insrtp fun hp' => absurd hp' hp

/-- What the scan does to the locks of the bytes. -/
theorem adjLoop_trims (h : OwnInv pid done todo ld) (nfree insrtp : ℕ) :
    (adjLoop pid done todo nfree insrtp ld).Trims pid (done ++ todo) ld := by
  induction todo generalizing done nfree insrtp ld with
  | nil =>
    rw [adjLoop]
    simpa using h.fin fun f hf => absurd hf List.not_mem_nil
  | cons flp rest ih =>
    have hflp := h.ordered.mid.lt
    generalize hr : adjLoop pid done (flp :: rest) nfree insrtp ld = r
    cases hr ▸ h.adjCase with
    | stop i he =>
      refine h.fin fun f hf _ => ?_
      rcases List.mem_cons.1 hf with rfl | hf
      · exact he
      · exact he.trans (h.ordered.after hf).1
    | keep i he => simpa using ih (h.keep fun hp => (he hp).le) nfree i
    | granted hp ht hs he => exact h.granted hp ht hs he
    | delete i hp hs he => exact (ih h.delete _ i).after (trims_delete hp hs he)
    | cut i hp ht hs hse he =>
      have hih := ih (h.keepCut hs hse) nfree i
      rw [List.append_assoc, List.singleton_append] at hih
      exact hih.after (trims_cut hp hse he)
    | mergeStart i hp ht hs hse he =>
      exact (ih (h.mergeStart hp hs) _ i).after (trims_mergeStart hp ht hs.le hse he)
    | mergeEnd i hp ht hs hse he =>
      refine Scan.Trims.after (trims_mergeEnd hp ht hs.le hse he) ?_
      exact OwnInv.fin ⟨h.ordered.delete, h.lt.trans_le he, h.behind⟩ fun f hf hf' =>
        h.own_after hp hf hf'
    | full => trivial
    | sever i n chain hp ht hs hse he hins =>
      exact h.sever h.delete hp he hins (trims_sever hp hs hse.le hins)
    | severCut i n chain hp ht hs he hins =>
      refine h.sever (h.keepCut hs (h.lt.le.trans he.le)) hp he hins ?_
      rw [List.append_assoc]
      exact trims_severCut hp hs.le h.lt.le he.le hins

end Spec

end AuxKernel.RecordLock
