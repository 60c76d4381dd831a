import AuxKernel.RecordLock.Basic

/-!
# Adjusting an ordered chain

A chain is *ordered* (`Ordered`) when its records start one after the other and
no two of them conflict: any two are disjoint, or belong to different processes
and are both read locks. `flckadj` keeps a chain ordered, provided a severed
piece does not jump ahead of other records (`Severs`):

* `LoopInv`: the invariant of its loop, kept by every record (`adjLoop_spec`);
* `Placeable`: what the loop leaves for the insertion of the request;
* `ordered_flckadj`: the chain it returns is ordered.
-/

namespace AuxKernel.RecordLock

/-! ## Ordered chains -/

/-- The record `a` may stand before `b`. -/
def Compat (a b : Filock) : Prop :=
  a.set.l_start ≤ b.set.l_start ∧ (a.set.l_end ≤ b.set.l_start ∨
    (a.set.l_pid ≠ b.set.l_pid ∧ a.set.l_type ≠ .wrlck ∧ b.set.l_type ≠ .wrlck))

/-- A record locks something, for reading or writing. -/
structure Proper (f : Filock) : Prop where
  lt : f.set.l_start < f.set.l_end
  type : f.set.l_type = .rdlck ∨ f.set.l_type = .wrlck

/-- An ordered chain of compatible records. -/
structure Ordered (chain : List Filock) : Prop where
  pairwise : chain.Pairwise Compat
  proper : ∀ f ∈ chain, Proper f

theorem ordered_nil : Ordered [] := ⟨.nil, fun _ h => absurd h List.not_mem_nil⟩

theorem Ordered.sublist {l l' : List Filock} (h : Ordered l) (hl : l'.Sublist l) : Ordered l' :=
  ⟨h.pairwise.sublist hl, fun f hf => h.proper f (hl.subset hf)⟩

/-- Deleting a record keeps a chain ordered. -/
theorem Ordered.delete {l r : List Filock} {f : Filock} (h : Ordered (l ++ f :: r)) :
    Ordered (l ++ r) :=
  h.sublist ((List.Sublist.refl l).append (List.sublist_cons_self f r))

theorem Ordered.insert {l r : List Filock} {f : Filock} (h : Ordered (l ++ r)) (hf : Proper f)
    (hl : ∀ a ∈ l, Compat a f) (hr : ∀ b ∈ r, Compat f b) : Ordered (l ++ f :: r) := by
  obtain ⟨hp₁, hp₂, hp⟩ := List.pairwise_append.1 h.pairwise
  refine ⟨List.pairwise_append.2 ⟨hp₁, List.pairwise_cons.2 ⟨hr, hp₂⟩, fun a ha b hb => ?_⟩, ?_⟩
  · rcases List.mem_cons.1 hb with rfl | hb
    · exact hl a ha
    · exact hp a ha b hb
  · intro a ha
    rcases List.mem_append.1 ha with ha | ha
    · exact h.proper a (List.mem_append_left _ ha)
    · rcases List.mem_cons.1 ha with rfl | ha
      · exact hf
      · exact h.proper a (List.mem_append_right _ ha)

section Split

variable {l r : List Filock} {f : Filock} (h : Ordered (l ++ f :: r))
include h

theorem Ordered.mid : Proper f := h.proper f (by simp)

theorem Ordered.before {a : Filock} (ha : a ∈ l) : Compat a f :=
  (List.pairwise_append.1 h.pairwise).2.2 a ha f List.mem_cons_self

theorem Ordered.after {b : Filock} (hb : b ∈ r) : Compat f b :=
  (List.pairwise_cons.1 (List.pairwise_append.1 h.pairwise).2.1).1 b hb

/-- Cutting a record off keeps a chain ordered. -/
theorem Ordered.cut {ld : Flock} (h₁ : f.set.l_start < ld.l_start)
    (h₂ : ld.l_start ≤ f.set.l_end) : Ordered (l ++ cutAt ld f :: r) :=
  h.delete.insert ⟨h₁, h.mid.type⟩ (fun _ ha => h.before ha) fun _ hb =>
    ⟨(h.after hb).1, (h.after hb).2.imp_left h₂.trans⟩

end Split

/-! ## The scans for a place -/

theorem lt_of_mem_take_startBefore {start : ℤ} {l : List Filock} {f : Filock}
    (hf : f ∈ l.take (startBefore start l)) : f.set.l_start < start := by
  induction l with
  | nil => simp at hf
  | cons a l ih =>
    rw [startBefore] at hf
    split_ifs at hf with ha
    · rcases List.mem_cons.1 hf with rfl | hf
      · exact ha
      · exact ih hf
    · simp at hf

theorem le_of_mem_drop_startBefore {start : ℤ} {l : List Filock} (h : Ordered l) {f : Filock}
    (hf : f ∈ l.drop (startBefore start l)) : start ≤ f.set.l_start := by
  induction l with
  | nil => simp at hf
  | cons a l ih =>
    rw [startBefore] at hf
    split_ifs at hf with ha
    · exact ih (h.sublist (List.sublist_cons_self a l)) hf
    · rcases List.mem_cons.1 hf with rfl | hf
      · omega
      · have := ((List.pairwise_cons.1 h.pairwise).1 f hf).1
        omega

/-! ## Regions -/

/-- What a start region says. -/
def StartRegion.Holds (ld : Flock) (f : Filock) : StartRegion → Prop
  | before => ld.l_start < f.set.l_start
  | start => ld.l_start = f.set.l_start
  | middle => f.set.l_start < ld.l_start ∧ ld.l_start < f.set.l_end
  | atEnd => ld.l_start = f.set.l_end
  | after => f.set.l_end < ld.l_start

/-- What an end region says. -/
def EndRegion.Holds (ld : Flock) (f : Filock) : EndRegion → Prop
  | before => ld.l_end < f.set.l_start
  | start => ld.l_end = f.set.l_start
  | middle => f.set.l_start < ld.l_end ∧ ld.l_end < f.set.l_end
  | atEnd => ld.l_end = f.set.l_end
  | after => f.set.l_end < ld.l_end

/-- `regflck` finds the regions of a request. -/
theorem regflck_spec {ld : Flock} {f : Filock} {s : StartRegion} {e : EndRegion}
    (hld : ld.l_start < ld.l_end) (hf : Proper f) (h : regflck ld f = (s, e)) :
    s.Holds ld f ∧ e.Holds ld f := by
  have := hf.lt
  unfold regflck at h
  split_ifs at h <;> obtain ⟨rfl, rfl⟩ := Prod.mk.inj h <;>
    simp only [StartRegion.Holds, EndRegion.Holds] <;> omega

/-! ## The loop -/

/-- The request `ld` may stand beside the record `f`: they are disjoint, or of
    different processes and neither is a write lock. -/
def Fits (pid : ℤ) (ld : Flock) (f : Filock) : Prop :=
  f.set.l_end ≤ ld.l_start ∨ ld.l_end ≤ f.set.l_start ∨
    (f.set.l_pid ≠ pid ∧ f.set.l_type ≠ .wrlck ∧ ld.l_type ≠ .wrlck)

/-- A request that severs a piece off `f` does not sever it past another record:
    no record after `f` starts inside the request. -/
def Severs (pid : ℤ) (ld : Flock) (f r : Filock) : Prop :=
  f.set.l_pid = pid → f.set.l_start < ld.l_end → ld.l_end < f.set.l_end →
    ld.l_start ≤ r.set.l_start → ld.l_end ≤ r.set.l_start

/-- The pointer `insrtp` is a place for a request starting at `start`: what is
    up to it starts no later, and if it is `NULL` everything starts no earlier. -/
structure Pointer (chain : List Filock) (insrtp : ℕ) (start : ℤ) : Prop where
  le : ∀ f ∈ chain.take insrtp, f.set.l_start ≤ start
  null : insrtp = 0 → ∀ f ∈ chain, start ≤ f.set.l_start

/-- What the loop leaves for the insertion of the request. -/
structure Placeable (pid : ℤ) (chain : List Filock) (insrtp : ℕ) (ld : Flock) : Prop where
  lt : ld.l_start < ld.l_end
  type : ld.l_type = .rdlck ∨ ld.l_type = .wrlck
  fits : ∀ f ∈ chain, Fits pid ld f
  pointer : Pointer chain insrtp ld.l_start

/-- The invariant of the loop of `flckadj` with the records `done` behind it. -/
structure LoopInv (pid : ℤ) (done todo : List Filock) (insrtp : ℕ) (ld : Flock) : Prop where
  ordered : Ordered (done ++ todo)
  lt : ld.l_start < ld.l_end
  type : ld.l_type = .rdlck ∨ ld.l_type = .wrlck ∨ ld.l_type = .unlck
  /-- An unlock severs cleanly; a lock always does, as what it meets is its own. -/
  severs : ld.l_type = .unlck → todo.Pairwise (Severs pid ld)
  fits : ld.l_type ≠ .unlck → ∀ f ∈ done ++ todo, f.set.l_pid ≠ pid → Fits pid ld f
  behind : ∀ f ∈ done, f.set.l_pid = pid → f.set.l_end ≤ ld.l_start
  pointer : ld.l_type ≠ .unlck → Pointer (done ++ todo) insrtp ld.l_start
  le_length : insrtp ≤ done.length + 1

/-- What the scan of `flckadj` leaves. -/
def Scan.Ok (pid : ℤ) : Scan → Prop
  | ret chain _ _ => Ordered chain
  | fin chain _ insrtp ld =>
    Ordered chain ∧ (ld.l_type ≠ .unlck → Placeable pid chain insrtp ld)

section Loop

variable {pid : ℤ} {done todo rest : List Filock} {flp : Filock} {insrtp : ℕ} {ld : Flock}

theorem Pointer.mono {chain chain' : List Filock} {i i' : ℕ} {start start' : ℤ}
    (h : Pointer chain i start) (hle : ∀ f ∈ chain'.take i', f ∈ chain.take i)
    (hsub : ∀ f ∈ chain', f ∈ chain) (h₀ : i' = 0 → i = 0) (hs : start = start') :
    Pointer chain' i' start' :=
  hs ▸ ⟨fun f hf => h.le f (hle f hf), fun hi f hf => h.null (h₀ hi) f (hsub f hf)⟩

/-- The records behind a record that starts with the request, or where the
    request is moved to, are a place for it. -/
theorem Pointer.behind (h : Ordered (done ++ flp :: rest)) :
    Pointer (done ++ rest) done.length flp.set.l_start := by
  refine ⟨fun f hf => ?_, fun h₀ f hf => ?_⟩
  · rw [List.take_left] at hf
    exact (h.before hf).1
  · rw [List.length_eq_zero_iff.1 h₀, List.nil_append] at hf
    exact (h.after hf).1

/-- A record that starts no later than the request, and those behind it, are a
    place for the request. -/
theorem Pointer.upTo {start : ℤ} (h : Ordered (done ++ flp :: rest))
    (hs : flp.set.l_start ≤ start) :
    Pointer (done ++ flp :: rest) (done.length + 1) start := by
  refine ⟨fun f hf => ?_, fun h₀ => absurd h₀ (Nat.succ_ne_zero _)⟩
  rw [List.take_length_add_append, List.take_succ_cons, List.take_zero] at hf
  rcases List.mem_append.1 hf with hf | hf
  · exact (h.before hf).1.trans hs
  · exact List.mem_singleton.1 hf ▸ hs

/-- At its end, the loop has left no record of the process in the request. -/
theorem LoopInv.fin (nfree : ℕ) (h : LoopInv pid done todo insrtp ld)
    (ha : ∀ f ∈ todo, f.set.l_pid = pid → ld.l_end ≤ f.set.l_start) :
    (Scan.fin (done ++ todo) nfree insrtp ld).Ok pid := by
  refine ⟨h.ordered, fun hu => ⟨h.lt, ?_, fun f hf => ?_, h.pointer hu⟩⟩
  · rcases h.type with ht | ht | ht
    · exact .inl ht
    · exact .inr ht
    · exact absurd ht hu
  · by_cases hp : f.set.l_pid = pid
    · rcases List.mem_append.1 hf with hf | hf
      · exact .inl (h.behind f hf hp)
      · exact .inr (.inl (ha f hf hp))
    · exact h.fits hu f hf hp

section Record

variable (h : LoopInv pid done (flp :: rest) insrtp ld)
include h

theorem LoopInv.severs_rest (hu : ld.l_type = .unlck) : rest.Pairwise (Severs pid ld) :=
  (List.pairwise_cons.1 (h.severs hu)).2

theorem LoopInv.fits_rest {l : List Filock} (hl : ∀ f ∈ l, f ∈ done ++ rest)
    (hu : ld.l_type ≠ .unlck) : ∀ f ∈ l, f.set.l_pid ≠ pid → Fits pid ld f :=
  fun f hf => h.fits hu f (List.mem_append.2 ((List.mem_append.1 (hl f hf)).imp_right
    (List.mem_cons_of_mem _)))

/-- Going on past a record that is not met, with the same place. -/
theorem LoopInv.keep (hb : flp.set.l_pid = pid → flp.set.l_end ≤ ld.l_start) :
    LoopInv pid (done ++ [flp]) rest insrtp ld where
  ordered := by simpa using h.ordered
  lt := h.lt
  type := h.type
  severs := h.severs_rest
  fits := by simpa using h.fits
  behind f hf := by
    rcases List.mem_append.1 hf with hf | hf
    · exact h.behind f hf
    · exact List.mem_singleton.1 hf ▸ hb
  pointer := by simpa using h.pointer
  le_length := by simpa using h.le_length.trans (Nat.le_succ _)

/-- Going on past a record that is not met, which the request may follow. -/
theorem LoopInv.keepHere (hb : flp.set.l_end ≤ ld.l_start) :
    LoopInv pid (done ++ [flp]) rest (done.length + 1) ld :=
  { h.keep fun _ => hb with
    pointer := fun _ => by
      simpa using Pointer.upTo h.ordered (h.ordered.mid.lt.le.trans hb)
    le_length := by simp }

/-- Going on past a record cut off at the start of the request. -/
theorem LoopInv.keepCut (h₁ : flp.set.l_start < ld.l_start) (h₂ : ld.l_start ≤ flp.set.l_end)
    (hp : flp.set.l_pid = pid) :
    LoopInv pid (done ++ [cutAt ld flp]) rest (done.length + 1) ld where
  ordered := by simpa using h.ordered.cut h₁ h₂
  lt := h.lt
  type := h.type
  severs := h.severs_rest
  fits hu f hf hne := by
    simp only [List.append_assoc, List.singleton_append, List.mem_append, List.mem_cons] at hf
    rcases hf with hf | rfl | hf
    · exact h.fits_rest (fun _ => List.mem_append_left _) hu f hf hne
    · exact absurd hp hne
    · exact h.fits_rest (fun _ => List.mem_append_right _) hu f hf hne
  behind f hf hf' := by
    rcases List.mem_append.1 hf with hf | hf
    · exact h.behind f hf hf'
    · exact (List.mem_singleton.1 hf).symm ▸ le_refl ld.l_start
  pointer _ := by
    have hc := h.ordered.cut h₁ h₂
    simpa using Pointer.upTo hc (show (cutAt ld flp).set.l_start ≤ ld.l_start from h₁.le)
  le_length := by simp

/-- Going on after deleting a record, with a place found anew. -/
theorem LoopInv.deleteTo {insrtp' : ℕ} (hi : insrtp' ≤ done.length + 1)
    (hp : ld.l_type ≠ .unlck → Pointer (done ++ rest) insrtp' ld.l_start) :
    LoopInv pid done rest insrtp' ld where
  ordered := h.ordered.delete
  lt := h.lt
  type := h.type
  severs := h.severs_rest
  fits := h.fits_rest fun _ => id
  behind := h.behind
  pointer := hp
  le_length := hi

/-- Deleting a record that starts with the request. -/
theorem LoopInv.deleteStart (hs : ld.l_start = flp.set.l_start) :
    LoopInv pid done rest done.length ld :=
  h.deleteTo (Nat.le_succ _) fun _ => hs ▸ Pointer.behind h.ordered

/-- Deleting a record that starts in the request. -/
theorem LoopInv.deleteBackOff (hs : ld.l_start < flp.set.l_start) :
    LoopInv pid done rest (backOff done insrtp) ld := by
  refine h.deleteTo (by unfold backOff; split_ifs <;> have := h.le_length <;> omega) fun hu => ?_
  -- The place of a lock is behind the record, which starts after it.
  have hne : insrtp ≠ done.length + 1 := by
    rintro rfl
    have := (h.pointer hu).le flp (by simp [List.take_append])
    omega
  have hle : insrtp ≤ done.length := by have := h.le_length; omega
  rw [backOff, if_neg hne]
  refine (h.pointer hu).mono (fun f hf => ?_) (fun f hf => ?_) id rfl
  · rwa [List.take_append_of_le_length hle] at hf ⊢
  · exact List.mem_append.2 ((List.mem_append.1 hf).imp_right (List.mem_cons_of_mem _))

/-- Merging the request with a record of its type that it starts in. -/
theorem LoopInv.mergeStart (hp : flp.set.l_pid = pid) (ht : ld.l_type = flp.set.l_type)
    (h₁ : flp.set.l_start < ld.l_start) (h₂ : ld.l_start ≤ flp.set.l_end) :
    LoopInv pid done rest done.length { ld with l_start := flp.set.l_start } where
  ordered := h.ordered.delete
  lt := h₁.trans h.lt
  type := h.type
  severs hu := by
    rcases h.ordered.mid.type with ht' | ht' <;> simp_all
  fits hu f hf hne := by
    have hf' := h.fits_rest (fun _ => id) hu f hf hne
    have hlt := (h.ordered.delete.proper f hf).lt
    -- Beside the request and beside the record it is merged with.
    rcases List.mem_append.1 hf with hf | hf
    · have hc := h.ordered.before hf
      simp only [Fits, Compat, Flock.l_end, ht] at hf' hc hlt h₂ ⊢
      grind
    · have hc := h.ordered.after hf
      simp only [Fits, Compat, Flock.l_end, ht] at hf' hc hlt h₂ ⊢
      grind
  behind f hf hp' := by
    rcases (h.ordered.before hf).2 with hc | hc
    · exact hc
    · exact absurd (hp'.trans hp.symm) hc.1
  pointer _ := Pointer.behind h.ordered
  le_length := Nat.le_succ _

/-- Merging the request with a record of its type that it ends in. -/
theorem LoopInv.mergeEnd (ht : ld.l_type = flp.set.l_type) (h₁ : ld.l_start < flp.set.l_start)
    (h₂ : flp.set.l_start ≤ ld.l_end) (h₃ : ld.l_end ≤ flp.set.l_end) :
    LoopInv pid done rest (backOff done insrtp) { ld with l_len := flp.set.l_end } where
  ordered := h.ordered.delete
  lt := h.lt.trans_le h₃
  type := h.type
  severs hu := by
    rcases h.ordered.mid.type with ht' | ht' <;> simp_all
  fits hu f hf hne := by
    have hf' := h.fits_rest (fun _ => id) hu f hf hne
    have hlt := (h.ordered.delete.proper f hf).lt
    rcases List.mem_append.1 hf with hf | hf
    · have hc := h.ordered.before hf
      simp only [Fits, Compat, Flock.l_end, ht] at hf' hc hlt h₂ h₃ ⊢
      grind
    · have hc := h.ordered.after hf
      simp only [Fits, Compat, Flock.l_end, ht] at hf' hc hlt h₂ h₃ ⊢
      grind
  behind := h.behind
  pointer hu := (h.deleteBackOff h₁).pointer hu
  le_length := (h.deleteBackOff h₁).le_length

/-- The records of the process after one of its own start after its end. -/
theorem LoopInv.own_after (hp : flp.set.l_pid = pid) {f : Filock} (hf : f ∈ rest)
    (hf' : f.set.l_pid = pid) : flp.set.l_end ≤ f.set.l_start := by
  rcases (h.ordered.after hf).2 with hc | hc
  · exact hc
  · exact absurd (hp.trans hf'.symm) hc.1

/-- No record after one that a piece is severed off starts inside the request:
    it would share bytes with the record and with the request. -/
theorem LoopInv.severs_past (hp : flp.set.l_pid = pid) (ht : ld.l_type ≠ flp.set.l_type)
    (h₁ : flp.set.l_start < ld.l_end) (h₂ : ld.l_end < flp.set.l_end) {r : Filock}
    (hr : r ∈ rest) (hs : ld.l_start ≤ r.set.l_start) : ld.l_end ≤ r.set.l_start := by
  by_cases hu : ld.l_type = .unlck
  · exact (List.pairwise_cons.1 (h.severs hu)).1 r hr hp h₁ h₂ hs
  by_contra hlt
  have hrr := (h.ordered.proper r (by simp [hr])).lt
  rcases (h.ordered.after hr).2 with hc | ⟨hne, hw, _⟩
  · simp only [Flock.l_end] at *; omega
  · have hf := h.fits_rest (fun _ => id) hu r (List.mem_append_right _ hr) fun e => hne (hp.trans e.symm)
    simp only [Fits, Flock.l_end] at *
    have hld : ld.l_type ≠ .wrlck := by
      rcases hf with hf | hf | hf
      · omega
      · omega
      · exact hf.2.2
    rcases h.type with ht' | ht' | ht' <;> rcases h.ordered.mid.type with hf' | hf' <;> simp_all

end Record

/-! ### Severing -/

/-- The piece severed off `flp`, as it is inserted. -/
def piece (pid : ℤ) (ld : Flock) (flp : Filock) : Filock :=
  ⟨{ severed ld flp with l_pid := pid }, 0⟩

theorem Compat.piece_right {f : Filock} (hp : flp.set.l_pid = pid) (h : Compat f flp)
    (hs : flp.set.l_start ≤ ld.l_end) : Compat f (piece pid ld flp) := by
  simp only [Compat, piece, severed, Flock.l_end, hp] at *
  refine ⟨h.1.trans hs, h.2.imp_left hs.trans'⟩

theorem Compat.piece_of_lt {f : Filock} (hp : flp.set.l_pid = pid) (h : Compat flp f)
    (hs : f.set.l_start ≤ ld.l_end) (hf : f.set.l_start < flp.set.l_end) :
    Compat f (piece pid ld flp) := by
  simp only [Compat, piece, severed, Flock.l_end, hp] at *
  rcases h.2 with hc | ⟨hne, hw, hw'⟩
  · omega
  · exact ⟨hs, .inr ⟨hne.symm, hw', hw⟩⟩

theorem Compat.piece_left {f : Filock} (hp : flp.set.l_pid = pid) (h : Compat flp f)
    (hs : ld.l_end ≤ f.set.l_start) : Compat (piece pid ld flp) f := by
  simp only [Compat, piece, severed, Flock.l_end, hp] at *
  exact ⟨hs, h.2⟩

/-- The records after `flp` up to where its severed piece goes. -/
def passed (ld : Flock) (flp : Filock) (rest : List Filock) : ℕ := severAt ld flp rest - 1

theorem insflck_severed {nfree : ℕ} {chain : List Filock} {n : ℕ}
    (h : insflck pid (flp :: rest) nfree (severed ld flp) (severAt ld flp rest) = some (chain, n)) :
    chain.tail = rest.take (passed ld flp rest) ++
      piece pid ld flp :: rest.drop (passed ld flp rest) := by
  have hs : severAt ld flp rest = passed ld flp rest + 1 := by
    exact (Nat.sub_add_cancel (le_max_left _ _)).symm
  cases nfree with
  | zero => simp [insflck] at h
  | succ k =>
    simp only [insflck, Option.some.injEq, Prod.mk.injEq] at h
    rw [← h.1, hs]
    rfl

theorem passed_eq : passed ld flp rest =
    if flp.set.l_start < ld.l_start then startBefore ld.l_start rest else 0 := by
  rw [passed, severAt, startBefore]
  split_ifs <;> omega

theorem lt_of_mem_passed {f : Filock} (hf : f ∈ rest.take (passed ld flp rest)) :
    f.set.l_start < ld.l_start := by
  rw [passed_eq] at hf
  split_ifs at hf
  · exact lt_of_mem_take_startBefore hf
  · simp at hf

theorem le_of_not_passed (h : Ordered (done ++ flp :: rest)) {f : Filock}
    (hf : f ∈ rest.drop (passed ld flp rest)) : ld.l_start ≤ f.set.l_start := by
  rw [passed_eq] at hf
  split_ifs at hf with hs
  · exact le_of_mem_drop_startBefore (h.sublist (by simp)) hf
  · have := (h.after (List.mem_of_mem_drop hf)).1
    omega

/-- After a piece is severed off `flp`, and what was before the request is dealt
    with, the chain is ordered and the request can be placed. -/
theorem LoopInv.sever {done' : List Filock} {insrtp' nfree : ℕ}
    (h : LoopInv pid done (flp :: rest) insrtp ld) (hp : flp.set.l_pid = pid)
    (ht : ld.l_type ≠ flp.set.l_type) (h₁ : flp.set.l_start < ld.l_end)
    (h₂ : ld.l_end < flp.set.l_end) (h' : LoopInv pid done' rest insrtp' ld)
    (hle : insrtp' ≤ done'.length) (hc : ∀ f ∈ done', Compat f (piece pid ld flp)) :
    (Scan.fin (done' ++ (rest.take (passed ld flp rest) ++
      piece pid ld flp :: rest.drop (passed ld flp rest))) nfree insrtp' ld).Ok pid := by
  set rest₁ := rest.take (passed ld flp rest)
  set rest₂ := rest.drop (passed ld flp rest)
  have hrest : rest₁ ++ rest₂ = rest := List.take_append_drop _ _
  have hlt : ld.l_start < ld.l_end := h.lt
  have hmem₁ : ∀ f ∈ rest₁, f ∈ rest := fun f hf => hrest ▸ List.mem_append_left _ hf
  have hmem₂ : ∀ f ∈ rest₂, f ∈ rest := fun f hf => hrest ▸ List.mem_append_right _ hf
  have hc₁ : ∀ f ∈ rest₁, Compat f (piece pid ld flp) := fun f hf => by
    have := lt_of_mem_passed hf
    have hf' := h.ordered.after (hmem₁ f hf)
    exact hf'.piece_of_lt hp (by omega) (by omega)
  have hc₂ : ∀ f ∈ rest₂, Compat (piece pid ld flp) f := fun f hf =>
    (h.ordered.after (hmem₂ f hf)).piece_left hp
      (h.severs_past hp ht h₁ h₂ (hmem₂ f hf) (le_of_not_passed h.ordered hf))
  have hord : Ordered (done' ++ (rest₁ ++ piece pid ld flp :: rest₂)) := by
    rw [← List.append_assoc]
    refine Ordered.insert (by rw [List.append_assoc, hrest]; exact h'.ordered)
      ⟨h₂, h.ordered.mid.type⟩ (fun f hf => ?_) hc₂
    exact (List.mem_append.1 hf).elim (hc f) (hc₁ f)
  have hmem : ∀ f ∈ rest₁ ++ piece pid ld flp :: rest₂, f = piece pid ld flp ∨ f ∈ rest := by
    intro f hf
    rcases List.mem_append.1 hf with hf | hf
    · exact .inr (hmem₁ f hf)
    · exact (List.mem_cons.1 hf).imp_right (hmem₂ f)
  refine ⟨hord, fun hu => ⟨h.lt, ?_, fun f hf => ?_, ?_⟩⟩
  · rcases h.type with ht | ht | ht
    · exact .inl ht
    · exact .inr ht
    · exact absurd ht hu
  · rcases List.mem_append.1 hf with hf | hf
    · by_cases hpf : f.set.l_pid = pid
      · exact .inl (h'.behind f hf hpf)
      · exact h'.fits hu f (List.mem_append_left _ hf) hpf
    · rcases hmem f hf with rfl | hf
      · exact .inr (.inl (le_refl ld.l_end))
      · by_cases hpf : f.set.l_pid = pid
        · exact .inr (.inl (h₂.le.trans (h.own_after hp hf hpf)))
        · exact h'.fits hu f (List.mem_append_right _ hf) hpf
  · have hpt := h'.pointer hu
    refine ⟨fun f hf => hpt.le f ?_, fun h₀ f hf => ?_⟩
    · rwa [List.take_append_of_le_length hle] at hf ⊢
    · rcases List.mem_append.1 hf with hf | hf
      · exact hpt.null h₀ f (List.mem_append_left _ hf)
      · rcases hmem f hf with rfl | hf
        · exact hlt.le
        · exact hpt.null h₀ f (List.mem_append_right _ hf)

end Loop

/-- The loop leaves an ordered chain, and a place for the request. -/
theorem adjLoop_spec {pid : ℤ} {done todo : List Filock} {nfree insrtp : ℕ} {ld : Flock}
    (h : LoopInv pid done todo insrtp ld) : (adjLoop pid done todo nfree insrtp ld).Ok pid := by
  induction todo generalizing done nfree insrtp ld with
  | nil =>
    rw [adjLoop]
    simpa using h.fin nfree fun f hf => absurd hf List.not_mem_nil
  | cons flp rest ih =>
    have hflp := h.ordered.mid.lt
    rw [adjLoop]
    by_cases hp : flp.set.l_pid = pid
    · rw [if_pos hp]
      have hreg {s e} := regflck_spec (s := s) (e := e) h.lt h.ordered.mid
      -- A request that ends before the record ends before all that follow.
      have hfin (he : ld.l_end ≤ flp.set.l_start) :
          (Scan.fin (done ++ flp :: rest) nfree insrtp ld).Ok pid := by
        refine h.fin _ fun f hf hf' => ?_
        rcases List.mem_cons.1 hf with rfl | hf
        · exact he
        · exact he.trans (hflp.le.trans (h.own_after hp hf hf'))
      split
      case h_1 heq => exact hfin (hreg heq).2.le
      case h_2 heq =>
        obtain ⟨hs, he⟩ := hreg heq
        split_ifs with ht
        · exact (h.mergeEnd ht hs he.ge (he.le.trans hflp.le)).fin _ fun f hf hf' =>
            h.own_after hp hf hf'
        · exact hfin he.le
      case h_3 heq =>
        split_ifs with ht
        · exact h.ordered
        · exact ih (h.deleteStart (hreg heq).1)
      case h_4 heq => exact ih (h.deleteStart (hreg heq).1)
      case h_5 heq =>
        obtain ⟨hs, he⟩ := hreg heq
        split_ifs with ht
        · exact (h.deleteBackOff hs).fin _ fun f hf hf' => he.le.trans (h.own_after hp hf hf')
        · exact ih (h.deleteBackOff hs)
      case h_6 heq => exact ih (h.deleteBackOff (hreg heq).1)
      -- The request ends in the record: a piece of it is left after the request.
      case h_7 heq =>
        obtain ⟨hs, he⟩ := hreg heq
        split_ifs with ht
        · exact (h.mergeEnd ht hs he.1.le he.2.le).fin _ fun f hf hf' => h.own_after hp hf hf'
        · split
          · exact h.ordered
          · rename_i hins
            rw [insflck_severed hins]
            refine h.sever hp ht he.1 he.2 (h.deleteBackOff hs) ?_ fun f hf =>
              (h.ordered.before hf).piece_right hp he.1.le
            have := h.le_length
            unfold backOff
            split_ifs <;> omega
      case h_8 heq =>
        obtain ⟨hs, he⟩ := hreg heq
        split_ifs with ht
        · exact h.ordered
        · split
          · exact h.ordered
          · rename_i hins
            rw [insflck_severed hins]
            exact h.sever hp ht he.1 he.2 (h.deleteStart hs) le_rfl fun f hf =>
              (h.ordered.before hf).piece_right hp he.1.le
      case h_9 heq =>
        obtain ⟨hs, he⟩ := hreg heq
        split_ifs with ht
        · exact h.ordered
        · split
          · exact h.ordered
          · rename_i hins
            rw [insflck_severed hins, ← List.singleton_append, ← List.append_assoc]
            refine h.sever hp ht he.1 he.2 (h.keepCut hs.1 hs.2.le hp) (by simp) fun f hf => ?_
            rcases List.mem_append.1 hf with hf | hf
            · exact (h.ordered.before hf).piece_right hp he.1.le
            · -- The piece before the request ends where it starts.
              rw [List.mem_singleton.1 hf]
              exact ⟨he.1.le, .inl h.lt.le⟩
      case h_10 heq =>
        obtain ⟨hs, he⟩ := hreg heq
        split_ifs with ht
        · exact h.ordered
        · exact ih (h.keepCut hs.1 hs.2.le hp)
      -- The request starts in the record and goes on after it.
      case h_11 heq =>
        obtain ⟨hs, he⟩ := hreg heq
        split_ifs with ht
        · exact ih (h.mergeStart hp ht hs.1 hs.2.le)
        · exact ih (h.keepCut hs.1 hs.2.le hp)
      case h_12 heq =>
        obtain ⟨hs, he⟩ := hreg heq
        split_ifs with ht
        · exact ih (h.mergeStart hp ht (hs ▸ hflp) hs.le)
        · exact ih (h.keepCut (hs ▸ hflp) hs.le hp)
      case h_13 heq => exact ih (h.keepHere (hreg heq).1.le)
      -- The other regions are those of empty requests.
      case h_14 =>
        have hlt := h.lt
        rcases hr : regflck ld flp with ⟨s, e⟩
        obtain ⟨hs, he⟩ := hreg hr
        cases s <;> cases e <;> simp_all [StartRegion.Holds, EndRegion.Holds] <;> omega
    · rw [if_neg hp]
      split_ifs with hs
      · refine h.fin _ fun f hf _ => ?_
        rcases List.mem_cons.1 hf with rfl | hf
        · omega
        · have := (h.ordered.after hf).1
          omega
      · exact ih (h.keep fun hp' => absurd hp' hp)

/-! ## Insertion -/

/-- Where the request is inserted is a place between its neighbours. -/
theorem place_spec {chain : List Filock} {insrtp : ℕ} {ld : Flock} (h : Ordered chain)
    (hp : Pointer chain insrtp ld.l_start) :
    (∀ f ∈ chain.take (place chain insrtp ld), f.set.l_start ≤ ld.l_start) ∧
      ∀ f ∈ chain.drop (place chain insrtp ld), ld.l_start ≤ f.set.l_start := by
  rw [place]
  split_ifs with h₀
  · exact ⟨fun f hf => absurd hf (by simp), fun f hf => hp.null h₀ f (by simpa using hf)⟩
  set n := insrtp - 1 with hn
  have hsub : Ordered (chain.drop n) := h.sublist (List.drop_sublist n chain)
  have hbefore (f) (hf : f ∈ chain.take (n + startBefore ld.l_start (chain.drop n))) :
      f.set.l_start ≤ ld.l_start := by
    rw [List.take_add] at hf
    rcases List.mem_append.1 hf with hf | hf
    · exact hp.le f ((List.take_subset_take_left chain (by omega)) hf)
    · exact (lt_of_mem_take_startBefore hf).le
  have hafter (f) (hf : f ∈ chain.drop (n + startBefore ld.l_start (chain.drop n))) :
      ld.l_start ≤ f.set.l_start := by
    rw [← List.drop_drop] at hf
    exact le_of_mem_drop_startBefore hsub hf
  constructor
  · intro f hf
    rcases le_total insrtp (n + startBefore ld.l_start (chain.drop n)) with hle | hle
    · rw [max_eq_right hle] at hf
      exact hbefore f hf
    · rw [max_eq_left hle] at hf
      exact hp.le f hf
  · intro f hf
    exact hafter f ((List.drop_sublist_drop_left chain (le_max_right _ _)).subset hf)

/-- Inserting the request in its place keeps the chain ordered. -/
theorem Placeable.ordered {pid : ℤ} {chain chain' : List Filock} {insrtp nfree n : ℕ} {ld : Flock}
    (h : Ordered chain) (hp : Placeable pid chain insrtp ld)
    (hi : insflck pid chain nfree ld (place chain insrtp ld) = some (chain', n)) :
    Ordered chain' := by
  obtain ⟨hbefore, hafter⟩ := place_spec h hp.pointer
  cases nfree with
  | zero => simp [insflck] at hi
  | succ k =>
    simp only [insflck, Option.some.injEq, Prod.mk.injEq] at hi
    rw [← hi.1]
    refine Ordered.insert (by rw [List.take_append_drop]; exact h) ⟨hp.lt, hp.type⟩
      (fun f hf => ⟨hbefore f hf, ?_⟩) (fun f hf => ⟨hafter f hf, ?_⟩)
    · have hf' := hp.fits f (List.mem_of_mem_take hf)
      have := (h.proper f (List.mem_of_mem_take hf)).lt
      have := hp.lt
      have := hbefore f hf
      simp only [Fits, Flock.l_end] at *
      grind
    · have hf' := hp.fits f (List.mem_of_mem_drop hf)
      have := (h.proper f (List.mem_of_mem_drop hf)).lt
      have := hp.lt
      have := hafter f hf
      simp only [Fits, Flock.l_end] at *
      grind

/-- `flckadj` keeps a chain ordered. -/
theorem ordered_flckadj {pid : ℤ} {chain : List Filock} {nfree insrtp : ℕ} {ld : Flock}
    (h : LoopInv pid (chain.take (insrtp - 1)) (chain.drop (insrtp - 1)) insrtp ld) :
    Ordered (flckadj pid chain nfree insrtp ld).1 := by
  have hok : (adjLoop pid (chain.take (insrtp - 1)) (chain.drop (insrtp - 1)) nfree insrtp ld).Ok pid :=
    adjLoop_spec h
  rw [flckadj]
  split
  · rename_i heq
    rw [heq] at hok
    exact hok
  · rename_i heq
    rw [heq] at hok
    split_ifs with hu
    · exact hok.1
    · split
      · exact hok.1
      · rename_i hi
        exact (hok.2 hu).ordered hok.1 hi

/-! ## Requests -/

/-- A request that can be granted: it locks or unlocks some bytes. -/
structure Request (ld : Flock) : Prop where
  lt : ld.l_start < ld.l_end
  type : ld.l_type = .rdlck ∨ ld.l_type = .wrlck ∨ ld.l_type = .unlck

theorem fits_of_not_conflicts {pid : ℤ} {ld : Flock} {f : Filock} (hf : Proper f)
    (h : conflicts pid ld f = false) (hp : f.set.l_pid ≠ pid) : Fits pid ld f := by
  have := hf.type
  simp only [conflicts, Fits] at *
  grind

theorem blockedTail_none {pid : ℤ} {ld : Flock} {k : ℕ} {fs : List Filock} (h : Ordered fs)
    (hb : blockedTail pid ld k fs = none) : ∀ f ∈ fs, conflicts pid ld f = false := by
  induction fs generalizing k with
  | nil => exact fun _ hf => absurd hf List.not_mem_nil
  | cons f fs ih =>
    rw [blockedTail] at hb
    split_ifs at hb with hc hs
    · -- The scan stops: what follows starts after the end of the request.
      intro g hg
      have hle : f.set.l_start ≤ g.set.l_start := by
        rcases List.mem_cons.1 hg with rfl | hg
        · exact le_rfl
        · exact ((List.pairwise_cons.1 h.pairwise).1 g hg).1
      simp only [conflicts, Bool.and_eq_false_iff, decide_eq_false_iff_not]
      left; left; right
      simp only [Flock.l_end] at *
      omega
    · intro g hg
      rcases List.mem_cons.1 hg with rfl | hg
      · simpa using hc
      · exact ih (h.sublist (List.sublist_cons_self f fs)) hb g hg

/-- What `blocked` says when nothing blocks the request: no record of the chain
    conflicts with it, and `i` is the place where `flckadj` can start. -/
structure Unblocked (pid : ℤ) (chain : List Filock) (ld : Flock) (i : ℕ) : Prop where
  free : ∀ f ∈ chain, conflicts pid ld f = false
  behind : ∀ f ∈ chain.take (i - 1), f.set.l_pid = pid → f.set.l_end ≤ ld.l_start
  pointer : Pointer chain i ld.l_start
  le_length : i ≤ chain.length

theorem blockedHead_none {pid : ℤ} {ld : Flock} {pre fs : List Filock} {i : ℕ}
    (hld : ld.l_start < ld.l_end) (h : Ordered (pre ++ fs))
    (hpre : ∀ f ∈ pre, f.set.l_start < ld.l_start ∧ conflicts pid ld f = false ∧
      (f.set.l_pid = pid → f.set.l_end ≤ ld.l_start))
    (hb : blockedHead pid ld pre.length pre.length fs = (none, i)) :
    Unblocked pid (pre ++ fs) ld i := by
  have hfs : Ordered fs := h.sublist (List.sublist_append_right pre fs)
  induction fs generalizing pre with
  | nil =>
    obtain rfl : pre.length = i := by simpa [blockedHead] using hb
    rw [List.append_nil]
    refine ⟨fun f hf => (hpre f hf).2.1, fun f hf => (hpre f (List.mem_of_mem_take hf)).2.2,
      ⟨fun f hf => (hpre f (List.mem_of_mem_take hf)).1.le, fun h₀ f hf => ?_⟩, le_rfl⟩
    simp [List.length_eq_zero_iff.1 h₀] at hf
  | cons f fs ih =>
    -- The scan goes on past `f`, which neither conflicts nor is met.
    have hnext (hs : f.set.l_start < ld.l_start) (hc : conflicts pid ld f = false)
        (ho : f.set.l_pid = pid → f.set.l_end ≤ ld.l_start)
        (hb : blockedHead pid ld (pre.length + 1) (pre.length + 1) fs = (none, i)) :
        Unblocked pid (pre ++ f :: fs) ld i := by
      have hpre' : ∀ g ∈ pre ++ [f], g.set.l_start < ld.l_start ∧ conflicts pid ld g = false ∧
          (g.set.l_pid = pid → g.set.l_end ≤ ld.l_start) := fun g hg => by
        rcases List.mem_append.1 hg with hg | hg
        · exact hpre g hg
        · rw [List.mem_singleton.1 hg]
          exact ⟨hs, hc, ho⟩
      simpa using ih (by simpa using h) hpre' (by simpa using hb)
        (hfs.sublist (List.sublist_cons_self f fs))
    -- The second scan takes over at `f`.
    have htail (hb : blockedTail pid ld pre.length (f :: fs) = none) :
        ∀ g ∈ pre ++ f :: fs, conflicts pid ld g = false := fun g hg =>
      (List.mem_append.1 hg).elim (fun hg => (hpre g hg).2.1) (blockedTail_none hfs hb g)
    rw [blockedHead] at hb
    split_ifs at hb with hs hp hm hc
    · obtain ⟨hb', rfl⟩ := Prod.mk.inj hb
      refine ⟨htail hb', fun g hg => ?_, Pointer.upTo h hs.le, by simp⟩
      rw [Nat.add_sub_cancel, List.take_left] at hg
      exact (hpre g hg).2.2
    · refine hnext hs (by simp [conflicts, hp]) (fun _ => ?_) hb
      have := h.mid.lt
      simp only [Flock.l_end] at *
      omega
    · exact absurd (Prod.mk.inj hb).1 (by simp)
    · exact hnext hs (by simpa using hc) (fun hp' => absurd hp' hp) hb
    · obtain ⟨hb', rfl⟩ := Prod.mk.inj hb
      refine ⟨htail hb', fun g hg => (hpre g ?_).2.2, ⟨fun g hg => (hpre g ?_).1.le, fun h₀ g hg => ?_⟩,
        by simp⟩
      · rw [List.take_append_of_le_length (Nat.sub_le _ _)] at hg
        exact List.mem_of_mem_take hg
      · rwa [List.take_left] at hg
      · rw [List.length_eq_zero_iff.1 h₀, List.nil_append] at hg
        rcases List.mem_cons.1 hg with rfl | hg
        · omega
        · have := (h.after hg).1
          omega

theorem unblocked_of_blocked {pid : ℤ} {chain : List Filock} {ld : Flock} {i : ℕ}
    (hld : ld.l_start < ld.l_end) (h : Ordered chain) (hb : blocked pid chain ld = (none, i)) :
    Unblocked pid chain ld i :=
  blockedHead_none hld (List.nil_append chain ▸ h) (fun _ hf => absurd hf List.not_mem_nil) hb

/-- A lock that nothing blocks keeps the chain ordered. -/
theorem ordered_lock {pid : ℤ} {chain : List Filock} {nfree i : ℕ} {ld : Flock} (h : Ordered chain)
    (hld : Request ld) (hu : ld.l_type ≠ .unlck) (hb : blocked pid chain ld = (none, i)) :
    Ordered (flckadj pid chain nfree i ld).1 := by
  have hub := unblocked_of_blocked hld.lt h hb
  have hlen := hub.le_length
  refine ordered_flckadj ⟨?_, hld.lt, hld.type, fun hu' => absurd hu' hu, fun _ f hf hp => ?_,
    hub.behind, fun _ => ?_, ?_⟩
  · rwa [List.take_append_drop]
  · rw [List.take_append_drop] at hf
    exact fits_of_not_conflicts (h.proper f hf) (hub.free f hf) hp
  · rw [List.take_append_drop]
    exact hub.pointer
  · rw [List.length_take]
    omega

/-- An unlock that severs no piece past another record keeps the chain ordered. -/
theorem ordered_unlock {pid : ℤ} {chain : List Filock} {nfree i : ℕ} {ld : Flock} (h : Ordered chain)
    (hld : Request ld) (hu : ld.l_type = .unlck) (hi : i ≤ 1)
    (hs : chain.Pairwise (Severs pid ld)) : Ordered (flckadj pid chain nfree i ld).1 := by
  have hi' : i - 1 = 0 := by omega
  refine ordered_flckadj ⟨?_, hld.lt, hld.type, ?_, fun hu' => absurd hu hu', ?_,
    fun hu' => absurd hu hu', ?_⟩ <;> simp [hi', h, hs, hi]

end AuxKernel.RecordLock
