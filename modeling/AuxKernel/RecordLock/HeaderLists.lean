import AuxKernel.RecordLock.Headers

/-!
# Headers on their lists

The headers in use and the free ones are on two doubly linked lists, which together have every
header once (`Lists`).

* `findfid_spec`: what is found is the header of the file, if one in use has its number;
* `allocfid_spec`: the first free header gets in front of those in use;
* `freefid_spec`: a header that nobody needs is taken out from where it is.
-/

namespace AuxKernel.RecordLock.Headers

variable {v : Config} {s t : Table} {L F L₁ L₂ : List ℕ} {a b x : ℕ} {id : ℤ × ℤ}
  {p q : Option ℕ}

namespace Table

/-- The next header. -/
def next (s : Table) (a : ℕ) : Option ℕ := (s.flinotab a).next

/-- The header before one. -/
def prev (s : Table) (a : ℕ) : Option ℕ := (s.flinotab a).prev

/-- What a header is found by. -/
def file (s : Table) (a : ℕ) : ℤ × ℤ := ((s.flinotab a).fl_dev, (s.flinotab a).fl_number)

/-- The calls on a header. -/
def refcnt (s : Table) (a : ℕ) : ℤ := (s.flinotab a).fl_refcnt

/-- The records of a header. -/
def chain (s : Table) (a : ℕ) : List Filock := (s.flinotab a).fl_flck

end Table

/-- The headers have the same links. -/
def SameLinks (s t : Table) : Prop := t.next = s.next ∧ t.prev = s.prev

/-- A header has the same contents. -/
structure Alike (s t : Table) (x : ℕ) : Prop where
  file : t.file x = s.file x
  refcnt : t.refcnt x = s.refcnt x
  chain : t.chain x = s.chain x

theorem Alike.refl (s : Table) (x : ℕ) : Alike s s x := ⟨rfl, rfl, rfl⟩

theorem Alike.trans {u : Table} (h : Alike s t x) (h' : Alike t u x) : Alike s u x :=
  ⟨h'.file.trans h.file, h'.refcnt.trans h.refcnt, h'.chain.trans h.chain⟩

/-! ## Changing a header -/

theorem setFlino_self (s : Table) (a : ℕ) (y : Flino) : (s.setFlino a y).flinotab a = y :=
  Function.update_self ..

theorem setFlino_ne (s : Table) (y : Flino) (h : x ≠ a) :
    (s.setFlino a y).flinotab x = s.flinotab x :=
  Function.update_of_ne h ..

theorem next_setFlino (s : Table) (a : ℕ) (y : Flino) (x : ℕ) :
    (s.setFlino a y).next x = if x = a then y.next else s.next x := by
  by_cases h : x = a
  · rw [if_pos h, h, Table.next, setFlino_self]
  · rw [if_neg h, Table.next, setFlino_ne s y h, Table.next]

theorem prev_setFlino (s : Table) (a : ℕ) (y : Flino) (x : ℕ) :
    (s.setFlino a y).prev x = if x = a then y.prev else s.prev x := by
  by_cases h : x = a
  · rw [if_pos h, h, Table.prev, setFlino_self]
  · rw [if_neg h, Table.prev, setFlino_ne s y h, Table.prev]

theorem alike_setFlino (s : Table) (y : Flino) (h : x ≠ a) : Alike s (s.setFlino a y) x := by
  refine ⟨?_, ?_, ?_⟩
  · rw [Table.file, setFlino_ne s y h, Table.file]
  · rw [Table.refcnt, setFlino_ne s y h, Table.refcnt]
  · rw [Table.chain, setFlino_ne s y h, Table.chain]

/-- A header is changed, but not its links. -/
theorem sameLinks_setFlino {y : Flino} (hn : y.next = s.next a) (hp : y.prev = s.prev a) :
    SameLinks s (s.setFlino a y) := by
  constructor <;> funext x
  · rw [next_setFlino]
    by_cases h : x = a
    · rw [if_pos h, hn, h]
    · rw [if_neg h]
  · rw [prev_setFlino]
    by_cases h : x = a
    · rw [if_pos h, hp, h]
    · rw [if_neg h]

/-- Only a link changes. -/
theorem alike_link {y : Flino} (hid : (y.fl_dev, y.fl_number) = s.file a)
    (hcnt : y.fl_refcnt = s.refcnt a) (hchain : y.fl_flck = s.chain a) (x : ℕ) :
    Alike s (s.setFlino a y) x := by
  by_cases h : x = a
  · refine ⟨?_, ?_, ?_⟩
    · rw [h, Table.file, setFlino_self, hid]
    · rw [h, Table.refcnt, setFlino_self, hcnt]
    · rw [h, Table.chain, setFlino_self, hchain]
  · exact alike_setFlino s y h

/-- What is not the contents of headers or their links. -/
structure Rest (s t : Table) : Prop where
  nfrlock : t.nfrlock = s.nfrlock
  sleeplcks : t.sleeplcks = s.sleeplcks

theorem setPrev_spec (s : Table) (a p : Option ℕ) :
    (s.setPrev a p).next = s.next ∧
      (∀ x, (s.setPrev a p).prev x = if a = some x then p else s.prev x) ∧
      (∀ x, Alike s (s.setPrev a p) x) ∧ Rest s (s.setPrev a p) ∧
      (s.setPrev a p).fids = s.fids ∧ (s.setPrev a p).frfid = s.frfid := by
  rw [Table.setPrev.eq_def]
  cases a with
  | none => exact ⟨rfl, fun x => (if_neg nofun).symm, fun x => .refl s x, ⟨rfl, rfl⟩, rfl, rfl⟩
  | some a =>
    refine ⟨?_, fun x => ?_, alike_link rfl rfl rfl, ⟨rfl, rfl⟩, rfl, rfl⟩
    · funext x
      rw [next_setFlino]
      by_cases h : x = a
      · rw [if_pos h, h, Table.next]
      · rw [if_neg h]
    · rw [prev_setFlino]
      by_cases h : x = a
      · rw [if_pos h, if_pos (congrArg some h.symm)]
      · rw [if_neg h, if_neg fun he => h (Option.some.inj he).symm]

theorem setNext_spec (s : Table) (a p : Option ℕ) :
    (∀ x, (s.setNext a p).next x = if a = some x then p else s.next x) ∧
      (s.setNext a p).prev = s.prev ∧ (∀ x, Alike s (s.setNext a p) x) ∧
      Rest s (s.setNext a p) ∧ (s.setNext a p).fids = s.fids ∧ (s.setNext a p).frfid = s.frfid := by
  rw [Table.setNext.eq_def]
  cases a with
  | none => exact ⟨fun x => (if_neg nofun).symm, rfl, fun x => .refl s x, ⟨rfl, rfl⟩, rfl, rfl⟩
  | some a =>
    refine ⟨fun x => ?_, ?_, alike_link rfl rfl rfl, ⟨rfl, rfl⟩, rfl, rfl⟩
    · rw [next_setFlino]
      by_cases h : x = a
      · rw [if_pos h, if_pos (congrArg some h.symm)]
      · rw [if_neg h, if_neg fun he => h (Option.some.inj he).symm]
    · funext x
      rw [prev_setFlino]
      by_cases h : x = a
      · rw [if_pos h, h, Table.prev]
      · rw [if_neg h]

/-! ## The lists -/

/-- The headers `L` in use, and the free ones `F`. -/
structure Lists (v : Config) (s : Table) (L F : List ℕ) : Prop where
  used : Linked s.next s.prev none L
  headL : s.fids = L.head?
  free : Linked s.next s.prev none F
  headF : s.frfid = F.head?
  perm : (L ++ F).Perm (List.range v.fils)

theorem Lists.nodup (h : Lists v s L F) : (L ++ F).Nodup :=
  h.perm.nodup_iff.2 List.nodup_range

theorem Lists.congr (h : Lists v s L F) (hl : SameLinks s t) (hL : t.fids = s.fids)
    (hF : t.frfid = s.frfid) : Lists v t L F := by
  obtain ⟨hn, hp⟩ := hl
  exact ⟨hn ▸ hp ▸ h.used, hL ▸ h.headL, hn ▸ hp ▸ h.free, hF ▸ h.headF, h.perm⟩

/-- The walk along a chain finds the first header of the file. -/
theorem findLoop_eq (id : ℤ × ℤ) {n : ℕ} (hc : Chained s.next L) (hn : L.length ≤ n) :
    findLoop id s n L.head? = some (L.find? fun a => s.file a = id) := by
  induction L generalizing n with
  | nil => cases n <;> rfl
  | cons a L ih =>
    obtain ⟨n, rfl⟩ := Nat.exists_eq_succ_of_ne_zero
      (Nat.ne_of_gt (Nat.lt_of_lt_of_le (Nat.succ_pos L.length) hn))
    have hnext : (s.flinotab a).next = L.head? := hc.1
    rw [List.head?_cons, findLoop]
    by_cases hid : s.file a = id
    · have hfl : (s.flinotab a).fl_dev = id.1 ∧ (s.flinotab a).fl_number = id.2 :=
        Prod.ext_iff.1 hid
      rw [if_pos hfl, List.find?_cons_of_pos (by simpa using hid)]
    · have hfl : ¬((s.flinotab a).fl_dev = id.1 ∧ (s.flinotab a).fl_number = id.2) := fun he =>
        hid (Prod.ext_iff.2 he)
      rw [if_neg hfl, hnext, ih hc.2 (Nat.le_of_succ_le_succ hn),
        List.find?_cons_of_neg (by simpa using hid)]

/-- What holding a header changes. -/
theorem hold_spec (s : Table) (a : ℕ) : SameLinks s (hold a s) ∧ Rest s (hold a s) ∧
    (hold a s).refcnt a = s.refcnt a + 1 ∧ (hold a s).file a = s.file a ∧
    (hold a s).chain a = s.chain a ∧ ∀ x, x ≠ a → Alike s (hold a s) x := by
  refine ⟨sameLinks_setFlino rfl rfl, ⟨rfl, rfl⟩, ?_, ?_, ?_, fun x hx => alike_setFlino s _ hx⟩
  · rw [Table.refcnt, hold, setFlino_self, Table.refcnt]
  · rw [Table.file, hold, setFlino_self, Table.file]
  · rw [Table.chain, hold, setFlino_self, Table.chain]

/-- A header that is in use and has the number of the file is found, and held. -/
theorem findfid_spec (h : Lists v s L F) (id : ℤ × ℤ) :
    (findfid v id s = some (none, s) ∧ ∀ a ∈ L, s.file a ≠ id) ∨
      ∃ a ∈ L, s.file a = id ∧ findfid v id s = some (some a, hold a s) := by
  have hlen : L.length ≤ v.fils := by
    have hall := h.perm.length_eq
    rw [List.length_append, List.length_range] at hall
    omega
  have hloop := findLoop_eq id h.used.chained hlen
  rw [findfid, h.headL, hloop]
  cases hf : L.find? fun a => s.file a = id with
  | none =>
    refine .inl ⟨rfl, fun a ha => ?_⟩
    simpa using List.find?_eq_none.1 hf a ha
  | some a =>
    refine .inr ⟨a, List.mem_of_find?_eq_some hf, ?_, rfl⟩
    simpa using List.find?_some hf

/-- The first free header gets in front of those in use. -/
theorem allocfid_spec (h : Lists v s L F) (id : ℤ × ℤ) :
    (F = [] ∧ allocfid id s = (none, s)) ∨ ∃ a F' t, F = a :: F' ∧ allocfid id s = (some a, t) ∧
      Lists v t (a :: L) F' ∧ Rest s t ∧ t.refcnt a = s.refcnt a + 1 ∧ t.file a = id ∧
      t.chain a = s.chain a ∧ ∀ x, x ≠ a → Alike s t x := by
  rw [allocfid.eq_def]
  cases F with
  | nil =>
    have hnil : s.frfid = none := h.headF
    rw [hnil]
    exact .inl ⟨rfl, rfl⟩
  | cons a F =>
    have hsome : s.frfid = some a := h.headF
    rw [hsome]
    obtain ⟨hndL, hndF, hdisj⟩ := List.nodup_append.1 h.nodup
    obtain ⟨haF, hndF'⟩ := List.nodup_cons.1 hndF
    have haL : a ∉ L := fun ha => hdisj a ha a List.mem_cons_self rfl
    have hnext : s.next a = F.head? := h.free.2.1
    have hprev : s.prev a = none := h.free.1
    obtain ⟨s₁, hs₁⟩ : ∃ s₁, s₁ = { s with frfid := (s.flinotab a).next } := ⟨_, rfl⟩
    obtain ⟨s₂, hs₂⟩ : ∃ s₂, s₂ = s₁.setPrev s₁.frfid none := ⟨_, rfl⟩
    obtain ⟨s₃, hs₃⟩ : ∃ s₃, s₃ = s₂.setPrev s₂.fids (some a) := ⟨_, rfl⟩
    obtain ⟨s₄, hs₄⟩ : ∃ s₄, s₄ = { s₃.setFlino a { s₃.flinotab a with next := s₃.fids } with
        fids := some a } := ⟨_, rfl⟩
    obtain ⟨t, ht⟩ : ∃ t, t = s₄.setFlino a { s₄.flinotab a with
        fl_refcnt := s₄.refcnt a + 1, fl_dev := id.1, fl_number := id.2 } := ⟨_, rfl⟩
    obtain ⟨hn₂, hp₂, hal₂, hr₂, hu₂, hf₂⟩ := setPrev_spec s₁ s₁.frfid none
    obtain ⟨hn₃, hp₃, hal₃, hr₃, hu₃, hf₃⟩ := setPrev_spec s₂ s₂.fids (some a)
    rw [← hs₂] at hn₂ hp₂ hal₂ hr₂ hu₂ hf₂
    rw [← hs₃] at hn₃ hp₃ hal₃ hr₃ hu₃ hf₃
    have hfr₁ : s₁.frfid = F.head? := hs₁ ▸ hnext
    have hfi₂ : s₂.fids = L.head? := hu₂.trans (hs₁ ▸ h.headL)
    have hfi₃ : s₃.fids = L.head? := hu₃.trans hfi₂
    rw [hfr₁] at hp₂
    rw [hfi₂] at hp₃
    have hal : ∀ x, Alike s s₃ x := fun x => by
      have h₁ : Alike s s₁ x := hs₁ ▸ ⟨rfl, rfl, rfl⟩
      exact (h₁.trans (hal₂ x)).trans (hal₃ x)
    have hal₄ : ∀ x, Alike s₃ s₄ x := fun x => by
      have hlink : Alike s₃ (s₃.setFlino a { s₃.flinotab a with next := s₃.fids }) x :=
        alike_link (by rfl) (by rfl) (by rfl) x
      exact hs₄ ▸ ⟨hlink.file, hlink.refcnt, hlink.chain⟩
    have hlinks₅ : SameLinks s₄ t := ht ▸ sameLinks_setFlino rfl rfl
    -- the links in the end
    have hnx : ∀ x, t.next x = if x = a then L.head? else s.next x := fun x => by
      have h₄ : s₄.next x = if x = a then s₃.fids else s₃.next x := hs₄ ▸ next_setFlino s₃ a _ x
      rw [hlinks₅.1, h₄, hfi₃, hn₃, hn₂, hs₁]
      rfl
    have hpx : ∀ x, t.prev x = if L.head? = some x then some a else
        if F.head? = some x then none else s.prev x := fun x => by
      have h₄ : s₄.prev x = if x = a then s₃.prev a else s₃.prev x := hs₄ ▸ prev_setFlino s₃ a _ x
      have hsame : s₄.prev x = s₃.prev x := by
        rw [h₄]
        by_cases hx : x = a
        · rw [if_pos hx, hx]
        · rw [if_neg hx]
      rw [hlinks₅.2, hsame, hp₃, hp₂, hs₁]
      rfl
    have hheadL : ∀ x ∈ F, L.head? ≠ some x := fun x hx he =>
      hdisj x (List.mem_of_mem_head? (Option.mem_def.2 he)) x (List.mem_cons_of_mem a hx) rfl
    have hheadF : ∀ x ∈ L, F.head? ≠ some x := fun x hx he =>
      hdisj x hx x (List.mem_cons_of_mem a (List.mem_of_mem_head? (Option.mem_def.2 he))) rfl
    have hLa : L.head? ≠ some a := fun he => haL (List.mem_of_mem_head? (Option.mem_def.2 he))
    have hFa : F.head? ≠ some a := fun he => haF (List.mem_of_mem_head? (Option.mem_def.2 he))
    have hfids : t.fids = some a := by rw [ht, hs₄]; rfl
    have hfrfid : t.frfid = F.head? := by
      rw [ht, hs₄]
      exact hf₃.trans (hf₂.trans hfr₁)
    refine .inr ⟨a, F, t, rfl, ?_, ⟨?_, hfids, ?_, hfrfid, ?_⟩, ?_, ?_, ?_, ?_, fun x hx => ?_⟩
    · rw [ht, hs₄, hs₃, hs₂, hs₁]
      rfl
    · have hused : Linked s.next s.prev none ([] ++ L) := h.used
      refine hused.insert hndL (fun x hx => ?_) (fun x hx => ?_) ?_ ?_
      · have hne : x ≠ a := fun he => haL (he ▸ hx)
        rw [hnx, if_neg hne]
        rfl
      · rw [hpx, if_neg (hheadF x hx)]
      · rw [hnx, if_pos rfl]
      · rw [hpx, if_neg hLa, if_neg hFa, hprev]
        rfl
    · refine h.free.pop hndF (fun x hx => ?_) fun x hx => ?_
      · have hne : x ≠ a := fun he => haF (he ▸ hx)
        rw [hnx, if_neg hne]
      · rw [hpx, if_neg (hheadL x hx)]
    · refine (List.Perm.symm ?_).trans h.perm
      exact List.perm_middle
    · have h₄ : Rest s₃ t := ht ▸ hs₄ ▸ ⟨rfl, rfl⟩
      have h₁ : Rest s s₁ := hs₁ ▸ ⟨rfl, rfl⟩
      exact ⟨h₄.1.trans (hr₃.1.trans (hr₂.1.trans h₁.1)),
        h₄.2.trans (hr₃.2.trans (hr₂.2.trans h₁.2))⟩
    · have hself : t.refcnt a = s₄.refcnt a + 1 := by rw [ht, Table.refcnt, setFlino_self]
      rw [hself, (hal₄ a).refcnt, (hal a).refcnt]
    · rw [ht, Table.file, setFlino_self]
    · have hself : t.chain a = s₄.chain a := by rw [ht, Table.chain, setFlino_self, Table.chain]
      rw [hself, (hal₄ a).chain, (hal a).chain]
    · exact ((hal x).trans (hal₄ x)).trans (ht ▸ alike_setFlino s₄ _ hx)

/-- A header in use is off its list. -/
theorem unlinked_spec (h : Lists v s (L₁ ++ a :: L₂) F) : ∃ t,
    t = Table.setPrev (match s.prev a with
      | some _ => s.setNext (s.prev a) (s.next a)
      | none => { s with fids := s.next a }) (s.next a) (s.prev a) ∧
    Linked t.next t.prev none (L₁ ++ L₂) ∧ t.fids = (L₁ ++ L₂).head? ∧ t.frfid = s.frfid ∧
    (∀ x, x ∉ L₁ ++ L₂ → t.next x = s.next x ∧ t.prev x = s.prev x) ∧ Rest s t ∧
    ∀ x, Alike s t x := by
  obtain ⟨hnd, -, -⟩ := List.nodup_append.1 h.nodup
  have hprev : s.prev a = L₁.getLast? := by
    rw [h.used.prev_eq, Option.or_none]
  have hnext : s.next a = L₂.head? := h.used.next_eq
  obtain ⟨s₁, hs₁, hn₁, hp₁, hu₁, hf₁, hr₁, hal₁⟩ : ∃ s₁, s₁ = (match s.prev a with
      | some _ => s.setNext (s.prev a) (s.next a)
      | none => { s with fids := s.next a }) ∧
      (∀ x, s₁.next x = if L₁.getLast? = some x then L₂.head? else s.next x) ∧
      s₁.prev = s.prev ∧ s₁.fids = (L₁ ++ L₂).head? ∧ s₁.frfid = s.frfid ∧ Rest s s₁ ∧
      ∀ x, Alike s s₁ x := by
    rcases List.eq_nil_or_concat' L₁ with rfl | ⟨W, b, rfl⟩
    · refine ⟨{ s with fids := s.next a }, ?_, fun x => ?_, rfl, hnext, rfl, ⟨rfl, rfl⟩,
        fun x => ⟨rfl, rfl, rfl⟩⟩
      · rw [hprev]
        rfl
      · rw [List.getLast?_nil, if_neg nofun]
        rfl
    · obtain ⟨hn, hp, hal, hr, hu, hf⟩ := setNext_spec s (s.prev a) (s.next a)
      refine ⟨s.setNext (s.prev a) (s.next a), ?_, fun x => ?_, hp, ?_, hf, hr, hal⟩
      · rw [hprev, List.getLast?_concat]
      · rw [hn, hprev, hnext]
      · rw [hu, h.headL]
        cases W <;> rfl
  obtain ⟨hn, hp, hal, hr, hu, hf⟩ := setPrev_spec s₁ (s.next a) (s.prev a)
  have hout : ∀ x, x ∉ L₁ ++ L₂ → L₁.getLast? ≠ some x ∧ L₂.head? ≠ some x := fun x hx =>
    ⟨fun he => hx (List.mem_append_left L₂ (List.mem_of_getLast? he)),
      fun he => hx (List.mem_append_right L₁ (List.mem_of_mem_head? (Option.mem_def.2 he)))⟩
  refine ⟨s₁.setPrev (s.next a) (s.prev a), by rw [hs₁], ?_, hu.trans hu₁, hf.trans hf₁,
    fun x hx => ⟨?_, ?_⟩, ⟨hr.1.trans hr₁.1, hr.2.trans hr₁.2⟩, fun x => (hal₁ x).trans (hal x)⟩
  · refine h.used.remove hnd (fun x _ => ?_) fun x _ => ?_
    · rw [hn, hn₁]
    · rw [hp, hp₁, hnext, hprev, Option.or_none]
  · rw [hn, hn₁, if_neg (hout x hx).1]
  · rw [hp, hp₁, hnext, if_neg (hout x hx).2]

/-- What letting a header go changes: it is free if nobody needs it. -/
theorem freefid_spec (h : Lists v s (L₁ ++ a :: L₂) F) :
    Rest s (freefid a s) ∧ (∀ x, x ≠ a → Alike s (freefid a s) x) ∧
      (freefid a s).chain a = s.chain a ∧
      if s.refcnt a - 1 ≤ 0 ∧ s.chain a = [] then
        Lists v (freefid a s) (L₁ ++ L₂) (a :: F) ∧ (freefid a s).refcnt a = 0
      else Lists v (freefid a s) (L₁ ++ a :: L₂) F ∧
        (freefid a s).refcnt a = s.refcnt a - 1 ∧ (freefid a s).file a = s.file a := by
  obtain ⟨s₀, hs₀⟩ : ∃ s₀, s₀ = s.setFlino a { s.flinotab a with
      fl_refcnt := (s.flinotab a).fl_refcnt - 1 } := ⟨_, rfl⟩
  have hlinks₀ : SameLinks s s₀ := hs₀ ▸ sameLinks_setFlino rfl rfl
  have hcnt₀ : s₀.refcnt a = s.refcnt a - 1 := by
    rw [hs₀, Table.refcnt, setFlino_self, Table.refcnt]
  have hchain₀ : s₀.chain a = s.chain a := by rw [hs₀, Table.chain, setFlino_self, Table.chain]
  have hfile₀ : s₀.file a = s.file a := by rw [hs₀, Table.file, setFlino_self, Table.file]
  have hal₀ : ∀ x, x ≠ a → Alike s s₀ x := fun x hx => hs₀ ▸ alike_setFlino s _ hx
  have hr₀ : Rest s s₀ := hs₀ ▸ ⟨rfl, rfl⟩
  have h₀ : Lists v s₀ (L₁ ++ a :: L₂) F := h.congr hlinks₀ (hs₀ ▸ rfl) (hs₀ ▸ rfl)
  by_cases hfree : s.refcnt a - 1 ≤ 0 ∧ s.chain a = []
  · rw [if_pos hfree]
    obtain ⟨hnd, hndF, hdisj⟩ := List.nodup_append.1 h.nodup
    have haF : a ∉ F := fun ha => hdisj a (by simp) a ha rfl
    obtain ⟨hnd₁, hnd₂, hd⟩ := List.nodup_append.1 hnd
    have haL : a ∉ L₁ ++ L₂ := fun ha => by
      rcases List.mem_append.1 ha with ha | ha
      · exact hd a ha a List.mem_cons_self rfl
      · exact (List.nodup_cons.1 hnd₂).1 ha
    obtain ⟨s₂, hs₂, hused, hhead, hfr₂, hout, hr₂, hal₂⟩ := unlinked_spec h₀
    obtain ⟨s₃, hs₃⟩ : ∃ s₃, s₃ = s₂.setFlino a { s₂.flinotab a with
        fl_dev := 0, fl_number := 0, fl_refcnt := 0 } := ⟨_, rfl⟩
    obtain ⟨s₄, hs₄⟩ : ∃ s₄, s₄ = s₃.setPrev s₃.frfid (some a) := ⟨_, rfl⟩
    obtain ⟨t, ht⟩ : ∃ t, t = { s₄.setFlino a { s₄.flinotab a with
        next := s₄.frfid, prev := none } with frfid := some a } := ⟨_, rfl⟩
    have hres : freefid a s = t := by
      rw [freefid.eq_def, ht, hs₄, hs₃, hs₂]
      dsimp only
      rw [← hs₀]
      exact if_pos (⟨hcnt₀ ▸ hfree.1, hchain₀.trans hfree.2⟩ : s₀.refcnt a ≤ 0 ∧ s₀.chain a = [])
    have hlinks₃ : SameLinks s₂ s₃ := hs₃ ▸ sameLinks_setFlino rfl rfl
    obtain ⟨hn₄, hp₄, hal₄, hr₄, hu₄, hf₄⟩ := setPrev_spec s₃ s₃.frfid (some a)
    rw [← hs₄] at hn₄ hp₄ hal₄ hr₄ hu₄ hf₄
    have hfr₃ : s₃.frfid = F.head? := by
      rw [hs₃]
      exact hfr₂.trans h₀.headF
    have hhF : ∀ x, x ∉ F → F.head? ≠ some x := fun x hx he =>
      hx (List.mem_of_mem_head? (Option.mem_def.2 he))
    -- the links in the end
    have hnx : ∀ x, t.next x = if x = a then F.head? else s₂.next x := fun x => by
      have h₅ : t.next x = if x = a then s₄.frfid else s₄.next x := ht ▸ next_setFlino s₄ a _ x
      rw [h₅, hf₄, hfr₃, hn₄, hlinks₃.1]
    have hpx : ∀ x, t.prev x = if x = a then none else
        if F.head? = some x then some a else s₂.prev x := fun x => by
      have h₅ : t.prev x = if x = a then none else s₄.prev x := ht ▸ prev_setFlino s₄ a _ x
      rw [h₅, hp₄, hfr₃, hlinks₃.2]
    have hne : ∀ l : List ℕ, a ∉ l → ∀ x ∈ l, x ≠ a := fun l hl x hx he => hl (he ▸ hx)
    have hkeepF : ∀ x ∈ F, s₂.next x = s.next x ∧ s₂.prev x = s.prev x := fun x hx => by
      obtain ⟨h₁, h₂⟩ := hout x fun hL => by
        have hL' : x ∈ L₁ ++ a :: L₂ := by
          rcases List.mem_append.1 hL with hL | hL <;> simp [hL]
        exact hdisj x hL' x hx rfl
      rw [h₁, h₂, hlinks₀.1, hlinks₀.2]
      exact ⟨rfl, rfl⟩
    have hal : ∀ x, Alike s₃ t x := fun x => by
      have hlink : Alike s₄ (s₄.setFlino a { s₄.flinotab a with
          next := s₄.frfid, prev := none }) x := alike_link (by rfl) (by rfl) (by rfl) x
      exact (hal₄ x).trans (ht ▸ ⟨hlink.file, hlink.refcnt, hlink.chain⟩)
    have hchain₃ : s₃.chain a = s₂.chain a := by rw [hs₃, Table.chain, setFlino_self, Table.chain]
    have hcnt₃ : s₃.refcnt a = 0 := by rw [hs₃, Table.refcnt, setFlino_self]
    have hr₃ : Rest s₂ s₃ := hs₃ ▸ ⟨rfl, rfl⟩
    have hr₅ : Rest s₄ t := ht ▸ ⟨rfl, rfl⟩
    rw [hres]
    refine ⟨⟨?_, ?_⟩, fun x hx => ?_, ?_, ⟨?_, ?_, ?_, ?_, ?_⟩, ?_⟩
    · rw [hr₅.1, hr₄.1, hr₃.1, hr₂.1, hr₀.1]
    · rw [hr₅.2, hr₄.2, hr₃.2, hr₂.2, hr₀.2]
    · exact (((hal₀ x hx).trans (hal₂ x)).trans (hs₃ ▸ alike_setFlino s₂ _ hx)).trans (hal x)
    · rw [(hal a).chain, hchain₃, (hal₂ a).chain, hchain₀]
    · refine hused.congr (fun x hx => ?_) fun x hx => ?_
      · rw [hnx, if_neg (hne _ haL x hx)]
      · rw [hpx, if_neg (hne _ haL x hx), if_neg (hhF x fun hF => ?_)]
        have hL' : x ∈ L₁ ++ a :: L₂ := by
          rcases List.mem_append.1 hx with hL | hL <;> simp [hL]
        exact hdisj x hL' x hF rfl
    · have hfids : t.fids = s₄.fids := ht ▸ rfl
      have hfids₃ : s₃.fids = s₂.fids := hs₃ ▸ rfl
      rw [hfids, hu₄, hfids₃, hhead]
    · have hfreeF : Linked s.next s.prev none ([] ++ F) := h.free
      refine hfreeF.insert hndF (fun x hx => ?_) (fun x hx => ?_) ?_ ?_
      · rw [hnx, if_neg (hne _ haF x hx), (hkeepF x hx).1]
        rfl
      · rw [hpx, if_neg (hne _ haF x hx), (hkeepF x hx).2]
      · rw [hnx, if_pos rfl]
      · rw [hpx, if_pos rfl]
        rfl
    · rw [ht]
      rfl
    · refine List.Perm.trans ?_ h.perm
      rw [List.append_assoc, List.append_assoc, List.cons_append]
      exact (List.perm_middle.append_left L₁).trans (.refl _)
    · rw [(hal a).refcnt, hcnt₃]
  · rw [if_neg hfree]
    have hres : freefid a s = s₀ := by
      rw [freefid.eq_def]
      dsimp only
      rw [← hs₀]
      exact if_neg (fun hf => hfree ⟨hcnt₀ ▸ hf.1, hchain₀.symm.trans hf.2⟩ :
        ¬(s₀.refcnt a ≤ 0 ∧ s₀.chain a = []))
    rw [hres]
    exact ⟨hr₀, hal₀, hchain₀, h₀, hcnt₀, hfile₀⟩

end AuxKernel.RecordLock.Headers
