import AuxKernel.Svfs.Alloc

/-!
# The free list is a stack

`alloc` pops the free list of the file system (`alloc_spec`) and `free` pushes a
block on it (`free_spec`), also where its top is moved to or from a block of the
chain. So the free blocks and those in use stay apart and are all data blocks.

When the number popped is the last in the super-block, its block holds the rest
of the list. If it cannot be read, or an earlier error is pending, the block is
neither returned nor put back, and with it the whole list is lost
(`not_sound_free`). Without such errors the file system stays sound in every run
(`sound_of_clean`).
-/

namespace AuxKernel.Svfs

/-! ## The list -/

theorem listed_congr {arr arr' : ℕ → ℤ} {k : ℕ} (h : ∀ i, 0 < i → i ≤ k → arr i = arr' i) :
    listed arr k = listed arr' k := by
  induction k with
  | zero => rfl
  | succ k ih =>
    rw [listed, listed, h (k + 1) (Nat.succ_pos k) le_rfl,
      ih fun i hi hk => h i hi (hk.trans (Nat.le_succ k))]

theorem Links.pos {blocks : ℤ → Fblk} {n : ℤ} {arr : ℕ → ℤ} {l : List ℤ}
    (h : Links blocks n arr l) : 0 < n ∧ n ≤ NICFREE := by
  cases h <;> constructor <;> omega

/-- There is one free list. -/
theorem Links.unique {blocks : ℤ → Fblk} {n : ℤ} {arr : ℕ → ℤ} {l l' : List ℤ}
    (h : Links blocks n arr l) (h' : Links blocks n arr l') : l = l' := by
  induction h generalizing l' with
  | @last k _ _ h₀ =>
    generalize hn : (k : ℤ) + 1 = n at h'
    cases h' with
    | @last k' => rw [show k = k' by omega]
    | next _ hne _ => exact absurd h₀ hne
  | @next k _ _ _ h₀ _ ih =>
    generalize hn : (k : ℤ) + 1 = n at h'
    cases h' with
    | last _ heq => exact absurd heq h₀
    | @next k' _ _ _ _ h' => rw [ih h', show k = k' by omega]

theorem FreeList.unique {f : Fs} {l l' : List ℤ} (h : FreeList f l) (h' : FreeList f l') :
    l = l' := by
  rcases h with ⟨hn, rfl⟩ | h <;> rcases h' with ⟨hn', rfl⟩ | h'
  · rfl
  · exact absurd h'.pos.1 (by omega)
  · exact absurd h.pos.1 (by omega)
  · exact h.unique h'

/-- The free list depends on the contents of its own blocks only. -/
theorem Links.congr {blocks blocks' : ℤ → Fblk} {n : ℤ} {arr : ℕ → ℤ} {l : List ℤ}
    (h : Links blocks n arr l) (hb : ∀ b ∈ l, blocks' b = blocks b) : Links blocks' n arr l := by
  induction h with
  | last hk h₀ => exact .last hk h₀
  | next hk h₀ _ ih =>
    refine .next hk h₀ ?_
    rw [hb _ (by simp)]
    exact ih fun b hmem => hb b (by simp [hmem])

theorem Links.update {blocks : ℤ → Fblk} {n : ℤ} {arr : ℕ → ℤ} {l : List ℤ} {bno : ℤ} {c : Fblk}
    (h : Links blocks n arr l) (hb : bno ∉ l) : Links (Function.update blocks bno c) n arr l :=
  h.congr fun b hmem => Function.update_of_ne (fun he : b = bno => hb (he ▸ hmem)) _ _

theorem FreeList.update {f : Fs} {l : List ℤ} {bno : ℤ} {c : Fblk} (h : FreeList f l)
    (hb : bno ∉ l) : FreeList { f with blocks := Function.update f.blocks bno c } l :=
  h.imp_right fun h => h.update hb

theorem not_badblock {fs : Filsys} {bno : ℤ} (h : fs.InRange bno) : badblock fs bno = false := by
  simp only [badblock, Filsys.InRange] at *
  simp
  omega

/-! ## Allocating -/

/-- The pop of a block number in range. -/
theorem popLoop_succ {fs : Filsys} {n : ℕ} (h : fs.InRange (fs.s_free n)) (h₀ : fs.s_free n ≠ 0) :
    popLoop (n + 1) fs = ({ fs with s_nfree := n }, some (fs.s_free n)) := by
  have hb : badblock { fs with s_nfree := n } (fs.s_free n) = false := not_badblock h
  rw [popLoop]
  simp only [h₀, hb, if_false, Bool.false_eq_true]

/-- No error meets the refilling of the super-block from a block of the chain. -/
def Act.Clean (s : Run) : Act → Prop
  | .alloc ioerr u_error => s.f.fs.s_nfree = 1 → s.f.fs.s_free 0 ≠ 0 →
      ioerr = false ∧ u_error = false
  | _ => True

/-- What an allocation does to the free list `l`: it pops it. -/
def Popped (f' : Fs) : (l : List ℤ) → Option ℤ → Prop
  | [], bno => bno = none ∧ FreeList f' []
  | b :: l, bno => bno = some b ∧ FreeList f' l

section Calls

variable {s : Run} {f f' : Fs} {l : List ℤ}

/-- An allocation changes neither the range of the data blocks nor the lock. -/
structure SameVolume (f f' : Fs) : Prop where
  isize : f'.fs.s_isize = f.fs.s_isize
  fsize : f'.fs.s_fsize = f.fs.s_fsize
  flock : f'.fs.s_flock = f.fs.s_flock
  bsize : f'.bsize = f.bsize

/-- A block is handed out if the rest of the list is in order. -/
theorem grant_spec {bno : ℤ} (h : Links f.blocks f.fs.s_nfree f.fs.s_free l) (hb : bno ∉ l) :
    (grant f bno).2 = some bno ∧ FreeList (grant f bno).1 l ∧ SameVolume f (grant f bno).1 := by
  have := h.pos
  rw [grant, if_neg (by omega)]
  exact ⟨rfl, .inr (h.update hb), ⟨rfl, rfl, rfl, rfl⟩⟩

/-- An allocation pops the free list, unless an error meets a refill. -/
theorem alloc_spec {ioerr u_error : Bool} {bno : Option ℤ} (hl : FreeList f l) (hnd : l.Nodup)
    (hr : ∀ b ∈ l, f.fs.InRange b) (hpos : 0 < f.fs.s_isize)
    (hc : f.fs.s_nfree = 1 → f.fs.s_free 0 ≠ 0 → ioerr = false ∧ u_error = false)
    (h : alloc f f.bsize ioerr u_error = some (f', bno)) : Popped f' l bno ∧ SameVolume f f' := by
  have hne {b : ℤ} (hb : b ∈ l) : b ≠ 0 := by
    have := (hr b hb).1
    omega
  unfold alloc at h
  split_ifs at h with hsz
  -- A number above the bottom of the super-block is simply handed out.
  have htop {k : ℕ} {b : ℤ} {l' : List ℤ} (hn : f.fs.s_nfree = (k + 1 : ℕ) + 1)
      (hb : f.fs.s_free (k + 1) = b) (he : l = b :: l')
      (hrest : Links f.blocks (k + 1) f.fs.s_free l') : Popped f' l bno ∧ SameVolume f f' := by
    subst he
    have hmem : b ∈ b :: l' := List.mem_cons_self
    rw [show f.fs.s_nfree.toNat = (k + 1) + 1 by omega,
      popLoop_succ (hb ▸ hr b hmem) (hb ▸ hne hmem)] at h
    have hk : ¬((k + 1 : ℕ) : ℤ) ≤ 0 := by omega
    simp only [hk, if_false, hb] at h
    obtain ⟨h₁, h₂, h₃⟩ := grant_spec (f := { f with fs := { f.fs with s_nfree := (k + 1 : ℕ) } })
      (by simpa using hrest) (List.nodup_cons.1 hnd).1
    rw [Option.some.inj h] at h₁ h₂ h₃
    exact ⟨⟨h₁, h₂⟩, ⟨h₃.1, h₃.2, h₃.3, h₃.4⟩⟩
  rcases hl with ⟨hn, rfl⟩ | hl
  · -- Nothing is left.
    rw [Int.toNat_of_nonpos hn, popLoop] at h
    obtain ⟨rfl, rfl⟩ := Prod.mk.inj (Option.some.inj h)
    exact ⟨⟨rfl, .inl ⟨hn, rfl⟩⟩, ⟨rfl, rfl, rfl, rfl⟩⟩
  generalize hn : f.fs.s_nfree = n at hl
  generalize harr : f.fs.s_free = arr at hl
  cases hl with
  | @last k _ hk h₀ =>
    cases k with
    | zero =>
      rw [hn, show (((0 : ℕ) : ℤ) + 1).toNat = 0 + 1 from rfl, popLoop, harr] at h
      simp only [h₀, if_true] at h
      obtain ⟨rfl, rfl⟩ := Prod.mk.inj (Option.some.inj h)
      exact ⟨⟨rfl, .inl ⟨le_rfl, rfl⟩⟩, ⟨rfl, rfl, rfl, rfl⟩⟩
    | succ j => exact htop hn (by rw [harr]) rfl (by rw [harr]; exact .last (by omega) h₀)
  | @next k _ l' hk h₀ hrest =>
    cases k with
    | zero =>
      -- The last number in the super-block: its block holds the rest.
      obtain ⟨rfl, rfl⟩ := hc (by omega) (by rw [harr]; exact h₀)
      have hmem : arr 0 ∈ listed arr 0 ++ arr 0 :: l' := by simp
      rw [hn, show (((0 : ℕ) : ℤ) + 1).toNat = 0 + 1 from rfl,
        popLoop_succ (by rw [harr]; exact hr _ hmem) (by rw [harr]; exact h₀)] at h
      have hpos' := hrest.pos
      have hshort : toShort (f.blocks (arr 0)).df_nfree = (f.blocks (arr 0)).df_nfree :=
        toShort_of_mem (by omega) (by unfold NICFREE at hpos'; omega)
      simp only [Nat.cast_zero, le_refl, if_true, harr, Bool.or_self] at h
      obtain ⟨h₁, h₂, h₃⟩ := grant_spec (f := refill { f with fs := { f.fs with s_nfree := 0 } }
        (arr 0) false) (by simpa [refill, hshort] using hrest) (List.nodup_cons.1 hnd).1
      simp only [harr] at h₁ h₂ h₃
      rw [Option.some.inj h] at h₁ h₂ h₃
      exact ⟨⟨h₁, h₂⟩, ⟨h₃.1, h₃.2, h₃.3, h₃.4⟩⟩
    | succ j => exact htop hn (by rw [harr]) rfl (by rw [harr]; exact .next (by omega) h₀ hrest)

/-! ## Freeing -/

/-- Freeing a data block that is not free pushes it on the free list. -/
theorem free_spec {bno : ℤ} (hl : FreeList f l) (hb : bno ∉ l) (hr : f.fs.InRange bno)
    (hpos : 0 < f.fs.s_isize) (h : free f bno f.bsize = some f') :
    FreeList f' (bno :: l) ∧ SameVolume f f' := by
  have h₀ : bno ≠ 0 := by have := hr.1; omega
  unfold free at h
  rw [not_badblock hr] at h
  by_cases hsz : f.bsize ≠ f.bsize ∨ f.fs.s_flock = true
  · rw [if_pos hsz] at h
    exact absurd h (by simp)
  rw [if_neg hsz, if_neg (by simp)] at h
  obtain rfl := Option.some.inj h
  rcases hl with ⟨hn, rfl⟩ | hl
  · -- The list was empty: its end comes below the block.
    refine ⟨.inr ?_, ?_⟩
    · simp only [bottom, if_pos hn, spill, push]
      rw [if_neg (by simp [NICFREE])]
      have : Links f.blocks (((1 : ℕ) : ℤ) + 1)
          (Function.update (Function.update f.fs.s_free 0 0) 1 bno)
          (listed (Function.update (Function.update f.fs.s_free 0 0) 1 bno) 1) :=
        .last (by simp [NICFREE]) (by simp)
      simpa [listed] using this
    · simp only [bottom, if_pos hn, spill, push]
      rw [if_neg (by simp [NICFREE])]
      exact ⟨rfl, rfl, rfl, rfl⟩
  have hn := hl.pos
  rw [bottom, if_neg (by omega)]
  by_cases hfull : f.fs.s_nfree ≥ NICFREE
  · -- The super-block is full: the list moves to the block.
    rw [spill, if_pos hfull]
    refine ⟨.inr ?_, ⟨rfl, rfl, rfl, rfl⟩⟩
    have hlinks : Links (Function.update f.blocks bno ⟨f.fs.s_nfree, f.fs.s_free⟩) f.fs.s_nfree
        f.fs.s_free l := hl.update hb
    have : Links (Function.update f.blocks bno ⟨f.fs.s_nfree, f.fs.s_free⟩) ((0 : ℕ) + 1)
        (Function.update f.fs.s_free 0 bno)
        (listed (Function.update f.fs.s_free 0 bno) 0 ++ Function.update f.fs.s_free 0 bno 0 :: l) :=
      .next (by simp [NICFREE]) (by simpa using h₀) (by simpa using hlinks)
    simpa [push, listed] using this
  · rw [spill, if_neg hfull]
    refine ⟨.inr ?_, ⟨rfl, rfl, rfl, rfl⟩⟩
    simp only [push]
    generalize hn' : f.fs.s_nfree = n at hl hfull
    generalize f.fs.s_free = arr at hl
    -- The entries below the new one are as they were.
    have hpush (k : ℕ) : listed (Function.update arr (k + 1) bno) (k + 1) = bno :: listed arr k := by
      rw [listed, Function.update_self]
      exact congrArg _ (listed_congr fun i _ hi => Function.update_of_ne (by omega) _ _)
    -- The new top is above the bottom entry, and the list goes on as it did.
    have hlinks {k : ℕ} {l' : List ℤ} (hrest : Links f.blocks ((k + 1 : ℕ) + 1)
        (Function.update arr (k + 1) bno) l') (he : l' = bno :: l) :
        Links f.blocks ((k : ℤ) + 1 + 1) (Function.update arr ((k : ℤ) + 1).toNat bno) (bno :: l) := by
      simpa [he] using hrest
    cases hl with
    | @last k _ hk h₀ =>
      exact hlinks (.last (by unfold NICFREE at *; omega) (by simpa using h₀)) (hpush k)
    | @next k _ l' hk h₀ hrest =>
      exact hlinks (.next (by unfold NICFREE at *; omega) (by simpa using h₀) (by simpa using hrest))
        (by simp [hpush])

end Calls

/-! ## Runs -/

/-- The calls the file system is promised: the blocks freed are in use. -/
def Act.Valid (s : Run) : Act → Prop
  | .free bno => s.inUse bno = true
  | _ => True

/-- What every reachable state satisfies besides being sound. -/
structure Inv (s : Run) : Prop extends Sound s where
  isize : 0 < s.f.fs.s_isize
  flock : s.f.fs.s_flock = false

theorem SameVolume.inRange {f f' : Fs} (h : SameVolume f f') (b : ℤ) :
    f'.fs.InRange b ↔ f.fs.InRange b := by
  rw [Filsys.InRange, Filsys.InRange, h.isize, h.fsize]

section Steps

variable {s : Run} {f' : Fs} {l : List ℤ}

/-- A sound file system hands out a free block, the top of its list, or has none. -/
theorem Inv.alloc {ioerr u_error : Bool} {bno : Option ℤ} (h : Inv s)
    (hc : (Act.alloc ioerr u_error).Clean s)
    (ha : alloc s.f s.f.bsize ioerr u_error = some (f', bno)) :
    Inv ⟨f', bno.elim s.inUse fun b => Function.update s.inUse b true⟩ ∧
      ∀ l, FreeList s.f l → l.Nodup → (∀ b, b ∈ l ↔ s.f.fs.InRange b ∧ s.inUse b = false) →
        Popped f' l bno := by
  have hpop (l : List ℤ) (hl : FreeList s.f l) (hnd : l.Nodup)
      (hm : ∀ b, b ∈ l ↔ s.f.fs.InRange b ∧ s.inUse b = false) :
      Popped f' l bno ∧ SameVolume s.f f' :=
    alloc_spec hl hnd (fun b hb => ((hm b).1 hb).1) h.isize hc ha
  refine ⟨?_, fun l hl hnd hm => (hpop l hl hnd hm).1⟩
  obtain ⟨l, hl, hnd, hm⟩ := h.split
  obtain ⟨hp, hsame⟩ := hpop l hl hnd hm
  have hisize : 0 < f'.fs.s_isize := hsame.isize.symm ▸ h.isize
  have hflock : f'.fs.s_flock = false := hsame.flock.trans h.flock
  cases l with
  | nil =>
    obtain ⟨rfl, hl'⟩ := hp
    refine ⟨⟨⟨[], hl', hnd, fun b => ?_⟩, fun b hb => (hsame.inRange b).2 (h.inUse b hb)⟩, hisize,
      hflock⟩
    rw [hsame.inRange]
    exact hm b
  | cons b l =>
    obtain ⟨rfl, hl'⟩ := hp
    have hb := (hm b).1 List.mem_cons_self
    obtain ⟨hbl, hnd⟩ := List.nodup_cons.1 hnd
    refine ⟨⟨⟨l, hl', hnd, fun c => ?_⟩, fun c hc => (hsame.inRange c).2 ?_⟩, hisize, hflock⟩
    · rw [hsame.inRange]
      by_cases hcb : c = b
      · subst hcb
        simp [hbl]
      · simpa [hcb] using hm c
    · by_cases hcb : c = b
      · exact hcb ▸ hb.1
      · exact h.inUse c (by simpa [hcb] using hc)

/-- Freeing a block in use puts it on the top of the list. -/
theorem Inv.free {bno : ℤ} (h : Inv s) (hb : s.inUse bno = true)
    (hf : free s.f bno s.f.bsize = some f') :
    Inv ⟨f', Function.update s.inUse bno false⟩ ∧ ∀ l, FreeList s.f l → bno ∉ l →
      FreeList f' (bno :: l) := by
  have hpush (l : List ℤ) (hl : FreeList s.f l) (hbl : bno ∉ l) :=
    free_spec hl hbl (h.inUse bno hb) h.isize hf
  refine ⟨?_, fun l hl hbl => (hpush l hl hbl).1⟩
  obtain ⟨l, hl, hnd, hm⟩ := h.split
  have hbl : bno ∉ l := fun hbl => absurd ((hm bno).1 hbl).2 (by simp [hb])
  obtain ⟨hl', hsame⟩ := hpush l hl hbl
  refine ⟨⟨⟨bno :: l, hl', List.nodup_cons.2 ⟨hbl, hnd⟩, fun c => ?_⟩, fun c hc => ?_⟩,
    hsame.isize.symm ▸ h.isize, hsame.flock.trans h.flock⟩
  · rw [hsame.inRange]
    by_cases hcb : c = bno
    · simp [hcb, h.inUse bno hb]
    · simpa [hcb] using hm c
  · rw [hsame.inRange]
    by_cases hcb : c = bno
    · simp [hcb] at hc
    · exact h.inUse c (by simpa [hcb] using hc)

/-- Writing a block in use does not touch the list. -/
theorem Inv.write {bno : ℤ} {c : Fblk} (h : Inv s) (hb : s.inUse bno = true) :
    Inv { s with f := { s.f with blocks := Function.update s.f.blocks bno c } } := by
  obtain ⟨l, hl, hnd, hm⟩ := h.split
  have hbl : bno ∉ l := fun hbl => absurd ((hm bno).1 hbl).2 (by simp [hb])
  exact ⟨⟨⟨l, hl.update hbl, hnd, hm⟩, h.inUse⟩, h.isize, h.flock⟩

end Steps

theorem inv_of_clean {s : Run} (hs : balloc.ReachableIf (fun s a => a.Valid s ∧ a.Clean s) s) :
    Inv s := by
  refine hs.invariant (fun s h => ⟨h.1, h.2.1, h.2.2⟩) fun s a s' h hok hn => ?_
  cases a with
  | alloc ioerr u_error =>
    obtain ⟨⟨f', bno⟩, ha, rfl⟩ := Option.map_eq_some_iff.1 hn
    exact (h.alloc hok.2 ha).1
  | free bno =>
    obtain ⟨f', hf, rfl⟩ := Option.map_eq_some_iff.1 hn
    exact (h.free hok.1 hf).1
  | write bno c =>
    simp only [balloc] at hn
    split_ifs at hn with hb
    exact Option.some.inj hn ▸ h.write hb

/-- What the next calls do in a state `s`, if no error meets a refill. -/
structure Stack (s : Run) : Prop where
  /-- The block that is returned was free. -/
  fresh {ioerr u_error : Bool} {f' : Fs} {b : ℤ} : (Act.alloc ioerr u_error).Clean s →
    alloc s.f s.f.bsize ioerr u_error = some (f', some b) → s.f.fs.InRange b ∧ s.inUse b = false
  /-- The block freed last is returned first. -/
  last {ioerr u_error : Bool} {s' : Run} {f' : Fs} {b : ℤ} {bno : Option ℤ} : s.inUse b = true →
    balloc.next s (.free b) = some s' → (Act.alloc ioerr u_error).Clean s' →
    alloc s'.f s'.f.bsize ioerr u_error = some (f', bno) → bno = some b
  /-- If no block is returned, the free list stays as it is. -/
  full {ioerr u_error : Bool} {f' : Fs} : (Act.alloc ioerr u_error).Clean s →
    alloc s.f s.f.bsize ioerr u_error = some (f', none) → ∀ l, FreeList f' l ↔ FreeList s.f l

theorem Inv.stack {s : Run} (h : Inv s) : Stack s := by
  obtain ⟨l, hl, hnd, hm⟩ := h.split
  refine ⟨fun hc ha => ?_, fun {ioerr u_error s' f' b bno} hb hf hc ha => ?_, fun hc ha l' => ?_⟩
  · have hp := (h.alloc hc ha).2 l hl hnd hm
    cases l with
    | nil => exact absurd hp.1 (by simp)
    | cons b l =>
      obtain rfl := Option.some.inj hp.1
      exact (hm _).1 List.mem_cons_self
  · have hbl : b ∉ l := fun hbl => absurd ((hm b).1 hbl).2 (by simp [hb])
    obtain ⟨f, hfree, rfl⟩ := Option.map_eq_some_iff.1 hf
    obtain ⟨h', hpush⟩ := h.free hb hfree
    obtain ⟨l', hl', hnd', hm'⟩ := h'.split
    obtain rfl := (hpush l hl hbl).unique hl'
    exact ((h'.alloc hc ha).2 _ hl' hnd' hm').1
  · have hp := (h.alloc hc ha).2 l hl hnd hm
    cases l with
    | nil => exact ⟨fun h' => hp.2.unique h' ▸ hl, fun h' => hl.unique h' ▸ hp.2⟩
    | cons b l => exact absurd hp.1 (by simp)

/-- Without an error at a refill, in every reachable state the free blocks and those
    in use are apart and make up the data blocks, and the free list is a stack. -/
theorem sound_of_clean {s : Run}
    (hs : balloc.ReachableIf (fun s a => a.Valid s ∧ a.Clean s) s) : Sound s ∧ Stack s :=
  ⟨(inv_of_clean hs).toSound, (inv_of_clean hs).stack⟩

/-! ## An error at a refill -/

/-- A volume with the data blocks `2` and `3`, both free: `3` is in the super-block
    and holds the rest of the list. -/
def smallFs : Fs where
  fs := { s_isize := 2, s_fsize := 4, s_nfree := 1, s_free := fun _ => 3, s_flock := false,
          s_fmod := false, s_tfree := 2 }
  bsize := 1024
  blocks bno := if bno = 3 then ⟨2, fun i => if i = 1 then 2 else 0⟩ else clrbuf

theorem freeList_smallFs : FreeList smallFs [3, 2] := by
  have hlast : Links smallFs.blocks (((1 : ℕ) : ℤ) + 1) (fun i => if i = 1 then 2 else 0) [2] :=
    .last (by decide) rfl
  exact .inr (.next (k := 0) (by decide) (by decide) hlast)

theorem init_smallFs : balloc.init ⟨smallFs, fun _ => false⟩ := by
  refine ⟨⟨⟨[3, 2], freeList_smallFs, by decide, fun bno => ?_⟩, fun bno h => ?_⟩, by decide, rfl⟩
  · simp [Filsys.InRange, smallFs]
    omega
  · exact absurd h (by simp)

/-- After the block `3` is allocated, the block `2` is in the super-block. -/
theorem sound_smallFs : ∃ s, balloc.next ⟨smallFs, fun _ => false⟩ (.alloc false false) = some s ∧
    s.f.fs.s_nfree = 2 ∧ s.inUse 3 = true ∧ Sound s ∧ Stack s := by
  refine ⟨_, rfl, by decide, by decide, sound_of_clean ?_⟩
  exact .step (a := .alloc false false) (.init init_smallFs) ⟨trivial, fun _ _ => ⟨rfl, rfl⟩⟩ rfl

/-- The read of the block `3` fails: both blocks are neither free nor in use. -/
theorem not_sound_free : ¬ ∀ s, balloc.ReachableIf (fun s a => a.Valid s) s → Sound s := by
  intro h
  obtain ⟨s, hs, hn, h3⟩ : ∃ s, balloc.next ⟨smallFs, fun _ => false⟩ (.alloc true false) = some s ∧
      s.f.fs.s_nfree ≤ 0 ∧ s.f.fs.InRange 3 ∧ s.inUse 3 = false :=
    ⟨_, rfl, by decide, by decide, by decide⟩
  obtain ⟨l, hl, _, hm⟩ := (h s (.step (a := .alloc true false) (.init init_smallFs) trivial hs)).split
  obtain rfl := hl.unique (.inl ⟨hn, rfl⟩)
  exact absurd ((hm 3).2 h3) (by simp)

end AuxKernel.Svfs
