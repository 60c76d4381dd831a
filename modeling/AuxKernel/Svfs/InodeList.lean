import AuxKernel.Svfs.Ialloc

/-!
# The free inodes

The list of free inodes is not all of them: the others are to be found by the search
that fills it. `ialloc` says that there is none when a search finds none, so that
no free inode may be before the place where the search starts, unless it is listed
(`Sound.covered`).

* `fill_spec`: what a search puts on the list;
* `look_spec`: the loop of `ialloc` ends, with a free inode unless there is none or the
  inode table is full;
* `complete_of_clean`: so it is in every run in which `s_inode[0]` does not move up
  past a free inode.

It moves up when `ifree` puts an inode on an empty list: the place of the next
search is in the slot it writes. And an inode for which there is no room in core is
off the list all the same.
-/

namespace AuxKernel.Svfs.Ilist

/-! ## Blocks of the i-list -/

/-- The number of the first inode in the block `adr`. -/
def first (fsp : Filsys) (adr : ℕ) : ℕ := (adr - 2) * FsINOPB fsp + 1

theorem first_succ (fsp : Filsys) {adr : ℕ} (h : 2 ≤ adr) :
    first fsp (adr + 1) = first fsp adr + FsINOPB fsp := by
  obtain ⟨k, rfl⟩ := Nat.exists_eq_add_of_le h
  simp only [first]
  rw [show 2 + k + 1 - 2 = (2 + k - 2) + 1 by omega, Nat.add_mul]
  omega

theorem FsITOD_first (fsp : Filsys) {adr i : ℕ} (h : 2 ≤ adr) (hi : i < FsINOPB fsp) :
    FsITOD fsp (first fsp adr + i) = adr := by
  simp only [first, FsITOD, FsINOPB] at *
  split_ifs at * <;> omega

theorem FsITOO_first (fsp : Filsys) {adr i : ℕ} (hi : i < FsINOPB fsp) :
    FsITOO fsp (first fsp adr + i) = i := by
  simp only [first, FsITOO, FsINOPB] at *
  split_ifs at * <;> omega

/-- An inode is the one at its place in its block. -/
theorem first_add_FsITOO (fsp : Filsys) {ino : ℕ} (h : 0 < ino) :
    first fsp (FsITOD fsp ino) + FsITOO fsp ino = ino := by
  simp only [first, FsITOD, FsITOO, FsINOPB]
  split_ifs <;> omega

/-- A search starts at the first inode of a block. -/
theorem first_FsITOD_FsINOS (fsp : Filsys) (x : ℕ) :
    first fsp (FsITOD fsp (FsINOS fsp x)) = FsINOS fsp x := by
  simp only [first, FsITOD, FsINOS, FsINOPB]
  split_ifs <;> omega

theorem two_le_FsITOD (fsp : Filsys) {ino : ℕ} (h : 0 < ino) : 2 ≤ FsITOD fsp ino := by
  simp only [FsITOD]
  split_ifs <;> omega

theorem FsINOS_pos (fsp : Filsys) (x : ℕ) : 0 < FsINOS fsp x := by
  simp only [FsINOS]
  split_ifs <;> omega

theorem FsINOS_le (fsp : Filsys) (x : ℕ) : FsINOS fsp x ≤ x + 1 := by
  simp only [FsINOS]
  split_ifs <;> omega

theorem FsINOS_mono (fsp : Filsys) {x y : ℕ} (h : x ≤ y) : FsINOS fsp x ≤ FsINOS fsp y := by
  simp only [FsINOS]
  split_ifs <;> omega

@[simp] theorem FsINOS_zero (fsp : Filsys) : FsINOS fsp 0 = 1 := by
  simp only [FsINOS]
  split_ifs <;> rfl

/-- The inodes are those before the first one of the block after the i-list. -/
theorem Filsys.OnDevice.lt {fsp : Filsys} {ino : ℕ} (h : fsp.OnDevice ino) :
    ino < first fsp fsp.s_isize := by
  obtain ⟨h₀, h₁⟩ := h
  simp only [first, FsITOD, FsINOPB] at *
  split_ifs at * <;> omega

theorem onDevice_first (fsp : Filsys) {adr i : ℕ} (h : 2 ≤ adr) (hs : adr < fsp.s_isize)
    (hi : i < FsINOPB fsp) : fsp.OnDevice (first fsp adr + i) :=
  ⟨by simp only [first]; omega, by rwa [FsITOD_first fsp h hi]⟩

theorem first_mono (fsp : Filsys) {a b : ℕ} (h : a ≤ b) : first fsp a ≤ first fsp b :=
  Nat.add_le_add_right (Nat.mul_le_mul_right _ (by omega)) _

/-- The numbers of the inodes, and the next one, are in an `ino_t`. -/
theorem first_lt {fsp : Filsys} (h : (fsp.s_isize - 2) * FsINOPB fsp < 2 ^ 16) :
    first fsp fsp.s_isize < 2 ^ 16 := by
  simp only [first, FsINOPB] at *
  split_ifs at * <;> omega

/-- Two inodes are not at one place. -/
theorem eq_of_place {fsp : Filsys} {a b : ℕ} (ha : 0 < a) (hb : 0 < b)
    (hd : FsITOD fsp a = FsITOD fsp b) (ho : FsITOO fsp a = FsITOO fsp b) : a = b := by
  rw [← first_add_FsITOO fsp ha, ← first_add_FsITOO fsp hb, hd, ho]

theorem di_mode_write_self (m : Modes) (fsp : Filsys) (ino mode : ℕ) :
    (m.write fsp ino mode).di_mode fsp ino = mode := by
  simp [Modes.write, Modes.di_mode]

theorem di_mode_write_of_ne (m : Modes) {fsp : Filsys} {a b : ℕ} (mode : ℕ) (ha : 0 < a)
    (hb : 0 < b) (h : b ≠ a) : (m.write fsp a mode).di_mode fsp b = m.di_mode fsp b := by
  simp only [Modes.write, Modes.di_mode]
  by_cases hd : FsITOD fsp b = FsITOD fsp a
  · rw [hd, Function.update_self, Function.update_of_ne]
    exact fun ho => h (eq_of_place hb ha hd ho)
  · rw [Function.update_of_ne hd]

/-! ## The search -/

variable {m : Modes} {fs₀ fs : Filsys} {lo hi : ℕ}

/-- The list in the course of a search that has started at the inode `lo` and is at `hi`:
    the free inodes it has met are in the upper part, the lower one is as it was. -/
structure Filled (m : Modes) (fs₀ fs : Filsys) (lo hi : ℕ) : Prop where
  same : fs = { fs₀ with s_ninode := fs.s_ninode, s_inode := fs.s_inode }
  fits : fs.s_ninode ≤ NICINOD
  free : ∀ i, fs.s_ninode ≤ i → i < NICINOD →
    (lo ≤ fs.s_inode i ∧ fs.s_inode i < hi) ∧ fs₀.OnDevice (fs.s_inode i) ∧
      m.di_mode fs₀ (fs.s_inode i) = 0
  listed : ∀ ino, lo ≤ ino → ino < hi → m.di_mode fs₀ ino = 0 →
    ∃ i, fs.s_ninode ≤ i ∧ i < NICINOD ∧ fs.s_inode i = ino
  rest : ∀ i < fs.s_ninode, fs.s_inode i = fs₀.s_inode i

theorem Filled.start (m : Modes) (fs₀ : Filsys) (lo : ℕ) :
    Filled m fs₀ { fs₀ with s_ninode := NICINOD } lo lo where
  same := rfl
  fits := le_rfl
  free i h h' := absurd h' (by simpa using h)
  listed ino h h' := absurd h' (by omega)
  rest _ _ := rfl

/-- An inode in use is passed over. -/
theorem Filled.skip (h : Filled m fs₀ fs lo hi) (hm : m.di_mode fs₀ hi ≠ 0) :
    Filled m fs₀ fs lo (hi + 1) where
  same := h.same
  fits := h.fits
  free i h₀ h₁ :=
    ⟨⟨(h.free i h₀ h₁).1.1, Nat.lt_succ_of_lt (h.free i h₀ h₁).1.2⟩, (h.free i h₀ h₁).2⟩
  listed ino h₀ h₁ hino := by
    refine h.listed ino h₀ ?_ hino
    have : ino ≠ hi := fun e => hm (e ▸ hino)
    omega
  rest := h.rest

/-- A free inode is put on the list. -/
theorem Filled.push (h : Filled m fs₀ fs lo hi) (hn : fs.s_ninode ≠ 0) (hlo : lo ≤ hi)
    (hd : fs₀.OnDevice hi) (hm : m.di_mode fs₀ hi = 0) :
    Filled m fs₀ { fs with
      s_ninode := fs.s_ninode - 1
      s_inode := Function.update fs.s_inode (fs.s_ninode - 1) hi } lo (hi + 1) where
  same := by rw [h.same]
  fits := by have := h.fits; dsimp; omega
  free i h₀ h₁ := by
    dsimp only at *
    by_cases hi' : i = fs.s_ninode - 1
    · rw [hi', Function.update_self]
      exact ⟨⟨hlo, by omega⟩, hd, hm⟩
    · rw [Function.update_of_ne hi']
      obtain ⟨⟨h₂, h₃⟩, h₄⟩ := h.free i (by omega) h₁
      exact ⟨⟨h₂, by omega⟩, h₄⟩
  listed ino h₀ h₁ hino := by
    dsimp only
    by_cases he : ino = hi
    · exact ⟨fs.s_ninode - 1, le_rfl, by have := h.fits; omega, by rw [Function.update_self, he]⟩
    · obtain ⟨i, h₂, h₃, h₄⟩ := h.listed ino h₀ (by omega) hino
      exact ⟨i, by omega, h₃, by rw [Function.update_of_ne (by omega), h₄]⟩
  rest i hi' := by
    dsimp only at *
    rw [Function.update_of_ne (by omega)]
    exact h.rest i (by omega)

theorem toIno_of_lt {n : ℕ} (h : n < 2 ^ 16) : toIno n = n := Nat.mod_eq_of_lt h

/-- A block is searched to its end, or until the list is full. -/
theorem scanBlock_spec (hnum : (fs₀.s_isize - 2) * FsINOPB fs₀ < 2 ^ 16) {adr : ℕ} (h2 : 2 ≤ adr)
    (hs : adr < fs₀.s_isize) (n : ℕ) {i : ℕ} (hlo : lo ≤ first fs₀ adr + i)
    (hn : n + i = FsINOPB fs₀) (h : Filled m fs₀ fs lo (first fs₀ adr + i)) :
    ∃ fs' ino, scanBlock (m adr) n i fs (first fs₀ adr + i) = (fs', ino) ∧
      Filled m fs₀ fs' lo ino ∧ (fs'.s_ninode ≠ 0 → ino = first fs₀ (adr + 1)) := by
  induction n generalizing fs i with
  | zero =>
    refine ⟨_, _, rfl, h, fun _ => ?_⟩
    rw [first_succ _ h2]
    omega
  | succ n ih =>
    have hi : i < FsINOPB fs₀ := by omega
    by_cases h0 : fs.s_ninode = 0
    · exact ⟨_, _, by rw [scanBlock, if_pos h0], h, fun h => absurd h0 h⟩
    -- the inode at the place `i` is the one the search is at
    have hd := onDevice_first fs₀ h2 hs hi
    have hmode : m.di_mode fs₀ (first fs₀ adr + i) = m adr i := by
      rw [Modes.di_mode, FsITOD_first _ h2 hi, FsITOO_first _ hi]
    have hino : toIno (first fs₀ adr + i + 1) = first fs₀ adr + (i + 1) := by
      have := hd.lt
      have := first_lt hnum
      rw [toIno_of_lt (by omega)]
      rfl
    rw [scanBlock, if_neg h0, hino]
    refine ih (by omega) (by omega) ?_
    by_cases hb : m adr i = 0
    · simp only [hb, if_true]
      exact h.push h0 hlo hd (hmode.trans hb)
    · simp only [hb, if_false]
      exact h.skip (by rwa [hmode])

/-- The i-list is searched to its end, or until the list is full. -/
theorem scan_spec (hnum : (fs₀.s_isize - 2) * FsINOPB fs₀ < 2 ^ 16) (n : ℕ) {adr : ℕ} (h2 : 2 ≤ adr)
    (hlo : lo ≤ first fs₀ adr) (hn : fs₀.s_isize - adr = n)
    (h : Filled m fs₀ fs lo (first fs₀ adr)) :
    ∃ hi, Filled m fs₀ (scan m (fun _ => false) n adr false fs (first fs₀ adr)) lo hi ∧
      ((scan m (fun _ => false) n adr false fs (first fs₀ adr)).s_ninode ≠ 0 →
        first fs₀ fs₀.s_isize ≤ hi) := by
  induction n generalizing fs adr with
  | zero => exact ⟨_, h, fun _ => first_mono _ (by omega)⟩
  | succ n ih =>
    have hp : FsINOPB fs = FsINOPB fs₀ := by rw [h.same]; rfl
    obtain ⟨fs', ino, he, hf, hfull⟩ :=
      scanBlock_spec hnum h2 (by omega) (FsINOPB fs₀) (i := 0) hlo (by omega) h
    rw [Nat.add_zero] at he
    rw [scan]
    simp only [Bool.or_false, Bool.false_eq_true, if_false, hp, he]
    by_cases h0 : fs'.s_ninode = 0
    · rw [if_pos h0]
      exact ⟨ino, hf, fun h => absurd h0 h⟩
    · rw [if_neg h0, hfull h0]
      rw [hfull h0] at hf
      exact ih (by omega) (hlo.trans (first_mono _ (by omega))) (by omega) hf

/-- The numbers of a list made by a search are `0` or of inodes. -/
theorem Filled.entries {free : ℕ → Prop} (h : Filled m fs₀ fs lo hi) (hS : Sound fs₀ free) :
    ∀ i < NICINOD, fs.s_inode i = 0 ∨ fs₀.OnDevice (fs.s_inode i) := by
  intro i hi
  by_cases hn : i < fs.s_ninode
  · rw [h.rest i hn]
    exact hS.entries i hi
  · exact .inr (h.free i (by omega) hi).2.1

/-- The list before it is ended, and where the search has stopped. -/
theorem fill_eq {free : ℕ → Prop} (hS : Sound fs free) :
    ∃ fs' hi, Filled m fs fs' (FsINOS fs (fs.s_inode 0)) hi ∧
      (fs'.s_ninode ≠ 0 → first fs fs.s_isize ≤ hi) ∧
      fill m (fun _ => false) false fs = if 0 < fs'.s_ninode then
        { fs' with
          s_inode := Function.update (Function.update fs'.s_inode (fs'.s_ninode - 1) 0) 0 0 }
      else fs' := by
  obtain ⟨hi, hf, hend⟩ := scan_spec (m := m) hS.numbered _
    (two_le_FsITOD fs (FsINOS_pos fs (fs.s_inode 0))) (first_FsITOD_FsINOS fs _).ge rfl
    (by rw [first_FsITOD_FsINOS]; exact .start m fs _)
  rw [first_FsITOD_FsINOS] at hf hend
  exact ⟨_, hi, hf, hend, rfl⟩

/-- A search that finds an inode leaves a list in order, with a free inode on top, which
    covers those that the search was for. -/
theorem fill_found {free : ℕ → Prop} (hS : Sound fs free)
    (hfree : ∀ ino, free ino ↔ fs.OnDevice ino ∧ m.di_mode fs ino = 0)
    (hlo : ∀ ino, free ino → FsINOS fs (fs.s_inode 0) ≤ ino)
    (hn : (fill m (fun _ => false) false fs).s_ninode ≠ NICINOD) :
    ∃ arr, fill m (fun _ => false) false fs =
        { fs with s_ninode := (fill m (fun _ => false) false fs).s_ninode, s_inode := arr } ∧
      Sound { fs with s_ninode := NICINOD, s_inode := arr } free ∧ free (arr (NICINOD - 1)) := by
  obtain ⟨fs', hi, hf, hend, he⟩ := fill_eq (m := m) hS
  rw [he] at hn ⊢
  have htop : 0 < NICINOD - 1 := by decide
  by_cases h0 : 0 < fs'.s_ninode
  · -- the list is not full: a `0` ends it, and the next search is from the first inode
    rw [if_pos h0] at hn ⊢
    have hlt : fs'.s_ninode < NICINOD := lt_of_le_of_ne hf.fits hn
    refine ⟨Function.update (Function.update fs'.s_inode (fs'.s_ninode - 1) 0) 0 0,
      by rw [hf.same], ⟨hS.numbered, le_rfl, hS.unlocked, fun i hi => ?_, fun _ => ?_,
      fun ino _ => ?_⟩, ?_⟩
    · simp only [Function.update_apply]
      split_ifs
      · exact .inl rfl
      · exact .inl rfl
      · exact hf.entries hS i hi
    · dsimp only
      rw [Function.update_self]
    · dsimp only
      rw [Function.update_self]
      exact .inl (by rw [FsINOS_zero]; exact ((hfree ino).1 ‹_›).1.1)
    · rw [Function.update_of_ne htop.ne', Function.update_of_ne (by omega)]
      exact (hfree _).2 (hf.free _ (by omega) (by omega)).2
  · -- the list is full: the free inodes up to the last one on it are listed
    rw [if_neg h0] at hn ⊢
    have h0' : fs'.s_ninode = 0 := by omega
    refine ⟨fs'.s_inode, hf.same, ⟨hS.numbered, le_rfl, hS.unlocked, hf.entries hS, ?_,
      fun ino hino => ?_⟩, (hfree _).2 (hf.free _ (by omega) (by omega)).2⟩
    · rintro ⟨i, hi, he⟩
      have := (hf.free i (by omega) hi).2.1.1
      exact absurd he this.ne'
    · by_cases hle : FsINOS fs (fs'.s_inode 0) ≤ ino
      · exact .inl hle
      · have h₁ := FsINOS_le fs (fs'.s_inode 0)
        have h₂ := (hf.free 0 (by omega) (by decide)).1.2
        obtain ⟨i, -, h₃, h₄⟩ := hf.listed ino (hlo ino hino) (by omega) ((hfree ino).1 hino).2
        exact .inr ⟨i, h₃, h₄⟩

/-- A search that finds no inode has none to find. -/
theorem fill_none {free : ℕ → Prop} (hS : Sound fs free)
    (hfree : ∀ ino, free ino ↔ fs.OnDevice ino ∧ m.di_mode fs ino = 0)
    (hlo : ∀ ino, free ino → FsINOS fs (fs.s_inode 0) ≤ ino)
    (hn : (fill m (fun _ => false) false fs).s_ninode = NICINOD) :
    (∀ ino, ¬free ino) ∧ ∃ arr, arr 0 = 0 ∧ fill m (fun _ => false) false fs =
        { fs with s_ninode := NICINOD, s_inode := arr } ∧
      ∀ i < NICINOD, arr i = 0 ∨ fs.OnDevice (arr i) := by
  obtain ⟨fs', hi, hf, hend, he⟩ := fill_eq (m := m) hS
  rw [he] at hn ⊢
  have h0 : 0 < fs'.s_ninode := by
    by_contra h0
    rw [if_neg h0] at hn
    exact h0 (hn ▸ (by decide : 0 < NICINOD))
  rw [if_pos h0] at hn ⊢
  dsimp only at hn
  refine ⟨fun ino hino => ?_,
    Function.update (Function.update fs'.s_inode (fs'.s_ninode - 1) 0) 0 0, ?_,
    by rw [hf.same, ← hn], fun i hi => ?_⟩
  · have h₁ := ((hfree ino).1 hino).1.lt
    have h₂ := hend h0.ne'
    obtain ⟨i, h₃, h₄, -⟩ := hf.listed ino (hlo ino hino) (by omega) ((hfree ino).1 hino).2
    omega
  · rw [Function.update_self]
  · simp only [Function.update_apply]
    split_ifs
    · exact .inl rfl
    · exact .inl rfl
    · exact hf.entries hS i hi

/-! ## The loop -/

/-- What the loop ends with: a free inode, off the list, or none, when there is none; or
    an inode that is off the list as well, for want of room in core. -/
def Outcome (free : ℕ → Prop) (iget : ℕ → Bool) (fs : Filsys) : Found → Prop
  | .inode ino => free ino ∧ Sound fs fun x => free x ∧ x ≠ ino
  | .nofile ino => iget ino = false ∧ Sound fs fun x => free x ∧ x ≠ ino
  | .nospace => (∀ ino, ¬free ino) ∧ Sound fs free

/-- A number taken off the list is the only inode that it need not cover any more. -/
theorem Sound.pop {free : ℕ → Prop} (h : Sound fs free) (hn : 0 < fs.s_ninode) :
    Sound { fs with s_ninode := fs.s_ninode - 1 } fun x =>
      free x ∧ x ≠ fs.s_inode (fs.s_ninode - 1) where
  numbered := h.numbered
  fits := by have := h.fits; dsimp; omega
  unlocked := h.unlocked
  entries := h.entries
  hint := fun ⟨i, hi, he⟩ => h.hint ⟨i, by dsimp at hi; omega, he⟩
  covered ino hino := by
    rcases h.covered ino hino.1 with hle | ⟨i, hi, he⟩
    · exact .inl hle
    · refine .inr ⟨i, ?_, he⟩
      have : i ≠ fs.s_ninode - 1 := fun e => hino.2 (e ▸ he.symm)
      dsimp only
      omega

theorem Sound.mono {free free' : ℕ → Prop} (h : Sound fs free) (hle : ∀ ino, free' ino → free ino) :
    Sound fs free' :=
  { h with covered := fun ino hino => h.covered ino (hle ino hino) }

/-- A number off the list may be put back among those to be covered, where the next search
    meets it. -/
theorem Sound.add {free : ℕ → Prop} {ino : ℕ} (h : Sound fs fun x => free x ∧ x ≠ ino)
    (hle : free ino → FsINOS fs (fs.s_inode 0) ≤ ino) : Sound fs free where
  numbered := h.numbered
  fits := h.fits
  unlocked := h.unlocked
  entries := h.entries
  hint := h.hint
  covered x hx := by
    by_cases he : x = ino
    · exact .inl (he ▸ hle (he ▸ hx))
    · exact h.covered x ⟨hx, he⟩

/-- The turn of the loop that takes an inode off the list. -/
theorem look_listed {iget ioerr : ℕ → Bool} {u_error : Bool} (hl : fs.s_ilock = false)
    (hn : 0 < fs.s_ninode) (h0 : fs.s_inode (fs.s_ninode - 1) ≠ 0) (n : ℕ) :
    look m iget ioerr u_error (n + 1) fs =
      if iget (fs.s_inode (fs.s_ninode - 1)) = false then
        some ({ fs with s_ninode := fs.s_ninode - 1 }, .nofile (fs.s_inode (fs.s_ninode - 1)))
      else if m.di_mode fs (fs.s_inode (fs.s_ninode - 1)) = 0 then
        some ({ fs with s_ninode := fs.s_ninode - 1 }, .inode (fs.s_inode (fs.s_ninode - 1)))
      else look m iget ioerr u_error n { fs with s_ninode := fs.s_ninode - 1 } := by
  have hpop : pop fs =
      ({ fs with s_ninode := fs.s_ninode - 1 }, some (fs.s_inode (fs.s_ninode - 1))) := by
    simp only [pop, if_pos hn, if_neg h0]
  rw [look, if_neg (by rw [hl]; exact Bool.false_ne_true), hpop]
  simp only [Bool.not_eq_true']
  rfl

/-- The turn of the loop that finds no number on the list. -/
theorem look_ended {iget ioerr : ℕ → Bool} {u_error : Bool} (hl : fs.s_ilock = false)
    {fs' : Filsys} (hpop : pop fs = (fs', none)) (n : ℕ) :
    look m iget ioerr u_error (n + 1) fs =
      if (fill m ioerr u_error fs').s_ninode ≠ NICINOD then
        look m iget ioerr u_error n { fill m ioerr u_error fs' with s_ninode := NICINOD }
      else some ({ fill m ioerr u_error fs' with s_ninode := 0, s_tinode := 0 }, .nospace) := by
  rw [look, if_neg (by rw [hl]; exact Bool.false_ne_true), hpop]

/-- The turn of the loop that takes a free inode off the list. -/
theorem look_top {free : ℕ → Prop} (iget ioerr : ℕ → Bool) (u_error : Bool) (hS : Sound fs free)
    (hfree : ∀ ino, free ino ↔ fs.OnDevice ino ∧ m.di_mode fs ino = 0) (hn : 0 < fs.s_ninode)
    (htop : free (fs.s_inode (fs.s_ninode - 1))) (n : ℕ) :
    ∃ r, look m iget ioerr u_error (n + 1) fs =
      some ({ fs with s_ninode := fs.s_ninode - 1 }, r) ∧
      Outcome free iget { fs with s_ninode := fs.s_ninode - 1 } r := by
  have h0 : fs.s_inode (fs.s_ninode - 1) ≠ 0 := ((hfree _).1 htop).1.1.ne'
  rw [look_listed hS.unlocked hn h0]
  by_cases hg : iget (fs.s_inode (fs.s_ninode - 1)) = false
  · exact ⟨.nofile _, if_pos hg, hg, hS.pop hn⟩
  · exact ⟨.inode _, by rw [if_neg hg, if_pos ((hfree _).1 htop).2], htop, hS.pop hn⟩

/-- The turn of the loop that finds no number on the list searches the i-list. -/
theorem look_fill {free : ℕ → Prop} {iget : ℕ → Bool} (hS : Sound fs free)
    (hfree : ∀ ino, free ino ↔ fs.OnDevice ino ∧ m.di_mode fs ino = 0)
    (hlo : ∀ ino, free ino → FsINOS fs (fs.s_inode 0) ≤ ino) (n : ℕ) :
    ∃ fs' r, (if (fill m (fun _ => false) false fs).s_ninode ≠ NICINOD then
        look m iget (fun _ => false) false (n + 1)
          { fill m (fun _ => false) false fs with s_ninode := NICINOD }
      else
        some ({ fill m (fun _ => false) false fs with s_ninode := 0, s_tinode := 0 }, .nospace)) =
      some (fs', r) ∧ fs'.s_type = fs.s_type ∧ fs'.s_isize = fs.s_isize ∧
      Outcome free iget fs' r := by
  by_cases hn : (fill m (fun _ => false) false fs).s_ninode = NICINOD
  · obtain ⟨hnone, arr, h0, he, harr⟩ := fill_none hS hfree hlo hn
    rw [if_neg (not_not.2 hn), he]
    exact ⟨_, _, rfl, rfl, rfl, hnone, hS.numbered, Nat.zero_le _, hS.unlocked, harr,
      fun _ => h0, fun ino hino => absurd hino (hnone ino)⟩
  · obtain ⟨arr, he, hS', htop⟩ := fill_found hS hfree hlo hn
    obtain ⟨r, hl, hr⟩ := look_top iget (fun _ => false) false hS' hfree (by dsimp; decide) htop n
    rw [if_pos hn, he]
    exact ⟨_, r, hl, rfl, rfl, hr⟩

/-- The loop ends, after no more turns than there are numbers on the list and two. -/
theorem look_spec {free : ℕ → Prop} (iget : ℕ → Bool) (n : ℕ) (hS : Sound fs free)
    (hfree : ∀ ino, free ino ↔ fs.OnDevice ino ∧ m.di_mode fs ino = 0) (hn : fs.s_ninode + 2 ≤ n) :
    ∃ fs' r, look m iget (fun _ => false) false n fs = some (fs', r) ∧ fs'.s_type = fs.s_type ∧
      fs'.s_isize = fs.s_isize ∧ Outcome free iget fs' r := by
  induction n generalizing fs with
  | zero => omega
  | succ n ih =>
    by_cases hn' : 0 < fs.s_ninode
    · by_cases h0 : fs.s_inode (fs.s_ninode - 1) = 0
      · -- a `0` ends the list: the search is from the first inode
        have hz : fs.s_inode 0 = 0 := hS.hint ⟨_, by omega, h0⟩
        obtain ⟨k, rfl⟩ := Nat.exists_eq_add_of_le' (by omega : 1 ≤ n)
        have hpop : pop fs = ({ fs with s_ninode := fs.s_ninode - 1 }, none) := by
          simp only [pop, if_pos hn', if_pos h0]
        rw [look_ended hS.unlocked hpop]
        refine look_fill ((hS.pop hn').add fun h => ?_) hfree (fun ino hino => ?_) k
        · exact absurd ((hfree _).1 h).1.1 (by omega)
        · dsimp only
          rw [hz, FsINOS_zero]
          exact ((hfree ino).1 hino).1.1
      · by_cases hf : free (fs.s_inode (fs.s_ninode - 1))
        · obtain ⟨r, hl, hr⟩ := look_top iget (fun _ => false) false hS hfree hn' hf n
          exact ⟨_, r, hl, rfl, rfl, hr⟩
        · -- the inode is in use after all
          have hmode : m.di_mode fs (fs.s_inode (fs.s_ninode - 1)) ≠ 0 := fun h => hf <|
            (hfree _).2 ⟨(hS.entries _ (by have := hS.fits; omega)).resolve_left h0, h⟩
          have hS' := (hS.pop hn').mono fun ino (hino : free ino) => ⟨hino, fun e => hf (e ▸ hino)⟩
          obtain ⟨fs', r, hl, hty, hsz, hr⟩ := ih hS' hfree (by dsimp; omega)
          rw [look_listed hS.unlocked hn' h0]
          by_cases hg : iget (fs.s_inode (fs.s_ninode - 1)) = false
          · exact ⟨_, .nofile _, if_pos hg, rfl, rfl, hg, hS.pop hn'⟩
          · rw [if_neg hg, if_neg hmode]
            exact ⟨fs', r, hl, hty, hsz, hr⟩
    · -- the list is empty, so that it covers no inode
      obtain ⟨k, rfl⟩ := Nat.exists_eq_add_of_le' (by omega : 1 ≤ n)
      have hpop : pop fs = (fs, none) := if_neg hn'
      rw [look_ended hS.unlocked hpop]
      refine look_fill hS hfree (fun ino hino => ?_) k
      exact (hS.covered ino hino).resolve_right fun ⟨i, hi, _⟩ => hn' (by omega)

/-- The free inode for which there is no room in core is the one that the loop comes to
    when there is. -/
theorem look_nofile {iget ioerr : ℕ → Bool} {u_error : Bool} {n : ℕ} {fs' : Filsys} {ino : ℕ}
    (h : look m iget ioerr u_error n fs = some (fs', .nofile ino)) (hm : m.di_mode fs' ino = 0) :
    look m (fun _ => true) ioerr u_error n fs = some (fs', .inode ino) := by
  induction n generalizing fs with
  | zero => cases h
  | succ n ih =>
    rw [look] at h ⊢
    by_cases hl : fs.s_ilock = true
    · rw [if_pos hl] at h
      cases h
    rw [if_neg hl] at h ⊢
    generalize pop fs = r at h ⊢
    obtain ⟨fs₁, _ | x⟩ := r
    · dsimp only at h ⊢
      by_cases hf : (fill m ioerr u_error fs₁).s_ninode ≠ NICINOD
      · rw [if_pos hf] at h ⊢
        exact ih h
      · rw [if_neg hf] at h
        cases h
    · dsimp only at h ⊢
      rw [if_neg (by decide)]
      by_cases hg : (!iget x) = true
      · rw [if_pos hg] at h
        cases h
        exact if_pos hm
      · rw [if_neg hg] at h
        by_cases hx : m.di_mode fs₁ x = 0
        · rw [if_pos hx] at h
          cases h
        · rw [if_neg hx] at h ⊢
          exact ih h

/-! ## The runs -/

/-- `s_inode[0]` stays before the free inodes that are not listed: `ifree` does not put on
    an empty list an inode with a free one before it that is to be found by the next search,
    and there is room in core for the free inode `ialloc` takes off the list, unless
    the next search meets it. -/
def Clean (s : Run) : Act → Prop
  | .ialloc _ iget => ∀ fs ino,
    look s.m (fun _ => true) (fun _ => false) false (s.fs.s_ninode + 2) s.fs =
      some (fs, .inode ino) → iget ino = false → FsINOS fs (fs.s_inode 0) ≤ ino
  | .ifree ino => s.fs.s_ninode = 0 → ∀ x, s.Free x → FsINOS s.fs (s.fs.s_inode 0) ≤ x →
      FsINOS s.fs ino ≤ x

/-- A call of `ialloc` ends; an inode it returns was free, and not returned before without
    being freed since; and it says that there is none only when there is none. -/
def Complete (s : Run) : Prop :=
  ∀ mode iget, mode ≠ 0 → ∃ m fs r,
    ialloc (s.fs.s_ninode + 2) s.m s.fs mode iget (fun _ => false) false = some (m, fs, r) ∧
    (∀ ino, r = .inode ino → s.Free ino ∧ s.held ino = false ∧ m.di_mode fs ino = mode) ∧
    (r = .error .enospc → ∀ ino, s.fs.OnDevice ino → s.m.di_mode s.fs ino ≠ 0)

/-- The super-block is in order for the free inodes, and those returned are in use. -/
structure Inv (s : Run) : Prop where
  sound : Sound s.fs s.Free
  held : ∀ ino, s.held ino = true → ¬s.Free ino

theorem FsITOD_congr {fs fs' : Filsys} (h : fs'.s_type = fs.s_type) (ino : ℕ) :
    FsITOD fs' ino = FsITOD fs ino := by
  simp only [FsITOD, h]

theorem FsITOO_congr {fs fs' : Filsys} (h : fs'.s_type = fs.s_type) (ino : ℕ) :
    FsITOO fs' ino = FsITOO fs ino := by
  simp only [FsITOO, h]

theorem onDevice_congr {fs fs' : Filsys} (h : fs'.s_type = fs.s_type)
    (hs : fs'.s_isize = fs.s_isize) (ino : ℕ) : fs'.OnDevice ino ↔ fs.OnDevice ino := by
  simp only [Filsys.OnDevice, FsITOD_congr h, hs]

theorem di_mode_congr (m : Modes) {fs fs' : Filsys} (h : fs'.s_type = fs.s_type) (ino : ℕ) :
    m.di_mode fs' ino = m.di_mode fs ino := by
  simp only [Modes.di_mode, FsITOD_congr h, FsITOO_congr h]

theorem write_congr (m : Modes) {fs fs' : Filsys} (h : fs'.s_type = fs.s_type) (ino mode : ℕ) :
    m.write fs' ino mode = m.write fs ino mode := by
  simp only [Modes.write, FsITOD_congr h, FsITOO_congr h]

/-- The inodes that are free when the mode of one has been written. -/
theorem free_write {s : Run} {fs : Filsys} (held : ℕ → Bool) {ino : ℕ} (mode : ℕ)
    (hty : fs.s_type = s.fs.s_type) (hsz : fs.s_isize = s.fs.s_isize) (hd : s.fs.OnDevice ino)
    (x : ℕ) : Run.Free ⟨s.m.write s.fs ino mode, fs, held⟩ x ↔
      if x = ino then mode = 0 else s.Free x := by
  simp only [Run.Free, onDevice_congr hty hsz, di_mode_congr _ hty]
  by_cases hx : x = ino
  · rw [if_pos hx, hx, di_mode_write_self]
    exact and_iff_right hd
  · rw [if_neg hx]
    refine and_congr_right fun hx' => ?_
    rw [di_mode_write_of_ne _ _ hd.1 hx'.1 hx]

theorem Inv.complete {s : Run} (h : Inv s) : Complete s := by
  intro mode iget _
  obtain ⟨fs, r, hl, hty, hsz, hr⟩ := look_spec iget _ h.sound (fun _ => Iff.rfl) le_rfl
  rw [ialloc, hl]
  cases r with
  | inode ino =>
    refine ⟨_, _, _, rfl, fun ino' he => ?_, fun he => by cases he⟩
    cases he
    refine ⟨hr.1, Bool.eq_false_iff.2 fun hh => h.held ino hh hr.1, ?_⟩
    exact di_mode_write_self ..
  | nofile ino => exact ⟨_, _, _, rfl, (fun _ he => by cases he), (fun he => by cases he)⟩
  | nospace =>
    exact ⟨_, _, _, rfl, (fun _ he => by cases he), fun _ ino hd hm => hr.1 ino ⟨hd, hm⟩⟩

/-- A freed inode at which the next search is to start. -/
theorem Sound.lower {free : ℕ → Prop} {ino : ℕ} (h : Sound fs free) (hd : fs.OnDevice ino)
    (hn : 0 < fs.s_ninode) (hlt : ino < fs.s_inode 0) :
    Sound { fs with s_inode := Function.update fs.s_inode 0 ino } fun x => x = ino ∨ free x where
  numbered := h.numbered
  fits := h.fits
  unlocked := h.unlocked
  entries i hi := by
    simp only [Function.update_apply]
    split_ifs
    · exact .inr hd
    · exact h.entries i hi
  hint := fun ⟨i, hi, he⟩ => by
    dsimp only at hi he ⊢
    have hino : 0 < ino := hd.1
    by_cases hi0 : i = 0
    · rw [hi0, Function.update_self] at he
      omega
    · rw [Function.update_of_ne hi0] at he
      have := h.hint ⟨i, hi, he⟩
      omega
  covered x hx := by
    dsimp only
    rcases hx with rfl | hx
    · exact .inr ⟨0, hn, Function.update_self ..⟩
    · rw [Function.update_self]
      rcases h.covered x hx with hle | ⟨i, hi, he⟩
      · exact .inl ((FsINOS_mono fs hlt.le).trans hle)
      · by_cases hi0 : i = 0
        · -- the number it takes the place of
          subst hi0
          exact .inl ((FsINOS_le fs ino).trans (by omega))
        · exact .inr ⟨i, hi, by rw [Function.update_of_ne hi0, he]⟩

/-- A freed inode that the next search is to meet. -/
theorem Sound.keep {free : ℕ → Prop} {ino : ℕ} (h : Sound fs free) (hn : 0 < fs.s_ninode)
    (hle : fs.s_inode 0 ≤ ino) : Sound fs fun x => x = ino ∨ free x where
  numbered := h.numbered
  fits := h.fits
  unlocked := h.unlocked
  entries := h.entries
  hint := h.hint
  covered x hx := by
    rcases hx with rfl | hx
    · by_cases he : fs.s_inode 0 = x
      · exact .inr ⟨0, hn, he⟩
      · exact .inl ((FsINOS_le fs _).trans (by omega))
    · exact h.covered x hx

/-- A freed inode that is listed. On an empty list, it is where the next search starts. -/
theorem Sound.list {free : ℕ → Prop} {ino : ℕ} (h : Sound fs free) (hd : fs.OnDevice ino)
    (hn : fs.s_ninode < NICINOD)
    (hc : fs.s_ninode = 0 → ∀ x, free x → FsINOS fs (fs.s_inode 0) ≤ x → FsINOS fs ino ≤ x) :
    Sound { fs with
      s_inode := Function.update fs.s_inode fs.s_ninode ino
      s_ninode := fs.s_ninode + 1 } fun x => x = ino ∨ free x where
  numbered := h.numbered
  fits := hn
  unlocked := h.unlocked
  entries i hi := by
    simp only [Function.update_apply]
    split_ifs
    · exact .inr hd
    · exact h.entries i hi
  hint := fun ⟨i, hi, he⟩ => by
    dsimp only at hi he ⊢
    have hino : 0 < ino := hd.1
    have hin : i ≠ fs.s_ninode := by
      rintro rfl
      rw [Function.update_self] at he
      omega
    rw [Function.update_of_ne hin] at he
    rw [Function.update_of_ne (by omega)]
    exact h.hint ⟨i, by omega, he⟩
  covered x hx := by
    dsimp only
    rcases hx with rfl | hx
    · exact .inr ⟨fs.s_ninode, Nat.lt_succ_self _, Function.update_self ..⟩
    · rcases h.covered x hx with hle | ⟨i, hi, he⟩
      · left
        by_cases h0 : fs.s_ninode = 0
        · rw [h0, Function.update_self]
          exact hc h0 x hx hle
        · rw [Function.update_of_ne (Ne.symm h0)]
          exact hle
      · exact .inr ⟨i, Nat.lt_succ_of_lt hi, by rw [Function.update_of_ne hi.ne, he]⟩

/-- `s_tinode` and `s_fmod` say nothing of the list. -/
theorem Sound.withCounts {free : ℕ → Prop} (h : Sound fs free) (s_tinode : ℤ) (s_fmod : Bool) :
    Sound { fs with s_tinode := s_tinode, s_fmod := s_fmod } free :=
  ⟨h.numbered, h.fits, h.unlocked, h.entries, h.hint, h.covered⟩

/-- A freed inode is listed, or met by the next search. -/
theorem ifree_sound {free : ℕ → Prop} {ino : ℕ} (h : Sound fs free) (hd : fs.OnDevice ino)
    (hc : fs.s_ninode = 0 → ∀ x, free x → FsINOS fs (fs.s_inode 0) ≤ x → FsINOS fs ino ≤ x) :
    Sound (ifree fs ino) fun x => x = ino ∨ free x := by
  rw [ifree, if_neg (by rw [h.unlocked]; exact Bool.false_ne_true)]
  by_cases hfull : NICINOD ≤ fs.s_ninode
  · have hn : 0 < fs.s_ninode := lt_of_lt_of_le (by decide) hfull
    rw [if_pos hfull]
    by_cases hlt : ino < fs.s_inode 0
    · rw [if_pos hlt]
      exact (h.lower hd hn hlt).withCounts _ _
    · rw [if_neg hlt]
      exact (h.keep hn (not_lt.1 hlt)).withCounts _ _
  · rw [if_neg hfull]
    exact (h.list hd (not_le.1 hfull) hc).withCounts _ _

@[simp] theorem ifree_s_type (fs : Filsys) (ino : ℕ) : (ifree fs ino).s_type = fs.s_type := by
  simp only [ifree]
  split_ifs <;> rfl

@[simp] theorem ifree_s_isize (fs : Filsys) (ino : ℕ) : (ifree fs ino).s_isize = fs.s_isize := by
  simp only [ifree]
  split_ifs <;> rfl

/-- A call of `ialloc` keeps the super-block in order. -/
theorem Inv.ialloc {s s' : Run} {mode : ℕ} {iget : ℕ → Bool} (h : Inv s)
    (hc : Clean s (.ialloc mode iget)) (hs : inodes.next s (.ialloc mode iget) = some s') :
    Inv s' := by
  by_cases hmode : mode = 0
  · simp only [inodes, hmode, if_true] at hs
    cases hs
  obtain ⟨fs, r, hl, hty, hsz, hr⟩ := look_spec iget _ h.sound (fun _ => Iff.rfl) le_rfl
  simp only [inodes, if_neg hmode, Ilist.ialloc, hl, Option.map_some, Option.some.injEq] at hs
  have hfree : ∀ held x, Run.Free ⟨s.m, fs, held⟩ x ↔ s.Free x := fun held x => by
    simp only [Run.Free, onDevice_congr hty hsz, di_mode_congr _ hty]
  cases r with
  | inode ino =>
    obtain ⟨hino, hS⟩ := hr
    have hw : ∀ held x, Run.Free ⟨s.m.write s.fs ino mode, fs, held⟩ x → s.Free x ∧ x ≠ ino := by
      intro held x hx
      have hx := (free_write held mode hty hsz hino.1 x).1 hx
      by_cases hxi : x = ino
      · rw [if_pos hxi] at hx
        exact absurd hx hmode
      · rw [if_neg hxi] at hx
        exact ⟨hx, hxi⟩
    subst hs
    dsimp only
    rw [write_congr _ hty]
    refine ⟨(hS.withCounts _ _).mono fun x hx => hw s.held x hx, fun x hx hx' => ?_⟩
    obtain ⟨hfree, hxi⟩ := hw s.held x hx'
    dsimp only at hx
    rw [Function.update_of_ne hxi] at hx
    exact h.held x hx hfree
  | nofile ino =>
    subst hs
    refine ⟨(hr.2.add fun hino => ?_).mono fun x hx => (hfree _ x).1 hx,
      fun x hx hx' => h.held x hx ((hfree _ x).1 hx')⟩
    refine hc fs ino (look_nofile hl ?_) hr.1
    rw [di_mode_congr _ hty]
    exact hino.2
  | nospace =>
    subst hs
    exact ⟨hr.2.mono fun x hx => (hfree _ x).1 hx, fun x hx hx' => h.held x hx ((hfree _ x).1 hx')⟩

/-- A call of `ifree` keeps the super-block in order. -/
theorem Inv.ifree {s s' : Run} {ino : ℕ} (h : Inv s) (hc : Clean s (.ifree ino))
    (hs : inodes.next s (.ifree ino) = some s') : Inv s' := by
  by_cases hin : s.fs.OnDevice ino ∧ s.m.di_mode s.fs ino ≠ 0
  · simp only [inodes, if_pos hin, Option.some.injEq] at hs
    have hw := free_write (Function.update s.held ino false) 0 (ifree_s_type s.fs ino)
      (ifree_s_isize s.fs ino) hin.1
    subst hs
    refine ⟨(ifree_sound h.sound hin.1 hc).mono fun x hx => ?_, fun x hx hx' => ?_⟩
    · have := (hw x).1 hx
      split_ifs at this with hxi
      · exact .inl hxi
      · exact .inr this
    · have := (hw x).1 hx'
      dsimp only at hx
      split_ifs at this with hxi
      · rw [hxi, Function.update_self] at hx
        cases hx
      · rw [Function.update_of_ne hxi] at hx
        exact h.held x hx this
  · simp only [inodes, if_neg hin] at hs
    cases hs

/-- As long as no free inode is left behind, allocation is complete: in every state that
    calls of `ialloc` and `ifree` reach, a call of `ialloc` ends, with an inode that is
    free and is not held, and says that there is no inode only when there is none. -/
theorem complete_of_clean {s : Run} (hs : inodes.ReachableIf Clean s) : Complete s := by
  refine Inv.complete (hs.invariant (P := Inv) ?_ ?_)
  · rintro s ⟨h, hheld⟩
    exact ⟨h, fun ino hh => by simp [hheld ino] at hh⟩
  · rintro s (⟨mode, iget⟩ | ino) s' h hc hn
    · exact h.ialloc hc hn
    · exact h.ifree hc hn

/-! ## A free inode that is not found -/

/-- A new file system with `7` blocks of inodes. The root, the inode before it and the last
    nine are in use. -/
def fresh : Run where
  m adr i := if (adr = 2 ∧ i < 2) ∨ (adr = 8 ∧ 7 ≤ i) then 1 else 0
  fs := ⟨9, 0, fun _ => 0, false, false, 101, Fs2b⟩
  held _ := false

theorem init_fresh : inodes.init fresh := by
  refine ⟨⟨by decide, by decide, rfl, fun _ _ => .inl rfl, fun _ => rfl, fun ino hino => ?_⟩,
    fun _ => rfl⟩
  exact .inl hino.1.1

/-- A file is made, and removed. -/
theorem complete_of_clean_fresh : ∃ s s', inodes.next fresh (.ialloc 1 fun _ => true) = some s ∧
    inodes.next s (.ifree 3) = some s' ∧ Complete s' := by
  have hs : ∃ s, inodes.next fresh (.ialloc 1 fun _ => true) = some s ∧
      (s.fs.s_ninode, s.fs.s_inode 0, decide (s.fs.OnDevice 3 ∧ s.m.di_mode s.fs 3 ≠ 0)) =
        (99, 102, true) :=
    Option.map_eq_some_iff.1 (by decide +kernel)
  obtain ⟨s, hs, hv⟩ := hs
  simp only [Prod.mk.injEq, decide_eq_true_eq] at hv
  have hs' : inodes.next s (.ifree 3) = some _ := if_pos hv.2.2
  refine ⟨s, _, hs, hs', complete_of_clean (.step (.step (.init init_fresh) ?_ hs) ?_ hs')⟩
  · intro _ _ _ h
    cases h
  · intro h
    rw [hv.1] at h
    cases h

/-- Every file of a new file system is made but one, and the last inode is freed. It is
    found again, and then the free inode before it is not. -/
theorem not_complete : ∃ s, inodes.Reachable s ∧ ¬Complete s := by
  have hrun : ∃ s, inodes.run fresh (List.replicate 100 (.ialloc 1 fun _ => true) ++
      [.ifree 112, .ialloc 1 fun _ => true]) = some s ∧
      ((ialloc (s.fs.s_ninode + 2) s.m s.fs 1 (fun _ => true) (fun _ => false) false).map
        fun r => r.2.2, decide (s.fs.OnDevice 103), s.m.di_mode s.fs 103) =
        (some (.error .enospc), true, 0) :=
    Option.map_eq_some_iff.1 (by decide +kernel)
  obtain ⟨s, hs, hv⟩ := hrun
  refine ⟨s, Machine.reachableIf_run (.init init_fresh) (fun _ _ _ => trivial) hs, fun h => ?_⟩
  simp only [Prod.mk.injEq, decide_eq_true_eq] at hv
  obtain ⟨m, fs, r, hr, -, hnone⟩ := h 1 (fun _ => true) one_ne_zero
  rw [hr] at hv
  exact hnone (Option.some.inj hv.1) 103 hv.2.1 hv.2.2

end AuxKernel.Svfs.Ilist
