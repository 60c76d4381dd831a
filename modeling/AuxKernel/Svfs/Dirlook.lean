import AuxKernel.Basic
import AuxKernel.Svfs.Params

/-!
# Looking up a name in an SVFS directory

`dirlook` (`SVFS/sys/5_dir.c`): a directory is a file of slots, an inode number and a
name of at most 14 characters each; a slot is empty where the number is `0`. The
search starts where the last one has found its entry (`i_diroff`), and when it comes
to the end of the directory it goes on from the beginning to that place.

A search that would read outside of the block in its buffer, or without one, is a
fault (`none`).

* `search_spec`: what one pass finds;
* `dirlook_entry`: what `dirlook` finds, wherever it starts.
-/

namespace AuxKernel.Svfs.Directory

/-- The length of a name in a directory. -/
def SVFSDIRSIZ : ℕ := 14

/-- The unit a directory grows by. -/
def DIRBLKSIZ : ℕ := DEV_BSIZE

/-- A slot of a directory. -/
structure Svfsdirect where
  d_ino : ℕ
  d_name : ℕ → ℕ

/-- `sizeof(struct svfsdirect)`. -/
def sizeofDirect : ℕ := 2 + SVFSDIRSIZ

/-- A block of a directory: the slots, by their place in it. -/
abbrev Block := ℕ → Svfsdirect

/-- The inode of a directory, and the blocks of the file; none in a hole. -/
structure Dir where
  i_number : ℕ
  i_size : ℕ
  i_diroff : ℕ
  s_type : ℕ
  block : ℕ → Option Block

/-- Compare at most `n` characters. -/
def strncmp (s t : ℕ → ℕ) : ℕ → ℤ
  | 0 => 0
  | n + 1 =>
    if s 0 ≠ t 0 then s 0 - t 0
    else if s 0 = 0 then 0
    else strncmp (fun i => s (i + 1)) (fun i => t (i + 1)) n

/-- Check for high bit only. -/
def dirbadname (sp : ℕ → ℕ) : (l : ℕ) → Bool
  | 0 => false
  | l + 1 =>
    if sp 0 = 0 then false
    else if (sp 0).testBit 7 then true
    else dirbadname (fun i => sp (i + 1)) l

/-- An entry with a bad name. -/
def dirmangled (ep : Svfsdirect) : Bool := dirbadname ep.d_name SVFSDIRSIZ

def roundup (x y : ℕ) : ℕ := (x + (y - 1)) / y * y

/-- The name `".."`. -/
def dotdot : ℕ → ℕ := fun i => if i < 2 then 46 else 0

/-- The block that the byte `offset` is in. -/
def blkatoff (dp : Dir) (offset : ℕ) : Option Block := dp.block (FsBNO dp.s_type offset)

/-- Where a search is: the block in the buffer, the place in it, and in the directory. -/
structure Scan where
  bp : Option Block
  entryoffsetinblock : ℕ
  offset : ℕ

/-- What a search ends with. -/
inductive Search
  | found (offset : ℕ) (ep : Svfsdirect)
  | ended (s : Scan)
  | failed (e : Errno)
  | fault

/-- On a block boundary, read the next directory block. -/
def Scan.read (dp : Dir) (s : Scan) : Option Scan :=
  if FsBLKOFF dp.s_type s.offset = 0 then
    (blkatoff dp s.offset).map fun b => { s with bp := some b, entryoffsetinblock := 0 }
  else some s

/-- The slot in the buffer. -/
def Scan.ep (dp : Dir) (s : Scan) : Option Svfsdirect :=
  if s.entryoffsetinblock < FsBSIZE dp.s_type then s.bp.map (· s.entryoffsetinblock) else none

/-- The next slot. -/
def Scan.next (s : Scan) : Scan :=
  { s with
    offset := s.offset + sizeofDirect
    entryoffsetinblock := s.entryoffsetinblock + sizeofDirect }

/-- The loop of a search up to `endsearch`, in at most `n` turns. -/
def searchloop (dp : Dir) (namep : ℕ → ℕ) (endsearch : ℕ) : (n : ℕ) → Scan → Search
  | 0, s => if s.offset < endsearch then .fault else .ended s
  | n + 1, s =>
    if s.offset < endsearch then
      match s.read dp with
      | none => .failed .enoent
      | some s =>
        match s.ep dp with
        | none => .fault
        | some ep =>
          if dirmangled ep then searchloop dp namep endsearch n s.next
          else if ep.d_ino ≠ 0 ∧ strncmp namep ep.d_name SVFSDIRSIZ = 0 then .found s.offset ep
          else searchloop dp namep endsearch n s.next
    else .ended s

/-- What a lookup returns. -/
inductive Ret
  | inode (ino : ℕ)
  | error (e : Errno)
  deriving DecidableEq, Repr

/-- The inode of an entry, which is the directory itself or else to be had of `iget`. -/
def got (dp : Dir) (namep : ℕ → ℕ) (iget : ℕ → Option Errno) (ino : ℕ) : Ret :=
  if strncmp namep dotdot SVFSDIRSIZ ≠ 0 ∧ dp.i_number = ino then .inode ino
  else
    match iget ino with
    | none => .inode ino
    | some e => .error e

/-- The turns of a search up to `endsearch`. -/
def turns (endsearch : ℕ) : ℕ := endsearch / sizeofDirect + 1

/-- The passes of a search from `i_diroff`. -/
def passes (dp : Dir) (namep : ℕ → ℕ) : Search :=
  let endsearch := roundup dp.i_size DIRBLKSIZ
  if dp.i_diroff = 0 then searchloop dp namep endsearch (turns endsearch) ⟨none, 0, 0⟩
  else
    let entryoffsetinblock := FsBLKOFF dp.s_type dp.i_diroff
    let bp := blkatoff dp dp.i_diroff
    if entryoffsetinblock ≠ 0 ∧ bp.isNone then .failed .enoent
    else
      match searchloop dp namep endsearch (turns endsearch)
        ⟨if entryoffsetinblock ≠ 0 then bp else none, entryoffsetinblock, dp.i_diroff⟩ with
      -- the beginning as well
      | .ended s => searchloop dp namep dp.i_diroff (turns dp.i_diroff) { s with offset := 0 }
      | r => r

/-- Look for a certain name in a directory. `access` is the error of the checks of the
    directory, `dnlc` what the name cache holds for the name. -/
def dirlook (dp : Dir) (namep : ℕ → ℕ) (access : Option Errno) (dnlc : Option ℕ)
    (iget : ℕ → Option Errno) : Option (Dir × Ret) :=
  match access, dnlc with
  | some e, _ => some (dp, .error e)
  | none, some ino => some (dp, .inode ino)
  | none, none =>
    let dp := if dp.i_diroff > dp.i_size then { dp with i_diroff := 0 } else dp
    match passes dp namep with
    | .found offset ep => some ({ dp with i_diroff := offset }, got dp namep iget ep.d_ino)
    | .ended _ => some (dp, .error .enoent)
    | .failed e => some (dp, .error e)
    | .fault => none

/-! ## Names -/

/-- The first `n` characters of a name, up to its end. -/
def chars (s : ℕ → ℕ) : ℕ → List ℕ
  | 0 => []
  | n + 1 => if s 0 = 0 then [] else s 0 :: chars (fun i => s (i + 1)) n

/-- `strncmp` compares the first characters of two names. -/
theorem strncmp_eq_zero_iff (s t : ℕ → ℕ) (n : ℕ) :
    strncmp s t n = 0 ↔ chars s n = chars t n := by
  induction n generalizing s t with
  | zero => simp [strncmp, chars]
  | succ n ih =>
    rw [strncmp, chars, chars]
    by_cases hne : s 0 = t 0
    · rw [if_neg (not_not.2 hne), ← hne]
      by_cases h0 : s 0 = 0
      · simp [h0]
      · rw [if_neg h0, if_neg h0, if_neg h0, ih, List.cons.injEq]
        exact (and_iff_right rfl).symm
    · rw [if_pos hne]
      refine iff_of_false (by omega) fun h => hne ?_
      by_cases hs : s 0 = 0
      · by_cases ht : t 0 = 0
        · rw [hs, ht]
        · rw [if_pos hs, if_neg ht] at h
          cases h
      · by_cases ht : t 0 = 0
        · rw [if_neg hs, if_pos ht] at h
          cases h
        · rw [if_neg hs, if_neg ht] at h
          exact (List.cons.inj h).1

/-! ## Slots -/

variable {dp : Dir} (namep : ℕ → ℕ)

/-- The number of slots that a lookup is to examine. -/
def Dir.slots (dp : Dir) : ℕ := roundup dp.i_size DIRBLKSIZ / sizeofDirect

/-- The slot `k`. -/
def Dir.slot (dp : Dir) (k : ℕ) : Option Svfsdirect :=
  (blkatoff dp (sizeofDirect * k)).map (· (FsBLKOFF dp.s_type (sizeofDirect * k)))

/-- The entry is in use, and has the name. -/
def Named (namep : ℕ → ℕ) (ep : Svfsdirect) : Prop :=
  ep.d_ino ≠ 0 ∧ chars namep SVFSDIRSIZ = chars ep.d_name SVFSDIRSIZ

/-- The inode `ino` has an entry under the name, which is not mangled. -/
def Dir.Entry (dp : Dir) (namep : ℕ → ℕ) (ino : ℕ) : Prop :=
  ∃ k < dp.slots, ∃ ep, dp.slot k = some ep ∧ ep.d_ino = ino ∧ Named namep ep ∧
    dirmangled ep = false

/-- The directory has no hole. -/
def Dir.Whole (dp : Dir) : Prop :=
  ∀ lbn, lbn * FsBSIZE dp.s_type < dp.i_size → (dp.block lbn).isSome

theorem roundup_eq (dp : Dir) : roundup dp.i_size DIRBLKSIZ = sizeofDirect * dp.slots := by
  simp only [Dir.slots, roundup, DIRBLKSIZ, DEV_BSIZE, sizeofDirect, SVFSDIRSIZ]
  omega

theorem turns_eq (k : ℕ) : turns (sizeofDirect * k) = k + 1 := by
  simp only [turns, sizeofDirect, SVFSDIRSIZ]
  omega

/-- The block of a slot is one of the directory. -/
theorem Dir.Whole.slot (h : dp.Whole) {k : ℕ} (hk : k < dp.slots) :
    ∃ b, blkatoff dp (sizeofDirect * k) = some b := by
  refine Option.isSome_iff_exists.1 (h _ ?_)
  simp only [Dir.slots, roundup, DIRBLKSIZ, DEV_BSIZE, sizeofDirect, SVFSDIRSIZ, FsBNO,
    FsBSIZE] at *
  split_ifs <;> omega

/-- The search is at the slot `k`: inside of a block, it has the block in the buffer. -/
structure At (dp : Dir) (k : ℕ) (s : Scan) : Prop where
  offset : s.offset = sizeofDirect * k
  inside : FsBLKOFF dp.s_type s.offset ≠ 0 →
    s.bp = blkatoff dp s.offset ∧ s.entryoffsetinblock = FsBLKOFF dp.s_type s.offset

/-- The next slot is in the same block, or at the beginning of one. -/
theorem blkoff_next (dp : Dir) {k : ℕ} (h : FsBLKOFF dp.s_type (sizeofDirect * (k + 1)) ≠ 0) :
    FsBNO dp.s_type (sizeofDirect * (k + 1)) = FsBNO dp.s_type (sizeofDirect * k) ∧
      FsBLKOFF dp.s_type (sizeofDirect * (k + 1)) =
        FsBLKOFF dp.s_type (sizeofDirect * k) + sizeofDirect := by
  simp only [sizeofDirect, SVFSDIRSIZ, FsBNO, FsBLKOFF] at *
  split_ifs at * <;> omega

theorem blkoff_lt (dp : Dir) (x : ℕ) : FsBLKOFF dp.s_type x < FsBSIZE dp.s_type := by
  simp only [FsBLKOFF, FsBSIZE]
  split_ifs <;> omega

/-- A turn of the search has the slot in its buffer. -/
theorem At.read {k : ℕ} {s : Scan} (h : At dp k s) {b : Block}
    (hb : blkatoff dp (sizeofDirect * k) = some b) :
    s.read dp = some ⟨some b, FsBLKOFF dp.s_type (sizeofDirect * k), sizeofDirect * k⟩ := by
  obtain ⟨bp, e, offset⟩ := s
  obtain ⟨rfl, hin⟩ := h
  rw [Scan.read]
  dsimp only at hin ⊢
  by_cases h0 : FsBLKOFF dp.s_type (sizeofDirect * k) = 0
  · rw [if_pos h0, hb, h0]
    rfl
  · obtain ⟨rfl, rfl⟩ := hin h0
    rw [if_neg h0, hb]

/-- A turn of the search goes on to the next slot. -/
theorem at_next {k : ℕ} {b : Block} (hb : blkatoff dp (sizeofDirect * k) = some b) :
    At dp (k + 1)
      (Scan.next ⟨some b, FsBLKOFF dp.s_type (sizeofDirect * k), sizeofDirect * k⟩) where
  offset := rfl
  inside h := by
    obtain ⟨h₁, h₂⟩ := blkoff_next dp (k := k) h
    refine ⟨?_, h₂.symm⟩
    rw [← hb, blkatoff, ← h₁]
    rfl

/-- What a search comes to: an entry, or none to the end. -/
inductive Searched (dp : Dir) (namep : ℕ → ℕ) (k e : ℕ) : Search → Prop
  | found {j : ℕ} {ep : Svfsdirect} : k ≤ j → j < e → dp.slot j = some ep → Named namep ep →
      dirmangled ep = false → Searched dp namep k e (.found (sizeofDirect * j) ep)
  | ended (s : Scan) : (∀ j ep, k ≤ j → j < e → dp.slot j = some ep → Named namep ep →
      dirmangled ep = true) → Searched dp namep k e (.ended s)

/-- A slot that is passed over. -/
theorem Searched.skip {namep : ℕ → ℕ} {k e : ℕ} {r : Search} {ep : Svfsdirect}
    (h : Searched dp namep (k + 1) e r) (hep : dp.slot k = some ep)
    (hn : Named namep ep → dirmangled ep = true) :
    Searched dp namep k e r := by
  cases h with
  | found h₀ h₁ hs hm hb => exact .found (by omega) h₁ hs hm hb
  | ended s h =>
    refine .ended s fun j ep' h₀ h₁ hs hm => ?_
    by_cases hj : j = k
    · subst hj
      rw [hep] at hs
      cases hs
      exact hn hm
    · exact h j ep' (by omega) h₁ hs hm

/-- One pass: the search from a slot on. -/
theorem search_spec (hd : dp.Whole) {k e n : ℕ} {s : Scan} (hs : At dp k s) (he : e ≤ dp.slots)
    (hn : e < k + n) (hk : k ≤ e) :
    Searched dp namep k e (searchloop dp namep (sizeofDirect * e) n s) := by
  induction n generalizing k s with
  | zero => omega
  | succ n ih =>
    rw [searchloop, hs.offset]
    by_cases hlt : k < e
    · rw [if_pos (by simp only [sizeofDirect, SVFSDIRSIZ]; omega)]
      obtain ⟨b, hb⟩ := hd.slot (k := k) (by omega)
      -- the slot in the buffer is the slot `k`
      have hep : Scan.ep dp ⟨some b, FsBLKOFF dp.s_type (sizeofDirect * k), sizeofDirect * k⟩ =
          some (b (FsBLKOFF dp.s_type (sizeofDirect * k))) := if_pos (blkoff_lt dp _)
      have hslot : dp.slot k = some (b (FsBLKOFF dp.s_type (sizeofDirect * k))) := by
        rw [Dir.slot, hb]
        rfl
      have hih := ih (at_next hb) (by omega) hlt
      simp only [hs.read hb, hep]
      cases hbad : dirmangled (b (FsBLKOFF dp.s_type (sizeofDirect * k))) with
      | true => exact hih.skip hslot fun _ => hbad
      | false =>
        rw [if_neg Bool.false_ne_true]
        by_cases hm : Named namep (b (FsBLKOFF dp.s_type (sizeofDirect * k)))
        · rw [if_pos ⟨hm.1, (strncmp_eq_zero_iff _ _ _).2 hm.2⟩]
          exact .found le_rfl hlt hslot hm hbad
        · rw [if_neg fun h => hm ⟨h.1, (strncmp_eq_zero_iff _ _ _).1 h.2⟩]
          exact hih.skip hslot fun h => absurd h hm
    · rw [if_neg (by simp only [sizeofDirect, SVFSDIRSIZ]; omega)]
      exact .ended s fun j ep h₀ h₁ => by omega

/-- All the passes: the search of the whole directory. -/
theorem passes_spec (hd : dp.Whole) {k : ℕ} (hk : dp.i_diroff = sizeofDirect * k)
    (hle : dp.i_diroff ≤ dp.i_size) : Searched dp namep 0 dp.slots (passes dp namep) := by
  have hks : k ≤ dp.slots := by
    simp only [Dir.slots, roundup, DIRBLKSIZ, DEV_BSIZE, sizeofDirect, SVFSDIRSIZ] at *
    omega
  simp only [passes, roundup_eq, turns_eq]
  by_cases h0 : dp.i_diroff = 0
  · rw [if_pos h0]
    exact search_spec namep hd ⟨rfl, fun h => absurd (by simp [FsBLKOFF]) h⟩ le_rfl (by omega)
      (Nat.zero_le _)
  rw [if_neg h0]
  have hin : FsBLKOFF dp.s_type dp.i_diroff ≠ 0 → (blkatoff dp dp.i_diroff).isSome := by
    intro hne
    refine hd _ ?_
    simp only [FsBLKOFF, FsBNO, FsBSIZE] at *
    split_ifs at * <;> omega
  rw [if_neg (fun h => by have := hin h.1; simp_all)]
  have hat : At dp k ⟨if FsBLKOFF dp.s_type dp.i_diroff ≠ 0 then blkatoff dp dp.i_diroff else none,
      FsBLKOFF dp.s_type dp.i_diroff, dp.i_diroff⟩ := ⟨hk, fun h => ⟨if_pos h, rfl⟩⟩
  have h₁ := search_spec namep hd hat le_rfl (n := dp.slots + 1) (by omega) hks
  generalize searchloop dp namep (sizeofDirect * dp.slots) (dp.slots + 1) _ = r at h₁
  cases h₁ with
  | found hkj hj hs hm hb => exact .found (by omega) hj hs hm hb
  | ended s h₁ =>
    -- the second pass reads the first block again
    have hat₀ : At dp 0 { s with offset := 0 } := ⟨rfl, fun h => absurd (by simp [FsBLKOFF]) h⟩
    have h₂ := search_spec namep hd hat₀ hks (n := k + 1) (by omega) (by omega)
    dsimp only
    rw [hk, turns_eq]
    generalize searchloop dp namep (sizeofDirect * k) (k + 1) _ = r at h₂
    cases h₂ with
    | found hkj hj hs hm hb => exact .found hkj (by omega) hs hm hb
    | ended s h₂ =>
      refine .ended s fun j ep h₀ hj hs hm => ?_
      by_cases hjk : j < k
      · exact h₂ j ep h₀ hjk hs hm
      · exact h₁ j ep (by omega) hj hs hm

/-! ## Lookups -/

/-- Where a search may start; every call leaves it so. -/
def Dir.Aligned (dp : Dir) : Prop := sizeofDirect ∣ dp.i_diroff

/-- A lookup finds an inode with an entry under the name, or none where there is none. -/
inductive Looked (dp : Dir) (namep : ℕ → ℕ) (iget : ℕ → Option Errno) : Dir × Ret → Prop
  | entry {j : ℕ} {ino : ℕ} : dp.Entry namep ino →
      Looked dp namep iget ({ dp with i_diroff := sizeofDirect * j }, got dp namep iget ino)
  | none {diroff : ℕ} : sizeofDirect ∣ diroff → (∀ ino, ¬dp.Entry namep ino) →
      Looked dp namep iget ({ dp with i_diroff := diroff }, .error .enoent)

/-- Without the name cache, a lookup ends so, wherever it starts. -/
theorem dirlook_looked (dp : Dir) (hd : dp.Whole) (ha : dp.Aligned) (iget : ℕ → Option Errno) :
    ∃ r, dirlook dp namep none none iget = some r ∧ Looked dp namep iget r := by
  obtain ⟨k, hk⟩ := ha
  -- the start that the passes use, past the end or not
  obtain ⟨d, hd', hle, k', hk'⟩ : ∃ d, (if dp.i_diroff > dp.i_size then { dp with i_diroff := 0 }
      else dp) = { dp with i_diroff := d } ∧ d ≤ dp.i_size ∧ sizeofDirect ∣ d := by
    by_cases hgt : dp.i_diroff > dp.i_size
    · exact ⟨0, if_pos hgt, Nat.zero_le _, dvd_zero _⟩
    · exact ⟨dp.i_diroff, if_neg hgt, not_lt.1 hgt, k, hk⟩
  have h : Searched { dp with i_diroff := d } namep 0 dp.slots _ := passes_spec namep hd hk' hle
  simp only [dirlook, hd']
  generalize passes { dp with i_diroff := d } namep = r at h
  cases h with
  | found _ hj hs hm hb => exact ⟨_, rfl, .entry ⟨_, hj, _, hs, rfl, hm, hb⟩⟩
  | ended s h =>
    refine ⟨_, rfl, .none ⟨k', hk'⟩ ?_⟩
    rintro ino ⟨j, hj, ep, hs, -, hm, hb⟩
    rw [h j ep (Nat.zero_le _) hj hs hm] at hb
    cases hb

/-- Without the name cache, a lookup in a directory without holes finds an entry if there is
    one under the name that is not mangled, wherever it starts; it never reads outside of
    a block of the directory; and if no two inodes have the name, what it returns does not
    depend on where it starts. -/
theorem dirlook_entry (hd : dp.Whole) (ha : dp.Aligned) (iget : ℕ → Option Errno) :
    ∃ dp' r, dirlook dp namep none none iget = some (dp', r) ∧ dp'.Aligned ∧
      ((∃ ino, dp.Entry namep ino) → ∃ ino, dp.Entry namep ino ∧ r = got dp namep iget ino) ∧
      ((∀ ino, ¬dp.Entry namep ino) → r = .error .enoent) ∧
      ((∀ i j, dp.Entry namep i → dp.Entry namep j → i = j) → ∀ diroff, sizeofDirect ∣ diroff →
        ∃ dp'', dirlook { dp with i_diroff := diroff } namep none none iget = some (dp'', r)) := by
  obtain ⟨r, hr, hl⟩ := dirlook_looked namep dp hd ha iget
  cases hl with
  | @entry j ino hino =>
    refine ⟨_, _, hr, ⟨j, rfl⟩, fun _ => ⟨ino, hino, rfl⟩, fun hno => absurd hino (hno ino), ?_⟩
    intro huniq diroff hdvd
    obtain ⟨r', hr', hl'⟩ :=
      dirlook_looked namep { dp with i_diroff := diroff } hd hdvd iget
    cases hl' with
    | entry hino' =>
      rw [huniq _ _ hino' hino] at hr'
      exact ⟨_, hr'⟩
    | none _ hno => exact absurd hino (hno ino)
  | none hdvd hno =>
    refine ⟨_, _, hr, hdvd, fun ⟨ino, hino⟩ => absurd hino (hno ino), fun _ => rfl, ?_⟩
    intro _ diroff hdvd
    obtain ⟨r', hr', hl'⟩ :=
      dirlook_looked namep { dp with i_diroff := diroff } hd hdvd iget
    cases hl' with
    | entry hino' => exact absurd hino' (hno _)
    | none _ _ => exact ⟨_, hr'⟩

/-- The name with the one character `c`. -/
def single (c : ℕ) : ℕ → ℕ := fun i => if i = 0 then c else 0

/-- A directory of four slots in one block, with an inode under `"a"` twice, and one under
    a name with the high bit. -/
def small : Dir where
  i_number := 2
  i_size := 64
  i_diroff := 0
  s_type := Fs1b
  block lbn := if lbn = 0 then some fun off =>
    if off = 16 then ⟨5, single 97⟩ else if off = 32 then ⟨6, single 97⟩
    else if off = 48 then ⟨7, single 200⟩ else ⟨0, single 0⟩ else none

theorem whole_small : small.Whole := by
  intro lbn h
  change lbn * 512 < 64 at h
  obtain rfl : lbn = 0 := by omega
  rfl

theorem dirlook_entry_small : ∃ dp' r, dirlook small (single 97) none none (fun _ => none) =
      some (dp', r) ∧ dp'.Aligned ∧
      ((∃ ino, small.Entry (single 97) ino) → ∃ ino, small.Entry (single 97) ino ∧
        r = got small (single 97) (fun _ => none) ino) := by
  obtain ⟨dp', r, h₁, h₂, h₃, -⟩ :=
    dirlook_entry (single 97) whole_small (dvd_zero _) fun _ => none
  exact ⟨dp', r, h₁, h₂, h₃⟩

/-- The entry in use with the high bit in its name is not found; and which of the entries
    under one name is found depends on where the search starts. -/
theorem not_dirlook : (∃ ep, small.slot 3 = some ep ∧ Named (single 200) ep ∧
      (dirlook small (single 200) none none fun _ => none).map (·.2) = some (.error .enoent)) ∧
    (dirlook small (single 97) none none fun _ => none).map (·.2) = some (.inode 5) ∧
    (dirlook { small with i_diroff := 32 } (single 97) none none fun _ => none).map (·.2) =
      some (.inode 6) := by
  refine ⟨⟨⟨7, single 200⟩, rfl, ⟨by decide, rfl⟩, by decide⟩, by decide, by decide⟩

end AuxKernel.Svfs.Directory
