import Mathlib.Data.List.ModifyLast
import AuxKernel.Svfs.Readdir

/-!
# What a listing of a directory delivers

The invariant of `svfs_readdir` (`Filled`): the blocks that have been delivered are full of records,
and so is the block that is being filled, up to `transferBase`; the records show the slots of the
directory, one after the other.

* `canonical_reclen`: how long the record of a slot is;
* `Filled.convert`, `Sound.step`: what a step preserves, with the blocks that it leads to
  (`Listing.next`); it does not panic;
* `readdir_exact`: what a call, and a row of calls, delivers.
-/

namespace AuxKernel.Svfs.Readdir

open Directory Memory

/-- What a record says of a slot: the inode, and the name with its length. -/
def Direct.entry (r : Direct) : ℕ × ℕ × List ℕ := (r.d_ino, r.d_namlen, r.d_name)

/-- What a slot has to say. -/
def File.entry (f : File) (i : ℕ) : ℕ × ℕ × List ℕ :=
  ((f.slot i).d_ino, (chars (f.slot i).d_name SVFSDIRSIZ).length,
    chars (f.slot i).d_name SVFSDIRSIZ)

theorem length_chars_le (s : ℕ → ℕ) (n : ℕ) : (chars s n).length ≤ n := by
  induction n generalizing s with
  | zero => exact Nat.le_refl 0
  | succ n ih =>
    rw [chars]
    split_ifs
    · exact Nat.zero_le _
    · exact Nat.succ_le_succ (ih _)

/-- The record of a slot has 12 to 24 bytes. -/
theorem canonical_reclen (dp : Svfsdirect) :
    0 < (canonical dp).d_reclen ∧ (canonical dp).d_reclen ≤ 24 := by
  have hlen : (chars dp.d_name SVFSDIRSIZ).length ≤ 14 := length_chars_le dp.d_name SVFSDIRSIZ
  simp only [canonical]
  split_ifs <;> omega

theorem canonical_entry (f : File) (i : ℕ) : (canonical (f.slot i)).entry = f.entry i := rfl

theorem stretch_entry (count : ℕ) (r : Direct) : (r.stretch count).entry = r.entry := rfl

variable {f : File} {b total i : ℕ} {blocks : List (List Direct)} {cur : List Direct}
  {l l' : Listing} {dirbuf dirbuf' : Memory Direct}

/-- The memory that blocks are filled in. -/
def Listing.buffer (l : Listing) (dirbuf : Memory Direct) : Memory Direct :=
  if l.user then dirbuf else l.dest

/-- Where the block that is being filled begins, behind `n` blocks from `b` on. -/
def Listing.start (l : Listing) (b n : ℕ) : ℕ := if l.user then 0 else b + DIRBLKSIZ * n

/-- A listing that has begun with the slot `i` and is to transfer `total` bytes to `b` has filled
    the blocks `blocks`, and a part of a block with `cur`. -/
structure Filled (f : File) (b total i : ℕ) (blocks : List (List Direct)) (cur : List Direct)
    (l : Listing) (dirbuf : Memory Direct) : Prop where
  offset : l.uio_offset = sizeofDirect * (i + (blocks.flatten ++ cur).length)
  entries : (blocks.flatten ++ cur).map Direct.entry =
    (List.range' i (blocks.flatten ++ cur).length).map f.entry
  full : Blocks Direct.d_reclen DIRBLKSIZ l.dest b blocks (b + DIRBLKSIZ * blocks.length)
  chain : Chain Direct.d_reclen (l.buffer dirbuf) (l.start b blocks.length) cur l.transferBase
  transferEnd : l.transferEnd = l.start b blocks.length + DIRBLKSIZ
  le : l.transferBase ≤ l.transferEnd
  last : cur ≠ [] → ∃ init r p, cur = init ++ [r] ∧ l.previousDirPtr = some p ∧
    Chain Direct.d_reclen (l.buffer dirbuf) (l.start b blocks.length) init p ∧
      Chain Direct.d_reclen (l.buffer dirbuf) p [r] l.transferBase
  base : l.iov_base = b + DIRBLKSIZ * blocks.length + (l.transferBase - l.start b blocks.length)
  resid : l.uio_resid + DIRBLKSIZ * blocks.length +
    (l.transferBase - l.start b blocks.length) = total
  dvd : DIRBLKSIZ ∣ total
  user : l.user → l.userBaseAddr = b + DIRBLKSIZ * blocks.length
  bound : blocks.flatten ++ cur ≠ [] → l.uio_offset < f.i_size + sizeofDirect

/-- The places where a listing may be, without an error. -/
def AtPc (f : File) (l : Listing) (dirbuf : Memory Direct) : Pc → Prop
  | .lock => l.user → l.transferBase < DIRBLKSIZ
  | .loop => l.user → l.transferBase < DIRBLKSIZ
  | .read => (l.user → l.transferBase < DIRBLKSIZ) ∧ 0 < l.uio_resid ∧ l.uio_offset < f.i_size
  | .copyout k => l.user ∧ l.transferBase = DIRBLKSIZ ∧ k < DIRBLKSIZ ∧
      ∀ c < k, l.dest (l.userBaseAddr + c) = dirbuf c
  | .done none => (l.user → l.transferBase < DIRBLKSIZ) ∧
      (l.uio_resid = 0 ∨ f.i_size ≤ l.uio_offset)
  | .done (some _) => True

/-- A listing without an error: at the end of the directory, the block is full. -/
structure Sound (f : File) (b total i : ℕ) (blocks : List (List Direct)) (cur : List Direct)
    (l : Listing) (dirbuf : Memory Direct) : Prop where
  atPc : AtPc f l dirbuf l.pc
  filled : Filled f b total i blocks cur l dirbuf
  ended : f.i_size ≤ l.uio_offset → cur ≠ [] → l.transferBase = l.transferEnd

/-- The invariant of a listing. -/
def Inv (f : File) (b total i : ℕ) (l : Listing) (dirbuf : Memory Direct) : Prop :=
  (∃ e, l.pc = .done (some e)) ∨ ∃ blocks cur, Sound f b total i blocks cur l dirbuf

/-- The blocks that have been delivered, and the one that is being filled, after a conversion. -/
def Listing.fill (l : Listing) (f : File) (blocks : List (List Direct)) (cur : List Direct) :
    List (List Direct) × List Direct :=
  let r := canonical (f.slot (l.uio_offset / sizeofDirect))
  if l.transferBase + r.d_reclen > l.transferEnd then
    let cur' := cur.modifyLast (Direct.stretch (l.transferEnd - l.transferBase))
    if l.user then (blocks, cur') else (blocks ++ [cur'], [])
  else if l.uio_offset + sizeofDirect ≥ f.i_size then
    (blocks, (cur ++ [r]).modifyLast
      (Direct.stretch (l.transferEnd - (l.transferBase + r.d_reclen))))
  else (blocks, cur ++ [r])

/-! ## One conversion -/

/-- The bytes that are left make up whole blocks. -/
theorem Filled.room (h : Filled f b total i blocks cur l dirbuf) (hresid : 0 < l.uio_resid) :
    l.transferEnd - l.transferBase ≤ l.uio_resid := by
  have hresid' := h.resid
  have hend := h.transferEnd
  have hle := h.chain.le
  have hle' := h.le
  obtain ⟨t, ht⟩ := h.dvd
  rw [DIRBLKSIZ, DEV_BSIZE] at *
  omega

/-- What the block that is being filled has to do with the ones before it. -/
theorem Filled.full_congr (h : Filled f b total i blocks cur l dirbuf) (huser : l'.user = l.user)
    (hdest : l.user → l'.dest = l.dest)
    (hbuffer : ∀ c < l.start b blocks.length, l'.buffer dirbuf' c = l.buffer dirbuf c) :
    Blocks Direct.d_reclen DIRBLKSIZ l'.dest b blocks (b + DIRBLKSIZ * blocks.length) := by
  cases hu : l.user with
  | true =>
    rw [hdest hu]
    exact h.full
  | false =>
    refine h.full.congr fun c _ hc => ?_
    have hbuf := hbuffer c (by rw [Listing.start, hu]; exact hc)
    rw [Listing.buffer, Listing.buffer, huser, hu] at hbuf
    exact hbuf

/-- A record is put in the block. -/
theorem Filled.put {r : Direct} (h : Filled f b total i blocks cur l dirbuf)
    (hsize : l.uio_offset < f.i_size) (hr : r.entry = f.entry (l.uio_offset / sizeofDirect))
    (hpos : 0 < r.d_reclen) (huser : l'.user = l.user) (hdest : l.user → l'.dest = l.dest)
    (hbuffer : l'.buffer dirbuf' = Memory.put Direct.d_reclen (l.buffer dirbuf) l.transferBase r)
    (hoffset : l'.uio_offset = l.uio_offset + sizeofDirect)
    (hprev : l'.previousDirPtr = some l.transferBase)
    (hbase : l'.transferBase = l.transferBase + r.d_reclen) (hend : l'.transferEnd = l.transferEnd)
    (hfit : l.transferBase + r.d_reclen ≤ l.transferEnd)
    (hiov : l'.iov_base = l.iov_base + r.d_reclen)
    (hresid : l'.uio_resid + r.d_reclen = l.uio_resid)
    (huserBase : l'.userBaseAddr = l.userBaseAddr) :
    Filled f b total i blocks (cur ++ [r]) l' dirbuf' := by
  have hstart : l'.start b blocks.length = l.start b blocks.length := by
    rw [Listing.start, Listing.start, huser]
  have hlt : ∀ c < l.transferBase, l'.buffer dirbuf' c = l.buffer dirbuf c := by
    intro c hc
    rw [hbuffer]
    exact put_of_lt hc
  have hle := h.chain.le
  have hslot : l.uio_offset / sizeofDirect = i + (blocks.flatten ++ cur).length := by
    rw [h.offset]
    exact Nat.mul_div_cancel_left _ (by decide)
  have hlength : (blocks.flatten ++ (cur ++ [r])).length = (blocks.flatten ++ cur).length + 1 := by
    rw [← List.append_assoc, List.length_append]
    rfl
  have hchain : Chain Direct.d_reclen (l'.buffer dirbuf') (l'.start b blocks.length) (cur ++ [r])
      l'.transferBase := by
    rw [hstart, hbuffer, hbase]
    exact h.chain.put hpos
  refine ⟨?_, ?_, h.full_congr huser hdest fun c hc => hlt c (by omega), hchain, ?_, ?_,
    fun _ => ⟨cur, r, l.transferBase, rfl, hprev, ?_, ?_⟩, ?_, ?_, h.dvd, fun hu => ?_,
    fun _ => hoffset ▸ Nat.add_lt_add_right hsize _⟩
  · rw [hoffset, h.offset, hlength, ← Nat.add_assoc, Nat.mul_succ]
  · have hmap : (blocks.flatten ++ cur ++ [r]).map Direct.entry =
        (List.range' i (blocks.flatten ++ cur).length).map f.entry ++
          [f.entry (i + (blocks.flatten ++ cur).length)] := by
      rw [List.map_append, h.entries, List.map_singleton, hr, hslot]
    rw [hlength, List.range'_1_concat, ← List.append_assoc, hmap, List.map_append,
      List.map_singleton]
  · rw [hend, h.transferEnd, hstart]
  · rw [hbase, hend]
    exact hfit
  · rw [hstart]
    exact h.chain.congr fun c _ hc => hlt c hc
  · rw [hbuffer, hbase]
    exact ⟨if_pos rfl, hpos, rfl⟩
  · rw [hiov, h.base, hbase, hstart]
    omega
  · have hresid' := h.resid
    rw [hbase, hstart]
    omega
  · rw [huserBase]
    exact h.user (huser ▸ hu)

/-- The last record in the block is made longer. -/
theorem Filled.stretch {count : ℕ} (h : Filled f b total i blocks cur l dirbuf) (hcur : cur ≠ [])
    (huser : l'.user = l.user) (hdest : l.user → l'.dest = l.dest)
    (hbuffer : ∀ p, l.previousDirPtr = some p →
      l'.buffer dirbuf' = Memory.modify (l.buffer dirbuf) p (Direct.stretch count))
    (hoffset : l'.uio_offset = l.uio_offset) (hprev : l'.previousDirPtr = l.previousDirPtr)
    (hbase : l'.transferBase = l.transferBase + count) (hend : l'.transferEnd = l.transferEnd)
    (hfit : l.transferBase + count ≤ l.transferEnd)
    (hiov : l'.iov_base = l.iov_base + count) (hresid : l'.uio_resid + count = l.uio_resid)
    (huserBase : l'.userBaseAddr = l.userBaseAddr) :
    Filled f b total i blocks (cur.modifyLast (Direct.stretch count)) l' dirbuf' := by
  obtain ⟨init, r, p, rfl, hp, hinit, hr⟩ := h.last hcur
  rw [List.modifyLast_concat]
  have hstart : l'.start b blocks.length = l.start b blocks.length := by
    rw [Listing.start, Listing.start, huser]
  have hlt : ∀ c < p, l'.buffer dirbuf' c = l.buffer dirbuf c := by
    intro c hc
    rw [hbuffer p hp]
    exact modify_of_ne hc.ne
  have hle := hinit.le
  have hlength : (blocks.flatten ++ (init ++ [r.stretch count])).length =
      (blocks.flatten ++ (init ++ [r])).length := by
    simp only [List.length_append, List.length_singleton]
  have hentries : (blocks.flatten ++ (init ++ [r.stretch count])).map Direct.entry =
      (blocks.flatten ++ (init ++ [r])).map Direct.entry := by
    simp only [List.map_append, List.map_singleton, stretch_entry]
  refine ⟨?_, ?_,
    h.full_congr huser hdest fun c hc => hlt c (by omega), ?_, ?_, ?_,
    fun _ => ⟨init, r.stretch count, p, rfl, hprev.trans hp, ?_, ?_⟩, ?_, ?_, h.dvd, fun hu => ?_,
    fun _ => hoffset ▸ h.bound (by simp)⟩
  · rw [hoffset, h.offset, hlength]
  · rw [hlength, hentries, h.entries]
  · rw [hstart, hbuffer p hp, hbase]
    exact hinit.modify hr rfl
  · rw [hend, h.transferEnd, hstart]
  · rw [hbase, hend]
    exact hfit
  · rw [hstart]
    exact hinit.congr fun c _ hc => hlt c hc
  · rw [hbuffer p hp, hbase]
    exact (show Chain _ _ p [] p from rfl).modify hr rfl
  · rw [hiov, h.base, hbase, hstart]
    have hle' := h.chain.le
    omega
  · have hresid' := h.resid
    have hle' := h.chain.le
    rw [hbase, hstart]
    omega
  · rw [huserBase]
    exact h.user (huser ▸ hu)

/-- A full block is delivered: the next one begins where it ends. -/
theorem Filled.commit (h : Filled f b total i blocks cur l dirbuf)
    (hfull : l.transferBase = l.transferEnd) (huser : l'.user = l.user)
    (hdest : Chain Direct.d_reclen l'.dest (b + DIRBLKSIZ * blocks.length) cur
      (b + DIRBLKSIZ * blocks.length + DIRBLKSIZ))
    (hbefore : ∀ c < b + DIRBLKSIZ * blocks.length, l'.dest c = l.dest c)
    (hoffset : l'.uio_offset = l.uio_offset) (hresid : l'.uio_resid = l.uio_resid)
    (hiov : l'.iov_base = l.iov_base)
    (hbase : l'.transferBase = l'.start b (blocks.length + 1))
    (hend : l'.transferEnd = l'.transferBase + DIRBLKSIZ)
    (huserBase : l.user → l'.userBaseAddr = l.iov_base) :
    Filled f b total i (blocks ++ [cur]) [] l' dirbuf' := by
  have hlen : (blocks ++ [cur]).length = blocks.length + 1 := by simp
  have hflat : (blocks ++ [cur]).flatten ++ [] = blocks.flatten ++ cur := by simp
  have hmul : DIRBLKSIZ * (blocks.length + 1) = DIRBLKSIZ * blocks.length + DIRBLKSIZ :=
    Nat.mul_succ _ _
  have hmoved : l.transferBase - l.start b blocks.length = DIRBLKSIZ := by
    rw [hfull, h.transferEnd, Nat.add_sub_cancel_left]
  have hiov' : l'.iov_base = b + DIRBLKSIZ * (blocks.length + 1) := by
    rw [hiov, h.base, hmoved, hmul, Nat.add_assoc]
  refine ⟨?_, ?_, ?_, ?_, ?_, ?_, fun hne => absurd rfl hne, ?_, ?_, h.dvd, fun hu => ?_,
    fun hne => hoffset ▸ h.bound (hflat ▸ hne)⟩
  · rw [hflat, hoffset, h.offset]
  · rw [hflat, h.entries]
  · have hbefore' := h.full.congr fun c _ hc => hbefore c hc
    have hsnoc := hbefore'.snoc hdest
    rw [hlen, hmul, ← Nat.add_assoc]
    exact hsnoc
  · rw [hlen]
    exact hbase.symm
  · rw [hlen, hend, hbase]
  · rw [hend]
    exact Nat.le_add_right _ _
  · rw [hlen, hbase, Nat.sub_self]
    exact hiov'
  · rw [hlen, hbase, Nat.sub_self, Nat.add_zero, hresid, hmul, ← Nat.add_assoc]
    have hresid' := h.resid
    rw [hmoved] at hresid'
    exact hresid'
  · rw [hlen, huserBase (huser ▸ hu), ← hiov, hiov']

theorem Listing.onBuffer_user (l : Listing) {g : Memory Direct → Memory Direct} (hu : l.user) :
    l.onBuffer dirbuf g = (l, g dirbuf) :=
  if_pos hu

theorem Listing.onBuffer_kernel (l : Listing) {g : Memory Direct → Memory Direct}
    (hu : l.user = false) : l.onBuffer dirbuf g = ({ l with dest := g l.dest }, dirbuf) :=
  if_neg (Bool.eq_false_iff.1 hu)

/-- Only the memory that blocks are filled in changes. -/
theorem Listing.onBuffer_spec (l : Listing) (dirbuf : Memory Direct)
    (g : Memory Direct → Memory Direct) :
    ∃ dest' dirbuf', l.onBuffer dirbuf g = ({ l with dest := dest' }, dirbuf') ∧
      (l.user → dest' = l.dest) ∧ (l.user = false → dirbuf' = dirbuf) ∧
        (if l.user then dirbuf' else dest') = g (l.buffer dirbuf) := by
  by_cases hu : l.user
  · refine ⟨l.dest, g dirbuf, l.onBuffer_user hu, fun _ => rfl, fun hu' => ?_, ?_⟩
    · cases hu.symm.trans hu'
    · rw [if_pos hu, buffer, if_pos hu]
  · refine ⟨g l.dest, dirbuf, l.onBuffer_kernel (Bool.eq_false_iff.2 hu), fun hu' => absurd hu' hu,
      fun _ => rfl, ?_⟩
    rw [if_neg hu, buffer, if_neg hu]

/-- The conversion of a slot whose record does not fit. -/
theorem Listing.convert_eq_next (l : Listing) (f : File) (dirbuf : Memory Direct) {p : ℕ}
    (hfit : l.transferBase + (canonical (f.slot (l.uio_offset / sizeofDirect))).d_reclen >
      l.transferEnd) (hprev : l.previousDirPtr = some p) :
    l.convert f dirbuf =
      let s := l.onBuffer dirbuf
        (Memory.modify · p (Direct.stretch (l.transferEnd - l.transferBase)))
      some ({ s.1 with
        transferEnd := if l.user then l.transferEnd else l.transferEnd + DIRBLKSIZ }.transfer
          l.transferEnd (l.transferEnd - l.transferBase), s.2) := by
  rw [convert]
  dsimp only
  rw [if_pos hfit, hprev, Option.map_some]
  cases hu : l.user <;> simp [onBuffer, hu]

/-- A record that does not fit goes to the next block: the last one takes the rest of this one. -/
theorem Filled.convert_next (h : Filled f b total i blocks cur l dirbuf) (hresid : 0 < l.uio_resid)
    (hfit : l.transferBase + (canonical (f.slot (l.uio_offset / sizeofDirect))).d_reclen >
      l.transferEnd) :
    ∃ l' dirbuf', l.convert f dirbuf = some (l', dirbuf') ∧
      Sound f b total i (l.fill f blocks cur).1 (l.fill f blocks cur).2 l' dirbuf' := by
  have hroom := h.room hresid
  have hle := h.le
  have hend := h.transferEnd
  have hreclen := canonical_reclen (f.slot (l.uio_offset / sizeofDirect))
  -- A record fits in an empty block, so that there is one before this one.
  have hcur : cur ≠ [] := by
    rintro rfl
    have hstart : l.start b blocks.length = l.transferBase := h.chain
    rw [DIRBLKSIZ, DEV_BSIZE] at hend
    omega
  obtain ⟨-, -, p, -, hprev, -, -⟩ := h.last hcur
  have hconvert := l.convert_eq_next f dirbuf hfit hprev
  rw [Listing.fill]
  dsimp only
  rw [if_pos hfit]
  cases hu : l.user with
  | true =>
    have hstart : l.start b blocks.length = 0 := if_pos hu
    rw [hstart, Nat.zero_add] at hend
    rw [l.onBuffer_user hu, if_pos hu] at hconvert
    refine ⟨_, _, hconvert, ?_⟩
    rw [if_pos rfl]
    have hstretch : Filled f b total i blocks
        (cur.modifyLast (Direct.stretch (l.transferEnd - l.transferBase)))
        (l.transfer l.transferEnd (l.transferEnd - l.transferBase))
        (dirbuf.modify p (Direct.stretch (l.transferEnd - l.transferBase))) := by
      refine h.stretch hcur rfl (fun _ => rfl) ?_ rfl rfl (Nat.add_sub_of_le hle).symm rfl
        (Nat.add_sub_of_le hle).le rfl (Nat.sub_add_cancel hroom) rfl
      intro q hq
      obtain rfl := Option.some.inj (hprev.symm.trans hq)
      exact (if_pos hu).trans (congrArg (Memory.modify · p _) (if_pos hu).symm)
    have hpc : (l.transfer l.transferEnd (l.transferEnd - l.transferBase)).pc = .copyout 0 :=
      if_pos ⟨hu, hend.ge⟩
    refine ⟨?_, hstretch, fun _ _ => rfl⟩
    change AtPc _ _ _ (l.transfer l.transferEnd (l.transferEnd - l.transferBase)).pc
    rw [hpc]
    exact ⟨hu, hend, by decide, fun c hc => absurd hc (Nat.not_lt_zero c)⟩
  | false =>
    rw [l.onBuffer_kernel hu, if_neg (Bool.eq_false_iff.1 hu)] at hconvert
    refine ⟨_, _, hconvert, ?_⟩
    have hstart : l.start b blocks.length = b + DIRBLKSIZ * blocks.length :=
      if_neg (Bool.eq_false_iff.1 hu)
    have hkernel := Bool.eq_false_iff.1 hu
    let l₁ : Listing :=
      { l with dest := l.dest.modify p (Direct.stretch (l.transferEnd - l.transferBase)) }.transfer
        l.transferEnd (l.transferEnd - l.transferBase)
    have hbuffer : l₁.buffer dirbuf =
        l.dest.modify p (Direct.stretch (l.transferEnd - l.transferBase)) := if_neg hkernel
    rw [if_neg (by decide)]
    have hstretch : Filled f b total i blocks
        (cur.modifyLast (Direct.stretch (l.transferEnd - l.transferBase))) l₁ dirbuf := by
      refine h.stretch hcur rfl (fun hu' => absurd hu' hkernel) ?_ rfl rfl
        (Nat.add_sub_of_le hle).symm rfl (Nat.add_sub_of_le hle).le rfl
        (Nat.sub_add_cancel hroom) rfl
      intro q hq
      obtain rfl := Option.some.inj (hprev.symm.trans hq)
      exact hbuffer.trans (congrArg (Memory.modify · p _) (if_neg hkernel).symm)
    have hdest := hstretch.chain
    have hbase₁ : l₁.transferBase = b + DIRBLKSIZ * blocks.length + DIRBLKSIZ := by
      rw [← hstart]
      exact hend
    have hstart₁ : l₁.start b blocks.length = b + DIRBLKSIZ * blocks.length := if_neg hkernel
    rw [hbuffer, hstart₁, hbase₁] at hdest
    let l₂ : Listing :=
      { l with
        dest := l.dest.modify p (Direct.stretch (l.transferEnd - l.transferBase))
        transferEnd := l.transferEnd + DIRBLKSIZ }.transfer
        l.transferEnd (l.transferEnd - l.transferBase)
    have hpc : l₂.pc = .loop := if_neg fun hu' => hkernel hu'.1
    have hstart₂ : l₂.start b (blocks.length + 1) = b + DIRBLKSIZ * (blocks.length + 1) :=
      if_neg hkernel
    have hcommit : Filled f b total i
        (blocks ++ [cur.modifyLast (Direct.stretch (l.transferEnd - l.transferBase))]) [] l₂
          dirbuf := by
      refine hstretch.commit rfl rfl hdest (fun _ _ => rfl) rfl rfl rfl ?_ rfl
        fun hu' => absurd hu' hkernel
      rw [hstart₂, Nat.mul_succ, ← Nat.add_assoc]
      exact hbase₁
    refine ⟨?_, hcommit, fun _ hne => absurd rfl hne⟩
    change AtPc f l₂ dirbuf l₂.pc
    rw [hpc]
    exact fun hu' => absurd hu' hkernel

/-- A record that fits is put in the block; the last one of the directory takes the rest of it. -/
theorem Filled.convert_here (h : Filled f b total i blocks cur l dirbuf) (hresid : 0 < l.uio_resid)
    (hsize : l.uio_offset < f.i_size)
    (hfit : ¬ l.transferBase + (canonical (f.slot (l.uio_offset / sizeofDirect))).d_reclen >
      l.transferEnd) :
    ∃ l' dirbuf', l.convert f dirbuf = some (l', dirbuf') ∧
      Sound f b total i (l.fill f blocks cur).1 (l.fill f blocks cur).2 l' dirbuf' := by
  have hroom := h.room hresid
  have hpos := (canonical_reclen (f.slot (l.uio_offset / sizeofDirect))).1
  have hentry : (canonical (f.slot (l.uio_offset / sizeofDirect))).entry =
      f.entry (l.uio_offset / sizeofDirect) := rfl
  rw [Listing.convert, Listing.fill]
  dsimp only
  rw [if_neg hfit, if_neg hfit]
  rw [not_lt] at hfit
  generalize canonical (f.slot (l.uio_offset / sizeofDirect)) = r at hfit hpos hentry ⊢
  obtain ⟨dest₁, dirbuf₁, hput, hdest₁, -, hbuffer₁⟩ :=
    l.onBuffer_spec dirbuf (Memory.put Direct.d_reclen · l.transferBase r)
  rw [hput]
  dsimp only
  let l₁ : Listing :=
    { l with
      dest := dest₁
      uio_offset := l.uio_offset + sizeofDirect
      previousDirPtr := some l.transferBase }.transfer (l.transferBase + r.d_reclen) r.d_reclen
  have hcount : r.d_reclen ≤ l.uio_resid := by omega
  have h₁ : Filled f b total i blocks (cur ++ [r]) l₁ dirbuf₁ :=
    h.put hsize hentry hpos rfl hdest₁ hbuffer₁ rfl rfl rfl rfl hfit rfl
      (Nat.sub_add_cancel hcount) rfl
  -- Either way, a block for a user is copied out if it is full.
  have hpc : ∀ (m : Listing) (d : Memory Direct) (base count : ℕ), base ≤ l.transferEnd →
      m.user = l.user → AtPc f (m.transfer base count) d (m.transfer base count).pc := by
    intro m d base count hbase huser
    by_cases hcopy : m.user ∧ base ≥ DIRBLKSIZ
    · have hend := h.transferEnd
      have hstart : l.start b blocks.length = 0 := if_pos (huser ▸ hcopy.1)
      have hcopyout : (m.transfer base count).pc = .copyout 0 := if_pos hcopy
      have hle : base ≤ DIRBLKSIZ := by omega
      rw [hcopyout]
      exact ⟨hcopy.1, le_antisymm hle hcopy.2, by decide,
        fun c hc => absurd hc (Nat.not_lt_zero c)⟩
    · have hloop : (m.transfer base count).pc = .loop := if_neg hcopy
      rw [hloop]
      exact fun hu => not_le.1 fun hle => hcopy ⟨hu, hle⟩
  by_cases hended : l.uio_offset + sizeofDirect ≥ f.i_size
  · rw [if_pos hended, if_pos hended]
    obtain ⟨dest₂, dirbuf₂, hstretch, hdest₂, -, hbuffer₂⟩ :=
      Listing.onBuffer_spec { l with
        dest := dest₁
        uio_offset := l.uio_offset + sizeofDirect
        previousDirPtr := some l.transferBase } dirbuf₁ (Memory.modify · l.transferBase
          (Direct.stretch (l.transferEnd - (l.transferBase + r.d_reclen))))
    rw [hstretch]
    dsimp only
    let l₂ : Listing :=
      { l with
        dest := dest₂
        uio_offset := l.uio_offset + sizeofDirect
        previousDirPtr := some l.transferBase }.transfer l.transferEnd
          (r.d_reclen + (l.transferEnd - (l.transferBase + r.d_reclen)))
    have h₂ : Filled f b total i blocks ((cur ++ [r]).modifyLast
        (Direct.stretch (l.transferEnd - (l.transferBase + r.d_reclen)))) l₂ dirbuf₂ := by
      refine h₁.stretch (by simp) rfl hdest₂ ?_ rfl rfl (Nat.add_sub_of_le hfit).symm rfl
        (Nat.add_sub_of_le hfit).le (Nat.add_assoc _ _ _).symm ?_ rfl
      · intro p hp
        obtain rfl := Option.some.inj hp
        exact hbuffer₂
      · change l.uio_resid - (r.d_reclen + (l.transferEnd - (l.transferBase + r.d_reclen))) +
          (l.transferEnd - (l.transferBase + r.d_reclen)) = l.uio_resid - r.d_reclen
        omega
    exact ⟨l₂, dirbuf₂, rfl, hpc _ _ _ _ le_rfl rfl, h₂, fun _ _ => rfl⟩
  · rw [if_neg hended, if_neg hended]
    exact ⟨l₁, dirbuf₁, rfl, hpc _ _ _ _ hfit rfl, h₁, fun hle => absurd hle hended⟩

/-- A conversion does not panic, and preserves the invariant. -/
theorem Filled.convert (h : Filled f b total i blocks cur l dirbuf) (hresid : 0 < l.uio_resid)
    (hsize : l.uio_offset < f.i_size) :
    ∃ l' dirbuf', l.convert f dirbuf = some (l', dirbuf') ∧
      Sound f b total i (l.fill f blocks cur).1 (l.fill f blocks cur).2 l' dirbuf' := by
  by_cases hfit : l.transferBase + (canonical (f.slot (l.uio_offset / sizeofDirect))).d_reclen >
      l.transferEnd
  · exact h.convert_next hresid hfit
  · exact h.convert_here hresid hsize hfit

/-- The invariant is about neither the place of the listing nor its buffer. -/
theorem Filled.moved (h : Filled f b total i blocks cur l dirbuf) (bp : Bool) (pc : Pc) :
    Filled f b total i blocks cur { l with bp := bp, pc := pc } dirbuf :=
  ⟨h.offset, h.entries, h.full, h.chain, h.transferEnd, h.le, h.last, h.base, h.resid, h.dvd,
    h.user, h.bound⟩

/-- A byte is copied out. -/
theorem Filled.copied (h : Filled f b total i blocks cur l dirbuf) (hu : l.user) (k : ℕ) (pc : Pc) :
    Filled f b total i blocks cur { l with
      dest := Function.update l.dest (l.userBaseAddr + k) (dirbuf k), pc := pc } dirbuf := by
  have hbuffer : Listing.buffer { l with
      dest := Function.update l.dest (l.userBaseAddr + k) (dirbuf k), pc := pc } dirbuf =
        l.buffer dirbuf := (if_pos hu).trans (if_pos hu).symm
  refine ⟨h.offset, h.entries, h.full.congr fun c _ hc => ?_, hbuffer ▸ h.chain, h.transferEnd,
    h.le, hbuffer ▸ h.last, h.base, h.resid, h.dvd, h.user,
    h.bound⟩
  refine Function.update_of_ne ?_ _ _
  rw [h.user hu]
  omega

/-- The blocks that have been delivered, and the one that is being filled, after a step. -/
def Listing.next (l : Listing) (f : File) (blocks : List (List Direct)) (cur : List Direct) :
    List (List Direct) × List Direct :=
  match l.pc with
  | .loop =>
    if (l.uio_resid > 0 ∧ l.uio_offset < f.i_size) ∧
        ¬ (FsBLKOFF f.s_type l.uio_offset = 0 ∨ l.bp = false) then l.fill f blocks cur
    else (blocks, cur)
  | .read => l.fill f blocks cur
  | .copyout k => if k + 1 < DIRBLKSIZ then (blocks, cur) else (blocks ++ [cur], [])
  | _ => (blocks, cur)

/-- What a step leads to: the invariant, or an error. -/
def After (f : File) (b total i : ℕ) (next : List (List Direct) × List Direct) (l' : Listing)
    (dirbuf' : Memory Direct) : Prop :=
  (∃ e, l'.pc = .done (some e)) ∨ Sound f b total i next.1 next.2 l' dirbuf'

/-- A step of a `copyout` preserves the invariant. -/
theorem Sound.copyout {k : ℕ} (h : Sound f b total i blocks cur l dirbuf) (hl : l.pc = .copyout k) :
    ∃ l' dirbuf', l.step f dirbuf = some (l', dirbuf') ∧
      After f b total i (l.next f blocks cur) l' dirbuf' := by
  obtain ⟨hpc, hfilled, hended⟩ := h
  rw [hl] at hpc
  obtain ⟨hu, hbase, hk, hcopied⟩ := hpc
  rw [Listing.step, Listing.next, hl]
  dsimp only
  by_cases hfault : l.fault (l.userBaseAddr + k)
  · rw [if_pos hfault]
    exact ⟨_, _, rfl, .inl ⟨.efault, rfl⟩⟩
  rw [if_neg hfault]
  -- The bytes that have been copied, with this one.
  have hcopied' : ∀ c < k + 1,
      Function.update l.dest (l.userBaseAddr + k) (dirbuf k) (l.userBaseAddr + c) = dirbuf c := by
    intro c hc
    rcases Nat.lt_succ_iff_lt_or_eq.1 hc with hlt | rfl
    · rw [Function.update_of_ne (by omega), hcopied c hlt]
    · rw [Function.update_self]
  by_cases hlast : k + 1 < DIRBLKSIZ
  · rw [if_pos hlast, if_pos hlast]
    exact ⟨_, _, rfl, .inr ⟨⟨hu, hbase, hlast, hcopied'⟩, hfilled.copied hu k _, hended⟩⟩
  · rw [if_neg hlast, if_neg hlast]
    have hstart : l.start b blocks.length = 0 := if_pos hu
    have hend := hfilled.transferEnd
    rw [hstart, Nat.zero_add] at hend
    have hchain := hfilled.chain
    rw [Listing.buffer, if_pos hu, hstart, hbase] at hchain
    have hdest := hchain.shift fun c _ hc => hcopied' c (by omega)
    rw [hfilled.user hu, Nat.add_zero] at hdest
    refine ⟨_, _, rfl, .inr ⟨fun _ => (by decide : 0 < DIRBLKSIZ),
      hfilled.commit (hbase.trans hend.symm) rfl ?_ (fun c hc => ?_) rfl rfl rfl (if_pos hu).symm
        hend fun _ => rfl, fun _ hne => absurd rfl hne⟩⟩
    · rw [hfilled.user hu]
      exact hdest
    · refine Function.update_of_ne ?_ _ _
      rw [hfilled.user hu]
      omega

/-- A step does not panic, and preserves the invariant. -/
theorem Sound.step (h : Sound f b total i blocks cur l dirbuf) :
    ∃ l' dirbuf', l.step f dirbuf = some (l', dirbuf') ∧
      After f b total i (l.next f blocks cur) l' dirbuf' := by
  have hpc := h.atPc
  cases hl : l.pc with
  | done error =>
    rw [Listing.step, Listing.next, hl]
    exact ⟨l, dirbuf, rfl, .inr h⟩
  | lock =>
    rw [hl] at hpc
    rw [Listing.step, Listing.next, hl]
    exact ⟨_, _, rfl, .inr ⟨hpc, h.filled.moved l.bp .loop, h.ended⟩⟩
  | loop =>
    rw [hl] at hpc
    rw [Listing.step, Listing.next, hl]
    dsimp only
    by_cases hgo : l.uio_resid > 0 ∧ l.uio_offset < f.i_size
    · rw [if_pos hgo]
      by_cases hread : FsBLKOFF f.s_type l.uio_offset = 0 ∨ l.bp = false
      · rw [if_pos hread, if_neg fun hnot => hnot.2 hread]
        exact ⟨_, _, rfl, .inr ⟨⟨hpc, hgo⟩, h.filled.moved l.bp .read, h.ended⟩⟩
      · rw [if_neg hread, if_pos ⟨hgo, hread⟩]
        obtain ⟨l', dirbuf', hconvert, h'⟩ := h.filled.convert hgo.1 hgo.2
        exact ⟨l', dirbuf', hconvert, .inr h'⟩
    · rw [if_neg hgo, if_neg fun hnot => hgo hnot.1]
      refine ⟨_, _, rfl, .inr ⟨⟨hpc, ?_⟩, h.filled.moved l.bp (.done none), h.ended⟩⟩
      change l.uio_resid = 0 ∨ f.i_size ≤ l.uio_offset
      omega
  | read =>
    rw [hl] at hpc
    rw [Listing.step, Listing.next, hl]
    dsimp only
    cases f.blkatoff l.uio_offset with
    | some e => exact ⟨_, _, rfl, .inl ⟨e, rfl⟩⟩
    | none =>
      obtain ⟨l', dirbuf', hconvert, h'⟩ := (h.filled.moved true .read).convert hpc.2.1 hpc.2.2
      exact ⟨l', dirbuf', hconvert, .inr h'⟩
  | copyout k => exact h.copyout hl

/-- The invariant is preserved by a step, which does not panic. -/
theorem Inv.step (h : Inv f b total i l dirbuf) :
    ∃ l' dirbuf', l.step f dirbuf = some (l', dirbuf') ∧ Inv f b total i l' dirbuf' := by
  obtain ⟨e, he⟩ | ⟨blocks, cur, h⟩ := h
  · refine ⟨l, dirbuf, ?_, .inl ⟨e, he⟩⟩
    rw [Listing.step, he]
  · obtain ⟨l', dirbuf', hstep, h'⟩ := h.step
    exact ⟨l', dirbuf', hstep, h'.imp_right fun h' => ⟨_, _, h'⟩⟩

/-! ## A whole listing -/

/-- A listing begins with nothing filled. -/
theorem Sound.init {user : Bool} {iovcnt base len offset : ℕ} {dest : Memory Direct}
    {fault : ℕ → Bool} (dirbuf : Memory Direct)
    (h : svfs_readdir user iovcnt base len offset len dest fault = .ok l) :
    Sound f base (len / DIRBLKSIZ * DIRBLKSIZ) (offset / sizeofDirect) [] [] l dirbuf ∧
      l.uio_offset = offset ∧ l.pc = .lock ∧ DIRBLKSIZ ≤ len := by
  unfold svfs_readdir at h
  by_cases hbad : iovcnt ≠ 1 ∨ len < DIRBLKSIZ ∨ offset % sizeofDirect ≠ 0
  · rw [if_pos hbad] at h
    cases h
  · rw [if_neg hbad] at h
    obtain rfl := Except.ok.inj h
    have hoffset : offset = sizeofDirect * (offset / sizeofDirect) := by
      rw [sizeofDirect, SVFSDIRSIZ] at *
      omega
    have hle := Nat.div_mul_le_self len DIRBLKSIZ
    refine ⟨⟨fun hu => ?_, ⟨?_, rfl, rfl, ?_, ?_, ?_, fun hne => absurd rfl hne, ?_, ?_,
      Dvd.intro_left _ rfl, fun _ => rfl, fun hne => absurd rfl hne⟩, fun _ hne => absurd rfl hne⟩,
      rfl, rfl, by omega⟩
    · exact (if_pos hu).trans_lt (by decide)
    · exact hoffset
    · exact rfl
    · exact rfl
    · exact Nat.le_add_right _ _
    · change base = base + DIRBLKSIZ * 0 +
        ((if user then 0 else base) - if user then 0 else base + DIRBLKSIZ * 0)
      rw [Nat.mul_zero, Nat.add_zero, Nat.sub_self, Nat.add_zero]
    · change len - (len - len / DIRBLKSIZ * DIRBLKSIZ) + DIRBLKSIZ * 0 +
        ((if user then 0 else base) - if user then 0 else base + DIRBLKSIZ * 0) = _
      rw [Nat.mul_zero, Nat.add_zero, Nat.add_zero, Nat.sub_self, Nat.add_zero]
      omega

/-- A block that is still being filled at the end is full, and not a user's. -/
theorem Sound.full (h : Sound f b total i blocks cur l dirbuf) (hl : l.pc = .done none)
    (hcur : cur ≠ []) : l.transferBase = l.transferEnd ∧ l.user = false := by
  obtain ⟨hpc, h, hended⟩ := h
  rw [hl] at hpc
  have hend := h.transferEnd
  have hle := h.le
  have hresid := h.resid
  have hstart := h.chain.le
  obtain ⟨n, hn⟩ := h.dvd
  have hne : l.start b blocks.length ≠ l.transferBase := by
    intro heq
    have hchain := h.chain
    rw [← heq] at hchain
    exact hcur hchain.eq_nil
  have hfull : l.transferBase = l.transferEnd := by
    rcases hpc.2 with hzero | hsize
    · rw [DIRBLKSIZ, DEV_BSIZE] at *
      omega
    · exact hended hsize hcur
  refine ⟨hfull, Bool.eq_false_iff.2 fun hu => ?_⟩
  have hzero : l.start b blocks.length = 0 := if_pos hu
  have hlt := hpc.1 hu
  omega

/-- What is left at the end: full blocks, with the slots from the first one on. -/
theorem Sound.delivered (h : Sound f b total i blocks cur l dirbuf) (hl : l.pc = .done none) :
    ∃ blocks', blocks' = (if cur = [] then blocks else blocks ++ [cur]) ∧
      Blocks Direct.d_reclen DIRBLKSIZ l.dest b blocks' (b + (total - l.uio_resid)) ∧
      blocks'.flatten.map Direct.entry = (List.range' i blocks'.flatten.length).map f.entry ∧
        l.uio_offset = sizeofDirect * (i + blocks'.flatten.length) ∧
          (l.uio_resid = 0 ∧ total = DIRBLKSIZ * blocks'.length ∨ f.i_size ≤ l.uio_offset) ∧
            (blocks'.flatten ≠ [] → l.uio_offset < f.i_size + sizeofDirect) := by
  have hsound := h
  obtain ⟨hpc, h, -⟩ := h
  rw [hl] at hpc
  have hend := h.transferEnd
  have hle := h.le
  have hresid := h.resid
  have hstart := h.chain.le
  obtain ⟨n, hn⟩ := h.dvd
  by_cases hcur : cur = []
  · subst hcur
    have hbase : l.start b blocks.length = l.transferBase := h.chain
    have hflat : blocks.flatten ++ [] = blocks.flatten := List.append_nil _
    refine ⟨blocks, (if_pos rfl).symm, ?_, ?_, ?_, ?_⟩
    · have htotal : total - l.uio_resid = DIRBLKSIZ * blocks.length := by omega
      rw [htotal]
      exact h.full
    · have hentries := h.entries
      rw [hflat] at hentries
      exact hentries
    · have hoffset := h.offset
      rw [hflat] at hoffset
      exact hoffset
    · refine ⟨hpc.2.imp_left fun hzero => ⟨hzero, by omega⟩, fun hne => h.bound ?_⟩
      rw [hflat]
      exact hne
  · obtain ⟨hfull, hu⟩ := hsound.full hl hcur
    have hkernel := Bool.eq_false_iff.1 hu
    have hstart' : l.start b blocks.length = b + DIRBLKSIZ * blocks.length := if_neg hkernel
    have hchain := h.chain
    rw [Listing.buffer, if_neg hkernel, hfull, hend, hstart'] at hchain
    have hblocks := h.full.snoc hchain
    have hflat : (blocks ++ [cur]).flatten = blocks.flatten ++ cur := by simp
    refine ⟨blocks ++ [cur], (if_neg hcur).symm, ?_, ?_, ?_, ?_⟩
    · have htotal : b + (total - l.uio_resid) = b + DIRBLKSIZ * blocks.length + DIRBLKSIZ := by
        omega
      rw [htotal]
      exact hblocks
    · rw [hflat]
      exact h.entries
    · rw [hflat]
      exact h.offset
    · refine ⟨hpc.2.imp_left fun hzero => ⟨hzero, ?_⟩, fun hne => h.bound (hflat ▸ hne)⟩
      have hlen : (blocks ++ [cur]).length = blocks.length + 1 := by simp
      rw [hlen, Nat.mul_succ]
      omega

/-! ## The end of a listing -/

/-- What a conversion does: it goes on to the next slot; or it is done with the block. -/
theorem Listing.convert_cases (h : l.convert f dirbuf = some (l', dirbuf'))
    (hend : l.user → l.transferEnd = DIRBLKSIZ) :
    l'.uio_offset = l.uio_offset + sizeofDirect ∨
      l'.uio_offset = l.uio_offset ∧ l.transferEnd - l.transferBase < 24 ∧
        (l'.pc = .copyout 0 ∨ l'.pc = .loop ∧ l'.transferEnd - l'.transferBase = DIRBLKSIZ) := by
  have hreclen := canonical_reclen (f.slot (l.uio_offset / sizeofDirect))
  by_cases hfit : l.transferBase + (canonical (f.slot (l.uio_offset / sizeofDirect))).d_reclen >
      l.transferEnd
  · right
    cases hprev : l.previousDirPtr with
    | none =>
      rw [convert, if_pos hfit, hprev] at h
      cases h
    | some p =>
      rw [l.convert_eq_next f dirbuf hfit hprev] at h
      obtain ⟨dest₁, dirbuf₁, hbuffer, -, -⟩ := l.onBuffer_spec dirbuf
        (Memory.modify · p (Direct.stretch (l.transferEnd - l.transferBase)))
      rw [hbuffer] at h
      obtain ⟨rfl, -⟩ := Prod.mk.inj (Option.some.inj h)
      refine ⟨rfl, by omega, ?_⟩
      by_cases hu : l.user
      · exact .inl (if_pos ⟨hu, (hend hu).ge⟩)
      · refine .inr ⟨if_neg fun hu' => hu hu'.1, ?_⟩
        change (if l.user then l.transferEnd else l.transferEnd + DIRBLKSIZ) - l.transferEnd = _
        rw [if_neg hu, Nat.add_sub_cancel_left]
  · left
    rw [convert] at h
    dsimp only at h
    rw [if_neg hfit] at h
    obtain ⟨dest₁, dirbuf₁, hput, -, -⟩ := l.onBuffer_spec dirbuf
      (Memory.put Direct.d_reclen · l.transferBase
        (canonical (f.slot (l.uio_offset / sizeofDirect))))
    rw [hput] at h
    dsimp only at h
    by_cases hended : l.uio_offset + sizeofDirect ≥ f.i_size
    · rw [if_pos hended] at h
      obtain ⟨dest₂, dirbuf₂, hstretch, -, -⟩ := Listing.onBuffer_spec { l with
        dest := dest₁
        uio_offset := l.uio_offset + sizeofDirect
        previousDirPtr := some l.transferBase } dirbuf₁ (Memory.modify · l.transferBase
          (Direct.stretch (l.transferEnd - (l.transferBase +
            (canonical (f.slot (l.uio_offset / sizeofDirect))).d_reclen))))
      rw [hstretch] at h
      obtain ⟨rfl, -⟩ := Prod.mk.inj (Option.some.inj h)
      rfl
    · rw [if_neg hended] at h
      obtain ⟨rfl, -⟩ := Prod.mk.inj (Option.some.inj h)
      rfl

/-- How much a listing has to do yet: the slots, and what is to be done before the next one. -/
def Listing.left (f : File) (l : Listing) : ℕ :=
  (f.i_size - l.uio_offset) * 2000 +
    match l.pc with
    | .lock => 1100
    | .loop => if l.transferEnd - l.transferBase = DIRBLKSIZ then 2 else 1002
    | .read => if l.transferEnd - l.transferBase = DIRBLKSIZ then 1 else 1001
    | .copyout k => 900 - k
    | .done _ => 0

theorem Listing.left_le (l : Listing) (f : File) :
    l.left f ≤ (f.i_size - l.uio_offset) * 2000 + 1100 := by
  unfold left
  split
  · exact Nat.le_refl _
  · split_ifs <;> omega
  · split_ifs <;> omega
  · omega
  · omega

/-- A conversion leaves less to do. -/
theorem Listing.left_convert (h : l.convert f dirbuf = some (l', dirbuf'))
    (hend : l.user → l.transferEnd = DIRBLKSIZ) (hoffset : l.uio_offset < f.i_size) :
    l'.left f < (f.i_size - l.uio_offset) * 2000 +
      if l.transferEnd - l.transferBase = DIRBLKSIZ then 1 else 1001 := by
  have hle := l'.left_le f
  rcases convert_cases h hend with hnext | ⟨hsame, hroom, hpc⟩
  · rw [sizeofDirect, SVFSDIRSIZ] at hnext
    split_ifs <;> omega
  · rw [if_neg (by rw [DIRBLKSIZ, DEV_BSIZE]; omega)]
    rcases hpc with hpc | ⟨hpc, hblock⟩
    · rw [left, hpc, hsame]
      dsimp only
      omega
    · rw [left, hpc, hsame]
      dsimp only
      rw [if_pos hblock]
      omega

/-- A step leaves less to do. -/
theorem Inv.left_step (h : Inv f b total i l dirbuf) (hl : ∀ e, l.pc ≠ .done e)
    (hstep : l.step f dirbuf = some (l', dirbuf')) : l'.left f < l.left f := by
  obtain ⟨e, he⟩ | ⟨blocks, cur, hpc, hfilled, -⟩ := h
  · exact absurd he (hl _)
  have hend : l.user → l.transferEnd = DIRBLKSIZ := by
    intro hu
    have hend := hfilled.transferEnd
    rw [Listing.start, if_pos hu, Nat.zero_add] at hend
    exact hend
  rw [Listing.step] at hstep
  cases hl' : l.pc with
  | done error => exact absurd hl' (hl _)
  | lock =>
    rw [hl'] at hstep
    obtain ⟨rfl, -⟩ := Prod.mk.inj (Option.some.inj hstep)
    rw [Listing.left, Listing.left, hl']
    dsimp only
    split_ifs <;> omega
  | loop =>
    rw [hl'] at hstep
    dsimp only at hstep
    by_cases hgo : l.uio_resid > 0 ∧ l.uio_offset < f.i_size
    · rw [if_pos hgo] at hstep
      by_cases hread : FsBLKOFF f.s_type l.uio_offset = 0 ∨ l.bp = false
      · rw [if_pos hread] at hstep
        obtain ⟨rfl, -⟩ := Prod.mk.inj (Option.some.inj hstep)
        rw [Listing.left, Listing.left, hl']
        dsimp only
        split_ifs <;> omega
      · rw [if_neg hread] at hstep
        have hleft := Listing.left_convert hstep hend hgo.2
        rw [Listing.left.eq_def f l, hl']
        dsimp only
        by_cases hblock : l.transferEnd - l.transferBase = DIRBLKSIZ
        · rw [if_pos hblock] at hleft ⊢
          exact hleft.trans (Nat.lt_succ_self _)
        · rw [if_neg hblock] at hleft ⊢
          exact hleft.trans (Nat.lt_succ_self _)
    · rw [if_neg hgo] at hstep
      obtain ⟨rfl, -⟩ := Prod.mk.inj (Option.some.inj hstep)
      rw [Listing.left, Listing.left, hl']
      dsimp only
      split_ifs <;> omega
  | read =>
    rw [hl'] at hstep hpc
    dsimp only at hstep
    cases hblk : f.blkatoff l.uio_offset with
    | some e =>
      rw [hblk] at hstep
      obtain ⟨rfl, -⟩ := Prod.mk.inj (Option.some.inj hstep)
      rw [Listing.left, Listing.left, hl']
      dsimp only
      split_ifs <;> omega
    | none =>
      rw [hblk] at hstep
      have hleft := Listing.left_convert hstep hend hpc.2.2
      rw [Listing.left.eq_def f l, hl']
      exact hleft
  | copyout k =>
    rw [hl'] at hstep hpc
    dsimp only at hstep
    have hk := hpc.2.2.1
    rw [DIRBLKSIZ, DEV_BSIZE] at hk
    by_cases hfault : l.fault (l.userBaseAddr + k)
    · rw [if_pos hfault] at hstep
      obtain ⟨rfl, -⟩ := Prod.mk.inj (Option.some.inj hstep)
      rw [Listing.left, Listing.left, hl']
      dsimp only
      omega
    · rw [if_neg hfault] at hstep
      by_cases hlast : k + 1 < DIRBLKSIZ
      · rw [if_pos hlast] at hstep
        obtain ⟨rfl, -⟩ := Prod.mk.inj (Option.some.inj hstep)
        rw [Listing.left, Listing.left, hl']
        dsimp only
        omega
      · rw [if_neg hlast] at hstep
        obtain ⟨rfl, -⟩ := Prod.mk.inj (Option.some.inj hstep)
        rw [Listing.left, Listing.left, hl']
        dsimp only
        rw [Nat.sub_zero, if_pos (hend hpc.1)]
        omega

/-- The invariant holds along a listing, which does not panic. -/
theorem Inv.run : ∀ (n : ℕ) {l : Listing} {dirbuf : Memory Direct}, Inv f b total i l dirbuf →
    ∃ l' dirbuf', Listing.run f n (l, dirbuf) = some (l', dirbuf') ∧ Inv f b total i l' dirbuf'
  | 0, l, dirbuf, h => ⟨l, dirbuf, rfl, h⟩
  | n + 1, l, dirbuf, h => by
    obtain ⟨l₁, dirbuf₁, hstep, h₁⟩ := h.step
    obtain ⟨l', dirbuf', hrun, h'⟩ := Inv.run n h₁
    refine ⟨l', dirbuf', ?_, h'⟩
    rw [Listing.run, hstep, Option.bind_some, hrun]

/-- A listing at its end stays there. -/
theorem Listing.run_done {error : Option Errno} (hl : l.pc = .done error) (n : ℕ) :
    run f n (l, dirbuf) = some (l, dirbuf) := by
  induction n with
  | zero => rfl
  | succ n ih => rw [run, step, hl, Option.bind_some, ih]

/-- A listing comes to an end. -/
theorem Inv.ends (n : ℕ) (h : Inv f b total i l dirbuf) (hn : l.left f ≤ n) :
    ∃ l' dirbuf' error, Listing.run f n (l, dirbuf) = some (l', dirbuf') ∧ l'.pc = .done error := by
  induction n generalizing l dirbuf with
  | zero =>
    by_cases hdone : ∃ e, l.pc = .done e
    · obtain ⟨e, he⟩ := hdone
      exact ⟨l, dirbuf, e, rfl, he⟩
    · obtain ⟨l₁, dirbuf₁, hstep, -⟩ := h.step
      have hlt := h.left_step (fun e he => hdone ⟨e, he⟩) hstep
      omega
  | succ n ih =>
    by_cases hdone : ∃ e, l.pc = .done e
    · obtain ⟨e, he⟩ := hdone
      exact ⟨l, dirbuf, e, Listing.run_done he _, he⟩
    · obtain ⟨l₁, dirbuf₁, hstep, h₁⟩ := h.step
      have hlt := h.left_step (fun e he => hdone ⟨e, he⟩) hstep
      obtain ⟨l', dirbuf', error, hrun, hl'⟩ := ih h₁ (by omega)
      refine ⟨l', dirbuf', error, ?_, hl'⟩
      rw [Listing.run, hstep, Option.bind_some, hrun]

/-- Blocks are not empty. -/
theorem length_le_flatten {m : Memory Direct} {e : ℕ} : ∀ {a : ℕ} {bs : List (List Direct)},
    Blocks Direct.d_reclen DIRBLKSIZ m a bs e → bs.length ≤ bs.flatten.length
  | _, [], _ => Nat.le_refl 0
  | a, l :: bs, ⟨hl, h⟩ => by
    have hle := length_le_flatten h
    have hne : l ≠ [] := by
      rintro rfl
      have hempty : a = a + DIRBLKSIZ := hl
      rw [DIRBLKSIZ, DEV_BSIZE] at hempty
      omega
    have hpos := List.length_pos_iff.2 hne
    rw [List.flatten_cons, List.length_append, List.length_cons]
    omega

/-- A call of `svfs_readdir`, for a user or not, for `len` bytes at `base`: the memory there, the
    addresses that cannot be written, and what `dirbuf` has. -/
structure Call where
  user : Bool
  base : ℕ
  len : ℕ
  dest : Memory Direct
  fault : ℕ → Bool
  dirbuf : Memory Direct

/-- The call returns with `l'`. -/
def Call.Returns (f : File) (c : Call) (offset : ℕ) (l' : Listing) : Prop :=
  ∃ l n dirbuf' error, svfs_readdir c.user 1 c.base c.len offset c.len c.dest c.fault = .ok l ∧
    Listing.run f n (l, c.dirbuf) = some (l', dirbuf') ∧ l'.pc = .done error

/-- The bytes that a call has delivered are blocks of these records. -/
def Call.Delivers (c : Call) (l' : Listing) (blocks : List (List Direct)) : Prop :=
  Blocks Direct.d_reclen DIRBLKSIZ l'.dest c.base blocks
    (c.base + (c.len / DIRBLKSIZ * DIRBLKSIZ - l'.uio_resid))

/-- Calls, each of which goes on from the offset that the last one has returned, up to the offset
    `offset'`, and the records that they deliver. -/
inductive Calls (f : File) : (offset offset' : ℕ) → List Direct → Prop
  | nil {offset : ℕ} : Calls f offset offset []
  | cons {offset offset' : ℕ} {c : Call} {l' : Listing} {blocks : List (List Direct)}
      {records : List Direct} : DIRBLKSIZ ≤ c.len → c.Returns f offset l' → l'.pc = .done none →
        c.Delivers l' blocks → Calls f l'.uio_offset offset' records →
          Calls f offset offset' (blocks.flatten ++ records)

/-- What a call delivers, from a slot on: it returns, without a panic; and without an error, the
    blocks show the slots up to the offset that is returned, one at least before the end. -/
structure Call.Exact (f : File) (c : Call) (offset : ℕ) : Prop where
  returns : ∃ l', c.Returns f offset l'
  no_panic : ∀ l n, svfs_readdir c.user 1 c.base c.len offset c.len c.dest c.fault = .ok l →
    Listing.run f n (l, c.dirbuf) ≠ none
  delivers : ∀ l', c.Returns f offset l' → l'.pc = .done none → ∃ blocks, c.Delivers l' blocks ∧
    blocks.flatten.map Direct.entry =
      (List.range' (offset / sizeofDirect) blocks.flatten.length).map f.entry ∧
    l'.uio_offset = sizeofDirect * (offset / sizeofDirect + blocks.flatten.length) ∧
    (blocks.flatten ≠ [] ↔ offset < f.i_size) ∧
    (blocks.flatten ≠ [] → l'.uio_offset < f.i_size + sizeofDirect)

theorem call_exact (f : File) (c : Call) {offset : ℕ} (hlen : DIRBLKSIZ ≤ c.len)
    (hoffset : offset % sizeofDirect = 0) : c.Exact f offset := by
  obtain ⟨l, hl⟩ : ∃ l, svfs_readdir c.user 1 c.base c.len offset c.len c.dest c.fault = .ok l := by
    rw [svfs_readdir, if_neg (by omega)]
    exact ⟨_, rfl⟩
  obtain ⟨hsound, hstart, -, -⟩ := Sound.init c.dirbuf hl
  have hinv : Inv f c.base (c.len / DIRBLKSIZ * DIRBLKSIZ) (offset / sizeofDirect) l c.dirbuf :=
    .inr ⟨[], [], hsound⟩
  refine ⟨?_, fun l₁ n hl₁ => ?_, ?_⟩
  · obtain ⟨l', dirbuf', error, hrun, hdone⟩ := hinv.ends _ le_rfl
    exact ⟨l', l, _, dirbuf', error, hl, hrun, hdone⟩
  · obtain rfl := Except.ok.inj (hl.symm.trans hl₁)
    obtain ⟨l', dirbuf', hrun, -⟩ := hinv.run n
    rw [hrun]
    exact Option.some_ne_none _
  · rintro l' ⟨l₁, n, dirbuf', error, hl₁, hrun, -⟩ hdone
    obtain rfl := Except.ok.inj (hl.symm.trans hl₁)
    obtain ⟨l₂, dirbuf₂, hrun₂, hinv'⟩ := hinv.run n
    obtain ⟨rfl, rfl⟩ := Prod.mk.inj (Option.some.inj (hrun.symm.trans hrun₂))
    obtain ⟨e, he⟩ | ⟨_, _, hsound'⟩ := hinv'
    · cases hdone.symm.trans he
    obtain ⟨blocks, -, hblocks, hentries, hto, hstop, hbound⟩ := hsound'.delivered hdone
    refine ⟨blocks, hblocks, hentries, hto, ⟨fun hne => ?_, fun hlt => ?_⟩, hbound⟩
    · have hpos := List.length_pos_iff.2 hne
      have hlt := hbound hne
      rw [hto] at hlt
      rw [sizeofDirect, SVFSDIRSIZ] at *
      omega
    · intro hnil
      rw [hnil, List.length_nil, Nat.add_zero] at hto
      rcases hstop with ⟨-, htotal⟩ | hsize
      · -- A block at least has been delivered.
        have hle := length_le_flatten hblocks
        have hpos : 0 < c.len / DIRBLKSIZ * DIRBLKSIZ :=
          Nat.mul_pos (Nat.div_pos hlen (by decide)) (by decide)
        rw [hnil, List.length_nil, Nat.le_zero] at hle
        rw [hle, Nat.mul_zero] at htotal
        omega
      · rw [sizeofDirect, SVFSDIRSIZ] at *
        omega

/-- Calls in a row deliver the slots from the first offset on up to the last one. -/
theorem Calls.exact {offset offset' : ℕ} {records : List Direct}
    (h : Calls f offset offset' records) (hoffset : offset % sizeofDirect = 0) :
    records.map Direct.entry =
        (List.range' (offset / sizeofDirect) records.length).map f.entry ∧
      offset' = sizeofDirect * (offset / sizeofDirect + records.length) ∧
        (records ≠ [] → offset' < f.i_size + sizeofDirect) := by
  induction h with
  | nil =>
    refine ⟨rfl, ?_, fun hne => absurd rfl hne⟩
    rw [sizeofDirect, SVFSDIRSIZ] at *
    rw [List.length_nil]
    omega
  | @cons offset offset' c l' blocks records hlen hreturns hdone hdelivers _ ih =>
    obtain ⟨blocks', hblocks', hentries, hto, -, hbound⟩ :=
      (call_exact f c hlen hoffset).delivers l' hreturns hdone
    obtain rfl := hdelivers.unique (by decide) hblocks'
    have hmod : l'.uio_offset % sizeofDirect = 0 := by
      rw [hto]
      exact Nat.mul_mod_right _ _
    have hdiv : l'.uio_offset / sizeofDirect = offset / sizeofDirect + blocks.flatten.length := by
      rw [hto]
      exact Nat.mul_div_cancel_left _ (by decide)
    obtain ⟨hentries', hto', hbound'⟩ := ih hmod
    rw [hdiv] at hentries' hto'
    refine ⟨?_, ?_, fun hne => ?_⟩
    · have hrange := List.range'_append_1 (s := offset / sizeofDirect) (m := blocks.flatten.length)
        (n := records.length)
      rw [List.map_append, hentries, hentries', List.length_append, ← List.map_append, hrange]
    · rw [hto', List.length_append, Nat.add_assoc]
    · by_cases hrecords : records = []
      · subst hrecords
        rw [List.append_nil] at hne
        rw [hto', List.length_nil, Nat.add_zero, ← hto]
        exact hbound hne
      · exact hbound' hrecords

/-- A directory with nothing but the file 7, which has the name `"a"`. -/
def oneSlot : File :=
  { i_size := 16, s_type := Fs1b, slot := fun _ => ⟨7, fun i => if i = 0 then 97 else 0⟩
    blkatoff := fun _ => none }

end AuxKernel.Svfs.Readdir
