import Mathlib.Data.List.FinRange
import AuxKernel.Icache.Basic

/-!
# One inode for each file

The hash chains and the free list stay as they should through every step of a process
(`Inv.step`), if `iget`, coming back from the name cache for a free inode, does not
find that the inode it wants has come into core meanwhile (`Clean`). It does not look:
in `duplicated` it enters one a second time, which the other way for it to sleep,
waiting for a locked inode, avoids by searching again.

* `unique_of_clean`: where that does not happen, no two inodes on the chains are for
  one file, those on the free list are those not referenced, and `iget` returns the
  inode it was called for.
-/

namespace AuxKernel.Icache

variable {n : ℕ}

/-- The inode that a process is waiting for the disk for, locked by itself. -/
def Pc.busy : Pc n → Option (Fin n)
  | .bread _ _ ip | .inactive ip _ _ => some ip
  | .idle | .loop _ _ | .rele _ _ => none

/-- The inode that a process has no more names to ask for a free inode. -/
def Pc.purging : Pc n → Option (ℕ × ℕ)
  | .rele [] (.purge dev ino) => some (dev, ino)
  | _ => none

/-- The process that goes on from its place. -/
def Act.goer : Act n → Option ℕ
  | .go p _ _ => some p
  | _ => none

/-- A step does not enter an inode that is on its chain already: this is about the
    end of `dnlc_purge` in `iget`. -/
def Clean (s : Incore n) (a : Act n) : Prop :=
  ∀ p ∈ a.goer, ∀ id ∈ (s.pc p).purging, s.names = [] → s.free ≠ [] → lookup s id.1 id.2 = none

instance (s : Incore n) (a : Act n) : Decidable (Clean s a) :=
  inferInstanceAs (Decidable (∀ p ∈ a.goer, ∀ id ∈ (s.pc p).purging,
    s.names = [] → s.free ≠ [] → lookup s id.1 id.2 = none))

/-- An inode keeps what it stands for. -/
def SameId (x y : Inode) : Prop := x.i_dev = y.i_dev ∧ x.i_number = y.i_number

/-- The inodes on the chains are each on the one for what they stand for, and no two
    of them stand for the same. -/
structure Chains (inode : Fin n → Inode) (chain : ℕ → List (Fin n)) : Prop where
  hash : ∀ h ip, ip ∈ chain h → INOHASH (inode ip).i_dev (inode ip).i_number = h
  nodup : ∀ h, (chain h).Nodup
  unique : ∀ h h' ip jp, ip ∈ chain h → jp ∈ chain h' → SameId (inode ip) (inode jp) → ip = jp

/-- The chains, the free list and the inodes that processes wait for are as they should
    be. -/
structure Inv (s : Incore n) : Prop where
  chains : Chains s.inode s.chain
  free_nodup : s.free.Nodup
  mem_free : ∀ ip, ip ∈ s.free ↔ (s.inode ip).iref = false
  unused : ∀ ip, (s.inode ip).iref = false →
    (s.inode ip).v_count = 0 ∧ (s.inode ip).ilocked = false
  busy : ∀ p ip, (s.pc p).busy = some ip →
    (s.inode ip).iref = true ∧ (s.inode ip).ilocked = true ∧ (s.inode ip).v_count = 0
  alone : ∀ p q ip, (s.pc p).busy = some ip → (s.pc q).busy = some ip → p = q
  reading : ∀ p dev ino ip, s.pc p = .bread dev ino ip →
    (s.inode ip).i_dev = dev ∧ (s.inode ip).i_number = ino

/-! ## Places -/

theorem inv_init : Inv (⟨fun _ => ⟨false, false, 0, 0, 0⟩, fun _ => [], List.finRange n, [],
    fun _ => .idle⟩ : Incore n) where
  chains := ⟨fun _ _ h => absurd h List.not_mem_nil, fun _ => List.nodup_nil,
    fun _ _ _ _ h => absurd h List.not_mem_nil⟩
  free_nodup := List.nodup_finRange n
  mem_free ip := iff_of_true (List.mem_finRange ip) rfl
  unused _ _ := ⟨rfl, rfl⟩
  busy _ _ h := nomatch h
  alone _ _ _ h := nomatch h
  reading _ _ _ _ h := nomatch h

/-- A process goes to a place where it keeps no inode locked. -/
theorem Inv.setPc {s : Incore n} (h : Inv s) (p : ℕ) {pc : Pc n} (hpc : pc.busy = none) :
    Inv (s.setPc p pc) where
  chains := h.chains
  free_nodup := h.free_nodup
  mem_free := h.mem_free
  unused := h.unused
  busy q ip hq := by
    by_cases hqp : q = p
    · subst hqp
      simp [Incore.setPc, hpc] at hq
    · exact h.busy q ip (by simpa [Incore.setPc, hqp] using hq)
  alone q r ip hq hr := by
    by_cases hqp : q = p
    · subst hqp
      simp [Incore.setPc, hpc] at hq
    by_cases hrp : r = p
    · subst hrp
      simp [Incore.setPc, hpc] at hr
    exact h.alone q r ip (by simpa [Incore.setPc, hqp] using hq)
      (by simpa [Incore.setPc, hrp] using hr)
  reading q dev ino ip hq := by
    by_cases hqp : q = p
    · subst hqp
      obtain rfl : pc = .bread dev ino ip := by simpa [Incore.setPc] using hq
      exact absurd hpc (by simp [Pc.busy])
    · exact h.reading q dev ino ip (by simpa [Incore.setPc, hqp] using hq)

/-- A process that keeps no inode waits for the disk for an inode that it has locked,
    and that no other waits for. -/
theorem Inv.setBusy {s : Incore n} (h : Inv s) (p : ℕ) {pc : Pc n} {ip : Fin n}
    (hpc : pc.busy = some ip) (hip : (s.inode ip).iref = true ∧ (s.inode ip).ilocked = true ∧
      (s.inode ip).v_count = 0) (hothers : ∀ q, (s.pc q).busy ≠ some ip)
    (hread : ∀ dev ino jp, pc = .bread dev ino jp →
      (s.inode jp).i_dev = dev ∧ (s.inode jp).i_number = ino) : Inv (s.setPc p pc) where
  chains := h.chains
  free_nodup := h.free_nodup
  mem_free := h.mem_free
  unused := h.unused
  busy q jp hq := by
    by_cases hqp : q = p
    · subst hqp
      obtain rfl : ip = jp := by simpa [Incore.setPc, hpc] using hq
      exact hip
    · exact h.busy q jp (by simpa [Incore.setPc, hqp] using hq)
  alone q r jp hq hr := by
    by_cases hqp : q = p <;> by_cases hrp : r = p
    · exact hqp.trans hrp.symm
    · subst hqp
      obtain rfl : ip = jp := by simpa [Incore.setPc, hpc] using hq
      exact absurd (by simpa [Incore.setPc, hrp] using hr) (hothers r)
    · subst hrp
      obtain rfl : ip = jp := by simpa [Incore.setPc, hpc] using hr
      exact absurd (by simpa [Incore.setPc, hqp] using hq) (hothers q)
    · exact h.alone q r jp (by simpa [Incore.setPc, hqp] using hq)
        (by simpa [Incore.setPc, hrp] using hr)
  reading q dev ino jp hq := by
    by_cases hqp : q = p
    · subst hqp
      exact hread dev ino jp (by simpa [Incore.setPc] using hq)
    · exact h.reading q dev ino jp (by simpa [Incore.setPc, hqp] using hq)

/-! ## Inodes -/

theorem sameId_update {inode : Fin n → Inode} {ip : Fin n} {x : Inode}
    (hx : SameId x (inode ip)) (jp : Fin n) :
    SameId (Function.update inode ip x jp) (inode jp) := by
  by_cases hj : jp = ip
  · subst hj
    simpa using hx
  · simp [hj, SameId]

theorem Chains.update {inode : Fin n → Inode} {chain : ℕ → List (Fin n)}
    (h : Chains inode chain) {ip : Fin n} {x : Inode} (hx : SameId x (inode ip)) :
    Chains (Function.update inode ip x) chain where
  hash k jp hj := by
    obtain ⟨h₁, h₂⟩ := sameId_update hx jp
    exact (congrArg₂ INOHASH h₁ h₂).trans (h.hash k jp hj)
  nodup := h.nodup
  unique k k' jp kp hj hk hs := by
    obtain ⟨hj₁, hj₂⟩ := sameId_update hx jp
    obtain ⟨hk₁, hk₂⟩ := sameId_update hx kp
    exact h.unique k k' jp kp hj hk
      ⟨hj₁.symm.trans (hs.1.trans hk₁), hj₂.symm.trans (hs.2.trans hk₂)⟩

/-- An inode that is on no chain may come to stand for anything. -/
theorem Chains.update_off {inode : Fin n → Inode} {chain : ℕ → List (Fin n)}
    (h : Chains inode chain) {ip : Fin n} (hoff : ∀ k, ip ∉ chain k) (x : Inode) :
    Chains (Function.update inode ip x) chain where
  hash k jp hj := by
    have hji : jp ≠ ip := fun hji => hoff k (hji ▸ hj)
    simpa [hji] using h.hash k jp hj
  nodup := h.nodup
  unique k k' jp kp hj hk hs := by
    have hji : jp ≠ ip := fun hji => hoff k (hji ▸ hj)
    have hki : kp ≠ ip := fun hki => hoff k' (hki ▸ hk)
    exact h.unique k k' jp kp hj hk (by simpa [hji, hki] using hs)

/-- An inode leaves the chain it is on. -/
theorem Chains.erase {inode : Fin n → Inode} {chain : ℕ → List (Fin n)}
    (h : Chains inode chain) (ip : Fin n) : Chains inode fun k => (chain k).erase ip where
  hash k jp hj := h.hash k jp (List.mem_of_mem_erase hj)
  nodup k := (h.nodup k).erase ip
  unique k k' jp kp hj hk := h.unique k k' jp kp (List.mem_of_mem_erase hj)
    (List.mem_of_mem_erase hk)

theorem Chains.not_mem_erase {inode : Fin n → Inode} {chain : ℕ → List (Fin n)}
    (h : Chains inode chain) (ip : Fin n) (k : ℕ) : ip ∉ (chain k).erase ip :=
  (h.nodup k).not_mem_erase

/-- An inode that is on no chain enters the one for what it stands for, if no other on
    it stands for that. -/
theorem Chains.insert {inode : Fin n → Inode} {chain : ℕ → List (Fin n)}
    (h : Chains inode chain) {ip : Fin n} {k : ℕ} (hoff : ∀ k, ip ∉ chain k)
    (hk : INOHASH (inode ip).i_dev (inode ip).i_number = k)
    (hnew : ∀ jp ∈ chain k, ¬ SameId (inode jp) (inode ip)) :
    Chains inode (Function.update chain k (ip :: chain k)) := by
  have hmem : ∀ k' jp, jp ∈ Function.update chain k (ip :: chain k) k' →
      (jp = ip ∧ k' = k) ∨ jp ∈ chain k' := by
    intro k' jp hj
    by_cases hk' : k' = k
    · subst hk'
      rw [Function.update_self, List.mem_cons] at hj
      exact hj.imp_left fun hj => ⟨hj, rfl⟩
    · exact .inr (by simpa [hk'] using hj)
  have hother : ∀ k' jp, jp ∈ chain k' → ¬ SameId (inode jp) (inode ip) := by
    intro k' jp hj hs
    have hkk : k' = k := (h.hash k' jp hj).symm.trans ((congrArg₂ INOHASH hs.1 hs.2).trans hk)
    exact hnew jp (hkk ▸ hj) hs
  refine ⟨fun k' jp hj => ?_, fun k' => ?_, fun k₁ k₂ jp kp hj hk' hs => ?_⟩
  · rcases hmem k' jp hj with ⟨rfl, rfl⟩ | hj
    · exact hk
    · exact h.hash k' jp hj
  · by_cases hk' : k' = k
    · subst hk'
      rw [Function.update_self]
      exact (h.nodup k').cons (hoff k')
    · simpa [hk'] using h.nodup k'
  · rcases hmem k₁ jp hj with ⟨rfl, rfl⟩ | hj₀ <;> rcases hmem k₂ kp hk' with ⟨rfl, rfl⟩ | hk₀
    · rfl
    · exact absurd ⟨hs.1.symm, hs.2.symm⟩ (hother k₂ kp hk₀)
    · exact absurd hs (hother k₁ jp hj₀)
    · exact h.unique k₁ k₂ jp kp hj₀ hk₀ hs

/-- An inode changes, but for what it stands for and whether it is referenced; and not
    if a process waits for the disk for it. -/
theorem Inv.setInode {s : Incore n} (h : Inv s) {ip : Fin n} {x : Inode}
    (hx : SameId x (s.inode ip)) (href : x.iref = (s.inode ip).iref)
    (hun : x.iref = false → x.v_count = 0 ∧ x.ilocked = false)
    (hbusy : ∀ p, (s.pc p).busy = some ip → x.ilocked = true ∧ x.v_count = 0) :
    Inv (s.setInode ip x) where
  chains := h.chains.update hx
  free_nodup := h.free_nodup
  mem_free jp := by
    refine (h.mem_free jp).trans ?_
    by_cases hj : jp = ip
    · subst hj
      simp [Incore.setInode, href]
    · simp [Incore.setInode, hj]
  unused jp hj := by
    by_cases hji : jp = ip
    · subst hji
      simpa [Incore.setInode] using hun (by simpa [Incore.setInode] using hj)
    · simpa [Incore.setInode, hji] using h.unused jp (by simpa [Incore.setInode, hji] using hj)
  busy q jp hq := by
    by_cases hji : jp = ip
    · subst hji
      simpa [Incore.setInode, href, (h.busy q jp hq).1] using hbusy q hq
    · simpa [Incore.setInode, hji] using h.busy q jp hq
  alone := h.alone
  reading q dev ino jp hq := by
    obtain ⟨h₁, h₂⟩ := sameId_update hx jp
    exact ⟨h₁.trans (h.reading q dev ino jp hq).1, h₂.trans (h.reading q dev ino jp hq).2⟩

/-- A referenced inode that nobody waits for goes to the end of the free list. -/
theorem Inv.release {s : Incore n} (h : Inv s) {ip : Fin n} {x : Inode}
    (hx : SameId x (s.inode ip)) (hip : (s.inode ip).iref = true) (hfree : x.iref = false)
    (hv : x.v_count = 0) (hl : x.ilocked = false) (hbusy : ∀ p, (s.pc p).busy ≠ some ip) :
    Inv { s.setInode ip x with free := s.free ++ [ip] } where
  chains := h.chains.update hx
  free_nodup := by
    refine h.free_nodup.append (List.nodup_singleton ip) ?_
    rw [List.disjoint_singleton, h.mem_free]
    simp [hip]
  mem_free jp := by
    rw [List.mem_append, List.mem_singleton, h.mem_free]
    by_cases hj : jp = ip
    · subst hj
      simp [Incore.setInode, hfree]
    · simp [Incore.setInode, hj]
  unused jp hj := by
    by_cases hji : jp = ip
    · subst hji
      simp [Incore.setInode, hv, hl]
    · simpa [Incore.setInode, hji] using h.unused jp (by simpa [Incore.setInode, hji] using hj)
  busy q jp hq := by
    have hji : jp ≠ ip := fun hji => hbusy q (hji ▸ hq)
    simpa [Incore.setInode, hji] using h.busy q jp hq
  alone := h.alone
  reading q dev ino jp hq := by
    obtain ⟨h₁, h₂⟩ := sameId_update hx jp
    exact ⟨h₁.trans (h.reading q dev ino jp hq).1, h₂.trans (h.reading q dev ino jp hq).2⟩

/-- Nobody waits for the disk for an inode that is not locked. -/
theorem Inv.not_busy {s : Incore n} (h : Inv s) {ip : Fin n} (hip : (s.inode ip).ilocked = false)
    (p : ℕ) : (s.pc p).busy ≠ some ip :=
  fun hp => absurd (h.busy p ip hp).2.1 (by simp [hip])

/-- A free inode is taken off the free list, and keeps what it stands for. -/
theorem Inv.take {s : Incore n} (h : Inv s) {ip : Fin n} {x : Inode}
    (hx : SameId x (s.inode ip)) (hip : (s.inode ip).iref = false) (href : x.iref = true) :
    Inv ({ s with free := s.free.erase ip }.setInode ip x) where
  chains := h.chains.update hx
  free_nodup := h.free_nodup.erase ip
  mem_free jp := by
    refine (h.free_nodup.mem_erase_iff).trans ?_
    by_cases hj : jp = ip
    · subst hj
      simp [Incore.setInode, href]
    · simp [Incore.setInode, hj, h.mem_free]
  unused jp hj := by
    by_cases hji : jp = ip
    · subst hji
      simp [Incore.setInode, href] at hj
    · simpa [Incore.setInode, hji] using h.unused jp (by simpa [Incore.setInode, hji] using hj)
  busy q jp hq := by
    have hji : jp ≠ ip := fun hji => h.not_busy (h.unused ip hip).2 q (hji ▸ hq)
    simpa [Incore.setInode, hji] using h.busy q jp hq
  alone := h.alone
  reading q dev ino jp hq := by
    obtain ⟨h₁, h₂⟩ := sameId_update hx jp
    exact ⟨h₁.trans (h.reading q dev ino jp hq).1, h₂.trans (h.reading q dev ino jp hq).2⟩

/-- An inode that nobody waits for leaves its chain, and gets another number. -/
theorem Inv.drop {s : Incore n} (h : Inv s) {ip : Fin n} {x : Inode}
    (href : x.iref = (s.inode ip).iref) (hun : x.iref = false → x.v_count = 0 ∧ x.ilocked = false)
    (hbusy : ∀ p, (s.pc p).busy ≠ some ip) : Inv ((remque s ip).setInode ip x) where
  chains := (h.chains.erase ip).update_off (h.chains.not_mem_erase ip) x
  free_nodup := h.free_nodup
  mem_free jp := by
    refine (h.mem_free jp).trans ?_
    by_cases hj : jp = ip
    · subst hj
      simp [Incore.setInode, href]
    · simp [Incore.setInode, remque, hj]
  unused jp hj := by
    by_cases hji : jp = ip
    · subst hji
      simpa [Incore.setInode] using hun (by simpa [Incore.setInode] using hj)
    · simpa [Incore.setInode, remque, hji] using
        h.unused jp (by simpa [Incore.setInode, remque, hji] using hj)
  busy q jp hq := by
    have hji : jp ≠ ip := fun hji => hbusy q (hji ▸ hq)
    simpa [Incore.setInode, remque, hji] using h.busy q jp hq
  alone := h.alone
  reading q dev ino jp hq := by
    have hji : jp ≠ ip := fun hji => hbusy q (hji ▸ congrArg Pc.busy hq)
    simpa [Incore.setInode, remque, hji] using h.reading q dev ino jp hq

/-! ## Steps -/

theorem lookup_some {s : Incore n} {dev ino : ℕ} {ip : Fin n} (h : lookup s dev ino = some ip) :
    (s.inode ip).i_dev = dev ∧ (s.inode ip).i_number = ino := by
  have := List.find?_some h
  simp only [decide_eq_true_eq] at this
  exact ⟨this.2.symm, this.1.symm⟩

/-- The first free inode comes to stand for what is not in core yet. -/
theorem Inv.takeFree {s : Incore n} (h : Inv s) {p dev ino : ℕ} (hp : (s.pc p).busy = none)
    (hl : s.free ≠ [] → lookup s dev ino = none) : Inv (takeFree s p dev ino) := by
  rw [Icache.takeFree]
  split
  · exact h.setPc p rfl
  next ip free hf =>
    have hip : (s.inode ip).iref = false := (h.mem_free ip).1 (hf ▸ List.mem_cons_self)
    obtain ⟨hv, hlk⟩ := h.unused ip hip
    have hbusy := h.not_busy hlk
    have hnodup := List.nodup_cons.1 (hf ▸ h.free_nodup)
    have hnew := List.find?_eq_none.1 (hl (by simp [hf]))
    set x : Inode := { s.inode ip with
      iref := true, ilocked := true, i_dev := dev, i_number := ino } with hx
    have hinv : Inv ((insque (Icache.remque { s with free := free } ip) ip
        (INOHASH dev ino)).setInode ip x) := by
      refine ⟨?_, hnodup.2, fun jp => ?_, fun jp hj => ?_, fun q jp hq => ?_, h.alone,
        fun q d i jp hq => ?_⟩
      · refine ((h.chains.erase ip).update_off (h.chains.not_mem_erase ip) x).insert
          (h.chains.not_mem_erase ip) (by simp [hx]) fun jp hj hs => ?_
        have hji : jp ≠ ip := fun hji => h.chains.not_mem_erase ip _ (hji ▸ hj)
        simp only [Function.update_self, Function.update_of_ne hji, hx] at hs
        exact hnew jp (List.mem_of_mem_erase hj) (by simp [hs.1, hs.2])
      · by_cases hji : jp = ip
        · subst hji
          simp [Incore.setInode, insque, Icache.remque, hnodup.1, hx]
        · have hmem := h.mem_free jp
          rw [hf, List.mem_cons, or_iff_right hji] at hmem
          simpa [Incore.setInode, insque, Icache.remque, hji] using hmem
      · by_cases hji : jp = ip
        · subst hji
          simp [Incore.setInode, hx] at hj
        · simpa [Incore.setInode, insque, Icache.remque, hji] using
            h.unused jp (by simpa [Incore.setInode, insque, Icache.remque, hji] using hj)
      · have hji : jp ≠ ip := fun hji => hbusy q (hji ▸ hq)
        simpa [Incore.setInode, insque, Icache.remque, hji] using h.busy q jp hq
      · have hji : jp ≠ ip := fun hji => hbusy q (hji ▸ congrArg Pc.busy hq)
        simpa [Incore.setInode, insque, Icache.remque, hji] using h.reading q d i jp hq
    refine hinv.setBusy p rfl (by simp [Incore.setInode, hx, hv]) hbusy fun d i jp hpc => ?_
    obtain ⟨rfl, rfl, rfl⟩ := Pc.bread.inj hpc
    simp [Incore.setInode, hx]

theorem Inv.igetLoop {s : Incore n} (h : Inv s) {p : ℕ} (dev ino : ℕ)
    (hp : (s.pc p).busy = none) : Inv (igetLoop s p dev ino).1 := by
  rw [Icache.igetLoop]
  split
  next ip hl =>
    split_ifs with hlk href
    · exact h.setPc p rfl
    · refine (h.setInode (x := { s.inode ip with
        iref := true, ilocked := true, v_count := (s.inode ip).v_count + 1 })
        ⟨rfl, rfl⟩ href.symm (by simp) fun q hq => ?_).setPc p rfl
      exact absurd hq (h.not_busy (by simpa using hlk) q)
    · exact (h.take (x := { s.inode ip with
        iref := true, ilocked := true, v_count := (s.inode ip).v_count + 1 })
        ⟨rfl, rfl⟩ (by simpa using href) rfl).setPc p rfl
  next hl =>
    split_ifs
    · exact h.setPc p rfl
    · exact h.takeFree hp fun _ => hl

/-- The end of `iinactive`, for an inode that nobody waits for any more. -/
theorem Inv.inactivated {s : Incore n} (h : Inv s) (p : ℕ) {ip : Fin n} (ips : List (Fin n))
    (k : Cont) (hip : (s.inode ip).iref = true) (hv : (s.inode ip).v_count = 0)
    (hbusy : ∀ q, (s.pc q).busy ≠ some ip) : Inv (inactivated s p ip ips k) :=
  (h.release (x := { s.inode ip with iref := false, ilocked := false })
    ⟨rfl, rfl⟩ hip rfl hv rfl hbusy).setPc p rfl

theorem Inv.iinactive {ronly : ℕ → Bool} {s s' : Incore n} (h : Inv s) {p : ℕ} {ip : Fin n}
    {ips : List (Fin n)} {k : Cont} (hip : (s.inode ip).iref = true)
    (hv : (s.inode ip).v_count = 0) (hs : iinactive ronly s p ip ips k = some s') : Inv s' := by
  rw [Icache.iinactive] at hs
  split_ifs at hs with hl hr
  · exact Option.some.inj hs ▸ h.inactivated p ips k hip hv (h.not_busy (by simpa using hl))
  · have hbusy := h.not_busy (by simpa using hl : (s.inode ip).ilocked = false)
    have hlock := h.setInode (x := { s.inode ip with ilocked := true }) ⟨rfl, rfl⟩ rfl
      (by simp [hip]) fun q hq => absurd hq (hbusy q)
    refine Option.some.inj hs ▸ hlock.setBusy p
      (show (Pc.inactive ip ips k).busy = some ip from rfl) ?_ hbusy (by simp)
    simp [Incore.setInode, hip, hv]

/-- Where the process was does not matter to `iinactive`. -/
theorem iinactive_setPc (ronly : ℕ → Bool) (s : Incore n) (p : ℕ) (pc : Pc n) (ip : Fin n)
    (ips : List (Fin n)) (k : Cont) :
    iinactive ronly (s.setPc p pc) p ip ips k = iinactive ronly s p ip ips k := by
  simp only [iinactive, inactivated, Incore.setPc, Incore.setInode, Function.update_idem]

/-- A referenced inode is not free. -/
theorem Inv.iref {s : Incore n} (h : Inv s) {ip : Fin n} (hv : (s.inode ip).v_count ≠ 0) :
    (s.inode ip).iref = true := by
  by_contra hip
  exact hv (h.unused ip (by simpa using hip)).1

/-- Nobody waits for the disk for a referenced inode. -/
theorem Inv.not_busy_of_ref {s : Incore n} (h : Inv s) {ip : Fin n}
    (hv : (s.inode ip).v_count ≠ 0) (q : ℕ) : (s.pc q).busy ≠ some ip :=
  fun hq => hv (h.busy q ip hq).2.2

/-- A referenced inode changes how it is referenced or locked. -/
theorem Inv.setInode_of_ref {s : Incore n} (h : Inv s) {ip : Fin n} {x : Inode}
    (hv : (s.inode ip).v_count ≠ 0) (hx : SameId x (s.inode ip))
    (href : x.iref = (s.inode ip).iref) : Inv (s.setInode ip x) :=
  h.setInode hx href (fun hx => absurd (h.iref hv) (by simp [← href, hx]))
    fun q hq => absurd hq (h.not_busy_of_ref hv q)

theorem Inv.vn_rele {ronly : ℕ → Bool} {s s' : Incore n} (h : Inv s) {p : ℕ} {ip : Fin n}
    {ips : List (Fin n)} {k : Cont} (hs : vn_rele ronly s p ip ips k = some s') : Inv s' := by
  rw [Icache.vn_rele] at hs
  split at hs
  · exact nomatch hs
  next c hc =>
    have hv : (s.inode ip).v_count ≠ 0 := by simp [hc]
    have h' : Inv (s.setInode ip { s.inode ip with v_count := c }) :=
      h.setInode_of_ref hv ⟨rfl, rfl⟩ rfl
    dsimp only at hs
    split_ifs at hs with h0
    · refine h'.iinactive ?_ ?_ hs
      · simpa [Incore.setInode] using h.iref hv
      · simpa [Incore.setInode] using h0
    · exact Option.some.inj hs ▸ h'.setPc p rfl

/-- Only the process itself waits for the disk for its inode. -/
theorem Inv.busy_left {s : Incore n} (h : Inv s) {p : ℕ} {ip : Fin n}
    (hp : (s.pc p).busy = some ip) (q : ℕ) : ((s.setPc p .idle).pc q).busy ≠ some ip := by
  by_cases hqp : q = p
  · subst hqp
    simp [Incore.setPc, Pc.busy]
  · exact fun hq => hqp (h.alone q p ip (by simpa [Incore.setPc, hqp] using hq) hp)

theorem Inv.breadDone {ronly : ℕ → Bool} {s : Incore n} (h : Inv s) {p dev ino : ℕ} {ip : Fin n}
    {ok : Bool} {r : Incore n × Option (Got n)} (hp : s.pc p = .bread dev ino ip)
    (hr : breadDone ronly s p dev ino ip ok = some r) : Inv r.1 := by
  have hbusy : (s.pc p).busy = some ip := by rw [hp, Pc.busy]
  obtain ⟨href, -, hv⟩ := h.busy p ip hbusy
  have hidle : Inv (s.setPc p .idle) := h.setPc p rfl
  have hleft := h.busy_left hbusy
  rw [Icache.breadDone] at hr
  split_ifs at hr
  · obtain rfl := Option.some.inj hr
    exact hidle.setInode (x := { s.inode ip with v_count := 1 }) ⟨rfl, rfl⟩ rfl
      (fun hx => absurd href (by simp [show (s.inode ip).iref = false from hx]))
      fun q hq => absurd hq (hleft q)
  · obtain ⟨s', hs', rfl⟩ := Option.map_eq_some_iff.1 hr
    have hdrop := hidle.drop (x := { s.inode ip with i_number := 0, ilocked := false }) rfl
      (fun hx => absurd href (by simp [show (s.inode ip).iref = false from hx])) hleft
    refine hdrop.iinactive (p := p) ?_ ?_ ((iinactive_setPc ronly _ p .idle ip [] .done).trans hs')
    · simpa [Incore.setInode] using href
    · simpa [Incore.setInode] using hv

/-- Drop an inode without writing it out. -/
theorem Inv.idrop {s s' : Incore n} (h : Inv s) {ip : Fin n} (hs : idrop s ip = some s') :
    Inv s' := by
  rw [Icache.idrop] at hs
  split_ifs at hs with hl
  split at hs
  · exact nomatch hs
  next c hc =>
    have hv : (s.inode ip).v_count ≠ 0 := by simp [hc]
    split_ifs at hs with h0
    · exact Option.some.inj hs ▸ h.release
        (x := { s.inode ip with iref := false, ilocked := false, v_count := 0 })
        ⟨rfl, rfl⟩ (h.iref hv) rfl rfl rfl (h.not_busy_of_ref hv)
    · exact Option.some.inj hs ▸ h.setInode_of_ref
        (x := { s.inode ip with ilocked := false, v_count := c }) hv ⟨rfl, rfl⟩ rfl

theorem Inv.hold {s : Incore n} (h : Inv s) {ip : Fin n} (hv : (s.inode ip).v_count ≠ 0) :
    Inv (hold s ip) :=
  h.setInode_of_ref hv ⟨rfl, rfl⟩ rfl

theorem Inv.setLocked {s : Incore n} (h : Inv s) {ip : Fin n} (hv : (s.inode ip).v_count ≠ 0)
    (b : Bool) : Inv (setLocked s ip b) :=
  h.setInode_of_ref (x := { s.inode ip with ilocked := b }) hv ⟨rfl, rfl⟩ rfl

/-- The names in the cache do not matter. -/
theorem Inv.setNames {s : Incore n} (h : Inv s) (names : List (Fin n × Fin n)) :
    Inv { s with names := names } :=
  ⟨h.chains, h.free_nodup, h.mem_free, h.unused, h.busy, h.alone, h.reading⟩

theorem Inv.dnlc_rm {s s' : Incore n} (h : Inv s) {p entry : ℕ} {k : Cont}
    (hs : dnlc_rm s p entry k = some s') : Inv s' := by
  obtain ⟨nc, -, rfl⟩ := Option.map_eq_some_iff.1 hs
  exact (h.setNames _).setPc p rfl

theorem Inv.call {ronly : ℕ → Bool} {s : Incore n} (h : Inv s) {a : Act n}
    {r : Incore n × Option (Got n)} (ha : ∀ p ∈ a.caller, s.pc p = .idle)
    (hr : call ronly s a = some r) : Inv r.1 := by
  cases a with
  | iget p dev ino =>
    exact Option.some.inj hr ▸ h.igetLoop dev ino (by rw [ha p rfl, Pc.busy])
  | go p ok entry => exact nomatch hr
  | hold p ip =>
    rw [Icache.call] at hr
    split_ifs at hr with hv
    exact Option.some.inj hr ▸ h.hold hv
  | ilock p ip =>
    rw [Icache.call] at hr
    split_ifs at hr with hv
    exact Option.some.inj hr ▸ h.setLocked (not_or.1 hv).1 true
  | iunlock p ip =>
    rw [Icache.call] at hr
    split_ifs at hr with hv
    exact Option.some.inj hr ▸ h.setLocked (not_or.1 hv).1 false
  | irele p ip =>
    obtain ⟨s', hs', rfl⟩ := Option.map_eq_some_iff.1 hr
    exact h.vn_rele hs'
  | iput p ip =>
    rw [Icache.call] at hr
    split_ifs at hr with hv
    obtain ⟨s', hs', rfl⟩ := Option.map_eq_some_iff.1 hr
    exact (h.setLocked (not_or.1 hv).1 false).vn_rele hs'
  | idrop p ip =>
    obtain ⟨s', hs', rfl⟩ := Option.map_eq_some_iff.1 hr
    exact h.idrop hs'
  | dnlcEnter p dp vp =>
    rw [Icache.call] at hr
    split_ifs at hr with hv
    obtain ⟨hdp, hvp⟩ := not_or.1 hv
    have hvp' : ((Icache.hold s dp).inode vp).v_count ≠ 0 := by
      by_cases hne : vp = dp
      · subst hne
        simp [Icache.hold, Incore.setInode]
      · simpa [Icache.hold, Incore.setInode, hne] using hvp
    exact Option.some.inj hr ▸ ((h.hold hdp).hold hvp').setNames _
  | dnlcRm p entry =>
    obtain ⟨s', hs', rfl⟩ := Option.map_eq_some_iff.1 hr
    exact h.dnlc_rm hs'

theorem Inv.go {ronly : ℕ → Bool} {s : Incore n} (h : Inv s) {p : ℕ} {ok : Bool} {entry : ℕ}
    {r : Incore n × Option (Got n)} (hc : Clean s (.go p ok entry))
    (hr : go ronly s p ok entry = some r) : Inv r.1 := by
  have hc' := hc p rfl
  rw [Icache.go] at hr
  split at hr
  · exact nomatch hr
  next dev ino hp => exact Option.some.inj hr ▸ h.igetLoop dev ino (by rw [hp, Pc.busy])
  next hp => exact h.breadDone hp hr
  · exact Option.some.inj hr ▸ h.setPc p rfl
  next dev ino hp =>
    split_ifs at hr with hn
    · refine Option.some.inj hr ▸ h.takeFree (by rw [hp, Pc.busy]) ?_
      exact hc' (dev, ino) (by rw [hp]; rfl) hn
    · obtain ⟨s', hs', rfl⟩ := Option.map_eq_some_iff.1 hr
      exact h.dnlc_rm hs'
  · obtain ⟨s', hs', rfl⟩ := Option.map_eq_some_iff.1 hr
    exact h.vn_rele hs'
  next ip ips k hp =>
    have hbusy : (s.pc p).busy = some ip := by rw [hp, Pc.busy]
    obtain ⟨href, -, hv⟩ := h.busy p ip hbusy
    have hidle : Inv (s.setPc p .idle) := h.setPc p rfl
    have hleft := hidle.inactivated p ips k href hv (h.busy_left hbusy)
    obtain rfl := Option.some.inj hr
    simpa only [Icache.inactivated, Incore.setPc, Incore.setInode, Function.update_idem]
      using hleft

/-- A step keeps the cache in order. -/
theorem Inv.step {ronly : ℕ → Bool} {s : Incore n} (h : Inv s) {a : Act n}
    {r : Incore n × Option (Got n)} (hc : Clean s a) (hr : step ronly s a = some r) :
    Inv r.1 := by
  cases a with
  | go p ok entry => exact h.go hc hr
  | _ =>
    rw [Icache.step] at hr
    · split_ifs at hr with ha
      exact h.call ha hr
    · exact fun _ _ _ h => nomatch h

/-! ## What `iget` returns -/

/-- The inode is the one for what `iget` was called for, referenced and locked. -/
def Got.Right (g : Got n) (s : Incore n) : Prop :=
  (s.inode g.ip).i_dev = g.dev ∧ (s.inode g.ip).i_number = g.ino ∧
    (s.inode g.ip).iref = true ∧ (s.inode g.ip).ilocked = true

theorem igetLoop_got {s s' : Incore n} {p dev ino : ℕ} {g : Got n}
    (h : igetLoop s p dev ino = (s', some g)) : g.Right s' := by
  rw [igetLoop] at h
  split at h
  next ip hl =>
    obtain ⟨hdev, hino⟩ := lookup_some hl
    split_ifs at h <;> obtain ⟨rfl, hg⟩ := Prod.mk.inj h
    · exact nomatch hg
    all_goals
      obtain rfl := Option.some.inj hg
      simp [Got.Right, Incore.setInode, Incore.setPc, hdev, hino]
  · split_ifs at h <;> exact nomatch (Prod.mk.inj h).2

/-- While `iget` waited for the disk, nobody touched its inode. -/
theorem Inv.breadDone_got {ronly : ℕ → Bool} {s s' : Incore n} (h : Inv s) {p dev ino : ℕ}
    {ip : Fin n} {ok : Bool} {g : Got n} (hp : s.pc p = .bread dev ino ip)
    (hr : Icache.breadDone ronly s p dev ino ip ok = some (s', some g)) : g.Right s' := by
  obtain ⟨href, hlk, -⟩ := h.busy p ip (by rw [hp, Pc.busy])
  obtain ⟨hdev, hino⟩ := h.reading p dev ino ip hp
  rw [Icache.breadDone] at hr
  split_ifs at hr
  · obtain ⟨rfl, hg⟩ := Prod.mk.inj (Option.some.inj hr)
    obtain rfl := Option.some.inj hg
    simp [Got.Right, Incore.setInode, Incore.setPc, href, hlk, hdev, hino]
  · obtain ⟨t, -, ht⟩ := Option.map_eq_some_iff.1 hr
    exact nomatch (Prod.mk.inj ht).2

theorem map_none_ne {α β : Type*} {o : Option α} {s : α} {g : β} :
    o.map (·, (none : Option β)) ≠ some (s, some g) := by
  intro h
  obtain ⟨t, -, ht⟩ := Option.map_eq_some_iff.1 h
  exact nomatch (Prod.mk.inj ht).2

theorem Inv.got {ronly : ℕ → Bool} {s s' : Incore n} (h : Inv s) {a : Act n} {g : Got n}
    (hr : Icache.step ronly s a = some (s', some g)) : g.Right s' := by
  cases a with
  | go p ok entry =>
    rw [Icache.step, Icache.go] at hr
    split at hr
    · exact nomatch hr
    · exact igetLoop_got (Option.some.inj hr)
    next hp => exact h.breadDone_got hp hr
    · exact nomatch (Prod.mk.inj (Option.some.inj hr)).2
    · split_ifs at hr
      · exact nomatch (Prod.mk.inj (Option.some.inj hr)).2
      · exact absurd hr map_none_ne
    · exact absurd hr map_none_ne
    · exact nomatch (Prod.mk.inj (Option.some.inj hr)).2
  | _ =>
    rw [Icache.step] at hr
    · split_ifs at hr with ha
      rw [Icache.call] at hr
      first
        | exact igetLoop_got (Option.some.inj hr)
        | exact absurd hr map_none_ne
        | split_ifs at hr <;>
            first
              | exact absurd hr map_none_ne
              | exact nomatch (Prod.mk.inj (Option.some.inj hr)).2
    · exact fun _ _ _ h => nomatch h

/-! ## Runs -/

theorem inv_reachable {ronly : ℕ → Bool} {s : Incore n}
    (hs : (icache ronly n).ReachableIf Clean s) : Inv s := by
  refine hs.invariant (fun s hs => hs ▸ inv_init) fun s a s' h hc hn => ?_
  obtain ⟨r, hr, rfl⟩ := Option.map_eq_some_iff.1 hn
  exact h.step hc hr

/-- At most one inode on the chains stands for a file, the inodes on the free list are
    those not referenced, and `iget` returns the inode it was called for. -/
structure Cached (ronly : ℕ → Bool) (s : Incore n) : Prop where
  nodup : ∀ h, (s.chain h).Nodup
  unique : ∀ h h' ip jp, ip ∈ s.chain h → jp ∈ s.chain h' →
    (s.inode ip).i_dev = (s.inode jp).i_dev → (s.inode ip).i_number = (s.inode jp).i_number →
    h = h' ∧ ip = jp
  free_nodup : s.free.Nodup
  mem_free : ∀ ip, ip ∈ s.free ↔ (s.inode ip).iref = false
  got : ∀ a s' g, step ronly s a = some (s', some g) → g.Right s'

/-- However processes get and release inodes, and wait meanwhile: the inodes are cached as
    they should be as long as no `iget` comes back from the name cache to enter an inode
    that has come into core. -/
theorem unique_of_clean : ∀ (ronly : ℕ → Bool) (n : ℕ) (s : Incore n),
    (icache ronly n).ReachableIf Clean s → Cached ronly s := by
  intro ronly n s hs
  have h := inv_reachable hs
  refine ⟨h.chains.nodup, fun k k' ip jp hi hj hd hn => ?_, h.free_nodup, h.mem_free,
    fun a s' g => h.got⟩
  refine ⟨?_, h.chains.unique k k' ip jp hi hj ⟨hd, hn⟩⟩
  rw [← h.chains.hash k ip hi, ← h.chains.hash k' jp hj, hd, hn]

/-! ## Concrete runs -/

/-- Inodes none of which is in use. -/
def unusedInodes (n : ℕ) : Incore n :=
  ⟨fun _ => ⟨false, false, 0, 0, 0⟩, fun _ => [], List.finRange n, [], fun _ => .idle⟩

/-- One process gets the three inodes there are, names two of them and lets these go, so
    that only the name cache keeps them. -/
def namedActs : List (Act 3) :=
  [.iget 1 1 1, .go 1 true 0, .iunlock 1 0, .iget 1 1 2, .go 1 true 0, .iunlock 1 1,
    .iget 1 1 3, .go 1 true 0, .iunlock 1 2, .dnlcEnter 1 0 1, .irele 1 0, .go 1 true 0,
    .irele 1 1, .go 1 true 0]

/-- A second process, in need of an inode for file 5, gets one back from the name cache. -/
theorem unique_purged : ∃ s, (icache (fun _ => false) 3).runIf Clean (unusedInodes 3)
    (namedActs ++ [.iget 2 1 5, .go 2 true 0, .go 2 true 0, .go 2 true 0, .go 2 true 0,
      .go 2 true 0, .go 2 true 0, .go 2 true 0]) = some s ∧ Cached (fun _ => false) s := by
  obtain ⟨s, hs⟩ : ∃ s, (icache (fun _ => false) 3).runIf Clean (unusedInodes 3)
      (namedActs ++ [.iget 2 1 5, .go 2 true 0, .go 2 true 0, .go 2 true 0, .go 2 true 0,
        .go 2 true 0, .go 2 true 0, .go 2 true 0]) = some s := ⟨_, rfl⟩
  exact ⟨s, hs, unique_of_clean _ _ s (Machine.reachableIf_runIf (.init rfl) hs)⟩

/-- While the second process waits for the disk, the first gives up its last inode, and a
    third gets it for file 5. -/
def raceActs : List (Act 3) :=
  namedActs ++ [.iget 2 1 5, .go 2 true 0, .go 2 true 0, .irele 1 2, .go 1 true 0, .go 1 true 0,
    .iget 3 1 5, .go 3 true 0, .go 2 true 0, .go 2 true 0, .go 2 true 0, .go 2 true 0]

/-- The second process does not look for file 5 again, and enters it once more. -/
theorem not_unique : ¬∀ (ronly : ℕ → Bool) (n : ℕ) (s : Incore n),
    (icache ronly n).Reachable s → Cached ronly s := by
  intro h
  have hx : ((icache (fun _ => false) 3).run (unusedInodes 3) raceActs).map
      (fun s => (s.chain 6, (s.inode 0).i_dev, (s.inode 2).i_dev, (s.inode 0).i_number,
        (s.inode 2).i_number)) = some ([0, 2], 1, 1, 5, 5) := by
    decide
  obtain ⟨s, hs, hx⟩ := Option.map_eq_some_iff.1 hx
  simp only [Prod.mk.injEq] at hx
  obtain ⟨hc, hd₀, hd₂, hn₀, hn₂⟩ := hx
  have hcached := h _ _ s (Machine.reachableIf_run (.init rfl) (fun _ _ _ => trivial) hs)
  have := (hcached.unique 6 6 0 2 (by simp [hc]) (by simp [hc]) (hd₀.trans hd₂.symm)
    (hn₀.trans hn₂.symm)).2
  exact absurd this (by decide)

end AuxKernel.Icache
