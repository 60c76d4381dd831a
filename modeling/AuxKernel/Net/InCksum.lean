import AuxKernel.OnesComplement
import AuxKernel.Net.Mbuf
import Mathlib.Data.BitVec
import Mathlib.Data.List.GetD
import Mathlib.Data.List.Infix

/-!
# The Internet checksum

`in_cksum` (`NET/sys/in_cksum.c`) adds the bytes of a chain up as words, mbuf by mbuf: the last
byte of an mbuf with an odd number of them is kept (`wasodd`) and becomes a word with the first
byte of the next mbuf that has one. The sum is a `long`, and its carries are put back in at the end
(`fold`). If both `tcpcksum` and `ipcksum` are off, there is no checksum.

* `in_cksum_eq`: the checksum is the complement of the one's complement sum of the words of the
  bytes (`inetChecksum`), however these are cut into mbufs.
-/

namespace AuxKernel.Net.InCksum

open OnesComplement

/-- The accumulator: the sum, the two bytes of the union `w`, and whether the first of them
    waits for the second. -/
structure Acc where
  result : BitVec 32
  w0 : UInt8
  w1 : UInt8
  wasodd : Bool

/-- The word of two bytes, the first one high. -/
def word (a b : UInt8) : ℕ := 256 * a.toNat + b.toNat

namespace Acc

/-- `result += w.wword`. -/
def addWord (s : Acc) : Acc := { s with result := s.result + BitVec.ofNat 32 (word s.w0 s.w1) }

end Acc

/-- The `while` loop after the first byte of an mbuf behind an odd one. -/
def oddLoop : List UInt8 → Acc → Acc
  | [], s => { s with wasodd := false }
  | [c], s => { s with w0 := c }
  | c :: d :: cptr, s => oddLoop cptr { s with w0 := c, w1 := d }.addWord

/-- The main loop: `mlen` words are added to the sum. -/
def mainLoop : (mlen : ℕ) → List UInt8 → BitVec 32 → BitVec 32
  | mlen + 1, c :: d :: ptr, result => mainLoop mlen ptr (result + BitVec.ofNat 32 (word c d))
  | _, _, result => result

/-- The bytes of one mbuf are added in. -/
def segment (seg : List UInt8) (s : Acc) : Acc :=
  match seg with
  | [] => s
  | c :: cptr =>
    if s.wasodd then oddLoop cptr { s with w1 := c }.addWord
    else
      let mlen := seg.length / 2
      let s := { s with result := mainLoop mlen seg s.result }
      if seg.length % 2 = 1 then { s with wasodd := true, w0 := seg.getD (2 * mlen) 0 }
      else { s with wasodd := false }

/-- The loop over the mbufs. Mbufs without data are passed over; if there are no more, the
    byte that waits is left out. -/
def cksumFrom (m : Mbuf UInt8) (l : List (Mbuf UInt8)) (len : ℕ) (s : Acc) : BitVec 32 :=
  let mlen := min len m.m_len
  let s := segment (m.data.take mlen) s
  if len - mlen = 0 then
    if s.wasodd then { s with w1 := 0 }.addWord.result else s.result
  else
    match h : l.dropWhile fun m => m.m_len = 0 with
    | [] => s.result
    | m :: l' => cksumFrom m l' (len - mlen) s
termination_by l.length
decreasing_by
  have hle : (l.dropWhile fun m => m.m_len = 0).length ≤ l.length :=
    (List.dropWhile_suffix _).length_le
  rwa [h] at hle

theorem toNat_high (x : BitVec 32) :
    ((x.sshiftRight 16).setWidth 16).toNat = x.toNat / 65536 := by
  -- The sign is only copied into bits that are cut off.
  have h : (x.sshiftRight 16).setWidth 16 = (x >>> 16).setWidth 16 := by
    ext i hi
    have hlt : 16 + i < 32 := by omega
    simp [BitVec.getLsbD_sshiftRight, hlt]
    omega
  rw [h, BitVec.toNat_setWidth, BitVec.toNat_ushiftRight, Nat.shiftRight_eq_div_pow]
  have := x.isLt
  omega

theorem toNat_low (x : BitVec 32) : (x &&& 0xffff#32).toNat = x.toNat % 65536 := by
  rw [BitVec.toNat_and]
  exact Nat.and_two_pow_sub_one_eq_mod x.toNat 16

/-- The high word, added to the low one. -/
theorem toNat_putBack (x : BitVec 32) :
    ((x &&& 0xffff#32) + ((x.sshiftRight 16).setWidth 16).setWidth 32).toNat =
      carry 65536 x.toNat := by
  have := x.isLt
  rw [BitVec.toNat_add, toNat_low, BitVec.toNat_setWidth, toNat_high, carry]
  omega

/-- The carries are added to the low word until there are none. -/
def fold (result : BitVec 32) : BitVec 32 :=
  let r := (result.sshiftRight 16).setWidth 16
  if r = 0 then result else fold ((result &&& 0xffff#32) + r.setWidth 32)
termination_by result.toNat
decreasing_by
  rename_i hr
  rw [toNat_putBack, carry]
  have hpos : 0 < result.toNat / 65536 := by
    rw [← toNat_high]
    exact Nat.pos_of_ne_zero fun h => hr (BitVec.eq_of_toNat_eq h)
  omega

def in_cksum (tcpcksum ipcksum : ℕ) : List (Mbuf UInt8) → (len : ℕ) → Option ℕ
  | l, len =>
    if tcpcksum = 0 ∧ ipcksum = 0 then some 0
    else
      match l with
      | [] => none
      | m :: l => some (~~~(fold (cksumFrom m l len ⟨0, 0, 0, false⟩)).setWidth 16).toNat

/-! ## What it is to compute -/

/-- The words of the bytes, the last one filled up with a zero. -/
def words : List UInt8 → List ℕ
  | [] => []
  | [a] => [word a 0]
  | a :: b :: l => word a b :: words l

/-- The complement of the one's complement sum of the words. -/
def inetChecksum (b : List UInt8) : ℕ := 65535 - sum 65536 (words b)

theorem word_lt (a b : UInt8) : word a b < 65536 := by
  have := a.toNat_lt
  have := b.toNat_lt
  rw [word]
  omega

theorem words_lt (b : List UInt8) : ∀ w ∈ words b, w < 65536 := by
  intro w hw
  fun_induction words b with
  | case1 => exact absurd hw List.not_mem_nil
  | case2 a => exact List.mem_singleton.1 hw ▸ word_lt a 0
  | case3 a b l ih =>
    rcases List.mem_cons.1 hw with rfl | hw
    · exact word_lt a b
    · exact ih hw

/-- What the words add up to. -/
def total (b : List UInt8) : ℕ := (words b).sum

@[simp] theorem total_nil : total [] = 0 := rfl

@[simp] theorem total_single (a : UInt8) : total [a] = 256 * a.toNat := by
  simp [total, words, word]

@[simp] theorem total_cons (a b : UInt8) (l : List UInt8) :
    total (a :: b :: l) = word a b + total l := by
  simp [total, words]

/-- The sum of at most 16384 words is less than `2 ^ 31`. -/
theorem total_le (b : List UInt8) : 2 * total b ≤ 65535 * (b.length + 1) := by
  fun_induction words b with
  | case1 => simp
  | case2 a =>
    have := a.toNat_lt
    simp only [total_single, List.length_singleton]
    omega
  | case3 a b l ih =>
    have := word_lt a b
    simp only [total_cons, List.length_cons]
    omega

/-- Behind an even number of bytes, the words begin anew. -/
theorem total_append_of_even {b : List UInt8} (hb : b.length % 2 = 0) (l : List UInt8) :
    total (b ++ l) = total b + total l := by
  fun_induction words b with
  | case1 => simp
  | case2 a => exact absurd hb (by simp)
  | case3 a b l' ih =>
    simp only [List.length_cons] at hb
    simp only [List.cons_append, total_cons]
    rw [ih (by omega), Nat.add_assoc]

/-- Behind an odd number of bytes, the next one fills the last word up. -/
theorem total_append_of_odd {b : List UInt8} (hb : b.length % 2 = 1) (c : UInt8)
    (l : List UInt8) : total (b ++ c :: l) = total b + c.toNat + total l := by
  fun_induction words b with
  | case1 => exact absurd hb (by simp)
  | case2 a => simp [word]
  | case3 a b l' ih =>
    simp only [List.length_cons] at hb
    simp only [List.cons_append, total_cons]
    rw [ih (by omega)]
    omega

/-! ## The loops -/

/-- The bytes `b` are summed up, but for the last one if it waits. -/
structure Summed (b : List UInt8) (s : Acc) : Prop where
  odd : s.wasodd = true ↔ b.length % 2 = 1
  total_eq : s.result.toNat + (if s.wasodd then 256 * s.w0.toNat else 0) = total b

variable {b : List UInt8} {s : Acc}

/-- A sum of so few words does not overflow. -/
theorem total_lt (hb : b.length ≤ 32767) : total b < 2 ^ 31 := by
  have := total_le b
  omega

theorem toNat_add_word {x : BitVec 32} {w : ℕ} (h : x.toNat + w < 2 ^ 31) :
    (x + BitVec.ofNat 32 w).toNat = x.toNat + w := by
  rw [BitVec.toNat_add, BitVec.toNat_ofNat]
  omega

theorem Summed.even (hs : Summed b s) (h : s.wasodd = false) :
    b.length % 2 = 0 ∧ s.result.toNat = total b := by
  have hodd := hs.odd
  have htot := hs.total_eq
  rw [h] at hodd htot
  simp only [Bool.false_eq_true, false_iff, if_false, Nat.add_zero] at hodd htot
  exact ⟨by omega, htot⟩

theorem oddLoop_summed (cptr : List UInt8) (hodd : s.wasodd = true) (hb : b.length % 2 = 0)
    (hs : s.result.toNat = total b) (hlen : (b ++ cptr).length ≤ 32767) :
    Summed (b ++ cptr) (oddLoop cptr s) := by
  fun_induction oddLoop cptr s generalizing b with
  | case1 s => exact ⟨by simp [hb], by simpa using hs⟩
  | case2 c s =>
    refine ⟨by simp [hodd]; omega, ?_⟩
    simp only [hodd, if_true]
    rw [total_append_of_even hb, total_single, hs]
  | case3 c d cptr s ih =>
    have hw : total (b ++ [c, d]) = total b + word c d := by
      rw [total_append_of_even hb]
      simp
    have hlen' : (b ++ [c, d]).length ≤ 32767 := by
      simp only [List.length_append, List.length_cons, List.length_nil] at hlen ⊢
      omega
    have hlt := total_lt hlen'
    have hassoc : b ++ c :: d :: cptr = b ++ [c, d] ++ cptr := by simp
    rw [hassoc] at hlen ⊢
    refine ih hodd (by simp; omega) ?_ hlen
    rw [hw, ← hs]
    exact toNat_add_word (by rw [hs]; exact hw ▸ hlt)

theorem mainLoop_eq {mlen : ℕ} {seg : List UInt8} {x : BitVec 32} (hseg : 2 * mlen ≤ seg.length)
    (hx : x.toNat + total (seg.take (2 * mlen)) < 2 ^ 31) :
    (mainLoop mlen seg x).toNat = x.toNat + total (seg.take (2 * mlen)) := by
  fun_induction mainLoop mlen seg x with
  | case1 mlen c d ptr x ih =>
    have htake : (c :: d :: ptr).take (2 * (mlen + 1)) = c :: d :: ptr.take (2 * mlen) := rfl
    rw [htake, total_cons] at hx ⊢
    have hw := toNat_add_word (x := x) (w := word c d) (by omega)
    rw [ih (by simp only [List.length_cons] at hseg; omega) (by rw [hw]; omega), hw, Nat.add_assoc]
  | case2 mlen seg x h =>
    cases mlen with
    | zero => simp
    | succ mlen =>
      match seg, hseg, h with
      | c :: d :: ptr, _, h => exact absurd rfl (h mlen c d ptr rfl)

/-- A last byte that makes the number odd is the high half of a word. -/
theorem total_odd {seg : List UInt8} (h : seg.length % 2 = 1) :
    total seg = total (seg.take (2 * (seg.length / 2))) +
      256 * (seg.getD (2 * (seg.length / 2)) 0).toNat := by
  have hlt : 2 * (seg.length / 2) < seg.length := by omega
  have hlast : seg.drop (2 * (seg.length / 2)) = [seg.getD (2 * (seg.length / 2)) 0] := by
    rw [List.drop_eq_getElem_cons hlt, List.getD_eq_getElem _ _ hlt,
      List.drop_eq_nil_of_le (by omega)]
  have happ := List.take_append_drop (2 * (seg.length / 2)) seg
  have heven : (seg.take (2 * (seg.length / 2))).length % 2 = 0 := by
    rw [List.length_take_of_le (Nat.le_of_lt hlt)]
    omega
  rw [hlast] at happ
  have htot := total_append_of_even heven [seg.getD (2 * (seg.length / 2)) 0]
  rwa [happ, total_single] at htot

/-- The bytes of an mbuf are summed up behind those before it. -/
theorem Summed.segment (hs : Summed b s) {seg : List UInt8}
    (hlen : (b ++ seg).length ≤ 32767) : Summed (b ++ seg) (segment seg s) := by
  cases seg with
  | nil =>
    rw [List.append_nil]
    exact hs
  | cons c cptr =>
    have hlt := total_lt hlen
    by_cases hodd : s.wasodd = true
    · have hb := hs.odd.1 hodd
      have htot := hs.total_eq
      rw [if_pos hodd] at htot
      have hsum := total_append_of_odd hb c []
      rw [total_nil, Nat.add_zero] at hsum
      have hassoc : b ++ c :: cptr = b ++ [c] ++ cptr := by simp
      rw [InCksum.segment, if_pos hodd, hassoc]
      rw [hassoc] at hlen
      refine oddLoop_summed cptr hodd (by simp; omega) ?_ hlen
      have hle := total_append_of_odd hb c cptr
      have hadd := toNat_add_word (x := s.result) (w := word s.w0 c) (by rw [word]; omega)
      refine hadd.trans ?_
      rw [hsum, word]
      omega
    · rw [Bool.not_eq_true] at hodd
      obtain ⟨hb, hres⟩ := hs.even hodd
      have hsum := total_append_of_even hb (c :: cptr)
      have hdef : InCksum.segment (c :: cptr) s =
          let s' := { s with result := mainLoop ((c :: cptr).length / 2) (c :: cptr) s.result }
          if (c :: cptr).length % 2 = 1 then
            { s' with wasodd := true, w0 := (c :: cptr).getD (2 * ((c :: cptr).length / 2)) 0 }
          else { s' with wasodd := false } := by
        rw [InCksum.segment, hodd]
        rfl
      rw [hdef]
      generalize c :: cptr = seg at *
      rw [List.length_append] at hlen
      have hmain {n : ℕ} (hn : total seg = total (seg.take (2 * (seg.length / 2))) + n) :
          (mainLoop (seg.length / 2) seg s.result).toNat + n = total (b ++ seg) := by
        rw [mainLoop_eq (by omega) (by omega), hsum, hres, hn, Nat.add_assoc]
      by_cases hseg : seg.length % 2 = 1
      · simp only [hseg, if_true]
        exact ⟨by simp only [List.length_append, true_iff]; omega, by
          simpa only [if_true] using hmain (total_odd hseg)⟩
      · simp only [hseg, if_false]
        refine ⟨by simp only [List.length_append, Bool.false_eq_true, false_iff]; omega, ?_⟩
        have htake : seg.take (2 * (seg.length / 2)) = seg := List.take_of_length_le (by omega)
        exact hmain (n := 0) (by rw [htake, Nat.add_zero])

/-- Mbufs without data hold no bytes. -/
theorem bytes_dropWhile (l : List (Mbuf UInt8)) :
    bytes (l.dropWhile fun m => m.m_len = 0) = bytes l := by
  induction l with
  | nil => rfl
  | cons m l ih =>
    rw [List.dropWhile_cons]
    split
    · have hm : m.data = [] := List.length_eq_zero_iff.1 (of_decide_eq_true ‹_›)
      rw [ih, bytes_cons, hm, List.nil_append]
    · rfl

/-- The last mbuf that is needed. -/
theorem Summed.take_segment {m : Mbuf UInt8} {l : List (Mbuf UInt8)} {len : ℕ} (hs : Summed b s)
    (hlen : b.length + len ≤ 32767) (hend : len - min len m.m_len = 0) :
    (bytes (m :: l)).take len = m.data.take len ∧
      Summed (b ++ m.data.take len) (InCksum.segment (m.data.take (min len m.m_len)) s) := by
  have hle : len ≤ m.data.length := by
    rw [Mbuf.m_len] at hend
    omega
  refine ⟨by rw [bytes_cons, List.take_append_of_le_length hle], ?_⟩
  rw [show min len m.m_len = len from Nat.min_eq_left hle]
  refine hs.segment ?_
  rw [List.length_append, List.length_take_of_le hle]
  exact hlen

/-- The loop over the mbufs sums the first bytes of the chain up. -/
theorem cksumFrom_eq {m : Mbuf UInt8} {l : List (Mbuf UInt8)} {len : ℕ} (hs : Summed b s)
    (hle : len ≤ (bytes (m :: l)).length) (hlen : b.length + len ≤ 32767) :
    (cksumFrom m l len s).toNat = total (b ++ (bytes (m :: l)).take len) := by
  fun_induction cksumFrom m l len s generalizing b
  · -- The chain ends in a byte that waits: its word is filled up with a zero.
    rename_i m l len s mlen s' hend hodd
    obtain ⟨htake, hseg⟩ := hs.take_segment hlen hend
    have htot := hseg.total_eq
    rw [if_pos hodd] at htot
    have hlt : total (b ++ m.data.take len) < 2 ^ 31 := total_lt (by
      rw [List.length_append, List.length_take]
      omega)
    have hw : word s'.w0 0 = 256 * s'.w0.toNat := Nat.add_zero _
    rw [htake, ← htot, ← hw]
    exact toNat_add_word (by rw [hw]; exact htot ▸ hlt)
  · rename_i m l len s mlen s' hend hodd
    obtain ⟨htake, hseg⟩ := hs.take_segment hlen hend
    rw [htake]
    exact (hseg.even (Bool.eq_false_iff.2 hodd)).2
  · rename_i m l len s mlen s' hend hnil
    have hbytes := bytes_dropWhile l
    rw [hnil, bytes_nil] at hbytes
    rw [bytes_cons, ← hbytes, List.append_nil] at hle
    exact absurd (Nat.sub_eq_zero_of_le (Nat.le_min.2 ⟨Nat.le_refl len, hle⟩)) hend
  · rename_i m l len s mlen s' hend m' l' hnext ih
    have hbytes := bytes_dropWhile l
    rw [hnext] at hbytes
    have hmin : mlen = m.data.length := Nat.min_eq_right (by
      have : ¬len - min len m.data.length = 0 := hend
      rw [Mbuf.m_len]
      omega)
    have hs' : s' = segment m.data s := by
      change segment (m.data.take mlen) s = _
      rw [hmin, List.take_length]
    have hlt : m.data.length ≤ len := hmin ▸ Nat.min_le_left len m.m_len
    have hseg : Summed (b ++ m.data) s' :=
      hs' ▸ hs.segment (by rw [List.length_append]; omega)
    rw [bytes_cons, List.length_append] at hle
    rw [ih hseg (by rw [hbytes]; omega) (by rw [List.length_append]; omega), hbytes, bytes_cons,
      List.append_assoc, hmin, List.take_append, List.take_of_length_le hlt]

theorem fold_represents (x : BitVec 32) : Represents 65536 (fold x).toNat x.toNat := by
  fun_induction fold x with
  | case1 x r hr =>
    refine represents_self ?_
    have h := toNat_high x
    rw [show (x.sshiftRight 16).setWidth 16 = 0 from hr] at h
    have : x.toNat / 65536 = 0 := h.symm
    omega
  | case2 x r hr ih => exact (toNat_putBack x ▸ ih).of_carry

/-- The checksum of the first `len` bytes of a chain, however they are cut into mbufs. -/
theorem in_cksum_eq (tcpcksum ipcksum : ℕ) (m : Mbuf UInt8) (l : List (Mbuf UInt8)) (len : ℕ)
    (h32767 : len ≤ 32767) (hlen : len ≤ (bytes (m :: l)).length) :
    in_cksum tcpcksum ipcksum (m :: l) len =
      some (if tcpcksum = 0 ∧ ipcksum = 0 then 0
        else inetChecksum ((bytes (m :: l)).take len)) := by
  by_cases hoff : tcpcksum = 0 ∧ ipcksum = 0
  · rw [in_cksum, if_pos hoff, if_pos hoff]
  · have hs : Summed [] ⟨0, 0, 0, false⟩ := ⟨by simp, rfl⟩
    have htot := cksumFrom_eq hs hlen (by simpa using h32767)
    have hrep := fold_represents (cksumFrom m l len ⟨0, 0, 0, false⟩)
    rw [htot, List.nil_append] at hrep
    have hsum := sum_represents (by decide) (words_lt ((bytes (m :: l)).take len))
    have heq := hrep.unique hsum
    have hlt := hrep.lt
    simp only [in_cksum, if_neg hoff, inetChecksum, ← heq]
    rw [BitVec.toNat_not, BitVec.toNat_setWidth]
    simp only [Option.some.injEq]
    omega

/-- Three bytes, in two mbufs. -/
theorem in_cksum_three : in_cksum 1 1 [⟨12, [1], false⟩, ⟨12, [2, 3], false⟩] 3 = some 64509 := by
  have h := in_cksum_eq 1 1 ⟨12, [1], false⟩ [⟨12, [2, 3], false⟩] 3 (by decide) (by decide)
  rw [h]
  decide

/-- With both switches off, the same bytes have no checksum. -/
theorem in_cksum_off : ¬∀ tcpcksum ipcksum m l len, len ≤ 32767 → len ≤ (bytes (m :: l)).length →
    in_cksum tcpcksum ipcksum (m :: l) len = some (inetChecksum ((bytes (m :: l)).take len)) := by
  intro h
  have := h 0 0 ⟨12, [1, 2], false⟩ [] 2 (by decide) (by decide)
  revert this
  decide

end AuxKernel.Net.InCksum
