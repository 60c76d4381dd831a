import AuxKernel.Rpc.XdrMbuf
import Mathlib.Data.List.GetD

/-!
# Streams on mbufs are streams on flat memory

Copying bytes out of a chain, and into it, does not depend on how it is cut into mbufs
(`getbytesLoop_spec`, `putbytesLoop_spec`). A `long` does: where its four bytes do not
lie in one mbuf, it is taken from, or put to, the start of the next one, whatever there
was left (`Whole`).

* `xdrmbuf_of_whole`: where no `long` is cut, decoding a chain returns what decoding its
  bytes does, and fails where that fails; and encoding writes what flat encoding writes.
-/

namespace AuxKernel.Rpc

variable {m : Mbuf} {l before : List Mbuf} {b : List UInt8} {x x' : Xdr}

/-! ## Memory -/

@[simp] theorem length_read (m : Mbuf) (off : ℤ) (n : ℕ) : (m.read off n).length = n := by
  simp [Mbuf.read]

theorem read_add (m : Mbuf) (off : ℤ) (i n : ℕ) :
    m.read off (i + n) = m.read off i ++ m.read (off + i) n := by
  rw [Mbuf.read, List.range_add, List.map_append, List.map_map]
  refine congrArg _ (List.map_congr_left fun j _ => ?_)
  rw [Function.comp_apply]
  push_cast
  rw [add_assoc]

@[simp] theorem read_zero (m : Mbuf) (off : ℤ) : m.read off 0 = [] := rfl

/-- The first bytes of what is read, and the others. -/
theorem take_read {i n : ℕ} (h : i ≤ n) (off : ℤ) : (m.read off n).take i = m.read off i := by
  obtain ⟨k, rfl⟩ := Nat.exists_eq_add_of_le h
  rw [read_add, List.take_left' (length_read m off i)]

theorem drop_read {i n : ℕ} (h : i ≤ n) (off : ℤ) :
    (m.read off n).drop i = m.read (off + i) (n - i) := by
  obtain ⟨k, rfl⟩ := Nat.exists_eq_add_of_le h
  rw [read_add, List.drop_left' (length_read m off i), Nat.add_sub_cancel_left]

theorem take_read_append {i n : ℕ} (h : i ≤ n) (off : ℤ) (b : List UInt8) :
    (m.read off i ++ b).take n = m.read off i ++ b.take (n - i) := by
  rw [List.take_append, List.take_of_length_le (by rwa [length_read]), length_read]

theorem drop_read_append {i n : ℕ} (h : i ≤ n) (off : ℤ) (b : List UInt8) :
    (m.read off i ++ b).drop n = b.drop (n - i) := by
  rw [List.drop_append, List.drop_eq_nil_of_le (by rwa [length_read]), length_read,
    List.nil_append]

/-- What was written is there. -/
theorem read_write (m : Mbuf) (off : ℤ) (b : List UInt8) :
    (m.write off b).read off b.length = b := by
  refine List.ext_getElem (by simp) fun i h₁ h₂ => ?_
  have hi : (off + i - off).toNat = i := by omega
  simp only [Mbuf.read, Mbuf.write, List.getElem_map, List.getElem_range]
  rw [if_pos (by omega), hi, List.getD_eq_getElem _ _ h₂]

/-- What lies before and behind it is as it was. -/
theorem read_write_before {off off' : ℤ} {n : ℕ} (h : off' + n ≤ off) :
    (m.write off b).read off' n = m.read off' n := by
  refine List.map_congr_left fun i hi => ?_
  have := List.mem_range.1 hi
  rw [Mbuf.write]
  dsimp only
  rw [if_neg (by omega)]

theorem read_write_after {off off' : ℤ} {n : ℕ} (h : off + b.length ≤ off') :
    (m.write off b).read off' n = m.read off' n := by
  refine List.map_congr_left fun i _ => ?_
  rw [Mbuf.write]
  dsimp only
  rw [if_pos (by omega), List.getD_eq_default _ _ (by omega)]

@[simp] theorem chainBytes_nil : chainBytes [] = [] := rfl

@[simp] theorem chainBytes_cons : chainBytes (m :: l) = m.data ++ chainBytes l := rfl

@[simp] theorem chainBytes_append (l l' : List Mbuf) :
    chainBytes (l ++ l') = chainBytes l ++ chainBytes l' := List.flatMap_append

instance (l : List Mbuf) : Decidable (Short l) := inferInstanceAs (Decidable (∀ _ ∈ _, _ ∧ _))

theorem Short.tail (h : Short (m :: l)) : Short l := fun m' hm' => h m' (List.mem_cons_of_mem _ hm')

/-! ## Copying bytes -/

/-- The position is in the current mbuf, or at its end. -/
structure At (x : Xdr) : Prop where
  nonneg : 0 ≤ x.x_handy
  lt : x.x_handy < 2 ^ 15
  short : Short x.m_next

/-- Counting down fits into an `int`. -/
theorem toLong_sub {handy : ℤ} {len : ℕ} (h₀ : 0 ≤ handy) (h₁ : handy < 2 ^ 15)
    (hlen : len ≤ 2 ^ 31 + handy) : toLong (handy - len) = handy - len :=
  toLong_of_mem (by omega) (by omega)

/-- The bytes are in this mbuf. -/
theorem read_here (before : List Mbuf) (m : Mbuf) (off : ℤ) {handy : ℤ} {len : ℕ}
    (h₁ : handy < 2 ^ 15) (hl : Short l)
    (hle : len ≤ handy) :
    At ⟨before, m, l, off + len, handy - len⟩ ∧
    m.read off len = (m.read off handy.toNat ++ chainBytes l).take len ∧
    Xdr.rest ⟨before, m, l, off + len, handy - len⟩ =
      (m.read off handy.toNat ++ chainBytes l).drop len := by
  have hnat : len ≤ handy.toNat := by omega
  have hleft : (handy - len).toNat = handy.toNat - len := by omega
  refine ⟨⟨by dsimp only; omega, by dsimp only; omega, hl⟩, ?_, ?_⟩
  · rw [List.take_append_of_le_length (by simpa using hnat), take_read hnat]
  · rw [List.drop_append_of_le_length (by simpa using hnat), drop_read hnat, Xdr.rest, hleft]

/-- Bytes are copied out of a chain if there are as many. -/
theorem getbytesLoop_spec {off handy : ℤ} {len : ℕ} (h₀ : 0 ≤ handy) (h₁ : handy < 2 ^ 15)
    (hl : Short l) (hlen : len ≤ 2 ^ 31 + handy) :
    (len ≤ (m.read off handy.toNat ++ chainBytes l).length →
      ∃ x', getbytesLoop l before m off handy len =
          some ((m.read off handy.toNat ++ chainBytes l).take len, x') ∧ At x' ∧
        x'.rest = (m.read off handy.toNat ++ chainBytes l).drop len) ∧
    ((m.read off handy.toNat ++ chainBytes l).length < len →
      getbytesLoop l before m off handy len = none) := by
  induction l generalizing before m off handy len with
  | nil =>
    rw [getbytesLoop, toLong_sub h₀ h₁ hlen]
    split_ifs with hleft
    · simp
      omega
    · obtain ⟨hat, htake, hrest⟩ := read_here before m off h₁ hl (by omega : (len : ℤ) ≤ handy)
      refine ⟨fun _ => ⟨_, by rw [htake], hat, hrest⟩, fun h => absurd h ?_⟩
      simp
      omega
  | cons m' l ih =>
    rw [getbytesLoop, toLong_sub h₀ h₁ hlen]
    split_ifs with hleft
    · -- what there is of it, and the rest from the next mbuf
      obtain ⟨hm', hm''⟩ := hl m' List.mem_cons_self
      have hdata : m'.read 0 m'.m_len.toNat = m'.data := rfl
      obtain ⟨hsome, hnone⟩ := @ih m' (before ++ [m]) 0 m'.m_len (len - handy.toNat) hm' hm''
        hl.tail (by omega)
      simp only [hdata, List.length_append, length_read, chainBytes_cons] at hsome hnone ⊢
      refine ⟨fun h => ?_, fun h => ?_⟩
      · obtain ⟨x', hx, hat, hrest⟩ := hsome (by omega)
        refine ⟨x', ?_, hat, ?_⟩
        · rw [hx, take_read_append (by omega)]
          rfl
        · rw [hrest, drop_read_append (by omega)]
      · rw [hnone (by omega)]
        rfl
    · obtain ⟨hat, htake, hrest⟩ := read_here before m off h₁ hl (by omega : (len : ℤ) ≤ handy)
      refine ⟨fun _ => ⟨_, by rw [htake], hat, hrest⟩, fun h => absurd h ?_⟩
      rw [List.length_append, length_read]
      omega

theorem getbytes_spec {len : ℕ} (h : At x) (hlen : len ≤ 2 ^ 31 + x.x_handy) :
    (len ≤ x.rest.length → ∃ x', xdrmbuf_getbytes len x = some (x.rest.take len, x') ∧ At x' ∧
      x'.rest = x.rest.drop len) ∧
    (x.rest.length < len → xdrmbuf_getbytes len x = none) :=
  getbytesLoop_spec h.nonneg h.lt h.short hlen

/-- A pointer to bytes in this mbuf, or a copy of them: either way these are the bytes. -/
theorem inline_spec {len : ℕ} (h : At x) (hlen : len < 2 ^ 31) :
    (len ≤ x.rest.length → ∃ x', (xdrmbuf_inline len x).or (xdrmbuf_getbytes len x) =
      some (x.rest.take len, x') ∧ At x' ∧ x'.rest = x.rest.drop len) ∧
    (x.rest.length < len → (xdrmbuf_inline len x).or (xdrmbuf_getbytes len x) = none) := by
  have hlong : toLong len = len := toLong_of_mem (by omega) (by omega)
  have h₀ := h.nonneg
  have h₁ := h.lt
  rw [xdrmbuf_inline, hlong]
  split_ifs with hhere
  · rw [toLong_sub h₀ h₁ (by omega)]
    obtain ⟨hat, htake, hrest⟩ := read_here x.before x.x_base x.x_private h₁ h.short hhere
    refine ⟨fun _ => ⟨_, by rw [htake]; rfl, hat, hrest⟩, fun hlt => absurd hlt ?_⟩
    rw [Xdr.rest, List.length_append, length_read]
    omega
  · exact getbytes_spec h (by omega)

/-- The bytes before the pointer. -/
def Xdr.done (x : Xdr) : List UInt8 := chainBytes x.before ++ x.x_base.read 0 x.x_private.toNat

/-- The pointer is in the data of the current mbuf, and the rest of them is left. -/
structure Inside (x : Xdr) : Prop extends At x where
  private_nonneg : 0 ≤ x.x_private
  m_len : x.x_private + x.x_handy = x.x_base.m_len

/-- What was written follows what was there before it. -/
theorem read_write_upto {off : ℤ} (h : 0 ≤ off) (m : Mbuf) (b : List UInt8) :
    (m.write off b).read 0 (off.toNat + b.length) = m.read 0 off.toNat ++ b := by
  have hoff : (0 : ℤ) + (off.toNat : ℤ) = off := by omega
  rw [read_add, hoff, read_write, read_write_before hoff.le]

/-- The bytes are put into this mbuf. -/
theorem write_here (before : List Mbuf) (b : List UInt8) {off handy : ℤ}
    (h₁ : handy < 2 ^ 15) (hoff : 0 ≤ off)
    (hlen : off + handy = m.m_len) (hl : Short l) (hle : b.length ≤ handy) :
    Inside ⟨before, m.write off b, l, off + b.length, handy - b.length⟩ ∧
    Xdr.done ⟨before, m.write off b, l, off + b.length, handy - b.length⟩ =
      chainBytes before ++ m.read 0 off.toNat ++ b ∧
    Xdr.rest ⟨before, m.write off b, l, off + b.length, handy - b.length⟩ =
      (m.read off handy.toNat ++ chainBytes l).drop b.length := by
  have hnat : b.length ≤ handy.toNat := by omega
  have hleft : (handy - b.length).toNat = handy.toNat - b.length := by omega
  have hoff' : (off + b.length).toNat = off.toNat + b.length := by omega
  refine ⟨⟨⟨by dsimp only; omega, by dsimp only; omega, hl⟩, by dsimp only; omega, ?_⟩, ?_, ?_⟩
  · change off + b.length + (handy - b.length) = m.m_len
    omega
  · rw [Xdr.done, hoff', read_write_upto hoff, List.append_assoc]
  · rw [List.drop_append_of_le_length (by simpa using hnat), drop_read hnat, Xdr.rest, hleft,
      read_write_after le_rfl]

/-- Bytes are copied into a chain if there is room. -/
theorem putbytesLoop_spec {off handy : ℤ} (h₀ : 0 ≤ handy) (h₁ : handy < 2 ^ 15) (hoff : 0 ≤ off)
    (hlen : off + handy = m.m_len) (hl : Short l) (hb : b.length ≤ 2 ^ 31 + handy)
    (hroom : b.length ≤ (m.read off handy.toNat ++ chainBytes l).length) :
    ∃ x', putbytesLoop l before m off handy b = some x' ∧ Inside x' ∧
      x'.done = chainBytes before ++ m.read 0 off.toNat ++ b ∧
      x'.rest = (m.read off handy.toNat ++ chainBytes l).drop b.length := by
  induction l generalizing before m off handy b with
  | nil =>
    rw [List.length_append, length_read, chainBytes_nil, List.length_nil] at hroom
    rw [putbytesLoop, toLong_sub h₀ h₁ hb, if_neg (by omega)]
    exact ⟨_, rfl, write_here before b h₁ hoff hlen hl (by omega)⟩
  | cons m' l ih =>
    rw [putbytesLoop, toLong_sub h₀ h₁ hb]
    split_ifs with hleft
    · -- this mbuf is filled up, and the rest put into the next one
      obtain ⟨hm', hm''⟩ := hl m' List.mem_cons_self
      have hdata : m'.read 0 m'.m_len.toNat = m'.data := rfl
      have htake : (b.take handy.toNat).length = handy.toNat := by
        rw [List.length_take]
        omega
      have hfull : (m.write off (b.take handy.toNat)).data =
          m.read 0 off.toNat ++ b.take handy.toNat := by
        rw [← read_write_upto hoff, htake, Mbuf.data]
        congr 1
        change m.m_len.toNat = _
        omega
      rw [List.length_append, length_read, chainBytes_cons, ← hdata] at hroom
      have hb' : (b.drop handy.toNat).length ≤ 2 ^ 31 + m'.m_len := by
        rw [List.length_drop]
        omega
      have hroom' : (b.drop handy.toNat).length ≤
          (m'.read 0 m'.m_len.toNat ++ chainBytes l).length := by
        rw [List.length_drop]
        omega
      obtain ⟨x', hx, hin, hdone, hrest⟩ := @ih m' (before ++ [m.write off (b.take handy.toNat)])
        (b.drop handy.toNat) 0 m'.m_len hm' hm'' le_rfl (zero_add _) hl.tail hb' hroom'
      refine ⟨x', hx, hin, ?_, ?_⟩
      · rw [hdone, chainBytes_append, chainBytes_cons, hfull]
        simp [List.append_assoc]
      · rw [hrest, List.length_drop, hdata, chainBytes_cons, drop_read_append (by omega)]
    · exact ⟨_, rfl, write_here before b h₁ hoff hlen hl (by omega)⟩

/-! ## A long -/

/-- No `long` is cut at the position: four bytes are left in the mbuf, or none and there are
    four in the next one; or there is no next one. -/
def Whole (x : Xdr) : Prop :=
  4 ≤ x.x_handy ∨ ∀ m ∈ x.m_next.head?, x.x_handy = 0 ∧ 4 ≤ m.m_len

instance (x : Xdr) : Decidable (Whole x) := inferInstanceAs (Decidable (_ ∨ ∀ _ ∈ _, _))

theorem atLong_cases (h : At x) (hw : Whole x) :
    (4 ≤ x.x_handy ∧ x.atLong = some { x with x_handy := x.x_handy - 4 }) ∨
    (∃ m l, x.m_next = m :: l ∧ x.x_handy = 0 ∧ 4 ≤ m.m_len ∧
      x.atLong = some ⟨x.before ++ [x.x_base], m, l, 0, m.m_len - 4⟩) ∨
    (x.m_next = [] ∧ x.x_handy < 4 ∧ x.atLong = none) := by
  have h₀ := h.nonneg
  have h₁ := h.lt
  rw [Xdr.atLong, toLong_of_mem (by omega) (by omega)]
  rcases lt_or_ge x.x_handy 4 with hlt | hge
  · rw [if_pos (by omega), Xdr.advance]
    cases hnext : x.m_next with
    | nil => exact .inr (.inr ⟨rfl, hlt, rfl⟩)
    | cons m l =>
      obtain ⟨hzero, hm⟩ := (hw.resolve_left (by omega)) m (by rw [hnext]; rfl)
      have hshort := (h.short m (by rw [hnext]; exact List.mem_cons_self)).2
      refine .inr (.inl ⟨m, l, rfl, hzero, hm, ?_⟩)
      simp only [Option.map_some]
      rw [toLong_of_mem (by omega) (by omega)]
  · rw [if_neg (by omega)]
    exact .inl ⟨hge, rfl⟩

/-- What is left where there are `i + n` bytes at the pointer. -/
theorem rest_append (m : Mbuf) (off : ℤ) (n : ℕ) (b : List UInt8) :
    m.read off (4 + n) ++ b = m.read off 4 ++ (m.read (off + 4) n ++ b) := by
  rw [read_add, List.append_assoc]
  rfl

theorem getlong_spec (h : At x) (hw : Whole x) :
    (4 ≤ x.rest.length → ∃ x', xdrmbuf_getlong x = some (ntohl (x.rest.take 4), x') ∧ At x' ∧
      x'.rest = x.rest.drop 4) ∧
    (x.rest.length < 4 → xdrmbuf_getlong x = none) := by
  have h₁ := h.lt
  -- the four bytes are at the pointer of `y`
  have hfound {y : Xdr} (hat : x.atLong = some y) (hy : At y)
      (hrest : x.rest = y.x_base.read y.x_private 4 ++
        Xdr.rest { y with x_private := y.x_private + 4 }) :
      (4 ≤ x.rest.length → ∃ x', xdrmbuf_getlong x = some (ntohl (x.rest.take 4), x') ∧ At x' ∧
        x'.rest = x.rest.drop 4) ∧ (x.rest.length < 4 → xdrmbuf_getlong x = none) := by
    rw [xdrmbuf_getlong, hat, hrest, List.take_left' (length_read _ _ 4),
      List.drop_left' (length_read _ _ 4)]
    refine ⟨fun _ => ⟨_, rfl, ⟨hy.nonneg, hy.lt, hy.short⟩, rfl⟩, fun hlt => absurd hlt ?_⟩
    rw [List.length_append, length_read]
    omega
  rcases atLong_cases h hw with ⟨hge, hat⟩ | ⟨m, l, hnext, hzero, hm, hat⟩ | ⟨hnext, hlt, hat⟩
  · refine hfound hat ⟨by dsimp only; omega, by dsimp only; omega, h.short⟩ ?_
    have hnat : x.x_handy.toNat = 4 + (x.x_handy - 4).toNat := by omega
    rw [Xdr.rest, hnat, rest_append]
    rfl
  · have hshort := h.short
    rw [hnext] at hshort
    have hlt := (hshort m List.mem_cons_self).2
    refine hfound hat ⟨by dsimp only; omega, by dsimp only; omega, hshort.tail⟩ ?_
    have hnat : m.m_len.toNat = 4 + (m.m_len - 4).toNat := by omega
    rw [Xdr.rest, hnext, hzero, chainBytes_cons, Mbuf.data, hnat, rest_append]
    rfl
  · rw [xdrmbuf_getlong, hat, Xdr.rest, hnext]
    refine ⟨fun hge => absurd hge ?_, fun _ => rfl⟩
    simp
    omega

@[simp] theorem length_htonl (v : ℤ) : (htonl v).length = 4 := rfl

theorem putlong_spec (h : Inside x) (hw : Whole x) (v : ℤ) (hroom : 4 ≤ x.rest.length) :
    ∃ x', xdrmbuf_putlong v x = some x' ∧ Inside x' ∧ x'.done = x.done ++ htonl v ∧
      x'.rest = x.rest.drop 4 := by
  have h₁ := h.lt
  rcases atLong_cases h.toAt hw with ⟨hge, hat⟩ | ⟨m, l, hnext, hzero, hm, hat⟩ |
    ⟨hnext, hlt, hat⟩
  · obtain ⟨hin, hdone, hrest⟩ := write_here x.before (htonl v) h₁
      h.private_nonneg h.m_len h.short (by simpa using hge)
    exact ⟨_, by rw [xdrmbuf_putlong, hat]; rfl, hin, hdone, hrest⟩
  · have hshort := h.short
    rw [hnext] at hshort
    have hlt := (hshort m List.mem_cons_self).2
    obtain ⟨hin, hdone, hrest⟩ := write_here (x.before ++ [x.x_base]) (htonl v) hlt
      le_rfl (zero_add _) hshort.tail (by simpa using hm)
    refine ⟨_, by rw [xdrmbuf_putlong, hat]; rfl, hin, ?_, ?_⟩
    · -- the mbuf before is full
      have hfull : x.x_private.toNat = x.x_base.m_len.toNat := by
        have := h.m_len
        omega
      refine hdone.trans ?_
      simp [Xdr.done, hfull, Mbuf.data]
    · refine hrest.trans ?_
      rw [Xdr.rest, hnext, hzero]
      rfl
  · rw [Xdr.rest, hnext] at hroom
    simp at hroom
    omega

/-! ## Runs -/

/-- No `long` is cut at the position of the stream, and lengths are not taken for negative. -/
def Get.Clean (x : Xdr) : Get → Prop
  | .long => Whole x
  | .bytes len => len ≤ 2 ^ 31 + x.x_handy
  | .inline len => len < 2 ^ 31

@[inherit_doc Get.Clean]
def Put.Clean (x : Xdr) : Put → Prop
  | .long _ => Whole x
  | .bytes b => b.length ≤ 2 ^ 31 + x.x_handy

/-- There is room in the chain. -/
def Put.Room (s : Encoding) (p : Put) : Prop :=
  s.written.length + p.encode.length ≤ s.old.length

instance (x : Xdr) : ∀ g : Get, Decidable (g.Clean x)
  | .long => inferInstanceAs (Decidable (Whole x))
  | .bytes _ => inferInstanceAs (Decidable (_ ≤ _))
  | .inline _ => inferInstanceAs (Decidable (_ < _))

instance (x : Xdr) : ∀ p : Put, Decidable (p.Clean x)
  | .long _ => inferInstanceAs (Decidable (Whole x))
  | .bytes _ => inferInstanceAs (Decidable (_ ≤ _))

instance (s : Encoding) (p : Put) : Decidable (p.Room s) := inferInstanceAs (Decidable (_ ≤ _))

/-- What is returned if there are enough bytes, and only then. -/
theorem item_spec {β : Type} {r : Option (β × Xdr)} {v : β} {n : ℕ} (item : β → Item)
    (hsome : n ≤ x.rest.length → ∃ x', r = some (v, x') ∧ At x' ∧ x'.rest = x.rest.drop n)
    (hnone : x.rest.length < n → r = none) :
    (∃ w x', (r.map fun y => (item y.1, y.2)) = some (w, x') ∧
      (if n ≤ x.rest.length then some (item v, x.rest.drop n) else none) = some (w, x'.rest) ∧
        At x') ∨
    (r.map fun y => (item y.1, y.2)) = none ∧
      (if n ≤ x.rest.length then some (item v, x.rest.drop n) else none) = none := by
  rcases le_or_gt n x.rest.length with hlen | hlen
  · obtain ⟨x', rfl, hat, hrest⟩ := hsome hlen
    exact .inl ⟨item v, x', rfl, by rw [if_pos hlen, hrest], hat⟩
  · exact .inr ⟨by rw [hnone hlen]; rfl, if_neg (not_le.2 hlen)⟩

/-- One operation returns the same, or fails, on the chain and on the bytes left of it. -/
theorem get_spec (h : At x) {g : Get} (hg : g.Clean x) :
    (∃ v x', x.get g = some (v, x') ∧ flatGet x.rest g = some (v, x'.rest) ∧ At x') ∨
      x.get g = none ∧ flatGet x.rest g = none := by
  cases g with
  | long => exact item_spec .long (getlong_spec h hg).1 (getlong_spec h hg).2
  | bytes len => exact item_spec .bytes (getbytes_spec h hg).1 (getbytes_spec h hg).2
  | inline len => exact item_spec .bytes (inline_spec h hg).1 (inline_spec h hg).2

/-- Where a stream starts. -/
theorem inside_init {l : List Mbuf} (h : Short (m :: l)) : Inside (xdrmbuf_init m l) := by
  obtain ⟨h₀, h₁⟩ := h m List.mem_cons_self
  exact ⟨⟨h₀, h₁, h.tail⟩, le_rfl, zero_add _⟩

theorem decoding_invariant {s : Decoding} (h : decoding.ReachableIf (fun s g => g.Clean s.x) s) :
    At s.x ∧ s.flat = s.x.rest ∧ s.got = s.flatGot := by
  refine h.invariant (P := fun s => At s.x ∧ s.flat = s.x.rest ∧ s.got = s.flatGot)
    (fun s hs => ?_) fun s g s' h hg hn => ?_
  · obtain ⟨m, l, hshort, rfl⟩ := hs
    exact ⟨(inside_init hshort).toAt, rfl, rfl⟩
  · obtain ⟨hat, hflat, hgot⟩ := h
    change s.step g = some s' at hn
    rw [Decoding.step] at hn
    split_ifs at hn with hended
    obtain rfl := Option.some.inj hn
    rw [hflat, hgot]
    rcases get_spec hat hg with ⟨v, x', hx, hf, hat'⟩ | ⟨hx, hf⟩
    · rw [hx, hf]
      exact ⟨hat', rfl, rfl⟩
    · rw [hx, hf]
      exact ⟨hat, rfl, rfl⟩

theorem put_spec (h : Inside x) {p : Put} (hp : p.Clean x)
    (hroom : p.encode.length ≤ x.rest.length) :
    ∃ x', x.put p = some x' ∧ Inside x' ∧ x'.done = x.done ++ p.encode ∧
      x'.rest = x.rest.drop p.encode.length := by
  cases p with
  | long v => exact putlong_spec h hp v hroom
  | bytes b =>
    exact putbytesLoop_spec h.nonneg h.lt h.private_nonneg h.m_len h.short hp hroom

/-- The chain is what is before the pointer and what is behind it. -/
theorem chainBytes_chain (h : Inside x) : chainBytes x.chain = x.done ++ x.rest := by
  have h₀ := h.nonneg
  have hoff := h.private_nonneg
  have hlen := h.m_len
  have hnat : x.x_base.m_len.toNat = x.x_private.toNat + x.x_handy.toNat := by omega
  have hoff' : (0 : ℤ) + x.x_private.toNat = x.x_private := by omega
  rw [Xdr.chain, chainBytes_append, chainBytes_cons, Mbuf.data, hnat, read_add, hoff', Xdr.done,
    Xdr.rest]
  simp only [List.append_assoc]

theorem encoding_invariant {s : Encoding}
    (h : encoding.ReachableIf (fun s p => p.Room s ∧ p.Clean s.x) s) :
    Inside s.x ∧ s.x.done = s.written ∧ s.x.rest = s.old.drop s.written.length ∧
      s.failed = false := by
  refine h.invariant (P := fun s => Inside s.x ∧ s.x.done = s.written ∧
    s.x.rest = s.old.drop s.written.length ∧ s.failed = false) (fun s hs => ?_)
    fun s p s' h hp hn => ?_
  · obtain ⟨m, l, hshort, rfl⟩ := hs
    exact ⟨inside_init hshort, rfl, rfl, rfl⟩
  · obtain ⟨hin, hdone, hrest, hfailed⟩ := h
    obtain ⟨hroom, hclean⟩ := hp
    rw [Put.Room] at hroom
    obtain ⟨x', hx, hin', hdone', hrest'⟩ := put_spec hin hclean (by
      rw [hrest, List.length_drop]
      omega)
    change s.step p = some s' at hn
    rw [Encoding.step, if_neg (by simp [hfailed]), hx] at hn
    obtain rfl := Option.some.inj hn
    refine ⟨hin', by rw [hdone', hdone], ?_, hfailed⟩
    rw [hrest', hrest, List.drop_drop, List.length_append]

/-- Where no `long` is cut, and no length is taken for negative, a decoder of a chain returns
    what one of its bytes does, and an encoder writes to a chain what one to bytes does. -/
theorem xdrmbuf_of_whole {s : Decoding} {t : Encoding}
    (hs : decoding.ReachableIf (fun s g => g.Clean s.x) s)
    (ht : encoding.ReachableIf (fun t p => p.Room t ∧ p.Clean t.x) t) :
    s.got = s.flatGot ∧ t.failed = false ∧
      chainBytes t.x.chain = t.written ++ t.old.drop t.written.length := by
  obtain ⟨hin, hdone, hrest, hfailed⟩ := encoding_invariant ht
  exact ⟨(decoding_invariant hs).2.2, hfailed, by rw [chainBytes_chain hin, hdone, hrest]⟩

/-- An mbuf with some bytes, behind which memory is zero. -/
def mbufOf (b : List UInt8) : Mbuf := ⟨b.length, fun i => b.getD i.toNat 0⟩

/-- A chain is read and written over the ends of its mbufs, and an empty one between them. -/
theorem xdrmbuf_cut : ∃ (s : Decoding) (t : Encoding),
    s.got = [some (.long 1), some (.bytes [2, 3, 4]), none] ∧ t.written = [0, 0, 0, 1, 7, 8, 9] ∧
    s.got = s.flatGot ∧ t.failed = false ∧
      chainBytes t.x.chain = t.written ++ t.old.drop t.written.length := by
  obtain ⟨s, hs, hgot⟩ := Option.map_eq_some_iff.1
    (show (decoding.runIf (fun s g => g.Clean s.x)
      ⟨xdrmbuf_init (mbufOf [0, 0, 0, 1, 2]) [mbufOf [], mbufOf [3, 4, 5]],
        chainBytes [mbufOf [0, 0, 0, 1, 2], mbufOf [], mbufOf [3, 4, 5]], [], [], false⟩
      [.long, .bytes 3, .inline 2]).map Decoding.got =
      some [some (.long 1), some (.bytes [2, 3, 4]), none] by decide)
  obtain ⟨t, ht, hwritten⟩ := Option.map_eq_some_iff.1
    (show (encoding.runIf (fun t p => p.Room t ∧ p.Clean t.x)
      ⟨xdrmbuf_init (mbufOf [0, 0, 0, 0, 0]) [mbufOf [0, 0, 0]],
        chainBytes [mbufOf [0, 0, 0, 0, 0], mbufOf [0, 0, 0]], [], false⟩
      [.long 1, .bytes [7, 8, 9]]).map Encoding.written = some [0, 0, 0, 1, 7, 8, 9] by decide)
  exact ⟨s, t, hgot, hwritten, xdrmbuf_of_whole
    (Machine.reachableIf_runIf (.init ⟨_, _, by decide, rfl⟩) hs)
    (Machine.reachableIf_runIf (.init ⟨_, _, by decide, rfl⟩) ht)⟩

/-- A `long` whose bytes are the last two of an mbuf and the first two of the next one is read
    from the start of the next one. -/
theorem not_xdrmbuf : ¬∀ (s : Decoding) (t : Encoding), decoding.Reachable s →
    encoding.ReachableIf (fun t p => p.Room t) t → s.got = s.flatGot ∧ t.failed = false ∧
      chainBytes t.x.chain = t.written ++ t.old.drop t.written.length := by
  intro h
  obtain ⟨s, hs, hgot⟩ := Option.map_eq_some_iff.1
    (show (decoding.run
      ⟨xdrmbuf_init (mbufOf [0, 0]) [mbufOf [0, 1, 0, 0]],
        chainBytes [mbufOf [0, 0], mbufOf [0, 1, 0, 0]], [], [], false⟩ [.long]).map
      (fun s => (s.got, s.flatGot)) = some ([some (.long (2 ^ 16))], [some (.long 1)]) by decide)
  have heq := (h s ⟨xdrmbuf_init (mbufOf []) [], [], [], false⟩
    (Machine.reachableIf_run (.init ⟨_, _, by decide, rfl⟩) (fun _ _ _ => trivial) hs)
    (.init ⟨mbufOf [], [], by decide, rfl⟩)).1
  obtain ⟨hg, hf⟩ := Prod.mk.inj hgot
  rw [hg, hf] at heq
  exact absurd heq (by decide)

end AuxKernel.Rpc
