import AuxKernel.Ip.Output

/-!
# Fragments are exact where there are no options

Without options the loop cuts the data into pieces that lie side by side
(`fragmentLoop_spec`). With options it does not skip these before it copies the data, nor does
it count them in the lengths of the fragments, so that the first fragment is wrong already.

* `exact_iff`: a packet is sent in exact fragments just when it has no options, or is sent
  whole.
-/

namespace AuxKernel.Ip.Output

open Net

variable {in_cksum : Ip → List (Mbuf UInt8) → ℤ → ℕ}

/-! ## What is meant -/

/-- The data of a datagram, or of a fragment: where they start in the whole of it, in units of
    eight bytes; and whether more fragments follow. -/
structure Data where
  offset : ℕ
  mf : Bool
  payload : List UInt8
  le : 8 * offset + payload.length ≤ 65535

/-- What a receiver takes for the data of a packet. -/
def Sent.payload (p : Sent) : List UInt8 := (bytes p.text).drop (4 * p.ip.ip_hl - sizeofIp).toNat

/-- The bytes of the whole datagram that a packet says it carries. -/
def Sent.range (p : Sent) : Range := (8 * p.ip.offset, p.payload.length)

/-- A packet that is not too large, whose header and lengths are as they say, and that carries
    a piece of the data, in its place; more fragments follow unless it has the last byte. -/
structure Piece (d : Data) (mtu : ℤ) (p : Sent) : Prop where
  small : sizeofIp + (bytes p.text).length ≤ mtu
  len : p.ip.ip_len = sizeofIp + (bytes p.text).length
  hl : sizeofIp ≤ 4 * p.ip.ip_hl ∧ 4 * p.ip.ip_hl ≤ p.ip.ip_len
  mf : p.ip.mf = true ↔
    d.mf = true ∨ 8 * p.ip.offset + p.payload.length < 8 * d.offset + d.payload.length
  data : ∃ i, 8 * p.ip.offset = 8 * d.offset + i ∧
    p.payload = (d.payload.drop i).take p.payload.length

/-- The packets are exact: each is as it should be, and each byte of the data is carried once. -/
structure Exact (d : Data) (mtu : ℤ) (l : List Sent) : Prop where
  piece : ∀ p ∈ l, Piece d mtu p
  once : ∀ a, Range.cover (l.map Sent.range) a =
    if Range.Has (8 * d.offset, d.payload.length) a then 1 else 0

/-- A packet with its header filled in carries the data. Its length may be too large for a
    `short`. -/
structure Carries (d : Data) (ip : Ip) (m : List (Mbuf UInt8)) (hlen : ℤ) : Prop where
  hl : 4 * ip.ip_hl = hlen
  text : ∃ opts, bytes m = opts ++ d.payload ∧ sizeofIp + (opts.length : ℤ) = hlen
  len : ip.ip_len = toShort (hlen + d.payload.length)
  le : hlen + d.payload.length ≤ 32767 + 40
  short : -2 ^ 15 ≤ ip.ip_off ∧ ip.ip_off < 2 ^ 15
  offset : ip.offset = d.offset
  mf : ip.mf = d.mf

/-! ## Words -/

section Words

variable {n : ℤ}

theorem hasFlag_mf (n : ℤ) : hasFlag IP_MF n = true ↔ n / 0x2000 % 2 = 1 := by
  rw [hasFlag, IP_MF, decide_eq_true_iff]

/-- Clearing and setting `IP_MF` changes nothing else. -/
theorem clearFlag_mf (n : ℤ) : clearFlag IP_MF n % 0x2000 = n % 0x2000 ∧
    clearFlag IP_MF n / 0x2000 % 2 = 0 ∧ clearFlag IP_MF n / 0x4000 = n / 0x4000 := by
  have hiff := hasFlag_mf n
  rw [clearFlag]
  split_ifs with h
  · have := hiff.1 h
    rw [IP_MF]
    omega
  · have := mt hiff.2 h
    omega

theorem setFlag_mf (n : ℤ) : setFlag IP_MF n % 0x2000 = n % 0x2000 ∧
    setFlag IP_MF n / 0x2000 % 2 = 1 := by
  have hiff := hasFlag_mf n
  rw [setFlag]
  split_ifs with h
  · exact ⟨rfl, hiff.1 h⟩
  · have := mt hiff.2 h
    rw [IP_MF]
    omega

/-- Adding to the offset does not carry into the flags. -/
theorem add_offset {k : ℤ} (h₀ : -2 ^ 15 ≤ n) (h₁ : n < 2 ^ 15) (hk : 0 ≤ k)
    (hle : n % 0x2000 + k < 0x2000) :
    toShort (k + clearFlag IP_MF n) % 0x2000 = n % 0x2000 + k ∧
      toShort (k + clearFlag IP_MF n) / 0x2000 % 2 = 0 := by
  obtain ⟨hc₁, hc₂, hc₃⟩ := clearFlag_mf n
  rw [toShort_of_mem (by omega) (by omega)]
  omega

/-- The length of a fragment fits into its word. -/
theorem length_word {l : ℤ} (h₀ : 0 ≤ l) (h₁ : l + sizeofIp ≤ 32767) :
    toUshort (toShort (toShort l + sizeofIp)) = sizeofIp + l := by
  rw [toShort_of_mem (by omega : -2 ^ 15 ≤ l) (by omega), toShort_of_mem (by omega) (by omega),
    toUshort_of_mem (by omega) (by omega), add_comm]

end Words

/-! ## Copies -/

section Copies

variable {α : Type*} {l : List (Mbuf α)} {off len : ℕ}

theorem copyFrom_spec (hoff : ∀ m ∈ l.head?, off ≤ m.m_len) (h : off + len ≤ (bytes l).length) :
    ∃ c, copyFrom l off len = some c ∧ bytes c = ((bytes l).drop off).take len := by
  induction l generalizing off len with
  | nil =>
    obtain rfl : len = 0 := by
      rw [bytes_nil, List.length_nil] at h
      omega
    exact ⟨[], by rw [copyFrom], by simp⟩
  | cons m l ih =>
    cases len with
    | zero => exact ⟨[], by rw [copyFrom], by simp⟩
    | succ len =>
      have hm : off ≤ m.data.length := hoff m rfl
      rw [bytes_cons, List.length_append] at h
      rw [copyFrom]
      obtain ⟨c, hc, hbytes⟩ := @ih 0 (len + 1 - min (len + 1) (m.m_len - off))
        (fun _ _ => Nat.zero_le _) (by rw [Mbuf.m_len]; omega)
      refine ⟨_, by rw [hc]; rfl, ?_⟩
      rw [bytes_cons, hbytes, bytes_cons, List.drop_append_of_le_length hm, List.take_append,
        List.length_drop, List.drop_zero, Mbuf.m_len]
      congr 1
      · rcases le_total (len + 1) (m.data.length - off) with hle | hle
        · rw [min_eq_left hle]
        · rw [min_eq_right hle, List.take_of_length_le (by simp),
            List.take_of_length_le (by simp; omega)]
      · congr 1
        omega

theorem skipTo_spec (h : off ≤ (bytes l).length) : ∃ l' off', skipTo l off = some (l', off') ∧
    (bytes l').drop off' = (bytes l).drop off ∧ (∀ m ∈ l'.head?, off' ≤ m.m_len) ∧
    off' ≤ (bytes l').length := by
  induction l generalizing off with
  | nil =>
    obtain rfl : off = 0 := Nat.le_zero.1 h
    exact ⟨[], 0, rfl, rfl, fun _ _ => Nat.zero_le _, le_rfl⟩
  | cons m l ih =>
    cases off with
    | zero => exact ⟨m :: l, 0, rfl, rfl, fun _ _ => Nat.zero_le _, Nat.zero_le _⟩
    | succ off =>
      rw [skipTo]
      split_ifs with hlt
      · refine ⟨m :: l, off + 1, rfl, rfl, fun n hn => ?_, h⟩
        obtain rfl := Option.some.inj hn
        exact hlt.le
      · rw [Mbuf.m_len, not_lt] at hlt
        rw [bytes_cons, List.length_append] at h
        obtain ⟨l', off', hskip, hdrop, hhead, hle⟩ := @ih (off + 1 - m.m_len)
          (by rw [Mbuf.m_len]; omega)
        refine ⟨l', off', hskip, hdrop.trans ?_, hhead, hle⟩
        rw [bytes_cons, List.drop_append, List.drop_eq_nil_of_le hlt, List.nil_append, Mbuf.m_len]

/-- A copy has the bytes of what it is a copy of. -/
theorem m_copy_spec (h : off + len ≤ (bytes l).length) :
    ∃ c, m_copy l off len = some c ∧ bytes c = ((bytes l).drop off).take len := by
  obtain ⟨l', off', hskip, hdrop, hhead, hle⟩ := skipTo_spec (by omega : off ≤ (bytes l).length)
  have hlen := congrArg List.length hdrop
  rw [List.length_drop, List.length_drop] at hlen
  obtain ⟨c, hc, hbytes⟩ := copyFrom_spec hhead (by omega : off' + len ≤ (bytes l').length)
  exact ⟨c, by rw [m_copy, hskip]; exact hc, hbytes.trans (by rw [hdrop])⟩

end Copies

/-! ## One fragment -/

section Fragment

variable {env : Env} {ip : Ip} {m : List (Mbuf UInt8)} {hlen len : ℤ} {d : Data} {off : ℕ}

/-- Nothing goes wrong while fragments are made and sent. -/
structure Env.Obliging (env : Env) : Prop where
  mget : ∀ off, env.mget off = true
  mcopy : ∀ off, env.mcopy off = true
  if_output : ∀ off, env.if_output off = none

/-- The header of a fragment that is not empty. -/
theorem fragmentIp_spec (h : Carries d ip m hlen) (hle : hlen + d.payload.length ≤ 32767)
    (hlen₀ : 0 < len) (hoff : off < d.payload.length) (hdvd : 8 ∣ off) :
    (fragmentIp ip hlen off len).2 = min len (d.payload.length - off) ∧
    (fragmentIp ip hlen off len).1.ip_hl = ip.ip_hl ∧
    (fragmentIp ip hlen off len).1.ip_len = sizeofIp + min len (d.payload.length - off) ∧
    8 * (fragmentIp ip hlen off len).1.offset = 8 * d.offset + off ∧
    ((fragmentIp ip hlen off len).1.mf = true ↔
      d.mf = true ∨ off + len < d.payload.length) := by
  obtain ⟨opts, -, hopts⟩ := h.text
  have hn : ip.ip_len - hlen = d.payload.length := by
    rw [h.len, toShort_of_mem (by omega) (by omega)]
    omega
  have hroom : (d.payload.length : ℤ) + sizeofIp ≤ 32767 := by omega
  obtain ⟨hw₁, hw₂⟩ :
      toShort ((off : ℤ) / 8 + clearFlag IP_MF ip.ip_off) % 0x2000 = d.offset + off / 8 ∧
      toShort ((off : ℤ) / 8 + clearFlag IP_MF ip.ip_off) / 0x2000 % 2 = 0 := by
    have hoffset := h.offset
    have hdle := d.le
    rw [Ip.offset] at hoffset
    have hword := add_offset h.short.1 h.short.2 (by omega : (0 : ℤ) ≤ off / 8) (by omega)
    exact ⟨hword.1.trans (by omega), hword.2⟩
  have hmf : hasFlag IP_MF ip.ip_off = d.mf := h.mf
  rw [fragmentIp, hn, hmf]
  generalize toShort ((off : ℤ) / 8 + clearFlag IP_MF ip.ip_off) = w at hw₁ hw₂ ⊢
  obtain ⟨hs₁, hs₂⟩ := setFlag_mf w
  obtain ⟨hs₃, hs₄⟩ := setFlag_mf (setFlag IP_MF w)
  have hclear : hasFlag IP_MF w = false := by
    rw [← Bool.not_eq_true, hasFlag_mf, hw₂]
    decide
  clear h hle hn hopts
  rcases lt_or_ge ((off : ℤ) + len) d.payload.length with hlt | hge
  · -- more of the data is left
    have hmin : min len (d.payload.length - off) = len := min_eq_left (by omega)
    simp only [ge_iff_le, if_neg (not_le.2 hlt), Ip.offset, Ip.mf, hmin]
    refine ⟨trivial, trivial, length_word (by omega) (by omega), ?_, ?_⟩
    · split_ifs <;> omega
    · simp only [hlt, or_true, iff_true, hasFlag_mf]
      split_ifs <;> assumption
  · have hmin : min len (d.payload.length - off) = d.payload.length - off := min_eq_right (by omega)
    simp only [ge_iff_le, if_pos hge, Ip.offset, Ip.mf, hmin]
    refine ⟨trivial, trivial, length_word (by omega) (by omega), ?_, ?_⟩
    · split_ifs <;> omega
    · simp only [not_lt.2 hge, or_false]
      split_ifs with hb
      · simp only [hb, iff_true, hasFlag_mf]
        exact hs₂
      · simp [hb, hclear]

variable (in_cksum) in
/-- A fragment has the options that are copied for it, and the bytes from `off` on of all that
    follows the first twenty bytes of the packet. -/
theorem fragment_spec (henv : env.Obliging) (h : Carries d ip m hlen)
    (hle : hlen + d.payload.length ≤ 32767) (hlen₀ : 0 < len) (hoff : off < d.payload.length)
    (hdvd : 8 ∣ off) :
    ∃ f : List UInt8 → Sent,
      fragment in_cksum env ip m hlen off len =
        (if hlen > sizeofIp then ip_optcopy ip (bytes m) off else some []).map
          (fun opts => .ok (f opts)) ∧
      ∀ opts, (f opts).ip.ip_hl = ip.ip_hl ∧
        (f opts).ip.ip_len = sizeofIp + min len (d.payload.length - off) ∧
        8 * (f opts).ip.offset = 8 * d.offset + off ∧
        ((f opts).ip.mf = true ↔ d.mf = true ∨ off + len < d.payload.length) ∧
        bytes (f opts).text =
          opts ++ ((bytes m).drop off).take (min len (d.payload.length - off)).toNat := by
  obtain ⟨hl, hip⟩ := fragmentIp_spec h hle hlen₀ hoff hdvd
  obtain ⟨opts, htext, -⟩ := h.text
  have hroom : (off : ℤ).toNat + (fragmentIp ip hlen off len).2.toNat ≤ (bytes m).length := by
    rw [hl, htext, List.length_append]
    omega
  obtain ⟨c, hc, hbytes⟩ := m_copy_spec hroom
  rw [hl, Int.toNat_natCast] at hbytes
  refine ⟨fun opts => ⟨{ (fragmentIp ip hlen off len).1 with
    ip_sum := in_cksum { (fragmentIp ip hlen off len).1 with ip_sum := 0 }
      (⟨MMAXOFF - hlen.toNat + sizeofIp, opts, false⟩ :: c) hlen },
    ⟨MMAXOFF - hlen.toNat + sizeofIp, opts, false⟩ :: c⟩, ?_, fun opts => ?_⟩
  · rw [fragment, if_neg (by simp [henv.mget])]
    cases (if hlen > sizeofIp then ip_optcopy ip (bytes m) off else some []) with
    | none => rfl
    | some opts =>
      simp only [Option.bind_some, henv.mcopy, hc]
      rfl
  · obtain ⟨hhl, hiplen, hoffset, hmf⟩ := hip
    exact ⟨hhl, hiplen, hoffset, hmf, by rw [bytes_cons, hbytes]⟩

/-! ## The loop -/

variable (in_cksum) in
/-- Without options a fragment is a piece of the data. -/
theorem fragment_piece {mtu : ℤ} (henv : env.Obliging) (h : Carries d ip m sizeofIp)
    (hle : sizeofIp + d.payload.length ≤ 32767) (hlen₀ : 0 < len) (hmtu : len ≤ mtu - sizeofIp)
    (hoff : off < d.payload.length) (hdvd : 8 ∣ off) :
    ∃ p, fragment in_cksum env ip m sizeofIp off len = some (.ok p) ∧ Piece d mtu p ∧
      p.range = (8 * d.offset + off, (min len (d.payload.length - off)).toNat) := by
  obtain ⟨f, hf, hspec⟩ := fragment_spec in_cksum henv h (by exact_mod_cast hle) hlen₀
    hoff hdvd
  obtain ⟨hhl, hiplen, hoffset, hmf, htext⟩ := hspec []
  obtain ⟨opts, hm, hopts⟩ := h.text
  obtain rfl : opts = [] := List.eq_nil_of_length_eq_zero (by omega)
  rw [hm, List.nil_append, List.nil_append] at htext
  have hfull : (bytes (f []).text).length = (min len (d.payload.length - off)).toNat := by
    rw [htext, List.length_take, List.length_drop]
    omega
  have hpayload : (f []).payload = bytes (f []).text := by
    have hzero : (4 * (f []).ip.ip_hl - sizeofIp).toNat = 0 := by
      rw [hhl, h.hl]
      omega
    rw [Sent.payload, hzero, List.drop_zero]
  refine ⟨f [], by rw [hf, if_neg (lt_irrefl _)]; rfl, ⟨?_, ?_, ?_, ?_, off, hoffset, ?_⟩, ?_⟩
  · rw [hfull]
    omega
  · rw [hiplen, hfull]
    omega
  · rw [hhl, h.hl, hiplen]
    omega
  · rw [hmf, hpayload, hfull, hoffset]
    refine or_congr Iff.rfl ?_
    omega
  · rw [hpayload, hfull, htext]
  · rw [Sent.range, hoffset, hpayload, hfull]

/-- A range is cut at `k`, or before it ends. -/
theorem cover_cut (start k n a : ℕ) :
    (if Range.Has (start + k, n - k) a then 1 else 0) +
      (if Range.Has (start, min k n) a then 1 else 0) =
      if Range.Has (start, n) a then 1 else 0 := by
  rcases le_total k n with hle | hle
  · have hsplit := Range.cover_split start k (n - k) a
    rw [Nat.add_sub_cancel' hle] at hsplit
    simp only [Range.cover_singleton] at hsplit
    rw [min_eq_left hle, hsplit, add_comm]
  · have hempty : ¬Range.Has (start + k, n - k) a := by
      rintro ⟨h₁, h₂⟩
      dsimp only at h₁ h₂
      omega
    rw [min_eq_right hle, if_neg hempty, zero_add]

variable (in_cksum) in
/-- Without options the loop cuts the data into pieces. -/
theorem fragmentLoop_spec (mtu : ℤ) {n : ℕ} (henv : env.Obliging) (h : Carries d ip m sizeofIp)
    (hle : sizeofIp + d.payload.length ≤ 32767) (hlen₀ : 0 < len) (hmtu : len ≤ mtu - sizeofIp)
    (hlen : 8 ∣ len) (hdvd : 8 ∣ off) (hn : d.payload.length ≤ off + n) :
    ∃ l, fragmentLoop in_cksum env ip m sizeofIp len n off = some (l, none) ∧
      (∀ p ∈ l, Piece d mtu p) ∧
      ∀ a, Range.cover (l.map Sent.range) a =
        if Range.Has (8 * d.offset + off, d.payload.length - off) a then 1 else 0 := by
  have hlength : ip.ip_len - sizeofIp = d.payload.length := by
    rw [h.len, toShort_of_mem (by omega) (by omega)]
    omega
  -- no data are left at `off`
  have hend {off : ℕ} (hge : d.payload.length ≤ off) (a : ℕ) : (0 : ℕ) =
      if Range.Has (8 * d.offset + off, d.payload.length - off) a then 1 else 0 := by
    rw [if_neg]
    rintro ⟨h₁, h₂⟩
    dsimp only at h₁ h₂
    omega
  induction n generalizing off with
  | zero =>
    rw [fragmentLoop, hlength, if_neg (by omega)]
    exact ⟨[], rfl, fun _ hp => absurd hp List.not_mem_nil, hend (by omega)⟩
  | succ n ih =>
    rw [fragmentLoop, hlength]
    split_ifs with hlt
    · obtain ⟨p, hp, hpiece, hrange⟩ := fragment_piece in_cksum henv h hle hlen₀ hmtu
        (by omega) hdvd
      have hnext : (off : ℤ) + len = ((off + len.toNat : ℕ) : ℤ) := by omega
      obtain ⟨l, hl, hpieces, honce⟩ := @ih (off + len.toNat) (by omega) (by omega)
      refine ⟨p :: l, ?_, List.forall_mem_cons.2 ⟨hpiece, hpieces⟩, fun a => ?_⟩
      · rw [hp, Option.bind_some]
        simp only [henv.if_output, hnext, hl, Option.map_some]
      · have hmin : (min len ((d.payload.length : ℤ) - off)).toNat =
            min len.toNat (d.payload.length - off) := by omega
        have hcut := cover_cut (8 * d.offset + off) len.toNat (d.payload.length - off) a
        rw [Nat.add_assoc, Nat.sub_sub] at hcut
        rw [List.map_cons, Range.cover_cons, honce, Range.cover_singleton, hrange, hmin]
        exact hcut
    · exact ⟨[], rfl, fun _ hp => absurd hp List.not_mem_nil, hend (by omega)⟩

/-- The fragments from `off` on say that they are from there on. -/
theorem le_of_fragmentLoop {n : ℕ} {l : List Sent} {e : Option Errno} (henv : env.Obliging)
    (h : Carries d ip m hlen) (hle : hlen + d.payload.length ≤ 32767) (hlen₀ : 0 < len)
    (hmul : 8 ∣ len) (hdvd : 8 ∣ off)
    (hl : fragmentLoop in_cksum env ip m hlen len n off = some (l, e)) :
    ∀ p ∈ l, 8 * d.offset + off ≤ 8 * p.ip.offset := by
  have hlength : ip.ip_len - hlen = d.payload.length := by
    obtain ⟨opts, -, hopts⟩ := h.text
    rw [h.len, toShort_of_mem (by omega) (by omega)]
    omega
  induction n generalizing off l e with
  | zero =>
    rw [fragmentLoop] at hl
    split_ifs at hl
    obtain ⟨rfl, -⟩ := Prod.mk.inj (Option.some.inj hl)
    exact fun _ hp => absurd hp List.not_mem_nil
  | succ n ih =>
    rw [fragmentLoop] at hl
    split_ifs at hl with hlt
    · obtain ⟨f, hf, hspec⟩ := fragment_spec in_cksum henv h hle hlen₀
        (by omega : off < d.payload.length) hdvd
      rw [hf] at hl
      obtain ⟨r, hr, hl⟩ := Option.bind_eq_some_iff.1 hl
      obtain ⟨opts, -, rfl⟩ := Option.map_eq_some_iff.1 hr
      simp only [henv.if_output] at hl
      obtain ⟨⟨l', e'⟩, hl', heq⟩ := Option.map_eq_some_iff.1 hl
      obtain ⟨rfl, -⟩ := Prod.mk.inj heq
      have hnext : (off : ℤ) + len = ((off + len.toNat : ℕ) : ℤ) := by omega
      rw [hnext] at hl'
      refine List.forall_mem_cons.2 ⟨(hspec opts).2.2.1.ge, fun p hp => ?_⟩
      have := @ih (off + len.toNat) l' e' (by omega) hl' p hp
      omega
    · obtain ⟨rfl, -⟩ := Prod.mk.inj (Option.some.inj hl)
      exact fun _ hp => absurd hp List.not_mem_nil

/-- With options the first fragment is not what it says it is: these are copied in front of the
    data, and taken for data as well. -/
theorem not_exact_of_options {mtu : ℤ} {n : ℕ} {l : List Sent} {e : Option Errno}
    (henv : env.Obliging) (h : Carries d ip m hlen) (hle : hlen + d.payload.length ≤ 32767)
    (hlen₀ : 0 < len) (hmul : 8 ∣ len) (hopt : sizeofIp < hlen) (hmore : len < d.payload.length)
    (hl : fragmentLoop in_cksum env ip m hlen len n (0 : ℕ) = some (l, e)) (hn : 0 < n) :
    ¬Exact d mtu l := by
  intro hexact
  obtain ⟨opts, hm, hopts⟩ := h.text
  have hlength : ip.ip_len - hlen = d.payload.length := by
    rw [h.len, toShort_of_mem (by omega) (by omega)]
    omega
  obtain ⟨n, rfl⟩ := Nat.exists_eq_succ_of_ne_zero hn.ne'
  rw [fragmentLoop, hlength, if_pos (by omega)] at hl
  obtain ⟨f, hf, hspec⟩ := fragment_spec in_cksum henv h hle hlen₀
    (by omega : 0 < d.payload.length) (dvd_zero 8)
  rw [hf] at hl
  obtain ⟨r, hr, hl⟩ := Option.bind_eq_some_iff.1 hl
  obtain ⟨copied, -, rfl⟩ := Option.map_eq_some_iff.1 hr
  simp only [henv.if_output] at hl
  obtain ⟨⟨l', e'⟩, hl', heq⟩ := Option.map_eq_some_iff.1 hl
  obtain ⟨rfl, -⟩ := Prod.mk.inj heq
  obtain ⟨hhl, hiplen, hoffset, -, htext⟩ := hspec copied
  have hmin : min len ((d.payload.length : ℤ) - ((0 : ℕ) : ℤ)) = len := min_eq_left (by omega)
  rw [hmin] at hiplen htext
  -- its length leaves no room for copied options
  have hsize := congrArg List.length htext
  rw [hm, List.length_append, List.length_take, List.drop_zero, List.length_append] at hsize
  have hfirst := (hexact.piece _ List.mem_cons_self).len
  -- so that the last of the bytes it should carry is in no fragment
  have hpayload : (f copied).payload.length + opts.length = len.toNat ∨
      (f copied).payload.length = 0 := by
    rw [Sent.payload, List.length_drop, hhl, h.hl]
    omega
  have hnext : (0 : ℕ) + len = ((len.toNat : ℕ) : ℤ) := by omega
  rw [hnext] at hl'
  have hlater := le_of_fragmentLoop henv h hle hlen₀ hmul (by omega : 8 ∣ len.toNat) hl'
  have honce := hexact.once (8 * d.offset + (len.toNat - 1))
  rw [if_pos ⟨by dsimp only; omega, by dsimp only; omega⟩] at honce
  have hcover := Range.cover_pos.1 (honce ▸ one_pos)
  obtain ⟨r, hr, hhas⟩ := hcover
  obtain ⟨p, hp, rfl⟩ := List.mem_map.1 hr
  obtain ⟨h₁, h₂⟩ := hhas
  simp only [Sent.range] at h₁ h₂
  rcases List.mem_cons.1 hp with rfl | hp
  · omega
  · have := hlater p hp
    omega

end Fragment

/-! ## Output -/

/-- The packet of a call carries the data: one that is forwarded has its header, and may have
    options; to one of our own they may be added. -/
structure Call.Sends (c : Call) (d : Data) : Prop where
  forwarded : c.forwarding = true → c.opt = none ∧ Carries d c.ip c.m (4 * c.ip.ip_hl) ∧
    4 * c.ip.ip_hl + d.payload.length ≤ 32767
  own : c.forwarding = false → bytes c.m = d.payload ∧
    c.ip.ip_len = sizeofIp + d.payload.length ∧ sizeofIp + d.payload.length ≤ 32767 ∧
    d.offset = 0 ∧ d.mf = false ∧
    ∀ p ∈ c.opt, 4 ∣ p.ipopt_list.length ∧ p.ipopt_list.length ≤ 40

/-- The packet with its options can be sent whole. -/
def Call.Whole (c : Call) (env : Env) (route : Route) (d : Data) : Prop :=
  (sizeofIp + c.options env + d.payload.length : ℤ) ≤ route.if_mtu

/-- There is a route to an interface that takes eight bytes of data with the header, nothing
    goes wrong, and the packet may be fragmented if it must. -/
structure Env.Serves (env : Env) (route : Route) (c : Call) (d : Data) : Prop
    extends env.Obliging where
  found : env.route = .ok route
  mtu : (sizeofIp + c.options env + 8 : ℤ) ≤ route.if_mtu
  short : route.if_mtu ≤ 32767
  df : c.ip.df = true → c.Whole env route d
  broadcast : route.in_broadcast = true →
    route.iff_broadcast = true ∧ c.allowbroadcast = true ∧ c.Whole env route d

variable {env : Env} {route : Route} {c : Call} {d : Data}

theorem bytes_insertInto {opts : List UInt8} {mget : Bool} {m m' : List (Mbuf UInt8)}
    (h : insertInto opts mget m = some m') : bytes m' = opts ++ bytes m := by
  cases m with
  | nil =>
    rw [insertInto] at h
    split_ifs at h
    obtain rfl := Option.some.inj h
    rfl
  | cons m l =>
    rw [insertInto] at h
    split_ifs at h
    · obtain rfl := Option.some.inj h
      rfl
    · obtain rfl := Option.some.inj h
      rw [bytes_cons, bytes_cons, List.append_assoc]

/-- A packet of our own, with `n` bytes of options, carries the data when its header is filled
    in. -/
theorem carries_fillIn (env : Env) (ip : Ip) (opts : List UInt8) {m : List (Mbuf UInt8)} {n : ℕ}
    (hoffset : d.offset = 0) (hmf : d.mf = false) (hn : opts.length = n) (hdvd : 4 ∣ n)
    (hle40 : n ≤ 40) (hbytes : bytes m = opts ++ d.payload)
    (hlen : ip.ip_len = toShort (sizeofIp + n + d.payload.length))
    (hle : sizeofIp + d.payload.length ≤ 32767) :
    Carries d (fillIn env ip (sizeofIp + n)) m (sizeofIp + n) ∧
      (fillIn env ip (sizeofIp + n)).df = ip.df := by
  -- the word with the offset has no other flag than `IP_DF`
  obtain ⟨hw₁, hw₂, hw₃, hw₄, hw₅⟩ : (if ip.df then IP_DF else 0) % 0x2000 = 0 ∧
      hasFlag IP_MF (if ip.df then IP_DF else 0) = false ∧
      hasFlag IP_DF (if ip.df then IP_DF else 0) = ip.df ∧
      -2 ^ 15 ≤ (if ip.df then IP_DF else 0) ∧ (if ip.df then IP_DF else 0) < 2 ^ 15 := by
    cases ip.df <;> decide
  have hsize : sizeofIp = 20 := rfl
  refine ⟨⟨?_, ⟨opts, hbytes, by rw [hn]⟩, hlen, by omega, ⟨hw₄, hw₅⟩, ?_, hw₂.trans hmf.symm⟩, hw₃⟩
  · rw [fillIn]
    dsimp only
    omega
  · rw [Ip.offset, fillIn, hw₁, hoffset]
    rfl

/-- A length that is what it should be, and fits into its word. -/
theorem length_of_own {n : ℤ} (h : n = sizeofIp + d.payload.length)
    (hle : sizeofIp + d.payload.length ≤ 32767) :
    n = toShort (sizeofIp + (0 : ℕ) + d.payload.length) := by
  rw [h, toShort_of_mem (by omega) (by omega)]
  omega

variable (env) in
/-- With its header filled in, the packet carries the data. -/
theorem prepare_spec (h : c.Sends d) :
    ∃ ip m, prepare env c = (ip, m, (sizeofIp + c.options env : ℤ)) ∧
      Carries d ip m (sizeofIp + c.options env) ∧ ip.df = c.ip.df ∧
      (c.options env = 0 → sizeofIp + d.payload.length ≤ 32767) := by
  cases hfwd : c.forwarding with
  | true =>
    obtain ⟨hopt, hcarries, hle⟩ := h.forwarded hfwd
    obtain ⟨opts, -, hopts⟩ := hcarries.text
    have hoptions : c.options env = (4 * c.ip.ip_hl - sizeofIp).toNat := if_pos hfwd
    have hlen : (sizeofIp + c.options env : ℤ) = 4 * c.ip.ip_hl := by omega
    refine ⟨c.ip, c.m, ?_, hlen ▸ hcarries, rfl, fun _ => by omega⟩
    rw [prepare, hopt, hlen]
    simp [hfwd, mul_comm]
  | false =>
    obtain ⟨hm, hiplen, hle, hoffset, hmf, hopt⟩ := h.own hfwd
    cases hp : c.opt with
    | none =>
      have hoptions : c.options env = 0 := by simp [Call.options, hfwd, hp]
      have hcarries := carries_fillIn env c.ip [] hoffset hmf List.length_nil
        (dvd_zero 4) (Nat.zero_le _) hm (length_of_own hiplen hle) hle
      rw [hoptions]
      exact ⟨_, c.m, by rw [prepare, hp]; simp [hfwd], hcarries.1, hcarries.2, fun _ => hle⟩
    | some p =>
      obtain ⟨hdvd, hle40⟩ := hopt p hp
      -- the first hop takes the place of the destination
      obtain ⟨ip, hip⟩ : ∃ ip : Ip,
          ip = if p.ipopt_dst ≠ 0 then { c.ip with ip_dst := p.ipopt_dst } else c.ip := ⟨_, rfl⟩
      obtain ⟨hlen', hdf'⟩ : ip.ip_len = c.ip.ip_len ∧ ip.df = c.ip.df := by
        rw [hip]
        split_ifs <;> exact ⟨rfl, rfl⟩
      cases hi : insertInto p.ipopt_list env.optbuf c.m with
      | none =>
        have hoptions : c.options env = 0 := by simp [Call.options, hfwd, hp, hi]
        have hcarries := carries_fillIn env ip [] hoffset hmf List.length_nil
          (dvd_zero 4) (Nat.zero_le _) hm (length_of_own (hlen'.trans hiplen) hle) hle
        rw [hoptions]
        refine ⟨_, c.m, ?_, hcarries.1, hcarries.2.trans hdf', fun _ => hle⟩
        simp only [prepare, hp, ip_insertoptions, hi, hfwd, ← hip]
        simp
      | some m =>
        have hoptions : c.options env = p.ipopt_list.length := by
          simp [Call.options, hfwd, hp, hi]
        obtain ⟨ip', hip'⟩ : ∃ ip' : Ip,
            ip' = { ip with ip_len := toShort (ip.ip_len + p.ipopt_list.length) } := ⟨_, rfl⟩
        have hcarries := carries_fillIn env ip' p.ipopt_list hoffset hmf rfl hdvd hle40
          ((bytes_insertInto hi).trans (by rw [hm]))
          (by rw [hip', hlen', hiplen, add_right_comm]) hle
        rw [hoptions]
        refine ⟨_, m, ?_, hcarries.1, ?_, fun _ => hle⟩
        · simp only [prepare, hp, ip_insertoptions, hi, hfwd, ← hip, hip']
          simp
        · rw [hcarries.2, hip']
          exact hdf'

section Transmit

variable {ip : Ip} {m : List (Mbuf UInt8)} {hlen : ℤ}

/-- A packet with all of the data is exact if it is not too large. -/
theorem Carries.exact {mtu : ℤ} (h : Carries d ip m hlen) {p : Sent} (htext : p.text = m)
    (hhl : p.ip.ip_hl = ip.ip_hl) (hoff : p.ip.ip_off = ip.ip_off)
    (hlen' : p.ip.ip_len = hlen + d.payload.length) (hle : hlen + d.payload.length ≤ mtu) :
    Exact d mtu [p] := by
  obtain ⟨opts, hbytes, hopts⟩ := h.text
  have hpayload : p.payload = d.payload := by
    have hdrop : (4 * ip.ip_hl - sizeofIp).toNat = opts.length := by
      rw [h.hl]
      omega
    rw [Sent.payload, htext, hbytes, hhl, hdrop, List.drop_left]
  have hoffset : p.ip.offset = d.offset := by rw [← h.offset, Ip.offset, Ip.offset, hoff]
  have hmf : p.ip.mf = d.mf := by rw [← h.mf, Ip.mf, Ip.mf, hoff]
  have hsize : (bytes p.text).length = opts.length + d.payload.length := by
    rw [htext, hbytes, List.length_append]
  have hpiece : Piece d mtu p := by
    refine ⟨by omega, by omega, ⟨?_, ?_⟩, ?_, 0, ?_, ?_⟩
    · rw [hhl, h.hl]
      omega
    · rw [hhl, h.hl, hlen']
      omega
    · rw [hmf, hoffset, hpayload, or_iff_left (lt_irrefl _)]
    · rw [hoffset, add_zero]
    · rw [hpayload, List.drop_zero, List.take_length]
  refine ⟨fun q hq => ?_, fun a => ?_⟩
  · obtain rfl := List.mem_singleton.1 hq
    exact hpiece
  · rw [List.map_singleton, Range.cover_singleton, Sent.range, hoffset, hpayload]

/-- A packet that fits is sent whole, as it is. -/
theorem transmit_whole (henv : env.Obliging) (h : Carries d ip m hlen)
    (hle : hlen + d.payload.length ≤ route.if_mtu) (hshort : route.if_mtu ≤ 32767) :
    ∃ l, transmit in_cksum env route ip m hlen = some (l, none) ∧ Exact d route.if_mtu l := by
  obtain ⟨opts, -, hopts⟩ := h.text
  have hlength : ip.ip_len = hlen + d.payload.length := by
    rw [h.len, toShort_of_mem (by omega) (by omega)]
  have hword : toUshort ip.ip_len = hlen + d.payload.length := by
    rw [hlength, toUshort_of_mem (by omega) (by omega)]
  rw [transmit, if_pos (by omega), henv.if_output]
  exact ⟨_, rfl, h.exact rfl rfl rfl hword hle⟩

/-- Without options, a packet that does not fit is cut into fragments that are exact. -/
theorem transmit_cut (henv : env.Obliging) (h : Carries d ip m sizeofIp) (hdf : ip.df = false)
    (hmtu : (sizeofIp + 8 : ℤ) ≤ route.if_mtu) (hle : sizeofIp + d.payload.length ≤ 32767)
    (hgt : route.if_mtu < (sizeofIp + d.payload.length : ℤ)) :
    ∃ l, transmit in_cksum env route ip m sizeofIp = some (l, none) ∧
      Exact d route.if_mtu l := by
  have hlength : ip.ip_len = sizeofIp + d.payload.length := by
    rw [h.len, toShort_of_mem (by omega) (by omega)]
  rw [transmit, if_neg (by omega), hdf, if_neg Bool.false_ne_true]
  dsimp only
  rw [if_neg (by omega)]
  obtain ⟨l, hl, hpiece, honce⟩ := fragmentLoop_spec in_cksum route.if_mtu henv h hle
    (by omega : 0 < (route.if_mtu - sizeofIp) / 8 * 8) (by omega) (dvd_mul_left 8 _) (dvd_zero 8)
    (by omega : d.payload.length ≤ 0 + (ip.ip_len - sizeofIp).toNat)
  exact ⟨l, hl, hpiece, honce⟩

/-- With options, what is sent of a packet that does not fit is not exact: its length is not
    the right one, or its fragments are not. -/
theorem not_exact_transmit (henv : env.Obliging) (h : Carries d ip m hlen) (hdf : ip.df = false)
    (hopt : sizeofIp < hlen) (hmtu : hlen + 8 ≤ route.if_mtu) (hshort : route.if_mtu ≤ 32767)
    (hgt : route.if_mtu < hlen + d.payload.length) {l : List Sent} {e : Option Errno}
    (hl : transmit in_cksum env route ip m hlen = some (l, e)) : ¬Exact d route.if_mtu l := by
  obtain ⟨opts, hbytes, hopts⟩ := h.text
  have hle := h.le
  rw [transmit] at hl
  split_ifs at hl with hfits hdf'
  · -- the length wraps around, and the packet is sent as it is
    intro hexact
    obtain ⟨rfl, -⟩ := Prod.mk.inj (Option.some.inj hl)
    have hsmall := (hexact.piece _ List.mem_cons_self).small
    rw [hbytes, List.length_append] at hsmall
    omega
  · exact absurd hdf' (by rw [hdf]; exact Bool.false_ne_true)
  · dsimp only at hl
    rw [if_neg (by omega)] at hl
    have hfit : hlen + d.payload.length ≤ 32767 := by
      by_contra hbig
      have hwrap : toShort (hlen + d.payload.length) = hlen + d.payload.length - 2 ^ 16 := by
        rw [toShort, ← Int.sub_bmod_right]
        exact toShort_of_mem (by omega) (by omega)
      rw [h.len, hwrap] at hfits
      omega
    have hlength : ip.ip_len = hlen + d.payload.length := by
      rw [h.len, toShort_of_mem (by omega) (by omega)]
    exact not_exact_of_options henv h hfit (by omega) (dvd_mul_left 8 _) hopt (by omega) hl
      (by omega)

end Transmit

/-- A source address that is not filled in is that of the interface. -/
theorem Carries.ite_src {ip : Ip} {m : List (Mbuf UInt8)} {hlen : ℤ} (h : Carries d ip m hlen)
    (src : ℕ) : Carries d (if ip.ip_src = 0 then { ip with ip_src := src } else ip) m hlen ∧
      (if ip.ip_src = 0 then { ip with ip_src := src } else ip).df = ip.df := by
  split_ifs
  · exact ⟨⟨h.hl, h.text, h.len, h.le, h.short, h.offset, h.mf⟩, rfl⟩
  · exact ⟨h, rfl⟩

variable (in_cksum) in
/-- A packet that may be sent reaches the point where it is sent. -/
theorem ip_output_eq (h : c.Sends d) (he : env.Serves route c d) :
    ∃ ip m, ip_output in_cksum env c =
        transmit in_cksum env route ip m (sizeofIp + c.options env) ∧
      Carries d ip m (sizeofIp + c.options env) ∧ ip.df = c.ip.df ∧
      (c.options env = 0 → sizeofIp + d.payload.length ≤ 32767) := by
  obtain ⟨ip, m, hprepare, hcarries, hdf, hle⟩ := prepare_spec env h
  obtain ⟨hcarries', hdf'⟩ := hcarries.ite_src (route.ifaddr.getD 0)
  refine ⟨_, m, ?_, hcarries', hdf'.trans hdf, hle⟩
  rw [ip_output, hprepare]
  simp only [he.found]
  cases hb : route.in_broadcast with
  | false => simp
  | true =>
    obtain ⟨hiff, hallow, hwhole⟩ := he.broadcast hb
    have hshort := he.short
    rw [Call.Whole] at hwhole
    have hfits : ¬(if ip.ip_src = 0 then { ip with ip_src := route.ifaddr.getD 0 }
        else ip).ip_len > route.if_mtu := by
      rw [hcarries'.len, toShort_of_mem (by omega) (by omega)]
      omega
    simp [hiff, hallow, hfits]

/-- A packet is sent in exact fragments just when it has no options, or is sent whole. -/
theorem exact_iff (h : c.Sends d) (he : env.Serves route c d) :
    (∃ l, ip_output in_cksum env c = some (l, none) ∧ Exact d route.if_mtu l) ↔
      c.options env = 0 ∨ c.Whole env route d := by
  obtain ⟨ip, m, houtput, hcarries, hdf, hle⟩ := ip_output_eq in_cksum h he
  rw [houtput]
  by_cases hwhole : c.Whole env route d
  · exact iff_of_true (transmit_whole he.toObliging hcarries hwhole he.short) (.inr hwhole)
  have hdf' : ip.df = false := by
    rw [hdf, ← Bool.not_eq_true]
    exact mt he.df hwhole
  have hmtu := he.mtu
  have hgt := not_le.1 hwhole
  constructor
  · rintro ⟨l, hl, hexact⟩
    by_contra hopt
    rw [not_or] at hopt
    exact not_exact_transmit he.toObliging hcarries hdf' (by omega) (by omega) he.short
      (by omega) hl hexact
  · intro hopt
    have hzero : c.options env = 0 := hopt.resolve_right hwhole
    rw [hzero, Nat.cast_zero, add_zero] at hcarries hgt hmtu ⊢
    exact transmit_cut he.toObliging hcarries hdf' hmtu (hle hzero) hgt

/-! ## Four bytes of options -/

/-- An interface for packets of forty bytes, on which all goes well. -/
def slip : Route := ⟨40, false, false, none⟩
@[inherit_doc slip]
def slipEnv : Env := ⟨.ok slip, 1, true, fun _ => true, fun _ => true, fun _ => none⟩

/-- Twenty-four bytes of data. -/
def sevens : Data := ⟨0, false, List.replicate 24 7, by decide⟩

/-- A call that sends them, with or without options. -/
def sevensCall (opt : Option Ipoption) : Call :=
  ⟨⟨0, 0, 0, 44, 0, 0, 255, 17, 0, 1, 2⟩, [⟨MMINOFF + 40, sevens.payload, false⟩], opt, false, true⟩

theorem sevensCall_sends {opt : Option Ipoption}
    (h : ∀ p ∈ opt, 4 ∣ p.ipopt_list.length ∧ p.ipopt_list.length ≤ 40) :
    (sevensCall opt).Sends sevens :=
  ⟨fun hfwd => absurd hfwd Bool.false_ne_true, 
    fun _ => ⟨rfl, rfl, by decide, rfl, rfl, h⟩⟩

theorem slipEnv_serves {opt : Option Ipoption}
    (h : (sizeofIp + (sevensCall opt).options slipEnv + 8 : ℤ) ≤ 40) :
    slipEnv.Serves slip (sevensCall opt) sevens where
  mget _ := rfl
  mcopy _ := rfl
  if_output _ := rfl
  found := rfl
  mtu := h
  short := by decide
  df hdf := absurd (show (false : Bool) = true from hdf) Bool.false_ne_true
  broadcast hb := absurd hb Bool.false_ne_true

theorem exact_iff_sevens :
    (∃ l, ip_output (fun _ _ _ => 0) slipEnv (sevensCall none) = some (l, none) ∧
      Exact sevens slip.if_mtu l) ↔
      (sevensCall none).options slipEnv = 0 ∨ (sevensCall none).Whole slipEnv slip sevens :=
  exact_iff (sevensCall_sends (by simp)) (slipEnv_serves (by decide))

/-- The first fragment is forty bytes long, and says that it has thirty-six. -/
theorem not_exact : ∃ (env : Env) (route : Route) (c : Call) (d : Data),
    c.Sends d ∧ env.Serves route c d ∧
      ¬∃ l, ip_output (fun _ _ _ => 0) env c = some (l, none) ∧ Exact d route.if_mtu l := by
  refine ⟨slipEnv, slip, sevensCall (some ⟨0, [1, 1, 1, 1]⟩), sevens,
    sevensCall_sends (by simp), slipEnv_serves (by decide), ?_⟩
  rintro ⟨l, hl, hexact⟩
  have hrun : (ip_output (fun _ _ _ => 0) slipEnv (sevensCall (some ⟨0, [1, 1, 1, 1]⟩))).map
      (fun r => r.1.map fun p => (p.ip.ip_len, (bytes p.text).length)) =
      some [(36, 20), (28, 8)] := by decide
  rw [hl, Option.map_some, Option.some_inj] at hrun
  obtain ⟨p, l, rfl⟩ := List.exists_cons_of_ne_nil (l := l) fun h => by simp [h] at hrun
  obtain ⟨hip, hbytes⟩ := Prod.mk.inj (List.cons.inj hrun).1
  have hlen := (hexact.piece p List.mem_cons_self).len
  rw [hip, hbytes] at hlen
  exact absurd hlen (by decide)

end AuxKernel.Ip.Output
