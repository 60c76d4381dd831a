import AuxKernel.Net.Chain
import AuxKernel.Net.InCksum

/-!
# The header of a received packet

`ipintr` (`NETinet/sys/ip_input.c`) up to where the options are looked at: the header is pulled up
into the first mbuf, its length, its checksum and `ip_len` are tested, and the chain is trimmed to
`ip_len` bytes. The length of the header is compared with 10 bytes, not with the 20 that `struct ip`
has, so that an `ip_hl` of 3 or 4 gets by.

* `ipintr_eq_ok`, `exists_ipintr`: how a packet is that is passed on, and one that should not be;
* `valid_iff`: when all that is passed on is valid.
-/

namespace AuxKernel.Ip.Input

open Net.Chain
open Net (MMAXOFF)
open Net.InCksum (in_cksum in_cksum_eq inetChecksum)

/-- Why a packet is dropped. -/
inductive Drop
  | noaddr
  | toosmall
  | badhlen
  | badsum
  | badlen
  | tooshort
  deriving DecidableEq

/-- Whether there is an address of an interface, and the switches for checksums. -/
structure Config where
  in_ifaddr : Bool
  tcpcksum : ℕ
  ipcksum : ℕ

/-- The size of `struct ip`. -/
def sizeofIp : ℤ := 20

/-- The mbufs of a packet. -/
abbrev Mbufs := List (Cell UInt8)

/-- The fields of the header at a data pointer. `ntohs` does nothing. -/
def ip_hl (m : Cell UInt8) : ℤ := (m.mtod 0).toNat % 16

@[inherit_doc ip_hl]
def ip_len (m : Cell UInt8) : ℤ := toShort (256 * (m.mtod 2).toNat + (m.mtod 3).toNat)

/-- Store the checksum. -/
def setSum (m : Cell UInt8) (sum : ℕ) : Cell UInt8 :=
  m.bcopy (fun i => if i = 0 then UInt8.ofNat (sum / 256) else UInt8.ofNat sum) 10 2

/-- Pull up `len` bytes of a packet: its first mbuf and the rest. -/
def pullup (why : Drop) (mfreep : Mbufs) (m : Cell UInt8) (l : Mbufs) (len : ℤ) :
    Except Drop (Mbufs × Cell UInt8 × Mbufs) :=
  match m_pullup mfreep (m :: l) len with
  | some (mfreep, m :: l) => .ok (mfreep, m, l)
  | _ => .error why

/-- The header without options is brought into the first mbuf. The comparison of the length is
    unsigned. -/
def first (mfreep : Mbufs) (m : Cell UInt8) (l : Mbufs) :
    Except Drop (Mbufs × Cell UInt8 × Mbufs) :=
  if m.m_off > MMAXOFF ∨ m.m_len % 2 ^ 32 < sizeofIp then pullup .toosmall mfreep m l sizeofIp
  else .ok (mfreep, m, l)

/-- So is all of it. -/
def whole (mfreep : Mbufs) (m : Cell UInt8) (l : Mbufs) :
    Except Drop (Mbufs × Cell UInt8 × Mbufs) :=
  if 4 * ip_hl m < 10 then .error .badhlen
  else if 4 * ip_hl m > m.m_len then pullup .badhlen mfreep m l (4 * ip_hl m)
  else .ok (mfreep, m, l)

/-- The checksum of the header is tested, and stored. -/
def summed (c : Config) (m : Cell UInt8) (l : Mbufs) : Except Drop (Cell UInt8) :=
  if c.ipcksum ≠ 0 then
    match in_cksum c.tcpcksum c.ipcksum ((m :: l).map Cell.view) (4 * ip_hl m).toNat with
    | some 0 => .ok (setSum m 0)
    | _ => .error .badsum
  else .ok m

/-- Trim a chain by `i` bytes: in its last mbuf, if they are there. -/
def trim (i : ℤ) (l : Mbufs) : Mbufs :=
  match l.getLast? with
  | none => []
  | some m => if i ≤ m.m_len then l.dropLast ++ [m.keep (m.m_len - i)] else m_adj l (-i)

/-- The chain is trimmed to `ip_len` bytes. -/
def trimmed (m : Cell UInt8) (l : Mbufs) : Except Drop Mbufs :=
  if ip_len m < 4 * ip_hl m then .error .badlen
  else
    let i := count (m :: l) - ip_len m
    if i < 0 then .error .tooshort
    else .ok (if i = 0 then m :: l else trim i (m :: l))

/-- The packet that is passed on, or why none is. -/
def ipintr (c : Config) (mfreep : Mbufs) (m : Cell UInt8) (l : Mbufs) : Except Drop Mbufs :=
  if c.in_ifaddr = false then .error .noaddr
  else do
    let p ← first mfreep m l
    let p ← whole p.1 p.2.1 p.2.2
    let m ← summed c p.2.1 p.2.2
    trimmed m p.2.2

/-- What the later routines rely on. -/
def Valid (l : Mbufs) : Prop :=
  ∃ m l', l = m :: l' ∧ sizeofIp ≤ 4 * ip_hl m ∧ 4 * ip_hl m ≤ m.m_len ∧
    4 * ip_hl m ≤ ip_len m ∧ count l = ip_len m ∧ ∀ m ∈ l, 0 ≤ m.m_len

/-! ## The fields as bytes of the packet -/

/-- The length of the header, as the bytes of a packet have it. -/
def hlenOf (b : List UInt8) : ℤ := 4 * ((b.getD 0 0).toNat % 16 : ℕ)

/-- Its `ip_len`. -/
def lenOf (b : List UInt8) : ℤ := toShort (256 * (b.getD 2 0).toNat + (b.getD 3 0).toNat)

section Fields

variable {m : Cell UInt8} {l : Mbufs}

theorem getD_bytes {i : ℕ} (h : i < m.m_len) : (bytes (m :: l)).getD i 0 = m.mtod i := by
  have hlt : i < m.data.length := by
    rw [Cell.length_data]
    omega
  rw [bytes_cons, List.getD_append _ _ _ _ hlt, List.getD_eq_getElem _ _ hlt]
  simp only [Cell.data, Cell.read, List.getElem_map, List.getElem_range, Nat.zero_add]

theorem hlenOf_bytes (h : sizeofIp ≤ m.m_len) : hlenOf (bytes (m :: l)) = 4 * ip_hl m := by
  have hsize : sizeofIp = 20 := rfl
  rw [hlenOf, getD_bytes (by omega), ip_hl]
  rfl

theorem lenOf_bytes (h : sizeofIp ≤ m.m_len) : lenOf (bytes (m :: l)) = ip_len m := by
  have hsize : sizeofIp = 20 := rfl
  rw [lenOf, getD_bytes (by omega), getD_bytes (by omega), ip_len]

theorem count_eq_length (hl : ∀ m' ∈ m :: l, m'.Wf) :
    count (m :: l) = (bytes (m :: l)).length :=
  (length_bytes fun m' hm' => (hl m' hm').nonneg).symm

end Fields

/-! ## One step after the other -/

section Steps

variable {c : Config} {why : Drop} {mfreep l : Mbufs} {m m' : Cell UInt8}
  {p : Mbufs × Cell UInt8 × Mbufs} {n : ℤ}

/-- The packet is the same one, cut into mbufs in another way. -/
structure Same (m : Cell UInt8) (l : Mbufs) (p : Mbufs × Cell UInt8 × Mbufs) : Prop where
  wf : ∀ m' ∈ p.2.1 :: p.2.2, m'.Wf
  bytes : bytes (p.2.1 :: p.2.2) = bytes (m :: l)

theorem pullup_eq_ok (hl : ∀ m' ∈ m :: l, m'.Wf) (h₀ : 0 ≤ n) (hn : n ≤ 240)
    (h : pullup why mfreep m l n = .ok p) :
    (mfreep ≠ [] ∧ n ≤ count (m :: l)) ∧ p.2.1.m_len = n ∧ Same m l p := by
  obtain ⟨mfreep', l', hpull, hiff, hspec⟩ := @m_pullup_eq _ (m :: l) mfreep n hl
    (List.cons_ne_nil m l) h₀ hn
  rw [pullup, hpull] at h
  cases l' with
  | nil => cases h
  | cons m' l' =>
    obtain rfl := Except.ok.inj h
    obtain ⟨-, hlen, hwf, hbytes⟩ := hspec m' rfl
    exact ⟨hiff.1 (List.cons_ne_nil m' l'), hlen, hwf, hbytes⟩

theorem exists_pullup (hl : ∀ m' ∈ m :: l, m'.Wf) (h₀ : 0 ≤ n) (hn : n ≤ 240)
    (hfree : mfreep ≠ []) (hle : n ≤ count (m :: l)) : ∃ p, pullup why mfreep m l n = .ok p := by
  obtain ⟨mfreep', l', hpull, hiff, -⟩ := @m_pullup_eq _ (m :: l) mfreep n hl
    (List.cons_ne_nil m l) h₀ hn
  obtain ⟨m', l'', rfl⟩ := List.exists_cons_of_ne_nil (hiff.2 ⟨hfree, hle⟩)
  rw [pullup, hpull]
  exact ⟨_, rfl⟩

/-- The header without options can be brought into the first mbuf, or is there. -/
def Starts (mfreep : Mbufs) (m : Cell UInt8) (l : Mbufs) : Prop :=
  (m.m_off ≤ MMAXOFF ∧ sizeofIp ≤ m.m_len) ∨ (mfreep ≠ [] ∧ sizeofIp ≤ count (m :: l))

theorem first_eq_ok (hl : ∀ m' ∈ m :: l, m'.Wf) (h : first mfreep m l = .ok p) :
    Starts mfreep m l ∧ sizeofIp ≤ p.2.1.m_len ∧ Same m l p := by
  have hsize : sizeofIp = 20 := rfl
  have hm := hl m List.mem_cons_self
  have hnonneg := hm.nonneg
  have hshort := hm.short
  rw [first] at h
  split_ifs at h with hneeds
  · obtain ⟨hcan, hlen, hsame⟩ := pullup_eq_ok hl (by omega) (by omega) h
    exact ⟨Or.inr hcan, hlen.ge, hsame⟩
  · obtain rfl := Except.ok.inj h
    exact ⟨Or.inl ⟨by omega, by omega⟩, by dsimp only; omega, hl, rfl⟩

theorem exists_first (hl : ∀ m' ∈ m :: l, m'.Wf) (h : Starts mfreep m l) :
    ∃ p, first mfreep m l = .ok p := by
  have hsize : sizeofIp = 20 := rfl
  have hm := hl m List.mem_cons_self
  have hnonneg := hm.nonneg
  have hshort := hm.short
  rw [first]
  split_ifs with hneeds
  · rcases h with hin | hcan
    · omega
    · exact exists_pullup hl (by omega) (by omega) hcan.1 hcan.2
  · exact ⟨_, rfl⟩

/-- The fields do not depend on the length of the mbuf. -/
theorem ip_hl_set (m : Cell UInt8) (n : ℤ) : ip_hl { m with m_len := n } = ip_hl m := rfl

theorem ip_len_set (m : Cell UInt8) (n : ℤ) : ip_len { m with m_len := n } = ip_len m := rfl

theorem ip_hl_nonneg (m : Cell UInt8) : 0 ≤ ip_hl m ∧ ip_hl m < 16 := by
  rw [ip_hl]
  omega

theorem whole_eq_ok (hl : ∀ m' ∈ m :: l, m'.Wf) (hm : sizeofIp ≤ m.m_len)
    (h : whole mfreep m l = .ok p) :
    10 ≤ 4 * ip_hl m ∧ 4 * ip_hl m ≤ p.2.1.m_len ∧ sizeofIp ≤ p.2.1.m_len ∧ Same m l p := by
  have hsize : sizeofIp = 20 := rfl
  have hhl := ip_hl_nonneg m
  rw [whole] at h
  split_ifs at h with hten hmore
  · obtain ⟨-, hlen, hsame⟩ := pullup_eq_ok hl (by omega) (by omega) h
    exact ⟨by omega, hlen.ge, by omega, hsame⟩
  · obtain rfl := Except.ok.inj h
    exact ⟨by omega, by dsimp only; omega, hm, hl, rfl⟩

/-- The fields of the header that matter, and where the data are, are the same. -/
structure Kept (m m' : Cell UInt8) : Prop where
  ip_hl : ip_hl m' = ip_hl m
  ip_len : ip_len m' = ip_len m
  m_len : m'.m_len = m.m_len
  wf : m.Wf → m'.Wf

theorem kept_setSum (sum : ℕ) : Kept m (setSum m sum) :=
  ⟨rfl, rfl, rfl, fun h => ⟨h.nonneg, h.short, h.inside, h.outside⟩⟩

/-- The checksum of the header is right, if it is looked at. -/
def Summed (c : Config) (b : List UInt8) : Prop :=
  c.ipcksum ≠ 0 → inetChecksum (b.take (hlenOf b).toNat) = 0

theorem in_cksum_bytes (hm : sizeofIp ≤ m.m_len) (hle : 4 * ip_hl m ≤ m.m_len)
    (hc : c.ipcksum ≠ 0) :
    in_cksum c.tcpcksum c.ipcksum ((m :: l).map Cell.view) (4 * ip_hl m).toNat =
      some (inetChecksum ((bytes (m :: l)).take (hlenOf (bytes (m :: l))).toNat)) := by
  have hhl := ip_hl_nonneg m
  have hbytes : Net.bytes (m.view :: l.map Cell.view) = bytes (m :: l) :=
    @bytes_view _ (m :: l)
  have hlength : (4 * ip_hl m).toNat ≤ (Net.bytes (m.view :: l.map Cell.view)).length := by
    rw [hbytes, bytes_cons, List.length_append, Cell.length_data]
    omega
  rw [List.map_cons, in_cksum_eq _ _ _ _ _ (by omega) hlength, if_neg (fun h => hc h.2), hbytes,
    hlenOf_bytes hm]

theorem summed_eq_ok (hm : sizeofIp ≤ m.m_len) (hle : 4 * ip_hl m ≤ m.m_len)
    (h : summed c m l = .ok m') : Summed c (bytes (m :: l)) ∧ Kept m m' := by
  rw [summed] at h
  split_ifs at h with hc
  · rw [in_cksum_bytes hm hle hc] at h
    split at h
    next heq =>
      obtain rfl := Except.ok.inj h
      exact ⟨fun _ => Option.some.inj heq, kept_setSum 0⟩
    next => cases h
  · obtain rfl := Except.ok.inj h
    exact ⟨fun h => absurd h hc, rfl, rfl, rfl, id⟩

theorem exists_summed (hm : sizeofIp ≤ m.m_len) (hle : 4 * ip_hl m ≤ m.m_len)
    (h : Summed c (bytes (m :: l))) : ∃ m', summed c m l = .ok m' := by
  rw [summed]
  split_ifs with hc
  · rw [in_cksum_bytes hm hle hc, h hc]
    exact ⟨_, rfl⟩
  · exact ⟨_, rfl⟩

/-- Trimming by no more than there is is trimming from the tail. -/
theorem trim_eq (h₀ : 0 < n) (h₁ : n < 2 ^ 31) : trim n l = adjTail n l := by
  have hlong : toLong (- -n) = n := by
    rw [neg_neg]
    exact toLong_of_mem (by omega) h₁
  have hadj : m_adj l (-n) = adjTail n l := by
    rw [m_adj, if_neg (by omega), hlong]
  rw [trim, hadj, adjTail]
  cases l.getLast? with
  | none => rfl
  | some m =>
    dsimp only
    split_ifs with hle
    · rfl
    · rfl

theorem trimmed_eq_ok {l' : Mbufs} (hl : ∀ m' ∈ m :: l, m'.Wf) (hlong : count (m :: l) < 2 ^ 31)
    (h : trimmed m l = .ok l') :
    (4 * ip_hl m ≤ ip_len m ∧ ip_len m ≤ count (m :: l)) ∧
      (0 < ip_hl m → ∃ l'', l' = { m with m_len := min m.m_len (ip_len m) } :: l'' ∧
        count l' = ip_len m ∧ ∀ m' ∈ l', 0 ≤ m'.m_len) := by
  have hhl := ip_hl_nonneg m
  have hnonneg : ∀ m' ∈ m :: l, 0 ≤ m'.m_len := fun m' hm' => (hl m' hm').nonneg
  have hrest := count_nonneg fun m' hm' => hnonneg m' (List.mem_cons_of_mem m hm')
  rw [trimmed] at h
  dsimp only at h
  split_ifs at h with hlt hshort hall
  · obtain rfl := Except.ok.inj h
    refine ⟨by omega, fun _ => ⟨l, ?_, by omega, hnonneg⟩⟩
    rw [count_cons] at hall
    rw [min_eq_left (by omega)]
  · obtain rfl := Except.ok.inj h
    refine ⟨by omega, fun hpos => ?_⟩
    have hle : count (m :: l) - ip_len m ≤ count (m :: l) := by omega
    rw [trim_eq (by omega) (by omega)]
    obtain ⟨hbytes, hpos'⟩ := bytes_adjTail hl (by omega) hle
    obtain ⟨k, l'', heq, hk⟩ := adjTail_cons hl (by omega) hle
    refine ⟨l'', ?_, ?_, hpos'⟩
    · rw [heq, hk, sub_sub_cancel]
    · rw [← length_bytes hpos', hbytes, List.length_take]
      have := length_bytes hnonneg
      omega

theorem exists_trimmed (hlt : 4 * ip_hl m ≤ ip_len m) (hle : ip_len m ≤ count (m :: l)) :
    ∃ l', trimmed m l = .ok l' := by
  rw [trimmed, if_neg (not_lt.2 hlt)]
  dsimp only
  rw [if_neg (by omega)]
  exact ⟨_, rfl⟩

end Steps

/-! ## All of it -/

section Run

variable {c : Config} {mfreep l l' : Mbufs} {m : Cell UInt8}

/-- A packet whose header is too short gets by: it says that it has 12 or 16 bytes, and nothing else
    is wrong. -/
structure Slips (c : Config) (mfreep : Mbufs) (m : Cell UInt8) (l : Mbufs) : Prop where
  in_ifaddr : c.in_ifaddr = true
  starts : Starts mfreep m l
  ip_hl : hlenOf (bytes (m :: l)) = 12 ∨ hlenOf (bytes (m :: l)) = 16
  ip_sum : Summed c (bytes (m :: l))
  ip_len : hlenOf (bytes (m :: l)) ≤ lenOf (bytes (m :: l))
  count : lenOf (bytes (m :: l)) ≤ count (m :: l)

theorem of_bind_eq_ok {ε α β : Type} {x : Except ε α} {f : α → Except ε β} {b : β}
    (h : x >>= f = .ok b) : ∃ a, x = .ok a ∧ f a = .ok b := by
  cases x with
  | error e => cases h
  | ok a => exact ⟨a, rfl, h⟩

theorem ok_bind {ε α β : Type} {x : Except ε α} {f : α → Except ε β} {a : α} (h : x = .ok a) :
    x >>= f = f a := by
  rw [h]
  rfl

/-- What is passed on is valid, or its header is too short. -/
theorem ipintr_eq_ok (hl : ∀ m' ∈ m :: l, m'.Wf) (hlong : count (m :: l) < 2 ^ 31)
    (h : ipintr c mfreep m l = .ok l') : Valid l' ∨ Slips c mfreep m l := by
  have hsize : sizeofIp = 20 := rfl
  rw [ipintr] at h
  split_ifs at h with haddr
  obtain ⟨p, hfirst, h⟩ := of_bind_eq_ok h
  obtain ⟨q, hwhole, h⟩ := of_bind_eq_ok h
  obtain ⟨m', hsummed, h⟩ := of_bind_eq_ok h
  obtain ⟨hstarts, hp, hpsame⟩ := first_eq_ok hl hfirst
  obtain ⟨hten, hle, hq, hqsame⟩ := whole_eq_ok hpsame.wf hp hwhole
  have hbytes : bytes (q.2.1 :: q.2.2) = bytes (m :: l) := hqsame.bytes.trans hpsame.bytes
  have hhl := hlenOf_bytes (l := q.2.2) hq
  have hhl' := hlenOf_bytes (l := p.2.2) hp
  have hlen := lenOf_bytes (l := q.2.2) hq
  rw [hbytes] at hhl hlen
  rw [hpsame.bytes, hhl] at hhl'
  have hcount : count (q.2.1 :: q.2.2) = count (m :: l) := by
    rw [count_eq_length hqsame.wf, count_eq_length hl, hbytes]
  obtain ⟨hsum, hkept⟩ := summed_eq_ok hq (by omega) hsummed
  have hwf : ∀ m'' ∈ m' :: q.2.2, m''.Wf :=
    List.forall_mem_cons.2 ⟨hkept.wf (hqsame.wf _ List.mem_cons_self),
      fun m'' hm'' => hqsame.wf m'' (List.mem_cons_of_mem _ hm'')⟩
  have hcount' : count (m' :: q.2.2) = count (m :: l) := by
    rw [← hcount, count_cons, count_cons, hkept.m_len]
  obtain ⟨hfits, htrim⟩ := trimmed_eq_ok hwf (by omega) h
  rw [hkept.ip_hl, hkept.ip_len] at hfits
  have hrange := ip_hl_nonneg q.2.1
  by_cases hmin : sizeofIp ≤ 4 * ip_hl q.2.1
  · obtain ⟨l'', heq, hall, hpos⟩ := htrim (by rw [hkept.ip_hl]; omega)
    refine Or.inl ⟨_, l'', heq, ?_, ?_, ?_, ?_, hpos⟩
    · rw [ip_hl_set, hkept.ip_hl]
      exact hmin
    · rw [ip_hl_set, hkept.ip_hl]
      dsimp only
      rw [hkept.m_len, hkept.ip_len]
      exact le_min (by omega) hfits.1
    · rw [ip_hl_set, ip_len_set, hkept.ip_hl, hkept.ip_len]
      exact hfits.1
    · rw [ip_len_set, hall]
  · rw [hbytes] at hsum
    exact Or.inr ⟨by simpa using haddr, hstarts, by omega, hsum, by omega, by omega⟩

/-- Such a packet is passed on, with the length that it says it has. -/
theorem exists_ipintr (hl : ∀ m' ∈ m :: l, m'.Wf) (hlong : count (m :: l) < 2 ^ 31)
    (h : Slips c mfreep m l) : ∃ l', ipintr c mfreep m l = .ok l' ∧ ¬Valid l' := by
  have hsize : sizeofIp = 20 := rfl
  obtain ⟨haddr, hstarts, hip_hl, hsum, hip_len, hall⟩ := h
  obtain ⟨p, hfirst⟩ := exists_first hl hstarts
  obtain ⟨-, hp, hsame⟩ := first_eq_ok hl hfirst
  have hhl := hlenOf_bytes (l := p.2.2) hp
  have hlen := lenOf_bytes (l := p.2.2) hp
  rw [hsame.bytes] at hhl hlen
  have hcount : count (p.2.1 :: p.2.2) = count (m :: l) := by
    rw [count_eq_length hsame.wf, count_eq_length hl, hsame.bytes]
  have hwhole : whole p.1 p.2.1 p.2.2 = .ok p := by
    rw [whole, if_neg (by omega), if_neg (by omega)]
  rw [← hsame.bytes] at hsum
  obtain ⟨m', hsummed⟩ := exists_summed hp (by omega) hsum
  obtain ⟨-, hkept⟩ := summed_eq_ok hp (by omega) hsummed
  have hcount' : count (m' :: p.2.2) = count (m :: l) := by
    rw [← hcount, count_cons, count_cons, hkept.m_len]
  have hwf : ∀ m'' ∈ m' :: p.2.2, m''.Wf :=
    List.forall_mem_cons.2 ⟨hkept.wf (hsame.wf _ List.mem_cons_self),
      fun m'' hm'' => hsame.wf m'' (List.mem_cons_of_mem _ hm'')⟩
  obtain ⟨l', htrimmed⟩ := @exists_trimmed p.2.2 m' (by rw [hkept.ip_hl, hkept.ip_len]; omega)
    (by rw [hkept.ip_len]; omega)
  obtain ⟨-, htrim⟩ := trimmed_eq_ok hwf (by omega) htrimmed
  obtain ⟨l'', heq', -⟩ := htrim (by rw [hkept.ip_hl]; omega)
  refine ⟨l', ?_, ?_⟩
  · rw [ipintr, if_neg (by rw [haddr]; decide), ok_bind hfirst, ok_bind hwhole, ok_bind hsummed,
      htrimmed]
  · rintro ⟨m'', l₂, heq, hmin, -⟩
    rw [heq'] at heq
    obtain ⟨rfl, -⟩ := List.cons.inj heq
    rw [ip_hl_set, hkept.ip_hl] at hmin
    omega

/-- All that is passed on is valid if and only if the packet is not one of these. -/
theorem valid_iff (hl : ∀ m' ∈ m :: l, m'.Wf) (hlong : count (m :: l) < 2 ^ 31) :
    (∀ l', ipintr c mfreep m l = .ok l' → Valid l') ↔ ¬Slips c mfreep m l := by
  constructor
  · intro h hslips
    obtain ⟨l', hok, hnot⟩ := exists_ipintr hl hlong hslips
    exact hnot (h l' hok)
  · exact fun h l' hok => (ipintr_eq_ok hl hlong hok).resolve_right h

end Run

/-- A packet of one mbuf, with a header of 20 bytes and no data. -/
def packet (ip_vhl sum : UInt8) : Cell UInt8 where
  addr := 0
  m_off := 12
  m_len := 20
  m_cltype := 0
  mtod i := [ip_vhl, 0, 0, 20, 0, 0, 0, 0, 64, 17, sum, 218].getD i 0

theorem wf_packet (ip_vhl sum : UInt8) : ∀ m ∈ [packet ip_vhl sum], m.Wf := by
  rw [List.forall_mem_singleton]
  exact ⟨show (0 : ℤ) ≤ 20 by decide, show (20 : ℤ) < 2 ^ 15 by decide,
    fun _ => ⟨show 12 ≤ 12 by decide, show (12 : ℤ) + 20 ≤ 252 by decide⟩,
    fun h => absurd h (show ¬252 < 12 by decide)⟩

/-- With an `ip_hl` of 5, all is well. -/
theorem valid_five :
    ¬∃ l', ipintr ⟨true, 1, 1⟩ [] (packet 0x45 122) [] = .ok l' ∧ ¬Valid l' := by
  rintro ⟨l', hok, hnot⟩
  have hiff := @valid_iff ⟨true, 1, 1⟩ [] [] (packet 0x45 122) (wf_packet 0x45 122) (by decide)
  exact hnot (hiff.2 (fun h => absurd h.ip_hl (by decide)) l' hok)

/-- With an `ip_hl` of 3, the packet is passed on. -/
theorem not_valid : ¬∀ (c : Config) (mfreep : Mbufs) (m : Cell UInt8) (l : Mbufs),
    (∀ m' ∈ m :: l, m'.Wf) → count (m :: l) < 2 ^ 31 →
      ∀ l', ipintr c mfreep m l = .ok l' → Valid l' := by
  intro h
  have hwf := wf_packet 0x43 124
  have hslips : Slips ⟨true, 1, 1⟩ [] (packet 0x43 124) [] :=
    ⟨rfl, Or.inl ⟨by decide, by decide⟩, Or.inl (by decide), fun _ => by decide, by decide,
      by decide⟩
  obtain ⟨l', hok, hnot⟩ := exists_ipintr hwf (by decide) hslips
  exact hnot (h _ _ _ _ hwf (by decide) l' hok)

end AuxKernel.Ip.Input
