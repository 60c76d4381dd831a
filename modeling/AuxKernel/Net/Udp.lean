import AuxKernel.Net.InCksum

/-!
# Checksums of datagrams

A datagram is summed up behind a header that has what does not change on its way: addresses, ports,
protocol and lengths (`NETinet/sys/udp_usrreq.c`). It lies over the header of IP, and that is filled
in over it when the sum is known. Who receives the datagram makes the same header of what has come
in, and sums it up with the checksum, which must give zero. A checksum of zero stands for none, so
one that is zero is sent as ones.

`udp_output` ends here where the datagram goes to IP, and `udp_input` where the socket is looked
for; before it, the header has been moved into one mbuf, and options are gone.

* `udp_input_exact`: what is received is taken if and only if it has no checksum, or the one that
  `udp_output` gives a datagram with the same addresses, ports and data.
-/

namespace AuxKernel.Net.Udp

open InCksum OnesComplement

def IPPROTO_UDP : UInt8 := 17

/-- The time to live of datagrams. -/
def UDP_TTL : UInt8 := 30

/-- The sizes of the headers. -/
def sizeofIp : ℕ := 20
@[inherit_doc sizeofIp]
def sizeofUdphdr : ℕ := 8
@[inherit_doc sizeofIp]
def sizeofUdpiphdr : ℕ := sizeofIp + sizeofUdphdr

/-- A short in memory, the high byte first. -/
def short (w : UInt16) : List UInt8 := [UInt8.ofNat (w.toNat / 256), UInt8.ofNat w.toNat]

/-- A long in memory. -/
def long (w : UInt32) : List UInt8 :=
  short (UInt16.ofNat (w.toNat / 65536)) ++ short (UInt16.ofNat w.toNat)

/-- The header of a datagram, over the header of IP: `ip_len` is the low half of `ui_next`,
    `ip_ttl` is `ui_x1`, and `ip_sum` is `ui_len`. -/
structure Udpiphdr where
  ui_next : UInt32
  ui_prev : UInt32
  ui_x1 : UInt8
  ui_pr : UInt8
  ui_len : UInt16
  ui_src : UInt32
  ui_dst : UInt32
  ui_sport : UInt16
  ui_dport : UInt16
  ui_ulen : UInt16
  ui_sum : UInt16
  deriving DecidableEq, Repr

/-- The header before its checksum. -/
def Udpiphdr.front (ui : Udpiphdr) : List UInt8 :=
  long ui.ui_next ++ long ui.ui_prev ++ [ui.ui_x1, ui.ui_pr] ++ short ui.ui_len ++
    long ui.ui_src ++ long ui.ui_dst ++ short ui.ui_sport ++ short ui.ui_dport ++ short ui.ui_ulen

/-- The header in memory. -/
def Udpiphdr.bytes (ui : Udpiphdr) : List UInt8 := ui.front ++ short ui.ui_sum

/-- The header with what IP uses cleared. -/
def Udpiphdr.pseudo (ui : Udpiphdr) (len : UInt16) : Udpiphdr :=
  { ui with ui_next := 0, ui_prev := 0, ui_x1 := 0, ui_len := len }

/-- `ip_len`, which is a `short`. -/
def Udpiphdr.ip_len (ui : Udpiphdr) : ℤ := toShort ui.ui_next.toNat

/-- Send the data of a chain: the header, and the chain with it; there may be no mbuf for it. -/
def udp_output (udpcksum tcpcksum ipcksum : ℕ) (mget : Bool) (laddr faddr : UInt32)
    (lport fport : UInt16) (m0 : List (Mbuf UInt8)) :
    Option (Udpiphdr × List (Mbuf UInt8)) :=
  if mget = false then none
  else
    let len := (bytes m0).length
    let ui_len := UInt16.ofNat (len + sizeofUdphdr)
    let ui : Udpiphdr := ⟨0, 0, 0, IPPROTO_UDP, ui_len, laddr, faddr, lport, fport, ui_len, 0⟩
    let m (ui : Udpiphdr) := ⟨MMAXOFF - sizeofUdpiphdr, ui.bytes, false⟩ :: m0
    let sum := (in_cksum tcpcksum ipcksum (m ui) (sizeofUdpiphdr + len)).getD 0
    let ui_sum := if udpcksum = 0 then 0 else if sum = 0 then 65535 else UInt16.ofNat sum
    let ui := { ui with
      ui_sum := ui_sum
      ui_next := UInt32.ofNat ((sizeofUdpiphdr + len) % 65536)
      ui_x1 := UDP_TTL }
    some (ui, m ui)

/-- Keep the first `count` bytes of a chain. -/
def keep : List (Mbuf UInt8) → (count : ℕ) → List (Mbuf UInt8)
  | [], _ => []
  | m :: l, count => { m with data := m.data.take count } :: keep l (count - m.m_len)

/-- Shave `len` bytes off the end of a chain that has as many (what `m_adj` does with a negative
    length). -/
def adjTail (l : List (Mbuf UInt8)) (len : ℕ) : List (Mbuf UInt8) :=
  keep l ((bytes l).length - len)

/-- The data of a datagram: the header is cut off its mbuf. -/
def behind : List (Mbuf UInt8) → List (Mbuf UInt8)
  | [] => []
  | m :: l =>
    { m with m_off := m.m_off + sizeofUdpiphdr, data := m.data.drop sizeofUdpiphdr } :: l

/-- What becomes of a datagram: it is too short, or its checksum is wrong, or its data go to a
    socket. -/
inductive Verdict
  | badlen
  | badsum
  | taken (m : List (Mbuf UInt8))

/-- A datagram comes in: its header, what is in the same mbuf behind it, and the other mbufs.
    `ip_len` is the length without the header of IP. -/
def udp_input (udpcksum tcpcksum ipcksum : ℕ) (ui : Udpiphdr) (m_off : ℕ) (d : List UInt8)
    (m_next : List (Mbuf UInt8)) : Verdict :=
  let len := ui.ui_ulen.toNat
  let ip_len := ui.ip_len
  if len > ip_len then .badlen
  else
    let m (ui : Udpiphdr) := adjTail (⟨m_off, ui.bytes ++ d, false⟩ :: m_next) (ip_len - len).toNat
    if udpcksum ≠ 0 ∧ ui.ui_sum ≠ 0 then
      let ui := ui.pseudo ui.ui_ulen
      if in_cksum tcpcksum ipcksum (m ui) (len + sizeofIp) = some 0 then
        .taken (behind (m { ui with ui_sum := 0 }))
      else .badsum
    else .taken (behind (m ui))

/-! ## Sums -/

theorem total_short (w : UInt16) : total (short w) = w.toNat := by
  have := w.toNat_lt
  rw [short, total_cons, word, total_nil, UInt8.toNat_ofNat', UInt8.toNat_ofNat']
  omega

theorem length_short (w : UInt16) : (short w).length = 2 := rfl

theorem length_front (ui : Udpiphdr) : ui.front.length = 26 := rfl

theorem length_bytes (ui : Udpiphdr) : ui.bytes.length = sizeofUdpiphdr := rfl

/-- The checksum adds to what the rest of a datagram sums up to. -/
theorem total_bytes (ui : Udpiphdr) (b : List UInt8) :
    total (ui.bytes ++ b) = total (ui.front ++ (short 0 ++ b)) + ui.ui_sum.toNat := by
  have hfront : ui.front.length % 2 = 0 := by rw [length_front]
  have hshort (w : UInt16) : (short w).length % 2 = 0 := by rw [length_short]
  have hzero : (0 : UInt16).toNat = 0 := rfl
  rw [Udpiphdr.bytes, List.append_assoc, total_append_of_even hfront, total_append_of_even hfront,
    total_append_of_even (hshort _), total_append_of_even (hshort _), total_short, total_short,
    hzero]
  omega

/-- With a switch on, the checksum of bytes is the complement of their sum. -/
theorem in_cksum_represents {tcpcksum ipcksum : ℕ} (hon : ¬(tcpcksum = 0 ∧ ipcksum = 0))
    {l : List (Mbuf UInt8)} {len : ℕ} (hne : l ≠ []) (hlen : (bytes l).length = len)
    (hshort : len ≤ 32767) :
    ∃ x, Represents 65536 x (total (bytes l)) ∧
      in_cksum tcpcksum ipcksum l len = some (65535 - x) := by
  cases l with
  | nil => exact absurd rfl hne
  | cons m l =>
    have hs : Summed [] ⟨0, 0, 0, false⟩ := ⟨by simp, rfl⟩
    have htot := cksumFrom_eq hs hlen.ge (by simpa using hshort)
    have hrep := fold_represents (cksumFrom m l len ⟨0, 0, 0, false⟩)
    rw [htot, List.nil_append, List.take_of_length_le hlen.le] at hrep
    refine ⟨_, hrep, ?_⟩
    have hlt := hrep.lt
    rw [in_cksum, if_neg hon, BitVec.toNat_not, BitVec.toNat_setWidth, Nat.mod_eq_of_lt (by omega)]

/-- A sum is all ones with the complement of what else there is, and with nothing else but zero. -/
theorem carry_eq_ones_iff {x w : ℕ} (hx : x < 65536) (hw : w < 65536) (hpos : w ≠ 0) :
    carry 65536 (x + w) = 65535 ↔ w = if 65535 - x = 0 then 65535 else 65535 - x := by
  rw [carry]
  split_ifs <;> omega

theorem bytes_keep (l : List (Mbuf UInt8)) (n : ℕ) : bytes (keep l n) = (bytes l).take n := by
  induction l generalizing n with
  | nil => rw [keep, bytes_nil, List.take_nil]
  | cons m l ih => rw [keep, bytes_cons, bytes_cons, ih, List.take_append]; rfl

section

variable {m_off : ℕ} {ui : Udpiphdr} {d : List UInt8} {m_next m0 : List (Mbuf UInt8)}

/-- A datagram without what lies behind its `len` bytes still has its header in one mbuf. -/
theorem adjTail_eq (m_off : ℕ) {len ip_len : ℕ} (h8 : sizeofUdphdr ≤ len) (hlen : len ≤ ip_len)
    (hip : sizeofUdphdr + (d.length + (bytes m_next).length) = ip_len) :
    ∃ d' l', (∀ ui : Udpiphdr, adjTail (⟨m_off, ui.bytes ++ d, false⟩ :: m_next) (ip_len - len) =
        ⟨m_off, ui.bytes ++ d', false⟩ :: l') ∧
      d' ++ bytes l' = (d ++ bytes m_next).take (len - sizeofUdphdr) := by
  refine ⟨d.take (len - sizeofUdphdr), keep m_next (len - sizeofUdphdr - d.length), ?_, ?_⟩
  · intro ui
    have hcount : (bytes (⟨m_off, ui.bytes ++ d, false⟩ :: m_next)).length - (ip_len - len) =
        ui.bytes.length + (len - sizeofUdphdr) := by
      rw [bytes_cons, List.length_append, List.length_append]
      omega
    have hrest : ui.bytes.length + (len - sizeofUdphdr) - (ui.bytes ++ d).length =
        len - sizeofUdphdr - d.length := by
      rw [List.length_append]
      omega
    rw [adjTail, hcount, keep, List.take_length_add_append, Mbuf.m_len, hrest]
  · rw [bytes_keep, List.take_append]

/-- The header that is summed up on both sides, without the checksum. -/
def summed (src dst : UInt32) (sport dport ulen : UInt16) : List UInt8 :=
  Udpiphdr.front ⟨0, 0, 0, IPPROTO_UDP, ulen, src, dst, sport, dport, ulen, 0⟩

/-- What is sent has the complement of what else there is in it for a checksum, or ones. -/
theorem udp_output_eq {udpcksum tcpcksum ipcksum : ℕ} (hudp : udpcksum ≠ 0)
    (hon : ¬(tcpcksum = 0 ∧ ipcksum = 0)) (laddr faddr : UInt32) (lport fport : UInt16)
    {ulen : UInt16} (hulen : UInt16.ofNat ((bytes m0).length + sizeofUdphdr) = ulen)
    (hshort : sizeofUdpiphdr + (bytes m0).length ≤ 32767) :
    ∃ sent x, udp_output udpcksum tcpcksum ipcksum true laddr faddr lport fport m0 =
        some (sent, ⟨MMAXOFF - sizeofUdpiphdr, sent.bytes, false⟩ :: m0) ∧
      sent.ui_ulen = ulen ∧
      Represents 65536 x (total (summed laddr faddr lport fport ulen ++ (short 0 ++ bytes m0))) ∧
      sent.ui_sum.toNat = if 65535 - x = 0 then 65535 else 65535 - x := by
  obtain ⟨ui, hui⟩ : ∃ ui : Udpiphdr,
      ui = ⟨0, 0, 0, IPPROTO_UDP, ulen, laddr, faddr, lport, fport, ulen, 0⟩ := ⟨_, rfl⟩
  have hzero : ui.ui_sum.toNat = 0 := by
    rw [hui]
    rfl
  have hlen : (bytes (⟨MMAXOFF - sizeofUdpiphdr, ui.bytes, false⟩ :: m0)).length =
      sizeofUdpiphdr + (bytes m0).length := by
    rw [bytes_cons, List.length_append, length_bytes]
  obtain ⟨x, hx, hsent⟩ := in_cksum_represents hon (List.cons_ne_nil _ _) hlen hshort
  rw [bytes_cons, total_bytes, hzero, Nat.add_zero] at hx
  rw [hui] at hx hsent
  have hlt := hx.lt
  refine ⟨{ ui with
      ui_sum := if 65535 - x = 0 then 65535 else UInt16.ofNat (65535 - x)
      ui_next := UInt32.ofNat ((sizeofUdpiphdr + (bytes m0).length) % 65536)
      ui_x1 := UDP_TTL }, x, ?_, by rw [hui], hx, ?_⟩
  · rw [udp_output, if_neg Bool.false_ne_true.symm]
    dsimp only
    rw [hulen, hsent, Option.getD_some, if_neg hudp, hui]
  · dsimp only
    split_ifs
    · rfl
    · rw [UInt16.toNat_ofNat', Nat.mod_eq_of_lt (by omega)]

/-- A datagram that has come in sums up to zero if and only if its checksum is the one that what
    else there is in it is sent with. -/
theorem in_cksum_eq_zero_iff {tcpcksum ipcksum : ℕ} (hon : ¬(tcpcksum = 0 ∧ ipcksum = 0))
    (hpr : ui.ui_pr = IPPROTO_UDP) (hw : ui.ui_sum ≠ 0) {l : List (Mbuf UInt8)} {len x : ℕ}
    (hlen : (bytes (⟨m_off, (ui.pseudo ui.ui_ulen).bytes ++ d, false⟩ :: l)).length = len)
    (hshort : len ≤ 32767)
    (hx : Represents 65536 x (total (summed ui.ui_src ui.ui_dst ui.ui_sport ui.ui_dport
      ui.ui_ulen ++ (short 0 ++ (d ++ bytes l))))) :
    in_cksum tcpcksum ipcksum (⟨m_off, (ui.pseudo ui.ui_ulen).bytes ++ d, false⟩ :: l) len =
        some 0 ↔
      ui.ui_sum.toNat = if 65535 - x = 0 then 65535 else 65535 - x := by
  obtain ⟨y, hy, hrecv⟩ := in_cksum_represents hon (List.cons_ne_nil _ _) hlen hshort
  have hfront : (ui.pseudo ui.ui_ulen).front = summed ui.ui_src ui.ui_dst ui.ui_sport ui.ui_dport
      ui.ui_ulen := by
    rw [summed, ← hpr]
    rfl
  have hsum : (ui.pseudo ui.ui_ulen).ui_sum = ui.ui_sum := rfl
  rw [bytes_cons, List.append_assoc, total_bytes, hfront, hsum] at hy
  have hwlt : ui.ui_sum.toNat < 65536 := ui.ui_sum.toNat_lt
  have hcarry : y = carry 65536 (x + ui.ui_sum.toNat) := hy.unique (hx.add hwlt)
  have hlt := hy.lt
  have hones : 65535 - y = 0 ↔ y = 65535 := by omega
  rw [hrecv, Option.some_inj, hones, hcarry]
  exact carry_eq_ones_iff hx.lt hwlt fun h => hw (UInt16.toNat_inj.1 h)

end

/-- With the switches on, what is received is taken if and only if it has no checksum, or the one
    with which its data would be sent between the same ports, whatever mbufs they are in there. What
    is taken are the data, and nothing behind them. -/
theorem udp_input_exact {udpcksum tcpcksum ipcksum udpcksum' tcpcksum' ipcksum' : ℕ}
    (ui : Udpiphdr) (m_off : ℕ) (d : List UInt8) (m_next m0 : List (Mbuf UInt8))
    (hudp : udpcksum ≠ 0) (hon : ¬(tcpcksum = 0 ∧ ipcksum = 0)) (hudp' : udpcksum' ≠ 0)
    (hon' : ¬(tcpcksum' = 0 ∧ ipcksum' = 0)) (hpr : ui.ui_pr = IPPROTO_UDP)
    (h8 : sizeofUdphdr ≤ ui.ui_ulen.toNat) (hlen : ui.ui_ulen.toNat ≤ ui.ip_len)
    (hip : (sizeofUdphdr + (d.length + (bytes m_next).length) : ℕ) = ui.ip_len)
    (hshort : ui.ui_ulen.toNat + sizeofIp ≤ 32767)
    (hm0 : bytes m0 = (d ++ bytes m_next).take (ui.ui_ulen.toNat - sizeofUdphdr)) :
    ∃ sent m, udp_output udpcksum' tcpcksum' ipcksum' true ui.ui_src ui.ui_dst ui.ui_sport
        ui.ui_dport m0 = some (sent, m) ∧ sent.ui_ulen = ui.ui_ulen ∧
      bytes m = sent.bytes ++ bytes m0 ∧
      if ui.ui_sum = 0 ∨ ui.ui_sum = sent.ui_sum then
        ∃ m, udp_input udpcksum tcpcksum ipcksum ui m_off d m_next = .taken m ∧
          bytes m = bytes m0
      else udp_input udpcksum tcpcksum ipcksum ui m_off d m_next = .badsum := by
  obtain ⟨len, hulen⟩ : ∃ len, len = ui.ui_ulen.toNat := ⟨_, rfl⟩
  rw [← hulen] at h8 hlen hshort hm0
  obtain ⟨ip_len, hip_len⟩ : ∃ ip_len : ℕ, (ip_len : ℤ) = ui.ip_len := ⟨_, hip⟩
  have hlen' : len ≤ ip_len := by omega
  have hip' : sizeofUdphdr + (d.length + (bytes m_next).length) = ip_len := by omega
  have hsize : (bytes m0).length = len - sizeofUdphdr := by
    rw [hm0, List.length_take, List.length_append]
    omega
  have hui_len : UInt16.ofNat ((bytes m0).length + sizeofUdphdr) = ui.ui_ulen := by
    rw [hsize, Nat.sub_add_cancel h8, hulen, UInt16.ofNat_toNat]
  have hback : (ui.ip_len - (len : ℤ)).toNat = ip_len - len := by
    rw [← hip_len, Int.toNat_sub]
  have hsizes : sizeofUdpiphdr + (bytes m0).length = len + sizeofIp := by
    rw [hsize, sizeofUdpiphdr]
    omega
  obtain ⟨sent, x, hout, hsentLen, hx, hsum⟩ := udp_output_eq hudp' hon' ui.ui_src ui.ui_dst
    ui.ui_sport ui.ui_dport hui_len (hsizes.le.trans hshort)
  refine ⟨sent, _, hout, hsentLen, bytes_cons _ _, ?_⟩
  obtain ⟨d', l', htrim, hdata⟩ := adjTail_eq m_off h8 hlen' hip'
  rw [← hm0] at hdata
  have htaken (ui' : Udpiphdr) :
      bytes (behind (⟨m_off, ui'.bytes ++ d', false⟩ :: l')) = bytes m0 := by
    rw [behind, bytes_cons, ← hdata, ← length_bytes ui', List.drop_left]
  rw [udp_input, ← hulen, if_neg (not_lt.2 hlen)]
  simp only [hback, htrim]
  by_cases hw : ui.ui_sum = 0
  · have hoff : ¬(udpcksum ≠ 0 ∧ ui.ui_sum ≠ 0) := fun h => h.2 hw
    rw [if_neg hoff, if_pos (Or.inl hw)]
    exact ⟨_, rfl, htaken ui⟩
  · have hright : in_cksum tcpcksum ipcksum
        (⟨m_off, (ui.pseudo ui.ui_ulen).bytes ++ d', false⟩ :: l') (len + sizeofIp) = some 0 ↔
        ui.ui_sum = sent.ui_sum := by
      rw [in_cksum_eq_zero_iff hon hpr hw _ hshort (hdata.symm ▸ hx), ← hsum, UInt16.toNat_inj]
      rw [bytes_cons, List.append_assoc, hdata, List.length_append, length_bytes, hsizes]
    rw [if_pos (And.intro hudp hw)]
    by_cases hsame : ui.ui_sum = sent.ui_sum
    · rw [if_pos (Or.inr hsame), if_pos (hright.2 hsame)]
      exact ⟨_, rfl, htaken _⟩
    · rw [if_neg fun h => h.elim hw hsame, if_neg fun h => hsame (hright.1 h)]

/-- Two bytes of data with two bytes behind them, in two mbufs, and a checksum of seven. -/
theorem udp_input_exact_ten :
    ∃ sent m, udp_output 1 1 1 true 1 2 3 4 [⟨12, [5, 6], false⟩] = some (sent, m) ∧
      sent.ui_ulen = 10 ∧ bytes m = sent.bytes ++ [5, 6] ∧
      if (7 : UInt16) = 0 ∨ 7 = sent.ui_sum then
        ∃ m, udp_input 1 1 0 ⟨12, 0, 30, IPPROTO_UDP, 0, 1, 2, 3, 4, 10, 7⟩ 100 [5]
          [⟨12, [6, 7, 8], false⟩] = .taken m ∧ bytes m = [5, 6]
      else udp_input 1 1 0 ⟨12, 0, 30, IPPROTO_UDP, 0, 1, 2, 3, 4, 10, 7⟩ 100 [5]
          [⟨12, [6, 7, 8], false⟩] = .badsum := by
  refine udp_input_exact ⟨12, 0, 30, IPPROTO_UDP, 0, 1, 2, 3, 4, 10, 7⟩ 100 [5]
    [⟨12, [6, 7, 8], false⟩] [⟨12, [5, 6], false⟩] ?_ ?_ ?_ ?_ ?_ ?_ ?_ ?_ ?_ ?_ <;> decide

end AuxKernel.Net.Udp
