import AuxKernel.Rpc.Fastsend

/-!
# What a fast send sends, and what it keeps

* The packets of `ku_fastsend` are pieces of the datagram, one behind the other, and those that it
  has sent when it returns 0 are all of it (`Sends`, by `fragment_spec`).
* The checksum of a packet is right if and only if the sum of its words, folded once, is a word
  (`sumOk_iff`).
* No mbuf of the chain is freed twice. If there are mbufs, all are freed once (`Sends.freed`).
* The entry of its route is never given up, so that a send is only right as a whole if there was
  none (`exact_iff_none`).
-/

namespace AuxKernel.Rpc.Fastsend

open Route

variable {α ι : Type} {env : Env ι}

/-! ## Checksums -/

/-- The sum of all words of a header is all ones. -/
def Packet.SumOk (p : Packet) : Prop :=
  OnesComplement.sum (2 ^ 16) ((p.ip.ip_sum :: p.ip.ips).map BitVec.toNat) = 2 ^ 16 - 1

/-- The checksum is that of `ku_fastsend`. -/
def Packet.Summed (p : Packet) : Prop :=
  p.ip.ip_sum = ~~~ BitVec.ofNat 16 (p.ip.sum + p.ip.sum / 2 ^ 16)

theorem sum_bounds (ip : Ip) : 0 < ip.sum ∧ ip.sum < 9 * 2 ^ 16 := by
  have h : ip.sum = 0x4500 + (ip.ip_len.toNat + (ip.ip_id.toNat + (ip.ip_off.toNat + (0xff11 +
    ((ip.ip_src.extractLsb' 16 16).toNat + ((ip.ip_src.extractLsb' 0 16).toNat +
    ((ip.ip_dst.extractLsb' 16 16).toNat + ((ip.ip_dst.extractLsb' 0 16).toNat + 0)))))))) := rfl
  omega

/-- A sum and its folded complement. -/
theorem fold_mod_iff {s : ℕ} (h : s < 9 * 2 ^ 16) :
    (2 ^ 16 - 1 - (s + s / 2 ^ 16) % 2 ^ 16 + s) % (2 ^ 16 - 1) = 0 ↔
      s % 2 ^ 16 + s / 2 ^ 16 < 2 ^ 16 := by
  have hk : s / 2 ^ 16 < 9 := by omega
  have hr : s % 2 ^ 16 < 2 ^ 16 := Nat.mod_lt _ (by decide)
  have hs : s = s / 2 ^ 16 * 2 ^ 16 + s % 2 ^ 16 := (Nat.div_add_mod' s _).symm
  generalize s / 2 ^ 16 = k at *
  generalize s % 2 ^ 16 = r at *
  subst hs
  have hsum : (k * 2 ^ 16 + r + k) % 2 ^ 16 = (r + k) % 2 ^ 16 := by omega
  rw [hsum]
  by_cases hfold : r + k < 2 ^ 16
  · rw [Nat.mod_eq_of_lt hfold]
    omega
  · have hcarry : (r + k) % 2 ^ 16 = r + k - 2 ^ 16 := by omega
    rw [hcarry]
    omega

/-- Once is not enough, where the high word of the sum carries again. -/
theorem sumOk_iff {p : Packet} (h : p.Summed) :
    p.SumOk ↔ p.ip.sum % 2 ^ 16 + p.ip.sum / 2 ^ 16 < 2 ^ 16 := by
  obtain ⟨hpos, hlt⟩ := sum_bounds p.ip
  have hall : ((p.ip.ip_sum :: p.ip.ips).map BitVec.toNat).sum =
      2 ^ 16 - 1 - (p.ip.sum + p.ip.sum / 2 ^ 16) % 2 ^ 16 + p.ip.sum := by
    rw [List.map_cons, List.sum_cons, ← Ip.sum, h, BitVec.toNat_not, BitVec.toNat_ofNat]
  have hrep := OnesComplement.sum_represents (by decide : 0 < 2 ^ 16)
    (fun y hy => by
      obtain ⟨w, -, rfl⟩ := List.mem_map.1 hy
      exact w.isLt : ∀ y ∈ (p.ip.ip_sum :: p.ip.ips).map BitVec.toNat, y < 2 ^ 16)
  rw [hall] at hrep
  rw [Packet.SumOk]
  generalize OnesComplement.sum (2 ^ 16) _ = x at hrep
  generalize p.ip.sum = s at *
  rw [← fold_mod_iff hlt]
  constructor
  · rintro rfl
    have hmod := hrep.modEq
    rw [Nat.ModEq, Nat.mod_self] at hmod
    exact hmod.symm
  · intro hfold
    refine hrep.unique ⟨by decide, ?_, by omega⟩
    rw [Nat.ModEq, Nat.mod_self]
    exact hfold.symm

/-! ## Pieces -/

/-- A packet is the piece of the datagram from `off` on. -/
structure Piece (d : List UInt8) (off : ℕ) (p : Packet) : Prop where
  offset : p.ip.ip_off.toNat % 2 ^ 13 * 8 = off
  mf : p.ip.ip_off.getLsbD 13 = decide (off + p.payload.length < d.length)
  pos : 0 < p.payload.length
  payload : p.payload = (d.drop off).take p.payload.length
  len : p.ip.ip_len.toNat = sizeofIp + p.payload.length

/-- Packets are pieces of the datagram, from `off` on. -/
def Pieces (d : List UInt8) : (off : ℕ) → List Packet → Prop
  | _, [] => True
  | off, p :: l => Piece d off p ∧ Pieces d (off + p.payload.length) l

theorem Pieces.concat {d : List UInt8} {off : ℕ} {l : List Packet} {p : Packet}
    (h : Pieces d off l) (hp : Piece d (off + (l.flatMap Packet.payload).length) p) :
    Pieces d off (l ++ [p]) := by
  induction l generalizing off with
  | nil => exact ⟨by simpa using hp, trivial⟩
  | cons q l ih =>
    refine ⟨h.1, ih h.2 ?_⟩
    rwa [List.flatMap_cons, List.length_append, ← Nat.add_assoc] at hp

@[simp] theorem bytes_nil : bytes [] = [] := rfl

@[simp] theorem bytes_append (l l' : List Mbuf) : bytes (l ++ l') = bytes l ++ bytes l' :=
  List.flatMap_append

@[simp] theorem bytes_cons (a : Mbuf) (l : List Mbuf) : bytes (a :: l) = a.data ++ bytes l := rfl

/-- Mbufs are taken as long as they fit. -/
theorem fill_spec (n : ℕ) (am : List Mbuf) : ∀ {curlen : ℕ}, curlen ≤ n →
    ∃ text len rest, fill n curlen am = (text, len, rest) ∧ am = text ++ rest ∧
      len = curlen + (bytes text).length ∧ len ≤ n ∧ ∀ a ∈ rest.head?, n < a.m_len + len := by
  induction am with
  | nil =>
    intro curlen hle
    exact ⟨[], curlen, [], rfl, rfl, rfl, hle, by simp⟩
  | cons a am ih =>
    intro curlen hle
    rw [fill]
    by_cases hfit : a.m_len + curlen ≤ n
    · obtain ⟨text, len, rest, hfill, ham, hlen, hmax, hrest⟩ := ih (Nat.add_comm _ _ ▸ hfit)
      rw [if_pos hfit, hfill]
      refine ⟨a :: text, len, rest, rfl, by rw [ham]; rfl, ?_, hmax, hrest⟩
      rw [hlen, bytes_cons, List.length_append, Mbuf.m_len, Nat.add_assoc]
    · rw [if_neg hfit]
      refine ⟨[], curlen, a :: am, rfl, rfl, rfl, hle, ?_⟩
      rintro b ⟨⟩
      exact Nat.lt_of_not_le hfit

/-- The words for an offset. -/
theorem off_spec {off : ℕ} (h8 : 8 ∣ off) (hlt : off < 2 ^ 16) :
    ((BitVec.ofNat 16 (off / 2 ^ 3)).toNat % 2 ^ 13 * 8 = off ∧
      (BitVec.ofNat 16 (off / 2 ^ 3)).getLsbD 13 = false) ∧
    ((BitVec.ofNat 16 (off / 2 ^ 3) ||| IP_MF).toNat % 2 ^ 13 * 8 = off ∧
      (BitVec.ofNat 16 (off / 2 ^ 3) ||| IP_MF).getLsbD 13 = true) := by
  have hsmall : off / 2 ^ 3 < 2 ^ 13 := by omega
  have hbit : (BitVec.ofNat 16 (off / 2 ^ 3)).getLsbD 13 = false := by
    rw [BitVec.getLsbD_ofNat, Nat.testBit_lt_two_pow hsmall, Bool.and_false]
  have hor : (BitVec.ofNat 16 (off / 2 ^ 3) ||| IP_MF).toNat = 2 ^ 13 + off / 2 ^ 3 := by
    rw [BitVec.toNat_or, BitVec.toNat_ofNat, Nat.mod_eq_of_lt (by omega), Nat.or_comm]
    exact (Nat.two_pow_add_eq_or_of_lt hsmall 1).symm
  refine ⟨⟨?_, hbit⟩, ?_, ?_⟩
  · rw [BitVec.toNat_ofNat]
    omega
  · rw [hor]
    omega
  · rw [BitVec.getLsbD_or, hbit]
    rfl

/-! ## The loop -/

/-- How often a name is in a list. -/
def times (l : List Name) (i : ℕ) : ℕ := l.count (.own i)

/-- Between the turns of the loop: what has been sent is the datagram up to `fragoff`, what is left
    of the chain the rest. -/
structure Inv (env : Env ι) (d : List UInt8) (am : List Mbuf) (c : Cur) (run : Run) : Prop where
  pieces : Pieces d 0 run.sent
  summed : ∀ p ∈ run.sent, p.Summed
  sent : run.sent.flatMap Packet.payload = d.take c.fragoff
  rest : c.udp ++ bytes c.am = d.drop c.fragoff
  more : c.fragoff < d.length
  aligned : 8 ∣ c.fragoff
  curlen : c.curlen = c.udp.length
  udp : c.udp.length ≤ sizeofUdphdr
  names : ∀ i, times (run.sent.flatMap Packet.names) i + times (c.am.map Mbuf.name) i =
    times (am.map Mbuf.name) i
  hdr : ∀ i, c.m ≠ .own i
  freed : run.freed = []
  first : c.sentpck = false → run.sent = [] ∧ c.am = am
  taken : ∀ n < run.sent.length, env.if_output n = none

/-- What holds of a return. -/
structure Sends (env : Env ι) (d : List UInt8) (am : List Mbuf) (r : ℤ) (run : Run) : Prop where
  ret : r = 0 ∨ r = -1 ∨ r = -2
  pieces : Pieces d 0 run.sent
  summed : ∀ p ∈ run.sent, p.Summed
  all : r = 0 → run.sent.flatMap Packet.payload = d ∧
    ∀ n < run.sent.length, env.if_output n = none
  none : r = -2 → run.sent = []
  once : ∀ i, times (run.sent.flatMap Packet.names ++ run.freed) i ≤ times (am.map Mbuf.name) i
  freed : (∀ n, env.mget n = true) → r ≠ -2 ∧ (r = -1 →
    ∀ i, times (run.sent.flatMap Packet.names ++ run.freed) i = times (am.map Mbuf.name) i)

/-- What holds behind a turn that began at `off`. -/
def After (env : Env ι) (d : List UInt8) (am : List Mbuf) (off : ℕ) : Out × Run → Prop
  | (.ret r _, run) => Sends env d am r run
  | (.more c, run) => Inv env d am c run ∧ off < c.fragoff

variable {d : List UInt8} {am rest text : List Mbuf} {c : Cur} {run : Run} {len : ℕ}

@[simp] theorem times_append (l l' : List Name) (i : ℕ) :
    times (l ++ l') i = times l i + times l' i :=
  List.count_append

theorem times_cons_of_ne {x : Name} {i : ℕ} (h : x ≠ .own i) (l : List Name) :
    times (x :: l) i = times l i :=
  List.count_cons_of_ne h

theorem names_concat (l : List Packet) (p : Packet) {i : ℕ} (h : p.hdr ≠ .own i) :
    times ((l ++ [p]).flatMap Packet.names) i =
      times (l.flatMap Packet.names) i + times (p.data.map Mbuf.name) i := by
  rw [List.flatMap_append, times_append, List.flatMap_singleton, Packet.names, times_cons_of_ne h]

/-- A packet with the next bytes of the datagram is sent. -/
theorem send_spec (hc : Inv env d am c run) {ip_off : BitVec 16} {nextip : Name}
    (hnext : ∀ i, nextip ≠ .own i) (hshort : sizeofIp + d.length < 2 ^ 16)
    (hlen : len = (c.udp ++ bytes text).length) (hpos : 0 < len)
    (hoff : ip_off.toNat % 2 ^ 13 * 8 = c.fragoff ∧ ip_off.getLsbD 13 = decide (rest ≠ []))
    (htext : c.udp ++ bytes text ++ bytes rest = c.udp ++ bytes c.am)
    (hrest : rest ≠ [] → 0 < (bytes rest).length ∧ 8 ∣ len)
    (hnames : ∀ i, times (text.map Mbuf.name) i + times (rest.map Mbuf.name) i =
      times (c.am.map Mbuf.name) i) :
    After env d am c.fragoff (send env c ip_off text len rest nextip run) := by
  have hd : d.drop c.fragoff = (c.udp ++ bytes text) ++ bytes rest := by rw [htext, hc.rest]
  have hdlen : d.length = c.fragoff + (len + (bytes rest).length) := by
    have h := congrArg List.length hd
    rw [List.length_drop, List.length_append, ← hlen] at h
    have := hc.more
    omega
  have hmore : rest ≠ [] ↔ c.fragoff + len < d.length := by
    constructor
    · intro hne
      have := (hrest hne).1
      omega
    · rintro hlt rfl
      exact absurd hlt (by simp [hdlen, bytes])
  -- The packet, and what has been sent with it.
  have hpay : (c.packet ip_off text len).payload = (d.drop c.fragoff).take len := by
    rw [hd, hlen, List.take_left]
    rfl
  have hpiece : Piece d c.fragoff (c.packet ip_off text len) := by
    have hplen : (c.packet ip_off text len).payload.length = len := by
      rw [hpay, hd, hlen, List.take_left]
    refine ⟨hoff.1, ?_, by rwa [hplen], by rw [hplen, hpay], ?_⟩
    · rw [hplen, Cur.packet, hoff.2]
      exact decide_eq_decide.2 hmore
    · rw [hplen]
      exact (BitVec.toNat_ofNat _ _).trans (Nat.mod_eq_of_lt (by omega))
  obtain ⟨l, hl⟩ : ∃ l, l = run.sent ++ [c.packet ip_off text len] := ⟨_, rfl⟩
  have hsent : l.flatMap Packet.payload = d.take (c.fragoff + len) := by
    rw [hl, List.take_add, List.flatMap_append, hc.sent, List.flatMap_singleton, hpay]
  have hpieces : Pieces d 0 l := by
    rw [hl]
    refine hc.pieces.concat ?_
    rw [hc.sent, List.length_take, Nat.min_eq_left hc.more.le, Nat.zero_add]
    exact hpiece
  have hsummed : ∀ p ∈ l, p.Summed := by
    intro p hp
    rcases List.mem_append.1 (hl ▸ hp) with hp | hp
    · exact hc.summed p hp
    · rw [List.mem_singleton.1 hp]
      rfl
  have htimes (i : ℕ) : times (l.flatMap Packet.names) i + times (rest.map Mbuf.name) i =
      times (am.map Mbuf.name) i := by
    rw [hl, names_concat _ _ (hc.hdr i), Nat.add_assoc, ← hc.names i, ← hnames i]
    rfl
  rw [send, ← hl]
  by_cases herr : (env.if_output run.sent.length).isSome = true
  · simp only [if_pos herr]
    by_cases hnil : rest = []
    · rw [if_neg (not_not.2 hnil)]
      refine ⟨by simp, hpieces, hsummed, by simp, by simp, fun i => ?_, fun _ => ⟨by simp, ?_⟩⟩
      · rw [hc.freed, List.append_nil, ← htimes i]
        exact Nat.le_add_right _ _
      · intro _ i
        rw [hc.freed, List.append_nil, ← htimes i, hnil]
        rfl
    · rw [if_pos hnil]
      have hall (i : ℕ) : times (l.flatMap Packet.names ++
          (run.freed ++ nextip :: rest.map Mbuf.name)) i = times (am.map Mbuf.name) i := by
        rw [hc.freed, List.nil_append, times_append, times_cons_of_ne (hnext i), htimes i]
      exact ⟨by simp, hpieces, hsummed, by simp, by simp, fun i => (hall i).le,
        fun _ => ⟨by simp, fun _ => hall⟩⟩
  have htaken : ∀ n < l.length, env.if_output n = none := by
    intro n hn
    rw [hl, List.length_append, List.length_singleton] at hn
    rcases Nat.lt_succ_iff_lt_or_eq.1 hn with hn | rfl
    · exact hc.taken n hn
    · exact Option.not_isSome_iff_eq_none.1 herr
  simp only [if_neg herr]
  by_cases hnil : rest = []
  · rw [if_pos hnil]
    have hend : c.fragoff + len = d.length := by rw [hdlen, hnil]; rfl
    refine ⟨by simp, hpieces, hsummed, fun _ => ⟨?_, htaken⟩, by simp, fun i => ?_,
      fun _ => ⟨by simp, by simp⟩⟩
    · rw [hsent, hend, List.take_length]
    · rw [hc.freed, List.append_nil, ← htimes i]
      exact Nat.le_add_right _ _
  · rw [if_neg hnil]
    refine ⟨⟨hpieces, hsummed, hsent, ?_, hmore.1 hnil, ?_, rfl, Nat.zero_le _, htimes, hnext,
      hc.freed, by simp, htaken⟩, Nat.lt_add_of_pos_right hpos⟩
    · rw [List.nil_append, ← List.drop_drop, hd, hlen, List.drop_left]
    · exact (Nat.dvd_add_right hc.aligned).2 (hrest hnil).2

theorem Inv.got (hc : Inv env d am c run) (mgets : ℕ) :
    Inv env d am c { run with mgets } :=
  { hc with }

/-- What is freed when there is no mbuf. -/
theorem Inv.fail (hc : Inv env d am c run) {l : List Name} {r : ℤ} (hr : r = -1 ∨ r = -2)
    (hsent : r = -2 → c.sentpck = false) (hmget : ¬∀ n, env.mget n = true)
    (hl : ∀ i, times l i ≤ times (c.am.map Mbuf.name) i) :
    Sends env d am r { run with freed := run.freed ++ c.m :: l } := by
  refine ⟨.inr hr, hc.pieces, hc.summed, ?_, fun h => (hc.first (hsent h)).1, fun i => ?_,
    fun h => (hmget h).elim⟩
  · rintro rfl
    simp at hr
  · rw [hc.freed, List.nil_append, times_append, times_cons_of_ne (hc.hdr i), ← hc.names i]
    exact Nat.add_le_add_left (hl i) _

theorem full_spec (hc : Inv env d am c run) {mm : Option Mbuf}
    (hshort : sizeofIp + d.length < 2 ^ 16) (hne : rest ≠ []) (h8 : 8 ∣ len) (hpos : 0 < len)
    (hlen : len = (c.udp ++ bytes (text ++ mm.toList)).length)
    (htext : c.udp ++ bytes (text ++ mm.toList) ++ bytes rest = c.udp ++ bytes c.am)
    (hrest : 0 < (bytes rest).length)
    (hnames : ∀ i, times ((text ++ mm.toList).map Mbuf.name) i + times (rest.map Mbuf.name) i =
      times (c.am.map Mbuf.name) i) :
    After env d am c.fragoff (full env c text mm len rest run) := by
  have hle (i : ℕ) : times ((text ++ mm.toList).map Mbuf.name) i ≤ times (c.am.map Mbuf.name) i :=
    hnames i ▸ Nat.le_add_right _ _
  obtain ⟨-, hoff, hmf⟩ := off_spec hc.aligned (by have := hc.more; omega)
  rw [full]
  by_cases hget : env.mget run.mgets = true
  · simp only [hget, Bool.not_true, Bool.false_eq_true, if_false]
    refine send_spec (hc.got _) (by simp) hshort hlen hpos ⟨hoff, ?_⟩ htext (fun _ => ⟨hrest, h8⟩)
      hnames
    rw [hmf]
    exact (decide_eq_true hne).symm
  · have hall : ¬∀ n, env.mget n = true := fun h => hget (h _)
    rw [Bool.not_eq_true] at hget
    simp only [hget, Bool.not_false, if_true]
    by_cases hsent : c.sentpck = true
    · rw [if_pos hsent]
      exact (hc.got _).fail (.inl rfl) (by simp) hall hle
    · rw [if_neg hsent]
      rw [Bool.not_eq_true] at hsent
      exact (hc.got _).fail (.inr rfl) (fun _ => hsent) hall fun i => Nat.zero_le _

/-- A turn of the loop: a packet is sent, or the call returns. -/
theorem fragment_spec {n : ℕ} (hc : Inv env d am c run) (hshort : sizeofIp + d.length < 2 ^ 16)
    (h8 : 8 ∣ n) (hn : sizeofUdphdr ≤ n) :
    After env d am c.fragoff (fragment env n c run) := by
  obtain ⟨text, len, rest, hfill, ham, hlen, hmax, hrest⟩ :=
    fill_spec n c.am (hc.curlen.trans_le (hc.udp.trans hn))
  have hlen' : len = (c.udp ++ bytes text).length := by
    rw [hlen, hc.curlen, List.length_append]
  rw [fragment, hfill]
  cases rest with
  | nil =>
    obtain ⟨⟨hoff, hmf⟩, -⟩ := off_spec hc.aligned (by have := hc.more; omega)
    rw [List.append_nil] at ham
    refine send_spec hc hc.hdr hshort hlen' ?_ ⟨hoff, hmf⟩ ?_ (by simp) ?_
    · rw [hlen', ← ham, hc.rest, List.length_drop]
      exact Nat.sub_pos_of_lt hc.more
    · rw [ham]
      exact List.append_nil _
    · rw [ham]
      exact fun i => Nat.add_zero _
  | cons a rest =>
    have hbig := hrest a rfl
    have hnpos : 0 < n := Nat.lt_of_lt_of_le (by decide) hn
    by_cases hfit : len = n
    · simp only [if_pos hfit]
      refine full_spec hc hshort (by simp) (hfit ▸ h8) (hfit ▸ hnpos) ?_ ?_ ?_ ?_
      · simpa using hlen'
      · rw [ham]
        simp
      · rw [bytes_cons, List.length_append]
        rw [Mbuf.m_len] at hbig
        omega
      · intro i
        rw [ham]
        simp
    · simp only [if_neg hfit]
      by_cases hget : env.mget run.mgets = true
      · simp only [hget, Bool.not_true, Bool.false_eq_true, if_false]
        -- The rest of the packet is the first part of the next mbuf.
        rw [Mbuf.m_len] at hbig
        refine full_spec (hc.got _) hshort (by simp) h8 hnpos ?_ ?_ ?_ ?_
        · rw [List.length_append] at hlen' ⊢
          rw [Option.toList_some, bytes_append, bytes_cons, bytes_nil, List.append_nil,
            List.length_append, List.length_take]
          omega
        · rw [ham]
          simp [← List.append_assoc (List.take _ _)]
        · rw [bytes_cons, List.length_append, List.length_drop]
          omega
        · intro i
          rw [ham]
          simp [times]
      · have hall : ¬∀ n, env.mget n = true := fun h => hget (h _)
        rw [Bool.not_eq_true] at hget
        simp only [hget, Bool.not_false, if_true]
        by_cases hsent : c.sentpck = true
        · rw [if_pos hsent]
          exact (hc.got _).fail (.inl rfl) (by simp) hall fun i => le_rfl
        · rw [if_neg hsent]
          rw [Bool.not_eq_true] at hsent
          exact (hc.got _).fail (.inr rfl) (fun _ => hsent) hall fun i => Nat.zero_le _

/-- The loop comes to an end. -/
theorem fragLoop_spec {n : ℕ} (hshort : sizeofIp + d.length < 2 ^ 16) (h8 : 8 ∣ n)
    (hn : sizeofUdphdr ≤ n) :
    ∀ (fuel : ℕ) {c : Cur} {run : Run}, Inv env d am c run → d.length < c.fragoff + fuel →
      ∃ r chain run', fragLoop env n fuel c run = some (r, chain, run') ∧
        Sends env d am r run' := by
  intro fuel
  induction fuel with
  | zero =>
    intro c run hc hfuel
    exact absurd hc.more (by omega)
  | succ fuel ih =>
    intro c run hc hfuel
    have hturn := fragment_spec hc hshort h8 hn
    rw [fragLoop]
    generalize fragment env n c run = out at hturn ⊢
    rcases out with ⟨⟨r, chain⟩ | c', run'⟩
    · exact ⟨_, _, _, rfl, hturn⟩
    · exact ih hturn.1 (by have := hturn.2; omega)

/-! ## The call -/

/-- The chain of the caller, with a name for each mbuf. -/
structure Chain (am : List Mbuf) : Prop where
  nonempty : am ≠ []
  names : am.map Mbuf.name = (List.range am.length).map Name.own
  short : (bytes am).length ≤ UDPMSGSIZE

theorem length_udphdr (sport dport ulen : BitVec 16) :
    (udphdr sport dport ulen).length = sizeofUdphdr := rfl

theorem datagram_length (env : Env ι) (am : List Mbuf) (addr : SockaddrIn) :
    (datagram env am addr).length = sizeofUdphdr + (bytes am).length := by
  rw [datagram, List.length_append, length_udphdr]

/-- What is sent, and freed, through an interface. -/
theorem output_spec (env : Env ι) {ifp : ι} (hmtu : 28 ≤ env.if_mtu ifp) (h : Chain am)
    (addr : SockaddrIn) :
    ∃ r chain run, output env ifp am addr = some (r, chain, run) ∧
      (Sends env (datagram env am addr) am r run ∨ r = -2 ∧ chain = am ∧ run.sent = []) := by
  rw [output]
  by_cases hget : env.mget 0 = true
  · simp only [hget, Bool.not_true, Bool.false_eq_true, if_false]
    cases env.ifptoia ifp with
    | none => exact ⟨_, _, _, rfl, .inr ⟨rfl, rfl, rfl⟩⟩
    | some ip_src =>
      have hlen := datagram_length env am addr
      have hshort := h.short
      rw [UDPMSGSIZE] at hshort
      have hn : sizeofUdphdr ≤ maxlen (env.if_mtu ifp) := by
        rw [maxlen, sizeofUdphdr, sizeofIp]
        omega
      have hinv (c : Cur) (hc : c = ⟨.got 0, ⟨0, env.ip_id, 0, 0, ip_src, addr.sin_addr⟩,
          udphdr env.inp_lport addr.sin_port (BitVec.ofNat 16 (sizeofUdphdr + (bytes am).length)),
          am, sizeofUdphdr, 0, false⟩) : Inv env (datagram env am addr) am c ⟨1, [], []⟩ := by
        subst hc
        have hpos : 0 < sizeofUdphdr + (bytes am).length := Nat.add_pos_left (by decide) _
        exact ⟨trivial, by simp, rfl, rfl, by rwa [hlen],
          by simp, rfl, le_rfl, by simp [times], by simp, rfl, fun _ => ⟨rfl, rfl⟩, by simp⟩
      obtain ⟨r, chain, run, hloop, hsends⟩ := fragLoop_spec
        (by rw [hlen, sizeofIp, sizeofUdphdr]; omega) (Dvd.intro_left _ rfl) hn
        (sizeofUdphdr + (bytes am).length + 1) (hinv _ rfl) (by rw [hlen]; omega)
      exact ⟨r, chain, run, hloop, .inl hsends⟩
  · rw [Bool.not_eq_true] at hget
    simp only [hget, Bool.not_false, if_true]
    exact ⟨_, _, _, rfl, .inr ⟨rfl, rfl, rfl⟩⟩

/-! ## The route -/

variable [DecidableEq α] (afs : Afs α) (if_up : Option ι → Bool) (zero : α)

/-- The route of a call. -/
def route (tab : Rtab α ι) (addr : SockaddrIn) : Ro α × Rtab α ι :=
  rtalloc afs if_up tab ⟨afs.setAddr zero addr.sin_addr.toNat, none⟩

/-- What is right of a call: what is sent, what is freed or kept, and that there are no more
    references to an entry than before. -/
structure Exact (env : Env ι) (am : List Mbuf) (addr : SockaddrIn) (tab : Rtab α ι)
    (res : Res α ι) : Prop where
  ret : res.ret = 0 ∨ res.ret = -1 ∨ res.ret = -2
  pieces : Pieces (datagram env am addr) 0 res.run.sent
  sums : ∀ p ∈ res.run.sent, p.SumOk
  all : res.ret = 0 → res.run.sent.flatMap Packet.payload = datagram env am addr ∧
    ∀ n < res.run.sent.length, env.if_output n = none
  kept : res.ret = -2 → res.run.sent = [] ∧ bytes res.chain = bytes am
  freed : res.ret = -1 → ∀ i < am.length,
    times (res.run.sent.flatMap Packet.names ++ res.run.freed) i = 1
  released : ∀ e, (res.tab.rt e).rt_refcnt = (tab.rt e).rt_refcnt

/-- A lookup holds the entry that it finds. -/
theorem rtalloc_tab (tab : Rtab α ι) (dst : α) :
    (rtalloc afs if_up tab ⟨dst, none⟩).2 =
      (rtalloc afs if_up tab ⟨dst, none⟩).1.ro_rt.elim tab tab.hold := by
  rw [rtalloc]
  by_cases hno : (⟨dst, none⟩ : Ro α).usable tab ∨ afs.sa_family dst ≥ afs.AF_MAX
  · rw [if_pos hno]
    rfl
  · rw [if_neg hno]
    cases find afs if_up tab dst with
    | none => rfl
    | some e => rfl

theorem toShort_succ_ne (n : ℤ) : toShort (n + 1) ≠ n := by
  intro h
  have hmod := congrArg (· % (2 ^ 16 : ℤ)) h
  simp only [toShort] at hmod
  rw [show (2 ^ 16 : ℤ) = ((2 ^ 16 : ℕ) : ℤ) by rfl, Int.bmod_emod] at hmod
  omega

/-- What a call is, for the route that there is. -/
theorem ku_fastsend_cases (env : Env ι) (tab : Rtab α ι) (am : List Mbuf) (addr : SockaddrIn)
    {res : Res α ι} (h : ku_fastsend env afs if_up zero tab am addr = some res) :
    ((route afs if_up zero tab addr).1.ro_rt = none ∧ res = ⟨-2, am, ⟨0, [], []⟩, tab⟩) ∨
    ∃ e, (route afs if_up zero tab addr).1.ro_rt = some e ∧
      (res.tab.rt e).rt_refcnt = toShort ((tab.rt e).rt_refcnt + 1) := by
  have htab := rtalloc_tab afs if_up tab (afs.setAddr zero addr.sin_addr.toNat)
  rw [ku_fastsend] at h
  rw [route]
  generalize rtalloc afs if_up tab ⟨afs.setAddr zero addr.sin_addr.toNat, none⟩ = p at h htab ⊢
  obtain ⟨⟨dst, ro⟩, tab'⟩ := p
  cases ro with
  | none =>
    cases htab
    cases h
    exact .inl ⟨rfl, rfl⟩
  | some e =>
    have hcnt : (tab'.rt e).rt_refcnt = toShort ((tab.rt e).rt_refcnt + 1) := by
      rw [show tab' = tab.hold e from htab]
      simp [Rtab.hold, Rtab.set]
    refine .inr ⟨e, rfl, ?_⟩
    dsimp only at h
    cases hifp : (tab'.rt e).rt_ifp with
    | none =>
      rw [hifp] at h
      cases h
      exact hcnt
    | some ifp =>
      rw [hifp] at h
      obtain ⟨q, -, rfl⟩ := Option.map_eq_some_iff.1 h
      simpa [Rtab.set] using hcnt

/-- A call is right as a whole only where it has no route, and does nothing. -/
theorem exact_iff_none (env : Env ι) (tab : Rtab α ι) (am : List Mbuf) (addr : SockaddrIn) :
    (∃ res, ku_fastsend env afs if_up zero tab am addr = some res ∧ Exact env am addr tab res) ↔
      (route afs if_up zero tab addr).1.ro_rt = none := by
  constructor
  · rintro ⟨res, hres, hexact⟩
    rcases ku_fastsend_cases afs if_up zero env tab am addr hres with ⟨hno, -⟩ | ⟨e, -, hcnt⟩
    · exact hno
    · -- The entry that has been found is still held.
      exact absurd (hcnt.symm.trans (hexact.released e)) (toShort_succ_ne _)
  · intro hno
    refine ⟨⟨-2, am, ⟨0, [], []⟩, tab⟩, ?_, by simp, trivial, by simp, by simp, by simp, by simp,
      fun _ => rfl⟩
    have htab := rtalloc_tab afs if_up tab (afs.setAddr zero addr.sin_addr.toNat)
    rw [route] at hno
    rw [ku_fastsend]
    generalize rtalloc afs if_up tab ⟨afs.setAddr zero addr.sin_addr.toNat, none⟩ = p at hno htab ⊢
    obtain ⟨⟨dst, ro⟩, tab'⟩ := p
    cases hno
    cases htab
    rfl

/-- Addresses that are numbers, with one entry, to the host 7. -/
def hosts : Afs ℕ := ⟨fun _ => 2, 16, id, id, fun a b => a == b, 0, id, fun _ a => a⟩

@[inherit_doc hosts]
def hostTab : Rtab ℕ ℕ where
  rt _ := ⟨7, 7, 0, true, true, false, false, 1, 0, some 0⟩
  chain host k := if host ∧ k = 7 then [0] else []
  nalloc := 1
  freed := []
  rttrash := 0

/-- An interface that sends everything. -/
def ether : Env ℕ := ⟨fun _ => true, fun _ => none, fun _ => 1500, fun _ => some 1, 1, 1000⟩

theorem not_released : ∃ res, ku_fastsend ether hosts (fun _ => true) 0 hostTab
    [⟨.own 0, [1, 2, 3, 4]⟩] ⟨2049, 7⟩ = some res ∧ res.ret = 0 ∧
      ¬Exact ether [⟨.own 0, [1, 2, 3, 4]⟩] ⟨2049, 7⟩ hostTab res := by
  refine ⟨_, rfl, rfl, fun h => ?_⟩
  exact absurd (h.released 0) (by decide)

/-- But for its route, a call sends what it is to send. -/
theorem ku_fastsend_sends (env : Env ι) (hmtu : ∀ ifp, 28 ≤ env.if_mtu ifp) (tab : Rtab α ι)
    {am : List Mbuf} (h : Chain am) (addr : SockaddrIn) :
    ∃ res, ku_fastsend env afs if_up zero tab am addr = some res ∧
      (Sends env (datagram env am addr) am res.ret res.run ∨
        res.ret = -2 ∧ res.chain = am ∧ res.run.sent = []) := by
  rw [ku_fastsend]
  generalize rtalloc afs if_up tab _ = p
  obtain ⟨⟨dst, ro⟩, tab'⟩ := p
  cases ro with
  | none => exact ⟨_, rfl, .inr ⟨rfl, rfl, rfl⟩⟩
  | some e =>
    dsimp only
    cases (tab'.rt e).rt_ifp with
    | none => exact ⟨_, rfl, .inr ⟨rfl, rfl, rfl⟩⟩
    | some ifp =>
      obtain ⟨r, chain, run, hout, hsends⟩ := output_spec env (hmtu ifp) h addr
      simp only [hout, Option.map_some]
      exact ⟨_, rfl, hsends⟩

end AuxKernel.Rpc.Fastsend
