import AuxKernel.Tcp.Call
import AuxKernel.Tcp.Kept

/-!
# Where the FIN goes

A `FIN` belongs on the segment whose text reaches the end of the send buffer
(`FinPlaced`), so that it comes after every byte. `tcp_output` compares the two ends as
unsigned numbers: where the numbers start again from zero between them, the `FIN` goes with
an earlier segment. And it chooses the flags before `m_copy`, which may find no mbufs for
the last bytes.

* `finPlaced_iff`: exactly in these two cases a `FIN` is in the wrong place.
-/

namespace AuxKernel.Tcp.Send.Out

open Net

/-- The `FIN` of a segment is where it belongs: it is there if and only if the state calls
    for it and the text reaches the end of the buffer; every byte in the buffer is before it. -/
structure FinPlaced (tp : Conn) (packet : Packet) : Prop where
  fin_iff : packet.th_fin ↔
    outFin tp.t_state ∧ tp.off + packet.text.length = tp.so_snd.sb_cc
  before : packet.th_fin → ∀ i : ℤ, 0 ≤ i → i < tp.so_snd.sb_cc →
    seqLt (tp.snd_una + BitVec.ofInt 32 i) (packet.ti_seq + BitVec.ofInt 32 packet.text.length)

/-- The numbers start again from zero between the end of the text and that of the buffer. -/
def Conn.WrapsAhead (tp : Conn) : Prop :=
  (tp.snd_una.toNat + (tp.off + tp.len)) / 2 ^ 32 <
    (tp.snd_una.toNat + tp.so_snd.sb_cc) / 2 ^ 32

/-- The text goes to the end of the buffer, and there are no mbufs for it. -/
def Conn.LosesEnd (tp : Conn) (e : Env) : Prop :=
  tp.off + tp.len = tp.so_snd.sb_cc ∧ tp.len ≠ 0 ∧ e.nocopy

/-- A segment can be sent: `snd_nxt` is in the window, segments have a length, and there are
    mbufs. -/
def Conn.CanSend (tp : Conn) (e : Env) : Prop :=
  0 ≤ tp.usable tp.t_force ∧ 0 ≤ tp.t_maxseg ∧ ¬ e.nohdr ∧ ¬ (tp.opt.isSome ∧ e.noopt)

/-- A pass in a state that calls for a `FIN` keeps clear of the two cases. -/
def Conn.FinClean (tp : Conn) (e : Env) : Prop :=
  outFin tp.t_state → tp.CanSend e → ¬ tp.WrapsAhead ∧ ¬ tp.LosesEnd e

section FinPlace

variable {tp : Conn} {e : Env} {text : List UInt8}

theorem toNat_add_ofInt (a : TcpSeq) (x : ℤ) :
    ((a + BitVec.ofInt 32 x).toNat : ℤ) = (a.toNat + x) % 2 ^ 32 := by
  have hx : ((BitVec.ofInt 32 x).toNat : ℤ) = x % 2 ^ 32 := by
    rw [BitVec.toNat_ofInt]
    exact Int.toNat_of_nonneg (Int.emod_nonneg _ (by decide))
  rw [BitVec.toNat_add]
  push_cast
  rw [hx]
  omega

/-- The end of the text is in the buffer. -/
theorem end_le (tp : Conn) : tp.off + tp.len ≤ tp.so_snd.sb_cc := by
  have hle := length_le_usable tp.toTcpcb tp.t_force
  have husable := usable_le tp.toTcpcb tp.t_force
  rw [Conn.len]
  omega

theorem len_nonneg_iff (h : 0 ≤ tp.usable tp.t_force) : 0 ≤ tp.len ↔ 0 ≤ tp.t_maxseg := by
  rw [Conn.len, Tcpcb.length]
  split_ifs <;> omega

/-- The test for the `FIN`, without wraparound. -/
theorem tcpcb_fin_iff (h : Kept tp.toTcpcb) (hlen : 0 ≤ tp.len) :
    tp.fin tp.len ↔ outFin tp.t_state ∧ (tp.off + tp.len = tp.so_snd.sb_cc ∨ tp.WrapsAhead) := by
  have hend := end_le tp
  have hoff := h.off
  have hsmall := h.small
  have hcc : tp.so_snd.sb_cc = tp.so_snd.contents.length := h.counted
  have hnxt : tp.snd_nxt + BitVec.ofInt 32 tp.len =
      tp.snd_una + BitVec.ofInt 32 (tp.off + tp.len) := by
    rw [BitVec.ofInt_add, ← BitVec.add_assoc, Tcpcb.off, ← eq_add_diff]
  have hlt : (tp.snd_nxt + BitVec.ofInt 32 tp.len).toNat <
      (tp.snd_una + BitVec.ofInt 32 tp.so_snd.sb_cc).toNat ↔
        ¬ (tp.off + tp.len = tp.so_snd.sb_cc ∨ tp.WrapsAhead) := by
    rw [← Int.ofNat_lt, hnxt, toNat_add_ofInt, toNat_add_ofInt, Conn.WrapsAhead]
    omega
  rw [Tcpcb.fin, Bool.and_eq_true, Bool.not_eq_true', decide_eq_false_iff_not, hlt, not_not]

/-- The text of a segment is as long as it was meant to be, if there are mbufs. -/
theorem Conn.Sends.length (h : tp.Sends e text) : (text.length : ℤ) =
    if e.nocopy then 0 else tp.len := by
  obtain ⟨htext, hok⟩ := m_copy_eq_some h.copy
  by_cases hno : e.nocopy
  · rw [if_pos hno] at htext ⊢
    rw [htext, List.length_nil, Nat.cast_zero]
  · rw [if_neg hno] at htext ⊢
    by_cases hlen : tp.len = 0
    · rw [htext, hlen]
      simp
    · have := hok hlen
      rw [htext, List.length_take, List.length_drop]
      omega

/-- What is sent is what can be sent. -/
theorem Conn.Sends.canSend (h : tp.Sends e text) : tp.CanSend e := by
  refine ⟨h.usable, (len_nonneg_iff h.usable).1 ?_, h.nohdr, h.noopt⟩
  by_contra hneg
  exact hneg ((m_copy_eq_some h.copy).2 (by omega)).2.1

theorem template_of_synchronized (hk : Kept tp.toTcpcb) (hs : synchronized tp.t_state) :
    tp.t_template := by
  refine hk.template ?_ ?_ <;> intro hst <;> exact absurd (hst ▸ hs) (by decide)

/-- What can be sent is sent, in a pass that wants to. -/
theorem Conn.CanSend.sends (h : tp.CanSend e) (hk : Kept tp.toTcpcb) (ht : tp.t_template)
    (hwants : tp.wants tp.len (tp.call e)) : ∃ text, tp.Sends e text := by
  obtain ⟨husable, hmaxseg, hhdr, hopt⟩ := h
  have hlen := (len_nonneg_iff husable).2 hmaxseg
  have hend := end_le tp
  have hoff := hk.off
  have hcc : tp.so_snd.sb_cc = tp.so_snd.contents.length := hk.counted
  have hcopy : ∃ text, m_copy tp.so_snd.contents tp.off tp.len e.nocopy = some text := by
    rw [m_copy]
    split_ifs with hzero hbad
    · exact ⟨_, rfl⟩
    · omega
    · exact ⟨_, rfl⟩
    · exact ⟨_, rfl⟩
  exact hcopy.imp fun _ hcopy => ⟨husable, hwants, hhdr, hcopy, ht, hopt⟩

/-- A `FIN` at the end of the buffer comes after every byte. -/
theorem before_end (hk : Kept tp.toTcpcb) {packet : Packet} (hseq : packet.ti_seq = tp.snd_nxt)
    (hend : tp.off + packet.text.length = tp.so_snd.sb_cc) {i : ℤ} (h₀ : 0 ≤ i)
    (h₁ : i < tp.so_snd.sb_cc) : seqLt (tp.snd_una + BitVec.ofInt 32 i)
      (packet.ti_seq + BitVec.ofInt 32 packet.text.length) := by
  have hsmall := hk.small
  have hcc : tp.so_snd.sb_cc = tp.so_snd.contents.length := hk.counted
  have hfin : packet.ti_seq + BitVec.ofInt 32 packet.text.length =
      tp.snd_una + BitVec.ofInt 32 tp.so_snd.sb_cc := by
    rw [← hend, BitVec.ofInt_add, ← BitVec.add_assoc, hseq, Tcpcb.off, ← eq_add_diff]
  rw [seqLt, hfin, diff_ofInt _ (by omega) (by omega), decide_eq_true_eq]
  omega

/-- A pass that is clear of the two cases puts the `FIN` where it belongs. -/
theorem FinPlaced.of_clean (hk : Kept tp.toTcpcb) (hs : tp.Sends e text) (hc : tp.FinClean e) :
    FinPlaced tp (tp.packet text) := by
  have hcan := hs.canSend
  have hlength := hs.length
  have hlen := (len_nonneg_iff hcan.1).2 hcan.2.1
  have hfin := tcpcb_fin_iff hk hlen
  have hend := end_le tp
  have hplaced : tp.fin tp.len ↔
      outFin tp.t_state ∧ tp.off + text.length = tp.so_snd.sb_cc := by
    rw [hfin]
    refine and_congr_right fun hout => ?_
    obtain ⟨hwraps, hloses⟩ := hc hout hcan
    rw [or_iff_left hwraps, hlength]
    split_ifs with hno
    · -- Nothing is lost: the text was empty, or it ends before the buffer does.
      have hzero : tp.off + tp.len = tp.so_snd.sb_cc → tp.len = 0 := fun he => by
        by_contra hne
        exact hloses ⟨he, hne, hno⟩
      omega
    · rfl
  exact ⟨hplaced, fun hf _ h₀ h₁ => before_end hk rfl (hplaced.1 hf).2 h₀ h₁⟩

/-- A pass puts the `FIN` where it belongs if and only if it is clear of the two cases. -/
theorem finPlaced_iff (hk : Kept tp.toTcpcb) (hs : synchronized tp.t_state) (e : Env) :
    (∀ packet, (tp.pass e).packet = some packet → FinPlaced tp packet) ↔ tp.FinClean e := by
  constructor
  · intro h hout hcan
    by_contra hbad
    have hlen := (len_nonneg_iff hcan.1).2 hcan.2.1
    have hends : tp.off + tp.len = tp.so_snd.sb_cc ∨ tp.WrapsAhead := by
      by_contra hno
      exact hbad ⟨fun hw => hno (.inr hw), fun hl => hno (.inl hl.1)⟩
    have hfin : tp.fin tp.len := (tcpcb_fin_iff hk hlen).2 ⟨hout, hends⟩
    have hwants : tp.wants tp.len (tp.call e) := by simp [Tcpcb.wants, hfin]
    obtain ⟨text, hsends⟩ := hcan.sends hk (template_of_synchronized hk hs) hwants
    have hplaced := (h _ (packet_pass.2 ⟨text, hsends, rfl⟩)).fin_iff.1 hfin
    have hlength := hsends.length
    have hend : tp.off + text.length = tp.so_snd.sb_cc := hplaced.2
    refine hbad ⟨fun hw => ?_, fun hl => ?_⟩
    · rw [Conn.WrapsAhead] at hw
      split_ifs at hlength <;> omega
    · rw [if_pos hl.2.2] at hlength
      have := hl.1
      have := hl.2.1
      omega
  · intro hc packet hp
    obtain ⟨text, hsends, rfl⟩ := packet_pass.1 hp
    exact .of_clean hk hsends hc

end FinPlace

/-! ## A FIN on the first byte -/

/-- The connection with this sending side, on which nothing was received. -/
def quiet (tp : Tcpcb) : Conn where
  toTcpcb := tp
  t_force := false
  tf_acknow := false
  tf_delack := false
  tf_noopt := false
  t_tcpopt := none
  rcv_nxt := 701
  rcv_adv := 701
  so_rcv := ⟨⟨[], 0, 0⟩, 2048, 4096, false⟩

/-- All the mbufs that are needed, and a way out. -/
def fine : Env := ⟨false, false, false, 0⟩

/-- A connection with a byte to send, which its user has closed. -/
def oneByte : Conn := quiet { created.tp with
  t_state := .finWait1, t_template := true, snd_wnd := 100, so_snd := ⟨[⟨12, [7], false⟩], 1, 256⟩ }

theorem finPlaced_oneByte : (∀ packet, (oneByte.pass fine).packet = some packet →
    FinPlaced oneByte packet) ↔ oneByte.FinClean fine := by
  have hk : Kept oneByte.toTcpcb := ⟨rfl, by decide, by decide, fun _ _ => rfl⟩
  exact finPlaced_iff hk (by decide) fine

/-- Three bytes are written at `2 ^ 32 - 2` into a window of one byte, and the user closes. -/
def wrapping : List Act :=
  [.connect (.ofNat 32 (2 ^ 32 - 3)), .output plain,
    .segment { synSeg true (.ofNat 32 (2 ^ 32 - 2)) with ti_win := 1 } 0 false false,
    .send [⟨12, [7, 8, 9], false⟩] false, .close]

/-- The first byte of three goes with the `FIN`. -/
theorem not_finPlaced : ¬ ∀ s, sending.ReachableIf (fun s a => a.Valid s) s →
    synchronized s.tp.t_state → ∀ packet, ((quiet s.tp).pass fine).packet = some packet →
      FinPlaced (quiet s.tp) packet := by
  intro h
  obtain ⟨s, hrun, hs, packet, hp, hfin, hend⟩ : ∃ s,
      sending.runIf (fun s a => a.Valid s) created wrapping = some s ∧ synchronized s.tp.t_state ∧
      ∃ packet, ((quiet s.tp).pass fine).packet = some packet ∧ packet.th_fin = true ∧
        (quiet s.tp).off + packet.text.length ≠ s.tp.so_snd.sb_cc :=
    ⟨_, rfl, by decide, _, rfl, by decide, by decide⟩
  have hplaced := h s (Machine.reachableIf_runIf (.init init_created) hrun) hs packet hp
  exact hend (hplaced.fin_iff.1 hfin).2

end AuxKernel.Tcp.Send.Out
