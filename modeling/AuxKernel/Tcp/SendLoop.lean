import AuxKernel.Tcp.OwedAck

/-!
# The send loop

A call of `tcp_output` goes on while there is more text in the window than one segment
takes. `t_maxseg` is whatever 16 bits the other side said, as a `short`. If it is negative
`m_copy` is told to copy less than nothing; if it is zero, a segment takes none of the text,
and the loop does not come to an end if there is a reason to send that a segment does not
remove (`Conn.Restless`). Nor does it if `m_copy` finds no mbufs time and again.

The test for the `FIN` moves `snd_nxt` all the same where the sequence numbers start again
from zero in front of it: a loop gets as far as `Conn.stall`.

* `finishes_iff`: which calls finish (`Finishes`), with or without mbufs for the text.
-/

namespace AuxKernel.Tcp.Send.Out

open Net

/-- A pass calls `m_copy`. -/
def Conn.Copies (tp : Conn) (e : Env) : Prop :=
  0 ≤ tp.usable tp.t_force ∧ tp.wants tp.len (tp.call e) ∧ ¬ e.nohdr ∧ tp.len ≠ 0

/-- A call makes finitely many passes, in each of which `m_copy` is asked for bytes of the
    buffer, and segments are not too long. -/
structure Finishes (tp : Conn) (env : ℕ → Env) : Prop where
  stops : (tcp_output env).Stops tp
  copies : ∀ n tq, (tcp_output env).start tp n = some tq → tq.Copies (env n) →
    0 ≤ tq.off ∧ 0 ≤ tq.len ∧ tq.off + tq.len ≤ tq.so_snd.sb_cc
  total : ∀ n tq packet, (tcp_output env).start tp n = some tq →
    (tq.pass (env n)).packet = some packet → packet.total < 2 ^ 16

namespace Conn

variable (tp : Conn)

/-- Where the text that can be sent ends. -/
def limit : ℤ := min tp.so_snd.sb_cc (tp.snd_wnd + if tp.t_force then 1 else 0)

/-- Where the numbers started again from zero last, seen from the end of the buffer. -/
def restart : ℤ := (tp.snd_una.toNat + tp.so_snd.sb_cc) / 2 ^ 32 * 2 ^ 32 - tp.snd_una.toNat

/-- As far as `snd_nxt` gets if no text is sent: a `FIN` that is not due moves it. -/
def stall : ℤ := if outFin tp.t_state then max tp.off (tp.restart - tp.t_maxseg) else tp.off

/-- A window update that is due stays so after a segment: its window is silly, or no news. -/
def Unsettled : Prop :=
  tp.update ∧ ¬ (tp.win > 0 ∧ seqGt (tp.rcv_nxt + BitVec.ofInt 32 tp.win) tp.rcv_adv)

/-- There is a reason to send segments that they do not remove. -/
def Restless : Prop :=
  tp.t_state = .closed ∨ tp.snd_up.diff tp.snd_una > tp.stall ∨ tp.Unsettled

/-- The loop gets to where `snd_nxt` stays: there is more than a segment's text left, of which
    nothing is sent. `nomem` says that `m_copy` may find no mbufs. -/
def Stuck (nomem : Bool) : Prop :=
  ¬ tp.t_force ∧ ¬ outSyn tp.t_state ∧ tp.stall + tp.t_maxseg < tp.limit ∧
    if tp.t_maxseg = 0 then tp.Restless else nomem

/-- The call returns at once, or segments have a length and it is not stuck. -/
def LoopClean (nomem : Bool) : Prop :=
  tp.usable tp.t_force < 0 ∨ 0 ≤ tp.t_maxseg ∧ ¬ tp.Stuck nomem

end Conn

section SendLoop

variable {tp tq : Conn} {e : Env} {env : ℕ → Env} {text : List UInt8} {nomem : Bool}

theorem usable_eq (tp : Conn) : tp.usable tp.t_force = tp.limit - tp.off := rfl

theorem limit_le (tp : Conn) : tp.limit ≤ tp.so_snd.sb_cc := min_le_left _ _

theorem off_le_stall (tp : Conn) : tp.off ≤ tp.stall := by
  rw [Conn.stall]
  split_ifs
  · exact le_max_left _ _
  · exact le_rfl

theorem wrapsAhead_iff (tp : Conn) : tp.WrapsAhead ↔ tp.off + tp.len < tp.restart := by
  rw [Conn.WrapsAhead, Conn.restart]
  omega

theorem len_of_sendalot (h : tp.sendalot) : tp.len = tp.t_maxseg := by
  rw [Conn.sendalot, decide_eq_true_eq] at h
  rw [Conn.len, Tcpcb.length, if_pos h]

theorem sendalot_iff (tp : Conn) : tp.sendalot ↔ tp.off + tp.t_maxseg < tp.limit := by
  rw [Conn.sendalot, decide_eq_true_eq, usable_eq]
  omega

/-- While there is more to send, a `FIN` is only sent ahead of the point where the numbers
    start again. -/
theorem fin_of_sendalot (hk : Kept tp.toTcpcb) (h₀ : 0 ≤ tp.t_maxseg) (h : tp.sendalot) :
    tp.fin tp.len ↔ outFin tp.t_state ∧ tp.off + tp.t_maxseg < tp.restart := by
  have hlen := len_of_sendalot h
  have hmore := (sendalot_iff tp).1 h
  have hlimit := limit_le tp
  have hne : tp.off + tp.len ≠ tp.so_snd.sb_cc := by omega
  rw [tcpcb_fin_iff hk (by omega), wrapsAhead_iff, hlen, or_iff_right (hlen ▸ hne)]

/-- Nothing of what makes a pass want to send depends on the mbufs. -/
theorem wants_call (tp : Conn) (e e' : Env) :
    tp.wants tp.len (tp.call e) = tp.wants tp.len (tp.call e') := rfl

/-! ## One pass -/

/-- The numbers that a pass takes, if the loop goes on after it. -/
def Conn.gain (tp : Conn) (e : Env) : ℤ :=
  (if e.nocopy then 0 else tp.t_maxseg) +
    if outSyn tp.t_state ∨ outFin tp.t_state ∧ tp.off + tp.t_maxseg < tp.restart then 1 else 0

/-- What a pass leaves if the loop goes on. -/
structure GoesOn (tp : Conn) (e : Env) (tq : Conn) : Prop where
  during : During tp tq
  kept : Kept tq.toTcpcb
  template : tq.t_template
  t_force : ¬ tp.t_force
  sendalot : tp.off + tp.t_maxseg < tp.limit
  wants : tp.wants tp.len (tp.call e)
  off : tq.off = tp.off + tp.gain e
  snd_up : tq.snd_up = if seqGt tp.snd_up tp.snd_nxt then tp.snd_up else tp.snd_una
  tf_acknow : tq.tf_acknow = false
  rcv_adv : tq.rcv_adv =
    if tp.win > 0 ∧ seqGt (tp.rcv_nxt + BitVec.ofInt 32 tp.win) tp.rcv_adv then
      tp.rcv_nxt + BitVec.ofInt 32 tp.win
    else tp.rcv_adv

theorem goesOn (hk : Kept tp.toTcpcb) (h₀ : 0 ≤ tp.t_maxseg)
    (h : (tp.pass e).next = some tq) : GoesOn tp e tq := by
  have hd := during_next h
  obtain ⟨seg, hside⟩ := sending_next h
  obtain ⟨text, hsends, -, hmore, hforce, rfl⟩ := next_pass.1 h
  have hlen := len_of_sendalot hmore
  have hfin := fin_of_sendalot hk h₀ hmore
  have hlength := hsends.length
  have hoff := hk.off
  have hsmall := hk.small
  have hend := end_le tp
  have hcc : tp.so_snd.sb_cc = tp.so_snd.contents.length := hk.counted
  have hseg : (tp.packet text).toSegment.len = tp.gain e := by
    have hflags : ((outSyn tp.t_state || tp.fin tp.len) = true) ↔
        outSyn tp.t_state ∨ outFin tp.t_state ∧ tp.off + tp.t_maxseg < tp.restart := by
      rw [Bool.or_eq_true, hfin]
    change (text.length : ℤ) + (if (outSyn tp.t_state || tp.fin tp.len) = true then 1 else 0) = _
    rw [Conn.gain, hlength]
    exact congrArg₂ (· + ·) (by rw [hlen]) (if_congr hflags rfl rfl)
  have hdrag : tp.dragUp.off = tp.off := (same_dragUp tp.toTcpcb).off
  have hgain : 0 ≤ tp.gain e ∧ tp.gain e ≤ tp.t_maxseg + 1 := by
    rw [Conn.gain]
    split_ifs <;> omega
  refine ⟨hd, hk.output hside, ?_, hforce, (sendalot_iff tp).1 hmore, hsends.wants, ?_, ?_, rfl,
    rfl⟩
  · simp only [Conn.acked, Conn.handed, if_neg hforce, Tcpcb.advance, Tcpcb.dragUp]
    split_ifs <;> exact hsends.template
  · change Tcpcb.off (if tp.t_force then _ else tp.dragUp.advance (tp.packet text).toSegment) = _
    rw [if_neg hforce, off_advance (by rw [hdrag]; omega) (by rw [hdrag]; omega), hdrag, hseg]
  · simp only [Conn.acked, Conn.handed, if_neg hforce, Tcpcb.advance, Tcpcb.dragUp]
    split_ifs <;> rfl

/-- A window update is due after a segment if it was unsettled before. -/
theorem GoesOn.update (h : GoesOn tp e tq) : tq.update ↔ tp.Unsettled := by
  have hd := h.during
  have hadv := h.rcv_adv
  rw [Conn.Unsettled]
  by_cases hnew : tp.win > 0 ∧ seqGt (tp.rcv_nxt + BitVec.ofInt 32 tp.win) tp.rcv_adv
  · -- The whole window is announced.
    rw [if_pos hnew] at hadv
    have hwin : tp.win = tp.so_rcv.sbspace := by
      have hpos := hnew.1
      rw [Conn.win] at hpos ⊢
      split_ifs at hpos ⊢
      · omega
      · rfl
    refine iff_of_false ?_ fun hu => hu.2 hnew
    rw [Conn.update, hadv, hd.rcv_nxt, hd.so_rcv, hwin, add_sub_cancel_left, sub_self, mul_zero]
    simp
  · rw [if_neg hnew] at hadv
    rw [Conn.update, Conn.update, hadv, hd.rcv_nxt, hd.so_rcv]
    exact (and_iff_left hnew).symm

/-- What is unsettled stays so. -/
theorem GoesOn.unsettled (h : GoesOn tp e tq) : tq.Unsettled ↔ tp.Unsettled := by
  refine ⟨fun hu => h.update.1 hu.1, fun hu => ⟨h.update.2 hu, ?_⟩⟩
  have hd := h.during
  have hadv := h.rcv_adv
  rw [if_neg hu.2] at hadv
  have hwin : tq.win = tp.win := by rw [Conn.win, Conn.win, hd.so_rcv]
  rw [hwin, hd.rcv_nxt, hadv]
  exact hu.2

theorem GoesOn.limit (h : GoesOn tp e tq) : tq.limit = tp.limit := by
  rw [Conn.limit, Conn.limit, h.during.so_snd, h.during.snd_wnd, h.during.t_force]

theorem GoesOn.restart (h : GoesOn tp e tq) : tq.restart = tp.restart := by
  rw [Conn.restart, Conn.restart, h.during.so_snd, h.during.snd_una]

theorem gain_nonneg (h₀ : 0 ≤ tp.t_maxseg) : 0 ≤ tp.gain e := by
  rw [Conn.gain]
  split_ifs <;> omega

theorem GoesOn.stall_le (h : GoesOn tp e tq) (h₀ : 0 ≤ tp.t_maxseg) : tp.stall ≤ tq.stall := by
  have hoff := h.off
  have hgain := @gain_nonneg tp e h₀
  rw [Conn.stall, Conn.stall, h.during.t_state, h.during.t_maxseg, h.restart]
  split_ifs <;> omega

/-- The urgent pointer is dragged to `snd_una`, unless it is past `snd_nxt`. -/
theorem GoesOn.urgent (h : GoesOn tp e tq) (hk : Kept tp.toTcpcb) (hoff : tp.off < 2 ^ 31) :
    tq.snd_up.diff tq.snd_una =
        (if tp.snd_up.diff tp.snd_una > tp.off then tp.snd_up.diff tp.snd_una else 0) ∨
      tq.snd_up.diff tq.snd_una < 0 := by
  have h₀ := hk.off
  have hrange := diff_lt tp.snd_up tp.snd_una
  rw [h.during.snd_una, h.snd_up]
  by_cases hpos : tp.snd_up.diff tp.snd_una ≥ 0
  · have hsub : tp.snd_up.diff tp.snd_nxt = tp.snd_up.diff tp.snd_una - tp.off :=
      diff_eq_sub tp.snd_una _ _ (by rw [← Tcpcb.off]; omega) (by rw [← Tcpcb.off]; omega)
    simp only [seqGt, hsub, decide_eq_true_eq, sub_pos]
    split_ifs with hgt
    · exact .inl rfl
    · exact .inl (diff_self _)
  · split_ifs
    · omega
    · omega
    · exact .inr (by omega)
    · exact .inl (diff_self _)

/-! ## Calls that end -/

/-- A call does not become stuck on its way. -/
theorem GoesOn.stuck (h : GoesOn tp e tq) (hk : Kept tp.toTcpcb) (h₀ : 0 ≤ tp.t_maxseg)
    (hs : tq.Stuck nomem) : tp.Stuck nomem := by
  obtain ⟨-, hsyn, hmore, hwhy⟩ := hs
  have hd := h.during
  have hstall := h.stall_le h₀
  have hoff := off_le_stall tp
  have hk₀ := hk.off
  rw [hd.t_state] at hsyn
  rw [hd.t_maxseg] at hmore hwhy
  rw [h.limit] at hmore
  refine ⟨h.t_force, hsyn, by omega, ?_⟩
  by_cases hz : tp.t_maxseg = 0
  · rw [if_pos hz] at hwhy ⊢
    have hlimit := limit_le tp
    have hsmall := hk.small
    have hcc : tp.so_snd.sb_cc = tp.so_snd.contents.length := hk.counted
    rcases hwhy with hclosed | hup | hun
    · exact .inl (hd.t_state ▸ hclosed)
    · refine .inr (.inl ?_)
      have hurgent := h.urgent hk (by omega)
      split_ifs at hurgent <;> omega
    · exact .inr (.inr (h.unsettled.1 hun))
  · rw [if_neg hz] at hwhy ⊢
    exact hwhy

/-- A pass that takes no numbers removes the reason to send, if the call is not stuck. -/
theorem GoesOn.rests (h : GoesOn tp e tq) (hk : Kept tp.toTcpcb) (h₀ : 0 ≤ tp.t_maxseg)
    (hs : ¬ tp.Stuck nomem) (hcopy : e.nocopy → nomem) (hgain : tp.gain e = 0) :
    ¬ tq.wants tq.len (tq.call e) := by
  have hd := h.during
  have hmore := h.sendalot
  have hoff := h.off
  have hk₀ := hk.off
  have hlimit := limit_le tp
  have hsmall := hk.small
  have hcc : tp.so_snd.sb_cc = tp.so_snd.contents.length := hk.counted
  -- There is no flag with a number of its own, so this is as far as the loop gets.
  have hflags : ¬ (outSyn tp.t_state ∨ outFin tp.t_state ∧ tp.off + tp.t_maxseg < tp.restart) := by
    intro hf
    rw [Conn.gain, if_pos hf] at hgain
    split_ifs at hgain <;> omega
  obtain ⟨hsyn, hfin⟩ := not_or.1 hflags
  have hstall : tp.stall = tp.off := by
    rw [Conn.stall]
    split_ifs with hout
    · have := mt (And.intro hout) hfin
      exact max_eq_left (by omega)
    · rfl
  have hwhy : ¬ if tp.t_maxseg = 0 then tp.Restless else nomem := fun hw =>
    hs ⟨h.t_force, hsyn, by omega, hw⟩
  have hz : tp.t_maxseg = 0 := by
    by_contra hne
    rw [if_neg hne] at hwhy
    rw [Conn.gain, if_neg hflags, if_neg (mt hcopy hwhy)] at hgain
    omega
  rw [if_pos hz] at hwhy
  obtain ⟨hclosed, hup, hun⟩ : tp.t_state ≠ .closed ∧
      ¬ tp.snd_up.diff tp.snd_una > tp.stall ∧ ¬ tp.Unsettled :=
    ⟨fun hc => hwhy (.inl hc), fun hu => hwhy (.inr (.inl hu)), fun hu => hwhy (.inr (.inr hu))⟩
  have hmore' : tq.sendalot := by
    rw [sendalot_iff, h.limit, hoff, hd.t_maxseg]
    omega
  have hlen : tq.len = 0 := by rw [len_of_sendalot hmore', hd.t_maxseg, hz]
  have hfin' : ¬ tq.fin 0 := by
    rw [← hlen, fin_of_sendalot h.kept (by rw [hd.t_maxseg]; exact h₀) hmore', hd.t_state,
      hd.t_maxseg, h.restart, hoff, hgain, add_zero]
    exact hfin
  have hup' : ¬ seqGt tq.snd_up tq.snd_una := by
    have hurgent := h.urgent hk (by omega)
    rw [seqGt, decide_eq_true_eq]
    split_ifs at hurgent <;> omega
  have hupdate : ¬ tq.update := mt h.update.1 hun
  have hstate : tq.t_state ≠ .closed := hd.t_state ▸ hclosed
  have hsyn' : ¬ outSyn tq.t_state := hd.t_state ▸ hsyn
  simp [Tcpcb.wants, Conn.call, hsyn', hstate, hfin', hup', hupdate, hlen, h.tf_acknow]

/-- Every pass takes numbers, or it is the last but one. -/
theorem stops_of_not_stuck (hk : Kept tp.toTcpcb) (h₀ : 0 ≤ tp.t_maxseg) (hs : ¬ tp.Stuck nomem)
    (hcopy : ∀ n, (env n).nocopy → nomem) : (tcp_output env).Stops tp := by
  refine Loop.stops_of_rank
    (P := fun tp => Kept tp.toTcpcb ∧ 0 ≤ tp.t_maxseg ∧ ¬ tp.Stuck nomem)
    (fun tp => 2 * (tp.limit - tp.off).toNat + if tp.wants tp.len (tp.call fine) then 1 else 0)
    (fun n tp tq hP hn => ?_) ⟨hk, h₀, hs⟩
  obtain ⟨hk, h₀, hs⟩ := hP
  have h : GoesOn tp (env n) tq := goesOn hk h₀ hn
  refine ⟨⟨h.kept, h.during.t_maxseg ▸ h₀, mt (h.stuck hk h₀) hs⟩, ?_⟩
  have hmore := h.sendalot
  have hoff := h.off
  have hgain := @gain_nonneg tp (env n) h₀
  rw [h.limit, wants_call tp fine (env n), wants_call tq fine (env n), if_pos h.wants]
  by_cases hz : tp.gain (env n) = 0
  · rw [if_neg (h.rests hk h₀ hs (hcopy n) hz)]
    omega
  · split_ifs <;> omega

/-! ## Calls that do not end -/

/-- A call that is stuck goes on. -/
theorem Conn.Stuck.next (hs : tp.Stuck nomem) (hk : Kept tp.toTcpcb) (ht : tp.t_template)
    (h₀ : 0 ≤ tp.t_maxseg) : ∃ tq, (tp.pass ⟨false, nomem, false, 0⟩).next = some tq ∧
      GoesOn tp ⟨false, nomem, false, 0⟩ tq ∧ tq.Stuck nomem := by
  obtain ⟨hforce, hsyn, hmore, hwhy⟩ := hs
  have hoff := off_le_stall tp
  have hk₀ := hk.off
  have hlimit := limit_le tp
  have hsmall := hk.small
  have hcc : tp.so_snd.sb_cc = tp.so_snd.contents.length := hk.counted
  have hsendalot : tp.sendalot := (sendalot_iff tp).2 (by omega)
  have hlen := len_of_sendalot hsendalot
  have hwants : tp.wants tp.len (tp.call ⟨false, nomem, false, 0⟩) := by
    by_cases hz : tp.t_maxseg = 0
    · rw [if_pos hz] at hwhy
      rcases hwhy with hclosed | hup | hun
      · simp [Tcpcb.wants, hclosed]
      · have hgt : seqGt tp.snd_up tp.snd_una := by
          rw [seqGt, decide_eq_true_eq]
          omega
        simp [Tcpcb.wants, hgt]
      · simp [Tcpcb.wants, Conn.call, hun.1]
    · simp [Tcpcb.wants, hlen, hz]
  have hcan : tp.CanSend ⟨false, nomem, false, 0⟩ :=
    ⟨by rw [usable_eq]; omega, h₀, by simp, by simp⟩
  obtain ⟨text, hsends⟩ := hcan.sends hk ht hwants
  have hnext := next_pass.2 ⟨text, hsends, rfl, hsendalot, hforce, rfl⟩
  have h := goesOn hk h₀ hnext
  refine ⟨_, hnext, h, ?_⟩
  generalize (tp.handed text).acked = tq at h
  have hd := h.during
  -- Nothing of the text is sent, and a `FIN` does not get further than the stall.
  have hstall : tq.stall = tp.stall := by
    have hoff' := h.off
    have hgain : tp.gain ⟨false, nomem, false, 0⟩ =
        if outFin tp.t_state ∧ tp.off + tp.t_maxseg < tp.restart then 1 else 0 := by
      have hzero : (if nomem then 0 else tp.t_maxseg) = 0 := by
        by_cases hz : tp.t_maxseg = 0
        · rw [hz, ite_self]
        · rw [if_neg hz] at hwhy
          exact if_pos hwhy
      rw [Conn.gain, hzero, zero_add]
      exact if_congr (or_iff_right hsyn) rfl rfl
    rw [hgain] at hoff'
    rw [Conn.stall, Conn.stall, hd.t_state, hd.t_maxseg, h.restart]
    by_cases hout : outFin tp.t_state
    · simp only [hout, true_and] at hoff'
      rw [if_pos hout, if_pos hout]
      split_ifs at hoff' <;> omega
    · rw [if_neg fun hf => hout hf.1] at hoff'
      rw [if_neg hout, if_neg hout]
      omega
  refine ⟨hd.t_force ▸ hforce, hd.t_state ▸ hsyn, by rw [hstall, hd.t_maxseg, h.limit]; exact hmore,
    ?_⟩
  rw [hd.t_maxseg]
  by_cases hz : tp.t_maxseg = 0
  · rw [if_pos hz] at hwhy ⊢
    rcases hwhy with hclosed | hup | hun
    · exact .inl (hd.t_state.trans hclosed)
    · refine .inr (.inl ?_)
      have hsub : tp.snd_up.diff tp.snd_nxt = tp.snd_up.diff tp.snd_una - tp.off := by
        have hrange := diff_lt tp.snd_up tp.snd_una
        exact diff_eq_sub tp.snd_una _ _ (by rw [← Tcpcb.off]; omega) (by rw [← Tcpcb.off]; omega)
      have hgt : seqGt tp.snd_up tp.snd_nxt := by
        rw [seqGt, hsub, decide_eq_true_eq]
        omega
      rw [h.snd_up, if_pos hgt, hd.snd_una, hstall]
      exact hup
    · exact .inr (.inr (h.unsettled.2 hun))
  · rw [if_neg hz] at hwhy ⊢
    exact hwhy

theorem not_stops_of_stuck (hs : tp.Stuck nomem) (hk : Kept tp.toTcpcb) (ht : tp.t_template)
    (h₀ : 0 ≤ tp.t_maxseg) : ¬ (tcp_output fun _ => ⟨false, nomem, false, 0⟩).Stops tp := by
  refine Loop.not_stops (P := fun tp => tp.Stuck nomem ∧ Kept tp.toTcpcb ∧ tp.t_template ∧
    0 ≤ tp.t_maxseg) (fun _ tp hP => ?_) ⟨hs, hk, ht, h₀⟩
  obtain ⟨hs, hk, ht, h₀⟩ := hP
  obtain ⟨tq, hnext, h, hs'⟩ := hs.next hk ht h₀
  exact ⟨tq, hnext, hs', h.kept, h.template, h.during.t_maxseg ▸ h₀⟩

/-! ## A call -/

/-- The passes of a call keep what the first one found. -/
theorem kept_start {n : ℕ} (hk : Kept tp.toTcpcb) (h : (tcp_output env).start tp n = some tq) :
    Kept tq.toTcpcb := by
  refine Loop.invariant (P := fun tp => Kept tp.toTcpcb) (fun n tp tq hk hn => ?_) hk h
  obtain ⟨seg, hside⟩ := sending_next hn
  exact hk.output hside

/-- The options are those of an mbuf, filled up. -/
theorem length_options (tp : Conn) : tp.options.length ≤ MLEN + 3 := by
  have hopt (opt : List UInt8) (h : tp.opt = some opt) : opt.length ≤ MLEN := by
    rw [Conn.opt] at h
    split_ifs at h
    · obtain rfl := Option.some.inj h
      exact (by decide : 4 ≤ MLEN)
    · obtain ⟨opt', -, rfl⟩ := Option.map_eq_some_iff.1 h
      exact opt'.2
  rw [Conn.options]
  split
  next => exact Nat.zero_le _
  next opt ho =>
    have := hopt opt ho
    rw [List.length_append, List.length_replicate]
    omega

/-- The text of a segment comes from the buffer, so that its size is within 16 bits. -/
theorem total_lt (hk : Kept tp.toTcpcb) {packet : Packet}
    (h : (tp.pass e).packet = some packet) : packet.total < 2 ^ 16 := by
  obtain ⟨text, hsends, rfl⟩ := packet_pass.1 h
  have hlength : text.length ≤ tp.so_snd.contents.length := by
    rw [(m_copy_eq_some hsends.copy).1]
    split_ifs
    · exact Nat.zero_le _
    · rw [List.length_take, List.length_drop]
      omega
  have hsmall := hk.small
  have hoptions := length_options tp
  have hmlen : MLEN = 240 := rfl
  change sizeofTcpiphdr + tp.options.length + text.length < 2 ^ 16
  rw [sizeofTcpiphdr]
  omega

/-- The bytes that `m_copy` is asked for are in the buffer, if segments have a length. -/
theorem copies_ok (hk : Kept tp.toTcpcb) (h₀ : 0 ≤ tp.t_maxseg) (hc : tp.Copies e) :
    0 ≤ tp.off ∧ 0 ≤ tp.len ∧ tp.off + tp.len ≤ tp.so_snd.sb_cc :=
  ⟨hk.off, (len_nonneg_iff hc.1).2 h₀, end_le tp⟩

/-- A call that returns at once. -/
theorem next_of_past (h : tp.usable tp.t_force < 0) : (tp.pass e).next = none := by
  rw [Conn.pass, if_pos h]
  rfl

/-- With a negative length of segments, `m_copy` is asked for it. -/
theorem copies_of_neg (husable : 0 ≤ tp.usable tp.t_force) (hneg : tp.t_maxseg < 0) :
    tp.len < 0 ∧ tp.Copies fine := by
  have hsendalot : tp.sendalot := by
    rw [Conn.sendalot, decide_eq_true_eq]
    omega
  have hlen := len_of_sendalot hsendalot
  have hne : tp.t_maxseg ≠ 0 := by omega
  exact ⟨by omega, husable, by simp [Tcpcb.wants, hlen, hne], by decide, by rw [hlen]; exact hne⟩

/-- Calls finish if and only if they are clean. -/
theorem finishes_iff (hk : Kept tp.toTcpcb) (ht : tp.t_template) (nomem : Bool) :
    (∀ env, (∀ n, (env n).nocopy → nomem) → Finishes tp env) ↔ tp.LoopClean nomem := by
  constructor
  · intro h
    by_cases husable : tp.usable tp.t_force < 0
    · exact .inl husable
    refine .inr ?_
    have h₀ : 0 ≤ tp.t_maxseg := by
      by_contra hneg
      obtain ⟨hlen, hc⟩ := copies_of_neg (not_lt.1 husable) (not_le.1 hneg)
      have hok := (h (fun _ => fine) fun _ hno => absurd hno (by decide)).copies 0 tp rfl hc
      omega
    exact ⟨h₀, fun hs => not_stops_of_stuck hs hk ht h₀ (h _ fun _ => id).stops⟩
  · intro hc env hcopy
    have htotal (n : ℕ) (tq : Conn) (packet : Packet) (hn : (tcp_output env).start tp n = some tq)
        (hp : (tq.pass (env n)).packet = some packet) : packet.total < 2 ^ 16 :=
      total_lt (kept_start hk hn) hp
    rcases hc with hpast | ⟨h₀, hs⟩
    · have hone (n : ℕ) : (tcp_output env).start tp (n + 1) = none := by
        induction n with
        | zero => exact next_of_past hpast
        | succ n ih => exact Option.bind_eq_none_iff.2 fun tq htq => absurd (ih ▸ htq) (by simp)
      refine ⟨⟨1, hone 0⟩, fun n tq hn hcopies => ?_, htotal⟩
      cases n with
      | zero =>
        obtain rfl := Option.some.inj hn
        exact absurd hcopies.1 (not_le.2 hpast)
      | succ n => exact absurd (hone n ▸ hn) (by simp)
    · refine ⟨stops_of_not_stuck hk h₀ hs hcopy, fun n tq hn hcopies => ?_, htotal⟩
      have hmaxseg := (during_start hn).1.t_maxseg
      exact copies_ok (kept_start hk hn) (hmaxseg ▸ h₀) hcopies

end SendLoop

/-! ## A loop that does not end -/

theorem finishes_oneByte : (∀ env, (∀ n, (env n).nocopy → true) → Finishes oneByte env) ↔
    oneByte.LoopClean true := by
  have hk : Kept oneByte.toTcpcb := ⟨rfl, by decide, by decide, fun _ _ => rfl⟩
  exact finishes_iff hk rfl true

/-- The user writes two bytes, the first of which is urgent. -/
def urgent : List Act :=
  [.connect 100, .output plain, .segment (synSeg true 101) 0 false false,
    .send [⟨12, [7, 8], false⟩] true]

/-- The option `TCPOPT_MAXSEG` with the value `0`. -/
def zeroMaxseg (cp : ℕ) : UInt8 := ([2, 4, 0, 0] : List UInt8).getD cp 0

/-- The other side says that its segments have no text; urgent text is sent without end. -/
theorem not_finishes : ¬ ∀ s, sending.ReachableIf (fun s a => a.Valid s) s →
    synchronized s.tp.t_state → ∀ mem,
      Finishes ((quiet s.tp).tcp_dooptions mem 0 4) fun _ => fine := by
  intro h
  obtain ⟨s, hrun, hst, hoff, hlimit, hup⟩ : ∃ s,
      sending.runIf (fun s a => a.Valid s) created urgent = some s ∧
      s.tp.t_state = .established ∧ s.tp.off = 0 ∧ (quiet s.tp).limit = 2 ∧
      s.tp.snd_up.diff s.tp.snd_una = 1 :=
    ⟨_, rfl, rfl, rfl, rfl, rfl⟩
  have hs := Machine.reachableIf_runIf (.init init_created) hrun
  have hk := kept_of_reachable hs
  have hsync : synchronized s.tp.t_state := by
    rw [hst]
    decide
  have hfinishes := h s hs hsync zeroMaxseg
  have hz : ((quiet s.tp).tcp_dooptions zeroMaxseg 0 4).t_maxseg = 0 := by
    change dooptions zeroMaxseg 0 4 s.tp.t_maxseg = 0
    rw [dooptions_maxseg (by decide) (by decide)]
    decide
  have hstall : ((quiet s.tp).tcp_dooptions zeroMaxseg 0 4).stall = 0 := by
    have hout : ¬ outFin ((quiet s.tp).tcp_dooptions zeroMaxseg 0 4).t_state := by
      change ¬ outFin s.tp.t_state
      rw [hst]
      decide
    rw [Conn.stall, if_neg hout]
    exact hoff
  have hstuck : ((quiet s.tp).tcp_dooptions zeroMaxseg 0 4).Stuck false := by
    refine ⟨Bool.false_ne_true, ?_, ?_, ?_⟩
    · change ¬ outSyn s.tp.t_state
      rw [hst]
      decide
    · change _ < (quiet s.tp).limit
      rw [hstall, hz, hlimit]
      decide
    · rw [if_pos hz]
      refine .inr (.inl ?_)
      rw [hstall]
      exact hup.symm ▸ zero_lt_one
  refine not_stops_of_stuck hstuck ⟨hk.counted, hk.small, hk.off, hk.template⟩ ?_ hz.ge
    hfinishes.stops
  exact hk.template (by simp [hst]) (by simp [hst])

end AuxKernel.Tcp.Send.Out
