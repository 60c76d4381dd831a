import AuxKernel.Tcp.SendSpace

/-!
# The sequence variables in every run

Acknowledgements keep the sequence space of a connection in order (`Inv.acks`), and with
output the sequence variables mean what they should in every run (`sendSeq_of_clean`).

It takes some care of those around (`Act.Clean`): the handshake takes over any `ti_ack`
of a segment without `TH_ACK`, and an acknowledgement of nothing for one of the `SYN`
(`not_sendSeq`); a forced segment counts as one byte, however long it is.
-/

namespace AuxKernel.Tcp.Send

open Net

/-! ## Acknowledgements -/

section Acks

variable {written : List UInt8} {una sent : ℤ} {synAcked : Bool} {tp tp' : Tcpcb} {ti : Tcpiphdr}

/-- `snd_una` moves over `acked` numbers, and `snd_nxt` is kept from falling behind. -/
structure Acks (tp tp' : Tcpcb) (acked : ℤ) : Prop where
  snd_una : tp'.snd_una.diff tp.snd_una = acked
  snd_nxt : tp'.snd_nxt = if seqLt tp.snd_nxt tp'.snd_una then tp'.snd_una else tp.snd_nxt
  snd_max : tp'.snd_max = tp.snd_max

/-- An acknowledgement of what is outstanding leaves the three pointers in order. -/
theorem Inv.acks {acked : ℤ} (h : Inv written una sent synAcked tp) (ha : Acks tp tp' acked)
    (h₀ : 0 ≤ acked) (hle : acked ≤ tp.snd_max.diff tp.snd_una) :
    0 ≤ tp'.off ∧ tp'.off ≤ tp'.snd_max.diff tp'.snd_una ∧
      tp'.snd_max.diff tp'.snd_una = tp.snd_max.diff tp.snd_una - acked := by
  have hout := h.outstanding
  have hsmall := h.small
  have hoff := h.off
  have hmax := h.off_le
  have huna := ha.snd_una
  have hmax' : tp'.snd_max.diff tp'.snd_una = tp.snd_max.diff tp.snd_una - acked := by
    rw [ha.snd_max, diff_eq_sub tp.snd_una _ _ (by omega) (by omega), huna]
  have hnxt : tp.snd_nxt.diff tp'.snd_una = tp.off - acked := by
    rw [diff_eq_sub tp.snd_una _ _ (by rw [← Tcpcb.off]; omega) (by rw [← Tcpcb.off]; omega), huna,
      Tcpcb.off]
  have hoff' : tp'.off = max 0 (tp.off - acked) := by
    rw [Tcpcb.off, ha.snd_nxt]
    by_cases hlt : seqLt tp.snd_nxt tp'.snd_una
    · rw [if_pos hlt, diff_self]
      simp only [seqLt, decide_eq_true_eq] at hlt
      omega
    · rw [if_neg hlt]
      simp only [seqLt, decide_eq_true_eq] at hlt
      omega
  omega

/-- There is nothing but the `SYN` in the handshake. -/
theorem Inv.handshake (h : Inv written una sent synAcked tp)
    (hs : tp.t_state = .synSent ∨ tp.t_state = .synReceived) :
    una = 0 ∧ written = [] ∧ tp.snd_una = tp.iss ∧ tp.snd_max.diff tp.snd_una ≤ 1 := by
  have hns : ¬ synchronized tp.t_state := by
    rcases hs with hs | hs <;> rw [hs] <;> decide
  obtain ⟨rfl, rfl⟩ := h.early hns
  refine ⟨rfl, rfl, h.iss hs, ?_⟩
  have hend := h.le_end
  rcases hs with hs | hs <;> rw [hs] at hend <;> simpa [seqEnd] using hend

/-- The `SYN` is acknowledged, or not: the connection is in `ESTABLISHED`, or in
    `SYN_RECEIVED`. -/
theorem Inv.syn {synAcked' : Bool} {acked : ℤ} (h : Inv written una sent synAcked tp)
    (hs : tp.t_state = .synSent ∨ tp.t_state = .synReceived) (ha : Acks tp tp' acked)
    (h₀ : 0 ≤ acked) (hle : acked ≤ tp.snd_max.diff tp.snd_una) (hsnd : tp'.so_snd = tp.so_snd)
    (hiss : tp'.iss = tp.iss)
    (hst : tp'.t_state = if acked = 0 then .synReceived else .established)
    (hok : acked ≠ 0 → synAcked') :
    Inv written (una + acked) sent synAcked' tp' := by
  obtain ⟨hoff, hmax, hmax'⟩ := h.acks ha h₀ hle
  obtain ⟨rfl, rfl, hsyn, hone⟩ := h.handshake hs
  have hsent := h.sent
  have hempty : tp'.so_snd.contents = [].drop (0 + acked - 1).toNat := by
    rw [hsnd, h.so_snd, List.drop_nil, List.drop_nil]
  by_cases hz : acked = 0
  · rw [if_pos hz] at hst
    refine ⟨hsnd ▸ h.counted, hsnd ▸ h.small, hempty, hoff, hmax, ?_, ?_, fun _ => ⟨?_, rfl⟩,
      fun hf => ?_, fun _ => ?_, fun hf => ?_, fun hf => ?_⟩
    · rw [hst, seqEnd]
      omega
    · omega
    · omega
    · simp [hst] at hf
    · have huna := ha.snd_una
      rw [hz] at huna
      rw [hiss, diff_eq_zero.1 huna, hsyn]
    · exact absurd (hst ▸ hf) (by decide)
    · exact absurd (hst ▸ hf) (by decide)
  · rw [if_neg hz] at hst
    refine ⟨hsnd ▸ h.counted, hsnd ▸ h.small, hempty, hoff, hmax, ?_, ?_, fun hf => ?_,
      fun hf => ?_, fun hf => ?_, fun _ => ⟨?_, hok hz⟩, fun hf => ?_⟩
    · rw [hst, seqEnd, List.length_nil]
      omega
    · omega
    · exact absurd (hst ▸ hf) (by decide)
    · simp [hst] at hf
    · simp [hst] at hf
    · omega
    · exact absurd (hst ▸ hf) (by decide)

/-- What a segment leaves of the connection is in order; its `FIN` is only seen past
    `SYN_RECEIVED`. -/
def Outcome.Keeps (P : Tcpcb → Prop) (th_fin : Bool) : Outcome → Prop
  | .gone => True
  | .dropped tp => P tp
  | .goesOn tp => P tp ∧ (th_fin → tp.t_state ≠ .synReceived)

/-- The connection `tp'` that a segment leaves of `tp` is in order. -/
def After (written : List UInt8) (una sent : ℤ) (synAcked : Bool) (tp : Tcpcb) (ti : Tcpiphdr)
    (tp' : Tcpcb) : Prop :=
  Inv written (una + tp'.snd_una.diff tp.snd_una) sent (synAcked || tp.acceptable ti) tp'

theorem Inv.or (h : Inv written una sent synAcked tp) (b : Bool) :
    Inv written una sent (synAcked || b) tp :=
  { h with later := fun hs => ⟨(h.later hs).1, by rw [(h.later hs).2, Bool.true_or]⟩ }

theorem Inv.after (h : Inv written una sent synAcked tp) (ti : Tcpiphdr) :
    After written una sent synAcked tp ti tp := by
  rw [After, diff_self, add_zero]
  exact h.or _

/-- A segment in `SYN_SENT`. Without `TH_ACK` its `ti_ack` must be `iss`; and with a `FIN`
    it must acknowledge the `SYN`. -/
theorem Inv.inSynSent (h : Inv written una sent synAcked tp) (hs : tp.t_state = .synSent)
    {th_fin : Bool} (hc : ti.th_syn → ¬ ti.th_rst →
      (ti.th_ack ∨ ti.ti_ack = tp.iss) ∧ (th_fin → ti.ti_ack ≠ tp.iss)) :
    (tp.inSynSent ti).Keeps (After written una sent synAcked tp ti) th_fin := by
  rw [Tcpcb.inSynSent]
  obtain ⟨-, -, hiss, hone⟩ := h.handshake (.inl hs)
  have hoff := h.off
  have hmax := h.off_le
  have hrange := diff_lt ti.ti_ack tp.snd_una
  by_cases hbad : ti.th_ack ∧ (seqLt ti.ti_ack tp.iss ∨ seqGt ti.ti_ack tp.snd_max)
  · rw [if_pos hbad]
    exact h.after ti
  by_cases hrst : ti.th_rst
  · rw [if_neg hbad, if_pos hrst]
    split_ifs
    · trivial
    · exact h.after ti
  by_cases hsyn : ti.th_syn
  · rw [if_neg hbad, if_neg hrst, if_neg (not_not.2 hsyn)]
    obtain ⟨hack, hfin⟩ := hc hsyn hrst
    -- The acknowledgement is that of `iss`, or of the `SYN`.
    have hacked : 0 ≤ ti.ti_ack.diff tp.snd_una ∧
        ti.ti_ack.diff tp.snd_una ≤ tp.snd_max.diff tp.snd_una ∧
        (ti.ti_ack.diff tp.snd_una ≠ 0 → ti.th_ack) := by
      by_cases hth : ti.th_ack
      · simp only [hth, true_and, not_or, seqLt, seqGt, decide_eq_true_eq, not_lt, ← hiss] at hbad
        have hle := hbad.2
        rw [diff_eq_sub tp.snd_una _ _ (by omega) (by omega)] at hle
        exact ⟨hbad.1, by omega, fun _ => hth⟩
      · rw [hack.resolve_left hth, hiss, diff_self]
        exact ⟨le_rfl, by rw [← hiss]; omega, fun hne => absurd rfl hne⟩
    obtain ⟨h₀, hle, hth⟩ := hacked
    have hgt : seqGt ti.ti_ack tp.iss ↔ ti.ti_ack.diff tp.snd_una ≠ 0 := by
      rw [seqGt, ← hiss, decide_eq_true_eq]
      omega
    have hz : ti.ti_ack.diff tp.snd_una = 0 ↔ ti.ti_ack = tp.iss := by rw [diff_eq_zero, hiss]
    refine ⟨h.syn (.inl hs) ⟨rfl, rfl, rfl⟩ h₀ hle rfl rfl ?_ fun hne => ?_, fun hf => ?_⟩
    · change (if seqGt ti.ti_ack tp.iss then _ else _) =
        if ti.ti_ack.diff tp.snd_una = 0 then _ else _
      by_cases hne : ti.ti_ack.diff tp.snd_una = 0
      · rw [if_pos hne, if_neg (mt hgt.1 (not_not.2 hne))]
      · rw [if_neg hne, if_pos (hgt.2 hne)]
    · have hrev : tp.iss.diff ti.ti_ack = - ti.ti_ack.diff tp.snd_una := by
        rw [diff_eq_sub tp.snd_una _ _ (by rw [← hiss, diff_self]; omega)
          (by rw [← hiss, diff_self]; omega), ← hiss, diff_self, zero_sub]
      have hto : ti.ti_ack.diff tp.snd_max =
          ti.ti_ack.diff tp.snd_una - tp.snd_max.diff tp.snd_una :=
        diff_eq_sub tp.snd_una _ _ (by omega) (by omega)
      simp only [Tcpcb.acceptable, hth hne, seqLt, seqLeq, hrev, hto, Bool.or_eq_true,
        Bool.and_eq_true, decide_eq_true_eq]
      change ti.ti_ack.diff tp.snd_una ≠ 0 at hne
      exact .inr ⟨⟨trivial, by omega⟩, by omega⟩
    · change (if seqGt ti.ti_ack tp.iss then TcpState.established else .synReceived) ≠ _
      rw [if_pos (hgt.2 (mt hz.1 (hfin hf)))]
      decide
  · rw [if_neg hbad, if_neg hrst, if_pos hsyn]
    exact h.after ti

/-- The variables after an acknowledgement, before it changes the state. -/
structure Acked (tp tp' : Tcpcb) (ti_ack : TcpSeq) : Prop where
  acks : Acks tp tp' (ti_ack.diff tp.snd_una)
  t_state : tp'.t_state = tp.t_state
  counted : tp'.so_snd.Counted
  contents : tp'.so_snd.contents =
    tp.so_snd.contents.drop (min (ti_ack.diff tp.snd_una) tp.so_snd.sb_cc).toNat

/-- The state after an acknowledgement: our `FIN` is acknowledged in `FIN_WAIT_2` and
    `TIME_WAIT` only. -/
def ackState (s : TcpState) (ourfinisacked : Bool) : TcpState :=
  if ourfinisacked then
    match s with
    | .finWait1 => .finWait2
    | .closing => .timeWait
    | s => s
  else s

/-- The variables a state change leaves alone. -/
structure Moved (tp tp' : Tcpcb) (t_state : TcpState) : Prop where
  t_state : tp'.t_state = t_state
  snd_una : tp'.snd_una = tp.snd_una
  snd_nxt : tp'.snd_nxt = tp.snd_nxt
  snd_max : tp'.snd_max = tp.snd_max
  so_snd : tp'.so_snd = tp.so_snd

theorem Outcome.Keeps.mono {P Q : Tcpcb → Prop} {th_fin : Bool} {r : Outcome}
    (h : r.Keeps P th_fin) (hPQ : ∀ tp, P tp → Q tp) : r.Keeps Q th_fin := by
  cases r with
  | gone => trivial
  | dropped tp => exact hPQ tp h
  | goesOn tp => exact h.imp_left (hPQ tp)

theorem afterAck_spec (hs : synchronized tp.t_state) (ourfinisacked th_fin : Bool) :
    (tp.afterAck ourfinisacked).Keeps (fun tp' =>
      Moved tp tp' (ackState tp.t_state ourfinisacked) ∧
        ¬ (tp.t_state = .lastAck ∧ ourfinisacked)) th_fin := by
  rw [Tcpcb.afterAck]
  cases hst : tp.t_state <;> rw [hst] at hs <;> first | exact absurd hs (by decide) | skip
  all_goals cases ourfinisacked <;> simp [Outcome.Keeps, ackState, hst] <;>
    exact ⟨by simp [hst], rfl, rfl, rfl, rfl⟩

theorem ackState_spec {s : TcpState} (hs : synchronized s) (ourfinisacked : Bool) :
    synchronized (ackState s ourfinisacked) ∧
      seqEnd written (ackState s ourfinisacked) = seqEnd written s ∧
      (outFin (ackState s ourfinisacked) → outFin s ∧ (ourfinisacked → s = .lastAck)) := by
  cases s <;> first | exact absurd hs (by decide) | skip
  all_goals cases ourfinisacked <;> exact ⟨by decide, rfl, by decide⟩

/-- An acknowledgement of what is outstanding keeps the invariant. -/
theorem Inv.acked {ti_ack : TcpSeq} {tp'' : Tcpcb} (h : Inv written una sent synAcked tp)
    (hs : synchronized tp.t_state) (ha : Acked tp tp' ti_ack) (h₀ : 0 < ti_ack.diff tp.snd_una)
    (hle : ti_ack.diff tp.snd_una ≤ tp.snd_max.diff tp.snd_una)
    (hm : Moved tp' tp'' (ackState tp.t_state (ti_ack.diff tp.snd_una > tp.so_snd.sb_cc)))
    (hlast : ¬ (tp.t_state = .lastAck ∧ ti_ack.diff tp.snd_una > tp.so_snd.sb_cc)) :
    Inv written (una + ti_ack.diff tp.snd_una) sent synAcked tp'' := by
  have hacks : Acks tp tp'' (ti_ack.diff tp.snd_una) := by
    constructor
    · rw [hm.snd_una, ha.acks.snd_una]
    · rw [hm.snd_nxt, hm.snd_una, ha.acks.snd_nxt]
    · rw [hm.snd_max, ha.acks.snd_max]
  obtain ⟨hoff, hmax, hmax'⟩ := h.acks hacks h₀.le hle
  obtain ⟨hsync, hend, hfin⟩ :=
    @ackState_spec written _ hs (ti_ack.diff tp.snd_una > tp.so_snd.sb_cc)
  rw [← hm.t_state] at hsync hend hfin
  have hlater := h.later hs
  have hcc : tp.so_snd.sb_cc = tp.so_snd.contents.length := h.counted
  have hdrop := congrArg List.length h.so_snd
  rw [List.length_drop] at hdrop
  refine ⟨hm.so_snd ▸ ha.counted, ?_, ?_, hoff, hmax, ?_, ?_, fun hns => absurd hsync hns,
    fun hf => ?_, fun hf => ?_, fun _ => ⟨by omega, hlater.2⟩, fun hf => ?_⟩
  · have hsmall := h.small
    rw [hm.so_snd, ha.contents, List.length_drop]
    omega
  · -- The bytes acknowledged are dropped, if there are as many.
    rw [hm.so_snd, ha.contents, h.so_snd, List.drop_drop, hcc]
    rcases le_total (ti_ack.diff tp.snd_una) tp.so_snd.contents.length with hle' | hle'
    · rw [min_eq_left hle']
      congr 1
      omega
    · rw [min_eq_right hle', List.drop_eq_nil_of_le (by omega), List.drop_eq_nil_of_le (by omega)]
  · have := h.le_end
    omega
  · have := h.sent
    omega
  · rcases hf with hf | hf <;> exact absurd (hf ▸ hsync) (by decide)
  · rcases hf with hf | hf <;> exact absurd (hf ▸ hsync) (by decide)
  · obtain ⟨hout, himp⟩ := hfin hf
    have hacc : ti_ack.diff tp.snd_una ≤ tp.so_snd.sb_cc := by
      by_contra hgt
      exact hlast ⟨himp (by simpa using hgt), not_le.1 hgt⟩
    have := h.length hs (h.fin hout)
    omega

theorem same_retime (tp : Tcpcb) (ti : Tcpiphdr) : Same tp ((tp.rtt ti).retime ti) := by
  rw [Tcpcb.retime, Tcpcb.rtt]
  split_ifs <;> exact ⟨rfl, rfl, rfl, rfl, rfl, rfl, rfl⟩

/-- A segment of a synchronized connection. -/
theorem Inv.inEstablished (h : Inv written una sent synAcked tp) (hs : synchronized tp.t_state)
    (th_fin : Bool) : (tp.inEstablished ti).Keeps
      (fun tp' => Inv written (una + tp'.snd_una.diff tp.snd_una) sent synAcked tp') th_fin := by
  have hsame : Inv written (una + tp.snd_una.diff tp.snd_una) sent synAcked tp := by
    rw [diff_self, add_zero]
    exact h
  rw [Tcpcb.inEstablished]
  split_ifs with hleq hgt
  · exact ⟨hsame, fun _ he => absurd (he ▸ hs) (by decide)⟩
  · exact hsame
  have hrt := same_retime tp ti
  generalize (tp.rtt ti).retime ti = tq at hrt
  simp only [Tcpcb.drop, hrt.so_snd]
  cases hd : tp.so_snd.sbdrop (min (ti.ti_ack.diff tp.snd_una) tp.so_snd.sb_cc).toNat
      tp.so_snd.sb_mb with
  | none => trivial
  | some sb =>
    have hout := h.outstanding
    have hsmall := h.small
    have hrange := diff_lt ti.ti_ack tp.snd_una
    simp only [seqLeq, seqGt, decide_eq_true_eq, not_le, not_lt] at hleq hgt
    have hle : ti.ti_ack.diff tp.snd_una ≤ tp.snd_max.diff tp.snd_una := by
      have hmax := h.off_le
      have hoff := h.off
      rw [diff_eq_sub tp.snd_una _ _ (by omega) (by omega)] at hgt
      omega
    have hcc : tp.so_snd.sb_cc = tp.so_snd.contents.length := h.counted
    obtain ⟨sb', hsb', hcounted⟩ : ∃ sb', tp.so_snd.sbdrop
        (min (ti.ti_ack.diff tp.snd_una) tp.so_snd.sb_cc).toNat tp.so_snd.sb_mb = some sb' ∧
          sb'.Counted :=
      Sockbuf.sbdrop_spec (by rw [← Sockbuf.contents]; omega) hsmall hcc
    rw [hd] at hsb'
    obtain rfl := Option.some.inj hsb'
    set tr : Tcpcb := Tcpcb.pullNxt { tq with
      so_snd := sb
      snd_wnd := (tq.snd_wnd - min (ti.ti_ack.diff tp.snd_una) tp.so_snd.sb_cc) % 65536
      snd_una := ti.ti_ack } with htr
    have hacked : Acked tp tr ti.ti_ack :=
      ⟨⟨rfl, hrt.snd_nxt ▸ rfl, hrt.snd_max⟩, hrt.t_state, hcounted, Sockbuf.contents_sbdrop hd⟩
    simp only [Option.map_some]
    have hsr : synchronized tr.t_state := hacked.t_state ▸ hs
    refine (afterAck_spec hsr (ti.ti_ack.diff tp.snd_una > tp.so_snd.sb_cc) th_fin).mono
      fun tp'' hp => ?_
    obtain ⟨hm, hlast⟩ := hp
    rw [hacked.t_state] at hm hlast
    rw [hm.snd_una]
    change Inv written (una + ti.ti_ack.diff tp.snd_una) sent synAcked tp''
    exact h.acked hs hacked hleq hle hm (by simpa only [decide_eq_true_eq] using hlast)

/-- A segment in `SYN_RECEIVED`. Its acknowledgement must be that of the `SYN`. -/
theorem Inv.inSynReceived (h : Inv written una sent synAcked tp) (hs : tp.t_state = .synReceived)
    (hack : ti.th_ack) (hne : ti.ti_ack ≠ tp.snd_una)
    (hne' : ti.ti_ack ≠ tp.snd_una + BitVec.ofInt 32 (-2 ^ 31)) :
    (tp.inSynReceived ti).Keeps (fun tp' => tp' = tp ∨
      tp'.t_state = .established ∧ tp'.snd_una = ti.ti_ack ∧
        After written una sent synAcked tp ti tp') false := by
  rw [Tcpcb.inSynReceived]
  split_ifs with hbad
  · exact .inl rfl
  obtain ⟨-, -, hiss, hone⟩ := h.handshake (.inr hs)
  have hoff := h.off
  have hmax := h.off_le
  have hrange := diff_lt ti.ti_ack tp.snd_una
  have hz := mt diff_eq_zero.1 hne
  have hhalf : ti.ti_ack.diff tp.snd_una ≠ -2 ^ 31 := fun he =>
    hne' (he ▸ eq_add_diff ti.ti_ack tp.snd_una)
  have hrev : tp.snd_una.diff ti.ti_ack = - ti.ti_ack.diff tp.snd_una := by
    rw [diff_eq_sub tp.snd_una _ _ (by rw [diff_self]; omega) (by rw [diff_self]; omega),
      diff_self, zero_sub]
  simp only [not_or, seqGt, decide_eq_true_eq, not_lt, hrev] at hbad
  have hto : ti.ti_ack.diff tp.snd_max = ti.ti_ack.diff tp.snd_una - tp.snd_max.diff tp.snd_una :=
    diff_eq_sub tp.snd_una _ _ (by omega) (by omega)
  have hack₁ : ti.ti_ack.diff tp.snd_una = 1 := by omega
  have huna : tp.snd_una + 1 = ti.ti_ack := by
    conv_rhs => rw [eq_add_diff ti.ti_ack tp.snd_una, hack₁]
    rfl
  refine ⟨.inr ⟨rfl, huna, ?_⟩, by simp⟩
  rw [After]
  have hdiff : (tp.snd_una + 1).diff tp.snd_una = 1 := by rw [huna, hack₁]
  have hle : (tp.snd_una + 1).diff tp.snd_una ≤ tp.snd_max.diff tp.snd_una := by omega
  refine h.syn (.inr hs) ⟨rfl, rfl, rfl⟩ (hdiff ▸ zero_le_one) hle rfl rfl ?_ fun _ => ?_
  · change _ = if (tp.snd_una + 1).diff tp.snd_una = 0 then _ else _
    rw [hdiff]
    rfl
  · simp only [Tcpcb.acceptable, hack, seqLt, seqLeq, ← hiss, hrev, hto, Bool.or_eq_true,
      Bool.and_eq_true, decide_eq_true_eq]
    exact .inr ⟨⟨trivial, by omega⟩, by omega⟩

/-- A segment of a connection past `SYN_SENT`. -/
theorem Inv.inSynchronized (h : Inv written una sent synAcked tp)
    (hs : tp.t_state = .synReceived ∨ synchronized tp.t_state) {th_fin : Bool}
    (hc : tp.t_state = .synReceived → ti.th_ack → ti.ti_ack ≠ tp.snd_una ∧
      ti.ti_ack ≠ tp.snd_una + BitVec.ofInt 32 (-2 ^ 31)) :
    (tp.inSynchronized ti).Keeps (After written una sent synAcked tp ti) th_fin := by
  rw [Tcpcb.inSynchronized]
  by_cases hgone : ti.th_rst ∨ ti.th_syn
  · rw [if_pos hgone]
    trivial
  by_cases hack : ti.th_ack
  · rw [if_neg hgone, if_neg (not_not.2 hack)]
    by_cases hsyn : tp.t_state = .synReceived
    · rw [if_pos hsyn]
      obtain ⟨hne, hne'⟩ := hc hsyn hack
      have hrec := h.inSynReceived hsyn hack hne hne'
      cases hr : tp.inSynReceived ti with
      | gone => trivial
      | dropped tp' =>
        rw [hr] at hrec
        rcases hrec with rfl | ⟨-, -, hafter⟩
        · exact h.after ti
        · exact hafter
      | goesOn tp' =>
        rw [hr] at hrec
        obtain ⟨hest, huna, hafter⟩ := hrec.1.resolve_left fun he => by
          rw [Tcpcb.inSynReceived] at hr
          split_ifs at hr
          rw [← he, ← Outcome.goesOn.inj hr] at hsyn
          exact absurd hsyn (by simp)
        -- The rest of the processing finds nothing new acknowledged.
        simp only
        rw [Tcpcb.inEstablished, if_pos (by simp [seqLeq, huna])]
        exact ⟨hafter, fun _ => by simp [hest]⟩
    · rw [if_neg hsyn]
      exact (h.inEstablished (hs.resolve_left hsyn) th_fin).mono fun tp' h' => h'.or _
  · rw [if_neg hgone, if_pos hack]
    exact h.after ti

end Acks

/-! ## The states of a connection -/

section States

variable {written : List UInt8} {una sent : ℤ} {synAcked : Bool} {tp tp' : Tcpcb} {ti : Tcpiphdr}

/-- A connection starts in `SYN_SENT` or `SYN_RECEIVED`, with nothing sent. -/
theorem Inv.start (h : Inv written una sent synAcked tp)
    (hs : tp.t_state = .closed ∨ tp.t_state = .listen) (tcp_iss : TcpSeq)
    (hm : Moved (tp.sendseqinit tcp_iss) tp' tp'.t_state) (hiss : tp'.iss = tcp_iss)
    (hst : tp'.t_state = .synSent ∨ tp'.t_state = .synReceived) :
    Inv written 0 sent synAcked tp' := by
  obtain ⟨rfl, rfl⟩ := h.early (by rcases hs with hs | hs <;> rw [hs] <;> decide)
  have hend := h.le_end
  have hsent := h.sent
  have hzero : seqEnd [] tp.t_state = 0 := by rcases hs with hs | hs <;> rw [hs] <;> rfl
  have huna : tp'.snd_una = tcp_iss := hm.snd_una
  have hmax : tp'.snd_max.diff tp'.snd_una = 0 := by rw [huna, hm.snd_max]; exact diff_self _
  have hoff : tp'.off = 0 := by rw [Tcpcb.off, huna, hm.snd_nxt]; exact diff_self _
  have hone : seqEnd [] tp'.t_state = 1 := by rcases hst with hst | hst <;> rw [hst] <;> rfl
  refine ⟨hm.so_snd ▸ h.counted, hm.so_snd ▸ h.small, hm.so_snd ▸ h.so_snd, hoff.ge, ?_, ?_, ?_,
    fun _ => ⟨rfl, rfl⟩, fun hf => ?_, fun _ => huna.trans hiss.symm, fun hf => ?_, fun hf => ?_⟩
  · rw [hoff, hmax]
  · rw [hmax, hone]
    omega
  · omega
  · rcases hst with hst | hst <;> simp [hst] at hf
  · rcases hst with hst | hst <;> exact absurd (hst ▸ hf) (by decide)
  · rcases hst with hst | hst <;> exact absurd (hst ▸ hf) (by decide)

/-- A synchronized connection moves to a state in which as much is sent. -/
theorem Inv.move (h : Inv written una sent synAcked tp) (st : TcpState) (hm : Moved tp tp' st)
    (hs : synchronized tp.t_state) (hst : synchronized st)
    (hend : seqEnd written tp.t_state ≤ seqEnd written st)
    (hfin : outFin st → una ≤ 1 + written.length) : Inv written una sent synAcked tp' := by
  have hoff : tp'.off = tp.off := by rw [Tcpcb.off, Tcpcb.off, hm.snd_nxt, hm.snd_una]
  have hle := h.le_end
  rw [← hm.t_state] at hst hend hfin
  refine ⟨hm.so_snd ▸ h.counted, hm.so_snd ▸ h.small, hm.so_snd ▸ h.so_snd, hoff ▸ h.off, ?_, ?_,
    ?_, fun hns => absurd hst hns, fun hf => ?_, fun hf => ?_, fun _ => h.later hs, hfin⟩
  · rw [hoff, hm.snd_max, hm.snd_una]
    exact h.off_le
  · rw [hm.snd_max, hm.snd_una]
    omega
  · rw [hm.snd_max, hm.snd_una]
    exact h.sent
  · rcases hf with hf | hf <;> exact absurd (hf ▸ hst) (by decide)
  · rcases hf with hf | hf <;> exact absurd (hf ▸ hst) (by decide)

/-- The text is not all acknowledged with the `FIN` before there is one. -/
theorem Inv.una_le (h : Inv written una sent synAcked tp)
    (hs : tp.t_state = .established ∨ tp.t_state = .closeWait) : una ≤ 1 + written.length := by
  have hend := h.le_end
  have hoff := h.off
  have hmax := h.off_le
  rcases hs with hs | hs <;> rw [hs, seqEnd] at hend <;> omega

theorem Inv.finReceived (h : Inv written una sent synAcked tp) (hs : tp.t_state ≠ .synReceived) :
    Inv written una sent synAcked tp.finReceived ∧ tp.finReceived.snd_una = tp.snd_una := by
  rw [Tcpcb.finReceived]
  cases hst : tp.t_state with
  | synReceived => exact absurd hst hs
  | established =>
    exact ⟨h.move .closeWait ⟨rfl, rfl, rfl, rfl, rfl⟩ (hst ▸ by decide) (by decide)
      (hst ▸ le_rfl) fun hf => absurd hf (by decide), rfl⟩
  | finWait1 =>
    exact ⟨h.move .closing ⟨rfl, rfl, rfl, rfl, rfl⟩ (hst ▸ by decide) (by decide)
      (hst ▸ le_rfl) fun _ => h.fin (hst ▸ by decide), rfl⟩
  | finWait2 =>
    exact ⟨h.move .timeWait ⟨rfl, rfl, rfl, rfl, rfl⟩ (hst ▸ by decide) (by decide)
      (hst ▸ le_rfl) fun hf => absurd hf (by decide), rfl⟩
  | _ => exact ⟨h, rfl⟩

theorem Inv.tcp_usrclosed (h : Inv written una sent synAcked tp) (hs : tp.t_state ≠ .synReceived)
    (hr : tp.tcp_usrclosed = some tp') :
    Inv written una sent synAcked tp' ∧ tp'.snd_una = tp.snd_una := by
  rw [Tcpcb.tcp_usrclosed] at hr
  cases hst : tp.t_state with
  | closed => simp [hst] at hr
  | listen => simp [hst] at hr
  | synSent => simp [hst] at hr
  | synReceived => exact absurd hst hs
  | established =>
    simp only [hst] at hr
    obtain rfl := Option.some.inj hr
    refine ⟨h.move .finWait1 ⟨rfl, rfl, rfl, rfl, rfl⟩ (hst ▸ by decide) (by decide) ?_
      fun _ => h.una_le (.inl hst), rfl⟩
    simp only [hst, seqEnd]
    omega
  | closeWait =>
    simp only [hst] at hr
    obtain rfl := Option.some.inj hr
    refine ⟨h.move .lastAck ⟨rfl, rfl, rfl, rfl, rfl⟩ (hst ▸ by decide) (by decide) ?_
      fun _ => h.una_le (.inr hst), rfl⟩
    simp only [hst, seqEnd]
    omega
  | _ =>
    simp only [hst] at hr
    obtain rfl := Option.some.inj hr
    exact ⟨h, rfl⟩

theorem same_step6 (tp : Tcpcb) (ti : Tcpiphdr) : Same tp (tp.step6 ti) := by
  rw [Tcpcb.step6]
  split_ifs <;> exact ⟨rfl, rfl, rfl, rfl, rfl, rfl, rfl⟩

theorem same_dooptions (tp : Tcpcb) (ti : Tcpiphdr) : Same tp (tp.tcp_dooptions ti) := by
  rw [Tcpcb.tcp_dooptions]
  split <;> exact ⟨rfl, rfl, rfl, rfl, rfl, rfl, rfl⟩

/-- The window update and the `FIN` keep the invariant. -/
theorem Inv.goesOn {th_fin : Bool} (h : Inv written una sent synAcked tp)
    (hf : th_fin → tp.t_state ≠ .synReceived) :
    Inv written una sent synAcked (if th_fin then (tp.step6 ti).finReceived else tp.step6 ti) ∧
      (if th_fin then (tp.step6 ti).finReceived else tp.step6 ti).snd_una = tp.snd_una := by
  have hsame := same_step6 tp ti
  have h' := h.same hsame
  split_ifs with hfin
  · obtain ⟨hinv, huna⟩ := h'.finReceived (hsame.t_state ▸ hf hfin)
    exact ⟨hinv, huna.trans hsame.snd_una⟩
  · exact ⟨h', hsame.snd_una⟩

/-- The handshake takes only what acknowledges something of ours: a segment with a `FIN`
    is not the first one, one without `TH_ACK` says `iss`, and one in `SYN_RECEIVED` says
    more than that. -/
def Tcpcb.HandshakeClean (tp : Tcpcb) (ti : Tcpiphdr) (nobufs th_fin : Bool) : Prop :=
  match tp.t_state with
  | .listen => th_fin → ti.th_rst ∨ ti.th_ack ∨ ¬ ti.th_syn ∨ nobufs
  | .synSent => ti.th_syn → ¬ ti.th_rst →
      (ti.th_ack ∨ ti.ti_ack = tp.iss) ∧ (th_fin → ti.ti_ack ≠ tp.iss)
  | .synReceived => ti.th_ack → ti.ti_ack ≠ tp.snd_una ∧
      ti.ti_ack ≠ tp.snd_una + BitVec.ofInt 32 (-2 ^ 31)
  | _ => True

theorem Same.handshakeClean {nobufs th_fin : Bool} (hs : Same tp tp')
    (h : tp.HandshakeClean ti nobufs th_fin) : tp'.HandshakeClean ti nobufs th_fin := by
  rw [Tcpcb.HandshakeClean, hs.t_state, hs.iss, hs.snd_una]
  exact h

/-- What `acceptable` says of a connection that is not in the handshake's first states. -/
def Tcpcb.acks (tp : Tcpcb) (ti : Tcpiphdr) : Bool :=
  tp.t_state ≠ .listen && tp.t_state ≠ .closed && tp.acceptable ti

/-- The processing of the `ACK` and `SYN` of a segment keeps the invariant. -/
theorem Inv.keeps {tcp_iss : TcpSeq} {nobufs th_fin : Bool} (h : Inv written una sent synAcked tp)
    (hc : tp.HandshakeClean ti nobufs th_fin) :
    (tp.handshake ti tcp_iss nobufs).Keeps (fun tp' =>
      Inv written (if tp.t_state = .listen then 0 else una + tp'.snd_una.diff tp.snd_una) sent
        (synAcked || tp.acks ti) tp') th_fin := by
  have hany (hl : tp.t_state ≠ .listen) (hcl : tp.t_state ≠ .closed) {r : Outcome}
      (hr : r.Keeps (After written una sent synAcked tp ti) th_fin) :
      r.Keeps (fun tp' => Inv written (if tp.t_state = .listen then 0 else
        una + tp'.snd_una.diff tp.snd_una) sent (synAcked || tp.acks ti) tp') th_fin := by
    refine hr.mono fun tp' h' => ?_
    have hacks : tp.acks ti = tp.acceptable ti := by simp [Tcpcb.acks, hl, hcl]
    rw [if_neg hl, hacks]
    exact h'
  rw [Tcpcb.HandshakeClean] at hc
  rw [Tcpcb.handshake]
  cases hst : tp.t_state with
  | closed =>
    have hsame : Inv written (una + tp.snd_una.diff tp.snd_una) sent (synAcked || tp.acks ti)
        tp := by
      rw [diff_self, add_zero]
      exact h.or _
    simp only [reduceCtorEq, if_false]
    split_ifs
    · trivial
    · exact ⟨hsame, fun _ => by simp [hst]⟩
    · exact hsame
  | listen =>
    simp only [if_true]
    rw [hst] at hc
    rw [Tcpcb.inListen]
    obtain ⟨huna, -⟩ := h.early (by rw [hst]; decide)
    split_ifs with hbad
    · exact huna ▸ h.or _
    · refine ⟨Inv.or (h.start (.inr hst) tcp_iss ?_ ?_ ?_) _, fun hf => absurd (hc hf) hbad⟩
      · exact ⟨rfl, rfl, rfl, rfl, rfl⟩
      · rfl
      · exact .inr rfl
  | synSent =>
    rw [hst] at hc
    simpa only [hst] using hany (by simp [hst]) (by simp [hst]) (h.inSynSent hst hc)
  | synReceived =>
    rw [hst] at hc
    simpa only [hst] using hany (by simp [hst]) (by simp [hst])
      (h.inSynchronized (.inl hst) fun _ => hc)
  | _ =>
    simpa only [hst] using hany (by simp [hst]) (by simp [hst])
      (h.inSynchronized (.inr (hst ▸ by decide)) fun hs => by simp [hst] at hs)

theorem Inv.tcp_input {tcp_iss : TcpSeq} {nobufs th_fin : Bool}
    (h : Inv written una sent synAcked tp) (hc : tp.HandshakeClean ti nobufs th_fin)
    (hr : tp.tcp_input ti tcp_iss nobufs th_fin = some tp') :
    Inv written (if tp.t_state = .listen then 0 else una + tp'.snd_una.diff tp.snd_una) sent
      (synAcked || tp.acks ti) tp' := by
  have hsame := same_dooptions tp ti
  have hk := @Inv.keeps _ _ _ _ _ ti tcp_iss _ _ (h.same hsame) (hsame.handshakeClean hc)
  have hacks : (tp.tcp_dooptions ti).acks ti = tp.acks ti := by
    simp only [Tcpcb.acks, Tcpcb.acceptable, hsame.t_state, hsame.iss, hsame.snd_max]
  rw [hsame.t_state, hsame.snd_una, hacks] at hk
  rw [Tcpcb.tcp_input] at hr
  cases ho : (tp.tcp_dooptions ti).handshake ti tcp_iss nobufs with
  | gone => simp [ho] at hr
  | dropped tq =>
    rw [ho] at hk hr
    obtain rfl := Option.some.inj hr
    exact hk
  | goesOn tq =>
    rw [ho] at hk hr
    obtain rfl := Option.some.inj hr
    obtain ⟨hinv, huna⟩ := hk.1.goesOn hk.2
    rw [huna]
    exact hinv

end States

/-! ## Runs -/

/-- The handshake is clean, and in it the user does not close (`SYN_RECEIVED`); a forced
    segment is a probe. -/
def Act.Clean (s : Run) : Act → Prop
  | .close => s.tp.t_state ≠ .synReceived
  | .output c => c.t_force → 0 ≤ s.tp.usable c.t_force → s.tp.wants (s.tp.length c.t_force) c →
      ¬ c.nobufs → s.tp.Probe (s.tp.segment (s.tp.length c.t_force) c.nocopy)
  | .segment ti _ nobufs th_fin => s.tp.HandshakeClean ti nobufs th_fin
  | _ => True

/-- What every reachable state satisfies. -/
abbrev Run.Inv (s : Run) : Prop := Send.Inv s.written s.una s.sent s.synAcked s.tp

theorem Run.Inv.to {s : Run} {tp : Tcpcb} (h : Send.Inv s.written s.una s.sent s.synAcked tp)
    (huna : tp.snd_una = s.tp.snd_una) : (s.to tp).Inv := by
  have : (s.to tp).una = s.una := by rw [Run.to, huna, diff_self, add_zero]
  rw [Run.Inv, this]
  exact h

/-- The user's data come after what is in the buffer. -/
theorem Run.Inv.send {s : Run} (h : s.Inv) (m : List (Mbuf UInt8)) (snd_up : TcpSeq)
    (hst : s.tp.t_state = .established ∨ s.tp.t_state = .closeWait)
    (hfits : s.tp.so_snd.contents.length + (bytes m).length ≤ 32767) :
    Send.Inv (s.written ++ bytes m) s.una s.sent s.synAcked
      { s.tp with snd_up := snd_up, so_snd := s.tp.so_snd.sbappend m } := by
  have hsync : synchronized s.tp.t_state := by rcases hst with hst | hst <;> rw [hst] <;> decide
  have hlater := h.later hsync
  have hle := h.una_le hst
  have hcontents := Sockbuf.contents_sbappend s.tp.so_snd m
  refine ⟨h.counted.sbappend hfits, ?_, ?_, h.off, h.off_le, ?_, h.sent,
    fun hns => absurd hsync hns, fun hf => ?_, h.iss, fun _ => hlater, fun hf => ?_⟩
  · simp only [hcontents, List.length_append]
    exact hfits
  · simp only
    rw [hcontents, h.so_snd, List.drop_append_of_le_length (by omega)]
  · have hend := h.le_end
    simp only
    rcases hst with hst | hst <;> rw [hst, seqEnd] at hend ⊢ <;> rw [List.length_append] <;> omega
  · rcases hst with hst | hst <;> simp [hst] at hf
  · rcases hst with hst | hst <;> exact absurd (hst ▸ hf) (by decide)

/-- The first numbers are those of no bytes. -/
theorem Run.Inv.init {s : Run} (h : sending.init s) : s.Inv := by
  obtain ⟨hst, ht, huna, hnxt, hmax, hsnd, hw, hu, hsent, -⟩ := h
  have hoff : s.tp.off = 0 := by rw [Tcpcb.off, hnxt, huna]; rfl
  have hout : s.tp.snd_max.diff s.tp.snd_una = 0 := by rw [hmax, huna]; rfl
  refine ⟨?_, ?_, ?_, hoff.ge, ?_, ?_, ?_, fun _ => ⟨hu, hw⟩, fun _ => ht, fun hf => ?_,
    fun hf => ?_, fun hf => ?_⟩
  · rw [hsnd]
    rfl
  · simp [hsnd, Sockbuf.contents]
  · simp [hsnd, hw, Sockbuf.contents]
  · rw [hoff, hout]
  · rw [hout, hu, hst]
    rfl
  · rw [hsent, hu, hout]
    rfl
  · simp [hst] at hf
  · exact absurd (hst ▸ hf) (by decide)
  · exact absurd (hst ▸ hf) (by decide)

/-- The retransmit timer goes back to `snd_una`. -/
theorem Run.Inv.rexmt {s : Run} {tp : Tcpcb} {backoff : ℤ} (h : s.Inv)
    (hr : s.tp.rexmt backoff = some tp) :
    Send.Inv s.written s.una s.sent s.synAcked tp ∧ tp.snd_una = s.tp.snd_una := by
  rw [Tcpcb.rexmt] at hr
  split_ifs at hr
  obtain rfl := Option.some.inj hr
  have hoff := h.off
  have hmax := h.off_le
  exact ⟨⟨h.counted, h.small, h.so_snd, (diff_self _).ge, (diff_self _).trans_le (hoff.trans hmax),
    h.le_end, h.sent, h.early, h.fresh, h.iss, h.later, h.fin⟩, rfl⟩

/-- Every step that is clean keeps the invariant. -/
theorem Run.Inv.next {s s' : Run} {a : Act} (h : s.Inv) (hv : a.Valid s) (hc : a.Clean s)
    (hn : sending.next s a = some s') : s'.Inv := by
  cases a with
  | connect tcp_iss =>
    simp only [sending] at hn
    split_ifs at hn with hst
    obtain rfl := Option.some.inj hn
    exact h.start hst tcp_iss ⟨rfl, rfl, rfl, rfl, rfl⟩ rfl (.inl rfl)
  | listen =>
    simp only [sending] at hn
    split_ifs at hn with hst
    obtain rfl := Option.some.inj hn
    have hend := h.le_end
    rw [hst] at hend
    have hns : ¬ synchronized .listen := by decide
    have hnf : ¬ outFin .listen := by decide
    exact ⟨h.counted, h.small, h.so_snd, h.off, h.off_le, hend, h.sent,
      fun _ => h.early (by rw [hst]; decide), fun _ => h.fresh (.inl hst), fun hf => by simp at hf,
      fun hf => absurd hf hns, fun hf => absurd hf hnf⟩
  | send m urgent =>
    obtain rfl := Option.some.inj hn
    exact h.send m _ hv.1 hv.2
  | close =>
    obtain ⟨tp, htp, rfl⟩ := Option.map_eq_some_iff.1 hn
    obtain ⟨hinv, huna⟩ := Send.Inv.tcp_usrclosed h hc htp
    exact .to hinv huna
  | output c =>
    obtain ⟨r, hr, rfl⟩ := Option.map_eq_some_iff.1 hn
    obtain ⟨hinv, huna⟩ := Send.Inv.output h hc hr
    exact .to (s := s.sends r.2) hinv huna
  | segment ti tcp_iss nobufs th_fin =>
    obtain ⟨tp, htp, rfl⟩ := Option.map_eq_some_iff.1 hn
    exact Send.Inv.tcp_input h hc htp
  | rexmt backoff =>
    obtain ⟨tp, htp, rfl⟩ := Option.map_eq_some_iff.1 hn
    obtain ⟨hinv, huna⟩ := h.rexmt htp
    exact .to hinv huna
  | persist =>
    simp only [sending] at hn
    cases hp : tcp_setpersist s.tp with
    | none => simp [hp] at hn
    | some r =>
      simp only [hp] at hn
      split_ifs at hn
      obtain rfl := Option.some.inj hn
      have hsame := same_setpersist hp
      exact .to (Send.Inv.same h hsame) hsame.snd_una
  | keep =>
    simp only [sending] at hn
    split_ifs at hn
    obtain rfl := Option.some.inj hn
    have hsent := h.sent
    have hoff := h.off
    have hmax := h.off_le
    exact { h with sent := by simp only; omega }

theorem Run.Inv.sendSeq {s : Run} (h : s.Inv) : SendSeq s := by
  have hout := h.outstanding
  have hsmall := h.small
  have hoff := h.off
  have hmax := h.off_le
  have hnxt : s.tp.snd_una.diff s.tp.snd_nxt = -s.tp.off := by
    rw [diff_eq_sub s.tp.snd_una _ _ (by rw [diff_self, ← Tcpcb.off]; omega)
      (by rw [diff_self, ← Tcpcb.off]; omega), diff_self, zero_sub, Tcpcb.off]
  have hto : s.tp.snd_nxt.diff s.tp.snd_max = s.tp.off - s.tp.snd_max.diff s.tp.snd_una :=
    diff_eq_sub s.tp.snd_una _ _ (by rw [← Tcpcb.off]; omega) (by rw [← Tcpcb.off]; omega)
  refine ⟨?_, ?_, h.sent, h.so_snd, fun hs => (h.later hs).2⟩
  · simp only [seqLeq, hnxt, decide_eq_true_eq]
    omega
  · simp only [seqLeq, hto, decide_eq_true_eq]
    omega

/-- The sequence variables mean what they should in every clean run. -/
theorem sendSeq_of_clean {s : Run}
    (hs : sending.ReachableIf (fun s a => a.Valid s ∧ a.Clean s) s) : SendSeq s :=
  (hs.invariant (P := Run.Inv) (fun _ => .init) fun _ _ _ h hok hn =>
    h.next hok.1 hok.2 hn).sendSeq

/-- A connection at its creation. -/
def created : Run where
  tp := { t_state := .closed, t_rexmt := 0, t_persist := 0, t_rxtshift := 0, t_maxseg := 512,
          t_template := false, snd_una := 0, snd_nxt := 0, snd_up := 0, snd_wl1 := 0, snd_wl2 := 0,
          iss := 0, snd_wnd := 0, snd_max := 0, t_rtt := 0, t_rtseq := 0, t_srtt := 0,
          so_snd := ⟨[], 0, 0⟩ }
  written := []
  una := 0
  sent := 0
  synAcked := false

theorem init_created : sending.init created := ⟨rfl, rfl, rfl, rfl, rfl, rfl, rfl, rfl, rfl, rfl⟩

/-- A call of `tcp_output` that is not forced, with all the mbufs it needs. -/
def plain : Call := ⟨false, false, false, false⟩

/-- A segment with a `SYN`, a window of 100, and `ti_ack`. -/
def synSeg (th_ack : Bool) (ti_ack : TcpSeq) : Tcpiphdr :=
  ⟨true, th_ack, false, 700, ti_ack, 100, none⟩

theorem reachable_synSent (ok : Run → Act → Prop) (hc : ∀ s, ok s (.connect 100))
    (ho : ∀ s, ok s (.output plain)) :
    ∃ s, sending.run created [.connect 100, .output plain] = some s ∧ sending.ReachableIf ok s ∧
      s.tp.t_state = .synSent := by
  obtain ⟨s, hrun, hst⟩ : ∃ s, sending.run created [.connect 100, .output plain] = some s ∧
      s.tp.t_state = .synSent := ⟨_, rfl, rfl⟩
  refine ⟨s, hrun, Machine.reachableIf_run (.init init_created) (fun a ha s => ?_) hrun, hst⟩
  simp only [List.mem_cons, List.not_mem_nil, or_false] at ha
  rcases ha with rfl | rfl
  · exact hc s
  · exact ho s

/-- A connection is established, and its user writes a byte. -/
theorem sendSeq_established : ∃ s, s.sent = 2 ∧ s.tp.t_state = .established ∧ SendSeq s := by
  obtain ⟨s₂, hrun, hs₂, hst₂⟩ := reachable_synSent (fun s a => a.Valid s ∧ a.Clean s)
    (fun _ => ⟨trivial, trivial⟩) fun _ => ⟨trivial, fun hf => absurd hf (by decide)⟩
  obtain ⟨s₃, h₃, hst₃, hempty, s₄, h₄, s₅, h₅, hsent, hst₅⟩ : ∃ s,
      sending.next s₂ (.segment (synSeg true 101) 0 false false) = some s ∧
      s.tp.t_state = .established ∧ s.tp.so_snd.contents = [] ∧
      ∃ s', sending.next s (.send [⟨12, [7], false⟩] false) = some s' ∧
      ∃ s'', sending.next s' (.output plain) = some s'' ∧ s''.sent = 2 ∧
        s''.tp.t_state = .established := by
    obtain rfl := Option.some.inj hrun
    exact ⟨_, rfl, rfl, rfl, _, rfl, _, rfl, rfl, rfl⟩
  have hs₃ : sending.ReachableIf (fun s a => a.Valid s ∧ a.Clean s) s₃ := by
    refine hs₂.step (a := .segment (synSeg true 101) 0 false false) ⟨trivial, ?_⟩ h₃
    rw [Act.Clean, Tcpcb.HandshakeClean, hst₂]
    exact fun _ _ => ⟨.inl rfl, fun hf => absurd hf (by decide)⟩
  have hs₄ : sending.ReachableIf (fun s a => a.Valid s ∧ a.Clean s) s₄ :=
    hs₃.step (a := .send [⟨12, [7], false⟩] false) ⟨⟨.inl hst₃, by rw [hempty]; decide⟩, trivial⟩ h₄
  exact ⟨s₅, hsent, hst₅, sendSeq_of_clean
    (hs₄.step (a := .output plain) ⟨trivial, fun hf => absurd hf (by decide)⟩ h₅)⟩

/-- In `SYN_SENT`, a `SYN` without `TH_ACK` moves `snd_una` to a `ti_ack` that means nothing. -/
theorem not_sendSeq : ¬ ∀ s, sending.ReachableIf (fun s a => a.Valid s) s → SendSeq s := by
  intro h
  obtain ⟨s₂, hrun, hs₂, -⟩ := reachable_synSent (fun s a => a.Valid s) (fun _ => trivial)
    fun _ => trivial
  obtain ⟨s₃, h₃, hleq⟩ : ∃ s, sending.next s₂ (.segment (synSeg false 5000) 0 false false) =
      some s ∧ seqLeq s.tp.snd_nxt s.tp.snd_max = false := by
    obtain rfl := Option.some.inj hrun
    exact ⟨_, rfl, rfl⟩
  have hs₃ := h s₃ (.step (a := .segment (synSeg false 5000) 0 false false) hs₂ trivial h₃)
  exact absurd hs₃.nxt_le_max (by simp [hleq])

end AuxKernel.Tcp.Send
