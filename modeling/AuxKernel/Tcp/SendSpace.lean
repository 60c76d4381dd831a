import AuxKernel.Tcp.Input

/-!
# The sequence space of a connection

The numbers from `iss` on are those of the `SYN`, of the bytes written, and of the
`FIN`. `snd_una`, `snd_nxt` and `snd_max` point into them in this order, and the buffer
holds the bytes from `snd_una` on (`Inv`). Output keeps this (`Inv.output`), unless a
forced segment carries more than the one byte it counts as (`Tcpcb.Probe`).
-/

namespace AuxKernel.Tcp.Send

open Net

/-- The end of the sequence space in a state: the `SYN` is sent in the handshake, the
    bytes written after it, and the `FIN` when the user has closed. -/
def seqEnd (written : List UInt8) : TcpState → ℤ
  | .closed | .listen => 0
  | .synSent | .synReceived => 1
  | .established | .closeWait => 1 + written.length
  | _ => 2 + written.length

/-- The handshake is over. -/
def synchronized (s : TcpState) : Prop := TcpState.established.num ≤ s.num

instance (s : TcpState) : Decidable (synchronized s) := inferInstanceAs (Decidable (_ ≤ _))

/-- The connection `tp` after its user wrote `written`, with the numbers up to `una`
    acknowledged and those up to `sent` sent. -/
structure Inv (written : List UInt8) (una sent : ℤ) (synAcked : Bool) (tp : Tcpcb) : Prop where
  counted : tp.so_snd.Counted
  small : tp.so_snd.contents.length ≤ 32767
  so_snd : tp.so_snd.contents = written.drop (una - 1).toNat
  off : 0 ≤ tp.off
  off_le : tp.off ≤ tp.snd_max.diff tp.snd_una
  le_end : una + tp.snd_max.diff tp.snd_una ≤ seqEnd written tp.t_state
  sent : sent ≤ una + tp.snd_max.diff tp.snd_una
  early : ¬ synchronized tp.t_state → una = 0 ∧ written = []
  fresh : tp.t_state = .closed ∨ tp.t_state = .listen → tp.t_template = false
  iss : tp.t_state = .synSent ∨ tp.t_state = .synReceived → tp.snd_una = tp.iss
  later : synchronized tp.t_state → 1 ≤ una ∧ synAcked
  fin : outFin tp.t_state → una ≤ 1 + written.length

/-- The variables that `Inv` is about are the same. -/
structure Same (tp tp' : Tcpcb) : Prop where
  t_state : tp'.t_state = tp.t_state
  t_template : tp'.t_template = tp.t_template
  snd_una : tp'.snd_una = tp.snd_una
  snd_nxt : tp'.snd_nxt = tp.snd_nxt
  snd_max : tp'.snd_max = tp.snd_max
  iss : tp'.iss = tp.iss
  so_snd : tp'.so_snd = tp.so_snd

theorem Same.rfl' (tp : Tcpcb) : Same tp tp := ⟨rfl, rfl, rfl, rfl, rfl, rfl, rfl⟩

theorem Same.off {tp tp' : Tcpcb} (hs : Same tp tp') : tp'.off = tp.off := by
  rw [Tcpcb.off, Tcpcb.off, hs.snd_nxt, hs.snd_una]

section Inv

variable {written : List UInt8} {una sent : ℤ} {synAcked : Bool} {tp tp' : Tcpcb}

theorem Inv.same (h : Inv written una sent synAcked tp) (hs : Same tp tp') :
    Inv written una sent synAcked tp' := by
  have hoff := hs.off
  constructor
  · exact hs.so_snd ▸ h.counted
  · exact hs.so_snd ▸ h.small
  · exact hs.so_snd ▸ h.so_snd
  · exact hoff ▸ h.off
  · rw [hoff, hs.snd_max, hs.snd_una]
    exact h.off_le
  · rw [hs.snd_max, hs.snd_una, hs.t_state]
    exact h.le_end
  · rw [hs.snd_max, hs.snd_una]
    exact h.sent
  · exact hs.t_state ▸ h.early
  · rw [hs.t_state, hs.t_template]
    exact h.fresh
  · rw [hs.t_state, hs.snd_una, hs.iss]
    exact h.iss
  · exact hs.t_state ▸ h.later
  · exact hs.t_state ▸ h.fin

/-- The buffer reaches to the end of what is written. -/
theorem Inv.length (h : Inv written una sent synAcked tp) (hs : synchronized tp.t_state)
    (hu : una ≤ 1 + written.length) : una + tp.so_snd.contents.length = 1 + written.length := by
  have := (h.later hs).1
  rw [h.so_snd, List.length_drop]
  omega

/-- There is no text before the handshake is over. -/
theorem Inv.empty (h : Inv written una sent synAcked tp) (hs : ¬ synchronized tp.t_state) :
    tp.so_snd.contents = [] := by
  obtain ⟨rfl, rfl⟩ := h.early hs
  simpa using h.so_snd

/-- After the bytes in the buffer there is at most the `FIN`, before them the `SYN`. -/
theorem Inv.seqEnd_le (h : Inv written una sent synAcked tp) :
    seqEnd written tp.t_state ≤ una + tp.so_snd.contents.length + 1 := by
  by_cases hs : synchronized tp.t_state
  · have hu := (h.later hs).1
    have : seqEnd written tp.t_state ≤ 2 + written.length := by
      cases tp.t_state <;> simp only [seqEnd] <;> omega
    rw [h.so_snd, List.length_drop]
    omega
  · obtain ⟨rfl, rfl⟩ := h.early hs
    have : seqEnd [] tp.t_state ≤ 1 := by
      cases hst : tp.t_state <;> simp only [seqEnd] <;>
        first | omega | exact absurd (by rw [hst]; decide) hs
    omega

/-- What is outstanding is far less than half the sequence space. -/
theorem Inv.outstanding (h : Inv written una sent synAcked tp) :
    tp.snd_max.diff tp.snd_una ≤ tp.so_snd.contents.length + 1 := by
  have hend := h.le_end
  have hle := h.seqEnd_le
  omega

end Inv

/-! ## Output -/

section Output

variable {written : List UInt8} {una sent : ℤ} {synAcked : Bool} {tp tp' : Tcpcb} {c : Call}

theorem length_le_usable (tp : Tcpcb) (t_force : Bool) : tp.length t_force ≤ tp.usable t_force := by
  rw [Tcpcb.length]
  split_ifs <;> omega

theorem usable_le (tp : Tcpcb) (t_force : Bool) : tp.usable t_force ≤ tp.so_snd.sb_cc - tp.off :=
  sub_le_sub_right (min_le_left _ _) _

theorem not_outSyn (hs : synchronized tp.t_state) : outSyn tp.t_state = false := by
  cases hst : tp.t_state <;> first | rfl | exact absurd hs (by rw [hst]; decide)

theorem seqEnd_of_synchronized (hs : synchronized tp.t_state) :
    1 + (written.length : ℤ) ≤ seqEnd written tp.t_state := by
  cases hst : tp.t_state <;> simp only [seqEnd] <;>
    first | omega | exact absurd hs (by rw [hst]; decide)

theorem seqEnd_of_outFin (hf : outFin tp.t_state) :
    synchronized tp.t_state ∧ seqEnd written tp.t_state = 2 + written.length := by
  cases hst : tp.t_state <;> rw [hst] at hf <;>
    first | exact absurd hf (by decide) | exact ⟨by decide, rfl⟩

/-- The numbers of a segment are those of bytes in the buffer, and of the `SYN` or `FIN`. -/
theorem Inv.segment (h : Inv written una sent synAcked tp) (hu : 0 ≤ tp.usable c.t_force)
    (hlen : 0 ≤ tp.length c.t_force) (ht : tp.t_template) :
    0 ≤ (tp.segment (tp.length c.t_force) c.nocopy).len ∧
    ((tp.segment (tp.length c.t_force) c.nocopy).len = 0 ∨
      una + tp.off + (tp.segment (tp.length c.t_force) c.nocopy).len ≤
        seqEnd written tp.t_state) := by
  have husable := usable_le tp c.t_force
  have hle := length_le_usable tp c.t_force
  have hoff := h.off
  have hcc : tp.so_snd.sb_cc = tp.so_snd.contents.length := h.counted
  generalize hseg : tp.segment (tp.length c.t_force) c.nocopy = seg
  -- The text is in the buffer.
  have htext : tp.off + seg.text.length ≤ tp.so_snd.contents.length := by
    rw [← hseg, Tcpcb.segment]
    split_ifs
    · simp only [List.length_nil]
      omega
    · simp only [List.length_take, List.length_drop]
      omega
  have hsyn : seg.th_syn = outSyn tp.t_state := by rw [← hseg]; rfl
  have hfin : seg.th_fin → outFin tp.t_state := fun hf => by
    rw [← hseg] at hf
    exact (Bool.and_eq_true_iff.1 hf).1
  refine ⟨by rw [Segment.len]; split_ifs <;> omega, ?_⟩
  by_cases hs : synchronized tp.t_state
  · rw [Segment.len, hsyn, not_outSyn hs, Bool.false_or]
    by_cases hf : seg.th_fin
    · -- The `FIN` is after the text.
      obtain ⟨_, hend⟩ := @seqEnd_of_outFin written tp (hfin hf)
      have := h.length hs (h.fin (hfin hf))
      rw [if_pos hf, hend]
      omega
    · rw [if_neg hf, add_zero]
      refine or_iff_not_imp_left.2 fun hne => ?_
      have hend := @seqEnd_of_synchronized written tp hs
      have := (h.later hs).1
      have hdrop := congrArg List.length h.so_snd
      rw [List.length_drop] at hdrop
      omega
  · have hempty := h.empty hs
    rw [hempty, List.length_nil] at htext hcc
    obtain ⟨rfl, rfl⟩ := h.early hs
    have hend : seqEnd [] tp.t_state = 1 := by
      have hfresh : ¬ (tp.t_state = .closed ∨ tp.t_state = .listen) := fun hf => by
        simp [h.fresh hf] at ht
      cases hst : tp.t_state <;> rw [hst] at hs hfresh <;>
        first | rfl | exact absurd (by decide) hs | exact absurd (by decide) hfresh
    rw [Segment.len, hend]
    split_ifs <;> omega

/-- A forced segment takes no number but that of `snd_una`, unless they were sent
    before; and there is something to send at `snd_una` if nothing is outstanding. -/
def Tcpcb.Probe (tp : Tcpcb) (seg : Segment) : Prop :=
  tp.off + seg.len ≤ max 1 (tp.snd_max.diff tp.snd_una) ∧
    (tp.snd_max = tp.snd_una → tp.so_snd.sb_cc ≠ 0 ∨ seg.len ≠ 0)

theorem Same.probe {seg : Segment} (hs : Same tp tp') (h : tp.Probe seg) : tp'.Probe seg := by
  rw [Tcpcb.Probe, hs.off, hs.snd_max, hs.snd_una, hs.so_snd]
  exact h

theorem same_dragUp (tp : Tcpcb) : Same tp tp.dragUp := by
  rw [Tcpcb.dragUp]
  split_ifs
  · exact .rfl' tp
  · exact ⟨rfl, rfl, rfl, rfl, rfl, rfl, rfl⟩

theorem snd_una_forced (tp : Tcpcb) : tp.forced.snd_una = tp.snd_una := by
  rw [Tcpcb.forced]
  split_ifs <;> rfl

theorem same_setpersist {r : Tcpcb × Bool} (h : tcp_setpersist tp = some r) : Same tp r.1 := by
  rw [tcp_setpersist] at h
  split_ifs at h <;> obtain rfl := Option.some.inj h <;> exact ⟨rfl, rfl, rfl, rfl, rfl, rfl, rfl⟩

theorem same_idle {r : Tcpcb × Option Segment} (h : tp.idle = some r) :
    Same tp r.1 ∧ r.2 = none := by
  rw [Tcpcb.idle] at h
  split_ifs at h
  · obtain ⟨q, hq, rfl⟩ := Option.map_eq_some_iff.1 h
    obtain ⟨h₁, h₂, h₃, h₄, h₅, h₆, h₇⟩ := same_setpersist hq
    exact ⟨⟨h₁, h₂, h₃, h₄, h₅, h₆, h₇⟩, rfl⟩
  · obtain rfl := Option.some.inj h
    exact ⟨.rfl' tp, rfl⟩

/-- `snd_nxt` moves over the numbers of a segment. -/
theorem off_advance {seg : Segment} (h₁ : -2 ^ 31 ≤ tp.off + seg.len)
    (h₂ : tp.off + seg.len < 2 ^ 31) : (tp.advance seg).off = tp.off + seg.len := by
  change (tp.snd_nxt + BitVec.ofInt 32 seg.len).diff tp.snd_una = tp.off + seg.len
  rw [eq_add_diff tp.snd_nxt tp.snd_una, BitVec.add_assoc, ← BitVec.ofInt_add]
  exact diff_add _ h₁ h₂

/-- `snd_nxt` moves over a segment that is not forced, and `snd_max` with it. -/
theorem Inv.advance {seg : Segment} (h : Inv written una sent synAcked tp) (h₀ : 0 ≤ seg.len)
    (hseg : seg.len = 0 ∨ una + tp.off + seg.len ≤ seqEnd written tp.t_state)
    (hsmall : tp.off + seg.len ≤ 40000) :
    Inv written una (max sent (una + tp.off + seg.len)) synAcked (tp.advance seg) := by
  have hout := h.outstanding
  have hsm := h.small
  have hoff := h.off
  have hmax := h.off_le
  have hlimit := h.le_end
  have hsent := h.sent
  have hnxt : (tp.snd_nxt + BitVec.ofInt 32 seg.len).diff tp.snd_una = tp.off + seg.len :=
    off_advance (by omega) (by omega)
  have hnew : seqGt (tp.snd_nxt + BitVec.ofInt 32 seg.len) tp.snd_max ↔
      tp.snd_max.diff tp.snd_una < tp.off + seg.len := by
    rw [seqGt, diff_eq_sub tp.snd_una _ _ (by omega) (by omega), hnxt]
    simp
  have hmax' : (tp.advance seg).snd_max.diff tp.snd_una =
      max (tp.snd_max.diff tp.snd_una) (tp.off + seg.len) := by
    simp only [Tcpcb.advance]
    split_ifs with hgt
    · rw [hnxt, max_eq_right (hnew.1 hgt).le]
    · rw [max_eq_left (not_lt.1 (mt hnew.2 hgt))]
  have hoff' : (tp.advance seg).off = tp.off + seg.len := hnxt
  constructor
  · exact h.counted
  · exact h.small
  · exact h.so_snd
  · omega
  · rw [hoff']
    exact hmax'.symm ▸ le_max_right _ _
  · change una + (tp.advance seg).snd_max.diff tp.snd_una ≤ seqEnd written tp.t_state
    omega
  · change _ ≤ una + (tp.advance seg).snd_max.diff tp.snd_una
    omega
  · exact h.early
  · exact h.fresh
  · exact h.iss
  · exact h.later
  · exact h.fin

/-- A forced segment leaves `snd_nxt` as it is; `snd_max` is past one number at least. -/
theorem Inv.forced {seg : Segment} (h : Inv written una sent synAcked tp)
    (hseg : seg.len = 0 ∨ una + tp.off + seg.len ≤ seqEnd written tp.t_state)
    (h₀ : 0 ≤ seg.len) (hp : tp.Probe seg) :
    Inv written una (max sent (una + tp.off + seg.len)) synAcked tp.forced := by
  have hout := h.outstanding
  have hsm := h.small
  have hoff := h.off
  have hmax := h.off_le
  have hlimit := h.le_end
  have hsent := h.sent
  obtain ⟨hle, hsome⟩ := hp
  have hone : (tp.snd_una + 1).diff tp.snd_una = 1 :=
    diff_add tp.snd_una (x := 1) (by omega) (by omega)
  have hgt : seqGt (tp.snd_una + 1) tp.snd_max ↔ tp.snd_max.diff tp.snd_una < 1 := by
    rw [seqGt, diff_eq_sub tp.snd_una _ _ (by omega) (by omega), hone]
    simp
  rw [Tcpcb.forced]
  split_ifs with hg
  · have hzero : tp.snd_max.diff tp.snd_una = 0 := by
      have := hgt.1 hg
      omega
    have hend : una + 1 ≤ seqEnd written tp.t_state := by
      rcases hsome (diff_eq_zero.1 hzero) with hcc | hne
      · have hs : synchronized tp.t_state := by
          by_contra hs
          exact hcc (by rw [h.counted, h.empty hs]; rfl)
        have := (h.later hs).1
        have hdrop := congrArg List.length h.so_snd
        have hcc' : tp.so_snd.sb_cc = tp.so_snd.contents.length := h.counted
        have := @seqEnd_of_synchronized written tp hs
        rw [List.length_drop] at hdrop
        omega
      · omega
    refine ⟨h.counted, h.small, h.so_snd, h.off, ?_, ?_, ?_, h.early, h.fresh, h.iss, h.later,
      h.fin⟩
    · change tp.off ≤ (tp.snd_una + 1).diff tp.snd_una
      omega
    · change una + (tp.snd_una + 1).diff tp.snd_una ≤ seqEnd written tp.t_state
      omega
    · change _ ≤ una + (tp.snd_una + 1).diff tp.snd_una
      omega
  · have := mt hgt.2 hg
    refine ⟨h.counted, h.small, h.so_snd, h.off, h.off_le, h.le_end, ?_, h.early, h.fresh, h.iss,
      h.later, h.fin⟩
    omega

/-- Sending a segment keeps the invariant. -/
theorem Inv.send {s : Run} {r : Tcpcb × Option Segment}
    (h : Inv s.written s.una s.sent s.synAcked s.tp) (hu : 0 ≤ s.tp.usable c.t_force)
    (hp : c.t_force → ¬ c.nobufs → s.tp.Probe (s.tp.segment (s.tp.length c.t_force) c.nocopy))
    (hr : s.tp.send (s.tp.length c.t_force) c = some r) :
    Inv s.written s.una (s.sends r.2).sent s.synAcked r.1 ∧ r.1.snd_una = s.tp.snd_una := by
  rw [Tcpcb.send] at hr
  by_cases hbufs : c.nobufs
  · rw [if_pos hbufs] at hr
    obtain rfl := Option.some.inj hr
    exact ⟨h, rfl⟩
  rw [if_neg hbufs] at hr
  split at hr
  next => exact absurd hr (by simp)
  next hpanic =>
    obtain rfl := Option.some.inj hr
    obtain ⟨hlen, ht⟩ := not_or.1 hpanic
    have hlen : 0 ≤ s.tp.length c.t_force := by
      by_contra hneg
      exact hlen ⟨by omega, .inr (.inl (by omega))⟩
    obtain ⟨h₀, hseg⟩ := h.segment (c := c) hu hlen (not_not.1 ht)
    have hdrag := same_dragUp s.tp
    have h' := h.same hdrag
    have hoff : s.tp.dragUp.off = s.tp.off := hdrag.off
    have hsent : (s.sends (some (s.tp.segment (s.tp.length c.t_force) c.nocopy))).sent =
        max s.sent (s.una + s.tp.dragUp.off +
          (s.tp.segment (s.tp.length c.t_force) c.nocopy).len) := by
      rw [hoff]
      rfl
    rw [hsent]
    rw [← hoff, ← hdrag.t_state] at hseg
    split_ifs with hforce
    · refine ⟨h'.forced hseg h₀ (hdrag.probe (hp hforce hbufs)), ?_⟩
      rw [snd_una_forced, hdrag.snd_una]
    · refine ⟨h'.advance h₀ hseg ?_, hdrag.snd_una⟩
      have hout := h'.outstanding
      have hle := h'.seqEnd_le
      have hmax := h'.off_le
      have hsmall := h'.small
      omega

/-- A pass of `tcp_output` keeps the invariant, if a forced segment is a probe. -/
theorem Inv.output {s : Run} {r : Tcpcb × Option Segment}
    (h : Inv s.written s.una s.sent s.synAcked s.tp)
    (hp : c.t_force → 0 ≤ s.tp.usable c.t_force → s.tp.wants (s.tp.length c.t_force) c →
      ¬ c.nobufs → s.tp.Probe (s.tp.segment (s.tp.length c.t_force) c.nocopy))
    (hr : s.tp.tcp_output c = some r) :
    Inv s.written s.una (s.sends r.2).sent s.synAcked r.1 ∧ r.1.snd_una = s.tp.snd_una := by
  rw [Tcpcb.tcp_output] at hr
  split_ifs at hr with husable hwants
  · obtain rfl := Option.some.inj hr
    exact ⟨h, rfl⟩
  · exact h.send (not_lt.1 husable) (fun hf => hp hf (not_lt.1 husable) hwants) hr
  · obtain ⟨hsame, hnone⟩ := same_idle hr
    rw [hnone]
    exact ⟨h.same hsame, hsame.snd_una⟩

end Output

end AuxKernel.Tcp.Send
