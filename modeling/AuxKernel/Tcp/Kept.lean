import AuxKernel.Tcp.SendSeq

/-!
# What a connection keeps

In every run, whatever the other side sends, the send buffer is counted, `snd_nxt` is not
behind `snd_una`, and a connection that has left `LISTEN` has its template
(`kept_of_reachable`).
-/

namespace AuxKernel.Tcp.Send

open Net

/-- What is kept by every step of a connection. -/
structure Kept (tp : Tcpcb) : Prop where
  counted : tp.so_snd.Counted
  small : tp.so_snd.contents.length ≤ 32767
  off : 0 ≤ tp.off
  template : tp.t_state ≠ .closed → tp.t_state ≠ .listen → tp.t_template

section Kept

variable {tp tp' : Tcpcb} {ti : Tcpiphdr}

/-- The buffer stays as it is. -/
theorem Kept.of (h : Kept tp) (hsnd : tp'.so_snd = tp.so_snd) (hoff : 0 ≤ tp'.off)
    (ht : tp'.t_state ≠ .closed → tp'.t_state ≠ .listen → tp'.t_template) : Kept tp' :=
  ⟨hsnd ▸ h.counted, hsnd ▸ h.small, hoff, ht⟩

theorem Kept.same (h : Kept tp) (hs : Same tp tp') : Kept tp' :=
  h.of hs.so_snd (hs.off ▸ h.off) (by rw [hs.t_state, hs.t_template]; exact h.template)

/-- The state changes, past `LISTEN`. -/
theorem Kept.move (h : Kept tp) (st : TcpState) (hc : tp.t_state ≠ .closed)
    (hl : tp.t_state ≠ .listen) : Kept { tp with t_state := st } :=
  h.of rfl h.off fun _ _ => h.template hc hl

/-! ## Output -/

/-- What a pass builds begins and ends in the buffer. -/
theorem Kept.segment {c : Call} (h : Kept tp) (husable : 0 ≤ tp.usable c.t_force) :
    0 ≤ (tp.segment (tp.length c.t_force) c.nocopy).len ∧
      tp.off + (tp.segment (tp.length c.t_force) c.nocopy).len ≤ 65535 := by
  have hle := usable_le tp c.t_force
  have hsmall := h.small
  have hcc : tp.so_snd.sb_cc = tp.so_snd.contents.length := h.counted
  have htext : (tp.segment (tp.length c.t_force) c.nocopy).text.length ≤
      tp.so_snd.contents.length - tp.off.toNat := by
    rw [Tcpcb.segment]
    split_ifs
    · exact Nat.zero_le _
    · simp only [List.length_take, List.length_drop]
      omega
  have hoff := h.off
  rw [Segment.len]
  split_ifs <;> omega

/-- A pass of `tcp_output` keeps it. -/
theorem Kept.output {c : Call} {r : Tcpcb × Option Segment} (h : Kept tp)
    (hr : tp.tcp_output c = some r) : Kept r.1 := by
  rw [Tcpcb.tcp_output] at hr
  split_ifs at hr with husable hwants
  · exact Option.some.inj hr ▸ h
  · rw [Tcpcb.send] at hr
    by_cases hbufs : c.nobufs
    · rw [if_pos hbufs] at hr
      exact Option.some.inj hr ▸ h
    rw [if_neg hbufs] at hr
    split at hr
    next => exact absurd hr (by simp)
    next =>
      obtain ⟨h₀, hend⟩ := h.segment (c := c) (not_lt.1 husable)
      have hdrag := same_dragUp tp
      have h' := h.same hdrag
      obtain rfl := Option.some.inj hr
      simp only
      split_ifs
      · refine h'.of ?_ ?_ ?_
        · rw [Tcpcb.forced]
          split_ifs <;> rfl
        · rw [Tcpcb.off, snd_una_forced, Tcpcb.forced]
          split_ifs <;> exact h'.off
        · rw [Tcpcb.forced]
          split_ifs <;> exact h'.template
      · refine h'.of rfl ?_ h'.template
        have hoff := h.off
        rw [off_advance (by rw [hdrag.off]; omega) (by rw [hdrag.off]; omega), hdrag.off]
        omega
  · exact h.same (same_idle hr).1

/-! ## Input -/

theorem off_pullNxt (tp : Tcpcb) : 0 ≤ tp.pullNxt.off := by
  rw [Tcpcb.off, Tcpcb.pullNxt]
  split_ifs with hlt
  · exact (diff_self _).ge
  · simpa [seqLt] using hlt

/-- The sequence space starts anew. -/
theorem Kept.start (h : Kept tp) (tcp_iss : TcpSeq) (hsnd : tp'.so_snd = tp.so_snd)
    (huna : tp'.snd_una = tcp_iss) (hnxt : tp'.snd_nxt = tcp_iss) (ht : tp'.t_template) :
    Kept tp' := by
  refine h.of hsnd ?_ fun _ _ => ht
  rw [Tcpcb.off, huna, hnxt]
  exact (diff_self _).ge

theorem Kept.inSynSent (h : Kept tp) (hst : tp.t_state = .synSent) :
    (tp.inSynSent ti).Keeps Kept false := by
  have ht : tp.t_template := h.template (by simp [hst]) (by simp [hst])
  rw [Tcpcb.inSynSent]
  by_cases hsyn : ti.th_syn
  · rw [if_neg (not_not.2 hsyn)]
    split_ifs
    · exact h
    · trivial
    · exact h
    · exact ⟨h.of rfl (off_pullNxt { tp with snd_una := ti.ti_ack }) fun _ _ => ht, by simp⟩
  · rw [if_pos hsyn]
    split_ifs
    · exact h
    · trivial
    · exact h
    · exact h

/-- The state after an acknowledgement is past `LISTEN` if the one before is. -/
theorem Kept.afterAck (h : Kept tp) (hc : tp.t_state ≠ .closed) (hl : tp.t_state ≠ .listen)
    (ourfinisacked : Bool) : (tp.afterAck ourfinisacked).Keeps Kept false := by
  have hgoes {tq : Tcpcb} (hq : Kept tq) : (Outcome.goesOn tq).Keeps Kept false := ⟨hq, by simp⟩
  rw [Tcpcb.afterAck]
  split
  · split_ifs
    · exact hgoes (h.move _ hc hl)
    · exact hgoes h
  · split_ifs
    · exact hgoes (h.of rfl h.off fun _ _ => h.template hc hl)
    · exact hgoes h
  · split_ifs
    · trivial
    · exact h
  · exact h
  · exact hgoes h

theorem Kept.inEstablished (h : Kept tp) (hc : tp.t_state ≠ .closed) (hl : tp.t_state ≠ .listen) :
    (tp.inEstablished ti).Keeps Kept false := by
  rw [Tcpcb.inEstablished]
  split_ifs with hleq hgt
  · exact ⟨h, by simp⟩
  · exact h
  have hrt := same_retime tp ti
  generalize (tp.rtt ti).retime ti = tq at hrt
  simp only [Tcpcb.drop, hrt.so_snd]
  cases hd : tp.so_snd.sbdrop (min (ti.ti_ack.diff tp.snd_una) tp.so_snd.sb_cc).toNat
      tp.so_snd.sb_mb with
  | none => trivial
  | some sb =>
    -- As many bytes are dropped as there are, at most.
    have hcc : tp.so_snd.sb_cc = tp.so_snd.contents.length := h.counted
    obtain ⟨sb', hsb', hcounted⟩ : ∃ sb', tp.so_snd.sbdrop
        (min (ti.ti_ack.diff tp.snd_una) tp.so_snd.sb_cc).toNat tp.so_snd.sb_mb = some sb' ∧
          sb'.Counted :=
      Sockbuf.sbdrop_spec (by rw [← Sockbuf.contents]; omega) h.small hcc
    obtain rfl := Option.some.inj (hd.symm.trans hsb')
    have hcontents := congrArg List.length (Sockbuf.contents_sbdrop hd)
    rw [List.length_drop, ← Sockbuf.contents] at hcontents
    have hsmall := h.small
    have htq := h.same hrt
    rw [← hrt.t_state] at hc hl
    set tr : Tcpcb := Tcpcb.pullNxt { tq with
      so_snd := sb
      snd_wnd := (tq.snd_wnd - min (ti.ti_ack.diff tp.snd_una) tp.so_snd.sb_cc) % 65536
      snd_una := ti.ti_ack }
    have htr : Kept tr := by
      refine ⟨hcounted, ?_, off_pullNxt _, fun _ _ => htq.template hc hl⟩
      change sb.contents.length ≤ 32767
      omega
    exact htr.afterAck hc hl _

theorem Kept.inSynchronized (h : Kept tp) (hc : tp.t_state ≠ .closed) (hl : tp.t_state ≠ .listen) :
    (tp.inSynchronized ti).Keeps Kept false := by
  rw [Tcpcb.inSynchronized]
  by_cases hgone : ti.th_rst ∨ ti.th_syn
  · rw [if_pos hgone]
    trivial
  by_cases hack : ti.th_ack
  · rw [if_neg hgone, if_neg (not_not.2 hack)]
    by_cases hsyn : tp.t_state = .synReceived
    · rw [if_pos hsyn, Tcpcb.inSynReceived]
      by_cases hbad : seqGt tp.snd_una ti.ti_ack ∨ seqGt ti.ti_ack tp.snd_max
      · rw [if_pos hbad]
        exact h
      · rw [if_neg hbad]
        refine Kept.inEstablished (h.of rfl ?_ fun _ _ => h.template hc hl) (by simp) (by simp)
        exact off_pullNxt { tp with snd_una := tp.snd_una + 1 }
    · rw [if_neg hsyn]
      exact h.inEstablished hc hl
  · rw [if_neg hgone, if_pos hack]
    exact h

theorem Kept.handshake {tcp_iss : TcpSeq} {nobufs : Bool} (h : Kept tp) :
    (tp.handshake ti tcp_iss nobufs).Keeps Kept false := by
  rw [Tcpcb.handshake]
  split
  · split_ifs
    · trivial
    · exact ⟨h, by simp⟩
    · exact h
  · rw [Tcpcb.inListen]
    split_ifs
    · exact h
    · exact ⟨h.start tcp_iss rfl rfl rfl rfl, by simp⟩
  · exact h.inSynSent ‹_›
  · exact h.inSynchronized ‹_› ‹_›

theorem Kept.finReceived (h : Kept tp) : Kept tp.finReceived := by
  rw [Tcpcb.finReceived]
  split
  case h_5 => exact h
  all_goals
    refine h.of rfl h.off fun _ _ => h.template ?_ ?_ <;> simp [*]

theorem Kept.tcp_input {tcp_iss : TcpSeq} {nobufs th_fin : Bool} (h : Kept tp)
    (hr : tp.tcp_input ti tcp_iss nobufs th_fin = some tp') : Kept tp' := by
  have hk : ((tp.tcp_dooptions ti).handshake ti tcp_iss nobufs).Keeps Kept false :=
    (h.same (same_dooptions tp ti)).handshake
  rw [Tcpcb.tcp_input] at hr
  cases ho : (tp.tcp_dooptions ti).handshake ti tcp_iss nobufs with
  | gone => simp [ho] at hr
  | dropped tq =>
    rw [ho] at hk hr
    exact Option.some.inj hr ▸ hk
  | goesOn tq =>
    rw [ho] at hk hr
    obtain rfl := Option.some.inj hr
    have hstep := hk.1.same (same_step6 tq (if tp.t_state = .listen ∨ tp.t_state = .synSent then
      { ti with ti_seq := ti.ti_seq + 1 } else ti))
    cases th_fin with
    | false => exact hstep
    | true => exact hstep.finReceived

theorem Kept.tcp_usrclosed (h : Kept tp) (hr : tp.tcp_usrclosed = some tp') : Kept tp' := by
  rw [Tcpcb.tcp_usrclosed] at hr
  cases hst : tp.t_state <;> rw [hst] at hr <;> simp only [reduceCtorEq, Option.some.injEq] at hr
  case synReceived | established | closeWait =>
    subst hr
    exact h.move _ (by simp [hst]) (by simp [hst])
  all_goals exact hr ▸ h

end Kept

/-! ## Runs -/

instance (s : Run) : (a : Act) → Decidable (a.Valid s)
  | .send _ _ => inferInstanceAs (Decidable (_ ∧ _))
  | .connect _ | .listen | .close | .output _ | .segment _ _ _ _ | .rexmt _ | .persist | .keep =>
    isTrue trivial

theorem Kept.init {s : Run} (h : sending.init s) : Kept s.tp := by
  obtain ⟨hst, -, huna, hnxt, -, hsnd, -⟩ := h
  refine ⟨?_, ?_, ?_, fun hc => absurd hst hc⟩
  · rw [hsnd]
    rfl
  · simp [hsnd, Sockbuf.contents]
  · rw [Tcpcb.off, huna, hnxt]
    exact (diff_self _).ge

/-- Every step keeps it. -/
theorem Kept.next {s s' : Run} {a : Act} (h : Kept s.tp) (hv : a.Valid s)
    (hn : sending.next s a = some s') : Kept s'.tp := by
  cases a with
  | connect tcp_iss =>
    simp only [sending] at hn
    split_ifs at hn
    obtain rfl := Option.some.inj hn
    exact h.start tcp_iss rfl rfl rfl rfl
  | listen =>
    simp only [sending] at hn
    split_ifs at hn
    obtain rfl := Option.some.inj hn
    exact h.of rfl h.off fun _ hl => absurd rfl hl
  | send m urgent =>
    obtain rfl := Option.some.inj hn
    refine ⟨h.counted.sbappend hv.2, ?_, h.off, h.template⟩
    simp only [Sockbuf.contents_sbappend, List.length_append]
    exact hv.2
  | close =>
    obtain ⟨tp, htp, rfl⟩ := Option.map_eq_some_iff.1 hn
    exact h.tcp_usrclosed htp
  | output c =>
    obtain ⟨r, hr, rfl⟩ := Option.map_eq_some_iff.1 hn
    exact h.output hr
  | segment ti tcp_iss nobufs th_fin =>
    obtain ⟨tp, htp, rfl⟩ := Option.map_eq_some_iff.1 hn
    exact h.tcp_input htp
  | rexmt backoff =>
    obtain ⟨tp, htp, rfl⟩ := Option.map_eq_some_iff.1 hn
    rw [Tcpcb.rexmt] at htp
    split_ifs at htp
    obtain rfl := Option.some.inj htp
    exact h.of rfl (diff_self _).ge h.template
  | persist =>
    simp only [sending] at hn
    cases hp : tcp_setpersist s.tp with
    | none => simp [hp] at hn
    | some r =>
      simp only [hp] at hn
      split_ifs at hn
      obtain rfl := Option.some.inj hn
      exact h.same (same_setpersist hp)
  | keep =>
    simp only [sending] at hn
    split_ifs at hn
    obtain rfl := Option.some.inj hn
    exact h

theorem kept_of_reachable {s : Run} (hs : sending.ReachableIf (fun s a => a.Valid s) s) :
    Kept s.tp :=
  hs.invariant (P := fun s => Kept s.tp) (fun _ => .init) fun _ _ _ h hv hn => h.next hv hn

end AuxKernel.Tcp.Send
