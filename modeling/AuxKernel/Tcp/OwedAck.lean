import AuxKernel.Tcp.FinPlace

/-!
# Acknowledgements that are owed

While `TF_ACKNOW` is set, a call of `tcp_output` is to send an acknowledgement, or to say
why it does not; and no text is to go past the window, or the byte that probes a closed one
(`AckOwed`).

The tests at the head of a pass come before that for `TF_ACKNOW`: after our `FIN` was sent
`snd_nxt` is past what is left to send, and the call returns at once. And a forced call
counts one byte on top of the window whether it is closed or not.

* `ackOwed_iff`: when calls do what they are to do.
-/

namespace AuxKernel.Tcp.Send.Out

open Net

/-- A pass over `tp` acknowledges what is received and clears `TF_ACKNOW`, or returns an error
    and leaves it set. -/
def Result.Acks (tp : Conn) : Result → Prop
  | .panic => False
  | .ret tq error packet => error ≠ 0 ∧ tq.tf_acknow ∨
      (∃ p, packet = some p ∧ p.ti_ack = tp.rcv_nxt ∧ p.th_ack) ∧ ¬ tq.tf_acknow
  | .again tq p => (p.ti_ack = tp.rcv_nxt ∧ p.th_ack) ∧ ¬ tq.tf_acknow

/-- A call acknowledges what it owes, and sends no text past the window or the first byte. -/
structure AckOwed (tp : Conn) (env : ℕ → Env) : Prop where
  acks : tp.tf_acknow → (tp.pass (env 0)).Acks tp
  window : ∀ n tq packet, (tcp_output env).start tp n = some tq →
    (tq.pass (env n)).packet = some packet → packet.text ≠ [] →
      packet.ti_seq.diff tp.snd_una + packet.text.length ≤ max tp.snd_wnd 1

/-- A forced call has a byte to send right after an open window. -/
def Conn.Overruns (tp : Conn) (e : Env) : Prop :=
  tp.t_force ∧ 1 ≤ tp.snd_wnd ∧ tp.snd_wnd < tp.so_snd.sb_cc ∧
    tp.off ≤ tp.snd_wnd ∧ tp.snd_wnd + 1 ≤ tp.off + tp.t_maxseg ∧
    ¬ e.nohdr ∧ ¬ e.nocopy ∧ ¬ (tp.opt.isSome ∧ e.noopt)

/-- `snd_nxt` is not past what can be sent while an acknowledgement is owed, and segments have a
    length; and the call does not overrun the window. -/
def Conn.AckClean (tp : Conn) (e : Env) : Prop :=
  (tp.tf_acknow → 0 ≤ tp.usable tp.t_force ∧ (0 ≤ tp.t_maxseg ∨ e.nohdr)) ∧ ¬ tp.Overruns e

section OwedAck

variable {tp tq : Conn} {e : Env} {env : ℕ → Env}

/-! ## The acknowledgement -/

/-- A segment that is handed over acknowledges what is received. -/
theorem acks_transmit (hs : synchronized tp.t_state) (hack : tp.tf_acknow) (e : Env)
    (text : List UInt8) : (tp.transmit e text).Acks tp := by
  have hout : (tp.packet text).th_ack := by
    change outAck tp.t_state
    cases hst : tp.t_state <;> first | rfl | exact absurd (hst ▸ hs) (by decide)
  rw [Conn.transmit]
  split_ifs with herror
  · exact .inl ⟨herror, hack⟩
  · exact ⟨⟨rfl, hout⟩, by simp [Conn.acked]⟩
  · exact .inr ⟨⟨_, rfl, rfl, hout⟩, by simp [Conn.acked]⟩

/-- An acknowledgement that is owed is a reason to send. -/
theorem wants_of_acknow (hack : tp.tf_acknow) : tp.wants tp.len (tp.call e) := by
  simp [Tcpcb.wants, Conn.call, hack]

/-- Without mbufs the call says so. -/
theorem acks_nobufs (hk : Kept tp.toTcpcb) (hs : synchronized tp.t_state) (hack : tp.tf_acknow)
    (husable : 0 ≤ tp.usable tp.t_force)
    (hno : e.nohdr ∨ 0 ≤ tp.t_maxseg ∧ tp.opt.isSome ∧ e.noopt) : (tp.pass e).Acks tp := by
  have hnobufs : (Result.ret tp ENOBUFS none).Acks tp := .inl ⟨by decide, hack⟩
  rw [Conn.pass, if_neg (not_lt.2 husable), if_pos (wants_of_acknow hack), Conn.send]
  by_cases hhdr : e.nohdr
  · rw [if_pos hhdr]
    exact hnobufs
  rw [if_neg hhdr]
  obtain ⟨hmaxseg, hopt⟩ := hno.resolve_left hhdr
  -- The text is copied before the options are.
  have hcan : tp.CanSend { e with noopt := false } := ⟨husable, hmaxseg, hhdr, by simp⟩
  obtain ⟨text, hsends⟩ := hcan.sends hk (template_of_synchronized hk hs) (wants_of_acknow hack)
  have hcopy : m_copy tp.so_snd.contents tp.off tp.len e.nocopy = some text := hsends.copy
  simp only [hcopy]
  rw [if_neg (not_not.2 hsends.template), if_pos hopt]
  exact hnobufs

/-- An acknowledgement that is owed is sent if and only if the pass gets to it. -/
theorem acks_pass_iff (hk : Kept tp.toTcpcb) (hs : synchronized tp.t_state)
    (hack : tp.tf_acknow) : (tp.pass e).Acks tp ↔
      0 ≤ tp.usable tp.t_force ∧ (0 ≤ tp.t_maxseg ∨ e.nohdr) := by
  constructor
  · intro h
    by_cases husable : 0 ≤ tp.usable tp.t_force
    · refine ⟨husable, ?_⟩
      by_contra hbad
      obtain ⟨hmaxseg, hhdr⟩ := not_or.1 hbad
      -- `m_copy` is told to copy less than nothing.
      have hlen := mt (len_nonneg_iff husable).1 hmaxseg
      have hcopy : m_copy tp.so_snd.contents tp.off tp.len e.nocopy = none := by
        rw [m_copy, if_neg (by omega), if_pos (.inr (.inl (by omega)))]
      rw [Conn.pass, if_neg (not_lt.2 husable), if_pos (wants_of_acknow hack), Conn.send,
        if_neg hhdr, hcopy] at h
      exact h
    · rw [Conn.pass, if_pos (not_le.1 husable)] at h
      rcases h with h | ⟨⟨p, hp, -⟩, -⟩
      · exact absurd rfl h.1
      · exact absurd hp (by simp)
  · rintro ⟨husable, hor⟩
    by_cases hno : e.nohdr ∨ 0 ≤ tp.t_maxseg ∧ tp.opt.isSome ∧ e.noopt
    · exact acks_nobufs hk hs hack husable hno
    · obtain ⟨hhdr, hopt⟩ := not_or.1 hno
      have hmaxseg := hor.resolve_right hhdr
      have hcan : tp.CanSend e := ⟨husable, hmaxseg, hhdr, fun ho => hopt ⟨hmaxseg, ho⟩⟩
      obtain ⟨text, hsends⟩ := hcan.sends hk (template_of_synchronized hk hs) (wants_of_acknow hack)
      rw [hsends.pass]
      exact acks_transmit hs hack e text

/-! ## The window -/

/-- Passes after the first are not forced; what they find is what the first one found. -/
theorem during_start {n : ℕ} (h : (tcp_output env).start tp n = some tq) :
    During tp tq ∧ (n = 0 ∧ tq = tp ∨ ¬ tp.t_force) := by
  induction n generalizing tq with
  | zero =>
    obtain rfl := Option.some.inj h
    exact ⟨.rfl' _, .inl ⟨rfl, rfl⟩⟩
  | succ n ih =>
    obtain ⟨tr, htr, hnext⟩ := Option.bind_eq_some_iff.1 h
    have hd := (ih htr).1
    obtain ⟨text, -, -, -, hforce, -⟩ := next_pass.1 hnext
    exact ⟨hd.trans (during_next hnext), .inr (hd.t_force ▸ hforce)⟩

/-- Text goes to the end of the window, or one byte further if it is forced. -/
theorem text_le {packet : Packet} (h : (tp.pass e).packet = some packet) :
    packet.ti_seq.diff tp.snd_una + packet.text.length ≤
      max (tp.snd_wnd + if tp.t_force then 1 else 0) tp.off := by
  obtain ⟨text, hsends, rfl⟩ := packet_pass.1 h
  have hlength := hsends.length
  have hle := length_le_usable tp.toTcpcb tp.t_force
  have hmin : tp.usable tp.t_force ≤ tp.snd_wnd + (if tp.t_force then 1 else 0) - tp.off :=
    sub_le_sub_right (min_le_right _ _) _
  change tp.off + (text.length : ℤ) ≤ _
  rw [Conn.len] at hlength
  split_ifs at hlength <;> omega

theorem len_le_maxseg (tp : Conn) : tp.len ≤ tp.t_maxseg := by
  rw [Conn.len, Tcpcb.length]
  split_ifs <;> omega

/-- A forced pass puts a byte behind an open window only if it overruns it. -/
theorem window_pass (hc : ¬ tp.Overruns e) {packet : Packet}
    (h : (tp.pass e).packet = some packet) (hne : packet.text ≠ []) :
    packet.ti_seq.diff tp.snd_una + packet.text.length ≤ max tp.snd_wnd 1 := by
  have hle := text_le h
  obtain ⟨text, hsends, rfl⟩ := packet_pass.1 h
  have hpos : 0 < text.length := List.length_pos_iff.2 hne
  change tp.off + (text.length : ℤ) ≤ _ at hle ⊢
  by_contra hgt
  by_cases hforce : tp.t_force
  · rw [if_pos hforce] at hle
    have hend := end_le tp
    have hmaxseg := len_le_maxseg tp
    have hlength := hsends.length
    by_cases hno : e.nocopy
    · rw [if_pos hno] at hlength
      omega
    rw [if_neg hno] at hlength
    exact hc ⟨hforce, by omega, by omega, by omega, by omega, hsends.nohdr, hno, hsends.noopt⟩
  · rw [if_neg hforce] at hle
    omega

/-- A pass that overruns the window sends the byte behind it. -/
theorem Conn.Overruns.sends (h : tp.Overruns e) (hk : Kept tp.toTcpcb)
    (hs : synchronized tp.t_state) : ∃ packet, (tp.pass e).packet = some packet ∧
      packet.text ≠ [] ∧ packet.ti_seq.diff tp.snd_una + packet.text.length = tp.snd_wnd + 1 := by
  obtain ⟨hforce, hopen, hcc, hoff, hmaxseg, hhdr, hcopy, hopt⟩ := h
  have husable : tp.usable tp.t_force = tp.snd_wnd + 1 - tp.off := by
    rw [Tcpcb.usable, if_pos hforce, min_eq_right (by omega)]
  have hlen : tp.len = tp.snd_wnd + 1 - tp.off := by
    rw [Conn.len, Tcpcb.length, husable, if_neg (by omega)]
  have hwants : tp.wants tp.len (tp.call e) := by
    have hne : tp.len ≠ 0 := by omega
    simp [Tcpcb.wants, Conn.call, hne, hforce]
  have hcan : tp.CanSend e := ⟨by omega, by omega, hhdr, hopt⟩
  obtain ⟨text, hsends⟩ := hcan.sends hk (template_of_synchronized hk hs) hwants
  have hlength := hsends.length
  rw [if_neg hcopy, hlen] at hlength
  refine ⟨_, packet_pass.2 ⟨text, hsends, rfl⟩, fun hnil => ?_, ?_⟩
  · rw [show text = [] from hnil, List.length_nil] at hlength
    omega
  · change tp.off + (text.length : ℤ) = _
    omega

/-! ## A call -/

/-- A call does what it is to do if and only if it is clean. -/
theorem ackOwed_iff (hk : Kept tp.toTcpcb) (hs : synchronized tp.t_state) (env : ℕ → Env) :
    AckOwed tp env ↔ tp.AckClean (env 0) := by
  constructor
  · intro h
    refine ⟨fun hack => (acks_pass_iff hk hs hack).1 (h.acks hack), fun hover => ?_⟩
    obtain ⟨packet, hp, hne, hend⟩ := hover.sends hk hs
    have hle := h.window 0 tp packet rfl hp hne
    have hopen := hover.2.1
    omega
  · rintro ⟨hack, hover⟩
    refine ⟨fun ha => (acks_pass_iff hk hs ha).2 (hack ha), fun n tq packet hn hp hne => ?_⟩
    obtain ⟨hd, hfirst⟩ := during_start hn
    have hq : ¬ tq.Overruns (env n) := by
      rcases hfirst with ⟨rfl, rfl⟩ | hforce
      · exact hover
      · exact fun ho => hforce (hd.t_force ▸ ho.1)
    have hle := window_pass hq hp hne
    rw [hd.snd_una, hd.snd_wnd] at hle
    exact hle

end OwedAck

/-! ## An acknowledgement that is not sent -/

/-- The `FIN` of the other side arrives in order: it is to be acknowledged. -/
def Conn.finArrives (tp : Conn) : Conn :=
  { tp with
    toTcpcb := tp.toTcpcb.finReceived
    tf_acknow := if tp.t_state = .timeWait then tp.tf_acknow else true
    rcv_nxt := if tp.t_state = .timeWait then tp.rcv_nxt else tp.rcv_nxt + 1 }

theorem ackOwed_oneByte : AckOwed oneByte.finArrives (fun _ => fine) ↔
    oneByte.finArrives.AckClean fine := by
  have hk : Kept oneByte.finArrives.toTcpcb := ⟨rfl, by decide, by decide, fun _ _ => rfl⟩
  exact ackOwed_iff hk (by decide) fun _ => fine

/-- The user closes after the handshake, and our `FIN` is sent. -/
def finSent : List Act :=
  [.connect 100, .output plain, .segment (synSeg true 101) 0 false false, .close, .output plain]

/-- With our `FIN` outstanding, that of the other side is not acknowledged. -/
theorem not_ackOwed : ¬ ∀ s, sending.ReachableIf (fun s a => a.Valid s) s →
    synchronized s.tp.t_state → AckOwed (quiet s.tp).finArrives fun _ => fine := by
  intro h
  obtain ⟨s, hrun, hs, hack, hpass⟩ : ∃ s,
      sending.runIf (fun s a => a.Valid s) created finSent = some s ∧ synchronized s.tp.t_state ∧
      (quiet s.tp).finArrives.tf_acknow = true ∧
      (quiet s.tp).finArrives.pass fine = .ret (quiet s.tp).finArrives 0 none :=
    ⟨_, rfl, by decide, rfl, rfl⟩
  have hacks := (h s (Machine.reachableIf_runIf (.init init_created) hrun) hs).acks hack
  rw [hpass] at hacks
  rcases hacks with h | ⟨⟨p, hp, -⟩, -⟩
  · exact absurd rfl h.1
  · exact absurd hp (by simp)

end AuxKernel.Tcp.Send.Out
