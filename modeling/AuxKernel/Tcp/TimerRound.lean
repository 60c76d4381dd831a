import AuxKernel.Tcp.Timer

/-!
# A round of the slow timeout

A round of the sweep over the pcbs goes through the timers of one connection. A timer that
goes off may close this connection, and no other; the pcb is then out of the ring, and the
one behind it, which the sweep goes on with, is not.

* `Frame`: a connection does nothing to the others;
* `usrreq_spec`: the timer routine leaves the connection on the ring (`Kept`), or takes it off
  (`Closed`);
* `timers_spec`: what happens to the timers of a connection (`Round`).
-/

namespace AuxKernel.Tcp.Timer

open Send

variable {ω : Type*} {v : Config ω} {k k' k'' : Kernel ω} {ip t : ℕ} {e e' : List Event}

/-- The retransmit and the persist timer are not both set. -/
def Excl (c : Tcpcb) : Prop := c.t_timer TCPT_REXMT = 0 ∨ c.t_timer TCPT_PERSIST = 0

/-- Output does not set one of the two while the other is. -/
def Config.KeepsExcl (v : Config ω) : Prop :=
  ∀ c so w, Excl c → Excl (v.tcp_output c so w).1

/-- A timer with the value `x` goes off when it is decremented. -/
def Expires (x : ℤ) : Prop := x ≠ 0 ∧ toShort (x - 1) = 0

instance (x : ℤ) : Decidable (Expires x) := inferInstanceAs (Decidable (_ ∧ _))

/-- What happens to the timers of a pcb, found with these values. -/
def events (ip : ℕ) (found : List (ℕ × ℤ)) : List Event :=
  found.flatMap fun e => .reach ip e.1 e.2 ::
    ((if e.2 ≠ 0 then [.dec ip e.1] else []) ++ if Expires e.2 then [.call ip e.1] else [])

/-- The values found are those of `T`, up to the first that goes off. -/
def AsFound (T : ℕ → ℤ) : List (ℕ × ℤ) → Prop
  | [] => True
  | e :: l => e.2 = T e.1 ∧ (Expires e.2 ∨ AsFound T l)

/-- The pcb `ip` has the control block `t`, and a socket. -/
structure Live (k : Kernel ω) (ip t : ℕ) : Prop where
  ppcb : (k.inpcb ip).inp_ppcb = some t
  inpcb : (k.tcpcb t).t_inpcb = ip
  so : (k.so (k.inpcb ip).inp_socket).so_pcb = some ip
  excl : Excl (k.tcpcb t)

/-! ## What a connection does to the others -/

/-- Nothing but the connection of `ip` and `t` changed, and the links; `e` happened. -/
structure Frame (k k' : Kernel ω) (ip t : ℕ) (e : List Event) : Prop where
  ppcb : ∀ q ≠ ip, (k'.inpcb q).inp_ppcb = (k.inpcb q).inp_ppcb
  socket : ∀ q, (k'.inpcb q).inp_socket = (k.inpcb q).inp_socket
  tcpcb : ∀ u ≠ t, k'.tcpcb u = k.tcpcb u
  inpcb : (k'.tcpcb t).t_inpcb = (k.tcpcb t).t_inpcb
  so : ∀ s ≠ (k.inpcb ip).inp_socket, (k'.so s).so_pcb = (k.so s).so_pcb
  visited : k'.visited = k.visited
  log : k'.log = k.log ++ e

theorem Frame.trans (h : Frame k k' ip t e) (h' : Frame k' k'' ip t e') :
    Frame k k'' ip t (e ++ e') where
  ppcb q hq := (h'.ppcb q hq).trans (h.ppcb q hq)
  socket q := (h'.socket q).trans (h.socket q)
  tcpcb u hu := (h'.tcpcb u hu).trans (h.tcpcb u hu)
  inpcb := h'.inpcb.trans h.inpcb
  so s hs := (h'.so s ((h.socket ip).symm ▸ hs)).trans (h.so s hs)
  visited := h'.visited.trans h.visited
  log := by rw [h'.log, h.log, List.append_assoc]

/-- A connection that is not that of `ip` is not touched. -/
theorem Frame.live {q u : ℕ} (h : Frame k k' ip t e) (hl : Live k ip t) (hq : Live k q u)
    (hne : q ≠ ip) : Live k' q u := by
  have hu : u ≠ t := fun he => hne (hq.inpcb.symm.trans (he ▸ hl.inpcb))
  have hs : (k.inpcb q).inp_socket ≠ (k.inpcb ip).inp_socket := by
    intro he
    have hso := hq.so
    rw [he, hl.so] at hso
    exact hne (Option.some.inj hso).symm
  refine ⟨(h.ppcb q hne).trans hq.ppcb, ?_, ?_, ?_⟩
  · rw [h.tcpcb u hu, hq.inpcb]
  · rw [h.socket q, h.so _ hs, hq.so]
  · rw [h.tcpcb u hu]
    exact hq.excl

/-- The connection is still there. -/
structure Kept (k k' : Kernel ω) (ip t : ℕ) (e : List Event) : Prop
    extends Frame k k' ip t e where
  links : k'.inpcb = k.inpcb
  sos : ∀ s, (k'.so s).so_pcb = (k.so s).so_pcb
  excl : Excl (k'.tcpcb t)

theorem Kept.trans (h : Kept k k' ip t e) (h' : Kept k' k'' ip t e') :
    Kept k k'' ip t (e ++ e') where
  toFrame := h.toFrame.trans h'.toFrame
  links := h'.links.trans h.links
  sos s := (h'.sos s).trans (h.sos s)
  excl := h'.excl

theorem Kept.live (h : Kept k k' ip t e) (hl : Live k ip t) : Live k' ip t where
  ppcb := by rw [h.links, hl.ppcb]
  inpcb := h.inpcb.trans hl.inpcb
  so := by rw [h.links, h.sos, hl.so]
  excl := h.excl

/-- The control block changes. -/
theorem Kept.setTp {c : Tcpcb} (hc : c.t_inpcb = (k.tcpcb t).t_inpcb) (he : Excl c) :
    Kept k (k.setTp t c) ip t [] where
  ppcb _ _ := rfl
  socket _ := rfl
  tcpcb u hu := k.setTp_ne c hu
  inpcb := by rw [k.setTp_self, hc]
  so _ _ := rfl
  visited := rfl
  log := (List.append_nil _).symm
  links := rfl
  sos _ := rfl
  excl := by rw [k.setTp_self]; exact he

/-- The rest of the kernel changes. -/
theorem Kept.setRest {w : ω} (he : Excl (k.tcpcb t)) : Kept k { k with rest := w } ip t [] :=
  ⟨⟨fun _ _ => rfl, fun _ => rfl, fun _ _ => rfl, rfl, fun _ _ => rfl, rfl,
    (List.append_nil _).symm⟩, rfl, fun _ => rfl, he⟩

/-- An error is noted at a socket. -/
theorem Kept.setError {s : ℕ} {error : ℤ} (he : Excl (k.tcpcb t)) :
    Kept k (k.setSo s { k.so s with so_error := error }) ip t [] := by
  have hso : ∀ r, ((k.setSo s { k.so s with so_error := error }).so r).so_pcb
      = (k.so r).so_pcb := by
    intro r
    by_cases hr : r = s
    · rw [hr, k.setSo_self]
    · rw [k.setSo_ne _ hr]
  exact ⟨⟨fun _ _ => rfl, fun _ => rfl, fun _ _ => rfl, rfl, fun r _ => hso r, rfl,
    (List.append_nil _).symm⟩, rfl, hso, he⟩

/-- The connection is closed, and its pcb out of the ring. -/
structure Closed (k k' : Kernel ω) (ip t : ℕ) (e : List Event) : Prop
    extends Frame k k' ip t e where
  gone : (k'.inpcb ip).inp_ppcb = none
  next : ∀ q, (k'.inpcb q).inp_next =
    if (k.inpcb ip).inp_prev = some q then (k.inpcb ip).inp_next else (k.inpcb q).inp_next
  prev : ∀ q, (k'.inpcb q).inp_prev =
    if (k.inpcb ip).inp_next = some q then (k.inpcb ip).inp_prev else (k.inpcb q).inp_prev

theorem Closed.after (h : Kept k k' ip t e) (h' : Closed k' k'' ip t e') :
    Closed k k'' ip t (e ++ e') where
  toFrame := h.toFrame.trans h'.toFrame
  gone := h'.gone
  next q := by rw [h'.next q, h.links]
  prev q := by rw [h'.prev q, h.links]

/-! ## The functions -/

/-- A pcb is taken out of the ring by changing the two links that lead to it. -/
theorem remque_spec {p q : ℕ} (hp : (k.inpcb ip).inp_prev = some p)
    (hq : (k.inpcb ip).inp_next = some q) :
    remque ip k = some { k with inpcb := fun x => { k.inpcb x with
      inp_next := if p = x then some q else (k.inpcb x).inp_next
      inp_prev := if q = x then some p else (k.inpcb x).inp_prev } } := by
  obtain ⟨g, hg⟩ : ∃ g, g = Function.update k.inpcb p { k.inpcb p with inp_next := some q } :=
    ⟨_, rfl⟩
  have hgp : ∀ x, g x =
      { k.inpcb x with inp_next := if p = x then some q else (k.inpcb x).inp_next } := by
    intro x
    by_cases hx : p = x
    · rw [hg, ← hx, Function.update_self, if_pos rfl]
    · rw [hg, Function.update_of_ne fun he => hx he.symm, if_neg hx]
  have hgnext : (g ip).inp_next = some q := by
    rw [hgp]
    dsimp only
    by_cases he : p = ip
    · rw [if_pos he]
    · rw [if_neg he, hq]
  have hgprev : (g ip).inp_prev = some p := by rw [hgp, hp]
  rw [remque, hp, Option.map_some, hq]
  dsimp only
  rw [k.setPcb_inpcb, ← hg, hgnext]
  dsimp only
  rw [hgprev]
  refine congrArg some ?_
  rw [Kernel.setPcb, Kernel.setPcb, ← hg]
  congr 1
  funext x
  by_cases hx : q = x
  · rw [← hx, Function.update_self, hgp, if_pos rfl]
  · rw [Function.update_of_ne fun he => hx he.symm]
    exact (hgp x).trans (by rw [if_neg hx])

/-- Closing a connection takes its pcb out of the ring. -/
theorem tcp_close_spec {p q : ℕ} (hl : Live k ip t) (hp : (k.inpcb ip).inp_prev = some p)
    (hq : (k.inpcb ip).inp_next = some q) :
    ∃ k', tcp_close v t k = some k' ∧ Closed k k' ip t [] := by
  obtain ⟨s, hs⟩ : ∃ s, s = (k.inpcb ip).inp_socket := ⟨_, rfl⟩
  obtain ⟨f, hf⟩ : ∃ f, f = Function.update k.inpcb ip { k.inpcb ip with inp_ppcb := none } :=
    ⟨_, rfl⟩
  have hfx : ∀ x, f x =
      { k.inpcb x with inp_ppcb := if x = ip then none else (k.inpcb x).inp_ppcb } := by
    intro x
    by_cases hx : x = ip
    · rw [hf, hx, Function.update_self, if_pos rfl]
    · rw [hf, Function.update_of_ne hx, if_neg hx]
  rw [tcp_close, hl.inpcb, in_pcbdetach]
  refine ⟨_, remque_spec (p := p) (q := q) ?_ ?_, ⟨⟨fun x hx => ?_, fun x => ?_, fun _ _ => rfl,
    rfl, fun r hr => ?_, rfl, (List.append_nil _).symm⟩, ?_, fun x => ?_, fun x => ?_⟩⟩
  · rw [Kernel.setSo, k.setPcb_inpcb, ← hf, hfx, hp]
  · rw [Kernel.setSo, k.setPcb_inpcb, ← hf, hfx, hq]
  all_goals dsimp only [Kernel.setSo, k.setPcb_inpcb]
  · rw [← hf, hfx, if_neg hx]
  · rw [← hf, hfx]
  · rw [Function.update_of_ne (by rwa [← hf, hfx, ← hs] at *)]
    rfl
  · rw [← hf, hfx, if_pos rfl]
  · rw [← hf, hfx, hp, hq]
    simp only [Option.some.injEq]
  · rw [← hf, hfx, hp, hq]
    simp only [Option.some.injEq]

variable (hout : v.KeepsExcl)

include hout

theorem output_kept (he : Excl (k.tcpcb t)) : Kept k (tcp_output v t k) ip t [] := by
  obtain ⟨r, hr⟩ : ∃ r, r = v.tcp_output (k.tcpcb t) (k.so (k.socketOf t)) k.rest := ⟨_, rfl⟩
  have hexcl : Excl { r.1 with t_inpcb := (k.tcpcb t).t_inpcb } :=
    hr ▸ hout (k.tcpcb t) (k.so (k.socketOf t)) k.rest he
  have hkept : Kept k (k.setTp t { r.1 with t_inpcb := (k.tcpcb t).t_inpcb }) ip t [] :=
    Kept.setTp rfl hexcl
  rw [tcp_output, ← hr]
  exact hkept.trans (Kept.setRest hkept.excl)

/-- Dropping a connection closes it. -/
theorem tcp_drop_spec {p q : ℕ} (hl : Live k ip t) (hp : (k.inpcb ip).inp_prev = some p)
    (hq : (k.inpcb ip).inp_next = some q) (errno : ℤ) :
    ∃ k', tcp_drop v t errno k = some k' ∧ Closed k k' ip t [] := by
  obtain ⟨k₁, hk₁, hkept₁⟩ : ∃ k₁, k₁ = (if haveRcvdSyn (k.tcpcb t).t_state then
      tcp_output v t (k.setTp t { k.tcpcb t with t_state := .closed }) else k) ∧
      Kept k k₁ ip t [] := by
    refine ⟨_, rfl, ?_⟩
    by_cases hsyn : haveRcvdSyn (k.tcpcb t).t_state = true
    · rw [if_pos hsyn]
      have hset : Kept k (k.setTp t { k.tcpcb t with t_state := .closed }) ip t [] :=
        Kept.setTp rfl hl.excl
      exact hset.trans (output_kept hout hset.excl)
    · rw [if_neg hsyn]
      exact Kept.setRest hl.excl
  have hkept : Kept k (k₁.setSo (k.socketOf t) { k₁.so (k.socketOf t) with so_error := errno })
      ip t [] := hkept₁.trans (Kept.setError hkept₁.excl)
  obtain ⟨k', hk', hclosed⟩ := tcp_close_spec (v := v) (hkept.live hl) (p := p) (q := q)
    (by rw [hkept.links, hp]) (by rw [hkept.links, hq])
  refine ⟨k', ?_, Closed.after hkept hclosed⟩
  rw [tcp_drop, ← hk₁]
  exact hk'

/-- The timer routine: the connection is still there, or it is closed. -/
theorem usrreq_spec {p q i : ℕ} (hl : Live k ip t) (hp : (k.inpcb ip).inp_prev = some p)
    (hq : (k.inpcb ip).inp_next = some q)
    (hrexmt : i = TCPT_REXMT → (k.tcpcb t).t_timer TCPT_PERSIST = 0)
    (hpersist : i = TCPT_PERSIST → (k.tcpcb t).t_timer TCPT_REXMT = 0) :
    ∃ k', tcp_usrreq v (k.socketOf t) i k = some k' ∧
      (Kept k k' ip t [] ∨ Closed k k' ip t []) := by
  have hso : (k.so (k.socketOf t)).so_pcb = some ip := by rw [Kernel.socketOf, hl.inpcb, hl.so]
  simp only [tcp_usrreq, hso, hl.ppcb, Option.bind_some]
  rw [tcp_timers]
  by_cases h2 : i = TCPT_2MSL
  · obtain ⟨k', hk', h'⟩ := tcp_close_spec (v := v) hl hp hq
    rw [if_pos h2]
    exact ⟨k', hk', .inr h'⟩
  rw [if_neg h2]
  by_cases h0 : i = TCPT_REXMT
  · rw [if_pos h0, timerRexmt]
    dsimp only
    by_cases hmax : (k.tcpcb t).t_rxtshift + 1 > TCP_MAXRXTSHIFT
    · have hset : Kept k (k.setTp t
          { k.tcpcb t with t_rxtshift := (k.tcpcb t).t_rxtshift + 1 }) ip t [] :=
        Kept.setTp rfl hl.excl
      obtain ⟨k', hk', h'⟩ := tcp_drop_spec hout (hset.live hl) hp hq ETIMEDOUT
      rw [if_pos hmax]
      exact ⟨k', hk', .inr (Closed.after hset h')⟩
    · rw [if_neg hmax]
      refine ⟨_, rfl, .inl ?_⟩
      have hset : ∀ c : Tcpcb, c.t_inpcb = (k.tcpcb t).t_inpcb → c.t_timer TCPT_PERSIST = 0 →
          Kept k (tcp_output v t (k.setTp t c)) ip t [] := by
        intro c hc hzero
        have hset : Kept k (k.setTp t c) ip t [] := Kept.setTp hc (.inr hzero)
        exact hset.trans (output_kept hout hset.excl)
      have hne : ∀ (c : Tcpcb) x, (c.setTimer TCPT_REXMT x).t_timer TCPT_PERSIST
          = c.t_timer TCPT_PERSIST := fun c x => c.setTimer_ne x (by decide)
      refine hset _ rfl ?_
      dsimp only
      rw [hne]
      exact hrexmt h0
  rw [if_neg h0]
  by_cases h1 : i = TCPT_PERSIST
  · have hzero := hpersist h1
    obtain ⟨r, hr, hrc, hrz⟩ : ∃ r, tcp_setpersist (k.tcpcb t) = some r ∧
        r.1.t_inpcb = (k.tcpcb t).t_inpcb ∧ r.1.t_timer TCPT_REXMT = 0 := by
      rw [tcp_setpersist, if_neg (not_not_intro hzero)]
      have hz : ∀ x, ((k.tcpcb t).setTimer TCPT_PERSIST x).t_timer TCPT_REXMT = 0 := fun x =>
        ((k.tcpcb t).setTimer_ne x (by decide)).trans hzero
      dsimp only
      split
      · refine ⟨_, rfl, rfl, ?_⟩
        dsimp only
        exact hz _
      · refine ⟨_, rfl, rfl, ?_⟩
        dsimp only
        exact hz _
    rw [if_pos h1, timerPersist, hr, Option.bind_some]
    dsimp only
    by_cases hgive : r.2 = true ∧ r.1.t_state = .lastAck
    · have hset : Kept k (k.setTp t r.1) ip t [] := Kept.setTp hrc (.inl hrz)
      obtain ⟨k', hk', h'⟩ := tcp_drop_spec hout (hset.live hl) hp hq ETIMEDOUT
      rw [if_pos hgive]
      exact ⟨k', hk', .inr (Closed.after hset h')⟩
    · rw [if_neg hgive]
      refine ⟨_, rfl, .inl ?_⟩
      have hset : Kept k ((k.setTp t r.1).setTp t { r.1 with t_force := true }) ip t [] :=
        (Kept.setTp hrc (.inl hrz)).trans (Kept.setTp (by rw [Kernel.setTp_self]) (.inl hrz))
      have hsent := hset.trans (output_kept hout hset.excl)
      exact hsent.trans (Kept.setTp rfl hsent.excl)
  rw [if_neg h1]
  by_cases h3 : i = TCPT_KEEP
  · rw [if_pos h3, timerKeep]
    dsimp only
    by_cases hest : (k.tcpcb t).t_state.num < TcpState.established.num
    · obtain ⟨k', hk', h'⟩ := tcp_drop_spec hout hl hp hq ETIMEDOUT
      rw [if_pos hest]
      exact ⟨k', hk', .inr h'⟩
    rw [if_neg hest]
    -- the timers that exclude each other are not touched
    obtain ⟨c, hc, hci, hce⟩ : ∃ c, c = (if (k.tcpcb t).t_state = .finWait2 ∧
        (k.tcpcb t).t_timer TCPT_2MSL = 0 ∧ (k.so (k.socketOf t)).so_nofdref = true then
        (k.tcpcb t).setTimer TCPT_2MSL TCPTV_MSL else k.tcpcb t) ∧
        c.t_inpcb = (k.tcpcb t).t_inpcb ∧ Excl c := by
      refine ⟨_, rfl, ?_⟩
      split
      · exact ⟨rfl, hl.excl.imp ((Tcpcb.setTimer_ne _ _ (by decide)).trans ·)
          ((Tcpcb.setTimer_ne _ _ (by decide)).trans ·)⟩
      · exact ⟨rfl, hl.excl⟩
    have hkeep : ∀ c : Tcpcb, Excl c → Excl (c.setTimer TCPT_KEEP TCPTV_KEEP) := fun c h =>
      h.imp ((c.setTimer_ne _ (by decide)).trans ·) ((c.setTimer_ne _ (by decide)).trans ·)
    rw [← hc]
    by_cases halive : (k.so (k.socketOf t)).so_keepalive = true
    · rw [if_pos halive]
      by_cases hidle : c.t_idle ≥ TCPTV_MAXIDLE
      · have hset : Kept k (k.setTp t c) ip t [] := Kept.setTp hci hce
        obtain ⟨k', hk', h'⟩ := tcp_drop_spec hout (hset.live hl) hp hq ETIMEDOUT
        rw [if_pos hidle]
        exact ⟨k', hk', .inr (Closed.after hset h')⟩
      · rw [if_neg hidle]
        have hset : Kept k (k.setTp t (c.setTimer TCPT_KEEP TCPTV_KEEP)) ip t [] :=
          Kept.setTp hci (hkeep c hce)
        exact ⟨_, rfl, .inl (hset.trans (Kept.setRest hset.excl))⟩
    · rw [if_neg halive]
      exact ⟨_, rfl, .inl (Kept.setTp hci (hkeep _ hce))⟩
  · rw [if_neg h3]
    exact ⟨k, rfl, .inl (Kept.setRest hl.excl)⟩

/-! ## The timers of a connection -/

omit hout in
/-- The event is noted. -/
theorem Kept.note (he : Excl (k.tcpcb t)) (a : Event) :
    Kept k { k with log := k.log ++ [a] } ip t [a] :=
  ⟨⟨fun _ _ => rfl, fun _ => rfl, fun _ _ => rfl, rfl, fun _ _ => rfl, rfl, rfl⟩, rfl,
    fun _ => rfl, he⟩

/-- What a sweep makes of a timer that does not go off. -/
def decr (x : ℤ) : ℤ := if x = 0 then 0 else toShort (x - 1)

/-- The round went through the timers `l`, and found `found`: the connection is still there, or
    it was closed by one of them. -/
structure Round (k k' : Kernel ω) (ip t : ℕ) (l : List ℕ) (found : List (ℕ × ℤ)) (gone : Bool) :
    Prop where
  kept : gone = false → Kept k k' ip t (events ip found) ∧ found.map Prod.fst = l
  closed : gone = true → Closed k k' ip t (events ip found) ∧ found.map Prod.fst <+: l
  found : AsFound (k.tcpcb t).t_timer found
  quiet : (∀ i ∈ l, ¬Expires ((k.tcpcb t).t_timer i)) → gone = false ∧ ∀ i,
    (k'.tcpcb t).t_timer i =
      if i ∈ l then decr ((k.tcpcb t).t_timer i) else (k.tcpcb t).t_timer i

omit hout in
/-- A timer is found and left, or decremented, in `k₁`; the others follow. -/
theorem Round.cons {k₁ : Kernel ω} {i : ℕ} {l : List ℕ} {found : List (ℕ × ℤ)} {gone : Bool}
    (hk : Kept k k₁ ip t (events ip [(i, (k.tcpcb t).t_timer i)])) (hi : i ∉ l)
    (hx : ¬Expires ((k.tcpcb t).t_timer i))
    (ht : ∀ j, (k₁.tcpcb t).t_timer j =
      if j = i then decr ((k.tcpcb t).t_timer i) else (k.tcpcb t).t_timer j)
    (h : Round k₁ k' ip t l found gone) :
    Round k k' ip t (i :: l) ((i, (k.tcpcb t).t_timer i) :: found) gone := by
  have hother : ∀ j ∈ l, (k₁.tcpcb t).t_timer j = (k.tcpcb t).t_timer j := by
    intro j hj
    have hji : j ≠ i := fun he => hi (he ▸ hj)
    rw [ht, if_neg hji]
  have hevents : events ip ((i, (k.tcpcb t).t_timer i) :: found)
      = events ip [(i, (k.tcpcb t).t_timer i)] ++ events ip found := by simp [events]
  have hpre : found.map Prod.fst <+: l := by
    cases gone with
    | false => exact (h.kept rfl).2 ▸ List.prefix_rfl
    | true => exact (h.closed rfl).2
  refine ⟨fun hg => ⟨?_, ?_⟩, fun hg => ⟨?_, ?_⟩, ⟨rfl, .inr ?_⟩, fun hq => ?_⟩
  · rw [hevents]
    exact hk.trans (h.kept hg).1
  · rw [List.map_cons, (h.kept hg).2]
  · rw [hevents]
    exact Closed.after hk (h.closed hg).1
  · exact (List.prefix_cons_inj _).2 (h.closed hg).2
  · -- the timers behind `i` are as they were
    have hsub : ∀ e ∈ found, e.1 ∈ l := fun e he =>
      hpre.subset (List.mem_map_of_mem he)
    have hfound := h.found
    clear hevents hpre h
    induction found with
    | nil => trivial
    | cons e found ih =>
      refine ⟨hfound.1.trans (hother _ (hsub e List.mem_cons_self)), hfound.2.imp id fun h => ?_⟩
      exact ih (fun e he => hsub e (List.mem_cons_of_mem _ he)) h
  · have hq₁ : ∀ j ∈ l, ¬Expires ((k₁.tcpcb t).t_timer j) := fun j hj => by
      rw [hother j hj]
      exact hq j (List.mem_cons_of_mem i hj)
    obtain ⟨hg, hfinal⟩ := h.quiet hq₁
    refine ⟨hg, fun j => ?_⟩
    rw [hfinal j]
    by_cases hj : j ∈ l
    · rw [if_pos hj, if_pos (List.mem_cons_of_mem i hj), hother j hj]
    · by_cases hji : j = i
      · rw [if_neg hj, hji, if_pos List.mem_cons_self, ht, if_pos rfl]
      · rw [if_neg hj, if_neg (by simp [hj, hji]), ht, if_neg hji]

omit hout in
/-- A timer goes off, and the connection is still there in `k₁`; the others follow. -/
theorem Round.off {k₁ : Kernel ω} {i : ℕ} {l : List ℕ} {found : List (ℕ × ℤ)} {gone : Bool}
    (hk : Kept k k₁ ip t (events ip [(i, (k.tcpcb t).t_timer i)]))
    (hx : Expires ((k.tcpcb t).t_timer i)) (h : Round k₁ k' ip t l found gone) :
    Round k k' ip t (i :: l) ((i, (k.tcpcb t).t_timer i) :: found) gone := by
  have hevents : events ip ((i, (k.tcpcb t).t_timer i) :: found)
      = events ip [(i, (k.tcpcb t).t_timer i)] ++ events ip found := by simp [events]
  refine ⟨fun hg => ⟨?_, ?_⟩, fun hg => ⟨?_, ?_⟩, ⟨rfl, .inl hx⟩, fun hq => ?_⟩
  · rw [hevents]
    exact hk.trans (h.kept hg).1
  · rw [List.map_cons, (h.kept hg).2]
  · rw [hevents]
    exact Closed.after hk (h.closed hg).1
  · exact (List.prefix_cons_inj _).2 (h.closed hg).2
  · exact absurd hx (hq i List.mem_cons_self)

/-- One round of the sweep: what happens to the timers of a connection. -/
theorem timers_spec {p q : ℕ} {l : List ℕ} (hl : Live k ip t)
    (hp : (k.inpcb ip).inp_prev = some p) (hq : (k.inpcb ip).inp_next = some q)
    (hback : (k.inpcb q).inp_prev = some ip) (hpi : p ≠ ip) (hnd : l.Nodup) :
    ∃ k' gone found, timers v ip q t l k = some (k', gone) ∧ Round k k' ip t l found gone := by
  induction l generalizing k with
  | nil =>
    refine ⟨k, false, [], rfl, fun _ => ⟨Kept.setRest hl.excl, rfl⟩, fun h => ?_, trivial,
      fun _ => ⟨rfl, fun i => ?_⟩⟩
    · exact absurd h Bool.false_ne_true
    · rw [if_neg List.not_mem_nil]
  | cons i l ih =>
    obtain ⟨hi, hnd⟩ := List.nodup_cons.1 hnd
    obtain ⟨x, hx⟩ : ∃ x, x = (k.tcpcb t).t_timer i := ⟨_, rfl⟩
    have hreach : Kept k { k with log := k.log ++ [.reach ip i x] } ip t [.reach ip i x] :=
      Kept.note hl.excl _
    rw [timers, ← hx]
    dsimp only
    by_cases hzero : x = 0
    · -- it is not set
      rw [if_pos hzero]
      obtain ⟨k', gone, found, htimers, hround⟩ := ih (hreach.live hl) hp hq hback hnd
      have hexp : ¬Expires x := fun h => h.1 hzero
      have hev : events ip [(i, x)] = [.reach ip i x] := by simp [events, hzero, Expires]
      refine ⟨k', gone, _, htimers, Round.cons (hx ▸ hev ▸ hreach) hi (hx ▸ hexp)
        (fun j => ?_) hround⟩
      by_cases hj : j = i
      · rw [if_pos hj, ← hx, hzero, hj, ← hx, hzero]
        rfl
      · rw [if_neg hj]
    rw [if_neg hzero]
    -- it is decremented
    obtain ⟨c, hc⟩ : ∃ c, c = (k.tcpcb t).setTimer i (toShort (x - 1)) := ⟨_, rfl⟩
    have hcexcl : Excl c := by
      rw [hc]
      refine hl.excl.imp (fun h => ?_) fun h => ?_
      · rw [Tcpcb.setTimer_ne _ _ fun he => hzero ?_]
        · exact h
        · rw [hx, ← he, h]
      · rw [Tcpcb.setTimer_ne _ _ fun he => hzero ?_]
        · exact h
        · rw [hx, ← he, h]
    have hset := (hreach.trans (Kept.setTp (c := c) (by rw [hc]; rfl) hcexcl))
    have hdec := hset.trans (Kept.note hset.excl (.dec ip i))
    rw [← hc]
    by_cases hexp : toShort (x - 1) = 0
    swap
    · rw [if_pos hexp]
      obtain ⟨k', gone, found, htimers, hround⟩ := ih (hdec.live hl)
        (by rw [hdec.links, hp]) (by rw [hdec.links, hq]) (by rw [hdec.links, hback]) hnd
      have hne : ¬Expires x := fun h => hexp h.2
      have hev : events ip [(i, x)] = [.reach ip i x, .dec ip i] := by
        simp [events, hzero, hne]
      refine ⟨k', gone, _, htimers, Round.cons (hx ▸ hev ▸ hdec) hi (hx ▸ hne)
        (fun j => ?_) hround⟩
      have htp : (k.setTp t c).tcpcb t = c := k.setTp_self t c
      show ((k.setTp t c).tcpcb t).t_timer j = _
      rw [htp, hc]
      by_cases hj : j = i
      · rw [hj, Tcpcb.setTimer_self, if_pos rfl, decr, ← hx, if_neg hzero]
      · rw [Tcpcb.setTimer_ne _ _ hj, if_neg hj]
    · -- it goes off
      rw [if_neg (not_not_intro hexp)]
      have hcall := hdec.trans (Kept.note hdec.excl (.call ip i))
      have hexpx : Expires x := ⟨hzero, hexp⟩
      have hev : events ip [(i, x)] = [.reach ip i x, .dec ip i, .call ip i] := by
        simp [events, hzero, hexpx]
      have hother : ∀ j ≠ i, ((k.setTp t c).tcpcb t).t_timer j = (k.tcpcb t).t_timer j := by
        intro j hj
        rw [k.setTp_self, hc, Tcpcb.setTimer_ne _ _ hj]
      obtain ⟨k₁, husrreq, h₁⟩ := usrreq_spec (i := i) hout (hcall.live hl)
        (by rw [hcall.links, hp]) (by rw [hcall.links, hq])
        (fun he => (hother _ (by rw [he]; decide)).trans
          (hl.excl.resolve_left fun h => hzero (by rw [hx, he, h])))
        (fun he => (hother _ (by rw [he]; decide)).trans
          (hl.excl.resolve_right fun h => hzero (by rw [hx, he, h])))
      rcases h₁ with hkept | hclosed
      · have h := hcall.trans hkept
        have hqk : (k₁.inpcb q).inp_prev = some ip := by rw [h.links, hback]
        obtain ⟨k', gone, found, htimers, hround⟩ := ih (h.live hl)
          (by rw [h.links, hp]) (by rw [h.links, hq]) hqk hnd
        exact ⟨k', gone, _, Option.bind_eq_some_iff.2 ⟨k₁, husrreq,
          (if_neg (not_not_intro hqk)).trans htimers⟩,
          Round.off (hx ▸ hev ▸ h) (hx ▸ hexpx) hround⟩
      · have h := Closed.after hcall hclosed
        have hqk : (k₁.inpcb q).inp_prev ≠ some ip := by
          rw [h.prev, if_pos hq, hp]
          exact fun he => hpi (Option.some.inj he)
        refine ⟨k₁, true, [(i, x)], Option.bind_eq_some_iff.2 ⟨k₁, husrreq, if_pos hqk⟩,
          fun hg => absurd hg.symm Bool.false_ne_true, fun _ => ⟨hev ▸ h, ?_⟩,
          ⟨hx, .inl hexpx⟩, fun hquiet => ?_⟩
        · exact ⟨l, rfl⟩
        · exact absurd (hx ▸ hexpx) (hquiet i List.mem_cons_self)

end AuxKernel.Tcp.Timer
