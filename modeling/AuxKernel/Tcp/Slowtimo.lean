import AuxKernel.Tcp.TimerRound

/-!
# The sweep of the slow timeout

* `visit_spec`: a round visits one pcb, which stays on the ring or not, and goes on behind it;
* `sweep_spec`: the pcbs are visited in turn, each once, as far as they have a control block;
* `sweep_stuck`: a round that finds none goes to the same pcb again, for ever;
* `swept_iff`: so the sweep ends, and has decremented each live timer once and called the timer
  routine for those that reached zero, if and only if all pcbs have one.
-/

namespace AuxKernel.Tcp.Timer

open Send

variable {ω : Type*} {v : Config ω} {k k' k₁ : Kernel ω} {ip t : ℕ} {pre a b : List ℕ}

/-- The pcbs `l` are on the ring behind the head, in this order. -/
structure OnRing (v : Config ω) (k : Kernel ω) (l : List ℕ) : Prop where
  nodup : (v.tcb :: l).Nodup
  ring : Looped (fun x => (k.inpcb x).inp_next) (fun x => (k.inpcb x).inp_prev) v.tcb v.tcb l

/-- The first of the pcbs, or the head behind all of them. -/
def Config.first (v : Config ω) (l : List ℕ) : ℕ := l.head?.getD v.tcb

/-- A pcb with the control block `t` was visited: of its timers, those of `found` were come
    to, with the values that they had; all of them unless the connection was closed. A
    connection with no timer that goes off keeps its control block, with its timers
    decremented. -/
structure Visit (k k₁ : Kernel ω) (ip t : ℕ) (found : List (ℕ × ℤ)) : Prop where
  reached : found.map Prod.fst <+: List.range TCPT_NTIMERS
  all : (k₁.inpcb ip).inp_ppcb ≠ none → found.map Prod.fst = List.range TCPT_NTIMERS
  found : AsFound (k.tcpcb t).t_timer found
  quiet : (∀ i < TCPT_NTIMERS, ¬Expires ((k.tcpcb t).t_timer i)) →
    (k₁.inpcb ip).inp_ppcb = some t ∧
    ∀ i < TCPT_NTIMERS, (k₁.tcpcb t).t_timer i = decr ((k.tcpcb t).t_timer i)

theorem OnRing.links (h : OnRing v k (pre ++ ip :: b)) :
    (k.inpcb ip).inp_prev = some (pre.getLast?.getD v.tcb) ∧
    (k.inpcb ip).inp_next = some (v.first b) ∧
    (k.inpcb (v.first b)).inp_prev = some ip ∧ pre.getLast?.getD v.tcb ≠ ip ∧ ip ≠ v.tcb := by
  obtain ⟨htcb, hnd⟩ := List.nodup_cons.1 h.nodup
  have hip : ip ≠ v.tcb := fun he => htcb (he ▸ by simp)
  refine ⟨h.ring.prev_eq, h.ring.next_eq, h.ring.prev_next, fun he => ?_, hip⟩
  cases hlast : pre.getLast? with
  | none =>
    rw [hlast] at he
    exact hip he.symm
  | some x =>
    rw [hlast] at he
    have hx : x ∈ pre := List.mem_of_getLast? hlast
    exact (List.nodup_append.1 hnd).2.2 x hx ip List.mem_cons_self he

theorem OnRing.closed {found : List Event} (h : OnRing v k (pre ++ ip :: b))
    (hc : Closed k k' ip t found) : OnRing v k' (pre ++ b) := by
  have hsub : (pre ++ b).Sublist (pre ++ ip :: b) :=
    List.Sublist.append_left (List.sublist_cons_self ip b) pre
  refine ⟨h.nodup.sublist (hsub.cons_cons v.tcb), h.ring.remove h.nodup ?_ (fun x _ => hc.next x)
    fun x _ => hc.prev x⟩
  exact (List.nodup_cons.1 h.nodup).1

theorem OnRing.kept {found : List Event} (h : OnRing v k (pre ++ ip :: b))
    (hc : Kept k k' ip t found) : OnRing v k' ((pre ++ [ip]) ++ b) := by
  rw [List.append_assoc]
  refine ⟨h.nodup, ?_⟩
  rw [hc.links]
  exact h.ring

/-- A round visits a pcb that has a control block, and goes on with the one behind it. -/
theorem visit_spec (hout : v.KeepsExcl) (hr : OnRing v k (pre ++ ip :: b)) (hl : Live k ip t) :
    ∃ k₁ pre' found, (∀ n, sweep v (n + 1) (some ip) k = sweep v n (some (v.first b)) k₁) ∧
      OnRing v k₁ (pre' ++ b) ∧
      Frame { k with visited := k.visited ++ [ip] } k₁ ip t (events ip found) ∧
      Visit k k₁ ip t found := by
  obtain ⟨hp, hq, hback, hpi, hip⟩ := hr.links
  obtain ⟨k₀, hk₀⟩ : ∃ k₀, k₀ = { k with visited := k.visited ++ [ip] } := ⟨_, rfl⟩
  have hl₀ : Live k₀ ip t := hk₀ ▸ ⟨hl.ppcb, hl.inpcb, hl.so, hl.excl⟩
  have hr₀ : OnRing v k₀ (pre ++ ip :: b) := hk₀ ▸ ⟨hr.nodup, hr.ring⟩
  have ht₀ : k₀.tcpcb = k.tcpcb := by rw [hk₀]
  obtain ⟨k', gone, found, htimers, hround⟩ := timers_spec hout hl₀
    (by rw [hk₀]; exact hp) (by rw [hk₀]; exact hq) (by rw [hk₀]; exact hback) hpi
    (List.nodup_range (n := TCPT_NTIMERS))
  have hstep : ∀ n, sweep v (n + 1) (some ip) k
      = sweep v n (some (v.first b)) (if gone then k' else idle t k') := by
    intro n
    rw [sweep, if_neg hip]
    simp only [hl.ppcb, hq, Option.bind_some, ← hk₀, htimers]
  have hidle : ∀ i, ((idle t k').tcpcb t).t_timer i = (k'.tcpcb t).t_timer i := by
    intro i
    rw [idle, Kernel.setTp_self]
  cases gone with
  | false =>
    obtain ⟨hkept, hfst⟩ := hround.kept rfl
    have hkept' : Kept k₀ (idle t k') ip t (events ip found ++ []) :=
      hkept.trans (Kept.setTp rfl hkept.excl)
    rw [List.append_nil] at hkept'
    refine ⟨idle t k', pre ++ [ip], found, hstep, hr₀.kept hkept', hk₀ ▸ hkept'.toFrame,
      hfst ▸ List.prefix_rfl, fun _ => hfst, ht₀ ▸ hround.found, fun hquiet => ?_⟩
    obtain ⟨-, hfinal⟩ := hround.quiet fun i hi => ht₀ ▸ hquiet i (List.mem_range.1 hi)
    refine ⟨(hkept'.live hl₀).ppcb, fun i hi => ?_⟩
    rw [hidle, hfinal, if_pos (List.mem_range.2 hi), ht₀]
  | true =>
    obtain ⟨hclosed, hfst⟩ := hround.closed rfl
    refine ⟨k', pre, found, hstep, hr₀.closed hclosed, hk₀ ▸ hclosed.toFrame, hfst,
      fun hne => absurd hclosed.gone hne, ht₀ ▸ hround.found, fun hquiet => ?_⟩
    obtain ⟨hfalse, -⟩ := hround.quiet fun i hi => ht₀ ▸ hquiet i (List.mem_range.1 hi)
    exact absurd hfalse.symm Bool.false_ne_true

/-- All pcbs of `l` were visited, in this order, each once. -/
structure Swept (k k' : Kernel ω) (l : List ℕ) (found : ℕ → List (ℕ × ℤ)) : Prop where
  visited : k'.visited = k.visited ++ l
  log : k'.log = k.log ++ l.flatMap fun ip => events ip (found ip)
  visit : ∀ ip ∈ l, ∀ t, (k.inpcb ip).inp_ppcb = some t → Visit k k' ip t (found ip)

/-- The pcbs `a` are visited in turn, and those behind them are not touched. -/
theorem sweep_spec (hout : v.KeepsExcl) (hr : OnRing v k (pre ++ (a ++ b)))
    (hl : ∀ ip ∈ a, ∃ t, Live k ip t) :
    ∃ k' found, (∀ n, sweep v (a.length + n) (some (v.first (a ++ b))) k
        = sweep v n (some (v.first b)) k') ∧
      Swept k k' a found ∧ (∀ q ∉ a, (k'.inpcb q).inp_ppcb = (k.inpcb q).inp_ppcb) ∧
      ∀ u, (∀ ip ∈ a, ¬Live k ip u) → k'.tcpcb u = k.tcpcb u := by
  induction a generalizing k pre with
  | nil =>
    refine ⟨k, fun _ => [], fun n => ?_, ⟨(List.append_nil _).symm, (List.append_nil _).symm,
      fun ip hip => absurd hip List.not_mem_nil⟩, fun _ _ => rfl, fun _ _ => rfl⟩
    rw [List.length_nil, Nat.zero_add, List.nil_append]
  | cons ip a ih =>
    obtain ⟨t, ht⟩ := hl ip List.mem_cons_self
    have hipa : ip ∉ a := by
      have hnd := (List.nodup_append.1 (List.nodup_cons.1 hr.nodup).2).2.1
      exact fun hm => (List.nodup_cons.1 hnd).1 (List.mem_append_left b hm)
    obtain ⟨k₁, pre', found₀, hstep, hr₁, hframe, hvisit⟩ := visit_spec hout hr ht
    have hlive : ∀ q u, Live k q u → q ≠ ip → Live k₁ q u := fun q u hq hne =>
      hframe.live ⟨ht.ppcb, ht.inpcb, ht.so, ht.excl⟩ ⟨hq.ppcb, hq.inpcb, hq.so, hq.excl⟩ hne
    have hne : ∀ q ∈ a, q ≠ ip := fun q hq he => hipa (he ▸ hq)
    obtain ⟨k', found, hsweep, hswept, hppcb, htcpcb⟩ := ih hr₁ fun q hq => by
      obtain ⟨u, hu⟩ := hl q (List.mem_cons_of_mem ip hq)
      exact ⟨u, hlive q u hu (hne q hq)⟩
    refine ⟨k', Function.update found ip found₀, fun n => ?_, ⟨?_, ?_, ?_⟩, fun q hq => ?_,
      fun u hu => ?_⟩
    · rw [List.length_cons, Nat.add_right_comm]
      exact (hstep _).trans (hsweep n)
    · rw [hswept.visited, hframe.visited]
      simp
    · have hrest : (a.flatMap fun q => events q (Function.update found ip found₀ q))
          = a.flatMap fun q => events q (found q) :=
        List.flatMap_congr fun q hq => by rw [Function.update_of_ne (hne q hq)]
      rw [List.flatMap_cons, hrest, Function.update_self, hswept.log, hframe.log, List.append_assoc]
    · intro q hq u hu
      rcases List.mem_cons.1 hq with rfl | hq
      · obtain rfl : t = u := Option.some.inj (ht.ppcb.symm.trans hu)
        have hsame : k'.tcpcb t = k₁.tcpcb t := htcpcb t fun r hr hlr =>
          hne r hr (hlr.inpcb.symm.trans (hframe.inpcb.trans ht.inpcb))
        rw [Function.update_self]
        refine ⟨hvisit.reached, fun h => hvisit.all ?_, hvisit.found, fun h => ?_⟩
        · rwa [← hppcb q hipa]
        · obtain ⟨h₁, h₂⟩ := hvisit.quiet h
          exact ⟨(hppcb q hipa).trans h₁, fun i hi => by rw [hsame, h₂ i hi]⟩
      · obtain ⟨w, hw⟩ := hl q (List.mem_cons_of_mem ip hq)
        obtain rfl : w = u := Option.some.inj (hw.ppcb.symm.trans hu)
        have hwt : w ≠ t := fun he => hne q hq (hw.inpcb.symm.trans (he ▸ ht.inpcb))
        have hv := hswept.visit q hq w (hlive q w hw (hne q hq)).ppcb
        rw [Function.update_of_ne (hne q hq)]
        have hkw : k₁.tcpcb w = k.tcpcb w := hframe.tcpcb w hwt
        exact ⟨hv.reached, hv.all, hkw ▸ hv.found, hkw ▸ hv.quiet⟩
    · rw [hppcb q fun h => hq (List.mem_cons_of_mem ip h)]
      exact hframe.ppcb q fun he => hq (he ▸ List.mem_cons_self)
    · rw [htcpcb u fun r hr hlr => ?_]
      · exact hframe.tcpcb u fun he => hu ip List.mem_cons_self (he ▸ ht)
      · obtain ⟨w, hw⟩ := hl r (List.mem_cons_of_mem ip hr)
        have hwu : w = u := Option.some.inj ((hlive r w hw (hne r hr)).ppcb.symm.trans hlr.ppcb)
        exact hu r (List.mem_cons_of_mem ip hr) (hwu ▸ hw)

/-- A round that comes to a pcb with no control block goes to the same pcb again. -/
theorem sweep_stuck (hip : ip ≠ v.tcb) (h : (k.inpcb ip).inp_ppcb = none) (n : ℕ) :
    sweep v n (some ip) k = none := by
  induction n generalizing k with
  | zero => rfl
  | succ n ih =>
    rw [sweep, if_neg hip]
    simp only [h]
    exact ih h

/-- A sweep that ends does so whatever the bound on its rounds. -/
theorem sweep_mono {n : ℕ} {p : Option ℕ} (h : sweep v n p k = some k') (m : ℕ) :
    sweep v (m + n) p k = some k' := by
  induction n generalizing p k with
  | zero => exact absurd h (Option.some_ne_none k').symm
  | succ n ih =>
    cases p with
    | none => exact absurd h (Option.some_ne_none k').symm
    | some ip =>
      rw [← Nat.add_assoc]
      rw [sweep] at h ⊢
      by_cases hip : ip = v.tcb
      · rwa [if_pos hip] at h ⊢
      rw [if_neg hip] at h ⊢
      dsimp only at h ⊢
      cases hpp : (k.inpcb ip).inp_ppcb with
      | none =>
        rw [hpp] at h
        exact ih h
      | some t =>
        rw [hpp] at h
        obtain ⟨q, hq, h⟩ := Option.bind_eq_some_iff.1 h
        obtain ⟨r, hr, h⟩ := Option.bind_eq_some_iff.1 h
        exact Option.bind_eq_some_iff.2 ⟨q, hq, Option.bind_eq_some_iff.2 ⟨r, hr, ih h⟩⟩

/-! ## The sweep -/

/-- The pcbs `l` of TCP: they are on the ring, or it is not initialized; those that have a control
    block have it for themselves, and a socket. -/
structure Pcbs (v : Config ω) (k : Kernel ω) (l : List ℕ) : Prop where
  ring : OnRing v k l ∨ ((k.inpcb v.tcb).inp_next = none ∧ l = [])
  live : ∀ ip ∈ l, ∀ t, (k.inpcb ip).inp_ppcb = some t → Live k ip t

/-- The slow timeout ends; it has visited each pcb once, decremented each of the timers that
    were set once when it came to them, and called the timer routine for those that this made
    zero. -/
def Sweeps (v : Config ω) (k : Kernel ω) (l : List ℕ) : Prop :=
  ∃ n k' found, tcp_slowtimo v n k = some k' ∧ Swept k k' l found

/-- The slow timeout does so if and only if every pcb has a control block. -/
theorem swept_iff (v : Config ω) (hout : v.KeepsExcl) {l : List ℕ} (h : Pcbs v k l) :
    Sweeps v k l ↔ ∀ ip ∈ l, (k.inpcb ip).inp_ppcb ≠ none := by
  rcases h.ring with hr | ⟨hnext, rfl⟩
  swap
  · refine iff_of_true ⟨0, k, fun _ => [], ?_, (List.append_nil _).symm, (List.append_nil _).symm,
      fun ip hip => absurd hip List.not_mem_nil⟩ fun ip hip => absurd hip List.not_mem_nil
    rw [tcp_slowtimo, hnext]
  have hstart : (k.inpcb v.tcb).inp_next = some (v.first l) := by
    have hring := hr.ring
    cases l with
    | nil => exact hring.1
    | cons ip l => exact hring.1
  have hlive : ∀ ip ∈ l, (k.inpcb ip).inp_ppcb ≠ none → ∃ t, Live k ip t := fun ip hip hne => by
    obtain ⟨t, ht⟩ := Option.ne_none_iff_exists'.1 hne
    exact ⟨t, h.live ip hip t ht⟩
  constructor
  · rintro ⟨n, k', found, hslow, -⟩ ip hip hnone
    -- the first pcb with no control block is reached, and not left
    obtain ⟨a, q, b, rfl, hq, ha⟩ : ∃ a q b, l = a ++ q :: b ∧ (k.inpcb q).inp_ppcb = none ∧
        ∀ x ∈ a, (k.inpcb x).inp_ppcb ≠ none := by
      have hsome : (l.find? fun x => (k.inpcb x).inp_ppcb.isNone).isSome :=
        List.find?_isSome.2 ⟨ip, hip, Option.isNone_iff_eq_none.2 hnone⟩
      obtain ⟨q, hf⟩ := Option.isSome_iff_exists.1 hsome
      obtain ⟨hq, a, b, hl, ha⟩ := List.find?_eq_some_iff_append.1 hf
      refine ⟨a, q, b, hl, Option.isNone_iff_eq_none.1 hq, fun x hx hne => ?_⟩
      simpa [hne] using ha x hx
    have hr' : OnRing v k ([] ++ (a ++ q :: b)) := hr
    obtain ⟨k₁, found', hsweep, -, hppcb, -⟩ := sweep_spec hout hr' fun x hx =>
      hlive x (List.mem_append_left _ hx) (ha x hx)
    rw [tcp_slowtimo, hstart] at hslow
    obtain ⟨k₂, hk₂, -⟩ := Option.map_eq_some_iff.1 hslow
    have hend := (hsweep n).symm.trans (sweep_mono hk₂ a.length)
    have hqa : q ∉ a ∧ q ≠ v.tcb := by
      obtain ⟨htcb, hnd⟩ := List.nodup_cons.1 hr.nodup
      exact ⟨fun hm => (List.nodup_append.1 hnd).2.2 q hm q List.mem_cons_self rfl,
        fun he => htcb (he ▸ by simp)⟩
    rw [show v.first (q :: b) = q from rfl,
      sweep_stuck hqa.2 ((hppcb q hqa.1).trans hq)] at hend
    exact absurd hend (Option.some_ne_none k₂).symm
  · intro hall
    have hr' : OnRing v k ([] ++ (l ++ [])) := by simpa using hr
    obtain ⟨k₁, found, hsweep, hswept, -, -⟩ := sweep_spec hout hr' fun x hx =>
      hlive x hx (hall x hx)
    obtain ⟨k₂, hk₂⟩ : ∃ k₂, k₂ = { k₁ with
      tcp_iss := k₁.tcp_iss + BitVec.ofNat 32 (TCP_ISSINCR / PR_SLOWHZ) } := ⟨_, rfl⟩
    have hswept₂ : Swept k k₂ l found := by
      refine ⟨hk₂ ▸ hswept.visited, hk₂ ▸ hswept.log, fun ip hip t ht => ?_⟩
      have hv := hswept.visit ip hip t ht
      rw [hk₂]
      exact ⟨hv.reached, hv.all, hv.found, hv.quiet⟩
    refine ⟨l.length + 1, k₂, found, ?_, hswept₂⟩
    rw [tcp_slowtimo, hstart]
    have hend := hsweep 1
    rw [List.append_nil] at hend
    dsimp only
    rw [hend, sweep, show v.first [] = v.tcb from rfl, if_pos rfl, Option.map_some, hk₂]

/-! ## A pcb with no control block -/

/-- Nothing is sent, and nothing else is done. -/
def still : Config Unit := ⟨0, false, fun c _ w => (c, w), fun _ _ _ w => w, fun _ w => w⟩

/-- A single pcb, with or without a control block; its keepalive timer is about to go off. -/
def single (inp_ppcb : Option ℕ) : Kernel Unit where
  inpcb x := if x = 1 then ⟨some 0, some 0, 3, inp_ppcb⟩ else ⟨some 1, some 1, 0, none⟩
  tcpcb _ := ⟨.established, fun i => if i = TCPT_KEEP then 1 else 0, 0, false, 1, 0, 0, 0, 0, 0, 0⟩
  so _ := ⟨some 1, false, false, 0⟩
  tcp_iss := 0
  rest := ()
  visited := []
  log := []

theorem keepsExcl_still : still.KeepsExcl := fun _ _ _ h => h

theorem pcbs_single (inp_ppcb : Option ℕ) : Pcbs still (single inp_ppcb) [1] where
  ring := .inl ⟨by decide, rfl, rfl, rfl, rfl⟩
  live ip hip t ht := by
    obtain rfl := List.mem_singleton.1 hip
    exact ⟨ht, rfl, rfl, .inl rfl⟩

/-- With a control block, the sweep over it ends. -/
theorem swept_iff_single : Sweeps still (single (some 2)) [1] :=
  (swept_iff still keepsExcl_still (pcbs_single (some 2))).2 fun ip hip => by
    obtain rfl := List.mem_singleton.1 hip
    exact Option.some_ne_none 2

/-- With none it does not. -/
theorem not_sweeps : Pcbs still (single none) [1] ∧ ¬Sweeps still (single none) [1] ∧
    ∀ n, tcp_slowtimo still n (single none) = none := by
  have hstuck : ∀ n, tcp_slowtimo still n (single none) = none := fun n => by
    have hsweep : sweep still n (some 1) (single none) = none :=
      sweep_stuck (by decide) rfl n
    exact (congrArg (Option.map _) hsweep).trans rfl
  refine ⟨pcbs_single none, fun hs => ?_, hstuck⟩
  obtain ⟨n, k', found, h, -⟩ := hs
  rw [hstuck n] at h
  exact absurd h (Option.some_ne_none k').symm

end AuxKernel.Tcp.Timer
