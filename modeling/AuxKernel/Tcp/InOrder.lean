import AuxKernel.Tcp.Reass

/-!
# TCP hands out the stream in order

The segments of a stream are pieces of it (`positioned`), so that the queue stays
sorted and disjoint and holds all that was seen and is not handed out. Whatever
arrives, the user is given a prefix of the stream, and `TH_FIN` is returned at its
end only.

But a `TH_FIN` can get lost: a segment with it is dropped if the text before it is
queued already, and one without it takes the place of a queued segment with it that
lies within it (`not_reassembled`). In runs without such segments, it is returned
once it and all text are there (`reassembled_of_clean`).
-/

namespace AuxKernel.Tcp

open Net Pieces

variable {α : Type*} {S : List α} {irs : TcpSeq}

/-! ## Segments of a stream -/

/-- A segment at the position `off`. -/
structure At (S : List α) (irs : TcpSeq) (off : ℕ) (ti : Tcpiphdr α) : Prop where
  seq : ti.ti_seq = irs + 1 + BitVec.ofInt 32 off
  len : ti.ti_len = (bytes ti.m).length
  le : off + (bytes ti.m).length ≤ S.length
  text : bytes ti.m <+: S.drop off
  fin : ti.th_fin → off + (bytes ti.m).length = S.length

theorem cutFrom_iff {ti : Tcpiphdr α} : CutFrom S irs ti ↔ ∃ off, At S irs off ti :=
  ⟨fun ⟨off, h₁, h₂, h₃, h₄, h₅⟩ => ⟨off, h₁, h₂, h₃, h₄, h₅⟩,
    fun ⟨off, h⟩ => ⟨off, h.seq, h.len, h.le, h.text, h.fin⟩⟩

theorem At.pos {off : ℕ} {ti : Tcpiphdr α} (hS : S.length < 2 ^ 31) (h : At S irs off ti) :
    pos irs ti = off := by
  have hle := h.le
  have := diff_ofInt (irs + 1) (x := off) (y := 0) (by omega) (by omega)
  rw [Tcp.pos, h.seq]
  simpa using this

/-- A segment without its first bytes. -/
theorem At.cut {off : ℕ} {ti : Tcpiphdr α} {i : ℤ} (h : At S irs off ti) (h₀ : 0 ≤ i)
    (hi : i ≤ ti.ti_len) : At S irs (off + i.toNat) (segments.cut i ti) := by
  have hlen := h.len
  have hle := h.le
  have hbytes : (bytes (m_adj ti.m i.toNat)).length = (bytes ti.m).length - i.toNat := by simp
  refine ⟨?_, ?_, ?_, ?_, fun hfin => ?_⟩
  · rw [segments]
    simp only
    rw [h.seq, BitVec.add_assoc, ← BitVec.ofInt_add]
    congr 2
    omega
  · simp only [segments, hbytes]
    omega
  · simp only [segments, hbytes]
    omega
  · simp only [segments, bytes_m_adj]
    rw [← List.drop_drop]
    exact h.text.drop _
  · have := h.fin hfin
    simp only [segments, hbytes]
    omega

theorem pos_add_len_le {ti : Tcpiphdr α} (hS : S.length < 2 ^ 31) (h : CutFrom S irs ti) :
    0 ≤ pos irs ti ∧ 0 ≤ ti.ti_len ∧ pos irs ti + ti.ti_len ≤ S.length ∧
      (ti.th_fin → pos irs ti + ti.ti_len = S.length) := by
  obtain ⟨off, h⟩ := cutFrom_iff.1 h
  have hle := h.le
  have hlen := h.len
  rw [h.pos hS]
  refine ⟨by omega, by omega, by omega, fun hfin => ?_⟩
  have := h.fin hfin
  omega

/-- The sequence number of a segment is that of its position. -/
theorem seq_eq {ti : Tcpiphdr α} (hS : S.length < 2 ^ 31) (h : CutFrom S irs ti) :
    ti.ti_seq = irs + 1 + BitVec.ofInt 32 (pos irs ti) := by
  obtain ⟨off, h⟩ := cutFrom_iff.1 h
  rw [h.pos hS, h.seq]

theorem positioned (hS : S.length < 2 ^ 31) :
    (segments : Pieces (Tcpiphdr α)).Positioned (CutFrom S irs) (pos irs) where
  gt hp hq := by
    have hp' := pos_add_len_le hS hp
    have hq' := pos_add_len_le hS hq
    simp only [segments, seqGt]
    rw [seq_eq hS hp, seq_eq hS hq, diff_ofInt _ (by omega) (by omega)]
    simp
  past {p q} hp hq := by
    have hp' := pos_add_len_le hS hp
    have hq' := pos_add_len_le hS hq
    simp only [segments]
    rw [seq_eq hS hp, seq_eq hS hq, BitVec.add_assoc, ← BitVec.ofInt_add,
      diff_ofInt _ (by omega) (by omega)]
  len_nonneg hp := (pos_add_len_le hS hp).2.1
  ok_cut hp hi hlen := by
    obtain ⟨off, hp⟩ := cutFrom_iff.1 hp
    exact cutFrom_iff.2 ⟨_, hp.cut hi.le hlen.le⟩
  pos_cut {p i} hp hi hlen := by
    obtain ⟨off, hp⟩ := cutFrom_iff.1 hp
    rw [(hp.cut hi.le hlen.le).pos hS, hp.pos hS]
    omega
  len_cut _ _ _ := rfl

theorem fin_isEnd {p q : Tcpiphdr α} (h : segments.IsEnd p q) : q.th_fin = p.th_fin := by
  rcases h with rfl | ⟨i, _, _, rfl⟩ <;> rfl

theorem text_isEnd {p q : Tcpiphdr α} (h : segments.IsEnd p q) (hp : 0 < p.ti_len ∨ p.th_fin) :
    0 < q.ti_len ∨ q.th_fin := by
  rcases h with rfl | ⟨i, _, hi, rfl⟩
  · exact hp
  · exact .inl (sub_pos.2 hi)

/-- What `tcp_input` gives is cut from the stream too, and does not begin before
    `rcv_nxt`. -/
theorem given_spec {n : ℕ} {ti ti' : Tcpiphdr α} (hS : S.length < 2 ^ 31) (hn : n ≤ S.length)
    (h : CutFrom S irs ti) (hg : given (irs + 1 + BitVec.ofInt 32 n) ti = some ti') :
    CutFrom S irs ti' ∧ n ≤ pos irs ti' ∧ (0 < ti'.ti_len ∨ ti'.th_fin) := by
  have hti := pos_add_len_le hS h
  obtain ⟨ht, hne⟩ := Option.filter_eq_some_iff.1 hg
  have hspec : CutFrom S irs ti' ∧ n ≤ pos irs ti' := by
    rw [trimFront, seq_eq hS h, diff_ofInt _ (by omega) (by omega)] at ht
    split_ifs at ht with hpos hdrop
    · obtain rfl := Option.some.inj ht
      obtain ⟨off, hoff⟩ := cutFrom_iff.1 h
      have hcut := hoff.cut (i := n - pos irs ti) (by omega) (by grind)
      refine ⟨cutFrom_iff.2 ⟨_, hcut⟩, ?_⟩
      rw [hcut.pos hS]
      have := hoff.pos hS
      omega
    · obtain rfl := Option.some.inj ht
      exact ⟨h, by omega⟩
  refine ⟨hspec.1, hspec.2, ?_⟩
  have := (pos_add_len_le hS hspec.1).2.1
  simp only [Bool.or_eq_true, decide_eq_true_eq] at hne
  grind

/-! ## Presenting -/

/-- A queue of segments that are not before the position `n`. -/
structure Queue (S : List α) (irs : TcpSeq) (n : ℕ) (l : List (Tcpiphdr α)) : Prop where
  cut : ∀ ti ∈ l, CutFrom S irs ti
  sorted : segments.Sorted (pos irs) l
  text : ∀ ti ∈ l, 0 < ti.ti_len ∨ ti.th_fin
  beyond : ∀ ti ∈ l, n ≤ pos irs ti

/-- A connection whose user has been given the first `n` bytes. -/
structure Given (S taken : List α) (n : ℕ) (tp : Tcpcb α) : Prop where
  le : n ≤ S.length
  rcv_nxt : tp.rcv_nxt = tp.irs + 1 + BitVec.ofInt 32 n
  bytes : tp.cantrcvmore = false → taken ++ tp.so_rcv.contents = S.take n
  queue : Queue S tp.irs n tp.seg_next

/-- What presenting does to a connection `tp` with the segments `l` in its queue, if a
    `TH_FIN` has been presented just before where `flags` says so. -/
structure Presents (S taken : List α) (n : ℕ) (tp : Tcpcb α) (flags : Bool)
    (l : List (Tcpiphdr α)) (n' : ℕ) (r : Tcpcb α × Bool) : Prop where
  given : Given S taken n' r.1
  strict : ∀ ti ∈ r.1.seg_next, n' < pos tp.irs ti
  le : n ≤ n'
  covers : ∀ x, segments.Covers (pos tp.irs) l x →
    x < n' ∨ segments.Covers (pos tp.irs) r.1.seg_next x
  fin : r.2 → n' = S.length
  keeps : (flags ∨ ∃ ti ∈ l, ti.th_fin) → r.2 ∨ ∃ ti ∈ r.1.seg_next, ti.th_fin
  t_state : r.1.t_state = tp.t_state
  irs : r.1.irs = tp.irs

theorem Queue.tail {n : ℕ} {ti : Tcpiphdr α} {l : List (Tcpiphdr α)} (hS : S.length < 2 ^ 31)
    (h : Queue S irs n (ti :: l)) {n' : ℕ} (hn : (n' : ℤ) ≤ pos irs ti + ti.ti_len) :
    Queue S irs n' l := by
  obtain ⟨hti, hs⟩ := List.pairwise_cons.1 h.sorted
  refine ⟨fun q hq => h.cut q (.tail _ hq), hs, fun q hq => h.text q (.tail _ hq), fun q hq => ?_⟩
  have := hti q hq
  simp only [segments] at this
  omega

theorem presentLoop_spec {taken : List α} {n : ℕ} {tp : Tcpcb α} {flags : Bool}
    {l : List (Tcpiphdr α)} (hS : S.length < 2 ^ 31) (h : Given S taken n { tp with seg_next := l })
    (hflags : flags → n = S.length) :
    ∃ n', Presents S taken n tp flags l n' (presentLoop tp flags l) := by
  induction l generalizing n tp flags with
  | nil =>
    exact ⟨n, h, by simp [presentLoop], le_rfl, by simp [Covers], hflags, by simp [presentLoop], rfl,
      rfl⟩
  | cons ti l ih =>
    have hti := pos_add_len_le hS (h.queue.cut ti List.mem_cons_self)
    have hbeyond : n ≤ pos tp.irs ti := h.queue.beyond ti List.mem_cons_self
    have hn := h.le
    simp only at hti
    rw [presentLoop]
    by_cases hseq : ti.ti_seq = tp.rcv_nxt
    · -- The segment is next: it goes to the user.
      obtain ⟨off, hoff⟩ := cutFrom_iff.1 (h.queue.cut ti List.mem_cons_self)
      have hpos : pos tp.irs ti = n := by
        have := diff_ofInt (tp.irs + 1) (x := n) (y := 0) (by omega) (by omega)
        rw [pos, hseq, h.rcv_nxt]
        simpa using this
      have hoffn : off = n := by
        have : pos tp.irs ti = off := hoff.pos hS
        omega
      subst hoffn
      have hlen := hoff.len
      have hle := hoff.le
      have hend : ((off + (Net.bytes ti.m).length : ℕ) : ℤ) ≤ pos tp.irs ti + ti.ti_len := by
        omega
      have hnext : Given S taken (off + (Net.bytes ti.m).length) { tp with
          rcv_nxt := tp.rcv_nxt + BitVec.ofInt 32 ti.ti_len
          so_rcv := if tp.cantrcvmore then tp.so_rcv else tp.so_rcv.sbappend ti.m
          seg_next := l } := by
        refine ⟨hle, ?_, fun hc => ?_, h.queue.tail hS hend⟩
        · simp only
          rw [h.rcv_nxt, hlen, BitVec.add_assoc, ← BitVec.ofInt_add]
          simp
        · simp only at hc
          have hb := h.bytes hc
          simp only at hb
          simp only [hc, Bool.false_eq_true, if_false]
          rw [Sockbuf.contents_sbappend, ← List.append_assoc, hb, List.take_add,
            List.prefix_iff_eq_take.1 hoff.text]
          simp
      have hend' : ti.th_fin → off + (Net.bytes ti.m).length = S.length := hoff.fin
      obtain ⟨n', hp⟩ := @ih _ { tp with
        rcv_nxt := tp.rcv_nxt + BitVec.ofInt 32 ti.ti_len
        so_rcv := if tp.cantrcvmore then tp.so_rcv else tp.so_rcv.sbappend ti.m } _ hnext hend'
      have hle' := hp.le
      rw [if_pos hseq]
      refine ⟨n', hp.given, hp.strict, by omega, fun x hx => ?_, hp.fin, fun hf => ?_, hp.t_state,
        hp.irs⟩
      · obtain ⟨q, hq, hx⟩ := hx
        rcases List.mem_cons.1 hq with rfl | hq
        · have := hx.2
          simp only [segments] at this
          left
          omega
        · exact hp.covers x ⟨q, hq, hx⟩
      · refine hp.keeps ?_
        rcases hf with hf | ⟨q, hq, hf⟩
        · -- The stream has ended before this segment: it holds only the `TH_FIN`.
          have := hflags hf
          rcases h.queue.text ti List.mem_cons_self with hlen | hfin
          · omega
          · exact .inl hfin
        · rcases List.mem_cons.1 hq with rfl | hq
          · exact .inl hf
          · exact .inr ⟨q, hq, hf⟩
    · -- It is not: the rest of the queue waits.
      have hne : pos tp.irs ti ≠ n := fun he => hseq (by
        rw [seq_eq hS (h.queue.cut ti List.mem_cons_self), h.rcv_nxt]
        simp only
        rw [he])
      rw [if_neg hseq]
      refine ⟨n, h, fun q hq => ?_, le_rfl, fun x hx => .inr hx, hflags, fun hf => ?_, rfl, rfl⟩
      · rcases List.mem_cons.1 hq with rfl | hq
        · omega
        · have := (List.pairwise_cons.1 h.queue.sorted).1 q hq
          simp only [segments] at this
          omega
      · rcases hf with hf | hf
        · exact .inl hf
        · exact .inr hf

/-! ## Calls of `tcp_reass` -/

/-- What every reachable state satisfies. -/
structure Inv (S : List α) (s : Run α) : Prop where
  syn : haveRcvdSyn s.tp.t_state
  given : ∃ n, Given S s.taken n s.tp ∧
    (s.tp.t_state ≠ .synReceived → ∀ ti ∈ s.tp.seg_next, n < pos s.tp.irs ti) ∧
    (∀ x, s.seen x → x < n ∨ segments.Covers (pos s.tp.irs) s.tp.seg_next x) ∧
    (s.finReturned → n = S.length)
  fin : s.finSeen → s.finReturned ∨ ∃ ti ∈ s.tp.seg_next, ti.th_fin

/-- Presenting keeps the invariant, whether all that can be presented has been or not. -/
theorem Inv.present {s : Run α} {n : ℕ} (hS : S.length < 2 ^ 31) (hsyn : haveRcvdSyn s.tp.t_state)
    (hg : Given S s.taken n s.tp)
    (hseen : ∀ x, s.seen x → x < n ∨ segments.Covers (pos s.tp.irs) s.tp.seg_next x)
    (hret : s.finReturned → n = S.length)
    (hfin : s.finSeen → s.finReturned ∨ ∃ ti ∈ s.tp.seg_next, ti.th_fin) :
    Inv S (s.called (Tcp.present s.tp)) := by
  -- Nothing is presented.
  have hwait (hw : s.tp.t_state ≠ .synReceived → ∀ ti ∈ s.tp.seg_next, n < pos s.tp.irs ti) :
      Inv S (s.called (s.tp, false)) :=
    ⟨hsyn, ⟨n, hg, hw, hseen, fun h => hret (by simpa [Run.called] using h)⟩,
      fun h => by simpa [Run.called] using hfin h⟩
  rw [Tcp.present, if_neg (not_not.2 hsyn)]
  cases hq : s.tp.seg_next with
  | nil => exact hwait (by simp [hq])
  | cons ti l =>
    have hti : ti ∈ s.tp.seg_next := by simp [hq]
    simp only
    split_ifs with hseq hwaits
    · refine hwait fun _ q hmem => ?_
      have hne : pos s.tp.irs ti ≠ n := fun he => hseq (by
        rw [seq_eq hS (hg.queue.cut ti hti), hg.rcv_nxt, he])
      have hbeyond := hg.queue.beyond ti hti
      have hsort := hg.queue.sorted
      have hlen := (pos_add_len_le hS (hg.queue.cut ti hti)).2.1
      rw [hq] at hmem hsort
      rcases List.mem_cons.1 hmem with rfl | hmem
      · omega
      · have := (List.pairwise_cons.1 hsort).1 q hmem
        simp only [segments] at this
        omega
    · exact hwait fun h => absurd hwaits.1 h
    · obtain ⟨n', hp⟩ : ∃ n', Presents S s.taken n s.tp false s.tp.seg_next n'
          (presentLoop s.tp false s.tp.seg_next) := presentLoop_spec hS hg (by simp)
      rw [hq] at hp
      refine ⟨hp.t_state ▸ hsyn, ⟨n', hp.given, fun _ q hmem => hp.irs ▸ hp.strict q hmem,
        fun x hx => ?_, fun hf => ?_⟩, fun hf => ?_⟩
      · have hle := hp.le
        simp only [Run.called, hp.irs]
        rcases hseen x hx with hx | hx
        · left
          omega
        · exact hp.covers x (hq ▸ hx)
      · simp only [Run.called, Bool.or_eq_true] at hf
        rcases hf with hf | hf
        · have := hret hf
          have := hp.le
          have := hp.given.le
          omega
        · exact hp.fin hf
      · simp only [Run.called, Bool.or_eq_true]
        rcases hfin hf with hf | hf
        · exact .inl (.inl hf)
        · exact (hp.keeps (.inr (hq ▸ hf))).imp_left .inr

/-- The segment `ti` lies within the segment `q`, which is not empty there. -/
def Within (irs : TcpSeq) (ti q : Tcpiphdr α) : Prop :=
  pos irs q ≤ pos irs ti ∧ pos irs ti < pos irs q + q.ti_len ∧
    pos irs ti + ti.ti_len ≤ pos irs q + q.ti_len

/-- The segment `q` lies within the segment `ti` that begins before it. -/
def Swallows (irs : TcpSeq) (ti q : Tcpiphdr α) : Prop :=
  pos irs ti < pos irs q ∧ pos irs q < pos irs ti + ti.ti_len ∧
    pos irs q + q.ti_len ≤ pos irs ti + ti.ti_len

/-- No `TH_FIN` gets lost: no segment with it lies within a queued one without it, and
    no segment without it swallows a queued one with it. Nor does the connection leave
    `SYN_RECEIVED` with text in order, but by the acknowledgement of its `SYN`. -/
def Act.Clean (s : Run α) : Act α → Prop
  | .segment ti => ∀ ti' ∈ given s.tp.rcv_nxt ti, ∀ q ∈ s.tp.seg_next,
      (ti'.th_fin → Within s.tp.irs ti' q → q.th_fin) ∧
      (q.th_fin → Swallows s.tp.irs ti' q → ti'.th_fin)
  | .move _ => s.tp.t_state = .synReceived → ∀ ti ∈ s.tp.seg_next, ti.ti_seq ≠ s.tp.rcv_nxt
  | _ => True

/-- What is seen stays in the queue or is handed out, when a segment is put in it. -/
theorem Inv.segment {s : Run α} {ti ti' : Tcpiphdr α} (hS : S.length < 2 ^ 31) (h : Inv S s)
    (hti : CutFrom S s.tp.irs ti) (hg : Tcp.given s.tp.rcv_nxt ti = some ti')
    (hc : (Act.segment ti).Clean s) : Inv S ((s.sees ti').called (tcp_reass s.tp (some ti'))) := by
  obtain ⟨n, hgiven, hstrict, hseen, hret⟩ := h.given
  have hq := hgiven.queue
  have hP : (segments : Pieces (Tcpiphdr α)).Positioned (CutFrom S s.tp.irs) (pos s.tp.irs) :=
    positioned hS
  rw [hgiven.rcv_nxt] at hg
  obtain ⟨hti', hn, htext⟩ := given_spec hS hgiven.le hti hg
  have hc' := hc ti' (hgiven.rcv_nxt ▸ hg)
  have hsees (x : ℤ) (hx : (s.sees ti').seen x) :
      s.seen x ∨ segments.Has (pos s.tp.irs) ti' x := by
    simpa [Run.sees, Has, segments] using hx
  rw [tcp_reass]
  cases hi : segments.insert ti' s.tp.seg_next with
  | none =>
    obtain ⟨q, hmem, hw⟩ := hP.insert_none hti' hq.cut hi
    refine ⟨h.syn, ⟨n, hgiven, hstrict, fun x hx => ?_, fun hf => hret (by simpa [Run.called,
      Run.sees] using hf)⟩, fun hf => ?_⟩
    · rcases hsees x hx with hx | hx
      · exact hseen x hx
      · exact .inr ⟨q, hmem, hw.1.trans hx.1, lt_of_lt_of_le hx.2 hw.2.2⟩
    · simp only [Run.called, Run.sees, Bool.or_eq_true, Bool.or_false] at hf ⊢
      rcases hf with hf | hf
      · exact h.fin hf
      · exact .inr ⟨q, hmem, (hc' q hmem).1 hf hw⟩
  | some l =>
    have hins := hP.insert_spec hti' hq.cut hq.sorted hi
    have hok (q : Tcpiphdr α) (hmem : q ∈ l) : CutFrom S s.tp.irs q ∧ n ≤ pos s.tp.irs q ∧
        (0 < q.ti_len ∨ q.th_fin) := by
      rcases hins.mem q hmem with hend | ⟨r, hr, hend⟩
      · exact ⟨hP.ok_isEnd hti' hend, hn.trans (hP.pos_isEnd hti' hend), text_isEnd hend htext⟩
      · have hrok := hq.cut r hr
        exact ⟨hP.ok_isEnd hrok hend, (hq.beyond r hr).trans (hP.pos_isEnd hrok hend),
          text_isEnd hend (hq.text r hr)⟩
    refine Inv.present (s := { s.sees ti' with tp := { s.tp with seg_next := l } }) hS h.syn
      (n := n) ⟨hgiven.le, hgiven.rcv_nxt, hgiven.bytes, fun q hmem => (hok q hmem).1, hins.sorted,
        fun q hmem => (hok q hmem).2.2, fun q hmem => (hok q hmem).2.1⟩ (fun x hx => ?_) hret
      fun hf => ?_
    · simp only
      rw [hP.covers_insert hti' hq.cut hins, ← or_assoc]
      exact (hsees x hx).imp_left (hseen x)
    · simp only [Run.sees, Bool.or_eq_true] at hf ⊢
      rcases hf with hf | hf
      · refine (h.fin hf).imp_right fun ⟨r, hr, hrf⟩ => ?_
        rcases hins.old r hr with ⟨q, hmem, hend, _⟩ | ⟨q, hmem, hend, _, hsw⟩
        · exact ⟨q, hmem, fin_isEnd hend ▸ hrf⟩
        · exact ⟨q, hmem, fin_isEnd hend ▸ (hc' r hr).2 hrf hsw⟩
      · obtain ⟨q, hmem, hend, _⟩ := hins.new
        exact .inr ⟨q, hmem, fin_isEnd hend ▸ hf⟩

theorem inv_of_clean {s : Run α} (hS : S.length < 2 ^ 31)
    (hs : (reassembly α).ReachableIf (fun s a => a.Valid S s ∧ a.Clean s) s) : Inv S s := by
  refine hs.invariant (fun s h => ?_) fun s a s' h hok hn => ?_
  · obtain ⟨hsyn, hrcv, hseg, hmb, htaken, hseen, hfin, hret⟩ := h
    have hqueue : Queue S s.tp.irs 0 s.tp.seg_next := by
      rw [hseg]
      exact ⟨by simp, .nil, by simp, by simp⟩
    refine ⟨hsyn, ⟨0, ⟨Nat.zero_le _, by simpa using hrcv, fun _ => ?_, hqueue⟩, by simp [hseg],
      by simp [hseen], by simp [hret]⟩, by simp [hfin]⟩
    simp [htaken, Sockbuf.contents, hmb]
  obtain ⟨n, hgiven, hstrict, hseen, hret⟩ := h.given
  cases a with
  | segment ti =>
    simp only [reassembly] at hn
    cases hg : given s.tp.rcv_nxt ti with
    | none =>
      simp only [hg] at hn
      exact Option.some.inj hn ▸ h
    | some ti' =>
      simp only [hg] at hn
      exact Option.some.inj hn ▸ h.segment hS hok.1 hg hok.2
  | establish =>
    simp only [reassembly] at hn
    split_ifs at hn with hsyn
    rw [← Option.some.inj hn]
    exact Inv.present (s := { s with tp := { s.tp with t_state := .established } }) hS rfl
      ⟨hgiven.le, hgiven.rcv_nxt, hgiven.bytes, hgiven.queue⟩ hseen hret h.fin
  | move t_state =>
    simp only [reassembly] at hn
    split_ifs at hn with hsyn
    rw [← Option.some.inj hn]
    refine ⟨hsyn, ⟨n, ⟨hgiven.le, hgiven.rcv_nxt, hgiven.bytes, hgiven.queue⟩, fun _ ti hti => ?_,
      hseen, hret⟩, h.fin⟩
    by_cases hs : s.tp.t_state = .synReceived
    · have hne := hok.2 hs ti hti
      rw [seq_eq hS (hgiven.queue.cut ti hti), hgiven.rcv_nxt] at hne
      have hle := hgiven.queue.beyond ti hti
      have : (n : ℤ) ≠ pos s.tp.irs ti := fun he => hne (by rw [he])
      simp only
      omega
    · exact hstrict hs ti hti
  | cantrcvmore =>
    rw [← Option.some.inj hn]
    exact ⟨h.syn, ⟨n, ⟨hgiven.le, hgiven.rcv_nxt, by simp, hgiven.queue⟩, hstrict, hseen, hret⟩,
      h.fin⟩
  | take len =>
    obtain ⟨sb, hsb, rfl⟩ := Option.map_eq_some_iff.1 hn
    refine ⟨h.syn, ⟨n, ⟨hgiven.le, hgiven.rcv_nxt, fun hc => ?_, hgiven.queue⟩, hstrict, hseen,
      hret⟩, h.fin⟩
    rw [← hgiven.bytes hc, List.append_assoc]
    simp only
    rw [Sockbuf.contents_sbdrop hsb, Sockbuf.contents, List.take_append_drop]

/-- Whatever segments of a stream arrive in whatever order, its user is given a prefix of
    it and the rest waits in order; and if no `TH_FIN` gets lost, it is returned once
    all is there. -/
theorem reassembled_of_clean {s : Run α} (hS : S.length < 2 ^ 31)
    (hs : (reassembly α).ReachableIf (fun s a => a.Valid S s ∧ a.Clean s) s) :
    Reassembled S s := by
  have h := inv_of_clean hS hs
  obtain ⟨n, hgiven, hstrict, hseen, hret⟩ := h.given
  refine ⟨⟨n, hgiven.le, hgiven.rcv_nxt, hgiven.bytes, fun ti hti => ⟨hgiven.queue.beyond ti hti,
    fun hst => hstrict hst ti hti⟩, hseen⟩, hgiven.queue.cut, hgiven.queue.sorted,
    fun hf => hret hf ▸ hgiven.rcv_nxt, fun hst hf hall => ?_⟩
  -- If it were still in the queue, something before it would be missing.
  rcases h.fin hf with hf | ⟨ti, hti, hf⟩
  · exact hf
  have hpos := pos_add_len_le hS (hgiven.queue.cut ti hti)
  have hlt := hstrict hst ti hti
  have hfin := hpos.2.2.2 hf
  rcases hseen n (hall n (by omega) (by omega)) with hn | ⟨q, hq, hx⟩
  · exact absurd hn (lt_irrefl _)
  · exact absurd hx.1 (not_le.2 (hstrict hst q hq))

/-! ## A lost `TH_FIN` -/

/-- An established connection with nothing received. -/
def quiet : Run UInt8 where
  tp := { t_state := .established, irs := 0, rcv_nxt := 1, seg_next := [], so_rcv := ⟨[], 0, 0⟩,
          cantrcvmore := false }
  taken := []
  seen _ := false
  finSeen := false
  finReturned := false

theorem init_quiet : (reassembly UInt8).init quiet :=
  ⟨rfl, rfl, rfl, rfl, rfl, fun _ => rfl, rfl, rfl⟩

/-- The byte at a position of the stream `1, 2`, in a segment of its own. -/
def single (off : ℕ) (th_fin : Bool) : Tcpiphdr UInt8 where
  ti_seq := BitVec.ofNat 32 (off + 1)
  ti_len := 1
  th_fin := th_fin
  m := [⟨100, [UInt8.ofNat (off + 1)], false⟩]

theorem cutFrom_single : CutFrom [1, 2] 0 (single 0 false) ∧ CutFrom [1, 2] 0 (single 1 false) ∧
    CutFrom [1, 2] 0 (single 1 true) :=
  ⟨⟨0, rfl, rfl, by decide, ⟨[2], rfl⟩, by decide⟩, ⟨1, rfl, rfl, by decide, ⟨[], rfl⟩, by decide⟩,
    ⟨1, rfl, rfl, by decide, ⟨[], rfl⟩, by decide⟩⟩

theorem valid_segment {s : Run α} {ti : Tcpiphdr α} (h : s.tp.irs = 0)
    (hti : CutFrom S 0 ti) : (Act.segment ti).Valid S s := by
  rw [Act.Valid, h]
  exact hti

/-- The second byte with the `TH_FIN`, then the first one: all is handed out. -/
theorem reassembled_quiet : ∃ s, (reassembly UInt8).run quiet
    [.segment (single 1 true), .segment (single 0 false)] = some s ∧ s.finReturned = true ∧
      Reassembled [1, 2] s := by
  obtain ⟨s₁, h₁, hirs₁, hrcv₁, hseg₁⟩ : ∃ s,
      (reassembly UInt8).next quiet (.segment (single 1 true)) = some s ∧ s.tp.irs = 0 ∧
      s.tp.rcv_nxt = 1 ∧ s.tp.seg_next = [single 1 true] := ⟨_, rfl, rfl, rfl, rfl⟩
  have hs₁ : (reassembly UInt8).ReachableIf (fun s a => a.Valid [1, 2] s ∧ a.Clean s) s₁ :=
    .step (.init init_quiet) ⟨valid_segment rfl cutFrom_single.2.2,
      fun _ _ q hq => absurd hq (by simp [quiet])⟩ h₁
  obtain ⟨s₂, h₂, hret⟩ : ∃ s, (reassembly UInt8).next s₁ (.segment (single 0 false)) = some s ∧
      s.finReturned = true := by
    obtain rfl := Option.some.inj h₁
    exact ⟨_, rfl, rfl⟩
  refine ⟨s₂, by rw [Machine.run, h₁]; simpa [Machine.run] using h₂, hret,
    reassembled_of_clean (by decide) (.step hs₁ ⟨valid_segment hirs₁ cutFrom_single.1, ?_⟩ h₂)⟩
  intro ti' hti' q hq
  have hti : given 1 (single 0 false) = some (single 0 false) := rfl
  rw [hrcv₁, hti] at hti'
  obtain rfl := Option.some.inj hti'
  obtain rfl := List.mem_singleton.1 (hseg₁ ▸ hq)
  rw [hirs₁]
  exact ⟨fun hf => absurd hf (by decide), fun _ hsw => absurd hsw.2.1 (by decide)⟩

/-- The second byte arrives without the `TH_FIN` first, and then again with it. When the
    first one arrives, the whole stream is handed out, but `TH_FIN` is not returned. -/
theorem not_reassembled : ¬ ∀ (S : List UInt8) s, S.length < 2 ^ 31 →
    (reassembly UInt8).ReachableIf (fun s a => a.Valid S s) s → Reassembled S s := by
  intro h
  obtain ⟨s₁, h₁, hirs₁⟩ : ∃ s, (reassembly UInt8).next quiet (.segment (single 1 false)) = some s ∧
      s.tp.irs = 0 := ⟨_, rfl, rfl⟩
  obtain ⟨s₂, h₂, hirs₂, s₃, h₃, hst, hseen, hfin, hret⟩ : ∃ s,
      (reassembly UInt8).next s₁ (.segment (single 1 true)) = some s ∧ s.tp.irs = 0 ∧
      ∃ s', (reassembly UInt8).next s (.segment (single 0 false)) = some s' ∧
        s'.tp.t_state = .established ∧ (s'.seen 0 && s'.seen 1) = true ∧ s'.finSeen = true ∧
        s'.finReturned = false := by
    obtain rfl := Option.some.inj h₁
    exact ⟨_, rfl, rfl, _, rfl, rfl, rfl, rfl, rfl⟩
  have hs₃ := h [1, 2] s₃ (by decide) (.step (.step (.step (.init init_quiet)
    (valid_segment rfl cutFrom_single.2.1) h₁) (valid_segment hirs₁ cutFrom_single.2.2) h₂)
    (valid_segment hirs₂ cutFrom_single.1) h₃)
  refine absurd (hs₃.finSeen (by simp [hst]) hfin fun x hx₀ hx => ?_) (by simp [hret])
  rw [Bool.and_eq_true] at hseen
  have : x = 0 ∨ x = 1 := by
    simp only [List.length_cons, List.length_nil] at hx
    omega
  rcases this with rfl | rfl
  · exact hseen.1
  · exact hseen.2

end AuxKernel.Tcp
