import AuxKernel.Stream.Strread

/-!
# What a read delivers

A read of a byte stream delivers the next bytes up to the request, or up to a message without data,
which it consumes if it has read nothing else (`readStream`); a read of messages delivers from the
first one, and drops the rest of it only with `RMSGDIS` (`readMessage`). What it does not deliver
stays as it is (`Read.Exact`).

`strread` takes a message for one without data when its first block is empty, and it never finds
that its timeout is over: the comparison that asks for it is between two constants (`wake_eq`). In
runs where the blocks of no message that is taken start with an empty one before others with data,
and where no timeout alone ends a sleep, all reads are exact and none sleeps again after its timeout
(`exact_of_ok`).
-/

namespace AuxKernel.Stream.Head

variable {β : Type}

/-! ## What is asked for -/

/-- Read up to `n` bytes, or up to a message without data: what is read, and what is left. -/
def takeStream : ℕ → List (List β) → List β × List (List β)
  | _, [] => ([], [])
  | n, m :: l =>
    if m.isEmpty then ([], m :: l)
    else if n < m.length then (m.take n, m.drop n :: l)
    else (m ++ (takeStream (n - m.length) l).1, (takeStream (n - m.length) l).2)

/-- Read from a byte stream: a message without data is consumed, if it is the first thing read. -/
def readStream (n : ℕ) (l : List (List β)) : List β × List (List β) :=
  match l with
  | [] :: l => ([], l)
  | l => takeStream n l

/-- Read from the first message; what is left of it may be dropped. -/
def readMessage (discard : Bool) (n : ℕ) (l : List (List β)) : List β × List (List β) :=
  match l with
  | [] => ([], [])
  | m :: l => (m.take n, if discard ∨ m.length ≤ n then l else m.drop n :: l)

/-- What a read has to return, and to leave. -/
def Read.spec (x : Read β) : List β × List (List β) :=
  if x.sd_flag &&& (RMSGDIS ||| RMSGNODIS) ≠ 0 then
    readMessage (x.sd_flag &&& RMSGDIS ≠ 0) x.count x.total
  else readStream x.count x.total

/-- A read that has not failed is as specified. One that has failed has lost nothing. -/
structure Read.Exact (x : Read β) : Prop where
  read : x.error = none → x.spec = (x.out, x.left)
  failed : x.error ≠ none → x.out ++ x.left.flatten = x.total.flatten

theorem takeStream_flatten (n : ℕ) (l : List (List β)) :
    (takeStream n l).1 ++ (takeStream n l).2.flatten = l.flatten := by
  induction l generalizing n with
  | nil => rfl
  | cons m l ih =>
    rw [takeStream]
    split
    · rfl
    split
    · simp [← List.append_assoc]
    · simp [ih]

theorem readStream_flatten (n : ℕ) (l : List (List β)) :
    (readStream n l).1 ++ (readStream n l).2.flatten = l.flatten := by
  cases l with
  | nil => rfl
  | cons m l =>
    cases m with
    | nil => rfl
    | cons a m => exact takeStream_flatten n _

theorem readStream_cons {m : List β} (hm : m ≠ []) (n : ℕ) (l : List (List β)) :
    readStream n (m :: l) = takeStream n (m :: l) := by
  cases m with
  | nil => exact absurd rfl hm
  | cons a m => rfl

theorem takeStream_zero (l : List (List β)) : takeStream 0 l = ([], l) := by
  cases l with
  | nil => rfl
  | cons m l =>
    rw [takeStream]
    split
    · rfl
    · rename_i hm
      rw [if_pos (List.length_pos_iff.2 (by simpa using hm)), List.take_zero, List.drop_zero]

theorem takeStream_cons {m : List β} (hm : m ≠ []) (n : ℕ) (l : List (List β)) :
    takeStream n (m :: l) =
      if n < m.length then (m.take n, m.drop n :: l)
      else (m ++ (takeStream (n - m.length) l).1, (takeStream (n - m.length) l).2) := by
  rw [takeStream, if_neg (by simpa using hm)]

/-! ## Blocks -/

theorem trim_flatten (l : List (List β)) : (trim l).flatten = l.flatten := by
  induction l with
  | nil => rfl
  | cons b l ih =>
    rw [trim]
    split
    · rename_i hb
      rw [ih, List.isEmpty_iff.1 hb]
      rfl
    · rfl

theorem trim_length (l : List (List β)) : (trim l).length ≤ l.length := by
  induction l with
  | nil => exact le_rfl
  | cons b l ih =>
    rw [trim]
    split
    · exact ih.trans (Nat.le_succ _)
    · exact le_rfl

/-- Where something is left, there is data in its first block. -/
theorem trim_head (l : List (List β)) : ∀ b ∈ (trim l).head?, b ≠ [] := by
  induction l with
  | nil => exact fun b h => absurd h (by simp [trim])
  | cons a l ih =>
    rw [trim]
    split
    · exact ih
    · rename_i ha
      intro b hb
      rw [← Option.some.inj hb]
      simpa using ha

/-- The blocks are read as the bytes in them are. -/
theorem readBlocks_eq {fuel : ℕ} {n : ℕ} {l : List (List β)} (hfuel : l.length ≤ fuel)
    (hl : ∀ b ∈ l.head?, b ≠ []) :
    (readBlocks fuel n l).1 = l.flatten.take n ∧
      (readBlocks fuel n l).2.1 = n - l.flatten.length ∧
      (readBlocks fuel n l).2.2.flatten = l.flatten.drop n ∧
      ∀ b ∈ (readBlocks fuel n l).2.2.head?, b ≠ [] := by
  induction fuel generalizing n l with
  | zero =>
    rw [List.length_eq_zero_iff.1 (Nat.le_zero.1 hfuel)]
    simp [readBlocks]
  | succ fuel ih =>
    cases l with
    | nil => simp [readBlocks]
    | cons b l =>
      have hb : 0 < b.length := List.length_pos_iff.2 (hl b rfl)
      rw [readBlocks]
      by_cases hn : n ≤ b.length
      · -- The request ends in this block.
        have htake : n - b.length = 0 := Nat.sub_eq_zero_of_le hn
        simp only [min_eq_left hn, Nat.sub_self, if_true]
        refine ⟨?_, ?_, ?_, trim_head _⟩
        · rw [List.flatten_cons, List.take_append_of_le_length hn]
        · rw [List.flatten_cons, List.length_append]
          omega
        · rw [trim_flatten, List.flatten_cons, List.flatten_cons,
            List.drop_append_of_le_length hn]
      · have hn : b.length < n := not_le.1 hn
        have hne : n - b.length ≠ 0 := by omega
        simp only [min_eq_right hn.le, if_neg hne, List.drop_length, List.take_length]
        have htrim : trim ([] :: l) = trim l := by rw [trim]; rfl
        have hlen : (trim ([] :: l)).length ≤ fuel :=
          htrim ▸ (trim_length l).trans (Nat.le_of_succ_le_succ hfuel)
        have := ih (n := n - b.length) hlen (trim_head _)
        obtain ⟨h₁, h₂, h₃, h₄⟩ := this
        rw [htrim] at h₁ h₂ h₃ h₄ ⊢
        rw [trim_flatten] at h₁ h₂ h₃
        refine ⟨?_, ?_, ?_, h₄⟩
        · rw [h₁, List.flatten_cons, List.take_append, List.take_of_length_le hn.le]
        · rw [h₂, List.flatten_cons, List.length_append]
          omega
        · rw [h₃, List.flatten_cons, List.drop_append, List.drop_of_length_le hn.le,
            List.nil_append]

/-! ## Flags -/

/-- Other flags do not matter to these. -/
theorem or_and_of_disjoint {f g k : BitVec 32} (h : g &&& k = 0#32) :
    (f ||| g) &&& k = f &&& k := by
  rw [BitVec.and_or_distrib_right, h, BitVec.or_zero]

theorem and_not_and_of_disjoint {f g k : BitVec 32} (h : ~~~g &&& k = k) :
    f &&& ~~~g &&& k = f &&& k := by
  rw [BitVec.and_assoc, h]

/-- The mode of the reads. -/
def Stdata.ByMessage (stp : Stdata β) : Prop := stp.has (RMSGDIS ||| RMSGNODIS)

theorem byMessage_of_discard {stp : Stdata β} (h : stp.has RMSGDIS) : stp.ByMessage := by
  intro h0
  rw [BitVec.and_or_distrib_left] at h0
  exact h (BitVec.or_eq_zero_iff.1 h0).1

theorem byMessage_set {stp : Stdata β} {f : BitVec 32}
    (h : f &&& (RMSGDIS ||| RMSGNODIS) = 0#32) :
    (stp.set f).ByMessage ↔ stp.ByMessage := by
  simp only [Stdata.ByMessage, Stdata.has, Stdata.set, or_and_of_disjoint h]

theorem byMessage_clear {stp : Stdata β} {f : BitVec 32}
    (h : ~~~f &&& (RMSGDIS ||| RMSGNODIS) = RMSGDIS ||| RMSGNODIS) :
    (stp.clear f).ByMessage ↔ stp.ByMessage := by
  simp only [Stdata.ByMessage, Stdata.has, Stdata.clear, and_not_and_of_disjoint h]

theorem byMessage_apply (e : Event β) (stp : Stdata β) :
    (e.apply stp).ByMessage ↔ stp.ByMessage := by
  cases e with
  | data bp =>
    have hclear : (stp.clear RSLEEP).ByMessage ↔ stp.ByMessage := byMessage_clear (by decide)
    rw [Event.apply, strrput]
    split
    · exact hclear
    · rfl
  | hangup =>
    show (Stdata.set { stp with sd_error := .enxio } STRHUP).ByMessage ↔ _
    exact (byMessage_set (by decide)).trans Iff.rfl
  | unwait =>
    rw [Event.apply, str_unwait]
    split
    · rw [byMessage_clear (by decide), byMessage_set (by decide)]
    · rfl

theorem byMessage_arm (rflg : ℕ) (stp : Stdata β) :
    (State.arm rflg stp).ByMessage ↔ stp.ByMessage := by
  rw [State.arm]
  split
  · rw [byMessage_set (by decide), byMessage_clear (by decide)]
  · rfl

theorem arm_q (rflg : ℕ) (stp : Stdata β) : (State.arm rflg stp).q = stp.q := by
  rw [State.arm]
  split <;> rfl

/-- The timeout is never found to be over. -/
theorem wake_eq (s : State β) (r : Reader β) :
    s.wake r = { s with proc := .loop r, late := s.expired } := by
  have hcmp : cmp (RSLEEP ||| TIMED_OUT ||| STRHUP ||| STRERR = RSLEEP ||| TIMED_OUT) = 0#32 := by
    decide
  have hwait : s.stp.sd_wait.setWidth 32 &&& TIME_WAIT = 0#32 := by
    have (x : BitVec 8) : x.setWidth 32 &&& TIME_WAIT = 0#32 := by
      revert x
      decide
    exact this _
  rw [State.wake]
  simp only [hcmp, hwait, BitVec.and_zero, BitVec.ofNat_eq_ofNat, ne_eq, not_true_eq_false,
    if_false]

/-! ## The invariant -/

theorem exact_stream {stp : Stdata β} {count : ℕ} {total : List (List β)} {out : List β}
    {left : List (List β)} (hmode : ¬stp.ByMessage) (h : readStream count total = (out, left)) :
    Read.Exact ⟨stp.sd_flag, count, total, out, none, left⟩ :=
  ⟨fun _ => (if_neg hmode).trans h, fun he => absurd rfl he⟩

theorem exact_message {stp : Stdata β} {count : ℕ} {total : List (List β)} {out : List β}
    {left : List (List β)} (hmode : stp.ByMessage)
    (h : readMessage (stp.has RMSGDIS) count total = (out, left)) :
    Read.Exact ⟨stp.sd_flag, count, total, out, none, left⟩ :=
  ⟨fun _ => (if_pos hmode).trans h, fun he => absurd rfl he⟩

/-- A read under way, with the messages `q` still to be read and the messages `total` that there
    have been for it: it has just begun, or it is of a byte stream, and what it has read and what it
    will read are what the whole read asks for, whatever else comes. -/
def Going (stp : Stdata β) (total : List (Msg β)) (r : Reader β) (q : List (List β)) : Prop :=
  (r.rflg = 0 ∧ r.out = [] ∧ r.uio_resid = r.count ∧ total.map Msg.data = q) ∨
    (r.rflg ≠ 0 ∧ ¬stp.ByMessage ∧ ∀ l, readStream r.count (total.map Msg.data ++ l) =
      (r.out ++ (takeStream r.uio_resid (q ++ l)).1, (takeStream r.uio_resid (q ++ l)).2))

/-- What holds in all states. -/
structure Sound (s : State β) : Prop where
  going : match s.proc with
    | .idle => True
    | .loop r | .asleep r => Going s.stp s.total r (s.stp.q.map Msg.data)
    | .got r bp => Going s.stp s.total r (bp.data :: s.stp.q.map Msg.data)
  reads : ∀ x ∈ s.reads, x.Exact
  late : s.late = false
  sleeps : ∀ late ∈ s.sleeps, late = false

/-- The message starts with data, if it has any. -/
def Msg.Plain (bp : Msg β) : Prop := bp.block = [] → bp.data = []

/-- The step is no wakeup by the timeout, and what is read is no message whose data comes after
    an empty block. -/
def Act.Ok (s : State β) : Act β → Prop
  | .message => ∀ r bp, s.proc = .got r bp → bp.Plain
  | .wake => s.expired = false
  | _ => True

namespace Going

variable {stp : Stdata β} {total : List (Msg β)} {r : Reader β} {q : List (List β)}

/-- Nothing that there has been is lost. -/
theorem flatten (h : Going stp total r q) : r.out ++ q.flatten = (total.map Msg.data).flatten := by
  rcases h with ⟨_, hout, _, rfl⟩ | ⟨_, _, h⟩
  · rw [hout, List.nil_append]
  · have := readStream_flatten r.count (total.map Msg.data ++ [])
    rw [h [], List.append_nil, List.append_nil, List.append_assoc, takeStream_flatten] at this
    exact this

/-- A message that comes can be read as well. -/
theorem event (h : Going stp total r q) (e : Event β) :
    Going (e.apply stp) (total ++ e.msgs) r (q ++ e.msgs.map Msg.data) := by
  rcases h with ⟨hflg, hout, hresid, hq⟩ | ⟨hflg, hmode, h⟩
  · exact .inl ⟨hflg, hout, hresid, by rw [List.map_append, hq]⟩
  · refine .inr ⟨hflg, fun hm => hmode ((byMessage_apply e stp).1 hm), fun l => ?_⟩
    rw [List.map_append, List.append_assoc, List.append_assoc]
    exact h _

/-- Where no message is left, the read may return with what it has. -/
theorem exact_nil (h : Going stp total r []) :
    Read.Exact ⟨stp.sd_flag, r.count, total.map Msg.data, r.out, none, []⟩ := by
  rcases h with ⟨_, hout, _, hq⟩ | ⟨_, hmode, h⟩
  · rw [hq, hout]
    by_cases hmode : stp.ByMessage
    · exact exact_message hmode rfl
    · exact exact_stream hmode rfl
  · refine exact_stream hmode ?_
    have := h []
    rwa [List.append_nil, List.append_nil, takeStream, List.append_nil] at this

/-- A read that fails. -/
theorem failed (h : Going stp total r q) (sd_flag : BitVec 32) (error : Errno) :
    Read.Exact ⟨sd_flag, r.count, total.map Msg.data, r.out, some error, q⟩ :=
  ⟨fun he => absurd he (Option.some_ne_none error), fun _ => h.flatten⟩

/-- Only the mode of the reads matters. -/
theorem congr (h : Going stp total r q) {stp' : Stdata β}
    (hmode : stp'.ByMessage → stp.ByMessage) : Going stp' total r q :=
  h.imp id fun ⟨hflg, hm, h⟩ => ⟨hflg, fun hm' => hm (hmode hm'), h⟩

end Going

/-! ## Steps -/

namespace Sound

variable {s : State β} {r : Reader β}

theorem ret (hs : Sound s) {stp : Stdata β} {error : Option Errno}
    (hx : Read.Exact ⟨stp.sd_flag, r.count, s.total.map Msg.data, r.out, error,
      stp.q.map Msg.data⟩) : Sound (s.ret stp r error) :=
  ⟨trivial, fun x hmem => (List.mem_append.1 hmem).elim (hs.reads x) fun h =>
    List.mem_singleton.1 h ▸ hx, hs.late, hs.sleeps⟩

theorem noMessage (hs : Sound s) (hproc : s.proc = .loop r) (hq : s.stp.q = []) :
    Sound (s.noMessage r) := by
  have hgoing : Going s.stp s.total r [] := by
    have := hs.going
    rwa [hproc, hq] at this
  have hmap : s.stp.q.map Msg.data = [] := by rw [hq, List.map_nil]
  have hnil : Read.Exact ⟨s.stp.sd_flag, r.count, s.total.map Msg.data, r.out, none,
      s.stp.q.map Msg.data⟩ := hmap ▸ hgoing.exact_nil
  have hfail (error : Errno) : Read.Exact ⟨s.stp.sd_flag, r.count, s.total.map Msg.data, r.out,
      some error, s.stp.q.map Msg.data⟩ := hmap ▸ hgoing.failed _ error
  rw [State.noMessage]
  split
  · exact hs.ret (hfail _)
  split
  · exact hs.ret (hfail _)
  split
  · split
    · exact hs.ret (hfail _)
    · exact hs.ret hnil
  split
  · exact hs.ret hnil
  split
  · exact hs.ret hnil
  split
  · exact hs.ret hnil
  · refine ⟨?_, hs.reads, hs.late, fun late h => ?_⟩
    rotate_left
    · exact (List.mem_append.1 h).elim (hs.sleeps late) fun h =>
        (List.mem_singleton.1 h).trans hs.late
    have hsleep (stp : Stdata β) (hq' : stp.q = s.stp.q)
        (hmode : stp.ByMessage ↔ s.stp.ByMessage) :
        Going (stp.set RSLEEP) s.total r ((stp.set RSLEEP).q.map Msg.data) := by
      rw [show (stp.set RSLEEP).q = [] from hq'.trans hq]
      exact hgoing.congr fun h => hmode.1 ((byMessage_set (by decide)).1 h)
    refine hsleep (if s.stp.has TIME_OUT then State.arm r.rflg s.stp else s.stp) ?_ ?_
    · split
      · exact arm_q _ _
      · rfl
    · split
      · exact byMessage_arm _ _
      · rfl

/-- A message is read, or as much of it as the request has room for. -/
theorem message {bp : Msg β} (hs : Sound s) (hproc : s.proc = .got r bp) (hplain : bp.Plain) :
    Sound (s.message r bp) := by
  have hgoing : Going s.stp s.total r (bp.data :: s.stp.q.map Msg.data) := by
    have := hs.going
    rwa [hproc] at this
  rw [State.message]
  by_cases hempty : bp.block = []
  · -- A message without data.
    rw [if_pos (List.isEmpty_iff.2 hempty)]
    have hdata := hplain hempty
    rw [hdata] at hgoing
    refine hs.ret ?_
    rcases hgoing with ⟨hflg, hout, _, hq⟩ | ⟨hflg, hmode, h⟩
    · rw [if_neg (not_not.2 hflg), hq, hout]
      by_cases hmode : s.stp.ByMessage
      · exact exact_message hmode (by simp [readMessage])
      · exact exact_stream hmode rfl
    · rw [if_pos hflg]
      refine exact_stream hmode ?_
      have := h []
      simp only [List.append_nil] at this
      rw [this]
      simp [takeStream, Stdata.putbq, hdata]
  · rw [if_neg (fun h => hempty (List.isEmpty_iff.1 h))]
    have hne : bp.data ≠ [] := fun h => hempty (List.append_eq_nil_iff.1 h).1
    have hblocks := readBlocks_eq (n := r.uio_resid) (l := bp.block :: bp.b_cont)
      (Nat.le_refl _) (fun b hb => Option.some.inj hb ▸ hempty)
    have hflat : (bp.block :: bp.b_cont).flatten = bp.data := rfl
    rw [hflat] at hblocks
    have hfuel : (bp.block :: bp.b_cont).length = bp.b_cont.length + 1 := rfl
    rw [hfuel] at hblocks
    generalize readBlocks (bp.b_cont.length + 1) r.uio_resid (bp.block :: bp.b_cont) = p at hblocks
    obtain ⟨d, uio_resid, l⟩ := p
    obtain ⟨hd, hresid, hl, hhead⟩ := hblocks
    dsimp only at hd hresid hl hhead ⊢
    subst hd hresid
    -- What the whole read gets, if it is of a byte stream.
    have hstream (hmode : ¬s.stp.ByMessage) (l' : List (List β)) :
        readStream r.count (s.total.map Msg.data ++ l') =
          (r.out ++ (takeStream r.uio_resid (bp.data :: s.stp.q.map Msg.data ++ l')).1,
            (takeStream r.uio_resid (bp.data :: s.stp.q.map Msg.data ++ l')).2) := by
      rcases hgoing with ⟨_, hout, hresid, hq⟩ | ⟨_, _, h⟩
      · rw [hout, hq, hresid, List.nil_append]
        exact readStream_cons hne _ _
      · exact h l'
    cases l with
    | nil =>
      -- All of it has been read.
      have hle : bp.data.length ≤ r.uio_resid := List.drop_eq_nil_iff.1 hl.symm
      have htake : bp.data.take r.uio_resid = bp.data := List.take_of_length_le hle
      simp only [htake]
      by_cases hmode : s.stp.ByMessage
      · rw [if_pos (.inr hmode)]
        refine hs.ret (exact_message hmode ?_)
        rcases hgoing with ⟨_, hout, hresid, hq⟩ | ⟨_, hm, _⟩
        · rw [hresid] at hle htake
          rw [hq, hout, readMessage, htake, if_pos (.inr hle)]
          rfl
        · exact absurd hmode hm
      · have hread (l' : List (List β)) := hstream hmode l'
        simp only [List.cons_append, takeStream_cons hne, if_neg hle.not_gt] at hread
        by_cases hzero : r.uio_resid - bp.data.length = 0
        · rw [if_pos (.inl hzero)]
          have := hread []
          rw [hzero, takeStream_zero, List.append_nil, List.append_nil, List.append_nil] at this
          exact hs.ret (exact_stream hmode this)
        · rw [if_neg (show ¬(_ ∨ s.stp.has _) from not_or.2 ⟨hzero, hmode⟩)]
          refine ⟨.inr ⟨Nat.succ_ne_zero _, hmode, fun l' => ?_⟩, hs.reads, hs.late, hs.sleeps⟩
          rw [hread l', List.append_assoc]
    | cons b l =>
      -- The request ends in it.
      have hb : b ≠ [] := hhead b rfl
      have hlt : r.uio_resid < bp.data.length := by
        by_contra hle
        rw [List.drop_of_length_le (not_lt.1 hle), List.flatten_cons, List.append_eq_nil_iff] at hl
        exact hb hl.1
      have hleft : Msg.data ⟨b, l⟩ = bp.data.drop r.uio_resid := hl
      dsimp only
      rw [if_pos (.inl (Nat.sub_eq_zero_of_le hlt.le))]
      refine hs.ret ?_
      by_cases hdis : s.stp.has RMSGDIS
      · rw [if_pos hdis]
        have hmode := byMessage_of_discard hdis
        refine exact_message hmode ?_
        rcases hgoing with ⟨_, hout, hresid, hq⟩ | ⟨_, hm, _⟩
        · rw [hq, hout, readMessage, hresid, if_pos (.inl (by simpa using hdis)), List.nil_append]
        · exact absurd hmode hm
      · rw [if_neg hdis]
        by_cases hmode : s.stp.ByMessage
        · have hmode' : (s.stp.putbq ⟨b, l⟩).ByMessage := hmode
          refine exact_message hmode' ?_
          rcases hgoing with ⟨_, hout, hresid, hq⟩ | ⟨_, hm, _⟩
          · rw [hresid] at hlt hleft ⊢
            rw [hq, hout, readMessage, if_neg, Stdata.putbq, List.map_cons, hleft, List.nil_append]
            exact not_or.2 ⟨fun h => hdis (of_decide_eq_true h), hlt.not_ge⟩
          · exact absurd hmode hm
        · have hmode' : ¬(s.stp.putbq ⟨b, l⟩).ByMessage := hmode
          refine exact_stream hmode' ?_
          have := hstream hmode []
          simp only [List.append_nil, takeStream_cons hne, if_pos hlt] at this
          rw [this, Stdata.putbq, List.map_cons, hleft]

/-- What every step keeps. -/
theorem step {s' : State β} {a : Act β} (hs : Sound s) (hok : a.Ok s)
    (h : strread.next s a = some s') : Sound s' := by
  have hgoing := hs.going
  cases a with
  | event e =>
    cases h
    refine ⟨?_, hs.reads, hs.late, hs.sleeps⟩
    have hq : (e.apply s.stp).q = s.stp.q ++ e.msgs := by
      cases e with
      | data bp =>
        rw [Event.apply, strrput]
        split <;> rfl
      | hangup => exact (List.append_nil _).symm
      | unwait =>
        rw [Event.apply, str_unwait]
        split <;> exact (List.append_nil _).symm
    simp only [State.event, hq, List.map_append]
    cases hproc : s.proc with
    | idle => trivial
    | loop r =>
      rw [hproc] at hgoing
      exact hgoing.event e
    | asleep r =>
      rw [hproc] at hgoing
      exact hgoing.event e
    | got r bp =>
      rw [hproc] at hgoing
      exact hgoing.event e
  | setopt sd_flag sd_error sd_wait sd_min =>
    cases hproc : s.proc with
    | idle =>
      simp only [strread, hproc] at h
      cases h
      exact ⟨trivial, hs.reads, hs.late, hs.sleeps⟩
    | _ => simp [strread, hproc] at h
  | strread count fndelay background =>
    cases hproc : s.proc with
    | idle =>
      simp only [strread, hproc] at h
      have hnew (stp : Stdata β) (q : List (Msg β)) :
          Going stp q ⟨count, count, [], 0, fndelay⟩ (q.map Msg.data) :=
        .inl ⟨rfl, rfl, rfl, rfl⟩
      have hs' : Sound { s with total := s.stp.q, late := false } :=
        ⟨by rw [hproc]; trivial, hs.reads, rfl, hs.sleeps⟩
      cases background with
      | some error =>
        cases h
        exact hs'.ret ((hnew s.stp s.stp.q).failed _ error)
      | none =>
        dsimp only at h
        split at h
        · cases h
          exact hs'.ret ((hnew s.stp s.stp.q).failed _ _)
        · cases h
          exact ⟨hnew s.stp s.stp.q, hs.reads, rfl, hs.sleeps⟩
    | _ => simp [strread, hproc] at h
  | getq =>
    cases hproc : s.proc with
    | loop r =>
      simp only [strread, hproc] at h
      cases hq : s.stp.q with
      | nil =>
        rw [hq] at h
        cases h
        exact hs.noMessage hproc hq
      | cons bp q =>
        rw [hq] at h
        cases h
        rw [hproc, hq] at hgoing
        exact ⟨hgoing.congr id, hs.reads, rfl, hs.sleeps⟩
    | _ => simp [strread, hproc] at h
  | message =>
    cases hproc : s.proc with
    | got r bp =>
      simp only [strread, hproc] at h
      cases h
      exact hs.message hproc (hok r bp hproc)
    | _ => simp [strread, hproc] at h
  | wake =>
    cases hproc : s.proc with
    | asleep r =>
      simp only [strread, hproc, wake_eq] at h
      cases h
      rw [hproc] at hgoing
      exact ⟨hgoing, hs.reads, hok, hs.sleeps⟩
    | _ => simp [strread, hproc] at h
  | intr =>
    cases hproc : s.proc with
    | asleep r =>
      simp only [strread, hproc] at h
      cases h
      rw [hproc] at hgoing
      exact hs.ret (hgoing.failed _ _)
    | _ => simp [strread, hproc] at h

end Sound

/-- In runs whose messages start with their data, and where no timeout ends a sleep, all reads are
    exact, and no sleep follows one that the timeout has ended. -/
theorem exact_of_ok {s : State β} (hs : strread.ReachableIf (fun s a => a.Ok s) s) :
    (∀ x ∈ s.reads, x.Exact) ∧ ∀ late ∈ s.sleeps, late = false := by
  have hsound : Sound s := hs.invariant (fun s hs => ?_) fun s a s' => Sound.step
  · exact ⟨hsound.reads, hsound.sleeps⟩
  · obtain ⟨_, hproc, hlate, hreads, hsleeps⟩ := hs
    exact ⟨by rw [hproc]; trivial, by simp [hreads], hlate, by simp [hsleeps]⟩

/-- Nothing on the stream, and no flags. -/
def blank : State ℕ where
  stp := ⟨[], 0, .eio, 0, 0⟩
  proc := .idle
  total := []
  fired := false
  late := false
  reads := []
  sleeps := []

/-- Two bytes of a message of three, with `RMSGNODIS`. -/
def partRun : List (Act ℕ) :=
  [.setopt RMSGNODIS .eio 0 0, .event (.data ⟨[1], [[2, 3]]⟩), .strread 2 false none, .getq,
    .message]

theorem exact_part : ∃ s, strread.run blank partRun = some s ∧
    s.reads = [⟨RMSGNODIS, 2, [[1, 2, 3]], [1, 2], none, [[3]]⟩] ∧ ∀ x ∈ s.reads, x.Exact := by
  have h₀ : strread.ReachableIf (fun s a => a.Ok s) blank := .init ⟨rfl, rfl, rfl, rfl, rfl⟩
  have h₁ := (h₀.step (a := Act.setopt RMSGNODIS .eio 0 0) trivial rfl).step
    (a := Act.event (.data ⟨[1], [[2, 3]]⟩)) trivial rfl
  have h₂ := (h₁.step (a := Act.strread 2 false none) trivial rfl).step (a := Act.getq) trivial rfl
  have h₃ := h₂.step (a := Act.message)
    (fun r bp h => by cases h; exact fun h => absurd h (List.cons_ne_nil _ _)) rfl
  exact ⟨_, rfl, by decide, (exact_of_ok h₃).1⟩

/-- A message whose first block is empty. -/
def hiddenRun : List (Act ℕ) :=
  [.event (.data ⟨[], [[7]]⟩), .strread 1 false none, .getq, .message]

/-- A terminal with a time but no minimum, where nothing is typed. -/
def expiredRun : List (Act ℕ) :=
  [.setopt TIME_OUT .eio 1 0, .strread 1 false none, .getq, .event .unwait, .wake, .getq]

/-- The message is lost, and the read sleeps again. -/
theorem not_read_exact : (¬∀ s : State ℕ, strread.Reachable s → ∀ x ∈ s.reads, x.Exact) ∧
    ¬∀ s : State ℕ, strread.Reachable s → ∀ late ∈ s.sleeps, late = false := by
  have hinit : strread.Reachable (blank : State ℕ) := .init ⟨rfl, rfl, rfl, rfl, rfl⟩
  constructor
  · intro h
    obtain ⟨s, hs⟩ : ∃ s, strread.run blank hiddenRun = some s :=
      Option.isSome_iff_exists.1 (by decide)
    have hreads : (strread.run blank hiddenRun).map State.reads =
        some [⟨0, 1, [[7]], [], none, []⟩] := by decide
    rw [hs, Option.map_some, Option.some.injEq] at hreads
    have := (h s (Machine.reachableIf_run hinit (fun _ _ _ => trivial) hs) _
      (hreads ▸ List.mem_singleton_self _)).read rfl
    exact absurd this (by decide)
  · intro h
    obtain ⟨s, hs⟩ : ∃ s, strread.run blank expiredRun = some s :=
      Option.isSome_iff_exists.1 (by decide)
    have hsleeps : (strread.run blank expiredRun).map State.sleeps = some [false, true] := by
      decide
    rw [hs, Option.map_some, Option.some.injEq] at hsleeps
    have hmem : true ∈ s.sleeps := hsleeps ▸ List.mem_cons_of_mem _ (List.mem_singleton_self _)
    exact absurd (h s (Machine.reachableIf_run hinit (fun _ _ _ => trivial) hs) _ hmem)
      Bool.noConfusion

end AuxKernel.Stream.Head
