import AuxKernel.Net.Sockbuf

/-!
# Socket buffers keep their stream

What appending does to a chain (`sbappend1_cases`), and dropping (`Sound.sbdrop`): each keeps
the counts, as long as they fit into a `short`, and the stream of bytes and marks.

* `sockbuf_of_clean`: the counts and the stream of a socket buffer in every state of a run in
  which no buffer is flushed that ends with an mbuf of length zero, and that it does not panic.
-/

namespace AuxKernel.Net

variable {α : Type*} {sb sb' : Sockbuf α} {l l' : List (Mbuf α)} {m : Mbuf α}

@[simp] theorem chars_nil : chars ([] : List (Mbuf α)) = 0 := rfl
@[simp] theorem space_nil : space ([] : List (Mbuf α)) = 0 := rfl
@[simp] theorem tokens_nil : tokens ([] : List (Mbuf α)) = [] := rfl

@[simp] theorem chars_cons : chars (m :: l) = m.m_len + chars l := List.sum_cons
@[simp] theorem space_cons : space (m :: l) = m.size + space l := List.sum_cons
@[simp] theorem tokens_cons : tokens (m :: l) = m.tokens ++ tokens l := rfl

@[simp] theorem chars_append : chars (l ++ l') = chars l + chars l' := by
  rw [chars, List.map_append, List.sum_append, chars, chars]

@[simp] theorem space_append : space (l ++ l') = space l + space l' := by
  rw [space, List.map_append, List.sum_append, space, space]

@[simp] theorem tokens_append : tokens (l ++ l') = tokens l ++ tokens l' := List.flatMap_append

/-- The number of bytes among tokens. -/
def byteCount (t : List (Token α)) : ℕ := t.countP Token.isByte

@[simp] theorem byteCount_append (t t' : List (Token α)) :
    byteCount (t ++ t') = byteCount t + byteCount t' := List.countP_append

theorem byteCount_map_byte (d : List α) : byteCount (d.map .byte) = d.length := by
  rw [byteCount, List.countP_map]
  exact congrFun List.countP_true d

theorem byteCount_tokens (m : Mbuf α) : byteCount m.tokens = m.m_len := by
  have hmark : byteCount (if m.m_act then [(.mark : Token α)] else []) = 0 := by
    split_ifs <;> rfl
  rw [Mbuf.tokens, byteCount_append, byteCount_map_byte, hmark]
  rfl

theorem byteCount_tokens_eq (l : List (Mbuf α)) : byteCount (tokens l) = chars l := by
  induction l with
  | nil => rfl
  | cons m l ih => rw [tokens_cons, byteCount_append, byteCount_tokens, ih, chars_cons]

/-- What was dropped ends with a byte, or with the mark behind it: no other mark went with it. -/
def Ended (t : List (Token α)) : Prop :=
  t = [] ∨ ∃ t' b, t = t' ++ [.byte b] ∨ t = t' ++ [.byte b, .mark]

theorem Ended.append {t t' : List (Token α)} (h : Ended t) (h' : Ended t') : Ended (t ++ t') := by
  rcases h' with rfl | ⟨u, b, rfl | rfl⟩
  · simpa using h
  · exact .inr ⟨t ++ u, b, .inl (List.append_assoc _ _ _).symm⟩
  · exact .inr ⟨t ++ u, b, .inr (List.append_assoc _ _ _).symm⟩

theorem ended_map_byte (d : List α) : Ended (d.map .byte) := by
  rcases List.eq_nil_or_concat d with rfl | ⟨d, b, rfl⟩
  · exact .inl rfl
  · exact .inr ⟨d.map .byte, b, .inl (by simp)⟩

/-- An mbuf that is not empty ends with a byte, or its mark. -/
theorem ended_tokens (h : m.m_len ≠ 0) : Ended m.tokens := by
  rcases List.eq_nil_or_concat m.data with hd | ⟨d, b, hd⟩
  · exact absurd (congrArg List.length hd) h
  · refine .inr ⟨d.map .byte, b, ?_⟩
    rw [Mbuf.tokens, hd]
    split_ifs <;> simp

/-- The counts of a socket buffer are those of a chain, and fit into a `short`. -/
structure Counts (sb : Sockbuf α) (l : List (Mbuf α)) : Prop where
  fits : ∀ m ∈ l, m.Fits
  cc : sb.sb_cc = chars l
  mbcnt : sb.sb_mbcnt = space l
  chars_lt : chars l < 2 ^ 15
  space_lt : space l < 2 ^ 15

/-! ## Appending -/

/-- An mbuf is copied to the end of the last one, or it comes to be the last one. -/
theorem sbappend1_cases (sb : Sockbuf α) (m : Mbuf α) :
    (∃ l n, sb.sb_mb = l ++ [n] ∧ Sockbuf.fits n m = true ∧ sb.sbappend1 m =
      { sb with
        sb_mb := l ++ [{ n with data := n.data ++ m.data }]
        sb_cc := toShort (sb.sb_cc + m.m_len) }) ∨
    sb.sbappend1 m = { sb.sballoc m with sb_mb := sb.sb_mb ++ [m] } := by
  rw [Sockbuf.sbappend1]
  split
  next n hn =>
    obtain ⟨l, hl⟩ := List.getLast?_eq_some_iff.1 hn
    split_ifs with hfits
    · exact .inl ⟨l, n, hl, hfits, by simp [hl]⟩
    · exact .inr rfl
  next => exact .inr rfl

theorem tokens_sbappend1 (sb : Sockbuf α) (m : Mbuf α) :
    tokens (sb.sbappend1 m).sb_mb = tokens sb.sb_mb ++ m.tokens := by
  rcases sbappend1_cases sb m with ⟨l, n, hl, hfits, heq⟩ | heq
  · -- neither of the two has a mark
    simp only [Sockbuf.fits, Bool.and_eq_true, Bool.not_eq_true'] at hfits
    obtain ⟨⟨⟨-, hn⟩, hm⟩, -⟩ := hfits
    simp [heq, hl, Mbuf.tokens, hn, hm]
  · simp [heq]

theorem le_sbappend1 (sb : Sockbuf α) (m : Mbuf α) :
    chars sb.sb_mb ≤ chars (sb.sbappend1 m).sb_mb ∧
      space sb.sb_mb ≤ space (sb.sbappend1 m).sb_mb := by
  rcases sbappend1_cases sb m with ⟨l, n, hl, -, heq⟩ | heq
  · rw [heq, hl]
    simp [Mbuf.m_len, Mbuf.size]
  · simp [heq]

theorem le_sbappend (sb : Sockbuf α) (l : List (Mbuf α)) :
    chars sb.sb_mb ≤ chars (sb.sbappend l).sb_mb ∧
      space sb.sb_mb ≤ space (sb.sbappend l).sb_mb := by
  induction l generalizing sb with
  | nil => exact ⟨le_rfl, le_rfl⟩
  | cons m l ih =>
    rw [Sockbuf.sbappend]
    split_ifs
    · exact ih sb
    · exact ⟨(le_sbappend1 sb m).1.trans (ih _).1, (le_sbappend1 sb m).2.trans (ih _).2⟩

theorem tokens_sbappend (sb : Sockbuf α) (l : List (Mbuf α)) :
    tokens (sb.sbappend l).sb_mb = tokens sb.sb_mb ++ tokens l := by
  induction l generalizing sb with
  | nil => simp [Sockbuf.sbappend]
  | cons m l ih =>
    rw [Sockbuf.sbappend]
    split_ifs with h
    · have hm : m.tokens = [] := by simp [Mbuf.tokens, h.2, List.eq_nil_of_length_eq_zero h.1]
      rw [ih, tokens_cons, hm, List.nil_append]
    · rw [ih, tokens_sbappend1, tokens_cons, List.append_assoc]

theorem Counts.sbappend1 (h : Counts sb sb.sb_mb) (hm : m.Fits)
    (hc : chars (sb.sbappend1 m).sb_mb < 2 ^ 15) (hs : space (sb.sbappend1 m).sb_mb < 2 ^ 15) :
    Counts (sb.sbappend1 m) (sb.sbappend1 m).sb_mb := by
  have hcc := h.cc
  have hmbcnt := h.mbcnt
  have hfits := h.fits
  rcases sbappend1_cases sb m with ⟨l, n, hl, hroom, heq⟩ | heq
  · simp only [heq, hl, chars_append, chars_cons, chars_nil, space_append, space_cons, space_nil,
      Mbuf.m_len, Mbuf.size, List.length_append] at hc hs hcc hmbcnt hfits ⊢
    refine ⟨fun x hx => ?_, ?_, ?_, ?_, ?_⟩
    · rcases List.mem_append.1 hx with hx | hx
      · exact hfits x (List.mem_append_left _ hx)
      · obtain rfl := List.mem_singleton.1 hx
        simp only [Sockbuf.fits, Bool.and_eq_true, decide_eq_true_eq] at hroom
        have hn := hfits n (List.mem_append_right _ List.mem_cons_self)
        exact fun hoff => ⟨(hn hoff).1, by simpa [Mbuf.m_len, Nat.add_assoc] using hroom.2⟩
    · simp only [chars_append, chars_cons, chars_nil, Mbuf.m_len, List.length_append]
      rw [hcc, toShort_of_mem (by omega) (by omega)]
      push_cast
      omega
    · simpa [Mbuf.size] using hmbcnt
    · simpa [Mbuf.m_len] using hc
    · simpa [Mbuf.size] using hs
  · simp only [heq, chars_append, chars_cons, chars_nil, space_append, space_cons, space_nil]
      at hc hs ⊢
    refine ⟨fun x hx => ?_, ?_, ?_, by simpa using hc, by simpa using hs⟩
    · rcases List.mem_append.1 hx with hx | hx
      · exact hfits x hx
      · exact List.mem_singleton.1 hx ▸ hm
    · simp only [Sockbuf.sballoc, chars_append, chars_cons, chars_nil]
      rw [hcc, toShort_of_mem (by omega) (by omega)]
      push_cast
      omega
    · simp only [Sockbuf.sballoc, space_append, space_cons, space_nil, Mbuf.size] at hs ⊢
      rw [hmbcnt, toShort_of_mem (by split_ifs <;> omega) (by split_ifs at hs ⊢ <;> omega)]
      push_cast
      split_ifs <;> omega

theorem Counts.sbappend (h : Counts sb sb.sb_mb) (hl : ∀ m ∈ l, m.Fits)
    (hc : chars (sb.sbappend l).sb_mb < 2 ^ 15) (hs : space (sb.sbappend l).sb_mb < 2 ^ 15) :
    Counts (sb.sbappend l) (sb.sbappend l).sb_mb := by
  induction l generalizing sb with
  | nil => exact h
  | cons m l ih =>
    obtain ⟨hm, hl⟩ := List.forall_mem_cons.1 hl
    rw [Sockbuf.sbappend] at hc hs ⊢
    split_ifs at hc hs ⊢
    · exact ih h hl hc hs
    · have hle := le_sbappend (sb.sbappend1 m) l
      exact ih (h.sbappend1 hm (hle.1.trans_lt hc) (hle.2.trans_lt hs)) hl hc hs

/-! ## Dropping -/

theorem LastFull.tail (h : LastFull (m :: l)) : LastFull l := by
  intro n hn
  cases l with
  | nil => exact nomatch hn
  | cons m' l => exact h n (by rwa [List.getLast?_cons_cons])

theorem LastFull.head {m' : Mbuf α} (h : LastFull (m :: l)) (hm : m'.m_len ≠ 0) :
    LastFull (m' :: l) := by
  intro n hn
  cases l with
  | nil =>
    obtain rfl : m' = n := by simpa using hn
    exact hm
  | cons m'' l => exact h n (by rwa [List.getLast?_cons_cons] at hn ⊢)

/-- A chain whose last mbuf is not empty has bytes. -/
theorem LastFull.eq_nil (h : LastFull l) (hl : chars l = 0) : l = [] := by
  rcases List.eq_nil_or_concat l with rfl | ⟨l, m, rfl⟩
  · rfl
  · have hm : m.m_len ≠ 0 := h m (by simp)
    simp only [List.concat_eq_append, chars_append, chars_cons, chars_nil] at hl
    omega

/-- The mbufs that are taken off a chain, and what is left. -/
theorem Counts.sbdrop {len : ℕ} (h : Counts sb l) (hlen : len ≤ chars l) :
    ∃ sb' gone, sb.sbdrop len l = some sb' ∧ Counts sb' sb'.sb_mb ∧
      tokens l = gone ++ tokens sb'.sb_mb ∧ byteCount gone = len ∧ Ended gone ∧
      (LastFull l → LastFull sb'.sb_mb) := by
  induction sb, len, l using Sockbuf.sbdrop.induct with
  | case1 sb l =>
    rw [Sockbuf.sbdrop]
    exact ⟨_, [], rfl, ⟨h.fits, h.cc, h.mbcnt, h.chars_lt, h.space_lt⟩, rfl, rfl, .inl rfl, id⟩
  | case2 sb len => exact absurd hlen (by simp)
  | case3 sb len m l hlt =>
    -- a part of the mbuf stays
    obtain ⟨hfits, hcc, hmbcnt, hc, hs⟩ := h
    obtain ⟨hm, hl⟩ := List.forall_mem_cons.1 hfits
    rw [Sockbuf.sbdrop, if_pos hlt]
    rw [Mbuf.m_len] at hlt
    rw [chars_cons, Mbuf.m_len] at hcc hc
    have hsize : Mbuf.size { m with
        m_off := m.m_off + (len + 1), data := m.data.drop (len + 1) } = m.size := by
      have hin : m.m_off ≤ MMAXOFF → m.m_off + m.data.length ≤ MMAXOFF := fun h => (hm h).2
      simp only [Mbuf.size]
      split_ifs <;> omega
    have htokens : m.tokens = (m.data.take (len + 1)).map .byte ++
        Mbuf.tokens { m with m_off := m.m_off + (len + 1), data := m.data.drop (len + 1) } := by
      rw [Mbuf.tokens, Mbuf.tokens]
      dsimp only
      rw [← List.append_assoc, ← List.map_append, List.take_append_drop]
    refine ⟨_, (m.data.take (len + 1)).map .byte, rfl, ⟨?_, ?_, ?_, ?_, ?_⟩, ?_, ?_,
      ended_map_byte _, fun h => h.head ?_⟩
    · refine List.forall_mem_cons.2 ⟨fun hoff => ?_, hl⟩
      have := hm (by dsimp only at hoff; omega)
      simp only [Mbuf.m_len, List.length_drop] at this ⊢
      omega
    · simp only [chars_cons, Mbuf.m_len, List.length_drop]
      rw [hcc, toShort_of_mem (by omega) (by omega)]
      omega
    · rw [hmbcnt, space_cons, space_cons, hsize]
    · simp only [chars_cons, Mbuf.m_len, List.length_drop]
      omega
    · rwa [space_cons, hsize, ← space_cons]
    · rw [tokens_cons, tokens_cons, htokens, List.append_assoc]
    · rw [byteCount_map_byte, List.length_take, min_eq_left hlt.le]
    · rw [Mbuf.m_len, List.length_drop]
      omega
  | case4 sb len m l hle ih =>
    obtain ⟨hfits, hcc, hmbcnt, hc, hs⟩ := h
    obtain ⟨hm, hl⟩ := List.forall_mem_cons.1 hfits
    rw [Sockbuf.sbdrop, if_neg hle]
    rw [not_lt] at hle
    rw [chars_cons] at hcc hc hlen
    rw [space_cons] at hmbcnt hs
    have hfree : Counts (sb.sbfree m) l := by
      refine ⟨hl, ?_, ?_, by omega, by omega⟩
      · simp only [Sockbuf.sbfree]
        rw [hcc, toShort_of_mem (by omega) (by omega)]
        omega
      · simp only [Sockbuf.sbfree]
        rw [hmbcnt, toShort_of_mem] <;> simp only [Mbuf.size] at hs ⊢ <;> split_ifs at hs ⊢ <;>
          push_cast <;> omega
    obtain ⟨sb', gone, hdrop, hcounts, htokens, hgone, hended, hlast⟩ := ih hfree (by omega)
    refine ⟨sb', m.tokens ++ gone, hdrop, hcounts, ?_, ?_, ?_, fun h => hlast h.tail⟩
    · rw [tokens_cons, htokens, List.append_assoc]
    · rw [byteCount_append, byteCount_tokens, hgone]
      omega
    · -- an mbuf of length zero was not the last to go
      rcases eq_or_ne m.m_len 0 with h₀ | h₀
      · rcases hended with rfl | ⟨t, b, ht⟩
        · simp [byteCount, h₀] at hgone
        · exact .inr ⟨m.tokens ++ t, b, ht.imp (fun ht => by rw [ht, List.append_assoc])
            fun ht => by rw [ht, List.append_assoc]⟩
      · exact (ended_tokens h₀).append hended

/-! ## The calls -/

section Calls

variable {s s' : SockRun α}

theorem mem_markLast {x : Mbuf α} (h : x ∈ Sock.markLast l) :
    ∃ y ∈ l, x.m_off = y.m_off ∧ x.data = y.data := by
  induction l using Sock.markLast.induct with
  | case1 => exact absurd h List.not_mem_nil
  | case2 m =>
    obtain rfl := List.mem_singleton.1 h
    exact ⟨m, List.mem_cons_self, rfl, rfl⟩
  | case3 m l hne ih =>
    rw [Sock.markLast] at h
    · rcases List.mem_cons.1 h with rfl | h
      · exact ⟨x, List.mem_cons_self, rfl, rfl⟩
      · obtain ⟨y, hy, heq⟩ := ih h
        exact ⟨y, List.mem_cons_of_mem _ hy, heq⟩
    · exact hne

theorem fits_markLast (h : ∀ x ∈ l, x.Fits) : ∀ x ∈ Sock.markLast l, x.Fits := by
  intro x hx
  obtain ⟨y, hy, hoff, hdata⟩ := mem_markLast hx
  simpa only [Mbuf.Fits, Mbuf.m_len, hoff, hdata] using h y hy

theorem fits_rights {rights0 : Option (Mbuf α)} (h : ∀ x ∈ rights0, x.Fits) :
    (Sock.rights rights0).Fits := by
  have hempty : Mbuf.Fits (⟨MMINOFF, [], false⟩ : Mbuf α) := fun _ => by
    simp [Mbuf.m_len, MMINOFF, MMAXOFF, MSIZE]
  cases rights0 with
  | none => exact hempty
  | some r =>
    have hr := h r rfl
    rw [Sock.rights]
    split_ifs
    · exact hempty
    · intro hoff
      change MMINOFF ≤ (Sock.copyAll r).m_off ∧ (Sock.copyAll r).m_off + r.m_len ≤ MMAXOFF
      simp only [Sock.copyAll] at hoff ⊢
      split_ifs at hoff ⊢ with hbig
      · omega
      · -- the data are copied into the mbuf
        refine ⟨le_rfl, ?_⟩
        simp only [Mbuf.Fits, MMINOFF, MMAXOFF, MLEN, MSIZE] at hr hbig ⊢
        omega

/-- `sbappendaddr` appends a chain, which may be empty; or it panics for want of data. -/
theorem sbappendaddr_cases (sb : Sock α) {asa : List α} {m0 : List (Mbuf α)}
    {rights0 : Option (Mbuf α)} (rightsflag name copy : Bool) (hasa : asa.length = SOCKADDR)
    (hm0 : ∀ x ∈ m0, x.Fits) (hr : ∀ x ∈ rights0, x.Fits) :
    sb.sbappendaddr asa m0 rights0 rightsflag name copy = .error .sbappendaddr ∨
    ∃ m, (∀ x ∈ m, x.Fits) ∧
      sb.sbappendaddr asa m0 rights0 rightsflag name copy = .ok (m, sb.append m) := by
  have hnil : ∃ m, (∀ x ∈ m, x.Fits) ∧
      (.ok ([], sb) : Except Panic _) = .ok (m, sb.append m) :=
    ⟨[], fun _ h => absurd h List.not_mem_nil, rfl⟩
  have hname : Mbuf.Fits (⟨MMINOFF, asa, true⟩ : Mbuf α) := fun _ => by
    simp [Mbuf.m_len, hasa, SOCKADDR, MMINOFF, MMAXOFF, MSIZE]
  have hrights : Mbuf.Fits { Sock.rights rights0 with m_act := true } := fits_rights hr
  rw [Sock.sbappendaddr]
  dsimp only
  split_ifs
  · exact .inl rfl
  · exact .inr hnil
  · exact .inr hnil
  · exact .inr ⟨_, List.forall_mem_cons.2
      ⟨hname, List.forall_mem_cons.2 ⟨hrights, fits_markLast hm0⟩⟩, rfl⟩
  · exact .inr ⟨_, List.forall_mem_cons.2 ⟨hname, fits_markLast hm0⟩, rfl⟩

/-- The counts are those of the mbufs, what was appended is there but for a prefix, and
    neither panic was reached. -/
structure Inv (s : SockRun α) : Prop where
  counts : Counts s.toSockbuf s.sb_mb
  stream : ∃ gone, s.appended = gone ++ tokens s.sb_mb ∧ byteCount gone = s.dropped ∧ Ended gone
  panicked : s.panicked ≠ some .sbdrop ∧ s.panicked ≠ some .sbflush2

theorem Inv.append (h : Inv s) (hl : ∀ x ∈ l, x.Fits)
    (hc : chars (s.sbappend l).sb_mb < 2 ^ 15) (hs : space (s.sbappend l).sb_mb < 2 ^ 15) :
    Inv { s with toSock := s.toSock.append l, appended := s.appended ++ tokens l } := by
  refine ⟨h.counts.sbappend hl hc hs, ?_, h.panicked⟩
  obtain ⟨gone, happ, hgone, hended⟩ := h.stream
  refine ⟨gone, ?_, hgone, hended⟩
  change s.appended ++ tokens l = gone ++ tokens (s.sbappend l).sb_mb
  rw [tokens_sbappend, happ, List.append_assoc]

theorem Inv.panic (h : Inv s) {e : Panic} (h₁ : e ≠ .sbdrop) (h₂ : e ≠ .sbflush2) :
    Inv { s with panicked := some e } :=
  ⟨h.counts, h.stream, fun he => h₁ (Option.some.inj he), fun he => h₂ (Option.some.inj he)⟩

/-- What is dropped is taken off the front of the stream. -/
theorem Inv.drop {len : ℕ} (h : Inv s) (hlen : len ≤ chars s.sb_mb) :
    ∃ sb', s.sbdrop len s.sb_mb = some sb' ∧ (LastFull s.sb_mb → LastFull sb'.sb_mb) ∧
      chars sb'.sb_mb + len = chars s.sb_mb ∧
      Inv { s with toSockbuf := sb', dropped := s.dropped + len } := by
  obtain ⟨sb', gone', hdrop, hcounts, htokens, hgone', hended', hlast⟩ := h.counts.sbdrop hlen
  obtain ⟨gone, happ, hgone, hended⟩ := h.stream
  refine ⟨sb', hdrop, hlast, ?_, hcounts, ⟨gone ++ gone', ?_, ?_, hended.append hended'⟩,
    h.panicked⟩
  · have hcount := congrArg byteCount htokens
    rw [byteCount_append, byteCount_tokens_eq, byteCount_tokens_eq, hgone'] at hcount
    omega
  · change s.appended = gone ++ gone' ++ tokens sb'.sb_mb
    rw [happ, htokens, List.append_assoc]
  · rw [byteCount_append, hgone, hgone']

/-- A buffer without bytes whose last mbuf is not empty is empty, and its counts are zero. -/
theorem Counts.empty (h : Counts sb sb.sb_mb) (hlast : LastFull sb.sb_mb)
    (hc : chars sb.sb_mb = 0) : ¬(sb.sb_cc ≠ 0 ∨ sb.sb_mbcnt ≠ 0 ∨ sb.sb_mb ≠ []) := by
  have hnil := hlast.eq_nil hc
  have hcc := h.cc
  have hmbcnt := h.mbcnt
  rw [hc] at hcc
  rw [hnil] at hmbcnt
  simp [hcc, hmbcnt, hnil]

/-- Where the last mbuf is not empty, a flush leaves nothing. -/
theorem Inv.flush (h : Inv s) (hlast : LastFull s.sb_mb) : Inv (s.call .flush) := by
  change Inv (s.orPanic s.sbflush _)
  have hcc := h.counts.cc
  rw [Sock.sbflush]
  split_ifs with hlock hzero
  · exact h.panic (by decide) (by decide)
  · -- as many bytes are dropped as there are
    have htoNat : s.sb_cc.toNat = chars s.sb_mb := by omega
    obtain ⟨sb', hdrop, hlast', hchars, hinv⟩ := h.drop le_rfl
    have hempty := hinv.counts.empty (hlast' hlast) (by dsimp only; omega)
    simp only [Sock.drop, htoNat, hdrop, Except.bind]
    rw [if_neg hempty]
    exact hinv
  · have hempty := h.counts.empty hlast (by omega)
    simp only [Except.bind]
    rw [if_neg hempty]
    have hsame : s.dropped + s.sb_cc.toNat = s.dropped := by omega
    simp only [SockRun.orPanic, hsame]
    exact h

/-- A call that is made as it should be, and does not flush a buffer that ends with an mbuf of
    length zero. -/
theorem Inv.call {a : SockAct α} (h : Inv s) (ha : Fair s a) (hclean : Clean s a) :
    Inv (s.call a) := by
  obtain ⟨hlegal, hc, hs⟩ := ha
  cases a with
  | append m => exact h.append hlegal hc hs
  | appendaddr asa m0 rights0 rightsflag name copy =>
    obtain ⟨hasa, hm0, hr⟩ := hlegal
    rw [SockRun.call] at hc hs ⊢
    rcases sbappendaddr_cases s.toSock rightsflag name copy hasa hm0 hr with heq | ⟨m, hm, heq⟩
    · rw [heq]
      exact h.panic (by decide) (by decide)
    · rw [heq] at hc hs ⊢
      exact h.append hm hc hs
  | drop len =>
    have hcc := h.counts.cc
    have hle : len ≤ s.sb_cc := hlegal
    have hfew : len.toNat ≤ chars s.sb_mb := by omega
    obtain ⟨sb', hdrop, -, -, hinv⟩ := h.drop hfew
    rw [SockRun.call, Sock.drop, hdrop]
    exact hinv
  | flush => exact h.flush hclean

theorem inv_of_lastFull (h : (sockbuf α).ReachableIf (fun s a => Fair s a ∧ Clean s a) s) :
    Inv s := by
  refine h.invariant (fun s hs => ?_) fun s a s' h ha hn => ?_
  · obtain ⟨hmb, hcc, hmbcnt, happ, hdropped, hpanicked⟩ := hs
    refine ⟨⟨?_, ?_, ?_, ?_, ?_⟩, ⟨[], ?_, hdropped.symm, .inl rfl⟩, ?_⟩
    · simp [hmb]
    · simp [hmb, hcc]
    · simp [hmb, hmbcnt]
    · simp [hmb]
    · simp [hmb]
    · simp [happ, hmb]
    · simp [hpanicked]
  · change (if s.panicked.isSome then none else some (s.call a)) = some s' at hn
    split_ifs at hn
    exact Option.some.inj hn ▸ h.call ha.1 ha.2

/-- While no buffer is flushed that ends with an mbuf of length zero, the counts are those of
    the mbufs, the mbufs hold what was appended but for the bytes that were dropped, with all
    marks, and neither `sbdrop` nor `sbflush` panics for want of mbufs, or for mbufs left. -/
theorem sockbuf_of_clean (h : (sockbuf α).ReachableIf (fun s a => Fair s a ∧ Clean s a) s) :
    s.sb_cc = chars s.sb_mb ∧ s.sb_mbcnt = space s.sb_mb ∧
    (∃ gone, s.appended = gone ++ tokens s.sb_mb ∧ byteCount gone = s.dropped ∧ Ended gone) ∧
    s.panicked ≠ some .sbdrop ∧ s.panicked ≠ some .sbflush2 := by
  have hinv := inv_of_lastFull h
  exact ⟨hinv.counts.cc, hinv.counts.mbcnt, hinv.stream, hinv.panicked⟩

/-- Bytes are appended, flushed, and a record with its address comes in, of which the address
    and a byte of the data are taken out. -/
theorem sockbuf_record : ∃ s : SockRun UInt8,
    tokens s.sb_mb = [.byte 2, .mark] ∧ s.dropped = 20 ∧ s.sb_mbcnt = 256 ∧
    (s.sb_cc = chars s.sb_mb ∧ s.sb_mbcnt = space s.sb_mb ∧
    (∃ gone, s.appended = gone ++ tokens s.sb_mb ∧ byteCount gone = s.dropped ∧ Ended gone) ∧
    s.panicked ≠ some .sbdrop ∧ s.panicked ≠ some .sbflush2) := by
  let start : SockRun UInt8 := ⟨⟨⟨[], 0, 0⟩, 4096, 4096, false⟩, [], 0, none⟩
  let acts : List (SockAct UInt8) := [.append [⟨12, [7], false⟩, ⟨12, [8, 9], false⟩], .flush,
    .appendaddr (List.replicate 16 0) [⟨12, [1, 2], false⟩] none false true true, .drop 17]
  obtain ⟨s, hs, hl⟩ := Option.map_eq_some_iff.1
    (show ((sockbuf UInt8).runIf (fun s a => Fair s a ∧ Clean s a) start acts).map
      (fun s => (tokens s.sb_mb, s.dropped, s.sb_mbcnt)) = some ([.byte 2, .mark], 20, 256)
      by decide)
  obtain ⟨htokens, hdropped, hmbcnt⟩ : tokens s.sb_mb = [.byte 2, .mark] ∧ s.dropped = 20 ∧
      s.sb_mbcnt = 256 := by simpa using hl
  exact ⟨s, htokens, hdropped, hmbcnt,
    sockbuf_of_clean (Machine.reachableIf_runIf (.init ⟨rfl, rfl, rfl, rfl, rfl, rfl⟩) hs)⟩

/-- A record without data comes in; when the buffer is flushed its address goes, but the empty
    mbuf stays, and it panics. -/
theorem not_sockbuf : ¬∀ s : SockRun UInt8, (sockbuf UInt8).ReachableIf Fair s →
    s.sb_cc = chars s.sb_mb ∧ s.sb_mbcnt = space s.sb_mb ∧
    (∃ gone, s.appended = gone ++ tokens s.sb_mb ∧ byteCount gone = s.dropped ∧ Ended gone) ∧
    s.panicked ≠ some .sbdrop ∧ s.panicked ≠ some .sbflush2 := by
  intro h
  let start : SockRun UInt8 := ⟨⟨⟨[], 0, 0⟩, 4096, 4096, false⟩, [], 0, none⟩
  let acts : List (SockAct UInt8) :=
    [.appendaddr (List.replicate 16 0) [⟨40, [], false⟩] none false true true, .flush]
  obtain ⟨s, hs, hl⟩ := Option.map_eq_some_iff.1
    (show ((sockbuf UInt8).runIf Fair start acts).map (fun s => s.panicked) =
      some (some .sbflush2) by decide)
  obtain ⟨-, -, -, -, hflush⟩ := h s
    (Machine.reachableIf_runIf (.init ⟨rfl, rfl, rfl, rfl, rfl, rfl⟩) hs)
  exact hflush hl

end Calls

end AuxKernel.Net
