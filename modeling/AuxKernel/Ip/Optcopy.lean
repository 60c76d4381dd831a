import AuxKernel.Ip.Output

/-!
# Which options are copied

`ip_optcopy` goes from one option to the next by the second byte of an option, which is its length.

* One of length zero is looked at for ever (`scan_stuck`), and for one that starts at the last byte
  the length is read behind the options.
* If there is neither (`Delimited`), the copy comes to an end, only looks at the options, and has
  those that are to be copied (`scan_of_parses`).

`bounded_iff` is that these are the only options for which it does.
-/

namespace AuxKernel.Ip.Output

/-- The loop of `ip_optcopy` with what it reads: the bytes at `pos` and behind it are `cp`. -/
def scan (off : ℤ) : ℕ → (pos : ℕ) → (cp : List UInt8) → (cnt : ℕ) →
    Option (List ℕ × List UInt8)
  | 0, _, _, cnt => if cnt = 0 then some ([], []) else none
  | n + 1, pos, cp, cnt =>
    if cnt = 0 then some ([], [])
    else
      let opt := cp.getD 0 0
      if opt = IPOPT_EOL then some ([pos], [])
      else
        let optlen := min (if opt = IPOPT_NOP then 1 else (cp.getD 1 0).toNat) cnt
        (scan off n (pos + optlen) (cp.drop optlen) (cnt - optlen)).map fun (reads, dp) =>
          (pos :: (if opt = IPOPT_NOP then [] else [pos + 1]) ++
            (if off = 0 ∨ opt ≥ 0x80 then List.range' pos optlen else []) ++ reads,
          if off = 0 ∨ opt ≥ 0x80 then cp.take optlen ++ dp else dp)

variable {off : ℤ} {cp opts tail : List UInt8} {pos cnt n : ℕ}

/-- What is copied is what `ip_optcopy` copies. -/
theorem map_snd_scan (off : ℤ) (n pos : ℕ) (cp : List UInt8) (cnt : ℕ) :
    (scan off n pos cp cnt).map Prod.snd = optcopyLoop off n cp cnt := by
  induction n generalizing pos cp cnt with
  | zero =>
    rw [scan, optcopyLoop]
    split <;> rfl
  | succ n ih =>
    rw [scan, optcopyLoop]
    by_cases hcnt : cnt = 0
    · rw [if_pos hcnt, if_pos hcnt]
      rfl
    · rw [if_neg hcnt, if_neg hcnt]
      by_cases heol : cp.getD 0 0 = IPOPT_EOL
      · simp only [if_pos heol]
        rfl
      · simp only [if_neg heol]
        generalize min (if cp.getD 0 0 = IPOPT_NOP then 1 else (cp.getD 1 0).toNat) cnt = k
        rw [← ih (pos + k), Option.map_map, Option.map_map]
        rfl

/-- The length of the option at the front. -/
def optlen (cp : List UInt8) : ℕ :=
  if cp.getD 0 0 = IPOPT_NOP then 1 else (cp.getD 1 0).toNat

/-- An option of length zero is never passed. -/
theorem scan_stuck (hcnt : cnt ≠ 0) (heol : cp.getD 0 0 ≠ IPOPT_EOL) (hlen : optlen cp = 0) :
    scan off n pos cp cnt = none := by
  induction n with
  | zero => rw [scan, if_neg hcnt]
  | succ n ih =>
    rw [optlen] at hlen
    simp only [scan, if_neg hcnt, if_neg heol, hlen, Nat.zero_min, Nat.add_zero, List.drop_zero,
      Nat.sub_zero, ih, Option.map_none]

/-- There need not be more turns than bytes. -/
theorem scan_enough {x : List ℕ × List UInt8} (h : scan off n pos cp cnt = some x) {k : ℕ}
    (hk : cnt ≤ k) : scan off k pos cp cnt = some x := by
  induction n generalizing pos cp cnt x k with
  | zero =>
    rw [scan] at h
    by_cases hcnt : cnt = 0
    · rw [if_pos hcnt] at h
      cases k with
      | zero => rwa [scan, if_pos hcnt]
      | succ k => rwa [scan, if_pos hcnt]
    · rw [if_neg hcnt] at h
      cases h
  | succ n ih =>
    by_cases hcnt : cnt = 0
    · rw [scan, if_pos hcnt] at h
      cases k with
      | zero => rwa [scan, if_pos hcnt]
      | succ k => rwa [scan, if_pos hcnt]
    · obtain ⟨k, rfl⟩ := Nat.exists_eq_succ_of_ne_zero (fun hk' => hcnt (by omega) : k ≠ 0)
      by_cases heol : cp.getD 0 0 = IPOPT_EOL
      · rw [scan, if_neg hcnt] at h ⊢
        rwa [if_pos heol] at h ⊢
      · by_cases hlen : optlen cp = 0
        · rw [scan_stuck hcnt heol hlen] at h
          cases h
        · rw [scan, if_neg hcnt] at h ⊢
          simp only [if_neg heol, Option.map_eq_some_iff] at h ⊢
          obtain ⟨y, hy, hx⟩ := h
          refine ⟨y, ih hy ?_, hx⟩
          rw [← optlen]
          omega

/-! ## Options -/

/-- The bytes are these options, and what is behind the end of the list. The last option may be
    longer than what is left. -/
inductive Parses : List UInt8 → List (List UInt8) → Prop
  | nil : Parses [] []
  | eol {l : List UInt8} : Parses (IPOPT_EOL :: l) []
  | nop {l : List UInt8} {o : List (List UInt8)} :
    Parses l o → Parses (IPOPT_NOP :: l) ([IPOPT_NOP] :: o)
  | opt {opt len : UInt8} {l : List UInt8} {o : List (List UInt8)} :
    opt ≠ IPOPT_EOL → opt ≠ IPOPT_NOP → len ≠ 0 → Parses ((opt :: len :: l).drop len.toNat) o →
      Parses (opt :: len :: l) ((opt :: len :: l).take len.toNat :: o)

/-- Every option in front of the end of the list is one byte, or has its length behind its first
    byte, which is not zero. -/
def Delimited (opts : List UInt8) : Prop := ∃ o, Parses opts o

/-- The option is for all fragments. -/
def copied (opt : List UInt8) : Bool := opt.headD 0 ≥ 0x80

/-- What there is in the fragment at `off`. -/
def kept (off : ℤ) (o : List (List UInt8)) : List UInt8 :=
  (o.filter fun opt => off = 0 ∨ copied opt).flatten

/-- The next option is passed. -/
theorem scan_step {opt : UInt8} {l dp : List UInt8} {len : ℕ} {reads : List ℕ} (hcnt : cnt ≠ 0)
    (heol : opt ≠ IPOPT_EOL) (hlen : min (optlen (opt :: l)) cnt = len)
    (h : scan off n (pos + len) ((opt :: l).drop len) (cnt - len) = some (reads, dp)) :
    scan off (n + 1) pos (opt :: l) cnt = some
      (pos :: (if opt = IPOPT_NOP then [] else [pos + 1]) ++
        (if off = 0 ∨ opt ≥ 0x80 then List.range' pos len else []) ++ reads,
      if off = 0 ∨ opt ≥ 0x80 then (opt :: l).take len ++ dp else dp) := by
  subst hlen
  rw [scan, if_neg hcnt]
  simp only [List.getD_cons_zero, if_neg heol]
  exact congrArg (Option.map _) h

/-- The scan of these options ends, within them, and copies what is to be copied. -/
def Scans (off : ℤ) (tail opts : List UInt8) (o : List (List UInt8)) (pos : ℕ) : Prop :=
  ∃ n reads, scan off n pos (opts ++ tail) opts.length = some (reads, kept off o) ∧
    (∀ i ∈ reads, i < pos + opts.length) ∧ (kept off o).length ≤ opts.length

theorem kept_cons (off : ℤ) (x : List UInt8) (o : List (List UInt8)) :
    kept off (x :: o) = if off = 0 ∨ x.headD 0 ≥ 0x80 then x ++ kept off o else kept off o := by
  by_cases h : off = 0 ∨ x.headD 0 ≥ 0x80
  · rw [if_pos h, kept, List.filter_cons_of_pos (by simpa [copied] using h), List.flatten_cons]
    rfl
  · rw [if_neg h, kept, List.filter_cons_of_neg (by simpa [copied] using h)]
    rfl

/-- An option and those behind it. -/
theorem Scans.cons {opt : UInt8} {x rest : List UInt8} {o : List (List UInt8)}
    (hlen : min (optlen (opt :: (x ++ rest ++ tail))) (opt :: (x ++ rest)).length = x.length + 1)
    (heol : opt ≠ IPOPT_EOL) (hin : opt = IPOPT_NOP ∨ x ++ rest ≠ [])
    (h : ∀ pos, Scans off tail rest o pos) (pos : ℕ) :
    Scans off tail (opt :: (x ++ rest)) ((opt :: x) :: o) pos := by
  obtain ⟨n, reads, hscan, hreads, hle⟩ := h (pos + (x.length + 1))
  have hdrop : (opt :: (x ++ rest ++ tail)).drop (x.length + 1) = rest ++ tail := by simp
  have htake : (opt :: (x ++ rest ++ tail)).take (x.length + 1) = opt :: x := by simp
  have hcnt : (opt :: (x ++ rest)).length = x.length + 1 + rest.length := by
    rw [List.length_cons, List.length_append, Nat.add_right_comm]
  have hstep : scan off (n + 1) pos (opt :: (x ++ rest ++ tail)) (opt :: (x ++ rest)).length =
      some (_, _) := scan_step (by simp) heol hlen (by
    rw [hdrop, hcnt, Nat.add_sub_cancel_left]
    exact hscan)
  rw [htake] at hstep
  refine ⟨n + 1, _, hstep.trans (by rw [kept_cons]; rfl), ?_, ?_⟩
  · intro i hi
    rw [hcnt]
    rcases List.mem_append.1 hi with hi | hi
    · rcases List.mem_append.1 hi with hi | hi
      · -- The option, and its length, which is one of the options.
        rcases List.mem_cons.1 hi with rfl | hi
        · omega
        · by_cases hnop : opt = IPOPT_NOP
          · rw [if_pos hnop] at hi
            cases hi
          · rw [if_neg hnop, List.mem_singleton] at hi
            have hpos := List.length_pos_iff.2 (hin.resolve_left hnop)
            rw [List.length_append] at hpos
            omega
      · by_cases hcopy : off = 0 ∨ opt ≥ 0x80
        · rw [if_pos hcopy, List.mem_range'_1] at hi
          omega
        · rw [if_neg hcopy] at hi
          cases hi
    · have := hreads i hi
      omega
  · rw [kept_cons, hcnt]
    split
    · rw [List.length_append, List.length_cons]
      omega
    · omega

/-- The options that can be delimited are copied, or not, one by one. -/
theorem scan_of_parses {o : List (List UInt8)} (h : Parses opts o) (off : ℤ)
    (tail : List UInt8) (pos : ℕ) : Scans off tail opts o pos := by
  induction h generalizing pos with
  | nil => exact ⟨0, [], rfl, by simp, by simp [kept]⟩
  | @eol l => exact ⟨1, [pos], by simp [scan, kept], by simp, by simp [kept]⟩
  | @nop l o _ ih =>
    exact Scans.cons (x := []) (by simp [optlen]) (by decide) (.inl rfl) ih pos
  | @opt opt len l o heol hnop hlen _ ih =>
    obtain ⟨k, hk⟩ := Nat.exists_eq_succ_of_ne_zero (fun h => hlen (UInt8.toNat_inj.1 h) :
      len.toNat ≠ 0)
    have hsplit : (len :: l).take k ++ (len :: l).drop k = len :: l := List.take_append_drop k _
    rw [hk] at ih ⊢
    have hcons := Scans.cons (x := (len :: l).take k) ?_ heol (.inr (by simp [hsplit])) ih pos
    · rwa [List.drop_succ_cons, hsplit] at hcons
    · rw [List.drop_succ_cons, hsplit, optlen, List.getD_cons_zero, if_neg hnop,
        List.getD_cons_succ, List.cons_append, List.getD_cons_zero, hk, List.length_take,
        List.length_cons]
      omega

/-- What is behind an option, which may be too long. -/
theorem drop_min (l tail : List UInt8) (k : ℕ) :
    (l ++ tail).drop (min k l.length) = l.drop k ++ tail ∧
      l.length - min k l.length = (l.drop k).length := by
  rcases Nat.le_total k l.length with h | h
  · rw [Nat.min_eq_left h, List.drop_append_of_le_length h, List.length_drop]
    exact ⟨rfl, rfl⟩
  · rw [Nat.min_eq_right h, List.drop_left, List.drop_eq_nil_of_le h]
    exact ⟨rfl, Nat.sub_self _⟩

/-- Options that are copied within themselves can be delimited. -/
theorem delimited_of_scan {reads : List ℕ} {dp : List UInt8}
    (h : scan off n pos (opts ++ tail) opts.length = some (reads, dp))
    (hreads : ∀ i ∈ reads, i < pos + opts.length) : Delimited opts := by
  induction n generalizing opts pos reads dp with
  | zero =>
    rw [scan] at h
    split at h
    · rename_i hnil
      rw [List.length_eq_zero_iff.1 hnil]
      exact ⟨[], .nil⟩
    · cases h
  | succ n ih =>
    cases opts with
    | nil => exact ⟨[], .nil⟩
    | cons opt l =>
      by_cases heol : opt = IPOPT_EOL
      · rw [heol]
        exact ⟨[], .eol⟩
      by_cases hnop : opt = IPOPT_NOP
      · have hlen : min (optlen (opt :: l ++ tail)) (opt :: l).length = 1 := by
          simp [optlen, hnop]
        rw [scan, if_neg (by simp)] at h
        simp only [List.cons_append, List.getD_cons_zero, if_neg heol, Option.map_eq_some_iff] at h
        obtain ⟨⟨reads', dp'⟩, hscan, hx⟩ := h
        cases hx
        rw [List.cons_append, optlen, List.getD_cons_zero] at hlen
        rw [hlen] at hscan
        obtain ⟨o, ho⟩ := ih hscan fun i hi => by
          have := hreads i (by simp [hi])
          rw [List.length_cons] at this
          omega
        rw [hnop]
        exact ⟨_, .nop ho⟩
      · cases l with
        | nil =>
          -- The length would be behind the options.
          rw [scan, if_neg (by simp)] at h
          simp only [List.cons_append, List.getD_cons_zero, if_neg heol,
            Option.map_eq_some_iff] at h
          obtain ⟨⟨reads', dp'⟩, hscan, hx⟩ := h
          cases hx
          exact absurd (hreads (pos + 1) (by simp [hnop])) (by simp)
        | cons len l =>
          by_cases hzero : len = 0
          · have hstuck : scan off (n + 1) pos (opt :: len :: l ++ tail)
                (opt :: len :: l).length = none :=
              scan_stuck (by simp) heol (by simp [optlen, hnop, hzero])
            rw [hstuck] at h
            cases h
          rw [scan, if_neg (by simp)] at h
          simp only [List.cons_append, List.getD_cons_zero, List.getD_cons_succ, if_neg heol,
            if_neg hnop, Option.map_eq_some_iff] at h
          obtain ⟨⟨reads', dp'⟩, hscan, hx⟩ := h
          cases hx
          obtain ⟨o, ho⟩ : Delimited ((opt :: len :: l).drop len.toNat) := by
            obtain ⟨hdrop, hlen⟩ := drop_min (opt :: len :: l) tail len.toNat
            rw [List.cons_append, List.cons_append] at hdrop
            rw [hdrop, hlen] at hscan
            refine ih hscan fun i hi => ?_
            have := hreads i (by simp [hi])
            omega
          exact ⟨_, .opt heol hnop hzero ho⟩

/-- What is right of a copy of the options `opts` of a header, with anything behind them. -/
structure Bounded (ip : Ip) (off : ℤ) (opts tail : List UInt8) : Prop where
  /-- It comes to an end, and has only looked at the options. -/
  ends : ∃ n reads dp, scan off n 0 (opts ++ tail) opts.length = some (reads, dp) ∧
    ∀ i ∈ reads, i < opts.length
  /-- It does not write more than there is. -/
  fits : ∀ dp, ip_optcopy ip (opts ++ tail) off = some dp → dp.length ≤ (opts.length + 3) / 4 * 4
  /-- In a fragment behind the first, it writes the options that are for all. -/
  exact : ∀ dp, ip_optcopy ip (opts ++ tail) off = some dp → off ≠ 0 → ∀ o, Parses opts o →
    ∃ k < 4, dp = (o.filter copied).flatten ++ List.replicate k IPOPT_EOL

/-- What `ip_optcopy` returns when its loop ends. -/
theorem ip_optcopy_eq {ip : Ip} {reads : List ℕ} {dp : List UInt8}
    (hlen : (opts.length : ℤ) = 4 * ip.ip_hl - 20)
    (h : scan off n 0 (opts ++ tail) opts.length = some (reads, dp)) :
    ip_optcopy ip (opts ++ tail) off =
      some (dp ++ List.replicate ((4 - dp.length % 4) % 4) IPOPT_EOL) := by
  have hcnt : (4 * ip.ip_hl - sizeofIp).toNat = opts.length := by
    rw [sizeofIp]
    omega
  rw [ip_optcopy, hcnt, ← map_snd_scan off _ 0, scan_enough h le_rfl]
  rfl

/-- The options that can be copied are those that can be delimited. -/
theorem bounded_iff (ip : Ip) (off : ℤ) (opts tail : List UInt8)
    (hlen : (opts.length : ℤ) = 4 * ip.ip_hl - 20) :
    Bounded ip off opts tail ↔ Delimited opts := by
  constructor
  · intro h
    obtain ⟨n, reads, dp, hscan, hreads⟩ := h.ends
    exact delimited_of_scan hscan fun i hi => (Nat.zero_add _).symm ▸ hreads i hi
  · rintro ⟨o, ho⟩
    obtain ⟨n, reads, hscan, hreads, hle⟩ := scan_of_parses ho off tail 0
    rw [Nat.zero_add] at hreads
    have hout := ip_optcopy_eq hlen hscan
    refine ⟨⟨n, reads, _, hscan, hreads⟩, ?_, ?_⟩
    · rintro dp hdp
      cases hout.symm.trans hdp
      rw [List.length_append, List.length_replicate]
      omega
    · rintro dp hdp hoff o' ho'
      obtain ⟨n', reads', hscan', -, -⟩ := scan_of_parses ho' off tail 0
      cases (ip_optcopy_eq hlen hscan').symm.trans hdp
      refine ⟨(4 - (kept off o').length % 4) % 4, Nat.mod_lt _ (by decide), ?_⟩
      simp [kept, hoff]

/-- A loose source route. -/
theorem bounded_iff_routed :
    ((([131, 3, 4, 1] : List UInt8).length : ℤ) = 4 * 6 - 20) ∧
      (Bounded ⟨4, 6, 0, 40, 1, 0, 64, 17, 0, 1, 2⟩ 8 [131, 3, 4, 1] [] ↔
        Delimited [131, 3, 4, 1]) :=
  ⟨by decide, bounded_iff ⟨4, 6, 0, 40, 1, 0, 64, 17, 0, 1, 2⟩ 8 [131, 3, 4, 1] [] (by decide)⟩

/-- A record route of length zero. -/
theorem not_bounded : ∃ (ip : Ip) (opts tail : List UInt8), 5 ≤ ip.ip_hl ∧ ip.ip_hl ≤ 15 ∧
    (opts.length : ℤ) = 4 * ip.ip_hl - 20 ∧ ¬Bounded ip 8 opts tail := by
  refine ⟨⟨4, 6, 0, 40, 1, 0, 64, 17, 0, 1, 2⟩, [7, 0, 0, 0], [], by decide, by decide, by decide,
    fun h => ?_⟩
  obtain ⟨n, reads, dp, hscan, -⟩ := h.ends
  rw [scan_stuck (by decide) (by decide) (by decide)] at hscan
  cases hscan

example : ip_optcopy ⟨4, 7, 0, 40, 1, 0, 64, 17, 0, 1, 2⟩ [1, 131, 3, 4, 7, 3, 4, 0] 8 =
    some [131, 3, 4, 0] := by decide

end AuxKernel.Ip.Output
