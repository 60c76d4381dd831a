import AuxKernel.Tty.Output

/-!
# Output is what is asked for, however it is cut

* What `ttxput` puts on the queue depends on the characters only, not on which of them come in
  blocks: the scan of a block (`ttxchk`) finds what the single characters would do
  (`ttxput_eq_foldl`).
* With `XCASE` and `OLCUC`, a character is put as those that it stands for (`mapped`) are put
  without (`putMapped_eq`).
* A character comes out as an item or some, with pauses between (`shown`). What has been sent, the
  delay that is due and what is on the queue are the items of all characters put so far
  (`Inv`), and as many calls of `ttout` as there are items send them all (`drain_spec`).

`output_exact` states them all.
-/

namespace AuxKernel.Tty.Output

variable {flg : BitVec 16} {m : Modes} {tp tp' : Outq} {c : BitVec 8}

/-! ## Blocks and characters -/

/-- A single character. -/
def putOne (m : Modes) (tp : Outq) (c : BitVec 8) : Outq :=
  if ¬has m.t_oflag OPOST then tp.putc c
  else if m.t_lflag &&& XCASE = 0 ∧ ¬has m.t_oflag OLCUC then putPlain m.t_oflag tp c
  else putMapped m tp c

/-- A block that the scan accepts is put as its characters are. -/
theorem foldl_of_ttxchk (flg : BitVec 16) {l : List (BitVec 8)} {n k : ℕ}
    (h : ttxchk l n = some k) (tp : Outq) :
    ∃ j, k = n + j ∧
      l.foldl (putPlain flg) tp = ⟨tp.t_col + BitVec.ofNat 8 j, tp.t_outq ++ l⟩ := by
  induction l generalizing n tp with
  | nil => exact ⟨0, (Option.some.inj h).symm, by simp⟩
  | cons c l ih =>
    rw [ttxchk] at h
    by_cases hhigh : c &&& 0o200 ≠ 0
    · rw [if_pos hhigh] at h
      cases h
    rw [if_neg hhigh] at h
    rw [List.foldl_cons]
    by_cases h₀ : ctype c = 0
    · rw [if_pos h₀] at h
      obtain ⟨j, rfl, hj⟩ := ih h (putPlain flg tp c)
      refine ⟨j + 1, by omega, ?_⟩
      rw [hj, putPlain, if_pos h₀, Nat.add_comm j 1, BitVec.ofNat_add, ← BitVec.add_assoc]
      simp [Outq.putc]
    · rw [if_neg h₀] at h
      by_cases h₁ : ctype c = 1
      · rw [if_neg (not_not.2 h₁)] at h
        obtain ⟨j, rfl, hj⟩ := ih h (putPlain flg tp c)
        refine ⟨j, rfl, ?_⟩
        rw [hj, putPlain, if_neg h₀, if_pos h₁]
        simp [Outq.putc]
      · rw [if_pos h₁] at h
        cases h

theorem foldl_putc (l : List (BitVec 8)) (tp : Outq) :
    l.foldl (fun tp c => tp.putc c) tp = { tp with t_outq := tp.t_outq ++ l } := by
  induction l generalizing tp with
  | nil => simp
  | cons c l ih =>
    rw [List.foldl_cons, ih]
    simp [Outq.putc]

/-- What is put is put character by character. -/
theorem ttxput_eq_foldl (m : Modes) (tp : Outq) (arg : Arg) :
    ttxput m tp arg = arg.bytes.foldl (putOne m) tp := by
  by_cases hop : has m.t_oflag OPOST
  · by_cases hplain : m.t_lflag &&& XCASE = 0 ∧ ¬has m.t_oflag OLCUC
    · have hone : putOne m = putPlain m.t_oflag := by
        funext tp c
        rw [putOne, if_neg (not_not.2 hop), if_pos hplain]
      rw [ttxput, if_neg (not_not.2 hop), if_pos hplain, hone]
      cases hchk : (if arg.bytes.length > 1 then ttxchk arg.bytes 0 else none) with
      | none => rfl
      | some n =>
        split at hchk
        · obtain ⟨j, hj, hfold⟩ := foldl_of_ttxchk m.t_oflag hchk tp
          rw [hfold, hj, Nat.zero_add]
        · cases hchk
    · have hone : putOne m = putMapped m := by
        funext tp c
        rw [putOne, if_neg (not_not.2 hop), if_neg hplain]
      rw [ttxput, if_neg (not_not.2 hop), if_neg hplain, hone]
  · have hone : putOne m = fun tp c => tp.putc c := by
      funext tp c
      rw [putOne, if_pos hop]
    rw [ttxput, if_pos hop, hone, foldl_putc]

theorem foldl_ttxput (m : Modes) (tp : Outq) (args : List Arg) :
    args.foldl (ttxput m) tp = (args.flatMap Arg.bytes).foldl (putOne m) tp := by
  induction args generalizing tp with
  | nil => rfl
  | cons arg args ih =>
    rw [List.foldl_cons, ih, ttxput_eq_foldl, List.flatMap_cons, List.foldl_append]

/-! ## Mapped characters -/

/-- A character and its escapes. -/
def escaped (c : BitVec 8) : BitVec 8 × List (BitVec 8) :=
  let p := escapes.find? fun p => p.2 = c
  let c := (p.map Prod.fst).getD c
  (c, (if p.isSome then [0o134 ||| 0o200] else []) ++
    if 0o101 ≤ c ∧ c ≤ 0o132 then [0o134 ||| 0o200] else [])

/-- The characters that one stands for. -/
def mapped (m : Modes) (c : BitVec 8) : List (BitVec 8) :=
  if c ≥ 0o200 then [c]
  else
    let (c, l) := if m.t_lflag &&& XCASE ≠ 0 then escaped c else (c, [])
    l ++ [upper m.t_oflag c]

theorem ctype_high : ∀ c : BitVec 8, c ≥ 0o200 → ctype c ≠ 0 ∧ ctype c ≠ 1 := by decide

theorem putPlain_high (h : c ≥ 0o200) : putPlain flg tp c = putHigh c tp := by
  rw [putPlain, if_neg (ctype_high c h).1, if_neg (ctype_high c h).2, if_pos h]

theorem putPlain_low (h : ¬c ≥ 0o200) : putPlain flg tp c = switch flg (ctype c) c tp := by
  rw [putPlain, if_neg h]
  split
  · rename_i h₀
    rw [h₀]
    rfl
  split
  · rename_i h₁
    rw [h₁]
    rfl
  · rfl

theorem escaped_low : ∀ c : BitVec 8, ¬c ≥ 0o200 → ¬(escaped c).1 ≥ 0o200 := by decide

theorem upper_low (h : ¬c ≥ 0o200) : ¬upper flg c ≥ 0o200 := by
  have key : ∀ c : BitVec 8, ¬c ≥ 0o200 → 0o141 ≤ c ∧ c ≤ 0o172 → ¬c + 0o101 - 0o141 ≥ 0o200 := by
    decide
  rw [upper]
  split
  · rename_i hup
    exact key c h hup.2
  · exact h

/-- The escapes are put as characters that are not ASCII. -/
theorem putEscapes_eq (flg : BitVec 16) (c : BitVec 8) (tp : Outq) :
    putEscapes c tp = ((escaped c).1, (escaped c).2.foldl (putPlain flg) tp) := by
  have hbs (tp : Outq) : putHigh (0o134 ||| 0o200) tp = putPlain flg tp (0o134 ||| 0o200) :=
    (putPlain_high (by decide)).symm
  have hletter (c : BitVec 8) (tp : Outq) :
      (if 0o101 ≤ c ∧ c ≤ 0o132 then putHigh (0o134 ||| 0o200) tp else tp) =
      (if 0o101 ≤ c ∧ c ≤ 0o132 then [0o134 ||| 0o200] else []).foldl (putPlain flg) tp := by
    split
    · exact hbs tp
    · rfl
  rw [putEscapes, escaped]
  cases escapes.find? fun p => p.2 = c with
  | none => exact Prod.ext rfl (hletter c tp)
  | some p =>
    refine Prod.ext rfl ((hletter p.1 _).trans ?_)
    rw [List.foldl_append, hbs]
    rfl

/-- The characters that one stands for are put in its place. -/
theorem putMapped_eq (m : Modes) (tp : Outq) (c : BitVec 8) :
    putMapped m tp c = (mapped m c).foldl (putPlain m.t_oflag) tp := by
  rw [putMapped, mapped]
  by_cases hhigh : c ≥ 0o200
  · rw [if_pos hhigh, if_pos hhigh, List.foldl_cons, List.foldl_nil, putPlain_high hhigh]
  rw [if_neg hhigh, if_neg hhigh]
  by_cases hx : m.t_lflag &&& XCASE ≠ 0
  · simp only [if_pos hx, putEscapes_eq m.t_oflag, List.foldl_append, List.foldl_cons,
      List.foldl_nil, putPlain_low (upper_low (escaped_low c hhigh))]
  · simp only [if_neg hx, List.nil_append, List.foldl_cons, List.foldl_nil,
      putPlain_low (upper_low hhigh)]

/-! ## Items -/

/-- What comes out at the terminal: a character, or a pause. -/
inductive Item
  | ch (c : BitVec 8)
  | pause (ticks : ℕ)
  deriving DecidableEq, Repr

/-- The pause for the second byte of a delay. -/
def Item.ofDelay (d : BitVec 8) : Item := .pause ((d &&& 0o177).toNat + 6)

/-- What is sent is items. -/
def Xmit.items : Xmit → List Item
  | .packet l => l.map .ch
  | .timeout ticks => [.pause ticks]

/-- The bytes on the queue stand for these items. -/
inductive Coded : List (BitVec 8) → List Item → Prop
  | nil : Coded [] []
  | ch {c : BitVec 8} {q : List (BitVec 8)} {l : List Item} :
    c ≠ QESC → Coded q l → Coded (c :: q) (.ch c :: l)
  | esc {q : List (BitVec 8)} {l : List Item} :
    Coded q l → Coded (QESC :: QESC :: q) (.ch QESC :: l)
  | pause {d : BitVec 8} {q : List (BitVec 8)} {l : List Item} :
    d > 0o200 → Coded q l → Coded (QESC :: d :: q) (.ofDelay d :: l)

theorem Coded.append {q q' : List (BitVec 8)} {l l' : List Item} (h : Coded q l)
    (h' : Coded q' l') : Coded (q ++ q') (l ++ l') := by
  induction h with
  | nil => exact h'
  | ch hc _ ih => exact .ch hc ih
  | esc _ ih => exact .esc ih
  | pause hd _ ih => exact .pause hd ih

/-! ## What characters come out as -/

/-- A character with a delay, or with characters that fill it. -/
def delayed (flg : BitVec 16) (cs : BitVec 8) (c : ℤ) : List Item :=
  .ch cs :: if c = 0 then []
    else if c < 32 ∧ has flg OFILL then
      List.replicate (if c > 3 then 2 else 1) (.ch (if has flg OFDEL then 0o177 else 0))
    else [.ofDelay (BitVec.ofInt 8 c)]

/-- What a character comes out as in a column, and the column behind it. -/
def shown (flg : BitVec 16) (col c : BitVec 8) : List Item × BitVec 8 :=
  let nl := if has flg NLDLY then 5 else 0
  let tab := 8 - col.toNat % 8
  if c ≥ 0o200 then ([.ch c], col)
  else
    match ctype c with
    | 0 => ([.ch c], col + 1)
    | 2 => (delayed flg c (if has flg BSDLY then 2 else 0), if col ≠ 0 then col - 1 else col)
    | 3 =>
      if has flg ONLRET then (delayed flg c (crDelay flg col), 0)
      else if has flg ONLCR then
        ((if has flg ONOCR ∧ col = 0 then [] else [.ch 0o15]) ++ delayed flg c (crDelay flg col), 0)
      else (delayed flg c nl, col)
    | 4 =>
      (if flg &&& TABDLY = TAB0 then [.ch c]
        else if flg &&& TABDLY = TAB1 then delayed flg c (if tab < 5 then 0 else tab)
        else if flg &&& TABDLY = TAB2 then delayed flg c 2
        else List.replicate tab (.ch 0o40), col + BitVec.ofNat 8 tab)
    | 5 => (delayed flg c (if has flg VTDLY then 0o177 else 0), col)
    | 6 =>
      if has flg OCRNL then (delayed flg 0o12 nl, col)
      else if has flg ONOCR ∧ col = 0 then ([], col)
      else (delayed flg c (crDelay flg col), 0)
    | 7 => (delayed flg c (if has flg FFDLY then 0o177 else 0), col)
    | _ => ([.ch c], col)

/-- What a string comes out as. -/
def shownAll (flg : BitVec 16) : BitVec 8 → List (BitVec 8) → List Item × BitVec 8
  | col, [] => ([], col)
  | col, c :: l =>
    let (items, col) := shown flg col c
    let (items', col) := shownAll flg col l
    (items ++ items', col)

/-- Items are put on the queue. -/
def Puts (items : List Item × BitVec 8) (tp tp' : Outq) : Prop :=
  ∃ q, tp' = ⟨items.2, tp.t_outq ++ q⟩ ∧ Coded q items.1

theorem or_high : ∀ b : BitVec 8, b &&& 0o177 ≠ 0 →
    b ||| 0o200 > 0o200 ∧ (b ||| 0o200) &&& 0o177 = b &&& 0o177 := by decide

theorem coded_one (hc : c ≠ QESC) : Coded [c] [.ch c] := .ch hc .nil

/-- Characters that need no escape. -/
theorem coded_replicate (hc : c ≠ QESC) (n : ℕ) :
    Coded (List.replicate n c) (List.replicate n (.ch c)) := by
  induction n with
  | zero => exact .nil
  | succ n ih => exact .ch hc ih

theorem puts_delay (tp : Outq) {cs col : BitVec 8} {n : ℤ} (hcs : cs ≠ QESC)
    (hn : n = 0 ∨ BitVec.ofInt 8 n &&& 0o177 ≠ 0) (hcol : col = tp.t_col) :
    Puts (delayed flg cs n, col) tp (putDelay flg cs n tp) := by
  subst hcol
  rw [putDelay, delayed]
  by_cases h₀ : n = 0
  · rw [if_pos h₀, if_pos h₀]
    exact ⟨[cs], rfl, coded_one hcs⟩
  rw [if_neg h₀, if_neg h₀]
  by_cases hfill : n < 32 ∧ has flg OFILL
  · rw [if_pos hfill, if_pos hfill]
    have hne : (if has flg OFDEL then 0o177 else 0 : BitVec 8) ≠ QESC := by
      split <;> decide
    by_cases h₃ : n > 3
    · rw [if_pos h₃, if_pos h₃]
      exact ⟨[cs, _, _], by simp [Outq.putc], .ch hcs (coded_replicate hne 2)⟩
    · rw [if_neg h₃, if_neg h₃]
      exact ⟨[cs, _], by simp [Outq.putc], .ch hcs (coded_replicate hne 1)⟩
  · rw [if_neg hfill, if_neg hfill]
    obtain ⟨hhigh, hlow⟩ := or_high _ (hn.resolve_left h₀)
    have hitem : Item.ofDelay (BitVec.ofInt 8 n) = .ofDelay (BitVec.ofInt 8 n ||| 0o200) := by
      rw [Item.ofDelay, Item.ofDelay, hlow]
    rw [hitem]
    exact ⟨[cs, QESC, BitVec.ofInt 8 n ||| 0o200], by simp [Outq.putc],
      .ch hcs (.pause hhigh .nil)⟩

/-- What is put after other items. -/
theorem Puts.after {items : List Item × BitVec 8} {cs : BitVec 8} (hcs : cs ≠ QESC)
    (h : Puts items (tp.putc cs) tp') : Puts (.ch cs :: items.1, items.2) tp tp' := by
  obtain ⟨q, rfl, hq⟩ := h
  exact ⟨cs :: q, by simp [Outq.putc], .ch hcs hq⟩

/-- The delay of a carriage return can be told from a character. -/
theorem crDelay_ne (flg : BitVec 16) (col : BitVec 8) :
    crDelay flg col = 0 ∨ BitVec.ofInt 8 (crDelay flg col) &&& 0o177 ≠ 0 := by
  have key : ∀ col : BitVec 8, BitVec.ofInt 8
      (toLong (max ((col.toInt / 16 + 3) % 2 ^ 32) 6)) &&& 0o177#8 ≠ 0 := by decide
  rw [crDelay]
  split
  · split
    · exact .inr (key col)
    · exact .inl rfl
  split
  · exact .inr (by decide)
  split
  · exact .inr (by decide)
  · exact .inl rfl

theorem ne_of_low (h : ¬c ≥ 0o200) : c ≠ QESC := by
  rintro rfl
  exact h (by decide)

/-- What `ttxput` puts for a character. -/
theorem puts_plain (flg : BitVec 16) (tp : Outq) (c : BitVec 8) :
    Puts (shown flg tp.t_col c) tp (putPlain flg tp c) := by
  by_cases hhigh : c ≥ 0o200
  · rw [putPlain_high hhigh, putHigh, shown, if_pos hhigh]
    by_cases hq : c = QESC
    · subst hq
      exact ⟨[QESC, QESC], by simp [Outq.putc], .esc .nil⟩
    · rw [if_neg hq]
      exact ⟨[c], rfl, coded_one hq⟩
  have hc : c ≠ QESC := ne_of_low hhigh
  have hflag (f : BitVec 16) {n : ℤ} (hn : BitVec.ofInt 8 n &&& 0o177 ≠ 0) :
      (if has flg f then n else 0) = 0 ∨
        BitVec.ofInt 8 (if has flg f then n else 0) &&& 0o177 ≠ 0 := by
    split
    · exact .inr hn
    · exact .inl rfl
  have hnl (cs : BitVec 8) (hcs : cs ≠ QESC) :
      Puts (delayed flg cs (if has flg NLDLY then 5 else 0), tp.t_col) tp (putNl flg cs tp) :=
    puts_delay tp hcs (hflag NLDLY (by decide)) rfl
  have hcr (tp : Outq) : Puts (delayed flg c (crDelay flg tp.t_col), 0) tp (putCr flg c tp) :=
    puts_delay { tp with t_col := 0 } hc (crDelay_ne flg tp.t_col) rfl
  rw [putPlain_low hhigh, shown, if_neg hhigh]
  generalize ctype c = k
  rcases k with _ | _ | _ | _ | _ | _ | _ | _ | k
  · exact ⟨[c], rfl, coded_one hc⟩
  · exact ⟨[c], rfl, coded_one hc⟩
  · exact puts_delay { tp with t_col := _ } hc (hflag BSDLY (by decide)) rfl
  · -- Line feed.
    rw [switch]
    by_cases hret : has flg ONLRET
    · simp only [if_pos hret]
      exact hcr tp
    · by_cases hlcr : has flg ONLCR
      · simp only [if_neg hret, if_pos hlcr]
        by_cases hcol : has flg ONOCR ∧ tp.t_col = 0
        · simp only [if_pos hcol]
          exact hcr tp
        · simp only [if_neg hcol]
          exact (hcr (tp.putc 0o15)).after (by decide)
      · simp only [if_neg hret, if_neg hlcr]
        exact hnl c hc
  · -- Tab.
    have htab : BitVec.ofInt 8 ((8 - tp.t_col.toNat % 8 : ℕ) : ℤ) &&& 0o177#8 ≠ 0 := by
      have key : ∀ col : BitVec 8,
          BitVec.ofInt 8 ((8 - col.toNat % 8 : ℕ) : ℤ) &&& 0o177#8 ≠ 0 := by decide
      exact key tp.t_col
    rw [switch, putTab]
    by_cases h₀ : flg &&& TABDLY = TAB0
    · simp only [if_pos h₀]
      exact ⟨[c], rfl, coded_one hc⟩
    by_cases h₁ : flg &&& TABDLY = TAB1
    · simp only [if_neg h₀, if_pos h₁]
      refine puts_delay { tp with t_col := _ } hc ?_ rfl
      split
      · exact .inl rfl
      · exact .inr htab
    by_cases h₂ : flg &&& TABDLY = TAB2
    · simp only [if_neg h₀, if_neg h₁, if_pos h₂]
      exact puts_delay { tp with t_col := _ } hc (.inr (by decide)) rfl
    · simp only [if_neg h₀, if_neg h₁, if_neg h₂]
      exact ⟨List.replicate (8 - tp.t_col.toNat % 8) 0o40, rfl, coded_replicate (by decide) _⟩
  · exact puts_delay tp hc (hflag VTDLY (by decide)) rfl
  · -- Carriage return.
    rw [switch]
    by_cases hnlcr : has flg OCRNL
    · simp only [if_pos hnlcr]
      exact hnl 0o12 (by decide)
    · by_cases hcol : has flg ONOCR ∧ tp.t_col = 0
      · simp only [if_neg hnlcr, if_pos hcol]
        exact ⟨[], by simp, .nil⟩
      · simp only [if_neg hnlcr, if_neg hcol]
        exact hcr tp
  · exact puts_delay tp hc (hflag FFDLY (by decide)) rfl
  · exact ⟨[c], rfl, coded_one hc⟩

/-- The characters that a string stands for. -/
def mappedAll (m : Modes) (l : List (BitVec 8)) : List (BitVec 8) :=
  if m.t_lflag &&& XCASE = 0 ∧ ¬has m.t_oflag OLCUC then l else l.flatMap (mapped m)

/-- The characters that are put, one by one, without a mapping. -/
theorem foldl_putOne (hop : has m.t_oflag OPOST) (l : List (BitVec 8)) (tp : Outq) :
    l.foldl (putOne m) tp = (mappedAll m l).foldl (putPlain m.t_oflag) tp := by
  rw [mappedAll]
  by_cases hplain : m.t_lflag &&& XCASE = 0 ∧ ¬has m.t_oflag OLCUC
  · rw [if_pos hplain]
    congr 1
    funext tp c
    rw [putOne, if_neg (not_not.2 hop), if_pos hplain]
  · rw [if_neg hplain]
    induction l generalizing tp with
    | nil => rfl
    | cons c l ih =>
      rw [List.foldl_cons, ih, List.flatMap_cons, List.foldl_append, putOne,
        if_neg (not_not.2 hop), if_neg hplain, putMapped_eq]

theorem puts_all (flg : BitVec 16) (l : List (BitVec 8)) (tp : Outq) :
    Puts (shownAll flg tp.t_col l) tp (l.foldl (putPlain flg) tp) := by
  induction l generalizing tp with
  | nil => exact ⟨[], by simp [shownAll], .nil⟩
  | cons c l ih =>
    obtain ⟨q, hput, hq⟩ := puts_plain flg tp c
    obtain ⟨q', hputs, hq'⟩ := ih (putPlain flg tp c)
    rw [hput] at hputs hq'
    refine ⟨q ++ q', ?_, hq.append hq'⟩
    rw [List.foldl_cons, hput, hputs, List.append_assoc]
    rfl

theorem shownAll_append (flg : BitVec 16) (col : BitVec 8) (l l' : List (BitVec 8)) :
    shownAll flg col (l ++ l') =
      ((shownAll flg col l).1 ++ (shownAll flg (shownAll flg col l).2 l').1,
        (shownAll flg (shownAll flg col l).2 l').2) := by
  induction l generalizing col with
  | nil => rfl
  | cons c l ih => simp [shownAll, ih]

theorem mappedAll_append (m : Modes) (l l' : List (BitVec 8)) :
    mappedAll m (l ++ l') = mappedAll m l ++ mappedAll m l' := by
  rw [mappedAll, mappedAll, mappedAll]
  split
  · rfl
  · exact List.flatMap_append

/-! ## Packets -/

/-- A packet has the next items, up to a delay. -/
theorem packet_spec (n : ℕ) {q : List (BitVec 8)} {l : List Item} (h : Coded q l) :
    ∀ l₀ : List (BitVec 8), ∃ cs d q' l', packet n l₀ q = (l₀ ++ cs, d, q') ∧ Coded q' l' ∧
      l = cs.map Item.ch ++ (d.toList.map Item.ofDelay ++ l') ∧ (∀ b ∈ d, b > 0o200) ∧
      (q ≠ [] → cs ≠ [] ∨ d ≠ none) := by
  -- A character ends the packet, or is in front of the rest of it.
  have step {c : BitVec 8} {q : List (BitVec 8)} {l : List Item} (h : Coded q l)
      (ih : ∀ l₀ : List (BitVec 8), ∃ cs d q' l', packet n l₀ q = (l₀ ++ cs, d, q') ∧ Coded q' l' ∧
        l = cs.map Item.ch ++ (d.toList.map Item.ofDelay ++ l') ∧ (∀ b ∈ d, b > 0o200) ∧
        (q ≠ [] → cs ≠ [] ∨ d ≠ none)) (l₀ : List (BitVec 8)) :
      ∃ cs d q' l', (if l₀.length + 1 ≥ n then (l₀ ++ [c], none, q) else packet n (l₀ ++ [c]) q) =
        (l₀ ++ cs, d, q') ∧ Coded q' l' ∧
        .ch c :: l = cs.map Item.ch ++ (d.toList.map Item.ofDelay ++ l') ∧ (∀ b ∈ d, b > 0o200) ∧
        (cs ≠ [] ∨ d ≠ none) := by
    by_cases hfull : l₀.length + 1 ≥ n
    · exact ⟨[c], none, q, l, by rw [if_pos hfull], h, rfl, by simp, .inl (by simp)⟩
    · obtain ⟨cs, d, q', l', hp, hq', hl, hd, -⟩ := ih (l₀ ++ [c])
      refine ⟨c :: cs, d, q', l', ?_, hq', ?_, hd, .inl (by simp)⟩
      · rw [if_neg hfull, hp, List.append_assoc]
        rfl
      · rw [hl]
        rfl
  induction h with
  | nil =>
    intro l₀
    exact ⟨[], none, [], [], by simp [packet], .nil, rfl, by simp, fun h => (h rfl).elim⟩
  | ch hc hq ih =>
    intro l₀
    obtain ⟨cs, d, q', l', hp, hq', hl, hd, hsome⟩ := step hq ih l₀
    exact ⟨cs, d, q', l', by rw [packet.eq_def]; simp only [if_neg hc, hp], hq', hl, hd,
      fun _ => hsome⟩
  | esc hq ih =>
    intro l₀
    obtain ⟨cs, d, q', l', hp, hq', hl, hd, hsome⟩ := step hq ih l₀
    refine ⟨cs, d, q', l', ?_, hq', hl, hd, fun _ => hsome⟩
    rw [packet.eq_def]
    simp only [if_pos, if_neg (by decide : ¬QESC > 0o200), hp]
  | @pause b q l hb hq _ =>
    intro l₀
    refine ⟨[], some b, q, l, ?_, hq, rfl, ?_, fun _ => .inr (by simp)⟩
    · rw [packet.eq_def]
      simp only [if_pos, if_pos hb, List.append_nil]
    · rintro b' ⟨⟩
      exact hb

/-- The delay that is due. -/
def due (hibyte : BitVec 8) : List Item := if hibyte ≠ 0 then [.ofDelay hibyte] else []

/-- What `ttout` sends are the next items; something is sent if there is something to send. -/
theorem ttout_spec (hop : has m.t_oflag OPOST) (n : ℕ) {tp : Tty} {l : List Item}
    (h : Coded tp.t_outq l) :
    ∃ x tp' l', ttout m n tp = (x, tp') ∧ Coded tp'.t_outq l' ∧ tp'.t_col = tp.t_col ∧
      due tp.hibyte ++ l = x.toList.flatMap Xmit.items ++ (due tp'.hibyte ++ l') ∧
      (due tp.hibyte ++ l ≠ [] → x.toList.flatMap Xmit.items ≠ []) := by
  rw [ttout]
  by_cases hhi : tp.hibyte ≠ 0
  · rw [if_pos hhi]
    refine ⟨_, _, l, rfl, h, rfl, ?_, ?_⟩
    · rw [due, if_pos hhi]
      rfl
    · simp [Xmit.items]
  rw [if_neg hhi, if_neg (not_not.2 hop)]
  obtain ⟨cs, d, q', l', hp, hq', hl, hd, hsome⟩ := packet_spec n h []
  have hdue : due tp.hibyte = [] := if_neg hhi
  have hq (hne : l ≠ []) : tp.t_outq ≠ [] := by
    intro hnil
    rw [hnil] at h
    cases h
    exact hne rfl
  rw [hp, hdue]
  cases d with
  | none =>
    cases cs with
    | nil =>
      refine ⟨_, _, l', rfl, hq', rfl, by simpa [hdue] using hl, fun hne => ?_⟩
      simpa using hsome (hq hne)
    | cons c cs =>
      exact ⟨_, _, l', rfl, hq', rfl, by simpa [hdue, Xmit.items] using hl, by simp [Xmit.items]⟩
  | some b =>
    have hb : due b = [.ofDelay b] := by
      refine if_pos ?_
      rintro rfl
      exact absurd (hd 0 rfl) (by decide)
    cases cs with
    | nil =>
      refine ⟨_, _, l', rfl, hq', rfl, ?_, by simp [Xmit.items]⟩
      simpa [due, Xmit.items, Item.ofDelay] using hl
    | cons c cs =>
      refine ⟨_, _, l', rfl, hq', rfl, ?_, by simp [Xmit.items]⟩
      simpa [hb, Xmit.items] using hl

/-! ## Runs -/

/-- What has been sent, what is due and what is queued are the items of what has been put. -/
structure Inv (m : Modes) (s : State) : Prop where
  col : s.t_col = (shownAll m.t_oflag s.start (mappedAll m s.given)).2
  queue : ∃ l, Coded s.t_outq l ∧ s.sent.flatMap Xmit.items ++ (due s.hibyte ++ l) =
    (shownAll m.t_oflag s.start (mappedAll m s.given)).1

theorem Inv.ttxput (hop : has m.t_oflag OPOST) {s : State} (h : Inv m s) (arg : Arg) :
    Inv m { s with toOutq := ttxput m s.toOutq arg, given := s.given ++ arg.bytes } := by
  obtain ⟨l, hl, hitems⟩ := h.queue
  obtain ⟨q, hput, hq⟩ := puts_all m.t_oflag (mappedAll m arg.bytes) s.toOutq
  rw [h.col] at hput hq
  rw [ttxput_eq_foldl, foldl_putOne hop, hput]
  refine ⟨?_, _, hl.append hq, ?_⟩
  · rw [mappedAll_append, shownAll_append]
  · rw [mappedAll_append, shownAll_append, ← hitems]
    simp

theorem Inv.ttout (hop : has m.t_oflag OPOST) {s : State} (h : Inv m s) (n : ℕ) :
    Inv m { s with
      toTty := (ttout m n s.toTty).2
      sent := s.sent ++ (ttout m n s.toTty).1.toList } := by
  obtain ⟨l, hl, hitems⟩ := h.queue
  obtain ⟨x, tp', l', hout, hl', hcol, hsplit, -⟩ := ttout_spec hop n hl
  rw [hout]
  refine ⟨hcol.trans h.col, l', hl', ?_⟩
  rw [← hitems, hsplit]
  simp

theorem inv_of_reachable (hop : has m.t_oflag OPOST) {s : State}
    (h : (terminal m).Reachable s) : Inv m s := by
  refine h.invariant ?_ ?_
  · rintro s ⟨hq, hhi, hstart, hgiven, hsent⟩
    have hall : mappedAll m s.given = [] := by
      rw [hgiven, mappedAll]
      split <;> rfl
    exact ⟨by rw [hall, shownAll, hstart], [], by rw [hq]; exact .nil,
      by simp [hall, shownAll, hsent, hhi, due]⟩
  · rintro s (arg | n) s' hs - hnext
    · cases hnext
      exact hs.ttxput hop arg
    · cases hnext
      exact hs.ttout hop n

/-- `ttout`, called with packets of these sizes. -/
def drain (m : Modes) : List ℕ → Tty → List Xmit × Tty
  | [], tp => ([], tp)
  | n :: ns, tp =>
    let (x, tp) := ttout m n tp
    let (xs, tp) := drain m ns tp
    (x.toList ++ xs, tp)

/-- A call sends an item or more, so there need not be more calls than items. -/
theorem drain_spec (hop : has m.t_oflag OPOST) :
    ∀ (ns : List ℕ) {tp : Tty} {l : List Item}, Coded tp.t_outq l →
      (due tp.hibyte ++ l).length ≤ ns.length →
      (drain m ns tp).1.flatMap Xmit.items = due tp.hibyte ++ l ∧
      (drain m ns tp).2 = ⟨⟨tp.t_col, []⟩, 0⟩ := by
  intro ns
  induction ns with
  | nil =>
    intro tp l h hlen
    obtain ⟨hdue, rfl⟩ := List.append_eq_nil_iff.1 (List.length_eq_zero_iff.1 (Nat.le_zero.1 hlen))
    have hhi : tp.hibyte = 0 := by
      by_contra hne
      rw [due, if_pos hne] at hdue
      cases hdue
    obtain ⟨⟨col, q⟩, hibyte⟩ := tp
    cases hhi
    cases h
    exact ⟨rfl, rfl⟩
  | cons n ns ih =>
    intro tp l h hlen
    obtain ⟨x, tp', l', hout, hl', hcol, hsplit, hsome⟩ := ttout_spec hop n h
    have hshort : (due tp'.hibyte ++ l').length ≤ ns.length := by
      by_cases hnil : due tp.hibyte ++ l = []
      · rw [hnil] at hsplit
        rw [(List.append_eq_nil_iff.1 hsplit.symm).2]
        exact Nat.zero_le _
      · have hpos := List.length_pos_iff.2 (hsome hnil)
        rw [hsplit, List.length_append, List.length_cons] at hlen
        omega
    obtain ⟨hsent, hempty⟩ := ih hl' hshort
    simp only [drain, hout]
    rw [hempty, hcol, List.flatMap_append, hsent, hsplit]
    exact ⟨rfl, rfl⟩

/-- Output does not depend on how it is cut. -/
structure Exact (m : Modes) : Prop where
  /-- Into calls of `ttxput`. -/
  cut : ∀ (tp : Outq) (args args' : List Arg), args.flatMap Arg.bytes = args'.flatMap Arg.bytes →
    args.foldl (ttxput m) tp = args'.foldl (ttxput m) tp
  /-- The two copies of the switch agree. -/
  agree : ∀ (tp : Outq) (l : List (BitVec 8)),
    l.foldl (putMapped m) tp = (l.flatMap (mapped m)).foldl (putPlain m.t_oflag) tp
  /-- Without a mapping, characters stand for themselves. -/
  plain : m.t_lflag &&& XCASE = 0 ∧ ¬has m.t_oflag OLCUC → ∀ c, mapped m c = [c]
  /-- All that is sent is what is intended. -/
  sent : ∀ s, (terminal m).Reachable s → Inv m s
  /-- Into packets. -/
  drained : ∀ s, (terminal m).Reachable s → ∀ ns : List ℕ,
    (shownAll m.t_oflag s.start (mappedAll m s.given)).1.length ≤ ns.length →
    (s.sent ++ (drain m ns s.toTty).1).flatMap Xmit.items =
      (shownAll m.t_oflag s.start (mappedAll m s.given)).1 ∧
    (drain m ns s.toTty).2 = ⟨⟨s.t_col, []⟩, 0⟩

theorem mapped_plain (h : m.t_lflag &&& XCASE = 0 ∧ ¬has m.t_oflag OLCUC) (c : BitVec 8) :
    mapped m c = [c] := by
  have hup : upper m.t_oflag c = c := if_neg fun hup => h.2 hup.1
  simp [mapped, h.1, hup]

theorem output_exact (m : Modes) (hop : has m.t_oflag OPOST) : Exact m where
  cut tp args args' h := by rw [foldl_ttxput, foldl_ttxput, h]
  agree tp l := by
    induction l generalizing tp with
    | nil => rfl
    | cons c l ih => rw [List.foldl_cons, ih, putMapped_eq, List.flatMap_cons, List.foldl_append]
  plain := mapped_plain
  sent s := inv_of_reachable hop
  drained s hs ns hlen := by
    obtain ⟨l, hl, hitems⟩ := (inv_of_reachable hop hs).queue
    have hfew : (due s.hibyte ++ l).length ≤ ns.length := by
      rw [← hitems, List.length_append] at hlen
      omega
    obtain ⟨hsent, hempty⟩ := drain_spec hop ns hl hfew
    rw [List.flatMap_append, hsent, hitems]
    exact ⟨rfl, hempty⟩

/-- New lines with delays. -/
theorem output_exact_crlf :
    has (0o1 ||| 0o4 ||| 0o1000) OPOST ∧ Exact ⟨0o1 ||| 0o4 ||| 0o1000, 0⟩ :=
  ⟨by decide, output_exact ⟨0o1 ||| 0o4 ||| 0o1000, 0⟩ (by decide)⟩

example : shownAll (0o1 ||| 0o4 ||| 0o1000) 2 [0o141, 0o12] =
    ([.ch 0o141, .ch 0o15, .ch 0o12, .pause 12], 0) := by decide

end AuxKernel.Tty.Output
