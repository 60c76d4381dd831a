import AuxKernel.Pipe.Fifo

/-!
# Writes to a pipe that fail

A write takes one block a turn, and adds to `i_size` what it should have written to it; only at the
end of the loop it stores `i_fwptr`. If it fails (`Fails`), the pipe is as it was when no block was
written yet. After that it is not: either `i_fwptr` is not stored, or `i_size` counts bytes that
were not copied (`left_iff`).
-/

namespace AuxKernel.Pipe

variable {P : Type*} [DecidableEq P] {lrg : Bool}

/-- A turn fails: there is no block for it, or not all of the bytes can be copied. -/
def Fails (lrg : Bool) (s : State P) (off : ℕ) (bytes : List UInt8) (t : Turn) : Prop :=
  s.writeBlock lrg (off / FsBSIZE lrg) (off % FsBSIZE lrg) t = none ∨
    t.moved < min (FsBSIZE lrg - off % FsBSIZE lrg) bytes.length

/-- The pipe a write leaves should have the bytes that were not read yet, and after them some of
    those written. -/
structure Left (lrg : Bool) (ip ip' : Inode) (bytes : List UInt8) : Prop where
  pointer : ip'.i_fwptr = (ip'.i_frptr + ip'.i_size) % PIPSIZ
  unread : ∃ k ≤ bytes.length, ring PIPSIZ (ip'.byte lrg) ip'.i_frptr ip'.i_size =
    ring PIPSIZ (ip.byte lrg) ip.i_frptr ip.i_size ++ bytes.take k

/-- A write to the pipe `ip` has done `m` bytes, and has `rest` to do. -/
structure Middle (ip ip' : Inode) (off m : ℕ) (rest : List UInt8) : Prop where
  i_frptr : ip'.i_frptr = ip.i_frptr
  i_fwptr : ip'.i_fwptr = ip.i_fwptr
  i_size : ip'.i_size = ip.i_size + m
  off_eq : off = (ip.i_frptr + ip.i_size + m) % PIPSIZ
  room : ip.i_size + m + rest.length ≤ PIPSIZ

section Turns

variable {s s' : State P} {p q : P} {ip : Inode} {off off' m n : ℕ}
  {bytes rest usave usave' : List UInt8} {t : Turn}

theorem FsBSIZE_pos (lrg : Bool) : 0 < FsBSIZE lrg := by cases lrg <;> decide

theorem PIPSIZ_pos : 0 < PIPSIZ := by decide

/-- The offset after `n` more bytes of a block. -/
theorem Middle.wrap (h : Middle ip s.ip off m bytes) (lrg : Bool)
    (hn : n ≤ FsBSIZE lrg - off % FsBSIZE lrg) :
    (if off + n = PIPSIZ then 0 else off + n) = (ip.i_frptr + ip.i_size + m + n) % PIPSIZ := by
  have hoff : off < PIPSIZ := h.off_eq ▸ Nat.mod_lt _ PIPSIZ_pos
  have hlt := Nat.mod_lt off (FsBSIZE_pos lrg)
  have hblk : off % FsBSIZE lrg + n ≤ FsBSIZE lrg := by omega
  rw [(wrap_eq (block_le hoff hblk)).2, h.off_eq, Nat.mod_add_mod]

/-- What a turn does to the pointers: it has no block, it goes on, or it ends the loop. -/
theorem writeTurn_cases (hn : n = min (FsBSIZE lrg - off % FsBSIZE lrg) bytes.length)
    (hs : s.writeTurn lrg p off bytes usave t = s') :
    (s.writeBlock lrg (off / FsBSIZE lrg) (off % FsBSIZE lrg) t = none ∧ s' = s.leave p) ∨
      s.writeBlock lrg (off / FsBSIZE lrg) (off % FsBSIZE lrg) t ≠ none ∧
        s'.ip.i_frptr = s.ip.i_frptr ∧ s'.ip.i_size = s.ip.i_size + n ∧
        ((n ≤ t.moved ∧ n < bytes.length ∧ s'.ip.i_fwptr = s.ip.i_fwptr ∧
          s'.cur = some (p, .write (if off + n = PIPSIZ then 0 else off + n) (bytes.drop n)
            usave)) ∨
        s'.ip.i_fwptr = (if off + min n t.moved = PIPSIZ then 0 else off + min n t.moved) ∧
          s'.cur = none) := by
  subst hs
  rw [State.writeTurn]
  split
  · rename_i hb
    exact .inl ⟨hb, rfl⟩
  · rename_i b hb
    have hblock : s.writeBlock lrg (off / FsBSIZE lrg) (off % FsBSIZE lrg) t ≠ none := by
      rw [hb]
      exact Option.some_ne_none b
    dsimp only
    rw [← hn]
    by_cases hgo : n ≤ t.moved ∧ 0 < bytes.length - min n t.moved
    · rw [if_pos hgo]
      rw [min_eq_left hgo.1] at hgo ⊢
      exact .inr ⟨hblock, rfl, rfl, .inl ⟨hgo.1, by omega, rfl, rfl⟩⟩
    · rw [if_neg hgo]
      exact .inr ⟨hblock, rfl, rfl, .inr ⟨rfl, rfl⟩⟩

/-- A turn after which the write goes on has done some bytes. -/
theorem Middle.turn (h : Middle ip s.ip off m bytes)
    (hgo : (s.writeTurn lrg p off bytes usave t).cur = some (q, .write off' rest usave')) :
    q = p ∧ rest ≠ [] ∧
      ∃ m' > m, Middle ip (s.writeTurn lrg p off bytes usave t).ip off' m' rest := by
  obtain ⟨n, hn⟩ : ∃ n, n = min (FsBSIZE lrg - off % FsBSIZE lrg) bytes.length := ⟨_, rfl⟩
  have hroom := h.room
  have hlt := Nat.mod_lt off (FsBSIZE_pos lrg)
  generalize hs : s.writeTurn lrg p off bytes usave t = s' at hgo
  obtain ⟨-, rfl⟩ | ⟨-, hfr, hsize, ⟨-, hlen, hfw, hcur⟩ | ⟨-, hcur⟩⟩ := writeTurn_cases hn hs
  · cases hgo
  · rw [hcur] at hgo
    simp only [Option.some.injEq, Prod.mk.injEq, Pass.write.injEq] at hgo
    obtain ⟨rfl, rfl, rfl, -⟩ := hgo
    refine ⟨rfl, ?_, m + n, by omega, hfr.trans h.i_frptr, hfw.trans h.i_fwptr, ?_, ?_, ?_⟩
    · rw [Ne, List.drop_eq_nil_iff, not_le]
      exact hlen
    · rw [hsize, h.i_size, add_assoc]
    · rw [h.wrap lrg (by omega), add_assoc _ m n]
    · rw [List.length_drop]
      omega
  · rw [hcur] at hgo
    cases hgo

/-- There are no turns when nobody is in the loop. -/
theorem run_of_idle {ts : List Turn} (hcur : s.cur = none)
    (hrun : (pipes P lrg).run s (ts.map .turn) = some s') : s'.cur = none := by
  cases ts with
  | nil =>
    obtain rfl := Option.some.inj hrun
    exact hcur
  | cons t ts =>
    obtain ⟨s₁, hs₁, -⟩ := Option.bind_eq_some_iff.1 hrun
    change s.cur.map _ = some s₁ at hs₁
    rw [hcur] at hs₁
    cases hs₁

/-- The turns of a write, of which the last one goes on. -/
theorem Middle.run {ts : List Turn} (h : Middle ip s.ip off m bytes)
    (hcur : s.cur = some (p, .write off bytes usave))
    (hrun : (pipes P lrg).run s (ts.map .turn) = some s')
    (hcur' : s'.cur = some (q, .write off' rest usave')) :
    q = p ∧ ∃ m', (ts ≠ [] → m < m' ∧ rest ≠ []) ∧ m ≤ m' ∧ Middle ip s'.ip off' m' rest := by
  induction ts generalizing s off m bytes usave with
  | nil =>
    obtain rfl := Option.some.inj hrun
    rw [hcur] at hcur'
    simp only [Option.some.injEq, Prod.mk.injEq, Pass.write.injEq] at hcur'
    obtain ⟨rfl, rfl, rfl, -⟩ := hcur'
    exact ⟨rfl, m, fun h => absurd rfl h, le_rfl, h⟩
  | cons t ts ih =>
    obtain ⟨s₁, hs₁, hrun⟩ := Option.bind_eq_some_iff.1 hrun
    have hs₁ : s.writeTurn lrg p off bytes usave t = s₁ := by
      change s.cur.map _ = some s₁ at hs₁
      rw [hcur] at hs₁
      exact Option.some.inj hs₁
    -- The loop has not ended, as there is another turn, or the last one goes on.
    have hgo : ∃ q off₁ rest₁ usave₁, s₁.cur = some (q, .write off₁ rest₁ usave₁) := by
      have hidle (hcur₁ : s₁.cur = none) : False := by
        rw [run_of_idle hcur₁ hrun] at hcur'
        cases hcur'
      obtain ⟨-, rfl⟩ | ⟨-, -, -, ⟨-, -, -, hcur₁⟩ | ⟨-, hcur₁⟩⟩ := writeTurn_cases rfl hs₁
      · exact absurd rfl hidle
      · exact ⟨_, _, _, _, hcur₁⟩
      · exact absurd hcur₁ hidle
    obtain ⟨q₁, off₁, rest₁, usave₁, hcur₁⟩ := hgo
    subst hs₁
    obtain ⟨rfl, hrest₁, m₁, hm₁, hmid⟩ := h.turn hcur₁
    obtain ⟨rfl, m', hts, hm', hmid'⟩ := ih hmid hcur₁ hrun
    refine ⟨rfl, m', fun _ => ⟨hm₁.trans_le hm', ?_⟩, hm₁.le.trans hm', hmid'⟩
    cases ts with
    | nil =>
      obtain rfl := Option.some.inj hrun
      rw [hcur₁] at hcur'
      simp only [Option.some.injEq, Prod.mk.injEq, Pass.write.injEq] at hcur'
      exact hcur'.2.2.1 ▸ hrest₁
    | cons t' ts => exact (hts (List.cons_ne_nil t' ts)).2

end Turns

variable {s s₁ s₂ : State P} {p : P} {off : ℕ} {bytes rest usave : List UInt8} {t : Turn}

/-- The loop starts with what there is room for. -/
theorem enter_write {fndelay : Bool} {q : P} {pass : Pass}
    (hcur : (s.enter p fndelay (.write bytes)).cur = some (q, pass)) (hidle : s.cur = none) :
    q = p ∧ (s.enter p fndelay (.write bytes)).ip = s.ip ∧ ∃ k usave,
      pass = .write s.ip.i_fwptr (bytes.take k) usave ∧
        s.ip.i_size + (bytes.take k).length ≤ PIPSIZ := by
  rw [State.enter] at hcur ⊢
  split_ifs at hcur ⊢ with hfr hfull hpart hnd
  · cases hcur
  · obtain ⟨rfl, rfl⟩ := Prod.mk.inj (Option.some.inj hcur)
    refine ⟨rfl, rfl, _, _, rfl, ?_⟩
    rw [List.length_take]
    omega
  · cases hcur
  · rw [hidle] at hcur
    cases hcur
  · obtain ⟨rfl, rfl⟩ := Prod.mk.inj (Option.some.inj hcur)
    refine ⟨rfl, rfl, bytes.length, _, by rw [List.take_length], ?_⟩
    rw [List.take_length]
    omega

/-- A write that fails leaves the pipe with the bytes that were in it, and some of those written,
    if and only if it gets no block for the first of its bytes. -/
theorem left_iff {fndelay : Bool} (ts : List Turn) (hidle : s.cur = none)
    (hcall : s.procs p = some (.write bytes))
    (hptr : s.ip.i_fwptr = (s.ip.i_frptr + s.ip.i_size) % PIPSIZ)
    (hrun : (pipes P lrg).run s (.enter p fndelay :: ts.map .turn) = some s₁)
    (hcur : s₁.cur = some (p, .write off rest usave)) (hfail : Fails lrg s₁ off rest t)
    (hs₂ : (pipes P lrg).next s₁ (.turn t) = some s₂) :
    Left lrg s.ip s₂.ip bytes ↔
      ts = [] ∧ s₁.writeBlock lrg (off / FsBSIZE lrg) (off % FsBSIZE lrg) t = none := by
  obtain ⟨s₀, hs₀, hrun⟩ := Option.bind_eq_some_iff.1 hrun
  obtain rfl : s.enter p fndelay (.write bytes) = s₀ := by
    simpa only [pipes, State.step, hidle, hcall, Option.some.injEq] using hs₀
  -- The process got into the loop.
  cases hcur₀ : (s.enter p fndelay (.write bytes)).cur with
  | none =>
    rw [run_of_idle hcur₀ hrun] at hcur
    cases hcur
  | some qpass =>
    obtain ⟨q, pass⟩ := qpass
    obtain ⟨rfl, hip, k, usave₀, rfl, hroom⟩ := enter_write hcur₀ hidle
    have hmid₀ : Middle s.ip (s.enter q fndelay (.write bytes)).ip s.ip.i_fwptr 0
        (bytes.take k) := by
      rw [hip]
      exact ⟨rfl, rfl, rfl, hptr, hroom⟩
    obtain ⟨-, m, hts, -, hmid⟩ := hmid₀.run hcur₀ hrun hcur
    have hroom₁ := hmid.room
    have hs₂ : s₁.writeTurn lrg q off rest usave t = s₂ := by
      change s₁.cur.map _ = some s₂ at hs₂
      rw [hcur] at hs₂
      exact Option.some.inj hs₂
    obtain ⟨hb, rfl⟩ | ⟨hb, hfr, hsize, ⟨hmoved, -⟩ | ⟨hfw, -⟩⟩ := writeTurn_cases rfl hs₂
    · constructor
      · intro h
        refine ⟨by_contra fun hne => ?_, hb⟩
        -- `i_fwptr` is that from before the loop, and `i_size` is not.
        obtain ⟨hm, hrest⟩ := hts hne
        have hpos := List.length_pos_iff.2 hrest
        have hptr₂ : s₁.ip.i_fwptr = (s₁.ip.i_frptr + s₁.ip.i_size) % PIPSIZ := h.pointer
        rw [hmid.i_fwptr, hmid.i_frptr, hmid.i_size, hptr, PIPSIZ_eq] at hptr₂
        rw [PIPSIZ_eq] at hroom₁
        omega
      · rintro ⟨rfl, -⟩
        obtain rfl := Option.some.inj hrun
        have hleave : ((s.enter q fndelay (.write bytes)).leave q).ip = s.ip := hip
        rw [hleave]
        exact ⟨hptr, 0, Nat.zero_le _, by rw [List.take_zero, List.append_nil]⟩
    · exact absurd hmoved (hfail.resolve_left hb).not_ge
    · refine iff_of_false (fun h => ?_) fun h => hb h.2
      -- `i_size` counts bytes that were not copied.
      have hmoved := hfail.resolve_left hb
      have hptr₂ := h.pointer
      rw [min_eq_right hmoved.le] at hfw
      rw [hfw, hmid.wrap lrg (by omega), hfr, hsize, hmid.i_frptr, hmid.i_size,
        PIPSIZ_eq] at hptr₂
      have hbs : FsBSIZE lrg ≤ 1024 := by cases lrg <;> decide
      omega

/-- A pipe that is open for reading and writing; a process writes to it. -/
def writing (size : ℕ) (bytes : List UInt8) : State Unit :=
  ⟨⟨size, 0, size, 1, 1, fun _ => none⟩, fun _ => some (.write bytes), none, [], []⟩

/-- The first block cannot be allocated. -/
theorem left_iff_first : ∃ s₁ s₂ : State Unit,
    (pipes Unit false).run (writing 3 [1, 2]) [.enter () false] = some s₁ ∧
      (pipes Unit false).next s₁ (.turn ⟨false, false, 0, fun _ => 7, false⟩) = some s₂ ∧
        Left false (writing 3 [1, 2]).ip s₂.ip [1, 2] :=
  ⟨_, _, rfl, rfl, (left_iff [] rfl rfl rfl rfl rfl (.inl rfl) rfl).2 ⟨rfl, rfl⟩⟩

/-- A byte is written from an address that the process does not have. -/
theorem not_left : ∃ s₁ s₂ : State Unit,
    (pipes Unit false).run (writing 0 [1]) [.enter () false] = some s₁ ∧
      Fails false s₁ 0 [1] (.moves 0) ∧
      (pipes Unit false).next s₁ (.turn (.moves 0)) = some s₂ ∧
        ¬Left false (writing 0 [1]).ip s₂.ip [1] := by
  refine ⟨_, _, rfl, .inr (by decide), rfl, fun h => ?_⟩
  exact absurd h.pointer (by decide)

end AuxKernel.Pipe
