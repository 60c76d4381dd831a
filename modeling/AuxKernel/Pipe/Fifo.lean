import AuxKernel.Pipe.Basic

/-!
# A pipe is a queue of bytes

What was given to readers, followed by what can still be read, is what was taken from writers
(`Fifo`). A process that is in the loop has not yet stored where it is, so that the pointer is its
own meanwhile (`frptr`, `fwptr`). If it returns from the middle of the loop the pointer is not
stored at all, and if there is a fault `i_size` is changed by what should have been moved; `Clean`
excludes these two.
-/

namespace AuxKernel.Pipe

variable {P : Type*} [DecidableEq P]

/-- A pipe that is read at `frptr` and written at `fwptr`. A byte that is not read yet is on the
    disk, or in a buffer that will be written. -/
structure Fifo (lrg : Bool) (ip : Inode) (frptr fwptr : ℕ) (accepted delivered : List UInt8) :
    Prop where
  bytes : delivered ++ ring PIPSIZ (ip.byte lrg) frptr ip.i_size = accepted
  size : ip.i_size ≤ PIPSIZ
  frptr_lt : frptr < PIPSIZ
  fwptr_eq : fwptr = (frptr + ip.i_size) % PIPSIZ
  kept : ∀ i < ip.i_size, ∀ b,
    ip.i_faddr ((frptr + i) % PIPSIZ / FsBSIZE lrg) = some b → b.B_DELWRI = false →
      b.disk ((frptr + i) % PIPSIZ % FsBSIZE lrg) = b.data ((frptr + i) % PIPSIZ % FsBSIZE lrg)

section Blocks

variable {lrg : Bool} {ip : Inode} {lbn off : ℕ} {b : Block}

theorem setBlock_self (o : Option Block) : (ip.setBlock lbn o).i_faddr lbn = o :=
  Function.update_self ..

theorem setBlock_of_ne {l : ℕ} (h : l ≠ lbn) (o : Option Block) :
    (ip.setBlock lbn o).i_faddr l = ip.i_faddr l :=
  Function.update_of_ne h ..

theorem byte_of_some (h : ip.i_faddr (off / FsBSIZE lrg) = some b) :
    ip.byte lrg off = b.data (off % FsBSIZE lrg) := by
  rw [Inode.byte, h, Option.elim_some]

theorem byte_setBlock_of_ne (h : off / FsBSIZE lrg ≠ lbn) (o : Option Block) :
    (ip.setBlock lbn o).byte lrg off = ip.byte lrg off := by
  rw [Inode.byte, setBlock_of_ne h, Inode.byte]

theorem byte_setBlock_self (h : off / FsBSIZE lrg = lbn) :
    (ip.setBlock lbn (some b)).byte lrg off = b.data (off % FsBSIZE lrg) :=
  byte_of_some (by rw [h, setBlock_self])

/-- A block is replaced by one with the same data. -/
theorem byte_setBlock_map {f : Block → Block} (hf : ∀ b, (f b).data = b.data) (off : ℕ) :
    (ip.setBlock lbn ((ip.i_faddr lbn).map f)).byte lrg off = ip.byte lrg off := by
  by_cases h : off / FsBSIZE lrg = lbn
  · cases hb : ip.i_faddr lbn with
    | none => rw [Inode.byte, h, setBlock_self, Inode.byte, h, hb]; rfl
    | some b =>
      rw [Option.map_some, byte_setBlock_self h, hf, byte_of_some (h ▸ hb)]
  · exact byte_setBlock_of_ne h _

@[simp] theorem Block.data_bread (b : Block) : b.bread.data = b.data := rfl

@[simp] theorem Block.data_bwrite (b : Block) : b.bwrite.data = b.data := by
  cases b with | mk buf _ disk => cases buf <;> rfl

@[simp] theorem Block.data_bdwrite (b : Block) : b.bdwrite.data = b.data := rfl

@[simp] theorem Block.data_cancel (b : Block) : b.cancel.data = b.data := rfl

/-- What a write puts into a buffer, and what it leaves. -/
theorem Block.data_put (b : Block) (on : ℕ) (bytes : List UInt8) (i : ℕ) :
    (b.put on bytes).data i =
      if on ≤ i ∧ i < on + bytes.length then bytes.getD (i - on) 0 else b.data i := rfl

end Blocks

namespace Fifo

variable {lrg : Bool} {ip : Inode} {frptr fwptr off : ℕ} {accepted delivered : List UInt8}

theorem empty (hsize : ip.i_size = 0) : Fifo lrg ip 0 0 accepted accepted := by
  refine ⟨by rw [hsize, ring_zero, List.append_nil], by omega, by decide, by rw [hsize]; rfl, ?_⟩
  intro i hi
  omega

/-- The buffer cache may do to the blocks what it likes, as far as it may. -/
theorem cache (h : Fifo lrg ip frptr fwptr accepted delivered) (lbn : ℕ) (c : Cache) :
    Fifo lrg (ip.setBlock lbn ((ip.i_faddr lbn).map (·.cache c))) frptr fwptr accepted
      delivered := by
  obtain ⟨hbytes, hsize, hlt, heq, hkept⟩ := h
  -- a byte that is not read yet is the same after what the cache did, and on the disk if need be
  have hdata : ∀ i < ip.i_size, ∀ b,
      ip.i_faddr ((frptr + i) % PIPSIZ / FsBSIZE lrg) = some b →
      (b.cache c).data ((frptr + i) % PIPSIZ % FsBSIZE lrg) =
          b.data ((frptr + i) % PIPSIZ % FsBSIZE lrg) ∧
        ((b.cache c).B_DELWRI = false → (b.cache c).disk ((frptr + i) % PIPSIZ % FsBSIZE lrg) =
          (b.cache c).data ((frptr + i) % PIPSIZ % FsBSIZE lrg)) := by
    intro i hi b hb
    have hb' := hkept i hi b hb
    cases c with
    | breada => exact ⟨rfl, hb'⟩
    | bawrite => exact ⟨by rw [Block.cache, Block.data_bwrite], fun _ => by
        rw [Block.cache, Block.data_bwrite]; rfl⟩
    | reuse =>
      rw [Block.cache]
      cases hd : b.B_DELWRI with
      | true => exact ⟨rfl, fun h => absurd (hd.symm.trans h) (by decide)⟩
      | false => exact ⟨hb' hd, fun _ => rfl⟩
  refine ⟨?_, hsize, hlt, heq, fun i hi b hb hd => ?_⟩
  · rw [← hbytes]
    refine congrArg _ (ring_congr fun i hi => ?_)
    by_cases hlbn : (frptr + i) % PIPSIZ / FsBSIZE lrg = lbn
    · cases hb : ip.i_faddr lbn with
      | none =>
        rw [Inode.byte, hlbn, setBlock_self, Inode.byte, hlbn, hb]
        rfl
      | some b =>
        rw [Option.map_some, byte_setBlock_self hlbn, (hdata i hi b (hlbn ▸ hb)).1,
          byte_of_some (hlbn ▸ hb)]
    · exact byte_setBlock_of_ne hlbn _
  · by_cases hlbn : (frptr + i) % PIPSIZ / FsBSIZE lrg = lbn
    · rw [hlbn, setBlock_self, Option.map_eq_some_iff] at hb
      obtain ⟨b, hb, rfl⟩ := hb
      exact (hdata i hi b (hlbn ▸ hb)).2 hd
    · rw [setBlock_of_ne hlbn] at hb
      exact hkept i hi b hb hd

end Fifo

/-! ## A turn of the loop -/

section Turn

variable {lrg : Bool} {ip : Inode} {frptr fwptr off n : ℕ} {accepted delivered : List UInt8}

theorem PIPSIZ_eq : PIPSIZ = 5120 := rfl

theorem FsBSIZE_false : FsBSIZE false = 512 := rfl

theorem FsBSIZE_true : FsBSIZE true = 1024 := rfl

/-- A block ends where the ring does, or before. -/
theorem block_le (hoff : off < PIPSIZ) (hn : off % FsBSIZE lrg + n ≤ FsBSIZE lrg) :
    off + n ≤ PIPSIZ := by
  cases lrg <;> simp only [PIPSIZ_eq, FsBSIZE_false, FsBSIZE_true] at * <;> omega

/-- The cells of one turn are in one block, one after the other. -/
theorem block_cells (hoff : off < PIPSIZ) (hn : off % FsBSIZE lrg + n ≤ FsBSIZE lrg) {i : ℕ}
    (hi : i < n) : (off + i) % PIPSIZ = off + i ∧ (off + i) / FsBSIZE lrg = off / FsBSIZE lrg ∧
      (off + i) % FsBSIZE lrg = off % FsBSIZE lrg + i := by
  cases lrg <;> simp only [PIPSIZ_eq, FsBSIZE_false, FsBSIZE_true] at * <;> omega

/-- Where the bytes fill the ring up to less than a block, none is in the block before them. -/
theorem block_free (hn : off % FsBSIZE lrg + n = FsBSIZE lrg) {i : ℕ}
    (hi : i < PIPSIZ - FsBSIZE lrg) : (off + n + i) % PIPSIZ / FsBSIZE lrg ≠ off / FsBSIZE lrg := by
  cases lrg <;> simp only [PIPSIZ_eq, FsBSIZE_false, FsBSIZE_true] at * <;> omega

/-- Where there is room for more than a block, the next one has nothing in it. -/
theorem block_before (hoff : off = (frptr + n) % PIPSIZ) (h₀ : off % FsBSIZE lrg = 0)
    (hn : n < PIPSIZ - FsBSIZE lrg) {i : ℕ} (hi : i < n) :
    (frptr + i) % PIPSIZ / FsBSIZE lrg ≠ off / FsBSIZE lrg := by
  cases lrg <;> simp only [PIPSIZ_eq, FsBSIZE_false, FsBSIZE_true] at * <;> omega

theorem wrap_eq (h : off + n ≤ PIPSIZ) :
    (if off + n ≥ PIPSIZ then 0 else off + n) = (off + n) % PIPSIZ ∧
      (if off + n = PIPSIZ then 0 else off + n) = (off + n) % PIPSIZ := by
  rcases h.lt_or_eq with hlt | heq
  · rw [if_neg (by omega), if_neg (by omega), Nat.mod_eq_of_lt hlt]
    exact ⟨rfl, rfl⟩
  · rw [if_pos (by omega), if_pos heq, heq, Nat.mod_self]
    exact ⟨rfl, rfl⟩

/-- Bytes are read, and the buffer need not be written if the block was read to its end, and there
    is none of those that are left in it. -/
theorem Fifo.read (h : Fifo lrg ip off fwptr accepted delivered) (hn : n ≤ ip.i_size)
    (hblk : off % FsBSIZE lrg + n ≤ FsBSIZE lrg) {f : Block → Block}
    (hf : f = Block.bread ∨ f = Block.cancel ∘ Block.bread ∧
      off % FsBSIZE lrg + n = FsBSIZE lrg ∧ ip.i_size - n ≤ PIPSIZ - FsBSIZE lrg) :
    Fifo lrg
      { ip.setBlock (off / FsBSIZE lrg) ((ip.i_faddr (off / FsBSIZE lrg)).map f) with
        i_size := ip.i_size - n }
      ((off + n) % PIPSIZ) fwptr accepted
      (delivered ++ (List.range n).map fun i => ip.byte lrg (off + i)) := by
  obtain ⟨hbytes, hsize, hlt, heq, hkept⟩ := h
  have hdata : ∀ b, (f b).data = b.data ∧ (f b).disk = b.disk := by
    rcases hf with rfl | ⟨rfl, -⟩ <;> exact fun b => ⟨rfl, rfl⟩
  refine ⟨?_, by dsimp only; omega, Nat.mod_lt _ (by decide), ?_, fun i hi b hb hd => ?_⟩
  · -- what was read is the first part of what could be read
    have hfirst : (List.range n).map (fun i => ip.byte lrg (off + i)) =
        ring PIPSIZ (ip.byte lrg) off n :=
      List.map_congr_left fun i hi => by rw [(block_cells hlt hblk (List.mem_range.1 hi)).1]
    have hrest : ring PIPSIZ (ip.byte lrg) ((off + n) % PIPSIZ) (ip.i_size - n) = ring PIPSIZ
        ((ip.setBlock (off / FsBSIZE lrg) ((ip.i_faddr (off / FsBSIZE lrg)).map f)).byte lrg)
        ((off + n) % PIPSIZ) (ip.i_size - n) :=
      ring_congr fun i _ => (byte_setBlock_map (fun b => (hdata b).1) _).symm
    calc delivered ++ (List.range n).map (fun i => ip.byte lrg (off + i)) ++ ring PIPSIZ
          ((ip.setBlock (off / FsBSIZE lrg) ((ip.i_faddr (off / FsBSIZE lrg)).map f)).byte lrg)
          ((off + n) % PIPSIZ) (ip.i_size - n)
      _ = delivered ++ (ring PIPSIZ (ip.byte lrg) off n ++
          ring PIPSIZ (ip.byte lrg) (off + n) (ip.i_size - n)) := by
        rw [hfirst, ← hrest, ring_mod, List.append_assoc]
      _ = accepted := by rw [← ring_add, Nat.add_sub_cancel' hn, hbytes]
  · rw [Nat.mod_add_mod, heq]
    dsimp only
    congr 1
    omega
  · dsimp only at hi
    have hpos : ((off + n) % PIPSIZ + i) % PIPSIZ = (off + (n + i)) % PIPSIZ := by
      rw [Nat.mod_add_mod, Nat.add_assoc]
    rw [hpos] at hb ⊢
    by_cases hlbn : (off + (n + i)) % PIPSIZ / FsBSIZE lrg = off / FsBSIZE lrg
    · rcases hf with rfl | ⟨rfl, hend, hfree⟩
      · change (ip.setBlock _ _).i_faddr _ = some b at hb
        rw [hlbn, setBlock_self, Option.map_eq_some_iff] at hb
        obtain ⟨b, hb, rfl⟩ := hb
        exact hkept (n + i) (by omega) b (hlbn ▸ hb) hd
      · rw [← Nat.add_assoc] at hlbn
        exact absurd hlbn (block_free hend (by omega))
    · change (ip.setBlock _ _).i_faddr _ = some b at hb
      rw [setBlock_of_ne hlbn] at hb
      exact hkept (n + i) (by omega) b hb hd

/-- Bytes are written to a block, of which the buffer has what was in the block, unless there is
    nothing in the block that is not read yet. -/
theorem Fifo.write (h : Fifo lrg ip frptr off accepted delivered) (hoff : off < PIPSIZ)
    {bytes : List UInt8} (hn : bytes.length = n) (hroom : ip.i_size + n ≤ PIPSIZ)
    (hblk : off % FsBSIZE lrg + n ≤ FsBSIZE lrg) {b b' : Block}
    (hb : ∀ i < ip.i_size, (frptr + i) % PIPSIZ / FsBSIZE lrg = off / FsBSIZE lrg →
      b.data ((frptr + i) % PIPSIZ % FsBSIZE lrg) = ip.byte lrg ((frptr + i) % PIPSIZ))
    (hb' : b'.data = (b.put (off % FsBSIZE lrg) bytes).data)
    (hd : b'.B_DELWRI = false → b'.disk = b'.data) :
    Fifo lrg { ip.setBlock (off / FsBSIZE lrg) (some b') with i_size := ip.i_size + n }
      frptr ((off + n) % PIPSIZ) (accepted ++ bytes) delivered := by
  obtain ⟨hbytes, hsize, hlt, heq, hkept⟩ := h
  -- what was there stays, and what is written comes behind it
  have hold : ∀ i < ip.i_size,
      (ip.setBlock (off / FsBSIZE lrg) (some b')).byte lrg ((frptr + i) % PIPSIZ) =
        ip.byte lrg ((frptr + i) % PIPSIZ) := by
    intro i hi
    by_cases hlbn : (frptr + i) % PIPSIZ / FsBSIZE lrg = off / FsBSIZE lrg
    · rw [byte_setBlock_self hlbn, hb', Block.data_put, if_neg, hb i hi hlbn]
      intro hin
      have hcell : (frptr + i) % PIPSIZ = (frptr + (ip.i_size +
          ((frptr + i) % PIPSIZ % FsBSIZE lrg - off % FsBSIZE lrg))) % PIPSIZ := by
        have hj := block_cells hoff hblk
          (i := (frptr + i) % PIPSIZ % FsBSIZE lrg - off % FsBSIZE lrg) (by omega)
        rw [← Nat.add_assoc, ← Nat.mod_add_mod (frptr + ip.i_size), ← heq, hj.1]
        have := Nat.div_add_mod ((frptr + i) % PIPSIZ) (FsBSIZE lrg)
        have := Nat.div_add_mod off (FsBSIZE lrg)
        rw [hlbn] at *
        omega
      have := add_mod_inj (by omega) (by omega) hcell
      omega
    · exact byte_setBlock_of_ne hlbn _
  have hnew : ring PIPSIZ ((ip.setBlock (off / FsBSIZE lrg) (some b')).byte lrg) off n = bytes := by
    refine ring_eq_of_getD (d := 0) hn fun i hi => ?_
    obtain ⟨hmod, hdiv, hrem⟩ := block_cells hoff hblk hi
    rw [hmod, byte_setBlock_self hdiv, hb', hrem, Block.data_put, if_pos (by omega),
      Nat.add_sub_cancel_left]
  refine ⟨?_, hroom, hlt, ?_, fun i hi c hc hcd => ?_⟩
  · change delivered ++ ring PIPSIZ ((ip.setBlock _ (some b')).byte lrg) frptr (ip.i_size + n) = _
    rw [ring_add, ring_congr hold, ← ring_mod (frptr + ip.i_size), ← heq, hnew, ← List.append_assoc,
      hbytes]
  · rw [heq, Nat.mod_add_mod, Nat.add_assoc]
  · change (ip.setBlock _ _).i_faddr _ = some c at hc
    by_cases hlbn : (frptr + i) % PIPSIZ / FsBSIZE lrg = off / FsBSIZE lrg
    · rw [hlbn, setBlock_self, Option.some.injEq] at hc
      subst hc
      rw [hd hcd]
    · rw [setBlock_of_ne hlbn] at hc
      dsimp only at hi
      by_cases hlast : i < ip.i_size
      · exact hkept i hlast c hc hcd
      · obtain ⟨hmod, hdiv, -⟩ := block_cells hoff hblk (i := i - ip.i_size) (by omega)
        refine absurd ?_ hlbn
        rw [← hdiv, ← hmod, heq, Nat.mod_add_mod, Nat.add_assoc]
        congr 3
        omega

end Turn

/-! ## Every run -/

namespace State

variable (s : State P)

/-- Where the pipe is read, and where it is written: by who is in the loop, or who comes next. -/
def frptr : ℕ :=
  match s.cur with
  | some (_, .read off _) => off
  | _ => s.ip.i_frptr

def fwptr : ℕ :=
  match s.cur with
  | some (_, .write off _ _) => off
  | _ => s.ip.i_fwptr

/-- Between a call's tests and its end there is room for what it writes. -/
def Room : Prop :=
  match s.cur with
  | some (_, .write _ bytes _) => s.ip.i_size + bytes.length ≤ PIPSIZ
  | _ => True

end State

/-- A turn of the loop moves what it should, and if it does not get its block it is the first of
    its call. -/
def CleanTurn (lrg : Bool) (s : State P) (t : Turn) : Pass → Prop
  | .read off resid =>
    if t.B_ERROR ∧ (s.ip.i_faddr (off / FsBSIZE lrg)).any (·.buf.isNone) then off = s.ip.i_frptr
    else min (min (FsBSIZE lrg - off % FsBSIZE lrg) resid) s.ip.i_size ≤ t.moved
  | .write off bytes _ =>
    if s.writeBlock lrg (off / FsBSIZE lrg) (off % FsBSIZE lrg) t = none then off = s.ip.i_fwptr
    else min (FsBSIZE lrg - off % FsBSIZE lrg) bytes.length ≤ t.moved

def Clean (lrg : Bool) (s : State P) : Act P → Prop
  | .turn t => ∀ pass ∈ s.cur, CleanTurn lrg s t pass.2
  | _ => True

instance (lrg : Bool) (s : State P) (t : Turn) : ∀ pass, Decidable (CleanTurn lrg s t pass)
  | .read off resid => inferInstanceAs (Decidable
      (if t.B_ERROR ∧ (s.ip.i_faddr (off / FsBSIZE lrg)).any (·.buf.isNone) then off = s.ip.i_frptr
      else min (min (FsBSIZE lrg - off % FsBSIZE lrg) resid) s.ip.i_size ≤ t.moved))
  | .write off bytes _ => inferInstanceAs (Decidable
      (if s.writeBlock lrg (off / FsBSIZE lrg) (off % FsBSIZE lrg) t = none then off = s.ip.i_fwptr
      else min (FsBSIZE lrg - off % FsBSIZE lrg) bytes.length ≤ t.moved))

instance (lrg : Bool) : ∀ (s : State P) a, Decidable (Clean lrg s a)
  | s, .turn _ => inferInstanceAs (Decidable (∀ pass ∈ s.cur, CleanTurn lrg s _ pass.2))
  | _, .rwip _ _ => .isTrue trivial
  | _, .enter _ _ => .isTrue trivial
  | _, .interrupt _ => .isTrue trivial
  | _, .cache _ _ => .isTrue trivial
  | _, .openp _ _ => .isTrue trivial
  | _, .closep _ _ => .isTrue trivial

/-- A pipe is a queue, wherever a process in the loop is. -/
structure Inv (lrg : Bool) (s : State P) : Prop where
  fifo : Fifo lrg s.ip s.frptr s.fwptr s.accepted s.delivered
  room : s.Room

namespace Inv

variable {lrg : Bool} {s : State P} {p : P} {off resid : ℕ} {bytes usave : List UInt8} {t : Turn}

/-- A call that has not moved anything yet ends. -/
theorem leave (h : Fifo lrg s.ip s.ip.i_frptr s.ip.i_fwptr s.accepted s.delivered) :
    Inv lrg (s.leave p) :=
  ⟨h, trivial⟩

theorem readTurn (h : Inv lrg s) (hcur : s.cur = some (p, .read off resid))
    (hclean : CleanTurn lrg s t (.read off resid)) : Inv lrg (s.readTurn lrg p off resid t) := by
  have hfifo : Fifo lrg s.ip off s.ip.i_fwptr s.accepted s.delivered := by
    have hfifo := h.fifo
    rwa [State.frptr, State.fwptr, hcur] at hfifo
  rw [CleanTurn] at hclean
  rw [State.readTurn]
  by_cases herr : t.B_ERROR ∧ (s.ip.i_faddr (off / FsBSIZE lrg)).any (·.buf.isNone)
  · rw [if_pos herr] at hclean ⊢
    exact leave (hclean ▸ hfifo)
  rw [if_neg herr] at hclean ⊢
  obtain ⟨n, hn⟩ : ∃ n, n = min (min (FsBSIZE lrg - off % FsBSIZE lrg) resid) s.ip.i_size :=
    ⟨_, rfl⟩
  have hpos : 0 < FsBSIZE lrg := by cases lrg <;> decide
  have hlt := Nat.mod_lt off hpos
  have hblk : off % FsBSIZE lrg + n ≤ FsBSIZE lrg := by omega
  rw [← hn] at hclean ⊢
  simp only [min_eq_left hclean, (wrap_eq (block_le hfifo.frptr_lt hblk)).1]
  obtain ⟨f, hf, hmap⟩ : ∃ f, (f = Block.bread ∨ f = Block.cancel ∘ Block.bread ∧
      off % FsBSIZE lrg + n = FsBSIZE lrg ∧ s.ip.i_size - n ≤ PIPSIZ - FsBSIZE lrg) ∧
      (if off % FsBSIZE lrg + n = FsBSIZE lrg ∧ s.ip.i_size - n ≤ PIPSIZ - FsBSIZE lrg then
        ((s.ip.i_faddr (off / FsBSIZE lrg)).map Block.bread).map Block.cancel
      else (s.ip.i_faddr (off / FsBSIZE lrg)).map Block.bread) =
        (s.ip.i_faddr (off / FsBSIZE lrg)).map f := by
    by_cases hend : off % FsBSIZE lrg + n = FsBSIZE lrg ∧ s.ip.i_size - n ≤ PIPSIZ - FsBSIZE lrg
    · exact ⟨_, .inr ⟨rfl, hend⟩, by rw [if_pos hend, Option.map_map]⟩
    · exact ⟨_, .inl rfl, by rw [if_neg hend]⟩
  rw [hmap]
  have hread := hfifo.read (n := n) (by omega) hblk hf
  split_ifs with hgo
  · exact ⟨hread, trivial⟩
  · by_cases hsize : s.ip.i_size - n = 0
    · refine ⟨?_, trivial⟩
      have hbytes := hread.bytes
      simp only [hsize, ring_zero, List.append_nil] at hbytes
      simp only [State.readDone, ne_eq, hsize, not_true_eq_false, if_false]
      rw [← hbytes]
      exact .empty rfl
    · refine ⟨?_, trivial⟩
      simp only [State.readDone, ne_eq, hsize, not_false_eq_true, if_true]
      exact ⟨hread.bytes, hread.size, hread.frptr_lt, hread.fwptr_eq, hread.kept⟩

omit [DecidableEq P] in
/-- A buffer that is not read is that of a block in which nothing is left to read. -/
theorem writeBlock_data (h : Fifo lrg s.ip s.ip.i_frptr off s.accepted s.delivered) {b : Block}
    (hb : s.writeBlock lrg (off / FsBSIZE lrg) (off % FsBSIZE lrg) t = some b) :
    ∀ i < s.ip.i_size, (s.ip.i_frptr + i) % PIPSIZ / FsBSIZE lrg = off / FsBSIZE lrg →
      b.data ((s.ip.i_frptr + i) % PIPSIZ % FsBSIZE lrg) =
        s.ip.byte lrg ((s.ip.i_frptr + i) % PIPSIZ) := by
  intro i hi hlbn
  rw [State.writeBlock] at hb
  cases hold : s.ip.i_faddr (off / FsBSIZE lrg) with
  | none =>
    simp only [hold, Option.ite_none_right_eq_some, Option.some.injEq] at hb
    rw [← hb.2, Inode.byte, hlbn, hold]
    rfl
  | some c =>
    simp only [hold] at hb
    split_ifs at hb with hmap hget hread
    · exact absurd hlbn (block_before h.fwptr_eq hget.1 hget.2 hi)
    · rw [← Option.some.inj hb, Block.data_bread, byte_of_some (hlbn ▸ hold)]

theorem writeTurn (h : Inv lrg s) (hcur : s.cur = some (p, .write off bytes usave))
    (hclean : CleanTurn lrg s t (.write off bytes usave)) :
    Inv lrg (s.writeTurn lrg p off bytes usave t) := by
  have hfifo : Fifo lrg s.ip s.ip.i_frptr off s.accepted s.delivered := by
    have hfifo := h.fifo
    rwa [State.frptr, State.fwptr, hcur] at hfifo
  have hroom : s.ip.i_size + bytes.length ≤ PIPSIZ := by
    have hroom := h.room
    rwa [State.Room, hcur] at hroom
  rw [CleanTurn] at hclean
  rw [State.writeTurn]
  cases hb : s.writeBlock lrg (off / FsBSIZE lrg) (off % FsBSIZE lrg) t with
  | none =>
    rw [if_pos hb] at hclean
    exact leave (hclean ▸ hfifo)
  | some b =>
    rw [if_neg (by rw [hb]; exact Option.some_ne_none b)] at hclean
    obtain ⟨n, hn⟩ : ∃ n, n = min (FsBSIZE lrg - off % FsBSIZE lrg) bytes.length := ⟨_, rfl⟩
    have hoff : off < PIPSIZ := hfifo.fwptr_eq ▸ Nat.mod_lt _ (by decide)
    have hpos : 0 < FsBSIZE lrg := by cases lrg <;> decide
    have hlt := Nat.mod_lt off hpos
    have hblk : off % FsBSIZE lrg + n ≤ FsBSIZE lrg := by omega
    rw [← hn] at hclean
    dsimp only
    rw [← hn]
    have hlen : (bytes.take n).length = n := by
      rw [List.length_take]
      omega
    simp only [min_eq_left hclean, (wrap_eq (block_le hoff hblk)).2]
    obtain ⟨b', hb', hdata, hdisk⟩ : ∃ b', (if t.sync then
        (b.put (off % FsBSIZE lrg) (bytes.take n)).bwrite
      else (b.put (off % FsBSIZE lrg) (bytes.take n)).bdwrite) = b' ∧
        b'.data = (b.put (off % FsBSIZE lrg) (bytes.take n)).data ∧
        (b'.B_DELWRI = false → b'.disk = b'.data) := by
      refine ⟨_, rfl, ?_⟩
      split_ifs
      · exact ⟨Block.data_bwrite _, fun _ => by rw [Block.data_bwrite]; rfl⟩
      · exact ⟨rfl, fun h => absurd h (by simp [Block.bdwrite])⟩
    rw [hb']
    have hwrite := hfifo.write hoff hlen (by omega) hblk (writeBlock_data hfifo hb) hdata hdisk
    split_ifs with hgo
    · refine ⟨hwrite, ?_⟩
      change s.ip.i_size + n + (bytes.drop n).length ≤ PIPSIZ
      rw [List.length_drop]
      omega
    · exact ⟨⟨hwrite.bytes, hwrite.size, hwrite.frptr_lt, hwrite.fwptr_eq, hwrite.kept⟩, trivial⟩

/-- The tests before the loop leave room for what is written in it. -/
theorem enter (h : Inv lrg s) (hcur : s.cur = none) (fndelay : Bool) (call : Call) :
    Inv lrg (s.enter p fndelay call) := by
  have hfifo : Fifo lrg s.ip s.ip.i_frptr s.ip.i_fwptr s.accepted s.delivered := by
    have hfifo := h.fifo
    rwa [State.frptr, State.fwptr, hcur] at hfifo
  cases call with
  | read resid =>
    rw [State.enter]
    split_ifs
    · exact leave hfifo
    · exact h
    · exact ⟨hfifo, trivial⟩
  | write bytes =>
    rw [State.enter]
    split_ifs with hfr hfull hpart hnd
    · exact leave hfifo
    · refine ⟨hfifo, ?_⟩
      change s.ip.i_size + (bytes.take (PIPSIZ - s.ip.i_size)).length ≤ PIPSIZ
      rw [List.length_take]
      omega
    · exact leave hfifo
    · exact h
    · refine ⟨hfifo, ?_⟩
      change s.ip.i_size + bytes.length ≤ PIPSIZ
      omega

theorem step {s' : State P} {a : Act P} (h : Inv lrg s) (hclean : Clean lrg s a)
    (hs' : s.step lrg a = some s') : Inv lrg s' := by
  have hidle (hcur : s.cur = none) :
      Fifo lrg s.ip s.ip.i_frptr s.ip.i_fwptr s.accepted s.delivered := by
    have hfifo := h.fifo
    rwa [State.frptr, State.fwptr, hcur] at hfifo
  cases a with
  | rwip p call =>
    obtain ⟨-, hs'⟩ := Option.ite_none_right_eq_some.1 hs'
    cases hs'
    exact ⟨h.fifo, h.room⟩
  | enter p fndelay =>
    rw [State.step] at hs'
    split at hs'
    · cases hs'
      exact h.enter ‹_› fndelay _
    · cases hs'
  | turn t =>
    obtain ⟨⟨p, pass⟩, hcur, rfl⟩ := Option.map_eq_some_iff.1 hs'
    have hclean := hclean _ hcur
    cases pass with
    | read off resid => exact h.readTurn hcur hclean
    | write off bytes usave => exact h.writeTurn hcur hclean
  | interrupt p =>
    obtain ⟨hcur, hs'⟩ := Option.ite_none_right_eq_some.1 hs'
    cases hs'
    exact leave (hidle hcur)
  | cache lbn c =>
    cases hs'
    exact ⟨h.fifo.cache lbn c, h.room⟩
  | openp fread fwrite =>
    cases hs'
    obtain ⟨⟨hbytes, hsize, hlt, heq, hkept⟩, hroom⟩ := h
    exact ⟨⟨hbytes, hsize, hlt, heq, hkept⟩, hroom⟩
  | closep fread fwrite =>
    obtain ⟨hcur, hs'⟩ := Option.ite_none_right_eq_some.1 hs'
    cases hs'
    obtain ⟨hbytes, hsize, hlt, heq, hkept⟩ := hidle hcur
    rw [State.closep]
    dsimp only
    split_ifs
    · refine ⟨?_, by rw [State.Room, hcur]; trivial⟩
      rw [State.frptr, State.fwptr, hcur]
      exact .empty rfl
    · refine ⟨?_, by rw [State.Room, hcur]; trivial⟩
      rw [State.frptr, State.fwptr, hcur]
      exact ⟨hbytes, hsize, hlt, heq, hkept⟩

end Inv

variable {lrg : Bool} {s : State P}

theorem inv_of_reachable (hs : (pipes P lrg).ReachableIf (Clean lrg) s) : Inv lrg s := by
  refine hs.invariant (fun s hs => ?_) fun s a s' h hclean hstep => h.step hclean hstep
  obtain rfl : s = _ := hs
  exact ⟨.empty rfl, trivial⟩

/-- In every run without a fault, in which no process returns from the middle of the loop, the pipe
    is a queue of bytes, in the middle of a call and after it. -/
theorem fifo_of_clean (hs : (pipes P lrg).ReachableIf (Clean lrg) s) :
    Fifo lrg s.ip s.frptr s.fwptr s.accepted s.delivered ∧
      (s.cur = none → Fifo lrg s.ip s.ip.i_frptr s.ip.i_fwptr s.accepted s.delivered) := by
  have h := (inv_of_reachable hs).fifo
  refine ⟨h, fun hcur => ?_⟩
  rwa [State.frptr, State.fwptr, hcur] at h

/-- A turn that moves all it should, or nothing. -/
def Turn.moves (moved : ℕ) : Turn := ⟨true, false, moved, fun _ => 7, false⟩

/-- Two bytes are written, and one of them is read, after the buffer was written and used for
    another block. -/
theorem fifo_of_clean_byte : ∃ s : State Unit, s.accepted = [1, 2] ∧ s.delivered = [1] ∧
    Fifo false s.ip s.frptr s.fwptr s.accepted s.delivered := by
  have hrun : ((pipes Unit false).runIf (Clean false)
      ⟨⟨0, 0, 0, 0, 0, fun _ => none⟩, fun _ => none, none, [], []⟩
      [.openp true true, .rwip () (.write [1, 2]), .enter () false, .turn (.moves 2),
        .cache 0 .bawrite, .cache 0 .reuse, .rwip () (.read 1), .enter () false,
        .turn (.moves 1)]).map (fun s => (s.accepted, s.delivered)) = some ([1, 2], [1]) := by
    decide
  obtain ⟨s, hs, hend⟩ := Option.map_eq_some_iff.1 hrun
  obtain ⟨haccepted, hdelivered⟩ := Prod.mk.inj hend
  exact ⟨s, haccepted, hdelivered,
    (fifo_of_clean (Machine.reachableIf_runIf (.init rfl) hs)).1⟩

/-- A byte is written from an address that the process does not have. -/
theorem not_fifo : ∃ s : State Unit, (pipes Unit false).Reachable s ∧ s.cur = none ∧
    ¬Fifo false s.ip s.ip.i_frptr s.ip.i_fwptr s.accepted s.delivered := by
  have hrun : ((pipes Unit false).run ⟨⟨0, 0, 0, 0, 0, fun _ => none⟩, fun _ => none, none, [], []⟩
      [.openp true true, .rwip () (.write [1]), .enter () false, .turn (.moves 0)]).map
        (fun s => (s.cur, s.ip.i_frptr, s.ip.i_fwptr, s.ip.i_size)) = some (none, 0, 0, 1) := by
    decide
  obtain ⟨s, hs, hend⟩ := Option.map_eq_some_iff.1 hrun
  simp only [Prod.mk.injEq] at hend
  obtain ⟨hcur, hfrptr, hfwptr, hsize⟩ := hend
  refine ⟨s, Machine.reachableIf_run (.init rfl) (fun _ _ _ => trivial) hs, hcur, fun h => ?_⟩
  have := h.fwptr_eq
  rw [hfrptr, hfwptr, hsize] at this
  exact absurd this (by decide)

end AuxKernel.Pipe
