import Mathlib.Algebra.Order.BigOperators.Group.List
import AuxKernel.LinkedList
import AuxKernel.Tty.Clist

/-!
# Character lists are queues of bytes

The bytes that are taken out of a character list are those that were put into it, in order, and
the others are on it, as many as it counts; and every block is on one list, on the free list, or
in the hands of a caller (`Inv`). This holds in every run (`clist_sound`), whether bytes are put
in and taken out one at a time or by blocks.

* `Links.unlink`, `Links.link`, `Links.free`, `Links.take`: how blocks move;
* `Inv.getc`, `Inv.putc`, `Inv.getcb`, `Inv.putcb`: what the calls get and put, and keep.
-/

namespace AuxKernel.Tty

/-! ## The invariant -/

/-- Where a block may be. -/
inductive Place
  | clist (i : ℕ)
  | free
  | hand
  deriving DecidableEq

/-- The number of the bytes of the blocks at `l`. -/
def size (b : ℕ → Cblock) (l : List ℕ) : ℤ :=
  (l.map fun x => ((b x).c_last : ℤ) - (b x).c_first).sum

/-- The bytes of the blocks at `l`. -/
def content (b : ℕ → Cblock) (l : List ℕ) : List ℤ := l.flatMap fun x => (b x).bytes

/-- The list has the blocks at a place, each of them once. -/
structure Holds (v : Pool) (w : ℕ → Place) (p : Place) (l : List ℕ) : Prop where
  nodup : l.Nodup
  mem : ∀ x, x ∈ l ↔ x < v.nclist ∧ w x = p

/-- The blocks of the lists are `q`, those on the free list `f`, and those in the hands of
    callers `h`; `w` says where each of them is. -/
structure Links (v : Pool) (s : State) (q : ℕ → List ℕ) (f h : List ℕ) (w : ℕ → Place) : Prop where
  first : ∀ i, (s.clist i).c_cf = (q i).head?
  chained : ∀ i, Chained (fun x => (s.block x).c_next) (q i)
  last : ∀ i, (s.clist i).c_cl = (q i).getLast?
  free_first : s.c_next = f.head?
  free_chained : Chained (fun x => (s.block x).c_next) f
  holds : ∀ i, Holds v w (.clist i) (q i)
  free_holds : Holds v w .free f
  hand_holds : Holds v w .hand h

/-- The list `i` holds and counts the bytes that were put into it and not taken out; only the
    block `e`, where the next byte is got or put, may be empty. -/
structure Data (s : State) (i : ℕ) (l : List ℕ) (e : Option ℕ) : Prop where
  full : ∀ x ∈ l, e ≠ some x → (s.block x).Full
  cc : (s.clist i).c_cc = size s.block l
  bytes : s.bytesIn i = s.bytesOut i ++ content s.block l

/-- The invariant. -/
structure Inv (v : Pool) (s : State) (q : ℕ → List ℕ) (f : List ℕ) (w : ℕ → Place) : Prop where
  links : Links v s q f s.held w
  data : ∀ i, Data s i (q i) none

variable {v : Pool} {s s' : State} {q : ℕ → List ℕ} {f h l t : List ℕ} {w : ℕ → Place}
  {i x cp : ℕ} {e : Option ℕ} {b b' : ℕ → Cblock} {p p' : Place}

theorem setClist_clist (s : State) (i j : ℕ) (p : Clist) :
    (s.setClist i p).clist j = if j = i then p else s.clist j := Function.update_apply ..

theorem setBlock_block (s : State) (x y : ℕ) (c : Cblock) :
    (s.setBlock x c).block y = if y = x then c else s.block y := Function.update_apply ..

theorem enter_bytesIn (s : State) (i j : ℕ) (l : List ℤ) :
    (s.enter i l).bytesIn j = if j = i then s.bytesIn i ++ l else s.bytesIn j :=
  Function.update_apply ..

theorem leave_bytesOut (s : State) (i j : ℕ) (l : List ℤ) :
    (s.leave i l).bytesOut j = if j = i then s.bytesOut i ++ l else s.bytesOut j :=
  Function.update_apply ..

theorem size_cons (b : ℕ → Cblock) (x : ℕ) (l : List ℕ) :
    size b (x :: l) = ((b x).c_last : ℤ) - (b x).c_first + size b l := List.sum_cons

theorem size_singleton (b : ℕ → Cblock) (x : ℕ) :
    size b [x] = ((b x).c_last : ℤ) - (b x).c_first := List.sum_singleton

theorem size_append (b : ℕ → Cblock) (l₁ l₂ : List ℕ) :
    size b (l₁ ++ l₂) = size b l₁ + size b l₂ := by
  rw [size, List.map_append, List.sum_append]
  rfl

theorem content_cons (b : ℕ → Cblock) (x : ℕ) (l : List ℕ) :
    content b (x :: l) = (b x).bytes ++ content b l := List.flatMap_cons

theorem content_singleton (b : ℕ → Cblock) (x : ℕ) : content b [x] = (b x).bytes :=
  List.flatMap_singleton ..

theorem content_append (b : ℕ → Cblock) (l₁ l₂ : List ℕ) :
    content b (l₁ ++ l₂) = content b l₁ ++ content b l₂ := List.flatMap_append

/-- The links do not matter. -/
theorem size_congr (hb : ∀ x ∈ l, ∃ p, b' x = { b x with c_next := p }) :
    size b' l = size b l := by
  unfold size
  refine congrArg _ (List.map_congr_left fun x hx => ?_)
  obtain ⟨p, hp⟩ := hb x hx
  rw [hp]

theorem content_congr (hb : ∀ x ∈ l, ∃ p, b' x = { b x with c_next := p }) :
    content b' l = content b l := by
  refine List.flatMap_congr fun x hx => ?_
  obtain ⟨p, hp⟩ := hb x hx
  rw [hp]
  rfl

/-! ## Blocks -/

/-- The first byte of a block and the others. -/
theorem Cblock.Full.bytes {c : Cblock} (hc : c.Full) :
    c.bytes = toUchar (c.c_data c.c_first) :: { c with c_first := c.c_first + 1 }.bytes := by
  obtain ⟨hlt, -⟩ := hc
  obtain ⟨n, hn⟩ : ∃ n, c.c_last - c.c_first = n + 1 := ⟨c.c_last - c.c_first - 1, by omega⟩
  rw [Cblock.bytes, hn, List.range'_succ, List.map_cons, Cblock.bytes]
  dsimp only
  rw [show c.c_last - (c.c_first + 1) = n by omega]

/-- A byte that is put at the end of a block. -/
theorem Cblock.bytes_concat {c : Cblock} (hc : c.c_first ≤ c.c_last) (n : ℤ) :
    { c with
      c_data := Function.update c.c_data c.c_last (toChar n), c_last := c.c_last + 1 }.bytes =
      c.bytes ++ [toUchar n] := by
  have hchar : toUchar (toChar n) = toUchar n := Int.bmod_emod
  obtain ⟨k, hk⟩ : ∃ k, c.c_last = c.c_first + k := ⟨c.c_last - c.c_first, by omega⟩
  unfold Cblock.bytes
  dsimp only
  rw [show c.c_last + 1 - c.c_first = k + 1 by omega, show c.c_last - c.c_first = k by omega,
    List.range'_1_concat, List.map_append, List.map_singleton, ← hk, Function.update_self, hchar]
  refine congrArg (· ++ _) (List.map_congr_left fun j hj => ?_)
  have hne : j ≠ c.c_last := by
    have := (List.mem_range'_1.1 hj).2
    omega
  rw [Function.update_of_ne hne]

theorem Cblock.bytes_nil {c : Cblock} (hc : c.c_first = c.c_last) : c.bytes = [] := by
  rw [Cblock.bytes, hc, Nat.sub_self]
  rfl

/-- Full blocks have at least one byte each, and at most as many as there is space. -/
theorem size_le (hfull : ∀ x ∈ l, (b x).Full) :
    l.length ≤ size b l ∧ size b l ≤ l.length * CLSIZE := by
  induction l with
  | nil => exact ⟨le_rfl, by simp [size]⟩
  | cons x l ih =>
    obtain ⟨hlo, hhi⟩ := ih fun y hy => hfull y (List.mem_cons_of_mem x hy)
    obtain ⟨hlt, hle⟩ := hfull x List.mem_cons_self
    rw [size_cons, List.length_cons]
    push_cast
    constructor
    · omega
    · rw [add_mul, one_mul]
      omega

/-! ## How blocks move -/

theorem putcf_block (s : State) (cp y : ℕ) : (putcf cp s).block y = { s.block y with
    c_next := if y = cp then s.c_next else (s.block y).c_next } := by
  unfold putcf
  dsimp only
  rw [setBlock_block]
  split_ifs with hy
  · rw [hy]
  · rfl

theorem unlink_clist (s : State) (i cp j : ℕ) : (unlink i cp s).clist j =
    if j = i then { s.clist i with
      c_cf := (s.block cp).c_next
      c_cl := if (s.block cp).c_next = none then none else (s.clist i).c_cl }
    else s.clist j := setClist_clist ..

theorem unlink_cc (s : State) (i cp j : ℕ) :
    ((unlink i cp s).clist j).c_cc = (s.clist j).c_cc := by
  rw [unlink_clist]
  by_cases hj : j = i
  · rw [if_pos hj, hj]
  · rw [if_neg hj]

theorem link_clist (s : State) (i cp j : ℕ) : (link i cp s).clist j =
    if j = i then { s.clist i with
      c_cf := if (s.clist i).c_cl = none then some cp else (s.clist i).c_cf
      c_cl := some cp }
    else s.clist j := by
  unfold link
  dsimp only
  cases hcl : (s.clist i).c_cl with
  | none => exact setClist_clist ..
  | some ocp => exact setClist_clist ..

theorem link_cc (s : State) (i cp j : ℕ) :
    ((link i cp s).clist j).c_cc = (s.clist j).c_cc := by
  rw [link_clist]
  by_cases hj : j = i
  · rw [if_pos hj, hj]
  · rw [if_neg hj]

theorem link_block (s : State) (i cp y : ℕ) : (link i cp s).block y = { s.block y with
    c_next := if (s.clist i).c_cl = some y then some cp else if y = cp then none
      else (s.block y).c_next } := by
  unfold link
  dsimp only
  cases hcl : (s.clist i).c_cl with
  | none =>
    rw [if_neg nofun]
    refine (setBlock_block ..).trans ?_
    split_ifs with hy
    · rw [hy]
    · rfl
  | some ocp =>
    refine (setBlock_block ..).trans ?_
    by_cases hy : y = ocp
    · subst hy
      rw [if_pos rfl, if_pos rfl, setBlock_block]
      split_ifs with hy
      · rw [hy]
      · rfl
    · rw [if_neg hy, if_neg fun he => hy (Option.some.inj he).symm, setBlock_block]
      split_ifs with hy'
      · rw [hy']
      · rfl

/-- The lists, the free list and the callers remember what they have. -/
theorem link_rest (s : State) (i cp : ℕ) : (link i cp s).c_next = s.c_next ∧
    (link i cp s).held = s.held ∧ (link i cp s).bytesIn = s.bytesIn ∧
    (link i cp s).bytesOut = s.bytesOut := by
  unfold link
  dsimp only
  cases (s.clist i).c_cl <;> exact ⟨rfl, rfl, rfl, rfl⟩

/-! ### The places of the others are the same -/

theorem Holds.keep (hw : Holds v w p l) (hx : w x ≠ p) (hp : p' ≠ p) :
    Holds v (Function.update w x p') p l := by
  refine ⟨hw.nodup, fun y => (hw.mem y).trans (and_congr_right fun _ => ?_)⟩
  by_cases hy : y = x
  · subst hy
    rw [Function.update_self]
    exact iff_of_false hx hp
  · rw [Function.update_of_ne hy]

theorem Holds.lose (hw : Holds v w p (x :: l)) (hp : p' ≠ p) :
    Holds v (Function.update w x p') p l := by
  obtain ⟨hxl, hnd⟩ := List.nodup_cons.1 hw.nodup
  refine ⟨hnd, fun y => ?_⟩
  by_cases hy : y = x
  · subst hy
    rw [Function.update_self]
    exact iff_of_false hxl fun h => hp h.2
  · rw [Function.update_of_ne hy, ← hw.mem, List.mem_cons]
    exact (or_iff_right hy).symm

theorem Holds.gain {l' : List ℕ} (hw : Holds v w p l) (hx : w x ≠ p) (hlt : x < v.nclist)
    (hl : l'.Perm (x :: l)) : Holds v (Function.update w x p) p l' := by
  refine ⟨hl.nodup_iff.2 (List.nodup_cons.2 ⟨fun hxl => hx ((hw.mem x).1 hxl).2, hw.nodup⟩),
    fun y => ?_⟩
  rw [hl.mem_iff, List.mem_cons, hw.mem]
  by_cases hy : y = x
  · subst hy
    rw [Function.update_self]
    exact iff_of_true (.inl rfl) ⟨hlt, rfl⟩
  · rw [Function.update_of_ne hy]
    exact or_iff_right hy

theorem Holds.perm {l' : List ℕ} (hw : Holds v w p l) (hl : l.Perm l') : Holds v w p l' :=
  ⟨hl.nodup_iff.1 hw.nodup, fun x => (hl.mem_iff (a := x)).symm.trans (hw.mem x)⟩

theorem Holds.ne {l' : List ℕ} (hw : Holds v w p l) (hw' : Holds v w p' l') (hp : p ≠ p')
    (hx : x ∈ l) {y : ℕ} (hy : y ∈ l') : y ≠ x := by
  intro he
  have hxp := ((hw.mem x).1 hx).2
  have hyp := ((hw'.mem y).1 hy).2
  exact hp (hxp.symm.trans (he ▸ hyp))

/-- What the callers do to their blocks, and what is counted, is not about links. -/
theorem Links.congr (hl : Links v s q f h w)
    (hclist : ∀ i, (s'.clist i).c_cf = (s.clist i).c_cf ∧ (s'.clist i).c_cl = (s.clist i).c_cl)
    (hfree : s'.c_next = s.c_next)
    (hblock : ∀ x, x ∉ h → (s'.block x).c_next = (s.block x).c_next) : Links v s' q f h w := by
  refine ⟨fun i => (hclist i).1.trans (hl.first i), fun i => ?_,
    fun i => (hclist i).2.trans (hl.last i), hfree.trans hl.free_first, ?_, hl.holds,
    hl.free_holds, hl.hand_holds⟩
  · exact (hl.chained i).congr fun x hx =>
      hblock x fun hxh => hl.hand_holds.ne (hl.holds i) nofun hxh hx rfl
  · exact hl.free_chained.congr fun x hx =>
      hblock x fun hxh => hl.hand_holds.ne hl.free_holds nofun hxh hx rfl

theorem Links.perm {h' : List ℕ} (hl : Links v s q f h w) (hh : h.Perm h') :
    Links v s q f h' w :=
  ⟨hl.first, hl.chained, hl.last, hl.free_first, hl.free_chained, hl.holds, hl.free_holds,
    hl.hand_holds.perm hh⟩

theorem Links.enter (hl : Links v s q f h w) (i : ℕ) (l : List ℤ) :
    Links v (s.enter i l) q f h w := hl.congr (fun _ => ⟨rfl, rfl⟩) rfl fun _ _ => rfl

theorem Links.leave (hl : Links v s q f h w) (i : ℕ) (l : List ℤ) :
    Links v (s.leave i l) q f h w := hl.congr (fun _ => ⟨rfl, rfl⟩) rfl fun _ _ => rfl

/-- The first block of a list is taken off. -/
theorem Links.unlink (hl : Links v s q f h w) (hq : q i = x :: t) :
    Links v (unlink i x s) (Function.update q i t) f (x :: h)
      (Function.update w x .hand) := by
  have hch := hl.chained i
  have hho := hl.holds i
  rw [hq] at hch hho
  obtain ⟨hlt, hwx⟩ := (hho.mem x).1 List.mem_cons_self
  refine ⟨fun j => ?_, fun j => ?_, fun j => ?_, hl.free_first, hl.free_chained, fun j => ?_,
    hl.free_holds.keep (hwx ▸ nofun) nofun, hl.hand_holds.gain (hwx ▸ nofun) hlt (.refl _)⟩
  · rw [unlink_clist]
    by_cases hj : j = i
    · subst hj
      rw [if_pos rfl, Function.update_self]
      exact hch.1
    · rw [if_neg hj, Function.update_of_ne hj]
      exact hl.first j
  · by_cases hj : j = i
    · subst hj
      rw [Function.update_self]
      exact hch.2
    · rw [Function.update_of_ne hj]
      exact hl.chained j
  · rw [unlink_clist]
    by_cases hj : j = i
    · subst hj
      rw [if_pos rfl, Function.update_self]
      dsimp only
      rw [(show (s.block x).c_next = t.head? from hch.1), hl.last, hq]
      cases t with
      | nil => rfl
      | cons y t => rw [if_neg nofun, List.getLast?_cons_cons]
    · rw [if_neg hj, Function.update_of_ne hj]
      exact hl.last j
  · by_cases hj : j = i
    · subst hj
      rw [Function.update_self]
      exact hho.lose nofun
    · rw [Function.update_of_ne hj]
      refine (hl.holds j).keep (fun he => hj ?_) nofun
      exact (Place.clist.inj (hwx.symm.trans he)).symm

/-- A block of a caller is put at the end of a list. -/
theorem Links.link (hl : Links v s q f (x :: h) w) :
    Links v (link i x s) (Function.update q i (q i ++ [x])) f h
      (Function.update w x (.clist i)) := by
  obtain ⟨hlt, hwx⟩ := (hl.hand_holds.mem x).1 List.mem_cons_self
  have hne (j y : ℕ) (hy : y ∈ q j) : y ≠ x :=
    hl.hand_holds.ne (hl.holds j) nofun List.mem_cons_self hy
  have hnef (y : ℕ) (hy : y ∈ f) : y ≠ x :=
    hl.hand_holds.ne hl.free_holds nofun List.mem_cons_self hy
  have hlast {y : ℕ} (hy : (s.clist i).c_cl = some y) : y ∈ q i :=
    List.mem_of_getLast? ((hl.last i).symm.trans hy)
  -- Only the pointers of the last block of the list and of the new one change.
  have hkeep {y : ℕ} (hcl : (s.clist i).c_cl ≠ some y) (hyx : y ≠ x) :
      ((Tty.link i x s).block y).c_next = (s.block y).c_next := by
    rw [link_block, if_neg hcl, if_neg hyx]
  refine ⟨fun j => ?_, fun j => ?_, fun j => ?_, (link_rest s i x).1.trans hl.free_first, ?_,
    fun j => ?_, hl.free_holds.keep (hwx ▸ nofun) nofun, hl.hand_holds.lose nofun⟩
  · rw [link_clist]
    by_cases hj : j = i
    · subst hj
      rw [if_pos rfl, Function.update_self, List.head?_append]
      dsimp only
      rw [hl.last, hl.first]
      cases q j with
      | nil => rfl
      | cons y l => rw [if_neg nofun]; rfl
    · rw [if_neg hj, Function.update_of_ne hj]
      exact hl.first j
  · by_cases hj : j = i
    · subst hj
      rw [Function.update_self]
      refine (hl.chained j).concat (hl.holds j).nodup ?_ fun y hy => ?_
      · rw [link_block, if_neg fun hcl => hne j x (hlast hcl) rfl, if_pos rfl]
      · rw [link_block, ← hl.last]
        dsimp only
        rw [if_neg (hne j y hy)]
    · rw [Function.update_of_ne hj]
      refine (hl.chained j).congr fun y hy => hkeep (fun hcl => ?_) (hne j y hy)
      exact (hl.holds i).ne (hl.holds j) (fun he => hj (Place.clist.inj he).symm) (hlast hcl) hy rfl
  · rw [link_clist]
    by_cases hj : j = i
    · subst hj
      rw [if_pos rfl, Function.update_self, List.getLast?_concat]
    · rw [if_neg hj, Function.update_of_ne hj]
      exact hl.last j
  · refine hl.free_chained.congr fun y hy => hkeep (fun hcl => ?_) (hnef y hy)
    exact (hl.holds i).ne hl.free_holds nofun (hlast hcl) hy rfl
  · by_cases hj : j = i
    · subst hj
      rw [Function.update_self]
      exact (hl.holds j).gain (hwx ▸ nofun) hlt (List.perm_append_singleton ..)
    · rw [Function.update_of_ne hj]
      exact (hl.holds j).keep (hwx ▸ nofun) fun he => hj (Place.clist.inj he).symm

/-- A block of a caller is freed. -/
theorem Links.free (hl : Links v s q f (x :: h) w) :
    Links v (putcf x s) q (x :: f) h (Function.update w x .free) := by
  obtain ⟨hlt, hwx⟩ := (hl.hand_holds.mem x).1 List.mem_cons_self
  have hkeep {y : ℕ} (hyx : y ≠ x) : ((putcf x s).block y).c_next = (s.block y).c_next := by
    rw [putcf_block, if_neg hyx]
  refine ⟨hl.first, fun j => ?_, hl.last, rfl, ⟨?_, ?_⟩,
    fun j => (hl.holds j).keep (hwx ▸ nofun) nofun,
    hl.free_holds.gain (hwx ▸ nofun) hlt (.refl _), hl.hand_holds.lose nofun⟩
  · exact (hl.chained j).congr fun y hy =>
      hkeep (hl.hand_holds.ne (hl.holds j) nofun List.mem_cons_self hy)
  · dsimp only
    rw [putcf_block, if_pos rfl]
    exact hl.free_first
  · exact hl.free_chained.congr fun y hy =>
      hkeep (hl.hand_holds.ne hl.free_holds nofun List.mem_cons_self hy)

theorem take_eq {m n : ℕ} (ht : take m n s = some (x, s')) : s.c_next = some x ∧
    s' = { s.setBlock x { s.block x with c_next := none, c_first := m, c_last := n } with
      c_next := (s.block x).c_next } := by
  obtain ⟨cp, hcp, he⟩ := Option.map_eq_some_iff.1 ht
  cases he
  exact ⟨hcp, rfl⟩

/-- The lists and the other blocks stay as they are. -/
structure Taken (s s' : State) (x m n : ℕ) : Prop where
  clist : s'.clist = s.clist
  held : s'.held = s.held
  bytesIn : s'.bytesIn = s.bytesIn
  bytesOut : s'.bytesOut = s.bytesOut
  block : ∀ y, y ≠ x → s'.block y = s.block y
  c_first : (s'.block x).c_first = m
  c_last : (s'.block x).c_last = n

theorem take_spec {m n : ℕ} (ht : take m n s = some (x, s')) : Taken s s' x m n := by
  obtain ⟨-, rfl⟩ := take_eq ht
  have hself := setBlock_block s x x { s.block x with c_next := none, c_first := m, c_last := n }
  rw [if_pos rfl] at hself
  exact ⟨rfl, rfl, rfl, rfl, fun y hy => Function.update_of_ne hy ..,
    congrArg Cblock.c_first hself, congrArg Cblock.c_last hself⟩

/-- A caller gets the first block of the free list. -/
theorem Links.take {m n : ℕ} (hl : Links v s q f h w) (ht : take m n s = some (x, s')) :
    ∃ t, f = x :: t ∧ Links v s' q t (x :: h) (Function.update w x .hand) := by
  obtain ⟨hx, rfl⟩ := take_eq ht
  cases f with
  | nil => exact nomatch hl.free_first.symm.trans hx
  | cons y t =>
    obtain rfl : y = x := Option.some.inj (hl.free_first.symm.trans hx)
    obtain ⟨hlt, hwx⟩ := (hl.free_holds.mem y).1 List.mem_cons_self
    have hne (j z : ℕ) (hz : z ∈ q j) : z ≠ y :=
      hl.free_holds.ne (hl.holds j) nofun List.mem_cons_self hz
    have hnet (z : ℕ) (hz : z ∈ t) : z ≠ y := fun he =>
      (List.nodup_cons.1 hl.free_holds.nodup).1 (he ▸ hz)
    refine ⟨t, rfl, hl.first, fun j => (hl.chained j).congr fun z hz => ?_, hl.last,
      hl.free_chained.1, hl.free_chained.2.congr fun z hz => ?_,
      fun j => (hl.holds j).keep (hwx ▸ nofun) nofun, hl.free_holds.lose nofun,
      hl.hand_holds.gain (hwx ▸ nofun) hlt (.refl _)⟩
    · exact congrArg Cblock.c_next (Function.update_of_ne (hne j z hz) ..)
    · exact congrArg Cblock.c_next (Function.update_of_ne (hnet z hz) ..)

/-! ## What the calls keep -/

/-- What happens to other lists. -/
theorem Data.congr (hd : Data s i l e) (hcc : (s'.clist i).c_cc = (s.clist i).c_cc)
    (hb : ∀ x ∈ l, ∃ p, s'.block x = { s.block x with c_next := p })
    (hin : s'.bytesIn i = s.bytesIn i) (hout : s'.bytesOut i = s.bytesOut i) :
    Data s' i l e := by
  refine ⟨fun x hx he => ?_, ?_, ?_⟩
  · obtain ⟨p, hp⟩ := hb x hx
    rw [hp]
    exact hd.full x hx he
  · rw [hcc, hd.cc, size_congr hb]
  · rw [hin, hout, hd.bytes, content_congr hb]

theorem Data.weaken (hd : Data s i l none) : Data s i l e :=
  ⟨fun x hx _ => hd.full x hx nofun, hd.cc, hd.bytes⟩

/-- The block of the next byte is not empty, after all. -/
theorem Data.fill (hd : Data s i l (some x)) (hx : (s.block x).Full) : Data s i l none := by
  refine ⟨fun y hy _ => ?_, hd.cc, hd.bytes⟩
  by_cases hyx : y = x
  · exact hyx ▸ hx
  · exact hd.full y hy fun he => hyx (Option.some.inj he).symm

theorem Data.other (hd : Data s i l (some x)) (hx : x ∉ l) : Data s i l none :=
  ⟨fun y hy _ => hd.full y hy fun he => hx (Option.some.inj he ▸ hy), hd.cc, hd.bytes⟩

/-- An empty block does not count. -/
theorem Data.drop (hd : Data s i (x :: t) (some x)) (hxt : x ∉ t)
    (hx : (s.block x).c_first = (s.block x).c_last) : Data s i t none := by
  refine ⟨fun y hy _ => ?_, ?_, ?_⟩
  · exact hd.full y (List.mem_cons_of_mem x hy) fun he => hxt (Option.some.inj he ▸ hy)
  · rw [hd.cc, size_cons, hx, sub_self, zero_add]
  · rw [hd.bytes, content_cons, Cblock.bytes_nil hx, List.nil_append]

/-- A block is linked in at the end. -/
theorem Data.concat (hd : Data s i l none)
    (hb : ∀ y ∈ l, ∃ p, s'.block y = { s.block y with c_next := p })
    (hcc : (s'.clist i).c_cc =
      (s.clist i).c_cc + (((s'.block x).c_last : ℤ) - (s'.block x).c_first))
    (hin : s'.bytesIn i = s.bytesIn i ++ (s'.block x).bytes)
    (hout : s'.bytesOut i = s.bytesOut i) (hx : e = some x ∨ (s'.block x).Full) :
    Data s' i (l ++ [x]) e := by
  refine ⟨fun y hy he => ?_, ?_, ?_⟩
  · rcases List.mem_append.1 hy with hy | hy
    · obtain ⟨p, hp⟩ := hb y hy
      rw [hp]
      exact hd.full y hy nofun
    · obtain rfl := List.mem_singleton.1 hy
      exact hx.resolve_left he
  · rw [hcc, hd.cc, size_append, size_congr hb, size_singleton]
  · rw [hin, hout, hd.bytes, content_append, content_congr hb, content_singleton,
      List.append_assoc]

/-- All bytes can be counted. -/
theorem Holds.size_lt (hw : Holds v w p l) (hfull : ∀ x ∈ l, (b x).Full) :
    size b l < 2 ^ 31 := by
  have hlen := length_le_of_nodup hw.nodup fun x hx => ((hw.mem x).1 hx).1
  have hv : l.length * CLSIZE < 2 ^ 31 := (Nat.mul_le_mul_right _ hlen).trans_lt v.countable
  exact (size_le hfull).2.trans_lt (by exact_mod_cast hv)

/-- A list that is empty, and one that is not. -/
theorem Inv.cc_pos (hI : Inv v s q f w) : 0 < (s.clist i).c_cc ↔ q i ≠ [] := by
  have hsize := (size_le fun x hx => (hI.data i).full x hx nofun).1
  rw [(hI.data i).cc]
  constructor
  · intro hpos hq
    rw [hq] at hpos
    exact lt_irrefl 0 hpos
  · intro hq
    have := List.length_pos_iff.2 hq
    omega

theorem Inv.cc_range (hI : Inv v s q f w) :
    0 ≤ (s.clist i).c_cc ∧ (s.clist i).c_cc < 2 ^ 31 := by
  have hfull : ∀ x ∈ q i, (s.block x).Full := fun x hx => (hI.data i).full x hx nofun
  rw [(hI.data i).cc]
  exact ⟨(Int.natCast_nonneg _).trans (size_le hfull).1, (hI.links.holds i).size_lt hfull⟩

/-- The lists other than `i` do not have its first block. -/
theorem Links.not_mem (hl : Links v s q f h w) (hx : x ∈ q i) {j : ℕ} (hj : j ≠ i) : x ∉ q j :=
  fun hxj => (hl.holds i).ne (hl.holds j) (fun he => hj (Place.clist.inj he).symm) hx hxj rfl

/-- The state after the first byte of a list was got, before its block may be freed. -/
def advance (i x : ℕ) (s : State) : State :=
  (s.setClist i { s.clist i with c_cc := toLong ((s.clist i).c_cc - 1) }).setBlock x
    { s.block x with c_first := (s.block x).c_first + 1 }

theorem advance_clist (i x : ℕ) (s : State) (j : ℕ) : (advance i x s).clist j =
    if j = i then { s.clist i with c_cc := toLong ((s.clist i).c_cc - 1) } else s.clist j :=
  setClist_clist ..

theorem advance_block (i x : ℕ) (s : State) (y : ℕ) : (advance i x s).block y =
    if y = x then { s.block x with c_first := (s.block x).c_first + 1 } else s.block y :=
  setBlock_block ..

theorem Links.advance (hl : Links v s q f h w) : Links v (advance i x s) q f h w := by
  refine hl.congr (fun j => ?_) rfl fun y _ => ?_
  · rw [advance_clist]
    split_ifs with hj
    · exact hj ▸ ⟨rfl, rfl⟩
    · exact ⟨rfl, rfl⟩
  · rw [advance_block]
    split_ifs with hy
    · rw [hy]
    · rfl

theorem Inv.advance (hI : Inv v s q f w) (hq : q i = x :: t) (j : ℕ) :
    Data ((advance i x s).leave i [toUchar ((s.block x).c_data (s.block x).c_first)]) j (q j)
      (some x) := by
  by_cases hj : j = i
  · subst hj
    have hd := hI.data j
    have hho := hI.links.holds j
    rw [hq] at hd hho ⊢
    obtain ⟨hxt, -⟩ := List.nodup_cons.1 hho.nodup
    have hb : ∀ y ∈ t, ∃ p, (Tty.advance j x s).block y = { s.block y with c_next := p } := by
      intro y hy
      rw [advance_block, if_neg (show y ≠ x from fun he => hxt (he ▸ hy))]
      exact ⟨_, rfl⟩
    refine ⟨fun y hy hyx => ?_, ?_, ?_⟩
    · have hyx : y ≠ x := fun he => hyx (congrArg some he.symm)
      refine (?_ : ((Tty.advance j x s).block y).Full)
      rw [advance_block, if_neg hyx]
      exact hd.full y hy nofun
    · refine (?_ : ((Tty.advance j x s).clist j).c_cc = size (Tty.advance j x s).block (x :: t))
      obtain ⟨hnn, hlt⟩ := hI.cc_range (i := j)
      rw [advance_clist, if_pos rfl, size_cons, size_congr hb, advance_block, if_pos rfl]
      dsimp only
      rw [toLong_of_mem (by omega) (by omega), hd.cc, size_cons]
      push_cast
      omega
    · refine (?_ : s.bytesIn j = _ ++ content (Tty.advance j x s).block (x :: t))
      rw [leave_bytesOut, if_pos rfl, content_cons, content_congr hb, advance_block, if_pos rfl,
        hd.bytes, content_cons, (hd.full x List.mem_cons_self nofun).bytes]
      exact (List.append_assoc (s.bytesOut j) [_] _).symm
  · have hxj := hI.links.not_mem (hq ▸ List.mem_cons_self : x ∈ q i) hj
    refine Data.weaken ((hI.data j).congr ?_ (fun y hy => ⟨(s.block y).c_next, ?_⟩) rfl ?_)
    · exact congrArg Clist.c_cc ((advance_clist i x s j).trans (if_neg hj))
    · exact (advance_block ..).trans (if_neg (show y ≠ x from fun he => hxj (he ▸ hy)))
    · exact (leave_bytesOut ..).trans (if_neg hj)

theorem getc_cons (hcc : 0 < (s.clist i).c_cc) (hcf : (s.clist i).c_cf = some x) :
    getc i s = some (toUchar ((s.block x).c_data (s.block x).c_first),
      if (s.block x).c_first + 1 = (s.block x).c_last then putcf x (unlink i x (advance i x s))
      else advance i x s) := by
  unfold getc
  dsimp only
  rw [if_pos hcc]
  exact congrArg (Option.map _) hcf

/-- What `getc` gets: nothing from a list that is empty, and else the first byte of it. -/
theorem Inv.getc (hI : Inv v s q f w) :
    (q i = [] ∧ getc i s = some (-1, s)) ∨
    ∃ c s', getc i s = some (c, s') ∧ c ≠ -1 ∧ ∃ q' f' w', Inv v (s'.leave i [c]) q' f' w' := by
  have hcc := hI.cc_pos (i := i)
  have hcf := hI.links.first i
  cases hq : q i with
  | nil =>
    refine .inl ⟨rfl, ?_⟩
    unfold Tty.getc
    dsimp only
    rw [if_neg fun h => hcc.1 h hq, hcf, hq]
    rfl
  | cons x t =>
    have hd := hI.advance hq
    have hl := hI.links.advance (i := i) (x := x)
    have hx := (hI.data i).full x (hq ▸ List.mem_cons_self) nofun
    have hxb : (Tty.advance i x s).block x =
        { s.block x with c_first := (s.block x).c_first + 1 } :=
      (advance_block ..).trans (if_pos rfl)
    have hne : toUchar ((s.block x).c_data (s.block x).c_first) ≠ -1 := by
      have : 0 ≤ toUchar ((s.block x).c_data (s.block x).c_first) :=
        Int.emod_nonneg _ (by decide)
      omega
    refine .inr ⟨_, _, getc_cons (hcc.2 (hq ▸ nofun)) (hcf.trans (hq ▸ rfl)), hne, ?_⟩
    split_ifs with hlast
    · -- The indices have met, and the block is freed.
      refine ⟨_, _, _, (hl.unlink hq).free.leave i _, fun j => ?_⟩
      have hempty : Data ((Tty.advance i x s).leave i
          [toUchar ((s.block x).c_data (s.block x).c_first)]) j (Function.update q i t j) none := by
        by_cases hj : j = i
        · subst hj
          have hd := hd j
          have hho := hl.holds j
          rw [hq] at hd hho
          rw [Function.update_self]
          refine hd.drop (List.nodup_cons.1 hho.nodup).1 ?_
          exact (congrArg Cblock.c_first hxb).trans (hlast.trans (congrArg Cblock.c_last hxb).symm)
        · rw [Function.update_of_ne hj]
          exact (hd j).other (hl.not_mem (hq ▸ List.mem_cons_self : x ∈ q i) hj)
      exact hempty.congr (unlink_cc ..) (fun y _ => ⟨_, putcf_block ..⟩) rfl rfl
    · refine ⟨q, f, w, hl.leave i _, fun j => (hd j).fill ?_⟩
      refine (?_ : ((Tty.advance i x s).block x).Full)
      rw [hxb]
      exact ⟨lt_of_le_of_ne hx.1 hlast, hx.2⟩

/-- An empty block is linked in. -/
theorem Inv.grow (hI : Inv v s q f w) (hr : grow i s = some (x, s')) :
    ∃ q' f' w' l, Links v s' q' f' s'.held w' ∧ (∀ j, Data s' j (q' j) (some x)) ∧
      q' i = l ++ [x] ∧ (s'.block x).c_first = 0 ∧ (s'.block x).c_last = 0 := by
  obtain ⟨⟨y, s₁⟩, ht, he⟩ := Option.map_eq_some_iff.1 hr
  cases he
  obtain ⟨f', hf, hl⟩ := hI.links.take ht
  have hs := take_spec ht
  have hne (j z : ℕ) (hz : z ∈ q j) : z ≠ y :=
    hI.links.free_holds.ne (hI.links.holds j) nofun (hf ▸ List.mem_cons_self) hz
  have hb (j : ℕ) : ∀ z ∈ q j, ∃ p, (link i y s₁).block z = { s.block z with c_next := p } := by
    intro z hz
    rw [link_block, hs.block z (hne j z hz)]
    exact ⟨_, rfl⟩
  obtain ⟨-, hheld, hin, hout⟩ := link_rest s₁ i y
  have hfirst : ((link i y s₁).block y).c_first = 0 := by rw [link_block, hs.c_first]
  have hlast : ((link i y s₁).block y).c_last = 0 := by rw [link_block, hs.c_last]
  have hcc (j : ℕ) : ((link i y s₁).clist j).c_cc = (s.clist j).c_cc := by rw [link_cc, hs.clist]
  refine ⟨Function.update q i (q i ++ [y]), f', Function.update (Function.update w y .hand) y
    (.clist i), q i, ?_, fun j => ?_, Function.update_self .., hfirst, hlast⟩
  · rw [hheld, hs.held]
    exact hl.link
  · have hinj : (link i y s₁).bytesIn j = s.bytesIn j := by rw [hin, hs.bytesIn]
    have houtj : (link i y s₁).bytesOut j = s.bytesOut j := by rw [hout, hs.bytesOut]
    by_cases hj : j = i
    · subst hj
      rw [Function.update_self]
      refine (hI.data j).concat (hb j) ?_ ?_ houtj (.inl rfl)
      · rw [hcc, hfirst, hlast, sub_self, add_zero]
      · rw [hinj, Cblock.bytes_nil (hfirst.trans hlast.symm), List.append_nil]
    · rw [Function.update_of_ne hj]
      exact ((hI.data j).congr (hcc j) (hb j) hinj houtj).weaken

/-- There is room for a byte in the last block of the list. -/
theorem Inv.room (hI : Inv v s q f w) (hr : room i s = some (x, s')) :
    ∃ q' f' w' l, Links v s' q' f' s'.held w' ∧ (∀ j, Data s' j (q' j) (some x)) ∧
      q' i = l ++ [x] ∧ (s'.block x).c_first ≤ (s'.block x).c_last ∧
      (s'.block x).c_last < CLSIZE := by
  have hgrow (hr : Tty.grow i s = some (x, s')) : ∃ q' f' w' l, Links v s' q' f' s'.held w' ∧
      (∀ j, Data s' j (q' j) (some x)) ∧ q' i = l ++ [x] ∧
      (s'.block x).c_first ≤ (s'.block x).c_last ∧ (s'.block x).c_last < CLSIZE := by
    obtain ⟨q', f', w', l, hl, hd, hq, hfirst, hlast⟩ := hI.grow hr
    exact ⟨q', f', w', l, hl, hd, hq, by omega, hlast ▸ (by decide)⟩
  unfold Tty.room at hr
  cases hcl : (s.clist i).c_cl with
  | none =>
    rw [hcl] at hr
    exact hgrow hr
  | some cp =>
    rw [hcl] at hr
    dsimp only at hr
    split_ifs at hr with hlast
    · exact hgrow hr
    · cases hr
      obtain ⟨l, hq⟩ := List.getLast?_eq_some_iff.1 ((hI.links.last i).symm.trans hcl)
      have hx := (hI.data i).full x (hq ▸ List.mem_append_right l List.mem_cons_self) nofun
      exact ⟨q, f, w, l, hI.links, fun j => (hI.data j).weaken, hq, hx.1.le,
        lt_of_le_of_ne hx.2 hlast⟩

/-- The state after a byte was put into the block `x`. -/
def store (c : ℤ) (i x : ℕ) (s : State) : State :=
  (s.setBlock x { s.block x with
    c_data := Function.update (s.block x).c_data (s.block x).c_last (toChar c)
    c_last := (s.block x).c_last + 1 }).setClist i
    { s.clist i with c_cc := toLong ((s.clist i).c_cc + 1) }

theorem putc_eq (c : ℤ) (hr : room i s = some (x, s')) : putc c i s = (0, store c i x s') := by
  unfold putc
  rw [hr]
  rfl

theorem store_clist (c : ℤ) (i x : ℕ) (s : State) (j : ℕ) : (store c i x s).clist j =
    if j = i then { s.clist i with c_cc := toLong ((s.clist i).c_cc + 1) } else s.clist j :=
  setClist_clist ..

theorem store_block (c : ℤ) (i x : ℕ) (s : State) (y : ℕ) : (store c i x s).block y =
    if y = x then { s.block x with
      c_data := Function.update (s.block x).c_data (s.block x).c_last (toChar c)
      c_last := (s.block x).c_last + 1 }
    else s.block y :=
  setBlock_block ..

theorem Links.store (c : ℤ) (hl : Links v s q f h w) : Links v (store c i x s) q f h w := by
  refine hl.congr (fun j => ?_) rfl fun y _ => ?_
  · rw [store_clist]
    split_ifs with hj
    · exact hj ▸ ⟨rfl, rfl⟩
    · exact ⟨rfl, rfl⟩
  · rw [store_block]
    split_ifs with hy
    · rw [hy]
    · rfl

/-- What `putc` puts: nothing if there is no free block, and else one byte. -/
theorem Inv.putc (hI : Inv v s q f w) (c : ℤ) :
    putc c i s = (-1, s) ∨
    ∃ s', putc c i s = (0, s') ∧ ∃ q' f' w', Inv v (s'.enter i [toUchar c]) q' f' w' := by
  cases hr : Tty.room i s with
  | none =>
    unfold Tty.putc
    rw [hr]
    exact .inl rfl
  | some r =>
    obtain ⟨x, s₁⟩ := r
    obtain ⟨q', f', w', l, hl, hd, hq, hle, hlt⟩ := hI.room hr
    have hxq : x ∈ q' i := hq ▸ List.mem_append_right l List.mem_cons_self
    refine .inr ⟨_, putc_eq c hr, q', f', w', (hl.store c).enter i _, fun j => ?_⟩
    by_cases hj : j = i
    · subst hj
      have hd := hd j
      have hho := hl.holds j
      rw [hq] at hd hho ⊢
      have hxl : x ∉ l := fun hxl =>
        (List.nodup_append.1 hho.nodup).2.2 x hxl x List.mem_cons_self rfl
      have hxb := (store_block c j x s₁ x).trans (if_pos rfl)
      have hb : ∀ y ∈ l, (Tty.store c j x s₁).block y = s₁.block y := fun y hy =>
        (store_block ..).trans (if_neg (show y ≠ x from fun he => hxl (he ▸ hy)))
      have hfull : ∀ y ∈ l ++ [x], ((Tty.store c j x s₁).block y).Full := by
        intro y hy
        rcases List.mem_append.1 hy with hyl | hyx
        · rw [hb y hyl]
          exact hd.full y hy fun he => hxl (Option.some.inj he ▸ hyl)
        · rw [List.mem_singleton.1 hyx, hxb]
          exact ⟨Nat.lt_succ_of_le hle, hlt⟩
      have hbl : ∀ y ∈ l, ∃ p, (Tty.store c j x s₁).block y = { s₁.block y with c_next := p } :=
        fun y hy => ⟨(s₁.block y).c_next, hb y hy⟩
      have hsize : size (Tty.store c j x s₁).block (l ++ [x]) = (s₁.clist j).c_cc + 1 := by
        rw [hd.cc, size_append, size_append, size_congr hbl, size_singleton, size_singleton, hxb]
        push_cast
        omega
      refine ⟨fun y hy _ => hfull y hy, ?_, ?_⟩
      · have hlt := hho.size_lt hfull
        have hnn := (Int.natCast_nonneg _).trans (size_le hfull).1
        refine (congrArg Clist.c_cc ((store_clist ..).trans (if_pos rfl))).trans ?_
        exact (toLong_of_mem (by omega) (by omega)).trans hsize.symm
      · refine (enter_bytesIn ..).trans ((if_pos rfl).trans ?_)
        refine (?_ : s₁.bytesIn j ++ _ = s₁.bytesOut j ++ content (Tty.store c j x s₁).block _)
        rw [hd.bytes, content_append, content_append, content_congr hbl, content_singleton,
          content_singleton, hxb, Cblock.bytes_concat hle, List.append_assoc, List.append_assoc]
    · have hxj := hl.not_mem hxq hj
      refine (Data.other (hd j) hxj).congr ?_ (fun y hy => ⟨(s₁.block y).c_next, ?_⟩) ?_ rfl
      · exact congrArg Clist.c_cc ((store_clist c i x s₁ j).trans (if_neg hj))
      · exact (store_block c i x s₁ y).trans (if_neg (show y ≠ x from fun he => hxj (he ▸ hy)))
      · exact (enter_bytesIn ..).trans (if_neg hj)

theorem getcb_cons (hcf : (s.clist i).c_cf = some x) : getcb i s =
    if toLong ((s.clist i).c_cc - ((s.block x).c_last - (s.block x).c_first)) < 0 then none
    else some (some x, unlink i x (s.setClist i { s.clist i with
      c_cc := toLong ((s.clist i).c_cc - ((s.block x).c_last - (s.block x).c_first)) })) := by
  unfold getcb
  dsimp only
  split
  · next h => exact nomatch hcf.symm.trans h
  · next cp h =>
    cases hcf.symm.trans h
    rfl

/-- What `getcb` gets: no block of a list that is empty, and else the first one with its bytes. -/
theorem Inv.getcb (hI : Inv v s q f w) :
    (q i = [] ∧ getcb i s = some (none, s)) ∨
    ∃ x s', getcb i s = some (some x, s') ∧ ∃ q' f' w',
      Inv v { s'.leave i (s.block x).bytes with held := x :: s.held } q' f' w' := by
  have hcf := hI.links.first i
  cases hq : q i with
  | nil =>
    refine .inl ⟨rfl, ?_⟩
    unfold Tty.getcb
    dsimp only
    rw [hcf, hq]
    rfl
  | cons x t =>
    have hd := hI.data i
    have hho := hI.links.holds i
    rw [hq] at hd hho hcf
    obtain ⟨hxt, -⟩ := List.nodup_cons.1 hho.nodup
    have hfull : ∀ y ∈ t, (s.block y).Full := fun y hy =>
      hd.full y (List.mem_cons_of_mem x hy) nofun
    have hnn := (Int.natCast_nonneg _).trans (size_le hfull).1
    have hlt := hho.size_lt fun y hy => hd.full y hy nofun
    have hx := hd.full x List.mem_cons_self nofun
    -- The bytes of the other blocks are counted.
    have hcount : toLong ((s.clist i).c_cc - ((s.block x).c_last - (s.block x).c_first)) =
        size s.block t := by
      have hc := hd.cc
      rw [size_cons] at hc hlt
      obtain ⟨hx, -⟩ := hx
      have hsub : (s.clist i).c_cc - ((s.block x).c_last - (s.block x).c_first) =
          size s.block t := by omega
      rw [hsub]
      exact toLong_of_mem (by omega) (by omega)
    set s₁ := s.setClist i { s.clist i with c_cc := size s.block t } with hs₁
    have hcl (j : ℕ) : s₁.clist j =
        if j = i then { s.clist i with c_cc := size s.block t } else s.clist j := setClist_clist ..
    have hl : Links v s₁ q f s.held w := by
      refine hI.links.congr (fun j => ?_) rfl fun y _ => rfl
      rw [hcl]
      split_ifs with hj
      · exact hj ▸ ⟨rfl, rfl⟩
      · exact ⟨rfl, rfl⟩
    have hget : Tty.getcb i s = some (some x, Tty.unlink i x s₁) := by
      rw [getcb_cons hcf, hcount, if_neg hnn.not_gt]
    refine .inr ⟨x, _, hget, _, _, _, (hl.unlink hq).congr (fun _ => ⟨rfl, rfl⟩) rfl fun _ _ => rfl,
      fun j => ?_⟩
    by_cases hj : j = i
    · subst hj
      rw [Function.update_self]
      refine ⟨fun y hy _ => hfull y hy, ?_, ?_⟩
      · exact (unlink_cc s₁ j x j).trans (congrArg Clist.c_cc ((hcl j).trans (if_pos rfl)))
      · refine hd.bytes.trans ?_
        rw [content_cons, ← List.append_assoc]
        exact congrArg (· ++ _) ((leave_bytesOut ..).trans (if_pos rfl)).symm
    · rw [Function.update_of_ne hj]
      refine (hI.data j).congr ?_ (fun y _ => ⟨(s.block y).c_next, rfl⟩) rfl ?_
      · exact (unlink_cc s₁ i x j).trans (congrArg Clist.c_cc ((hcl j).trans (if_neg hj)))
      · exact (leave_bytesOut ..).trans (if_neg hj)

/-- A block that has bytes is put in. -/
theorem Inv.putcb (hI : Inv v s q f w) (hx : x ∈ s.held) (hfull : (s.block x).Full) :
    ∃ q' f' w', Inv v ((putcb x i { s with held := s.held.erase x }).enter i (s.block x).bytes)
      q' f' w' := by
  set s₀ : State := { s with held := s.held.erase x } with hs₀
  have hl₀ : Links v s₀ q f s.held w := hI.links.congr (fun _ => ⟨rfl, rfl⟩) rfl fun _ _ => rfl
  have hl := (hl₀.perm (List.perm_cons_erase hx)).link (i := i)
  obtain ⟨-, hheld, hin, hout⟩ := link_rest s₀ i x
  have hb (y : ℕ) : ∃ p, (link i x s₀).block y = { s.block y with c_next := p } :=
    ⟨_, link_block s₀ i x y⟩
  obtain ⟨p, hxb⟩ := hb x
  have hbytes : ((link i x s₀).block x).bytes = (s.block x).bytes := by rw [hxb]; rfl
  have hxfull : ((link i x s₀).block x).Full := by rw [hxb]; exact hfull
  have hclist (j : ℕ) : (Tty.putcb x i s₀).clist j =
      if j = i then { (link i x s₀).clist i with c_cc := toLong (((link i x s₀).clist i).c_cc +
        (((link i x s₀).block x).c_last - ((link i x s₀).block x).c_first)) }
      else (link i x s₀).clist j := setClist_clist ..
  have hl' : Links v (Tty.putcb x i s₀) (Function.update q i (q i ++ [x])) f (s.held.erase x)
      (Function.update w x (.clist i)) := by
    refine hl.congr (fun j => ?_) rfl fun _ _ => rfl
    rw [hclist]
    split_ifs with hj
    · exact hj ▸ ⟨rfl, rfl⟩
    · exact ⟨rfl, rfl⟩
  have hheld' : ((Tty.putcb x i s₀).enter i (s.block x).bytes).held = s.held.erase x := hheld
  refine ⟨_, f, _, hheld' ▸ hl'.enter i _, fun j => ?_⟩
  by_cases hj : j = i
  · subst hj
    have hfulls : ∀ y ∈ q j ++ [x], ((link j x s₀).block y).Full := by
      intro y hy
      rcases List.mem_append.1 hy with hy | hy
      · obtain ⟨p, hp⟩ := hb y
        rw [hp]
        exact (hI.data j).full y hy nofun
      · exact List.mem_singleton.1 hy ▸ hxfull
    have hho := hl'.holds j
    rw [Function.update_self] at hho
    have hlt := hho.size_lt hfulls
    have hnn := (Int.natCast_nonneg _).trans (size_le hfulls).1
    rw [size_append, size_singleton, size_congr fun y _ => hb y, ← (hI.data j).cc] at hlt hnn
    have hcc : ((Tty.putcb x j s₀).clist j).c_cc = (s.clist j).c_cc +
        (((link j x s₀).block x).c_last - ((link j x s₀).block x).c_first) := by
      rw [hclist, if_pos rfl, link_cc]
      exact toLong_of_mem ((by decide : (-2 ^ 31 : ℤ) ≤ 0).trans hnn) hlt
    rw [Function.update_self]
    refine (hI.data j).concat (fun y _ => hb y) hcc ?_ (congrFun hout j) (.inr hxfull)
    refine (enter_bytesIn ..).trans ((if_pos rfl).trans ?_)
    exact congrArg₂ (· ++ ·) (congrFun hin j) hbytes.symm
  · rw [Function.update_of_ne hj]
    refine (hI.data j).congr ?_ (fun y _ => hb y) ?_ (congrFun hout j)
    · exact (congrArg Clist.c_cc ((hclist j).trans (if_neg hj))).trans (link_cc s₀ i x j)
    · exact (enter_bytesIn ..).trans ((if_neg hj).trans (congrFun hin j))

/-- A block that a caller has got from the free list. -/
theorem Inv.getcf (hI : Inv v s q f w) (hx : getcf s = some (x, s')) :
    ∃ f' w', Inv v { s' with held := x :: s'.held } q f' w' := by
  obtain ⟨f', hf, hl⟩ := hI.links.take hx
  have hs := take_spec hx
  have hne (j z : ℕ) (hz : z ∈ q j) : z ≠ x :=
    hI.links.free_holds.ne (hI.links.holds j) nofun (hf ▸ List.mem_cons_self) hz
  rw [← hs.held] at hl
  refine ⟨f', _, hl.congr (fun _ => ⟨rfl, rfl⟩) rfl fun _ _ => rfl, fun j => ?_⟩
  exact (hI.data j).congr (congrArg Clist.c_cc (congrFun hs.clist j))
    (fun y hy => ⟨(s.block y).c_next, hs.block y (hne j y hy)⟩) (congrFun hs.bytesIn j)
    (congrFun hs.bytesOut j)

/-- A block that a caller gives back. -/
theorem Inv.putcf (hI : Inv v s q f w) (hx : x ∈ s.held) :
    ∃ f' w', Inv v (putcf x { s with held := s.held.erase x }) q f' w' := by
  have hl₀ : Links v { s with held := s.held.erase x } q f s.held w :=
    hI.links.congr (fun _ => ⟨rfl, rfl⟩) rfl fun _ _ => rfl
  refine ⟨_, _, (hl₀.perm (List.perm_cons_erase hx)).free, fun j => ?_⟩
  exact (hI.data j).congr rfl (fun y _ => ⟨_, putcf_block ..⟩) rfl rfl

/-- What a caller writes into a block that it holds. -/
theorem Inv.fill (hI : Inv v s q f w) (hx : x ∈ s.held) (c : Cblock) :
    Inv v (s.setBlock x c) q f w := by
  refine ⟨hI.links.congr (fun _ => ⟨rfl, rfl⟩) rfl fun y hy => ?_, fun j => ?_⟩
  · exact congrArg Cblock.c_next (Function.update_of_ne (fun he : y = x => hy (he ▸ hx)) ..)
  · refine (hI.data j).congr rfl (fun y hy => ⟨(s.block y).c_next, ?_⟩) rfl rfl
    exact Function.update_of_ne (hI.links.hand_holds.ne (hI.links.holds j) nofun hx hy) ..

/-! ## Runs -/

theorem inv_init (v : Pool) :
    Inv v (.init v) (fun _ => []) (List.range v.nclist).reverse fun _ => .free := by
  have hhead (n : ℕ) : (List.range n).reverse.head? = if n = 0 then none else some (n - 1) := by
    cases n with
    | zero => rfl
    | succ n =>
      rw [List.range_succ, List.reverse_concat, List.head?_cons, if_neg n.succ_ne_zero]
      rfl
  have hfree (n : ℕ) : Chained (fun x => ((State.init v).block x).c_next)
      (List.range n).reverse := by
    induction n with
    | zero => trivial
    | succ n ih =>
      rw [List.range_succ, List.reverse_concat]
      exact ⟨(hhead n).symm, ih⟩
  have hnone {p : Place} (hp : Place.free ≠ p) : Holds v (fun _ => .free) p [] :=
    ⟨List.nodup_nil, fun x => iff_of_false List.not_mem_nil fun h => hp h.2⟩
  refine ⟨⟨fun _ => rfl, fun _ => trivial, fun _ => rfl, (hhead v.nclist).symm, hfree v.nclist,
    fun i => hnone nofun, ⟨List.nodup_reverse.2 List.nodup_range, fun x => ?_⟩, hnone nofun⟩,
    fun i => ⟨nofun, rfl, rfl⟩⟩
  rw [List.mem_reverse, List.mem_range]
  exact (and_iff_left rfl).symm

theorem Inv.next (hI : Inv v s q f w) {a : Action} (hn : next s a = some s') :
    ∃ q' f' w', Inv v s' q' f' w' := by
  cases a with
  | getc i =>
    rcases hI.getc (i := i) with ⟨-, hg⟩ | ⟨c, s₁, hg, hc, hI'⟩
    · unfold Tty.next at hn
      dsimp only at hn
      rw [hg] at hn
      cases hn
      exact ⟨q, f, w, hI⟩
    · unfold Tty.next at hn
      dsimp only at hn
      rw [hg, Option.map_some, if_neg hc] at hn
      cases hn
      exact hI'
  | putc c i =>
    rcases hI.putc (i := i) c with hp | ⟨s₁, hp, hI'⟩
    · unfold Tty.next at hn
      dsimp only at hn
      rw [hp] at hn
      cases hn
      exact ⟨q, f, w, hI⟩
    · unfold Tty.next at hn
      dsimp only at hn
      rw [hp, if_neg (show (0 : ℤ) ≠ -1 by decide)] at hn
      cases hn
      exact hI'
  | getcf =>
    obtain ⟨⟨x, s₁⟩, hx, he⟩ := Option.map_eq_some_iff.1 hn
    cases he
    obtain ⟨f', w', hI'⟩ := hI.getcf hx
    exact ⟨q, f', w', hI'⟩
  | putcf x =>
    obtain ⟨hx, he⟩ := Option.ite_none_right_eq_some.1 hn
    cases he
    obtain ⟨f', w', hI'⟩ := hI.putcf hx
    exact ⟨q, f', w', hI'⟩
  | getcb i =>
    rcases hI.getcb (i := i) with ⟨-, hg⟩ | ⟨x, s₁, hg, hI'⟩
    · unfold Tty.next at hn
      dsimp only at hn
      rw [hg] at hn
      cases hn
      exact ⟨q, f, w, hI⟩
    · unfold Tty.next at hn
      dsimp only at hn
      rw [hg] at hn
      cases hn
      exact hI'
  | putcb x i =>
    obtain ⟨⟨hx, hfull⟩, he⟩ := Option.ite_none_right_eq_some.1 hn
    cases he
    exact hI.putcb hx hfull
  | fill x b =>
    obtain ⟨hx, he⟩ := Option.ite_none_right_eq_some.1 hn
    cases he
    exact ⟨q, f, w, hI.fill hx b⟩

theorem exists_inv (hs : (clists v).Reachable s) : ∃ q f w, Inv v s q f w := by
  refine Machine.ReachableIf.invariant (P := fun s => ∃ q f w, Inv v s q f w)
    (fun s hs => ?_) (fun s a s' hI _ hn => ?_) hs
  · obtain rfl : s = .init v := hs
    exact ⟨_, _, _, inv_init v⟩
  · obtain ⟨q, f, w, hI⟩ := hI
    exact hI.next hn

/-- In every run the bytes that were put into a list are those that were taken out of it, in
    order, and then those that are on it, as many as it counts; and every block is at one place.
    No call follows a null pointer or panics, `getc` gets nothing only when all bytes are out,
    and a `putc` that fails changes nothing. -/
theorem clist_sound (hs : (clists v).Reachable s) :
    (∃ q f w, Inv v s q f w) ∧ (∀ i, (getc i s).isSome ∧ (getcb i s).isSome) ∧
      (∀ i s', getc i s = some (-1, s') → s.bytesIn i = s.bytesOut i) ∧
      ∀ c i, (putc c i s).1 = -1 → (putc c i s).2 = s := by
  obtain ⟨q, f, w, hI⟩ := exists_inv hs
  refine ⟨⟨q, f, w, hI⟩, fun i => ⟨?_, ?_⟩, fun i s' hg => ?_, fun c i hp => ?_⟩
  · rcases hI.getc (i := i) with ⟨-, hg⟩ | ⟨c, s', hg, -⟩
    · rw [hg]
      rfl
    · rw [hg]
      rfl
  · rcases hI.getcb (i := i) with ⟨-, hg⟩ | ⟨x, s', hg, -⟩
    · rw [hg]
      rfl
    · rw [hg]
      rfl
  · rcases hI.getc (i := i) with ⟨hq, -⟩ | ⟨c, s₁, hg', hc, -⟩
    · have hb := (hI.data i).bytes
      rw [hq] at hb
      exact hb.trans (List.append_nil _)
    · cases hg.symm.trans hg'
      exact absurd rfl hc
  · rcases hI.putc (i := i) c with hp' | ⟨s', hp', -⟩
    · rw [hp']
    · rw [hp'] at hp
      exact absurd (show (0 : ℤ) = -1 from hp) (by decide)

/-- Two bytes are put into a list and one is taken out; the block of the other goes to another
    list. -/
theorem sound_twoLists : ∃ s, (clists ⟨2, by decide⟩).run (.init ⟨2, by decide⟩)
    [.putc 65 0, .putc 66 0, .getc 0, .getcb 0, .putcb 1 1] = some s ∧
      s.bytesOut 0 = [65, 66] ∧ (s.clist 1).c_cc = 1 ∧ (∃ q f w, Inv ⟨2, by decide⟩ s q f w) := by
  have h₀ : (clists ⟨2, by decide⟩).Reachable (.init ⟨2, by decide⟩) := .init rfl
  have h₁ := (h₀.step (a := .putc 65 0) trivial rfl).step (a := .putc 66 0) trivial rfl
  have h₂ := (h₁.step (a := .getc 0) trivial rfl).step (a := .getcb 0) trivial rfl
  have h₃ := h₂.step (a := .putcb 1 1) trivial rfl
  exact ⟨_, rfl, rfl, rfl, (clist_sound h₃).1⟩

end AuxKernel.Tty
