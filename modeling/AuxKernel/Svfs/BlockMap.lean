import AuxKernel.Svfs.Bmap

/-!
# What the block map maps

A call of `bmap` adds blocks to the trees of the file that it has been given by `alloc`,
and puts at most one of them under an index: the logical block it was called for.

* `fetch_spec`: what is added below one block;
* `bmap_spec`: what is added to a file;
* `bmap_contract`: what follows for the mapping of the logical blocks.
-/

namespace AuxKernel.Svfs.Bmap

open Radix

/-! ## Levels of indirection -/

/-- The index of the next address: the shifts and masks divide by the radix. -/
theorem index_eq (s_type bn n : ℕ) :
    (bn >>> (FsNSHIFT s_type * (n + 1) - FsNSHIFT s_type)) &&& FsNMASK s_type =
      bn / FsNINDIR s_type ^ n % FsNINDIR s_type := by
  rw [FsNMASK_eq, Nat.and_two_pow_sub_one_eq_mod, Nat.shiftRight_eq_div_pow, FsNINDIR_eq,
    ← pow_mul, Nat.mul_succ, Nat.add_sub_cancel]

theorem FsNINDIR_pos (s_type : ℕ) : 0 < FsNINDIR s_type := by
  unfold FsNINDIR
  split_ifs <;> decide

theorem slotOf_direct {N l : ℕ} (h : l < 10) : slotOf N l = l := if_pos h

theorem slotOf_single {N l : ℕ} (h : 10 ≤ l) (h' : l < 10 + N) : slotOf N l = 10 := by
  rw [slotOf, if_neg (by omega), if_pos h']

theorem slotOf_double {N l : ℕ} (h : 10 + N ≤ l) (h' : l < 10 + N + N ^ 2) : slotOf N l = 11 := by
  rw [slotOf, if_neg (by omega), if_neg (by omega), if_pos h']

theorem slotOf_triple {N l : ℕ} (h : 10 + N + N ^ 2 ≤ l) : slotOf N l = 12 := by
  rw [slotOf, if_neg (by omega), if_neg (by omega), if_neg (by omega)]

theorem slotOf_indirect {N l : ℕ} (h : 10 ≤ l) : 10 ≤ slotOf N l := by
  rw [slotOf, if_neg (by omega)]
  split_ifs <;> decide

/-- A logical block is in the tree at its place. -/
theorem slotOf_spec {N l : ℕ} (h : l < maxBlocks N) :
    slotOf N l < NADDR ∧ rootBase N (slotOf N l) ≤ l ∧
      l < rootBase N (slotOf N l) + N ^ rootHeight (slotOf N l) := by
  rw [maxBlocks] at h
  by_cases h₀ : l < 10
  · rw [slotOf_direct h₀, rootBase, if_pos (by omega), rootHeight, NDADDR, NADDR, NIADDR,
      show l + 1 - (13 - 3) = 0 by omega, pow_zero]
    omega
  by_cases h₁ : l < 10 + N
  · rw [slotOf_single (by omega) h₁]
    exact ⟨by decide, by simp [rootBase]; omega,
      by simpa [rootBase, rootHeight, NDADDR, NADDR, NIADDR]⟩
  by_cases h₂ : l < 10 + N + N ^ 2
  · rw [slotOf_double (by omega) h₂]
    exact ⟨by decide, by simp [rootBase]; omega,
      by simpa [rootBase, rootHeight, NDADDR, NADDR, NIADDR]⟩
  · rw [slotOf_triple (by omega)]
    exact ⟨by decide, by simp [rootBase]; omega,
      by simpa [rootBase, rootHeight, NDADDR, NADDR, NIADDR]⟩

/-- It is in no other. -/
theorem eq_slotOf {N l i : ℕ} (hi : i < NADDR) (h₀ : rootBase N i ≤ l)
    (h₁ : l < rootBase N i + N ^ rootHeight i) : i = slotOf N l := by
  have hNADDR : NADDR = 13 := rfl
  have hcases : i < 10 ∨ i = 10 ∨ i = 11 ∨ i = 12 := by omega
  rcases hcases with hi | rfl | rfl | rfl
  · rw [rootHeight, NDADDR, NADDR, NIADDR, show i + 1 - (13 - 3) = 0 by omega, pow_zero] at h₁
    rw [rootBase, if_pos (by omega)] at h₀ h₁
    rw [slotOf_direct (by omega)]
    omega
  · simp only [rootBase, rootHeight, NDADDR, NADDR, NIADDR] at h₀ h₁
    rw [slotOf_single (by simpa using h₀) (by simpa using h₁)]
  · simp only [rootBase, rootHeight, NDADDR, NADDR, NIADDR] at h₀ h₁
    rw [slotOf_double (by simpa using h₀) (by simpa using h₁)]
  · simp only [rootBase] at h₀
    rw [slotOf_triple (by simpa using h₀)]

/-- The level of a logical block that is not direct. -/
theorem levels_eq (s_type : ℕ) {l : ℕ} (h : 10 ≤ l) (hmax : l < maxBlocks (FsNINDIR s_type)) :
    levels s_type NIADDR 0 1 (l - NDADDR) =
      some (NADDR - slotOf (FsNINDIR s_type) l,
        l - rootBase (FsNINDIR s_type) (slotOf (FsNINDIR s_type) l),
        FsNSHIFT s_type * rootHeight (slotOf (FsNINDIR s_type) l)) := by
  have hN : FsNINDIR s_type = 2 ^ FsNSHIFT s_type := FsNINDIR_eq s_type
  have h2 : FsNINDIR s_type * FsNINDIR s_type = FsNINDIR s_type ^ 2 := by ring
  have h3 : FsNINDIR s_type ^ 2 * FsNINDIR s_type = FsNINDIR s_type ^ 3 := by ring
  rw [maxBlocks] at hmax
  simp only [NIADDR, levels, Nat.shiftLeft_eq, ← hN, one_mul, h2, h3, NDADDR, NADDR]
  by_cases h₁ : l < 10 + FsNINDIR s_type
  · rw [if_pos (by omega), slotOf_single h h₁]
    simp [rootBase, rootHeight, NDADDR, NADDR, NIADDR]
  by_cases h₂ : l < 10 + FsNINDIR s_type + FsNINDIR s_type ^ 2
  · rw [if_neg (by omega), if_pos (by omega), slotOf_double (by omega) h₂]
    simp only [Option.some.injEq, Prod.mk.injEq, rootBase, rootHeight, NDADDR, NADDR, NIADDR]
    exact ⟨trivial, by simp; omega, by ring⟩
  · rw [if_neg (by omega), if_neg (by omega), if_pos (by omega), slotOf_triple (by omega)]
    simp only [Option.some.injEq, Prod.mk.injEq, rootBase, rootHeight, NDADDR, NADDR, NIADDR]
    exact ⟨trivial, by simp; omega, by ring⟩

/-- A logical block that is too large for every level. -/
theorem levels_eq_none (s_type : ℕ) {l : ℕ} (hmax : maxBlocks (FsNINDIR s_type) ≤ l) :
    levels s_type NIADDR 0 1 (l - NDADDR) = none := by
  have hN : FsNINDIR s_type = 2 ^ FsNSHIFT s_type := FsNINDIR_eq s_type
  have h2 : FsNINDIR s_type * FsNINDIR s_type = FsNINDIR s_type ^ 2 := by ring
  have h3 : FsNINDIR s_type ^ 2 * FsNINDIR s_type = FsNINDIR s_type ^ 3 := by ring
  rw [maxBlocks] at hmax
  simp only [NIADDR, levels, Nat.shiftLeft_eq, ← hN, one_mul, h2, h3, NDADDR, NADDR]
  rw [if_neg (by omega), if_neg (by omega), if_neg (by omega)]

/-! ## One tree -/

theorem alloc_eq_some {d d' : Store} {l l' : List (Option ℕ)} {b : ℕ}
    (h : alloc d l = some (b, d', l')) :
    l = some b :: l' ∧ d' = Function.update d b fun _ => 0 := by
  unfold alloc at h
  split at h
  · obtain ⟨rfl, rfl, rfl⟩ := h
    exact ⟨rfl, rfl⟩
  · cases h

@[simp] theorem given_cons (b : ℕ) (l : List (Option ℕ)) : given (some b :: l) = b :: given l := rfl

/-- A block that has just been allocated, after its number has been put in another block. -/
theorem nodes_fresh {N h b nb base : ℕ} {d : Store} {slots : ℕ → ℕ} (hb : b ≠ 0) (hne : b ≠ nb) :
    nodes N (Function.update (Function.update d b fun _ => 0) nb slots) h b base =
      [⟨h, base, b⟩] := by
  refine nodes_cleared hb fun i => ?_
  rw [Function.update_of_ne hne, Function.update_self]

section Fetch

variable {s_type : ℕ} {write : Bool} {bn : ℕ}

/-- What `fetch` does from the block `nb` on, when it has been given the blocks `g`. -/
structure Fetched (s_type : ℕ) (write : Bool) (bn n nb base : ℕ) (d : Store) (g : List ℕ)
    (res : Store × Ret) : Prop where
  adds : Adds g (base + bn % FsNINDIR s_type ^ n) (nodes (FsNINDIR s_type) d n nb base)
    (nodes (FsNINDIR s_type) res.1 n nb base)
  frame : ∀ x, x ∉ blocks (nodes (FsNINDIR s_type) d n nb base) → x ∉ g → res.1 x = d x
  found : ∀ b, res.2 = .block b → b ≠ 0 ∧ lookup (FsNINDIR s_type) res.1 n nb bn = b
  read : write = false → res.1 = d

/-- A call that stops at the block `nb` changes nothing. -/
theorem Fetched.fail (n nb base : ℕ) (d : Store) (g : List ℕ) (e : Option Errno) :
    Fetched s_type write bn n nb base d g (d, .fail e) where
  adds := .refl
  frame _ _ _ := rfl
  found b h := by cases h
  read _ := rfl

/-- The call goes on in the slot `i`, if there is a block. -/
theorem Fetched.step {n nb base : ℕ} {d : Store} {g : List ℕ} {res : Store × Ret} (hnb : nb ≠ 0)
    (hnodup : (blocks (nodes (FsNINDIR s_type) d (n + 1) nb base)).Nodup)
    (hg : ∀ x ∈ g, x ∉ blocks (nodes (FsNINDIR s_type) d (n + 1) nb base))
    (hres : Fetched s_type write bn n (d nb (bn / FsNINDIR s_type ^ n % FsNINDIR s_type))
      (base + bn / FsNINDIR s_type ^ n % FsNINDIR s_type * FsNINDIR s_type ^ n) d g res) :
    Fetched s_type write bn (n + 1) nb base d g res := by
  set N := FsNINDIR s_type with hN
  have hi : bn / N ^ n % N < N := Nat.mod_lt _ (FsNINDIR_pos s_type)
  have hsub : nodes N d n (d nb (bn / N ^ n % N)) (base + bn / N ^ n % N * N ^ n) ⊆
      nodes N d (n + 1) nb base := kid_subset hnb hi
  have htop : nb ∈ blocks (nodes N d (n + 1) nb base) := by
    rw [nodes_succ hnb]
    exact List.mem_cons_self
  have hself : res.1 nb = d nb := by
    refine hres.frame nb (fun hmem => ?_) fun hmem => hg _ hmem htop
    rw [nodes_succ hnb] at hnodup
    obtain ⟨m, hm, hmb⟩ := List.mem_map.1 hmem
    refine (List.nodup_cons.1 hnodup).1 (List.mem_map.2 ⟨m, ?_, hmb⟩)
    exact List.mem_flatMap.2 ⟨_, List.mem_range.2 hi, hm⟩
  refine ⟨?_, fun x hx hxg => ?_, fun b hb => ?_, hres.read⟩
  · refine nodes_adds hnb hnodup hi hg (fun j _ => by rw [hself]) (fun x _ => hres.frame x) ?_
    rw [hself, mod_pow_succ, ← add_assoc]
    exact hres.adds
  · exact hres.frame x (fun hmem => hx (List.map_subset _ hsub hmem)) hxg
  · rw [lookup, if_neg hnb, hself]
    exact hres.found b hb

/-- The call goes on in the slot `i` with the block `b`, which has been allocated for it. -/
theorem Fetched.grow {n nb b base : ℕ} {d : Store} {g : List ℕ} {res : Store × Ret} (hnb : nb ≠ 0)
    (hb : b ≠ 0) (hbg : b ∉ g)
    (hnodup : (blocks (nodes (FsNINDIR s_type) d (n + 1) nb base)).Nodup)
    (hg : ∀ x ∈ b :: g, x ∉ blocks (nodes (FsNINDIR s_type) d (n + 1) nb base))
    (hslot : d nb (bn / FsNINDIR s_type ^ n % FsNINDIR s_type) = 0)
    (hres : Fetched s_type true bn n b
      (base + bn / FsNINDIR s_type ^ n % FsNINDIR s_type * FsNINDIR s_type ^ n)
      (Function.update (Function.update d b fun _ => 0) nb (Function.update (d nb)
        (bn / FsNINDIR s_type ^ n % FsNINDIR s_type) b)) g res) :
    Fetched s_type true bn (n + 1) nb base d (b :: g) res := by
  set N := FsNINDIR s_type with hN
  set i := bn / N ^ n % N with hidef
  set d₁ := Function.update (Function.update d b fun _ => 0) nb (Function.update (d nb) i b)
    with hd₁
  have hi : i < N := Nat.mod_lt _ (FsNINDIR_pos s_type)
  have htop : nb ∈ blocks (nodes N d (n + 1) nb base) := by
    rw [nodes_succ hnb]
    exact List.mem_cons_self
  have hne : b ≠ nb := by
    rintro rfl
    exact hg _ List.mem_cons_self htop
  have hclear : nodes N d₁ n b (base + i * N ^ n) = [⟨n, base + i * N ^ n, b⟩] :=
    nodes_fresh hb hne
  have hframe : ∀ x, x ≠ nb → x ∉ b :: g → res.1 x = d x := by
    intro x hx hxg
    have hxb : x ≠ b := fun h => hxg (h ▸ List.mem_cons_self)
    rw [hres.frame x (by rw [hclear]; simpa using hxb) fun h => hxg (List.mem_cons_of_mem _ h),
      hd₁, Function.update_of_ne hx, Function.update_of_ne hxb]
  have hself : res.1 nb = Function.update (d nb) i b := by
    have hnbg : nb ∉ g := fun h => hg _ (List.mem_cons_of_mem _ h) htop
    rw [hres.frame nb (by rw [hclear]; simpa using hne.symm) hnbg, hd₁, Function.update_self]
  refine ⟨?_, fun x hx hxg => ?_, fun x hx => ?_, fun h => by cases h⟩
  · refine nodes_adds hnb hnodup hi hg (fun j hj => ?_) (fun x hx _ => hframe x hx) ?_
    · rw [hself, Function.update_of_ne hj]
    · have hadds := hres.adds
      rw [hclear] at hadds
      rw [hself, Function.update_self, hslot, nodes_zero_block, mod_pow_succ, ← add_assoc]
      refine hadds.cons hbg fun hn => ?_
      have hr : bn % FsNINDIR s_type ^ n = 0 := by rw [hn, pow_zero, Nat.mod_one]
      rw [hr, Nat.add_zero]
  · refine hframe x ?_ hxg
    rintro rfl
    exact hx htop
  · rw [lookup, if_neg hnb, hself, Function.update_self]
    exact hres.found x hx

/-- What `fetch` does. -/
theorem fetch_spec (write : Bool) (bad : ℕ → Bool) (bn : ℕ) {n nb base : ℕ} {d : Store}
    {allocs : List (Option ℕ)} (hnb : nb ≠ 0)
    (hnodup : (blocks (nodes (FsNINDIR s_type) d n nb base)).Nodup)
    (hgiven : (given allocs).Nodup)
    (hg : ∀ x ∈ given allocs, x ≠ 0 ∧ x ∉ blocks (nodes (FsNINDIR s_type) d n nb base)) :
    Fetched s_type write bn n nb base d (given allocs)
      (fetch s_type write bad bn n nb (FsNSHIFT s_type * n) d allocs) := by
  induction n generalizing nb base d allocs with
  | zero =>
    refine ⟨.refl, fun _ _ _ => rfl, fun b hb => ?_, fun _ => rfl⟩
    cases hb
    exact ⟨hnb, rfl⟩
  | succ n ih =>
    have hi : bn / FsNINDIR s_type ^ n % FsNINDIR s_type < FsNINDIR s_type :=
      Nat.mod_lt _ (FsNINDIR_pos s_type)
    have hsh : FsNSHIFT s_type * (n + 1) - FsNSHIFT s_type = FsNSHIFT s_type * n := by
      rw [Nat.mul_succ, Nat.add_sub_cancel]
    rw [fetch]
    by_cases hbad : bad nb = true
    · rw [if_pos hbad]
      exact .fail ..
    rw [if_neg hbad]
    dsimp only
    rw [index_eq, hsh]
    by_cases hslot : d nb (bn / FsNINDIR s_type ^ n % FsNINDIR s_type) = 0
    · rw [if_pos hslot]
      by_cases hwrite : write = false
      · rw [if_pos hwrite]
        exact .fail ..
      rw [if_neg hwrite]
      obtain rfl : write = true := by simpa using hwrite
      cases ha : alloc d allocs with
      | none => exact .fail ..
      | some res =>
        obtain ⟨b, d', rest⟩ := res
        obtain ⟨rfl, rfl⟩ := alloc_eq_some ha
        rw [given_cons] at hgiven hg ⊢
        obtain ⟨hbrest, hrest⟩ := List.nodup_cons.1 hgiven
        have hbfresh := hg b List.mem_cons_self
        have hne : b ≠ nb := by
          rintro rfl
          refine hbfresh.2 ?_
          rw [nodes_succ hnb]
          exact List.mem_cons_self
        refine .grow hnb hbfresh.1 hbrest hnodup (fun x hx => (hg x hx).2) hslot ?_
        dsimp only
        rw [Function.update_of_ne hne.symm]
        refine ih hbfresh.1 ?_ hrest fun x hx => ⟨(hg x (List.mem_cons_of_mem _ hx)).1, ?_⟩
        · rw [nodes_fresh hbfresh.1 hne]
          exact List.nodup_singleton _
        · rw [nodes_fresh hbfresh.1 hne]
          intro hxb
          exact hbrest ((List.mem_singleton.1 hxb : x = b) ▸ hx)
    · rw [if_neg hslot]
      refine .step hnb hnodup (fun x hx => (hg x hx).2) (ih hslot ?_ hgiven ?_)
      · have hnodup' := hnodup
        rw [nodes_succ hnb] at hnodup'
        exact nodup_of_mem (List.nodup_cons.1 hnodup').2 (List.mem_range.2 hi)
      · exact fun x hx => ⟨(hg x hx).1, fun hmem =>
          (hg x hx).2 (List.map_subset _ (kid_subset hnb hi) hmem)⟩

/-- Where there is a block, `fetch` finds it or fails to read one on the way to it. -/
theorem fetch_mapped {n nb bn : ℕ} {d : Store} (write : Bool) (bad : ℕ → Bool)
    (allocs : List (Option ℕ)) (h : lookup (FsNINDIR s_type) d n nb bn ≠ 0) :
    fetch s_type write bad bn n nb (FsNSHIFT s_type * n) d allocs =
        (d, .block (lookup (FsNINDIR s_type) d n nb bn)) ∨
      (∃ b, bad b) ∧ fetch s_type write bad bn n nb (FsNSHIFT s_type * n) d allocs =
        (d, .fail (some .eio)) := by
  induction n generalizing nb with
  | zero => exact .inl rfl
  | succ n ih =>
    have hsh : FsNSHIFT s_type * (n + 1) - FsNSHIFT s_type = FsNSHIFT s_type * n := by
      rw [Nat.mul_succ, Nat.add_sub_cancel]
    rw [fetch]
    by_cases hbad : bad nb = true
    · rw [if_pos hbad]
      exact .inr ⟨⟨nb, hbad⟩, rfl⟩
    rw [if_neg hbad]
    dsimp only
    rw [index_eq, hsh]
    have hnb : nb ≠ 0 := by
      rintro rfl
      rw [lookup, if_pos rfl] at h
      exact h rfl
    rw [lookup, if_neg hnb] at h ⊢
    have hslot : d nb (bn / FsNINDIR s_type ^ n % FsNINDIR s_type) ≠ 0 := by
      intro h₀
      rw [h₀] at h
      cases n <;> exact h rfl
    rw [if_neg hslot]
    exact ih h

end Fetch

/-! ## The trees of a file -/

/-- A file gains what the tree at a place of its inode does. -/
theorem forest_adds {N : ℕ} {addr addr' : ℕ → ℕ} {d d' : Store} {g : List ℕ} {p i : ℕ}
    (hnodup : (blocks (forest N addr d)).Nodup) (hg : ∀ x ∈ g, x ∉ blocks (forest N addr d))
    (hi : i < NADDR) (haddr : ∀ j, j ≠ i → addr' j = addr j)
    (hframe : ∀ x, x ∉ blocks (nodes N d (rootHeight i) (addr i) (rootBase N i)) → x ∉ g →
      d' x = d x)
    (hadds : Adds g p (nodes N d (rootHeight i) (addr i) (rootBase N i))
      (nodes N d' (rootHeight i) (addr' i) (rootBase N i))) :
    Adds g p (forest N addr d) (forest N addr' d') := by
  refine hadds.flatMap List.nodup_range (List.mem_range.2 hi) ?_
  intro j hj hne
  have hdisj := disjoint_of_nodup hnodup hj (List.mem_range.2 hi) hne
  rw [haddr j hne]
  refine nodes_congr fun n hn _ => hframe _ (hdisj (List.mem_map_of_mem hn)) fun hx => ?_
  exact hg _ hx (List.mem_map_of_mem (List.mem_flatMap.2 ⟨j, hj, hn⟩))

/-- The data of a file is what its logical blocks are mapped to. -/
theorem mem_forest_leaf {f : File} {l x : ℕ} (hl : l < maxBlocks (FsNINDIR f.s_type)) :
    (⟨0, l, x⟩ : Node) ∈ f.forest ↔ f.block l = x ∧ x ≠ 0 := by
  obtain ⟨hslot, hlo, hhi⟩ := slotOf_spec hl
  have hbase : rootBase (FsNINDIR f.s_type) (slotOf (FsNINDIR f.s_type) l) +
      (l - rootBase (FsNINDIR f.s_type) (slotOf (FsNINDIR f.s_type) l)) %
        FsNINDIR f.s_type ^ rootHeight (slotOf (FsNINDIR f.s_type) l) = l := by
    rw [Nat.mod_eq_of_lt (by omega)]
    omega
  rw [File.block, if_pos hl, ← @mem_nodes_leaf _ _ _ _ (rootBase _ _) (FsNINDIR_pos _), hbase]
  constructor
  · intro hn
    obtain ⟨i, hi, hn⟩ := List.mem_flatMap.1 hn
    obtain ⟨h₀, h₁, -⟩ := mem_nodes_range hn
    exact eq_slotOf (List.mem_range.1 hi) h₀ (by rw [pow_zero] at h₁; exact h₁) ▸ hn
  · exact fun hn => List.mem_flatMap.2 ⟨_, List.mem_range.2 hslot, hn⟩

/-! ## A call -/

/-- What `bmap` does for the logical block `bn`, when it has been given the blocks `g`. -/
structure Maps (f : File) (bn : ℤ) (write : Bool) (g : List ℕ) (res : File × Ret) : Prop where
  s_type : res.1.s_type = f.s_type
  adds : Adds g bn.toNat f.forest res.1.forest
  found : ∀ b, res.2 = .block b →
    0 ≤ bn ∧ bn.toNat < maxBlocks (FsNINDIR f.s_type) ∧ b ≠ 0 ∧ res.1.block bn.toNat = b
  read : write = false → res.1 = f

/-- A call that fails before it changes anything. -/
theorem Maps.fail (f : File) (bn : ℤ) (write : Bool) (g : List ℕ) (e : Option Errno) :
    Maps f bn write g (f, .fail e) where
  s_type := rfl
  adds := .refl
  found b h := by cases h
  read _ := rfl

/-- A call changes the tree with the logical block. -/
theorem Maps.of_slot {f : File} {bn : ℤ} {write : Bool} {g : List ℕ} {c : ℕ} {d : Store} {r : Ret}
    (hnodup : (blocks f.forest).Nodup) (hg : ∀ x ∈ g, x ∉ blocks f.forest) (hbn : 0 ≤ bn)
    (hl : bn.toNat < maxBlocks (FsNINDIR f.s_type)) {s : ℕ}
    (hs : s = slotOf (FsNINDIR f.s_type) bn.toNat)
    (hadds : Adds g bn.toNat
      (nodes (FsNINDIR f.s_type) f.daddr (rootHeight s) (f.i_addr s)
        (rootBase (FsNINDIR f.s_type) s))
      (nodes (FsNINDIR f.s_type) d (rootHeight s) c (rootBase (FsNINDIR f.s_type) s)))
    (hframe : ∀ x, x ∉ blocks (nodes (FsNINDIR f.s_type) f.daddr (rootHeight s) (f.i_addr s)
        (rootBase (FsNINDIR f.s_type) s)) → x ∉ g → d x = f.daddr x)
    (hfound : ∀ b, r = .block b → b ≠ 0 ∧ lookup (FsNINDIR f.s_type) d (rootHeight s) c
      (bn.toNat - rootBase (FsNINDIR f.s_type) s) = b)
    (hread : write = false → d = f.daddr ∧ c = f.i_addr s) :
    Maps f bn write g
      ({ f with i_addr := Function.update f.i_addr s c, daddr := d }, r) := by
  have hslot := (slotOf_spec hl).1
  rw [← hs] at hslot
  refine ⟨rfl, ?_, fun b hb => ⟨hbn, hl, (hfound b hb).1, ?_⟩, fun hw => ?_⟩
  · refine forest_adds hnodup hg hslot (fun j hj => Function.update_of_ne hj _ _) hframe ?_
    dsimp only
    rw [Function.update_self]
    exact hadds
  · rw [File.block, if_pos hl, ← hs]
    dsimp only
    rw [Function.update_self]
    exact (hfound b hb).2
  · obtain ⟨rfl, rfl⟩ := hread hw
    rw [Function.update_eq_self]

/-- What `bmap` does. -/
theorem bmap_spec {f : File} (bn : ℤ) (write : Bool) (limit : ℤ) (bad : ℕ → Bool)
    {allocs : List (Option ℕ)} (hnodup : (blocks f.forest).Nodup) (hgiven : (given allocs).Nodup)
    (hg : ∀ b ∈ given allocs, b ≠ 0 ∧ b ∉ blocks f.forest) :
    Maps f bn write (given allocs) (bmap f bn write limit bad allocs) := by
  have hg' : ∀ x ∈ given allocs, x ∉ blocks f.forest := fun x hx => (hg x hx).2
  unfold bmap
  by_cases hbn : bn < 0
  · rw [if_pos hbn]
    exact .fail ..
  rw [if_neg hbn]
  by_cases hlim : write = true ∧ bn ≥ limit
  · rw [if_pos hlim]
    exact .fail ..
  rw [if_neg hlim]
  by_cases hdir : bn < (NDADDR : ℕ)
  · rw [if_pos hdir]
    have hNDADDR : NDADDR = 10 := rfl
    have hl : bn.toNat < maxBlocks (FsNINDIR f.s_type) := by
      rw [maxBlocks]
      omega
    have hs : bn.toNat = slotOf (FsNINDIR f.s_type) bn.toNat := (slotOf_direct (by omega)).symm
    have hheight : rootHeight bn.toNat = 0 := by
      rw [rootHeight]
      omega
    have hbase : rootBase (FsNINDIR f.s_type) bn.toNat = bn.toNat := if_pos (by omega)
    dsimp only
    by_cases haddr : f.i_addr bn.toNat = 0
    · rw [if_pos haddr]
      by_cases hwrite : write = false
      · rw [if_pos hwrite]
        exact .fail ..
      rw [if_neg hwrite]
      cases ha : alloc f.daddr allocs with
      | none => exact .fail ..
      | some res =>
        obtain ⟨b, d, rest⟩ := res
        obtain ⟨rfl, rfl⟩ := alloc_eq_some ha
        have hb := hg b List.mem_cons_self
        refine .of_slot hnodup hg' (not_lt.1 hbn) hl hs ?_ ?_ ?_ fun hw => absurd hw hwrite
        · rw [haddr, nodes_zero_block, hheight, hbase, nodes_zero hb.1]
          exact ⟨[⟨0, bn.toNat, b⟩], .refl _, List.nodup_singleton _, by simp, by simp⟩
        · intro x _ hx
          rw [given_cons] at hx
          exact Function.update_of_ne (List.ne_of_not_mem_cons hx) _ _
        · rintro _ ⟨⟩
          rw [hheight]
          exact ⟨hb.1, rfl⟩
    · rw [if_neg haddr]
      have hfound : ∀ b, Ret.block (f.i_addr bn.toNat) = .block b → b ≠ 0 ∧
          lookup (FsNINDIR f.s_type) f.daddr (rootHeight bn.toNat) (f.i_addr bn.toNat)
            (bn.toNat - rootBase (FsNINDIR f.s_type) bn.toNat) = b := by
        rintro _ ⟨⟩
        rw [hheight]
        exact ⟨haddr, rfl⟩
      have := @Maps.of_slot _ _ write _ _ _ _ hnodup hg' (not_lt.1 hbn) hl _ hs .refl
        (fun _ _ _ => rfl) hfound fun _ => ⟨rfl, rfl⟩
      rwa [Function.update_eq_self] at this
  · rw [if_neg hdir]
    have hNDADDR : NDADDR = 10 := rfl
    by_cases hl : bn.toNat < maxBlocks (FsNINDIR f.s_type)
    swap
    · rw [levels_eq_none f.s_type (not_lt.1 hl)]
      exact .fail ..
    rw [levels_eq f.s_type (by omega) hl]
    dsimp only
    obtain ⟨hslot, hlo, hhi⟩ := slotOf_spec hl
    set s := slotOf (FsNINDIR f.s_type) bn.toNat with hs
    set base := rootBase (FsNINDIR f.s_type) s with hbase
    have hs' : NADDR - (NADDR - s) = s := by omega
    have hheight : NIADDR + 1 - (NADDR - s) = rootHeight s := by
      simp only [rootHeight, NDADDR, NADDR, NIADDR] at hslot ⊢
      omega
    have hidx : base + (bn.toNat - base) % FsNINDIR f.s_type ^ rootHeight s = bn.toNat := by
      rw [Nat.mod_eq_of_lt (by omega)]
      omega
    have hpos : rootHeight s ≠ 0 := by
      have := slotOf_indirect (N := FsNINDIR f.s_type) (l := bn.toNat) (by omega)
      rw [rootHeight]
      omega
    rw [hs', hheight]
    by_cases haddr : f.i_addr s = 0
    · rw [if_pos haddr]
      by_cases hwrite : write = false
      · rw [if_pos hwrite]
        exact .fail ..
      rw [if_neg hwrite]
      cases ha : alloc f.daddr allocs with
      | none => exact .fail ..
      | some res =>
        obtain ⟨b, d, rest⟩ := res
        obtain ⟨rfl, rfl⟩ := alloc_eq_some ha
        rw [given_cons] at hgiven hg hg' ⊢
        obtain ⟨hbrest, hrest⟩ := List.nodup_cons.1 hgiven
        have hb := (hg b List.mem_cons_self).1
        have hclear : nodes (FsNINDIR f.s_type) (Function.update f.daddr b fun _ => 0)
            (rootHeight s) b base = [⟨rootHeight s, base, b⟩] :=
          nodes_cleared hb fun i => by rw [Function.update_self]
        have hres := fetch_spec write bad (bn.toNat - base) hb
          (by rw [hclear]; exact List.nodup_singleton _) hrest fun x hx =>
            ⟨(hg x (List.mem_cons_of_mem _ hx)).1, fun hmem => by
              rw [hclear] at hmem
              exact hbrest ((List.mem_singleton.1 hmem : x = b) ▸ hx)⟩
        refine .of_slot hnodup hg' (not_lt.1 hbn) hl hs ?_ ?_ hres.found
          fun hw => absurd hw hwrite
        · have hadds := hres.adds
          rw [hclear, hidx] at hadds
          rw [haddr, nodes_zero_block]
          exact hadds.cons hbrest fun h => absurd h hpos
        · intro x _ hx
          have hxb := List.ne_of_not_mem_cons hx
          rw [hres.frame x (by rw [hclear]; simpa using hxb) (List.not_mem_of_not_mem_cons hx),
            Function.update_of_ne hxb]
    · rw [if_neg haddr]
      have hsub : nodes (FsNINDIR f.s_type) f.daddr (rootHeight s) (f.i_addr s) base ⊆ f.forest :=
        fun n hn => List.mem_flatMap.2 ⟨s, List.mem_range.2 hslot, hn⟩
      have hres := fetch_spec write bad (bn.toNat - base) haddr
        (nodup_of_mem hnodup (List.mem_range.2 hslot)) hgiven fun x hx =>
          ⟨(hg x hx).1, fun hmem => (hg x hx).2 (List.map_subset _ hsub hmem)⟩
      have hadds := hres.adds
      rw [hidx] at hadds
      have := Maps.of_slot hnodup hg' (not_lt.1 hbn) hl hs hadds hres.frame hres.found
        fun hw => ⟨hres.read hw, rfl⟩
      rwa [Function.update_eq_self] at this

/-- A logical block that is mapped: `bmap` returns its block, or fails because the process may
    not write it or because a block on the way to it cannot be read. -/
theorem bmap_mapped {f : File} {l : ℕ} (write : Bool) (limit : ℤ) (bad : ℕ → Bool)
    (allocs : List (Option ℕ)) (h : f.block l ≠ 0) :
    bmap f l write limit bad allocs = (f, .block (f.block l)) ∨
      (write = true ∧ limit ≤ l) ∧ bmap f l write limit bad allocs = (f, .fail (some .efbig)) ∨
      (∃ b, bad b) ∧ bmap f l write limit bad allocs = (f, .fail (some .eio)) := by
  have hNDADDR : NDADDR = 10 := rfl
  have hl : l < maxBlocks (FsNINDIR f.s_type) := by
    by_contra hl
    exact h (if_neg hl)
  rw [File.block, if_pos hl] at h ⊢
  unfold bmap
  rw [if_neg (by omega : ¬(l : ℤ) < 0)]
  by_cases hlim : write = true ∧ (l : ℤ) ≥ limit
  · rw [if_pos hlim]
    exact .inr (.inl ⟨hlim, rfl⟩)
  rw [if_neg hlim, Int.toNat_natCast]
  by_cases hdir : (l : ℤ) < (NDADDR : ℕ)
  · have hheight : rootHeight l = 0 := by
      rw [rootHeight]
      omega
    rw [slotOf_direct (by omega), hheight, lookup] at h ⊢
    rw [if_pos hdir, if_neg h]
    exact .inl rfl
  · rw [if_neg hdir, levels_eq f.s_type (by omega) hl]
    dsimp only
    obtain ⟨hslot, hlo, hhi⟩ := slotOf_spec hl
    set s := slotOf (FsNINDIR f.s_type) l with hs
    have hs' : NADDR - (NADDR - s) = s := by omega
    have hheight : NIADDR + 1 - (NADDR - s) = rootHeight s := by
      simp only [rootHeight, NDADDR, NADDR, NIADDR] at hslot ⊢
      omega
    have haddr : f.i_addr s ≠ 0 := by
      intro h₀
      rw [h₀] at h
      cases hh : rootHeight s <;> rw [hh] at h <;> exact h rfl
    rw [hs', hheight, if_neg haddr]
    rcases fetch_mapped write bad allocs h with hf | ⟨hbad, hf⟩
    · rw [hf]
      exact .inl rfl
    · rw [hf]
      exact .inr (.inr ⟨hbad, rfl⟩)

/-! ## Runs -/

/-- One step after another, as `Env` has it. -/
abbrev Later : File → File → Prop :=
  Relation.ReflTransGen fun f f' => ∃ a, Env f a ∧ files.next f a = some f'

/-- What a step keeps: what is mapped stays so, and nothing is mapped twice. -/
theorem step_keeps {f f' : File} {a : Act} (hf : (blocks f.forest).Nodup) (ha : Env f a)
    (h : files.next f a = some f') :
    (blocks f'.forest).Nodup ∧ f'.s_type = f.s_type ∧ f.forest ⊆ f'.forest := by
  cases a with
  | bmap bn write limit bad allocs =>
    have hspec := bmap_spec bn write limit bad hf ha.1 ha.2
    cases h
    exact ⟨hspec.adds.nodup hf fun x hx => (ha.2 x hx).2, hspec.s_type, hspec.adds.subset⟩
  | other d =>
    cases h
    have hsame : File.forest { f with daddr := d } = f.forest := by
      refine List.flatMap_congr fun i hi => nodes_congr fun n hn => ha n ?_
      exact List.mem_flatMap.2 ⟨i, hi, hn⟩
    rw [hsame]
    exact ⟨hf, rfl, List.Subset.refl _⟩

theorem later_keeps {f f' : File} (hf : (blocks f.forest).Nodup) (h : Later f f') :
    (blocks f'.forest).Nodup ∧ f'.s_type = f.s_type ∧ f.forest ⊆ f'.forest := by
  induction h with
  | refl => exact ⟨hf, rfl, List.Subset.refl _⟩
  | tail _ hstep ih =>
    obtain ⟨a, ha, hn⟩ := hstep
    obtain ⟨hnodup, htype, hsub⟩ := step_keeps ih.1 ha hn
    exact ⟨hnodup, htype.trans ih.2.1, List.Subset.trans ih.2.2 hsub⟩

/-- In every state, no block is twice in a file. -/
theorem reachable_nodup {f : File} (hf : files.ReachableIf Env f) : (blocks f.forest).Nodup :=
  hf.invariant (P := fun f => (blocks f.forest).Nodup) (fun _ h => h)
    fun _ _ _ hs ha h => (step_keeps hs ha h).1

/-- A mapping is kept. -/
theorem block_kept {f f' : File} (htype : f'.s_type = f.s_type) (hsub : f.forest ⊆ f'.forest)
    {l : ℕ} (h : f.block l ≠ 0) : f'.block l = f.block l := by
  have hl : l < maxBlocks (FsNINDIR f.s_type) := by
    by_contra hl
    exact h (if_neg hl)
  exact ((mem_forest_leaf (by rwa [htype])).1 (hsub ((mem_forest_leaf hl).2 ⟨rfl, h⟩))).1

/-- The mapping of the other logical blocks is left alone. -/
theorem block_other {f f' : File} {g : List ℕ} {p l : ℕ} (htype : f'.s_type = f.s_type)
    (hadds : Adds g p f.forest f'.forest) (hl : l ≠ p) : f'.block l = f.block l := by
  by_cases hmax : l < maxBlocks (FsNINDIR f.s_type)
  · have hmem := fun x => hadds.mem_leaf_iff (x := x) hl
    simp only [mem_forest_leaf hmax, mem_forest_leaf (f := f') (by rwa [htype])] at hmem
    by_cases h₀ : f.block l = 0
    · by_contra hne
      have hne₀ : f'.block l ≠ 0 := fun h => hne (h.trans h₀.symm)
      exact hne ((hmem _).1 ⟨rfl, hne₀⟩).1.symm
    · exact ((hmem _).2 ⟨rfl, h₀⟩).1
  · rw [File.block, File.block, htype]
    exact (if_neg hmax).trans (if_neg hmax).symm

/-- Different places of a file have different blocks. -/
theorem eq_of_block_eq {l : List Node} (h : (blocks l).Nodup) {n m : Node} (hn : n ∈ l) (hm : m ∈ l)
    (he : n.block = m.block) : n = m := List.inj_on_of_nodup_map h hn hm he

/-- In every state of a file, a logical block has a block of its own; and a call of `bmap`
    changes no mapping, but for the logical block it is for, where there was none. The block
    that it returns stays where it is. -/
theorem bmap_contract {f : File} (hf : files.ReachableIf Env f) :
    (∀ l, f.block l ≠ 0 → (∀ l', l' ≠ l → f.block l' ≠ f.block l) ∧
      ∀ n ∈ f.forest, n.height ≠ 0 → n.block ≠ f.block l) ∧
    ∀ (bn : ℤ) (write : Bool) (limit : ℤ) (bad : ℕ → Bool) (allocs : List (Option ℕ)),
      Env f (.bmap bn write limit bad allocs) →
      ∀ f' r, bmap f bn write limit bad allocs = (f', r) →
        (∀ b, r = .block b → ∀ f'', Later f' f'' → ∀ write limit bad allocs,
          bmap f'' bn write limit bad allocs = (f'', .block b) ∨
          (write = true ∧ limit ≤ bn) ∧
            bmap f'' bn write limit bad allocs = (f'', .fail (some .efbig)) ∨
          (∃ x, bad x) ∧ bmap f'' bn write limit bad allocs = (f'', .fail (some .eio))) ∧
        (∀ l : ℕ, (l : ℤ) ≠ bn → f'.block l = f.block l) ∧
        (∀ l, f.block l ≠ 0 → f'.block l = f.block l) ∧
        (write = false → f' = f) := by
  have hnodup := reachable_nodup hf
  have hmax {l : ℕ} (h : f.block l ≠ 0) : l < maxBlocks (FsNINDIR f.s_type) := by
    by_contra hl
    exact h (if_neg hl)
  refine ⟨fun l hl => ⟨fun l' hne he => ?_, fun n hn hh he => ?_⟩, ?_⟩
  · have hl' : f.block l' ≠ 0 := he ▸ hl
    have := eq_of_block_eq hnodup ((mem_forest_leaf (hmax hl')).2 ⟨rfl, hl'⟩)
      ((mem_forest_leaf (hmax hl)).2 ⟨rfl, hl⟩) he
    exact hne (Node.mk.inj this).2.1
  · have := eq_of_block_eq hnodup hn ((mem_forest_leaf (hmax hl)).2 ⟨rfl, hl⟩) he
    exact hh (this ▸ rfl)
  intro bn write limit bad allocs henv f' r hcall
  have hspec := bmap_spec bn write limit bad hnodup henv.1 henv.2
  have hnext : files.next f (.bmap bn write limit bad allocs) = some f' :=
    congrArg some (congrArg Prod.fst hcall)
  obtain ⟨hnodup', htype, hsub⟩ := step_keeps hnodup henv hnext
  rw [hcall] at hspec
  refine ⟨fun b hb f'' hlater write limit bad allocs => ?_, fun l hl => ?_,
    fun l hl => block_kept htype hsub hl, hspec.read⟩
  · obtain ⟨hbn, -, hb₀, hblock⟩ := hspec.found b hb
    obtain ⟨-, htype', hsub'⟩ := later_keeps hnodup' hlater
    obtain ⟨l, rfl⟩ := Int.eq_ofNat_of_zero_le hbn
    dsimp only at hblock
    rw [Int.toNat_natCast] at hblock
    have hkept := block_kept htype' hsub' (hblock ▸ hb₀)
    rw [← hblock, ← hkept]
    exact bmap_mapped write limit bad allocs (hkept ▸ hblock ▸ hb₀)
  · by_cases hbn : bn < 0
    · rw [bmap, if_pos hbn] at hcall
      rw [(Prod.mk.inj hcall).1]
    · exact block_other htype hspec.adds (by omega)

/-- A file without blocks gets its first indirect block, and keeps it. -/
theorem bmap_contract_empty :
    ∃ f' : File, bmap ⟨fun _ => 0, 1, fun _ _ => 0⟩ 10 true 11 (fun _ => false)
        [some 100, some 101] = (f', .block 101) ∧
      ∀ f'', Later f' f'' → bmap f'' 10 false 0 (fun _ => false) [] = (f'', .block 101) := by
  refine ⟨_, rfl, fun f'' hlater => ?_⟩
  have hempty : (File.mk (fun _ => 0) 1 fun _ _ => 0).forest = [] :=
    List.flatMap_eq_nil_iff.2 fun _ _ => nodes_zero_block ..
  have hnodup : (blocks (File.mk (fun _ => 0) 1 fun _ _ => 0).forest).Nodup := by
    rw [hempty]
    exact List.nodup_nil
  have hf : files.ReachableIf Env ⟨fun _ => 0, 1, fun _ _ => 0⟩ := .init hnodup
  have henv : Env ⟨fun _ => 0, 1, fun _ _ => 0⟩
      (.bmap 10 true 11 (fun _ => false) [some 100, some 101]) := by
    refine ⟨by decide, fun b hb => ?_⟩
    rw [hempty]
    exact ⟨by rintro rfl; revert hb; decide, List.not_mem_nil⟩
  have := ((bmap_contract hf).2 10 true 11 _ _ henv _ _ rfl).1 101 rfl f'' hlater false 0
    (fun _ => false) []
  simpa using this

end AuxKernel.Svfs.Bmap
