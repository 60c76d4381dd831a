import Mathlib.Data.List.Induction
import AuxKernel.Stream.Blocks

/-!
# The blocks of messages are conserved

A message block is on its free list or in use (`MsgFree`), and a data block is on the
free list of its class or shared by the blocks that its count says (`DataFree`). Each
call keeps this (`Filed.call`), but for two cases: `allocb`, when it has a data block and
finds no message block, puts the data block back with the link cleared already that held
the rest of the list; and the count, an `unsigned char`, wraps at the 256th block.

* `conserved_of_clean`: runs without these two lose no block, and a call that returns
  none leaves the free lists as they were;
* `dupLoop_spec`: `dupmsg` frees what it has duplicated if it cannot go on;
* `freemsg_keeps`: the induction over the blocks of a message.
-/

namespace AuxKernel.Stream

variable {v : Tables} {m m' : Mem} {held mfree : List ℕ} {dfree : ℕ → List ℕ}

/-- How many of the message blocks in use share a data block. -/
def refs (m : Mem) (held : List ℕ) (d : ℕ) : ℕ :=
  (held.map fun b => (m.mblk b).b_datap).count (some d)

/-- The free list of message blocks: each block is on it once, or in use. -/
structure MsgFree (v : Tables) (m : Mem) (held mfree : List ℕ) : Prop where
  head : m.mbfreelist = mfree.head?
  chain : Chained (fun b => (m.mblk b).b_next) mfree
  all : (mfree ++ held).Perm (List.range v.nmblock)

/-- The free lists of data blocks: each block is on that of its class, once, or shared by
    as many message blocks as it counts. -/
structure DataFree (v : Tables) (m : Mem) (held : List ℕ) (dfree : ℕ → List ℕ) : Prop where
  head : ∀ c, m.dbfreelist c = (dfree c).head?
  chain : ∀ c, Chained (fun d => (m.dblk d).db_freep) (dfree c)
  nodup : ∀ c, (dfree c).Nodup
  mem : ∀ c d, d ∈ dfree c ↔ d < v.ndblock ∧ v.cls d = c ∧ refs m held d = 0
  ref : ∀ d, refs m held d ≠ 0 → (m.dblk d).db_ref = refs m held d
  cls : ∀ d < v.ndblock, (m.dblk d).db_class = v.cls d
  data : ∀ b ∈ held, ∃ d < v.ndblock, (m.mblk b).b_datap = some d

/-! ## Message blocks -/

theorem MsgFree.not_mem {bp : ℕ} (h : MsgFree v m held (bp :: mfree)) : bp ∉ held := by
  have hn := h.all.nodup_iff.2 List.nodup_range
  rw [List.cons_append, List.nodup_cons, List.mem_append, not_or] at hn
  exact hn.1.2

theorem MsgFree.nodup (h : MsgFree v m held mfree) : (mfree ++ held).Nodup :=
  h.all.nodup_iff.2 List.nodup_range

/-- The first block is taken off the list, into use. -/
theorem MsgFree.take {bp : ℕ} (h : MsgFree v m held (bp :: mfree))
    (hhead : m'.mbfreelist = (m.mblk bp).b_next)
    (hn : ∀ b ≠ bp, (m'.mblk b).b_next = (m.mblk b).b_next) : MsgFree v m' (bp :: held) mfree where
  head := hhead.trans h.chain.1
  chain := by
    refine h.chain.2.congr fun b hb => hn b ?_
    rintro rfl
    have := h.nodup
    rw [List.cons_append, List.nodup_cons, List.mem_append] at this
    exact this.1 (.inl hb)
  all := List.perm_middle.trans h.all

/-- A block in use is put at the head of the list. -/
theorem MsgFree.put {bp : ℕ} (h : MsgFree v m held mfree) (hbp : bp ∈ held)
    (hhead : m'.mbfreelist = some bp) (hnext : (m'.mblk bp).b_next = m.mbfreelist)
    (hn : ∀ b ≠ bp, (m'.mblk b).b_next = (m.mblk b).b_next) :
    MsgFree v m' (held.erase bp) (bp :: mfree) where
  head := hhead
  chain := by
    refine ⟨hnext.trans h.head, h.chain.congr fun b hb => hn b ?_⟩
    rintro rfl
    exact List.disjoint_of_nodup_append h.nodup hb hbp
  all := by
    refine List.Perm.trans ?_ h.all
    exact List.perm_middle.symm.trans ((List.perm_cons_erase hbp).symm.append_left mfree)

/-- Blocks in use are linked to others. -/
theorem MsgFree.congr (h : MsgFree v m held mfree) (hhead : m'.mbfreelist = m.mbfreelist)
    (hn : ∀ b, b ∉ held → (m'.mblk b).b_next = (m.mblk b).b_next) :
    MsgFree v m' held mfree where
  head := hhead.trans h.head
  chain := h.chain.congr fun b hb => hn b fun hb' => List.disjoint_of_nodup_append h.nodup hb hb'
  all := h.all

/-! ## Data blocks -/

theorem refs_cons (m : Mem) (held : List ℕ) (b d : ℕ) :
    refs m (b :: held) d = refs m held d + if (m.mblk b).b_datap = some d then 1 else 0 := by
  simp [refs, List.count_cons]

theorem refs_congr (h : ∀ b ∈ held, (m'.mblk b).b_datap = (m.mblk b).b_datap) (d : ℕ) :
    refs m' held d = refs m held d := by
  rw [refs, refs, List.map_congr_left h]

theorem refs_perm {held' : List ℕ} (h : held.Perm held') (d : ℕ) :
    refs m held d = refs m held' d :=
  (h.map _).count_eq _

/-- A block in use leaves the data block that it shares. -/
theorem refs_erase {b : ℕ} (hb : b ∈ held) (d : ℕ) :
    refs m (held.erase b) d + (if (m.mblk b).b_datap = some d then 1 else 0) = refs m held d := by
  rw [← refs_cons, refs_perm (List.perm_cons_erase hb)]

theorem refs_pos {b d : ℕ} (hb : b ∈ held) (hd : (m.mblk b).b_datap = some d) :
    refs m held d ≠ 0 :=
  (List.count_pos_iff.2 (List.mem_map.2 ⟨b, hb, hd⟩)).ne'

/-- What data blocks are for does not matter. -/
theorem DataFree.congr (h : DataFree v m held dfree) (hhead : m'.dbfreelist = m.dbfreelist)
    (hd : ∀ d, (m'.dblk d).db_freep = (m.dblk d).db_freep ∧
      (m'.dblk d).db_ref = (m.dblk d).db_ref ∧ (m'.dblk d).db_class = (m.dblk d).db_class)
    (hb : ∀ b ∈ held, (m'.mblk b).b_datap = (m.mblk b).b_datap) : DataFree v m' held dfree where
  head := hhead ▸ h.head
  chain c := (h.chain c).congr fun d _ => (hd d).1
  nodup := h.nodup
  mem c d := by rw [h.mem c d, refs_congr hb]
  ref d := by
    rw [refs_congr hb, (hd d).2.1]
    exact h.ref d
  cls d hlt := (hd d).2.2.trans (h.cls d hlt)
  data b hb' := by
    rw [hb b hb']
    exact h.data b hb'

theorem DataFree.perm {held' : List ℕ} (h : DataFree v m held dfree) (hp : held.Perm held') :
    DataFree v m held' dfree where
  head := h.head
  chain := h.chain
  nodup := h.nodup
  mem c d := by rw [h.mem c d, refs_perm hp]
  ref d := by
    rw [← refs_perm hp]
    exact h.ref d
  cls := h.cls
  data b hb := h.data b (hp.mem_iff.2 hb)

/-- The first data block of a list is taken off it, for a message block. -/
theorem DataFree.alloc {c d bp : ℕ} {ds : List ℕ} (h : DataFree v m held dfree)
    (hc : dfree c = d :: ds) (hbp : bp ∉ held)
    (hhead : m'.dbfreelist = Function.update m.dbfreelist c (m.dblk d).db_freep)
    (hd : ∀ e ≠ d, m'.dblk e = m.dblk e) (href : (m'.dblk d).db_ref = 1)
    (hcls : (m'.dblk d).db_class = c) (hb : (m'.mblk bp).b_datap = some d)
    (hbs : ∀ b ≠ bp, (m'.mblk b).b_datap = (m.mblk b).b_datap) :
    DataFree v m' (bp :: held) (Function.update dfree c ds) := by
  obtain ⟨hlt, hcd, hzero⟩ := (h.mem c d).1 (hc ▸ List.mem_cons_self)
  have hnodup := List.nodup_cons.1 (hc ▸ h.nodup c)
  have hrefs (e : ℕ) : refs m' (bp :: held) e = refs m held e + if d = e then 1 else 0 := by
    rw [refs_cons, refs_congr fun b hb' => hbs b fun he => hbp (he ▸ hb'), hb]
    simp
  have hnot : ∀ k, d ∉ Function.update dfree c ds k := by
    intro k hk
    by_cases hkc : k = c
    · subst hkc
      exact hnodup.1 (by simpa using hk)
    · rw [Function.update_of_ne hkc] at hk
      exact hkc (((h.mem k d).1 hk).2.1.symm.trans hcd)
  refine ⟨fun k => ?_, fun k => ?_, fun k => ?_, fun k e => ?_, fun e he => ?_, fun e he => ?_,
    fun b hb' => ?_⟩
  · by_cases hkc : k = c
    · subst hkc
      have := (hc ▸ h.chain k : Chained (fun d => (m.dblk d).db_freep) (d :: ds)).1
      simpa [hhead] using this
    · simp [hhead, hkc, h.head k]
  · have hk : Chained (fun d => (m.dblk d).db_freep) (Function.update dfree c ds k) := by
      by_cases hkc : k = c
      · subst hkc
        simpa using (hc ▸ h.chain k : Chained (fun d => (m.dblk d).db_freep) (d :: ds)).2
      · simpa [hkc] using h.chain k
    exact hk.congr fun e he => by rw [hd e fun hed => hnot k (hed ▸ he)]
  · by_cases hkc : k = c
    · subst hkc
      simpa using hnodup.2
    · simpa [hkc] using h.nodup k
  · by_cases hed : e = d
    · subst hed
      simp [hnot k, hrefs]
    · have hmem : e ∈ Function.update dfree c ds k ↔ e ∈ dfree k := by
        by_cases hkc : k = c
        · subst hkc
          simp [hc, hed]
        · simp [hkc]
      rw [hmem, h.mem, hrefs, if_neg (Ne.symm hed), add_zero]
  · by_cases hed : e = d
    · subst hed
      rw [hrefs, if_pos rfl, href, hzero]
    · rw [hrefs, if_neg (Ne.symm hed), add_zero] at he ⊢
      rw [hd e hed]
      exact h.ref e he
  · by_cases hed : e = d
    · rw [hed, hcls, hcd]
    · rw [hd e hed]
      exact h.cls e he
  · rcases List.mem_cons.1 hb' with rfl | hb'
    · exact ⟨d, hlt, hb⟩
    · rw [hbs b fun he => hbp (he ▸ hb')]
      exact h.data b hb'

/-- One more message block shares a data block. -/
theorem DataFree.dup {d b bp : ℕ} (h : DataFree v m held dfree) (hb : b ∈ held)
    (hbd : (m.mblk b).b_datap = some d) (hbp : bp ∉ held) (hhead : m'.dbfreelist = m.dbfreelist)
    (hd : m'.dblk = Function.update m.dblk d
      { m.dblk d with db_ref := (m.dblk d).db_ref + 1 })
    (hnew : (m'.mblk bp).b_datap = some d)
    (hbs : ∀ b ≠ bp, (m'.mblk b).b_datap = (m.mblk b).b_datap) :
    DataFree v m' (bp :: held) dfree := by
  have hpos := refs_pos hb hbd
  have hrefs (e : ℕ) : refs m' (bp :: held) e = refs m held e + if d = e then 1 else 0 := by
    rw [refs_cons, refs_congr fun b hb' => hbs b fun he => hbp (he ▸ hb'), hnew]
    simp
  refine ⟨fun c => by rw [hhead, h.head], fun c => ?_, h.nodup, fun c e => ?_, fun e he => ?_,
    fun e he => ?_, fun b' hb' => ?_⟩
  · refine (h.chain c).congr fun e _ => ?_
    by_cases hed : e = d
    · subst hed
      simp [hd]
    · simp [hd, hed]
  · by_cases hed : e = d
    · subst hed
      simp [h.mem, hrefs, hpos]
    · rw [h.mem, hrefs, if_neg (Ne.symm hed), add_zero]
  · by_cases hed : e = d
    · subst hed
      simp [hd, hrefs, h.ref e hpos]
    · rw [hrefs, if_neg (Ne.symm hed), add_zero] at he ⊢
      simpa [hd, hed] using h.ref e he
  · by_cases hed : e = d
    · subst hed
      simpa [hd] using h.cls e he
    · simpa [hd, hed] using h.cls e he
  · rcases List.mem_cons.1 hb' with rfl | hb'
    · obtain ⟨d', hd', hbd'⟩ := h.data b hb
      obtain rfl : d' = d := Option.some.inj (hbd'.symm.trans hbd)
      exact ⟨d', hd', hnew⟩
    · rw [hbs b' fun he => hbp (he ▸ hb')]
      exact h.data b' hb'

/-- A message block leaves its data block, which is put on its free list if no other
    shares it. -/
theorem DataFree.drop {d bp : ℕ} (h : DataFree v m held dfree) (hn : held.Nodup)
    (hb : bp ∈ held) (hbd : (m.mblk bp).b_datap = some d)
    (hhead : m'.dbfreelist = (dropData d m).dbfreelist) (hd : m'.dblk = (dropData d m).dblk)
    (hbs : ∀ b ≠ bp, (m'.mblk b).b_datap = (m.mblk b).b_datap) :
    ∃ dfree', DataFree v m' (held.erase bp) dfree' := by
  have hpos := refs_pos hb hbd
  have href := h.ref d hpos
  obtain ⟨d', hlt, hbd'⟩ := h.data bp hb
  obtain rfl : d' = d := Option.some.inj (hbd'.symm.trans hbd)
  have hne : ∀ b ∈ held.erase bp, b ≠ bp := fun b hb' => ((hn.mem_erase_iff).1 hb').1
  have hrefs (e : ℕ) : refs m' (held.erase bp) e + (if d' = e then 1 else 0) = refs m held e := by
    rw [refs_congr fun b hb' => hbs b (hne b hb')]
    simpa [hbd] using refs_erase (m := m) hb e
  have hother (e : ℕ) (hed : e ≠ d') : refs m' (held.erase bp) e = refs m held e := by
    simpa [Ne.symm hed] using hrefs e
  have hself : refs m' (held.erase bp) d' + 1 = refs m held d' := by simpa using hrefs d'
  have hdata : ∀ b ∈ held.erase bp, ∃ e < v.ndblock, (m'.mblk b).b_datap = some e := by
    intro b hb'
    rw [hbs b (hne b hb')]
    exact h.data b (List.mem_of_mem_erase hb')
  by_cases hle : (m.dblk d').db_ref ≤ 1
  · have hzero : refs m' (held.erase bp) d' = 0 := by omega
    have hc : (m.dblk d').db_class = v.cls d' := h.cls d' hlt
    simp only [dropData, if_pos hle, hc] at hhead hd
    have hnot : ∀ c, d' ∉ dfree c := fun c hc => hpos ((h.mem c d').1 hc).2.2
    refine ⟨Function.update dfree (v.cls d') (d' :: dfree (v.cls d')), fun c => ?_, fun c => ?_,
      fun c => ?_, fun c e => ?_, fun e he => ?_, fun e he => ?_, hdata⟩
    · by_cases hcd : c = v.cls d'
      · subst hcd
        simp [hhead]
      · simp [hhead, hcd, h.head c]
    · have hold : Chained (fun e => (m'.dblk e).db_freep) (dfree c) := by
        refine (h.chain c).congr fun e he => ?_
        have hed : e ≠ d' := fun hed => hnot c (hed ▸ he)
        simp [hd, hed]
      by_cases hcd : c = v.cls d'
      · subst hcd
        rw [Function.update_self]
        exact ⟨by simp [hd, h.head], hold⟩
      · simpa [hcd] using hold
    · by_cases hcd : c = v.cls d'
      · subst hcd
        simpa [hnot] using h.nodup (v.cls d')
      · simpa [hcd] using h.nodup c
    · by_cases hed : e = d'
      · subst hed
        by_cases hcd : c = v.cls e
        · subst hcd
          simp [hlt, hzero]
        · simp [hcd, hnot c, Ne.symm hcd]
      · rw [hother e hed, ← h.mem c e]
        by_cases hcd : c = v.cls d'
        · subst hcd
          simp [hed]
        · simp [hcd]
    · have hed : e ≠ d' := fun hed => he (hed ▸ hzero)
      rw [hother e hed] at he ⊢
      simpa [hd, hed] using h.ref e he
    · by_cases hed : e = d'
      · subst hed
        simp [hd, hc]
      · simpa [hd, hed] using h.cls e he
  · simp only [dropData, if_neg hle] at hhead hd
    refine ⟨dfree, fun c => by rw [hhead, h.head], fun c => ?_, h.nodup, fun c e => ?_,
      fun e he => ?_, fun e he => ?_, hdata⟩
    · refine (h.chain c).congr fun e _ => ?_
      by_cases hed : e = d'
      · subst hed
        simp [hd]
      · simp [hd, hed]
    · by_cases hed : e = d'
      · subst hed
        have : refs m' (held.erase bp) e ≠ 0 := by omega
        simp [h.mem, hpos, this]
      · rw [h.mem, hother e hed]
    · by_cases hed : e = d'
      · subst hed
        simp only [hd, Function.update_self]
        omega
      · rw [hother e hed] at he ⊢
        simpa [hd, hed] using h.ref e he
    · by_cases hed : e = d'
      · subst hed
        simpa [hd] using h.cls e he
      · simpa [hd, hed] using h.cls e he

/-! ## Freeing -/

/-- All blocks are filed: free or in use. -/
def Filed (v : Tables) (m : Mem) (held : List ℕ) : Prop :=
  ∃ mfree dfree, MsgFree v m held mfree ∧ DataFree v m held dfree

theorem freeb_eq {bp d : ℕ} (hbd : (m.mblk bp).b_datap = some d) :
    ∃ m', freeb bp m = some m' ∧ m'.mbfreelist = some bp ∧
      m'.mblk = Function.update m.mblk bp
        { m.mblk bp with b_next := m.mbfreelist, b_datap := none } ∧
      m'.dbfreelist = (dropData d m).dbfreelist ∧ m'.dblk = (dropData d m).dblk := by
  refine ⟨_, by rw [freeb, hbd, Option.map_some], ?_, ?_, ?_, ?_⟩ <;>
    by_cases hle : (m.dblk d).db_ref ≤ 1 <;>
    simp [dropData, Mem.setNext, hle]

/-- A block in use is freed. -/
theorem Filed.freeb {bp : ℕ} (h : Filed v m held) (hb : bp ∈ held) :
    ∃ m', freeb bp m = some m' ∧ Filed v m' (held.erase bp) ∧
      ∀ b ≠ bp, m'.mblk b = m.mblk b := by
  obtain ⟨mfree, dfree, hm, hd⟩ := h
  obtain ⟨d, -, hbd⟩ := hd.data bp hb
  obtain ⟨m', hm', hhead, hblk, hdl, hdb⟩ := freeb_eq hbd
  have hother : ∀ b ≠ bp, m'.mblk b = m.mblk b := fun b hne => by simp [hblk, hne]
  obtain ⟨dfree', hd'⟩ := hd.drop hm.nodup.of_append_right hb hbd hdl hdb
    fun b hne => by rw [hother b hne]
  exact ⟨m', hm', ⟨_, dfree', hm.put hb hhead (by simp [hblk]) fun b hne => by rw [hother b hne],
    hd'⟩, hother⟩

theorem Filed.perm {held' : List ℕ} (h : Filed v m held) (hp : held.Perm held') :
    Filed v m held' := by
  obtain ⟨mfree, dfree, hm, hd⟩ := h
  exact ⟨mfree, dfree, ⟨hm.head, hm.chain, (hp.append_left mfree).symm.trans hm.all⟩, hd.perm hp⟩

theorem Filed.nodup (h : Filed v m held) : held.Nodup := by
  obtain ⟨mfree, -, hm, -⟩ := h
  exact hm.nodup.of_append_right

/-- What the freeing of each block of a message keeps, `freemsg` keeps. -/
theorem freemsg_keeps {P : Mem → List ℕ → Prop}
    (hstep : ∀ m b l, P m (b :: l) → ∃ m', freeb b m = some m' ∧ P m' l ∧
      ∀ c ∈ l, m'.mblk c = m.mblk c) {l : List ℕ} {n : ℕ} (hlen : l.length ≤ n)
    (hc : Chained (fun b => (m.mblk b).b_cont) l) (hP : P m l) :
    ∃ m', freemsg n l.head? m = some m' ∧ P m' [] := by
  induction l generalizing n m with
  | nil => exact ⟨m, by cases n <;> rfl, hP⟩
  | cons b l ih =>
    obtain ⟨n, rfl⟩ : ∃ n', n = n' + 1 := ⟨n - 1, by simp at hlen; omega⟩
    obtain ⟨m₁, hm₁, hP₁, hother⟩ := hstep m b l hP
    obtain ⟨m₂, hm₂, hP₂⟩ := ih (by simpa using hlen)
      (hc.2.congr fun c hc' => congrArg Mblk.b_cont (hother c hc')) hP₁
    refine ⟨m₂, ?_, hP₂⟩
    show (freeb b m).bind _ = _
    rw [hm₁, Option.bind_some, show (m.mblk b).b_cont = l.head? from hc.1]
    exact hm₂

/-- The blocks of a message, each in use, are freed. -/
theorem Filed.freemsg {l : List ℕ} {n : ℕ} (h : Filed v m (l ++ held)) (hlen : l.length ≤ n)
    (hc : Chained (fun b => (m.mblk b).b_cont) l) :
    ∃ m', freemsg n l.head? m = some m' ∧ Filed v m' held := by
  refine freemsg_keeps (P := fun m l => Filed v m (l ++ held)) (fun m b l h => ?_) hlen hc h
  obtain ⟨m', hm', hf, hother⟩ := h.freeb List.mem_cons_self
  refine ⟨m', hm', by simpa using hf, fun c hc' => hother c ?_⟩
  rintro rfl
  exact (List.nodup_cons.1 h.nodup).1 (List.mem_append_left held hc')

theorem msgBlocks_chained {n : ℕ} {p : Option ℕ} {l : List ℕ} (h : msgBlocks m n p = some l) :
    l.head? = p ∧ l.length ≤ n ∧ Chained (fun b => (m.mblk b).b_cont) l := by
  induction n generalizing p l with
  | zero =>
    cases p with
    | none => obtain rfl := Option.some.inj h; exact ⟨rfl, le_rfl, trivial⟩
    | some b => exact nomatch h
  | succ n ih =>
    cases p with
    | none => obtain rfl := Option.some.inj h; exact ⟨rfl, Nat.zero_le _, trivial⟩
    | some b =>
      obtain ⟨l', hl', rfl⟩ := Option.map_eq_some_iff.1 h
      obtain ⟨hh, hlen, hc⟩ := ih hl'
      exact ⟨rfl, by simpa using hlen, hh.symm, hc⟩

/-- A list linked by `b_cont` is the blocks of a message. -/
theorem msgBlocks_of_chained {n : ℕ} {l : List ℕ} (hlen : l.length ≤ n)
    (hc : Chained (fun b => (m.mblk b).b_cont) l) : msgBlocks m n l.head? = some l := by
  induction l generalizing n with
  | nil => cases n <;> rfl
  | cons b l ih =>
    obtain ⟨n, rfl⟩ : ∃ n', n = n' + 1 := ⟨n - 1, by simp at hlen; omega⟩
    show (msgBlocks m n (m.mblk b).b_cont).map _ = _
    rw [show (m.mblk b).b_cont = l.head? from hc.1, ih (by simpa using hlen) hc.2]
    rfl

/-! ## Sharing -/

/-- The data block with more references counted. -/
def Dblk.share (db : Dblk) (k : ℕ) : Dblk := { db with db_ref := db.db_ref + k }

/-- While some blocks, `held`, stayed in use, others, `new`, came to share data blocks. -/
structure Shares (m₀ m : Mem) (held new : List ℕ) : Prop where
  lists : m.dbfreelist = m₀.dbfreelist
  dblk : ∀ d, m.dblk d = (m₀.dblk d).share (refs m new d)
  mblk : ∀ b ∈ held, m.mblk b = m₀.mblk b

theorem Shares.refl (m : Mem) (held : List ℕ) : Shares m m held [] :=
  ⟨rfl, fun _ => rfl, fun _ _ => rfl⟩

/-- When none share them any more, the data blocks are as before. -/
theorem Shares.eq {m₀ : Mem} (h : Shares m₀ m held []) :
    m.dbfreelist = m₀.dbfreelist ∧ m.dblk = m₀.dblk :=
  ⟨h.lists, funext h.dblk⟩

/-- A block that came to share a data block with one that stayed in use is freed. -/
theorem Shares.freeb {m₀ : Mem} {new : List ℕ} {b : ℕ} (h : Shares m₀ m held (b :: new))
    (hf : Filed v m (b :: new ++ held))
    (hd : ∃ c ∈ held, (m.mblk c).b_datap = (m.mblk b).b_datap) :
    ∃ m', freeb b m = some m' ∧ Shares m₀ m' held new := by
  obtain ⟨mfree, dfree, hm, hdf⟩ := hf
  obtain ⟨d, -, hbd⟩ := hdf.data b List.mem_cons_self
  obtain ⟨m', hm', -, hblk, hdl, hdb⟩ := freeb_eq hbd
  obtain ⟨c, hc, hcd⟩ := hd
  have hnodup := List.nodup_cons.1 (List.cons_append ▸ hm.nodup.of_append_right)
  have hrefs : 2 ≤ (m.dblk d).db_ref := by
    have hpos : refs m (new ++ held) d ≠ 0 :=
      refs_pos (List.mem_append_right new hc) (hcd.trans hbd)
    have hcons := refs_cons m (new ++ held) b d
    rw [if_pos hbd] at hcons
    rw [hdf.ref d (refs_pos List.mem_cons_self hbd), List.cons_append]
    omega
  simp only [dropData, if_neg (show ¬(m.dblk d).db_ref ≤ 1 by omega)] at hdl hdb
  have hne : ∀ c ∈ new ++ held, c ≠ b := fun c hc he => hnodup.1 (he ▸ hc)
  have hother : ∀ c ∈ new ++ held, m'.mblk c = m.mblk c := fun c hc => by
    simp [hblk, hne c hc]
  refine ⟨m', hm', hdl.trans h.lists, fun e => ?_, fun c hc => ?_⟩
  · rw [refs_congr (m := m) fun c hc => by rw [hother c (List.mem_append_left held hc)]]
    have he := h.dblk e
    rw [refs_cons] at he
    by_cases hed : e = d
    · subst hed
      rw [if_pos hbd] at he
      simp [hdb, he, Dblk.share]
    · rw [if_neg fun h => hed (Option.some.inj (h.symm.trans hbd)), add_zero] at he
      simpa [hdb, hed] using he
  · rw [hother c (List.mem_append_right new hc), h.mblk c hc]

theorem dupb_none {bp : ℕ} {s : Pool} (h : s.mbfreelist = none) : dupb bp s = some (none, s) := by
  rw [dupb, h]

theorem dupb_some {bp bp1 d : ℕ} {s : Pool} (h : s.mbfreelist = some bp1)
    (hd : (s.mblk bp).b_datap = some d) (hr : (s.dblk d).db_ref < 255) :
    ∃ s', dupb bp s = some (some bp1, s') ∧ s'.mbfreelist = (s.mblk bp1).b_next ∧
      s'.dbfreelist = s.dbfreelist ∧
      s'.dblk = Function.update s.dblk d { s.dblk d with db_ref := (s.dblk d).db_ref + 1 } ∧
      s'.mblk = Function.update s.mblk bp1
        { s.mblk bp1 with b_next := none, b_cont := none, b_datap := some d } := by
  rw [dupb, h]
  simp only [hd, Option.map_some]
  refine ⟨_, rfl, rfl, rfl, ?_, rfl⟩
  simp only [takeMsg]
  rw [Nat.mod_eq_of_lt (by omega)]

/-- A block that stayed in use is duplicated: the new one is at the head of the free list.-/
theorem dupb_step {m₀ : Mem} {s : Pool} {new : List ℕ} {b bp1 d : ℕ}
    (hm : MsgFree v s.toMem (new ++ held) (bp1 :: mfree))
    (hd : DataFree v s.toMem (new ++ held) dfree) (hs : Shares m₀ s.toMem held new)
    (hb : b ∈ held) (hbd : (s.mblk b).b_datap = some d) (hr : (s.dblk d).db_ref < 255) :
    ∃ s', dupb b s = some (some bp1, s') ∧ MsgFree v s'.toMem (bp1 :: (new ++ held)) mfree ∧
      DataFree v s'.toMem (bp1 :: (new ++ held)) dfree ∧ Shares m₀ s'.toMem held (bp1 :: new) ∧
      (s'.mblk bp1).b_cont = none ∧ (s'.mblk bp1).b_datap = some d ∧
      ∀ c ≠ bp1, s'.mblk c = s.mblk c := by
  obtain ⟨s', hs', hhead, hdl, hdb, hblk⟩ := dupb_some hm.head hbd hr
  have hother : ∀ c ≠ bp1, s'.mblk c = s.mblk c := fun c hc => by simp [hblk, hc]
  have hnot := hm.not_mem
  have hnew : (s'.mblk bp1).b_datap = some d := by simp [hblk]
  refine ⟨s', hs', hm.take hhead fun c hc => by rw [hother c hc], ?_, ⟨hdl.trans hs.lists,
    fun e => ?_, fun c hc => ?_⟩, by simp [hblk], hnew, hother⟩
  · exact hd.dup (List.mem_append_right new hb) hbd hnot hdl hdb hnew
      fun c hc => by rw [hother c hc]
  · have he := hs.dblk e
    rw [refs_cons, hnew, refs_congr (m := s.toMem) fun c hc => by
      rw [hother c fun h => hnot (h ▸ List.mem_append_left held hc)]]
    by_cases hed : e = d
    · subst hed
      simp [hdb, he, Dblk.share, add_assoc]
    · simpa [hdb, hed, Ne.symm hed] using he
  · rw [hother c fun h => hnot (h ▸ List.mem_append_right new hc), hs.mblk c hc]

/-- The links within messages do not matter. -/
theorem MsgFree.setCont (h : MsgFree v m held mfree) (b : ℕ) (p : Option ℕ) :
    MsgFree v (m.setCont b p) held mfree := by
  have hn (c : ℕ) : ((m.setCont b p).mblk c).b_next = (m.mblk c).b_next := by
    by_cases hc : c = b
    · subst hc
      simp [Mem.setCont]
    · simp [Mem.setCont, hc]
  exact h.congr rfl fun c _ => hn c

theorem setCont_datap (m : Mem) (b : ℕ) (p : Option ℕ) (c : ℕ) :
    ((m.setCont b p).mblk c).b_datap = (m.mblk c).b_datap := by
  by_cases hc : c = b
  · subst hc
    simp [Mem.setCont]
  · simp [Mem.setCont, hc]

theorem setCont_cont_of_ne (m : Mem) {b c : ℕ} (p : Option ℕ) (hc : c ≠ b) :
    ((m.setCont b p).mblk c).b_cont = (m.mblk c).b_cont := by
  simp [Mem.setCont, hc]

theorem DataFree.setCont (h : DataFree v m held dfree) (b : ℕ) (p : Option ℕ) :
    DataFree v (m.setCont b p) held dfree :=
  h.congr rfl (fun _ => ⟨rfl, rfl, rfl⟩) fun c _ => setCont_datap m b p c

theorem Shares.setCont {m₀ : Mem} {new : List ℕ} (h : Shares m₀ m held new) {b : ℕ}
    (hb : b ∉ held) (p : Option ℕ) : Shares m₀ (m.setCont b p) held new where
  lists := h.lists
  dblk d := by
    rw [refs_congr fun c _ => setCont_datap m b p c]
    exact h.dblk d
  mblk c hc := by
    rw [← h.mblk c hc]
    have hcb : c ≠ b := fun he => hb (he ▸ hc)
    simp [Mem.setCont, hcb]

/-- What a call that returns no block leaves as it was: the lists of free data blocks with
    the reference counts, and which message blocks are free. -/
structure SameFree (m m' : Mem) : Prop where
  lists : m'.dbfreelist = m.dbfreelist
  dblk : m'.dblk = m.dblk
  msgs : ∃ l l', m.mbfreelist = l.head? ∧ Chained (fun b => (m.mblk b).b_next) l ∧
    m'.mbfreelist = l'.head? ∧ Chained (fun b => (m'.mblk b).b_next) l' ∧ l.Perm l'

theorem Filed.sameFree_refl (h : Filed v m held) : SameFree m m := by
  obtain ⟨mfree, -, hm, -⟩ := h
  exact ⟨rfl, rfl, mfree, mfree, hm.head, hm.chain, hm.head, hm.chain, .refl _⟩

/-- There is room in the reference counts for the duplicates of the blocks `l` of a message
    that `k` free blocks allow. -/
def Room (m : Mem) (l : List ℕ) (k : ℕ) : Prop :=
  ∀ b ∈ l.take k, ∀ d ∈ (m.mblk b).b_datap, (m.dblk d).db_ref + refs m (l.take k) d ≤ 255

instance (m : Mem) (l : List ℕ) (k : ℕ) : Decidable (Room m l k) :=
  inferInstanceAs (Decidable (∀ b ∈ l.take k, ∀ d ∈ (m.mblk b).b_datap,
    (m.dblk d).db_ref + refs m (l.take k) d ≤ 255))

/-- Whatever is freed of a message that is duplicated, is freed as it was. -/
theorem Shares.freemsg {m₀ : Mem} {new : List ℕ} {n : ℕ} (h : Shares m₀ m held new)
    (hf : Filed v m (new ++ held)) (hlen : new.length ≤ n)
    (hc : Chained (fun b => (m.mblk b).b_cont) new)
    (hd : ∀ b ∈ new, ∃ c ∈ held, (m.mblk c).b_datap = (m.mblk b).b_datap) :
    ∃ m', freemsg n new.head? m = some m' ∧ Filed v m' held ∧ Shares m₀ m' held [] := by
  have hstep (m : Mem) (b : ℕ) (l : List ℕ)
      (hP : Filed v m (b :: l ++ held) ∧ Shares m₀ m held (b :: l) ∧
        ∀ c ∈ b :: l, ∃ e ∈ held, (m.mblk e).b_datap = (m.mblk c).b_datap) :
      ∃ m', Stream.freeb b m = some m' ∧ (Filed v m' (l ++ held) ∧ Shares m₀ m' held l ∧
        ∀ c ∈ l, ∃ e ∈ held, (m'.mblk e).b_datap = (m'.mblk c).b_datap) ∧
        ∀ c ∈ l, m'.mblk c = m.mblk c := by
    obtain ⟨hf, hs, hd⟩ := hP
    obtain ⟨m', hm', hf', hother⟩ := hf.freeb List.mem_cons_self
    obtain ⟨m'', hm'', hs'⟩ := hs.freeb hf (hd b List.mem_cons_self)
    obtain rfl : m'' = m' := Option.some.inj (hm''.symm.trans hm')
    have hnot := (List.nodup_cons.1 (List.cons_append ▸ hf.nodup)).1
    have hne : ∀ c ∈ l ++ held, m''.mblk c = m.mblk c :=
      fun c hc => hother c fun he => hnot (he ▸ hc)
    refine ⟨m'', hm', ⟨by simpa using hf', hs', fun c hc => ?_⟩,
      fun c hc => hne c (List.mem_append_left held hc)⟩
    obtain ⟨e, he, hed⟩ := hd c (List.mem_cons_of_mem b hc)
    exact ⟨e, he, by rw [hne e (List.mem_append_right l he), hne c (List.mem_append_left held hc),
      hed]⟩
  obtain ⟨m', hm', hf', hs', -⟩ := freemsg_keeps (P := fun m l => Filed v m (l ++ held) ∧
    Shares m₀ m held l ∧ ∀ b ∈ l, ∃ c ∈ held, (m.mblk c).b_datap = (m.mblk b).b_datap)
    hstep hlen hc ⟨hf, h, hd⟩
  exact ⟨m', hm', hf', hs'⟩

theorem Filed.sameFree (h : Filed v m held) (h' : Filed v m' held)
    (hl : m'.dbfreelist = m.dbfreelist) (hd : m'.dblk = m.dblk) : SameFree m m' := by
  obtain ⟨l, -, hm, -⟩ := h
  obtain ⟨l', -, hm', -⟩ := h'
  exact ⟨hl, hd, l, l', hm.head, hm.chain, hm'.head, hm'.chain,
    (List.perm_append_right_iff held).1 (hm.all.trans hm'.all.symm)⟩

theorem refs_sublist {l l' : List ℕ} (h : l.Sublist l') (d : ℕ) : refs m l d ≤ refs m l' d :=
  (h.map _).count_le _

/-- The next block of a message has room, if there is a free block for its duplicate. -/
theorem Room.lt {l rest : List ℕ} {b d k : ℕ} (h : Room m (l ++ b :: rest) (l.length + (k + 1)))
    (hd : (m.mblk b).b_datap = some d) : (m.dblk d).db_ref + refs m l d < 255 := by
  have htake : (l ++ b :: rest).take (l.length + (k + 1)) = l ++ b :: rest.take k := by
    rw [List.take_length_add_append, List.take_succ_cons]
  rw [Room, htake] at h
  have hb := h b (by simp) d (by simp [hd])
  have hsub : refs m (b :: l) d ≤ refs m (l ++ b :: rest.take k) d := by
    rw [refs_perm (List.perm_append_singleton b l).symm]
    exact refs_sublist ((List.Sublist.cons_cons b (List.nil_sublist _)).append_left l) d
  rw [refs_cons, if_pos hd] at hsub
  omega

theorem refs_map {l l' : List ℕ}
    (h : l.map (fun b => (m.mblk b).b_datap) = l'.map fun b => (m'.mblk b).b_datap) (d : ℕ) :
    refs m l d = refs m' l' d :=
  congrArg (List.count (some d)) h

theorem Shares.perm {m₀ : Mem} {new new' : List ℕ} (h : Shares m₀ m held new)
    (hp : new.Perm new') : Shares m₀ m held new' :=
  ⟨h.lists, fun d => refs_perm hp d ▸ h.dblk d, h.mblk⟩

theorem dupLoop_end {head n bp bp1 : ℕ} {s : Pool} (h : (s.mblk bp).b_cont = none) :
    dupLoop v head n bp bp1 s = some (some head, s) := by
  unfold dupLoop
  rw [h]

theorem dupLoop_next {head n bp b bp1 : ℕ} {s : Pool} (h : (s.mblk bp).b_cont = some b) :
    dupLoop v head (n + 1) bp bp1 s = (dupb b s).bind fun (r, s) =>
      let s := { s with toMem := s.toMem.setCont bp1 r }
      match r with
      | none => (freemsg v.nmblock (some head) s.toMem).map fun m => (none, { s with toMem := m })
      | some bp1' => dupLoop v head n b bp1' s := by
  conv_lhs => unfold dupLoop
  simp only [h] <;> rfl

/-- The duplicates of blocks share data blocks with blocks that stayed in use. -/
theorem Shares.shared {m₀ : Mem} {new old : List ℕ} (h : Shares m₀ m held new)
    (hnew : new.map (fun b => (m.mblk b).b_datap) = old.map fun b => (m₀.mblk b).b_datap)
    (hold : ∀ b ∈ old, b ∈ held) :
    ∀ b ∈ new, ∃ c ∈ held, (m.mblk c).b_datap = (m.mblk b).b_datap := by
  intro b hb
  have hmem : (m.mblk b).b_datap ∈ old.map fun b => (m₀.mblk b).b_datap :=
    hnew ▸ List.mem_map_of_mem hb
  obtain ⟨c, hc, hcb⟩ := List.mem_map.1 hmem
  exact ⟨c, hold c hc, by rw [h.mblk c (hold c hc), hcb]⟩

/-- `dupmsg` duplicates the rest of a message, or frees what it has duplicated. -/
theorem dupLoop_spec {m₀ : Mem} {head : ℕ} {rest done older : List ℕ} {n bp bp1 : ℕ} {s : Pool}
    (hl : ∀ b ∈ done ++ bp :: rest, b ∈ held)
    (hc₀ : Chained (fun b => (m₀.mblk b).b_cont) (bp :: rest))
    (hroom : Room m₀ (done ++ bp :: rest) (done.length + 1 + mfree.length))
    (hlen : rest.length ≤ n) (hm : MsgFree v s.toMem (bp1 :: older ++ held) mfree)
    (hd : DataFree v s.toMem (bp1 :: older ++ held) dfree)
    (hs : Shares m₀ s.toMem held (bp1 :: older))
    (hc : Chained (fun b => (s.mblk b).b_cont) (bp1 :: older).reverse)
    (hhead : (bp1 :: older).reverse.head? = some head)
    (hnew : (bp1 :: older).map (fun b => (s.mblk b).b_datap) =
      (done ++ [bp]).reverse.map fun b => (m₀.mblk b).b_datap) :
    (∃ s' new, dupLoop v head n bp bp1 s = some (some head, s') ∧
      Filed v s'.toMem (new ++ held) ∧ new.head? = some head ∧
      Chained (fun b => (s'.mblk b).b_cont) new) ∨
    ∃ s', dupLoop v head n bp bp1 s = some (none, s') ∧ Filed v s'.toMem held ∧
      Shares m₀ s'.toMem held [] := by
  induction rest generalizing done older n bp bp1 s mfree dfree with
  | nil =>
    have hbp : (s.mblk bp).b_cont = none := by
      rw [hs.mblk bp (hl bp (by simp))]
      exact hc₀.1
    refine .inl ⟨s, (bp1 :: older).reverse, dupLoop_end hbp, ?_, hhead, hc⟩
    exact Filed.perm ⟨mfree, dfree, hm, hd⟩ ((List.reverse_perm _).symm.append_right held)
  | cons b rest ih =>
    have hbp : (s.mblk bp).b_cont = some b := by
      rw [hs.mblk bp (hl bp (by simp))]
      exact hc₀.1
    obtain ⟨n, rfl⟩ : ∃ n', n = n' + 1 := ⟨n - 1, by simp at hlen; omega⟩
    rw [dupLoop_next hbp]
    have hnodup := hm.nodup.of_append_right
    have hbp1 : bp1 ∉ held := fun h =>
      (List.nodup_cons.1 (List.cons_append ▸ hnodup)).1 (List.mem_append_right older h)
    have hold : ∀ c ∈ (done ++ [bp]).reverse, c ∈ held := by
      intro c hc
      rw [List.mem_reverse, List.mem_append, List.mem_singleton] at hc
      rcases hc with hc | rfl
      · exact hl c (List.mem_append_left _ hc)
      · exact hl c (List.mem_append_right done List.mem_cons_self)
    cases mfree with
    | nil =>
      -- no message block is left: the duplicates are freed
      rw [dupb_none hm.head, Option.bind_some]
      have hlast : (s.mblk bp1).b_cont = none := by
        rw [List.reverse_cons] at hc
        exact hc.next_eq
      have hcont (c : ℕ) : ((s.toMem.setCont bp1 none).mblk c).b_cont = (s.mblk c).b_cont := by
        by_cases hcb : c = bp1
        · subst hcb
          simp [Mem.setCont, hlast]
        · exact setCont_cont_of_ne _ _ hcb
      have hlen' : (bp1 :: older).reverse.length ≤ v.nmblock := by
        have := hm.all.length_eq
        simp only [List.nil_append, List.length_append, List.length_range] at this
        rw [List.length_reverse]
        omega
      have hs' : Shares m₀ (s.toMem.setCont bp1 none) held (bp1 :: older) := hs.setCont hbp1 none
      have hshared : ∀ c ∈ bp1 :: older, ∃ e ∈ held,
          ((s.toMem.setCont bp1 none).mblk e).b_datap =
            ((s.toMem.setCont bp1 none).mblk c).b_datap :=
        hs'.shared (by simpa only [setCont_datap] using hnew) hold
      have hf : Filed v (s.toMem.setCont bp1 none) (bp1 :: older ++ held) :=
        ⟨[], dfree, hm.setCont bp1 none, hd.setCont bp1 none⟩
      have hp := (List.reverse_perm (bp1 :: older)).symm
      obtain ⟨m', hm', hf', hs''⟩ := (hs'.perm hp).freemsg
        (hf.perm (hp.append_right held)) hlen'
        (hc.congr fun c _ => hcont c) fun c hc => hshared c (List.mem_reverse.1 hc)
      rw [hhead] at hm'
      exact .inr ⟨{ s with toMem := m' }, by simp only [hm', Option.map_some], hf', hs''⟩
    | cons bp1' mfree =>
      have hb : b ∈ held := hl b (by simp)
      obtain ⟨d, -, hbd⟩ := hd.data b (List.mem_append_right _ hb)
      have hbd₀ : (m₀.mblk b).b_datap = some d := by rw [← hs.mblk b hb, hbd]
      have hr : (s.dblk d).db_ref < 255 := by
        rw [hs.dblk d, refs_map hnew, refs_perm (List.reverse_perm _)]
        have hroom' : Room m₀ (done ++ [bp] ++ b :: rest)
            ((done ++ [bp]).length + (mfree.length + 1)) := by
          simpa [add_assoc] using hroom
        exact hroom'.lt hbd₀
      obtain ⟨s', hs', hm', hd', hsh, hend, hdata, hother⟩ := dupb_step hm hd hs hb hbd hr
      have hne : ∀ c ∈ bp1 :: older ++ held, c ≠ bp1' := fun c hc he => hm.not_mem (he ▸ hc)
      rw [hs', Option.bind_some]
      have hb₁ : bp1' ≠ bp1 := (hne bp1 (by simp)).symm
      have hmap : (bp1' :: bp1 :: older).map
          (fun c => ((s'.toMem.setCont bp1 (some bp1')).mblk c).b_datap) =
          (done ++ [bp] ++ [b]).reverse.map fun c => (m₀.mblk c).b_datap := by
        simp only [setCont_datap]
        rw [List.map_cons, hdata, List.reverse_append, List.map_append, ← hnew]
        refine congrArg₂ List.cons hbd₀.symm (List.map_congr_left fun c hc => ?_)
        rw [hother c (hne c (List.mem_append_left held hc))]
      have hl' : ∀ c ∈ done ++ [bp] ++ b :: rest, c ∈ held := by simpa using hl
      refine ih hl' hc₀.2 (by simpa [add_assoc, add_comm, add_left_comm] using hroom)
        (by simpa using hlen) (hm'.setCont bp1 _) (hd'.setCont bp1 _) (hsh.setCont hbp1 _)
        ?_ ?_ hmap
      · rw [List.reverse_cons]
        refine hc.concat (List.nodup_reverse.2 hnodup.of_append_left) ?_ fun c hc => ?_
        · exact (setCont_cont_of_ne _ _ hb₁).trans hend
        · rw [List.mem_reverse] at hc
          rw [List.getLast?_reverse, List.head?_cons]
          by_cases hcb : c = bp1
          · subst hcb
            simp [Mem.setCont]
          · rw [if_neg (by simpa using Ne.symm hcb)]
            refine (setCont_cont_of_ne _ _ hcb).trans ?_
            rw [hother c (hne c (List.mem_append_left held hc))]
      · rw [List.reverse_cons, List.head?_append, hhead]
        rfl

/-- `dupmsg` duplicates a message whose blocks are in use, or leaves the free lists as
    they were. -/
theorem Filed.dupmsg {s : Pool} {bp : ℕ} {l : List ℕ} {n : ℕ} (h : Filed v s.toMem held)
    (hlen : l.length ≤ v.nmblock) (hl : ∀ b ∈ l, b ∈ held)
    (hc : Chained (fun b => (s.mblk b).b_cont) l) (hhead : l.head? = some bp)
    (hn : n = v.nmblock - held.length) (hroom : Room s.toMem l n) :
    (∃ s' new, dupmsg v (some bp) s = some (new.head?, s') ∧ new ≠ [] ∧
      Filed v s'.toMem (new ++ held) ∧ Chained (fun b => (s'.mblk b).b_cont) new) ∨
    ∃ s', dupmsg v (some bp) s = some (none, s') ∧ Filed v s'.toMem held ∧
      SameFree s.toMem s'.toMem := by
  have hf := h
  obtain ⟨mfree, dfree, hm, hd⟩ := h
  obtain ⟨rest, rfl⟩ : ∃ rest, l = bp :: rest := by
    cases l with
    | nil => exact nomatch hhead
    | cons b rest =>
      obtain rfl := Option.some.inj hhead
      exact ⟨rest, rfl⟩
  have hk : n = mfree.length := by
    have := hm.all.length_eq
    rw [List.length_append, List.length_range] at this
    omega
  subst hk
  cases mfree with
  | nil =>
    refine .inr ⟨s, ?_, hf, hf.sameFree_refl⟩
    rw [Stream.dupmsg, dupb_none hm.head, Option.bind_some]
  | cons bp1 mfree =>
    have hb : bp ∈ held := hl bp List.mem_cons_self
    obtain ⟨d, -, hbd⟩ := hd.data bp hb
    have hr : (s.dblk d).db_ref < 255 := by
      have hroom' : Room s.toMem ([] ++ bp :: rest)
          (([] : List ℕ).length + (mfree.length + 1)) := by
        simpa using hroom
      exact hroom'.lt hbd
    obtain ⟨s', hs', hm', hd', hsh, hend, hdata, hother⟩ :=
      dupb_step (show MsgFree v s.toMem ([] ++ held) (bp1 :: mfree) from hm) hd
        (.refl s.toMem held) hb hbd hr
    have hspec := dupLoop_spec (n := v.nmblock)
      (show ∀ b ∈ [] ++ bp :: rest, b ∈ held from hl) hc
      (by simpa [add_comm] using hroom) (by simp at hlen; omega)
      (show MsgFree v s'.toMem ([bp1] ++ held) mfree from hm') hd' hsh ⟨hend, trivial⟩
      (show [bp1].head? = some bp1 from rfl) (by simp [hdata, hbd])
    have hdup : Stream.dupmsg v (some bp) s = dupLoop v bp1 v.nmblock bp bp1 s' := by
      rw [Stream.dupmsg, hs', Option.bind_some]
    rw [hdup]
    rcases hspec with ⟨s'', new, hs'', hf'', hnew, hc''⟩ | ⟨s'', hs'', hf'', hsh''⟩
    · cases new with
      | nil => exact nomatch hnew
      | cons b new =>
        obtain rfl := Option.some.inj hnew
        exact .inl ⟨s'', b :: new, hs'', List.cons_ne_nil _ _, hf'', hc''⟩
    · exact .inr ⟨s'', hs'', hf'', hf.sameFree hf'' hsh''.eq.1 hsh''.eq.2⟩

/-! ## Allocation -/

theorem findData_head {size : ℤ} {c d : ℕ} (h : findData m size = some (c, d)) :
    m.dbfreelist c = some d := by
  rw [findData] at h
  by_cases hc : getclass size ≥ NCLASS
  · simp [hc] at h
  simp only [hc, if_false] at h
  split at h
  next d' hd' =>
    obtain ⟨rfl, rfl⟩ := Prod.mk.inj (Option.some.inj h)
    exact hd'
  · split_ifs at h
    obtain ⟨d', hd', he⟩ := Option.map_eq_some_iff.1 h
    obtain ⟨rfl, rfl⟩ := Prod.mk.inj he
    exact hd'

/-- If no message block is left, the data block found is the last one on its list, so that
    the list is not lost when it is put back. -/
def Pool.Last (s : Pool) (size : ℤ) : Prop :=
  s.dblkflag = false → s.mbfreelist = none →
    ∀ x ∈ findData s.toMem size, (s.dblk x.2).db_freep = none

instance (s : Pool) (size : ℤ) : Decidable (s.Last size) :=
  inferInstanceAs (Decidable (s.dblkflag = false → s.mbfreelist = none →
    ∀ x ∈ findData s.toMem size, (s.dblk x.2).db_freep = none))

/-- An allocation takes a message block and a data block into use, or it leaves all as it
    was. -/
theorem Filed.allocb {s s' : Pool} {size : ℤ} {r : Option ℕ} (h : Filed v s.toMem held)
    (hlast : s.Last size) (hs : allocb size s = (r, s')) :
    Filed v s'.toMem (r.toList ++ held) ∧ (r = none → s' = s) := by
  rw [Stream.allocb] at hs
  split_ifs at hs with hflag
  · obtain ⟨rfl, rfl⟩ := Prod.mk.inj hs
    exact ⟨h, fun _ => rfl⟩
  split at hs
  · obtain ⟨rfl, rfl⟩ := Prod.mk.inj hs
    exact ⟨h, fun _ => rfl⟩
  next c d hcd =>
    have hhead := findData_head hcd
    dsimp only at hs
    split at hs
    next hmb =>
      obtain ⟨rfl, rfl⟩ := Prod.mk.inj hs
      have hfreep : (s.dblk d).db_freep = none :=
        hlast (by simpa using hflag) hmb (c, d) hcd
      have hsame : ({ s with toMem := { takeData c d s.toMem with
          dbfreelist := Function.update (takeData c d s.toMem).dbfreelist c (some d) } } : Pool)
          = s := by
        simp only [takeData, Function.update_idem, ← hhead, Function.update_eq_self, ← hfreep]
      exact ⟨by rw [hsame]; exact h, fun _ => hsame⟩
    next bp hbp =>
      obtain ⟨rfl, rfl⟩ := Prod.mk.inj hs
      refine ⟨?_, nofun⟩
      obtain ⟨mfree, dfree, hm, hd⟩ := h
      obtain ⟨mfree, rfl⟩ : ∃ l, mfree = bp :: l := by
        cases mfree with
        | nil => exact absurd (hm.head.symm.trans hbp) (by simp)
        | cons b mfree =>
          obtain rfl : b = bp := Option.some.inj (hm.head.symm.trans hbp)
          exact ⟨mfree, rfl⟩
      obtain ⟨ds, hds⟩ : ∃ ds, dfree c = d :: ds := by
        have hd' := (hd.head c).symm.trans hhead
        cases hc : dfree c with
        | nil => exact absurd hd' (by simp [hc])
        | cons e ds =>
          obtain rfl : e = d := Option.some.inj (by simpa [hc] using hd')
          exact ⟨ds, rfl⟩
      refine ⟨mfree, Function.update dfree c ds, hm.take rfl fun b hb => ?_,
        hd.alloc hds hm.not_mem rfl (fun e he => ?_) ?_ ?_ ?_ fun b hb => ?_⟩ <;>
      simp_all [takeMsg, takeData]

/-! ## Calls -/

/-- A step loses no block: where message blocks have run out, it finds no more than the
    last data block of a class; and it leaves no reference count past 255. -/
def Call.Clean (v : Tables) (s : Blocks) : Call → Prop
  | .allocb size => s.pool.Last size
  | .copyb bp => ∀ d ∈ (s.pool.mblk bp).b_datap, s.pool.Last (s.pool.db_lim d - s.pool.db_base d)
  | .dupb bp => s.pool.mbfreelist ≠ none →
      ∀ d ∈ (s.pool.mblk bp).b_datap, (s.pool.dblk d).db_ref < 255
  | .dupmsg bp => ∀ l ∈ msgBlocks s.pool.toMem v.nmblock bp,
      Room s.pool.toMem l (v.nmblock - s.held.length)
  | .freeb _ | .freemsg _ | .link _ _ _ _ => True

instance (s : Blocks) : (a : Call) → Decidable (a.Clean v s)
  | .allocb size => inferInstanceAs (Decidable (s.pool.Last size))
  | .copyb bp => inferInstanceAs (Decidable (∀ d ∈ (s.pool.mblk bp).b_datap,
      s.pool.Last (s.pool.db_lim d - s.pool.db_base d)))
  | .dupb bp => inferInstanceAs (Decidable (s.pool.mbfreelist ≠ none →
      ∀ d ∈ (s.pool.mblk bp).b_datap, (s.pool.dblk d).db_ref < 255))
  | .dupmsg bp => inferInstanceAs (Decidable (∀ l ∈ msgBlocks s.pool.toMem v.nmblock bp,
      Room s.pool.toMem l (v.nmblock - s.held.length)))
  | .freeb _ | .freemsg _ | .link _ _ _ _ => inferInstanceAs (Decidable True)

theorem Filed.dupb {s s' : Pool} {bp : ℕ} {r : Option ℕ} (h : Filed v s.toMem held)
    (hb : bp ∈ held)
    (hroom : s.mbfreelist ≠ none → ∀ d ∈ (s.mblk bp).b_datap, (s.dblk d).db_ref < 255)
    (hs : dupb bp s = some (r, s')) :
    Filed v s'.toMem (r.toList ++ held) ∧ (r = none → s' = s) := by
  have hf := h
  obtain ⟨mfree, dfree, hm, hd⟩ := h
  cases mfree with
  | nil =>
    rw [dupb_none hm.head] at hs
    obtain ⟨rfl, rfl⟩ := Prod.mk.inj (Option.some.inj hs)
    exact ⟨hf, fun _ => rfl⟩
  | cons bp1 mfree =>
    obtain ⟨d, -, hbd⟩ := hd.data bp hb
    obtain ⟨s'', hs'', hm', hd', -⟩ := dupb_step
      (show MsgFree v s.toMem ([] ++ held) (bp1 :: mfree) from hm) hd (.refl s.toMem held) hb hbd
      (hroom (by simp [hm.head]) d hbd)
    rw [hs''] at hs
    obtain ⟨rfl, rfl⟩ := Prod.mk.inj (Option.some.inj hs)
    exact ⟨⟨mfree, dfree, hm', hd'⟩, nofun⟩

/-- What the blocks are used for does not matter. -/
theorem Filed.congr (h : Filed v m held) (hm : m'.mbfreelist = m.mbfreelist)
    (hd : m'.dbfreelist = m.dbfreelist) (hb : m'.mblk = m.mblk)
    (hdb : ∀ d, (m'.dblk d).db_freep = (m.dblk d).db_freep ∧
      (m'.dblk d).db_ref = (m.dblk d).db_ref ∧ (m'.dblk d).db_class = (m.dblk d).db_class) :
    Filed v m' held := by
  obtain ⟨mfree, dfree, h₁, h₂⟩ := h
  exact ⟨mfree, dfree, h₁.congr hm fun b _ => by rw [hb],
    h₂.congr hd hdb fun b _ => by rw [hb]⟩

theorem Filed.copyb {s s' : Pool} {bp : ℕ} {r : Option ℕ} (h : Filed v s.toMem held)
    (hlast : ∀ d ∈ (s.mblk bp).b_datap, s.Last (s.db_lim d - s.db_base d))
    (hs : copyb bp s = some (r, s')) :
    Filed v s'.toMem (r.toList ++ held) ∧ (r = none → s' = s) := by
  obtain ⟨dp, hdp, hs⟩ := Option.bind_eq_some_iff.1 hs
  cases halloc : Stream.allocb (s.db_lim dp - s.db_base dp) s with
  | mk r' t =>
    obtain ⟨hf, hnone⟩ := h.allocb (hlast dp hdp) halloc
    simp only [halloc] at hs
    cases r' with
    | none =>
      obtain ⟨rfl, rfl⟩ := Prod.mk.inj (Option.some.inj hs)
      exact ⟨hf, fun _ => hnone rfl⟩
    | some bp1 =>
      obtain ⟨ndp, -, he⟩ := Option.map_eq_some_iff.1 hs
      obtain ⟨rfl, rfl⟩ := Prod.mk.inj he
      refine ⟨hf.congr rfl rfl rfl fun d => ?_, nofun⟩
      by_cases hd : d = ndp
      · subst hd
        simp
      · simp [hd]

/-- A call that allocates keeps all blocks filed, and leaves the free lists as they were if
    it returns no block. -/
theorem Filed.alloc {s s' : Blocks} {a : Call} {r : Option ℕ} (h : Filed v s.pool.toMem s.held)
    (ha : a.Holds v s) (hc : a.Clean v s) (hr : Stream.alloc v s a = some (r, s')) :
    Filed v s'.pool.toMem s'.held ∧ (r = none → SameFree s.pool.toMem s'.pool.toMem) := by
  cases a with
  | allocb size =>
    obtain ⟨rfl, rfl⟩ := Prod.mk.inj (Option.some.inj hr)
    obtain ⟨hf, hnone⟩ := h.allocb hc rfl
    exact ⟨hf, fun hn => by rw [hnone hn]; exact h.sameFree_refl⟩
  | dupb bp =>
    obtain ⟨⟨r', pool⟩, hs, he⟩ := Option.map_eq_some_iff.1 hr
    obtain ⟨rfl, rfl⟩ := Prod.mk.inj he
    obtain ⟨hf, hnone⟩ := h.dupb ha hc hs
    exact ⟨hf, fun hn => by rw [hnone hn]; exact h.sameFree_refl⟩
  | copyb bp =>
    obtain ⟨⟨r', pool⟩, hs, he⟩ := Option.map_eq_some_iff.1 hr
    obtain ⟨rfl, rfl⟩ := Prod.mk.inj he
    obtain ⟨hf, hnone⟩ := h.copyb hc hs
    exact ⟨hf, fun hn => by rw [hnone hn]; exact h.sameFree_refl⟩
  | dupmsg bp =>
    obtain ⟨⟨r', pool⟩, hs, hr⟩ := Option.bind_eq_some_iff.1 hr
    obtain ⟨new, hnew, he⟩ := Option.map_eq_some_iff.1 hr
    obtain ⟨rfl, rfl⟩ := Prod.mk.inj he
    cases bp with
    | none =>
      obtain ⟨rfl, rfl⟩ := Prod.mk.inj (Option.some.inj hs)
      have hnil : new = [] := by
        cases hv : v.nmblock <;> simpa [hv, msgBlocks, eq_comm] using hnew
      subst hnil
      exact ⟨h, fun _ => h.sameFree_refl⟩
    | some bp =>
      obtain ⟨l, hl, -, hheld⟩ := ha
      obtain ⟨hhead, hlen, hch⟩ := msgBlocks_chained hl
      rcases h.dupmsg hlen hheld hch hhead rfl (hc l hl) with
        ⟨t, new', ht, hne, hf, hch'⟩ | ⟨t, ht, hf, hsame⟩
      · obtain ⟨rfl, rfl⟩ := Prod.mk.inj (Option.some.inj (ht.symm.trans hs))
        have hlen' : new'.length ≤ v.nmblock := by
          obtain ⟨mfree, dfree, hm, -⟩ := hf
          have := hm.all.length_eq
          simp only [List.length_append, List.length_range] at this
          omega
        obtain rfl : new = new' :=
          Option.some.inj (hnew.symm.trans (msgBlocks_of_chained hlen' hch'))
        exact ⟨hf, fun hn => absurd (List.head?_eq_none_iff.1 hn) hne⟩
      · obtain ⟨rfl, rfl⟩ := Prod.mk.inj (Option.some.inj (ht.symm.trans hs))
        have hnil : new = [] := by
          cases hv : v.nmblock <;> simpa [hv, msgBlocks, eq_comm] using hnew
        subst hnil
        exact ⟨hf, fun _ => hsame⟩
  | freeb bp => exact nomatch hr
  | freemsg bp => exact nomatch hr
  | link bp b_next b_prev b_cont => exact nomatch hr

/-- A holder links a message block to others. -/
theorem Filed.link {bp : ℕ} (h : Filed v m held) (hb : bp ∈ held) {b : Mblk}
    (hdatap : b.b_datap = (m.mblk bp).b_datap) :
    Filed v { m with mblk := Function.update m.mblk bp b } held := by
  obtain ⟨mfree, dfree, hm, hd⟩ := h
  refine ⟨mfree, dfree, hm.congr rfl fun c hc => ?_, hd.congr rfl (fun _ => ⟨rfl, rfl, rfl⟩)
    fun c _ => ?_⟩
  · have hne : c ≠ bp := fun he => hc (he ▸ hb)
    simp [hne]
  · by_cases hbb : c = bp
    · subst hbb
      simpa using hdatap
    · simp [hbb]

/-- Each call keeps all blocks filed. -/
theorem Filed.call {s s' : Blocks} {a : Call} (h : Filed v s.pool.toMem s.held)
    (ha : a.Holds v s) (hc : a.Clean v s) (hs : Stream.call v s a = some s') :
    Filed v s'.pool.toMem s'.held := by
  have halloc (hs : (Stream.alloc v s a).map Prod.snd = some s') :
      Filed v s'.pool.toMem s'.held := by
    obtain ⟨⟨r, t⟩, hr, rfl⟩ := Option.map_eq_some_iff.1 hs
    exact (h.alloc ha hc hr).1
  cases a with
  | allocb size => exact halloc hs
  | dupb bp => exact halloc hs
  | copyb bp => exact halloc hs
  | dupmsg bp => exact halloc hs
  | freeb bp =>
    obtain ⟨m, hm, rfl⟩ := Option.map_eq_some_iff.1 hs
    obtain ⟨m', hm', hf, -⟩ := h.freeb ha
    obtain rfl : m' = m := Option.some.inj (hm'.symm.trans hm)
    exact hf
  | freemsg bp =>
    obtain ⟨l, hl, hn, hheld⟩ := ha
    obtain ⟨l', hl', hs⟩ := Option.bind_eq_some_iff.1 hs
    obtain rfl : l = l' := Option.some.inj (hl.symm.trans hl')
    obtain ⟨m, hm, rfl⟩ := Option.map_eq_some_iff.1 hs
    obtain ⟨hhead, hlen, hch⟩ := msgBlocks_chained hl
    have hp : s.held.Perm (l ++ s.held.diff l) := by
      refine (List.subperm_append_diff_self_of_count_le fun b hb => ?_).symm
      rw [List.count_eq_one_of_mem hn hb]
      exact List.count_pos_iff.2 (hheld b hb)
    obtain ⟨m', hm', hf⟩ := (h.perm hp).freemsg hlen hch
    rw [hhead] at hm'
    obtain rfl : m' = m := Option.some.inj (hm'.symm.trans hm)
    exact hf
  | link bp b_next b_prev b_cont =>
    obtain rfl := Option.some.inj hs
    exact h.link ha rfl

/-! ## Initialization -/

theorem initMsg_fold (l : List ℕ) (hl : l.Nodup) (hm : m.mbfreelist = none) :
    (l.foldl initMsg m).mbfreelist = l.reverse.head? ∧
      Chained (fun b => ((l.foldl initMsg m).mblk b).b_next) l.reverse ∧
      (l.foldl initMsg m).dblk = m.dblk ∧ (l.foldl initMsg m).dbfreelist = m.dbfreelist := by
  induction l using List.reverseRecOn with
  | nil => exact ⟨hm, trivial, rfl, rfl⟩
  | append_singleton l b ih =>
    obtain ⟨hhead, hc, hd, hdl⟩ := ih hl.of_append_left
    rw [List.foldl_concat, List.reverse_concat]
    refine ⟨rfl, ⟨by simp [initMsg, hhead], hc.congr fun c hc' => ?_⟩, hd, hdl⟩
    have hne : c ≠ b := by
      rintro rfl
      exact List.disjoint_of_nodup_append hl (List.mem_reverse.1 hc') (List.mem_singleton_self c)
    simp [initMsg, hne]

theorem initData_fold (l : List ℕ) (hl : l.Nodup) (hm : ∀ c, m.dbfreelist c = none) :
    (∀ c, (l.foldl (initData v) m).dbfreelist c = (l.filter (v.cls · = c)).reverse.head? ∧
      Chained (fun d => ((l.foldl (initData v) m).dblk d).db_freep)
        (l.filter (v.cls · = c)).reverse) ∧
      (∀ d ∈ l, ((l.foldl (initData v) m).dblk d).db_class = v.cls d) ∧
      (l.foldl (initData v) m).mbfreelist = m.mbfreelist := by
  induction l using List.reverseRecOn with
  | nil => exact ⟨fun c => ⟨hm c, trivial⟩, nofun, rfl⟩
  | append_singleton l d ih =>
    obtain ⟨hlist, hcls, hmb⟩ := ih hl.of_append_left
    have hnot : d ∉ l := fun hd =>
      List.disjoint_of_nodup_append hl hd (List.mem_singleton_self d)
    rw [List.foldl_concat]
    have hold (c : ℕ) : Chained (fun e => ((initData v (l.foldl (initData v) m) d).dblk e).db_freep)
        (l.filter (v.cls · = c)).reverse := by
      refine (hlist c).2.congr fun e he => ?_
      have hne : e ≠ d := by
        rintro rfl
        exact hnot (List.mem_of_mem_filter (List.mem_reverse.1 he))
      simp [initData, hne]
    refine ⟨fun c => ?_, fun e he => ?_, hmb⟩
    · by_cases hc : v.cls d = c
      · subst hc
        rw [List.filter_append, List.filter_singleton, decide_eq_true rfl, cond_true,
          List.reverse_concat]
        exact ⟨by simp [initData], by simp [initData, (hlist (v.cls d)).1], hold (v.cls d)⟩
      · rw [List.filter_append, List.filter_singleton, decide_eq_false hc, cond_false,
          List.append_nil]
        exact ⟨by simp [initData, Ne.symm hc, (hlist c).1], hold c⟩
    · by_cases hed : e = d
      · subst hed
        simp [initData]
      · simpa [initData, hed] using hcls e (by simpa [hed] using he)

/-- All blocks are free in the beginning. -/
theorem filed_qinit (hm : m.mbfreelist = none) (hd : ∀ c, m.dbfreelist c = none) :
    Filed v (qinit v m) [] := by
  obtain ⟨hlist, hcls, hmb⟩ := initData_fold (v := v) (List.range v.ndblock) List.nodup_range hd
  obtain ⟨hhead, hc, hdb, hdl⟩ := initMsg_fold (List.range v.nmblock) List.nodup_range
    (hmb.trans hm)
  refine ⟨(List.range v.nmblock).reverse,
    fun c => ((List.range v.ndblock).filter (v.cls · = c)).reverse, ⟨hhead, hc, ?_⟩, ?_⟩
  · rw [List.append_nil]
    exact List.reverse_perm _
  · refine ⟨fun c => ?_, fun c => ?_, fun c => ?_, fun c d => ?_, fun d hd => absurd rfl hd,
      fun d hd => ?_, nofun⟩
    · rw [qinit, hdl]
      exact (hlist c).1
    · rw [qinit, hdb]
      exact (hlist c).2
    · exact List.nodup_reverse.2 (List.nodup_range.filter _)
    · simp [refs]
    · rw [qinit, hdb]
      exact hcls d (List.mem_range.2 hd)

/-! ## Runs -/

/-- Runs whose steps are clean lose no block. -/
theorem filed_of_clean {s : Blocks} (hs : (blocks v).ReachableIf (fun s a => a.Clean v s) s) :
    Filed v s.pool.toMem s.held := by
  refine Machine.ReachableIf.invariant (P := fun s => Filed v s.pool.toMem s.held)
    (fun s hinit => ?_) (fun s a s' h hc hn => ?_) hs
  · obtain ⟨m, hm, hd, hpool, hheld⟩ := hinit
    rw [hpool, hheld]
    exact filed_qinit hm hd
  · have hn' : (if a.Holds v s then call v s a else none) = some s' := hn
    split_ifs at hn' with ha
    exact h.call ha hc hn'

/-- Whatever blocks are allocated, shared, copied and freed: each message block is on its
    free list once, or in use; each data block is on that of its class, once, or shared by
    as many blocks in use as it counts; and a call that returns no block leaves the free
    lists and the counts as they were. This holds as long as, when message blocks have run
    out, no more than one data block is left in the class an allocation comes to, and no
    data block is shared by more than 255 blocks. -/
theorem conserved_of_clean : ∀ (v : Tables) (s : Blocks),
    (blocks v).ReachableIf (fun s a => a.Clean v s) s →
      Filed v s.pool.toMem s.held ∧
        ∀ (a : Call) (s' : Blocks), a.Holds v s → a.Clean v s → alloc v s a = some (none, s') →
          SameFree s.pool.toMem s'.pool.toMem :=
  fun _ _ hs => ⟨filed_of_clean hs, fun _ _ ha hc hr => ((filed_of_clean hs).alloc ha hc hr).2 rfl⟩

/-! ## Concrete runs -/

/-- Four blocks of four bytes, with the message blocks for them. -/
def smallTables : Tables := ⟨5, 4, fun _ => 0⟩

def noBlocks : Mem :=
  ⟨fun _ => ⟨none, none, none, none⟩, fun _ => ⟨none, 0, 0, 0⟩, none, fun _ => none⟩

def smallPool : Blocks :=
  ⟨⟨qinit smallTables noBlocks, false, fun _ => 0, fun _ => 0, fun _ => 0, fun _ => 0,
    fun _ => 0⟩, []⟩

theorem init_smallPool : (blocks smallTables).init smallPool :=
  ⟨noBlocks, rfl, fun _ => rfl, rfl, rfl⟩

/-- A message of two blocks is duplicated and copied, and the duplicate freed. -/
theorem conserved_dupmsg : ∃ s, (blocks smallTables).runIf (fun s a => a.Clean smallTables s)
    smallPool [.allocb 3, .allocb 4, .link 4 none none (some 3), .dupmsg (some 4), .copyb 4,
      .freemsg (some 2)] = some s ∧ Filed smallTables s.pool.toMem s.held := by
  obtain ⟨s, hs⟩ : ∃ s, (blocks smallTables).runIf (fun s a => a.Clean smallTables s)
      smallPool [.allocb 3, .allocb 4, .link 4 none none (some 3), .dupmsg (some 4), .copyb 4,
        .freemsg (some 2)] = some s := ⟨_, rfl⟩
  exact ⟨s, hs, (conserved_of_clean smallTables s
    (Machine.reachableIf_runIf (.init init_smallPool) hs)).1⟩

/-- A block is allocated, and shared by all message blocks there are; then `allocb` finds a
    data block, but no message block. -/
def lossActs : List Call := [.allocb 3, .dupb 4, .dupb 4, .dupb 4, .dupb 4, .allocb 3]

/-- It puts the data block back in front of nothing: two more, behind it, are lost. -/
theorem not_conserved : ¬∀ (v : Tables) (s : Blocks), (blocks v).Reachable s →
    Filed v s.pool.toMem s.held ∧
      ∀ (a : Call) (s' : Blocks), a.Holds v s → alloc v s a = some (none, s') →
        SameFree s.pool.toMem s'.pool.toMem := by
  intro h
  have hx : ((blocks smallTables).run smallPool lossActs).map
      (fun s => (s.pool.dbfreelist 0, (s.pool.dblk 2).db_freep, refs s.pool.toMem s.held 1)) =
        some (some 2, none, 0) := by
    decide
  obtain ⟨s, hs, hx⟩ := Option.map_eq_some_iff.1 hx
  simp only [Prod.mk.injEq] at hx
  obtain ⟨hhead, hfreep, hrefs⟩ := hx
  obtain ⟨-, dfree, -, hd⟩ := (h smallTables s (Machine.reachableIf_run (.init init_smallPool)
    (fun _ _ _ => trivial) hs)).1
  have hlist : dfree 0 = [2] :=
    (hd.chain 0).unique ⟨hfreep, trivial⟩ ((hd.head 0).symm.trans hhead)
  have hmem : 1 ∈ dfree 0 := (hd.mem 0 1).2 ⟨by decide, rfl, hrefs⟩
  exact absurd (hlist ▸ hmem) (by decide)

end AuxKernel.Stream
