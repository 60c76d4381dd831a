import AuxKernel.Net.Cluster
import Mathlib.Data.List.Forall2
import Mathlib.Data.List.Perm.Basic
import Mathlib.Tactic.SplitIfs

/-!
# The reference counts of clusters

`mclrefcnt` counts the mbufs whose data lie in a cluster (`Pool.Counts`): every call
keeps this as long as the data pointer stays in the cluster, and the count in a `char`
(`clusterCounts_of_clean`). `m_pullup` can move the pointer to the end of the cluster,
and then gives up the next one (`not_clusterCounts`).
-/

namespace AuxKernel.Net.Cluster

open List (countP)

/-- The data of an mbuf with a cluster do not go past its end. -/
structure Mbuf.Fits (m : Mbuf) : Prop where
  range : m.place = .cluster → 0 ≤ m.mtoclx ∧ m.mtoclx < NMBCLUSTERS
  le_end : m.place = .cluster → m.m_off + m.m_len ≤ (m.mtoclx + 1) * MCLBYTES
  m_len : m.place = .cluster → -2 ^ 15 ≤ m.m_len

/-- The data of `m'` are in the same cluster as those of `m`. -/
structure Mbuf.Like (m m' : Mbuf) : Prop where
  fits : m'.Fits
  refersTo : ∀ c, m'.refersTo c = m.refersTo c

namespace Mbuf

variable {m m' : Mbuf}

theorem Fits.of_inside (h : m.place ≠ .cluster) : m.Fits :=
  ⟨fun hc => absurd hc h, fun hc => absurd hc h, fun hc => absurd hc h⟩

theorem refersTo_eq_false (h : m.place ≠ .cluster) (c : ℤ) : m.refersTo c = false := by
  simp [refersTo, h]

theorem refersTo_iff (h : m.place = .cluster) (c : ℤ) : m.refersTo c ↔ m.mtoclx = c := by
  simp [refersTo, h]

/-- The length may shrink. -/
theorem Fits.shrink (h : m.Fits) {m_len : ℤ} (hle : m_len ≤ m.m_len) (hge : -2 ^ 15 ≤ m_len) :
    Like m { m with m_len := m_len } :=
  ⟨⟨h.range, fun hc => le_trans (by simp only; omega) (h.le_end hc), fun _ => hge⟩, fun _ => rfl⟩

/-- The pointer may move on while there are data left. -/
theorem Fits.advance (h : m.Fits) {count : ℤ} (h₀ : 0 ≤ count) (hlt : count < m.m_len) :
    Like m (m.advance count) := by
  by_cases hc : m.place = .cluster
  · have hle := h.le_end hc
    have heq : (m.advance count).mtoclx = m.mtoclx := by
      rw [mtoclx, MCLBYTES] at hle
      simp only [mtoclx, Mbuf.advance, MCLBYTES]
      omega
    refine ⟨⟨fun _ => heq ▸ h.range hc, fun _ => ?_, fun _ => ?_⟩, fun c => ?_⟩
    · rw [heq]
      simp only [Mbuf.advance]
      omega
    · simp only [Mbuf.advance]
      omega
    · simp only [refersTo, heq]
      rfl
  · exact ⟨.of_inside hc, fun c => (refersTo_eq_false (m := m.advance count) hc c).trans
      (refersTo_eq_false hc c).symm⟩

end Mbuf

/-- The pool counts the references of the mbufs `live`. -/
structure Pool.Counts (p : Pool) (live : List Mbuf) : Prop where
  fits : ∀ m ∈ live, m.Fits
  mclrefcnt : ∀ c, p.mclrefcnt c = countP (Mbuf.refersTo c) live
  small : ∀ c, countP (Mbuf.refersTo c) live ≤ 127
  nodup : p.mclfree.Nodup
  mem_mclfree : ∀ c, c ∈ p.mclfree ↔ (0 ≤ c ∧ c < NMBCLUSTERS) ∧ p.mclrefcnt c = 0

namespace Pool

variable {p p' : Pool} {live live' l l' : List Mbuf} {m m' : Mbuf}

theorem Counts.perm (h : p.Counts live) (hp : live.Perm live') : p.Counts live' where
  fits m hm := h.fits m (hp.mem_iff.2 hm)
  mclrefcnt c := by rw [h.mclrefcnt, hp.countP_eq]
  small c := hp.countP_eq _ ▸ h.small c
  nodup := h.nodup
  mem_mclfree := h.mem_mclfree

theorem Counts.mget (h : p.Counts live) (hp : p.MGET = some p') : p'.Counts live := by
  rw [MGET] at hp
  split_ifs at hp
  obtain rfl := Option.some.inj hp
  exact ⟨h.fits, h.mclrefcnt, h.small, h.nodup, h.mem_mclfree⟩

/-- Mbufs without clusters do not count. -/
theorem counts_cons (hm : m.place ≠ .cluster) : p.Counts (m :: live) ↔ p.Counts live := by
  have hcount (c : ℤ) : countP (Mbuf.refersTo c) (m :: live) = countP (Mbuf.refersTo c) live :=
    List.countP_cons_of_neg (by simp [Mbuf.refersTo_eq_false hm])
  constructor <;> intro h
  · exact ⟨fun q hq => h.fits q (List.mem_cons_of_mem m hq), fun c => hcount c ▸ h.mclrefcnt c,
      fun c => hcount c ▸ h.small c, h.nodup, h.mem_mclfree⟩
  · refine ⟨fun q hq => ?_, fun c => (hcount c).symm ▸ h.mclrefcnt c,
      fun c => (hcount c).symm ▸ h.small c, h.nodup, h.mem_mclfree⟩
    rcases List.mem_cons.1 hq with rfl | hq
    · exact .of_inside hm
    · exact h.fits q hq

/-- An mbuf may be replaced by one like it. -/
theorem Counts.like (h : p.Counts (m :: live)) (hm : m.Like m') : p.Counts (m' :: live) := by
  have hcount (c : ℤ) : countP (Mbuf.refersTo c) (m' :: live) =
      countP (Mbuf.refersTo c) (m :: live) := by
    rw [List.countP_cons, List.countP_cons, hm.refersTo]
  refine ⟨fun q hq => ?_, fun c => hcount c ▸ h.mclrefcnt c, fun c => hcount c ▸ h.small c,
    h.nodup, h.mem_mclfree⟩
  rcases List.mem_cons.1 hq with rfl | hq
  · exact hm.fits
  · exact h.fits q (List.mem_cons_of_mem m hq)

/-- The mbufs of a chain may be replaced by others like them. -/
theorem Counts.forall₂ (h : p.Counts (l ++ live))
    (hl : List.Forall₂ (fun m m' => m.Fits → m.Like m') l l') : p.Counts (l' ++ live) := by
  induction hl generalizing live with
  | nil => exact h
  | @cons m m' l l' hm _ ih =>
    have h' := h.like (hm (h.fits m (by simp)))
    have h'' : p.Counts (l ++ m' :: live) := h'.perm List.perm_middle.symm
    exact (ih h'').perm List.perm_middle

/-- Giving up a cluster: it becomes free with its last reference. -/
theorem Counts.mfree (h : p.Counts (m :: live)) : (p.MFREE m).Counts live := by
  rw [MFREE]
  by_cases hc : m.place = .cluster
  · rw [if_pos hc]
    have hcount (c : ℤ) : countP (Mbuf.refersTo c) (m :: live) =
        countP (Mbuf.refersTo c) live + if m.mtoclx = c then 1 else 0 := by
      rw [List.countP_cons]
      simp [Mbuf.refersTo_iff hc]
    have hfit := (h.fits m List.mem_cons_self).range hc
    have hself := hcount m.mtoclx
    rw [if_pos rfl] at hself
    have hsmall := h.small m.mtoclx
    have hchar : toChar (p.mclrefcnt m.mtoclx - 1) = countP (Mbuf.refersTo m.mtoclx) live := by
      rw [h.mclrefcnt, hself, toChar_of_mem (by omega) (by omega)]
      omega
    have hnot : m.mtoclx ∉ p.mclfree := fun hmem => by
      have := ((h.mem_mclfree _).1 hmem).2
      rw [h.mclrefcnt] at this
      omega
    refine ⟨fun q hq => h.fits q (List.mem_cons_of_mem m hq), fun c => ?_, fun c => ?_, ?_,
      fun c => ?_⟩
    · simp only [mclput, hchar]
      by_cases hcm : c = m.mtoclx
      · rw [hcm, Function.update_self]
      · rw [Function.update_of_ne hcm, h.mclrefcnt, hcount, if_neg (Ne.symm hcm), add_zero]
    · have := h.small c
      rw [hcount] at this
      omega
    · simp only [mclput]
      split_ifs
      · exact List.nodup_cons.2 ⟨hnot, h.nodup⟩
      · exact h.nodup
    · simp only [mclput, hchar]
      by_cases hcm : c = m.mtoclx
      · rw [hcm, Function.update_self]
        split_ifs with hz
        · simp [hfit, hz]
        · exact iff_of_false hnot fun hf => hz hf.2
      · rw [Function.update_of_ne hcm, ← h.mem_mclfree]
        split_ifs
        · simp [hcm]
        · rfl
  · rw [if_neg hc]
    have h' := (counts_cons hc).1 h
    exact ⟨h'.fits, h'.mclrefcnt, h'.small, h'.nodup, h'.mem_mclfree⟩

theorem Counts.freem (h : p.Counts (l ++ live)) : (p.m_freem l).Counts live := by
  induction l generalizing p with
  | nil => exact h
  | cons m l ih => exact ih h.mfree

/-- A new reference to a cluster that counts fewer than 127. -/
theorem Counts.ref {c : ℤ} {mclfree : List ℤ} (h : p.Counts live) (hm : m.Fits)
    (hc : m.place = .cluster) (hmc : m.mtoclx = c) (hlt : countP (Mbuf.refersTo c) live < 127)
    (hnodup : mclfree.Nodup) (hmem : ∀ x, x ∈ mclfree ↔ x ∈ p.mclfree ∧ x ≠ c) :
    Counts { p with
      mclfree := mclfree
      mclrefcnt := Function.update p.mclrefcnt c (toChar (p.mclrefcnt c + 1)) } (m :: live) := by
  have hcount (x : ℤ) : countP (Mbuf.refersTo x) (m :: live) =
      countP (Mbuf.refersTo x) live + if x = c then 1 else 0 := by
    rw [List.countP_cons]
    simp [Mbuf.refersTo_iff hc, hmc, eq_comm]
  have hchar : toChar (p.mclrefcnt c + 1) = countP (Mbuf.refersTo c) live + 1 := by
    rw [h.mclrefcnt, toChar_of_mem (by omega) (by omega)]
  refine ⟨fun q hq => ?_, fun x => ?_, fun x => ?_, hnodup, fun x => ?_⟩
  · rcases List.mem_cons.1 hq with rfl | hq
    · exact hm
    · exact h.fits q hq
  · simp only [hchar, hcount]
    by_cases hx : x = c
    · rw [hx, Function.update_self, if_pos rfl]
      rfl
    · rw [Function.update_of_ne hx, h.mclrefcnt, if_neg hx, add_zero]
  · have := h.small x
    rw [hcount]
    split_ifs with hx
    · subst hx
      omega
    · omega
  · simp only [hchar, hmem]
    by_cases hx : x = c
    · rw [hx, Function.update_self]
      constructor
      · exact fun hf => absurd rfl hf.2
      · omega
    · rw [Function.update_of_ne hx, h.mem_mclfree]
      simp [hx]

/-! ## The calls -/

theorem Counts.mclget (h : p.Counts (m :: live)) (hm : m.place = .inside) :
    (p.mclget m).1.Counts ((p.mclget m).2 :: live) := by
  rw [Pool.mclget]
  cases hfree : p.mclfree with
  | nil => exact h
  | cons c mclfree =>
    have h' := (counts_cons (by rw [hm]; decide)).1 h
    obtain ⟨hrange, hzero⟩ := (h.mem_mclfree c).1 (hfree ▸ List.mem_cons_self)
    have hnodup := h.nodup
    rw [hfree, List.nodup_cons] at hnodup
    have hcl : c * MCLBYTES / MCLBYTES = c := Int.mul_ediv_cancel _ (by decide)
    have hnone := h'.mclrefcnt c
    refine h'.ref ⟨fun _ => ?_, fun _ => ?_, fun _ => ?_⟩ rfl hcl (by omega) hnodup.2 fun x => ?_
    · change 0 ≤ c * MCLBYTES / MCLBYTES ∧ c * MCLBYTES / MCLBYTES < NMBCLUSTERS
      rw [hcl]
      exact hrange
    · change c * MCLBYTES + MCLBYTES ≤ (c * MCLBYTES / MCLBYTES + 1) * MCLBYTES
      rw [hcl, add_mul, one_mul]
    · change -2 ^ 15 ≤ MCLBYTES
      decide
    · rw [hfree, List.mem_cons]
      constructor
      · exact fun hx => ⟨.inr hx, fun hxc => hnodup.1 (hxc ▸ hx)⟩
      · exact fun hx => hx.1.resolve_left hx.2

/-- `mcldup` makes another reference, to data that are there. -/
theorem Counts.mcldup {off m_len : ℤ} {r : Pool × Mbuf} (h : p.Counts live) (hm : m ∈ live)
    (hoff : 0 ≤ off) (hle : m.place = .cluster → 0 < m_len ∧ off + m_len ≤ m.m_len)
    (hlt : m.place = .cluster → countP (Mbuf.refersTo m.mtoclx) live < 127)
    (hr : p.mcldup m ⟨.inside, MMINOFF, m_len⟩ off = some r) :
    r.1.Counts ({ r.2 with m_off := r.2.m_off + off } :: live) ∧ r.2.m_len = m_len ∧
      ∀ c, { r.2 with m_off := r.2.m_off + off }.refersTo c → m.refersTo c := by
  rw [Pool.mcldup] at hr
  cases hp : m.place with
  | inside => simp [hp] at hr
  | cluster =>
    simp only [hp] at hr
    obtain rfl := Option.some.inj hr
    have hfits := h.fits m hm
    have hend := hfits.le_end hp
    obtain ⟨hlen, hle⟩ := hle hp
    have heq : (m.m_off + off) / MCLBYTES = m.mtoclx := by
      rw [Mbuf.mtoclx, MCLBYTES] at hend
      rw [Mbuf.mtoclx, MCLBYTES]
      omega
    have hpos : countP (Mbuf.refersTo m.mtoclx) live ≠ 0 := fun hz =>
      List.countP_eq_zero.1 hz m hm ((Mbuf.refersTo_iff hp _).2 rfl)
    refine ⟨h.ref ⟨fun _ => ?_, fun _ => ?_, fun _ => ?_⟩ rfl heq (hlt hp) h.nodup fun x => ?_,
      rfl, fun c hc => ?_⟩
    · exact heq.symm ▸ hfits.range hp
    · change m.m_off + off + m_len ≤ ((m.m_off + off) / MCLBYTES + 1) * MCLBYTES
      rw [heq]
      omega
    · change -2 ^ 15 ≤ m_len
      omega
    · refine ⟨fun hx => ⟨hx, fun hxc => ?_⟩, fun hx => hx.1⟩
      have hzero := ((h.mem_mclfree x).1 hx).2
      rw [hxc, h.mclrefcnt] at hzero
      omega
    · rw [Mbuf.refersTo_iff rfl] at hc
      exact (Mbuf.refersTo_iff hp c).2 (heq ▸ hc)
  | funny =>
    simp only [hp] at hr
    obtain rfl := Option.some.inj hr
    exact ⟨(counts_cons (by simp)).2 h, rfl, fun c hc => by simp [Mbuf.refersTo] at hc⟩

/-- The mbufs of a chain whose clusters `copyLoop` shares. -/
def shares (off len : ℤ) : List Mbuf → List Mbuf
  | [] => []
  | m :: l =>
    if len ≤ 0 then []
    else
      let m_len := toShort (min len (m.m_len - off))
      (if m.ext ∧ m_len > MLEN then [m] else []) ++
        shares 0 (if len = M_COPYALL then len else len - m_len) l

/-- A copy shares the cluster, or is in its mbuf. -/
theorem Counts.copy1 {off len : ℤ} {r : Pool × Mbuf} (h : p.Counts live) (hm : m ∈ live)
    (hoff : 0 ≤ off) (hlt : off = 0 ∨ off < m.m_len) (hlen : 0 < len)
    (hc : ∀ c, countP (Mbuf.refersTo c) live + countP (Mbuf.refersTo c)
      (if m.ext ∧ toShort (min len (m.m_len - off)) > MLEN then [m] else []) ≤ 127)
    (hr : p.copy1 m off len = some r) :
    r.1.Counts (r.2 :: live) ∧ r.2.m_len = toShort (min len (m.m_len - off)) ∧
      ∀ c, countP (Mbuf.refersTo c) (r.2 :: live) ≤ countP (Mbuf.refersTo c) live +
        countP (Mbuf.refersTo c)
          (if m.ext ∧ toShort (min len (m.m_len - off)) > MLEN then [m] else []) := by
  rw [Pool.copy1] at hr
  by_cases hshare : m.ext ∧ toShort (min len (m.m_len - off)) > MLEN
  · rw [if_pos hshare] at hr hc ⊢
    obtain ⟨q, hq, rfl⟩ := Option.map_eq_some_iff.1 hr
    have hle (hp : m.place = .cluster) : 0 < toShort (min len (m.m_len - off)) ∧
        off + toShort (min len (m.m_len - off)) ≤ m.m_len := by
      have hend := (h.fits m hm).le_end hp
      have hge := (h.fits m hm).m_len hp
      have hlong := hshare.2
      rw [Mbuf.mtoclx, MCLBYTES] at hend
      rw [MLEN] at hlong
      rw [toShort_of_mem (by omega) (by omega)] at hlong ⊢
      omega
    have hfew (hp : m.place = .cluster) : countP (Mbuf.refersTo m.mtoclx) live < 127 := by
      have := hc m.mtoclx
      rw [List.countP_singleton, if_pos ((Mbuf.refersTo_iff hp _).2 rfl)] at this
      omega
    obtain ⟨hcounts, hlen', href⟩ := h.mcldup hm hoff hle hfew hq
    refine ⟨hcounts, hlen', fun c => ?_⟩
    rw [List.countP_cons, List.countP_singleton]
    by_cases hmc : m.refersTo c
    · rw [if_pos hmc]
      split_ifs <;> omega
    · rw [if_neg hmc, if_neg (mt (href c) hmc)]
  · rw [if_neg hshare] at hr ⊢
    split_ifs at hr
    obtain rfl := Option.some.inj hr
    refine ⟨(counts_cons (by simp)).2 h, rfl, fun c => ?_⟩
    rw [List.countP_cons_of_neg (by simp [Mbuf.refersTo])]
    exact Nat.le_add_right _ _

/-- The copies count, and the chain is as it was. -/
theorem Counts.copyLoop {off len : ℤ} {r : Pool × List Mbuf × Bool} (h : p.Counts live)
    (hl : ∀ m ∈ l, m ∈ live) (hoff : 0 ≤ off) (hlt : ∀ m ∈ l.head?, off = 0 ∨ off < m.m_len)
    (hc : ∀ c, countP (Mbuf.refersTo c) live + countP (Mbuf.refersTo c) (shares off len l) ≤ 127)
    (hr : p.copyLoop off len l = some r) : r.1.Counts (r.2.1 ++ live) := by
  induction l generalizing p live off len r with
  | nil =>
    rw [Pool.copyLoop] at hr
    split_ifs at hr
    obtain rfl := Option.some.inj hr
    exact h
  | cons m l ih =>
    rw [Pool.copyLoop] at hr
    by_cases hlen : len ≤ 0
    · rw [if_pos hlen] at hr
      obtain rfl := Option.some.inj hr
      exact h
    rw [if_neg hlen] at hr
    simp only [shares, if_neg hlen, List.countP_append] at hc
    cases hget : p.MGET with
    | none =>
      simp only [hget] at hr
      obtain rfl := Option.some.inj hr
      exact h
    | some p₁ =>
      simp only [hget] at hr
      cases hcopy : p₁.copy1 m off len with
      | none => simp [hcopy] at hr
      | some q =>
        simp only [hcopy] at hr
        obtain ⟨r', hr', rfl⟩ := Option.map_eq_some_iff.1 hr
        obtain ⟨hq, hqlen, hcount⟩ := (h.mget hget).copy1 (hl m List.mem_cons_self) hoff
          (hlt m rfl) (not_le.1 hlen) (fun c => by have := hc c; omega) hcopy
        rw [hqlen] at hr'
        refine (ih hq (fun m' hm' => .tail _ (hl m' (.tail _ hm'))) le_rfl (fun _ _ => .inl rfl)
          (fun c => ?_) hr').perm List.perm_middle
        have := hc c
        have := hcount c
        omega

theorem skip_spec {off : ℤ} {r : ℤ × List Mbuf} (h₀ : 0 ≤ off) (hr : skip off l = some r) :
    0 ≤ r.1 ∧ (∀ m ∈ r.2, m ∈ l) ∧ ∀ m ∈ r.2.head?, r.1 = 0 ∨ r.1 < m.m_len := by
  induction l generalizing off with
  | nil =>
    rw [skip] at hr
    split_ifs at hr
    obtain rfl := Option.some.inj hr
    exact ⟨h₀, fun m hm => hm, fun m hm => by simp at hm⟩
  | cons m l ih =>
    rw [skip] at hr
    split_ifs at hr with hstop
    · obtain rfl := Option.some.inj hr
      refine ⟨h₀, fun m hm => hm, fun m' hm' => ?_⟩
      obtain rfl : m = m' := Option.some.inj hm'
      exact hstop.imp_left (le_antisymm · h₀)
    · obtain ⟨hge, hmem, hhead⟩ := ih (by omega) hr
      exact ⟨hge, fun m' hm' => .tail _ (hmem m' hm'), hhead⟩

theorem Counts.m_copy {off len : ℤ} {r : Pool × List Mbuf} (h : p.Counts live)
    (hl : ∀ m ∈ l, m ∈ live)
    (hc : ∀ q ∈ skip off l, ∀ c, countP (Mbuf.refersTo c) live +
      countP (Mbuf.refersTo c) (shares q.1 len q.2) ≤ 127)
    (hr : p.m_copy off len l = some r) : r.1.Counts (r.2 ++ live) := by
  rw [Pool.m_copy] at hr
  split_ifs at hr with hz hbad
  · obtain rfl := Option.some.inj hr
    exact h
  · cases hs : skip off l with
    | none => simp [hs] at hr
    | some q =>
      simp only [hs] at hr
      obtain ⟨r', hr', rfl⟩ := Option.map_eq_some_iff.1 hr
      obtain ⟨hge, hmem, hhead⟩ := skip_spec (by omega) hs
      have h' := h.copyLoop (fun m hm => hl m (hmem m hm)) hge hhead (hc q hs) hr'
      split_ifs
      · exact h'
      · exact h'.freem

/-- Mbufs whose data are moved to the last one are freed. -/
theorem Counts.splat {r : Pool × List Mbuf} (h : p.Counts (m :: l ++ live))
    (hr : p.splat m l = some r) : r.1.Counts (r.2 ++ live) := by
  induction l generalizing p m with
  | nil =>
    obtain rfl := Option.some.inj hr
    exact h
  | cons n l ih =>
    rw [Pool.splat] at hr
    split_ifs at hr with hjoin hneg
    · obtain rfl := Option.some.inj hr
      exact h
    · have hin : m.place ≠ .cluster := fun hp => hjoin (.inl (by simp [Mbuf.ext, hp]))
      have h' : p.Counts (n :: l ++ live) := (counts_cons hin).1 h
      have hfree : (p.MFREE n).Counts (l ++ live) := Counts.mfree h'
      exact ih ((counts_cons (m := { m with m_len := toShort (m.m_len + n.m_len) }) hin).2 hfree) hr

theorem Counts.m_cat {n : List Mbuf} {r : Pool × List Mbuf} (h : p.Counts (l ++ n ++ live))
    (hr : p.m_cat l n = some r) : r.1.Counts (r.2 ++ live) := by
  induction l generalizing live r with
  | nil => simp [Pool.m_cat] at hr
  | cons m l ih =>
    cases l with
    | nil => exact h.splat hr
    | cons m' l =>
      obtain ⟨r', hr', rfl⟩ := Option.map_eq_some_iff.1 hr
      have h' : p.Counts (m' :: l ++ n ++ m :: live) :=
        h.perm (by simpa using (@List.perm_middle _ m (m' :: (l ++ n)) live).symm)
      exact (ih h' hr').perm List.perm_middle

end Pool

/-- The data of an mbuf end where its cluster does. -/
def Mbuf.ends (m : Mbuf) : Bool :=
  m.place = .cluster ∧ m.m_off + m.m_len = (m.mtoclx + 1) * MCLBYTES

/-- No mbuf whose data are all among the first `len` bytes of a chain ends where its
    cluster does. -/
def Spares (len : ℤ) : List Mbuf → Prop
  | [] => True
  | n :: l =>
    (0 < n.m_len → n.m_len ≤ len → ¬ n.ends ∧ Spares (len - n.m_len) l) ∧
      (n.m_len ≤ 0 → Spares len l)

namespace Pool

variable {p p' : Pool} {live live' l l' : List Mbuf} {m m' : Mbuf}

/-- An mbuf that is used up is freed by its moved pointer: this is still in the cluster. -/
theorem Counts.used (h : p.Counts (m :: live)) (hlen : 0 < m.m_len) (hends : ¬ m.ends) :
    (p.MFREE (m.advance m.m_len)).Counts live := by
  by_cases hp : m.place = .cluster
  · have hend := (h.fits m List.mem_cons_self).le_end hp
    have heq : (m.advance m.m_len).mtoclx = m.mtoclx := by
      simp only [Mbuf.ends, hp, true_and, decide_eq_true_eq] at hends
      rw [Mbuf.mtoclx, MCLBYTES] at hend hends
      simp only [Mbuf.mtoclx, Mbuf.advance, MCLBYTES]
      omega
    have hfree : p.MFREE (m.advance m.m_len) = p.MFREE m := by
      rw [MFREE, MFREE, heq]
      rfl
    exact hfree ▸ h.mfree
  · exact Counts.mfree ((counts_cons (m := m.advance m.m_len) hp).2 ((counts_cons hp).1 h))

theorem Counts.pullLoop {m_len len : ℤ} (h : p.Counts (l ++ live)) (hle : m_len + len ≤ MLEN)
    (hs : Spares len l) :
    (p.pullLoop m_len len l).pool.Counts ((p.pullLoop m_len len l).n ++ live) := by
  induction l generalizing p m_len len with
  | nil => exact h
  | cons n l ih =>
    have hmin : min (min (MLEN - m_len) len) n.m_len = min len n.m_len := by omega
    rw [Pool.pullLoop, hmin]
    by_cases hcopy : min len n.m_len > 0
    · simp only [if_pos hcopy]
      by_cases hlt : len < n.m_len
      · -- Some of its data are left.
        rw [min_eq_left hlt.le] at hcopy ⊢
        rw [if_pos (by simp only [Mbuf.advance]; omega)]
        exact Counts.like h ((h.fits n (by simp)).advance hcopy.le hlt)
      · rw [min_eq_right (not_lt.1 hlt)] at hcopy ⊢
        obtain ⟨hends, hs'⟩ := hs.1 hcopy (not_lt.1 hlt)
        rw [if_neg (by simp only [Mbuf.advance]; omega)]
        exact ih (Counts.used h hcopy hends) (by omega) hs'
    · simp only [if_neg hcopy]
      split_ifs with hpos
      · exact h
      · exact ih (Counts.mfree h) hle (hs.2 (not_lt.1 hpos))

theorem Counts.m_pullup {len : ℤ} {r : Pool × List Mbuf} (h : p.Counts (l ++ live))
    (hs : len ≤ MLEN → Spares len l) (hr : p.m_pullup len l = some r) :
    r.1.Counts (r.2 ++ live) := by
  rw [Pool.m_pullup] at hr
  split_ifs at hr with hlong hnil
  · obtain rfl := Option.some.inj hr
    exact h.freem
  · cases hget : p.MGET with
    | none =>
      simp only [hget] at hr
      obtain rfl := Option.some.inj hr
      exact h.freem
    | some p₁ =>
      simp only [hget] at hr
      have h' : (p₁.pullLoop 0 len l).pool.Counts ((p₁.pullLoop 0 len l).n ++ live) :=
        Counts.pullLoop (h.mget hget) (by omega) (hs (not_lt.1 hlong))
      set q := p₁.pullLoop 0 len l
      have hm := (counts_cons (m := ⟨.inside, MMINOFF, q.m_len⟩) (by simp)).2 h'
      split_ifs at hr
      · obtain rfl := Option.some.inj hr
        exact Counts.freem (Counts.mfree hm)
      · obtain rfl := Option.some.inj hr
        exact hm

end Pool

/-! ## Trimming -/

theorem like_refl {m : Mbuf} (h : m.Fits) : m.Like m := ⟨h, fun _ => rfl⟩

theorem forall₂_like (l : List Mbuf) : List.Forall₂ (fun m m' => m.Fits → m.Like m') l l :=
  List.forall₂_same.2 fun _ _ => like_refl

/-- The length 0 is less than what there is, or the mbuf was trimmed too much before. -/
theorem Mbuf.Fits.zero {m : Mbuf} (h : m.Fits) : m.Like { m with m_len := 0 } := by
  by_cases hc : m.place = .cluster
  · refine ⟨⟨h.range, fun _ => ?_, fun _ => by simp⟩, fun _ => rfl⟩
    simp only [mtoclx, MCLBYTES]
    omega
  · exact ⟨.of_inside hc, fun c => (refersTo_eq_false hc c).trans (refersTo_eq_false hc c).symm⟩

theorem adjFront_like (len : ℤ) (l : List Mbuf) :
    List.Forall₂ (fun m m' => m.Fits → m.Like m') l (adjFront len l) := by
  induction l generalizing len with
  | nil => exact .nil
  | cons m l ih =>
    rw [adjFront]
    split_ifs with h₀ hle
    · exact forall₂_like _
    · exact .cons (fun h => h.zero) (ih _)
    · exact .cons (fun h => h.advance (by omega) (not_le.1 hle)) (forall₂_like l)

theorem truncate_like {count : ℤ} (h₀ : -2 ^ 15 ≤ count) (l : List Mbuf) :
    List.Forall₂ (fun m m' => m.Fits → m.Like m') l (truncate count l) := by
  induction l generalizing count with
  | nil => exact .nil
  | cons m l ih =>
    rw [truncate]
    split_ifs with hge
    · refine .cons (fun h => ?_) ?_
      · by_cases hc : m.place = .cluster
        · have hend := h.le_end hc
          rw [Mbuf.mtoclx, MCLBYTES] at hend
          rw [toShort_of_mem h₀ (by omega)]
          exact h.shrink hge h₀
        · exact ⟨.of_inside hc, fun c => rfl⟩
      · exact List.forall₂_map_right_iff.2 (List.forall₂_same.2 fun _ _ h => h.zero)
    · exact .cons like_refl (ih (by omega))

theorem adjTail_like {len : ℤ} {l : List Mbuf} (h₀ : 0 < len)
    (hc : (∀ m ∈ l.getLast?, m.m_len < len) → -2 ^ 15 ≤ length l - len) :
    List.Forall₂ (fun m m' => m.Fits → m.Like m') l (adjTail len l) := by
  rw [adjTail]
  cases hl : l.getLast? with
  | none =>
    rw [List.getLast?_eq_none_iff.1 hl]
    exact .nil
  | some m =>
    simp only
    split_ifs with hge
    · obtain ⟨l', rfl⟩ := List.getLast?_eq_some_iff.1 hl
      rw [List.dropLast_concat]
      refine List.rel_append (forall₂_like l') (.cons (fun h => ?_) .nil)
      exact h.shrink (by omega) (by omega)
    · refine truncate_like (hc fun q hq => ?_) l
      obtain rfl := Option.some.inj (hl.symm.trans hq)
      exact not_le.1 hge

theorem m_adj_like {len : ℤ} {l : List Mbuf}
    (hc : len < 0 → (∀ m ∈ l.getLast?, m.m_len < -len) → -2 ^ 15 ≤ length l + len) :
    List.Forall₂ (fun m m' => m.Fits → m.Like m') l (m_adj len l) := by
  rw [m_adj]
  split_ifs with hlen
  · exact adjFront_like len l
  · refine adjTail_like (by omega) fun hlast => ?_
    have := hc (not_le.1 hlen) hlast
    omega

/-! ## Runs -/

/-- `m_pullup` uses up no mbuf whose data end where its cluster does; a cluster has at most
    127 references; and a chain is not trimmed by 32768 bytes more than it has. -/
def Act.Clean (s : State) : Act → Prop
  | .mcldup i j _ _ => ∀ l ∈ s.chains[i]?, ∀ m ∈ l[j]?, m.place = .cluster →
      countP (Mbuf.refersTo m.mtoclx) s.live < 127
  | .m_copy i off len => ∀ l ∈ s.chains[i]?, ∀ q ∈ Pool.skip off l, ∀ c,
      countP (Mbuf.refersTo c) s.live + countP (Mbuf.refersTo c) (Pool.shares q.1 len q.2) ≤ 127
  | .m_adj i len => ∀ l ∈ s.chains[i]?, len < 0 → (∀ m ∈ l.getLast?, m.m_len < -len) →
      -2 ^ 15 ≤ length l + len
  | .m_pullup i len => ∀ l ∈ s.chains[i]?, len ≤ MLEN → Spares len l
  | _ => True

/-- What every reachable state satisfies. -/
abbrev State.Inv (s : State) : Prop := s.pool.Counts s.live

section

variable {s : State} {i : ℕ} {l : List Mbuf} {chains : List (List Mbuf)}

theorem take_spec (h : s.take i = some (l, chains)) :
    s.chains[i]? = some l ∧ s.live.Perm (l ++ chains.flatten) := by
  obtain ⟨l', hl', heq⟩ := Option.map_eq_some_iff.1 h
  obtain ⟨rfl, rfl⟩ := Prod.mk.inj heq
  obtain ⟨hi, rfl⟩ := List.getElem?_eq_some_iff.1 hl'
  refine ⟨hl', ?_⟩
  exact (List.getElem_cons_eraseIdx_perm hi).symm.flatten

theorem mem_live (h : s.chains[i]? = some l) {m : Mbuf} (hm : m ∈ l) : m ∈ s.live :=
  List.mem_flatten.2 ⟨l, List.mem_of_getElem? h, hm⟩

theorem State.Inv.take (h : s.Inv) (ht : s.take i = some (l, chains)) :
    s.pool.Counts (l ++ chains.flatten) := h.perm (take_spec ht).2

end

theorem State.Inv.init {s : State} (h : allocation.init s) : s.Inv := by
  obtain ⟨hchains, hcount, hfree⟩ := h
  rw [State.Inv, State.live, hchains]
  refine ⟨fun m hm => by simp at hm, fun c => by rw [hcount]; rfl, fun c => by simp, ?_,
    fun c => ?_⟩
  · rw [hfree]
    decide
  · rw [hfree, hcount, NMBCLUSTERS]
    simp only [List.mem_cons, List.not_mem_nil, or_false, and_true]
    omega

/-- Every step that is clean keeps the invariant. -/
theorem State.Inv.next {s s' : State} {a : Act} (h : s.Inv) (hv : a.Valid s) (hc : a.Clean s)
    (hn : allocation.next s a = some s') : s'.Inv := by
  cases a with
  | m_get m_off m_len =>
    obtain ⟨p, hp, rfl⟩ := Option.map_eq_some_iff.1 hn
    exact (Pool.counts_cons (by simp)).2 (Pool.Counts.mget h hp)
  | mclgetx m_len =>
    obtain ⟨p, hp, rfl⟩ := Option.map_eq_some_iff.1 hn
    exact (Pool.counts_cons (by simp)).2 (Pool.Counts.mget h hp)
  | mclget i j =>
    obtain ⟨⟨l, chains⟩, ht, hn⟩ := Option.bind_eq_some_iff.1 hn
    obtain ⟨m, hm, rfl⟩ := Option.map_eq_some_iff.1 hn
    have hl := (take_spec ht).1
    obtain ⟨hj, rfl⟩ := List.getElem?_eq_some_iff.1 hm
    have hperm : l.Perm (l[j] :: l.eraseIdx j) := (List.getElem_cons_eraseIdx_perm hj).symm
    have h' : s.pool.Counts (l[j] :: (l.eraseIdx j ++ chains.flatten)) :=
      (h.take ht).perm (hperm.append_right _)
    refine (h'.mclget (hv l hl _ hm)).perm ?_
    exact ((List.set_perm_cons_eraseIdx hj _).append_right _).symm
  | mcldup i j off len =>
    obtain ⟨m, hm, hn⟩ := Option.bind_eq_some_iff.1 hn
    obtain ⟨p, hp, hn⟩ := Option.bind_eq_some_iff.1 hn
    obtain ⟨r, hr, rfl⟩ := Option.map_eq_some_iff.1 hn
    obtain ⟨l, hl, hj⟩ := Option.bind_eq_some_iff.1 hm
    obtain ⟨hoff, hlen, hle⟩ := hv l hl m hj
    exact (Pool.Counts.mcldup (Pool.Counts.mget h hp) (mem_live hl (List.mem_of_getElem? hj)) hoff
      (fun _ => ⟨hlen, hle⟩) (hc l hl m hj) hr).1
  | m_copy i off len =>
    obtain ⟨l, hl, hn⟩ := Option.bind_eq_some_iff.1 hn
    obtain ⟨r, hr, rfl⟩ := Option.map_eq_some_iff.1 hn
    exact Pool.Counts.m_copy h (fun m hm => mem_live hl hm) (hc l hl) hr
  | m_adj i len =>
    obtain ⟨⟨l, chains⟩, ht, rfl⟩ := Option.map_eq_some_iff.1 hn
    exact (h.take ht).forall₂ (m_adj_like (hc l (take_spec ht).1))
  | m_pullup i len =>
    obtain ⟨⟨l, chains⟩, ht, hn⟩ := Option.bind_eq_some_iff.1 hn
    obtain ⟨r, hr, rfl⟩ := Option.map_eq_some_iff.1 hn
    exact (h.take ht).m_pullup (hc l (take_spec ht).1) hr
  | m_cat i j =>
    obtain ⟨⟨l, chains⟩, ht, hn⟩ := Option.bind_eq_some_iff.1 hn
    obtain ⟨⟨n, chains'⟩, ht', hn⟩ := Option.bind_eq_some_iff.1 hn
    obtain ⟨r, hr, rfl⟩ := Option.map_eq_some_iff.1 hn
    refine Pool.Counts.m_cat ((h.take ht).perm ?_) hr
    rw [List.append_assoc]
    exact (take_spec ht').2.append_left l
  | m_free i =>
    obtain ⟨⟨l, chains⟩, ht, hn⟩ := Option.bind_eq_some_iff.1 hn
    cases l with
    | nil => simp at hn
    | cons m l =>
      obtain rfl := Option.some.inj hn
      exact Pool.Counts.mfree (h.take ht)
  | m_freem i =>
    obtain ⟨⟨l, chains⟩, ht, rfl⟩ := Option.map_eq_some_iff.1 hn
    exact (h.take ht).freem

theorem State.Inv.clusterCounts {s : State} (h : s.Inv) : ClusterCounts s where
  mclrefcnt := h.mclrefcnt
  nodup := h.nodup
  mem_mclfree := h.mem_mclfree
  free c hc m hm href := by
    have hzero := ((h.mem_mclfree c).1 hc).2
    rw [h.mclrefcnt, Nat.cast_eq_zero, List.countP_eq_zero] at hzero
    exact hzero m hm href

/-- The counts are right in every clean run. -/
theorem clusterCounts_of_clean {s : State}
    (hs : allocation.ReachableIf (fun s a => a.Valid s ∧ a.Clean s) s) : ClusterCounts s :=
  (hs.invariant (P := State.Inv) (fun _ => .init) fun _ _ _ h hok hn =>
    h.next hok.1 hok.2 hn).clusterCounts

/-- The state after the initialization, with 500 mbufs. -/
def initial : State where
  pool :=
    { m_mbfree := 500
      mclfree := [31, 30, 29, 28, 27, 26, 25, 24, 23, 22, 21, 20, 19, 18, 17, 16, 15, 14,
        13, 12, 11, 10, 9, 8, 7, 6, 5, 4, 3, 2, 1, 0]
      mclrefcnt := fun _ => 0 }
  chains := []

theorem init_initial : allocation.init initial := ⟨rfl, rfl, rfl⟩

theorem valid_mclget {s : State} {m : Mbuf} {chains : List (List Mbuf)}
    (hs : s.chains = [m] :: chains) (hm : m.place = .inside) : (Act.mclget 0 0).Valid s := by
  rw [Act.Valid, hs]
  rintro l hl q hq
  obtain rfl := Option.some.inj hl
  obtain rfl := Option.some.inj hq
  exact hm

/-- The first cluster, and a chain that has it. -/
theorem reachable_first (ok : State → Act → Prop) (hok : ∀ s, ok s (.m_get MMINOFF 0))
    (hok' : ∀ s, (Act.mclget 0 0).Valid s → ok s (.mclget 0 0)) :
    ∃ s, allocation.run initial [.m_get MMINOFF 0, .mclget 0 0] = some s ∧
      allocation.ReachableIf ok s ∧ s.chains = [[⟨.cluster, 31744, 1024⟩]] := by
  obtain ⟨s₁, h₁, hc₁, s₂, h₂, hc₂⟩ : ∃ s, allocation.next initial (.m_get MMINOFF 0) = some s ∧
      s.chains = [[⟨.inside, MMINOFF, 0⟩]] ∧ ∃ s', allocation.next s (.mclget 0 0) = some s' ∧
      s'.chains = [[⟨.cluster, 31744, 1024⟩]] := ⟨_, rfl, rfl, _, rfl, rfl⟩
  exact ⟨s₂, by rw [Machine.run, h₁]; simpa [Machine.run] using h₂,
    .step (.step (.init init_initial) (hok _) h₁) (hok' s₁ (valid_mclget hc₁ rfl)) h₂, hc₂⟩

/-- A copy of a chain shares its cluster. -/
theorem clusterCounts_copied : ∃ s, s.chains = [[⟨.cluster, 31744, 1024⟩],
    [⟨.cluster, 31744, 1024⟩]] ∧ ClusterCounts s := by
  obtain ⟨s₂, hrun, hs₂, hc₂⟩ := reachable_first (fun s a => a.Valid s ∧ a.Clean s)
    (fun _ => ⟨trivial, trivial⟩) fun _ hv => ⟨hv, trivial⟩
  obtain ⟨s₃, h₃, hc₃⟩ : ∃ s, allocation.next s₂ (.m_copy 0 0 M_COPYALL) = some s ∧
      s.chains = [[⟨.cluster, 31744, 1024⟩], [⟨.cluster, 31744, 1024⟩]] := by
    obtain rfl := Option.some.inj hrun
    exact ⟨_, rfl, rfl⟩
  refine ⟨s₃, hc₃, clusterCounts_of_clean
    (hs₂.step (a := .m_copy 0 0 M_COPYALL) ⟨trivial, fun l hl q hq c => ?_⟩ h₃)⟩
  rw [hc₂] at hl
  obtain rfl := Option.some.inj hl
  obtain rfl := Option.some.inj hq
  rw [State.live, hc₂]
  have h₁ := List.countP_le_length (p := Mbuf.refersTo c)
    (l := [[(⟨.cluster, 31744, 1024⟩ : Mbuf)]].flatten)
  have h₂ := List.countP_le_length (p := Mbuf.refersTo c)
    (l := Pool.shares 0 M_COPYALL [⟨.cluster, 31744, 1024⟩])
  exact (Nat.add_le_add h₁ h₂).trans (by decide)

/-- `m_pullup` of the last bytes of a cluster gives up the next one, which is in use. -/
theorem not_clusterCounts : ¬ ∀ s, allocation.ReachableIf (fun s a => a.Valid s) s →
    ClusterCounts s := by
  intro h
  obtain ⟨s₂, hrun, hs₂, -⟩ := reachable_first (fun s a => a.Valid s) (fun _ => trivial)
    fun _ hv => hv
  obtain ⟨s₃, h₃, hc₃, s₄, h₄, s₅, h₅, s₆, h₆, hcount, hlive⟩ : ∃ s,
      allocation.next s₂ (.m_get MMINOFF 0) = some s ∧
      s.chains = [[⟨.inside, MMINOFF, 0⟩], [⟨.cluster, 31744, 1024⟩]] ∧
      ∃ s', allocation.next s (.mclget 0 0) = some s' ∧
      ∃ s'', allocation.next s' (.m_adj 0 1000) = some s'' ∧
      ∃ s₆, allocation.next s'' (.m_pullup 0 24) = some s₆ ∧ s₆.pool.mclrefcnt 31 = 0 ∧
      countP (Mbuf.refersTo 31) s₆.live = 1 := by
    obtain rfl := Option.some.inj hrun
    exact ⟨_, rfl, rfl, _, rfl, _, rfl, _, rfl, rfl, rfl⟩
  have hs₄ : allocation.ReachableIf (fun s a => a.Valid s) s₄ :=
    .step (.step (a := .m_get MMINOFF 0) hs₂ trivial h₃) (valid_mclget hc₃ rfl) h₄
  have hs₆ := h s₆ (.step (a := .m_pullup 0 24) (.step (a := .m_adj 0 1000) hs₄ trivial h₅) trivial
    h₆)
  have := hs₆.mclrefcnt 31
  rw [hcount, hlive] at this
  exact absurd this (by decide)

end AuxKernel.Net.Cluster
