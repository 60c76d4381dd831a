import AuxKernel.Ip.Reass
import Mathlib.Data.List.Infix

/-!
# A datagram is made of its fragments

The fragments of a datagram are pieces of it (`positioned`), so that the queue stays
sorted and disjoint and holds all that has arrived. There is no gap in it and its last
fragment is the last of the datagram exactly when all has arrived (`check_spec`).

But the header is made visible as if it had no options, so that the datagram begins
with the wrong bytes if it has (`not_datagram`), and offsets and lengths are signed
16-bit numbers. Without options in the first fragment and with no byte behind the
32767th, reassembly is as it should be in every run (`datagram_of_clean`).
-/

namespace AuxKernel.Ip

open Net Pieces

variable {d : Datagram}

/-! ## Fragments of a datagram -/

/-- A fragment in the queue, with the bytes of the datagram from `off` on. -/
structure At (d : Datagram) (off : ℕ) (f : Ipasfrag) : Prop where
  ip_src : f.ip_src = d.ip_src
  ip_dst : f.ip_dst = d.ip_dst
  ip_hl : 5 ≤ f.ip_hl ∧ f.options.length = 4 * f.ip_hl - 20
  ip_off : f.ip_off = off
  ip_len : f.ip_len = (bytes f.m).length
  m : f.m ≠ []
  text : 0 < (bytes f.m).length
  le : off + (bytes f.m).length ≤ d.payload.length
  short : off + (bytes f.m).length ≤ 32767
  data : bytes f.m <+: d.payload.drop off
  mff : f.ipf_mff ↔ off + (bytes f.m).length < d.payload.length

/-- A fragment of the datagram in the queue. -/
def IsFrag (d : Datagram) (f : Ipasfrag) : Prop := ∃ off, At d off f

theorem m_adj_ne_nil {l : List (Mbuf UInt8)} (h : l ≠ []) (len : ℕ) : m_adj l len ≠ [] := by
  cases l with
  | nil => exact absurd rfl h
  | cons m l =>
    rw [m_adj]
    split_ifs <;> simp

theorem At.cut {off : ℕ} {f : Ipasfrag} {i : ℤ} (h : At d off f) (h₀ : 0 < i) (hi : i < f.ip_len) :
    At d (off + i.toNat) (fragments.cut i f) ∧ (fragments.cut i f).ip_len = f.ip_len - i := by
  have hoff := h.ip_off
  have hlen := h.ip_len
  have hle := h.le
  have hshort := h.short
  have hoff' : toShort (f.ip_off + i) = f.ip_off + i := toShort_of_mem (by omega) (by omega)
  have hlen' : toShort (f.ip_len - i) = f.ip_len - i := toShort_of_mem (by omega) (by omega)
  refine ⟨⟨h.ip_src, h.ip_dst, h.ip_hl, ?_, ?_, m_adj_ne_nil h.m _, ?_, ?_, ?_, ?_, h.mff.trans ?_⟩,
    hlen'⟩
  all_goals simp only [fragments, hoff', hlen', bytes_m_adj, List.length_drop]
  · omega
  · omega
  · omega
  · omega
  · omega
  · rw [← List.drop_drop]
    exact h.data.drop _
  · omega

theorem IsFrag.bounds {f : Ipasfrag} (h : IsFrag d f) : 0 ≤ f.ip_off ∧ 0 < f.ip_len ∧
    f.ip_off + f.ip_len ≤ d.payload.length ∧
    (f.ipf_mff ↔ f.ip_off + f.ip_len < d.payload.length) := by
  obtain ⟨off, h⟩ := h
  have hoff := h.ip_off
  have hlen := h.ip_len
  have hle := h.le
  have htext := h.text
  refine ⟨by omega, by omega, by omega, h.mff.trans ?_⟩
  omega

theorem positioned : fragments.Positioned (IsFrag d) Ipasfrag.ip_off where
  gt _ _ := by simp [fragments]
  past _ _ := rfl
  len_nonneg hp := hp.bounds.2.1.le
  ok_cut := fun ⟨_, hp⟩ hi hlen => ⟨_, (hp.cut hi hlen).1⟩
  pos_cut := fun {p i} ⟨off, hp⟩ hi hlen => by
    rw [(hp.cut hi hlen).1.ip_off, hp.ip_off]
    omega
  len_cut := fun ⟨_, hp⟩ hi hlen => (hp.cut hi hlen).2

/-- What `ipintr` hands over, if the fragment ends where a `short` can count. -/
theorem ours_spec {ip : Packet} (h : FragmentOf d ip)
    (hs : 8 * (ip.ip_off % 8192) + (bytes ip.m).length ≤ 32767) :
    At d (8 * (ip.ip_off % 8192)) (ours ip) ∧
      ∀ x, fragments.Has Ipasfrag.ip_off (ours ip) x ↔ ip.has x := by
  have hlen : toShort (ip.ip_len - 4 * ip.ip_hl) = (bytes ip.m).length := by
    rw [h.ip_len.1, add_sub_cancel_left]
    exact toShort_of_mem (by omega) (by omega)
  have hoff : toShort (8 * ip.ip_off) = 8 * (ip.ip_off % 8192) := by
    rw [toShort, Int.bmod_def]
    split_ifs <;> omega
  have hle := h.le
  refine ⟨⟨h.ip_src, h.ip_dst, h.ip_hl, ?_, ?_, h.m.1, h.m.2, h.le, hs, h.data, ?_⟩, fun x => ?_⟩
  · simp only [ours]
    omega
  · simp only [ours, Nat.cast_mul, Nat.cast_ofNat]
    exact hlen
  · exact h.ip_mf
  · simp only [Has, fragments, ours, Packet.has, Nat.cast_mul, Nat.cast_ofNat, hlen, hoff]
    rw [h.ip_len.1]
    simp

/-! ## The queue -/

/-- A queue of fragments of a datagram. -/
structure Sorted (d : Datagram) (l : List Ipasfrag) : Prop where
  frag : ∀ f ∈ l, IsFrag d f
  sorted : fragments.Sorted Ipasfrag.ip_off l

theorem Sorted.tail {f : Ipasfrag} {l : List Ipasfrag} (h : Sorted d (f :: l)) :
    Sorted d l ∧ ∀ q ∈ l, f.ip_off + f.ip_len ≤ q.ip_off :=
  ⟨⟨fun q hq => h.frag q (.tail _ hq), (List.pairwise_cons.1 h.sorted).2⟩,
    (List.pairwise_cons.1 h.sorted).1⟩

/-- If all is covered behind the first `n` bytes, there is no gap. -/
theorem contiguous_of_covers {n : ℤ} {l : List Ipasfrag} (h : Sorted d l)
    (hn : n ≤ d.payload.length) (hbeyond : ∀ f ∈ l, n ≤ f.ip_off)
    (hc : ∀ x, n ≤ x → x < d.payload.length → fragments.Covers Ipasfrag.ip_off l x) :
    contiguous n l = some (d.payload.length : ℤ) := by
  induction l generalizing n with
  | nil =>
    have : ¬ n < d.payload.length := fun hlt => by
      obtain ⟨f, hf, _⟩ := hc n le_rfl hlt
      exact absurd hf (by simp)
    rw [contiguous]
    congr
    omega
  | cons f l ih =>
    have hf := (h.frag f List.mem_cons_self).bounds
    have hnf := hbeyond f List.mem_cons_self
    obtain ⟨hl, hfl⟩ := h.tail
    have heq : f.ip_off = n := by
      obtain ⟨q, hq, hx⟩ := hc n le_rfl (by omega)
      rcases List.mem_cons.1 hq with rfl | hq
      · exact le_antisymm hx.1 hnf
      · have := hfl q hq
        have := hx.1
        omega
    rw [contiguous, if_neg (not_not.2 heq)]
    refine ih hl (by omega) (fun q hq => heq ▸ hfl q hq) fun x hx hlt => ?_
    obtain ⟨q, hq, hxq⟩ := hc x (by omega) hlt
    rcases List.mem_cons.1 hq with rfl | hq
    · have := hxq.2
      simp only [fragments] at this
      omega
    · exact ⟨q, hq, hxq⟩

/-- If there is no gap behind the first `n` bytes, the data are those of the datagram up
    to the end of the last fragment. -/
theorem contiguous_spec {n e : ℤ} {l : List Ipasfrag} (h : Sorted d l) (hn : 0 ≤ n)
    (hc : contiguous n l = some e) :
    n ≤ e ∧ l.flatMap (fun f => bytes f.m) = (d.payload.drop n.toNat).take (e - n).toNat ∧
      (∀ x, n ≤ x → x < e → fragments.Covers Ipasfrag.ip_off l x) ∧
      ∀ f ∈ l.getLast?, f.ip_off + f.ip_len = e := by
  induction l generalizing n with
  | nil =>
    obtain rfl := Option.some.inj hc
    exact ⟨le_rfl, by simp, fun x h₁ h₂ => absurd h₁ (not_le.2 h₂), by simp⟩
  | cons f l ih =>
    have hf := (h.frag f List.mem_cons_self).bounds
    obtain ⟨off, hat⟩ := h.frag f List.mem_cons_self
    obtain ⟨hl, hfl⟩ := h.tail
    rw [contiguous] at hc
    split_ifs at hc with heq
    obtain ⟨hne, hdata, hcov, hlast⟩ := ih hl (by omega) hc
    refine ⟨by omega, ?_, fun x h₁ h₂ => ?_, fun q hq => ?_⟩
    · have hoff := hat.ip_off
      have hlen := hat.ip_len
      rw [List.flatMap_cons, hdata, List.prefix_iff_eq_take.1 hat.data,
        show n.toNat = off by omega, show (n + f.ip_len).toNat = off + (bytes f.m).length by omega,
        show (e - n).toNat = (bytes f.m).length + (e - (n + f.ip_len)).toNat by omega,
        List.take_add, List.drop_drop]
    · by_cases hx : x < n + f.ip_len
      · exact ⟨f, List.mem_cons_self, by omega, by simp only [fragments]; omega⟩
      · obtain ⟨q, hq, hxq⟩ := hcov x (by omega) h₂
        exact ⟨q, .tail _ hq, hxq⟩
    · cases l with
      | nil =>
        obtain rfl : f = q := by simpa using hq
        obtain rfl := Option.some.inj hc
        omega
      | cons r l => exact hlast q (by simpa [List.getLast?_cons_cons] using hq)

theorem splat_ne_nil (m : Mbuf UInt8) (l : List (Mbuf UInt8)) : splat m l ≠ [] := by
  induction l generalizing m with
  | nil => simp [splat]
  | cons n l ih =>
    rw [splat]
    split_ifs
    · simp
    · exact ih _

theorem m_cat_ne_nil (m : Mbuf UInt8) (l n : List (Mbuf UInt8)) : m_cat m l n ≠ [] := by
  cases l
  · exact splat_ne_nil _ _
  · simp [m_cat]

theorem bytes_concatenate {m : List (Mbuf UInt8)} (l : List Ipasfrag) (h : m ≠ []) :
    concatenate m l ≠ [] ∧ bytes (concatenate m l) = bytes m ++ l.flatMap fun f => bytes f.m := by
  induction l generalizing m with
  | nil => simp [concatenate, h]
  | cons q l ih =>
    cases m with
    | nil => exact absurd rfl h
    | cons m t =>
      rw [concatenate]
      obtain ⟨hne, hb⟩ := ih (m_cat_ne_nil m t q.m)
      refine ⟨hne, ?_⟩
      rw [hb, bytes_m_cat]
      simp

theorem bytes_unhide {hdr : List UInt8} {m : List (Mbuf UInt8)} (h : m ≠ []) :
    bytes (unhide hdr m) = hdr.drop (hdr.length - sizeofIpasfrag) ++ bytes m := by
  cases m with
  | nil => exact absurd rfl h
  | cons m l => simp [unhide]

theorem length_header (ip : Ipasfrag) : (header ip).length = 20 + ip.options.length := by
  simp [header, short]
  omega

/-- The datagram made of all fragments: its header is visible if it has no options. -/
theorem assemble_spec {fp : Ipq} {f : Ipasfrag} {l : List Ipasfrag} (h : Sorted d (f :: l))
    (hsrc : fp.ipq_src = d.ip_src) (hdst : fp.ipq_dst = d.ip_dst)
    (hT : d.payload.length ≤ 32767) (hc : contiguous 0 (f :: l) = some (d.payload.length : ℤ))
    (hhl : f.ip_hl = 5) : Made d f (assemble fp f l d.payload.length) := by
  obtain ⟨off, hat⟩ := h.frag f List.mem_cons_self
  have hlen : toShort (d.payload.length : ℤ) = d.payload.length :=
    toShort_of_mem (by omega) (by omega)
  have hopt : f.options = [] := List.eq_nil_of_length_eq_zero (by rw [hat.ip_hl.2, hhl])
  have hdata := (contiguous_spec h le_rfl hc).2.1
  have hhdr (ip : Ipasfrag) (h : ip.options = []) : (header ip).length - sizeofIpasfrag = 0 := by
    rw [length_header, h]
    rfl
  obtain ⟨m, t, hm⟩ := List.exists_cons_of_ne_nil hat.m
  constructor
  · simp only [assemble]
    exact hlen
  · simp only [assemble, hlen, hm, hsrc, hdst, ← hat.ip_src, ← hat.ip_dst]
    obtain ⟨hne, hb⟩ := bytes_concatenate l (m_cat_ne_nil m [] t)
    rw [bytes_unhide hne, hb, hhdr, bytes_m_cat]
    · simp only [List.flatMap_cons, hm, bytes_cons] at hdata
      simpa using hdata
    · exact hopt

/-- The check for complete reassembly succeeds if all has arrived, and only then. -/
theorem check_spec {fp : Ipq} (h : Sorted d fp.ipq_next) (hne : fp.ipq_next ≠ [])
    (hsrc : fp.ipq_src = d.ip_src) (hdst : fp.ipq_dst = d.ip_dst) :
    ((check fp).2.isSome ↔ ∀ x : ℤ, 0 ≤ x → x < d.payload.length →
      fragments.Covers Ipasfrag.ip_off fp.ipq_next x) ∧
    ((check fp).2 = none → (check fp).1 = some fp) ∧
    ∀ r, (check fp).2 = some r → (check fp).1 = none ∧
      ∃ f, fp.ipq_next.head? = some f ∧ f.ip_off = 0 ∧ (f.ip_hl = 5 → Made d f r) := by
  obtain ⟨f, l, hq⟩ := List.exists_cons_of_ne_nil hne
  rw [hq] at h ⊢
  obtain ⟨last, hlast⟩ : ∃ last, (f :: l).getLast? = some last :=
    ⟨_, List.getLast?_eq_some_getLast (by simp)⟩
  have hfrag := h.frag last (List.mem_of_getLast? hlast)
  by_cases hall : ∀ x : ℤ, 0 ≤ x → x < d.payload.length →
      fragments.Covers Ipasfrag.ip_off (f :: l) x
  · have hc := contiguous_of_covers h (Int.natCast_nonneg _)
      (fun q hq => (h.frag q hq).bounds.1) hall
    have hend := (contiguous_spec h le_rfl hc).2.2.2 last hlast
    have hmff : last.ipf_mff = false := by
      have := hfrag.bounds.2.2.2
      simp only [hend, lt_self_iff_false, iff_false, Bool.not_eq_true] at this
      exact this
    have hcheck : check fp = (none, some (assemble fp f l d.payload.length)) := by
      simp only [check, hq, hc, hlast, hmff]
      rfl
    have hT : d.payload.length ≤ 32767 := by
      obtain ⟨off, hat⟩ := hfrag
      have := hat.ip_off
      have := hat.ip_len
      have := hat.short
      omega
    have hoff : f.ip_off = 0 := by
      rw [contiguous] at hc
      split_ifs at hc with he
      exact not_not.1 he
    rw [hcheck]
    refine ⟨by simpa using hall, by simp, fun r hr => ⟨rfl, f, rfl, hoff, fun hhl => ?_⟩⟩
    obtain rfl := Option.some.inj hr
    exact assemble_spec h hsrc hdst hT hc hhl
  · have hcheck : check fp = (some fp, none) := by
      simp only [check, hq, hlast]
      cases hc : contiguous 0 (f :: l) with
      | none => rfl
      | some e =>
        obtain ⟨_, _, hcov, hend⟩ := contiguous_spec h le_rfl hc
        have hmff : last.ipf_mff = true := by
          by_contra hmff
          have := hfrag.bounds.2.2
          rw [this.2, hend last hlast, not_lt] at hmff
          exact hall fun x h₀ hx => hcov x h₀ (lt_of_lt_of_le hx hmff)
        simp only [hmff, if_true]
    rw [hcheck]
    exact ⟨by simp [hall], by simp, by simp⟩

/-! ## Runs -/

/-- The fragment ends where a `short` can count; there is an mbuf for the queue when it
    is made; and the first fragment of a datagram that is complete has no options. -/
def Act.Clean (d : Datagram) (s : Run) : Act → Prop
  | .fragment ip nobufs =>
    8 * (ip.ip_off % 8192) + (bytes ip.m).length ≤ 32767 ∧ (s.fp = none → nobufs = false) ∧
    (Complete d s ip → (∀ q ∈ queue s.fp, q.ip_off = 0 → q.ip_hl = 5) ∧
      ((∀ q ∈ queue s.fp, q.ip_off ≠ 0) → ip.ip_hl = 5))
  | .expire => True

/-- What every reachable state satisfies. -/
structure Inv (d : Datagram) (s : Run) : Prop where
  sorted : Sorted d (queue s.fp)
  held : ∀ x, fragments.Covers Ipasfrag.ip_off (queue s.fp) x ↔ s.arrived x
  key : ∀ fp ∈ s.fp, fp.ipq_next ≠ [] ∧ fp.ipq_src = d.ip_src ∧ fp.ipq_dst = d.ip_dst
  incomplete : ∀ fp ∈ s.fp, ∃ x : ℤ, 0 ≤ x ∧ x < d.payload.length ∧ ¬ s.arrived x

/-- The first fragment of a queue into which a fragment is put. -/
theorem head_insert {p f : Ipasfrag} {l t : List Ipasfrag} (hp : IsFrag d p) (hl : Sorted d l)
    (hi : Positioned.Inserted fragments Ipasfrag.ip_off p l (f :: t)) (hf : f.ip_off = 0) :
    f ∈ l ∨ f = p ∧ ∀ q ∈ l, q.ip_off ≠ 0 := by
  have hP := positioned (d := d)
  have hpos {r : Ipasfrag} (hr : IsFrag d r) (hend : fragments.IsEnd r f) : f = r := by
    rcases hend with rfl | ⟨i, h₀, hlen, rfl⟩
    · rfl
    · have := hP.pos_cut hr h₀ hlen
      have := hr.bounds.1
      omega
  rcases hi.mem f List.mem_cons_self with hend | ⟨r, hr, hend⟩
  · obtain rfl := hpos hp hend
    refine or_iff_not_imp_left.2 fun hfl => ⟨rfl, fun q hq hq₀ => ?_⟩
    rcases List.mem_cons.1 (hi.before q hq (by omega)) with rfl | hqt
    · exact hfl hq
    · have := (List.pairwise_cons.1 hi.sorted).1 q hqt
      have := hp.bounds.2.1
      simp only [fragments] at *
      omega
  · exact .inl (hpos (hl.frag r hr) hend ▸ hr)

/-- A call of `ip_reass`. -/
theorem Inv.reass {s : Run} {ip : Packet} {nobufs : Bool} (h : Inv d s) (hip : FragmentOf d ip)
    (hc : (Act.fragment ip nobufs).Clean d s) :
    ∃ l, Sorted d l ∧ (∀ x, fragments.Covers Ipasfrag.ip_off l x ↔ s.arrived x ∨ ip.has x) ∧
      ((ip_reass (ours ip) nobufs s.fp).2.isSome ↔ Complete d s ip) ∧
      ((ip_reass (ours ip) nobufs s.fp).2 = none → queue (ip_reass (ours ip) nobufs s.fp).1 = l ∧
        ∀ fp ∈ (ip_reass (ours ip) nobufs s.fp).1, fp.ipq_next ≠ [] ∧ fp.ipq_src = d.ip_src ∧
          fp.ipq_dst = d.ip_dst) ∧
      ∀ r, (ip_reass (ours ip) nobufs s.fp).2 = some r →
        (ip_reass (ours ip) nobufs s.fp).1 = none ∧
        ∃ f, (f ∈ queue s.fp ∨ f = ours ip) ∧ f.ip_off = 0 ∧ Made d f r := by
  obtain ⟨hshort, hbuf, hhl⟩ := hc
  obtain ⟨hat, hhas⟩ := ours_spec hip hshort
  have hfrag : IsFrag d (ours ip) := ⟨_, hat⟩
  have hP := positioned (d := d)
  -- The queue in which the fragment is.
  have hcheck (fp : Ipq) (hs : Sorted d fp.ipq_next) (hne : fp.ipq_next ≠ [])
      (hsrc : fp.ipq_src = d.ip_src) (hdst : fp.ipq_dst = d.ip_dst)
      (hcov : ∀ x, fragments.Covers Ipasfrag.ip_off fp.ipq_next x ↔ s.arrived x ∨ ip.has x)
      (hhead : ∀ f t, fp.ipq_next = f :: t → f.ip_off = 0 →
        f ∈ queue s.fp ∨ f = ours ip ∧ ∀ q ∈ queue s.fp, q.ip_off ≠ 0) :
      ((check fp).2.isSome ↔ Complete d s ip) ∧ ((check fp).2 = none → queue (check fp).1 =
        fp.ipq_next ∧ ∀ fp' ∈ (check fp).1, fp'.ipq_next ≠ [] ∧ fp'.ipq_src = d.ip_src ∧
          fp'.ipq_dst = d.ip_dst) ∧ ∀ r, (check fp).2 = some r → (check fp).1 = none ∧
        ∃ f, (f ∈ queue s.fp ∨ f = ours ip) ∧ f.ip_off = 0 ∧ Made d f r := by
    obtain ⟨hiff, hnone, hsome⟩ := check_spec hs hne hsrc hdst
    have hcomplete : (check fp).2.isSome ↔ Complete d s ip := by
      rw [hiff]
      exact forall_congr' fun x => by rw [hcov]
    refine ⟨hcomplete, fun hr => ?_, fun r hr => ?_⟩
    · rw [hnone hr]
      refine ⟨rfl, ?_⟩
      rintro _ ⟨⟩
      exact ⟨hne, hsrc, hdst⟩
    · obtain ⟨hr', f, hf, hf₀, hmade⟩ := hsome r hr
      obtain ⟨t, ht⟩ := List.head?_eq_some_iff.1 hf
      obtain ⟨hq, hnew⟩ := hhl (hcomplete.1 (by rw [hr]; rfl))
      refine ⟨hr', f, ?_, hf₀, hmade ?_⟩
      · exact (hhead f t ht hf₀).imp_right And.left
      · rcases hhead f t ht hf₀ with hmem | ⟨rfl, hno⟩
        · exact hq f hmem hf₀
        · exact hnew hno
  cases hfp : s.fp with
  | none =>
    have hempty : queue s.fp = [] := by rw [hfp]; rfl
    have hsorted : Sorted d [ours ip] := ⟨by simpa using hfrag, List.pairwise_singleton _ _⟩
    have hcov (x : ℤ) : fragments.Covers Ipasfrag.ip_off [ours ip] x ↔ s.arrived x ∨ ip.has x := by
      rw [← h.held, hempty, ← hhas]
      simp [Covers]
    rw [ip_reass, if_neg (by simp [hbuf hfp])]
    have hnew := hcheck (newIpq (ours ip)) hsorted (by simp [newIpq]) hat.ip_src hat.ip_dst hcov
      fun f t hft _ => by
        obtain ⟨rfl, _⟩ := List.cons.inj hft
        exact .inr ⟨rfl, by simp [hempty]⟩
    rw [hfp] at hnew
    exact ⟨_, hsorted, hcov, hnew⟩
  | some fp =>
    obtain ⟨hne, hsrc, hdst⟩ := h.key fp hfp
    have hq : queue s.fp = fp.ipq_next := by rw [hfp]; rfl
    have hsort := h.sorted
    rw [hq] at hsort
    rw [ip_reass]
    cases hi : fragments.insert (ours ip) fp.ipq_next with
    | none =>
      obtain ⟨q, hmem, hqp, _, hend⟩ := hP.insert_none hfrag hsort.frag hi
      have hheld (x : ℤ) (hx : ip.has x) : s.arrived x := by
        obtain ⟨h₁, h₂⟩ := (hhas x).2 hx
        exact (h.held x).1 ⟨q, hq ▸ hmem, hqp.trans h₁, lt_of_lt_of_le h₂ hend⟩
      obtain ⟨x, hx₀, hx, hmiss⟩ := h.incomplete fp hfp
      refine ⟨fp.ipq_next, hsort, fun x => ?_, ?_, fun _ => ⟨rfl, ?_⟩, by simp⟩
      · rw [← hq, h.held]
        exact ⟨.inl, fun hx => hx.elim id (hheld x)⟩
      · simp only [Option.isSome_none, Bool.false_eq_true, false_iff]
        exact fun hall => hmiss ((hall x hx₀ hx).elim id (hheld x))
      · rintro _ ⟨⟩
        exact ⟨hne, hsrc, hdst⟩
    | some l =>
      have hins := hP.insert_spec hfrag hsort.frag hsort.sorted hi
      have hcov (x : ℤ) : fragments.Covers Ipasfrag.ip_off l x ↔ s.arrived x ∨ ip.has x := by
        rw [hP.covers_insert hfrag hsort.frag hins, ← hq, h.held, hhas]
      have hsorted : Sorted d l := by
        refine ⟨fun f hf => ?_, hins.sorted⟩
        rcases hins.mem f hf with hend | ⟨r, hr, hend⟩
        · exact hP.ok_isEnd hfrag hend
        · exact hP.ok_isEnd (hsort.frag r hr) hend
      have hnel : l ≠ [] := by
        obtain ⟨q, hmem, _⟩ := hins.new
        exact List.ne_nil_of_mem hmem
      have hnew := hcheck { fp with ipq_next := l } hsorted hnel hsrc hdst hcov fun f t hft hf => by
        obtain rfl : l = f :: t := hft
        rw [hq]
        exact head_insert hfrag hsort hins hf
      rw [hfp] at hnew
      exact ⟨_, hsorted, hcov, hnew⟩

theorem Inv.empty : Inv d ⟨none, fun _ => false⟩ :=
  ⟨⟨by simp [queue], .nil⟩, by simp [queue, Covers], by simp, by simp⟩

theorem inv_of_clean {s : Run}
    (hs : reassembly.ReachableIf (fun s a => a.Valid d ∧ a.Clean d s) s) : Inv d s := by
  refine hs.invariant (fun s h => ?_) fun s a s' h hok hn => ?_
  · obtain ⟨fp, arrived⟩ := s
    obtain ⟨hfp, harr⟩ := h
    simp only at hfp harr
    subst hfp
    obtain rfl : arrived = fun _ => false := funext harr
    exact .empty
  cases a with
  | fragment ip nobufs =>
    obtain ⟨l, hl, hcov, hiff, hnone, hsome⟩ := h.reass hok.1 hok.2
    simp only [reassembly] at hn
    split_ifs at hn
    rcases hr : ip_reass (ours ip) nobufs s.fp with ⟨fp, r⟩
    rw [hr] at hn hiff hnone hsome
    cases r with
    | some r =>
      obtain rfl : fp = none := (hsome r rfl).1
      exact Option.some.inj hn ▸ .empty
    | none =>
      obtain ⟨hq, hkey⟩ := hnone rfl
      refine Option.some.inj hn ▸ ⟨hq ▸ hl, fun x => ?_, hkey, fun fp _ => ?_⟩
      · simp only at hq
        rw [hq, hcov, Bool.or_eq_true]
      · have hnot : ¬ Complete d s ip := fun hc => by simpa using hiff.2 hc
        simp only [Complete, not_forall] at hnot
        obtain ⟨x, h₀, hx, hmiss⟩ := hnot
        exact ⟨x, h₀, hx, by simpa using hmiss⟩
  | expire => exact Option.some.inj hn ▸ .empty

/-- In every reachable state, the next call of `ip_reass` returns the datagram if it is
    complete, and keeps what has arrived otherwise. -/
theorem datagram_of_clean {s : Run}
    (hs : reassembly.ReachableIf (fun s a => a.Valid d ∧ a.Clean d s) s) :
    Reassembled (fun s a => a.Clean d s) d s := by
  have h := inv_of_clean hs
  refine ⟨h.sorted.sorted, fun q hq => ?_, h.held, fun hip hc => ?_, fun hip hc hr => ?_,
    fun hip hc hr x => ?_⟩
  · obtain ⟨off, hat⟩ := h.sorted.frag q hq
    refine ⟨by rw [hat.ip_off]; exact Int.natCast_nonneg _, hat.ip_len, ?_⟩
    rw [hat.ip_off]
    exact hat.data
  · obtain ⟨l, _, _, hiff, _⟩ := h.reass hip hc
    exact hiff
  · obtain ⟨l, _, _, _, _, hsome⟩ := h.reass hip hc
    exact (hsome _ hr).2
  · obtain ⟨l, _, hcov, _, hnone, _⟩ := h.reass hip hc
    rw [(hnone hr).1]
    exact hcov x

/-! ## Options in the first fragment -/

/-- Nine bytes in two fragments, the first with `options`. -/
def nine : Datagram := ⟨1, 17, 10, 20, [1, 2, 3, 4, 5, 6, 7, 8, 9]⟩

@[inherit_doc nine]
def first (options : List UInt8) : Packet where
  ip_v := 4
  ip_hl := 5 + options.length / 4
  ip_tos := 0
  ip_len := 20 + options.length / 4 * 4 + 8
  ip_id := 1
  ip_off := 8192
  ip_ttl := 30
  ip_p := 17
  ip_sum := 0
  ip_src := 10
  ip_dst := 20
  options := options
  m := [⟨60, [1, 2, 3, 4, 5, 6, 7, 8], false⟩]

@[inherit_doc nine]
def second : Packet :=
  { first [] with ip_len := 21, ip_off := 1, m := [⟨60, [9], false⟩] }

theorem fragmentOf_first {options : List UInt8} (h : options = [] ∨ options = [1, 1, 1, 0]) :
    FragmentOf nine (first options) := by
  rcases h with rfl | rfl <;>
    exact ⟨rfl, rfl, rfl, rfl, by decide, by decide, by decide, by decide, ⟨[9], rfl⟩, by decide,
      by decide⟩

theorem fragmentOf_second : FragmentOf nine second :=
  ⟨rfl, rfl, rfl, rfl, by decide, by decide, by decide, by decide, ⟨[], rfl⟩, by decide, by decide⟩

theorem init_none : reassembly.init ⟨none, fun _ => false⟩ := ⟨rfl, fun _ => rfl⟩

/-- Without options, the second fragment makes the datagram complete. -/
theorem datagram_first : ∃ s, reassembly.next ⟨none, fun _ => false⟩ (.fragment (first []) false)
    = some s ∧ Reassembled (fun s a => a.Clean nine s) nine s := by
  have hclean : (Act.fragment (first []) false).Clean nine ⟨none, fun _ => false⟩ :=
    ⟨by decide, fun _ => rfl, fun _ => ⟨by simp [queue], fun _ => rfl⟩⟩
  exact ⟨_, rfl, datagram_of_clean (.step (a := .fragment (first []) false) (.init init_none)
    ⟨fragmentOf_first (.inl rfl), hclean⟩ rfl)⟩

/-- With options, the datagram begins with the last 20 bytes of the header of the first
    fragment. -/
theorem not_datagram : ¬ ∀ (d : Datagram) s,
    reassembly.ReachableIf (fun _ a => a.Valid d) s → Reassembled (fun _ _ => True) d s := by
  intro h
  obtain ⟨s, hs, hq, r, hr, hlen⟩ : ∃ s, reassembly.next ⟨none, fun _ => false⟩
      (.fragment (first [1, 1, 1, 0]) false) = some s ∧ queue s.fp = [ours (first [1, 1, 1, 0])] ∧
      ∃ r, (ip_reass (ours second) false s.fp).2 = some r ∧ (bytes r.m).length = 29 :=
    ⟨_, rfl, rfl, _, rfl, rfl⟩
  have hreass := h nine s (.step (a := .fragment (first [1, 1, 1, 0]) false)
    (.init init_none) (fragmentOf_first (.inr rfl)) hs)
  obtain ⟨f, hf, hoff, hmade⟩ := hreass.made fragmentOf_second trivial hr
  have hbytes := congrArg List.length hmade.bytes
  rw [hlen, List.length_append, length_header] at hbytes
  rcases hf with hf | rfl
  · obtain rfl := List.mem_singleton.1 (hq ▸ hf)
    exact absurd hbytes (by decide)
  · exact absurd hoff (by decide)

end AuxKernel.Ip
