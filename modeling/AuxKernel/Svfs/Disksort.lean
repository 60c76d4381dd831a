import AuxKernel.System
import AuxKernel.Basic
import AuxKernel.LinkedList
import AuxKernel.Sweep

/-!
# Seek sort for disks

`disksort` (`SVFS/sys/5_dsort.c`) puts a request on the queue of a drive: into the run that is
being served if its cylinder is at or after that of the head, and else into the second one.
The driver serves the head, and takes it off. Buffers are named by numbers, of which there
are `n`; following a null pointer is `none`, and the walks along the queue take fuel, of
which the number of the buffers is enough.

The machine (`disk`) remembers the requests that are pending, in the order they arrived in.

* `Inv.step`: the queue holds the pending requests in two runs, the second below the head,
  those of a cylinder in the order they arrived in, and the tail pointer designates the last;
* `disksort_sound`: this is so in every run, and the cylinders that are served while a request
  waits are those of at most two sweeps, the last of which serves it.
-/

namespace AuxKernel.Svfs.Disksort

/-- A buffer; of the cylinder `b_cylin`, which is kept in `b_resid`. -/
structure Buf where
  av_forw : Option ℕ
  b_cylin : ℤ
  deriving DecidableEq, Repr

/-- The buffers, the head and the tail of the queue of the drive, and the requests. -/
structure State where
  buf : ℕ → Buf
  b_actf : Option ℕ
  b_actl : Option ℕ
  pending : List ℕ

/-- The cylinder of a request. -/
def State.cyl (s : State) (x : ℕ) : ℤ := (s.buf x).b_cylin

def State.setForw (s : State) (x : ℕ) (p : Option ℕ) : State :=
  { s with buf := Function.update s.buf x { s.buf x with av_forw := p } }

/-! ## The places of requests -/

section Walks

variable (b : ℕ → Buf) (bp : ℕ)

/-- Search the second request list for the first request at a larger cylinder. -/
def secondList : (fuel : ℕ) → (ap : ℕ) → Option ℕ
  | 0, _ => none
  | n + 1, ap =>
    match (b ap).av_forw with
    | none => some ap
    | some next => if (b bp).b_cylin < (b next).b_cylin then some ap else secondList n next

/-- Look for an inversion, where the second request list begins. -/
def inversion : (fuel : ℕ) → (ap : ℕ) → Option ℕ
  | 0, _ => none
  | n + 1, ap =>
    match (b ap).av_forw with
    | none => some ap
    | some next =>
      if (b next).b_cylin < (b ap).b_cylin then secondList b bp (n + 1) ap else inversion n next

/-- Search the first request list for the end of it, or a request at a larger cylinder. -/
def firstList : (fuel : ℕ) → (ap : ℕ) → Option ℕ
  | 0, _ => none
  | n + 1, ap =>
    match (b ap).av_forw with
    | none => some ap
    | some next =>
      if (b next).b_cylin < (b ap).b_cylin ∨ (b bp).b_cylin < (b next).b_cylin then some ap
      else firstList n next

end Walks

/-- Insert the request `bp` behind `ap`. -/
def insert (bp ap : ℕ) (s : State) : State :=
  let s := s.setForw bp (s.buf ap).av_forw
  let s := s.setForw ap (some bp)
  { s with b_actl := if s.b_actl = some ap then some bp else s.b_actl }

/-- Put the request `bp` on the queue. -/
def disksort (n bp : ℕ) (s : State) : Option State :=
  match s.b_actf with
  | none => some { s.setForw bp none with b_actf := some bp, b_actl := some bp }
  | some ap =>
    if (s.buf bp).b_cylin < (s.buf ap).b_cylin then
      (inversion s.buf bp n ap).map fun ap => insert bp ap s
    else (firstList s.buf bp n ap).map fun ap => insert bp ap s

/-! ## Runs -/

/-- A request for a cylinder arrives, or the head of the queue is served. -/
inductive Action
  | strategy (bp : ℕ) (cylin : ℤ)
  | iodone
  deriving DecidableEq, Repr

def next (n : ℕ) (s : State) : Action → Option State
  | .strategy bp cylin =>
    if bp < n ∧ bp ∉ s.pending then
      let s := { s with
        buf := Function.update s.buf bp { s.buf bp with b_cylin := cylin }
        pending := s.pending ++ [bp] }
      disksort n bp s
    else none
  | .iodone => s.b_actf.map fun bp =>
    { s with b_actf := (s.buf bp).av_forw, pending := s.pending.erase bp }

/-- A drive with `n` buffers for its requests, and none pending. -/
def disk (n : ℕ) : Machine State Action where
  init s := s.b_actf = none ∧ s.pending = []
  next := next n

/-- The pending request `r` waits, and the cylinders `ks` are served before it. -/
inductive Waits (n r : ℕ) (s : State) : List ℤ → State → Prop
  | refl : r ∈ s.pending → Waits n r s [] s
  | strategy {ks : List ℤ} {s' s'' : State} {bp : ℕ} {cylin : ℤ} : Waits n r s ks s' →
      next n s' (.strategy bp cylin) = some s'' → Waits n r s ks s''
  | iodone {ks : List ℤ} {s' s'' : State} {bp : ℕ} : Waits n r s ks s' → s'.b_actf = some bp →
      bp ≠ r → next n s' .iodone = some s'' → Waits n r s (ks ++ [s'.cyl bp]) s''

/-- The requests of `q` are on the queue, in two runs. -/
structure Runs (s : State) (q : List ℕ) : Prop where
  actf : s.b_actf = q.head?
  chained : Chained (fun x => (s.buf x).av_forw) q
  actl : q ≠ [] → s.b_actl = q.getLast?
  sweeps : ∃ l₁ l₂, q = l₁ ++ l₂ ∧ Sweeps s.cyl l₁ l₂

/-- They are the pending requests, and those of a cylinder are in the order of arrival. -/
structure Queue (s : State) (q : List ℕ) : Prop where
  runs : Runs s q
  perm : q.Perm s.pending
  stable : ∀ k, q.filter (s.cyl · = k) = s.pending.filter (s.cyl · = k)

/-- The invariant. -/
structure Inv (n : ℕ) (s : State) (q : List ℕ) : Prop where
  queue : Queue s q
  nodup : q.Nodup
  lt : ∀ x ∈ q, x < n

variable {n bp ap r : ℕ} {s s' : State} {b : ℕ → Buf} {q l l₁ l₂ u w : List ℕ}

theorem secondList_spec (bp : ℕ) (hc : Chained (fun x => (b x).av_forw) (ap :: l))
    (hn : l.length < n) : ∃ u w, l = u ++ w ∧ secondList b bp n ap = (ap :: u).getLast? ∧
      Place (fun x => (b x).b_cylin) bp u w := by
  induction l generalizing n ap with
  | nil =>
    obtain ⟨n, rfl⟩ := Nat.exists_eq_succ_of_ne_zero (Nat.ne_of_gt hn)
    have hap : (b ap).av_forw = none := hc.1
    refine ⟨[], [], rfl, ?_, nofun, nofun⟩
    rw [secondList, hap]
    rfl
  | cons x l ih =>
    obtain ⟨n, rfl⟩ := Nat.exists_eq_succ_of_ne_zero (Nat.ne_of_gt (Nat.zero_lt_of_lt hn))
    have hap : (b ap).av_forw = some x := hc.1
    rw [secondList, hap]
    dsimp only
    by_cases hx : (b bp).b_cylin < (b x).b_cylin
    · rw [if_pos hx]
      refine ⟨[], x :: l, rfl, rfl, nofun, fun y hy => ?_⟩
      obtain rfl := Option.some.inj hy
      exact hx
    · rw [if_neg hx]
      obtain ⟨u, w, rfl, hu, hp⟩ := ih hc.2 (Nat.lt_of_succ_lt_succ hn)
      refine ⟨x :: u, w, rfl, ?_, fun y hy => ?_, hp.lt⟩
      · rw [hu, List.getLast?_cons_cons]
      · rcases List.mem_cons.1 hy with rfl | hy
        · exact not_lt.1 hx
        · exact hp.le y hy

/-- The second list begins at the only inversion. -/
theorem inversion_spec (bp : ℕ) (hc : Chained (fun x => (b x).av_forw) (ap :: l₁ ++ l₂))
    (ha : Ascending (fun x => (b x).b_cylin) (ap :: l₁))
    (hlt : ∀ y ∈ l₂, ∀ x ∈ ap :: l₁, (b y).b_cylin < (b x).b_cylin)
    (hn : (l₁ ++ l₂).length < n) :
    ∃ u w, l₂ = u ++ w ∧ inversion b bp n ap = (ap :: l₁ ++ u).getLast? ∧
      Place (fun x => (b x).b_cylin) bp u w := by
  obtain ⟨n, rfl⟩ := Nat.exists_eq_succ_of_ne_zero (Nat.ne_of_gt (Nat.zero_lt_of_lt hn))
  induction l₁ generalizing n ap with
  | nil =>
    cases l₂ with
    | nil =>
      have hap : (b ap).av_forw = none := hc.1
      refine ⟨[], [], rfl, ?_, nofun, nofun⟩
      rw [inversion, hap]
      rfl
    | cons y l₂ =>
      have hap : (b ap).av_forw = some y := hc.1
      rw [inversion, hap]
      dsimp only
      rw [if_pos (hlt y List.mem_cons_self ap List.mem_cons_self)]
      exact secondList_spec bp hc hn
  | cons x l₁ ih =>
    obtain ⟨n, rfl⟩ := Nat.exists_eq_succ_of_ne_zero
      (Nat.ne_of_gt (Nat.zero_lt_of_lt (Nat.lt_of_succ_lt_succ hn)))
    have hap : (b ap).av_forw = some x := hc.1
    obtain ⟨hle, ha⟩ := List.pairwise_cons.1 ha
    rw [inversion, hap]
    dsimp only
    rw [if_neg (hle x List.mem_cons_self).not_gt]
    obtain ⟨u, w, hl, hu, hp⟩ := ih hc.2 ha
      (fun y hy z hz => hlt y hy z (List.mem_cons_of_mem _ hz)) n (Nat.lt_of_succ_lt_succ hn)
    exact ⟨u, w, hl, hu.trans List.getLast?_cons_cons.symm, hp⟩

theorem firstList_spec (bp : ℕ) (hc : Chained (fun x => (b x).av_forw) (ap :: l₁ ++ l₂))
    (ha : Ascending (fun x => (b x).b_cylin) (ap :: l₁))
    (hlt : ∀ y ∈ l₂, ∀ x ∈ ap :: l₁, (b y).b_cylin < (b x).b_cylin)
    (hn : (l₁ ++ l₂).length < n) :
    ∃ u w, l₁ = u ++ w ∧ firstList b bp n ap = (ap :: u).getLast? ∧
      Place (fun x => (b x).b_cylin) bp u w := by
  obtain ⟨n, rfl⟩ := Nat.exists_eq_succ_of_ne_zero (Nat.ne_of_gt (Nat.zero_lt_of_lt hn))
  induction l₁ generalizing n ap with
  | nil =>
    refine ⟨[], [], rfl, ?_, nofun, nofun⟩
    cases l₂ with
    | nil =>
      have hap : (b ap).av_forw = none := hc.1
      rw [firstList, hap]
      rfl
    | cons y l₂ =>
      have hap : (b ap).av_forw = some y := hc.1
      rw [firstList, hap]
      dsimp only
      rw [if_pos (.inl (hlt y List.mem_cons_self ap List.mem_cons_self))]
      rfl
  | cons x l₁ ih =>
    obtain ⟨n, rfl⟩ := Nat.exists_eq_succ_of_ne_zero
      (Nat.ne_of_gt (Nat.zero_lt_of_lt (Nat.lt_of_succ_lt_succ hn)))
    have hap : (b ap).av_forw = some x := hc.1
    obtain ⟨hle, ha⟩ := List.pairwise_cons.1 ha
    rw [firstList, hap]
    dsimp only
    by_cases hx : (b bp).b_cylin < (b x).b_cylin
    · rw [if_pos (.inr hx)]
      refine ⟨[], x :: l₁, rfl, rfl, nofun, fun y hy => ?_⟩
      obtain rfl := Option.some.inj hy
      exact hx
    · rw [if_neg fun h => h.elim (hle x List.mem_cons_self).not_gt hx]
      obtain ⟨u, w, rfl, hu, hp⟩ := ih hc.2 ha
        (fun y hy z hz => hlt y hy z (List.mem_cons_of_mem _ hz)) n (Nat.lt_of_succ_lt_succ hn)
      refine ⟨x :: u, w, rfl, hu.trans List.getLast?_cons_cons.symm, fun y hy => ?_, hp.lt⟩
      rcases List.mem_cons.1 hy with rfl | hy
      · exact not_lt.1 hx
      · exact hp.le y hy

/-! ## Insertion and removal -/

theorem setForw_buf (s : State) (x y : ℕ) (p : Option ℕ) : (s.setForw x p).buf y =
    { s.buf y with av_forw := if y = x then p else (s.buf y).av_forw } := by
  unfold State.setForw
  dsimp only
  rw [Function.update_apply]
  split_ifs with hy
  · rw [hy]
  · rfl

theorem insert_buf (s : State) (bp ap x : ℕ) : (insert bp ap s).buf x = { s.buf x with
    av_forw := if x = ap then some bp else if x = bp then (s.buf ap).av_forw
      else (s.buf x).av_forw } := by
  unfold insert
  dsimp only
  rw [setForw_buf, setForw_buf]

theorem insert_cyl (s : State) (bp ap : ℕ) : (insert bp ap s).cyl = s.cyl := by
  funext x
  rw [State.cyl, insert_buf]
  rfl

/-- The request is linked in behind the last one of `u`. -/
theorem chained_insert (hc : Chained (fun x => (s.buf x).av_forw) (u ++ w))
    (hnd : (u ++ w).Nodup) (hbp : bp ∉ u ++ w) (hap : u.getLast? = some ap) :
    Chained (fun x => ((insert bp ap s).buf x).av_forw) (u ++ bp :: w) := by
  obtain ⟨hndu, -, hdisj⟩ := List.nodup_append.1 hnd
  have hmem : ap ∈ u := List.mem_of_getLast? hap
  have hne {x : ℕ} (hx : x ∈ u ++ w) : x ≠ bp := fun he => hbp (he ▸ hx)
  have hapw : (s.buf ap).av_forw = w.head? := by
    obtain ⟨u, rfl⟩ := List.getLast?_eq_some_iff.1 hap
    rw [List.append_assoc] at hc
    exact hc.next_eq
  refine hc.insert hndu ?_ (fun x hx => ?_) fun x hx => ?_
  · rw [insert_buf]
    dsimp only
    rw [if_neg (hne (List.mem_append_left _ hmem)).symm, if_pos rfl, hapw]
  · rw [insert_buf, hap]
    dsimp only
    rw [if_neg (hne (List.mem_append_left _ hx))]
    by_cases hxa : x = ap
    · rw [if_pos hxa, if_pos (hxa ▸ rfl)]
    · rw [if_neg hxa, if_neg fun he => hxa (Option.some.inj he).symm]
  · rw [insert_buf]
    dsimp only
    rw [if_neg fun he => hdisj ap hmem x hx he.symm, if_neg (hne (List.mem_append_right _ hx))]

/-- The queue depends only on its requests. -/
theorem Runs.congr (h : Runs s q) (hactf : s'.b_actf = s.b_actf) (hactl : s'.b_actl = s.b_actl)
    (hbuf : ∀ x ∈ q, s'.buf x = s.buf x) : Runs s' q := by
  obtain ⟨l₁, l₂, rfl, hs⟩ := h.sweeps
  have hcyl (x : ℕ) (hx : x ∈ l₁ ++ l₂) : s'.cyl x = s.cyl x := congrArg Buf.b_cylin (hbuf x hx)
  refine ⟨hactf.trans h.actf, h.chained.congr fun x hx => congrArg Buf.av_forw (hbuf x hx),
    fun hne => hactl.trans (h.actl hne), l₁, l₂, rfl, ?_, ?_, fun y hy => ?_⟩
  · refine hs.first.imp_of_mem fun hx hy hle => ?_
    rwa [hcyl _ (List.mem_append_left _ hx), hcyl _ (List.mem_append_left _ hy)]
  · refine hs.second.imp_of_mem fun hx hy hle => ?_
    rwa [hcyl _ (List.mem_append_right _ hx), hcyl _ (List.mem_append_right _ hy)]
  · obtain ⟨x, hx, hlt⟩ := hs.below y hy
    refine ⟨x, hx, ?_⟩
    rwa [hcyl y (List.mem_append_right _ hy),
      hcyl x (List.mem_append_left _ (List.mem_of_mem_head? hx))]

/-- The head is in the first run. -/
theorem Runs.cons {t : List ℕ} (h : Runs s (ap :: t)) :
    ∃ t₁ l₂, t = t₁ ++ l₂ ∧ Sweeps s.cyl (ap :: t₁) l₂ := by
  obtain ⟨l₁, l₂, hl, hs⟩ := h.sweeps
  cases l₁ with
  | nil =>
    obtain rfl : ap :: t = l₂ := hl
    obtain ⟨x, hx, -⟩ := hs.below ap List.mem_cons_self
    exact nomatch hx
  | cons x t₁ =>
    obtain ⟨rfl, rfl⟩ := List.cons.inj hl
    exact ⟨t₁, l₂, rfl, hs⟩

/-- A request behind the head is inserted where it keeps the runs. -/
theorem Runs.insert (h : Runs s (u ++ w)) (hnd : (u ++ w).Nodup) (hbp : bp ∉ u ++ w)
    (hap : u.getLast? = some ap) (hs : ∃ l₁ l₂, u ++ bp :: w = l₁ ++ l₂ ∧ Sweeps s.cyl l₁ l₂) :
    Runs (insert bp ap s) (u ++ bp :: w) := by
  have hu : u ≠ [] := fun he => by simp [he] at hap
  refine ⟨?_, chained_insert h.chained hnd hbp hap, fun _ => ?_, by rwa [insert_cyl]⟩
  · refine h.actf.trans ?_
    rw [List.head?_append_of_ne_nil _ hu, List.head?_append_of_ne_nil _ hu]
  · have hactl := h.actl (List.append_ne_nil_of_left_ne_nil hu _)
    show (if s.b_actl = some ap then some bp else s.b_actl) = _
    rw [hactl]
    cases w with
    | nil => rw [if_pos ((List.append_nil u).symm ▸ hap), List.getLast?_concat]
    | cons x w =>
      -- The last one is behind the place, and another than `ap`.
      have hlast (v : List ℕ) : (v ++ x :: w).getLast? = (x :: w).getLast? :=
        List.getLast?_append_of_ne_nil _ (List.cons_ne_nil x w)
      rw [hlast, if_neg fun he => ?_]
      · exact (hlast (u ++ [bp])).symm.trans (by simp)
      · obtain ⟨-, -, hdisj⟩ := List.nodup_append.1 hnd
        exact hdisj ap (List.mem_of_getLast? hap) ap (List.mem_of_getLast? he) rfl

/-- The request is put behind those of its cylinder, and the head stays. -/
theorem disksort_spec (h : Runs s q) (hnd : q.Nodup) (hbp : bp ∉ q) (hn : q.length ≤ n) :
    ∃ s' u w, disksort n bp s = some s' ∧ q = u ++ w ∧ Runs s' (u ++ bp :: w) ∧
      (∀ y ∈ w, s.cyl y ≠ s.cyl bp) ∧ (u = [] → q = []) ∧ s'.cyl = s.cyl ∧
      s'.pending = s.pending := by
  have hactf := h.actf
  unfold disksort
  cases q with
  | nil =>
    rw [hactf]
    refine ⟨_, [], [], rfl, rfl, ⟨rfl, ⟨?_, trivial⟩, fun _ => rfl, [bp], [], rfl,
      List.pairwise_singleton .., .nil, nofun⟩, nofun, fun _ => rfl, ?_, rfl⟩
    · show ((s.setForw bp none).buf bp).av_forw = none
      rw [setForw_buf]
      exact if_pos rfl
    · funext x
      show ((s.setForw bp none).buf x).b_cylin = _
      rw [setForw_buf]
      rfl
  | cons ap t =>
    obtain ⟨t₁, l₂, rfl, hs⟩ := h.cons
    have hlt (y : ℕ) (hy : y ∈ l₂) (x : ℕ) (hx : x ∈ ap :: t₁) :
        (s.buf y).b_cylin < (s.buf x).b_cylin :=
      (hs.lt_of_mem hy).trans_le (hs.first.le_of_mem hx)
    rw [hactf]
    dsimp only [List.head?_cons]
    by_cases hbelow : (s.buf bp).b_cylin < (s.buf ap).b_cylin
    · rw [if_pos hbelow]
      obtain ⟨u, w, rfl, hu, hp⟩ := inversion_spec bp h.chained hs.first hlt hn
      obtain ⟨a, ha⟩ : ∃ a, (ap :: t₁ ++ u).getLast? = some a :=
        Option.ne_none_iff_exists'.1 (by simp)
      obtain ⟨hs', hw⟩ := hs.insert_second hbelow hp
      have hassoc : ap :: (t₁ ++ (u ++ w)) = (ap :: t₁ ++ u) ++ w := by simp
      rw [hassoc] at h hnd hbp
      refine ⟨insert bp a s, ap :: t₁ ++ u, w, ?_, hassoc, h.insert hnd hbp ha
        ⟨ap :: t₁, u ++ bp :: w, by simp, hs'⟩, hw, nofun, insert_cyl .., rfl⟩
      rw [hu, ha]
      rfl
    · rw [if_neg hbelow]
      obtain ⟨u, w, rfl, hu, hp⟩ := firstList_spec bp h.chained hs.first hlt hn
      obtain ⟨a, ha⟩ : ∃ a, (ap :: u).getLast? = some a := Option.ne_none_iff_exists'.1 (by simp)
      have hp' : Place s.cyl bp (ap :: u) w := by
        refine ⟨fun y hy => ?_, hp.lt⟩
        rcases List.mem_cons.1 hy with rfl | hy
        · exact not_lt.1 hbelow
        · exact hp.le y hy
      obtain ⟨hs', hw⟩ := hs.insert_first hp'
      have hassoc : ap :: (u ++ w ++ l₂) = (ap :: u) ++ (w ++ l₂) := by simp
      rw [hassoc] at h hnd hbp
      refine ⟨insert bp a s, ap :: u, w ++ l₂, ?_, hassoc, h.insert hnd hbp ha
        ⟨ap :: u ++ bp :: w, l₂, by simp, hs'⟩, hw, nofun, insert_cyl .., rfl⟩
      rw [hu, ha]
      rfl

/-! ## Runs of the drive -/

/-- A request that arrives is put on the queue. -/
theorem Inv.strategy (h : Inv n s q) (hlt : bp < n) (hbp : bp ∉ s.pending) (cylin : ℤ) :
    ∃ s' q', next n s (.strategy bp cylin) = some s' ∧ Inv n s' q' ∧
      (∀ x ∈ q.head?, q'.head? = some x) ∧ s'.cyl = Function.update s.cyl bp cylin ∧
      s'.pending = s.pending ++ [bp] := by
  obtain ⟨hruns, hperm, hstable⟩ := h.queue
  have hbpq : bp ∉ q := fun hx => hbp (hperm.mem_iff.1 hx)
  let s₁ := { s with
    buf := Function.update s.buf bp { s.buf bp with b_cylin := cylin }
    pending := s.pending ++ [bp] }
  have hbuf {x : ℕ} (hx : x ≠ bp) : s₁.buf x = s.buf x := Function.update_of_ne hx _ _
  have hold {x : ℕ} (hx : x ≠ bp) : s₁.cyl x = s.cyl x := congrArg Buf.b_cylin (hbuf hx)
  have hcyl : s₁.cyl = Function.update s.cyl bp cylin := by
    funext x
    by_cases hx : x = bp
    · subst hx
      rw [Function.update_self]
      exact congrArg Buf.b_cylin (Function.update_self x _ s.buf)
    · rw [Function.update_of_ne hx, hold hx]
  have hruns₁ : Runs s₁ q := hruns.congr rfl rfl fun x hx => hbuf fun he => hbpq (he ▸ hx)
  obtain ⟨s', u, w, hs', rfl, hruns', hw, hu, hcyl', hpend⟩ :=
    disksort_spec (n := n) hruns₁ h.nodup hbpq (length_le_of_nodup h.nodup h.lt)
  have hpend' : s'.pending = s.pending ++ [bp] := hpend
  have hnew : (u ++ bp :: w).Perm (bp :: (u ++ w)) := List.perm_middle
  refine ⟨s', u ++ bp :: w, ?_, ⟨⟨hruns', ?_, fun k => ?_⟩, ?_, fun x hx => ?_⟩, fun x hx => ?_,
    hcyl'.trans hcyl, hpend'⟩
  · rw [next, if_pos ⟨hlt, hbp⟩]
    exact hs'
  · rw [hpend']
    exact (hnew.trans (hperm.cons bp)).trans (List.perm_append_singleton bp s.pending).symm
  · -- The ones of the same cylinder are before it.
    have hq : (u ++ w).filter (s₁.cyl · = k) = s.pending.filter (s₁.cyl · = k) := by
      have hcongr {l : List ℕ} (hl : ∀ x ∈ l, x ≠ bp) :
          l.filter (s₁.cyl · = k) = l.filter (s.cyl · = k) :=
        List.filter_congr fun x hx => by rw [hold (hl x hx)]
      have hne {l : List ℕ} (hl : bp ∉ l) (x : ℕ) (hx : x ∈ l) : x ≠ bp := fun he => hl (he ▸ hx)
      rw [hcongr (hne hbpq), hcongr (hne hbp), hstable]
    rw [hcyl', hpend', List.filter_append, List.filter_append, ← hq, List.filter_append,
      List.append_assoc]
    refine congrArg _ ?_
    by_cases hk : s₁.cyl bp = k
    · have hnil : w.filter (s₁.cyl · = k) = [] :=
        List.filter_eq_nil_iff.2 fun y hy => by simpa using hk ▸ hw y hy
      rw [List.filter_cons_of_pos (by simpa using hk), hnil]
      simp [hk]
    · rw [List.filter_cons_of_neg (by simpa using hk)]
      simp [hk]
  · exact hnew.nodup_iff.2 (List.nodup_cons.2 ⟨hbpq, h.nodup⟩)
  · rcases List.mem_cons.1 (hnew.mem_iff.1 hx) with rfl | hx
    · exact hlt
    · exact h.lt x hx
  · cases u with
    | nil =>
      rw [hu rfl] at hx
      exact nomatch hx
    | cons y u => exact hx

/-- The head is served. -/
theorem Inv.iodone {t : List ℕ} (h : Inv n s (bp :: t)) :
    ∃ s', next n s .iodone = some s' ∧ Inv n s' t ∧ s'.cyl = s.cyl := by
  obtain ⟨hruns, hperm, hstable⟩ := h.queue
  obtain ⟨t₁, l₂, rfl, hs⟩ := hruns.cons
  obtain ⟨hbp, hnd⟩ := List.nodup_cons.1 h.nodup
  refine ⟨{ s with b_actf := (s.buf bp).av_forw, pending := s.pending.erase bp },
    by rw [next, hruns.actf]; rfl, ⟨⟨⟨hruns.chained.1, hruns.chained.2, fun hne => ?_, ?_⟩,
    ?_, fun k => ?_⟩, hnd, fun x hx => h.lt x (List.mem_cons_of_mem _ hx)⟩, rfl⟩
  · refine (hruns.actl (List.cons_ne_nil _ _)).trans ?_
    obtain ⟨y, t, ht⟩ := List.exists_cons_of_ne_nil hne
    rw [ht, List.getLast?_cons_cons]
  · rcases hs.tail with hs' | ⟨rfl, hs'⟩
    · exact ⟨t₁, l₂, rfl, hs'⟩
    · exact ⟨l₂, [], (List.append_nil l₂).symm, hs'⟩
  · have := hperm.erase bp
    rwa [List.erase_cons_head] at this
  · have hk := congrArg (List.erase · bp) (hstable k)
    rw [List.erase_filter, List.erase_filter, List.erase_cons_head] at hk
    exact hk

theorem Inv.step {a : Action} (h : Inv n s q) (hs' : next n s a = some s') :
    ∃ q', Inv n s' q' := by
  cases a with
  | strategy bp cylin =>
    by_cases hbp : bp < n ∧ bp ∉ s.pending
    · obtain ⟨s₁, q', hs₁, h', -⟩ := h.strategy hbp.1 hbp.2 cylin
      obtain rfl := Option.some.inj (hs₁.symm.trans hs')
      exact ⟨q', h'⟩
    · rw [next, if_neg hbp] at hs'
      exact nomatch hs'
  | iodone =>
    have hactf := h.queue.runs.actf
    cases q with
    | nil =>
      rw [next, hactf] at hs'
      exact nomatch hs'
    | cons bp t =>
      obtain ⟨s₁, hs₁, h', -⟩ := h.iodone
      obtain rfl := Option.some.inj (hs₁.symm.trans hs')
      exact ⟨t, h'⟩

/-- The invariant holds in every run. -/
theorem exists_inv (hs : (disk n).Reachable s) : ∃ q, Inv n s q := by
  refine hs.invariant (P := fun s => ∃ q, Inv n s q) ?_ ?_
  · rintro s ⟨hactf, hpend⟩
    refine ⟨[], ⟨⟨hactf, trivial, fun hne => absurd rfl hne, [], [], rfl, .nil, .nil, nofun⟩, ?_,
      fun k => ?_⟩, List.nodup_nil, nofun⟩
    · rw [hpend]
    · rw [hpend]
  · rintro s a s' ⟨q, h⟩ - hs'
    exact h.step hs'

/-- A request that waits is on the queue, and is reached within a sweep. -/
theorem Waits.passed {ks : List ℤ} (h : Inv n s q) (hw : Waits n r s ks s') :
    ∃ q' x, Inv n s' q' ∧ r ∈ q' ∧ q'.head? = some x ∧ Passed s'.cyl ks r x ∧
      ((∀ y ∈ q.head?, s.cyl y ≤ s.cyl r) → InSweep s'.cyl ks r x) := by
  induction hw with
  | refl hr =>
    have hrq := h.queue.perm.mem_iff.2 hr
    obtain ⟨x, t, rfl⟩ := List.exists_cons_of_ne_nil (List.ne_nil_of_mem hrq)
    exact ⟨x :: t, x, h, hrq, rfl, .refl .., fun hle => ⟨hle x rfl, .nil, nofun⟩⟩
  | @strategy ks s₁ s₂ bp cylin _ hs₂ ih =>
    obtain ⟨q₁, x, h₁, hr, hx, hp, hin⟩ := ih
    by_cases hbp : bp < n ∧ bp ∉ s₁.pending
    · obtain ⟨s', q', hs', h', hhead, hcyl, hpend⟩ := h₁.strategy hbp.1 hbp.2 cylin
      obtain rfl := Option.some.inj (hs'.symm.trans hs₂)
      -- Neither the request nor the head is the one that arrives.
      have hne {y : ℕ} (hy : y ∈ q₁) : s'.cyl y = s₁.cyl y := by
        have hyp : y ≠ bp := fun he => hbp.2 (he ▸ h₁.queue.perm.mem_iff.1 hy)
        rw [hcyl, Function.update_of_ne hyp]
      have hxr := hne hr
      have hxx := hne (List.mem_of_mem_head? hx)
      have hrq' : r ∈ q' := by
        rw [h'.queue.perm.mem_iff, hpend]
        exact List.mem_append_left _ (h₁.queue.perm.mem_iff.1 hr)
      have hcongr {ks : List ℤ} (hp : InSweep s₁.cyl ks r x) : InSweep s'.cyl ks r x :=
        ⟨hxr ▸ hxx ▸ hp.le, hp.ascend, hxx ▸ hp.served⟩
      refine ⟨q', x, h', hrq', hhead x hx, ?_, fun hle => hcongr (hin hle)⟩
      rcases hp with ⟨k₁, k₂, hks, hk₁, hp⟩ | ⟨hlt, hks, hk⟩
      · exact .inl ⟨k₁, k₂, hks, hk₁, hcongr hp⟩
      · exact .inr ⟨hxr ▸ hxx ▸ hlt, hks, hxx ▸ hk⟩
    · rw [next, if_neg hbp] at hs₂
      exact nomatch hs₂
  | @iodone ks s₁ s₂ bp _ hactf hne hs₂ ih =>
    obtain ⟨q₁, x, h₁, hr, hx, hp, hin⟩ := ih
    obtain rfl : x = bp := Option.some.inj (hx.symm.trans (h₁.queue.runs.actf.symm.trans hactf))
    obtain ⟨t, rfl⟩ := List.head?_eq_some_iff.1 hx
    obtain ⟨t₁, l₂, rfl, hs⟩ := h₁.queue.runs.cons
    obtain ⟨s', hs', h', hcyl⟩ := h₁.iodone
    obtain rfl := Option.some.inj (hs'.symm.trans hs₂)
    have hr' : r ∈ t₁ ++ l₂ := (List.mem_cons.1 hr).resolve_left hne.symm
    obtain ⟨y, hy⟩ : ∃ y, (t₁ ++ l₂).head? = some y :=
      Option.ne_none_iff_exists'.1 fun he => List.ne_nil_of_mem hr' (List.head?_eq_none_iff.1 he)
    refine ⟨t₁ ++ l₂, y, h', hr', hy, ?_, fun hle => ?_⟩
    · rw [hcyl]
      exact hp.serve hs hr' hy
    · rw [hcyl]
      exact (hin hle).serve hs hr' hy

/-- In every run the queue holds the pending requests in two runs, those of a cylinder in the
    order of arrival, and its tail is the last of them; a request can always be put on it; and the
    cylinders served up to a request that waits are those of one sweep if it is not below the
    head when it begins to wait, and of two at most if it is. -/
theorem disksort_sound (n : ℕ) (s : State) (hs : (disk n).Reachable s) :
    (∃ q, Queue s q) ∧
    (∀ bp cylin, bp < n → bp ∉ s.pending → ∃ s', next n s (.strategy bp cylin) = some s') ∧
    ∀ r ks s', Waits n r s ks s' →
      (∃ k₁ k₂, ks ++ [s'.cyl r] = k₁ ++ k₂ ∧ k₁.Pairwise (· ≤ ·) ∧ k₂.Pairwise (· ≤ ·)) ∧
      ((∀ y ∈ s.b_actf, s.cyl y ≤ s.cyl r) → (ks ++ [s'.cyl r]).Pairwise (· ≤ ·)) := by
  obtain ⟨q, h⟩ := exists_inv hs
  refine ⟨⟨q, h.queue⟩, fun bp cylin hlt hbp => ?_, fun r ks s' hw => ?_⟩
  · obtain ⟨s', -, hs', -⟩ := h.strategy hlt hbp cylin
    exact ⟨s', hs'⟩
  · obtain ⟨-, x, -, -, -, hp, hin⟩ := hw.passed h
    rw [h.queue.runs.actf]
    exact ⟨hp.sweep, fun hle => (hin hle).sweep⟩

/-- Two buffers, and nothing to do. -/
def idle : State := ⟨fun _ => ⟨none, 0⟩, none, none, []⟩

/-- A request for the cylinder 3 that arrives behind one for the cylinder 5 is served in the
    second sweep. -/
theorem sound_twoRequests : ∃ s s',
    (disk 2).run idle [.strategy 0 5, .strategy 1 3] = some s ∧ (∃ q, Queue s q) ∧
    (∃ s'', next 2 s' (.strategy 0 4) = some s'') ∧ Waits 2 1 s [5] s' ∧
    ∃ k₁ k₂, [5] ++ [s'.cyl 1] = k₁ ++ k₂ ∧ k₁.Pairwise (· ≤ ·) ∧ k₂.Pairwise (· ≤ ·) := by
  have h₀ : (disk 2).Reachable idle := .init ⟨rfl, rfl⟩
  have h₁ := (h₀.step (a := .strategy 0 5) trivial rfl).step (a := .strategy 1 3) trivial rfl
  obtain ⟨s, s', hs, h₁, h₂, hw, hp⟩ : ∃ s s',
      (disk 2).run idle [.strategy 0 5, .strategy 1 3] = some s ∧ (disk 2).Reachable s ∧
      (disk 2).Reachable s' ∧ Waits 2 1 s [5] s' ∧ 0 ∉ s'.pending := by
    refine ⟨_, _, rfl, h₁, h₁.step (a := .iodone) trivial rfl, ?_, by decide⟩
    exact (Waits.refl (List.mem_cons_of_mem 0 List.mem_cons_self)).iodone rfl Nat.zero_ne_one rfl
  exact ⟨s, s', hs, (disksort_sound 2 s h₁).1, (disksort_sound 2 s' h₂).2.1 0 4 (by decide) hp, hw,
    ((disksort_sound 2 s h₁).2.2 1 [5] s' hw).1⟩

end AuxKernel.Svfs.Disksort
