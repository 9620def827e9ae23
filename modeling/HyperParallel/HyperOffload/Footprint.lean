import HyperParallel.HyperOffload.Presence
import Mathlib.Algebra.Order.BigOperators.Group.List
import Mathlib.Algebra.Order.Ring.Int

/-!
# The planned footprint and the replayed footprint

* `residentAfter`: what the greedy selection leaves of `resident_bytes`;
* `deviceBytes`: the sizes of the storages on the device;
* `residentAfter_getElem`: the selected gaps are taken off, each once;
* `PlannedEqualsReplayed`, `plannedEqualsReplayed_iff`: both agree unless a retained storage
  outlives its last access.
-/

namespace HyperParallel.HyperOffload

open KeyedRun

/-- `_greedy_select` changes `resident_bytes` in place: what it leaves. -/
def residentAfter (limit : ℤ) : List EvictionCandidate → List ℤ → List ℤ
  | [], residentBytes => residentBytes
  | candidate :: rest, residentBytes =>
    if residentBytes.max?.getD 0 ≤ limit then residentBytes
    else if ¬residentBytes.zipIdx.any fun r => candidate.affects r.2 && decide (limit < r.1) then
      residentAfter limit rest residentBytes
    else
      residentAfter limit rest (residentBytes.zipIdx.map fun r =>
        if candidate.affects r.2 then r.1 - candidate.sizeBytes else r.1)

/-- What some candidates take off at an op. -/
def covered (selected : List EvictionCandidate) (opId : ℕ) : ℤ :=
  ((selected.filter (·.affects opId)).map fun c => (c.sizeBytes : ℤ)).sum

/-- The sizes of the storages on the device, of those with a known size. -/
def deviceBytes (trace : ActivationTrace) (st : ℕ → Slot) : ℤ :=
  (trace.footprints.map fun f => if (st f.1).device.isSome then (f.2.1 : ℤ) else 0).sum

/-- The last op with an access. -/
def ActivationTrace.maxOpId (trace : ActivationTrace) : ℕ :=
  (trace.ops.flatten.map StorageAccess.opId).max?.getD 0

/-- Where the selection ends, what the array says is what a replay of the plan holds: at every op;
no storage is taken off twice and nothing gets negative; a budget that is met is kept between any
two events of the replay; and a gap that was passed over covers no op over the budget. -/
structure PlannedEqualsReplayed (trace : ActivationTrace) (limit : ℤ) : Prop where
  equal : ∀ o ≤ trace.maxOpId, (residentAfter limit trace.candidates trace.residentBytes)[o]? =
    some (deviceBytes trace (running trace
      (scheduleOf (greedySelect limit trace.candidates trace.residentBytes) trace) o))
  once : ∀ sid o, ((greedySelect limit trace.candidates trace.residentBytes).filter fun c =>
    c.storageId = sid ∧ c.affects o).length ≤ 1
  nonneg : ∀ b ∈ residentAfter limit trace.candidates trace.residentBytes, 0 ≤ b
  kept : (residentAfter limit trace.candidates trace.residentBytes).max?.getD 0 ≤ limit →
    ∀ events, events <+: replayEvents trace
      (scheduleOf (greedySelect limit trace.candidates trace.residentBytes) trace) →
      deviceBytes trace (replayState events) ≤ limit
  passedOver : ∀ c ∈ trace.candidates,
    c ∉ greedySelect limit trace.candidates trace.residentBytes → ∀ o b, c.affects o = true →
      (residentAfter limit trace.candidates trace.residentBytes)[o]? = some b → b ≤ limit

/-- No storage that is retained after the trace has its last access before the last op. -/
def RetainedToTheEnd (trace : ActivationTrace) : Prop :=
  ∀ sid ∈ trace.retainedSids, ∀ size ∈ trace.storageSizes sid, 0 < size →
    (∃ k, trace.Accessed sid k) → trace.Accessed sid trace.maxOpId

/-! ### The array -/

section Array

variable {limit : ℤ} {candidates selected : List EvictionCandidate} {residentBytes : List ℤ}

theorem covered_nonneg (selected : List EvictionCandidate) (o : ℕ) : 0 ≤ covered selected o := by
  refine List.sum_nonneg fun x hx => ?_
  obtain ⟨c, -, rfl⟩ := List.mem_map.1 hx
  exact Int.natCast_nonneg _

theorem covered_cons (c : EvictionCandidate) (selected : List EvictionCandidate) (o : ℕ) :
    covered (c :: selected) o =
      (if c.affects o then (c.sizeBytes : ℤ) else 0) + covered selected o := by
  rw [covered, covered]
  by_cases haffects : c.affects o
  · simp [haffects]
  · simp [haffects]

theorem greedySelect_sublist :
    (greedySelect limit candidates residentBytes).Sublist candidates := by
  induction candidates generalizing residentBytes with
  | nil => exact List.Sublist.slnil
  | cons c rest ih =>
    rw [greedySelect]
    split_ifs
    · exact List.nil_sublist _
    · exact ih.cons_cons c
    · exact ih.cons c

/-- The selected gaps are taken off. -/
theorem residentAfter_getElem? (o : ℕ) :
    (residentAfter limit candidates residentBytes)[o]? = residentBytes[o]?.map fun b =>
      b - covered (greedySelect limit candidates residentBytes) o := by
  induction candidates generalizing residentBytes with
  | nil => simp [residentAfter, greedySelect, covered]
  | cons c rest ih =>
    rw [residentAfter, greedySelect]
    split_ifs with hmax hany
    · simp [covered]
    · rw [ih, List.getElem?_map, List.getElem?_zipIdx, covered_cons, Option.map_map, Option.map_map]
      congr 1
      funext b
      by_cases haffects : c.affects o
      · simp [haffects, Int.sub_sub]
      · simp [haffects]
    · exact ih

theorem length_residentAfter :
    (residentAfter limit candidates residentBytes).length = residentBytes.length := by
  induction candidates generalizing residentBytes with
  | nil => rfl
  | cons c rest ih =>
    rw [residentAfter]
    split_ifs
    · rfl
    · rw [ih, List.length_map, List.length_zipIdx]
    · exact ih

theorem le_max? {l : List ℤ} {b : ℤ} (hb : b ∈ l) : b ≤ l.max?.getD 0 := by
  cases hmax : l.max? with
  | none =>
    rw [List.max?_eq_none_iff] at hmax
    rw [hmax] at hb
    exact absurd hb List.not_mem_nil
  | some m => exact (List.max?_eq_some_iff.1 hmax).2 b hb

/-- A gap that was passed over covers no op over the budget. -/
theorem le_limit_of_notMem_greedySelect {c : EvictionCandidate} (hc : c ∈ candidates)
    (hnot : c ∉ greedySelect limit candidates residentBytes) {o : ℕ} {b : ℤ}
    (haffects : c.affects o = true)
    (hb : (residentAfter limit candidates residentBytes)[o]? = some b) : b ≤ limit := by
  induction candidates generalizing residentBytes with
  | nil => exact absurd hc List.not_mem_nil
  | cons c' rest ih =>
    rw [greedySelect] at hnot
    rw [residentAfter] at hb
    split_ifs at hnot hb with hmax hany
    · exact (le_max? (List.mem_of_getElem? hb)).trans hmax
    · rw [List.mem_cons, not_or] at hnot
      exact ih ((List.mem_cons.1 hc).resolve_left hnot.1) hnot.2 hb
    · rcases List.mem_cons.1 hc with rfl | hc
      · -- no op of the gap was over the budget, and the selection only takes off
        rw [residentAfter_getElem?] at hb
        obtain ⟨b', hb', rfl⟩ := Option.map_eq_some_iff.1 hb
        have hle : b' ≤ limit := by
          by_contra hlt
          refine hany (List.any_eq_true.2 ⟨(b', o), ?_, ?_⟩)
          · rw [List.mk_mem_zipIdx_iff_getElem?, hb']
          · simp only [haffects, Bool.true_and, decide_eq_true_eq]
            omega
        have := covered_nonneg (greedySelect limit rest residentBytes) o
        omega
      · exact ih hc hnot hb

end Array

/-! ### One storage -/

section Storage

variable {trace : ActivationTrace} {f : ℕ × ℕ × List StorageAccess} {o : ℕ}

theorem affects_iff {c : EvictionCandidate} :
    c.affects o = true ↔ c.releaseStart.opId < o ∧ o < c.fin.opId := by
  rw [EvictionCandidate.affects, Bool.and_eq_true, decide_eq_true_iff, decide_eq_true_iff,
    EvictionCandidate.startInterior, EvictionCandidate.endInterior]
  omega

theorem accessed_iff (hf : f ∈ trace.footprints) {k : ℕ} :
    trace.Accessed f.1 k ↔ ∃ a ∈ f.2.2, a.opId = k := by
  constructor
  · rintro ⟨a, ha, hsid, rfl⟩
    exact ⟨a, (mem_footprint_iff hf).2 ⟨ha, hsid⟩, rfl⟩
  · rintro ⟨a, ha, rfl⟩
    obtain ⟨ha, hsid⟩ := (mem_footprint_iff hf).1 ha
    exact ⟨a, ha, hsid, rfl⟩

/-- The extent of a footprint. -/
theorem extent_iff (hf : f ∈ trace.footprints) :
    (∃ a ∈ f.2.2.head?, ∃ b ∈ f.2.2.getLast?, a.opId ≤ o ∧ o ≤ b.opId) ↔
      (∃ j ≤ o, trace.Accessed f.1 j) ∧ ∃ j, o ≤ j ∧ trace.Accessed f.1 j := by
  have hordered := pairwise_footprint hf
  constructor
  · rintro ⟨a, ha, b, hb, hle, hge⟩
    exact ⟨⟨_, hle, (accessed_iff hf).2 ⟨a, List.mem_of_mem_head? ha, rfl⟩⟩,
      ⟨_, hge, (accessed_iff hf).2 ⟨b, List.mem_of_mem_getLast? hb, rfl⟩⟩⟩
  · rintro ⟨⟨j, hj, hacc⟩, ⟨k, hk, hacc'⟩⟩
    obtain ⟨a, ha, rfl⟩ := (accessed_iff hf).1 hacc
    obtain ⟨b, hb, rfl⟩ := (accessed_iff hf).1 hacc'
    obtain ⟨i, hi⟩ := List.mem_iff_getElem?.1 ha
    obtain ⟨i', hi'⟩ := List.mem_iff_getElem?.1 hb
    have hne := List.ne_nil_of_mem ha
    have hpos := List.length_pos_of_ne_nil hne
    have hfirst : f.2.2[0]? = some (f.2.2.head hne) := by
      rw [← List.head?_eq_getElem?, List.head?_eq_some_head hne]
    have hlast : f.2.2[f.2.2.length - 1]? = some (f.2.2.getLast hne) := by
      rw [← List.getLast?_eq_getElem?, List.getLast?_eq_some_getLast hne]
    refine ⟨_, List.head?_eq_some_head hne, _, List.getLast?_eq_some_getLast hne, ?_, ?_⟩
    · exact (opId_le_of_le hordered hfirst hi (Nat.zero_le i)).trans hj
    · have hlt := (List.getElem?_eq_some_iff.1 hi').1
      exact hk.trans (opId_le_of_le hordered hi' hlast (by omega))

/-- Candidates come from the footprint of their storage. -/
theorem exists_footprint_of_mem_candidates {c : EvictionCandidate} (hc : c ∈ trace.candidates) :
    ∃ f ∈ trace.footprints, c.storageId = f.1 ∧ c.sizeBytes = f.2.1 := by
  rw [ActivationTrace.candidates, List.mem_mergeSort] at hc
  obtain ⟨f, hf, hc⟩ := List.mem_flatMap.1 hc
  obtain ⟨i, -, hc⟩ := List.mem_filterMap.1 hc
  obtain ⟨release, fin, copy, -, -, -, rfl, -⟩ := exists_of_candidate hc
  exact ⟨f, hf, rfl, rfl⟩

/-- The footprints are of different storages. -/
theorem pairwise_footprints (trace : ActivationTrace) :
    trace.footprints.Pairwise fun f g => f.1 ≠ g.1 := by
  refine List.pairwise_filterMap.2 (List.pairwise_map.2 ?_)
  refine Dict.nodup_firstKeys.imp fun {sid sid'} hne f hf g hg => ?_
  obtain ⟨size, -, rfl⟩ := Option.map_eq_some_iff.1 hf
  obtain ⟨size', -, rfl⟩ := Option.map_eq_some_iff.1 hg
  exact hne

/-- Two gaps of one storage have no op in common. -/
theorem pairwise_candidates (trace : ActivationTrace) :
    trace.candidates.Pairwise fun c c' => c.storageId = c'.storageId →
      ∀ o, ¬(c.affects o = true ∧ c'.affects o = true) := by
  have hsymm : ∀ {c c' : EvictionCandidate},
      (c.storageId = c'.storageId → ∀ o, ¬(c.affects o = true ∧ c'.affects o = true)) →
        c'.storageId = c.storageId → ∀ o, ¬(c'.affects o = true ∧ c.affects o = true) :=
    fun h hsid o hboth => h hsid.symm o hboth.symm
  rw [ActivationTrace.candidates, (List.mergeSort_perm _ _).pairwise_iff hsymm,
    List.pairwise_flatMap]
  constructor
  · intro f hf
    refine List.pairwise_filterMap.2 (List.pairwise_lt_range.imp fun {i j} hij c hc c' hc' => ?_)
    obtain ⟨release, fin, copy, -, hfin, -, rfl, -⟩ := exists_of_candidate hc
    obtain ⟨release', fin', copy', hrelease', -, -, rfl, -⟩ := exists_of_candidate hc'
    -- the earlier gap ends before the later one begins
    have hle := opId_le_of_le (pairwise_footprint hf) hfin hrelease' hij
    rintro - o ⟨h, h'⟩
    rw [affects_iff] at h h'
    dsimp only at h h'
    omega
  · refine (pairwise_footprints trace).imp fun {f g} hne c hc c' hc' hsid => ?_
    obtain ⟨i, -, hc⟩ := List.mem_filterMap.1 hc
    obtain ⟨release, fin, copy, -, -, -, rfl, -⟩ := exists_of_candidate hc
    obtain ⟨i', -, hc'⟩ := List.mem_filterMap.1 hc'
    obtain ⟨release', fin', copy', -, -, -, rfl, -⟩ := exists_of_candidate hc'
    exact absurd hsid hne

theorem length_le_one_of_pairwise {β : Type} {R : β → β → Prop} {l : List β}
    (h : l.Pairwise R) (hnot : ∀ a ∈ l, ∀ b ∈ l, ¬R a b) : l.length ≤ 1 := by
  cases l with
  | nil => exact Nat.zero_le 1
  | cons a l =>
    cases l with
    | nil => exact Nat.le_refl 1
    | cons b l =>
      exact absurd ((List.pairwise_cons.1 h).1 b List.mem_cons_self)
        (hnot a List.mem_cons_self b (List.mem_cons_of_mem _ List.mem_cons_self))

/-- No storage is taken off twice at one op. -/
theorem length_filter_affects_le {selected : List EvictionCandidate}
    (hselected : selected.Sublist trace.candidates) (sid o : ℕ) :
    (selected.filter fun c => c.storageId = sid ∧ c.affects o).length ≤ 1 := by
  have hpair := ((pairwise_candidates trace).sublist hselected).sublist
    (List.filter_sublist (p := fun c => decide (c.storageId = sid ∧ c.affects o)))
  refine length_le_one_of_pairwise hpair fun c hc c' hc' hdisjoint => ?_
  have hc := of_decide_eq_true (List.mem_filter.1 hc).2
  have hc' := of_decide_eq_true (List.mem_filter.1 hc').2
  exact hdisjoint (hc.1.trans hc'.1.symm) o ⟨hc.2, hc'.2⟩

end Storage

/-! ### All storages -/

section Sums

variable {trace : ActivationTrace} {limit : ℤ} {selected : List EvictionCandidate} {o : ℕ}

/-- The number of gaps of a storage that cover an op. -/
def gapsAt (selected : List EvictionCandidate) (sid o : ℕ) : ℕ :=
  (selected.filter fun c => c.storageId = sid ∧ c.affects o).length

theorem gapsAt_cons (c : EvictionCandidate) (selected : List EvictionCandidate) (sid o : ℕ) :
    gapsAt (c :: selected) sid o =
      (if c.storageId = sid ∧ c.affects o then 1 else 0) + gapsAt selected sid o := by
  rw [gapsAt, gapsAt]
  by_cases h : c.storageId = sid ∧ c.affects o
  · rw [if_pos h, List.filter_cons, if_pos (decide_eq_true h), List.length_cons, Nat.add_comm]
  · rw [if_neg h, List.filter_cons, if_neg (by simpa using h), Nat.zero_add]

theorem sum_filter_map {β : Type} (p : β → Bool) (g : β → ℤ) (l : List β) :
    ((l.filter p).map g).sum = (l.map fun x => if p x then g x else 0).sum := by
  induction l with
  | nil => rfl
  | cons x l ih =>
    rw [List.map_cons, List.sum_cons, ← ih]
    by_cases hx : p x = true
    · rw [List.filter_cons_of_pos hx, if_pos hx, List.map_cons, List.sum_cons]
    · rw [List.filter_cons_of_neg hx, if_neg hx, Int.zero_add]

/-- Of footprints of different storages, the key picks one. -/
theorem sum_single {l : List (ℕ × ℕ × List StorageAccess)}
    (hl : l.Pairwise fun f g => f.1 ≠ g.1) {f : ℕ × ℕ × List StorageAccess} (hf : f ∈ l) :
    (l.map fun g => if f.1 = g.1 then (g.2.1 : ℤ) else 0).sum = f.2.1 := by
  induction l with
  | nil => exact absurd hf List.not_mem_nil
  | cons g l ih =>
    obtain ⟨hg, hl⟩ := List.pairwise_cons.1 hl
    rw [List.map_cons, List.sum_cons]
    rcases List.mem_cons.1 hf with rfl | hf
    · have hzero : (l.map fun g => if f.1 = g.1 then (g.2.1 : ℤ) else 0).sum = 0 := by
        refine List.sum_eq_zero fun x hx => ?_
        obtain ⟨g, hgl, rfl⟩ := List.mem_map.1 hx
        exact if_neg (hg g hgl)
      rw [if_pos rfl, hzero, Int.add_zero]
    · rw [if_neg (hg f hf).symm, ih hl hf, Int.zero_add]

/-- What is taken off, storage by storage. -/
theorem covered_eq (hselected : ∀ c ∈ selected, c ∈ trace.candidates) (o : ℕ) :
    covered selected o =
      (trace.footprints.map fun f => (gapsAt selected f.1 o : ℤ) * f.2.1).sum := by
  induction selected with
  | nil => simp [covered, gapsAt]
  | cons c selected ih =>
    obtain ⟨f, hf, hsid, hsize⟩ :=
      exists_footprint_of_mem_candidates (hselected c List.mem_cons_self)
    have hone : (trace.footprints.map fun g =>
        if c.storageId = g.1 ∧ c.affects o then (g.2.1 : ℤ) else 0).sum =
          if c.affects o then (c.sizeBytes : ℤ) else 0 := by
      by_cases haffects : c.affects o
      · simp only [haffects, and_true, if_true, hsid, hsize]
        exact sum_single (pairwise_footprints trace) hf
      · simp [haffects]
    rw [covered_cons, ih fun c hc => hselected c (List.mem_cons_of_mem _ hc), ← hone,
      ← List.sum_map_add]
    congr 1
    refine List.map_congr_left fun g _ => ?_
    rw [gapsAt_cons]
    by_cases h : c.storageId = g.1 ∧ c.affects o
    · rw [if_pos h, if_pos h, Nat.cast_add, Nat.cast_one, add_mul, one_mul]
    · rw [if_neg h, if_neg h, Nat.zero_add, zero_add]

/-- What stays on the device behind the last access of a retained storage. -/
def retainedBytes (trace : ActivationTrace) (o : ℕ) : ℤ :=
  (trace.footprints.map fun f =>
    if f.1 ∈ trace.retainedSids ∧ ∀ a ∈ f.2.2, a.opId < o then (f.2.1 : ℤ) else 0).sum

/-- One storage at one op: what the array counts and what the replay holds. -/
theorem storage_balance (hselected : selected.Sublist trace.candidates)
    {f : ℕ × ℕ × List StorageAccess} (hf : f ∈ trace.footprints) (o : ℕ) :
    (if decide (∃ a ∈ f.2.2.head?, ∃ b ∈ f.2.2.getLast?, a.opId ≤ o ∧ o ≤ b.opId) then
        (f.2.1 : ℤ) else 0) +
      (if f.1 ∈ trace.retainedSids ∧ ∀ a ∈ f.2.2, a.opId < o then (f.2.1 : ℤ) else 0) =
    (if (running trace (scheduleOf selected trace) o f.1).device.isSome then (f.2.1 : ℤ) else 0) +
      (gapsAt selected f.1 o : ℤ) * f.2.1 := by
  have hgaps : ∀ c ∈ selected, Gap trace c := fun c hc =>
    gap_of_mem_candidates (hselected.subset hc)
  have hruns := device_running_iff hgaps hf o
  have hle := length_filter_affects_le hselected f.1 o
  rw [← gapsAt] at hle
  -- a gap that covers the op lies between two accesses
  have hopen : gapsAt selected f.1 o ≠ 0 ↔
      ∃ c ∈ selected.filter (·.storageId = f.1), c.releaseStart.opId < o ∧ o < c.fin.opId := by
    rw [gapsAt, ← Nat.pos_iff_ne_zero, List.length_pos_iff_exists_mem]
    refine exists_congr fun c => ?_
    rw [List.mem_filter, List.mem_filter, decide_eq_true_iff, decide_eq_true_iff, affects_iff,
      and_assoc]
  have hbetween : gapsAt selected f.1 o ≠ 0 →
      (∃ j ≤ o, trace.Accessed f.1 j) ∧ ∃ j, o ≤ j ∧ trace.Accessed f.1 j := by
    intro h
    obtain ⟨c, hc, hlt, hfin⟩ := hopen.1 h
    obtain ⟨hc, hsid⟩ := List.mem_filter.1 hc
    have hgap := hgaps c hc
    rw [← of_decide_eq_true hsid]
    exact ⟨⟨_, hlt.le, hgap.releaseAccessed⟩, ⟨_, hfin.le, hgap.finAccessed⟩⟩
  have hafter : (∀ a ∈ f.2.2, a.opId < o) ↔ ¬∃ j, o ≤ j ∧ trace.Accessed f.1 j := by
    constructor
    · rintro h ⟨j, hj, hacc⟩
      obtain ⟨a, ha, rfl⟩ := (accessed_iff hf).1 hacc
      exact Nat.not_le.2 (h a ha) hj
    · intro h a ha
      by_contra hge
      exact h ⟨a.opId, Nat.not_lt.1 hge, (accessed_iff hf).2 ⟨a, ha, rfl⟩⟩
  have hsome : (∃ j ≤ o, trace.Accessed f.1 j) ∨ ∃ j, o ≤ j ∧ trace.Accessed f.1 j := by
    obtain ⟨last, hlast⟩ := exists_last_of_mem_footprints hf
    have hacc := accessed_of_mem_releasable hlast
    exact (Nat.le_total last.opId o).imp (fun h => ⟨_, h, hacc⟩) fun h => ⟨_, h, hacc⟩
  rw [Runs, ← hopen] at hruns
  classical
  simp only [extent_iff hf, hafter, hruns, decide_eq_true_eq]
  by_cases hgap : gapsAt selected f.1 o = 0
  · rw [hgap] at hbetween ⊢
    by_cases hbefore : ∃ j ≤ o, trace.Accessed f.1 j <;>
      by_cases hlater : ∃ j, o ≤ j ∧ trace.Accessed f.1 j <;>
      by_cases hretained : f.1 ∈ trace.retainedSids <;>
      simp_all
  · obtain ⟨hbefore, hlater⟩ := hbetween hgap
    have hone : gapsAt selected f.1 o = 1 := by omega
    simp [hbefore, hlater, hone]

/-- The array and the replay differ by the retained storages that are behind their last access. -/
theorem residentAfter_eq (ho : o ≤ trace.maxOpId) :
    (residentAfter limit trace.candidates trace.residentBytes)[o]? =
      some (deviceBytes trace (running trace
        (scheduleOf (greedySelect limit trace.candidates trace.residentBytes) trace) o) -
          retainedBytes trace o) := by
  have hrange : (List.range (trace.maxOpId + 1))[o]? = some o :=
    List.getElem?_range (by omega)
  rw [residentAfter_getElem?]
  obtain ⟨selected, hselected⟩ : ∃ selected,
      selected = greedySelect limit trace.candidates trace.residentBytes := ⟨_, rfl⟩
  have hsublist : selected.Sublist trace.candidates := hselected ▸ greedySelect_sublist
  rw [← hselected, ActivationTrace.residentBytes, List.getElem?_map, ← ActivationTrace.maxOpId,
    hrange, Option.map_some, Option.map_some]
  congr 1
  rw [sum_filter_map, covered_eq (fun c hc => hsublist.subset hc), deviceBytes, retainedBytes]
  have hbalance := congrArg List.sum (List.map_congr_left fun f hf =>
    storage_balance hsublist (f := f) hf o)
  rw [List.sum_map_add, List.sum_map_add] at hbalance
  omega

end Sums

/-! ### Between two events -/

/-- A prefix of a run op by op ends inside of an op. -/
theorem prefix_flatMap_range {β : Type} (g : ℕ → List β) {n : ℕ} {es : List β}
    (h : es <+: (List.range n).flatMap g) : es = [] ∨
      ∃ k < n, ∃ q, q <+: g k ∧ q ≠ [] ∧ es = (List.range k).flatMap g ++ q := by
  induction n with
  | zero => exact .inl (List.prefix_nil.1 h)
  | succ n ih =>
    rw [List.range_succ, List.flatMap_append, List.flatMap_singleton] at h
    obtain ⟨t, ht⟩ := h
    have hearlier : es <+: (List.range n).flatMap g → es = [] ∨
        ∃ k < n + 1, ∃ q, q <+: g k ∧ q ≠ [] ∧ es = (List.range k).flatMap g ++ q := by
      intro h
      refine (ih h).imp_right fun ⟨k, hk, q, hq⟩ => ⟨k, by omega, q, hq⟩
    rcases List.append_eq_append_iff.1 ht with ⟨a', ha', -⟩ | ⟨c', hc', hrest⟩
    · exact hearlier ⟨a', ha'.symm⟩
    · by_cases hnil : c' = []
      · rw [hnil, List.append_nil] at hc'
        exact hearlier (hc' ▸ List.prefix_refl _)
      · exact .inr ⟨n, Nat.lt_succ_self n, c', ⟨t, hrest.symm⟩, hnil, hc'⟩

section Kept

variable {trace : ActivationTrace} {limit : ℤ} {selected : List EvictionCandidate} {k : ℕ}

theorem le_maxOpId {a : StorageAccess} (ha : a ∈ trace.ops.flatten) : a.opId ≤ trace.maxOpId :=
  List.le_max?_getD_of_mem (List.mem_map_of_mem ha)

theorem accessed_le_maxOpId {sid : ℕ} (h : trace.Accessed sid k) : k ≤ trace.maxOpId := by
  obtain ⟨a, ha, -, rfl⟩ := h
  exact le_maxOpId ha

/-- Nothing happens behind the last access. -/
theorem le_maxOpId_of_opEvents (hgaps : ∀ c ∈ selected, Gap trace c)
    (h : opEvents trace (scheduleOf selected trace) k ≠ []) : k ≤ trace.maxOpId := by
  obtain ⟨e, he⟩ := List.exists_mem_of_ne_nil _ h
  by_contra hlt
  have hnil := (opEvents_scheduleOf hgaps e.storageId k).eq_nil (fun c hc => by
    obtain ⟨hc, hsid⟩ := List.mem_filter.1 hc
    exact ⟨hgaps c hc, of_decide_eq_true hsid⟩) fun hacc => hlt (accessed_le_maxOpId hacc)
  exact List.filter_eq_nil_iff.1 hnil e he (decide_eq_true rfl)

theorem begin_of_mem_beginEvents {e : Event}
    (he : e ∈ beginEvents trace (scheduleOf selected trace) k) :
    (∃ k sid, e = .action ⟨k, sid, .copyH2d⟩) ∨ ∃ a, e = .access a := by
  rcases List.mem_append.1 he with he | he
  · obtain ⟨a, ha, rfl⟩ := List.mem_map.1 he
    obtain ⟨c, -, rfl⟩ := List.mem_map.1 (List.mem_of_mem_filter ha)
    exact .inl ⟨_, _, rfl⟩
  · obtain ⟨a, -, rfl⟩ := List.mem_map.1 he
    exact .inr ⟨a, rfl⟩

theorem post_of_mem_postActions {a : ResidencyAction}
    (ha : a ∈ (scheduleOf selected trace).postActions k) : a.kind ≠ .copyH2d := by
  rcases List.mem_append.1 (List.mem_of_mem_filter ha) with ha | ha
  · obtain ⟨c, -, ha⟩ := List.mem_flatMap.1 ha
    rw [EvictionCandidate.postActions, List.mem_pair] at ha
    rcases ha with rfl | rfl
    · intro h
      cases h
    · intro h
      cases h
  · obtain ⟨entry, -, -, rfl | ⟨-, rfl⟩⟩ := mem_releaseActions_iff.1 ha
    · intro h
      cases h
    · intro h
      cases h

theorem presence_replayState (events : List Event) (sid : ℕ) :
    (replayState events sid).presence =
      (events.filter (·.storageId = sid)).foldl Presence.step Presence.init := by
  rw [replayState, foldl_lift, presence_foldl]
  rfl

/-- Inside of an op the device holds nothing that it does not hold while the op runs. -/
theorem device_inside {q : List Event} {sid : ℕ}
    (hq : q <+: opEvents trace (scheduleOf selected trace) k)
    (hdevice : (replayState ((List.range k).flatMap
      (opEvents trace (scheduleOf selected trace)) ++ q) sid).device.isSome = true) :
    (running trace (scheduleOf selected trace) k sid).device.isSome = true := by
  have hprefix := presence_replayState ((List.range k).flatMap
    (opEvents trace (scheduleOf selected trace)) ++ q) sid
  have hrunning := presence_replayState ((List.range k).flatMap
    (opEvents trace (scheduleOf selected trace)) ++
      beginEvents trace (scheduleOf selected trace) k) sid
  rw [List.filter_append, List.foldl_append] at hprefix hrunning
  have hgoal := congrArg Presence.device hrunning
  have hhave := congrArg Presence.device hprefix
  refine hgoal.trans ?_
  have hhave := hhave.symm.trans hdevice
  obtain ⟨t, ht⟩ := hq
  rw [opEvents, ← beginEvents] at ht
  rcases List.append_eq_append_iff.1 ht with ⟨a', ha', -⟩ | ⟨c', hc', hrest⟩
  -- before the op has run: what is to come adds
  · rw [ha', List.filter_append, List.foldl_append]
    refine device_of_begin (fun e he => ?_) hhave
    exact begin_of_mem_beginEvents (ha' ▸ List.mem_append_right q (List.mem_of_mem_filter he))
  -- behind it: what has come since has taken away
  · rw [hc', List.filter_append, List.foldl_append] at hhave
    refine device_of_post (fun e he => ?_) hhave
    have hmem : e ∈ ((scheduleOf selected trace).postActions k).map Event.action :=
      hrest ▸ List.mem_append_left t (List.mem_of_mem_filter he)
    obtain ⟨a, ha, rfl⟩ := List.mem_map.1 hmem
    exact ⟨a, rfl, post_of_mem_postActions ha⟩

theorem deviceBytes_le {st st' : ℕ → Slot}
    (h : ∀ sid, (st sid).device.isSome = true → (st' sid).device.isSome = true) :
    deviceBytes trace st ≤ deviceBytes trace st' := by
  refine List.sum_le_sum fun f _ => ?_
  have hf := h f.1
  split_ifs with hst hst'
  · exact Int.le_refl _
  · exact absurd (hf hst) hst'
  · exact Int.natCast_nonneg _
  · exact Int.le_refl _

theorem deviceBytes_nonneg (st : ℕ → Slot) : 0 ≤ deviceBytes trace st := by
  refine List.sum_nonneg fun x hx => ?_
  obtain ⟨f, -, rfl⟩ := List.mem_map.1 hx
  split_ifs
  · exact Int.natCast_nonneg _
  · exact Int.le_refl _

/-- A bound on the running ops is a bound between any two events. -/
theorem deviceBytes_prefix_le (hgaps : ∀ c ∈ selected, Gap trace c)
    (hrunning : ∀ o ≤ trace.maxOpId,
      deviceBytes trace (running trace (scheduleOf selected trace) o) ≤ limit)
    {events : List Event} (hevents : events <+: replayEvents trace (scheduleOf selected trace)) :
    deviceBytes trace (replayState events) ≤ limit := by
  obtain rfl | ⟨k, -, q, hq, hne, rfl⟩ := prefix_flatMap_range _ hevents
  · refine le_trans (deviceBytes_le fun sid h => ?_) (hrunning 0 (Nat.zero_le _))
    cases h
  · have hop : opEvents trace (scheduleOf selected trace) k ≠ [] := by
      intro hnil
      have hq' : q <+: opEvents trace (scheduleOf selected trace) k := hq
      rw [hnil] at hq'
      exact hne (List.prefix_nil.1 hq')
    exact (deviceBytes_le fun sid h => device_inside hq h).trans
      (hrunning k (le_maxOpId_of_opEvents hgaps hop))

end Kept

/-! ### Planned and replayed -/

section Planned

variable {trace : ActivationTrace} {limit : ℤ}

theorem mem_footprints_iff {sid size : ℕ} :
    (∃ f ∈ trace.footprints, f.1 = sid ∧ f.2.1 = size) ↔
      trace.storageSizes sid = some size ∧ ∃ k, trace.Accessed sid k := by
  constructor
  · rintro ⟨f, hf, rfl, rfl⟩
    obtain ⟨last, hlast⟩ := exists_last_of_mem_footprints hf
    obtain ⟨entry, -, hentry⟩ := List.mem_filterMap.1 hf
    obtain ⟨size, hsize, rfl⟩ := Option.map_eq_some_iff.1 hentry
    exact ⟨hsize, _, accessed_of_mem_releasable hlast⟩
  · rintro ⟨hsize, k, a, ha, rfl, rfl⟩
    refine ⟨(a.storageId, size, sortedAccesses (trace.ops.flatten.filter
      (·.storageId = a.storageId))), List.mem_filterMap.2 ⟨_, List.mem_map_of_mem
      (Dict.mem_firstKeys.2 ⟨a, ha, rfl⟩), ?_⟩, rfl, rfl⟩
    rw [hsize]
    rfl

/-- The retained storages are in use to the end just when none of them is forgotten. -/
theorem retainedToTheEnd_iff :
    RetainedToTheEnd trace ↔ ∀ o ≤ trace.maxOpId, retainedBytes trace o = 0 := by
  constructor
  · intro h o ho
    refine List.sum_eq_zero fun x hx => ?_
    obtain ⟨f, hf, rfl⟩ := List.mem_map.1 hx
    rw [ite_eq_right_iff]
    rintro ⟨hretained, hbefore⟩
    obtain ⟨hsize, hacc⟩ := mem_footprints_iff.1 ⟨f, hf, rfl, rfl⟩
    rcases Nat.eq_zero_or_pos f.2.1 with hzero | hpos
    · rw [hzero]
      rfl
    · obtain ⟨a, ha, hlast⟩ := (accessed_iff hf).1 (h f.1 hretained f.2.1 hsize hpos hacc)
      have := hbefore a ha
      omega
  · intro h sid hretained size hsize hpos hacc
    obtain ⟨f, hf, rfl, rfl⟩ := mem_footprints_iff.2 ⟨hsize, hacc⟩
    have hterm := List.single_le_sum (l := trace.footprints.map fun f =>
      if f.1 ∈ trace.retainedSids ∧ ∀ a ∈ f.2.2, a.opId < trace.maxOpId then (f.2.1 : ℤ) else 0)
      (fun x hx => by
        obtain ⟨g, -, rfl⟩ := List.mem_map.1 hx
        split_ifs
        · exact Int.natCast_nonneg _
        · exact Int.le_refl _) _ (List.mem_map_of_mem hf)
    rw [← retainedBytes, h _ (Nat.le_refl _)] at hterm
    by_contra hnot
    have hbefore : ∀ a ∈ f.2.2, a.opId < trace.maxOpId := by
      intro a ha
      have hle := accessed_le_maxOpId ((accessed_iff hf).2 ⟨a, ha, rfl⟩)
      have hne : a.opId ≠ trace.maxOpId := fun heq => hnot ((accessed_iff hf).2 ⟨a, ha, heq⟩)
      omega
    rw [if_pos ⟨hretained, hbefore⟩] at hterm
    omega

/-- The array of the planner is the footprint of the replay just when every retained storage is in
use to the end. -/
theorem plannedEqualsReplayed_iff (trace : ActivationTrace) (limit : ℤ) :
    PlannedEqualsReplayed trace limit ↔ RetainedToTheEnd trace := by
  rw [retainedToTheEnd_iff]
  constructor
  · intro h o ho
    have heq := h.equal o ho
    rw [residentAfter_eq ho] at heq
    have := Option.some.inj heq
    omega
  · intro h
    have hgaps : ∀ c ∈ greedySelect limit trace.candidates trace.residentBytes, Gap trace c :=
      fun c hc => gap_of_mem_candidates (mem_of_mem_greedySelect hc)
    have hequal : ∀ o ≤ trace.maxOpId,
        (residentAfter limit trace.candidates trace.residentBytes)[o]? =
          some (deviceBytes trace (running trace (scheduleOf
            (greedySelect limit trace.candidates trace.residentBytes) trace) o)) := by
      intro o ho
      rw [residentAfter_eq ho, h o ho, Int.sub_zero]
    refine ⟨hequal, length_filter_affects_le greedySelect_sublist, ?_, ?_, ?_⟩
    · intro b hb
      obtain ⟨o, ho⟩ := List.mem_iff_getElem?.1 hb
      have hlt := (List.getElem?_eq_some_iff.1 ho).1
      rw [length_residentAfter, ActivationTrace.residentBytes, List.length_map,
        List.length_range, ← ActivationTrace.maxOpId] at hlt
      rw [hequal o (by omega)] at ho
      rw [← Option.some.inj ho]
      exact deviceBytes_nonneg _
    · intro hmet events hevents
      refine deviceBytes_prefix_le hgaps (fun o ho => ?_) hevents
      exact (le_max? (List.mem_of_getElem? (hequal o ho))).trans hmet
    · exact fun c hc hnot o b haffects hb => le_limit_of_notMem_greedySelect hc hnot haffects hb

end Planned

/-- A storage that outlives the trace, and an op behind its last access. -/
def outlivingTrace : ActivationTrace where
  ops := [[⟨0, 0, .write⟩], [⟨1, 1, .write⟩]]
  storageSizes := fun _ => some 100
  retainedSids := [0]
  memoryLimitBytes := some 150
  opId_eq := by
    intro k op h a ha
    rcases k with _ | _ | k <;> simp at h <;> subst h <;> simp at ha <;> subst ha <;> rfl

/-- The array says 100 bytes at the second op, which is within the budget; the device holds 200. -/
theorem not_plannedEqualsReplayed_outliving : ¬PlannedEqualsReplayed outlivingTrace 150 := by
  have hcandidates : outlivingTrace.candidates = [] := by
    rw [ActivationTrace.candidates, show outlivingTrace.footprints.flatMap
      (fun f => candidacies f.1 f.2.1 f.2.2) = [] from rfl, List.mergeSort_nil]
  intro h
  have hequal := h.equal 1 (by decide)
  rw [hcandidates] at hequal
  revert hequal
  decide

end HyperParallel.HyperOffload
