import HyperParallel.HyperOffload.GreedyPlanner

/-!
# The gaps of a trace

* `Accessed`, `Written`: the ops that access or write a storage;
* `Gap`: what a candidate of the planner is; `gap_of_mem_candidates`;
* `mem_of_mem_greedySelect`: the selection takes candidates;
* `last_of_mem_releasable`: the releases stand at the last access.
-/

namespace HyperParallel.HyperOffload

variable {trace : ActivationTrace} {sid k : ℕ}

def ActivationTrace.Accessed (trace : ActivationTrace) (sid k : ℕ) : Prop :=
  ∃ a ∈ trace.ops.flatten, a.storageId = sid ∧ a.opId = k

def ActivationTrace.Written (trace : ActivationTrace) (sid k : ℕ) : Prop :=
  ∃ a ∈ trace.ops.flatten, a.storageId = sid ∧ a.opId = k ∧ a.kind = .write

theorem mem_op_iff {a : StorageAccess} :
    a ∈ trace.ops[k]?.getD [] ↔ a ∈ trace.ops.flatten ∧ a.opId = k := by
  constructor
  · intro h
    cases hop : trace.ops[k]? with
    | none =>
      rw [hop] at h
      exact absurd h List.not_mem_nil
    | some op =>
      rw [hop] at h
      exact ⟨List.mem_flatten.2 ⟨op, List.mem_of_getElem? hop, h⟩, trace.opId_eq k op hop a h⟩
  · rintro ⟨h, rfl⟩
    obtain ⟨op, hop, ha⟩ := List.mem_flatten.1 h
    obtain ⟨i, hi⟩ := List.mem_iff_getElem?.1 hop
    rw [trace.opId_eq i op hi a ha, hi]
    exact ha

/-- The recorder goes through the ops in order. -/
theorem pairwise_flatten (trace : ActivationTrace) :
    trace.ops.flatten.Pairwise fun a b => a.opId ≤ b.opId := by
  rw [List.pairwise_flatten]
  constructor
  · intro op hop
    obtain ⟨i, hi⟩ := List.mem_iff_getElem?.1 hop
    refine List.pairwise_of_forall_mem_list fun a ha b hb => ?_
    rw [trace.opId_eq i op hi a ha, trace.opId_eq i op hi b hb]
  · rw [List.pairwise_iff_getElem]
    intro i j hi hj hij a ha b hb
    rw [trace.opId_eq i _ (List.getElem?_eq_getElem hi) a ha,
      trace.opId_eq j _ (List.getElem?_eq_getElem hj) b hb]
    exact hij.le

/-! ### Footprints -/

/-- The accesses of a storage, in the order of the ops. -/
theorem of_mem_footprints {f : ℕ × ℕ × List StorageAccess} (h : f ∈ trace.footprints) :
    f.2.2 = trace.ops.flatten.filter (·.storageId = f.1) := by
  obtain ⟨entry, hentry, hf⟩ := List.mem_filterMap.1 h
  obtain ⟨sizeBytes, -, rfl⟩ := Option.map_eq_some_iff.1 hf
  obtain ⟨sid, -, rfl⟩ := List.mem_map.1 hentry
  exact ((pairwise_flatten trace).filter _).insertionSort_eq

theorem mem_footprint_iff {f : ℕ × ℕ × List StorageAccess} (h : f ∈ trace.footprints)
    {a : StorageAccess} : a ∈ f.2.2 ↔ a ∈ trace.ops.flatten ∧ a.storageId = f.1 := by
  rw [of_mem_footprints h, List.mem_filter, decide_eq_true_eq]

theorem pairwise_footprint {f : ℕ × ℕ × List StorageAccess} (h : f ∈ trace.footprints) :
    f.2.2.Pairwise fun a b => a.opId ≤ b.opId := by
  rw [of_mem_footprints h]
  exact (pairwise_flatten trace).filter _

/-- The release actions stand at the last access. -/
theorem last_of_mem_releasable {a : StorageAccess} (h : (sid, a) ∈ trace.releasable) :
    ∀ k, trace.Accessed sid k → k ≤ a.opId := by
  obtain ⟨f, hf, hlast⟩ := List.mem_filterMap.1 h
  obtain ⟨last, hget, heq⟩ := Option.map_eq_some_iff.1 hlast
  obtain ⟨rfl, rfl⟩ := Prod.mk.inj heq
  rintro k ⟨b, hb, hsid, rfl⟩
  have hmem := (mem_footprint_iff hf).2 ⟨hb, hsid⟩
  obtain ⟨rest, hrest⟩ := List.getLast?_eq_some_iff.1 hget
  have hpair := pairwise_footprint hf
  rw [hrest] at hmem hpair
  rcases List.mem_append.1 hmem with hmem | hmem
  · exact (List.pairwise_append.1 hpair).2.2 b hmem last (List.mem_singleton_self last)
  · rw [List.mem_singleton.1 hmem]

/-! ### Candidates -/

/-- A gap of a storage with the copy that may stand before it. -/
structure Gap (trace : ActivationTrace) (c : EvictionCandidate) : Prop where
  copySid : c.copyStart.storageId = c.storageId
  releaseSid : c.releaseStart.storageId = c.storageId
  finSid : c.fin.storageId = c.storageId
  copyAccessed : trace.Accessed c.storageId c.copyStart.opId
  releaseAccessed : trace.Accessed c.storageId c.releaseStart.opId
  finAccessed : trace.Accessed c.storageId c.fin.opId
  wide : c.releaseStart.opId + 2 ≤ c.fin.opId
  copy_le : c.copyStart.opId ≤ c.releaseStart.opId
  /-- no access inside of the gap -/
  inside : ∀ k, trace.Accessed c.storageId k → k ≤ c.releaseStart.opId ∨ c.fin.opId ≤ k
  /-- no write between the copy and the release -/
  unwritten : ∀ k, trace.Written c.storageId k → k ≤ c.copyStart.opId ∨ c.releaseStart.opId < k

section Ordered

variable {ordered : List StorageAccess} (hordered : ordered.Pairwise fun a b => a.opId ≤ b.opId)
include hordered

theorem opId_le_of_le {i j : ℕ} {a b : StorageAccess} (ha : ordered[i]? = some a)
    (hb : ordered[j]? = some b) (hij : i ≤ j) : a.opId ≤ b.opId := by
  obtain ⟨hi, rfl⟩ := List.getElem?_eq_some_iff.1 ha
  obtain ⟨hj, rfl⟩ := List.getElem?_eq_some_iff.1 hb
  rcases Nat.eq_or_lt_of_le hij with rfl | hlt
  · exact Nat.le_refl _
  · exact List.pairwise_iff_getElem.1 hordered i j hi hj hlt

/-- The copy is at the latest write before the release, or at the first access. -/
theorem earliestSafeCopyStart_spec {i : ℕ} {copy release : StorageAccess}
    (hrelease : ordered[i]? = some release) (h : earliestSafeCopyStart ordered i = some copy) :
    copy ∈ ordered ∧ copy.opId ≤ release.opId ∧ ∀ j a, j ≤ i → ordered[j]? = some a →
      a.kind = .write → a.opId ≤ copy.opId := by
  have hmemTake : ∀ j a, j ≤ i → ordered[j]? = some a → a ∈ ordered.take (i + 1) := by
    intro j a hj ha
    refine List.mem_of_getElem? (i := j) ?_
    rw [List.getElem?_take_of_lt (by omega), ha]
  have hle : ∀ a ∈ ordered.take (i + 1), a.opId ≤ release.opId := by
    intro a ha
    obtain ⟨j, hj⟩ := List.mem_iff_getElem?.1 ha
    have hjlt : j < i + 1 := by
      have := (List.getElem?_eq_some_iff.1 hj).1
      rw [List.length_take] at this
      omega
    rw [List.getElem?_take_of_lt hjlt] at hj
    exact opId_le_of_le hordered hj hrelease (by omega)
  have hpair : (ordered.take (i + 1)).Pairwise fun a b => a.opId ≤ b.opId :=
    hordered.sublist (List.take_sublist _ _)
  rw [earliestSafeCopyStart] at h
  split at h
  -- the last write: an access behind it in the list is none
  next a hfind =>
    obtain rfl := Option.some.inj h
    obtain ⟨hkind, later, earlier, hsplit, hlater⟩ := List.find?_eq_some_iff_append.1 hfind
    have hsplit' : ordered.take (i + 1) = earlier.reverse ++ a :: later.reverse := by
      rw [← List.reverse_reverse (ordered.take (i + 1)), hsplit]
      simp
    have hmem : a ∈ ordered.take (i + 1) := by
      rw [hsplit']
      simp
    refine ⟨List.mem_of_mem_take hmem, hle a hmem, fun j b hj hb hwrite => ?_⟩
    have hb' := hmemTake j b hj hb
    rw [hsplit'] at hb' hpair
    rcases List.mem_append.1 hb' with hb' | hb'
    · exact (List.pairwise_append.1 hpair).2.2 b hb' a List.mem_cons_self
    · rcases List.mem_cons.1 hb' with rfl | hb'
      · exact Nat.le_refl _
      · have := hlater b (List.mem_reverse.1 hb')
        simp [hwrite] at this
  -- no write: the first access
  next hfind =>
    have hget : ordered[0]? = some copy := by rw [← List.head?_eq_getElem?, h]
    refine ⟨List.mem_of_getElem? hget, opId_le_of_le hordered hget hrelease (Nat.zero_le i),
      fun j b hj hb hwrite => ?_⟩
    have hnone := List.find?_eq_none.1 hfind b (List.mem_reverse.2 (hmemTake j b hj hb))
    simp [hwrite] at hnone

end Ordered

/-- What the loop of the candidates reads of the accesses behind place `i`. -/
theorem exists_of_candidate {sid sizeBytes i : ℕ} {ordered : List StorageAccess}
    {c : EvictionCandidate}
    (h : (do
      let releaseStart ← ordered[i]?
      let fin ← ordered[i + 1]?
      let copyStart ← earliestSafeCopyStart ordered i
      let candidate : EvictionCandidate := ⟨sid, sizeBytes, copyStart, releaseStart, fin⟩
      if candidate.startInterior ≤ candidate.endInterior then some candidate else none) = some c) :
    ∃ release fin copy, ordered[i]? = some release ∧ ordered[i + 1]? = some fin ∧
      earliestSafeCopyStart ordered i = some copy ∧ c = ⟨sid, sizeBytes, copy, release, fin⟩ ∧
      c.startInterior ≤ c.endInterior := by
  obtain ⟨release, hrelease, h⟩ := Option.bind_eq_some_iff.1 h
  obtain ⟨fin, hfin, h⟩ := Option.bind_eq_some_iff.1 h
  obtain ⟨copy, hcopy, h⟩ := Option.bind_eq_some_iff.1 h
  dsimp only at h
  split_ifs at h with hwide
  obtain rfl := Option.some.inj h
  exact ⟨release, fin, copy, hrelease, hfin, hcopy, rfl, hwide⟩

theorem gap_of_mem_candidacies {f : ℕ × ℕ × List StorageAccess} (hf : f ∈ trace.footprints)
    {c : EvictionCandidate} (h : c ∈ candidacies f.1 f.2.1 f.2.2) : Gap trace c := by
  obtain ⟨i, -, hc⟩ := List.mem_filterMap.1 h
  obtain ⟨release, fin, copy, hrelease, hfin, hcopy, rfl, hwide⟩ := exists_of_candidate hc
  have hordered := pairwise_footprint hf
  obtain ⟨hcopyMem, hcopyLe, hwrites⟩ := earliestSafeCopyStart_spec hordered hrelease hcopy
  have hmem : ∀ a ∈ f.2.2, a.storageId = f.1 ∧ trace.Accessed f.1 a.opId := by
    intro a ha
    obtain ⟨hflat, hsid⟩ := (mem_footprint_iff hf).1 ha
    exact ⟨hsid, a, hflat, hsid, rfl⟩
  have hwide : release.opId + 2 ≤ fin.opId := by
    simp only [EvictionCandidate.startInterior, EvictionCandidate.endInterior] at hwide
    omega
  refine {
    copySid := (hmem copy hcopyMem).1
    releaseSid := (hmem release (List.mem_of_getElem? hrelease)).1
    finSid := (hmem fin (List.mem_of_getElem? hfin)).1
    copyAccessed := (hmem copy hcopyMem).2
    releaseAccessed := (hmem release (List.mem_of_getElem? hrelease)).2
    finAccessed := (hmem fin (List.mem_of_getElem? hfin)).2
    wide := hwide
    copy_le := hcopyLe
    inside := ?_
    unwritten := ?_ }
  -- an access stands up to the release in the list, or from the end of the gap on
  · rintro k ⟨a, ha, hsid, rfl⟩
    obtain ⟨j, hj⟩ := List.mem_iff_getElem?.1 ((mem_footprint_iff hf).2 ⟨ha, hsid⟩)
    rcases Nat.lt_or_ge i j with hij | hij
    · exact .inr (opId_le_of_le hordered hfin hj hij)
    · exact .inl (opId_le_of_le hordered hj hrelease hij)
  · rintro k ⟨a, ha, hsid, rfl, hkind⟩
    obtain ⟨j, hj⟩ := List.mem_iff_getElem?.1 ((mem_footprint_iff hf).2 ⟨ha, hsid⟩)
    rcases Nat.lt_or_ge i j with hij | hij
    · have hle := opId_le_of_le hordered hfin hj hij
      exact .inr (show release.opId < a.opId by omega)
    · exact .inl (hwrites j a hij hj hkind)

theorem gap_of_mem_candidates {c : EvictionCandidate} (h : c ∈ trace.candidates) : Gap trace c := by
  rw [ActivationTrace.candidates, List.mem_mergeSort] at h
  obtain ⟨f, hf, hc⟩ := List.mem_flatMap.1 h
  exact gap_of_mem_candidacies hf hc

theorem mem_of_mem_greedySelect {limit : ℤ} {candidates : List EvictionCandidate}
    {residentBytes : List ℤ} {c : EvictionCandidate}
    (h : c ∈ greedySelect limit candidates residentBytes) : c ∈ candidates := by
  induction candidates generalizing residentBytes with
  | nil => exact h
  | cons candidate rest ih =>
    rw [greedySelect] at h
    split_ifs at h
    · exact absurd h List.not_mem_nil
    · rcases List.mem_cons.1 h with rfl | h
      · exact List.mem_cons_self
      · exact List.mem_cons_of_mem _ (ih h)
    · exact List.mem_cons_of_mem _ (ih h)

end HyperParallel.HyperOffload
