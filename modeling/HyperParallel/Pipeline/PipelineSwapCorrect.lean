import HyperParallel.Lib.Intervals
import HyperParallel.Lib.Shares
import HyperParallel.Pipeline.PipelineSwap
import Mathlib.Data.List.Induction

/-!
# Swap steps in a pipeline order, the proofs

* `collected`: the leaves with the steps that hold them;
* `Swapped.anchors`: where the transfers of a chunk are put;
* `filter_inject`: the transfers of a chunk in the order;
* `injectPipelineSwapSteps_correct`: when the transfers of every chunk are right.
-/

namespace HyperParallel.PipelineSwap

/-! ### Collected leaves -/

/-- What is collected from an order. -/
structure Collected (order : Order) (state : List ComputeLeaf × List ℕ) : Prop where
  ascending : state.2.Pairwise (· < ·)
  lt : ∀ i ∈ state.2, i < order.length
  compute : ∀ i ∈ state.2, iterComputeLeafSteps (order.getD i none) ≠ []
  leaf : ∀ leaf ∈ state.1, state.2[leaf.computeIndex]? = some leaf.containerIndex ∧
    leaf.step ∈ iterComputeLeafSteps (order.getD leaf.containerIndex none)
  exists_leaf : ∀ i, ∀ x ∈ iterComputeLeafSteps (order.getD i none), ∃ leaf ∈ state.1,
    leaf.step = x

theorem collectComputeLeaves_concat (order : Order) (step : Option AnyMetaStep) :
    collectComputeLeaves (order ++ [step]) =
      collectStep (collectComputeLeaves order) (step, order.length) := by
  unfold collectComputeLeaves
  rw [List.zipIdx_append, List.foldl_append]
  simp

theorem collected (order : Order) : Collected order (collectComputeLeaves order) := by
  induction order using List.reverseRecOn with
  | nil =>
    refine ⟨.nil, nofun, nofun, nofun, fun i x hx => ?_⟩
    simp [iterComputeLeafSteps] at hx
  | append_singleton order step ih =>
    rw [collectComputeLeaves_concat]
    have hbefore : ∀ i < order.length, (order ++ [step]).getD i none = order.getD i none :=
      fun i hi => List.getD_append _ _ _ _ hi
    have hlast : (order ++ [step]).getD order.length none = step := by
      rw [List.getD_append_right _ _ _ _ le_rfl]
      simp
    have hbeyond : ∀ i, order.length < i → (order ++ [step]).getD i none = none := by
      intro i hi
      exact List.getD_eq_default _ _ (by simp; omega)
    have hleafLt : ∀ leaf ∈ (collectComputeLeaves order).1, leaf.containerIndex < order.length :=
      fun leaf hleaf => ih.lt _ (List.mem_of_getElem? (ih.leaf leaf hleaf).1)
    have hold : ∀ i, ∀ x ∈ iterComputeLeafSteps ((order ++ [step]).getD i none),
        (∃ leaf ∈ (collectComputeLeaves order).1, leaf.step = x) ∨
          i = order.length ∧ x ∈ iterComputeLeafSteps step := by
      intro i x hx
      rcases Nat.lt_trichotomy i order.length with hi | rfl | hi
      · rw [hbefore i hi] at hx
        exact .inl (ih.exists_leaf i x hx)
      · rw [hlast] at hx
        exact .inr ⟨rfl, hx⟩
      · rw [hbeyond i hi] at hx
        simp [iterComputeLeafSteps] at hx
    unfold collectStep
    dsimp only
    split_ifs with hnone
    · refine ⟨ih.ascending, fun i hi => ?_, fun i hi => ?_, fun leaf hleaf => ?_, fun i x hx => ?_⟩
      · rw [List.length_append]
        exact Nat.lt_add_right _ (ih.lt i hi)
      · rw [hbefore i (ih.lt i hi)]
        exact ih.compute i hi
      · rw [hbefore _ (hleafLt leaf hleaf)]
        exact ih.leaf leaf hleaf
      · rcases hold i x hx with h | ⟨-, hstep⟩
        · exact h
        · rw [hnone] at hstep
          exact absurd hstep List.not_mem_nil
    · refine ⟨?_, fun i hi => ?_, fun i hi => ?_, fun leaf hleaf => ?_, fun i x hx => ?_⟩
      · rw [List.pairwise_append]
        refine ⟨ih.ascending, List.pairwise_singleton _ _, fun i hi j hj => ?_⟩
        rw [List.mem_singleton.1 hj]
        exact ih.lt i hi
      · rw [List.length_append, List.length_singleton]
        rcases List.mem_append.1 hi with hi | hi
        · exact Nat.lt_succ_of_lt (ih.lt i hi)
        · rw [List.mem_singleton.1 hi]
          exact Nat.lt_succ_self _
      · rcases List.mem_append.1 hi with hi | hi
        · rw [hbefore i (ih.lt i hi)]
          exact ih.compute i hi
        · rw [List.mem_singleton.1 hi, hlast]
          exact hnone
      · rcases List.mem_append.1 hleaf with hleaf | hleaf
        · obtain ⟨hindex, hstep⟩ := ih.leaf leaf hleaf
          rw [hbefore _ (hleafLt leaf hleaf)]
          refine ⟨?_, hstep⟩
          rw [List.getElem?_append_left (List.getElem?_eq_some_iff.1 hindex).1, hindex]
        · obtain ⟨x, hx, rfl⟩ := List.mem_map.1 hleaf
          refine ⟨List.getElem?_concat_length, ?_⟩
          rw [hlast]
          exact hx
      · rcases hold i x hx with ⟨leaf, hleaf, rfl⟩ | ⟨rfl, hstep⟩
        · exact ⟨leaf, List.mem_append_left _ hleaf, rfl⟩
        · exact ⟨_, List.mem_append_right _ (List.mem_map_of_mem hstep), rfl⟩

/-! ### The dicts -/

section Dicts

variable {p : AnyMetaStepType → Bool} {leaves : List ComputeLeaf} {key : Chunk} {leaf : ComputeLeaf}

theorem indexComputeLeaves_concat : indexComputeLeaves p (leaves ++ [leaf]) =
    if p leaf.step.type then Dict.set (indexComputeLeaves p leaves) leaf.step.key leaf
    else indexComputeLeaves p leaves := by
  unfold indexComputeLeaves
  rw [List.foldl_append]
  rfl

theorem nodup_indexComputeLeaves (p : AnyMetaStepType → Bool) (leaves : List ComputeLeaf) :
    ((indexComputeLeaves p leaves).map Prod.fst).Nodup := by
  induction leaves using List.reverseRecOn with
  | nil => exact List.nodup_nil
  | append_singleton leaves leaf ih =>
    rw [indexComputeLeaves_concat]
    split_ifs
    · exact Dict.nodup_set ih
    · exact ih

/-- The dict holds leaves under their chunks. -/
theorem of_lookup (h : (indexComputeLeaves p leaves).lookup key = some leaf) :
    leaf ∈ leaves ∧ p leaf.step.type ∧ leaf.step.key = key := by
  induction leaves using List.reverseRecOn with
  | nil => cases h
  | append_singleton leaves last ih =>
    rw [indexComputeLeaves_concat] at h
    split_ifs at h with hp
    · rw [Dict.lookup_set] at h
      split_ifs at h with hkey
      · cases h
        exact ⟨List.mem_append_right _ (List.mem_singleton_self _), hp, hkey.symm⟩
      · obtain ⟨hmem, hrest⟩ := ih h
        exact ⟨List.mem_append_left _ hmem, hrest⟩
    · obtain ⟨hmem, hrest⟩ := ih h
      exact ⟨List.mem_append_left _ hmem, hrest⟩

/-- Every chunk with a leaf is in the dict. -/
theorem exists_lookup (hleaf : leaf ∈ leaves) (hp : p leaf.step.type) :
    ∃ leaf', (indexComputeLeaves p leaves).lookup leaf.step.key = some leaf' := by
  induction leaves using List.reverseRecOn with
  | nil => cases hleaf
  | append_singleton leaves last ih =>
    rw [indexComputeLeaves_concat]
    rcases List.mem_append.1 hleaf with hleaf | hleaf
    · obtain ⟨leaf', h⟩ := ih hleaf
      split_ifs
      · rw [Dict.lookup_set]
        split_ifs
        · exact ⟨last, rfl⟩
        · exact ⟨leaf', h⟩
      · exact ⟨leaf', h⟩
    · rw [List.mem_singleton.1 hleaf] at hp ⊢
      rw [if_pos hp, Dict.lookup_set, if_pos rfl]
      exact ⟨last, rfl⟩

end Dicts

/-! ### Actions by chunk -/

/-- A stable sort of some of the elements. -/
theorem filter_insertionSort {α : Type*} (r : α → α → Prop) [DecidableRel r] [Std.Total r]
    [IsTrans α r] (p : α → Bool) (l : List α) :
    (l.insertionSort r).filter p = (l.filter p).insertionSort r := by
  have horder : ∀ (a : α) (l : List α), l.Pairwise r → (l.orderedInsert r a).filter p =
      if p a then (l.filter p).orderedInsert r a else l.filter p := by
    intro a l hl
    induction l with
    | nil =>
      rw [List.orderedInsert_nil, List.filter_singleton]
      cases p a <;> rfl
    | cons b l ih =>
      obtain ⟨hb, hrest⟩ := List.pairwise_cons.1 hl
      rw [List.orderedInsert_cons]
      split_ifs with hab ha ha
      · rw [List.filter_cons_of_pos ha]
        cases hfilter : (b :: l).filter p with
        | nil => rfl
        | cons c l' =>
          have hc : c ∈ b :: l := (List.mem_filter.1 (hfilter ▸ List.mem_cons_self ..)).1
          have hac : r a c := by
            rcases List.mem_cons.1 hc with rfl | hc
            · exact hab
            · exact IsTrans.trans a b c hab (hb c hc)
          rw [List.orderedInsert_cons, if_pos hac]
      · rw [List.filter_cons_of_neg ha]
      · rw [List.filter_cons, List.filter_cons, ih hrest, if_pos ha]
        split_ifs
        · rw [List.orderedInsert_cons, if_neg hab]
        · rfl
      · rw [List.filter_cons, List.filter_cons, ih hrest, if_neg ha]
  induction l with
  | nil => rfl
  | cons a l ih =>
    rw [List.insertionSort_cons, horder a _ (List.pairwise_insertionSort r l), ih,
      List.filter_cons]
    split_ifs
    · rfl
    · rfl

/-- The actions of one entry are those of its chunk. -/
theorem filter_flatMap_dict {β : Type*} (d : List (Chunk × β)) (hd : (d.map Prod.fst).Nodup)
    (g : Chunk × β → List Action)
    (hg : ∀ entry ∈ d, ∀ action ∈ g entry, action.step.key = entry.1) (key : Chunk) :
    ((d.flatMap g).filter fun action => action.step.key = key) =
      ((d.lookup key).map fun value => g (key, value)).getD [] := by
  induction d with
  | nil => rfl
  | cons entry d ih =>
    obtain ⟨hentry, hrest⟩ := List.nodup_cons.1 hd
    have hown := hg entry (List.mem_cons_self ..)
    rw [List.flatMap_cons, List.filter_append,
      ih hrest fun entry hmem => hg entry (List.mem_cons_of_mem _ hmem)]
    obtain ⟨key', value⟩ := entry
    rw [List.lookup_cons]
    by_cases hkey : key = key'
    · subst hkey
      have hlookup : d.lookup key = none := List.lookup_eq_none_iff.2 fun entry hmem => by
        have hne : key ≠ entry.1 := fun h => hentry (List.mem_map.2 ⟨entry, hmem, h.symm⟩)
        simpa using hne
      rw [hlookup, beq_self_eq_true, List.filter_eq_self.2 fun action ha => by
        rw [decide_eq_true_eq]
        exact hown action ha]
      simp
    · rw [beq_false_of_ne hkey, List.filter_eq_nil_iff.2 fun action ha => by
        rw [decide_eq_true_eq, hown action ha]
        exact Ne.symm hkey]
      rfl

/-! ### Chunks and their steps -/

/-- The swap steps of a chunk. -/
def ofChunk (key : Chunk) : Option AnyMetaStep → Bool
  | none => false
  | some step => isSwapStep step.type && step.key = key

/-- The steps that hold a leaf of a chunk. -/
def holdsLeaf (p : AnyMetaStepType → Bool) (key : Chunk) (step : Option AnyMetaStep) : Bool :=
  (iterComputeLeafSteps step).any fun leaf => p leaf.type && leaf.key = key

/-- The steps of a chunk: its forward, its backward and its transfers. -/
def marks (key : Chunk) (step : Option AnyMetaStep) : Bool :=
  ofChunk key step || holdsLeaf isForward key step || holdsLeaf isConsumer key step

def isTransfer : Option AnyMetaStep → Bool
  | none => false
  | some step => isSwapStep step.type

/-- The leaves of a chunk of some types are in one step of the order. -/
def Once (p : AnyMetaStepType → Bool) (order : Order) : Prop :=
  ∀ i < order.length, ∀ j < order.length,
    ∀ leaf ∈ iterComputeLeafSteps (order.getD i none),
    ∀ leaf' ∈ iterComputeLeafSteps (order.getD j none),
      p leaf.type → p leaf'.type → leaf.key = leaf'.key → i = j

instance (p : AnyMetaStepType → Bool) (order : Order) : Decidable (Once p order) :=
  inferInstanceAs (Decidable (∀ i < order.length, ∀ j < order.length,
    ∀ leaf ∈ iterComputeLeafSteps (order.getD i none),
    ∀ leaf' ∈ iterComputeLeafSteps (order.getD j none),
      p leaf.type → p leaf'.type → leaf.key = leaf'.key → i = j))

/-- An order without transfers, in which a chunk has its forward in one step and its backward in
one. -/
structure Schedule (order : Order) : Prop where
  noSwap : ∀ step ∈ order, isTransfer step = false
  fwdOnce : Once isForward order
  bwdOnce : Once isConsumer order

/-- A chunk that is swapped, with its leaves. -/
structure Swapped (order : Order) (key : Chunk) (f b : ComputeLeaf) : Prop where
  memFwd : f ∈ (collectComputeLeaves order).1
  fwd : isForward f.step.type
  keyFwd : f.step.key = key
  memBwd : b ∈ (collectComputeLeaves order).1
  bwd : isConsumer b.step.type
  keyBwd : b.step.key = key
  gap : f.computeIndex + minSwapGap ≤ b.computeIndex

/-- The step after which `WAIT_OFFLOAD` is put: the next compute step, or the communication behind
it. -/
def waitOffloadAnchor (order : Order) (f : ComputeLeaf) : ℕ :=
  postComputeAnchor order ((collectComputeLeaves order).2.getD (f.computeIndex + 1) 0)

/-- Where an unshard of its stage stands between the forward and the backward of a swapped chunk,
one stands behind `WAIT_OFFLOAD`. -/
def UnshardsAfterWait (order : Order) : Prop :=
  ∀ key f b, Swapped order key f b →
    (∃ i, f.containerIndex < i ∧ i < b.containerIndex ∧
      isUnshardOf key.stageIndex (order.getD i none)) →
    ∃ i, waitOffloadAnchor order f < i ∧ i < b.containerIndex ∧
      isUnshardOf key.stageIndex (order.getD i none)

section Anchors

variable {order : Order} {key : Chunk} {f b f' b' : ComputeLeaf} {i j index : ℕ}

theorem holdsLeaf_of_mem {p : AnyMetaStepType → Bool} {leaf : ComputeLeaf}
    (hleaf : leaf ∈ (collectComputeLeaves order).1) (hp : p leaf.step.type)
    (hkey : leaf.step.key = key) :
    holdsLeaf p key (order.getD leaf.containerIndex none) := by
  refine List.any_eq_true.2 ⟨leaf.step, ((collected order).leaf leaf hleaf).2, ?_⟩
  rw [hp, hkey, decide_eq_true rfl]
  rfl

theorem getElem?_lt (h : (collectComputeLeaves order).2[i]? = some index)
    {index' : ℕ} (h' : (collectComputeLeaves order).2[j]? = some index') (hij : i < j) :
    index < index' := by
  obtain ⟨hi, rfl⟩ := List.getElem?_eq_some_iff.1 h
  obtain ⟨hj, rfl⟩ := List.getElem?_eq_some_iff.1 h'
  exact List.pairwise_iff_getElem.1 (collected order).ascending i j hi hj hij

theorem isCommStep_of_compute {step : Option AnyMetaStep} (h : iterComputeLeafSteps step ≠ []) :
    isCommStep step = false := by
  cases step with
  | none => rfl
  | some step =>
    obtain ⟨⟨micro, type, stage⟩, subs⟩ := step
    cases type with
    | plain type =>
      cases type <;> first
        | rfl
        | exact absurd rfl h
    | batchSendRecv => exact absurd rfl h
    | _ => rfl

theorem length_takeWhile_le {l : Order} {k : ℕ} (h : isCommStep (l.getD k none) = false) :
    (l.takeWhile isCommStep).length ≤ k := by
  induction l generalizing k with
  | nil => exact Nat.zero_le k
  | cons step l ih =>
    rw [List.takeWhile_cons]
    split_ifs with hcomm
    · cases k with
      | zero =>
        rw [List.getD_cons_zero, hcomm] at h
        cases h
      | succ k => exact Nat.succ_le_succ (ih h)
    · exact Nat.zero_le k

/-- A block of communication ends before the next step of another kind. -/
theorem commBlockAnchor_lt (hij : i < j) (h : isCommStep (order.getD j none) = false) :
    commBlockAnchor order i < j := by
  obtain ⟨k, rfl⟩ := Nat.exists_eq_add_of_le (Nat.succ_le_of_lt hij)
  have hdrop : (order.drop (i + 1)).getD k none = order.getD (i.succ + k) none := by
    rw [List.getD_eq_getElem?_getD, List.getElem?_drop, List.getD_eq_getElem?_getD]
  have hle := length_takeWhile_le (hdrop ▸ h)
  unfold commBlockAnchor
  omega

theorem postComputeAnchor_mem (order : Order) (i : ℕ) :
    i ≤ postComputeAnchor order i ∧ postComputeAnchor order i ≤ commBlockAnchor order i := by
  have hle : i ≤ commBlockAnchor order i := Nat.le_add_right _ _
  unfold postComputeAnchor
  dsimp only
  split
  next => exact ⟨hle, le_rfl⟩
  next step _ =>
    split
    next => exact ⟨hle, le_rfl⟩
    next send _ =>
      cases hfind : (List.range' (i + 1) (commBlockAnchor order i - i)).find? fun next =>
          isSendOf step send (order.getD next none) with
      | none => exact ⟨hle, le_rfl⟩
      | some next =>
        have hmem := List.mem_range'_1.1 (List.mem_of_find?_eq_some hfind)
        rw [Option.getD_some]
        exact ⟨by omega, by omega⟩

/-- The step of a compute index. -/
theorem getD_containers (h : (collectComputeLeaves order).2[i]? = some index) :
    (collectComputeLeaves order).2.getD i 0 = index := by
  rw [List.getD_eq_getElem?_getD, h, Option.getD_some]

theorem exists_container (h : (collectComputeLeaves order).2[j]? = some index) (hij : i ≤ j) :
    ∃ index', (collectComputeLeaves order).2[i]? = some index' := by
  obtain ⟨hj, -⟩ := List.getElem?_eq_some_iff.1 h
  exact ⟨_, List.getElem?_eq_getElem (hij.trans_lt hj)⟩

/-- The containers of a swapped chunk: the forward, the next two compute steps, the one before the
backward and the backward. -/
theorem Swapped.containers (h : Swapped order key f b) : ∃ c₀ c₁ last,
    (collectComputeLeaves order).2.getD (f.computeIndex + 1) 0 = c₀ ∧
    (collectComputeLeaves order).2.getD (b.computeIndex - 1) 0 = last ∧
    f.containerIndex < c₀ ∧ c₀ < c₁ ∧ c₁ < last ∧ last < b.containerIndex ∧
    b.containerIndex < order.length ∧ iterComputeLeafSteps (order.getD c₁ none) ≠ [] := by
  have hf := ((collected order).leaf f h.memFwd).1
  have hb := ((collected order).leaf b h.memBwd).1
  have hgap : f.computeIndex + 4 ≤ b.computeIndex := h.gap
  obtain ⟨c₀, h₀⟩ := exists_container hb (show f.computeIndex + 1 ≤ b.computeIndex by omega)
  obtain ⟨c₁, h₁⟩ := exists_container hb (show f.computeIndex + 2 ≤ b.computeIndex by omega)
  obtain ⟨last, hl⟩ := exists_container hb (show b.computeIndex - 1 ≤ b.computeIndex by omega)
  exact ⟨c₀, c₁, last, getD_containers h₀, getD_containers hl, getElem?_lt hf h₀ (by omega),
    getElem?_lt h₀ h₁ (by omega), getElem?_lt h₁ hl (by omega), getElem?_lt hl hb (by omega),
    (collected order).lt _ (List.mem_of_getElem? hb),
    (collected order).compute _ (List.mem_of_getElem? h₁)⟩

/-- The last match is at least as late as any other. -/
theorem le_of_find?_reverse {p : ℕ → Bool} {s n : ℕ}
    (h : (List.range' s n).reverse.find? p = some index) (hi : i ∈ List.range' s n) (hp : p i) :
    i ≤ index := by
  obtain ⟨-, before, after, hsplit, hbefore⟩ := List.find?_eq_some_iff_append.1 h
  have hmem : i ∈ before ++ index :: after := hsplit ▸ List.mem_reverse.2 hi
  have hdesc : (before ++ index :: after).Pairwise (· > ·) := by
    rw [← hsplit, List.pairwise_reverse]
    exact List.pairwise_lt_range'
  rcases List.mem_append.1 hmem with hmem | hmem
  · have hnot := hbefore i hmem
    rw [hp] at hnot
    cases hnot
  · rcases List.mem_cons.1 hmem with rfl | hmem
    · exact le_rfl
    · exact (List.rel_of_pairwise_cons (List.pairwise_append.1 hdesc).2.1 hmem).le

theorem any_isFsdpStep {stage : ℕ} (h : isUnshardOf stage (order.getD i none)) :
    order.any isFsdpStep := by
  by_cases hi : i < order.length
  · rw [List.getD_eq_getElem _ _ hi] at h
    refine List.any_eq_true.2 ⟨order[i], List.getElem_mem hi, ?_⟩
    cases hstep : order[i] with
    | none =>
      rw [hstep] at h
      cases h
    | some step =>
      rw [hstep, isUnshardOf, Bool.and_eq_true, decide_eq_true_eq] at h
      rw [isFsdpStep, h.1]
  · rw [List.getD_eq_default _ _ (Nat.not_lt.1 hi)] at h
    cases h

/-- The anchor of `LAUNCH_LOAD`. -/
def launchAnchor (order : Order) (f b : ComputeLeaf) : ℕ :=
  loadLaunchAnchor order f b ((List.range' (f.computeIndex + 1)
    (b.computeIndex - (f.computeIndex + 1))).map fun index =>
      (collectComputeLeaves order).2.getD index 0)

theorem chunkSwapActions_eq (h : Swapped order key f b) :
    chunkSwapActions order (collectComputeLeaves order).2 f b =
      some ([⟨launchAnchor order f b, 20, swapStep key .swapLaunchLoad⟩,
          ⟨b.containerIndex, 10, swapStep key .swapWaitLoad⟩],
        [⟨f.containerIndex, 20, swapStep key .swapLaunchOffload⟩,
          ⟨waitOffloadAnchor order f, 10, swapStep key .swapWaitOffload⟩]) := by
  have hgap : f.computeIndex + 4 ≤ b.computeIndex := h.gap
  obtain ⟨k, hk⟩ : ∃ k, b.computeIndex - (f.computeIndex + 1) = k + 1 :=
    ⟨b.computeIndex - f.computeIndex - 2, by omega⟩
  unfold chunkSwapActions launchAnchor waitOffloadAnchor
  rw [if_neg (Nat.not_lt.2 h.gap), hk, List.range'_succ, List.map_cons]
  dsimp only
  rw [if_neg (List.cons_ne_nil _ _), h.keyFwd, List.headD_cons]

/-- Between the forward and the backward, and behind the transfer to the host unless an unshard
stands in the way. -/
theorem Swapped.anchors (h : Swapped order key f b) :
    f.containerIndex < waitOffloadAnchor order f ∧
      waitOffloadAnchor order f < b.containerIndex ∧
      f.containerIndex < launchAnchor order f b ∧ launchAnchor order f b ≤ b.containerIndex ∧
      (waitOffloadAnchor order f < launchAnchor order f b ↔
        ((∃ i, f.containerIndex < i ∧ i < b.containerIndex ∧
          isUnshardOf key.stageIndex (order.getD i none)) →
        ∃ i, waitOffloadAnchor order f < i ∧ i < b.containerIndex ∧
          isUnshardOf key.stageIndex (order.getD i none))) := by
  obtain ⟨c₀, c₁, last, h₀, hl, hf0, h01, h1l, hlb, hbn, hc₁⟩ := h.containers
  have hgap : f.computeIndex + 4 ≤ b.computeIndex := h.gap
  have hw : c₀ ≤ waitOffloadAnchor order f ∧ waitOffloadAnchor order f < c₁ := by
    unfold waitOffloadAnchor
    rw [h₀]
    have hmem := postComputeAnchor_mem order c₀
    have hlt := commBlockAnchor_lt h01 (isCommStep_of_compute hc₁)
    omega
  refine ⟨by omega, by omega, ?_⟩
  have hstage : b.step.stageIndex = key.stageIndex := congrArg Chunk.stageIndex h.keyBwd
  unfold launchAnchor loadLaunchAnchor
  by_cases hfsdp : order.any isFsdpStep
  · rw [if_pos hfsdp, hstage]
    cases hfind : ((List.range' (f.containerIndex + 1)
        (b.containerIndex - 1 - f.containerIndex)).reverse.find? fun index =>
          isUnshardOf key.stageIndex (order.getD index none)) with
    | none =>
      rw [Option.getD_none]
      refine ⟨by omega, le_rfl, fun _ hexists => ?_, fun _ => by omega⟩
      obtain ⟨i, hfi, hib, hunshard⟩ := hexists
      have hnot := List.find?_eq_none.1 hfind i
        (List.mem_reverse.2 (List.mem_range'_1.2 (by omega)))
      exact absurd hunshard hnot
    | some index =>
      rw [Option.getD_some]
      have hmem := List.mem_range'_1.1 (List.mem_reverse.1 (List.mem_of_find?_eq_some hfind))
      have hunshard := List.find?_some hfind
      refine ⟨by omega, by omega, fun hlt _ => ⟨index, hlt, by omega, hunshard⟩, fun himp => ?_⟩
      obtain ⟨i, hwi, hib, hi⟩ := himp ⟨index, by omega, by omega, hunshard⟩
      exact hwi.trans_le (le_of_find?_reverse hfind (List.mem_range'_1.2 (by omega)) hi)
  · rw [if_neg hfsdp]
    have hlast : ((List.range' (f.computeIndex + 1)
        (b.computeIndex - (f.computeIndex + 1))).map fun index =>
          (collectComputeLeaves order).2.getD index 0).getLastD 0 = last := by
      obtain ⟨k, hk⟩ : ∃ k, b.computeIndex - (f.computeIndex + 1) = k + 1 :=
        ⟨b.computeIndex - f.computeIndex - 2, by omega⟩
      rw [hk, List.range'_1_concat, List.map_append, List.map_singleton, List.getLastD_concat,
        ← hl]
      congr 1
      omega
    rw [hlast]
    refine ⟨by omega, by omega, fun _ hexists => ?_, fun _ => by omega⟩
    obtain ⟨i, -, -, hunshard⟩ := hexists
    exact absurd (any_isFsdpStep hunshard) hfsdp

/-! ### The steps of one chunk -/

/-- The steps of a list of actions are transfers of a chunk. -/
def Transfers (key : Chunk) (actions : List Action) : Prop :=
  ∀ action ∈ actions, isSwapStep action.step.type ∧ action.step.key = key

theorem Transfers.pair {key : Chunk} {a b : Action}
    (ha : isSwapStep a.step.type ∧ a.step.key = key)
    (hb : isSwapStep b.step.type ∧ b.step.key = key) : Transfers key [a, b] := by
  intro action haction
  simp only [List.mem_cons, List.not_mem_nil, or_false] at haction
  rcases haction with rfl | rfl
  · exact ha
  · exact hb

theorem chunkSwapActions_transfers {containers : List ℕ} {actions : List Action × List Action}
    (h : chunkSwapActions order containers f b = some actions) :
    Transfers f.step.key actions.1 ∧ Transfers f.step.key actions.2 := by
  unfold chunkSwapActions at h
  dsimp only at h
  split_ifs at h
  cases h
  exact ⟨.pair ⟨rfl, rfl⟩ ⟨rfl, rfl⟩, .pair ⟨rfl, rfl⟩ ⟨rfl, rfl⟩⟩

/-- The dicts of an order. -/
def fwdIndex (order : Order) : List (Chunk × ComputeLeaf) :=
  indexComputeLeaves isForward (collectComputeLeaves order).1

def bwdIndex (order : Order) : List (Chunk × ComputeLeaf) :=
  indexComputeLeaves isConsumer (collectComputeLeaves order).1

/-- The actions of a chunk. -/
def chunkActions (order : Order) (key : Chunk) : List Action × List Action :=
  ((fwdIndex order).lookup key).elim ([], []) fun f =>
    entryActions order (collectComputeLeaves order).2 (bwdIndex order) (key, f)

theorem entryActions_transfers {entry : Chunk × ComputeLeaf} (h : entry ∈ fwdIndex order) :
    Transfers entry.1 (entryActions order (collectComputeLeaves order).2 (bwdIndex order) entry).1 ∧
      Transfers entry.1
        (entryActions order (collectComputeLeaves order).2 (bwdIndex order) entry).2 := by
  have hkey : entry.2.step.key = entry.1 := by
    have hlookup := (Dict.lookup_eq_some_iff (nodup_indexComputeLeaves isForward _)).2 h
    exact (of_lookup hlookup).2.2
  unfold entryActions
  cases (bwdIndex order).lookup entry.1 with
  | none => exact ⟨nofun, nofun⟩
  | some b =>
    rw [Option.bind_some]
    cases hactions : chunkSwapActions order (collectComputeLeaves order).2 entry.2 b with
    | none => exact ⟨nofun, nofun⟩
    | some actions =>
      rw [Option.getD_some, ← hkey]
      exact chunkSwapActions_transfers hactions

theorem collectSwapActions_eq (order : Order) : collectSwapActions order =
    ((fwdIndex order).flatMap fun entry =>
        (entryActions order (collectComputeLeaves order).2 (bwdIndex order) entry).1,
      (fwdIndex order).flatMap fun entry =>
        (entryActions order (collectComputeLeaves order).2 (bwdIndex order) entry).2) := by
  simp only [collectSwapActions, List.flatMap_map]
  rfl

theorem filter_collectSwapActions (order : Order) (key : Chunk) :
    ((collectSwapActions order).1.filter fun action => action.step.key = key) =
        (chunkActions order key).1 ∧
      ((collectSwapActions order).2.filter fun action => action.step.key = key) =
        (chunkActions order key).2 := by
  have hnodup := nodup_indexComputeLeaves isForward (collectComputeLeaves order).1
  rw [collectSwapActions_eq]
  constructor
  · have hfilter := filter_flatMap_dict (fwdIndex order) hnodup _
      (fun entry hentry action ha => ((entryActions_transfers hentry).1 action ha).2) key
    rw [hfilter, chunkActions]
    cases (fwdIndex order).lookup key <;> rfl
  · have hfilter := filter_flatMap_dict (fwdIndex order) hnodup _
      (fun entry hentry action ha => ((entryActions_transfers hentry).2 action ha).2) key
    rw [hfilter, chunkActions]
    cases (fwdIndex order).lookup key <;> rfl

theorem collectSwapActions_swap (order : Order) :
    (∀ action ∈ (collectSwapActions order).1, isSwapStep action.step.type) ∧
      ∀ action ∈ (collectSwapActions order).2, isSwapStep action.step.type := by
  rw [collectSwapActions_eq]
  constructor
  · intro action haction
    obtain ⟨entry, hentry, ha⟩ := List.mem_flatMap.1 haction
    exact ((entryActions_transfers hentry).1 action ha).1
  · intro action haction
    obtain ⟨entry, hentry, ha⟩ := List.mem_flatMap.1 haction
    exact ((entryActions_transfers hentry).2 action ha).1

/-- The steps of a chunk among those at an index. -/
theorem filter_stepsByPriority {actions : List Action}
    (hswap : ∀ action ∈ actions, isSwapStep action.step.type) (key : Chunk) (i : ℕ) :
    ((stepsByPriority actions i).map some).filter (ofChunk key) =
      (((actions.filter fun action => action.step.key = key).filter fun action =>
        action.anchor = i).insertionSort Action.le).map fun action => some action.step := by
  unfold stepsByPriority
  rw [List.map_map, List.filter_map]
  have hcongr : ((actions.filter fun action => action.anchor = i).insertionSort Action.le).filter
      (ofChunk key ∘ some ∘ Action.step) =
        ((actions.filter fun action => action.anchor = i).insertionSort Action.le).filter
          fun action => action.step.key = key := by
    refine List.filter_congr fun action haction => ?_
    have hmem := (List.mem_filter.1 ((List.mem_insertionSort _).1 haction)).1
    simp only [Function.comp_apply, ofChunk, hswap action hmem, Bool.true_and]
  rw [hcongr, filter_insertionSort, List.filter_comm]
  rfl

/-- A transfer holds no leaf. -/
theorem iterComputeLeafSteps_swap {step : AnyMetaStep} (h : isSwapStep step.type) :
    iterComputeLeafSteps (some step) = [] := by
  obtain ⟨⟨micro, type, stage⟩, subs⟩ := step
  cases type <;> first
    | rfl
    | cases h

theorem marks_swap {step : AnyMetaStep} (h : isSwapStep step.type) (key : Chunk) :
    marks key (some step) = ofChunk key (some step) := by
  rw [marks, holdsLeaf, holdsLeaf, iterComputeLeafSteps_swap h]
  simp

theorem injectPipelineSwapSteps_eq (order : Order) : injectPipelineSwapSteps order =
    (List.range order.length).flatMap fun i =>
      (stepsByPriority (collectSwapActions order).1 i).map some ++ [order.getD i none] ++
        (stepsByPriority (collectSwapActions order).2 i).map some := by
  have hzip : order.zipIdx = (List.range order.length).map fun i => (order.getD i none, i) := by
    refine List.ext_getElem (by simp) fun i hi hi' => ?_
    simp only [List.getElem_zipIdx, List.getElem_map, List.getElem_range, Nat.zero_add]
    rw [List.getD_eq_getElem]
  simp only [injectPipelineSwapSteps, hzip, List.flatMap_map]

theorem Once.eq {p : AnyMetaStepType → Bool} (h : Once p order)
    (hi : holdsLeaf p key (order.getD i none)) (hj : holdsLeaf p key (order.getD j none)) :
    i = j := by
  have hlt : ∀ {i}, holdsLeaf p key (order.getD i none) → i < order.length := by
    intro i hi
    by_contra hge
    rw [List.getD_eq_default _ _ (Nat.not_lt.1 hge)] at hi
    cases hi
  obtain ⟨leaf, hleaf, hp⟩ := List.any_eq_true.1 hi
  obtain ⟨leaf', hleaf', hp'⟩ := List.any_eq_true.1 hj
  rw [Bool.and_eq_true, decide_eq_true_eq] at hp hp'
  exact h i (hlt hi) j (hlt hj) leaf hleaf leaf' hleaf' hp.1 hp'.1 (hp.2.trans hp'.2.symm)

theorem containerIndex_eq {p : AnyMetaStepType → Bool} (honce : Once p order)
    (hf : f ∈ (collectComputeLeaves order).1) (hp : p f.step.type) (hkey : f.step.key = key)
    (hf' : f' ∈ (collectComputeLeaves order).1) (hp' : p f'.step.type)
    (hkey' : f'.step.key = key) :
    f.containerIndex = f'.containerIndex ∧ f.computeIndex = f'.computeIndex := by
  have heq := honce.eq (holdsLeaf_of_mem hf hp hkey) (holdsLeaf_of_mem hf' hp' hkey')
  refine ⟨heq, ?_⟩
  have hindex := ((collected order).leaf f hf).1
  have hindex' := ((collected order).leaf f' hf').1
  rw [← heq] at hindex'
  rcases Nat.lt_trichotomy f.computeIndex f'.computeIndex with hlt | hsame | hlt
  · exact absurd (getElem?_lt hindex hindex' hlt) (lt_irrefl _)
  · exact hsame
  · exact absurd (getElem?_lt hindex' hindex hlt) (lt_irrefl _)

/-- The dicts hold the leaves of a swapped chunk, or others in the same steps. -/
theorem Swapped.chunkActions (horder : Schedule order) (h : Swapped order key f b) :
    chunkActions order key =
      ([⟨launchAnchor order f b, 20, swapStep key .swapLaunchLoad⟩,
          ⟨b.containerIndex, 10, swapStep key .swapWaitLoad⟩],
        [⟨f.containerIndex, 20, swapStep key .swapLaunchOffload⟩,
          ⟨waitOffloadAnchor order f, 10, swapStep key .swapWaitOffload⟩]) := by
  obtain ⟨f', hf'⟩ := exists_lookup h.memFwd h.fwd
  obtain ⟨b', hb'⟩ := exists_lookup h.memBwd h.bwd
  rw [h.keyFwd] at hf'
  rw [h.keyBwd] at hb'
  obtain ⟨hmemF, hpF, hkeyF⟩ := of_lookup hf'
  obtain ⟨hmemB, hpB, hkeyB⟩ := of_lookup hb'
  obtain ⟨hcf, hif⟩ := containerIndex_eq horder.fwdOnce hmemF hpF hkeyF h.memFwd h.fwd h.keyFwd
  obtain ⟨hcb, hib⟩ := containerIndex_eq horder.bwdOnce hmemB hpB hkeyB h.memBwd h.bwd h.keyBwd
  have hswapped : Swapped order key f' b' := by
    refine ⟨hmemF, hpF, hkeyF, hmemB, hpB, hkeyB, ?_⟩
    rw [hif, hib]
    exact h.gap
  have hwait : waitOffloadAnchor order f' = waitOffloadAnchor order f := by
    unfold waitOffloadAnchor
    rw [hif]
  have hlaunch : launchAnchor order f' b' = launchAnchor order f b := by
    have hstage : b'.step.stageIndex = b.step.stageIndex :=
      congrArg Chunk.stageIndex (hkeyB.trans h.keyBwd.symm)
    unfold launchAnchor loadLaunchAnchor
    rw [hif, hib, hcf, hcb, hstage]
  have hfwd : (fwdIndex order).lookup key = some f' := hf'
  have hbwd : (bwdIndex order).lookup key = some b' := hb'
  rw [PipelineSwap.chunkActions, hfwd, Option.elim_some, entryActions, hbwd, Option.bind_some,
    chunkSwapActions_eq hswapped, Option.getD_some, hwait, hlaunch, hcf, hcb]

/-- A chunk that is not swapped has no transfers. -/
theorem chunkActions_of_not_swapped (h : ¬ ∃ f b, Swapped order key f b) :
    chunkActions order key = ([], []) := by
  unfold PipelineSwap.chunkActions
  cases hf : (fwdIndex order).lookup key with
  | none => rfl
  | some f =>
    rw [Option.elim_some, entryActions]
    cases hb : (bwdIndex order).lookup key with
    | none => rfl
    | some b =>
      obtain ⟨hmemF, hpF, hkeyF⟩ := of_lookup hf
      obtain ⟨hmemB, hpB, hkeyB⟩ := of_lookup hb
      have hgap : b.computeIndex < f.computeIndex + minSwapGap := by
        by_contra hge
        exact h ⟨f, b, hmemF, hpF, hkeyF, hmemB, hpB, hkeyB, Nat.not_lt.1 hge⟩
      rw [Option.bind_some, chunkSwapActions, if_pos hgap, Option.getD_none]

/-- The steps of the chunk in the order with transfers. -/
theorem filter_inject (p : Option AnyMetaStep → Bool) (key : Chunk)
    (hp : ∀ step, isSwapStep step.type → p (some step) = ofChunk key (some step)) :
    (injectPipelineSwapSteps order).filter p = (List.range order.length).flatMap fun i =>
      (((chunkActions order key).1.filter fun action => action.anchor = i).insertionSort
          Action.le).map (fun action => some action.step) ++
        [order.getD i none].filter p ++
        (((chunkActions order key).2.filter fun action => action.anchor = i).insertionSort
          Action.le).map fun action => some action.step := by
  obtain ⟨hbefore, hafter⟩ := collectSwapActions_swap order
  obtain ⟨hchunkBefore, hchunkAfter⟩ := filter_collectSwapActions order key
  have hfilter : ∀ actions : List Action, (∀ action ∈ actions, isSwapStep action.step.type) →
      ∀ i, ((stepsByPriority actions i).map some).filter p =
        ((stepsByPriority actions i).map some).filter (ofChunk key) := by
    intro actions hactions i
    refine List.filter_congr fun step hstep => ?_
    obtain ⟨step, hmem, rfl⟩ := List.mem_map.1 hstep
    obtain ⟨action, haction, rfl⟩ := List.mem_map.1 hmem
    exact hp _ (hactions action (List.mem_filter.1 ((List.mem_insertionSort _).1 haction)).1)
  rw [injectPipelineSwapSteps_eq, List.filter_flatMap]
  refine List.flatMap_congr fun i _ => ?_
  rw [List.filter_append, List.filter_append, hfilter _ hbefore, hfilter _ hafter,
    filter_stepsByPriority hbefore, filter_stepsByPriority hafter, hchunkBefore, hchunkAfter]

end Anchors

/-! ### The order of the steps of a chunk -/

open Shares Intervals

section Trace

variable {β : Type*}

/-- The steps of a swapped chunk with their slots: before, at and after a step of the order. -/
def slots (f w l b : ℕ) (fwdStep bwdStep launchOffload waitOffload launchLoad waitLoad : β) :
    List (ℕ × β) :=
  [(f * 3 + 1, fwdStep), (f * 3 + 2, launchOffload), (w * 3 + 2, waitOffload),
    (l * 3, launchLoad), (b * 3, waitLoad), (b * 3 + 1, bwdStep)]

variable {f w l b i n : ℕ} {x y u v s t : β}

theorem map_share_slots (f w l b i : ℕ) (x y u v s t : β) :
    (share Prod.fst (slots f w l b x y u v s t) (i * 3) ++
      share Prod.fst (slots f w l b x y u v s t) (i * 3 + 1) ++
      share Prod.fst (slots f w l b x y u v s t) (i * 3 + 2)).map Prod.snd =
        ([(l, s), (b, t)].filter fun entry => entry.1 = i).map Prod.snd ++
          ([(f, x), (b, y)].filter fun entry => entry.1 = i).map Prod.snd ++
          ([(f, u), (w, v)].filter fun entry => entry.1 = i).map Prod.snd := by
  have h00 : ∀ a, decide (a * 3 = i * 3) = decide (a = i) := fun a => decide_eq_decide.2 (by omega)
  have h01 : ∀ a, decide (a * 3 = i * 3 + 1) = false := fun a => decide_eq_false (by omega)
  have h02 : ∀ a, decide (a * 3 = i * 3 + 2) = false := fun a => decide_eq_false (by omega)
  have h10 : ∀ a, decide (a * 3 + 1 = i * 3) = false := fun a => decide_eq_false (by omega)
  have h11 : ∀ a, decide (a * 3 + 1 = i * 3 + 1) = decide (a = i) :=
    fun a => decide_eq_decide.2 (by omega)
  have h12 : ∀ a, decide (a * 3 + 1 = i * 3 + 2) = false := fun a => decide_eq_false (by omega)
  have h20 : ∀ a, decide (a * 3 + 2 = i * 3) = false := fun a => decide_eq_false (by omega)
  have h21 : ∀ a, decide (a * 3 + 2 = i * 3 + 1) = false := fun a => decide_eq_false (by omega)
  have h22 : ∀ a, decide (a * 3 + 2 = i * 3 + 2) = decide (a = i) :=
    fun a => decide_eq_decide.2 (by omega)
  simp only [share, slots, List.filter_cons, List.filter_nil, h00, h01, h02, h10, h11, h12, h20,
    h21, h22, if_false, Bool.false_eq_true, List.map_append]
  split_ifs <;> rfl

/-- The slots of three for each step. -/
theorem flatMap_slots (g : ℕ → List β) (n : ℕ) :
    ((List.range n).flatMap fun i => g (i * 3) ++ g (i * 3 + 1) ++ g (i * 3 + 2)) =
      (List.range (n * 3)).flatMap g := by
  rw [← flatMap_range_flatMap]
  refine List.flatMap_congr fun i _ => ?_
  simp [List.range_succ]

/-- The steps of a chunk stand in the order of their slots. -/
theorem flatMap_share_slots (hfw : f < w) (hwb : w < b) (hfl : f < l) (hlb : l ≤ b) (hbn : b < n) :
    ((List.range n).flatMap fun i =>
      ([(l, s), (b, t)].filter fun entry => entry.1 = i).map Prod.snd ++
        ([(f, x), (b, y)].filter fun entry => entry.1 = i).map Prod.snd ++
        ([(f, u), (w, v)].filter fun entry => entry.1 = i).map Prod.snd) =
      if w < l then [x, u, v, s, t, y] else [x, u, s, v, t, y] := by
  have hslots : ((List.range n).flatMap fun i =>
      ([(l, s), (b, t)].filter fun entry => entry.1 = i).map Prod.snd ++
        ([(f, x), (b, y)].filter fun entry => entry.1 = i).map Prod.snd ++
        ([(f, u), (w, v)].filter fun entry => entry.1 = i).map Prod.snd) =
      ((List.range (n * 3)).flatMap
        (share Prod.fst (slots f w l b x y u v s t))).map Prod.snd := by
    rw [← flatMap_slots, List.map_flatMap]
    exact List.flatMap_congr fun i _ => (map_share_slots f w l b i x y u v s t).symm
  rw [hslots]
  split_ifs with hwl
  · rw [flatMap_share]
    · rfl
    · simp only [slots, List.pairwise_cons, List.mem_cons, List.not_mem_nil, or_false,
        forall_eq_or_imp, forall_eq, false_imp_iff, implies_true, List.Pairwise.nil, and_true]
      omega
    · simp only [slots, List.mem_cons, List.not_mem_nil, or_false, forall_eq_or_imp, forall_eq]
      omega
  · -- the load is launched before the transfer to the host is awaited
    have hswap : ∀ m, share Prod.fst (slots f w l b x y u v s t) m = share Prod.fst
        [(f * 3 + 1, x), (f * 3 + 2, u), (l * 3, s), (w * 3 + 2, v), (b * 3, t),
          (b * 3 + 1, y)] m := by
      intro m
      by_cases hm : l * 3 = m
      · have hne : ¬ w * 3 + 2 = m := by omega
        simp [share, slots, List.filter_cons, hm, hne]
      · simp [share, slots, List.filter_cons, hm]
    rw [List.flatMap_congr fun m _ => hswap m, flatMap_share]
    · rfl
    · simp only [List.pairwise_cons, List.mem_cons, List.not_mem_nil, or_false,
        forall_eq_or_imp, forall_eq, false_imp_iff, implies_true, List.Pairwise.nil, and_true]
      omega
    · simp only [List.mem_cons, List.not_mem_nil, or_false, forall_eq_or_imp, forall_eq]
      omega

end Trace

/-- What the transfers are to do: the order is kept, a swapped chunk is launched and awaited in both
directions between its forward and its backward, and the others have no transfers. -/
structure Correct (order : Order) : Prop where
  kept : (injectPipelineSwapSteps order).filter (fun step => !isTransfer step) = order
  swapped : ∀ key f b, Swapped order key f b →
    (injectPipelineSwapSteps order).filter (marks key) =
      [order.getD f.containerIndex none, some (swapStep key .swapLaunchOffload),
        some (swapStep key .swapWaitOffload), some (swapStep key .swapLaunchLoad),
        some (swapStep key .swapWaitLoad), order.getD b.containerIndex none]
  others : ∀ key, (¬ ∃ f b, Swapped order key f b) →
    (injectPipelineSwapSteps order).filter (ofChunk key) = []

section Correct

variable {order : Order} {key : Chunk} {f b : ComputeLeaf}

theorem inject_kept (horder : Schedule order) :
    (injectPipelineSwapSteps order).filter (fun step => !isTransfer step) = order := by
  have hnone : ∀ actions : List Action, (∀ action ∈ actions, isSwapStep action.step.type) → ∀ i,
      ((stepsByPriority actions i).map some).filter (fun step => !isTransfer step) = [] := by
    intro actions hactions i
    refine List.filter_eq_nil_iff.2 fun step hstep => ?_
    obtain ⟨step, hmem, rfl⟩ := List.mem_map.1 hstep
    obtain ⟨action, haction, rfl⟩ := List.mem_map.1 hmem
    have hswap := hactions action
      (List.mem_filter.1 ((List.mem_insertionSort _).1 haction)).1
    simp [isTransfer, hswap]
  obtain ⟨hbefore, hafter⟩ := collectSwapActions_swap order
  have horig : ∀ i ∈ List.range order.length,
      ((stepsByPriority (collectSwapActions order).1 i).map some ++ [order.getD i none] ++
        (stepsByPriority (collectSwapActions order).2 i).map some).filter
          (fun step => !isTransfer step) = [order.getD i none] := by
    intro i hi
    have hi := List.mem_range.1 hi
    have hmem : order.getD i none ∈ order := by
      rw [List.getD_eq_getElem _ _ hi]
      exact List.getElem_mem hi
    rw [List.filter_append, List.filter_append, hnone _ hbefore, hnone _ hafter,
      List.filter_eq_self.2]
    · simp
    · intro step hstep
      rw [List.mem_singleton.1 hstep, horder.noSwap _ hmem]
      rfl
  rw [injectPipelineSwapSteps_eq, List.filter_flatMap, List.flatMap_congr horig,
    ← List.map_eq_flatMap, map_getD_range]

/-- The steps of the order are no transfers. -/
theorem ofChunk_getD (horder : Schedule order) (key : Chunk) {i : ℕ} (hi : i < order.length) :
    ofChunk key (order.getD i none) = false := by
  have hmem : order.getD i none ∈ order := by
    rw [List.getD_eq_getElem _ _ hi]
    exact List.getElem_mem _
  have hnoSwap := horder.noSwap _ hmem
  cases hstep : order.getD i none with
  | none => rfl
  | some step =>
    rw [hstep, isTransfer] at hnoSwap
    rw [ofChunk, hnoSwap, Bool.false_and]

/-- The steps of a swapped chunk. -/
theorem filter_marks (horder : Schedule order) (h : Swapped order key f b) :
    (injectPipelineSwapSteps order).filter (marks key) =
      if waitOffloadAnchor order f < launchAnchor order f b then
        [order.getD f.containerIndex none, some (swapStep key .swapLaunchOffload),
          some (swapStep key .swapWaitOffload), some (swapStep key .swapLaunchLoad),
          some (swapStep key .swapWaitLoad), order.getD b.containerIndex none]
      else
        [order.getD f.containerIndex none, some (swapStep key .swapLaunchOffload),
          some (swapStep key .swapLaunchLoad), some (swapStep key .swapWaitOffload),
          some (swapStep key .swapWaitLoad), order.getD b.containerIndex none] := by
  obtain ⟨hfw, hwb, hfl, hlb, -⟩ := h.anchors
  obtain ⟨-, -, -, -, -, -, -, -, -, hbn, -⟩ := h.containers
  rw [← flatMap_share_slots hfw hwb hfl hlb hbn,
    filter_inject (marks key) key fun step hstep => marks_swap hstep key, h.chunkActions horder]
  refine List.flatMap_congr fun i hi => ?_
  have hsort : ∀ (x y : Action), Action.le x y → (([x, y].filter fun action =>
      action.anchor = i).insertionSort Action.le).map (fun action => some action.step) =
        ([(x.anchor, some x.step), (y.anchor, some y.step)].filter fun entry =>
          entry.1 = i).map Prod.snd := by
    intro x y hxy
    have hpair : [x, y].Pairwise Action.le := by simpa using hxy
    rw [(hpair.filter _).insertionSort_eq]
    simp only [List.filter_cons, List.filter_nil]
    split_ifs <;> rfl
  have hbefore := hsort ⟨launchAnchor order f b, 20, swapStep key .swapLaunchLoad⟩
    ⟨b.containerIndex, 10, swapStep key .swapWaitLoad⟩ (Nat.le_add_left 10 10)
  have hafter := hsort ⟨f.containerIndex, 20, swapStep key .swapLaunchOffload⟩
    ⟨waitOffloadAnchor order f, 10, swapStep key .swapWaitOffload⟩ (Nat.le_add_left 10 10)
  dsimp only at hbefore hafter ⊢
  rw [hbefore, hafter]
  congr 2
  -- the forward and the backward are the only original steps of the chunk
  have hnot := ofChunk_getD horder key (List.mem_range.1 hi)
  have hfwd : holdsLeaf isForward key (order.getD i none) = decide (f.containerIndex = i) := by
    have hf := holdsLeaf_of_mem h.memFwd h.fwd h.keyFwd
    by_cases hfi : f.containerIndex = i
    · rw [← hfi, hf, decide_eq_true rfl]
    · rw [decide_eq_false hfi]
      exact Bool.eq_false_iff.2 fun hi => hfi (horder.fwdOnce.eq hf hi)
  have hbwd : holdsLeaf isConsumer key (order.getD i none) = decide (b.containerIndex = i) := by
    have hb := holdsLeaf_of_mem h.memBwd h.bwd h.keyBwd
    by_cases hbi : b.containerIndex = i
    · rw [← hbi, hb, decide_eq_true rfl]
    · rw [decide_eq_false hbi]
      exact Bool.eq_false_iff.2 fun hi => hbi (horder.bwdOnce.eq hb hi)
  have hmarks : marks key (order.getD i none) =
      (decide (f.containerIndex = i) || decide (b.containerIndex = i)) := by
    rw [marks, hnot, hfwd, hbwd, Bool.false_or]
  rw [List.filter_singleton, hmarks]
  by_cases hfi : f.containerIndex = i
  · have hbi : ¬ b.containerIndex = i := by omega
    simp [hfi, hbi]
  · by_cases hbi : b.containerIndex = i
    · simp [hfi, hbi]
    · simp [hfi, hbi]

theorem filter_others (horder : Schedule order) (h : ¬ ∃ f b, Swapped order key f b) :
    (injectPipelineSwapSteps order).filter (ofChunk key) = [] := by
  rw [filter_inject (ofChunk key) key fun step _ => rfl, chunkActions_of_not_swapped h]
  refine List.flatMap_eq_nil_iff.2 fun i hi => ?_
  have hnot := ofChunk_getD horder key (List.mem_range.1 hi)
  simp only [List.filter_nil, List.insertionSort_nil, List.map_nil, List.append_nil,
    List.filter_singleton, hnot, cond_false]

end Correct

/-- The transfers are right just where no unshard sends a load ahead of the wait for its offload. -/
theorem injectPipelineSwapSteps_correct (order : Order) (horder : Schedule order) :
    Correct order ↔ UnshardsAfterWait order := by
  constructor
  · intro h key f b hswapped hunshard
    have hmarks := h.swapped key f b hswapped
    rw [filter_marks horder hswapped] at hmarks
    obtain ⟨-, -, -, -, hiff⟩ := hswapped.anchors
    refine hiff.1 ?_ hunshard
    by_contra hlate
    rw [if_neg hlate] at hmarks
    simp [swapStep] at hmarks
  · intro h
    refine ⟨inject_kept horder, fun key f b hswapped => ?_, fun key => filter_others horder⟩
    obtain ⟨-, -, -, -, hiff⟩ := hswapped.anchors
    rw [filter_marks horder hswapped, if_pos (hiff.2 (h key f b hswapped))]

/-- A compute step of stage 0. -/
def computeStep (type : AnyMetaStepType) (microIndex : ℕ) : Option AnyMetaStep :=
  some ⟨⟨microIndex, type, 0⟩, []⟩

def plainOrder : Order :=
  [computeStep (.plain .fwd) 0, computeStep (.plain .fwd) 1, computeStep (.plain .fwd) 2,
    computeStep (.plain .fwd) 3, computeStep (.plain .bwd) 0]

/-- Without FSDP steps the transfers are right. -/
theorem injectPipelineSwapSteps_correct_plain : Correct plainOrder := by
  refine (injectPipelineSwapSteps_correct plainOrder ⟨by decide, by decide, by decide⟩).2 ?_
  rintro key f b - ⟨i, -, -, hunshard⟩
  exact absurd (any_isFsdpStep hunshard) (by decide)

/-- The unshard of the stage comes right after its first forward. -/
def unshardedOrder : Order :=
  [computeStep (.plain .fwd) 0, computeStep .fsdpReshard 0, computeStep .fsdpUnshard 0,
    computeStep (.plain .fwd) 1, computeStep (.plain .fwd) 2, computeStep (.plain .fwd) 3,
    computeStep (.plain .bwd) 0]

/-- The load is launched before the offload is awaited. -/
theorem not_correct_unshardedOrder : Schedule unshardedOrder ∧ ¬ Correct unshardedOrder ∧
    (injectPipelineSwapSteps unshardedOrder).filter (ofChunk ⟨0, 0⟩) =
      [some (swapStep ⟨0, 0⟩ .swapLaunchOffload), some (swapStep ⟨0, 0⟩ .swapLaunchLoad),
        some (swapStep ⟨0, 0⟩ .swapWaitOffload), some (swapStep ⟨0, 0⟩ .swapWaitLoad)] := by
  refine ⟨⟨by decide, by decide, by decide⟩, fun h => ?_, by decide⟩
  have hmarks := h.swapped ⟨0, 0⟩ ⟨⟨0, .plain .fwd, 0⟩, 0, 0⟩ ⟨⟨0, .plain .bwd, 0⟩, 6, 4⟩
    ⟨by decide, by decide, by decide, by decide, by decide, by decide, by decide⟩
  exact absurd hmarks (by decide)

end HyperParallel.PipelineSwap
