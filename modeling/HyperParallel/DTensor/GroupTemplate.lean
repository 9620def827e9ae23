import HyperParallel.DTensor.MeshSlices
import Mathlib.Algebra.Order.BigOperators.GroupWithZero.List
import Mathlib.Data.Finset.Max
import Mathlib.Data.List.Sort
import Mathlib.Data.Nat.ModEq

/-!
# Groups from a template

`DevMat.get_devices_along_dim` of `core/dtensor/redistribute_infer.py`, with `create_group` and
`generate_groups_from_template` of `core/dtensor/_utils.py`.

* `getDevicesAlongDim`: the ranks that redistribution asks for along some axes;
* `generateGroupsFromTemplate`: all the groups, guessed from the steps of one;
* `Adjacent`: no axis of more than one rank is left out between two of the axes;
* `createGroup_devices`: then the groups tile the mesh, and otherwise the template is rejected.
-/

open MixedRadix

namespace HyperParallel.DTensor

/-! ### The requested ranks -/

/-- `DevMat._get_devices_along_dim` -/
def getDevicesAlongOne (dims : List ℕ) (rank : ℕ) (rankList : List ℕ) (dim : ℕ) :
    Except String (List ℕ) :=
  if dims.length ≤ dim then
    .error ("Dimension " ++ toString dim ++ " out of range [0, " ++ toString dims.length ++ ")")
  else if dims.getD dim 0 = 1 then .ok [rank]
  else if rankList.length ≠ dims.prod then
    .error ("rank_list length (" ++ toString rankList.length ++ ") doesn't match mesh shape " ++
      "product (" ++ toString dims.prod ++ ")")
  else if rank ∉ rankList then .error ("Rank " ++ toString rank ++ " not in rank_list")
  else
    let stride := (dims.drop (dim + 1)).prod
    let localIndex := rankList.idxOf rank
    let indexInDim := localIndex / stride % dims.getD dim 0
    let base := localIndex - indexInDim * stride
    .ok ((List.range (dims.getD dim 0)).map fun k => rankList.getD (base + k * stride) 0)

/-- The first rank of the queue is replaced by its devices at the end. -/
def popExtend (devices : ℕ → Except String (List ℕ)) : List ℕ → Except String (List ℕ)
  | [] => .error "pop from empty list"
  | subRank :: result => do return result ++ (← devices subRank)

/-- The ranks of a layer, one after another. -/
def extendLayer (devices : ℕ → Except String (List ℕ)) : ℕ → List ℕ → Except String (List ℕ)
  | 0, result => .ok result
  | step + 1, result => do extendLayer devices step (← popExtend devices result)

/-- `DevMat.get_devices_along_dim` -/
def getDevicesAlongDim (dims : List ℕ) (rank : ℕ) (rankList : List ℕ) :
    List ℕ → Except String (List ℕ)
  | [] => .error "list index out of range"
  | dim :: rest => do
    let result ← getDevicesAlongOne dims rank rankList dim
    rest.foldlM (fun result dim =>
      extendLayer (fun subRank => getDevicesAlongOne dims subRank rankList dim) result.length
        result) result

/-! ### The groups of a template -/

/-- `_validate_intra_step` -/
def validateIntraStep (normalizedTemplate : List ℕ) : Except String ℕ :=
  let intraStep := normalizedTemplate.getD 1 0 - normalizedTemplate.getD 0 0
  match (List.range' 1 (normalizedTemplate.length - 2)).find? fun i =>
    normalizedTemplate.getD (i + 1) 0 - normalizedTemplate.getD i 0 ≠ intraStep with
  | some i =>
    .error ("Template must have consistent intra-group step. Found " ++
      toString (normalizedTemplate.getD (i + 1) 0) ++ " - " ++
      toString (normalizedTemplate.getD i 0) ++ " = " ++
      toString (normalizedTemplate.getD (i + 1) 0 - normalizedTemplate.getD i 0) ++
      ", expected " ++ toString intraStep)
  | none => .ok intraStep

/-- `_compute_group_starts` -/
def computeGroupStarts (worldSize blockSize interStep : ℕ) : Except String (List ℕ) :=
  if interStep = 0 then .error "range() arg 3 must not be zero"
  else .ok (((List.range ((worldSize + interStep - 1) / interStep)).map fun k =>
    k * interStep).filter fun s => s + blockSize ≤ worldSize)

/-- `_build_groups_for_blocks` -/
def buildGroupsForBlocks (groupStarts : List ℕ) (blockSize templateSpan : ℕ)
    (normalizedTemplate : List ℕ) (worldSize : ℕ) : List (List ℕ) :=
  groupStarts.flatMap fun startBlock =>
    ((List.range (blockSize - templateSpan)).map fun offset =>
      normalizedTemplate.map fun x => startBlock + offset + x).filter fun group =>
        ∀ r ∈ group, r < worldSize

/-- The order of the groups: by the first member, then by the second. -/
def groupLe (x y : List ℕ) : Prop :=
  x.getD 0 0 < y.getD 0 0 ∨ x.getD 0 0 = y.getD 0 0 ∧ x.getD 1 0 ≤ y.getD 1 0

instance : DecidableRel groupLe := fun _ _ => inferInstanceAs (Decidable (_ ∨ _))

/-- A list of ranks in a message. -/
def pyRanks (ranks : List ℕ) : String := "[" ++ ", ".intercalate (ranks.map toString) ++ "]"

def generateGroupsFromTemplate (rankList : List ℕ) (worldSize : ℕ) :
    Except String (List (List ℕ)) := do
  let template := rankList.insertionSort (· ≤ ·)
  if template.length = 1 then return (List.range worldSize).map fun i => [i]
  if template.length < 2 then
    .error ("Template must have at least 2 ranks, got " ++ pyRanks template)
  let normalizedTemplate := template.map fun x => x - template.getD 0 0
  let intraStep ← validateIntraStep normalizedTemplate
  let blockSize := intraStep * template.length
  let templateSpan := normalizedTemplate.getLastD 0 - normalizedTemplate.getD 0 0
  let groupStarts ← computeGroupStarts worldSize blockSize blockSize
  let allGroups := buildGroupsForBlocks groupStarts blockSize templateSpan normalizedTemplate
    worldSize
  if allGroups.flatten.length ≠ allGroups.flatten.toFinset.card then
    .error "Duplicate ranks found! Some ranks appear in multiple groups."
  return allGroups.insertionSort groupLe

/-- The format of the groups from an index on. -/
def validateGroups : ℕ → List (List ℕ) → Except String Unit
  | _, [] => .ok ()
  | i, group :: groups =>
    if group = [] then .error ("Group " ++ toString i ++ " is empty")
    else if ¬ group.Nodup then .error ("Group " ++ toString i ++ " contains duplicate ranks")
    else validateGroups (i + 1) groups

/-- `create_sub_groups`: the groups that are created, and those that the rank is in. -/
def createSubGroups (rankList : List ℕ) (worldSize myRank : ℕ) :
    Except String (List (List ℕ) × List (List ℕ)) := do
  let fullRankList ← generateGroupsFromTemplate rankList worldSize
  validateGroups 0 fullRankList
  let sortedGroups := fullRankList.insertionSort fun x y => x.getD 0 0 ≤ y.getD 0 0
  let created := sortedGroups.map fun groupRanks => groupRanks.insertionSort (· ≤ ·)
  return (created, created.filter fun sortedRanks => myRank ∈ sortedRanks)

/-- `create_group`, on the keys of `EXISTING_COMM_GROUPS` -/
def createGroup (existing : List (List ℕ)) (worldSize myRank : ℕ) (rankList : List ℕ) :
    Except String (List (List ℕ)) := do
  let normalizedRankList := rankList.insertionSort (· ≤ ·)
  if normalizedRankList ∈ existing then return existing
  if normalizedRankList = List.range worldSize then return existing ++ [normalizedRankList]
  let (created, groupDict) ← createSubGroups rankList worldSize myRank
  if normalizedRankList ∉ groupDict then .error "KeyError"
  return existing ++ created

/-- No axis of more than one rank is left out between two axes of the tuple. -/
def Adjacent (dims axes : List ℕ) : Prop :=
  ∀ i e j, i < e → e < j → i ∈ axes → j ∈ axes → dims.getD i 0 ≠ 1 → dims.getD j 0 ≠ 1 →
    e < dims.length → dims.getD e 0 ≠ 1 → e ∈ axes

/-! ### The requested ranks, by their coordinates -/

section Devices

variable {dims axes : List ℕ} {p q r d e n : ℕ}

theorem contiguousStrides_getD (shape : List ℕ) (hd : d < shape.length) :
    (contiguousStrides shape).getD d 0 = (shape.drop (d + 1)).prod := by
  induction shape generalizing d with
  | nil => simp at hd
  | cons n shape ih =>
    rw [contiguousStrides_cons]
    cases d with
    | zero => rfl
    | succ d => exact ih (Nat.lt_of_succ_lt_succ hd)

theorem getD_digits (shape : List ℕ) (hd : d < shape.length) :
    (digits shape p).getD d 0 = p / (shape.drop (d + 1)).prod % shape.getD d 0 := by
  induction shape generalizing d with
  | nil => simp at hd
  | cons n shape ih =>
    rw [digits_cons]
    cases d with
    | zero => rfl
    | succ d => exact ih (Nat.lt_of_succ_lt_succ hd)

/-- The devices along one axis of the mesh of all the ranks. -/
def devicesAlong (dims : List ℕ) (d r : ℕ) : List ℕ :=
  if dims.getD d 0 = 1 then [r]
  else (List.range (dims.getD d 0)).map fun k =>
    r - r / (dims.drop (d + 1)).prod % dims.getD d 0 * (dims.drop (d + 1)).prod +
      k * (dims.drop (d + 1)).prod

variable (hdims : ∀ n ∈ dims, 0 < n)
include hdims

/-- The first device along an axis. -/
theorem exists_base (hd : d < dims.length) (hr : r < dims.prod) :
    ∃ a < dims.prod, (digits dims a).getD d 0 = 0 ∧ digits dims a = (digits dims r).set d 0 ∧
      r - r / (dims.drop (d + 1)).prod % dims.getD d 0 * (dims.drop (d + 1)).prod = a := by
  have hlt := getD_digits_lt hdims hd (p := r)
  obtain ⟨a, ha, hdigits⟩ := exists_set hdims (Nat.zero_lt_of_lt hlt) r
  have h0 : (digits dims a).getD d 0 = 0 := by
    rw [hdigits, getD_set_self (by rwa [length_digits])]
  obtain ⟨hlt', hadd⟩ := digits_add_stride hdims ha h0 hlt
  have hback : a + (digits dims r).getD d 0 * (rootAxis dims d).2 = r := by
    refine eq_of_digits hlt' hr fun e _ => ?_
    rw [hadd, hdigits, List.set_set, set_getD_self (by rwa [length_digits])]
  rw [getD_digits dims hd, rootAxis, contiguousStrides_getD dims hd] at hback
  dsimp only at hback
  exact ⟨a, ha, h0, hdigits, by omega⟩

theorem getDevicesAlongOne_eq (hd : d < dims.length) (hr : r < dims.prod) :
    getDevicesAlongOne dims r (List.range dims.prod) d = .ok (devicesAlong dims d r) := by
  unfold getDevicesAlongOne devicesAlong
  rw [if_neg (Nat.not_le.2 hd)]
  by_cases h1 : dims.getD d 0 = 1
  · rw [if_pos h1, if_pos h1]
  · rw [if_neg h1, if_neg (by simp), if_neg (by simpa using hr), if_neg h1]
    have hidx : (List.range dims.prod).idxOf r = r := by
      have hlt : r < (List.range dims.prod).length := by simpa using hr
      have h := (List.nodup_range (n := dims.prod)).idxOf_getElem r hlt
      rwa [List.getElem_range] at h
    simp only [hidx]
    obtain ⟨a, ha, h0, -, hbase⟩ := exists_base hdims hd hr
    rw [hbase]
    refine congrArg Except.ok (List.map_congr_left fun k hk => ?_)
    have hlt := (digits_add_stride hdims ha h0 (List.mem_range.1 hk)).1
    rw [rootAxis, contiguousStrides_getD dims hd] at hlt
    rw [List.getD_eq_getElem _ _ (by simpa using hlt), List.getElem_range]

theorem mem_devicesAlong (hd : d < dims.length) (hr : r < dims.prod) :
    p ∈ devicesAlong dims d r ↔ p < dims.prod ∧
      ∀ e < dims.length, e ≠ d → (digits dims p).getD e 0 = (digits dims r).getD e 0 := by
  unfold devicesAlong
  split_ifs with h1
  · rw [List.mem_singleton]
    constructor
    · rintro rfl
      exact ⟨hr, fun e _ _ => rfl⟩
    · rintro ⟨hp, hagree⟩
      refine eq_of_digits hp hr fun e he => ?_
      by_cases hed : e = d
      · have hlt := getD_digits_lt hdims hd (p := p)
        have hlt' := getD_digits_lt hdims hd (p := r)
        rw [hed]
        omega
      · exact hagree e he hed
  · obtain ⟨a, ha, h0, hdigits, hbase⟩ := exists_base hdims hd hr
    rw [hbase, List.mem_map]
    have hother : ∀ e, e ≠ d → (digits dims a).getD e 0 = (digits dims r).getD e 0 := by
      intro e he
      rw [hdigits, getD_set_of_ne he.symm]
    have hstep : ∀ k < dims.getD d 0, a + k * (dims.drop (d + 1)).prod < dims.prod ∧
        digits dims (a + k * (dims.drop (d + 1)).prod) = (digits dims a).set d k := by
      intro k hk
      have h := digits_add_stride hdims ha h0 hk
      rwa [rootAxis, contiguousStrides_getD dims hd] at h
    constructor
    · rintro ⟨k, hk, rfl⟩
      obtain ⟨hlt, hset⟩ := hstep k (List.mem_range.1 hk)
      refine ⟨hlt, fun e _ hed => ?_⟩
      rw [hset, getD_set_of_ne (Ne.symm hed), hother e hed]
    · rintro ⟨hp, hagree⟩
      have hk := getD_digits_lt hdims hd (p := p)
      obtain ⟨hlt, hset⟩ := hstep _ hk
      refine ⟨_, List.mem_range.2 hk, eq_of_digits hlt hp fun e he => ?_⟩
      by_cases hed : e = d
      · rw [hset, hed, getD_set_self (by rwa [length_digits])]
      · rw [hset, getD_set_of_ne (Ne.symm hed), hother e hed, hagree e he hed]

theorem nodup_devicesAlong (d r : ℕ) : (devicesAlong dims d r).Nodup := by
  unfold devicesAlong
  split_ifs
  · exact List.nodup_singleton r
  · have hpos := List.prod_pos fun n hn => hdims n (List.mem_of_mem_drop (i := d + 1) hn)
    refine List.nodup_range.map fun k k' h => ?_
    exact Nat.eq_of_mul_eq_mul_right hpos (Nat.add_left_cancel h)

omit hdims in
/-- A layer is replaced by the devices of its ranks. -/
theorem extendLayer_eq (devices : ℕ → Except String (List ℕ)) {along : ℕ → List ℕ}
    (front back : List ℕ) (h : ∀ x ∈ front, devices x = .ok (along x)) :
    extendLayer devices front.length (front ++ back) = .ok (back ++ front.flatMap along) := by
  induction front generalizing back with
  | nil => simp [extendLayer]
  | cons x front ih =>
    have hx := h x (List.mem_cons_self ..)
    have hrest := ih (back ++ along x) fun y hy => h y (List.mem_cons_of_mem _ hy)
    simp only [List.length_cons, extendLayer, List.cons_append, popExtend, hx, bind, Except.bind,
      pure, Except.pure, List.flatMap_cons]
    rw [List.append_assoc, hrest, List.append_assoc]

/-- The ranks that agree with a rank off some axes. -/
def Agree (dims done : List ℕ) (r : ℕ) (l : List ℕ) : Prop :=
  l.Nodup ∧ ∀ p, p ∈ l ↔ p < dims.prod ∧
    ∀ e < dims.length, e ∉ done → (digits dims p).getD e 0 = (digits dims r).getD e 0

theorem Agree.flatMap {done l : List ℕ} (h : Agree dims done r l) (hd : d < dims.length)
    (hdone : d ∉ done) : Agree dims (d :: done) r (l.flatMap (devicesAlong dims d)) := by
  obtain ⟨hnodup, hmem⟩ := h
  constructor
  · rw [List.nodup_flatMap]
    refine ⟨fun x _ => nodup_devicesAlong hdims d _, hnodup.imp_of_mem fun {x y} hx hy hne => ?_⟩
    refine List.disjoint_left.2 fun p hpx hpy => ?_
    obtain ⟨hx, hxr⟩ := (hmem x).1 hx
    obtain ⟨hy, hyr⟩ := (hmem y).1 hy
    refine hne (eq_of_digits hx hy fun e he => ?_)
    by_cases hed : e = d
    · rw [hxr e he (hed ▸ hdone), hyr e he (hed ▸ hdone)]
    · rw [← ((mem_devicesAlong hdims hd hx).1 hpx).2 e he hed,
        ((mem_devicesAlong hdims hd hy).1 hpy).2 e he hed]
  · intro p
    rw [List.mem_flatMap]
    constructor
    · rintro ⟨x, hx, hp⟩
      obtain ⟨hx, hxr⟩ := (hmem x).1 hx
      obtain ⟨hp, hpx⟩ := (mem_devicesAlong hdims hd hx).1 hp
      refine ⟨hp, fun e he hed => ?_⟩
      obtain ⟨hne, hnot⟩ := not_or.1 (mt List.mem_cons.2 hed)
      rw [hpx e he hne, hxr e he hnot]
    · rintro ⟨hp, hagree⟩
      -- the rank with the coordinate of `r` at the axis
      obtain ⟨x, hx, hdigits⟩ := exists_set hdims (getD_digits_lt hdims hd (p := r)) p
      have hother : ∀ e, e ≠ d → (digits dims x).getD e 0 = (digits dims p).getD e 0 := by
        intro e hed
        rw [hdigits, getD_set_of_ne hed.symm]
      refine ⟨x, (hmem x).2 ⟨hx, fun e he hnot => ?_⟩, (mem_devicesAlong hdims hd hx).2
        ⟨hp, fun e _ hed => (hother e hed).symm⟩⟩
      by_cases hed : e = d
      · rw [hdigits, hed, getD_set_self (by rwa [length_digits])]
      · rw [hother e hed, hagree e he (not_or.2 ⟨hed, hnot⟩ ∘ List.mem_cons.1)]

theorem foldlM_devices {done l : List ℕ} (h : Agree dims done r l) (rest : List ℕ)
    (hrest : ∀ d ∈ rest, d < dims.length) (hnodup : (done ++ rest).Nodup) :
    ∃ l', rest.foldlM (fun result dim => extendLayer (fun subRank => getDevicesAlongOne dims subRank
      (List.range dims.prod) dim) result.length result) l = .ok l' ∧
        Agree dims (done ++ rest) r l' := by
  induction rest generalizing done l with
  | nil =>
    refine ⟨l, rfl, ?_⟩
    rwa [List.append_nil]
  | cons d rest ih =>
    have hd := hrest d (List.mem_cons_self ..)
    have hdone : d ∉ done := fun hmem =>
      List.disjoint_of_nodup_append hnodup hmem (List.mem_cons_self ..)
    have hlayer := extendLayer_eq (fun subRank => getDevicesAlongOne dims subRank
      (List.range dims.prod) d) l [] fun x hx => getDevicesAlongOne_eq hdims hd ((h.2 x).1 hx).1
    rw [List.append_nil, List.nil_append] at hlayer
    obtain ⟨l', hl', hagree⟩ := ih (h.flatMap hdims hd hdone)
      (fun e he => hrest e (List.mem_cons_of_mem _ he))
      ((List.perm_middle.nodup_iff).1 hnodup)
    refine ⟨l', ?_, hagree.1, fun p => (hagree.2 p).trans ?_⟩
    · simp only [List.foldlM_cons, hlayer, bind, Except.bind]
      exact hl'
    · have hmem : ∀ e, e ∉ d :: done ++ rest ↔ e ∉ done ++ d :: rest := fun e =>
        not_congr List.perm_middle.symm.mem_iff
      simp only [hmem]

/-- The request of a rank: the ranks that agree with it off the axes, each once. -/
theorem getDevicesAlongDim_spec (haxes : ∀ d ∈ axes, d < dims.length) (hnodup : axes.Nodup)
    (hne : axes ≠ []) (hr : r < dims.prod) :
    ∃ l, getDevicesAlongDim dims r (List.range dims.prod) axes = .ok l ∧ Agree dims axes r l := by
  cases axes with
  | nil => exact absurd rfl hne
  | cons d rest =>
    have hd := haxes d (List.mem_cons_self ..)
    have hfirst : Agree dims [d] r (devicesAlong dims d r) := by
      refine ⟨nodup_devicesAlong hdims d _, fun p => ?_⟩
      simp only [List.mem_singleton]
      exact mem_devicesAlong hdims hd hr
    obtain ⟨l, hl, hagree⟩ := foldlM_devices hdims hfirst rest
      (fun e he => haxes e (List.mem_cons_of_mem _ he)) hnodup
    refine ⟨l, ?_, hagree⟩
    simp only [getDevicesAlongDim, getDevicesAlongOne_eq hdims hd hr, bind, Except.bind]
    exact hl

omit hdims in
/-- The axes of more than one rank are those of an interval. -/
theorem exists_interval (h : Adjacent dims axes) (haxes : ∀ d ∈ axes, d < dims.length) :
    ∃ i j, i ≤ j ∧ j ≤ dims.length ∧ ∀ d < dims.length, dims.getD d 0 ≠ 1 →
      (d ∈ axes ↔ i ≤ d ∧ d < j) := by
  let large := axes.toFinset.filter fun d => dims.getD d 0 ≠ 1
  have hlarge : ∀ d, d ∈ large ↔ d ∈ axes ∧ dims.getD d 0 ≠ 1 := by
    simp [large]
  rcases large.eq_empty_or_nonempty with hempty | hnonempty
  · refine ⟨0, 0, le_rfl, Nat.zero_le _, fun d _ hd => ?_⟩
    refine ⟨fun hmem => ?_, fun hlt => absurd hlt.2 (Nat.not_lt_zero d)⟩
    have := (hlarge d).2 ⟨hmem, hd⟩
    rw [hempty] at this
    exact absurd this (Finset.notMem_empty d)
  · obtain ⟨i, hi, hmin⟩ := large.exists_min_image id hnonempty
    obtain ⟨j, hj, hmax⟩ := large.exists_max_image id hnonempty
    have hij : i ≤ j := hmin j hj
    obtain ⟨hi, hi1⟩ := (hlarge i).1 hi
    obtain ⟨hj, hj1⟩ := (hlarge j).1 hj
    refine ⟨i, j + 1, Nat.le_succ_of_le hij, haxes j hj, fun d hd hd1 => ?_⟩
    constructor
    · intro hmem
      have hd := (hlarge d).2 ⟨hmem, hd1⟩
      exact ⟨hmin d hd, Nat.lt_succ_of_le (hmax d hd)⟩
    · rintro ⟨hid, hdj⟩
      rcases Nat.eq_or_lt_of_le hid with rfl | hid
      · exact hi
      · rcases Nat.eq_or_lt_of_le (Nat.le_of_lt_succ hdj) with rfl | hdj
        · exact hj
        · exact h i d j hid hdj hi hj hi1 hj1 hd hd1

/-- An axis of one rank has one coordinate. -/
theorem digit_eq_of_one (hd : d < dims.length) (h1 : dims.getD d 0 = 1) (p q : ℕ) :
    (digits dims p).getD d 0 = (digits dims q).getD d 0 := by
  have hp := getD_digits_lt hdims hd (p := p)
  have hq := getD_digits_lt hdims hd (p := q)
  omega

omit hdims in
/-- A coordinate before, between or after. -/
theorem getD_digits_append {pre mid post : List ℕ} (p d : ℕ) :
    (d < pre.length → (digits (pre ++ (mid ++ post)) p).getD d 0 =
      (digits pre (p / (mid.prod * post.prod))).getD d 0) ∧
    (digits (pre ++ (mid ++ post)) p).getD (pre.length + mid.length + d) 0 =
      (digits post (p % post.prod)).getD d 0 := by
  rw [digits_append, digits_append, List.prod_append, digits_mod]
  constructor
  · intro hd
    rw [List.getD_append _ _ _ _ (by rwa [length_digits])]
  · rw [List.getD_append_right _ _ _ _ (by rw [length_digits]; omega), length_digits,
      List.getD_append_right _ _ _ _ (by rw [length_digits]; omega), length_digits]
    congr 1
    omega

/-- The ranks that agree off adjacent axes are spaced evenly in a block. -/
theorem exists_block (h : Adjacent dims axes) (haxes : ∀ d ∈ axes, d < dims.length) :
    ∃ s m q, 0 < s ∧ 0 < m ∧ dims.prod = q * (m * s) ∧ ∀ p < dims.prod, ∀ r < dims.prod,
      (∀ e < dims.length, e ∉ axes → (digits dims p).getD e 0 = (digits dims r).getD e 0) ↔
        p / (m * s) = r / (m * s) ∧ p % s = r % s := by
  obtain ⟨i, j, hij, hj, hmem⟩ := exists_interval h haxes
  obtain ⟨pre, mid, post, rfl, rfl, hmid⟩ : ∃ pre mid post, dims = pre ++ (mid ++ post) ∧
      pre.length = i ∧ pre.length + mid.length = j := by
    refine ⟨dims.take i, (dims.drop i).take (j - i), (dims.drop i).drop (j - i), ?_, ?_, ?_⟩
    · rw [List.take_append_drop, List.take_append_drop]
    · rw [List.length_take]
      omega
    · rw [List.length_take, List.length_take, List.length_drop]
      omega
  subst hmid
  have hlength : (pre ++ (mid ++ post)).length = pre.length + mid.length + post.length := by
    rw [List.length_append, List.length_append, Nat.add_assoc]
  have hmidpos := List.prod_pos fun n hn => hdims n (List.mem_append_right _ (List.mem_append_left _ hn))
  have hpost := List.prod_pos fun n hn => hdims n (List.mem_append_right _ (List.mem_append_right _ hn))
  refine ⟨post.prod, mid.prod, pre.prod, hpost, hmidpos, by
    rw [List.prod_append, List.prod_append], fun p hp r hr => ⟨fun hagree => ?_, ?_⟩⟩
  · -- the axes before and after are either not among those selected or of one rank
    have hsame : ∀ e < (pre ++ (mid ++ post)).length, ¬ (pre.length ≤ e ∧
        e < pre.length + mid.length) → (digits (pre ++ (mid ++ post)) p).getD e 0 =
          (digits (pre ++ (mid ++ post)) r).getD e 0 := by
      intro e he hout
      by_cases h1 : (pre ++ (mid ++ post)).getD e 0 = 1
      · exact digit_eq_of_one hdims he h1 p r
      · exact hagree e he fun hmemAxes => hout ((hmem e he h1).1 hmemAxes)
    constructor
    · have hlt : ∀ x < (pre ++ (mid ++ post)).prod, x / (mid.prod * post.prod) < pre.prod := by
        intro x hx
        rw [List.prod_append, List.prod_append] at hx
        exact Nat.div_lt_of_lt_mul (by rwa [Nat.mul_comm])
      refine eq_of_digits (hlt p hp) (hlt r hr) fun d hd => ?_
      rw [← (getD_digits_append p d).1 hd, ← (getD_digits_append r d).1 hd]
      exact hsame d (by omega) (by omega)
    · refine eq_of_digits (Nat.mod_lt _ hpost) (Nat.mod_lt _ hpost) fun d hd => ?_
      rw [← (getD_digits_append p d).2, ← (getD_digits_append r d).2]
      exact hsame _ (by omega) (by omega)
  · rintro ⟨hdiv, hmod⟩ e he hnot
    by_cases hpre : e < pre.length
    · rw [(getD_digits_append p e).1 hpre, (getD_digits_append r e).1 hpre, hdiv]
    · by_cases hin : e < pre.length + mid.length
      · by_cases h1 : (pre ++ (mid ++ post)).getD e 0 = 1
        · exact digit_eq_of_one hdims he h1 p r
        · exact absurd ((hmem e he h1).2 ⟨Nat.not_lt.1 hpre, hin⟩) hnot
      · obtain ⟨d, rfl⟩ := Nat.exists_eq_add_of_le (Nat.not_lt.1 hin)
        rw [(getD_digits_append p d).2, (getD_digits_append r d).2, hmod]

end Devices

/-! ### Evenly spaced groups -/

section Groups

variable {s m q a p r n world : ℕ} {l axes dims : List ℕ}

/-- Evenly spaced ranks. -/
def evenly (s m a : ℕ) : List ℕ := (List.range m).map fun k => a + k * s

theorem mem_evenly (hs : 0 < s) (hm : 0 < m) (hn : n = q * (m * s)) (hr : r < n) :
    p ∈ evenly s m (r / (m * s) * (m * s) + r % s) ↔
      p < n ∧ p / (m * s) = r / (m * s) ∧ p % s = r % s := by
  have hpos := Nat.mul_pos hm hs
  have hq : r / (m * s) < q := Nat.div_lt_of_lt_mul (by rwa [Nat.mul_comm, ← hn])
  have hrs := Nat.mod_lt r hs
  rw [evenly, List.mem_map]
  constructor
  · rintro ⟨k, hk, rfl⟩
    have hin : k * s + r % s < m * s := mul_add_lt (List.mem_range.1 hk) hrs
    have heq : r / (m * s) * (m * s) + r % s + k * s =
        r / (m * s) * (m * s) + (k * s + r % s) := by omega
    rw [heq]
    refine ⟨hn ▸ mul_add_lt hq hin, ?_, ?_⟩
    · rw [Nat.mul_comm _ (m * s), Nat.mul_add_div hpos, Nat.div_eq_of_lt hin, Nat.add_zero]
    · rw [← Nat.mul_assoc, Nat.mul_add_mod_self_right, Nat.mul_add_mod_self_right, Nat.mod_mod]
  · rintro ⟨-, hdiv, hmod⟩
    refine ⟨p % (m * s) / s, List.mem_range.2 (Nat.div_lt_of_lt_mul ?_), ?_⟩
    · rw [Nat.mul_comm s m]
      exact Nat.mod_lt p hpos
    · have h1 := Nat.div_add_mod' p (m * s)
      have h2 := Nat.div_add_mod' (p % (m * s)) s
      rw [Nat.mod_mul_left_mod] at h2
      rw [← hdiv, ← hmod]
      omega

theorem pairwise_evenly (s m a : ℕ) : (evenly s m a).Pairwise (· ≤ ·) := by
  rw [evenly, List.pairwise_map]
  refine List.pairwise_lt_range.imp fun hlt => ?_
  exact Nat.add_le_add_left (Nat.mul_le_mul_right s hlt.le) a

theorem nodup_evenly (hs : 0 < s) (m a : ℕ) : (evenly s m a).Nodup :=
  List.nodup_range.map fun _ _ h => Nat.eq_of_mul_eq_mul_right hs (Nat.add_left_cancel h)

theorem getD_evenly {k : ℕ} (hk : k < m) : (evenly s m a).getD k 0 = a + k * s := by
  rw [evenly, List.getD_eq_getElem _ _ (by simpa using hk)]
  simp

/-- The groups of a template with step `s` and `m` members. -/
def allGroups (s m q : ℕ) : List (List ℕ) :=
  (List.range q).flatMap fun b => (List.range s).map fun o => evenly s m (b * (s * m) + o)

theorem allGroups_perm (hs : 0 < s) (hm : 0 < m) (hn : n = q * (m * s)) :
    (allGroups s m q).flatten.Perm (List.range n) := by
  have hlength : (allGroups s m q).flatten.length = n := by
    have hinner : ∀ b, (((List.range s).map fun o => evenly s m (b * (s * m) + o)).flatMap
        id).length = m * s := by
      simp [List.length_flatMap, List.flatMap_map, evenly, Nat.mul_comm]
    rw [allGroups, List.flatten_eq_flatMap, List.flatMap_assoc, List.length_flatMap]
    simp only [hinner]
    rw [List.map_const', List.sum_replicate, List.length_range, hn]
    exact Nat.nsmul_eq_mul _ _
  have hsub : List.range n ⊆ (allGroups s m q).flatten := by
    intro p hp
    have hp := List.mem_range.1 hp
    have hq : p / (m * s) < q := Nat.div_lt_of_lt_mul (by rwa [Nat.mul_comm, ← hn])
    refine List.mem_flatten.2 ⟨evenly s m (p / (m * s) * (m * s) + p % s), ?_,
      (mem_evenly hs hm hn hp).2 ⟨hp, rfl, rfl⟩⟩
    refine List.mem_flatMap.2 ⟨_, List.mem_range.2 hq, List.mem_map.2 ⟨_,
      List.mem_range.2 (Nat.mod_lt p hs), ?_⟩⟩
    rw [Nat.mul_comm s m]
  refine ((List.nodup_range.subperm hsub).perm_of_length_le ?_).symm
  rw [hlength, List.length_range]

theorem mem_allGroups (hs : 0 < s) (hn : n = q * (m * s)) (hr : r < n) :
    evenly s m (r / (m * s) * (m * s) + r % s) ∈ allGroups s m q := by
  have hq : r / (m * s) < q := Nat.div_lt_of_lt_mul (by rwa [Nat.mul_comm, ← hn])
  refine List.mem_flatMap.2 ⟨_, List.mem_range.2 hq, List.mem_map.2 ⟨_,
    List.mem_range.2 (Nat.mod_lt r hs), ?_⟩⟩
  rw [Nat.mul_comm s m]

theorem validateIntraStep_evenly (hm : 2 ≤ m) :
    validateIntraStep ((evenly s m 0)) = .ok s := by
  have hget : ∀ k < m, (evenly s m 0).getD k 0 = k * s := by
    intro k hk
    rw [getD_evenly hk, Nat.zero_add]
  unfold validateIntraStep
  rw [hget 1 (by omega), hget 0 (by omega), Nat.zero_mul, Nat.one_mul, Nat.sub_zero]
  have hfind : (List.range' 1 ((evenly s m 0).length - 2)).find? (fun i =>
      (evenly s m 0).getD (i + 1) 0 - (evenly s m 0).getD i 0 ≠ s) = none := by
    rw [List.find?_eq_none]
    intro i hi
    have hlength : (evenly s m 0).length = m := by simp [evenly]
    rw [hlength, List.mem_range'_1] at hi
    rw [hget (i + 1) (by omega), hget i (by omega), Nat.succ_mul, Nat.add_sub_cancel_left]
    simp
  simp only [hfind]

theorem computeGroupStarts_eq (hs : 0 < s) (hm : 0 < m) (hn : n = q * (m * s)) :
    computeGroupStarts n (s * m) (s * m) = .ok ((List.range q).map fun k => k * (s * m)) := by
  have hpos := Nat.mul_pos hs hm
  unfold computeGroupStarts
  rw [if_neg hpos.ne']
  have hceil : (n + s * m - 1) / (s * m) = q := by
    have heq : n + s * m - 1 = s * m * q + (s * m - 1) := by
      rw [hn, Nat.mul_comm m s, Nat.mul_comm q]
      omega
    rw [heq, Nat.mul_add_div hpos, Nat.div_eq_of_lt (by omega), Nat.add_zero]
  rw [hceil, List.filter_eq_self.2]
  intro x hx
  obtain ⟨k, hk, rfl⟩ := List.mem_map.1 hx
  have hle := Nat.mul_le_mul_right (s * m) (List.mem_range.1 hk)
  rw [decide_eq_true_eq, ← Nat.succ_mul, hn, Nat.mul_comm m s]
  exact hle

theorem buildGroupsForBlocks_eq (hs : 0 < s) (hm : 0 < m) (hn : n = q * (m * s)) :
    buildGroupsForBlocks ((List.range q).map fun k => k * (s * m)) (s * m) ((m - 1) * s)
      (evenly s m 0) n = allGroups s m q := by
  have hspan : s * m - (m - 1) * s = s := by
    obtain ⟨m, rfl⟩ := Nat.exists_eq_add_of_le' hm
    rw [Nat.add_sub_cancel, Nat.mul_comm s, Nat.succ_mul, Nat.add_sub_cancel_left]
  unfold buildGroupsForBlocks allGroups
  rw [List.flatMap_map, hspan]
  refine List.flatMap_congr fun b hb => ?_
  have hmap : ((List.range s).map fun offset =>
      (evenly s m 0).map fun x => b * (s * m) + offset + x) =
        (List.range s).map fun o => evenly s m (b * (s * m) + o) := by
    refine List.map_congr_left fun o _ => ?_
    simp [evenly]
  rw [hmap, List.filter_eq_self.2]
  intro group hgroup
  rw [decide_eq_true_eq]
  intro p hp
  have hall : p ∈ (allGroups s m q).flatten :=
    List.mem_flatten.2 ⟨group, List.mem_flatMap.2 ⟨b, hb, hgroup⟩, hp⟩
  exact List.mem_range.1 ((allGroups_perm hs hm hn).mem_iff.1 hall)

/-- The groups do not depend on where the template starts. -/
theorem generateGroupsFromTemplate_eq (hs : 0 < s) (hm : 0 < m) (hn : n = q * (m * s))
    (h : l.insertionSort (· ≤ ·) = evenly s m a) :
    generateGroupsFromTemplate l n = .ok (if m = 1 then (List.range n).map fun i => [i]
      else (allGroups s m q).insertionSort groupLe) := by
  have hlength : (evenly s m a).length = m := by simp [evenly]
  unfold generateGroupsFromTemplate
  simp only [h, hlength]
  by_cases h1 : m = 1
  · simp only [h1, if_true]
    rfl
  · have hm2 : 2 ≤ m := by omega
    have hhead : ∀ a, (evenly s m a).getD 0 0 = a := by
      intro a
      rw [getD_evenly hm, Nat.zero_mul, Nat.add_zero]
    have hnormalized : (evenly s m a).map (fun x => x - a) = evenly s m 0 := by
      simp [evenly]
    have hspan : (evenly s m 0).getLastD 0 = (m - 1) * s := by
      obtain ⟨m, rfl⟩ := Nat.exists_eq_add_of_le' hm
      rw [evenly, List.range_succ, List.map_append, List.map_singleton, List.getLastD_concat,
        Nat.zero_add, Nat.add_sub_cancel]
    have hperm := allGroups_perm hs hm hn
    have hnodup : (allGroups s m q).flatten.toFinset.card = (allGroups s m q).flatten.length :=
      List.toFinset_card_of_nodup (hperm.nodup_iff.2 List.nodup_range)
    simp only [if_neg h1, if_neg (Nat.not_lt.2 hm2), hhead, hnormalized,
      validateIntraStep_evenly hm2, computeGroupStarts_eq hs hm hn, hspan, Nat.sub_zero,
      buildGroupsForBlocks_eq hs hm hn, hnodup, bind, Except.bind, pure, Except.pure, ne_eq,
      not_true_eq_false, if_false]

/-- The groups that a template with step `s` and `m` members is expanded to. -/
def templateGroups (s m q n : ℕ) : List (List ℕ) :=
  if m = 1 then (List.range n).map fun i => [i] else (allGroups s m q).insertionSort groupLe

theorem templateGroups_perm (hs : 0 < s) (hm : 0 < m) (hn : n = q * (m * s)) :
    (templateGroups s m q n).flatten.Perm (List.range n) := by
  unfold templateGroups
  split_ifs
  · rw [← List.flatMap_def]
    simp
  · exact (List.perm_insertionSort groupLe _).flatten.trans (allGroups_perm hs hm hn)

theorem evenly_one (s a : ℕ) : evenly s 1 a = [a] := by
  simp [evenly]

theorem mem_templateGroups (hs : 0 < s) (hn : n = q * (m * s)) (hr : r < n) :
    evenly s m (r / (m * s) * (m * s) + r % s) ∈ templateGroups s m q n := by
  unfold templateGroups
  split_ifs with h1
  · rw [h1, evenly_one, Nat.one_mul, Nat.div_add_mod', List.mem_map]
    exact ⟨r, List.mem_range.2 hr, rfl⟩
  · rw [List.mem_insertionSort]
    exact mem_allGroups hs hn hr

theorem exists_evenly {group : List ℕ} (h : group ∈ templateGroups s m q n) :
    ∃ a, group = evenly s m a := by
  unfold templateGroups at h
  split_ifs at h with h1
  · obtain ⟨i, -, rfl⟩ := List.mem_map.1 h
    exact ⟨i, by rw [h1, evenly_one]⟩
  · rw [List.mem_insertionSort] at h
    obtain ⟨b, -, hmap⟩ := List.mem_flatMap.1 h
    obtain ⟨o, -, rfl⟩ := List.mem_map.1 hmap
    exact ⟨_, rfl⟩

theorem validateGroups_eq {groups : List (List ℕ)} (i : ℕ)
    (h : ∀ group ∈ groups, group ≠ [] ∧ group.Nodup) : validateGroups i groups = .ok () := by
  induction groups generalizing i with
  | nil => rfl
  | cons group groups ih =>
    obtain ⟨hne, hnodup⟩ := h group (List.mem_cons_self ..)
    rw [validateGroups, if_neg hne, if_neg (not_not.2 hnodup)]
    exact ih (i + 1) fun g hg => h g (List.mem_cons_of_mem _ hg)

/-- A rank gets the group that it asks for. -/
theorem createGroup_eq (hs : 0 < s) (hm : 0 < m) (hn : n = q * (m * s)) (hr : r < n)
    (h : l.insertionSort (· ≤ ·) = evenly s m (r / (m * s) * (m * s) + r % s))
    (existing : List (List ℕ)) : ∃ existing', createGroup existing n r l = .ok existing' := by
  unfold createGroup
  simp only [bind, Except.bind, pure, Except.pure]
  split_ifs
  · exact ⟨_, rfl⟩
  · exact ⟨_, rfl⟩
  · have hvalid : validateGroups 0 (templateGroups s m q n) = .ok () := by
      refine validateGroups_eq 0 fun group hmem => ?_
      obtain ⟨a, rfl⟩ := exists_evenly hmem
      refine ⟨fun hnil => ?_, nodup_evenly hs m a⟩
      have hlength := congrArg List.length hnil
      simp only [evenly, List.length_map, List.length_range, List.length_nil] at hlength
      omega
    have hown : l.insertionSort (· ≤ ·) ∈ (((templateGroups s m q n).insertionSort fun x y =>
        x.getD 0 0 ≤ y.getD 0 0).map fun groupRanks => groupRanks.insertionSort (· ≤ ·)).filter
          fun sortedRanks => r ∈ sortedRanks := by
      rw [List.mem_filter, List.mem_map, h, decide_eq_true_eq]
      refine ⟨⟨_, (List.mem_insertionSort _).2 (mem_templateGroups hs hn hr),
        (pairwise_evenly s m _).insertionSort_eq⟩, (mem_evenly hs hm hn hr).2 ⟨hr, rfl, rfl⟩⟩
    have hgenerate : generateGroupsFromTemplate l n = .ok (templateGroups s m q n) :=
      generateGroupsFromTemplate_eq hs hm hn h
    simp only [createSubGroups, hgenerate, hvalid, bind, Except.bind, pure, Except.pure,
      not_true_eq_false, hown, if_false]
    exact ⟨_, rfl⟩

/-- The request of a rank along adjacent axes, sorted. -/
theorem insertionSort_request (hs : 0 < s) (hm : 0 < m) (hn : dims.prod = q * (m * s))
    (hr : r < dims.prod) (h : Agree dims axes r l) (hblock : ∀ p < dims.prod, ∀ r < dims.prod,
      (∀ e < dims.length, e ∉ axes → (digits dims p).getD e 0 = (digits dims r).getD e 0) ↔
        p / (m * s) = r / (m * s) ∧ p % s = r % s) :
    l.insertionSort (· ≤ ·) = evenly s m (r / (m * s) * (m * s) + r % s) := by
  refine List.Perm.eq_of_pairwise' (List.pairwise_insertionSort _ l) (pairwise_evenly s m _)
    ((List.perm_insertionSort _ l).trans ?_)
  refine (List.perm_ext_iff_of_nodup h.1 (nodup_evenly hs m _)).2 fun p => ?_
  rw [h.2 p, mem_evenly hs hm hn hr]
  exact and_congr_right fun hp => hblock p hp r hr

/-! ### Templates that are rejected -/

theorem prod_drop_dvd (l : List ℕ) {i e : ℕ} (h : i ≤ e) : (l.drop e).prod ∣ (l.drop i).prod := by
  obtain ⟨k, rfl⟩ := Nat.exists_eq_add_of_le h
  rw [← List.drop_drop]
  conv_rhs => rw [← List.take_append_drop k (l.drop i)]
  rw [List.prod_append]
  exact Nat.dvd_mul_left _ _

/-- A request with one step is one along adjacent axes. -/
theorem adjacent_of_uniform (hdims : ∀ n ∈ dims, 0 < n) (haxes : ∀ d ∈ axes, d < dims.length)
    (hr : r < dims.prod) (h : Agree dims axes r l) {step : ℕ}
    (huniform : ∀ k < l.length, (l.insertionSort (· ≤ ·)).getD k 0 =
      (l.insertionSort (· ≤ ·)).getD 0 0 + k * step) (hnodup : axes.Nodup) :
    Adjacent dims axes := by
  obtain ⟨a, ha, hzero, hother⟩ := exists_anchor hdims haxes hr
  have hmem : ∀ p, p ∈ l ↔ p < dims.prod ∧
      ∀ e < dims.length, e ∉ axes → (digits dims p).getD e 0 = (digits dims a).getD e 0 := by
    intro p
    rw [h.2 p]
    refine and_congr_right fun _ => forall_congr' fun e => forall_congr' fun _ =>
      forall_congr' fun he => ?_
    rw [hother e he]
  have hget : ∀ p ∈ l, ∃ k < l.length, p = (l.insertionSort (· ≤ ·)).getD 0 0 + k * step := by
    intro p hp
    obtain ⟨k, hk, rfl⟩ := List.getElem_of_mem ((List.mem_insertionSort (· ≤ ·)).2 hp)
    have hkl : k < l.length := by rwa [List.length_insertionSort] at hk
    exact ⟨k, hkl, by rw [← huniform k hkl, List.getD_eq_getElem _ _ hk]⟩
  have hgetMem : ∀ k < l.length, (l.insertionSort (· ≤ ·)).getD k 0 ∈ l := by
    intro k hk
    have hk' : k < (l.insertionSort (· ≤ ·)).length := by rwa [List.length_insertionSort]
    rw [List.getD_eq_getElem _ _ hk']
    exact (List.mem_insertionSort (· ≤ ·)).1 (List.getElem_mem hk')
  -- the template starts with the anchor
  have haMem : a ∈ l := (hmem a).2 ⟨ha, fun _ _ _ => rfl⟩
  have hfirst : (l.insertionSort (· ≤ ·)).getD 0 0 = a := by
    obtain ⟨k, hk, hak⟩ := hget a haMem
    have h0 := (hmem _).1 (hgetMem 0 (Nat.zero_lt_of_lt hk))
    obtain ⟨o, -, ho⟩ := mem_offsets hdims haxes hnodup ha hzero h0.1 h0.2
    omega
  have hstride : ∀ d ∈ axes, dims.getD d 0 ≠ 1 →
      ∃ k < l.length, (dims.drop (d + 1)).prod = k * step := by
    intro d hd h1
    have hlt := getD_digits_lt hdims (haxes d hd) (p := a)
    obtain ⟨hin, hdigits⟩ := digits_add_stride hdims ha (hzero d hd) (x := 1) (by omega)
    rw [rootAxis, contiguousStrides_getD dims (haxes d hd)] at hin hdigits
    have hother : ∀ e < dims.length, e ∉ axes →
        (digits dims (a + 1 * (dims.drop (d + 1)).prod)).getD e 0 = (digits dims a).getD e 0 := by
      intro e _ he
      have hde : d ≠ e := fun hde => he (hde ▸ hd)
      rw [hdigits, getD_set_of_ne hde]
    obtain ⟨k, hk, heq⟩ := hget _ ((hmem _).2 ⟨hin, hother⟩)
    exact ⟨k, hk, by omega⟩
  intro i e j hie hej hi hj hi1 hj1 he he1
  by_contra hnot
  obtain ⟨ki, hki, hsi⟩ := hstride i hi hi1
  obtain ⟨kj, -, hsj⟩ := hstride j hj hj1
  obtain ⟨c, hc⟩ := prod_drop_dvd dims (Nat.succ_le_succ hej.le)
  have hposj := List.prod_pos fun n hn => hdims n (List.mem_of_mem_drop (i := j + 1) hn)
  have hpose := List.prod_pos fun n hn => hdims n (List.mem_of_mem_drop (i := e + 1) hn)
  have hposi := List.prod_pos fun n hn => hdims n (List.mem_of_mem_drop (i := i + 1) hn)
  have hle := Nat.le_of_dvd hposi (prod_drop_dvd dims (Nat.succ_le_succ hie.le))
  have hstep : 0 < step := Nat.pos_of_ne_zero fun h0 => by
    rw [hsj, h0, Nat.mul_zero] at hposj
    exact lt_irrefl 0 hposj
  have hse : (dims.drop (e + 1)).prod = kj * c * step := by
    rw [hc, hsj, Nat.mul_assoc, Nat.mul_comm step, Nat.mul_assoc]
  have hk : kj * c ≤ ki := by
    rw [hse, hsi] at hle
    exact Nat.le_of_mul_le_mul_right hle hstep
  -- the next rank along `e` would be in the request
  have hnext := (hmem _).1 (hgetMem (kj * c) (hk.trans_lt hki))
  have hsame := hnext.2 e he hnot
  rw [huniform _ (hk.trans_lt hki), hfirst, ← hse, getD_digits dims he, getD_digits dims he,
    Nat.add_div_right _ hpose] at hsame
  have hmod : 1 ≡ 0 [MOD dims.getD e 0] := Nat.ModEq.add_left_cancel' _ hsame
  exact he1 (Nat.dvd_one.1 ((Nat.modEq_zero_iff_dvd).1 hmod))

theorem getD_map_sub (T : List ℕ) (t k : ℕ) :
    (T.map fun x => x - t).getD k 0 = T.getD k 0 - t := by
  by_cases hk : k < T.length
  · rw [List.getD_eq_getElem _ _ hk, List.getD_eq_getElem _ _ (by rwa [List.length_map]),
      List.getElem_map]
  · rw [List.getD_eq_default _ _ (by rw [List.length_map]; omega),
      List.getD_eq_default _ _ (by omega), Nat.zero_sub]

theorem uniform_of_validate {T : List ℕ} {step : ℕ} (hsorted : T.Pairwise (· ≤ ·))
    (h : validateIntraStep (T.map fun x => x - T.getD 0 0) = .ok step) {k : ℕ}
    (hk : k < T.length) : T.getD k 0 = T.getD 0 0 + k * step := by
  have hle : ∀ i j, i < j → j < T.length → T.getD i 0 ≤ T.getD j 0 := by
    intro i j hij hj
    rw [List.getD_eq_getElem _ _ (hij.trans hj), List.getD_eq_getElem _ _ hj]
    exact List.pairwise_iff_getElem.1 hsorted i j _ _ hij
  unfold validateIntraStep at h
  simp only [getD_map_sub, Nat.sub_self, Nat.sub_zero, List.length_map] at h
  split at h
  · cases h
  case h_2 hnone =>
    cases h
    rw [List.find?_eq_none] at hnone
    induction k with
    | zero => rw [Nat.zero_mul, Nat.add_zero]
    | succ k ih =>
      have hprev := ih (Nat.lt_of_succ_lt hk)
      rcases Nat.eq_zero_or_pos k with rfl | hpos
      · have h01 := hle 0 1 Nat.zero_lt_one hk
        rw [Nat.zero_add, Nat.one_mul]
        omega
      · have hstep := hnone k (by rw [List.mem_range'_1]; omega)
        have h0k := hle 0 k hpos (Nat.lt_of_succ_lt hk)
        have hkk := hle k (k + 1) (Nat.lt_succ_self k) hk
        simp only [ne_eq, decide_not, Bool.not_eq_true', decide_eq_false_iff_not, not_not] at hstep
        rw [Nat.succ_mul]
        omega

/-- A request that is not along adjacent axes has no single step. -/
theorem generateGroupsFromTemplate_error (hdims : ∀ n ∈ dims, 0 < n)
    (haxes : ∀ d ∈ axes, d < dims.length) (hnodup : axes.Nodup) (hr : r < dims.prod)
    (h : Agree dims axes r l) (hadjacent : ¬ Adjacent dims axes) (n : ℕ) :
    ∃ message, validateIntraStep ((l.insertionSort (· ≤ ·)).map fun x =>
        x - (l.insertionSort (· ≤ ·)).getD 0 0) = .error message ∧
      generateGroupsFromTemplate l n = .error message := by
  have hnotUniform : ∀ step, ¬ ∀ k < l.length, (l.insertionSort (· ≤ ·)).getD k 0 =
      (l.insertionSort (· ≤ ·)).getD 0 0 + k * step := fun step huniform =>
    hadjacent (adjacent_of_uniform hdims haxes hr h huniform hnodup)
  have hlength : ¬ l.length = 1 := by
    intro h1
    refine hnotUniform 0 fun k hk => ?_
    have hk0 : k = 0 := by omega
    rw [hk0, Nat.zero_mul, Nat.add_zero]
  unfold generateGroupsFromTemplate
  simp only [List.length_insertionSort, if_neg hlength, bind, Except.bind, pure, Except.pure]
  split_ifs with hshort
  · exact absurd (fun k hk => absurd hk (by omega)) (hnotUniform 0)
  · cases hvalidate : validateIntraStep ((l.insertionSort (· ≤ ·)).map fun x =>
        x - (l.insertionSort (· ≤ ·)).getD 0 0) with
    | error message => exact ⟨message, rfl, rfl⟩
    | ok step =>
      refine absurd ?_ (hnotUniform step)
      intro k hk
      exact uniform_of_validate (List.pairwise_insertionSort _ l) hvalidate
        (by rwa [List.length_insertionSort])

end Groups

/-- Along adjacent axes every rank derives the same groups, which hold each rank once, and gets its
own; along other axes the template is rejected with the error of `_validate_intra_step`. -/
theorem createGroup_devices (dims axes : List ℕ) (hdims : ∀ n ∈ dims, 0 < n) (hne : axes ≠ [])
    (haxes : ∀ d ∈ axes, d < dims.length) (hnodup : axes.Nodup) :
    (Adjacent dims axes → ∃ groups, groups.flatten.Perm (List.range dims.prod) ∧
      ∀ rank < dims.prod, ∃ rankList,
        getDevicesAlongDim dims rank (List.range dims.prod) axes = .ok rankList ∧
        generateGroupsFromTemplate rankList dims.prod = .ok groups ∧
        rankList.insertionSort (· ≤ ·) ∈ groups ∧
        ∀ existing, ∃ existing', createGroup existing dims.prod rank rankList = .ok existing') ∧
    (¬ Adjacent dims axes → ∀ rank < dims.prod, ∃ rankList message,
      getDevicesAlongDim dims rank (List.range dims.prod) axes = .ok rankList ∧
        validateIntraStep ((rankList.insertionSort (· ≤ ·)).map fun x =>
          x - (rankList.insertionSort (· ≤ ·)).getD 0 0) = .error message ∧
        generateGroupsFromTemplate rankList dims.prod = .error message) := by
  constructor
  · intro hadjacent
    obtain ⟨s, m, q, hs, hm, hn, hblock⟩ := exists_block hdims hadjacent haxes
    refine ⟨templateGroups s m q dims.prod, templateGroups_perm hs hm hn, fun rank hrank => ?_⟩
    obtain ⟨l, hl, hagree⟩ := getDevicesAlongDim_spec hdims haxes hnodup hne hrank
    have hsort := insertionSort_request hs hm hn hrank hagree hblock
    refine ⟨l, hl, generateGroupsFromTemplate_eq hs hm hn hsort, ?_,
      createGroup_eq hs hm hn hrank hsort⟩
    rw [hsort]
    exact mem_templateGroups hs hn hrank
  · intro hadjacent rank hrank
    obtain ⟨l, hl, hagree⟩ := getDevicesAlongDim_spec hdims haxes hnodup hne hrank
    obtain ⟨message, hmessage⟩ :=
      generateGroupsFromTemplate_error hdims haxes hnodup hrank hagree hadjacent dims.prod
    exact ⟨l, message, hl, hmessage⟩

/-- The last two axes of a mesh of twelve ranks. -/
theorem createGroup_devices_adjacent : ∃ groups, groups.flatten.Perm (List.range 12) ∧
    ∀ rank < 12, ∃ rankList, getDevicesAlongDim [2, 3, 2] rank (List.range 12) [1, 2] =
        .ok rankList ∧ generateGroupsFromTemplate rankList 12 = .ok groups ∧
      rankList.insertionSort (· ≤ ·) ∈ groups ∧
      ∀ existing, ∃ existing', createGroup existing 12 rank rankList = .ok existing' := by
  refine (createGroup_devices [2, 3, 2] [1, 2] (by decide) (by decide) (by decide) (by decide)).1 ?_
  intro i e j hie hej hi hj
  simp only [List.mem_cons, List.not_mem_nil, or_false] at hi hj
  omega

/-- The first and the last axis of a cube leave out the one between. -/
theorem not_createGroup_devices :
    getDevicesAlongDim [2, 2, 2] 0 (List.range 8) [0, 2] = .ok [0, 1, 4, 5] ∧
      createGroup [] 8 0 [0, 1, 4, 5] = .error
        ("Template must have consistent intra-group step. " ++ "Found 4 - 1 = 3, expected 1") := by
  constructor
  · rfl
  · decide +kernel

end HyperParallel.DTensor
