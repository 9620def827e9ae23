import HyperParallel.DTensor.Reshape

/-!
# The two loops of a reshape

* `Kept`, `claimed`, `actual`: what the filter leaves of an entry, and its shards;
* `Blocks`: the groups of a merged shape as dimensions of a shape;
* `same_of_blocks`: blocks are the same tile in row-major order as their groups;
* `blocks_merged`: the input is made of blocks of its merged shape;
* `blocks_of_matchShape`: so is the target, if it has as many elements.
-/

open MixedRadix Tiling

namespace HyperParallel.DTensor.Reshape

variable {mesh : Mesh}

/-! ### Entries of a tensor map -/

section Entries

variable {m : TensorMapping}

/-- `mesh_shape[-1 - i]`, if there is one. -/
def sizeAt (mesh : Mesh) (i : ℤ) : ℕ := (meshSize mesh i).toOption.getD 1

/-- The shards that `local_dst_shape` counts for an entry. -/
def claimed (mesh : Mesh) (m : TensorMapping) : ℕ :=
  if m = .axis (-1) then 1 else (m.mappedDims.map (sizeAt mesh)).prod

/-- The shards of an entry. -/
def shards (mesh : Mesh) (dims : List ℕ) : ℕ := (dims.map fun d => mesh.shape.getD d 1).prod

/-- The shards of an entry. -/
def actual (mesh : Mesh) (m : TensorMapping) : ℕ := shards mesh (m.meshDims mesh.shape)

/-- What the filter leaves: nothing, or axes of more than one device each. -/
structure Kept (mesh : Mesh) (m : TensorMapping) : Prop where
  valid : ∀ a ∈ m.mappedDims, a = -1 ∨ 0 ≤ a ∧ a < mesh.shape.length
  wide : m ≠ .axis (-1) → ∀ a ∈ m.mappedDims, 1 < sizeAt mesh a
  nonempty : m.mappedDims ≠ []

theorem sizeAt_eq {i : ℤ} {n : ℕ} (h : meshSize mesh i = .ok n) : sizeAt mesh i = n := by
  rw [sizeAt, h]
  rfl

theorem sizeAt_of_nonneg {i : ℤ} (h : 0 ≤ i) (hlt : i < mesh.shape.length) :
    sizeAt mesh i = mesh.shape.getD (meshDim mesh.shape i) 1 := by
  have hneg : ¬ (0 ≤ -1 - i) := by omega
  have hge : -(mesh.shape.length : ℤ) ≤ -1 - i := by omega
  have hdim : ((mesh.shape.length : ℤ) + (-1 - i)).toNat = meshDim mesh.shape i := by
    unfold meshDim
    omega
  have hdimlt : meshDim mesh.shape i < mesh.shape.length := by
    unfold meshDim
    omega
  rw [sizeAt, meshSize, itemAt, if_neg hneg, if_pos hge, hdim, List.getElem?_eq_getElem hdimlt,
    List.getD_eq_getElem _ _ hdimlt]
  rfl

theorem meshSize_mem {i : ℤ} {n : ℕ} (h : meshSize mesh i = .ok n) : n ∈ mesh.shape := by
  unfold meshSize itemAt at h
  split at h
  next x hx =>
    obtain rfl := Except.ok.inj h
    split_ifs at hx with h1 h2
    · exact List.mem_of_getElem? hx
    · exact List.mem_of_getElem? hx
  next => cases h

theorem wide_of_meshSize {i : ℤ} {n : ℕ} (h : meshSize mesh i = .ok n) (hn : n ≠ 1) :
    1 < sizeAt mesh i := by
  have hpos := mesh.shape_pos n (meshSize_mem h)
  rw [sizeAt_eq h]
  omega

theorem filterAxes_eq {axes filtered : List ℤ} (h : filterAxes mesh axes = .ok filtered) :
    filtered = axes.filter fun a => sizeAt mesh a ≠ 1 := by
  induction axes generalizing filtered with
  | nil => exact (Except.ok.inj h).symm
  | cons a axes ih =>
    obtain ⟨n, hn, h⟩ := ExceptList.bind_eq_ok.1 h
    obtain ⟨rest, hrest, h⟩ := ExceptList.bind_eq_ok.1 h
    obtain rfl := Except.ok.inj h
    rw [List.filter_cons, ← ih hrest, sizeAt_eq hn]
    by_cases hone : n = 1
    · simp [hone]
    · simp [hone]

theorem wide_of_filterAxes {axes filtered : List ℤ} (h : filterAxes mesh axes = .ok filtered) :
    ∀ a ∈ filtered, 1 < sizeAt mesh a := by
  induction axes generalizing filtered with
  | nil =>
    obtain rfl := Except.ok.inj h
    simp
  | cons a axes ih =>
    obtain ⟨n, hn, h⟩ := ExceptList.bind_eq_ok.1 h
    obtain ⟨rest, hrest, h⟩ := ExceptList.bind_eq_ok.1 h
    obtain rfl := Except.ok.inj h
    by_cases hone : n = 1
    · rw [if_neg (not_not.2 hone)]
      exact ih hrest
    · rw [if_pos hone]
      exact List.forall_mem_cons.2 ⟨wide_of_meshSize hn hone, ih hrest⟩

/-- The mesh dimensions that the filter leaves. -/
theorem meshDims_filter {axes : List ℤ}
    (hvalid : ∀ a ∈ axes, a = -1 ∨ 0 ≤ a ∧ a < mesh.shape.length) :
    ((axes.filter fun a => sizeAt mesh a ≠ 1).filter (· ≠ -1)).map (meshDim mesh.shape) =
      ((axes.filter (· ≠ -1)).map (meshDim mesh.shape)).filter
        fun d => mesh.shape.getD d 1 ≠ 1 := by
  rw [List.filter_map, List.filter_filter, List.filter_filter]
  congr 1
  refine List.filter_congr ?_
  intro a ha
  rcases hvalid a ha with rfl | ⟨hnonneg, hlt⟩
  · simp
  · rw [sizeAt_of_nonneg hnonneg hlt, Bool.and_comm]
    rfl

theorem kept_none : Kept mesh (.axis (-1)) where
  valid := by simp [TensorMapping.mappedDims]
  wide := fun hne => absurd rfl hne
  nonempty := List.cons_ne_nil _ _

/-- The filter keeps the shards of an entry. -/
theorem kept_of_filterMapping {m' : TensorMapping} (h : filterMapping mesh m = .ok m')
    (hvalid : ∀ a ∈ m.mappedDims, a = -1 ∨ 0 ≤ a ∧ a < mesh.shape.length) :
    Kept mesh m' ∧ m'.meshDims mesh.shape =
        (m.meshDims mesh.shape).filter (fun d => mesh.shape.getD d 1 ≠ 1) ∧
      ∀ a ∈ m'.mappedDims, a = -1 ∨ a ∈ m.mappedDims := by
  have hnoneMem : ∀ a ∈ (TensorMapping.axis (-1)).mappedDims, a = -1 ∨ a ∈ m.mappedDims :=
    fun a ha => Or.inl (List.mem_singleton.1 ha)
  cases m with
  | axis a =>
    obtain ⟨n, hn, h⟩ := ExceptList.bind_eq_ok.1 h
    obtain rfl := Except.ok.inj h
    have hdims := meshDims_filter hvalid
    rw [TensorMapping.mappedDims, List.filter_singleton, sizeAt_eq hn] at hdims
    by_cases hone : n = 1
    · rw [if_neg (not_not.2 hone)]
      refine ⟨kept_none, ?_, hnoneMem⟩
      simpa [TensorMapping.meshDims, TensorMapping.mappedDims, hone] using hdims
    · rw [if_pos hone]
      refine ⟨⟨hvalid, fun _ => ?_, List.cons_ne_nil _ _⟩, ?_, fun a ha => Or.inr ha⟩
      · simpa [TensorMapping.mappedDims] using wide_of_meshSize hn hone
      · simpa [TensorMapping.meshDims, TensorMapping.mappedDims, hone] using hdims
  | axes as =>
    obtain ⟨filtered, hfiltered, h⟩ := ExceptList.bind_eq_ok.1 h
    have hwide := wide_of_filterAxes hfiltered
    have heq := filterAxes_eq hfiltered
    have hdims := meshDims_filter hvalid
    rw [TensorMapping.mappedDims, ← heq] at hdims
    have hin : ∀ a ∈ filtered, a = -1 ∨ 0 ≤ a ∧ a < mesh.shape.length := by
      intro a ha
      rw [heq] at ha
      exact hvalid a (List.mem_of_mem_filter ha)
    have hsub : ∀ a ∈ filtered, a = -1 ∨ a ∈ as := by
      intro a ha
      rw [heq] at ha
      exact Or.inr (List.mem_of_mem_filter ha)
    cases filtered with
    | nil =>
      obtain rfl := Except.ok.inj h
      exact ⟨kept_none, hdims, hnoneMem⟩
    | cons i rest =>
      cases rest with
      | nil =>
        obtain rfl := Except.ok.inj h
        exact ⟨⟨hin, fun _ => hwide, List.cons_ne_nil _ _⟩, hdims, hsub⟩
      | cons j rest =>
        obtain rfl := Except.ok.inj h
        exact ⟨⟨hin, fun _ => hwide, List.cons_ne_nil _ _⟩, hdims, hsub⟩

/-- Every `-1` counts as the first mesh dimension. -/
theorem prod_sizeAt {axes : List ℤ}
    (hvalid : ∀ a ∈ axes, a = -1 ∨ 0 ≤ a ∧ a < mesh.shape.length) :
    (axes.map (sizeAt mesh)).prod =
      shards mesh ((axes.filter (· ≠ -1)).map (meshDim mesh.shape)) *
        sizeAt mesh (-1) ^ axes.count (-1) := by
  induction axes with
  | nil => simp [shards]
  | cons a axes ih =>
    obtain ⟨ha, hrest⟩ := List.forall_mem_cons.1 hvalid
    rw [List.map_cons, List.prod_cons, ih hrest]
    rcases ha with rfl | ⟨hnonneg, hlt⟩
    · rw [List.filter_cons_of_neg (by simp), List.count_cons_self, Nat.pow_succ]
      ac_rfl
    · have hne : a ≠ -1 := by omega
      rw [List.filter_cons_of_pos (by simpa using hne), List.count_cons_of_ne hne,
        sizeAt_of_nonneg hnonneg hlt, List.map_cons, shards, shards, List.map_cons, List.prod_cons,
        Nat.mul_assoc]

theorem shards_pos {dims : List ℕ} (h : ∀ d ∈ dims, d < mesh.shape.length) :
    0 < shards mesh dims :=
  prod_pos_of_dims mesh dims h

theorem meshDims_lt_of_valid (h : ∀ a ∈ m.mappedDims, a = -1 ∨ 0 ≤ a ∧ a < mesh.shape.length) :
    ∀ d ∈ m.meshDims mesh.shape, d < mesh.shape.length := by
  intro d hd
  obtain ⟨a, ha, rfl⟩ := List.mem_map.1 hd
  obtain ⟨ha, hne⟩ := List.mem_filter.1 ha
  rw [decide_eq_true_eq] at hne
  have := h a ha
  unfold meshDim
  omega

@[simp] theorem claimed_none : claimed mesh (.axis (-1)) = 1 := if_pos rfl

@[simp] theorem actual_none : actual mesh (.axis (-1)) = 1 := by
  simp [actual, shards, TensorMapping.meshDims, TensorMapping.mappedDims]

namespace Kept

variable (h : Kept mesh m)

include h

theorem actual_pos : 0 < actual mesh m := shards_pos (meshDims_lt_of_valid h.valid)

theorem one_lt_claimed (hm : m ≠ .axis (-1)) : 1 < claimed mesh m := by
  rw [claimed, if_neg hm]
  have hwide := h.wide hm
  cases haxes : m.mappedDims with
  | nil => exact absurd haxes h.nonempty
  | cons a axes =>
    rw [haxes] at hwide
    obtain ⟨ha, hrest⟩ := List.forall_mem_cons.1 hwide
    have hpos : 0 < (axes.map (sizeAt mesh)).prod := by
      refine List.prod_pos ?_
      intro n hn
      obtain ⟨b, hb, rfl⟩ := List.mem_map.1 hn
      exact Nat.zero_lt_of_lt (hrest b hb)
    rw [List.map_cons, List.prod_cons]
    calc 1 < sizeAt mesh a := ha
      _ ≤ sizeAt mesh a * (axes.map (sizeAt mesh)).prod := Nat.le_mul_of_pos_right _ hpos

theorem claimed_eq (hm : m ≠ .axis (-1)) :
    claimed mesh m = actual mesh m * sizeAt mesh (-1) ^ m.mappedDims.count (-1) := by
  rw [claimed, if_neg hm, prod_sizeAt h.valid]
  rfl

theorem claimed_eq_actual (hnone : ¬ NoneInTuple m) : claimed mesh m = actual mesh m := by
  by_cases hm : m = .axis (-1)
  · subst hm
    simp
  · have hcount : m.mappedDims.count (-1) = 0 := by
      rw [List.count_eq_zero]
      intro hmem
      cases m with
      | axis a =>
        obtain rfl := List.mem_singleton.1 hmem
        exact hm rfl
      | axes as => exact hnone ⟨as, rfl, hmem⟩
    rw [h.claimed_eq hm, hcount, Nat.pow_zero, Nat.mul_one]

theorem actual_dvd_claimed : actual mesh m ∣ claimed mesh m := by
  by_cases hm : m = .axis (-1)
  · subst hm
    simp
  · rw [h.claimed_eq hm]
    exact Nat.dvd_mul_right _ _

theorem actual_lt_claimed (hnone : NoneInTuple m) : actual mesh m < claimed mesh m := by
  obtain ⟨as, rfl, hmem⟩ := hnone
  have hwide := h.wide nofun (-1) hmem
  have hcount : as.count (-1) ≠ 0 := by
    rw [Ne, List.count_eq_zero]
    exact not_not.2 hmem
  rw [h.claimed_eq nofun]
  calc actual mesh (.axes as) = actual mesh (.axes as) * 1 := (Nat.mul_one _).symm
    _ < actual mesh (.axes as) * sizeAt mesh (-1) ^ as.count (-1) :=
      Nat.mul_lt_mul_of_pos_left (Nat.one_lt_pow hcount hwide) h.actual_pos

end Kept

end Entries

/-! ### Blocks -/

/-- A dimension that is not sharded. -/
abbrev unsharded (n : ℕ) : ℕ × TensorMapping := (n, .axis (-1))

/-- The groups of a merged shape, each as one dimension with unsharded dimensions after it. A group
of one element may be left out, and dimensions of one element may stand between the blocks. -/
inductive Blocks : List (ℕ × TensorMapping) → List (ℕ × TensorMapping) → Prop
  | nil : Blocks [] []
  | block {groups dims : List (ℕ × TensorMapping)} (s : ℕ) (m : TensorMapping) (after : List ℕ) :
      Blocks groups dims →
        Blocks ((s * after.prod, m) :: groups) ((s, m) :: (after.map unsharded ++ dims))
  | skip {groups dims : List (ℕ × TensorMapping)} (m : TensorMapping) :
      Blocks groups dims → Blocks ((1, m) :: groups) dims
  | one {groups dims : List (ℕ × TensorMapping)} :
      Blocks groups dims → Blocks groups (unsharded 1 :: dims)

/-- The number of elements. -/
abbrev total (dims : List (ℕ × TensorMapping)) : ℕ := (dims.map Prod.fst).prod

section Blocks

variable {groups dims : List (ℕ × TensorMapping)} {k : ℕ}

@[simp] theorem map_fst_unsharded (after : List ℕ) :
    (after.map unsharded).map Prod.fst = after := by
  rw [List.map_map]
  exact List.map_id _

theorem total_eq (h : Blocks groups dims) : total dims = total groups := by
  induction h with
  | nil => rfl
  | block s m after _ ih =>
    simp only [total, List.map_cons, List.map_append, map_fst_unsharded, List.prod_cons,
      List.prod_append] at ih ⊢
    rw [ih, Nat.mul_assoc]
  | skip m _ ih => rw [ih, total, total, List.map_cons, List.prod_cons, Nat.one_mul]
  | one _ ih => rw [total, List.map_cons, List.prod_cons, Nat.one_mul, ← ih]

theorem Blocks.ones (n : ℕ) (h : Blocks groups dims) :
    Blocks groups (List.replicate n (unsharded 1) ++ dims) := by
  induction n with
  | zero => exact h
  | succ n ih => exact .one ih

theorem Blocks.skips {left : List (ℕ × TensorMapping)} (hleft : ∀ g ∈ left, g.1 = 1)
    (h : Blocks groups dims) : Blocks (left ++ groups) dims := by
  induction left with
  | nil => exact h
  | cons g left ih =>
    obtain ⟨hg, hrest⟩ := List.forall_mem_cons.1 hleft
    obtain ⟨n, m⟩ := g
    obtain rfl : n = 1 := hg
    exact .skip m (ih hrest)

/-- One dimension of a shard of the rank at position `k`. -/
def tileDim (mesh : Mesh) (k size : ℕ) (dims : List ℕ) : TileDim where
  len := size / shards mesh dims
  count := shards mesh dims
  pos := shardIndex mesh.shape (mesh.coordinate k) dims

def tileOf (mesh : Mesh) (k : ℕ) (e : ℕ × TensorMapping) : TileDim :=
  tileDim mesh k e.1 (e.2.meshDims mesh.shape)

theorem tileOf_unsharded (n : ℕ) : tileOf mesh k (unsharded n) = TileDim.whole n := by
  have hdims : (TensorMapping.axis (-1)).meshDims mesh.shape = [] := rfl
  rw [tileOf, hdims, tileDim, TileDim.whole]
  simp [shards, shardIndex, ofDigits]

theorem same_unshared (d : TileDim) (after : List ℕ) (ds : List TileDim) :
    Same (d :: (after.map TileDim.whole ++ ds)) ({ d with len := d.len * after.prod } :: ds) := by
  induction after generalizing d with
  | nil =>
    rw [List.prod_nil, Nat.mul_one]
    exact .refl _
  | cons n after ih =>
    rw [List.prod_cons, ← Nat.mul_assoc]
    exact (Same.merge d n _).trans (ih { d with len := d.len * n })

theorem tileOf_one (hm : Kept mesh m) (hdvd : actual mesh m ∣ 1) :
    tileOf mesh k (1, m) = TileDim.whole 1 := by
  have hone : shards mesh (m.meshDims mesh.shape) = 1 := Nat.dvd_one.1 hdvd
  have hpos : shardIndex mesh.shape (mesh.coordinate k) (m.meshDims mesh.shape) <
      shards mesh (m.meshDims mesh.shape) :=
    shardIndex_lt Mesh.isCoordinate_coordinate (meshDims_lt_of_valid hm.valid)
  rw [hone, Nat.lt_one_iff] at hpos
  rw [tileOf, tileDim, hone, hpos, Nat.div_one]
  rfl

/-- Blocks are the same tile as their groups. -/
theorem same_of_blocks (h : Blocks groups dims) (hkept : ∀ g ∈ groups, Kept mesh g.2)
    (hgroups : ∀ g ∈ groups, actual mesh g.2 ∣ g.1) (hdims : ∀ e ∈ dims, actual mesh e.2 ∣ e.1) :
    Same (dims.map (tileOf mesh k)) (groups.map (tileOf mesh k)) := by
  induction h with
  | nil => exact .refl _
  | @block groups dims s m after _ ih =>
    obtain ⟨hs, hrest⟩ := List.forall_mem_cons.1 hdims
    have htail := ih (fun g hg => hkept g (List.mem_cons_of_mem _ hg))
      (fun g hg => hgroups g (List.mem_cons_of_mem _ hg))
      fun e he => hrest e (List.mem_append_right _ he)
    have hlen : s * after.prod / actual mesh m = s / actual mesh m * after.prod := by
      rw [Nat.mul_comm s, Nat.mul_div_assoc _ hs, Nat.mul_comm]
    have hgroup : tileOf mesh k (s * after.prod, m) =
        { tileOf mesh k (s, m) with len := (tileOf mesh k (s, m)).len * after.prod } := by
      rw [tileOf, tileDim, ← actual, hlen]
      rfl
    have hafter : (after.map unsharded).map (tileOf mesh k) = after.map TileDim.whole := by
      rw [List.map_map]
      exact List.map_congr_left fun n _ => tileOf_unsharded n
    rw [List.map_cons, List.map_append, hafter, List.map_cons, hgroup]
    exact (same_unshared _ after _).trans (htail.cons _)
  | skip m _ ih =>
    obtain ⟨hm, hrest⟩ := List.forall_mem_cons.1 hkept
    obtain ⟨hdvd, hgroups⟩ := List.forall_mem_cons.1 hgroups
    rw [List.map_cons, tileOf_one hm hdvd]
    exact (ih hrest hgroups hdims).trans (Same.unit _).symm
  | one _ ih =>
    rw [List.map_cons, tileOf_unsharded]
    exact (Same.unit _).trans (ih hkept hgroups fun e he => hdims e (List.mem_cons_of_mem _ he))

/-- A weight of the entries, multiplied over blocks. -/
theorem prod_weight {w : TensorMapping → ℕ} (hw : w (.axis (-1)) = 1) (h : Blocks groups dims)
    (hdims : ∀ e ∈ dims, w e.2 ∣ e.1) :
    (dims.map fun e => w e.2).prod = (groups.map fun g => if g.1 = 1 then 1 else w g.2).prod := by
  induction h with
  | nil => rfl
  | @block groups dims s m after _ ih =>
    obtain ⟨hs, hrest⟩ := List.forall_mem_cons.1 hdims
    have htail := ih fun e he => hrest e (List.mem_append_right _ he)
    have hafter : ((after.map unsharded).map fun e => w e.2).prod = 1 := by
      refine List.prod_eq_one ?_
      intro n hn
      rw [List.map_map] at hn
      obtain ⟨a, -, rfl⟩ := List.mem_map.1 hn
      exact hw
    have hgroup : (if s * after.prod = 1 then 1 else w m) = w m := by
      split_ifs with hone
      · obtain rfl : s = 1 := Nat.eq_one_of_mul_eq_one_right hone
        exact (Nat.dvd_one.1 hs).symm
      · rfl
    rw [List.map_cons, List.map_append, List.prod_cons, List.prod_append, hafter, Nat.one_mul,
      htail, List.map_cons, List.prod_cons, hgroup]
  | skip m _ ih => simp [ih hdims]
  | one _ ih => simp [hw, ih fun e he => hdims e (List.mem_cons_of_mem _ he)]

end Blocks

/-! ### The merged shape -/

section Merged

variable {dims : List (ℕ × TensorMapping)} {s : ℕ} {m : TensorMapping}

/-- The entry as the code has it. -/
abbrev asInt (e : ℕ × TensorMapping) : ℤ × TensorMapping := (e.1, e.2)

/-- The elements of the unsharded dimensions in front. -/
def lead (dims : List (ℕ × TensorMapping)) : ℕ :=
  total (dims.takeWhile fun e => e.2 = .axis (-1))

/-- The groups of the sharded dimensions. -/
def groupsOf : List (ℕ × TensorMapping) → List (ℕ × TensorMapping)
  | [] => []
  | (s, m) :: dims => if m = .axis (-1) then groupsOf dims else (s * lead dims, m) :: groupsOf dims

/-- The merged shape: the unsharded dimensions in front are a group of their own. -/
def merged : List (ℕ × TensorMapping) → List (ℕ × TensorMapping)
  | [] => []
  | (s, m) :: dims =>
    if m = .axis (-1) then unsharded (s * lead dims) :: groupsOf dims
    else groupsOf ((s, m) :: dims)

@[simp] theorem lead_unsharded : lead (unsharded s :: dims) = s * lead dims := by
  simp [lead, total]

theorem lead_sharded (hm : m ≠ .axis (-1)) : lead ((s, m) :: dims) = 1 := by
  simp [lead, total, hm]

theorem foldr_mergeAxis (dims : List (ℕ × TensorMapping)) :
    (dims.map asInt).foldr mergeAxis (1, []) =
      ((lead dims : ℤ), (groupsOf dims).map asInt) := by
  induction dims with
  | nil => rfl
  | cons e dims ih =>
    obtain ⟨s, m⟩ := e
    rw [List.map_cons, List.foldr_cons, ih, mergeAxis]
    by_cases hm : m = .axis (-1)
    · subst hm
      rw [if_neg (not_not.2 rfl), lead_unsharded, groupsOf, if_pos rfl, Nat.mul_comm]
      push_cast
      rfl
    · rw [if_pos hm, lead_sharded hm, groupsOf, if_neg hm, List.map_cons, Nat.mul_comm]
      push_cast
      rfl

theorem mergeUnsharedAxis_eq {shape : List ℕ} {tensorMap : List TensorMapping}
    {groups : List (ℤ × TensorMapping)} (hlen : tensorMap.length = shape.length)
    (h : mergeUnsharedAxis (toInts shape) tensorMap = .ok groups) :
    groups = (merged (shape.zip tensorMap)).map asInt := by
  have hzip : (toInts shape).zip tensorMap =
      (shape.zip tensorMap).map asInt := by
    rw [List.zip_map_left]
    rfl
  have hnot : ¬ tensorMap.length < (toInts shape).length := by
    rw [List.length_map, hlen]
    exact Nat.lt_irrefl _
  rw [mergeUnsharedAxis, if_neg hnot, hzip, foldr_mergeAxis] at h
  cases tensorMap with
  | nil => cases h
  | cons m tensorMap =>
    cases shape with
    | nil => cases hlen
    | cons s shape =>
      obtain rfl := Except.ok.inj h
      rw [List.zip_cons_cons, merged]
      by_cases hm : m = .axis (-1)
      · subst hm
        rw [if_pos rfl, if_pos rfl, lead_unsharded, groupsOf, if_pos rfl]
        rfl
      · rw [if_neg hm, if_neg hm]

/-- The unsharded dimensions in front, and the rest. -/
theorem lead_split (dims : List (ℕ × TensorMapping)) :
    ∃ (after : List ℕ) (rest : List (ℕ × TensorMapping)),
      dims = after.map unsharded ++ rest ∧ lead dims = after.prod ∧
        Blocks (groupsOf dims) rest := by
  induction dims with
  | nil => exact ⟨[], [], rfl, rfl, .nil⟩
  | cons e dims ih =>
    obtain ⟨s, m⟩ := e
    obtain ⟨after, rest, hdims, hlead, hblocks⟩ := ih
    by_cases hm : m = .axis (-1)
    · subst hm
      refine ⟨s :: after, rest, ?_, ?_, ?_⟩
      · rw [hdims]
        rfl
      · rw [lead_unsharded, hlead, List.prod_cons]
      · rwa [groupsOf, if_pos rfl]
    · refine ⟨[], (s, m) :: dims, rfl, lead_sharded hm, ?_⟩
      rw [groupsOf, if_neg hm, hlead, hdims]
      rw [hdims] at hblocks
      exact .block s m after hblocks

/-- A shape is made of blocks of its merged shape. -/
theorem blocks_merged (dims : List (ℕ × TensorMapping)) : Blocks (merged dims) dims := by
  cases dims with
  | nil => exact .nil
  | cons e dims =>
    obtain ⟨s, m⟩ := e
    obtain ⟨after, rest, hdims, hlead, hblocks⟩ := lead_split dims
    rw [hdims] at hblocks hlead
    rw [hdims, merged]
    split_ifs with hm
    · rw [hm, hlead]
      exact .block s (.axis (-1)) after hblocks
    · rw [groupsOf, if_neg hm, hlead]
      exact .block s m after hblocks

theorem mem_groupsOf {g : ℕ × TensorMapping} : g ∈ groupsOf dims ↔
    ∃ before s after, dims = before ++ (s, g.2) :: after ∧ g.2 ≠ .axis (-1) ∧
      g.1 = s * lead after := by
  induction dims with
  | nil => simp [groupsOf]
  | cons e dims ih =>
    obtain ⟨s, m⟩ := e
    constructor
    · intro hg
      rw [groupsOf] at hg
      have hrest : g ∈ groupsOf dims → ∃ before s' after,
          (s, m) :: dims = before ++ (s', g.2) :: after ∧ g.2 ≠ .axis (-1) ∧
            g.1 = s' * lead after := by
        intro hg
        obtain ⟨before, s', after, rfl, hm, hsize⟩ := ih.1 hg
        exact ⟨(s, m) :: before, s', after, rfl, hm, hsize⟩
      split_ifs at hg with hm
      · exact hrest hg
      · rcases List.mem_cons.1 hg with rfl | hg
        · exact ⟨[], s, dims, rfl, hm, rfl⟩
        · exact hrest hg
    · rintro ⟨before, s', after, hdims, hm, hsize⟩
      rw [groupsOf]
      cases before with
      | nil =>
        obtain ⟨he, rfl⟩ := List.cons.inj hdims
        obtain ⟨rfl, rfl⟩ := Prod.mk.inj he
        rw [if_neg hm]
        exact List.mem_cons.2 (Or.inl (Prod.ext hsize rfl))
      | cons e before =>
        obtain ⟨-, rfl⟩ := List.cons.inj hdims
        have hg := ih.2 ⟨before, s', after, rfl, hm, hsize⟩
        split_ifs
        · exact hg
        · exact List.mem_cons_of_mem _ hg

theorem mem_merged {g : ℕ × TensorMapping} (hm : g.2 ≠ .axis (-1)) :
    g ∈ merged dims ↔ g ∈ groupsOf dims := by
  cases dims with
  | nil => exact Iff.rfl
  | cons e dims =>
    obtain ⟨s, m⟩ := e
    rw [merged]
    split_ifs with he
    · have hne : g ≠ unsharded (s * lead dims) := by
        rintro rfl
        exact hm rfl
      rw [groupsOf, if_pos he, List.mem_cons, or_iff_right hne]
    · exact Iff.rfl

end Merged

/-! ### The target shape -/

section Target

variable {groups : List (ℕ × TensorMapping)} {e : ReshapeError} {dynamic : Bool}

theorem mapM_meshSize {axes : List ℤ} {sizes : List ℕ} (h : axes.mapM (meshSize mesh) = .ok sizes) :
    sizes = axes.map (sizeAt mesh) := by
  have hforall := ExceptList.forall₂_of_mapM h
  clear h
  induction hforall with
  | nil => rfl
  | cons ha _ ih => rw [List.map_cons, sizeAt_eq ha, ih]

theorem shardSize_eq {m : TensorMapping} {size : ℕ} (hm : m ≠ .axis (-1))
    (h : shardSize mesh m = .ok size) : size = claimed mesh m := by
  obtain ⟨sizes, hsizes, h⟩ := ExceptList.bind_eq_ok.1 h
  obtain rfl := Except.ok.inj h
  rw [claimed, if_neg hm, mapM_meshSize hsizes]

/-- What the check of a sharded dimension lets through. -/
theorem claimed_dvd_of_validate {m : TensorMapping} {s : ℕ}
    (h : checkMapVal mesh e m s dynamic = .ok ()) : claimed mesh m ∣ s := by
  by_cases hm : m = .axis (-1)
  · rw [hm, claimed_none]
    exact one_dvd s
  · rw [checkMapVal, if_pos hm] at h
    obtain ⟨size, hsize, h⟩ := ExceptList.bind_eq_ok.1 h
    obtain rfl := shardSize_eq hm hsize
    rw [if_neg (by omega)] at h
    split_ifs at h with hbad
    push Not at hbad
    rw [← Int.ofNat_fmod] at hbad
    exact Nat.dvd_of_mod_eq_zero (by exact_mod_cast hbad.2)

theorem itemAt_of_lt {β : Type} {l : List β} {i : ℕ} (h : i < l.length) :
    itemAt l i = .ok l[i] := by
  rw [itemAt, if_pos (Int.natCast_nonneg i), Int.toNat_natCast, List.getElem?_eq_getElem h]

theorem mem_of_itemAt {β : Type} {l : List β} {i : ℤ} {x : β} (h : itemAt l i = .ok x) :
    x ∈ l := by
  unfold itemAt at h
  split at h
  next y hy =>
    obtain rfl := Except.ok.inj h
    split_ifs at hy with h1 h2
    · exact List.mem_of_getElem? hy
    · exact List.mem_of_getElem? hy
  next => cases h

/-- One round of the loop: the size ends the current group, or the group goes on. -/
theorem matchShape_cons {l : List (ℤ × TensorMapping)} {s cur : ℕ} {rest : List ℤ} {curAxis : ℤ}
    {output result : List TensorMapping} (hs : 0 < s)
    (h : matchShape mesh e l dynamic (s :: rest) curAxis cur output = .ok result) :
    s ∣ cur ∧
      ((cur = s ∧ ∃ m size next, itemAt l curAxis = .ok (size, m) ∧ claimed mesh m ∣ s ∧
          itemAt l (curAxis - 1) = .ok next ∧
          matchShape mesh e l dynamic rest (curAxis - 1) next.1 (m :: output) = .ok result) ∨
        (cur / s ≠ 1 ∧ matchShape mesh e l dynamic rest curAxis (cur / s : ℕ)
          (.axis (-1) :: output) = .ok result)) := by
  rw [matchShape, if_neg (by omega), ← Int.ofNat_fmod, ← Int.ofNat_fdiv] at h
  split_ifs at h with hmod hone
  · push Not at hmod
    have hdvd : s ∣ cur := Nat.dvd_of_mod_eq_zero (by exact_mod_cast hmod)
    refine ⟨hdvd, Or.inl ⟨?_, ?_⟩⟩
    · have hquot : cur / s = 1 := by exact_mod_cast hone
      rw [← Nat.div_mul_cancel hdvd, hquot, Nat.one_mul]
    · obtain ⟨⟨size, m⟩, hm, h⟩ := ExceptList.bind_eq_ok.1 h
      obtain ⟨_, hvalid, h⟩ := ExceptList.bind_eq_ok.1 h
      obtain ⟨next, hnext, h⟩ := ExceptList.bind_eq_ok.1 h
      exact ⟨m, size, next, hm, claimed_dvd_of_validate hvalid, hnext, h⟩
  · push Not at hmod
    refine ⟨Nat.dvd_of_mod_eq_zero (by exact_mod_cast hmod), Or.inr ⟨?_, h⟩⟩
    exact fun hquot => hone (by exact_mod_cast hquot)

/-- Sizes one do not change the current group. -/
theorem matchShape_ones {l : List (ℤ × TensorMapping)} {n : ℕ} {curAxis curSize : ℤ}
    {output result : List TensorMapping} (hkept : ∀ g ∈ l, Kept mesh g.2)
    (h : matchShape mesh e l dynamic (List.replicate n 1) curAxis curSize output = .ok result) :
    result = List.replicate n (.axis (-1)) ++ output := by
  induction n generalizing curAxis curSize output with
  | zero => exact (Except.ok.inj h).symm
  | succ n ih =>
    have hstep : ∀ output', output' = .axis (-1) :: output →
        List.replicate n (.axis (-1)) ++ output' =
          List.replicate (n + 1) (.axis (-1)) ++ output := by
      rintro output' rfl
      rw [List.replicate_succ', List.append_assoc]
      rfl
    rw [List.replicate_succ, matchShape, if_neg one_ne_zero] at h
    rw [if_neg (by simp)] at h
    split_ifs at h with hone
    · obtain ⟨⟨size, m⟩, hm, h⟩ := ExceptList.bind_eq_ok.1 h
      obtain ⟨_, hvalid, h⟩ := ExceptList.bind_eq_ok.1 h
      obtain ⟨⟨next, m'⟩, -, h⟩ := ExceptList.bind_eq_ok.1 h
      have hdvd : claimed mesh m ∣ 1 := claimed_dvd_of_validate hvalid
      have hnone : m = .axis (-1) := by
        by_contra hne
        have hwide := (hkept _ (mem_of_itemAt hm)).one_lt_claimed hne
        exact absurd (Nat.le_of_dvd Nat.one_pos hdvd) (Nat.not_le_of_lt hwide)
      rw [ih h, hnone]
      exact hstep _ rfl
    · rw [ih h]
      exact hstep _ rfl

/-- What is known of a dimension of the target. -/
def Emitted (mesh : Mesh) (groups : List (ℕ × TensorMapping)) (d : ℕ × TensorMapping) : Prop :=
  claimed mesh d.2 ∣ d.1 ∧ (d.2 = .axis (-1) ∨ ∃ g ∈ groups, g.2 = d.2 ∧ d.1 ∣ g.1)

theorem emitted_unsharded (n : ℕ) : Emitted mesh groups (unsharded n) :=
  ⟨by simp, Or.inl rfl⟩

section Loop

variable {left right dims : List (ℕ × TensorMapping)} {g : ℕ × TensorMapping} {after : List ℕ}
  {cur : ℕ}

/-- The elements of all groups, while the loop is in the middle of one. -/
theorem total_eq_of_split (hgroups : groups = left ++ g :: right)
    (hcur : cur * after.prod = g.1) (hblocks : Blocks right dims) :
    total groups = total left * cur * (after.prod * total dims) := by
  rw [hgroups, total, List.map_append, List.prod_append, List.map_cons, List.prod_cons, ← hcur,
    total_eq hblocks]
  simp only [total]
  ac_rfl

/-- The elements of what the loop has put out. -/
theorem total_output (after : List ℕ) (dims : List (ℕ × TensorMapping)) :
    total (after.map unsharded ++ dims) = after.prod * total dims := by
  rw [total, List.map_append, map_fst_unsharded, List.prod_append]

theorem emitted_output (after : List ℕ) (hdims : ∀ d ∈ dims, Emitted mesh groups d) :
    ∀ d ∈ after.map unsharded ++ dims, Emitted mesh groups d := by
  intro d hd
  rcases List.mem_append.1 hd with hd | hd
  · obtain ⟨n, -, rfl⟩ := List.mem_map.1 hd
    exact emitted_unsharded n
  · exact hdims d hd

theorem itemAt_of_split (hgroups : groups = left ++ g :: right) :
    itemAt (groups.map asInt) left.length = .ok (asInt g) := by
  rw [itemAt_of_lt (by simp [hgroups])]
  simp [hgroups]

/-- The target shape is made of blocks of the merged shape, if it has as many elements: `dims` are
the blocks of the groups that are done, and `after` is what the current group has so far. -/
theorem blocks_of_matchShape {rest : List ℕ} {result : List TensorMapping}
    (hgroups : groups = left ++ g :: right) (hkept : ∀ g ∈ groups, Kept mesh g.2)
    (hpos : 0 < total groups) (hrest : ∀ s ∈ rest, 0 < s)
    (hcur : cur * after.prod = g.1) (hstart : cur = 1 → after = [])
    (hblocks : Blocks right dims) (hdims : ∀ d ∈ dims, Emitted mesh groups d)
    (hle : rest.prod * (after.prod * total dims) ≤ total groups)
    (h : matchShape mesh e (groups.map asInt) dynamic (toInts rest) left.length cur
      ((after.map unsharded ++ dims).map Prod.snd) = .ok result) :
    ∃ dims', dims'.map Prod.snd = result ∧
      dims'.map Prod.fst = rest.reverse ++ (after.map unsharded ++ dims).map Prod.fst ∧
      total dims' ∣ total groups ∧ (total dims' = total groups → Blocks groups dims') ∧
      ∀ d ∈ dims', Emitted mesh groups d := by
  induction rest generalizing left g right after dims cur with
  | nil =>
    have htotal := total_eq_of_split hgroups hcur hblocks
    have hsize := total_output after dims
    refine ⟨after.map unsharded ++ dims, Except.ok.inj h, by simp, ?_, ?_, ?_⟩
    · rw [hsize, htotal]
      exact Nat.dvd_mul_left _ _
    · intro hall
      -- nothing is left of the current group, and the groups before it have one element
      have hone : total left * cur = 1 := by
        rw [hsize] at hall
        have hfactor : 0 < after.prod * total dims := hall ▸ hpos
        rw [← hall] at htotal
        exact (Nat.eq_of_mul_eq_mul_right hfactor ((Nat.one_mul _).trans htotal)).symm
      have hleft : total left = 1 := Nat.eq_one_of_mul_eq_one_right hone
      obtain rfl : cur = 1 := Nat.eq_one_of_mul_eq_one_left hone
      obtain rfl := hstart rfl
      obtain ⟨n, m⟩ := g
      obtain rfl : 1 = n := hcur
      rw [hgroups]
      refine Blocks.skips ?_ (.skip m hblocks)
      intro g hg
      exact Nat.dvd_one.1 (hleft ▸ List.dvd_prod (List.mem_map_of_mem hg))
    · exact emitted_output after hdims
  | cons s rest ih =>
    obtain ⟨hs, htail⟩ := List.forall_mem_cons.1 hrest
    obtain ⟨hdvd, hcase⟩ := matchShape_cons hs h
    rcases hcase with ⟨rfl, m, size, next, hm, hclaim, hnext, h⟩ | ⟨hquot, h⟩
    · rw [itemAt_of_split hgroups] at hm
      obtain ⟨-, rfl⟩ := Prod.mk.inj (Except.ok.inj hm)
      -- the group is one more block
      have hblock : Blocks (g :: right) ((cur, g.2) :: (after.map unsharded ++ dims)) := by
        have hg : g = (cur * after.prod, g.2) := Prod.ext hcur.symm rfl
        rw [hg]
        exact .block cur g.2 after hblocks
      have hemitted : ∀ d ∈ (cur, g.2) :: (after.map unsharded ++ dims),
          Emitted mesh groups d := by
        refine List.forall_mem_cons.2 ⟨⟨hclaim, Or.inr ⟨g, ?_, rfl, Dvd.intro _ hcur⟩⟩,
          emitted_output after hdims⟩
        simp [hgroups]
      have hsize : total ((cur, g.2) :: (after.map unsharded ++ dims)) =
          cur * (after.prod * total dims) := by
        rw [← total_output, total, List.map_cons, List.prod_cons, total]
      rw [List.prod_cons] at hle
      rcases List.eq_nil_or_concat' left with rfl | ⟨left, g', rfl⟩
      · -- every group is done: only sizes one are left
        have hgroups' : groups = g :: right := hgroups
        have hall : total groups = cur * (after.prod * total dims) := by
          rw [hgroups', ← total_eq hblock, hsize]
        have hones : rest.prod = 1 := by
          have hpos' : 0 < rest.prod := List.prod_pos htail
          have hle' : rest.prod * (cur * (after.prod * total dims)) ≤
              1 * (cur * (after.prod * total dims)) := by
            rw [Nat.one_mul, ← hall]
            calc rest.prod * (total groups) = cur * rest.prod * (after.prod * total dims) := by
                  rw [hall]
                  ac_rfl
              _ ≤ total groups := hle
          have := Nat.le_of_mul_le_mul_right hle' (hall ▸ hpos)
          omega
        have hreplicate : rest = List.replicate rest.length 1 :=
          List.eq_replicate_iff.2 ⟨rfl, fun n hn => Nat.dvd_one.1 (hones ▸ List.dvd_prod hn)⟩
        have hints : toInts rest = List.replicate rest.length 1 := by
          rw [toInts, hreplicate, List.map_replicate, List.length_replicate]
          rfl
        have hones' : matchShape mesh e (groups.map asInt) dynamic (toInts rest) _ _ _ =
          .ok result := h
        rw [hints] at hones'
        have hresult := matchShape_ones (List.forall_mem_map.2 hkept) hones'
        have hblocks' := hblock.ones rest.length
        rw [← hgroups'] at hblocks'
        have htotal := total_eq hblocks'
        refine ⟨_, ?_, ?_, htotal ▸ Nat.dvd_refl _, fun _ => hblocks', ?_⟩
        · rw [hresult]
          simp
        · rw [hreplicate]
          simp
        · intro d hd
          rcases List.mem_append.1 hd with hd | hd
          · rw [List.eq_of_mem_replicate hd]
            exact emitted_unsharded 1
          · exact hemitted d hd
      · have hgroups' : groups = left ++ g' :: g :: right := by simpa using hgroups
        have haxis : ((left ++ [g']).length : ℤ) - 1 = left.length := by
          rw [List.length_append, List.length_singleton]
          push_cast
          omega
        rw [haxis, itemAt_of_split hgroups'] at hnext
        obtain rfl := Except.ok.inj hnext
        rw [haxis] at h
        have hnew : g'.1 * ([] : List ℕ).prod = g'.1 := Nat.mul_one _
        have hle' : rest.prod * (([] : List ℕ).prod *
            total ((cur, g.2) :: (after.map unsharded ++ dims))) ≤ total groups := by
          rw [hsize, List.prod_nil, Nat.one_mul]
          calc rest.prod * (cur * (after.prod * total dims)) =
              cur * rest.prod * (after.prod * total dims) := by ac_rfl
            _ ≤ total groups := hle
        obtain ⟨dims', hsnd, hfst, hrest'⟩ :=
          ih hgroups' htail hnew (fun _ => rfl) hblock hemitted hle' h
        exact ⟨dims', hsnd, by rw [hfst]; simp, hrest'⟩
    · have hcur' : cur / s * (s :: after).prod = g.1 := by
        rw [List.prod_cons, ← Nat.mul_assoc, Nat.div_mul_cancel hdvd, hcur]
      have hle' : rest.prod * ((s :: after).prod * total dims) ≤ total groups := by
        rw [List.prod_cons] at hle ⊢
        calc rest.prod * (s * after.prod * total dims) =
            s * rest.prod * (after.prod * total dims) := by ac_rfl
          _ ≤ total groups := hle
      obtain ⟨dims', hsnd, hfst, hrest'⟩ :=
        ih hgroups htail hcur' (fun hone => absurd hone hquot) hblocks hdims hle' h
      exact ⟨dims', hsnd, by rw [hfst]; simp, hrest'⟩

end Loop

theorem blocks_of_computeOutputTensorMap {dst : List ℕ} {inputShape : List ℤ}
    {xMap result : List TensorMapping} (hkept : ∀ g ∈ groups, Kept mesh g.2)
    (hpos : 0 < total groups) (hdst : ∀ s ∈ dst, 0 < s) (hle : dst.prod ≤ total groups)
    (h : computeOutputTensorMap mesh (groups.map asInt) (toInts dst) dynamic inputShape xMap =
      .ok result) :
    ∃ dims, dims.map Prod.snd = result ∧ dims.map Prod.fst = dst ∧ total dims ∣ total groups ∧
      (total dims = total groups → Blocks groups dims) ∧ ∀ d ∈ dims, Emitted mesh groups d := by
  obtain ⟨next, hnext, h⟩ := ExceptList.bind_eq_ok.1 h
  rcases List.eq_nil_or_concat' groups with rfl | ⟨left, g, hgroups⟩
  · cases mem_of_itemAt hnext
  have haxis : ((groups.map asInt).length : ℤ) - 1 = left.length := by
    rw [hgroups, List.length_map, List.length_append, List.length_singleton]
    push_cast
    omega
  have hat : itemAt (groups.map asInt) left.length = .ok (asInt g) := by
    rw [itemAt_of_lt (by simp [hgroups])]
    simp [hgroups]
  have hreverse : (toInts dst).reverse = toInts dst.reverse := List.map_reverse.symm
  rw [haxis, hat] at hnext
  obtain rfl := Except.ok.inj hnext
  rw [haxis, hreverse] at h
  have hnew : g.1 * ([] : List ℕ).prod = g.1 := Nat.mul_one _
  have hle' : dst.reverse.prod * (([] : List ℕ).prod * total []) ≤ total groups := by
    simpa [total] using hle
  obtain ⟨dims, hsnd, hfst, hrest⟩ := blocks_of_matchShape hgroups hkept hpos
    (by simpa using hdst) hnew (fun _ => rfl) .nil nofun hle' h
  exact ⟨dims, hsnd, by rw [hfst]; simp, hrest⟩

theorem ne_zero_of_matchShape {l : List (ℤ × TensorMapping)} {rest : List ℤ}
    {curAxis curSize : ℤ} {output result : List TensorMapping}
    (h : matchShape mesh e l dynamic rest curAxis curSize output = .ok result) :
    ∀ s ∈ rest, s ≠ 0 := by
  induction rest generalizing curAxis curSize output with
  | nil => exact nofun
  | cons s rest ih =>
    rw [matchShape] at h
    split_ifs at h with hs hmod hone
    · obtain ⟨⟨size, m⟩, -, h⟩ := ExceptList.bind_eq_ok.1 h
      obtain ⟨_, -, h⟩ := ExceptList.bind_eq_ok.1 h
      obtain ⟨⟨next, m'⟩, -, h⟩ := ExceptList.bind_eq_ok.1 h
      exact List.forall_mem_cons.2 ⟨hs, ih h⟩
    · exact List.forall_mem_cons.2 ⟨hs, ih h⟩

theorem ne_zero_of_computeOutputTensorMap {l : List (ℤ × TensorMapping)}
    {dst inputShape : List ℤ} {xMap result : List TensorMapping}
    (h : computeOutputTensorMap mesh l dst dynamic inputShape xMap = .ok result) :
    ∀ s ∈ dst, s ≠ 0 := by
  obtain ⟨next, -, h⟩ := ExceptList.bind_eq_ok.1 h
  intro s hs
  exact ne_zero_of_matchShape h s (List.mem_reverse.2 hs)

end Target

end HyperParallel.DTensor.Reshape
