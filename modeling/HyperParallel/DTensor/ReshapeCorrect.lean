import HyperParallel.DTensor.IndexSelect
import HyperParallel.DTensor.ReshapeBlocks
import Mathlib.Algebra.BigOperators.Ring.Finset

/-!
# Reshape without communication

`Reshape.inferLayout` against the tensors.

* `resolve_of_handleDynamicShape`: the target with its open size;
* `toLocal_eq_tile`: the shard of a rank is a tile;
* `accepted_of_inferLayout`: an accepted reshape, step by step;
* `reshape_correct_iff`: an accepted reshape is correct exactly when no `"None"` is left in a tuple.
-/

open MixedRadix Tiling

namespace HyperParallel.DTensor.Reshape

variable {mesh : Mesh}

/-! ### The size left open -/

section Dynamic

theorem prod_toInts (l : List ℕ) : (toInts l).prod = (l.prod : ℤ) := (Nat.cast_list_prod l).symm

theorem eq_toInts {l : List ℤ} (h : ∀ s ∈ l, -1 ≤ s) (hnone : -1 ∉ l) :
    ∃ t : List ℕ, l = toInts t := by
  refine ⟨l.map Int.toNat, ?_⟩
  rw [toInts, List.map_map]
  refine (List.map_id _).symm.trans (List.map_congr_left ?_)
  intro s hs
  have hle := h s hs
  have hne : s ≠ -1 := fun heq => hnone (heq ▸ hs)
  simp only [id, Function.comp_apply]
  omega

theorem foldl_dynamicAxis (l : List ℕ) (start : ℕ) (axis : ℤ) :
    ((toInts l).zipIdx start).foldl (fun axis s => if s.1 < 0 then (s.2 : ℤ) else axis) axis =
      axis := by
  induction l generalizing start with
  | nil => rfl
  | cons n l ih =>
    rw [toInts, List.map_cons, List.zipIdx_cons, List.foldl_cons, if_neg (by simp)]
    exact ih (start + 1)

theorem dynamicAxis_eq (before after : List ℕ) :
    dynamicAxis (toInts before ++ -1 :: toInts after) = before.length := by
  rw [dynamicAxis, List.zipIdx_append, List.foldl_append, List.zipIdx_cons, List.foldl_cons,
    foldl_dynamicAxis, if_pos (by norm_num), List.length_map, Nat.zero_add]

theorem forall₂_toInts (l : List ℕ) :
    List.Forall₂ (fun (s : ℤ) (n : ℕ) => s = -1 ∨ s = (n : ℤ)) (toInts l) l := by
  induction l with
  | nil => exact .nil
  | cons n l ih => exact .cons (Or.inr rfl) ih

theorem pos_of_toInts {l : List ℕ} (h : ∀ s ∈ toInts l, s ≠ 0) : ∀ n ∈ l, 0 < n := by
  intro n hn
  have := h n (List.mem_map_of_mem hn)
  omega

/-- The sizes of an accepted target, with the open one computed. -/
theorem resolve_of_handleDynamicShape {shape : List ℕ} {dst inputShape dst' : List ℤ}
    {dynamic : Bool} (hdst : ∀ s ∈ dst, -1 ≤ s) (hcount : dst.count (-1) ≤ 1)
    (h : handleDynamicShape (toInts shape) dst = .ok (inputShape, dst', dynamic))
    (hne : ∀ s ∈ dst', s ≠ 0) :
    inputShape = toInts shape ∧ ∃ target : List ℕ, dst' = toInts target ∧ (∀ n ∈ target, 0 < n) ∧
      List.Forall₂ (fun (s : ℤ) (n : ℕ) => s = -1 ∨ s = (n : ℤ)) dst target ∧
      target.prod ≤ shape.prod ∧ (target.prod ∣ shape.prod → target.prod = shape.prod) ∧
      0 < shape.prod := by
  have hinput : ¬ (toInts shape).prod < 0 := by
    rw [prod_toInts]
    omega
  rw [handleDynamicShape] at h
  by_cases hmem : -1 ∈ dst
  · obtain ⟨before, after, rfl⟩ := List.append_of_mem hmem
    rw [List.count_append, List.count_cons_self] at hcount
    obtain ⟨before, rfl⟩ := eq_toInts (fun s hs => hdst s (List.mem_append_left _ hs))
      (List.count_eq_zero.1 (by omega))
    obtain ⟨after, rfl⟩ := eq_toInts
      (fun s hs => hdst s (List.mem_append_right _ (List.mem_cons_of_mem _ hs)))
      (List.count_eq_zero.1 (by omega))
    have hprod : (toInts before ++ -1 :: toInts after).prod =
        -((before.prod * after.prod : ℕ) : ℤ) := by
      rw [List.prod_append, List.prod_cons, prod_toInts, prod_toInts]
      push_cast
      ring
    simp only [hprod, hinput, not_false_eq_true, true_and, if_true] at h
    by_cases hzero : before.prod * after.prod = 0
    · -- a size zero is never accepted
      exfalso
      rw [hzero] at h
      simp only [Nat.cast_zero, neg_zero, lt_irrefl, not_false_eq_true, if_true] at h
      split_ifs at h
      obtain ⟨-, rfl, -⟩ := (Prod.mk.inj (Except.ok.inj h)).imp_right Prod.mk.inj
      rcases Nat.mul_eq_zero.1 hzero with h0 | h0
      · exact hne 0 (List.mem_append_left _
          (List.mem_map.2 ⟨0, List.prod_eq_zero_iff.1 h0, rfl⟩)) rfl
      · exact hne 0 (List.mem_append_right _ (List.mem_cons_of_mem _
          (List.mem_map.2 ⟨0, List.prod_eq_zero_iff.1 h0, rfl⟩))) rfl
    · rw [if_neg (by omega), prod_toInts, dynamicAxis_eq, Int.neg_fdiv_neg, ← Int.ofNat_fdiv,
        Int.toNat_natCast] at h
      obtain ⟨rfl, rfl, -⟩ := (Prod.mk.inj (Except.ok.inj h)).imp_right Prod.mk.inj
      let v := shape.prod / (before.prod * after.prod)
      have hset : (toInts before ++ -1 :: toInts after).set before.length (v : ℤ) =
          toInts (before ++ v :: after) := by
        rw [List.set_append_right _ _ (by simp)]
        simp [toInts]
      have hpos := pos_of_toInts (hset ▸ hne)
      have hv : 0 < v := hpos v (by simp)
      have htarget : (before ++ v :: after).prod = v * (before.prod * after.prod) := by
        rw [List.prod_append, List.prod_cons]
        ac_rfl
      refine ⟨rfl, before ++ v :: after, hset, hpos, ?_, ?_, ?_, ?_⟩
      · exact List.rel_append (forall₂_toInts before) (.cons (Or.inl rfl) (forall₂_toInts after))
      · rw [htarget]
        exact Nat.div_mul_le_self _ _
      · rw [htarget]
        exact fun hdvd => Nat.div_mul_cancel ((Nat.dvd_mul_left _ _).trans hdvd)
      · exact Nat.pos_of_ne_zero fun h0 => by simp [v, h0] at hv
  · obtain ⟨target, rfl⟩ := eq_toInts hdst hmem
    have htarget : ¬ (toInts target).prod < 0 := by
      rw [prod_toInts]
      omega
    rw [if_pos ⟨hinput, htarget⟩] at h
    split_ifs at h with hsize
    push Not at hsize
    rw [prod_toInts, prod_toInts] at hsize
    obtain ⟨rfl, rfl, -⟩ := (Prod.mk.inj (Except.ok.inj h)).imp_right Prod.mk.inj
    have hprod : shape.prod = target.prod := by exact_mod_cast hsize
    have hpos := pos_of_toInts hne
    exact ⟨rfl, target, rfl, hpos, forall₂_toInts target, hprod.ge, fun _ => hprod.symm,
      hprod ▸ List.prod_pos hpos⟩

end Dynamic

/-! ### Shards as tiles -/

section Tiles

variable {k n : ℕ} {dims : List ℕ}

/-- Mesh dimensions of one device do not count. -/
theorem shards_filter (dims : List ℕ) :
    shards mesh (dims.filter fun d => mesh.shape.getD d 1 ≠ 1) = shards mesh dims := by
  induction dims with
  | nil => rfl
  | cons d dims ih =>
    by_cases hone : mesh.shape.getD d 1 = 1
    · rw [List.filter_cons_of_neg (by simpa using hone), ih, shards, shards, List.map_cons,
        List.prod_cons, hone, Nat.one_mul]
    · rw [List.filter_cons_of_pos (by simpa using hone), shards, List.map_cons, List.prod_cons,
        ← shards, ih, shards, shards, List.map_cons, List.prod_cons]

theorem shardIndex_filter (dims : List ℕ) :
    shardIndex mesh.shape (mesh.coordinate k) (dims.filter fun d => mesh.shape.getD d 1 ≠ 1) =
      shardIndex mesh.shape (mesh.coordinate k) dims := by
  induction dims with
  | nil => rfl
  | cons d dims ih =>
    have hindex : ∀ ds, shardIndex mesh.shape (mesh.coordinate k) (d :: ds) =
        (mesh.coordinate k).getD d 0 % mesh.shape.getD d 1 * shards mesh ds +
          shardIndex mesh.shape (mesh.coordinate k) ds := fun _ => rfl
    by_cases hone : mesh.shape.getD d 1 = 1
    · rw [List.filter_cons_of_neg (by simpa using hone), ih, hindex, hone, Nat.mod_one,
        Nat.zero_mul, Nat.zero_add]
    · rw [List.filter_cons_of_pos (by simpa using hone), hindex, hindex, ih, shards_filter]

theorem tileDim_filter (dims : List ℕ) :
    tileDim mesh k n (dims.filter fun d => mesh.shape.getD d 1 ≠ 1) = tileDim mesh k n dims := by
  rw [tileDim, tileDim, shards_filter, shardIndex_filter]

theorem proper_tileDim (h : ∀ d ∈ dims, d < mesh.shape.length) (hdvd : shards mesh dims ∣ n)
    (hn : 0 < n) : (tileDim mesh k n dims).Proper := by
  refine ⟨shardIndex_lt Mesh.isCoordinate_coordinate h, ?_⟩
  exact Nat.div_pos (Nat.le_of_dvd hn hdvd) (shards_pos h)

theorem size_tileDim (hdvd : shards mesh dims ∣ n) : (tileDim mesh k n dims).size = n :=
  Nat.mul_div_cancel' hdvd

/-- The slice of a rank, dimension by dimension. -/
theorem zipWith_cutSlice {shape : List ℕ} {dims : List (List ℕ)}
    (heven : List.Forall₂ (fun dims size => shards mesh dims ∣ size) dims shape)
    (hlt : ∀ ds ∈ dims, ∀ d ∈ ds, d < mesh.shape.length) :
    List.zipWith (fun size dims =>
        dims.foldl (cutSlice mesh.shape [] (mesh.coordinate k)) (0, size)) shape dims =
      (List.zipWith (tileDim mesh k) shape dims).map
        fun t => (t.pos * t.len, t.pos * t.len + t.len) := by
  induction heven with
  | nil => rfl
  | @cons ds size dims shape hdvd _ ih =>
    obtain ⟨hds, hrest⟩ := List.forall_mem_cons.1 hlt
    have hcoord : IsCoordinate mesh.shape (mesh.coordinate k) := Mesh.isCoordinate_coordinate
    have hcut := foldl_cutSlice_even ds 0 (size / shards mesh ds) hcoord hds
    rw [← shards, Nat.mul_div_cancel' hdvd, Nat.zero_add, Nat.zero_add] at hcut
    rw [List.zipWith_cons_cons, List.zipWith_cons_cons, List.map_cons, ih hrest, hcut]
    rfl

/-- The dimensions of the shard of a rank. -/
def shardDims (layout : Layout mesh) (shape : List ℕ) (k : ℕ) : List TileDim :=
  List.zipWith (tileDim mesh k) shape layout.dims

theorem area_eq_shardDims {layout : Layout mesh} {shape : List ℕ} (heven : layout.Even shape) :
    layout.area shape k = (shardDims layout shape k).map
      fun t => (t.pos * t.len, t.pos * t.len + t.len) := by
  rw [Layout.area_eq]
  refine zipWith_cutSlice (layout.even_iff.1 heven) ?_
  intro ds hds d hd
  obtain ⟨a, ha, rfl⟩ := List.getElem_of_mem hds
  exact layout.lt_of_mem_dims (a := a) (by rwa [List.getD_eq_getElem _ _ ha])

theorem areaShape_eq {layout : Layout mesh} {shape : List ℕ} (heven : layout.Even shape) :
    areaShape (layout.area shape k) = (shardDims layout shape k).map TileDim.len := by
  rw [area_eq_shardDims heven, areaShape, List.map_map]
  refine List.map_congr_left ?_
  intro t _
  exact Nat.add_sub_cancel_left _ _

/-- The shard of a rank is a tile. -/
theorem toLocal_eq_tile {α : Type} [Zero α] {layout : Layout mesh} {x : Tensor α}
    (heven : layout.Even x.shape) :
    layout.toLocal x k = tile (shardDims layout x.shape k) x := by
  rw [Layout.toLocal, tile, areaShape_eq heven]
  refine Tensor.ofEntries_congr ?_
  intro idx _
  rw [area_eq_shardDims heven, globalIndex, List.zipWith_map_left]
  rfl

end Tiles

/-! ### The output layout -/

section Output

variable {m : TensorMapping}

/-- The axes of an entry have names. -/
def Named (mesh : Mesh) (m : TensorMapping) : Prop :=
  ∀ a ∈ m.mappedDims, a ≠ -1 → ∃ item, aliasAt mesh a = .ok item ∧ item ≠ "None" ∧
    mesh.aliasName.idxOf item = meshDim mesh.shape a

/-- The axes of a layout have the names that they were written with. -/
theorem named_of_layout (layout : Layout mesh) {m : TensorMapping} (hm : m ∈ layout.tensorMap) :
    Named mesh m := by
  intro a ha hne
  have hdim : meshDim mesh.shape a ∈ layout.dims.flatten := by
    rw [layout.flatten_dims, usedDims]
    refine List.mem_flatMap.2 ⟨m, hm, List.mem_map_of_mem (List.mem_filter.2 ⟨ha, ?_⟩)⟩
    simpa using hne
  obtain ⟨ds, hds, hdim⟩ := List.mem_flatten.1 hdim
  obtain ⟨entry, -, rfl⟩ := List.mem_map.1 hds
  obtain ⟨item, hitem, hidx⟩ := List.mem_map.1 hdim
  have hnone : item ≠ "None" := by
    cases entry with
    | name name => simpa using (List.mem_filter.1 hitem).2
    | names names => simpa using (List.mem_filter.1 hitem).2
  have hvalid := layout.isTensorMap.axis_valid a (List.mem_flatMap.2 ⟨m, hm, ha⟩)
  have hlen := mesh.length_aliasName
  have hlt : mesh.aliasName.idxOf item < mesh.aliasName.length := by
    rw [hidx]
    unfold meshDim
    omega
  refine ⟨item, ?_, hnone, hidx⟩
  have hpos : ((mesh.aliasName.length : ℤ) + (-1 - a)).toNat = mesh.aliasName.idxOf item := by
    rw [hidx]
    unfold meshDim
    omega
  rw [aliasAt, itemAt, if_neg (by omega), if_pos (by omega), hpos, List.getElem?_eq_getElem hlt,
    List.getElem_idxOf hlt]

theorem named_none : Named mesh (.axis (-1)) :=
  fun _ ha hne => absurd (List.mem_singleton.1 ha) hne

theorem map_idxOf_names {as : List ℤ} {names : List String}
    (h : List.Forall₂ (fun a name => aliasAt mesh a = .ok name) as names)
    (hnamed : ∀ a ∈ as, ∃ item, aliasAt mesh a = .ok item ∧ item ≠ "None" ∧
      mesh.aliasName.idxOf item = meshDim mesh.shape a) :
    (names.filter (· ≠ "None")).map mesh.aliasName.idxOf = as.map (meshDim mesh.shape) := by
  induction h with
  | nil => rfl
  | @cons a name as names hname _ ih =>
    obtain ⟨⟨item, hitem, hnone, hidx⟩, hrest⟩ := List.forall_mem_cons.1 hnamed
    obtain rfl := Except.ok.inj (hname.symm.trans hitem)
    rw [List.filter_cons_of_pos (by simpa using hnone), List.map_cons, List.map_cons, hidx,
      ih hrest]

/-- What one round computes. -/
theorem outputEntry_eq {n : ℕ} {entry : AliasEntry} {local' : ℤ} (hkept : Kept mesh m)
    (hn : 0 < n) (h : outputEntry mesh m n = .ok (entry, local')) :
    local' = (n / claimed mesh m : ℕ) ∧ (Named mesh m → ¬ NoneInTuple m →
      entry.dims mesh.aliasName = m.meshDims mesh.shape) := by
  have hpos : ((n : ℤ) > 0) := by exact_mod_cast hn
  cases m with
  | axis a =>
    rw [outputEntry] at h
    split_ifs at h with hneg
    · -- only -1 is negative
      obtain rfl : a = -1 := by
        have := hkept.valid a (List.mem_singleton.2 rfl)
        omega
      obtain ⟨rfl, rfl⟩ := Prod.mk.inj (Except.ok.inj h)
      rw [claimed_none, Nat.div_one]
      exact ⟨rfl, fun _ _ => rfl⟩
    · have hne : a ≠ -1 := by omega
      obtain ⟨name, hname, h⟩ := ExceptList.bind_eq_ok.1 h
      obtain ⟨size, hsize, h⟩ := ExceptList.bind_eq_ok.1 h
      obtain ⟨rfl, rfl⟩ := Prod.mk.inj (Except.ok.inj h)
      obtain rfl := shardSize_eq (by simpa using hne) hsize
      refine ⟨(Int.ofNat_fdiv _ _).symm, ?_⟩
      intro hnamed _
      obtain ⟨item, hitem, hnone, hidx⟩ := hnamed a (List.mem_singleton.2 rfl) hne
      obtain rfl := Except.ok.inj (hname.symm.trans hitem)
      simp [AliasEntry.dims, AliasEntry.shardNames, TensorMapping.meshDims,
        TensorMapping.mappedDims, hnone, hne, hidx]
  | axes as =>
    obtain ⟨names, hnames, h⟩ := ExceptList.bind_eq_ok.1 h
    obtain ⟨size, hsize, h⟩ := ExceptList.bind_eq_ok.1 h
    obtain ⟨rfl, rfl⟩ := Prod.mk.inj (Except.ok.inj h)
    obtain rfl := shardSize_eq (m := .axes as) (fun heq => by cases heq) hsize
    refine ⟨by rw [if_pos hpos, Int.ofNat_fdiv], ?_⟩
    intro hnamed hnone
    have hno : ∀ a ∈ as, a ≠ -1 := fun a ha heq => hnone ⟨as, rfl, heq ▸ ha⟩
    have hself : as.filter (· ≠ -1) = as := List.filter_eq_self.2 (by simpa using hno)
    change (names.filter (· ≠ "None")).map mesh.aliasName.idxOf =
      (as.filter (· ≠ -1)).map (meshDim mesh.shape)
    rw [hself]
    exact map_idxOf_names (ExceptList.forall₂_of_mapM hnames) fun a ha => hnamed a ha (hno a ha)

theorem outputEntries_eq {dims : List (ℕ × TensorMapping)} {pairs : List (AliasEntry × ℤ)}
    (hkept : ∀ d ∈ dims, Kept mesh d.2) (hpos : ∀ d ∈ dims, 0 < d.1)
    (h : List.Forall₂ (fun d pair => outputEntry mesh d.2 (d.1 : ℕ) = .ok pair) dims pairs) :
    pairs.map Prod.snd = toInts (dims.map fun d => d.1 / claimed mesh d.2) ∧
      ((∀ d ∈ dims, Named mesh d.2 ∧ ¬ NoneInTuple d.2) →
        (pairs.map Prod.fst).map (AliasEntry.dims mesh.aliasName) =
          dims.map fun d => d.2.meshDims mesh.shape) := by
  induction h with
  | nil => exact ⟨rfl, fun _ => rfl⟩
  | @cons d pair dims pairs hpair _ ih =>
    obtain ⟨hd, hrest⟩ := List.forall_mem_cons.1 hkept
    obtain ⟨hn, hpos⟩ := List.forall_mem_cons.1 hpos
    obtain ⟨hlocal, hentry⟩ := outputEntry_eq hd hn hpair
    obtain ⟨hlocals, hentries⟩ := ih hrest hpos
    refine ⟨?_, ?_⟩
    · rw [List.map_cons, hlocal, hlocals]
      rfl
    · intro hclean
      obtain ⟨hcd, hcrest⟩ := List.forall_mem_cons.1 hclean
      rw [List.map_cons, List.map_cons, hentry hcd.1 hcd.2, hentries hcrest, List.map_cons]

/-- What the loop computes. -/
theorem calOutput_eq {dims : List (ℕ × TensorMapping)} {entries : List AliasEntry}
    {localDst : List ℤ} (hkept : ∀ d ∈ dims, Kept mesh d.2) (hpos : ∀ d ∈ dims, 0 < d.1)
    (h : calOutputLayoutAndDstShape mesh (dims.map Prod.snd) (toInts (dims.map Prod.fst)) =
      .ok (entries, localDst)) :
    localDst = toInts (dims.map fun d => d.1 / claimed mesh d.2) ∧
      ((∀ d ∈ dims, Named mesh d.2 ∧ ¬ NoneInTuple d.2) →
        entries.map (AliasEntry.dims mesh.aliasName) =
          dims.map fun d => d.2.meshDims mesh.shape) := by
  have hzip : (dims.map Prod.snd).zip (toInts (dims.map Prod.fst)) =
      dims.map fun d => (d.2, (d.1 : ℤ)) := by
    rw [toInts, List.map_map, List.zip_map']
    rfl
  obtain ⟨pairs, hpairs, h⟩ := ExceptList.bind_eq_ok.1 h
  obtain ⟨rfl, rfl⟩ := Prod.mk.inj (List.unzip_eq_map.symm.trans (Except.ok.inj h))
  rw [hzip] at hpairs
  exact outputEntries_eq hkept hpos
    (List.forall₂_map_left_iff.1 (ExceptList.forall₂_of_mapM hpairs))

/-- What one round of `_apply_partial_status` changes. -/
theorem applyPartial_eq {op : Option PartialOp} {start : ℕ} {outLayout next : Layout mesh}
    (hnames : mesh.aliasName.Nodup) (hlen : outLayout.pending.length = mesh.shape.length)
    (h : applyPartial outLayout (op, start) = .ok next) :
    next.aliasTensorMap = outLayout.aliasTensorMap ∧
      next.pending.length = mesh.shape.length ∧ ∀ d < mesh.shape.length,
        next.pending.getD d none =
          (if d = start then op else none).or (outLayout.pending.getD d none) := by
  unfold applyPartial at h
  split at h
  next op axis hop haxis =>
    dsimp only at hop haxis
    subst hop
    obtain ⟨hstart, rfl⟩ := List.getElem?_eq_some_iff.1 haxis
    have hidx : mesh.aliasName.idxOf mesh.aliasName[start] = start := hnames.idxOf_getElem _ _
    rw [Layout.setPartialByDevAxis, hidx] at h
    split_ifs at h
    obtain rfl := Except.ok.inj h
    refine ⟨rfl, by simpa using hlen, ?_⟩
    intro d hd
    by_cases hds : d = start
    · subst hds
      simp [List.getD_eq_getElem?_getD, hlen, hd]
    · simp [List.getD_eq_getElem?_getD, List.getElem?_set_ne (Ne.symm hds), hds]
  next hother =>
    obtain rfl := Except.ok.inj h
    refine ⟨rfl, hlen, ?_⟩
    intro d hd
    cases op with
    | none => simp
    | some op =>
      have hne : d ≠ start := by
        rintro rfl
        rw [← mesh.length_aliasName] at hd
        exact hother op mesh.aliasName[d] rfl (List.getElem?_eq_getElem hd)
      simp [hne]

/-- What `_apply_partial_status` changes. -/
theorem foldlM_applyPartialStatus {pending : List (Option PartialOp)} {start : ℕ}
    {outLayout outLayout' : Layout mesh} (hnames : mesh.aliasName.Nodup)
    (hlen : outLayout.pending.length = mesh.shape.length)
    (h : (pending.zipIdx start).foldlM applyPartial outLayout = .ok outLayout') :
    outLayout'.aliasTensorMap = outLayout.aliasTensorMap ∧
      ∀ d < mesh.shape.length, outLayout'.pending.getD d none =
        (if start ≤ d then pending.getD (d - start) none else none).or
          (outLayout.pending.getD d none) := by
  induction pending generalizing start outLayout with
  | nil =>
    obtain rfl := Except.ok.inj h
    refine ⟨rfl, fun d _ => ?_⟩
    simp
  | cons op pending ih =>
    rw [List.zipIdx_cons, List.foldlM_cons] at h
    obtain ⟨next, hnext, h⟩ := ExceptList.bind_eq_ok.1 h
    -- the reduction of one mesh dimension
    have hstep : next.aliasTensorMap = outLayout.aliasTensorMap ∧
        next.pending.length = mesh.shape.length ∧ ∀ d < mesh.shape.length,
          next.pending.getD d none =
            (if d = start then op else none).or (outLayout.pending.getD d none) :=
      applyPartial_eq hnames hlen hnext
    obtain ⟨halias, hlen', hpending⟩ := hstep
    obtain ⟨halias', hpending'⟩ := ih hlen' h
    refine ⟨halias'.trans halias, ?_⟩
    intro d hd
    rw [hpending' d hd, hpending d hd]
    rcases Nat.lt_trichotomy d start with hlt | rfl | hgt
    · simp [Nat.not_le_of_lt hlt, Nat.ne_of_lt hlt, Nat.not_le_of_lt (Nat.lt_succ_of_lt hlt)]
    · simp
    · have hsub : d - start = d - (start + 1) + 1 := by omega
      rw [if_pos (Nat.succ_le_of_lt hgt), if_neg (Nat.ne_of_gt hgt), if_pos hgt.le, hsub]
      simp

/-- The pending reductions are carried over. -/
theorem applyPartialStatus_eq {xLayout outLayout outLayout' : Layout mesh}
    (hnames : mesh.aliasName.Nodup)
    (hnone : outLayout.pending = List.replicate mesh.shape.length none)
    (h : applyPartialStatus xLayout outLayout = .ok outLayout') :
    outLayout'.aliasTensorMap = outLayout.aliasTensorMap ∧
      ∀ d < mesh.shape.length, outLayout'.pending.getD d none = xLayout.pending.getD d none := by
  obtain ⟨halias, hpending⟩ := foldlM_applyPartialStatus hnames (by simp [hnone]) h
  refine ⟨halias, ?_⟩
  intro d hd
  rw [hpending d hd, hnone, if_pos (Nat.zero_le d)]
  simp [List.getD_eq_getElem?_getD, hd]

end Output

/-! ### What is accepted -/

section Accepted

variable {xLayout outLayout : Layout mesh} {shape : List ℕ} {dst localDst : List ℤ}

/-- The dimensions of the input after the filter. -/
def source (xLayout : Layout mesh) (shape : List ℕ) : List (ℕ × TensorMapping) :=
  shape.zip (xLayout.tensorMap.map (kept mesh))

/-- An accepted reshape: the dimensions of its target with their entries. -/
structure Accepted (xLayout outLayout : Layout mesh) (shape : List ℕ) (dst localDst : List ℤ)
    (dims : List (ℕ × TensorMapping)) : Prop where
  filtered : ∀ m ∈ xLayout.tensorMap, filterMapping mesh m = .ok (kept mesh m)
  resolves : Resolves dst shape (dims.map Prod.fst)
  pos : ∀ d ∈ dims, 0 < d.1
  blocks : Blocks (merged (source xLayout shape)) dims
  emitted : ∀ d ∈ dims, Emitted mesh (merged (source xLayout shape)) d
  localDst_eq : localDst = toInts (dims.map fun d => d.1 / claimed mesh d.2)
  dims_eq : (∀ d ∈ dims, Named mesh d.2 ∧ ¬ NoneInTuple d.2) →
    outLayout.dims = dims.map fun d => d.2.meshDims mesh.shape
  pending : ∀ d < mesh.shape.length, outLayout.pending.getD d none = xLayout.pending.getD d none

theorem kept_of_ok {m m' : TensorMapping} (h : filterMapping mesh m = .ok m') :
    kept mesh m = m' := by
  rw [kept, h]
  rfl

theorem filterNoneSplitTensorMap_eq {tensorMap xMap : List TensorMapping}
    (h : filterNoneSplitTensorMap mesh tensorMap = .ok xMap) :
    xMap = tensorMap.map (kept mesh) ∧
      ∀ m ∈ tensorMap, filterMapping mesh m = .ok (kept mesh m) := by
  have hforall := ExceptList.forall₂_of_mapM h
  clear h
  induction hforall with
  | nil => exact ⟨rfl, nofun⟩
  | cons hm _ ih =>
    obtain ⟨hmap, hrest⟩ := ih
    have hkept := kept_of_ok hm
    exact ⟨by rw [List.map_cons, hkept, hmap],
      List.forall_mem_cons.2 ⟨hkept.symm ▸ hm, hrest⟩⟩

/-- A property of all groups. -/
theorem forall_merged {dims : List (ℕ × TensorMapping)} {P : ℕ × TensorMapping → Prop}
    (hnone : ∀ n, P (unsharded n))
    (h : ∀ before s m after, dims = before ++ (s, m) :: after → P (s * lead after, m)) :
    ∀ g ∈ merged dims, P g := by
  rintro ⟨n, m⟩ hg
  by_cases hm : m = .axis (-1)
  · exact hm ▸ hnone n
  · obtain ⟨before, s, after, hdims, -, hsize⟩ := mem_groupsOf.1 ((mem_merged hm).1 hg)
    dsimp only at hdims hsize
    exact hsize ▸ h before s m after hdims

/-- What the filter leaves of the entries of a layout. -/
theorem kept_of_layout {m : TensorMapping} (hm : m ∈ xLayout.tensorMap)
    (hok : filterMapping mesh m = .ok (kept mesh m)) :
    Kept mesh (kept mesh m) ∧ Named mesh (kept mesh m) ∧
      (kept mesh m).meshDims mesh.shape =
        (m.meshDims mesh.shape).filter fun d => mesh.shape.getD d 1 ≠ 1 := by
  have hvalid : ∀ a ∈ m.mappedDims, a = -1 ∨ 0 ≤ a ∧ a < mesh.shape.length :=
    fun a ha => xLayout.isTensorMap.axis_valid a (List.mem_flatMap.2 ⟨m, hm, ha⟩)
  obtain ⟨hkept, hdims, haxes⟩ := kept_of_filterMapping hok hvalid
  refine ⟨hkept, ?_, hdims⟩
  intro a ha hne
  exact named_of_layout xLayout hm a ((haxes a ha).resolve_left hne) hne

theorem actual_kept {m : TensorMapping} (hm : m ∈ xLayout.tensorMap)
    (hok : filterMapping mesh m = .ok (kept mesh m)) :
    actual mesh (kept mesh m) = shards mesh (m.meshDims mesh.shape) := by
  rw [actual, (kept_of_layout hm hok).2.2, shards_filter]

theorem mem_source {e : ℕ × TensorMapping} (he : e ∈ source xLayout shape) :
    ∃ m ∈ xLayout.tensorMap, e.2 = kept mesh m := by
  obtain ⟨m, hm, hkept⟩ := List.mem_map.1 (List.of_mem_zip he).2
  exact ⟨m, hm, hkept.symm⟩

/-- What is known of the groups. -/
theorem forall_groups
    (hfiltered : ∀ m ∈ xLayout.tensorMap, filterMapping mesh m = .ok (kept mesh m)) :
    ∀ g ∈ merged (source xLayout shape), Kept mesh g.2 ∧ Named mesh g.2 := by
  refine forall_merged (fun n => ⟨kept_none, named_none⟩) ?_
  intro before s m after hdims
  have he : (s, m) ∈ source xLayout shape := by simp [hdims]
  obtain ⟨m', hm', rfl⟩ := mem_source he
  have hkept := kept_of_layout hm' (hfiltered m' hm')
  exact ⟨hkept.1, hkept.2.1⟩

theorem total_source (hlen : xLayout.tensorMap.length = shape.length) :
    total (source xLayout shape) = shape.prod := by
  rw [total, source, List.map_fst_zip (by simp [hlen])]

/-- An accepted reshape, step by step. -/
theorem accepted_of_inferLayout (hnames : mesh.aliasName.Nodup)
    (hlen : xLayout.tensorMap.length = shape.length) (hdst : ∀ s ∈ dst, -1 ≤ s)
    (hcount : dst.count (-1) ≤ 1)
    (h : inferLayout xLayout dst (toInts shape) = .ok (outLayout, localDst)) :
    ∃ dims, Accepted xLayout outLayout shape dst localDst dims := by
  obtain ⟨xMap, hxMap, h⟩ := ExceptList.bind_eq_ok.1 h
  obtain ⟨⟨inputShape, dst', dynamic⟩, hdynamic, h⟩ := ExceptList.bind_eq_ok.1 h
  obtain ⟨groups, hgroups, h⟩ := ExceptList.bind_eq_ok.1 h
  obtain ⟨result, hresult, h⟩ := ExceptList.bind_eq_ok.1 h
  obtain ⟨⟨entries, localDst'⟩, houtput, hlast⟩ := ExceptList.bind_eq_ok.1 h
  obtain ⟨rfl, target, rfl, hpos, hresolves, hle, hdvd, hshape⟩ :=
    resolve_of_handleDynamicShape hdst hcount hdynamic (ne_zero_of_computeOutputTensorMap hresult)
  obtain ⟨rfl, hfiltered⟩ := filterNoneSplitTensorMap_eq hxMap
  obtain rfl := mergeUnsharedAxis_eq (by simp [hlen]) hgroups
  have htotal : total (merged (source xLayout shape)) = shape.prod :=
    (total_eq (blocks_merged _)).symm.trans (total_source hlen)
  have hkept : ∀ g ∈ merged (source xLayout shape), Kept mesh g.2 ∧ Named mesh g.2 :=
    forall_groups hfiltered
  obtain ⟨dims, rfl, rfl, hdvd', hblocks, hemitted⟩ :=
    blocks_of_computeOutputTensorMap (fun g hg => (hkept g hg).1) (htotal ▸ hshape) hpos
      (htotal ▸ hle) hresult
  have hprod : total dims = shape.prod := hdvd (htotal ▸ hdvd')
  have hkeptDims : ∀ d ∈ dims, Kept mesh d.2 := by
    intro d hd
    rcases (hemitted d hd).2 with hnone | ⟨g, hg, hgd, -⟩
    · rw [hnone]
      exact kept_none
    · exact hgd ▸ (hkept g hg).1
  have hposDims : ∀ d ∈ dims, 0 < d.1 := fun d hd => hpos _ (List.mem_map_of_mem hd)
  obtain ⟨hlocal, hdims⟩ := calOutput_eq hkeptDims hposDims houtput
  dsimp only at hlast
  split at hlast
  next => cases hlast
  next out hcall =>
    obtain ⟨out', hout, hlast⟩ := ExceptList.bind_eq_ok.1 hlast
    obtain ⟨rfl, rfl⟩ := Prod.mk.inj (Except.ok.inj hlast)
    obtain ⟨hentries, hpending⟩ := Layout.call_ok hcall
    obtain ⟨halias, hpending'⟩ := applyPartialStatus_eq hnames hpending hout
    refine ⟨dims, hfiltered, ⟨hresolves, hprod⟩, hposDims, hblocks (hprod.trans htotal.symm),
      hemitted, hlocal, ?_, hpending'⟩
    intro hclean
    rw [Layout.dims, halias, hentries]
    exact hdims hclean

/-! ### Correct exactly without a "None" in a tuple -/

/-- The condition in terms of the groups. -/
theorem noneApart_iff : NoneApart xLayout shape ↔
    ∀ g ∈ merged (source xLayout shape), NoneInTuple g.2 → g.1 = 1 := by
  have hsource : source xLayout shape =
      (shape.zip xLayout.tensorMap).map fun e => (e.1, kept mesh e.2) := by
    rw [source, List.zip_map_right]
    rfl
  have hlead : ∀ l : List (ℕ × TensorMapping), lead (l.map fun e => (e.1, kept mesh e.2)) =
      ((l.takeWhile fun e => kept mesh e.2 = .axis (-1)).map Prod.fst).prod := by
    intro l
    rw [lead, List.takeWhile_map, total, List.map_map]
    rfl
  constructor
  · intro h
    refine forall_merged (fun n hnone => ?_) ?_
    · obtain ⟨as, has, -⟩ := hnone
      cases has
    · intro before s m after hdims hnone
      rw [hsource] at hdims
      obtain ⟨before, rest, hzip, rfl, hrest⟩ := List.map_eq_append_iff.1 hdims
      obtain ⟨⟨s', m'⟩, after, rfl, he, rfl⟩ := List.map_eq_cons_iff.1 hrest
      obtain ⟨rfl, rfl⟩ := Prod.mk.inj he
      rw [hlead]
      exact h before s' m' after hzip hnone
  · intro h before s m after hzip hnone
    have hm : kept mesh m ≠ .axis (-1) := by
      obtain ⟨as, has, -⟩ := hnone
      rw [has]
      exact fun heq => by cases heq
    rw [← hlead]
    refine h (s * lead (after.map fun e => (e.1, kept mesh e.2)), kept mesh m) ?_ hnone
    refine (mem_merged hm).2 (mem_groupsOf.2
      ⟨before.map fun e => (e.1, kept mesh e.2), s, _, ?_, hm, rfl⟩)
    rw [hsource, hzip, List.map_append, List.map_cons]

/-- The dimensions of the shard of a rank, after the filter. -/
theorem shardDims_eq (hfiltered : ∀ m ∈ xLayout.tensorMap, filterMapping mesh m = .ok (kept mesh m))
    (k : ℕ) : shardDims xLayout shape k = (source xLayout shape).map (tileOf mesh k) := by
  rw [shardDims, Layout.dims_eq, List.zipWith_map_right, source, List.zip_map_right, List.map_map,
    ← List.map_uncurry_zip_eq_zipWith]
  refine List.map_congr_left ?_
  rintro ⟨s, m⟩ he
  have hm := (List.of_mem_zip he).2
  change tileDim mesh k s (m.meshDims mesh.shape) =
    tileDim mesh k s ((kept mesh m).meshDims mesh.shape)
  rw [(kept_of_layout hm (hfiltered m hm)).2.2, tileDim_filter]

theorem zipWith_tileDim (dims : List (ℕ × TensorMapping)) (k : ℕ) :
    List.zipWith (tileDim mesh k) (dims.map Prod.fst)
      (dims.map fun d => d.2.meshDims mesh.shape) = dims.map (tileOf mesh k) := by
  induction dims with
  | nil => rfl
  | cons d dims ih => exact congrArg (_ :: ·) ih

/-- Even cuts, after the filter. -/
theorem actual_dvd_source (heven : xLayout.Even shape)
    (hfiltered : ∀ m ∈ xLayout.tensorMap, filterMapping mesh m = .ok (kept mesh m)) :
    ∀ e ∈ source xLayout shape, actual mesh e.2 ∣ e.1 := by
  have heven' : List.Forall₂ (fun m size => shards mesh (m.meshDims mesh.shape) ∣ size)
      xLayout.tensorMap shape := heven
  intro e he
  rw [source, List.zip_map_right] at he
  obtain ⟨⟨s, m⟩, hzip, rfl⟩ := List.mem_map.1 he
  have hm := (List.of_mem_zip hzip).2
  change actual mesh (kept mesh m) ∣ s
  rw [actual_kept hm (hfiltered m hm)]
  exact List.forall₂_zip heven'.flip hzip

/-- The entries of the target are clean. -/
theorem clean_of_apart {dims : List (ℕ × TensorMapping)}
    (h : Accepted xLayout outLayout shape dst localDst dims)
    (hapart : ∀ g ∈ merged (source xLayout shape), NoneInTuple g.2 → g.1 = 1) :
    ∀ d ∈ dims, Kept mesh d.2 ∧ Named mesh d.2 ∧ ¬ NoneInTuple d.2 := by
  intro d hd
  obtain ⟨hclaim, hgroup⟩ := h.emitted d hd
  rcases hgroup with hnone | ⟨g, hg, hgd, hdvd⟩
  · rw [hnone]
    exact ⟨kept_none, named_none, fun ⟨as, has, _⟩ => by cases has⟩
  · obtain ⟨hkept, hnamed⟩ := forall_groups h.filtered g hg
    rw [hgd] at hkept hnamed
    refine ⟨hkept, hnamed, fun hnone => ?_⟩
    have hne : d.2 ≠ .axis (-1) := by
      obtain ⟨as, has, -⟩ := hnone
      rw [has]
      exact fun heq => by cases heq
    -- a group of one element has no shards to offer
    have hone : g.1 = 1 := hapart g hg (hgd.symm ▸ hnone)
    have hdone : d.1 = 1 := Nat.dvd_one.1 (hone ▸ hdvd)
    have hwide := hkept.one_lt_claimed hne
    rw [hdone] at hclaim
    exact absurd (Nat.le_of_dvd Nat.one_pos hclaim) (Nat.not_le_of_lt hwide)

/-- Input and target are the same tile for every rank. -/
theorem same_of_accepted {dims : List (ℕ × TensorMapping)} (heven : xLayout.Even shape)
    (h : Accepted xLayout outLayout shape dst localDst dims)
    (hdims : ∀ d ∈ dims, actual mesh d.2 ∣ d.1) (k : ℕ) :
    Same (shardDims xLayout shape k) (dims.map (tileOf mesh k)) := by
  have hkept : ∀ g ∈ merged (source xLayout shape), Kept mesh g.2 :=
    fun g hg => (forall_groups h.filtered g hg).1
  have hsource := actual_dvd_source heven h.filtered
  have hgroups : ∀ g ∈ merged (source xLayout shape), actual mesh g.2 ∣ g.1 := by
    refine forall_merged (fun n => by simp) ?_
    intro before s m after hsplit
    have hs : actual mesh m ∣ s := hsource (s, m) (by simp [hsplit])
    exact hs.mul_right _
  rw [shardDims_eq h.filtered]
  exact (same_of_blocks (blocks_merged _) hkept hgroups hsource).trans
    (same_of_blocks h.blocks hkept hgroups hdims).symm

theorem Accepted.total_source_eq {dims : List (ℕ × TensorMapping)}
    (h : Accepted xLayout outLayout shape dst localDst dims) :
    total (source xLayout shape) = total dims :=
  (total_eq (blocks_merged _)).trans (total_eq h.blocks).symm

theorem Accepted.pos_source {dims : List (ℕ × TensorMapping)}
    (h : Accepted xLayout outLayout shape dst localDst dims) :
    ∀ e ∈ source xLayout shape, 0 < e.1 := by
  intro e he
  have hpos : 0 < total dims := by
    refine List.prod_pos ?_
    intro n hn
    obtain ⟨d, hd, rfl⟩ := List.mem_map.1 hn
    exact h.pos d hd
  refine Nat.pos_of_ne_zero fun hzero => ?_
  have hprod : total (source xLayout shape) = 0 :=
    List.prod_eq_zero (hzero ▸ List.mem_map_of_mem he)
  rw [← h.total_source_eq, hprod] at hpos
  exact Nat.lt_irrefl 0 hpos

theorem correct_of_apart {dims : List (ℕ × TensorMapping)} (heven : xLayout.Even shape)
    (h : Accepted xLayout outLayout shape dst localDst dims)
    (hapart : ∀ g ∈ merged (source xLayout shape), NoneInTuple g.2 → g.1 = 1) :
    Correct xLayout outLayout shape dst localDst := by
  have hclean := clean_of_apart h hapart
  have hclaimed : ∀ d ∈ dims, claimed mesh d.2 = actual mesh d.2 :=
    fun d hd => (hclean d hd).1.claimed_eq_actual (hclean d hd).2.2
  have hdvd : ∀ d ∈ dims, actual mesh d.2 ∣ d.1 :=
    fun d hd => hclaimed d hd ▸ (h.emitted d hd).1
  have hout := h.dims_eq fun d hd => (hclean d hd).2
  have hsame := same_of_accepted heven h hdvd
  have hlen : ∀ k, (dims.map (tileOf mesh k)).map TileDim.len =
      dims.map fun d => d.1 / claimed mesh d.2 := by
    intro k
    rw [List.map_map]
    refine List.map_congr_left ?_
    intro d hd
    rw [hclaimed d hd]
    rfl
  have hsize : ∀ k, (dims.map (tileOf mesh k)).map TileDim.size = dims.map Prod.fst := by
    intro k
    rw [List.map_map]
    exact List.map_congr_left fun d hd => size_tileDim (hdvd d hd)
  have houtEven : outLayout.Even (dims.map Prod.fst) := by
    rw [Layout.even_iff, hout, List.forall₂_map_left_iff, List.forall₂_map_right_iff]
    exact List.forall₂_same.2 hdvd
  refine ⟨dims.map Prod.fst, dims.map fun d => d.1 / claimed mesh d.2, h.resolves, h.localDst_eq,
    houtEven, h.pending, ?_, ?_⟩
  · intro k _
    rw [areaShape_eq heven, (hsame k).len, hlen]
  · intro α _ x hx
    subst hx
    obtain ⟨y, hy⟩ : ∃ y, x.reshape (dims.map Prod.fst) = some y :=
      ⟨_, if_pos h.resolves.2⟩
    have hyshape : y.shape = dims.map Prod.fst := by
      rw [Tensor.reshape, if_pos h.resolves.2] at hy
      rw [← Option.some.inj hy]
      rfl
    refine ⟨y, hy, fun k _ => ?_⟩
    have houtTile : outLayout.toLocal y k = tile (dims.map (tileOf mesh k)) y := by
      rw [toLocal_eq_tile (hyshape ▸ houtEven), shardDims, hout, hyshape, zipWith_tileDim]
    have hsource : (shardDims xLayout x.shape k).map TileDim.size = x.shape := by
      rw [shardDims_eq h.filtered, List.map_map]
      have hfst : (source xLayout x.shape).map Prod.fst = x.shape := by
        rw [source, List.map_fst_zip]
        have := heven.length_eq
        rw [Layout.dims_eq, List.length_map] at this
        simp [this]
      conv_rhs => rw [← hfst]
      exact List.map_congr_left fun e he =>
        size_tileDim (actual_dvd_source heven h.filtered e he)
    have hproper : ∀ t ∈ shardDims xLayout x.shape k, t.Proper := by
      intro t ht
      rw [shardDims_eq h.filtered] at ht
      obtain ⟨e, he, rfl⟩ := List.mem_map.1 ht
      obtain ⟨m, hm, hkept⟩ := mem_source he
      have hvalid := (kept_of_layout hm (h.filtered m hm)).1.valid
      rw [← hkept] at hvalid
      exact proper_tileDim (meshDims_lt_of_valid hvalid)
        (actual_dvd_source heven h.filtered e he) (h.pos_source e he)
    have hproper' : ∀ t ∈ dims.map (tileOf mesh k), t.Proper := by
      intro t ht
      obtain ⟨d, hd, rfl⟩ := List.mem_map.1 ht
      exact proper_tileDim (meshDims_lt_of_valid (hclean d hd).1.valid) (hdvd d hd) (h.pos d hd)
    rw [toLocal_eq_tile heven, houtTile, ← hlen k]
    exact reshape_tile (hsame k) hproper hproper' hsource.symm (by rw [hsize]; exact hy)

/-- A product is that of the quotients and of the divisors. -/
theorem prod_div_mul {dims : List (ℕ × TensorMapping)} {w : TensorMapping → ℕ}
    (h : ∀ d ∈ dims, w d.2 ∣ d.1) :
    (dims.map fun d => d.1 / w d.2).prod * (dims.map fun d => w d.2).prod = total dims := by
  induction dims with
  | nil => rfl
  | cons d dims ih =>
    obtain ⟨hd, hrest⟩ := List.forall_mem_cons.1 h
    rw [total, List.map_cons, List.map_cons, List.map_cons, List.prod_cons, List.prod_cons,
      List.prod_cons, Nat.mul_mul_mul_comm, ih hrest, Nat.div_mul_cancel hd]

/-- Products of smaller factors are equal only factor by factor. -/
theorem eq_of_prod_eq {β : Type} {l : List β} {f g : β → ℕ} (hle : ∀ x ∈ l, 0 < f x ∧ f x ≤ g x)
    (h : (l.map f).prod = (l.map g).prod) : ∀ x ∈ l, f x = g x := by
  have hprod : ∀ l : List β, (∀ x ∈ l, 0 < f x ∧ f x ≤ g x) →
      0 < (l.map f).prod ∧ (l.map f).prod ≤ (l.map g).prod := by
    intro l
    induction l with
    | nil => exact fun _ => ⟨Nat.one_pos, le_rfl⟩
    | cons x l ih =>
      intro hle
      obtain ⟨hx, hrest⟩ := List.forall_mem_cons.1 hle
      rw [List.map_cons, List.map_cons, List.prod_cons, List.prod_cons]
      exact ⟨Nat.mul_pos hx.1 (ih hrest).1, Nat.mul_le_mul hx.2 (ih hrest).2⟩
  induction l with
  | nil => exact nofun
  | cons x l ih =>
    obtain ⟨hx, hrest⟩ := List.forall_mem_cons.1 hle
    obtain ⟨hpos, htail⟩ := hprod l hrest
    rw [List.map_cons, List.map_cons, List.prod_cons, List.prod_cons] at h
    have hhead : f x = g x := by
      refine le_antisymm hx.2 (Nat.le_of_mul_le_mul_right ?_ hpos)
      calc g x * (l.map f).prod ≤ g x * (l.map g).prod := Nat.mul_le_mul_left _ htail
        _ = f x * (l.map f).prod := h.symm
    refine List.forall_mem_cons.2 ⟨hhead, ih hrest ?_⟩
    rw [hhead] at h
    exact Nat.eq_of_mul_eq_mul_left (Nat.lt_of_lt_of_le hx.1 hx.2) h

/-- Where a `"None"` is left in a tuple, the local shape is too small. -/
theorem apart_of_correct {dims : List (ℕ × TensorMapping)} (heven : xLayout.Even shape)
    (h : Accepted xLayout outLayout shape dst localDst dims)
    (hcorrect : Correct xLayout outLayout shape dst localDst) :
    ∀ g ∈ merged (source xLayout shape), NoneInTuple g.2 → g.1 = 1 := by
  obtain ⟨target, localShape, -, hlocal, -, -, hprod, -⟩ := hcorrect
  have hinj : Function.Injective toInts := List.map_injective_iff.2 Nat.cast_injective
  obtain rfl : dims.map (fun d => d.1 / claimed mesh d.2) = localShape :=
    hinj (h.localDst_eq.symm.trans hlocal)
  have hzero : 0 < mesh.shape.prod := List.prod_pos mesh.shape_pos
  have hsource := actual_dvd_source heven h.filtered
  have hclaim : ∀ d ∈ dims, claimed mesh d.2 ∣ d.1 := fun d hd => (h.emitted d hd).1
  have hlen : (areaShape (xLayout.area shape 0)).prod =
      ((source xLayout shape).map fun e => e.1 / actual mesh e.2).prod := by
    rw [areaShape_eq heven, shardDims_eq h.filtered, List.map_map]
    rfl
  -- both sides cut the same elements into tiles of the same size
  have hcount : (dims.map fun d => claimed mesh d.2).prod =
      ((source xLayout shape).map fun e => actual mesh e.2).prod := by
    have hall := prod_div_mul hclaim
    rw [hprod 0 hzero, hlen, ← h.total_source_eq, ← prod_div_mul hsource] at hall
    refine Nat.eq_of_mul_eq_mul_left ?_ hall
    refine List.prod_pos ?_
    intro n hn
    obtain ⟨e, he, rfl⟩ := List.mem_map.1 hn
    exact Nat.div_pos (Nat.le_of_dvd (h.pos_source e he) (hsource e he))
      (Nat.pos_of_dvd_of_pos (hsource e he) (h.pos_source e he))
  rw [prod_weight claimed_none h.blocks hclaim,
    prod_weight actual_none (blocks_merged _) hsource] at hcount
  have heq := eq_of_prod_eq (fun g hg => ?_) hcount.symm
  · intro g hg hnone
    by_contra hone
    have hfactor := heq g hg
    rw [if_neg hone, if_neg hone] at hfactor
    exact absurd hfactor ((forall_groups h.filtered g hg).1.actual_lt_claimed hnone).ne
  · have hkept := (forall_groups h.filtered g hg).1
    split_ifs with hone
    · exact ⟨Nat.one_pos, le_rfl⟩
    · obtain ⟨c, hc⟩ := hkept.actual_dvd_claimed
      refine ⟨hkept.actual_pos, Nat.le_of_dvd ?_ ⟨c, hc⟩⟩
      by_cases hm : g.2 = .axis (-1)
      · rw [hm, claimed_none]
        exact Nat.one_pos
      · exact Nat.zero_lt_of_lt (hkept.one_lt_claimed hm)

end Accepted

/-- An accepted reshape is correct exactly when no `"None"` is left in the tuple of a dimension with
more than one element. -/
theorem reshape_correct_iff (xLayout outLayout : Layout mesh) (shape : List ℕ) (dst localDst : List ℤ)
    (hnames : mesh.aliasName.Nodup) (heven : xLayout.Even shape) (hdst : ∀ s ∈ dst, -1 ≤ s)
    (hcount : dst.count (-1) ≤ 1)
    (h : inferLayout xLayout dst (toInts shape) = .ok (outLayout, localDst)) :
    Correct xLayout outLayout shape dst localDst ↔ NoneApart xLayout shape := by
  have hlen : xLayout.tensorMap.length = shape.length := by
    rw [← heven.length_eq, Layout.dims_eq, List.length_map]
  obtain ⟨dims, haccepted⟩ := accepted_of_inferLayout hnames hlen hdst hcount h
  rw [noneApart_iff]
  exact ⟨apart_of_correct heven haccepted, correct_of_apart heven haccepted⟩

section Square

/-- Rows over the first mesh dimension. -/
def rowsLayout : Layout IndexSelect.meshTwoTwo where
  aliasTensorMap := [.name "dp", .name "None"]
  tensorMap := [.axis 1, .axis (-1)]
  ofAlias := by decide
  pending := [none, some .sum]

/-- A vector over a tuple with a `"None"`. -/
def noneLayout : Layout IndexSelect.meshTwoTwo where
  aliasTensorMap := [.names ["tp", "None"]]
  tensorMap := [.axes [0, -1]]
  ofAlias := by decide
  pending := [none, none]

theorem reshape_correct_iff_rows : ∃ outLayout localDst,
    inferLayout rowsLayout [2, -1] (toInts [4, 6]) = .ok (outLayout, localDst) ∧
      (Correct rowsLayout outLayout [4, 6] [2, -1] localDst ↔ NoneApart rowsLayout [4, 6]) := by
  have haccept : (inferLayout rowsLayout [2, -1] (toInts [4, 6])).isOk = true := by decide
  cases h : inferLayout rowsLayout [2, -1] (toInts [4, 6]) with
  | error e =>
    rw [h] at haccept
    cases haccept
  | ok result =>
    obtain ⟨outLayout, localDst⟩ := result
    exact ⟨outLayout, localDst, rfl, reshape_correct_iff rowsLayout outLayout [4, 6] [2, -1] localDst
      (by decide) (.cons (by decide) (.cons (by decide) .nil)) (by decide) (by decide) h⟩

/-- The axes `("tp", "None")` come out as `("tp", "dp")`: a quarter of the vector for half of it. -/
theorem not_correct_none : ∃ outLayout localDst,
    inferLayout noneLayout [4] (toInts [4]) = .ok (outLayout, localDst) ∧
      ¬ Correct noneLayout outLayout [4] [4] localDst := by
  have haccept : (inferLayout noneLayout [4] (toInts [4])).isOk = true := by decide
  cases h : inferLayout noneLayout [4] (toInts [4]) with
  | error e =>
    rw [h] at haccept
    cases haccept
  | ok result =>
    obtain ⟨outLayout, localDst⟩ := result
    refine ⟨outLayout, localDst, rfl, fun hcorrect => ?_⟩
    obtain ⟨dims, haccepted⟩ := accepted_of_inferLayout (by decide) rfl (by decide) (by decide) h
    have heven : noneLayout.Even [4] := .cons (by decide) .nil
    have hapart := noneApart_iff.2 (apart_of_correct heven haccepted hcorrect)
    exact absurd (hapart [] 4 (.axes [0, -1]) [] rfl ⟨[0, -1], by decide, by decide⟩) (by decide)

end Square

end HyperParallel.DTensor.Reshape
