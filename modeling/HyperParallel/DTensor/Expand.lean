import HyperParallel.DTensor.ReshapeCorrect

/-!
# Expand

`ExpandDistributedOp` and `ExpandAsDistributedOp` of `core/shard/ops/parallel_expand.py`.

* `expand`: `torch.Tensor.expand`;
* `inferLayout`, `inferLayoutAs`: the output layouts;
* `expand_tile_iff`: when the expansion of a tile is the tile of the expansion;
* `expand_correct_iff`, `expandAs_correct_iff`: the local calls are right exactly when the local
  sizes they are made with are those of the output shards.
-/

open MixedRadix Tiling TileDim

namespace HyperParallel.DTensor.Expand

open Reshape (shards tileDim shardDims size_tileDim toLocal_eq_tile)

variable {mesh : Mesh} {α : Type}

/-! ### Expanding a tensor -/

/-- The extent of an existing dimension: a size that is not -1 is its own, or replaces an extent
of 1. -/
def expandDim (n : ℕ) (size : ℤ) : Option ℕ :=
  if size = -1 ∨ size = n then some n
  else if n = 1 ∧ 0 ≤ size then some size.toNat
  else none

/-- The extent of a new dimension. -/
def newDim (size : ℤ) : Option ℕ := if 0 ≤ size then some size.toNat else none

/-- The shape of `x.expand(*sizes)`; the new dimensions come first. -/
def expandShape (shape : List ℕ) (sizes : List ℤ) : Option (List ℕ) := do
  let numNewDims := sizes.length - shape.length
  if sizes.length < shape.length then none
  else
    let newDims ← (sizes.take numNewDims).mapM newDim
    let oldDims ← (shape.zip (sizes.drop numNewDims)).mapM fun d => expandDim d.1 d.2
    return newDims ++ oldDims

/-- Along an extent of 1 there is only one entry. -/
def select (n i : ℕ) : ℕ := if n = 1 then 0 else i

/-- The entry of `x` at an index of the expansion. -/
def expandIndex (shape idx : List ℕ) : List ℕ :=
  List.zipWith select shape (idx.drop (idx.length - shape.length))

/-- `x.expand(*sizes)` -/
def expand [Zero α] (x : Tensor α) (sizes : List ℤ) : Option (Tensor α) :=
  (expandShape x.shape sizes).map fun shape =>
    Tensor.ofEntries shape fun idx => x.entry (expandIndex x.shape idx)

/-! ### The layouts -/

/-- What `infer_layout` raises. -/
inductive ExpandError
  /-- `input {i} with {layout} has Partial status which is not allowed.` -/
  | pendingInput
  /-- `sizes should be a non-empty tuple of ints` -/
  | emptySizes
  /-- `input_shape length must match input_ndim` -/
  | shapeLength
  /-- `cannot reduce dimensions with expand`; for `expand_as`,
  `target shape cannot be smaller than input shape` -/
  | fewerDims
  /-- `cannot use -1 for new dimension at position {i}` -/
  | openNewDim (i : ℕ)
  /-- `cannot expand dimension {i} which is sharded` -/
  | shardedDim (i : ℕ)
  /-- `cannot expand dimension {i} from size {input_size} to {requested_size}` -/
  | sizeMismatch (i : ℕ)
  | layout (e : LayoutError)

/-- The output mapping of one dimension. -/
def expandEntry (i inputSize : ℕ) (requestedSize : ℤ) (entry : AliasEntry) :
    Except ExpandError AliasEntry :=
  if requestedSize = -1 ∨ requestedSize = inputSize then .ok entry
  else if inputSize = 1 ∧ requestedSize > 1 then
    if entry ≠ .name "None" then .error (.shardedDim i) else .ok (.name "None")
  else .error (.sizeMismatch i)

/-- The loop over the existing dimensions. -/
def expandEntries : ℕ → List ℕ → List ℤ → List AliasEntry → Except ExpandError (List AliasEntry)
  | i, inputSize :: inputShape, requestedSize :: sizes, entry :: entries => do
    let output ← expandEntry i inputSize requestedSize entry
    let outputs ← expandEntries (i + 1) inputShape sizes entries
    return output :: outputs
  | _, _, _, _ => .ok []

/-- `input_layout` called with the output map, on the mesh of the input. -/
def outputLayout (mesh : Mesh) (outputMap : List AliasEntry) : Except ExpandError (Layout mesh) :=
  (Layout.call mesh outputMap).mapError .layout

/-- `ExpandDistributedOp.infer_layout` -/
def inferLayout (inputLayout : Layout mesh) (inputShape : List ℕ) (sizes : List ℤ) :
    Except ExpandError (Layout mesh) := do
  if inputLayout.isPartial then .error .pendingInput
  else if sizes = [] then .error .emptySizes
  else
    let inAliasMap := inputLayout.aliasTensorMap
    let inputNdim := inAliasMap.length
    if inputShape.length ≠ inputNdim then .error .shapeLength
    else if sizes.length < inputNdim then .error .fewerDims
    else
      let numNewDims := sizes.length - inputNdim
      match (sizes.take numNewDims).findIdx? (· = -1) with
      | some i => .error (.openNewDim i)
      | none =>
        let outputs ← expandEntries 0 inputShape (sizes.drop numNewDims) inAliasMap
        outputLayout mesh (List.replicate numNewDims (.name "None") ++ outputs)

/-- `ExpandAsDistributedOp.infer_layout` -/
def inferLayoutAs (inputLayout : Layout mesh) (inputGlobalShape targetShape : List ℕ) :
    Except ExpandError (Layout mesh) := do
  if inputLayout.isPartial then .error .pendingInput
  else
    let inAliasMap := inputLayout.aliasTensorMap
    if targetShape.length < inAliasMap.length then .error .fewerDims
    else
      let numLeadingImplicit := targetShape.length - inAliasMap.length
      let alignedInputShape := List.replicate numLeadingImplicit 1 ++ inputGlobalShape
      let alignedTensorMap := List.replicate numLeadingImplicit (.name "None") ++ inAliasMap
      let outputs ← expandEntries 0 alignedInputShape (targetShape.map fun size : ℕ => (size : ℤ))
        alignedTensorMap
      outputLayout mesh outputs

/-! ### Tiles of an expansion -/

/-- A dimension, the sizes asked for globally and locally, and the dimension of the output. -/
structure ExpandDim where
  input : TileDim
  request : ℤ
  localRequest : ℤ
  output : TileDim

/-- The dimension is kept, or a whole dimension of extent 1 is repeated. -/
structure ExpandDim.Fits (d : ExpandDim) : Prop where
  kept_or : (d.output = d.input ∧ (d.request = -1 ∨ d.request = d.input.size)) ∨
    d.input = whole 1 ∧ 1 < d.request ∧ d.output = whole d.request.toNat
  pos_lt : d.input.pos < d.input.count
  open_kept : d.localRequest = -1 → d.output = d.input

section Tiles

variable {d : ExpandDim} {ds : List ExpandDim}

theorem expandDim_eq {n m : ℕ} {size : ℤ} (h : m = n ∨ n = 1 ∧ size ≠ -1) :
    expandDim n size = some m ↔ size = -1 ∨ size = m := by
  rw [expandDim]
  split_ifs with hkept hone
  · rw [Option.some.injEq]
    rcases hkept with rfl | rfl
    · exact iff_of_true (h.resolve_right fun hor => hor.2 rfl).symm (Or.inl rfl)
    · constructor
      · rintro rfl
        exact Or.inr rfl
      · rintro (hneg | heq)
        · omega
        · exact_mod_cast heq
  · rw [Option.some.injEq]
    omega
  · refine iff_of_false (by simp) ?_
    rintro (rfl | rfl)
    · exact hkept (Or.inl rfl)
    · rcases h with rfl | ⟨rfl, -⟩
      · exact hkept (Or.inr rfl)
      · exact hone ⟨rfl, Int.natCast_nonneg m⟩

theorem ExpandDim.Fits.global_eq (h : d.Fits) :
    expandDim d.input.size d.request = some d.output.size := by
  rcases h.kept_or with ⟨hout, hreq⟩ | ⟨hin, hreq, hout⟩
  · rw [hout]
    exact (expandDim_eq (Or.inl rfl)).2 hreq
  · rw [hin, hout, size_whole, size_whole]
    exact (expandDim_eq (Or.inr ⟨rfl, by omega⟩)).2 (Or.inr (by omega))

theorem ExpandDim.Fits.local_iff (h : d.Fits) :
    expandDim d.input.len d.localRequest = some d.output.len ↔
      d.localRequest = -1 ∨ d.localRequest = d.output.len := by
  refine expandDim_eq ?_
  by_cases hopen : d.localRequest = -1
  · exact Or.inl (by rw [h.open_kept hopen])
  · rcases h.kept_or with ⟨hout, -⟩ | ⟨hin, -, -⟩
    · exact Or.inl (by rw [hout])
    · exact Or.inr ⟨by rw [hin, len_whole], hopen⟩

/-- The entry of the input that an entry of the output is taken from. -/
theorem ExpandDim.Fits.select (h : d.Fits) {i : ℕ} (hi : i < d.output.len) :
    select d.input.size (d.output.pos * d.output.len + i) =
      d.input.pos * d.input.len + select d.input.len i ∧ select d.input.len i < d.input.len := by
  have hpos := h.pos_lt
  rcases h.kept_or with ⟨hout, -⟩ | ⟨hin, -, -⟩
  · rw [hout] at hi ⊢
    rw [Expand.select, Expand.select, TileDim.size]
    by_cases hone : d.input.len = 1
    · rw [if_pos hone, hone]
      by_cases hcount : d.input.count = 1
      · rw [if_pos (by rw [hcount])]
        omega
      · rw [if_neg (by omega)]
        omega
    · rw [if_neg hone, if_neg fun hsize => hone (Nat.eq_one_of_mul_eq_one_left hsize)]
      exact ⟨rfl, hi⟩
  · rw [hin]
    simp [Expand.select]

theorem select_tileIndex (hds : ∀ d ∈ ds, d.Fits) {idx : List ℕ}
    (hidx : Valid (ds.map fun d => d.output.len) idx) :
    List.zipWith select (ds.map fun d => d.input.size) (tileIndex (ds.map (·.output)) idx) =
        tileIndex (ds.map (·.input)) (List.zipWith select (ds.map fun d => d.input.len) idx) ∧
      Valid (ds.map fun d => d.input.len)
        (List.zipWith select (ds.map fun d => d.input.len) idx) := by
  induction ds generalizing idx with
  | nil =>
    cases hidx
    exact ⟨rfl, .nil⟩
  | cons d ds ih =>
    cases idx with
    | nil => cases hidx
    | cons i idx =>
      obtain ⟨hi, hidx⟩ := List.forall₂_cons.1 hidx
      obtain ⟨hd, hds⟩ := List.forall_mem_cons.1 hds
      obtain ⟨hselect, hlt⟩ := hd.select hi
      obtain ⟨hrest, hvalid⟩ := ih hds hidx
      refine ⟨?_, .cons hlt hvalid⟩
      exact List.cons_eq_cons.2 ⟨hselect, hrest⟩

theorem ExpandDim.Fits.output_lt (h : d.Fits) : d.output.pos < d.output.count := by
  rcases h.kept_or with ⟨hout, -⟩ | ⟨-, -, hout⟩
  · rw [hout]
    exact h.pos_lt
  · rw [hout]
    exact Nat.one_pos

theorem valid_output (hds : ∀ d ∈ ds, d.Fits) {idx : List ℕ}
    (hidx : Valid (ds.map fun d => d.output.len) idx) :
    Valid (ds.map fun d => d.output.size) (tileIndex (ds.map (·.output)) idx) := by
  induction ds generalizing idx with
  | nil =>
    cases hidx
    exact .nil
  | cons d ds ih =>
    cases idx with
    | nil => cases hidx
    | cons i idx =>
      obtain ⟨hi, hidx⟩ := List.forall₂_cons.1 hidx
      obtain ⟨hd, hds⟩ := List.forall_mem_cons.1 hds
      exact .cons (mul_add_lt hd.output_lt hi) (ih hds hidx)

theorem mapM_eq_some_map {β γ : Type} {f : β → Option γ} {g : β → γ} {l : List β} :
    l.mapM f = some (l.map g) ↔ ∀ x ∈ l, f x = some (g x) := by
  induction l with
  | nil => exact iff_of_true rfl (by simp)
  | cons x l ih =>
    rw [List.forall_mem_cons, ← ih, List.mapM_cons, List.map_cons]
    cases f x with
    | none => simp
    | some y =>
      cases l.mapM f with
      | none => simp
      | some ys => simp

theorem tileIndex_append (news : List ℕ) {xs ys : List ℕ} {outs : List TileDim}
    (hxs : xs.length = news.length) :
    tileIndex (news.map whole ++ outs) (xs ++ ys) = xs ++ tileIndex outs ys := by
  have hwhole : tileIndex (news.map whole) xs = xs := by
    induction news generalizing xs with
    | nil =>
      obtain rfl := List.length_eq_zero_iff.1 hxs
      rfl
    | cons n news ih =>
      obtain ⟨i, xs, rfl⟩ := List.exists_cons_of_length_eq_add_one hxs
      refine List.cons_eq_cons.2 ⟨?_, ih (by simpa using hxs)⟩
      simp
  rw [tileIndex, List.zipWith_append (by simpa using hxs.symm)]
  exact congrArg (· ++ _) hwhole

theorem expandIndex_append {shape xs ys : List ℕ} (hys : ys.length = shape.length) :
    expandIndex shape (xs ++ ys) = List.zipWith select shape ys := by
  rw [expandIndex, List.length_append, hys, Nat.add_sub_cancel, List.drop_left]

theorem expandShape_eq (extent : ExpandDim → ℕ) (request : ExpandDim → ℤ) (news : List ℕ)
    (ds : List ExpandDim) :
    expandShape (ds.map extent) ((news.map fun n : ℕ => (n : ℤ)) ++ ds.map request) =
      (ds.mapM fun d => expandDim (extent d) (request d)).map (news ++ ·) := by
  have hnews : (news.map fun n : ℕ => (n : ℤ)).mapM newDim = some news := by
    have hall : (news.map fun n : ℕ => (n : ℤ)).mapM newDim =
        some ((news.map fun n : ℕ => (n : ℤ)).map Int.toNat) := by
      refine mapM_eq_some_map.2 fun s hs => ?_
      obtain ⟨n, -, rfl⟩ := List.mem_map.1 hs
      exact if_pos (Int.natCast_nonneg n)
    rw [hall, List.map_map]
    simp [Function.comp_def]
  have hcount : ((news.map fun n : ℕ => (n : ℤ)) ++ ds.map request).length -
      (ds.map extent).length = (news.map fun n : ℕ => (n : ℤ)).length := by
    simp
  rw [expandShape, if_neg (by simp)]
  simp only [hcount, List.take_left, List.drop_left, hnews, List.zip_map', List.mapM_map,
    Function.comp_def]
  cases ds.mapM fun d => expandDim (extent d) (request d) with
  | none => rfl
  | some shape => rfl

variable [Zero α] {x y : Tensor α} {news localNews : List ℕ}

/-- The expansion of a tensor. -/
theorem expand_eq (hx : x.shape = ds.map fun d => d.input.size) (hds : ∀ d ∈ ds, d.Fits) :
    expand x ((news.map fun n : ℕ => (n : ℤ)) ++ ds.map (·.request)) =
      some (Tensor.ofEntries (news ++ ds.map fun d => d.output.size) fun idx =>
        x.entry (expandIndex x.shape idx)) := by
  rw [expand, hx, expandShape_eq, mapM_eq_some_map.2 fun d hd => (hds d hd).global_eq]
  rfl

/-- The expansion of a tile is the tile of the expansion exactly when the local sizes are those of
the output tile. -/
theorem expand_tile_iff (hx : x.shape = ds.map fun d => d.input.size) (hds : ∀ d ∈ ds, d.Fits)
    (hy : expand x ((news.map fun n : ℕ => (n : ℤ)) ++ ds.map (·.request)) = some y)
    (hlength : localNews.length = news.length) :
    expand (tile (ds.map (·.input)) x)
        ((localNews.map fun n : ℕ => (n : ℤ)) ++ ds.map (·.localRequest)) =
      some (tile (news.map whole ++ ds.map (·.output)) y) ↔
    localNews = news ∧ ∀ d ∈ ds, d.localRequest = -1 ∨ d.localRequest = d.output.len := by
  have hshape : (tile (ds.map (·.input)) x).shape = ds.map fun d => d.input.len := by
    rw [tile, Tensor.shape_ofEntries, List.map_map]
    rfl
  have hout : (news.map whole ++ ds.map (·.output)).map len =
      news ++ ds.map fun d => d.output.len := by
    rw [List.map_append, List.map_map, List.map_map]
    simp [Function.comp_def]
  have hlocal : (ds.mapM fun d => expandDim d.input.len d.localRequest) =
      some (ds.map fun d => d.output.len) ↔
        ∀ d ∈ ds, d.localRequest = -1 ∨ d.localRequest = d.output.len :=
    mapM_eq_some_map.trans (forall₂_congr fun d hd => (hds d hd).local_iff)
  rw [expand, hshape, expandShape_eq, ← hlocal]
  constructor
  · intro h
    obtain ⟨shape, hlocalShape, htile⟩ := Option.map_eq_some_iff.1 h
    obtain ⟨lens, hlens, rfl⟩ := Option.map_eq_some_iff.1 hlocalShape
    have heq : localNews ++ lens = news ++ ds.map fun d => d.output.len :=
      (congrArg Tensor.shape htile).trans hout
    obtain ⟨hnews, hrest⟩ := List.append_inj heq hlength
    exact ⟨hnews, hrest ▸ hlens⟩
  · rintro ⟨rfl, hlens⟩
    rw [hlens, Option.map_some, Option.map_some]
    obtain rfl := Option.some.inj ((expand_eq hx hds).symm.trans hy)
    have htile : ∀ z : Tensor α, tile (localNews.map whole ++ ds.map (·.output)) z =
        Tensor.ofEntries (localNews ++ ds.map fun d => d.output.len) fun idx =>
          z.entry (tileIndex (localNews.map whole ++ ds.map (·.output)) idx) := by
      intro z
      rw [tile, hout]
    rw [htile]
    refine congrArg some (Tensor.ofEntries_congr fun idx hidx => ?_)
    obtain ⟨xs, ys, rfl, hxs⟩ : ∃ xs ys, idx = xs ++ ys ∧ xs.length = localNews.length := by
      refine ⟨idx.take localNews.length, idx.drop localNews.length,
        (List.take_append_drop _ _).symm, ?_⟩
      have hlen := hidx.length_eq
      rw [List.length_append] at hlen
      rw [List.length_take]
      omega
    obtain ⟨hvalidXs, hvalidYs⟩ := Valid.of_append hxs hidx
    have hys : ys.length = ds.length := by simpa using hvalidYs.length_eq
    obtain ⟨hselect, hvalid⟩ := select_tileIndex hds hvalidYs
    have hglobal := hvalidXs.append (valid_output hds hvalidYs)
    rw [expandIndex_append (by simpa using hys), tileIndex_append _ hxs,
      Tensor.entry_ofEntries _ hglobal,
      expandIndex_append (by rw [hx]; simp [tileIndex, hys]), hx, hselect, tile,
      Tensor.entry_ofEntries _ (by rwa [List.map_map])]

end Tiles

/-! ### Shards of an expansion -/

/-- A dimension with the mesh dimensions that shard it, in the input and in the output. -/
structure DimPlan where
  size : ℕ
  request : ℤ
  localRequest : ℤ
  inDims : List ℕ
  outDims : List ℕ

namespace DimPlan

/-- The extent of the output. -/
def outSize (p : DimPlan) : ℕ := if p.request = -1 then p.size else p.request.toNat

/-- The dimension on the rank at position `k`. -/
def onRank (mesh : Mesh) (k : ℕ) (p : DimPlan) : ExpandDim where
  input := tileDim mesh k p.size p.inDims
  request := p.request
  localRequest := p.localRequest
  output := tileDim mesh k p.outSize p.outDims

/-- The dimension is kept with its sharding, or an unsharded dimension of extent 1 is repeated. -/
structure Accepted (mesh : Mesh) (p : DimPlan) : Prop where
  kept_or : ((p.request = -1 ∨ p.request = p.size) ∧ p.outDims = p.inDims) ∨
    p.size = 1 ∧ 1 < p.request ∧ p.inDims = [] ∧ p.outDims = []
  lt : ∀ d ∈ p.inDims, d < mesh.shape.length
  dvd : shards mesh p.inDims ∣ p.size
  open_kept : p.localRequest = -1 → p.request = -1

end DimPlan

section Shards

variable {p : DimPlan} {ps : List DimPlan} {k : ℕ}

theorem tileDim_nil (n : ℕ) : tileDim mesh k n [] = whole n := by
  simp [tileDim, shards, whole, shardIndex, ofDigits]

namespace DimPlan.Accepted

theorem outSize_eq (h : p.Accepted mesh) :
    (p.outSize = p.size ∧ p.outDims = p.inDims) ∨
      p.size = 1 ∧ 1 < p.request ∧ p.outSize = p.request.toNat ∧ p.inDims = [] ∧
        p.outDims = [] := by
  rcases h.kept_or with ⟨hreq | hreq, hdims⟩ | ⟨hone, hlt, hin, hout⟩
  · exact Or.inl ⟨if_pos hreq, hdims⟩
  · refine Or.inl ⟨?_, hdims⟩
    rw [outSize, if_neg (by omega), hreq, Int.toNat_natCast]
  · exact Or.inr ⟨hone, hlt, if_neg (by omega), hin, hout⟩

theorem dvd_out (h : p.Accepted mesh) : shards mesh p.outDims ∣ p.outSize := by
  rcases h.outSize_eq with ⟨hsize, hdims⟩ | ⟨-, -, -, -, hout⟩
  · rw [hsize, hdims]
    exact h.dvd
  · rw [hout]
    exact one_dvd _

theorem fits (h : p.Accepted mesh) (k : ℕ) : (p.onRank mesh k).Fits where
  kept_or := by
    rcases h.outSize_eq with ⟨hsize, hdims⟩ | ⟨hone, hlt, hsize, hin, hout⟩
    · refine Or.inl ⟨by rw [onRank, hsize, hdims], ?_⟩
      rcases h.kept_or with ⟨hreq, -⟩ | ⟨hone, hlt, hin, -⟩
      · rwa [onRank, size_tileDim h.dvd]
      · rw [outSize, if_neg (by omega)] at hsize
        omega
    · refine Or.inr ⟨?_, hlt, ?_⟩
      · rw [onRank, hone, hin]
        exact tileDim_nil 1
      · rw [onRank, hsize, hout]
        exact tileDim_nil _
  pos_lt := shardIndex_lt Mesh.isCoordinate_coordinate h.lt
  open_kept := by
    intro hopen
    have hreq := h.open_kept hopen
    rcases h.outSize_eq with ⟨hsize, hdims⟩ | ⟨-, hlt, -⟩
    · rw [onRank, hsize, hdims]
    · omega

end DimPlan.Accepted

theorem size_onRank (hps : ∀ p ∈ ps, p.Accepted mesh) (k : ℕ) :
    ((ps.map (·.onRank mesh k)).map fun d => d.input.size) = ps.map (·.size) := by
  rw [List.map_map]
  exact List.map_congr_left fun p hp => size_tileDim (hps p hp).dvd

theorem fits_onRank (hps : ∀ p ∈ ps, p.Accepted mesh) (k : ℕ) :
    ∀ d ∈ ps.map (·.onRank mesh k), d.Fits := by
  intro d hd
  obtain ⟨p, hp, rfl⟩ := List.mem_map.1 hd
  exact (hps p hp).fits k

theorem request_onRank (ps : List DimPlan) (k : ℕ) :
    (ps.map (·.onRank mesh k)).map (·.request) = ps.map (·.request) := by
  rw [List.map_map]
  rfl

variable [Zero α] {layout out : Layout mesh} {x y : Tensor α} {news localNews : List ℕ}

theorem exists_expand (news : List ℕ) (hps : ∀ p ∈ ps, p.Accepted mesh) (hx : x.shape = ps.map (·.size)) :
    ∃ y, expand x ((news.map fun n : ℕ => (n : ℤ)) ++ ps.map (·.request)) = some y := by
  have hrequest : (ps.map (·.onRank mesh 0)).map (·.request) = ps.map (·.request) :=
    request_onRank ps 0
  rw [← hrequest]
  exact ⟨_, expand_eq (hx.trans (size_onRank hps 0).symm) (fits_onRank hps 0)⟩

/-- The expansion of a shard is the shard of the expansion exactly when the local sizes are those of
the output shard. -/
theorem expand_toLocal_iff (hps : ∀ p ∈ ps, p.Accepted mesh) (hin : layout.dims = ps.map (·.inDims))
    (hout : out.dims = List.replicate news.length [] ++ ps.map (·.outDims))
    (hx : x.shape = ps.map (·.size))
    (hy : expand x ((news.map fun n : ℕ => (n : ℤ)) ++ ps.map (·.request)) = some y)
    (hlength : localNews.length = news.length) (k : ℕ) :
    expand (layout.toLocal x k)
        ((localNews.map fun n : ℕ => (n : ℤ)) ++ ps.map (·.localRequest)) =
      some (out.toLocal y k) ↔
    localNews = news ∧ ∀ p ∈ ps, p.localRequest = -1 ∨
      p.localRequest = (p.outSize / shards mesh p.outDims : ℕ) := by
  have hsize := hx.trans (size_onRank hps k).symm
  have hfits := fits_onRank hps k
  have hlocal : (ps.map (·.onRank mesh k)).map (·.localRequest) = ps.map (·.localRequest) := by
    rw [List.map_map]
    rfl
  have hinput : layout.toLocal x k = tile ((ps.map (·.onRank mesh k)).map (·.input)) x := by
    have heven : layout.Even x.shape := by
      rw [layout.even_iff, hin, hx, List.forall₂_map_left_iff, List.forall₂_map_right_iff,
        List.forall₂_same]
      exact fun p hp => (hps p hp).dvd
    rw [toLocal_eq_tile heven, shardDims, hx, hin, List.zipWith_map, List.zipWith_self,
      List.map_map]
    rfl
  rw [← request_onRank ps k] at hy
  have hyshape : y.shape = news ++ ps.map (·.outSize) := by
    obtain rfl := Option.some.inj ((expand_eq hsize hfits).symm.trans hy)
    rw [Tensor.shape_ofEntries, List.map_map]
    refine congrArg (news ++ ·) (List.map_congr_left fun p hp => ?_)
    exact size_tileDim (hps p hp).dvd_out
  have houtput : out.toLocal y k =
      tile (news.map whole ++ (ps.map (·.onRank mesh k)).map (·.output)) y := by
    have heven : out.Even y.shape := by
      rw [out.even_iff, hout, hyshape]
      refine List.rel_append ?_ ?_
      · rw [List.forall₂_iff_get]
        refine ⟨by simp, fun i hi hi' => ?_⟩
        simp
      · rw [List.forall₂_map_left_iff, List.forall₂_map_right_iff, List.forall₂_same]
        exact fun p hp => (hps p hp).dvd_out
    have hnew : List.zipWith (tileDim mesh k) news (List.replicate news.length []) =
        news.map whole := by
      refine List.ext_getElem (by simp) fun i hi hi' => ?_
      simp [tileDim_nil]
    rw [toLocal_eq_tile heven, shardDims, hyshape, hout, List.zipWith_append (by simp), hnew,
      List.zipWith_map, List.zipWith_self, List.map_map]
    rfl
  rw [hinput, houtput, ← hlocal, expand_tile_iff hsize hfits hy hlength, List.forall_mem_map]
  rfl

end Shards

/-! ### What is accepted -/

section Accepted

variable {layout out : Layout mesh} {shape : List ℕ} {sizes : List ℤ}

/-- What `infer_layout` accepts of one dimension. -/
def KeptOrRepeated (n : ℕ) (size : ℤ) (entry output : AliasEntry) : Prop :=
  ((size = -1 ∨ size = n) ∧ output = entry) ∨
    n = 1 ∧ 1 < size ∧ entry = .name "None" ∧ output = .name "None"

theorem expandEntry_ok {i n : ℕ} {size : ℤ} {entry output : AliasEntry}
    (h : expandEntry i n size entry = .ok output) : KeptOrRepeated n size entry output := by
  unfold expandEntry at h
  split_ifs at h with hkept hone hnone
  · exact Or.inl ⟨hkept, (Except.ok.inj h).symm⟩
  · exact Or.inr ⟨hone.1, hone.2, not_not.1 hnone, (Except.ok.inj h).symm⟩

/-- The dimensions of an accepted call, with sizes for the local call. -/
theorem exists_plans (mesh : Mesh) {i : ℕ} {shape : List ℕ} {sizes : List ℤ}
    (localSizes : List ℤ) {entries outputs : List AliasEntry} (h : expandEntries i shape sizes entries = .ok outputs)
    (hsizes : sizes.length = shape.length) (hlocal : localSizes.length = shape.length)
    (hentries : entries.length = shape.length) :
    ∃ ps : List DimPlan, shape = ps.map (·.size) ∧ sizes = ps.map (·.request) ∧
      localSizes = ps.map (·.localRequest) ∧
      entries.map (AliasEntry.dims mesh.aliasName) = ps.map (·.inDims) ∧
      outputs.map (AliasEntry.dims mesh.aliasName) = ps.map (·.outDims) ∧
      ∀ p ∈ ps, ((p.request = -1 ∨ p.request = p.size) ∧ p.outDims = p.inDims) ∨
        p.size = 1 ∧ 1 < p.request ∧ p.inDims = [] ∧ p.outDims = [] := by
  induction shape generalizing i sizes localSizes entries outputs with
  | nil =>
    obtain rfl := List.length_eq_zero_iff.1 hsizes
    obtain rfl := List.length_eq_zero_iff.1 hlocal
    obtain rfl := List.length_eq_zero_iff.1 hentries
    obtain rfl := Except.ok.inj h
    exact ⟨[], rfl, rfl, rfl, rfl, rfl, by simp⟩
  | cons n shape ih =>
    obtain ⟨size, sizes, rfl⟩ := List.exists_cons_of_length_eq_add_one hsizes
    obtain ⟨localSize, localSizes, rfl⟩ := List.exists_cons_of_length_eq_add_one hlocal
    obtain ⟨entry, entries, rfl⟩ := List.exists_cons_of_length_eq_add_one hentries
    rw [expandEntries] at h
    obtain ⟨output, houtput, h⟩ := ExceptList.bind_eq_ok.1 h
    obtain ⟨rest, hrest, h⟩ := ExceptList.bind_eq_ok.1 h
    obtain rfl := Except.ok.inj h
    obtain ⟨ps, hshape, hsizes, hlocal, hin, hout, hall⟩ := ih _ hrest (Nat.succ.inj hsizes)
      (Nat.succ.inj hlocal) (Nat.succ.inj hentries)
    refine ⟨⟨n, size, localSize, entry.dims mesh.aliasName, output.dims mesh.aliasName⟩ :: ps,
      congrArg (n :: ·) hshape, congrArg (size :: ·) hsizes, congrArg (localSize :: ·) hlocal,
      congrArg (entry.dims mesh.aliasName :: ·) hin, congrArg (output.dims mesh.aliasName :: ·) hout,
      List.forall_mem_cons.2 ⟨?_, hall⟩⟩
    rcases expandEntry_ok houtput with ⟨hsize, rfl⟩ | ⟨hone, hlt, rfl, rfl⟩
    · exact Or.inl ⟨hsize, rfl⟩
    · exact Or.inr ⟨hone, hlt, rfl, rfl⟩

theorem outputLayout_ok {outputMap : List AliasEntry} (h : outputLayout mesh outputMap = .ok out) :
    out.dims = outputMap.map (AliasEntry.dims mesh.aliasName) := by
  rw [outputLayout] at h
  cases hcall : Layout.call mesh outputMap with
  | error e =>
    rw [hcall] at h
    cases h
  | ok layout =>
    rw [hcall] at h
    obtain rfl := Except.ok.inj h
    rw [Layout.dims, (Layout.call_ok hcall).1]

theorem accepted_of_plans {ps : List DimPlan} (heven : layout.Even shape)
    (hshape : shape = ps.map (·.size)) (hin : layout.dims = ps.map (·.inDims))
    (hkept : ∀ p ∈ ps, ((p.request = -1 ∨ p.request = p.size) ∧ p.outDims = p.inDims) ∨
      p.size = 1 ∧ 1 < p.request ∧ p.inDims = [] ∧ p.outDims = [])
    (hopen : ∀ p ∈ ps, p.localRequest = -1 → p.request = -1) : ∀ p ∈ ps, p.Accepted mesh := by
  intro p hp
  have hdvd := layout.even_iff.1 heven
  rw [hin, hshape, List.forall₂_map_left_iff, List.forall₂_map_right_iff, List.forall₂_same] at hdvd
  refine ⟨hkept p hp, fun d hd => ?_, hdvd p hp, hopen p hp⟩
  have hmem : p.inDims ∈ layout.dims := hin ▸ List.mem_map_of_mem hp
  obtain ⟨a, ha, heq⟩ := List.getElem_of_mem hmem
  exact layout.lt_of_mem_dims (a := a) (by rwa [List.getD_eq_getElem _ _ ha, heq])

/-- The dimensions of an accepted expansion. -/
theorem plans_of_inferLayout (h : inferLayout layout shape sizes = .ok out)
    (heven : layout.Even shape) :
    shape.length ≤ sizes.length ∧ ∃ ps : List DimPlan, (∀ p ∈ ps, p.Accepted mesh) ∧
      shape = ps.map (·.size) ∧ sizes.drop (sizes.length - shape.length) = ps.map (·.request) ∧
      (∀ p ∈ ps, p.localRequest = p.request) ∧ layout.dims = ps.map (·.inDims) ∧
      out.dims = List.replicate (sizes.length - shape.length) [] ++ ps.map (·.outDims) := by
  unfold inferLayout at h
  dsimp only at h
  split_ifs at h with hpartial hempty hlength hfewer
  have hlength : layout.aliasTensorMap.length = shape.length := (not_not.1 hlength).symm
  have hle : shape.length ≤ sizes.length := hlength ▸ not_lt.1 hfewer
  simp only [hlength] at h
  cases hfind : (sizes.take (sizes.length - shape.length)).findIdx? (· = -1) with
  | some i =>
    rw [hfind] at h
    cases h
  | none =>
    rw [hfind] at h
    obtain ⟨outputs, houtputs, h⟩ := ExceptList.bind_eq_ok.1 h
    have hdrop : (sizes.drop (sizes.length - shape.length)).length = shape.length := by
      rw [List.length_drop]
      omega
    obtain ⟨ps, hshape, hsizes, hlocal, hin, hout, hkept⟩ :=
      exists_plans mesh _ houtputs hdrop hdrop hlength
    have hsame : ∀ p ∈ ps, p.localRequest = p.request :=
      List.map_inj_left.1 (hlocal.symm.trans hsizes)
    refine ⟨hle, ps, accepted_of_plans heven hshape hin hkept fun p hp => ?_, hshape, hsizes, hsame,
      hin, ?_⟩
    · rw [hsame p hp]
      exact id
    · rw [outputLayout_ok h, List.map_append, List.map_replicate, hout]
      rfl

/-- New sizes that are accepted are not negative. -/
theorem news_of_expandShape (h : (expandShape shape sizes).isSome) :
    ∃ news : List ℕ, sizes.take (sizes.length - shape.length) = news.map fun n : ℕ => (n : ℤ) := by
  obtain ⟨result, hresult⟩ := Option.isSome_iff_exists.1 h
  rw [expandShape] at hresult
  split_ifs at hresult with hlength
  obtain ⟨news, hnews, -⟩ := Option.bind_eq_some_iff.1 hresult
  refine ⟨(sizes.take (sizes.length - shape.length)).map Int.toNat, ?_⟩
  have hpos : ∀ s ∈ sizes.take (sizes.length - shape.length), 0 ≤ s := by
    generalize sizes.take (sizes.length - shape.length) = l at hnews
    induction l generalizing news with
    | nil => simp
    | cons s l ih =>
      rw [List.mapM_cons] at hnews
      obtain ⟨n, hn, hnews⟩ := Option.bind_eq_some_iff.1 hnews
      obtain ⟨rest, hrest, -⟩ := Option.bind_eq_some_iff.1 hnews
      refine List.forall_mem_cons.2 ⟨?_, ih _ hrest⟩
      rw [newDim] at hn
      split_ifs at hn with hs
      exact hs
  have hcast : ∀ s ∈ sizes.take (sizes.length - shape.length),
      ((fun n : ℕ => (n : ℤ)) ∘ Int.toNat) s = s := fun s hs => Int.toNat_of_nonneg (hpos s hs)
  rw [List.map_map, List.map_congr_left hcast, List.map_id']

end Accepted

/-! ### Expand -/

section Expand

variable {layout out : Layout mesh} {shape : List ℕ} {sizes : List ℤ}

/-- The local calls with the sizes of the global call give the shards of the global expansion. -/
def Correct (α : Type) [Zero α] (layout out : Layout mesh) (shape : List ℕ) (sizes : List ℤ) :
    Prop :=
  ∀ x y : Tensor α, x.shape = shape → expand x sizes = some y →
    ∀ k < mesh.shape.prod, expand (layout.toLocal x k) sizes = some (out.toLocal y k)

/-- A dimension whose size is given explicitly, and not to be repeated, has its whole extent on every
rank. -/
def WholeDims (layout : Layout mesh) (shape : List ℕ) (sizes : List ℤ) : Prop :=
  ∀ a < shape.length, sizes[sizes.length - shape.length + a]? = some (shape.getD a 0 : ℤ) →
    shape.getD a 0 / shards mesh (layout.dims.getD a []) = shape.getD a 0

theorem DimPlan.Accepted.whole_iff {p : DimPlan} (h : p.Accepted mesh)
    (hsame : p.localRequest = p.request) :
    (p.localRequest = -1 ∨ p.localRequest = (p.outSize / shards mesh p.outDims : ℕ)) ↔
      (p.request = p.size → p.size / shards mesh p.inDims = p.size) := by
  rw [hsame]
  rcases h.outSize_eq with ⟨hsize, hdims⟩ | ⟨hone, hlt, hsize, -, hout⟩
  · rw [hsize, hdims]
    constructor
    · rintro (hopen | hreq) heq
      · omega
      · exact_mod_cast hreq.symm.trans heq
    · intro hwhole
      rcases h.kept_or with ⟨hopen | hreq, -⟩ | ⟨hone, hlt, -, -⟩
      · exact Or.inl hopen
      · exact Or.inr (by rw [hwhole hreq, hreq])
      · rw [outSize, if_neg (by omega)] at hsize
        omega
  · have hshards : shards mesh p.outDims = 1 := by
      rw [hout]
      rfl
    rw [hsize, hshards, Nat.div_one]
    refine iff_of_true (Or.inr (by omega)) fun heq => ?_
    omega

theorem wholeDims_iff {ps : List DimPlan} (hps : ∀ p ∈ ps, p.Accepted mesh)
    (hshape : shape = ps.map (·.size))
    (hsizes : sizes.drop (sizes.length - shape.length) = ps.map (·.request))
    (hsame : ∀ p ∈ ps, p.localRequest = p.request) (hin : layout.dims = ps.map (·.inDims)) :
    WholeDims layout shape sizes ↔ ∀ p ∈ ps, p.localRequest = -1 ∨
      p.localRequest = (p.outSize / shards mesh p.outDims : ℕ) := by
  rw [forall₂_congr fun p hp => (hps p hp).whole_iff (hsame p hp),
    List.forall_mem_iff_forall_getElem, WholeDims, hin]
  have hlength : shape.length = ps.length := by rw [hshape, List.length_map]
  refine forall_congr' fun a => ?_
  rw [hlength]
  refine forall_congr' fun ha => ?_
  have hrequest : sizes[sizes.length - shape.length + a]? = some ps[a].request := by
    rw [← List.getElem?_drop, hsizes, List.getElem?_map, List.getElem?_eq_getElem ha]
    rfl
  have hsize : shape.getD a 0 = ps[a].size := by
    rw [hshape, List.getD_eq_getElem _ _ (by simpa using ha), List.getElem_map]
  have hdims : (ps.map (·.inDims)).getD a [] = ps[a].inDims := by
    rw [List.getD_eq_getElem _ _ (by simpa using ha), List.getElem_map]
  rw [← hlength, hrequest, hsize, hdims, Option.some.injEq]

/-- An accepted expansion is right exactly when every dimension with an explicit size that is not
repeated is whole on every rank. -/
theorem expand_correct_iff (α : Type) [Zero α] (heven : layout.Even shape)
    (hglobal : (expandShape shape sizes).isSome) (h : inferLayout layout shape sizes = .ok out) :
    Correct α layout out shape sizes ↔ WholeDims layout shape sizes := by
  obtain ⟨hle, ps, hps, hshape, hsizes, hsame, hin, hout⟩ := plans_of_inferLayout h heven
  obtain ⟨news, hnews⟩ := news_of_expandShape hglobal
  have hlength : sizes.length - shape.length = news.length := by
    have := congrArg List.length hnews
    rw [List.length_take, List.length_map] at this
    omega
  have hglobalSizes : sizes = (news.map fun n : ℕ => (n : ℤ)) ++ ps.map (·.request) := by
    rw [← hnews, ← hsizes, List.take_append_drop]
  have hlocalSizes : sizes = (news.map fun n : ℕ => (n : ℤ)) ++ ps.map (·.localRequest) :=
    hglobalSizes.trans (congrArg _ (List.map_congr_left fun p hp => (hsame p hp).symm))
  have hiff : ∀ (x y : Tensor α) (k : ℕ), x.shape = shape → expand x sizes = some y →
      (expand (layout.toLocal x k) sizes = some (out.toLocal y k) ↔
        WholeDims layout shape sizes) := by
    intro x y k hx hy
    have hlocal := expand_toLocal_iff hps hin (hlength ▸ hout) (hx.trans hshape)
      (hglobalSizes ▸ hy) rfl k
    rw [← hlocalSizes] at hlocal
    rw [hlocal, wholeDims_iff hps hshape hsizes hsame hin, and_iff_right rfl]
  constructor
  · intro hcorrect
    obtain ⟨result, hresult⟩ := Option.isSome_iff_exists.1 hglobal
    let x : Tensor α := Tensor.ofEntries shape fun _ => 0
    have hy : expand x sizes = some (Tensor.ofEntries result fun idx =>
        x.entry (expandIndex x.shape idx)) := congrArg (Option.map _) hresult
    exact (hiff x _ 0 rfl hy).1 (hcorrect x _ rfl hy 0 (List.prod_pos mesh.shape_pos))
  · intro hwhole x y hx hy k _
    exact (hiff x y k hx hy).2 hwhole

end Expand

/-! ### Expand as -/

section ExpandAs

variable {layout targetLayout out : Layout mesh} {shape target localTarget : List ℕ}

/-- `x.expand_as(t)` -/
def expandAs [Zero α] (x t : Tensor α) : Option (Tensor α) :=
  expand x (t.shape.map fun n : ℕ => (n : ℤ))

/-- The local calls with the shards of the target give the shards of the global expansion. -/
def CorrectAs (α : Type) [Zero α] (layout targetLayout out : Layout mesh)
    (shape target : List ℕ) : Prop :=
  ∀ x t y : Tensor α, x.shape = shape → t.shape = target → expandAs x t = some y →
    ∀ k < mesh.shape.prod,
      expandAs (layout.toLocal x k) (targetLayout.toLocal t k) = some (out.toLocal y k)

/-- The shard of the target has the extents of the output shard: the whole extent of a new or
repeated dimension, that of the input shard elsewhere. -/
structure TargetFits (layout : Layout mesh) (shape target localTarget : List ℕ) : Prop where
  new : localTarget.take (target.length - shape.length) =
    target.take (target.length - shape.length)
  old : ∀ a < shape.length, localTarget.getD (target.length - shape.length + a) 0 =
    if target.getD (target.length - shape.length + a) 0 = shape.getD a 0 then
      shape.getD a 0 / shards mesh (layout.dims.getD a [])
    else target.getD (target.length - shape.length + a) 0

theorem plans_of_inferLayoutAs (h : inferLayoutAs layout shape target = .ok out)
    (heven : layout.Even shape) (hlocal : localTarget.length = target.length) :
    shape.length ≤ target.length ∧ ∃ ps : List DimPlan, (∀ p ∈ ps, p.Accepted mesh) ∧
      shape = ps.map (·.size) ∧
      (target.drop (target.length - shape.length)).map (fun n : ℕ => (n : ℤ)) =
        ps.map (·.request) ∧
      (localTarget.drop (target.length - shape.length)).map (fun n : ℕ => (n : ℤ)) =
        ps.map (·.localRequest) ∧ layout.dims = ps.map (·.inDims) ∧
      out.dims = List.replicate (target.length - shape.length) [] ++ ps.map (·.outDims) := by
  unfold inferLayoutAs at h
  dsimp only at h
  split_ifs at h with hpartial hfewer
  have hlength : layout.aliasTensorMap.length = shape.length := by
    rw [← heven.length_eq, Layout.dims, List.length_map]
  rw [hlength] at h hfewer
  have hle : shape.length ≤ target.length := not_lt.1 hfewer
  obtain ⟨outputs, houtputs, hcall⟩ := ExceptList.bind_eq_ok.1 h
  set num := target.length - shape.length with hnum
  have haligned : (List.replicate num 1 ++ shape).length = target.length := by
    rw [List.length_append, List.length_replicate]
    omega
  obtain ⟨ps, hshape, hsizes, hlocals, hin, hout, hkept⟩ :=
    exists_plans mesh (localTarget.map fun n : ℕ => (n : ℤ)) houtputs
      (by rw [haligned, List.length_map]) (by rw [haligned, List.length_map, hlocal])
      (by rw [haligned, List.length_append, List.length_replicate, hlength]; omega)
  have hcount : ps.length = target.length := by
    rw [← haligned, hshape, List.length_map]
  have hshape' : shape = (ps.drop num).map (·.size) := by
    rw [List.map_drop, ← hshape, List.drop_left' (by simp)]
  have hin' : layout.dims = (ps.drop num).map (·.inDims) := by
    rw [List.map_drop, ← hin, List.map_append, List.drop_left' (by simp), Layout.dims]
  have hkept' := fun p (hp : p ∈ ps.drop num) => hkept p (List.mem_of_mem_drop hp)
  have hcast : ∀ p ∈ ps, p.localRequest ≠ -1 := by
    intro p hp hopen
    have hmem : p.localRequest ∈ localTarget.map fun n : ℕ => (n : ℤ) :=
      hlocals ▸ List.mem_map_of_mem hp
    obtain ⟨n, -, hn⟩ := List.mem_map.1 hmem
    omega
  refine ⟨hle, ps.drop num, accepted_of_plans heven hshape' hin' hkept' fun p hp hopen =>
    absurd hopen (hcast p (List.mem_of_mem_drop hp)), hshape', ?_, ?_, hin', ?_⟩
  · rw [List.map_drop, List.map_drop, hsizes]
  · rw [List.map_drop, List.map_drop, hlocals]
  · have hnew : (ps.take num).map (·.outDims) = List.replicate num [] := by
      refine List.eq_replicate_iff.2 ⟨by simp [hcount, hnum], fun ds hds => ?_⟩
      obtain ⟨p, hp, rfl⟩ := List.mem_map.1 hds
      have hinNew : p.inDims = [] := by
        have hmem : p.inDims ∈ (ps.take num).map (·.inDims) := List.mem_map_of_mem hp
        rw [List.map_take, ← hin, List.map_append, List.take_left' (by simp), List.map_replicate] at hmem
        exact List.eq_of_mem_replicate hmem
      rcases hkept p (List.mem_of_mem_take hp) with ⟨-, heq⟩ | ⟨-, -, -, heq⟩
      · rw [heq, hinNew]
      · exact heq
    rw [outputLayout_ok hcall, hout, ← hnew, ← List.map_append, List.take_append_drop]

theorem DimPlan.Accepted.target_iff {p : DimPlan} (h : p.Accepted mesh) {size localSize : ℕ}
    (hrequest : p.request = size) (hlocal : p.localRequest = localSize) :
    (p.localRequest = -1 ∨ p.localRequest = (p.outSize / shards mesh p.outDims : ℕ)) ↔
      localSize = if size = p.size then p.size / shards mesh p.inDims else size := by
  have hout : p.outSize / shards mesh p.outDims =
      if size = p.size then p.size / shards mesh p.inDims else size := by
    have hsizeOut : p.outSize = size := by
      rw [outSize, if_neg (by omega), hrequest, Int.toNat_natCast]
    rcases h.outSize_eq with ⟨hsize, hdims⟩ | ⟨hone, hlt, hsize, -, hdims⟩
    · rw [if_pos (hsizeOut.symm.trans hsize), hsize, hdims]
    · have hshards : shards mesh p.outDims = 1 := by
        rw [hdims]
        rfl
      rw [if_neg (by omega), hsizeOut, hshards, Nat.div_one]
  rw [hout, hlocal]
  omega

/-- With the extents of a target shard the expansion of a shard is a shard of the expansion exactly
when they fit. -/
theorem expandAs_toLocal_iff [Zero α] {x y : Tensor α}
    (h : inferLayoutAs layout shape target = .ok out) (heven : layout.Even shape)
    (hlocal : localTarget.length = target.length) (hx : x.shape = shape)
    (hy : expand x (target.map fun n : ℕ => (n : ℤ)) = some y) (k : ℕ) :
    expand (layout.toLocal x k) (localTarget.map fun n : ℕ => (n : ℤ)) = some (out.toLocal y k) ↔
      TargetFits layout shape target localTarget := by
  obtain ⟨hle, ps, hps, hshape, hsizes, hlocals, hin, hout⟩ :=
    plans_of_inferLayoutAs h heven hlocal
  have hsplit : ∀ l : List ℕ, l.map (fun n : ℕ => (n : ℤ)) =
      ((l.take (target.length - shape.length)).map fun n : ℕ => (n : ℤ)) ++
        (l.drop (target.length - shape.length)).map fun n : ℕ => (n : ℤ) := by
    intro l
    rw [← List.map_append, List.take_append_drop]
  have hcount : (target.take (target.length - shape.length)).length =
      target.length - shape.length := by
    rw [List.length_take]
    omega
  rw [hsplit, hsizes] at hy
  rw [hsplit, hlocals, expand_toLocal_iff hps hin (hcount.symm ▸ hout) (hx.trans hshape) hy
    (by rw [hcount, List.length_take]; omega) k]
  have hold : (∀ p ∈ ps, p.localRequest = -1 ∨
      p.localRequest = (p.outSize / shards mesh p.outDims : ℕ)) ↔
        ∀ a < shape.length, localTarget.getD (target.length - shape.length + a) 0 =
          if target.getD (target.length - shape.length + a) 0 = shape.getD a 0 then
            shape.getD a 0 / shards mesh (layout.dims.getD a [])
          else target.getD (target.length - shape.length + a) 0 := by
    have hlength : shape.length = ps.length := by rw [hshape, List.length_map]
    have hget : ∀ l : List ℕ, ∀ a < (l.drop (target.length - shape.length)).length,
        ((l.drop (target.length - shape.length)).map fun n : ℕ => (n : ℤ))[a]? =
          some (l.getD (target.length - shape.length + a) 0 : ℤ) := by
      intro l a ha
      rw [List.getElem?_map, List.getElem?_eq_getElem ha, List.getElem_drop,
        List.getD_eq_getElem]
      rfl
    rw [List.forall_mem_iff_forall_getElem, hlength, hin]
    refine forall_congr' fun a => forall_congr' fun ha => ?_
    have hdrop : ∀ l : List ℕ, l.length = target.length →
        a < (l.drop (target.length - shape.length)).length := by
      intro l hl
      rw [List.length_drop, hl]
      omega
    have hrequest := hget target a (hdrop target rfl)
    have hrequestLocal := hget localTarget a (hdrop localTarget hlocal)
    rw [hsizes, List.getElem?_map, List.getElem?_eq_getElem ha] at hrequest
    rw [hlocals, List.getElem?_map, List.getElem?_eq_getElem ha] at hrequestLocal
    have hsize : shape.getD a 0 = ps[a].size := by
      rw [hshape, List.getD_eq_getElem _ _ (by simpa using ha), List.getElem_map]
    have hdims : (ps.map (·.inDims)).getD a [] = ps[a].inDims := by
      rw [List.getD_eq_getElem _ _ (by simpa using ha), List.getElem_map]
    rw [← hlength, hsize, hdims]
    exact (hps _ (List.getElem_mem ha)).target_iff (Option.some.inj hrequest)
      (Option.some.inj hrequestLocal)
  rw [hold]
  exact ⟨fun hfits => ⟨hfits.1, hfits.2⟩, fun hfits => ⟨hfits.new, hfits.old⟩⟩

/-- An accepted expansion is right exactly when the shards of the target fit on every rank. -/
theorem expandAs_correct_iff (α : Type) [Zero α] (heven : layout.Even shape)
    (htarget : targetLayout.dims.length = target.length)
    (h : inferLayoutAs layout shape target = .ok out) :
    CorrectAs α layout targetLayout out shape target ↔ ∀ k < mesh.shape.prod,
      TargetFits layout shape target (areaShape (targetLayout.area target k)) := by
  have hlocal : ∀ k, (areaShape (targetLayout.area target k)).length = target.length := fun k => by
    rw [areaShape, List.length_map, targetLayout.length_area htarget]
  have hiff : ∀ (x t y : Tensor α) (k : ℕ), x.shape = shape → t.shape = target →
      expandAs x t = some y →
      (expandAs (layout.toLocal x k) (targetLayout.toLocal t k) = some (out.toLocal y k) ↔
        TargetFits layout shape target (areaShape (targetLayout.area target k))) := by
    intro x t y k hx ht hy
    rw [expandAs, ht] at hy
    have hshape : (targetLayout.toLocal t k).shape = areaShape (targetLayout.area target k) := by
      rw [Layout.toLocal, Tensor.shape_ofEntries, ht]
    rw [expandAs, hshape]
    exact expandAs_toLocal_iff h heven (hlocal k) hx hy k
  obtain ⟨hle, ps, hps, hsizes, hrequest, -⟩ := plans_of_inferLayoutAs h heven (hlocal 0)
  let x : Tensor α := Tensor.ofEntries shape fun _ => 0
  let t : Tensor α := Tensor.ofEntries target fun _ => 0
  obtain ⟨y, hy⟩ : ∃ y, expandAs x t = some y := by
    obtain ⟨y, hy⟩ := exists_expand (x := x) (target.take (target.length - shape.length)) hps hsizes
    rw [← hrequest, ← List.map_append, List.take_append_drop] at hy
    exact ⟨y, hy⟩
  constructor
  · intro hcorrect k hk
    exact (hiff x t y k rfl rfl hy).1 (hcorrect x t y rfl rfl hy k hk)
  · intro hfits x t y hx ht hy k hk
    exact (hiff x t y k hx ht hy).2 (hfits k hk)

end ExpandAs

/-- When the two operators are right on an evenly sharded input. -/
theorem expansions_correct_iff (α : Type) [Zero α] {layout : Layout mesh} {shape : List ℕ}
    (heven : layout.Even shape) :
    (∀ (out : Layout mesh) (sizes : List ℤ), (expandShape shape sizes).isSome →
      inferLayout layout shape sizes = .ok out →
      (Correct α layout out shape sizes ↔ WholeDims layout shape sizes)) ∧
    ∀ (targetLayout out : Layout mesh) (target : List ℕ),
      targetLayout.dims.length = target.length → inferLayoutAs layout shape target = .ok out →
      (CorrectAs α layout targetLayout out shape target ↔ ∀ k < mesh.shape.prod,
        TargetFits layout shape target (areaShape (targetLayout.area target k))) :=
  ⟨fun _ _ hglobal h => expand_correct_iff α heven hglobal h,
    fun _ _ _ htarget h => expandAs_correct_iff α heven htarget h⟩

section Vectors

open IndexSelect (meshTwoTwo rowsOverOne wholeRows)

theorem even_rowsOverOne : rowsOverOne.Even [2] := .cons (by decide) .nil

theorem even_wholeRows (n : ℕ) : wholeRows.Even [n] := .cons (one_dvd _) .nil

theorem expansions_correct_iff_vector : ∃ out outAs,
    inferLayout rowsOverOne [2] [-1] = .ok out ∧
    (Correct ℤ rowsOverOne out [2] [-1] ↔ WholeDims rowsOverOne [2] [-1]) ∧
    inferLayoutAs rowsOverOne [2] [2] = .ok outAs ∧
    (CorrectAs ℤ rowsOverOne rowsOverOne outAs [2] [2] ↔ ∀ k < meshTwoTwo.shape.prod,
      TargetFits rowsOverOne [2] [2] (areaShape (rowsOverOne.area [2] k))) := by
  obtain ⟨hexpand, hexpandAs⟩ := expansions_correct_iff ℤ even_rowsOverOne
  have haccept : (inferLayout rowsOverOne [2] [-1]).isOk = true := by decide
  have hacceptAs : (inferLayoutAs rowsOverOne [2] [2]).isOk = true := by decide
  cases h : inferLayout rowsOverOne [2] [-1] with
  | error e =>
    rw [h] at haccept
    cases haccept
  | ok out =>
    cases hAs : inferLayoutAs rowsOverOne [2] [2] with
    | error e =>
      rw [hAs] at hacceptAs
      cases hacceptAs
    | ok outAs =>
      exact ⟨out, outAs, rfl, hexpand out [-1] (by decide) h, rfl,
        hexpandAs rowsOverOne outAs [2] rfl hAs⟩

/-- Shards of one element are repeated where the size is given; and where the target is sharded, too
few elements are. -/
theorem not_correct_vector : (∃ out, inferLayout rowsOverOne [2] [2] = .ok out ∧
      ¬ Correct ℤ rowsOverOne out [2] [2]) ∧
    ∃ out, inferLayoutAs wholeRows [1] [2] = .ok out ∧
      ¬ CorrectAs ℤ wholeRows rowsOverOne out [1] [2] := by
  have haccept : (inferLayout rowsOverOne [2] [2]).isOk = true := by decide
  have hacceptAs : (inferLayoutAs wholeRows [1] [2]).isOk = true := by decide
  constructor
  · cases h : inferLayout rowsOverOne [2] [2] with
    | error e =>
      rw [h] at haccept
      cases haccept
    | ok out =>
      refine ⟨out, rfl, fun hcorrect => ?_⟩
      have hwhole := (expand_correct_iff ℤ even_rowsOverOne (by decide) h).1 hcorrect
      exact absurd (hwhole 0 (by decide) rfl) (by decide)
  · cases h : inferLayoutAs wholeRows [1] [2] with
    | error e =>
      rw [h] at hacceptAs
      cases hacceptAs
    | ok out =>
      refine ⟨out, rfl, fun hcorrect => ?_⟩
      have hfits := (expandAs_correct_iff ℤ (even_wholeRows 1) rfl h).1 hcorrect 0 (by decide)
      exact absurd (hfits.old 0 (by decide)) (by decide)

end Vectors

end HyperParallel.DTensor.Expand
