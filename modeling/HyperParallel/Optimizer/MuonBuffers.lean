import HyperParallel.Optimizer.MuonShard
import Mathlib.Algebra.Order.BigOperators.Group.List
import Mathlib.Tactic.Ring

/-!
# One stage of the gather

* `packed_slices`: every input stands in the packed buffer at its offset, whatever the buffer held;
* `prod_le_maxShape`: every shape of a group fits into the padded one;
* `gatherStage_eq`: a stage puts the tensors of a group together along its axis.
-/

open MixedRadix
open HyperParallel.DTensor

namespace HyperParallel.Optimizer

variable {α : Type} [Zero α]

/-! ### Buffers -/

section Buffers

omit [Zero α] in
theorem length_write {buffer data : List α} {offset : ℕ}
    (h : offset + data.length ≤ buffer.length) :
    (write buffer data offset).length = buffer.length := by
  rw [write, List.length_append, List.length_append, List.length_take, List.length_drop]
  omega

omit [Zero α] in
theorem take_write {buffer data : List α} {offset : ℕ} (h : offset ≤ buffer.length) :
    (write buffer data offset).take offset = buffer.take offset := by
  rw [write, List.append_assoc, List.take_append_of_le_length (by simp [h]), List.take_take,
    Nat.min_self]

omit [Zero α] in
theorem slice_write {buffer data : List α} {offset : ℕ} (h : offset ≤ buffer.length) :
    ((write buffer data offset).drop offset).take data.length = data := by
  have hlength : (buffer.take offset).length = offset := by
    rw [List.length_take, Nat.min_eq_left h]
  rw [write, List.append_assoc, List.drop_append_of_le_length (by rw [hlength]),
    List.drop_of_length_le (by rw [hlength]), List.nil_append, List.take_left']
  rfl

/-- The padded size of a parameter in the buffers. -/
def paddedNumel (alignment tensorDim : ℕ) (stage : StageMeta) : ℕ :=
  ((swapFront tensorDim stage.padShape).prod + alignment - 1) / alignment * alignment

variable {alignment tensorDim : ℕ}

theorem le_prepareGatherInputs (total : ℕ) (l : List (Tensor α × StageMeta)) :
    total ≤ (prepareGatherInputs alignment tensorDim total l).2 := by
  induction l generalizing total with
  | nil => exact le_refl total
  | cons e l ih => exact (Nat.le_add_right _ _).trans (ih _)

/-- Every input is found in the packed buffer, at its offset. -/
theorem packed_slices {l : List (Tensor α × StageMeta)}
    (hfit : ∀ e ∈ l, (e.1.moveFront tensorDim).shape.prod ≤ paddedNumel alignment tensorDim e.2)
    (total : ℕ) (buffer : List α)
    (hlength : (prepareGatherInputs alignment tensorDim total l).2 ≤ buffer.length) :
    ((prepareGatherInputs alignment tensorDim total l).1.foldl
        (fun buffer input => write buffer input.1.data input.2.offset) buffer).take total =
        buffer.take total ∧
      ∀ input ∈ (prepareGatherInputs alignment tensorDim total l).1,
        (((prepareGatherInputs alignment tensorDim total l).1.foldl
          (fun buffer input => write buffer input.1.data input.2.offset) buffer).drop
            input.2.offset).take input.1.shape.prod = input.1.data := by
  induction l generalizing total buffer with
  | nil => exact ⟨rfl, fun input hinput => by cases hinput⟩
  | cons e l ih =>
    obtain ⟨tensor, stage⟩ := e
    have hpadded := hfit (tensor, stage) List.mem_cons_self
    have hfit' : ∀ e ∈ l, (e.1.moveFront tensorDim).shape.prod ≤
        paddedNumel alignment tensorDim e.2 := fun e he => hfit e (List.mem_cons_of_mem _ he)
    have hnext : (prepareGatherInputs alignment tensorDim total ((tensor, stage) :: l)).2 =
        (prepareGatherInputs alignment tensorDim
          (total + paddedNumel alignment tensorDim stage) l).2 := rfl
    have hrest : total + paddedNumel alignment tensorDim stage ≤
        (prepareGatherInputs alignment tensorDim
          (total + paddedNumel alignment tensorDim stage) l).2 := le_prepareGatherInputs _ l
    rw [hnext] at hlength
    have hdata : (tensor.moveFront tensorDim).data.length ≤
        paddedNumel alignment tensorDim stage := by
      rwa [Tensor.length_data]
    have htotal : total ≤ buffer.length := by omega
    obtain ⟨hbefore, hslices⟩ := ih hfit' (total + paddedNumel alignment tensorDim stage)
      (write buffer (tensor.moveFront tensorDim).data total)
      (by rw [length_write (by omega)]; exact hlength)
    refine ⟨?_, ?_⟩
    · show (((prepareGatherInputs alignment tensorDim
          (total + paddedNumel alignment tensorDim stage) l).1.foldl _
            (write buffer (tensor.moveFront tensorDim).data total)).take total) = _
      have htake := congrArg (List.take total) hbefore
      rw [List.take_take, List.take_take, Nat.min_eq_left (Nat.le_add_right _ _)] at htake
      rw [htake, take_write htotal]
    · intro input hinput
      rcases List.mem_cons.1 hinput with rfl | hinput
      · show ((((prepareGatherInputs alignment tensorDim
          (total + paddedNumel alignment tensorDim stage) l).1.foldl _
            (write buffer (tensor.moveFront tensorDim).data total)).drop total).take
              (tensor.moveFront tensorDim).shape.prod) = (tensor.moveFront tensorDim).data
        have hslice := congrArg (fun l => (l.drop total).take
          (tensor.moveFront tensorDim).shape.prod) hbefore
        simp only [List.drop_take, List.take_take, Nat.add_sub_cancel_left,
          Nat.min_eq_left hpadded] at hslice
        rw [hslice, ← Tensor.length_data, slice_write htotal]
      · exact hslices input hinput

/-- What is prepared for one parameter. -/
theorem getElem?_prepareGatherInputs {l : List (Tensor α × StageMeta)} {i : ℕ}
    {e : Tensor α × StageMeta} (h : l[i]? = some e) (total : ℕ) :
    (prepareGatherInputs alignment tensorDim total l).1[i]? = some (e.1.moveFront tensorDim,
      ⟨total + ((l.take i).map fun e => paddedNumel alignment tensorDim e.2).sum,
        (e.1.moveFront tensorDim).shape.prod, paddedNumel alignment tensorDim e.2,
        (e.1.moveFront tensorDim).shape.tail, e.2.splitSizes⟩) := by
  induction l generalizing i total with
  | nil => cases h
  | cons e' l ih =>
    cases i with
    | zero =>
      obtain rfl : e' = e := by simpa using h
      rfl
    | succ i =>
      have hi := ih (by simpa using h) (total + paddedNumel alignment tensorDim e'.2)
      rw [Nat.add_assoc] at hi
      rw [List.take_succ_cons, List.map_cons, List.sum_cons]
      exact hi

theorem length_prepareGatherInputs (l : List (Tensor α × StageMeta)) (total : ℕ) :
    (prepareGatherInputs alignment tensorDim total l).1.length = l.length := by
  induction l generalizing total with
  | nil => rfl
  | cons e l ih => exact congrArg (· + 1) (ih _)

omit [Zero α] in
theorem mapM_of_getElem? {β γ : Type} {f : β → Option γ} {l : List β} {m : List γ}
    (hlength : l.length = m.length)
    (h : ∀ (i : ℕ) x, l[i]? = some x → ∃ y, m[i]? = some y ∧ f x = some y) :
    l.mapM f = some m := by
  induction l generalizing m with
  | nil =>
    cases m with
    | nil => rfl
    | cons y m => simp at hlength
  | cons x l ih =>
    cases m with
    | nil => simp at hlength
    | cons y m =>
      obtain ⟨y', hy', hf⟩ := h 0 x rfl
      obtain rfl : y = y' := by simpa using hy'
      have hrest := ih (by simpa using hlength) fun i x hx => h (i + 1) x (by simpa using hx)
      rw [List.mapM_cons, hf, hrest]
      rfl

end Buffers

/-! ### Padding -/

section Padding

theorem le_foldl_max {l : List ℕ} {x : ℕ} (hx : x ∈ l) (first : ℕ) : x ≤ l.foldl max first := by
  have hle : ∀ (l : List ℕ) (first : ℕ), first ≤ l.foldl max first := by
    intro l
    induction l with
    | nil => exact fun first => le_refl first
    | cons y l ih => exact fun first => (le_max_left first y).trans (ih _)
  induction l generalizing first with
  | nil => cases hx
  | cons y l ih =>
    rcases List.mem_cons.1 hx with rfl | hx
    · exact (le_max_right first x).trans (hle l _)
    · exact ih hx _

theorem length_maxShape {rankShapes : List (List ℕ)} {n : ℕ}
    (hlength : ∀ shape ∈ rankShapes, shape.length = n) {shape : List ℕ}
    (hshape : shape ∈ rankShapes) : (maxShape rankShapes).length = n := by
  rw [maxShape, List.length_map, List.length_range]
  cases rankShapes with
  | nil => cases hshape
  | cons first rest => exact hlength first List.mem_cons_self

/-- Every shape of a group fits into the padded one. -/
theorem prod_le_maxShape {rankShapes : List (List ℕ)} {n : ℕ}
    (hlength : ∀ shape ∈ rankShapes, shape.length = n) {shape : List ℕ}
    (hshape : shape ∈ rankShapes) : shape.prod ≤ (maxShape rankShapes).prod := by
  have hmax := length_maxShape hlength hshape
  have hle : List.Forall₂ (· ≤ ·) shape (maxShape rankShapes) := by
    rw [List.forall₂_iff_get]
    refine ⟨by rw [hmax, hlength shape hshape], fun i hi hi' => ?_⟩
    simp only [maxShape, List.get_eq_getElem, List.getElem_map, List.getElem_range]
    refine le_foldl_max (List.mem_map.2 ⟨shape, hshape, ?_⟩) 0
    exact List.getD_eq_getElem _ _ hi
  exact List.Forall₂.prod_le_prod' hle

theorem prod_swapFront {shape : List ℕ} {dim : ℕ} (h : dim < shape.length) :
    (swapFront dim shape).prod = shape.prod := by
  unfold swapFront
  split_ifs with hzero
  · rfl
  · obtain ⟨d, rfl⟩ : ∃ d, dim = d + 1 := ⟨dim - 1, by omega⟩
    cases shape with
    | nil => simp at h
    | cons x t =>
      have hd : d < t.length := by simpa using h
      rw [List.set_cons_zero, List.set_cons_succ, List.getD_cons_succ, List.getD_cons_zero,
        List.prod_cons, List.prod_cons, set_eq hd]
      conv_rhs => rw [split_getD hd]
      simp only [List.prod_append, List.prod_cons]
      ring

theorem le_ceil {n alignment : ℕ} (h : 0 < alignment) :
    n ≤ (n + alignment - 1) / alignment * alignment := by
  have hdiv := Nat.div_add_mod (n + alignment - 1) alignment
  have hmod := Nat.mod_lt (n + alignment - 1) h
  rw [Nat.mul_comm] at hdiv
  omega

end Padding

/-! ### A stage -/

section Stage

variable {mesh : Mesh} {alignment k : ℕ} {axis : ℕ × ℕ} {ι : Type} {params : List ι}
  {tensor : ι → ℕ → Tensor α} {stage : ι → ℕ → StageMeta} {cached : ℕ → ℕ → List α}

/-- What a rank of the group holds of a parameter, and what the stage says of it. -/
structure StageInput (mesh : Mesh) (alignment : ℕ) (axis : ℕ × ℕ) (k : ℕ) (base : List ℕ)
    (tensor : ℕ → Tensor α) (stage : ℕ → StageMeta) : Prop where
  lt : axis.2 < base.length
  mem : k ∈ shardGroup mesh axis.1 k
  shape : ∀ j ∈ shardGroup mesh axis.1 k,
    (tensor j).shape = base.set axis.2 ((tensor j).shape.getD axis.2 0)
  padded : ∀ j ∈ shardGroup mesh axis.1 k,
    paddedNumel alignment axis.2 (stage j) = paddedNumel alignment axis.2 (stage k)
  fits : ∀ j ∈ shardGroup mesh axis.1 k,
    (tensor j).shape.prod ≤ paddedNumel alignment axis.2 (stage k)
  split : (stage k).splitSizes =
    (shardGroup mesh axis.1 k).map fun j => (tensor j).shape.getD axis.2 0

theorem moveFront_of_shape {t : Tensor α} {base : List ℕ} {a : ℕ} (ha : a < base.length)
    (hshape : t.shape = base.set a (t.shape.getD a 0)) :
    (t.moveFront a).shape = t.shape.getD a 0 :: (base.take a ++ base.drop (a + 1)) ∧
      (t.moveFront a).shape.prod = t.shape.prod := by
  have hlength : (base.take a).length = a := by
    rw [List.length_take]
    omega
  have hsplit : t.shape = base.take a ++ t.shape.getD a 0 :: base.drop (a + 1) := by
    conv_lhs => rw [hshape]
    exact set_eq ha
  have hfront := (Tensor.moveFront_spec hsplit).1
  rw [hlength] at hfront
  refine ⟨hfront, ?_⟩
  conv_rhs => rw [hsplit]
  rw [hfront, List.prod_cons, List.prod_append, List.prod_append, List.prod_cons]
  exact Nat.mul_left_comm _ _ _

/-- A stage puts the tensors of a group together along its axis. -/
theorem gatherStage_eq {base : ι → List ℕ} {whole : ι → Tensor α}
    (hcached : ∀ j total, total ≤ (cached j total).length)
    (hinput : ∀ p ∈ params, StageInput mesh alignment axis k (base p) (tensor p) (stage p))
    (hwhole : ∀ p ∈ params, (Tensor.ofData
      (((shardGroup mesh axis.1 k).map fun j => (tensor p j).shape.getD axis.2 0).sum ::
        ((base p).take axis.2 ++ (base p).drop (axis.2 + 1)))
      ((((shardGroup mesh axis.1 k).map (tensor p)).map (Tensor.moveFront axis.2)).flatMap
        Tensor.data)).map (Tensor.moveBack axis.2) = some (whole p)) :
    gatherStage mesh alignment axis cached
      (fun j => params.map fun p => (tensor p j, stage p j)) k = some (params.map whole) := by
  unfold gatherStage
  refine mapM_of_getElem? (by rw [length_prepareGatherInputs, List.length_map, List.length_map]) ?_
  intro i x hx
  have hlt : i < params.length := by
    have := (List.getElem?_eq_some_iff.1 hx).1
    rwa [length_prepareGatherInputs, List.length_map] at this
  obtain ⟨p, hp⟩ : ∃ p, params[i]? = some p := ⟨_, List.getElem?_eq_getElem hlt⟩
  have hmem := List.mem_of_getElem? hp
  have hin := hinput p hmem
  have hat : ∀ j, (params.map fun p => (tensor p j, stage p j))[i]? =
      some (tensor p j, stage p j) := by
    intro j
    rw [List.getElem?_map, hp]
    rfl
  refine ⟨whole p, by rw [List.getElem?_map, hp]; rfl, ?_⟩
  rw [getElem?_prepareGatherInputs (hat k)] at hx
  cases hx
  rw [← hwhole p hmem, unpackGathered]
  have hfront : ∀ j ∈ shardGroup mesh axis.1 k, ((tensor p j).moveFront axis.2).shape =
      (tensor p j).shape.getD axis.2 0 ::
        ((base p).take axis.2 ++ (base p).drop (axis.2 + 1)) :=
    fun j hj => (moveFront_of_shape hin.lt (hin.shape j hj)).1
  have hoffset : ∀ j ∈ shardGroup mesh axis.1 k,
      (((params.map fun p => (tensor p j, stage p j)).take i).map
        fun e => paddedNumel alignment axis.2 e.2) =
      (((params.map fun p => (tensor p k, stage p k)).take i).map
        fun e => paddedNumel alignment axis.2 e.2) := by
    intro j hj
    rw [← List.map_take, ← List.map_take, List.map_map, List.map_map]
    exact List.map_congr_left fun q hq =>
      (hinput q (List.mem_of_mem_take hq)).padded j hj
  have hrow : ∀ j ∈ shardGroup mesh axis.1 k,
      (((packBuffer (cached j (prepareGatherInputs alignment axis.2 0
        (params.map fun p => (tensor p j, stage p j))).2)
        (prepareGatherInputs alignment axis.2 0
          (params.map fun p => (tensor p j, stage p j))).2
        (prepareGatherInputs alignment axis.2 0
          (params.map fun p => (tensor p j, stage p j))).1).drop
        (0 + (((params.map fun p => (tensor p k, stage p k)).take i).map
          fun e => paddedNumel alignment axis.2 e.2).sum)).take
        (paddedNumel alignment axis.2 (stage p k))).take
        ((tensor p j).shape.getD axis.2 0 *
          ((tensor p k).moveFront axis.2).shape.tail.prod) =
        ((tensor p j).moveFront axis.2).data := by
    intro j hj
    have hfits : ∀ e ∈ params.map fun p => (tensor p j, stage p j),
        (e.1.moveFront axis.2).shape.prod ≤ paddedNumel alignment axis.2 e.2 := by
      intro e he
      obtain ⟨q, hq, rfl⟩ := List.mem_map.1 he
      have hq' := hinput q hq
      rw [(moveFront_of_shape hq'.lt (hq'.shape j hj)).2, hq'.padded j hj]
      exact hq'.fits j hj
    have hslice := (packed_slices hfits 0 (((cached j (prepareGatherInputs alignment axis.2 0
      (params.map fun p => (tensor p j, stage p j))).2).take (prepareGatherInputs alignment axis.2 0
        (params.map fun p => (tensor p j, stage p j))).2).map fun _ => 0) (by
          rw [List.length_map, List.length_take]
          exact Nat.le_min.2 ⟨le_refl _, hcached j _⟩)).2 _
            (List.mem_of_getElem? (getElem?_prepareGatherInputs (hat j) 0))
    simp only [hoffset j hj] at hslice
    have hvalid : (tensor p j).shape.getD axis.2 0 *
        ((tensor p k).moveFront axis.2).shape.tail.prod =
          ((tensor p j).moveFront axis.2).shape.prod := by
      rw [hfront k hin.mem, hfront j hj]
      rfl
    have hle : ((tensor p j).moveFront axis.2).shape.prod ≤
        paddedNumel alignment axis.2 (stage p k) := by
      rw [(moveFront_of_shape hin.lt (hin.shape j hj)).2]
      exact hin.fits j hj
    rw [List.take_take, hvalid, Nat.min_eq_left hle]
    exact hslice
  have hchunks : (((shardGroup mesh axis.1 k).map fun j => packBuffer
        (cached j (prepareGatherInputs alignment axis.2 0
          (params.map fun p => (tensor p j, stage p j))).2)
        (prepareGatherInputs alignment axis.2 0
          (params.map fun p => (tensor p j, stage p j))).2
        (prepareGatherInputs alignment axis.2 0
          (params.map fun p => (tensor p j, stage p j))).1).zip (stage p k).splitSizes).flatMap
        (fun row => ((row.1.drop
          (0 + (((params.map fun p => (tensor p k, stage p k)).take i).map
            fun e => paddedNumel alignment axis.2 e.2).sum)).take
          (paddedNumel alignment axis.2 (stage p k))).take
          (row.2 * ((tensor p k).moveFront axis.2).shape.tail.prod)) =
      (((shardGroup mesh axis.1 k).map (tensor p)).map (Tensor.moveFront axis.2)).flatMap
        Tensor.data := by
    rw [hin.split, List.zip_map', List.flatMap_map, List.map_map, List.flatMap_map]
    exact List.flatMap_congr fun j hj => hrow j hj
  simp only
  rw [hchunks, hin.split, hfront k hin.mem]
  rfl

end Stage

end HyperParallel.Optimizer
