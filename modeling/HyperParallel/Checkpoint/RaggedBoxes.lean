import HyperParallel.Checkpoint.Metadata
import HyperParallel.DTensor.Ragged
import HyperParallel.Lib.Box
import HyperParallel.Lib.Tensor
import Mathlib.Algebra.Order.BigOperators.GroupWithZero.List

/-!
# Boxes of a ragged shard

`distributed_checkpoint/ragged.py`: the flat interval of a ragged shard as boxes of the global tensor.

* `decomposeFlatInterval`: the boxes of an interval;
* `computeRaggedBoxes`, `getRaggedBoxTensor`: where a box lies in the local flat tensor;
* `Decomposes`: the boxes are disjoint and list the interval in row-major order;
* `covers_decomposeAxis`: they do, axis by axis.
-/

open MixedRadix Box

namespace HyperParallel.Checkpoint

open DTensor.Ragged

variable {α : Type} {n : ℕ}

/-- `RaggedCheckpointBox` -/
structure RaggedCheckpointBox where
  offsets : List ℕ
  sizes : List ℕ
  localFlatStart : ℕ
  localFlatEnd : ℕ
  deriving DecidableEq, Repr

inductive RaggedBoxError
  /-- `Ragged checkpoint geometry requires a non-scalar global shape` -/
  | scalarShape
  /-- `Invalid flat interval for Ragged checkpoint geometry` -/
  | invalidInterval
  /-- `compute_ragged_boxes requires a RaggedShard DTensor` -/
  | notRagged
  | slice (e : RaggedError)
  /-- `Ragged checkpoint boxes do not cover the local flat tensor` -/
  | notCovered
  /-- `Ragged checkpoint box was not found in the local DTensor` -/
  | boxNotFound

/-- `_decompose_axis`, on the extents from the axis on. -/
def decomposeAxis : List ℕ → ℕ → ℕ → List ℕ → List (List ℕ × List ℕ)
  | [], _, _, _ => []
  | [_], start, stop, prefixOffsets =>
    [(prefixOffsets ++ [start], List.replicate prefixOffsets.length 1 ++ [stop - start])]
  | _ :: extent :: rest, start, stop, prefixOffsets =>
    let suffix := extent :: rest
    let stride := suffix.prod
    let startBlock := start / stride
    let startRemainder := start % stride
    let endBlock := (stop - 1) / stride
    if startBlock = endBlock then
      decomposeAxis suffix startRemainder (startRemainder + stop - start)
        (prefixOffsets ++ [startBlock])
    else
      let head :=
        if startRemainder ≠ 0 then
          decomposeAxis suffix startRemainder stride (prefixOffsets ++ [startBlock])
        else []
      let completeStart := if startRemainder ≠ 0 then startBlock + 1 else startBlock
      let completeEnd := stop / stride
      let endRemainder := stop % stride
      let complete :=
        if completeStart < completeEnd then
          [(prefixOffsets ++ completeStart :: List.replicate suffix.length 0,
            List.replicate prefixOffsets.length 1 ++ (completeEnd - completeStart) :: suffix)]
        else []
      let tail :=
        if endRemainder ≠ 0 then
          decomposeAxis suffix 0 endRemainder (prefixOffsets ++ [completeEnd])
        else []
      head ++ complete ++ tail

/-- `_decompose_flat_interval` -/
def decomposeFlatInterval (shape : List ℕ) (flatStart flatEnd : ℤ) :
    Except RaggedBoxError (List (List ℕ × List ℕ)) :=
  if shape = [] then .error .scalarShape
  else if flatStart < 0 ∨ flatEnd < flatStart ∨ flatEnd > shape.prod then .error .invalidInterval
  else if flatStart = flatEnd then .ok []
  else .ok (decomposeAxis shape flatStart.toNat flatEnd.toNat [])

/-- The boxes with their places in the local flat tensor, from a place on. -/
def placeBoxes : ℕ → List (List ℕ × List ℕ) → List RaggedCheckpointBox
  | _, [] => []
  | localFlatOffset, (offsets, sizes) :: rawBoxes =>
    ⟨offsets, sizes, localFlatOffset, localFlatOffset + sizes.prod⟩ ::
      placeBoxes (localFlatOffset + sizes.prod) rawBoxes

/-- `compute_ragged_boxes`, on the rank with the given place along the ragged mesh dimension. -/
def computeRaggedBoxes (globalShape : List ℕ) (layout : RaggedLayout) (rank : ℕ) :
    Except RaggedBoxError (List RaggedCheckpointBox) :=
  if layout.raggedShard.isNone then .error .notRagged
  else do
    let raggedSlice ← (computeRaggedSlice globalShape layout rank).mapError .slice
    let rawBoxes ← decomposeFlatInterval globalShape raggedSlice.flatStart raggedSlice.flatEnd
    if (rawBoxes.map fun b => b.2.prod).sum ≠ raggedSlice.localNumel then .error .notCovered
    else .ok (placeBoxes 0 rawBoxes)

/-- `get_ragged_box_tensor`: the sizes and the elements. -/
def getRaggedBoxTensor (globalShape : List ℕ) (layout : RaggedLayout) (rank : ℕ) (localFlat : List α)
    (index : MetadataIndex) : Except RaggedBoxError (List ℕ × List α) := do
  let boxes ← computeRaggedBoxes globalShape layout rank
  match boxes.find? fun box => box.offsets = index.offset with
  | some box => .ok (box.sizes, localFlat.extract box.localFlatStart box.localFlatEnd)
  | none => .error .boxNotFound

/-! ### What the boxes are for -/

/-- The flat indices of the elements of a box, in row-major order. -/
def boxElements (shape : List ℕ) (b : List ℕ × List ℕ) : List ℕ :=
  (List.range b.2.prod).map fun v => ofDigits shape (shift b.1 (digits b.2 v))

/-- The box is not empty and lies inside the shape. -/
structure InShape (shape : List ℕ) (b : List ℕ × List ℕ) : Prop where
  length_offsets : b.1.length = shape.length
  length_sizes : b.2.length = shape.length
  pos : ∀ k ∈ b.2, 0 < k
  within : Within (ofSizes b.1 b.2) shape

/-- The boxes list the elements of an interval. -/
structure Covers (shape : List ℕ) (start stop : ℕ) (boxes : List (List ℕ × List ℕ)) : Prop where
  inShape : ∀ b ∈ boxes, InShape shape b
  elements : boxes.flatMap (boxElements shape) = List.range' start (stop - start)

/-- The boxes list the elements of an interval, and no two of them meet. -/
structure Decomposes (shape : List ℕ) (start stop : ℕ) (boxes : List (List ℕ × List ℕ)) : Prop
    extends Covers shape start stop boxes where
  disjoint : boxes.Pairwise fun b b' =>
    ∀ x ∈ points (ofSizes b.1 b.2), x ∉ points (ofSizes b'.1 b'.2)
  offsets : (boxes.map Prod.fst).Nodup

/-! ### One axis -/

section Axis

variable {shape rest : List ℕ} {start stop mid a b q : ℕ} {boxes boxes' : List (List ℕ × List ℕ)}

/-- A box under an axis, at one place of the axis. -/
def liftBox (q : ℕ) (b : List ℕ × List ℕ) : List ℕ × List ℕ := (q :: b.1, 1 :: b.2)

theorem Covers.nil : Covers shape start start [] where
  inShape := by simp
  elements := by simp

theorem Covers.append (h : Covers shape start mid boxes) (h' : Covers shape mid stop boxes')
    (hmid : start ≤ mid) (hstop : mid ≤ stop) : Covers shape start stop (boxes ++ boxes') where
  inShape := by
    intro b hb
    rcases List.mem_append.1 hb with hb | hb
    · exact h.inShape b hb
    · exact h'.inShape b hb
  elements := by
    have hmid' : mid = start + (mid - start) := by omega
    have hsize : mid - start + (stop - mid) = stop - start := by omega
    rw [List.flatMap_append, h.elements, h'.elements]
    nth_rewrite 2 [hmid']
    rw [List.range'_append_1, hsize]

theorem boxElements_liftBox (hq : q < n) (b : List ℕ × List ℕ) :
    boxElements (n :: rest) (liftBox q b) = (boxElements rest b).map (q * rest.prod + ·) := by
  rw [boxElements, boxElements, liftBox, List.map_map, List.prod_cons, Nat.one_mul]
  refine List.map_congr_left fun v _ => ?_
  rw [digits_cons, Nat.mod_one, shift_cons, ofDigits, Nat.add_zero, Nat.mod_eq_of_lt hq]
  rfl

theorem Covers.lift (h : Covers rest start stop boxes) (hq : q < n) :
    Covers (n :: rest) (q * rest.prod + start) (q * rest.prod + stop) (boxes.map (liftBox q)) where
  inShape := by
    intro c hc
    obtain ⟨b, hb, rfl⟩ := List.mem_map.1 hc
    have hin := h.inShape b hb
    exact {
      length_offsets := congrArg (· + 1) hin.length_offsets
      length_sizes := congrArg (· + 1) hin.length_sizes
      pos := List.forall_mem_cons.2 ⟨Nat.one_pos, hin.pos⟩
      within := List.Forall₂.cons hq hin.within }
  elements := by
    rw [List.flatMap_map]
    simp only [boxElements_liftBox hq]
    rw [← List.map_flatMap, h.elements, List.map_add_range', Nat.add_sub_add_left]

theorem within_zero (rest : List ℕ) :
    Within (ofSizes (List.replicate rest.length 0) rest) rest := by
  induction rest with
  | nil => exact List.Forall₂.nil
  | cons k rest ih => exact List.Forall₂.cons (Nat.zero_add k).le ih

theorem shift_zero (x : List ℕ) : shift (List.replicate x.length 0) x = x := by
  induction x with
  | nil => rfl
  | cons k x ih =>
    rw [List.length_cons, List.replicate_succ, shift_cons, ih, Nat.zero_add]

/-- A run of complete blocks. -/
theorem Covers.blocks (hab : a < b) (hb : b ≤ n) (hrest : ∀ k ∈ rest, 0 < k) :
    Covers (n :: rest) (a * rest.prod) (b * rest.prod)
      [(a :: List.replicate rest.length 0, (b - a) :: rest)] where
  inShape := by
    intro c hc
    obtain rfl := List.mem_singleton.1 hc
    refine ⟨by simp, rfl, List.forall_mem_cons.2 ⟨by omega, hrest⟩, ?_⟩
    exact List.Forall₂.cons (by change a + (b - a) ≤ n; omega) (within_zero rest)
  elements := by
    rw [List.flatMap_singleton, boxElements, List.prod_cons, ← Nat.sub_mul, List.range'_eq_map_range]
    refine List.map_congr_left fun v hv => ?_
    have hblock : v / rest.prod < b - a :=
      Nat.div_lt_of_lt_mul (by rwa [Nat.mul_comm, ← List.mem_range])
    have hlength : rest.length = (digits rest v).length := length_digits.symm
    rw [digits_cons, shift_cons, ofDigits, Nat.mod_eq_of_lt hblock,
      Nat.mod_eq_of_lt (by omega), hlength, shift_zero, ofDigits_digits, Nat.add_mul,
      Nat.add_assoc, Nat.div_add_mod']

/-- The boxes behind a prefix are the boxes of the suffix. -/
theorem decomposeAxis_behind (shape : List ℕ) (start stop : ℕ) (prefixOffsets : List ℕ) :
    decomposeAxis shape start stop prefixOffsets = (decomposeAxis shape start stop []).map
      fun b => (prefixOffsets ++ b.1, List.replicate prefixOffsets.length 1 ++ b.2) := by
  induction shape generalizing start stop prefixOffsets with
  | nil => rfl
  | cons n suffix ih =>
    cases suffix with
    | nil => rfl
    | cons extent rest =>
      have hone : ∀ s e q pre, decomposeAxis (extent :: rest) s e (pre ++ [q]) =
          (decomposeAxis (extent :: rest) s e []).map
            fun b => (pre ++ q :: b.1, List.replicate pre.length 1 ++ 1 :: b.2) := by
        intro s e q pre
        rw [ih]
        simp [List.replicate_succ']
      simp only [decomposeAxis, hone]
      split_ifs <;> simp [Function.comp_def]

theorem decomposeAxis_lift (q : ℕ) :
    decomposeAxis shape start stop [q] = (decomposeAxis shape start stop []).map (liftBox q) := by
  rw [decomposeAxis_behind]
  rfl

section Pieces

variable {f : ℕ → ℕ → List (List ℕ × List ℕ)}

/-- The part of an interval before its first complete block. -/
theorem Covers.head (hf : ∀ {s e : ℕ}, s < e → e ≤ rest.prod → Covers rest s e (f s e))
    (hstride : 0 < rest.prod) (hfirst : start / rest.prod < n) :
    Covers (n :: rest) start
      ((if start % rest.prod ≠ 0 then start / rest.prod + 1 else start / rest.prod) * rest.prod)
      (if start % rest.prod ≠ 0 then
        (f (start % rest.prod) rest.prod).map (liftBox (start / rest.prod))
      else []) := by
  have hstart := Nat.div_add_mod' start rest.prod
  by_cases hrem : start % rest.prod = 0
  · rw [if_neg (not_not.2 hrem), if_neg (not_not.2 hrem)]
    rw [hrem, Nat.add_zero] at hstart
    rw [hstart]
    exact Covers.nil
  · have hcover := (hf (Nat.mod_lt start hstride) le_rfl).lift hfirst
    rw [if_pos hrem, if_pos hrem, Nat.succ_mul]
    rwa [hstart] at hcover

/-- The part of an interval after its last complete block. -/
theorem Covers.tail (hf : ∀ {s e : ℕ}, s < e → e ≤ rest.prod → Covers rest s e (f s e))
    (hstride : 0 < rest.prod) (hstop : stop ≤ n * rest.prod) :
    Covers (n :: rest) (stop / rest.prod * rest.prod) stop
      (if stop % rest.prod ≠ 0 then
        (f 0 (stop % rest.prod)).map (liftBox (stop / rest.prod))
      else []) := by
  have hend := Nat.div_add_mod' stop rest.prod
  by_cases hrem : stop % rest.prod = 0
  · rw [if_neg (not_not.2 hrem)]
    rw [hrem, Nat.add_zero] at hend
    rw [hend]
    exact Covers.nil
  · have hlast : stop / rest.prod < n := by
      by_contra hge
      have := Nat.mul_le_mul_right rest.prod (not_lt.1 hge)
      omega
    have hcover := (hf (Nat.pos_of_ne_zero hrem) (Nat.mod_lt stop hstride).le).lift hlast
    rw [if_pos hrem]
    rwa [hend, Nat.add_zero] at hcover

/-- The complete blocks of an interval, if there are any. -/
theorem Covers.complete (hab : a ≤ b) (hb : b ≤ n) (hrest : ∀ k ∈ rest, 0 < k) :
    Covers (n :: rest) (a * rest.prod) (b * rest.prod)
      (if a < b then [(a :: List.replicate rest.length 0, (b - a) :: rest)] else []) := by
  rcases hab.lt_or_eq with hlt | rfl
  · rw [if_pos hlt]
    exact Covers.blocks hlt hb hrest
  · rw [if_neg (Nat.lt_irrefl a)]
    exact Covers.nil

end Pieces

/-- The boxes of an interval that is not empty cover it. -/
theorem covers_decomposeAxis (hshape : shape ≠ []) (hlt : start < stop) (hstop : stop ≤ shape.prod) :
    Covers shape start stop (decomposeAxis shape start stop []) := by
  induction shape generalizing start stop with
  | nil => exact absurd rfl hshape
  | cons n suffix ih =>
    cases suffix with
    | nil =>
      have hblocks : Covers [n] (start * [].prod) (stop * [].prod) [([start], [stop - start])] :=
        Covers.blocks hlt (by simpa using hstop) (by simp)
      simpa [decomposeAxis] using hblocks
    | cons extent rest =>
      have hsuffix : ∀ {s e : ℕ}, s < e → e ≤ (extent :: rest).prod →
          Covers (extent :: rest) s e (decomposeAxis (extent :: rest) s e []) :=
        fun hlt hle => ih (List.cons_ne_nil _ _) hlt hle
      rw [decomposeAxis]
      generalize extent :: rest = suffix at hsuffix hstop ⊢
      rw [List.prod_cons] at hstop
      have hstride : 0 < suffix.prod := by
        rcases Nat.eq_zero_or_pos suffix.prod with h0 | hpos
        · rw [h0, Nat.mul_zero] at hstop
          omega
        · exact hpos
      have hpos : ∀ k ∈ suffix, 0 < k := fun k hk =>
        Nat.pos_of_ne_zero fun h0 => hstride.ne' (List.prod_eq_zero (h0 ▸ hk))
      simp only [List.nil_append, List.length_nil, List.replicate_zero, decomposeAxis_lift]
      have hstart := Nat.div_add_mod' start suffix.prod
      have hmod := Nat.mod_lt start hstride
      have hfirst : start / suffix.prod < n := Nat.div_lt_of_lt_mul (by rw [Nat.mul_comm]; omega)
      by_cases hsame : start / suffix.prod = (stop - 1) / suffix.prod
      · rw [if_pos hsame]
        have hblock : stop ≤ start / suffix.prod * suffix.prod + suffix.prod := by
          have := Nat.div_add_mod' (stop - 1) suffix.prod
          have := Nat.mod_lt (stop - 1) hstride
          rw [hsame]
          omega
        have hcover := (hsuffix (s := start % suffix.prod)
          (e := start % suffix.prod + stop - start) (by omega) (by omega)).lift hfirst
        have hstop' : start / suffix.prod * suffix.prod + (start % suffix.prod + stop - start) =
            stop := by
          omega
        rwa [hstart, hstop'] at hcover
      · rw [if_neg hsame]
        have hblocks : start / suffix.prod < stop / suffix.prod := by
          have hle : start / suffix.prod ≤ (stop - 1) / suffix.prod :=
            Nat.div_le_div_right (by omega)
          have hle' : (stop - 1) / suffix.prod ≤ stop / suffix.prod :=
            Nat.div_le_div_right (Nat.sub_le _ _)
          omega
        have hcount : stop / suffix.prod ≤ n := Nat.div_le_of_le_mul (by rwa [Nat.mul_comm])
        have hhead := Covers.head hsuffix hstride hfirst
        obtain ⟨completeStart, hcompleteStart⟩ : ∃ completeStart, completeStart =
            if start % suffix.prod ≠ 0 then start / suffix.prod + 1 else start / suffix.prod :=
          ⟨_, rfl⟩
        rw [← hcompleteStart] at hhead ⊢
        have hle : completeStart ≤ stop / suffix.prod := by
          rw [hcompleteStart]
          split_ifs <;> omega
        have hstartLe : start ≤ completeStart * suffix.prod := by
          rw [hcompleteStart]
          split_ifs with hrem
          · rw [Nat.succ_mul]
            omega
          · omega
        have hcompleteLe : completeStart * suffix.prod ≤ stop / suffix.prod * suffix.prod :=
          Nat.mul_le_mul_right _ hle
        exact (hhead.append (Covers.complete hle hcount hpos) hstartLe hcompleteLe).append
          (Covers.tail hsuffix hstride hstop) (hstartLe.trans hcompleteLe) (Nat.div_mul_le_self _ _)

end Axis

/-! ### Boxes that do not meet -/

section Disjoint

variable {shape : List ℕ} {b b' : List ℕ × List ℕ} {boxes : List (List ℕ × List ℕ)}
  {start stop : ℕ}

theorem exists_shift {o s x : List ℕ} (h : s.length = o.length) (hx : x ∈ points (ofSizes o s)) :
    ∃ y, Valid s y ∧ x = shift o y := by
  induction o generalizing s x with
  | nil =>
    obtain rfl := List.length_eq_zero_iff.1 h
    exact ⟨[], List.Forall₂.nil, mem_points_nil.1 hx⟩
  | cons k o ih =>
    obtain ⟨m, s, rfl⟩ := List.exists_cons_of_length_eq_add_one h
    obtain ⟨t, z, ht, hz, rfl⟩ := mem_points_cons_iff.1 hx
    obtain ⟨y, hy, rfl⟩ := ih (by simpa using h) hz
    change k ≤ t ∧ t < k + m at ht
    have hlt : t - k < m := by omega
    refine ⟨(t - k) :: y, List.Forall₂.cons hlt hy, ?_⟩
    rw [shift_cons, Nat.add_sub_cancel' ht.1]

/-- The lower corner of a box that is not empty. -/
theorem offsets_mem {o s : List ℕ} (h : s.length = o.length) (hpos : ∀ k ∈ s, 0 < k) :
    o ∈ points (ofSizes o s) := by
  induction o generalizing s with
  | nil =>
    obtain rfl := List.length_eq_zero_iff.1 h
    exact mem_points_nil.2 rfl
  | cons k o ih =>
    obtain ⟨m, s, rfl⟩ := List.exists_cons_of_length_eq_add_one h
    obtain ⟨hm, hs⟩ := List.forall_mem_cons.1 hpos
    exact mem_points_cons.2 ⟨⟨le_rfl, Nat.lt_add_of_pos_right hm⟩, ih (by simpa using h) hs⟩

theorem InShape.length_eq (h : InShape shape b) : b.2.length = b.1.length :=
  h.length_sizes.trans h.length_offsets.symm

theorem InShape.mem_boxElements (h : InShape shape b) {x : List ℕ}
    (hx : x ∈ points (ofSizes b.1 b.2)) : ofDigits shape x ∈ boxElements shape b := by
  obtain ⟨y, hy, rfl⟩ := exists_shift h.length_eq hx
  refine List.mem_map.2 ⟨ofDigits b.2 y, List.mem_range.2 (ofDigits_lt hy), ?_⟩
  rw [digits_ofDigits hy]

theorem Covers.decomposes (h : Covers shape start stop boxes) :
    Decomposes shape start stop boxes := by
  have hnodup : (boxes.flatMap (boxElements shape)).Nodup := h.elements ▸ List.nodup_range'
  have hdisjoint : boxes.Pairwise fun b b' =>
      ∀ x ∈ points (ofSizes b.1 b.2), x ∉ points (ofSizes b'.1 b'.2) := by
    refine (List.nodup_flatMap.1 hnodup).2.imp_of_mem fun {b b'} hb hb' hne => ?_
    intro x hx hx'
    exact hne ((h.inShape b hb).mem_boxElements hx) ((h.inShape b' hb').mem_boxElements hx')
  refine ⟨h, hdisjoint, ?_⟩
  rw [List.Nodup, List.pairwise_map]
  refine hdisjoint.imp_of_mem fun {b b'} hb hb' hne heq => ?_
  have hmem := offsets_mem (h.inShape b hb).length_eq (h.inShape b hb).pos
  have hmem' := offsets_mem (h.inShape b' hb').length_eq (h.inShape b' hb').pos
  exact hne b.1 hmem (heq ▸ hmem')

end Disjoint

/-- Every interval of a shape that is not scalar is decomposed. -/
theorem decomposeFlatInterval_decomposes {shape : List ℕ} {start stop : ℕ} (hshape : shape ≠ [])
    (hle : start ≤ stop) (hstop : stop ≤ shape.prod) :
    ∃ boxes, decomposeFlatInterval shape start stop = .ok boxes ∧
      Decomposes shape start stop boxes := by
  have hvalid : ¬ ((start : ℤ) < 0 ∨ (stop : ℤ) < start ∨ (stop : ℤ) > shape.prod) := by
    omega
  rw [decomposeFlatInterval, if_neg hshape, if_neg hvalid]
  rcases hle.eq_or_lt with rfl | hlt
  · rw [if_pos rfl]
    exact ⟨[], rfl, Covers.nil.decomposes⟩
  · rw [if_neg (by omega)]
    exact ⟨_, rfl, (covers_decomposeAxis hshape hlt hstop).decomposes⟩

/-! ### Places in the local tensor -/

section Places

variable {shape : List ℕ} {rawBoxes : List (List ℕ × List ℕ)} {base localFlatOffset size : ℕ}

theorem map_placeBoxes (localFlatOffset : ℕ) (rawBoxes : List (List ℕ × List ℕ)) :
    (placeBoxes localFlatOffset rawBoxes).map (fun b => (b.offsets, b.sizes)) = rawBoxes := by
  induction rawBoxes generalizing localFlatOffset with
  | nil => rfl
  | cons b rawBoxes ih => rw [placeBoxes, List.map_cons, ih]

@[simp] theorem length_boxElements (b : List ℕ × List ℕ) :
    (boxElements shape b).length = b.2.prod := by
  rw [boxElements, List.length_map, List.length_range]

/-- The place of a box in the local tensor is that of its elements in the interval. -/
theorem elements_of_mem_placeBoxes
    (h : rawBoxes.flatMap (boxElements shape) = List.range' (base + localFlatOffset) size) :
    ∀ b ∈ placeBoxes localFlatOffset rawBoxes,
      boxElements shape (b.offsets, b.sizes) =
          List.range' (base + b.localFlatStart) (b.localFlatEnd - b.localFlatStart) ∧
        b.localFlatEnd ≤ localFlatOffset + size := by
  induction rawBoxes generalizing localFlatOffset size with
  | nil =>
    intro b hb
    cases hb
  | cons raw rawBoxes ih =>
    rw [List.flatMap_cons] at h
    obtain ⟨k, hk, hhead, htail⟩ := List.range'_eq_append_iff.1 h.symm
    have hlength : raw.2.prod = k := by
      rw [← @length_boxElements shape, hhead, List.length_range']
    subst hlength
    rw [Nat.mul_one, Nat.add_assoc] at htail
    rw [placeBoxes, List.forall_mem_cons]
    refine ⟨⟨?_, Nat.add_le_add_left hk _⟩, fun b hb => ?_⟩
    · simpa using hhead
    · obtain ⟨helements, hend⟩ := ih htail b hb
      exact ⟨helements, by omega⟩

theorem getElem?_extract {x : List α} {i j k : ℕ} (hk : k < j - i) :
    (x.extract i j)[k]? = x[i + k]? := by
  rw [List.extract_eq_take_drop, List.getElem?_take_of_lt hk, List.getElem?_drop]

/-- A piece of an interval, element by element. -/
theorem map_some_extract {x : List α} {start stop i j : ℕ} (hstop : stop ≤ x.length)
    (hj : start + j ≤ stop) :
    ((x.extract start stop).extract i j).map some =
      (List.range' (start + i) (j - i)).map fun k => x[k]? := by
  refine List.ext_getElem? fun k => ?_
  rw [List.getElem?_map, List.getElem?_map]
  by_cases hk : k < j - i
  · have hlt : start + (i + k) < x.length := by omega
    rw [getElem?_extract hk, getElem?_extract (by omega), List.getElem?_range' hk,
      List.getElem?_eq_getElem hlt, Option.map_some, Option.map_some, Nat.one_mul, Nat.add_assoc,
      List.getElem?_eq_getElem hlt]
  · have hleft : ((x.extract start stop).extract i j).length ≤ k := by
      rw [List.extract_eq_take_drop, List.length_take]
      omega
    rw [List.getElem?_eq_none hleft, List.getElem?_eq_none (by rw [List.length_range']; omega)]
    rfl

theorem find?_offsets {boxes : List RaggedCheckpointBox}
    (h : (boxes.map RaggedCheckpointBox.offsets).Nodup) {b : RaggedCheckpointBox} (hb : b ∈ boxes) :
    (boxes.find? fun box => box.offsets = b.offsets) = some b := by
  induction boxes with
  | nil => cases hb
  | cons c boxes ih =>
    rw [List.map_cons, List.nodup_cons] at h
    rcases List.mem_cons.1 hb with rfl | hb
    · rw [List.find?_cons_of_pos (by simp)]
    · have hne : c.offsets ≠ b.offsets := fun heq => h.1 (heq ▸ List.mem_map_of_mem hb)
      rw [List.find?_cons_of_neg (by simpa using hne), ih h.2 hb]

end Places

/-- The boxes of a rank decompose its interval, and each of them is found where its elements lie in
the local flat tensor. -/
def BoxesOf (globalShape : List ℕ) (layout : RaggedLayout) (rank : ℕ) : Prop :=
  ∃ slice boxes, computeRaggedSlice globalShape layout rank = .ok slice ∧
    computeRaggedBoxes globalShape layout rank = .ok boxes ∧
    Decomposes globalShape slice.flatStart slice.flatEnd
      (boxes.map fun b => (b.offsets, b.sizes)) ∧
    ∀ (α : Type) (x : List α), x.length = globalShape.prod → ∀ b ∈ boxes, ∀ index : MetadataIndex,
      index.offset = b.offsets → ∃ piece,
        getRaggedBoxTensor globalShape layout rank (slice.of x) index = .ok (b.sizes, piece) ∧
        piece.map some = (boxElements globalShape (b.offsets, b.sizes)).map fun k => x[k]?

theorem boxesOf_accepts {globalShape : List ℕ} {layout : RaggedLayout} {info : RaggedShardInfo} {r : ℕ}
    (hshape : globalShape ≠ []) (h : Accepts layout globalShape n info) (hr : r < n) :
    BoxesOf globalShape layout r := by
  have hslice := h.computeRaggedSlice_eq hr
  set slice := between (flatBound globalShape info.placement) r
  have hle : slice.flatStart ≤ slice.flatEnd := flatBound_mono _ r.le_succ
  have hstop : slice.flatEnd ≤ globalShape.prod :=
    (flatBound_mono _ (Nat.succ_le_of_lt hr)).trans_eq h.flatBound_last
  obtain ⟨rawBoxes, hraw, hdecomposes⟩ := decomposeFlatInterval_decomposes hshape hle hstop
  have hsum : (rawBoxes.map fun b => b.2.prod).sum = slice.localNumel := by
    have hlength := congrArg List.length hdecomposes.elements
    rwa [List.length_range', List.length_flatMap, List.map_congr_left fun b _ => length_boxElements b]
      at hlength
  have hboxes : computeRaggedBoxes globalShape layout r = .ok (placeBoxes 0 rawBoxes) := by
    rw [computeRaggedBoxes, h.raggedShard, if_neg (by simp), hslice]
    simp only [Except.mapError, bind, Except.bind, hraw]
    exact if_neg (not_not.2 hsum)
  refine ⟨slice, placeBoxes 0 rawBoxes, hslice, hboxes, ?_, ?_⟩
  · rwa [map_placeBoxes]
  · intro α x hx b hb index hindex
    have hnodup : ((placeBoxes 0 rawBoxes).map RaggedCheckpointBox.offsets).Nodup := by
      have hoffsets := hdecomposes.offsets
      rwa [← map_placeBoxes 0 rawBoxes, List.map_map] at hoffsets
    have hinterval : rawBoxes.flatMap (boxElements globalShape) =
        List.range' (slice.flatStart + 0) slice.localNumel := hdecomposes.elements
    obtain ⟨helements, hend⟩ := elements_of_mem_placeBoxes hinterval b hb
    refine ⟨(slice.of x).extract b.localFlatStart b.localFlatEnd, ?_, ?_⟩
    · rw [getRaggedBoxTensor, hboxes]
      simp only [bind, Except.bind, hindex, find?_offsets hnodup hb]
    · rw [helements]
      have hsize : slice.localNumel = slice.flatEnd - slice.flatStart := rfl
      exact map_some_extract (hx ▸ hstop) (by omega)

/-- Intervals of a shape that is not scalar are decomposed, and the boxes of a ragged shard are found
in its local flat tensor; the scalar shape is rejected. -/
theorem raggedBoxes_decompose {shape : List ℕ} (hshape : shape ≠ []) :
    (∀ start stop : ℕ, start ≤ stop → stop ≤ shape.prod →
      ∃ boxes, decomposeFlatInterval shape start stop = .ok boxes ∧
        Decomposes shape start stop boxes) ∧
    (∀ (layout : RaggedLayout) (n : ℕ) (info : RaggedShardInfo), Accepts layout shape n info →
      ∀ r < n, BoxesOf shape layout r) ∧
    ∀ start stop : ℤ, decomposeFlatInterval [] start stop = .error .scalarShape :=
  ⟨fun _ _ hle hstop => decomposeFlatInterval_decomposes hshape hle hstop,
    fun _ _ _ h _ hr => boxesOf_accepts hshape h hr, fun _ _ => if_pos rfl⟩

theorem raggedBoxes_decompose_cube :
    (∀ start stop : ℕ, start ≤ stop → stop ≤ [2, 3, 4].prod →
      ∃ boxes, decomposeFlatInterval [2, 3, 4] start stop = .ok boxes ∧
        Decomposes [2, 3, 4] start stop boxes) ∧
    (∀ (layout : RaggedLayout) (n : ℕ) (info : RaggedShardInfo), Accepts layout [2, 3, 4] n info →
      ∀ r < n, BoxesOf [2, 3, 4] layout r) ∧
    ∀ start stop : ℤ, decomposeFlatInterval [] start stop = .error .scalarShape :=
  raggedBoxes_decompose (by decide)

example : decomposeAxis [2, 3, 4] 2 21 [] =
    [([0, 0, 2], [1, 1, 2]), ([0, 1, 0], [1, 2, 4]), ([1, 0, 0], [1, 2, 4]), ([1, 2, 0], [1, 1, 1])] := by
  decide

/-- The single element of a scalar is no box. -/
theorem not_decomposed_scalar : ¬ ∃ boxes, decomposeFlatInterval [] 0 1 = .ok boxes ∧
    Decomposes [] 0 1 boxes := by
  rintro ⟨boxes, h, -⟩
  cases h

end HyperParallel.Checkpoint
