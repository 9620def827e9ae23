import HyperParallel.ContextParallel.Collectives
import HyperParallel.Lib.Views
import Mathlib.Tactic.Ring

/-!
# The all-to-all of a redistribution

`core/dtensor/tensor_redistribution.py`, `TensorRedistribution._construct_all_to_all`.

* `prepareAllToAll`, `finishAllToAll`, `constructAllToAll`: what a rank does before and after the
  exchange, on each of its reshape paths;
* `prepareAllToAll_sameData`: what is sent, in row-major order, is one part for every destination;
* `finishAllToAll_eq`: what is put together;
* `constructAllToAll_eq_cat`: the peers' parts along the split axis, side by side.
-/

namespace HyperParallel.DTensor

open Exchange ContextParallel MixedRadix

variable {α : Type} [Zero α] {n : ℕ}

/-! ### The three stages -/

/-- `final_shape` -/
def finalShape (originalShape : List ℕ) (splitDim concatDim splitCount : ℕ) : List ℕ :=
  let splitSize := originalShape.getD splitDim 0 / splitCount
  if splitDim ≠ concatDim then
    let finalShape := originalShape.set splitDim splitSize
    finalShape.set concatDim (finalShape.getD concatDim 0 * splitCount)
  else originalShape

/-- `all(shape[i] == 1 for i in range(dim))` -/
def leadingOnes (shape : List ℕ) (dim : ℕ) : Prop := ∀ size ∈ shape.take dim, size = 1

instance (shape : List ℕ) (dim : ℕ) : Decidable (leadingOnes shape dim) :=
  inferInstanceAs (Decidable (∀ size ∈ shape.take dim, size = 1))

/-- `_construct_all_to_all` up to the exchange. -/
def prepareAllToAll (x : Tensor α) (splitDim splitCount : ℕ) : Option (Tensor α) := do
  let dimSize := x.shape.getD splitDim 0
  if dimSize % splitCount ≠ 0 then none
  else
    let splitSize := dimSize / splitCount
    if leadingOnes x.shape splitDim then
      x.reshape (splitCount * splitSize :: x.shape.drop (splitDim + 1))
    else
      let split ← x.reshape (x.shape.take splitDim ++
        splitCount :: splitSize :: x.shape.drop (splitDim + 1))
      let moved := split.permute (Tensor.frontPerm splitDim split.shape.length)
      moved.reshape (moved.shape.getD 0 0 * moved.shape.getD 1 0 :: moved.shape.drop 2)

/-- `_construct_all_to_all` after the exchange. -/
def finishAllToAll (originalShape : List ℕ) (output : Tensor α)
    (splitDim concatDim splitCount : ℕ) : Option (Tensor α) :=
  let final := finalShape originalShape splitDim concatDim splitCount
  if leadingOnes final concatDim then output.reshape final
  else do
    -- the exchange ran without the leading axes of size 1
    let reconConcatDim :=
      if leadingOnes originalShape splitDim then concatDim - splitDim else concatDim
    let parts ← output.reshape
      (splitCount :: output.shape.headD 0 / splitCount :: output.shape.drop 1)
    let others := List.range' 1 (parts.shape.length - 1)
    let outTransDims :=
      if reconConcatDim ≥ others.length then others ++ [0] else others.insertIdx reconConcatDim 0
    let final_output := parts.permute outTransDims
    let shape := final_output.shape
    let finalReshape :=
      if reconConcatDim < shape.length - 1 then
        shape.take reconConcatDim ++
          shape.getD reconConcatDim 0 * shape.getD (reconConcatDim + 1) 0 ::
            shape.drop (reconConcatDim + 2)
      else shape
    let result ← final_output.reshape finalReshape
    if leadingOnes originalShape splitDim then result.reshape final else some result

/-- `_construct_all_to_all` on all ranks of a group. -/
def constructAllToAll (x : Fin n → Tensor α) (splitDim concatDim : ℕ) :
    Option (Fin n → Tensor α) := do
  let sends ← everyRank fun r => prepareAllToAll (x r) splitDim n
  let received ← allToAll sends
  everyRank fun r => finishAllToAll (x r).shape (received r) splitDim concatDim n

/-- Chunk `r` of `torch.chunk` into `n` equal parts along an axis. -/
def chunkAt (x : Tensor α) (dim n r : ℕ) : Tensor α :=
  let size := x.shape.getD dim 0 / n
  Tensor.ofEntries (x.shape.set dim size) fun idx =>
    x.entry (idx.set dim (r * size + idx.getD dim 0))

/-! ### What is sent -/

/-- On both paths a rank sends a view of the parts of the split axis, destination by
destination. -/
theorem prepareAllToAll_sameData (x : Tensor α) {d w size : ℕ} {rest : List ℕ}
    (hd : d < x.shape.length) (hn : 0 < n) (hsize : x.shape.getD d 0 = n * w)
    (hrest : size :: rest =
      (x.shape.set d w).drop (if leadingOnes x.shape d then d else 0)) :
    ∃ send, prepareAllToAll x d n = some send ∧ send.shape = n * size :: rest ∧
      Tensor.SameData send (Tensor.ofEntries (n :: x.shape.set d w) fun idx =>
        x.entry (idx.tail.set d (idx.headD 0 * w + idx.tail.getD d 0))) := by
  have hprepare := prepareSend_eq x hd hn hsize
  have hparts := split_getD hd
  rw [hsize] at hparts
  have hbefore : (x.shape.take d).length = d := List.length_take_of_le hd.le
  have hafter : d + ((w :: x.shape.drop (d + 1)).length + 1) = x.shape.length + 1 := by
    rw [List.length_cons, List.length_drop]
    omega
  obtain ⟨split, hsplit, hsplitData, hsplitShape⟩ :=
    Tensor.exists_reshape x (x.shape.take d ++ n :: w :: x.shape.drop (d + 1)) (by
      nth_rewrite 3 [hparts]
      simp only [List.prod_append, List.prod_cons, Nat.mul_assoc])
  have hmoved : split.permute (Tensor.frontPerm d (x.shape.length + 1)) =
      Tensor.ofEntries (n :: x.shape.set d w) fun idx =>
        x.entry (idx.tail.set d (idx.headD 0 * w + idx.tail.getD d 0)) := by
    simp only [prepareSend, hsize, Nat.mul_mod_right, ne_eq, not_true_eq_false, if_false,
      Nat.mul_div_cancel_left w hn, hsplit, Option.bind_eq_bind, Option.bind_some] at hprepare
    exact Option.some.inj hprepare
  simp only [prepareAllToAll, hsize, Nat.mul_mod_right, ne_eq, not_true_eq_false, if_false,
    Nat.mul_div_cancel_left w hn]
  by_cases hones : leadingOnes x.shape d
  · have hfront := Tensor.sameData_permute_front hsplitShape hones
    rw [hbefore, hafter, hmoved] at hfront
    rw [if_pos hones, set_eq hd, List.drop_left' hbefore] at hrest
    obtain ⟨rfl, rfl⟩ := List.cons.inj hrest
    obtain ⟨send, hsend, hsendData, hsendShape⟩ := Tensor.exists_reshape x
      (n * size :: x.shape.drop (d + 1)) (by
        nth_rewrite 2 [hparts]
        rw [List.prod_append, prod_ones hones, Nat.one_mul])
    simp only [if_pos hones]
    exact ⟨send, hsend, hsendShape, hsendData.symm.trans (hsplitData.trans hfront)⟩
  · have hlength : split.shape.length = x.shape.length + 1 := by
      rw [hsplitShape, ← hafter, List.length_append, hbefore, List.length_cons]
    simp only [if_neg hones, hsplit, Option.bind_eq_bind, Option.bind_some, hlength, hmoved]
    rw [if_neg hones, List.drop_zero] at hrest
    rw [← hrest]
    obtain ⟨send, hsend, hsendData, hsendShape⟩ := Tensor.exists_reshape
      (Tensor.ofEntries (n :: size :: rest) fun idx =>
        x.entry (idx.tail.set d (idx.headD 0 * w + idx.tail.getD d 0)))
      (n * size :: rest) (by simp [Nat.mul_assoc])
    exact ⟨send, hsend, hsendShape, hsendData.symm⟩

/-! ### The exchange -/

/-- In row-major order, the exchange moves part `r` of rank `k` to part `k` of rank `r`. -/
theorem allToAll_flat {x : Fin n → Tensor α} {a : ℕ} {rest : List ℕ} (hn : 0 < n)
    (hshape : ∀ k, (x k).shape = n * a :: rest) :
    ∃ y, allToAll x = some y ∧ (∀ r, (y r).shape = n * a :: rest) ∧
      ∀ r k : Fin n, ∀ w < a * rest.prod,
        (y r).flat (k * (a * rest.prod) + w) = (x k).flat (r * (a * rest.prod) + w) := by
  refine ⟨_, if_pos fun s r => ⟨by rw [hshape, hshape], by simp [hshape]⟩, hshape, ?_⟩
  intro r k w hw
  obtain ⟨hquot, hrem⟩ := div_mod_lt hw
  have hindex : ∀ k : Fin n, k * (a * rest.prod) + w =
      (k * a + w / rest.prod) * rest.prod + w % rest.prod := by
    intro k
    rw [Nat.add_mul, Nat.mul_assoc, Nat.add_assoc, Nat.div_add_mod']
  have hrow : ∀ k : Fin n, k * a + w / rest.prod < n * a := fun k => mul_add_lt k.isLt hquot
  have hvalid : Valid (n * a :: rest) ((k * a + w / rest.prod) :: digits rest (w % rest.prod)) :=
    .cons (hrow k) (valid_digits hrem)
  have hpos : 0 < a := Nat.lt_of_le_of_lt (Nat.zero_le _) hquot
  rw [Tensor.flat, Tensor.shape_ofEntries, hshape, hindex, digits_mul_add (hrow k) hrem,
    Tensor.entry_ofEntries _ hvalid]
  simp only [List.headD_cons, Nat.mul_div_cancel_left a hn]
  rw [Nat.mul_comm (k : ℕ), Nat.mul_add_div hpos, Nat.div_eq_of_lt hquot, Nat.add_zero,
    Nat.mul_add_mod, Nat.mod_eq_of_lt hquot, entryAt_of_lt x k.isLt, Tensor.flat, hshape, hindex,
    digits_mul_add (hrow r) hrem]

/-- The exchange of views of the same data gives views of the same data. -/
theorem allToAll_sameData {x y y' : Fin n → Tensor α} {a b : ℕ} {rest rest' : List ℕ} (hn : 0 < n)
    (hx : ∀ k, (x k).shape = n * a :: rest) (hy : ∀ k, (y k).shape = n * b :: rest')
    (hdata : ∀ k, Tensor.SameData (x k) (y k)) (hy' : allToAll y = some y') :
    ∃ x', allToAll x = some x' ∧ (∀ r, (x' r).shape = n * a :: rest) ∧
      ∀ r, Tensor.SameData (x' r) (y' r) := by
  obtain ⟨x', hx', hxShape, hxFlat⟩ := allToAll_flat hn hx
  obtain ⟨y'', hy'', hyShape, hyFlat⟩ := allToAll_flat hn hy
  obtain rfl : y'' = y' := Option.some.inj (hy''.symm.trans hy')
  refine ⟨x', hx', hxShape, ?_⟩
  intro r
  have hprod := (hdata r).prod_eq
  rw [hx, hy, List.prod_cons, List.prod_cons, Nat.mul_assoc, Nat.mul_assoc] at hprod
  have hpart := Nat.eq_of_mul_eq_mul_left hn hprod
  simp only [← hpart] at hyFlat
  constructor
  · rw [hxShape, hyShape, List.prod_cons, List.prod_cons, Nat.mul_assoc, Nat.mul_assoc, hprod]
  · intro i hi
    rw [hxShape, List.prod_cons, Nat.mul_assoc] at hi
    obtain ⟨hk, hw⟩ := div_mod_lt hi
    have hfrom := hxFlat r ⟨_, hk⟩ _ hw
    have hto := hyFlat r ⟨_, hk⟩ _ hw
    have hlt : r * (a * rest.prod) + i % (a * rest.prod) < (x ⟨_, hk⟩).shape.prod := by
      rw [hx, List.prod_cons, Nat.mul_assoc]
      exact mul_add_lt r.isLt hw
    rw [Nat.div_add_mod'] at hfrom hto
    rw [hfrom, (hdata _).flat_eq _ hlt, hto]

/-! ### What is put together -/

theorem insertIdx_append {β : Type*} (xs ys : List β) (a : β) :
    (xs ++ ys).insertIdx xs.length a = xs ++ a :: ys := by
  induction xs with
  | nil => rfl
  | cons x xs ih => rw [List.cons_append, List.length_cons, List.insertIdx_succ_cons, ih]; rfl

/-- The order of the axes that inserting the front one gives. -/
theorem insertIdx_range' {d k : ℕ} (hd : d ≤ k) :
    (List.range' 1 k).insertIdx d 0 = Tensor.backPerm d (k + 1) := by
  have hparts : List.range' 1 k = List.range' 1 d ++ List.range' (d + 1) (k - d) := by
    rw [Nat.add_comm d 1, List.range'_append_1, Nat.add_sub_cancel' hd]
  have hinsert := insertIdx_append (List.range' 1 d) (List.range' (d + 1) (k - d)) 0
  rw [List.length_range', ← hparts] at hinsert
  rw [hinsert, Tensor.backPerm, Nat.add_sub_add_right]

/-- On every path the parts are put together along the gathered axis. -/
theorem finishAllToAll_eq {shape rest : List ℕ} {output parts : Tensor α} {s c w size : ℕ}
    (hc : c < shape.length) (hne : s ≠ c) (hn : 0 < n)
    (hsize : shape.getD s 0 = n * w) (hshape : output.shape = n * size :: rest)
    (hrest : size :: rest = (shape.set s w).drop (if leadingOnes shape s then s else 0))
    (hparts : parts.shape = n :: shape.set s w) (hdata : Tensor.SameData output parts) :
    finishAllToAll shape output s c n = reconstructAllToAll parts c := by
  set R := shape.set s w with hR
  have hcR : c < R.length := by rw [hR, List.length_set]; exact hc
  have hfinal : finalShape shape s c n = R.set c (n * R.getD c 0) := by
    simp only [finalShape, if_pos hne, hsize, Nat.mul_div_cancel_left w hn, ← hR, Nat.mul_comm]
  have htake : (R.set c (n * R.getD c 0)).take c = R.take c := List.take_set_of_le (Nat.le_refl c)
  have hbefore : (R.take c).length = c := List.length_take_of_le hcR.le
  have hafter : c + ((R.getD c 0 :: R.drop (c + 1)).length + 1) = R.length + 1 := by
    rw [List.length_cons, List.length_drop]
    omega
  have hfront : parts.shape = n :: (R.take c ++ R.getD c 0 :: R.drop (c + 1)) := by
    rw [← split_getD hcR, hparts]
  rw [reconstructAllToAll_eq_reshape hparts hcR]
  simp only [finishAllToAll, hfinal]
  by_cases hpost : leadingOnes (R.set c (n * R.getD c 0)) c
  · have hones : ∀ size ∈ R.take c, size = 1 := by rwa [leadingOnes, htake] at hpost
    have hback := Tensor.sameData_permute_back hfront hones
    rw [hbefore, hafter] at hback
    rw [if_pos hpost, (hdata.trans hback).reshape_eq]
  · set lead := if leadingOnes shape s then s else 0 with hlead
    have honesLead : ∀ size ∈ R.take lead, size = 1 := by
      rw [hlead, hR]
      split_ifs with hpre
      · rwa [List.take_set_of_le (Nat.le_refl s)]
      · simp
    have hleadc : lead ≤ c := by
      rw [hlead]
      split_ifs with hpre
      · by_contra hlt
        refine hpost fun size hmem => hpre size ?_
        rw [htake, hR, List.take_set_of_le (by omega)] at hmem
        exact List.take_subset_take_left _ (by omega) hmem
      · exact Nat.zero_le c
    have hrecon : (if leadingOnes shape s then c - s else c) = c - lead := by
      rw [hlead]
      split_ifs <;> rfl
    have hdrop : (size :: rest).length = R.length - lead := by rw [hrest, List.length_drop]
    have hcrest : c - lead < (size :: rest).length := by omega
    obtain ⟨view, hview, hviewData, hviewShape⟩ := Tensor.exists_reshape output
      (n :: size :: rest) (by rw [hshape]; simp [Nat.mul_assoc])
    have hperm : (if c - lead ≥ (List.range' 1 (view.shape.length - 1)).length then
        List.range' 1 (view.shape.length - 1) ++ [0]
        else (List.range' 1 (view.shape.length - 1)).insertIdx (c - lead) 0) =
        Tensor.backPerm (c - lead) ((size :: rest).length + 1) := by
      rw [hviewShape, List.length_range', List.length_cons, Nat.add_sub_cancel,
        if_neg (Nat.not_le.2 hcrest), insertIdx_range' hcrest.le]
    have hones : (R.take lead).length = lead := List.length_take_of_le (by omega)
    have hmid : ((size :: rest).take (c - lead)).length = c - lead :=
      List.length_take_of_le hcrest.le
    have hplace : (R.take lead ++ (size :: rest).take (c - lead)).length = c := by
      rw [List.length_append, hones, hmid, Nat.add_sub_cancel' hleadc]
    have hviewEnd : c - lead + (((size :: rest).drop (c - lead)).length + 1) =
        (size :: rest).length + 1 := by
      rw [List.length_drop]
      omega
    have hpartsEnd : c + (((size :: rest).drop (c - lead)).length + 1) = R.length + 1 := by
      rw [List.length_drop, hdrop]
      omega
    -- the received parts with and without the leading axes of size 1
    have hviewParts : view.shape =
        n :: ((size :: rest).take (c - lead) ++ (size :: rest).drop (c - lead)) := by
      rw [List.take_append_drop, hviewShape]
    have hpartsParts : parts.shape = n :: (R.take lead ++
        ((size :: rest).take (c - lead) ++ (size :: rest).drop (c - lead))) := by
      rw [List.take_append_drop, hrest, List.take_append_drop, hparts]
    have hmoved := (hdata.symm.trans hviewData).permute_back hpartsParts hviewParts honesLead
    rw [hplace, hmid, hviewEnd, hpartsEnd] at hmoved
    obtain ⟨hviewBack, -⟩ := Tensor.permute_back hviewParts
    rw [hmid, hviewEnd] at hviewBack
    have hmerge := reconstructAllToAll_eq_reshape hviewShape hcrest
    obtain ⟨merged, hmerged, hmergedData, -⟩ := Tensor.exists_reshape
      (view.permute (Tensor.backPerm (c - lead) ((size :: rest).length + 1)))
      ((size :: rest).set (c - lead) (n * (size :: rest).getD (c - lead) 0)) (by
        rw [hviewBack, set_eq hcrest, List.drop_eq_getElem_cons hcrest,
          ← List.getD_eq_getElem _ 0 hcrest]
        simp only [List.prod_append, List.prod_cons]
        ring)
    have hlength : (view.permute
        (Tensor.backPerm (c - lead) ((size :: rest).length + 1))).shape.length - 1 =
        (size :: rest).length := by
      rw [hviewBack, List.length_append, hmid, List.length_cons]
      omega
    rw [hmerged, reconstructAllToAll, hviewShape, List.length_cons] at hmerge
    simp only [if_neg hpost, hrecon, hshape, List.headD_cons, Nat.mul_div_cancel_left size hn,
      List.drop_one, List.tail_cons, hview, Option.bind_eq_bind, Option.bind_some, hperm, hlength,
      if_pos hcrest, hmerge]
    rw [hmoved.reshape_eq]
    by_cases hpre : leadingOnes shape s
    · rw [if_pos hpre, hmergedData.reshape_eq]
    · rw [if_neg hpre] at hlead
      rw [if_neg hpre, ← hmerged, hrest, hlead]
      rfl

/-! ### The whole exchange -/

/-- With equal shapes on all ranks, two different axes and a group that divides the split one, every
rank gets the chunks that its peers hold for it, side by side. -/
theorem constructAllToAll_eq_cat {x : Fin n → Tensor α} {shape : List ℕ} {splitDim concatDim : ℕ}
    (hshape : ∀ r, (x r).shape = shape) (hs : splitDim < shape.length)
    (hc : concatDim < shape.length) (hne : splitDim ≠ concatDim)
    (hdvd : n ∣ shape.getD splitDim 0) :
    ∃ y, constructAllToAll x splitDim concatDim = some y ∧
      ∀ r : Fin n, (cat (fun k => chunkAt (x k) splitDim n r) concatDim).map (· r) =
        some (y r) := by
  obtain ⟨w, hsize⟩ := hdvd
  rcases Nat.eq_zero_or_pos n with rfl | hn
  · have hsends : (everyRank fun r => prepareAllToAll (x r) splitDim 0) = some fun r => r.elim0 :=
      everyRank_eq_some_iff.2 fun r => r.elim0
    refine ⟨fun r => r.elim0, ?_, fun r => r.elim0⟩
    rw [constructAllToAll, hsends, Option.bind_eq_bind, Option.bind_some, allToAll,
      if_pos fun r => r.elim0, Option.bind_some]
    exact everyRank_eq_some_iff.2 fun r => r.elim0
  set R := shape.set splitDim w with hR
  have hcR : concatDim < R.length := by rw [hR, List.length_set]; exact hc
  have hlead : (if leadingOnes shape splitDim then splitDim else 0) < R.length := by
    rw [hR, List.length_set]
    split_ifs <;> omega
  have hrest := (List.drop_eq_getElem_cons hlead).symm
  have hprepare : ∀ r, ∃ send, _ := fun r => prepareAllToAll_sameData (x r)
    (by rw [hshape]; exact hs) hn (by rw [hshape]; exact hsize) (by rw [hshape]; exact hrest)
  choose sends hsends hsendShape hsendData using hprepare
  simp only [hshape, ← hR] at hsendData
  -- the exchange of the parts themselves, and of the views that are sent
  have hexchange := allToAll_eq x R
    (fun a idx => idx.set splitDim (a * w + idx.getD splitDim 0)) hn
  obtain ⟨received, hreceived, hreceivedShape, hreceivedData⟩ :=
    allToAll_sameData hn hsendShape (fun _ => by rw [Tensor.shape_ofEntries, Nat.mul_one])
      hsendData hexchange
  have hfinish : ∀ r : Fin n, finishAllToAll (x r).shape (received r) splitDim concatDim n = _ :=
    fun r => by
      rw [hshape, finishAllToAll_eq hc hne hn hsize (hreceivedShape r) hrest rfl (hreceivedData r),
        reconstructAllToAll_eq _ rfl hcR]
  refine ⟨_, Eq.trans ?_ (everyRank_eq_some_iff.2 hfinish), ?_⟩
  · rw [constructAllToAll, everyRank_eq_some_iff.2 hsends, Option.bind_eq_bind, Option.bind_some,
      hreceived, Option.bind_some]
  · intro r
    have hchunk : ∀ k, chunkAt (x k) splitDim n r = Tensor.ofEntries R fun idx =>
        (x k).entry (idx.set splitDim (r * w + idx.getD splitDim 0)) := by
      intro k
      simp only [chunkAt, hshape, hsize, Nat.mul_div_cancel_left w hn, hR]
    rw [cat_eq fun k => by rw [hchunk, Tensor.shape_ofEntries], Option.map_some]
    congr 1
    apply Tensor.ofEntries_congr
    intro idx hidx
    obtain ⟨-, -, hb, -⟩ := hidx.split_set hcR
    obtain ⟨hdiv, hmod⟩ := div_mod_lt hb
    have hvalid : Valid R (idx.set concatDim (idx.getD concatDim 0 % R.getD concatDim 0)) :=
      hidx.set_index hcR hmod
    rw [entryAt_of_lt _ hdiv, Tensor.entry_ofEntries _ (List.forall₂_cons.2 ⟨hdiv, hvalid⟩),
      List.headD_cons, List.tail_cons, entryAt_of_lt _ hdiv, hchunk,
      Tensor.entry_ofEntries _ hvalid]

/-- Two ranks with the square 0, 1, 2, 3 each, whose columns become rows. -/
theorem constructAllToAll_eq_cat_square :
    ∃ y, constructAllToAll (n := 2)
        (fun _ => Tensor.ofEntries [2, 2] fun idx => MixedRadix.ofDigits [2, 2] idx) 1 0 = some y ∧
      ∀ r : Fin 2, (cat (fun k : Fin 2 => chunkAt
        ((fun _ => Tensor.ofEntries [2, 2] fun idx => MixedRadix.ofDigits [2, 2] idx) k)
          1 2 r) 0).map (· r) = some (y r) :=
  constructAllToAll_eq_cat (fun _ => rfl) (by decide) (by decide) (by decide) (by decide)

end HyperParallel.DTensor
