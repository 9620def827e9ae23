import HyperParallel.Checkpoint.ConversionOps
import HyperParallel.Lib.ExceptList

/-!
# The conversion operations and their reverses

* `groupParts_spec`, `splitGroups_spec`: rows grouped by head and taken apart again;
* `yields_reverseOp`: on tensors of the shapes it is made for an operation succeeds, and its reverse
  gives them back;
* `convert_reverse`: so do the conversions of what has been collected for the patterns.
-/

namespace HyperParallel.Conversion

variable {α : Type} [Zero α]

theorem mapM_some_of_forall₂ {β γ : Type} {f : β → Option γ} {l : List β} {ys : List γ}
    (h : List.Forall₂ (fun x y => f x = some y) l ys) : l.mapM f = some ys := by
  induction h with
  | nil => rfl
  | cons hx _ ih =>
    rw [List.mapM_cons, hx, ih]
    rfl

/-! ### Merged axes -/

section Flatten

variable {t u : Tensor α} {rest : List ℕ} {n : ℕ}

/-- Merging the axes that a reshape has made. -/
theorem flattenFront_of_reshape (front : List ℕ) (hn : front.length = n) (hu : u.shape = front.prod :: rest)
    (h : u.reshape (front ++ rest) = some t) : flattenFront t n = some u := by
  rw [flattenFront, (Tensor.sameData_of_reshape h).2, List.take_left' hn, List.drop_left' hn, ← hu]
  exact Tensor.reshape_reshape h

theorem exists_flattenFront (front : List ℕ) (hn : front.length = n) (ht : t.shape = front ++ rest) :
    ∃ u, flattenFront t n = some u ∧ u.shape = front.prod :: rest ∧
      u.reshape (front ++ rest) = some t := by
  have hprod : (front.prod :: rest).prod = t.shape.prod := by
    rw [ht, List.prod_append, List.prod_cons]
  obtain ⟨u, hu, -⟩ := Tensor.exists_reshape t (front.prod :: rest) hprod
  refine ⟨u, ?_, (Tensor.sameData_of_reshape hu).2, ht ▸ Tensor.reshape_reshape hu⟩
  rw [flattenFront, ht, List.take_left' hn, List.drop_left' hn, hu]

end Flatten

/-! ### Groups -/

namespace GqaLayout

variable {g : GqaLayout} {trailing sections : List ℕ}
  {pieces : List (Tensor α)} {grouped : Tensor α}

/-- The part of every head is a piece of its group. -/
def Pieces (g : GqaLayout) (trailing : List ℕ) (parts : List (Tensor α × ℕ))
    (pieces : List (Tensor α)) : Prop :=
  List.Forall₂ (fun part piece =>
    part.1.reshape (g.numKeyValueHeads :: part.2 :: trailing) = some piece) parts pieces

/-- The parts side by side in every group, and apart again. -/
theorem groupParts_spec (parts : List (Tensor α × ℕ)) (hne : parts ≠ []) (h : g.Pieces trailing parts pieces) :
    ∃ grouped, g.groupParts trailing parts = some grouped ∧
      grouped.shape = (g.numKeyValueHeads * (parts.map Prod.snd).sum) :: trailing ∧
      g.splitGroups (parts.map Prod.snd) grouped = some pieces := by
  have hshape : List.Forall₂ (fun part piece =>
      piece.shape = g.numKeyValueHeads :: part.2 :: trailing) parts pieces :=
    h.imp fun _ _ hpiece => (Tensor.sameData_of_reshape hpiece).2
  have hsizes : Tensor.sizes 1 pieces = parts.map Prod.snd := by
    clear h hne
    induction hshape with
    | nil => rfl
    | cons hpiece _ ih =>
      rw [List.map_cons, ← ih, Tensor.sizes, Tensor.sizes, List.map_cons, hpiece]
      rfl
  have hcat : ∃ whole, Tensor.catAlong pieces 1 = some whole ∧
      whole.shape = g.numKeyValueHeads :: (parts.map Prod.snd).sum :: trailing := by
    cases hshape with
    | nil => exact absurd rfl hne
    | @cons part first parts rest hfirst hrest =>
      have hrank : ∀ piece ∈ rest, piece.shape.set 1 0 = first.shape.set 1 0 := by
        intro piece hpiece
        have hall : ∃ size, piece.shape = g.numKeyValueHeads :: size :: trailing := by
          clear h hne hsizes
          induction hrest with
          | nil => cases hpiece
          | cons hhead _ ih =>
            rcases List.mem_cons.1 hpiece with rfl | hpiece
            · exact ⟨_, hhead⟩
            · exact ih hpiece
        obtain ⟨size, hsize⟩ := hall
        rw [hsize, hfirst]
        rfl
      refine ⟨_, if_pos ⟨by rw [hfirst]; simp, hrank⟩, ?_⟩
      rw [Tensor.shape_ofEntries, hsizes, hfirst]
      rfl
  obtain ⟨whole, hwhole, hwholeShape⟩ := hcat
  obtain ⟨grouped, hgrouped, hgroupedShape, hback⟩ :=
    exists_flattenFront [g.numKeyValueHeads, (parts.map Prod.snd).sum] rfl hwholeShape
  rw [List.prod_cons, List.prod_cons, List.prod_nil, Nat.mul_one] at hgroupedShape
  refine ⟨grouped, ?_, hgroupedShape, ?_⟩
  · rw [groupParts, mapM_some_of_forall₂ h]
    show (Tensor.catAlong pieces 1 >>= fun whole => flattenFront whole 2) = _
    rw [hwhole]
    exact hgrouped
  · have hsplit := Tensor.splitAlong_of_catAlong hwhole
    rw [hsizes] at hsplit
    rw [splitGroups, hgroupedShape, List.tail_cons]
    show (grouped.reshape ([_, _] ++ trailing) >>= _) = _
    rw [hback]
    exact hsplit

/-- Groups taken apart, and side by side again. -/
theorem splitGroups_spec (hne : sections ≠ [])
    (h : grouped.shape = (g.numKeyValueHeads * sections.sum) :: trailing) :
    ∃ pieces, g.splitGroups sections grouped = some pieces ∧
      List.Forall₂ (fun size piece => piece.shape = g.numKeyValueHeads :: size :: trailing)
        sections pieces ∧
      ∀ parts : List (Tensor α × ℕ), g.Pieces trailing parts pieces →
        g.groupParts trailing parts = some grouped := by
  have hprod : (g.numKeyValueHeads :: sections.sum :: trailing).prod = grouped.shape.prod := by
    rw [h, List.prod_cons, List.prod_cons, List.prod_cons, Nat.mul_assoc]
  obtain ⟨whole, hwhole, -⟩ := Tensor.exists_reshape grouped _ hprod
  have hshape := (Tensor.sameData_of_reshape hwhole).2
  have hsplit : whole.splitAlong sections 1 = some (whole.narrows 1 0 sections) := by
    rw [Tensor.splitAlong, if_pos]
    rw [hshape]
    exact ⟨by simp, rfl⟩
  refine ⟨whole.narrows 1 0 sections, ?_, ?_, fun parts hparts => ?_⟩
  · rw [splitGroups, h, List.tail_cons]
    show (grouped.reshape _ >>= _) = _
    rw [hwhole]
    exact hsplit
  · clear hsplit hprod hwhole h hne
    generalize 0 = start
    revert hshape
    generalize sections.sum = total
    intro hshape
    induction sections generalizing start with
    | nil => exact .nil
    | cons size sections ih =>
      refine .cons ?_ (ih _)
      rw [Tensor.narrowAlong, Tensor.shape_ofEntries, hshape]
      rfl
  · rw [groupParts, mapM_some_of_forall₂ hparts]
    show (Tensor.catAlong _ 1 >>= fun whole => flattenFront whole 2) = _
    rw [Tensor.catAlong_of_splitAlong hne hsplit]
    refine flattenFront_of_reshape [g.numKeyValueHeads, sections.sum] rfl ?_ hwhole
    rw [h, List.prod_cons, List.prod_cons, List.prod_nil, Nat.mul_one]

/-- A part whose rows divide into the heads has a piece. -/
theorem exists_piece {t : Tensor α} {size : ℕ}
    (h : t.shape = (g.numKeyValueHeads * size) :: trailing) :
    ∃ piece, t.reshape (g.numKeyValueHeads :: size :: trailing) = some piece ∧
      flattenFront piece 2 = some t := by
  obtain ⟨piece, hpiece, -⟩ := Tensor.exists_reshape t (g.numKeyValueHeads :: size :: trailing)
    (by rw [h, List.prod_cons, List.prod_cons, List.prod_cons, Nat.mul_assoc])
  refine ⟨piece, hpiece, flattenFront_of_reshape [g.numKeyValueHeads, size] rfl ?_ hpiece⟩
  rw [h, List.prod_cons, List.prod_cons, List.prod_nil, Nat.mul_one]

theorem exists_part {piece : Tensor α} {size : ℕ}
    (h : piece.shape = g.numKeyValueHeads :: size :: trailing) :
    ∃ t, flattenFront piece 2 = some t ∧ t.shape = (g.numKeyValueHeads * size) :: trailing ∧
      t.reshape (g.numKeyValueHeads :: size :: trailing) = some piece := by
  obtain ⟨t, ht, hshape, hback⟩ :=
    exists_flattenFront [g.numKeyValueHeads, size] rfl h
  rw [List.prod_cons, List.prod_cons, List.prod_nil, Nat.mul_one] at hshape
  exact ⟨t, ht, hshape, hback⟩

/-- `DeinterleaveQKV` after `InterleaveQKV`. -/
theorem ungroup_group {query key value : Tensor α}
    (hquery : query.shape =
      (g.numKeyValueHeads * (g.numKeyValueGroups * g.queryHeadDim)) :: trailing)
    (hkey : key.shape = (g.numKeyValueHeads * g.queryHeadDim) :: trailing)
    (hvalue : value.shape = (g.numKeyValueHeads * g.valueHeadDim) :: trailing) :
    ∃ grouped, g.group query key value = some grouped ∧
      grouped.shape = (g.numKeyValueHeads * g.groupSections.sum) :: trailing ∧
      g.ungroup grouped = some [query, key, value] := by
  obtain ⟨queryPiece, hq, hqback⟩ := exists_piece hquery
  obtain ⟨keyPiece, hk, hkback⟩ := exists_piece hkey
  obtain ⟨valuePiece, hv, hvback⟩ := exists_piece hvalue
  obtain ⟨grouped, hgrouped, hshape, hsplit⟩ := groupParts_spec (g := g)
    ([query, key, value].zip g.groupSections) (by simp [groupSections])
    (.cons hq (.cons hk (.cons hv .nil)))
  refine ⟨grouped, ?_, hshape, ?_⟩
  · rw [group, hquery]
    exact hgrouped
  · have hsplit : g.splitGroups g.groupSections grouped =
        some [queryPiece, keyPiece, valuePiece] := hsplit
    rw [ungroup, hsplit]
    exact mapM_some_of_forall₂ (.cons hqback (.cons hkback (.cons hvback .nil)))

/-- `InterleaveQKV` after `DeinterleaveQKV`. -/
theorem group_ungroup
    (h : grouped.shape = (g.numKeyValueHeads * g.groupSections.sum) :: trailing) :
    ∃ query key value : Tensor α, g.ungroup grouped = some [query, key, value] ∧
      query.shape = (g.numKeyValueHeads * (g.numKeyValueGroups * g.queryHeadDim)) :: trailing ∧
      key.shape = (g.numKeyValueHeads * g.queryHeadDim) :: trailing ∧
      value.shape = (g.numKeyValueHeads * g.valueHeadDim) :: trailing ∧
      g.group query key value = some grouped := by
  obtain ⟨pieces, hsplit, hshapes, hback⟩ := splitGroups_spec (by simp [groupSections]) h
  obtain _ | ⟨hqshape, _ | ⟨hkshape, _ | ⟨hvshape, _ | _⟩⟩⟩ := hshapes
  obtain ⟨query, hq, hquery, hqback⟩ := exists_part hqshape
  obtain ⟨key, hk, hkey, hkback⟩ := exists_part hkshape
  obtain ⟨value, hv, hvalue, hvback⟩ := exists_part hvshape
  refine ⟨query, key, value, ?_, hquery, hkey, hvalue, ?_⟩
  · rw [ungroup, hsplit]
    exact mapM_some_of_forall₂ (.cons hq (.cons hk (.cons hv .nil)))
  · rw [group, hquery]
    exact hback _ (.cons hqback (.cons hkback (.cons hvback .nil)))

/-! ### Gates -/

/-- The axes of the queries and gates of all heads. -/
def gateAxes (g : GqaLayout) : List ℕ :=
  [g.numKeyValueHeads, g.numKeyValueGroups, 2, g.queryHeadDim]

theorem prod_heads (g : GqaLayout) (trailing : List ℕ) :
    (g.numKeyValueHeads :: g.numKeyValueGroups :: g.queryHeadDim :: trailing).prod =
      (g.numKeyValueHeads :: (g.numKeyValueGroups * g.queryHeadDim) :: trailing).prod := by
  simp only [List.prod_cons, Nat.mul_assoc]

/-- `DeinterleaveGateQKV` after `InterleaveGateQKV`. -/
theorem gateUngroup_gateGroup {queryGate key value : Tensor α}
    (hqueryGate : queryGate.shape = g.gateAxes.prod :: trailing)
    (hkey : key.shape = (g.numKeyValueHeads * g.queryHeadDim) :: trailing)
    (hvalue : value.shape = (g.numKeyValueHeads * g.valueHeadDim) :: trailing) :
    ∃ grouped, g.gateGroup queryGate key value = some grouped ∧
      grouped.shape = (g.numKeyValueHeads * g.gateSections.sum) :: trailing ∧
      g.gateUngroup grouped = some [queryGate, key, value] := by
  obtain ⟨heads, hheads, -, hshape⟩ := Tensor.exists_reshape queryGate (g.gateAxes ++ trailing)
    (by rw [hqueryGate, List.prod_append, List.prod_cons])
  have hselect : ∀ i, (heads.select 2 i).shape =
      g.numKeyValueHeads :: g.numKeyValueGroups :: g.queryHeadDim :: trailing := by
    intro i
    rw [Tensor.select, Tensor.shape_ofEntries, hshape]
    rfl
  have hpiece : ∀ i, ∃ piece, (heads.select 2 i).reshape
      (g.numKeyValueHeads :: (g.numKeyValueGroups * g.queryHeadDim) :: trailing) = some piece :=
    fun i => (Tensor.exists_reshape _ _ (by rw [hselect, prod_heads])).imp fun _ h => h.1
  obtain ⟨queryPiece, hq⟩ := hpiece 0
  obtain ⟨gatePiece, hgate⟩ := hpiece 1
  obtain ⟨keyPiece, hk, hkback⟩ := exists_piece hkey
  obtain ⟨valuePiece, hv, hvback⟩ := exists_piece hvalue
  obtain ⟨grouped, hgrouped, hgroupedShape, hsplit⟩ := groupParts_spec (g := g)
    ([heads.select 2 0, key, value, heads.select 2 1].zip g.gateSections) (by simp [gateSections])
    (.cons hq (.cons hk (.cons hv (.cons hgate .nil))))
  have hsplit : g.splitGroups g.gateSections grouped =
      some [queryPiece, keyPiece, valuePiece, gatePiece] := hsplit
  refine ⟨grouped, ?_, hgroupedShape, ?_⟩
  · rw [gateGroup, hqueryGate, List.tail_cons]
    show (queryGate.reshape (g.gateAxes ++ trailing) >>= _) = _
    rw [hheads]
    exact hgrouped
  · have hqback := Tensor.reshape_reshape hq
    have hgateback := Tensor.reshape_reshape hgate
    rw [hselect] at hqback hgateback
    have hstack : Tensor.stackPair (heads.select 2 0) (heads.select 2 1) 2 = some heads :=
      Tensor.stackPair_select (by rw [hshape]; simp [gateAxes]) (by rw [hshape]; rfl)
    have hflat : flattenFront heads 4 = some queryGate :=
      flattenFront_of_reshape g.gateAxes rfl hqueryGate hheads
    simp only [gateUngroup, hgroupedShape, List.tail_cons, hsplit, Option.bind_eq_bind,
      Option.bind_some, hqback, hgateback, hstack, hflat, hkback, hvback]

/-- `InterleaveGateQKV` after `DeinterleaveGateQKV`. -/
theorem gateGroup_gateUngroup
    (h : grouped.shape = (g.numKeyValueHeads * g.gateSections.sum) :: trailing) :
    ∃ queryGate key value : Tensor α, g.gateUngroup grouped = some [queryGate, key, value] ∧
      queryGate.shape = g.gateAxes.prod :: trailing ∧
      key.shape = (g.numKeyValueHeads * g.queryHeadDim) :: trailing ∧
      value.shape = (g.numKeyValueHeads * g.valueHeadDim) :: trailing ∧
      g.gateGroup queryGate key value = some grouped := by
  obtain ⟨pieces, hsplit, hshapes, hback⟩ := splitGroups_spec (by simp [gateSections]) h
  obtain _ | ⟨hqshape, _ | ⟨hkshape, _ | ⟨hvshape, _ | ⟨hgshape, _ | _⟩⟩⟩⟩ := hshapes
  rename_i queryPiece keyPiece valuePiece gatePiece
  obtain ⟨key, hk, hkey, hkback⟩ := exists_part hkshape
  obtain ⟨value, hv, hvalue, hvback⟩ := exists_part hvshape
  obtain ⟨query, hquery, -, hqueryShape⟩ := Tensor.exists_reshape queryPiece
    (g.numKeyValueHeads :: g.numKeyValueGroups :: g.queryHeadDim :: trailing)
    (by rw [hqshape, prod_heads])
  obtain ⟨gate, hgate, -, hgateShape⟩ := Tensor.exists_reshape gatePiece
    (g.numKeyValueHeads :: g.numKeyValueGroups :: g.queryHeadDim :: trailing)
    (by rw [hgshape, prod_heads])
  obtain ⟨heads, hstack⟩ : ∃ heads, Tensor.stackPair query gate 2 = some heads :=
    ⟨_, if_pos ⟨by rw [hqueryShape]; simp, by rw [hqueryShape, hgateShape]⟩⟩
  have hheads : heads.shape = g.gateAxes ++ trailing := by
    unfold Tensor.stackPair at hstack
    split_ifs at hstack
    rw [← Option.some.inj hstack, Tensor.shape_ofEntries, hqueryShape]
    rfl
  obtain ⟨hselect0, hselect1⟩ := Tensor.select_stackPair hstack
  obtain ⟨queryGate, hflat, hqueryGate, hunflat⟩ :=
    exists_flattenFront g.gateAxes (n := 4) rfl hheads
  have hqback := Tensor.reshape_reshape hquery
  have hgateback := Tensor.reshape_reshape hgate
  rw [hqshape] at hqback
  rw [hgshape] at hgateback
  refine ⟨queryGate, key, value, ?_, hqueryGate, hkey, hvalue, ?_⟩
  · simp only [gateUngroup, h, List.tail_cons, hsplit, Option.bind_eq_bind, Option.bind_some,
      hquery, hgate, hstack, hflat, hk, hv]
  · rw [gateGroup, hqueryGate, List.tail_cons]
    show (queryGate.reshape (g.gateAxes ++ trailing) >>= _) = _
    rw [hunflat]
    show g.groupParts trailing ([heads.select 2 0, key, value, heads.select 2 1].zip _) = _
    rw [hselect0, hselect1]
    exact hback _ (.cons hqback (.cons hkback (.cons hvback (.cons hgateback .nil))))

end GqaLayout

/-! ### Sections -/

namespace Sections

variable {s : Sections} {base : List ℕ} {axis : ℕ} {tensors : List (Tensor α)} {whole : Tensor α}

theorem axisOf_lt {dim : ℤ} {rank : ℕ} (h : axisOf dim rank = some axis) : axis < rank := by
  unfold axisOf at h
  split_ifs at h <;>
  · have := Option.some.inj h
    omega

/-- The tensors have the configured sizes and agree in every other axis. -/
def Sized (s : Sections) (base : List ℕ) (axis : ℕ) (tensors : List (Tensor α)) : Prop :=
  axisOf s.dim base.length = some axis ∧
    List.Forall₂ (fun size t => t.shape = base.set axis size) s.sections tensors

theorem Sized.sizes (h : s.Sized base axis tensors) :
    Tensor.sizes axis tensors = s.sections := by
  obtain ⟨haxis, h⟩ := h
  generalize s.sections = sections at h
  induction h with
  | nil => rfl
  | cons hshape _ ih =>
    rw [Tensor.sizes] at ih ⊢
    rw [List.map_cons, ih, hshape, getD_set_self (axisOf_lt haxis)]

theorem Sized.concatenate_eq (h : s.Sized base axis tensors) :
    s.concatenate tensors = ConversionError.torch (Tensor.catAlong tensors axis) := by
  have hlt := axisOf_lt h.1
  have hactual : tensors.mapM (sizeAt s.dim) = .ok s.sections := by
    refine ExceptList.mapM_of_forall₂ (h.2.flip.imp fun t size hshape => ?_)
    rw [sizeAt, hshape, List.length_set, h.1]
    exact congrArg _ (getD_set_self hlt)
  have hrank : (tensors.headD default).shape.length = base.length := by
    obtain ⟨haxis, hshapes⟩ := h
    have htwo := s.two_le
    generalize s.sections = sections at hshapes htwo
    cases hshapes with
    | nil => simp at htwo
    | cons hshape _ => rw [List.headD_cons, hshape, List.length_set]
  simp only [concatenate, hactual, hrank, h.1, bind, Except.bind, ne_eq, not_true_eq_false,
    if_false, Option.bind_some]

/-- The tensor splits into the sections. -/
def Whole (s : Sections) (whole : Tensor α) : Prop :=
  ∃ axis, axisOf s.dim whole.shape.length = some axis ∧
    s.sections.sum = whole.shape.getD axis 0

/-- `Split` after `ConcatenateWithSections`. -/
theorem split_concatenate (h : s.Sized base axis tensors) :
    ∃ whole, s.concatenate tensors = .ok whole ∧ s.Whole whole ∧ s.split whole = .ok tensors := by
  have hlt := axisOf_lt h.1
  have hsizes := h.sizes
  have hcat : ∃ whole, Tensor.catAlong tensors axis = some whole ∧
      whole.shape = base.set axis s.sections.sum := by
    obtain ⟨haxis, hshapes⟩ := h
    have htwo := s.two_le
    cases hshapes' : tensors with
    | nil =>
      rw [hshapes'] at hshapes
      rw [hshapes.length_eq] at htwo
      simp at htwo
    | cons first rest =>
      have hall : ∀ t ∈ first :: rest, ∃ size, t.shape = base.set axis size := by
        intro t ht
        rw [hshapes'] at hshapes
        exact ExceptList.exists_of_forall₂ hshapes.flip ht
      obtain ⟨size, hfirst⟩ := hall first List.mem_cons_self
      have hrest : ∀ t ∈ rest, t.shape.set axis 0 = first.shape.set axis 0 := by
        intro t ht
        obtain ⟨size', hshape⟩ := hall t (List.mem_cons_of_mem _ ht)
        rw [hshape, hfirst, List.set_set, List.set_set]
      refine ⟨_, if_pos ⟨by rw [hfirst, List.length_set]; exact hlt, hrest⟩, ?_⟩
      rw [Tensor.shape_ofEntries, ← hshapes', hsizes, hfirst, List.set_set]
  obtain ⟨whole, hwhole, hshape⟩ := hcat
  have hrank : axisOf s.dim whole.shape.length = some axis := by
    rw [hshape, List.length_set]
    exact h.1
  refine ⟨whole, by rw [h.concatenate_eq, hwhole]; rfl, ⟨axis, hrank, ?_⟩, ?_⟩
  · rw [hshape, getD_set_self hlt]
  · have hsplit := Tensor.splitAlong_of_catAlong hwhole
    rw [hsizes] at hsplit
    rw [split, hrank]
    show ConversionError.torch (whole.splitAlong s.sections axis) = _
    rw [hsplit]
    rfl

/-- `ConcatenateWithSections` after `Split`. -/
theorem concatenate_split (h : s.Whole whole) :
    ∃ tensors, s.split whole = .ok tensors ∧ tensors.length = s.sections.length ∧
      (∃ base axis, s.Sized base axis tensors) ∧ s.concatenate tensors = .ok whole := by
  obtain ⟨axis, hrank, hsum⟩ := h
  have hlt := axisOf_lt hrank
  have hsplit : whole.splitAlong s.sections axis = some (whole.narrows axis 0 s.sections) :=
    if_pos ⟨hlt, hsum⟩
  have hsized : s.Sized whole.shape axis (whole.narrows axis 0 s.sections) := by
    refine ⟨hrank, ?_⟩
    generalize 0 = start
    induction s.sections generalizing start with
    | nil => exact .nil
    | cons size sections ih => exact .cons rfl (ih _)
  have hne : s.sections ≠ [] := fun h => by
    have := s.two_le
    rw [h] at this
    simp at this
  refine ⟨_, ?_, Tensor.length_narrows .., ⟨_, _, hsized⟩, ?_⟩
  · rw [split, hrank]
    show ConversionError.torch (whole.splitAlong s.sections axis) = _
    rw [hsplit]
    rfl
  · rw [hsized.concatenate_eq, Tensor.catAlong_of_splitAlong hne hsplit]
    rfl

end Sections

/-! ### Operations -/

namespace ConversionOp

variable {op : ConversionOp} {s : Sections} {g : GqaLayout}
  {tensors outs : List (Tensor α)} {whole query key value grouped : Tensor α}

/-- From the collected tensors the operation makes the results, one for each target. -/
def Yields (op : ConversionOp) (tensors outs : List (Tensor α)) : Prop :=
  ∀ (inputDict : List (String × Collected α)) (sources targets : List String),
    sources.mapM (collect inputDict) = .ok tensors → targets.length = outs.length →
      targets.Nodup → op.convert inputDict sources targets = .ok (targets.zip outs)

theorem update_zip {targets : List String} (hlength : targets.length = outs.length)
    (h : targets.Nodup) : Dict.update [] (targets.zip outs) = targets.zip outs :=
  Dict.update_of_nodup (by rwa [List.nil_append, List.map_fst_zip hlength.le])

theorem length_of_mapM {inputDict : List (String × Collected α)} {sources : List String}
    (h : sources.mapM (collect inputDict) = .ok tensors) : sources.length = tensors.length :=
  (ExceptList.forall₂_of_mapM h).length_eq

/-- One tensor has been collected under one pattern. -/
theorem collect_of_mapM {inputDict : List (String × Collected α)} {sources : List String}
    (h : sources.mapM (collect inputDict) = .ok [whole]) :
    ∃ source, sources = [source] ∧ collect inputDict source = .ok whole := by
  obtain _ | ⟨hsource, _ | _⟩ := ExceptList.forall₂_of_mapM h
  exact ⟨_, rfl, hsource⟩

theorem yields_concatenate (hlength : tensors.length = s.sections.length)
    (h : s.concatenate tensors = .ok whole) :
    (concatenateWithSections s).Yields tensors [whole] := by
  intro inputDict sources targets hsources htargets _
  obtain ⟨target, rfl⟩ := List.length_eq_one_iff.1 htargets
  have hcount : sources.length = s.sections.length := (length_of_mapM hsources).trans hlength
  delta convert
  simp only [hcount, hsources, h, bind, Except.bind, ne_eq, not_true_eq_false, if_false]
  rfl

theorem yields_split (hlength : tensors.length = s.sections.length)
    (h : s.split whole = .ok tensors) : (split s).Yields [whole] tensors := by
  intro inputDict sources targets hsources htargets hnodup
  obtain ⟨source, rfl, hsource⟩ := collect_of_mapM hsources
  have hcount : targets.length = s.sections.length := htargets.trans hlength
  delta convert
  simp only [hcount, hsource, h, bind, Except.bind, ne_eq, not_true_eq_false, if_false]
  exact congrArg _ (update_zip htargets hnodup)

theorem yields_interleaveQKV (h : g.group query key value = some grouped) :
    (interleaveQKV g false).Yields [query, key, value] [grouped] := by
  intro inputDict sources targets hsources htargets _
  obtain ⟨target, rfl⟩ := List.length_eq_one_iff.1 htargets
  obtain ⟨a, b, c, rfl⟩ := List.length_eq_three.1 (length_of_mapM hsources)
  delta convert
  simp only [hsources, h, bind, Except.bind, ConversionError.torch]
  rfl

theorem yields_interleaveQKV_fused
    (hsplit : whole.splitAlong g.sourceSections 0 = some [query, key, value])
    (h : g.group query key value = some grouped) :
    (interleaveQKV g true).Yields [whole] [grouped] := by
  intro inputDict sources targets hsources htargets _
  obtain ⟨target, rfl⟩ := List.length_eq_one_iff.1 htargets
  obtain ⟨source, rfl, hsource⟩ := collect_of_mapM hsources
  delta convert
  simp only [hsource, hsplit, h, bind, Except.bind, ConversionError.torch, if_true]
  rfl

theorem yields_deinterleaveQKV (h : g.ungroup grouped = some [query, key, value]) :
    (deinterleaveQKV g false).Yields [grouped] [query, key, value] := by
  intro inputDict sources targets hsources htargets hnodup
  obtain ⟨source, rfl, hsource⟩ := collect_of_mapM hsources
  have hupdate := update_zip htargets hnodup
  obtain ⟨a, b, c, rfl⟩ := List.length_eq_three.1 htargets
  delta convert
  simp only [hsource, h, bind, Except.bind, ConversionError.torch]
  exact congrArg Except.ok hupdate

theorem yields_deinterleaveQKV_fused (h : g.ungroup grouped = some [query, key, value])
    (hcat : Tensor.catAlong [query, key, value] 0 = some whole) :
    (deinterleaveQKV g true).Yields [grouped] [whole] := by
  intro inputDict sources targets hsources htargets _
  obtain ⟨source, rfl, hsource⟩ := collect_of_mapM hsources
  obtain ⟨target, rfl⟩ := List.length_eq_one_iff.1 htargets
  delta convert
  simp only [hsource, h, hcat, bind, Except.bind, ConversionError.torch, if_true]
  rfl

theorem yields_interleaveGateQKV (h : g.gateGroup query key value = some grouped) :
    (interleaveGateQKV g).Yields [query, key, value] [grouped] := by
  intro inputDict sources targets hsources htargets _
  obtain ⟨target, rfl⟩ := List.length_eq_one_iff.1 htargets
  obtain ⟨a, b, c, rfl⟩ := List.length_eq_three.1 (length_of_mapM hsources)
  delta convert
  simp only [hsources, h, bind, Except.bind, ConversionError.torch]
  rfl

theorem yields_deinterleaveGateQKV (h : g.gateUngroup grouped = some [query, key, value]) :
    (deinterleaveGateQKV g).Yields [grouped] [query, key, value] := by
  intro inputDict sources targets hsources htargets hnodup
  obtain ⟨source, rfl, hsource⟩ := collect_of_mapM hsources
  have hupdate := update_zip htargets hnodup
  obtain ⟨a, b, c, rfl⟩ := List.length_eq_three.1 htargets
  delta convert
  simp only [hsource, h, bind, Except.bind, ConversionError.torch]
  exact congrArg Except.ok hupdate

/-- The tensors have the shapes that the operation is made for. -/
def Fits : ConversionOp → List (Tensor α) → Prop
  | concatenateWithSections s, tensors => ∃ base axis, s.Sized base axis tensors
  | split s, tensors => ∃ whole, tensors = [whole] ∧ s.Whole whole
  | interleaveQKV g sourceIsFused, tensors => ∃ trailing,
      tensors.map Tensor.shape = if sourceIsFused then [g.sourceSections.sum :: trailing]
        else g.sourceSections.map (· :: trailing)
  | deinterleaveQKV g _, tensors => ∃ trailing,
      tensors.map Tensor.shape = [(g.numKeyValueHeads * g.groupSections.sum) :: trailing]
  | interleaveGateQKV g, tensors => ∃ trailing,
      tensors.map Tensor.shape = [g.gateAxes.prod :: trailing,
        (g.numKeyValueHeads * g.queryHeadDim) :: trailing,
        (g.numKeyValueHeads * g.valueHeadDim) :: trailing]
  | deinterleaveGateQKV g, tensors => ∃ trailing,
      tensors.map Tensor.shape = [(g.numKeyValueHeads * g.gateSections.sum) :: trailing]

/-- How many targets the operation has. -/
def targetCount : ConversionOp → ℕ
  | split s => s.sections.length
  | deinterleaveQKV _ targetIsFused => if targetIsFused then 1 else 3
  | deinterleaveGateQKV _ => 3
  | _ => 1

theorem exists_of_map_one {shape : List ℕ} (h : tensors.map Tensor.shape = [shape]) :
    ∃ t, tensors = [t] ∧ t.shape = shape := by
  obtain ⟨t, rest, rfl, ht, hrest⟩ := List.map_eq_cons_iff.1 h
  exact ⟨t, by rw [List.map_eq_nil_iff.1 hrest], ht⟩

theorem exists_of_map_three {a b c : List ℕ} (h : tensors.map Tensor.shape = [a, b, c]) :
    ∃ t u v, tensors = [t, u, v] ∧ t.shape = a ∧ u.shape = b ∧ v.shape = c := by
  obtain ⟨t, rest, rfl, ht, hrest⟩ := List.map_eq_cons_iff.1 h
  obtain ⟨u, rest, rfl, hu, hrest⟩ := List.map_eq_cons_iff.1 hrest
  obtain ⟨v, rfl, hv⟩ := exists_of_map_one hrest
  exact ⟨t, u, v, rfl, ht, hu, hv⟩

/-- The fused rows and their three parts. -/
theorem splitAlong_sourceSections {trailing : List ℕ}
    (h : whole.shape = g.sourceSections.sum :: trailing) :
    ∃ query key value : Tensor α,
      whole.splitAlong g.sourceSections 0 = some [query, key, value] ∧
      query.shape = (g.numKeyValueHeads * (g.numKeyValueGroups * g.queryHeadDim)) :: trailing ∧
      key.shape = (g.numKeyValueHeads * g.queryHeadDim) :: trailing ∧
      value.shape = (g.numKeyValueHeads * g.valueHeadDim) :: trailing := by
  refine ⟨_, _, _, if_pos ⟨by rw [h]; simp, by rw [h]; rfl⟩, ?_, ?_, ?_⟩ <;>
  · rw [Tensor.narrowAlong, Tensor.shape_ofEntries, h]
    simp [Nat.mul_assoc]

theorem catAlong_sourceSections {trailing : List ℕ}
    (hquery : query.shape =
      (g.numKeyValueHeads * (g.numKeyValueGroups * g.queryHeadDim)) :: trailing)
    (hkey : key.shape = (g.numKeyValueHeads * g.queryHeadDim) :: trailing)
    (hvalue : value.shape = (g.numKeyValueHeads * g.valueHeadDim) :: trailing) :
    ∃ whole : Tensor α, Tensor.catAlong [query, key, value] 0 = some whole ∧
      whole.shape = g.sourceSections.sum :: trailing ∧
      whole.splitAlong g.sourceSections 0 = some [query, key, value] := by
  have hsizes : Tensor.sizes 0 [query, key, value] = g.sourceSections := by
    simp [Tensor.sizes, hquery, hkey, hvalue, GqaLayout.sourceSections, Nat.mul_assoc]
  obtain ⟨whole, hwhole, hshape⟩ : ∃ whole, Tensor.catAlong [query, key, value] 0 = some whole ∧
      whole.shape = query.shape.set 0 g.sourceSections.sum := by
    refine ⟨_, if_pos ?_, by rw [Tensor.shape_ofEntries, hsizes]⟩
    simp [hquery, hkey, hvalue]
  have hsplit := Tensor.splitAlong_of_catAlong hwhole
  rw [hsizes] at hsplit
  exact ⟨whole, hwhole, by rw [hshape, hquery]; rfl, hsplit⟩

/-- On tensors that fit it an operation succeeds, and its reverse gives them back. -/
theorem yields_reverseOp (h : op.Fits tensors) :
    ∃ outs : List (Tensor α), outs.length = op.targetCount ∧ op.Yields tensors outs ∧
      op.reverseOp.Fits outs ∧ op.reverseOp.Yields outs tensors := by
  cases op with
  | concatenateWithSections s =>
    obtain ⟨base, axis, h⟩ := h
    have hlength : tensors.length = s.sections.length := h.2.length_eq.symm
    obtain ⟨whole, hconcatenate, hwhole, hsplit⟩ := Sections.split_concatenate h
    exact ⟨[whole], rfl, yields_concatenate hlength hconcatenate, ⟨whole, rfl, hwhole⟩,
      yields_split hlength hsplit⟩
  | split s =>
    obtain ⟨whole, rfl, h⟩ := h
    obtain ⟨parts, hsplit, hlength, hsized, hconcatenate⟩ := Sections.concatenate_split h
    exact ⟨parts, hlength, yields_split hlength hsplit, hsized,
      yields_concatenate hlength hconcatenate⟩
  | interleaveQKV g sourceIsFused =>
    obtain ⟨trailing, h⟩ := h
    cases sourceIsFused with
    | false =>
      obtain ⟨query, key, value, rfl, hquery, hkey, hvalue⟩ := exists_of_map_three h
      rw [Nat.mul_assoc] at hquery
      obtain ⟨grouped, hgroup, hshape, hungroup⟩ := GqaLayout.ungroup_group hquery hkey hvalue
      exact ⟨[grouped], rfl, yields_interleaveQKV hgroup, ⟨trailing, by rw [← hshape]; rfl⟩,
        yields_deinterleaveQKV hungroup⟩
    | true =>
      obtain ⟨whole, rfl, hwhole⟩ := exists_of_map_one h
      obtain ⟨query, key, value, hsplit, hquery, hkey, hvalue⟩ := splitAlong_sourceSections hwhole
      obtain ⟨grouped, hgroup, hshape, hungroup⟩ := GqaLayout.ungroup_group hquery hkey hvalue
      have hcat := Tensor.catAlong_of_splitAlong (by simp [GqaLayout.sourceSections]) hsplit
      exact ⟨[grouped], rfl, yields_interleaveQKV_fused hsplit hgroup,
        ⟨trailing, by rw [← hshape]; rfl⟩, yields_deinterleaveQKV_fused hungroup hcat⟩
  | deinterleaveQKV g targetIsFused =>
    obtain ⟨trailing, h⟩ := h
    obtain ⟨grouped, rfl, hshape⟩ := exists_of_map_one h
    obtain ⟨query, key, value, hungroup, hquery, hkey, hvalue, hgroup⟩ :=
      GqaLayout.group_ungroup hshape
    cases targetIsFused with
    | false =>
      refine ⟨[query, key, value], rfl, yields_deinterleaveQKV hungroup, ⟨trailing, ?_⟩,
        yields_interleaveQKV hgroup⟩
      simp [hquery, hkey, hvalue, GqaLayout.sourceSections, Nat.mul_assoc]
    | true =>
      obtain ⟨whole, hcat, hwhole, hsplit⟩ := catAlong_sourceSections hquery hkey hvalue
      exact ⟨[whole], rfl, yields_deinterleaveQKV_fused hungroup hcat,
        ⟨trailing, by rw [← hwhole]; rfl⟩, yields_interleaveQKV_fused hsplit hgroup⟩
  | interleaveGateQKV g =>
    obtain ⟨trailing, h⟩ := h
    obtain ⟨queryGate, key, value, rfl, hqueryGate, hkey, hvalue⟩ := exists_of_map_three h
    obtain ⟨grouped, hgroup, hshape, hungroup⟩ :=
      GqaLayout.gateUngroup_gateGroup hqueryGate hkey hvalue
    exact ⟨[grouped], rfl, yields_interleaveGateQKV hgroup, ⟨trailing, by rw [← hshape]; rfl⟩,
      yields_deinterleaveGateQKV hungroup⟩
  | deinterleaveGateQKV g =>
    obtain ⟨trailing, h⟩ := h
    obtain ⟨grouped, rfl, hshape⟩ := exists_of_map_one h
    obtain ⟨queryGate, key, value, hungroup, hqueryGate, hkey, hvalue, hgroup⟩ :=
      GqaLayout.gateGroup_gateUngroup hshape
    exact ⟨[queryGate, key, value], rfl, yields_deinterleaveGateQKV hungroup,
      ⟨trailing, by rw [← hqueryGate, ← hkey, ← hvalue]; rfl⟩, yields_interleaveGateQKV hgroup⟩

/-- The results of a conversion as the input of the next. -/
def asInput (results : List (String × Tensor α)) : List (String × Collected α) :=
  results.map fun entry => (entry.1, .tensor entry.2)

theorem mapM_collect_asInput {targets : List String} (hlength : targets.length = outs.length)
    (h : targets.Nodup) : targets.mapM (collect (asInput (targets.zip outs))) = .ok outs := by
  have hkeys : (asInput (targets.zip outs)).map Prod.fst = targets := by
    rw [asInput, List.map_map]
    exact List.map_fst_zip hlength.le
  refine ExceptList.mapM_of_forall₂ (List.forall₂_iff_zip.2 ⟨hlength, fun {target out} hmem => ?_⟩)
  have hlookup : (asInput (targets.zip outs)).lookup target = some (.tensor out) :=
    (Dict.lookup_eq_some_iff (by rwa [hkeys])).2 (List.mem_map.2 ⟨_, hmem, rfl⟩)
  rw [collect, hlookup]
  rfl

/-- Converted and converted back: the sources have the tensors that had been collected for them. -/
theorem convert_reverse {inputDict : List (String × Collected α)} {sources targets : List String}
    (h : op.Fits tensors) (hcollect : sources.mapM (collect inputDict) = .ok tensors)
    (hsources : sources.Nodup) (htargets : targets.Nodup)
    (hcount : targets.length = op.targetCount) :
    ∃ results, op.convert inputDict sources targets = .ok results ∧
      results.map Prod.fst = targets ∧
      op.reverseOp.convert (asInput results) targets sources = .ok (sources.zip tensors) := by
  obtain ⟨outs, hlength, hconvert, -, hreverse⟩ := yields_reverseOp h
  have houts : targets.length = outs.length := hcount.trans hlength.symm
  exact ⟨targets.zip outs, hconvert _ _ _ hcollect houts htargets, List.map_fst_zip houts.le,
    hreverse _ _ _ (mapM_collect_asInput houts htargets) (length_of_mapM hcollect) hsources⟩

theorem convert_reverse_gate :
    ∃ results, (interleaveGateQKV ⟨2, 1, 1, 1⟩).convert
        [("q_gate", .tensor (Tensor.ofEntries [4] fun idx => idx.sum)),
          ("k", .tensors [Tensor.ofEntries [2] fun idx => idx.sum + 10]),
          ("v", .tensor (Tensor.ofEntries [2] fun idx => idx.sum + 20))]
        ["q_gate", "k", "v"] ["qkv"] = .ok results ∧
      results.map Prod.fst = ["qkv"] ∧
      (deinterleaveGateQKV ⟨2, 1, 1, 1⟩).convert (asInput results) ["qkv"] ["q_gate", "k", "v"] =
        .ok (["q_gate", "k", "v"].zip [Tensor.ofEntries [4] fun idx => idx.sum,
          Tensor.ofEntries [2] fun idx => idx.sum + 10,
          Tensor.ofEntries [2] fun idx => idx.sum + 20]) :=
  convert_reverse ⟨[], rfl⟩ rfl (by decide) (by decide) rfl

end ConversionOp

end HyperParallel.Conversion
