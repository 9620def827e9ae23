import HyperParallel.Lib.Chunks

/-!
# Tensors taken apart and put together

* `Tensor.splitAlong`: `split` with the sizes of the parts;
* `splitAlong_of_catAlong`, `catAlong_of_splitAlong`: `split` and `cat` undo each other;
* `Tensor.select`, `Tensor.stackPair`, with `stackPair_select` and `select_stackPair`;
* `reshape_reshape`: a reshape is undone by the old shape.
-/

open MixedRadix

namespace Tensor

variable {α : Type*} [Zero α]

/-- `narrow` at the sizes of the parts, one after the other. -/
def narrows (t : Tensor α) (dim : ℕ) : ℕ → List ℕ → List (Tensor α)
  | _, [] => []
  | start, size :: sections => t.narrowAlong dim start size :: narrows t dim (start + size) sections

/-- `torch.split(t, sections, dim)` -/
def splitAlong (t : Tensor α) (sections : List ℕ) (dim : ℕ) : Option (List (Tensor α)) :=
  if dim < t.shape.length ∧ sections.sum = t.shape.getD dim 0 then some (t.narrows dim 0 sections)
  else none

/-- `t.select(dim, i)` -/
def select (t : Tensor α) (dim i : ℕ) : Tensor α :=
  ofEntries (t.shape.eraseIdx dim) fun idx => t.entry (idx.insertIdx dim i)

/-- `torch.stack((t, u), dim)` -/
def stackPair (t u : Tensor α) (dim : ℕ) : Option (Tensor α) :=
  if dim ≤ t.shape.length ∧ u.shape = t.shape then
    some (ofEntries (t.shape.insertIdx dim 2) fun idx =>
      (if idx.getD dim 0 = 0 then t else u).entry (idx.eraseIdx dim))
  else none

variable {t u : Tensor α} {parts : List (Tensor α)} {dim : ℕ} {sections : List ℕ}

/-! ### Reshapes -/

/-- The old shape undoes a reshape. -/
theorem reshape_reshape {shape : List ℕ} (h : t.reshape shape = some u) :
    u.reshape t.shape = some t := by
  rw [← (sameData_of_reshape h).1.reshape_eq, reshape, if_pos rfl]
  refine congrArg some (eq_ofEntries rfl fun idx hidx => ?_).symm
  rw [digits_ofDigits hidx]

/-! ### A new axis -/

theorem insertIdx_eraseIdx {l : List ℕ} {i : ℕ} (hi : i < l.length) :
    (l.eraseIdx i).insertIdx i (l.getD i 0) = l := by
  induction l generalizing i with
  | nil => exact absurd hi (Nat.not_lt_zero _)
  | cons a l ih =>
    cases i with
    | zero => rfl
    | succ i =>
      rw [List.eraseIdx_cons_succ, List.insertIdx_succ_cons, List.getD_cons_succ,
        ih (Nat.lt_of_succ_lt_succ hi)]

theorem getD_insertIdx {l : List ℕ} {i a : ℕ} (hi : i ≤ l.length) :
    (l.insertIdx i a).getD i 0 = a := by
  induction l generalizing i with
  | nil =>
    obtain rfl : i = 0 := Nat.le_zero.1 hi
    rfl
  | cons b l ih =>
    cases i with
    | zero => rfl
    | succ i => rw [List.insertIdx_succ_cons, List.getD_cons_succ, ih (Nat.le_of_succ_le_succ hi)]

theorem Valid.insertIdx {shape idx : List ℕ} {i a n : ℕ} (h : Valid shape idx) (ha : a < n) :
    Valid (shape.insertIdx i n) (idx.insertIdx i a) := by
  induction h generalizing i with
  | nil =>
    cases i with
    | zero => exact .cons ha .nil
    | succ i => exact .nil
  | @cons b m idx shape hb hidx ih =>
    cases i with
    | zero => exact .cons ha (.cons hb hidx)
    | succ i => exact .cons hb ih

theorem Valid.eraseIdx {shape idx : List ℕ} (h : Valid shape idx) (i : ℕ) :
    Valid (shape.eraseIdx i) (idx.eraseIdx i) := by
  induction h generalizing i with
  | nil => exact .nil
  | @cons b m idx shape hb hidx ih =>
    cases i with
    | zero => exact hidx
    | succ i => exact .cons hb (ih i)

/-- Both halves of an axis of size 2, stacked again. -/
theorem stackPair_select (hdim : dim < t.shape.length) (hsize : t.shape.getD dim 0 = 2) :
    stackPair (t.select dim 0) (t.select dim 1) dim = some t := by
  have hlength : dim ≤ (t.select dim 0).shape.length := by
    rw [select, shape_ofEntries, List.length_eraseIdx_of_lt hdim]
    omega
  have hshape : (t.select dim 0).shape.insertIdx dim 2 = t.shape := by
    rw [select, shape_ofEntries, ← hsize, insertIdx_eraseIdx hdim]
  rw [stackPair, if_pos ⟨hlength, rfl⟩, hshape]
  refine congrArg some (eq_ofEntries rfl fun idx hidx => ?_).symm
  obtain ⟨-, -, hlt, -⟩ := hidx.split hdim
  have hback := insertIdx_eraseIdx (hidx.length_eq ▸ hdim : dim < idx.length)
  rw [hsize] at hlt
  by_cases hzero : idx.getD dim 0 = 0
  · rw [if_pos hzero, select, entry_ofEntries _ (Valid.eraseIdx hidx dim), ← hzero, hback]
  · have hone : idx.getD dim 0 = 1 := by omega
    rw [if_neg hzero, select, entry_ofEntries _ (Valid.eraseIdx hidx dim), ← hone, hback]

/-- The halves of what has been stacked. -/
theorem select_stackPair {whole : Tensor α} (h : stackPair t u dim = some whole) :
    whole.select dim 0 = t ∧ whole.select dim 1 = u := by
  unfold stackPair at h
  split_ifs at h with hstack
  obtain ⟨hdim, hshape⟩ := hstack
  obtain rfl := Option.some.inj h
  have hselect : ∀ i, i < 2 → ∀ idx, Valid t.shape idx →
      (ofEntries (t.shape.insertIdx dim 2) fun idx =>
        (if idx.getD dim 0 = 0 then t else u).entry (idx.eraseIdx dim)).entry
          (idx.insertIdx dim i) = (if i = 0 then t else u).entry idx := by
    intro i hi idx hidx
    rw [entry_ofEntries _ (Valid.insertIdx hidx hi), getD_insertIdx (hidx.length_eq ▸ hdim),
      List.eraseIdx_insertIdx_self]
  constructor
  · refine (eq_ofEntries ?_ fun idx hidx => ?_).symm
    · rw [shape_ofEntries, List.eraseIdx_insertIdx_self]
    · rw [shape_ofEntries, List.eraseIdx_insertIdx_self] at hidx
      rw [hselect 0 Nat.two_pos idx hidx, if_pos rfl]
  · refine (eq_ofEntries ?_ fun idx hidx => ?_).symm
    · rw [shape_ofEntries, List.eraseIdx_insertIdx_self, hshape]
    · rw [shape_ofEntries, List.eraseIdx_insertIdx_self] at hidx
      rw [hselect 1 Nat.one_lt_two idx hidx, if_neg Nat.one_ne_zero]

/-! ### Parts along an axis -/

theorem locate_append {xs ys : List ℕ} {size i : ℕ} (hi : i < size) :
    locate (xs ++ size :: ys) (xs.sum + i) = (xs.length, i) := by
  induction xs with
  | nil =>
    rw [List.nil_append, List.sum_nil, Nat.zero_add, locate, if_pos hi, List.length_nil]
  | cons x xs ih =>
    rw [List.cons_append, List.sum_cons, locate, if_neg (by omega),
      show x + xs.sum + i - x = xs.sum + i by omega, ih, List.length_cons]

/-- A place below the sum lies in one of the parts. -/
theorem exists_part {i : ℕ} (hi : i < sections.sum) :
    ∃ xs size ys j, sections = xs ++ size :: ys ∧ j < size ∧ i = xs.sum + j := by
  induction sections generalizing i with
  | nil => exact absurd hi (Nat.not_lt_zero _)
  | cons size sections ih =>
    rw [List.sum_cons] at hi
    rcases Nat.lt_or_ge i size with hlt | hle
    · exact ⟨[], size, sections, i, rfl, hlt, by rw [List.sum_nil, Nat.zero_add]⟩
    · obtain ⟨xs, size', ys, j, rfl, hj, hsum⟩ := ih (i := i - size) (by omega)
      exact ⟨size :: xs, size', ys, j, rfl, hj, by rw [List.sum_cons]; omega⟩

theorem narrows_append (t : Tensor α) (dim start : ℕ) (xs ys : List ℕ) :
    t.narrows dim start (xs ++ ys) =
      t.narrows dim start xs ++ t.narrows dim (start + xs.sum) ys := by
  induction xs generalizing start with
  | nil => rfl
  | cons x xs ih =>
    rw [List.cons_append, narrows, narrows, ih, List.cons_append, List.sum_cons, Nat.add_assoc]

@[simp] theorem length_narrows (t : Tensor α) (dim start : ℕ) (sections : List ℕ) :
    (t.narrows dim start sections).length = sections.length := by
  induction sections generalizing start with
  | nil => rfl
  | cons size sections ih => rw [narrows, List.length_cons, ih, List.length_cons]

theorem shape_of_mem_narrows {start : ℕ} {part : Tensor α}
    (h : part ∈ t.narrows dim start sections) :
    part.shape = t.shape.set dim (part.shape.getD dim 0) ∨ t.shape.length ≤ dim := by
  induction sections generalizing start with
  | nil => cases h
  | cons size sections ih =>
    rcases List.mem_cons.1 h with rfl | h
    · rcases Nat.lt_or_ge dim t.shape.length with hdim | hdim
      · left
        rw [narrowAlong, shape_ofEntries, getD_set_self hdim]
      · exact Or.inr hdim
    · exact ih h

theorem sizes_narrows (hdim : dim < t.shape.length) (start : ℕ) (sections : List ℕ) :
    sizes dim (t.narrows dim start sections) = sections := by
  induction sections generalizing start with
  | nil => rfl
  | cons size sections ih =>
    have ih := ih (start + size)
    rw [sizes] at ih ⊢
    rw [narrows, List.map_cons, ih, narrowAlong, shape_ofEntries, getD_set_self hdim]

/-- `cat` puts together what `split` takes apart. -/
theorem catAlong_of_splitAlong (hne : sections ≠ []) (h : t.splitAlong sections dim = some parts) :
    catAlong parts dim = some t := by
  unfold splitAlong at h
  split_ifs at h with hsplit
  obtain ⟨hdim, hsum⟩ := hsplit
  obtain rfl := Option.some.inj h
  have hsizes := sizes_narrows hdim 0 sections
  cases sections with
  | nil => exact absurd rfl hne
  | cons size sections =>
    rw [narrows] at hsizes ⊢
    have hfirst : (t.narrowAlong dim 0 size).shape = t.shape.set dim size := rfl
    rw [catAlong, if_pos, hsizes, hfirst, List.set_set, hsum, set_getD_self hdim]
    · refine congrArg some (eq_ofEntries rfl fun idx hidx => ?_).symm
      obtain ⟨-, -, hlt, -⟩ := hidx.split hdim
      have hlength : dim < idx.length := hidx.length_eq ▸ hdim
      obtain ⟨xs, size', ys, j, hsections, hj, hidxdim⟩ := exists_part (hsum ▸ hlt)
      have hpart : (t.narrowAlong dim 0 size :: t.narrows dim (0 + size) sections).getD xs.length
          (t.narrowAlong dim 0 size) = t.narrowAlong dim xs.sum size' := by
        show (t.narrows dim 0 (size :: sections)).getD xs.length _ = _
        rw [hsections, narrows_append, List.getD_append_right _ _ _ _ (by rw [length_narrows]),
          length_narrows, Nat.sub_self, narrows, Nat.zero_add]
        rfl
      dsimp only
      rw [hsections, hidxdim, locate_append hj, hpart, narrowAlong,
        entry_ofEntries _ (hidx.set_both hj), getD_set_self hlength, List.set_set, ← hidxdim,
        set_getD_self hlength]
    · refine ⟨by rwa [hfirst, List.length_set], fun part hpart => ?_⟩
      rcases shape_of_mem_narrows hpart with hshape | hle
      · rw [hshape, List.set_set, hfirst, List.set_set]
      · omega

/-- `split` at the sizes of the parts takes apart what `cat` puts together. -/
theorem splitAlong_of_catAlong (h : catAlong parts dim = some t) :
    t.splitAlong (sizes dim parts) dim = some parts := by
  cases parts with
  | nil => cases h
  | cons first rest =>
    rw [catAlong] at h
    split_ifs at h with hcat
    obtain ⟨hdim, hshape⟩ := hcat
    have hparts : ∀ part ∈ first :: rest,
        part.shape = first.shape.set dim (part.shape.getD dim 0) := by
      intro part hpart
      have hset : part.shape.set dim 0 = first.shape.set dim 0 := by
        rcases List.mem_cons.1 hpart with rfl | hpart
        · rfl
        · exact hshape part hpart
      have hlength : part.shape.length = first.shape.length := by
        rw [← List.length_set (i := dim) (a := 0), hset, List.length_set]
      rw [← List.set_set (a := 0), ← hset, List.set_set, set_getD_self (hlength ▸ hdim)]
    obtain rfl := Option.some.inj h
    generalize first :: rest = parts at hparts ⊢
    rw [splitAlong, if_pos ⟨by rwa [shape_ofEntries, List.length_set],
      by rw [shape_ofEntries, getD_set_self hdim]⟩]
    refine congrArg some ?_
    generalize hwhole :
      (ofEntries (first.shape.set dim (sizes dim parts).sum) _ : Tensor α) = whole
    -- the parts before some part are already taken off
    suffices hrest : ∀ front back : List (Tensor α), front ++ back = parts →
        whole.narrows dim (sizes dim front).sum (sizes dim back) = back from hrest [] parts rfl
    intro front back hfront
    induction back generalizing front with
    | nil => rfl
    | cons part back ih =>
      have ih := ih (front ++ [part]) (by rw [List.append_assoc]; exact hfront)
      have hpart := hparts part (hfront ▸ List.mem_append_right _ List.mem_cons_self)
      have hsizes : sizes dim parts =
          sizes dim front ++ part.shape.getD dim 0 :: sizes dim back := by
        rw [← hfront, sizes, List.map_append, List.map_cons]
        rfl
      have hsum : (sizes dim (front ++ [part])).sum =
          (sizes dim front).sum + part.shape.getD dim 0 := by
        rw [sizes, List.map_append, List.sum_append, List.map_singleton, List.sum_singleton]
        rfl
      rw [hsum] at ih
      show whole.narrowAlong dim (sizes dim front).sum (part.shape.getD dim 0) ::
        whole.narrows dim _ (sizes dim back) = _
      rw [ih]
      refine congrArg (· :: back) ?_
      have hnarrow : whole.shape.set dim (part.shape.getD dim 0) = part.shape := by
        rw [← hwhole, shape_ofEntries, List.set_set, ← hpart]
      refine (eq_ofEntries hnarrow.symm fun idx hidx => ?_).symm
      rw [hnarrow] at hidx
      have hdim' : dim < part.shape.length := by
        rw [hpart, List.length_set]
        exact hdim
      obtain ⟨-, -, hlt, -⟩ := hidx.split hdim'
      have hlength : dim < idx.length := hidx.length_eq ▸ hdim'
      have hvalid : Valid (first.shape.set dim (sizes dim parts).sum)
          (idx.set dim ((sizes dim front).sum + idx.getD dim 0)) := by
        have hbound : (sizes dim front).sum + idx.getD dim 0 < (sizes dim parts).sum := by
          rw [hsizes, List.sum_append, List.sum_cons]
          omega
        have hboth := hidx.set_both (d := dim) hbound
        rwa [hpart, List.set_set] at hboth
      rw [← hwhole, entry_ofEntries _ hvalid]
      dsimp only
      rw [getD_set_self hlength, hsizes, locate_append hlt, List.set_set, set_getD_self hlength,
        sizes, List.length_map, ← hfront, List.getD_append_right _ _ _ _ le_rfl, Nat.sub_self]
      rfl

end Tensor
