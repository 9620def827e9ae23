import HyperParallel.Lib.Views

/-!
# Tensors put together along an axis

* `Tensor.data`, `Tensor.ofData`: the data of a tensor in row-major order, and a view of such data;
* `Tensor.moveFront`, `Tensor.moveBack`: `movedim` of an axis to the front and back;
* `Tensor.cat_data`: the data of several tensors, an axis in front, one after the other.
-/

open MixedRadix

namespace Tensor

variable {α : Type*} [Zero α]

/-- `t.contiguous().view(-1)` -/
def data (t : Tensor α) : List α := (List.range t.shape.prod).map t.flat

/-- `view(shape)` of a vector. -/
def ofData (shape : List ℕ) (l : List α) : Option (Tensor α) :=
  if l.length = shape.prod then some (ofEntries shape fun idx => l.getD (ofDigits shape idx) 0)
  else none

/-- `movedim(axis, 0)` and `movedim(0, axis)`. -/
def moveFront (axis : ℕ) (t : Tensor α) : Tensor α :=
  if axis = 0 then t else t.permute (frontPerm axis t.shape.length)

def moveBack (axis : ℕ) (t : Tensor α) : Tensor α :=
  if axis = 0 then t else t.permute (backPerm axis t.shape.length)

@[simp] theorem length_data (t : Tensor α) : t.data.length = t.shape.prod := by
  rw [data, List.length_map, List.length_range]

theorem getD_data {t : Tensor α} {i : ℕ} (hi : i < t.shape.prod) : t.data.getD i 0 = t.flat i := by
  rw [List.getD_eq_getElem _ _ (by rwa [length_data])]
  simp only [data, List.getElem_map, List.getElem_range]

/-- The number of rows of a tensor. -/
def rows (t : Tensor α) : ℕ := t.shape.headD 0

variable {parts : List (Tensor α)} {rest : List ℕ}

theorem length_flatMap_data (hshape : ∀ t ∈ parts, t.shape = t.rows :: rest) :
    (parts.flatMap data).length = (parts.map rows).sum * rest.prod := by
  induction parts with
  | nil => simp
  | cons t parts ih =>
    rw [List.flatMap_cons, List.length_append, ih fun u hu => hshape u (List.mem_cons_of_mem _ hu),
      length_data, hshape t List.mem_cons_self, List.prod_cons, List.map_cons, List.sum_cons,
      Nat.add_mul]

/-- A row of a part, among the data of all parts. -/
theorem getD_flatMap_data (hshape : ∀ t ∈ parts, t.shape = t.rows :: rest) {v i j : ℕ}
    {t : Tensor α} (ht : parts[v]? = some t) (hi : i < t.rows) (hj : j < rest.prod) :
    (parts.flatMap data).getD ((((parts.take v).map rows).sum + i) * rest.prod + j) 0 =
      t.flat (i * rest.prod + j) := by
  induction parts generalizing v with
  | nil => cases ht
  | cons u parts ih =>
    have hu := hshape u List.mem_cons_self
    have hrest : ∀ t ∈ parts, t.shape = t.rows :: rest :=
      fun t ht => hshape t (List.mem_cons_of_mem _ ht)
    have hlength : u.data.length = u.rows * rest.prod := by
      rw [length_data, hu, List.prod_cons]
    rw [List.flatMap_cons]
    cases v with
    | zero =>
      obtain rfl : u = t := by simpa using ht
      have hlt : i * rest.prod + j < u.rows * rest.prod := mul_add_lt hi hj
      simp only [List.take_zero, List.map_nil, List.sum_nil, Nat.zero_add]
      rw [List.getD_append _ _ _ _ (by rwa [hlength]), getD_data]
      rwa [hu, List.prod_cons]
    | succ v =>
      have hsum : (((u :: parts).take (v + 1)).map rows).sum =
          u.rows + ((parts.take v).map rows).sum := by
        rw [List.take_succ_cons, List.map_cons, List.sum_cons]
      have hindex : (u.rows + ((parts.take v).map rows).sum + i) * rest.prod + j =
          u.rows * rest.prod + ((((parts.take v).map rows).sum + i) * rest.prod + j) := by
        rw [Nat.add_assoc, Nat.add_mul]
        omega
      rw [hsum, hindex, List.getD_append_right _ _ _ _ (by rw [hlength]; omega), hlength,
        Nat.add_sub_cancel_left]
      exact ih hrest (by simpa using ht)

/-- The parts one behind the other along the first axis. -/
theorem ofData_flatMap (hshape : ∀ t ∈ parts, t.shape = t.rows :: rest) :
    ∃ whole, ofData ((parts.map rows).sum :: rest) (parts.flatMap data) = some whole ∧
      whole.shape = (parts.map rows).sum :: rest ∧
      ∀ (v i : ℕ) (ys : List ℕ) (t : Tensor α), parts[v]? = some t → i < t.rows → Valid rest ys →
        ((parts.take v).map rows).sum + i < (parts.map rows).sum →
        whole.entry ((((parts.take v).map rows).sum + i) :: ys) = t.entry (i :: ys) := by
  refine ⟨_, if_pos (by rw [length_flatMap_data hshape, List.prod_cons]), rfl, ?_⟩
  intro v i ys t ht hi hys hlt
  have hmem := List.mem_of_getElem? ht
  have hvalid : Valid t.shape (i :: ys) := by
    rw [hshape t hmem]
    exact .cons hi hys
  rw [entry_ofEntries _ (.cons hlt hys), ofDigits, Nat.mod_eq_of_lt hlt,
    getD_flatMap_data hshape ht hi (ofDigits_lt hys), entry_eq_flat hvalid, hshape t hmem, ofDigits,
    Nat.mod_eq_of_lt hi]

theorem moveFront_spec {t : Tensor α} {before after : List ℕ} {n : ℕ}
    (hshape : t.shape = before ++ n :: after) :
    (t.moveFront before.length).shape = n :: (before ++ after) ∧
      ∀ xs ys a, Valid before xs → Valid after ys → a < n →
        (t.moveFront before.length).entry (a :: (xs ++ ys)) = t.entry (xs ++ a :: ys) := by
  unfold moveFront
  split_ifs with hzero
  · obtain rfl := List.length_eq_zero_iff.1 hzero
    refine ⟨hshape, fun xs ys a hxs _ _ => ?_⟩
    cases hxs
    rfl
  · have hlength : t.shape.length = before.length + (after.length + 1) := by
      rw [hshape, List.length_append, List.length_cons]
    rw [hlength]
    exact permute_front hshape

theorem moveBack_spec {t : Tensor α} {before after : List ℕ} {n : ℕ}
    (hshape : t.shape = n :: (before ++ after)) :
    (t.moveBack before.length).shape = before ++ n :: after ∧
      ∀ xs ys a, Valid before xs → Valid after ys → a < n →
        (t.moveBack before.length).entry (xs ++ a :: ys) = t.entry (a :: (xs ++ ys)) := by
  unfold moveBack
  split_ifs with hzero
  · obtain rfl := List.length_eq_zero_iff.1 hzero
    refine ⟨hshape, fun xs ys a hxs _ _ => ?_⟩
    cases hxs
    rfl
  · have hlength : t.shape.length = before.length + (after.length + 1) := by
      rw [hshape, List.length_cons, List.length_append]
      omega
    rw [hlength]
    exact permute_back hshape

/-- The sizes of an axis in several tensors. -/
def sizes (axis : ℕ) (parts : List (Tensor α)) : List ℕ := parts.map fun t => t.shape.getD axis 0

/-- Parts that differ along one axis only, put together along it. -/
theorem cat_data {base : List ℕ} {axis : ℕ} (haxis : axis < base.length)
    (hshape : ∀ t ∈ parts, t.shape = base.set axis (t.shape.getD axis 0)) :
    ∃ whole, ofData ((sizes axis parts).sum :: (base.take axis ++ base.drop (axis + 1)))
        ((parts.map (moveFront axis)).flatMap data) = some whole ∧
      (whole.moveBack axis).shape = base.set axis (sizes axis parts).sum ∧
      ∀ (v i : ℕ) (idx : List ℕ) (t : Tensor α), parts[v]? = some t →
        Valid (base.set axis (sizes axis parts).sum) idx →
        idx.getD axis 0 = ((sizes axis parts).take v).sum + i → i < t.shape.getD axis 0 →
        (whole.moveBack axis).entry idx = t.entry (idx.set axis i) := by
  have hlength : (base.take axis).length = axis := by
    rw [List.length_take]
    omega
  have hsplit : ∀ t ∈ parts, t.shape =
      base.take axis ++ t.shape.getD axis 0 :: base.drop (axis + 1) := by
    intro t ht
    conv_lhs => rw [hshape t ht]
    exact set_eq haxis
  have hfront : ∀ t ∈ parts, (t.moveFront axis).shape =
        t.shape.getD axis 0 :: (base.take axis ++ base.drop (axis + 1)) ∧
      ∀ xs ys a, Valid (base.take axis) xs → Valid (base.drop (axis + 1)) ys →
        a < t.shape.getD axis 0 →
          (t.moveFront axis).entry (a :: (xs ++ ys)) = t.entry (xs ++ a :: ys) := by
    intro t ht
    have h := moveFront_spec (hsplit t ht)
    rwa [hlength] at h
  have hrows : (parts.map (moveFront axis)).map rows = sizes axis parts := by
    rw [List.map_map]
    refine List.map_congr_left fun t ht => ?_
    show (t.moveFront axis).shape.headD 0 = _
    rw [(hfront t ht).1]
    rfl
  have hmoved : ∀ u ∈ parts.map (moveFront axis),
      u.shape = u.rows :: (base.take axis ++ base.drop (axis + 1)) := by
    intro u hu
    obtain ⟨t, ht, rfl⟩ := List.mem_map.1 hu
    rw [rows, (hfront t ht).1]
    rfl
  obtain ⟨whole, hwhole, hwholeShape, hentry⟩ := ofData_flatMap hmoved
  rw [hrows] at hwhole hwholeShape hentry
  have hback := moveBack_spec hwholeShape
  rw [hlength] at hback
  refine ⟨whole, hwhole, by rw [hback.1, set_eq haxis], ?_⟩
  intro v i idx t ht hidx hat hi
  obtain ⟨hparts, hxs, hlt, hys⟩ := hidx.split_set haxis
  have hmem := List.mem_of_getElem? ht
  have hidxLength : axis < idx.length := by
    have := hidx.length_eq
    simp only [List.length_set] at this
    omega
  have htake : (((parts.map (moveFront axis)).take v).map rows).sum =
      ((sizes axis parts).take v).sum := by
    rw [List.map_take, hrows]
  have hrow : i < (t.moveFront axis).rows := by
    rw [rows, (hfront t hmem).1]
    exact hi
  have hwholeEntry := hentry v i (idx.take axis ++ idx.drop (axis + 1)) (t.moveFront axis)
    (by rw [List.getElem?_map, ht]; rfl) hrow (hxs.append hys)
    (by rw [htake, ← hat]; exact hlt)
  rw [htake, ← hat] at hwholeEntry
  rw [hparts, hback.2 _ _ _ hxs hys hlt, hwholeEntry, (hfront t hmem).2 _ _ _ hxs hys hi, ← hparts,
    set_eq hidxLength]

end Tensor
