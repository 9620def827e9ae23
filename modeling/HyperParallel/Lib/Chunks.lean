import HyperParallel.Lib.Intervals
import HyperParallel.Lib.Rows

/-!
# Chunks of a tensor along an axis

* `Tensor.narrowAlong`, `Tensor.chunkAlong`, `Tensor.catAlong`: `narrow`, `chunk` and `cat`;
* `Tensor.joinAlong`: parts of one shape side by side; `catAlong_range`, `chunkAlong_joinAlong`;
* `Tensor.flatMap_data`: along the first axis the data of the parts follow each other.
-/

open MixedRadix

namespace Tensor

variable {α : Type*} [Zero α]

/-- `t.narrow(dim, start, length)` -/
def narrowAlong (t : Tensor α) (dim start length : ℕ) : Tensor α :=
  ofEntries (t.shape.set dim length) fun idx => t.entry (idx.set dim (start + idx.getD dim 0))

/-- `torch.chunk(t, chunks, dim)`; an empty axis gives as many empty chunks. -/
def chunkAlong (t : Tensor α) (chunks dim : ℕ) : List (Tensor α) :=
  let size := t.shape.getD dim 0
  let splitSize := (size + chunks - 1) / chunks
  let count := if splitSize = 0 then chunks else (size + splitSize - 1) / splitSize
  (List.range count).map fun k =>
    t.narrowAlong dim (k * splitSize) (min splitSize (size - k * splitSize))

/-- The part that a position lies in, and the position there. -/
def locate : List ℕ → ℕ → ℕ × ℕ
  | [], i => (0, i)
  | size :: sizes, i =>
    if i < size then (0, i)
    else ((locate sizes (i - size)).1 + 1, (locate sizes (i - size)).2)

/-- `torch.cat(parts, dim)` -/
def catAlong (parts : List (Tensor α)) (dim : ℕ) : Option (Tensor α) :=
  match parts with
  | [] => none
  | first :: rest =>
    if dim < first.shape.length ∧
        ∀ part ∈ rest, part.shape.set dim 0 = first.shape.set dim 0 then
      some (ofEntries (first.shape.set dim (sizes dim (first :: rest)).sum) fun idx =>
        let place := locate (sizes dim (first :: rest)) (idx.getD dim 0)
        ((first :: rest).getD place.1 first).entry (idx.set dim place.2))
    else none

/-- Parts of one shape side by side. -/
def joinAlong (n : ℕ) (f : ℕ → Tensor α) (shape : List ℕ) (dim : ℕ) : Tensor α :=
  ofEntries (shape.set dim (n * shape.getD dim 0)) fun idx =>
    (f (idx.getD dim 0 / shape.getD dim 0)).entry
      (idx.set dim (idx.getD dim 0 % shape.getD dim 0))

variable {n dim : ℕ} {f : ℕ → Tensor α} {shape : List ℕ} {t : Tensor α}

/-- The chunks of an axis that divides evenly. -/
theorem chunkAlong_of_eq_mul {m : ℕ} (hn : 0 < n) (hsize : t.shape.getD dim 0 = n * m) :
    t.chunkAlong n dim = (List.range n).map fun k => t.narrowAlong dim (k * m) m := by
  have hcount : (if m = 0 then n else (n * m + m - 1) / m) = n := by
    split_ifs with hm
    · rfl
    · rw [Nat.mul_comm n m, ceil_div_mul n (Nat.pos_of_ne_zero hm)]
  rw [chunkAlong, hsize, ceil_div_mul m hn]
  rw [hcount]
  refine List.map_congr_left fun k hk => ?_
  have hmin : min m (n * m - k * m) = m := by
    rw [← Nat.sub_mul]
    exact min_eq_left (Nat.le_mul_of_pos_left m (Nat.sub_pos_of_lt (List.mem_range.1 hk)))
  rw [hmin]

theorem locate_replicate {s i : ℕ} (hi : i < n * s) :
    locate (List.replicate n s) i = (i / s, i % s) := by
  induction n generalizing i with
  | zero => omega
  | succ n ih =>
    rw [List.replicate_succ, locate]
    split_ifs with hlt
    · rw [Nat.div_eq_of_lt hlt, Nat.mod_eq_of_lt hlt]
    · have hle : s ≤ i := Nat.not_lt.1 hlt
      have hpos : 0 < s := by
        rcases Nat.eq_zero_or_pos s with rfl | hpos
        · omega
        · exact hpos
      rw [Nat.succ_mul] at hi
      rw [ih (by omega), ← Nat.div_eq_sub_div hpos hle, ← Nat.mod_eq_sub_mod hle]

/-- What `cat` makes of parts of one shape. -/
theorem catAlong_range (hn : 0 < n) (hdim : dim < shape.length)
    (hshape : ∀ k < n, (f k).shape = shape) :
    catAlong ((List.range n).map f) dim = some (joinAlong n f shape dim) := by
  obtain ⟨m, rfl⟩ := Nat.exists_eq_succ_of_ne_zero hn.ne'
  have hparts : (List.range m.succ).map f = f 0 :: (List.range m).map fun k => f (k + 1) := by
    rw [List.range_succ_eq_map, List.map_cons, List.map_map]
    rfl
  have hsizes : sizes dim ((List.range m.succ).map f) =
      List.replicate m.succ (shape.getD dim 0) := by
    refine List.eq_replicate_iff.2 ⟨by rw [sizes, List.length_map, List.length_map,
      List.length_range], ?_⟩
    intro size hmem
    obtain ⟨part, hpart, rfl⟩ := List.mem_map.1 hmem
    obtain ⟨k, hk, rfl⟩ := List.mem_map.1 hpart
    rw [hshape k (List.mem_range.1 hk)]
  have hfirst : (f 0).shape = shape := hshape 0 hn
  rw [hparts, catAlong, if_pos, ← hparts, hsizes, hfirst, List.sum_replicate_nat]
  · refine congrArg some (ofEntries_congr fun idx hidx => ?_)
    obtain ⟨-, -, hlt, -⟩ := hidx.split_set hdim
    dsimp only
    rw [locate_replicate hlt]
    have hdiv := (div_mod_lt hlt).1
    rw [List.getD_eq_getElem _ _ (by rwa [List.length_map, List.length_range]), List.getElem_map,
      List.getElem_range]
  · refine ⟨hfirst ▸ hdim, fun part hpart => ?_⟩
    obtain ⟨k, hk, rfl⟩ := List.mem_map.1 hpart
    rw [hfirst, hshape (k + 1) (Nat.succ_lt_succ (List.mem_range.1 hk))]

theorem narrowAlong_joinAlong (hdim : dim < shape.length) (hshape : ∀ k < n, (f k).shape = shape)
    {r : ℕ} (hr : r < n) :
    (joinAlong n f shape dim).narrowAlong dim (r * shape.getD dim 0) (shape.getD dim 0) = f r := by
  have hwhole : (shape.set dim (n * shape.getD dim 0)).set dim (shape.getD dim 0) = shape := by
    rw [List.set_set, set_getD_self hdim]
  refine ext_entry (by rw [narrowAlong, shape_ofEntries, joinAlong, shape_ofEntries, hwhole,
    hshape r hr]) ?_
  intro idx hidx
  rw [narrowAlong, shape_ofEntries, joinAlong, shape_ofEntries, hwhole] at hidx
  obtain ⟨hvalid, hdiv, hback⟩ := hidx.beside hdim hr
  rw [narrowAlong, joinAlong, shape_ofEntries, hwhole, entry_ofEntries _ hidx,
    entry_ofEntries _ hvalid, hdiv, hback]

/-- Joined and chunked again. -/
theorem chunkAlong_joinAlong (hn : 0 < n) (hdim : dim < shape.length)
    (hshape : ∀ k < n, (f k).shape = shape) :
    (joinAlong n f shape dim).chunkAlong n dim = (List.range n).map f := by
  rw [chunkAlong_of_eq_mul hn (getD_set_self hdim)]
  exact List.map_congr_left fun r hr =>
    narrowAlong_joinAlong hdim hshape (List.mem_range.1 hr)

/-- Along the first axis the data of the parts follow each other. -/
theorem flatMap_data {c : ℕ} {rest : List ℕ} (hshape : ∀ k < n, (f k).shape = c :: rest) :
    (List.range n).flatMap (fun k => (f k).data) = (joinAlong n f (c :: rest) 0).data := by
  have hflat : ∀ k < n, ∀ i < c * rest.prod, (f k).flat i =
      (joinAlong n f (c :: rest) 0).flat (k * (c * rest.prod) + i) := by
    intro k hk i hi
    obtain ⟨hrow, hcolumn⟩ := div_mod_lt hi
    have hpos : 0 < rest.prod := Nat.zero_lt_of_lt hcolumn
    have hdiv : (k * (c * rest.prod) + i) / rest.prod = k * c + i / rest.prod := by
      rw [← Nat.mul_assoc, Nat.mul_comm (k * c), Nat.mul_add_div hpos]
    have hlt : k * c + i / rest.prod < n * c := mul_add_lt hk hrow
    have hdigits : digits (n * c :: rest) (k * (c * rest.prod) + i) =
        (k * c + i / rest.prod) :: digits rest i := by
      rw [digits_cons, hdiv, Nat.mod_eq_of_lt hlt, ← Nat.mul_assoc,
        Nat.add_comm (k * c * rest.prod), digits_add_mul]
    have hvalid : Valid (n * c :: rest) ((k * c + i / rest.prod) :: digits rest i) := by
      rw [← hdigits]
      exact valid_digits (by rw [List.prod_cons, Nat.mul_assoc]; exact mul_add_lt hk hi)
    obtain ⟨hpart, hplace⟩ := mul_add_div_mod k hrow
    have hentry : (joinAlong n f (c :: rest) 0).entry ((k * c + i / rest.prod) :: digits rest i) =
        (f k).entry (i / rest.prod :: digits rest i) := by
      rw [joinAlong, List.set_cons_zero, List.getD_cons_zero, entry_ofEntries _ hvalid,
        List.getD_cons_zero, List.set_cons_zero, hpart, hplace]
    rw [flat, flat, hshape k hk, digits_cons, Nat.mod_eq_of_lt hrow, joinAlong, shape_ofEntries,
      List.set_cons_zero, List.getD_cons_zero, hdigits]
    exact hentry.symm
  have hdata : ∀ k ∈ List.range n, (f k).data = (List.range (c * rest.prod)).map fun i =>
      (joinAlong n f (c :: rest) 0).flat (k * (c * rest.prod) + i) := by
    intro k hk
    have hk := List.mem_range.1 hk
    rw [data, hshape k hk, List.prod_cons]
    exact List.map_congr_left fun i hi => hflat k hk i (List.mem_range.1 hi)
  rw [List.flatMap_congr hdata, Intervals.flatMap_range_mul, data]
  congr 2
  rw [joinAlong, shape_ofEntries, List.set_cons_zero, List.getD_cons_zero, List.prod_cons,
    Nat.mul_assoc]

theorem ofData_data (t : Tensor α) : ofData t.shape t.data = some t := by
  rw [ofData, if_pos t.length_data]
  refine congrArg some (eq_ofEntries rfl fun idx hidx => ?_).symm
  rw [getD_data (ofDigits_lt hidx), ← entry_eq_flat hidx]

/-- The data of a tensor whose entries go through a function. -/
theorem data_ofEntries_map (t : Tensor α) (g : α → α) :
    (ofEntries t.shape fun idx => g (t.entry idx)).data = t.data.map g := by
  rw [data, data, List.map_map, shape_ofEntries]
  refine List.map_congr_left fun i hi => ?_
  rw [flat, shape_ofEntries, entry_ofEntries _ (valid_digits (List.mem_range.1 hi))]
  rfl

end Tensor
