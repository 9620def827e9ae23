import HyperParallel.Lib.Tensor

/-!
# Tiles of tensors

Every dimension of a tensor is cut into tiles of one length, and one tile is taken of each.

* `TileDim`, `tile`: the tile of a tensor;
* `place`: the row-major place in the whole of a row-major place in the tile;
* `Same`, `Same.merge`, `Same.unit`: two lists of dimensions with the same tile in row-major order;
* `reshape_tile`: a tile can be reshaped on its own.
-/

open MixedRadix

namespace Tiling

/-- One dimension: `count` tiles of length `len`, of which the one at `pos` is taken. -/
structure TileDim where
  len : ℕ
  count : ℕ
  pos : ℕ
  deriving DecidableEq, Repr

namespace TileDim

/-- The extent of the whole dimension. -/
def size (d : TileDim) : ℕ := d.count * d.len

/-- A dimension that is not cut. -/
def whole (n : ℕ) : TileDim := ⟨n, 1, 0⟩

/-- The tile is there, and it is not empty. -/
def Proper (d : TileDim) : Prop := d.pos < d.count ∧ 0 < d.len

@[simp] theorem size_whole (n : ℕ) : (whole n).size = n := Nat.one_mul n

@[simp] theorem len_whole (n : ℕ) : (whole n).len = n := rfl

@[simp] theorem pos_whole (n : ℕ) : (whole n).pos = 0 := rfl

end TileDim

open TileDim

variable {α : Type*} [Zero α] {ds es fs : List TileDim} {d e : TileDim}

/-- An index of the tile as an index of the whole. -/
def tileIndex (ds : List TileDim) (idx : List ℕ) : List ℕ :=
  List.zipWith (fun d i => d.pos * d.len + i) ds idx

/-- The tile of a tensor. -/
def tile (ds : List TileDim) (x : Tensor α) : Tensor α :=
  Tensor.ofEntries (ds.map len) fun idx => x.entry (tileIndex ds idx)

/-- The place in the whole of the place `v` of the tile, both in row-major order. -/
def place : List TileDim → ℕ → ℕ
  | [], _ => 0
  | d :: ds, v =>
    (d.pos * d.len + v / (ds.map len).prod % d.len) * (ds.map size).prod + place ds v

theorem place_cons (d : TileDim) (ds : List TileDim) (v : ℕ) : place (d :: ds) v =
    (d.pos * d.len + v / (ds.map len).prod % d.len) * (ds.map size).prod + place ds v := rfl

theorem valid_tileIndex {idx : List ℕ} (hds : ∀ d ∈ ds, d.Proper) (h : Valid (ds.map len) idx) :
    Valid (ds.map size) (tileIndex ds idx) := by
  induction ds generalizing idx with
  | nil =>
    cases h
    exact .nil
  | cons d ds ih =>
    cases idx with
    | nil => cases h
    | cons i idx =>
      obtain ⟨hi, hidx⟩ := List.forall₂_cons.1 h
      obtain ⟨hd, hrest⟩ := List.forall_mem_cons.1 hds
      exact .cons (mul_add_lt hd.1 hi) (ih hrest hidx)

/-- Row-major places are the digits of indices. -/
theorem ofDigits_tileIndex (hds : ∀ d ∈ ds, d.Proper) (v : ℕ) :
    ofDigits (ds.map size) (tileIndex ds (digits (ds.map len) v)) = place ds v := by
  induction ds with
  | nil => rfl
  | cons d ds ih =>
    obtain ⟨hd, hrest⟩ := List.forall_mem_cons.1 hds
    have hdigit : v / (ds.map len).prod % d.len < d.len := Nat.mod_lt _ hd.2
    have hlt : d.pos * d.len + v / (ds.map len).prod % d.len < d.size := mul_add_lt hd.1 hdigit
    have hih := ih hrest
    rw [tileIndex] at hih
    rw [List.map_cons, List.map_cons, digits_cons, tileIndex, List.zipWith_cons_cons, ofDigits,
      Nat.mod_eq_of_lt hlt, hih, place_cons]

/-! ### The same tile -/

/-- The same tile of the same tensor, up to the shape. -/
structure Same (ds es : List TileDim) : Prop where
  len : (ds.map len).prod = (es.map len).prod
  size : (ds.map size).prod = (es.map size).prod
  place : ∀ v, place ds v = place es v

namespace Same

theorem refl (ds : List TileDim) : Same ds ds := ⟨rfl, rfl, fun _ => rfl⟩

theorem symm (h : Same ds es) : Same es ds := ⟨h.len.symm, h.size.symm, fun v => (h.place v).symm⟩

theorem trans (h : Same ds es) (h' : Same es fs) : Same ds fs :=
  ⟨h.len.trans h'.len, h.size.trans h'.size, fun v => (h.place v).trans (h'.place v)⟩

theorem cons (d : TileDim) (h : Same ds es) : Same (d :: ds) (d :: es) where
  len := by rw [List.map_cons, List.map_cons, List.prod_cons, List.prod_cons, h.len]
  size := by rw [List.map_cons, List.map_cons, List.prod_cons, List.prod_cons, h.size]
  place := fun v => by rw [place_cons, place_cons, h.len, h.size, h.place]

/-- A dimension that is not cut goes into the dimension on its left. -/
theorem merge (d : TileDim) (n : ℕ) (ds : List TileDim) :
    Same (d :: whole n :: ds) ({ d with len := d.len * n } :: ds) where
  len := by simp [Nat.mul_assoc]
  size := by simp [TileDim.size, whole, Nat.mul_assoc]
  place := fun v => by
    have hdiv : v / (n * (ds.map TileDim.len).prod) = v / (ds.map TileDim.len).prod / n := by
      rw [Nat.div_div_eq_div_mul, Nat.mul_comm]
    have hmod : v / (ds.map TileDim.len).prod % (d.len * n) =
        v / (ds.map TileDim.len).prod / n % d.len * n + v / (ds.map TileDim.len).prod % n := by
      rw [Nat.mul_comm d.len, Nat.mod_mul, Nat.add_comm, Nat.mul_comm]
    rw [place_cons, place_cons, place_cons]
    simp only [List.map_cons, List.prod_cons, size_whole, len_whole, pos_whole, hdiv, hmod,
      Nat.zero_mul, Nat.zero_add, Nat.add_mul, Nat.mul_assoc, Nat.add_assoc]

/-- A dimension of one element does not count. -/
theorem unit (ds : List TileDim) : Same (whole 1 :: ds) ds where
  len := by simp
  size := by simp
  place := fun v => by simp [place_cons, whole, Nat.mod_one]

end Same

/-- The tile of a reshaped tensor is the tile, reshaped. -/
theorem reshape_tile {x y : Tensor α} (h : Same ds es) (hds : ∀ d ∈ ds, d.Proper)
    (hes : ∀ e ∈ es, e.Proper) (hx : x.shape = ds.map size)
    (hy : x.reshape (es.map size) = some y) :
    (tile ds x).reshape (es.map len) = some (tile es y) := by
  have hlen : (es.map len).prod = (tile ds x).shape.prod := h.len.symm
  rw [Tensor.reshape, if_pos hlen, tile, Option.some.injEq]
  refine Tensor.ofEntries_congr ?_
  intro idx hidx
  have hpos : ∀ n ∈ ds.map len, 0 < n := by
    intro n hn
    obtain ⟨d, hd, rfl⟩ := List.mem_map.1 hn
    exact (hds d hd).2
  -- the index in the tile, and the one in the whole, on both sides
  let v := ofDigits (es.map len) idx
  have hv : digits (es.map len) v = idx := digits_ofDigits hidx
  have hplace : Valid (ds.map size) (tileIndex ds (digits (ds.map len) v)) :=
    valid_tileIndex hds (digits_lt hpos)
  have hleft : (tile ds x).entry (digits (ds.map len) v) =
      x.entry (tileIndex ds (digits (ds.map len) v)) := Tensor.entry_ofEntries _ (digits_lt hpos)
  have hright : y.entry (tileIndex es idx) =
      x.entry (digits (ds.map size) (ofDigits (es.map size) (tileIndex es idx))) := by
    rw [Tensor.reshape] at hy
    split_ifs at hy
    rw [← Option.some.inj hy, Tensor.entry_ofEntries _ (valid_tileIndex hes hidx), hx]
  have hsame : ofDigits (es.map size) (tileIndex es idx) =
      ofDigits (ds.map size) (tileIndex ds (digits (ds.map len) v)) := by
    have hplaces := ofDigits_tileIndex hes v
    rw [hv] at hplaces
    rw [hplaces, ofDigits_tileIndex hds, h.place]
  rw [hright, hsame, digits_ofDigits hplace, ← hleft]
  rfl

end Tiling
