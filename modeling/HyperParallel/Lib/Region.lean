import HyperParallel.Lib.Tensor
import Mathlib.Algebra.BigOperators.Ring.List
import Mathlib.Data.List.Nodup
import Mathlib.Data.List.Perm.Subperm
import Mathlib.Tactic.Common

/-!
# Rectangular regions

A region of an index space is a start and a length for every dimension.

* `Region.Mem`, `Region.cells`: its points, and all of them in row-major order;
* `Region.inter`: the common part of two regions;
* `covers_of_numel`: disjoint regions with as many points as a region around them fill it;
* `tileSizes`, `tiles`: a region cut into tiles of bounded size;
* `rowMajor`: the indices of a shape in row-major order.
-/

open MixedRadix

/-- The start and the length of a region in every dimension. -/
abbrev Region := List (ℕ × ℕ)

namespace Region

variable {r r' b : Region} {p q : List ℕ} {s l : ℕ}

/-- The point lies in the region. -/
def Mem (r : Region) (p : List ℕ) : Prop :=
  List.Forall₂ (fun x i => i.1 ≤ x ∧ x < i.1 + i.2) p r

/-- The number of points. -/
def numel (r : Region) : ℕ := (r.map Prod.snd).prod

/-- The points in row-major order. -/
def cells : Region → List (List ℕ)
  | [] => [[]]
  | (s, l) :: r => (List.range l).flatMap fun i => (cells r).map ((s + i) :: ·)

instance (r : Region) : DecidablePred (Mem r) := fun p =>
  inferInstanceAs (Decidable (List.Forall₂ (fun x i => i.1 ≤ x ∧ x < i.1 + i.2) p r))

@[simp] theorem mem_nil : Mem [] p ↔ p = [] := List.forall₂_nil_right_iff

theorem mem_cons {x : ℕ} :
    Mem ((s, l) :: r) (x :: p) ↔ (s ≤ x ∧ x < s + l) ∧ Mem r p := List.forall₂_cons

theorem mem_cons_iff :
    Mem ((s, l) :: r) p ↔ ∃ x q, (s ≤ x ∧ x < s + l) ∧ Mem r q ∧ p = x :: q :=
  List.forall₂_cons_right_iff

theorem mem_cells : p ∈ cells r ↔ Mem r p := by
  induction r generalizing p with
  | nil => simp [cells]
  | cons i r ih =>
    obtain ⟨s, l⟩ := i
    rw [cells, mem_cons_iff]
    simp only [List.mem_flatMap, List.mem_range, List.mem_map, ih]
    constructor
    · rintro ⟨i, hi, q, hq, rfl⟩
      exact ⟨s + i, q, ⟨by omega, by omega⟩, hq, rfl⟩
    · rintro ⟨x, q, hx, hq, rfl⟩
      exact ⟨x - s, by omega, q, hq, by rw [Nat.add_sub_cancel' hx.1]⟩

theorem nodup_cells (r : Region) : (cells r).Nodup := by
  induction r with
  | nil => simp [cells]
  | cons i r ih =>
    obtain ⟨s, l⟩ := i
    rw [cells, List.nodup_flatMap]
    refine ⟨fun i _ => ih.map fun a b h => (List.cons.inj h).2, ?_⟩
    refine List.nodup_range.imp fun {i j} hij => ?_
    intro p hp hp'
    obtain ⟨a, -, rfl⟩ := List.mem_map.1 hp
    obtain ⟨b, -, hb⟩ := List.mem_map.1 hp'
    have := (List.cons.inj hb).1
    omega

theorem length_cells (r : Region) : (cells r).length = r.numel := by
  induction r with
  | nil => rfl
  | cons i r ih =>
    obtain ⟨s, l⟩ := i
    have hmap : (fun i => ((cells r).map ((s + i) :: ·)).length) = fun _ => numel r := by
      funext i
      rw [List.length_map, ih]
    rw [cells, List.length_flatMap, hmap, List.map_const', List.sum_replicate, List.length_range]
    rfl

/-! ### Places relative to a start -/

/-- A point moved by a start. -/
def shift (o x : List ℕ) : List ℕ := List.zipWith (· + ·) o x

/-- How far a point is from a start. -/
def offset (p o : List ℕ) : List ℕ := List.zipWith (· - ·) p o

/-- The axes of a point in another order. -/
def permuted (axes x : List ℕ) : List ℕ := axes.map fun axis => x.getD axis 0

theorem shift_shift (o o' x : List ℕ) : shift (shift o o') x = shift o (shift o' x) := by
  induction o generalizing o' x with
  | nil => rfl
  | cons a o ih =>
    cases o' with
    | nil => rfl
    | cons b o' =>
      cases x with
      | nil => rfl
      | cons c x =>
        change (a + b + c) :: shift (shift o o') x = (a + (b + c)) :: shift o (shift o' x)
        rw [ih, Nat.add_assoc]

theorem getD_shift {o x : List ℕ} (h : o.length = x.length) (i : ℕ) :
    (shift o x).getD i 0 = o.getD i 0 + x.getD i 0 := by
  induction o generalizing x i with
  | nil =>
    obtain rfl := List.length_eq_zero_iff.1 h.symm
    simp [shift]
  | cons a o ih =>
    obtain ⟨b, x, rfl⟩ := List.exists_cons_of_length_eq_add_one h.symm
    cases i with
    | zero => rfl
    | succ i => exact ih (by simpa using h) i

theorem permuted_shift {o x : List ℕ} (h : o.length = x.length) (axes : List ℕ) :
    permuted axes (shift o x) = shift (permuted axes o) (permuted axes x) := by
  change axes.map _ = List.zipWith (· + ·) (axes.map _) (axes.map _)
  rw [List.zipWith_map, List.zipWith_self]
  exact List.map_congr_left fun axis _ => getD_shift h axis

theorem shift_injective {o x y : List ℕ} (hx : o.length = x.length) (hy : o.length = y.length)
    (h : shift o x = shift o y) : x = y := by
  induction o generalizing x y with
  | nil =>
    rw [List.length_eq_zero_iff.1 hx.symm, List.length_eq_zero_iff.1 hy.symm]
  | cons a o ih =>
    obtain ⟨b, x, rfl⟩ := List.exists_cons_of_length_eq_add_one hx.symm
    obtain ⟨c, y, rfl⟩ := List.exists_cons_of_length_eq_add_one hy.symm
    obtain ⟨hhead, hrest⟩ := List.cons.inj h
    rw [Nat.add_left_cancel hhead, ih (by simpa using hx) (by simpa using hy) hrest]

/-- The points of a region are its start moved by the indices of its shape. -/
theorem mem_iff_shift :
    Mem r p ↔ ∃ x, Valid (r.map Prod.snd) x ∧ p = shift (r.map Prod.fst) x := by
  induction r generalizing p with
  | nil =>
    rw [mem_nil]
    exact ⟨fun h => ⟨[], .nil, h⟩, fun ⟨x, _, h⟩ => h⟩
  | cons i r ih =>
    obtain ⟨s, l⟩ := i
    rw [mem_cons_iff]
    constructor
    · rintro ⟨x, q, hx, hq, rfl⟩
      obtain ⟨y, hy, rfl⟩ := ih.1 hq
      refine ⟨(x - s) :: y, .cons (by dsimp only; omega) hy, ?_⟩
      change _ = (s + (x - s)) :: _
      rw [Nat.add_sub_cancel' hx.1]
      rfl
    · rintro ⟨x, hx, rfl⟩
      obtain ⟨y, x', hy, hx', rfl⟩ := List.forall₂_cons_right_iff.1 hx
      exact ⟨s + y, _, ⟨by omega, by dsimp only at hy; omega⟩, ih.2 ⟨x', hx', rfl⟩, rfl⟩

/-- The offset of a point of a region is its offset from the start of a smaller region in it, and
the offset of that start. -/
theorem offset_shift {o o' x : List ℕ} (hle : List.Forall₂ (· ≤ ·) o o')
    (hx : o'.length = x.length) : offset (shift o' x) o = shift (offset o' o) x := by
  induction hle generalizing x with
  | nil => rfl
  | @cons a b o o' hab _ ih =>
    obtain ⟨c, x, rfl⟩ := List.exists_cons_of_length_eq_add_one hx.symm
    change (b + c - a) :: offset (shift o' x) o = (b - a + c) :: shift (offset o' o) x
    rw [ih (by simpa using hx), Nat.sub_add_comm hab]

theorem offset_self_shift {o x : List ℕ} (hx : o.length = x.length) : offset (shift o x) o = x := by
  induction o generalizing x with
  | nil => exact (List.length_eq_zero_iff.1 hx.symm).symm
  | cons a o ih =>
    obtain ⟨c, x, rfl⟩ := List.exists_cons_of_length_eq_add_one hx.symm
    change (a + c - a) :: offset (shift o x) o = c :: x
    rw [ih (by simpa using hx), Nat.add_sub_cancel_left]

/-! ### The common part of two regions -/

/-- The common part, of length 0 where the regions do not meet. -/
def inter (r r' : Region) : Region :=
  List.zipWith (fun i j => (max i.1 j.1, min (i.1 + i.2) (j.1 + j.2) - max i.1 j.1)) r r'

theorem mem_inter (h : r.length = r'.length) : Mem (inter r r') p ↔ Mem r p ∧ Mem r' p := by
  induction r generalizing r' p with
  | nil =>
    obtain rfl := List.length_eq_zero_iff.1 h.symm
    simp [inter]
  | cons i r ih =>
    obtain ⟨j, r', rfl⟩ := List.exists_cons_of_length_eq_add_one h.symm
    obtain ⟨s, l⟩ := i
    obtain ⟨s', l'⟩ := j
    cases p with
    | nil => exact iff_of_false (by rintro ⟨⟩) (by rintro ⟨⟨⟩, -⟩)
    | cons x p =>
      have hrest : Mem (inter r r') p ↔ Mem r p ∧ Mem r' p := ih (by simpa using h)
      have hhead : (max s s' ≤ x ∧ x < max s s' + (min (s + l) (s' + l') - max s s')) ↔
          (s ≤ x ∧ x < s + l) ∧ s' ≤ x ∧ x < s' + l' := by omega
      rw [mem_cons, mem_cons]
      change Mem ((max s s', min (s + l) (s' + l') - max s s') :: inter r r') (x :: p) ↔ _
      rw [mem_cons, hrest, hhead]
      tauto

theorem starts_le_inter (h : r.length = r'.length) :
    List.Forall₂ (· ≤ ·) (r.map Prod.fst) ((inter r r').map Prod.fst) ∧
      List.Forall₂ (· ≤ ·) (r'.map Prod.fst) ((inter r r').map Prod.fst) := by
  induction r generalizing r' with
  | nil =>
    obtain rfl := List.length_eq_zero_iff.1 h.symm
    exact ⟨.nil, .nil⟩
  | cons i r ih =>
    obtain ⟨j, r', rfl⟩ := List.exists_cons_of_length_eq_add_one h.symm
    obtain ⟨hleft, hright⟩ := ih (by simpa using h)
    exact ⟨.cons (le_max_left _ _) hleft, .cons (le_max_right _ _) hright⟩

theorem length_inter (h : r.length = r'.length) : (inter r r').length = r.length := by
  rw [inter, List.length_zipWith, h, min_self]

/-- Some dimension has length 0. -/
def Empty (r : Region) : Prop := ∃ i ∈ r, i.2 = 0

instance (r : Region) : Decidable r.Empty := inferInstanceAs (Decidable (∃ i ∈ r, _))

theorem not_mem_of_empty (h : r.Empty) : ¬ Mem r p := by
  intro hp
  obtain ⟨i, hi, h0⟩ := h
  induction hp with
  | nil => exact absurd hi List.not_mem_nil
  | cons hx _ ih =>
    rcases List.mem_cons.1 hi with rfl | hi
    · omega
    · exact ih hi

/-! ### Regions that fill another -/

/-- The two regions have no point in common. -/
def Apart (r r' : Region) : Prop := ∀ p, Mem r p → ¬ Mem r' p

theorem apart_of_inter_empty (hlength : r.length = r'.length) (h : (inter r r').Empty) :
    Apart r r' :=
  fun _ hp hp' => not_mem_of_empty h ((mem_inter hlength).2 ⟨hp, hp'⟩)

/-- Regions inside `b`, apart from each other and with as many points as `b`, fill it. -/
theorem covers_of_numel {regions : List Region} (hinside : ∀ r ∈ regions, ∀ p, Mem r p → Mem b p)
    (hapart : regions.Pairwise Apart) (hnumel : (regions.map numel).sum = b.numel) (hp : Mem b p) :
    ∃ r ∈ regions, Mem r p := by
  have hnodup : (regions.flatMap cells).Nodup := by
    refine List.nodup_flatMap.2 ⟨fun r _ => nodup_cells r, hapart.imp fun {r r'} h => ?_⟩
    exact fun q hq hq' => h q (mem_cells.1 hq) (mem_cells.1 hq')
  have hsubset : regions.flatMap cells ⊆ cells b := by
    intro q hq
    obtain ⟨r, hr, hq⟩ := List.mem_flatMap.1 hq
    exact mem_cells.2 (hinside r hr q (mem_cells.1 hq))
  have hlength : (cells b).length ≤ (regions.flatMap cells).length := by
    rw [List.length_flatMap, length_cells, ← hnumel]
    exact Nat.le_of_eq (congrArg _ (List.map_congr_left fun r _ => (length_cells r).symm))
  have hperm := (hnodup.subperm hsubset).perm_of_length_le hlength
  obtain ⟨r, hr, hp⟩ := List.mem_flatMap.1 (hperm.mem_iff.2 (mem_cells.2 hp))
  exact ⟨r, hr, mem_cells.1 hp⟩

/-- Conversely, the parts of a region that regions filling everything cut out of it count up to
it. -/
theorem sum_numel_of_covers {regions : List Region}
    (hlength : ∀ r ∈ regions, r.length = b.length) (hapart : regions.Pairwise Apart)
    (hcover : ∀ p, Mem b p → ∃ r ∈ regions, Mem r p) :
    (regions.map fun r => (inter r b).numel).sum = b.numel := by
  have hnodup : (regions.flatMap fun r => cells (inter r b)).Nodup := by
    refine List.nodup_flatMap.2 ⟨fun r _ => nodup_cells _, ?_⟩
    refine hapart.imp_of_mem fun {r r'} hr hr' h q hq hq' => ?_
    exact h q ((mem_inter (hlength r hr)).1 (mem_cells.1 hq)).1
      ((mem_inter (hlength r' hr')).1 (mem_cells.1 hq')).1
  have hperm : (regions.flatMap fun r => cells (inter r b)).Perm (cells b) := by
    refine (List.perm_ext_iff_of_nodup hnodup (nodup_cells b)).2 fun q => ?_
    rw [List.mem_flatMap, mem_cells]
    constructor
    · rintro ⟨r, hr, hq⟩
      exact ((mem_inter (hlength r hr)).1 (mem_cells.1 hq)).2
    · intro hq
      obtain ⟨r, hr, hqr⟩ := hcover q hq
      exact ⟨r, hr, mem_cells.2 ((mem_inter (hlength r hr)).2 ⟨hqr, hq⟩)⟩
  have := hperm.length_eq
  rw [List.length_flatMap, length_cells] at this
  rw [← this]
  exact congrArg _ (List.map_congr_left fun r _ => (length_cells _).symm)

/-! ### Tiles -/

/-- The size of a tile in every dimension, filled up from the last dimension on, and what is left of
the bound. -/
def tileSizes (bound : ℕ) : List ℕ → List ℕ × ℕ
  | [] => ([], bound)
  | n :: lengths =>
    let rest := tileSizes bound lengths
    let size := min n (max 1 rest.2)
    (size :: rest.1, max 1 (rest.2 / size))

/-- `range(0, length, step)` -/
def stepRange (length step : ℕ) : List ℕ :=
  (List.range ((length + step - 1) / step)).map (· * step)

/-- The tiles of a region, the first dimension outermost. -/
def tiles : Region → List ℕ → List Region
  | (s, l) :: r, size :: sizes =>
    (stepRange l size).flatMap fun offset =>
      (tiles r sizes).map ((s + offset, min size (l - offset)) :: ·)
  | _, _ => [[]]

theorem tileSizes_spec {bound : ℕ} (hbound : 0 < bound) {lengths : List ℕ}
    (hpos : ∀ n ∈ lengths, 0 < n) :
    0 < (tileSizes bound lengths).2 ∧ (∀ c ∈ (tileSizes bound lengths).1, 0 < c) ∧
      (tileSizes bound lengths).1.length = lengths.length ∧
      (tileSizes bound lengths).1.prod * (tileSizes bound lengths).2 ≤ bound := by
  induction lengths with
  | nil => simp [tileSizes, hbound]
  | cons n lengths ih =>
    obtain ⟨hrest, hsizes, hlength, hprod⟩ := ih fun m hm => hpos m (List.mem_cons_of_mem _ hm)
    have hn := hpos n List.mem_cons_self
    obtain ⟨sizes, left, hts⟩ : ∃ sizes left, tileSizes bound lengths = (sizes, left) :=
      ⟨_, _, rfl⟩
    rw [hts] at hrest hsizes hlength hprod
    dsimp only at hrest hsizes hlength hprod
    have hsize : min n (max 1 left) = min n left := by rw [max_eq_right hrest]
    have hpos' : 0 < min n left := lt_min hn hrest
    have hquot : 1 ≤ left / min n left := Nat.div_pos (min_le_right _ _) hpos'
    simp only [tileSizes, hts, hsize, max_eq_right hquot]
    refine ⟨hquot, List.forall_mem_cons.2 ⟨hpos', hsizes⟩, by simp [hlength], ?_⟩
    calc (min n left :: sizes).prod * (left / min n left)
        = sizes.prod * (min n left * (left / min n left)) := by
          rw [List.prod_cons, Nat.mul_comm (min n left), Nat.mul_assoc]
      _ ≤ sizes.prod * left := Nat.mul_le_mul_left _ (Nat.mul_div_le _ _)
      _ ≤ bound := hprod

theorem mem_stepRange {length step offset : ℕ} (hstep : 0 < step) :
    offset ∈ stepRange length step ↔ step ∣ offset ∧ offset < length := by
  rw [stepRange, List.mem_map]
  constructor
  · rintro ⟨k, hk, rfl⟩
    refine ⟨Dvd.intro_left _ rfl, ?_⟩
    have hk' := (Nat.le_div_iff_mul_le hstep).1 (Nat.succ_le_of_lt (List.mem_range.1 hk))
    rw [Nat.succ_mul] at hk'
    omega
  · rintro ⟨⟨k, rfl⟩, hlt⟩
    refine ⟨k, List.mem_range.2 (Nat.lt_of_succ_le ((Nat.le_div_iff_mul_le hstep).2 ?_)),
      Nat.mul_comm _ _⟩
    rw [Nat.succ_mul, Nat.mul_comm k]
    omega

section Tiles

variable {sizes : List ℕ}

theorem length_of_mem_tiles (hlength : sizes.length = r.length) {t : Region}
    (ht : t ∈ tiles r sizes) : t.length = r.length := by
  induction r generalizing sizes t with
  | nil =>
    rw [tiles, List.mem_singleton] at ht
    · rw [ht]
    · simp
  | cons i r ih =>
    obtain ⟨s, l⟩ := i
    obtain ⟨size, sizes, rfl⟩ := List.exists_cons_of_length_eq_add_one hlength
    simp only [tiles, List.mem_flatMap, List.mem_map] at ht
    obtain ⟨offset, -, t, ht, rfl⟩ := ht
    rw [List.length_cons, List.length_cons, ih (by simpa using hlength) ht]

/-- Every point of a region lies in a tile of it. -/
theorem exists_tile_iff (hpos : ∀ c ∈ sizes, 0 < c) (hlength : sizes.length = r.length) :
    (∃ t ∈ tiles r sizes, Mem t p) ↔ Mem r p := by
  induction r generalizing sizes p with
  | nil =>
    rw [tiles]
    · simp
    · simp
  | cons i r ih =>
    obtain ⟨s, l⟩ := i
    obtain ⟨size, sizes, rfl⟩ := List.exists_cons_of_length_eq_add_one hlength
    have hsize : 0 < size := hpos size List.mem_cons_self
    have hrest : ∀ p, (∃ t ∈ tiles r sizes, Mem t p) ↔ Mem r p := fun p =>
      ih (fun c hc => hpos c (List.mem_cons_of_mem _ hc)) (by simpa using hlength)
    simp only [tiles, List.mem_flatMap, List.mem_map]
    rw [mem_cons_iff]
    constructor
    · rintro ⟨t, ⟨offset, hoffset, t, ht, rfl⟩, hp⟩
      obtain ⟨x, q, hx, hq, rfl⟩ := mem_cons_iff.1 hp
      have hlt := ((mem_stepRange hsize).1 hoffset).2
      exact ⟨x, q, ⟨by omega, by omega⟩, (hrest q).1 ⟨t, ht, hq⟩, rfl⟩
    · rintro ⟨x, q, hx, hq, rfl⟩
      obtain ⟨t, ht, hqt⟩ := (hrest q).2 hq
      have hle := Nat.div_mul_le_self (x - s) size
      have hmod := Nat.div_add_mod' (x - s) size
      have hlt := Nat.mod_lt (x - s) hsize
      refine ⟨_, ⟨(x - s) / size * size, (mem_stepRange hsize).2 ⟨Dvd.intro_left _ rfl, ?_⟩, t, ht,
        rfl⟩, mem_cons.2 ⟨⟨?_, ?_⟩, hqt⟩⟩ <;> omega

/-- No tile is empty. -/
theorem pos_of_mem_tiles (hpos : ∀ c ∈ sizes, 0 < c) (hlength : sizes.length = r.length) {t : Region}
    (ht : t ∈ tiles r sizes) : ∀ i ∈ t, 0 < i.2 := by
  induction r generalizing sizes t with
  | nil =>
    rw [tiles, List.mem_singleton] at ht
    · rw [ht]
      exact fun _ h => absurd h List.not_mem_nil
    · simp
  | cons i r ih =>
    obtain ⟨s, l⟩ := i
    obtain ⟨size, sizes, rfl⟩ := List.exists_cons_of_length_eq_add_one hlength
    have hsize : 0 < size := hpos size List.mem_cons_self
    simp only [tiles, List.mem_flatMap, List.mem_map] at ht
    obtain ⟨offset, hoffset, t, ht, rfl⟩ := ht
    have hlt := ((mem_stepRange hsize).1 hoffset).2
    refine List.forall_mem_cons.2 ⟨lt_min hsize (Nat.sub_pos_of_lt hlt), ?_⟩
    exact ih (fun c hc => hpos c (List.mem_cons_of_mem _ hc)) (by simpa using hlength) ht

/-- A tile has at most as many points as its size says. -/
theorem numel_le_of_mem_tiles (hlength : sizes.length = r.length) {t : Region}
    (ht : t ∈ tiles r sizes) : t.numel ≤ sizes.prod := by
  induction r generalizing sizes t with
  | nil =>
    obtain rfl := List.length_eq_zero_iff.1 hlength
    rw [tiles, List.mem_singleton] at ht
    · rw [ht]
      exact Nat.le_refl _
    · simp
  | cons i r ih =>
    obtain ⟨s, l⟩ := i
    obtain ⟨size, sizes, rfl⟩ := List.exists_cons_of_length_eq_add_one hlength
    simp only [tiles, List.mem_flatMap, List.mem_map] at ht
    obtain ⟨offset, -, t, ht, rfl⟩ := ht
    have hrest := ih (by simpa using hlength) ht
    rw [numel, List.map_cons, List.prod_cons, List.prod_cons]
    exact Nat.mul_le_mul (min_le_left _ _) hrest

end Tiles

end Region

/-! ### Row-major order -/

/-- The indices of a shape in row-major order. -/
def rowMajor (shape : List ℕ) : List (List ℕ) := (List.range shape.prod).map (digits shape)
