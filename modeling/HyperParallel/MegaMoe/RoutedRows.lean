import HyperParallel.Lib.Cut
import HyperParallel.MegaMoe.ReadyHandshakeBarrier
import HyperParallel.MegaMoe.RouteMetadata
import Mathlib.Algebra.BigOperators.Intervals
import Mathlib.Algebra.Order.BigOperators.Group.Finset
import Mathlib.Tactic.Common

/-!
# Every routed row once

* `exclusive32_eq`, `exists_segment`, `exists_tile`: prefix sums, the segments of a buffer and their
  tiles;
* `put_moves_iff`: a put-mem task copies its tile of the segment of its group;
* `Edge`, `Copies`: what goes from a source to a local expert of a destination;
  `dispatch_moves_iff`, `combine_moves_iff`: both directions of it;
* `Copies.unique_target`, `Copies.unique_source`: no place is written or read twice;
* `routed_of_fits`: the call routes every row once, where nothing wraps; `Counted.fits`: a bound on
  the tokens of a rank for that;
* `not_routed_wrappedSize`: a size of 2 ^ 31 elements is not moved.
-/

namespace HyperParallel.MegaMoe

open Finset Handshake

/-! ### Prefix sums -/

section Prefix

variable {g : ℕ → ℕ} {n m : ℕ}

theorem monotone_sum_range (g : ℕ → ℕ) : Monotone fun n => ∑ i ∈ range n, g i :=
  monotone_nat_of_le_succ fun n => by
    rw [sum_range_succ]
    exact Nat.le_add_right _ _

theorem cumsum32_eq (h : ∑ i ∈ range (n + 1), g i < 2 ^ 31) :
    cumsum32 (fun i => (g i : ℤ)) n = (∑ i ∈ range (n + 1), g i : ℕ) := by
  induction n with
  | zero =>
    rw [sum_range_one] at h ⊢
    exact toInt32_of_lt h
  | succ n ih =>
    have hle : ∑ i ∈ range (n + 1), g i ≤ ∑ i ∈ range (n + 1 + 1), g i :=
      monotone_sum_range g (Nat.le_succ _)
    rw [cumsum32, ih (hle.trans_lt h), ← Nat.cast_add, ← sum_range_succ]
    exact toInt32_of_lt h

theorem exclusive32_eq (hn : n < m) (h : ∑ i ∈ range m, g i < 2 ^ 31) :
    exclusive32 (fun i => (g i : ℤ)) n = (∑ i ∈ range n, g i : ℕ) := by
  have hsucc : ∑ i ∈ range (n + 1), g i < 2 ^ 31 := (monotone_sum_range g hn).trans_lt h
  rw [exclusive32, cumsum32_eq hsucc, sum_range_succ]
  rw [sum_range_succ] at hsucc
  rw [Nat.cast_add, add_sub_cancel_right]
  exact toInt32_of_lt (by omega)

/-- An element of a buffer lies in one segment. -/
theorem exists_segment {H y : ℕ} (h : y < (∑ i ∈ range m, g i) * H) :
    ∃ j < m, ∃ t < g j * H, y = (∑ i ∈ range j, g i) * H + t := by
  obtain ⟨j, hj, hlo, hhi⟩ := exists_interval (g := fun n => (∑ i ∈ range n, g i) * H) (N := m)
    (x := y) (by simp) h
  rw [sum_range_succ, add_mul] at hhi
  exact ⟨j, hj, y - (∑ i ∈ range j, g i) * H, by omega, by omega⟩

/-- A segment ends where a later one begins, or before. -/
theorem segment_lt_start {H j j' t : ℕ} (hj : j < j') (ht : t < g j * H) :
    (∑ i ∈ range j, g i) * H + t < (∑ i ∈ range j', g i) * H := by
  have hle := Nat.mul_le_mul_right H (monotone_sum_range g (Nat.succ_le_of_lt hj))
  simp only [Nat.succ_eq_add_one] at hle
  rw [sum_range_succ, add_mul] at hle
  omega

theorem segment_lt {H j j' t t' : ℕ} (hj : j < j') (ht : t < g j * H) :
    (∑ i ∈ range j, g i) * H + t < (∑ i ∈ range j', g i) * H + t' :=
  (segment_lt_start hj ht).trans_le (Nat.le_add_right _ t')

end Prefix

/-! ### The tiles of a segment -/

/-- The elements of a segment of the given size that the task `v` copies. -/
def InTile (width size v t : ℕ) : Prop := v * width ≤ t ∧ t < (v + 1) * width ∧ t < size

theorem exists_tile {width size tasks t : ℕ} (hsize : size ≤ tasks * width) (ht : t < size) :
    ∃ v < tasks, InTile width size v t := by
  obtain ⟨v, hv, hlo, hhi⟩ := exists_interval (g := fun v => v * width) (N := tasks) (x := t)
    (by simp) (ht.trans_le hsize)
  exact ⟨v, hv, hlo, hhi, ht⟩

theorem tile_unique {width size size' v v' t : ℕ} (h : InTile width size v t)
    (h' : InTile width size' v' t) : v = v' := by
  rcases lt_trichotomy v v' with hlt | heq | hgt
  · have := Nat.mul_le_mul_right width (Nat.succ_le_of_lt hlt)
    simp only [Nat.succ_eq_add_one] at this
    have := h.2.1
    have := h'.1
    omega
  · exact heq
  · have := Nat.mul_le_mul_right width (Nat.succ_le_of_lt hgt)
    simp only [Nat.succ_eq_add_one] at this
    have := h'.2.1
    have := h.1
    omega

/-! ### The index of a task -/

theorem tasks_index_lt {g v n m : ℕ} (hg : g < n) (hv : v < m) : g * m + v < n * m := by
  have := Nat.mul_le_mul_right m (Nat.succ_le_of_lt hg)
  rw [Nat.succ_mul] at this
  omega

theorem div_of_lt {g v m : ℕ} (hv : v < m) : (g * m + v) / m = g := by
  rw [Nat.mul_comm, Nat.mul_add_div (by omega), Nat.div_eq_of_lt hv, Nat.add_zero]

theorem mod_of_lt {g v m : ℕ} (hv : v < m) : (g * m + v) % m = v := by
  rw [Nat.mul_comm, Nat.mul_add_mod, Nat.mod_eq_of_lt hv]

section Put

variable {spec : MegaMoeSpec} {counts : ℕ → ℕ → ℕ}

/-- The numbers of a task in `int32_t`, where the tile copies something. -/
theorem send_eq {a w z : ℕ} (hz : z < 2 ^ 31) (hend : a < z → a + w < 2 ^ 31) :
    (if (z : ℤ) ≤ (a : ℤ) then 0 else if (z : ℤ) < toInt32 (a + w : ℕ) then
      toInt32 ((z : ℤ) - (a : ℤ)) else toInt32 w) = (min (a + w) z - min a z : ℕ) := by
  -- a tile that starts behind the segment sends nothing, wherever it ends
  rcases Nat.lt_or_ge a z with hlt | hge
  · have hdiff : toInt32 ((z : ℤ) - a) = (z - a : ℕ) := by
      rw [← Nat.cast_sub hlt.le]
      exact toInt32_of_lt ((Nat.sub_le z a).trans_lt hz)
    rw [if_neg (by omega), hdiff, toInt32_of_lt (hend hlt),
      toInt32_of_lt ((Nat.le_add_left w a).trans_lt (hend hlt)), Nat.min_eq_left hlt.le]
    clear hz hend hdiff
    split_ifs with h
    · rw [Nat.min_eq_right (by omega)]
    · rw [Nat.min_eq_left (by omega)]
      omega
  · rw [if_pos (by omega), Nat.min_eq_right hge, Nat.min_eq_right (by omega), Nat.sub_self]
    rfl

/-- What a put copies: its tile of the segment of its group. -/
theorem put_moves_iff {tgt so : ℕ → ℤ} {size : ℕ → ℤ} {g v c A B : ℕ}
    (hv : v < spec.expertTasks) (hsize : size g = c) (hso : so g = A) (hto : tgt g = B)
    (hz : c * spec.hiddenSize < 2 ^ 31) (hstart : v * (spec.split * spec.hiddenSize) < 2 ^ 31)
    (hend : v * (spec.split * spec.hiddenSize) < c * spec.hiddenSize →
      (v + 1) * (spec.split * spec.hiddenSize) < 2 ^ 31) {x y : ℤ} :
    (executeShmemPutMem spec tgt so size (g * spec.expertTasks + v)).Moves x y ↔
      ∃ t : ℕ, InTile (spec.split * spec.hiddenSize) (c * spec.hiddenSize) v t ∧
        x = (A * spec.hiddenSize + t : ℕ) ∧ y = (B * spec.hiddenSize + t : ℕ) := by
  have hstart32 : toInt32 ((v : ℕ) * spec.split * spec.hiddenSize) =
      (v * (spec.split * spec.hiddenSize) : ℕ) := by
    rw [← toInt32_of_lt hstart]
    push_cast
    rw [mul_assoc]
  have hendCast : ((v : ℕ) + 1 : ℤ) * spec.split * spec.hiddenSize =
      (v * (spec.split * spec.hiddenSize) + spec.split * spec.hiddenSize : ℕ) := by
    push_cast
    rw [add_mul, add_mul, one_mul, mul_assoc]
  have hsize32 : toInt32 ((c : ℤ) * spec.hiddenSize) = (c * spec.hiddenSize : ℕ) := by
    rw [← toInt32_of_lt hz, Nat.cast_mul]
  rw [Nat.add_mul, Nat.one_mul] at hend
  have hsend := send_eq hz hend
  simp only [Put.Moves, executeShmemPutMem, div_of_lt hv, mod_of_lt hv, hsize, hso, hto, hstart32,
    hendCast, hsize32, InTile, Nat.add_mul, Nat.one_mul]
  rw [← Nat.cast_mul spec.split, hsend, ← Nat.cast_mul, ← Nat.cast_mul]
  clear hsend hstart32 hendCast hsize32 hz hstart hend
  generalize v * (spec.split * spec.hiddenSize) = a
  generalize spec.split * spec.hiddenSize = w
  generalize c * spec.hiddenSize = z
  constructor
  · rintro ⟨k, hk, hlt, rfl, rfl⟩
    exact ⟨a + k.toNat, by omega, by omega, by omega⟩
  · rintro ⟨t, ⟨hlo, hhi, hlt⟩, rfl, rfl⟩
    exact ⟨t - a, by omega, by omega, by omega, by omega⟩

/-- The rows of a source before an expert, and those of a destination before a pair. -/
def sourceRows (counts : ℕ → ℕ → ℕ) (s e : ℕ) : ℕ := ∑ i ∈ range e, counts s i

def destinationRows (spec : MegaMoeSpec) (counts : ℕ → ℕ → ℕ) (d j : ℕ) : ℕ :=
  ∑ i ∈ range j, destinationFlat spec counts d i

theorem sourcePrefix_eq (hfits : Fits spec counts) {s e : ℕ} (hs : s < spec.epSize)
    (he : e < spec.experts) : sourcePrefix counts s e = sourceRows counts s e :=
  exclusive32_eq he (hfits.sources s hs)

theorem destinationPrefix_eq (hfits : Fits spec counts) {d j : ℕ} (hd : d < spec.epSize)
    (hj : j < spec.localExperts * spec.epSize) :
    destinationPrefix spec counts d j = destinationRows spec counts d j :=
  exclusive32_eq hj (hfits.loads d hd)

/-- The task of the rows that source `s` routes to local expert `e` of destination `d`, tile `v`. -/
structure Edge (spec : MegaMoeSpec) (s d e v : ℕ) : Prop where
  source : s < spec.epSize
  destination : d < spec.epSize
  expert : e < spec.localExperts
  tile : v < spec.expertTasks

variable {s d e v : ℕ}

theorem Edge.group_lt (h : Edge spec s d e v) : d * spec.localExperts + e < spec.experts :=
  tasks_index_lt h.destination h.expert

theorem Edge.pair_lt (h : Edge spec s d e v) :
    e * spec.epSize + s < spec.localExperts * spec.epSize :=
  tasks_index_lt h.expert h.source

/-- The dispatch task of an edge. -/
def dispatchTask (spec : MegaMoeSpec) (d e v : ℕ) : ℕ :=
  (d * spec.localExperts + e) * spec.expertTasks + v

theorem flat_eq (h : Edge spec s d e v) :
    destinationFlat spec counts d (e * spec.epSize + s) = counts s (d * spec.localExperts + e) := by
  rw [destinationFlat, div_of_lt h.source, mod_of_lt h.source]

/-- The elements of an edge, from the source's buffer to the destination's. -/
def Copies (spec : MegaMoeSpec) (counts : ℕ → ℕ → ℕ) (s d e v : ℕ) (x y : ℤ) : Prop :=
  ∃ t : ℕ, InTile (spec.split * spec.hiddenSize)
      (counts s (d * spec.localExperts + e) * spec.hiddenSize) v t ∧
    x = (sourceRows counts s (d * spec.localExperts + e) * spec.hiddenSize + t : ℕ) ∧
    y = (destinationRows spec counts d (e * spec.epSize + s) * spec.hiddenSize + t : ℕ)

theorem dispatch_moves_iff (hfits : Fits spec counts) (h : Edge spec s d e v) {x y : ℤ} :
    (dispatchPut spec counts s (dispatchTask spec d e v)).Moves x y ↔
      Copies spec counts s d e v x y := by
  refine put_moves_iff (c := counts s (d * spec.localExperts + e))
    (A := sourceRows counts s (d * spec.localExperts + e))
    (B := destinationRows spec counts d (e * spec.epSize + s)) h.tile ?_ ?_ ?_
    (hfits.sizes s h.source _ h.group_lt) (hfits.starts v h.tile)
    (hfits.ends s h.source _ h.group_lt v h.tile)
  · rfl
  · exact sourcePrefix_eq hfits h.source h.group_lt
  · show destinationPrefix spec counts ((d * spec.localExperts + e) / spec.localExperts)
      ((d * spec.localExperts + e) % spec.localExperts * spec.epSize + s) = _
    rw [div_of_lt h.expert, mod_of_lt h.expert]
    exact destinationPrefix_eq hfits h.destination h.pair_lt

theorem combine_moves_iff (hfits : Fits spec counts) (h : Edge spec s d e v) {x y : ℤ} :
    (combinePut spec counts d (dispatchTask spec s e v)).Moves x y ↔
      Copies spec counts s d e v y x := by
  have hdiv : (s * spec.localExperts + e) / spec.localExperts = s := div_of_lt h.expert
  have hmod : (s * spec.localExperts + e) % spec.localExperts = e := mod_of_lt h.expert
  refine (put_moves_iff (c := counts s (d * spec.localExperts + e))
    (A := destinationRows spec counts d (e * spec.epSize + s))
    (B := sourceRows counts s (d * spec.localExperts + e)) h.tile ?_ ?_ ?_
    (hfits.sizes s h.source _ h.group_lt) (hfits.starts v h.tile)
    (hfits.ends s h.source _ h.group_lt v h.tile)).trans ?_
  · show ((counts ((s * spec.localExperts + e) / spec.localExperts)
      (d * spec.localExperts + (s * spec.localExperts + e) % spec.localExperts) : ℕ) : ℤ) = _
    rw [hdiv, hmod]
  · show destinationPrefix spec counts d
      ((s * spec.localExperts + e) % spec.localExperts * spec.epSize +
        (s * spec.localExperts + e) / spec.localExperts) = _
    rw [hdiv, hmod]
    exact destinationPrefix_eq hfits h.destination h.pair_lt
  · show sourcePrefix counts ((s * spec.localExperts + e) / spec.localExperts)
      (d * spec.localExperts + (s * spec.localExperts + e) % spec.localExperts) = _
    rw [hdiv, hmod]
    exact sourcePrefix_eq hfits h.source h.group_lt
  · exact exists_congr fun t => and_congr_right fun _ => and_comm

/-- Every task of a rank is that of an edge. -/
theorem exists_edge {r i : ℕ} (hr : r < spec.epSize) (hi : i < spec.taskNum) :
    ∃ d e v, i = dispatchTask spec d e v ∧ Edge spec r d e v := by
  have htasks : 0 < spec.expertTasks := Nat.pos_of_ne_zero fun h => by
    rw [MegaMoeSpec.taskNum, h, Nat.mul_zero] at hi
    exact Nat.not_lt_zero i hi
  have hgroup : i / spec.expertTasks < spec.experts := Nat.div_lt_of_lt_mul (by
    rwa [Nat.mul_comm])
  have hlocal : 0 < spec.localExperts := Nat.pos_of_ne_zero fun h => by
    rw [MegaMoeSpec.experts, h, Nat.mul_zero] at hgroup
    exact Nat.not_lt_zero _ hgroup
  refine ⟨i / spec.expertTasks / spec.localExperts, i / spec.expertTasks % spec.localExperts,
    i % spec.expertTasks, ?_, hr, ?_, Nat.mod_lt _ hlocal, Nat.mod_lt _ htasks⟩
  · rw [dispatchTask, Nat.div_add_mod', Nat.div_add_mod']
  · exact Nat.div_lt_of_lt_mul (by rwa [Nat.mul_comm])

theorem targetPe_eq (h : Edge spec s d e v) :
    dispatchTask spec d e v / (spec.localExperts * spec.expertTasks) = d := by
  rw [dispatchTask, Nat.mul_comm spec.localExperts, ← Nat.div_div_eq_div_mul, div_of_lt h.tile,
    div_of_lt h.expert]

theorem dispatchPut_targetPe (h : Edge spec s d e v) :
    (dispatchPut spec counts s (dispatchTask spec d e v)).targetPe = d := targetPe_eq h

/-- The combine goes back along an edge. -/
theorem combinePut_targetPe (h : Edge spec d s e v) :
    (combinePut spec counts d (dispatchTask spec s e v)).targetPe = s := targetPe_eq h

theorem localExpert_eq (h : Edge spec s d e v) :
    spec.localExpert (dispatchTask spec d e v) = e := by
  rw [MegaMoeSpec.localExpert, dispatchTask, div_of_lt h.tile, mod_of_lt h.expert]

theorem dispatchTask_lt (h : Edge spec s d e v) : dispatchTask spec d e v < spec.taskNum :=
  tasks_index_lt h.group_lt h.tile

/-! ### Every row once -/

theorem size_le (hfits : Fits spec counts) {g : ℕ} (hs : s < spec.epSize) (hg : g < spec.experts) :
    counts s g * spec.hiddenSize ≤ spec.expertTasks * (spec.split * spec.hiddenSize) := by
  have hall : spec.expertTasks * spec.split = spec.localNumTokens :=
    Nat.div_mul_cancel (Nat.dvd_of_mod_eq_zero hfits.divides)
  rw [← Nat.mul_assoc, hall]
  exact Nat.mul_le_mul_right _ (hfits.entries s hs g hg)

theorem exists_copies_of_lt_load (hfits : Fits spec counts) (hd : d < spec.epSize) {y : ℕ}
    (hy : y < load spec counts d * spec.hiddenSize) :
    ∃ s e v, Edge spec s d e v ∧ ∃ x, Copies spec counts s d e v x y := by
  obtain ⟨j, hj, t, ht, rfl⟩ := exists_segment hy
  have hs : j % spec.epSize < spec.epSize := Nat.mod_lt _ (Nat.zero_lt_of_lt hd)
  have he : j / spec.epSize < spec.localExperts := Nat.div_lt_of_lt_mul (by rwa [Nat.mul_comm])
  have hg : d * spec.localExperts + j / spec.epSize < spec.experts := tasks_index_lt hd he
  obtain ⟨v, hv, htile⟩ := exists_tile (size_le hfits hs hg) ht
  refine ⟨j % spec.epSize, j / spec.epSize, v, ⟨hs, hd, he, hv⟩, _, t, htile, rfl, ?_⟩
  rw [Nat.div_add_mod']
  rfl

theorem exists_copies_of_lt_total (hfits : Fits spec counts) (hs : s < spec.epSize) {x : ℕ}
    (hx : x < sourceTotal spec counts s * spec.hiddenSize) :
    ∃ d e v, Edge spec s d e v ∧ ∃ y, Copies spec counts s d e v x y := by
  obtain ⟨g, hg, t, ht, rfl⟩ := exists_segment hx
  have hlocal : 0 < spec.localExperts := Nat.pos_of_ne_zero fun h => by
    rw [MegaMoeSpec.experts, h, Nat.mul_zero] at hg
    exact Nat.not_lt_zero _ hg
  obtain ⟨v, hv, htile⟩ := exists_tile (size_le hfits hs hg) ht
  refine ⟨g / spec.localExperts, g % spec.localExperts, v, ⟨hs, ?_, Nat.mod_lt _ hlocal, hv⟩, _, t,
    ?_, ?_, rfl⟩
  · exact Nat.div_lt_of_lt_mul (by rwa [Nat.mul_comm])
  · rwa [Nat.div_add_mod']
  · rw [Nat.div_add_mod']
    rfl

theorem Copies.lt_load (h : Edge spec s d e v) {x y : ℤ} (hc : Copies spec counts s d e v x y) :
    0 ≤ y ∧ y < load spec counts d * spec.hiddenSize := by
  obtain ⟨t, htile, -, rfl⟩ := hc
  have hflat : destinationFlat spec counts d (e * spec.epSize + s) = _ := flat_eq h
  rw [← hflat] at htile
  have hlt := segment_lt_start h.pair_lt htile.2.2
  refine ⟨Int.natCast_nonneg _, ?_⟩
  rw [← Nat.cast_mul]
  exact Nat.cast_lt.2 hlt

theorem Copies.lt_total (h : Edge spec s d e v) {x y : ℤ} (hc : Copies spec counts s d e v x y) :
    0 ≤ x ∧ x < sourceTotal spec counts s * spec.hiddenSize := by
  obtain ⟨t, htile, rfl, -⟩ := hc
  have hlt := segment_lt_start h.group_lt htile.2.2
  refine ⟨Int.natCast_nonneg _, ?_⟩
  rw [← Nat.cast_mul]
  exact Nat.cast_lt.2 hlt

variable {s' d' e' v' : ℕ} {x y x' y' : ℤ}

theorem Copies.lt_of_lt (h : Edge spec s d e v) (hc : Copies spec counts s d e v x y)
    (hc' : Copies spec counts s' d e' v' x' y')
    (hlt : e * spec.epSize + s < e' * spec.epSize + s') : y < y' := by
  obtain ⟨t, htile, -, rfl⟩ := hc
  obtain ⟨t', -, -, rfl⟩ := hc'
  have hflat : destinationFlat spec counts d (e * spec.epSize + s) = _ := flat_eq h
  rw [← hflat] at htile
  exact Nat.cast_lt.2 (segment_lt hlt htile.2.2)

/-- A place in a destination's buffer is written once. -/
theorem Copies.unique_target (h : Edge spec s d e v) (h' : Edge spec s' d e' v')
    (hc : Copies spec counts s d e v x y) (hc' : Copies spec counts s' d e' v' x' y) :
    s = s' ∧ e = e' ∧ v = v' := by
  have hpair : e * spec.epSize + s = e' * spec.epSize + s' := by
    rcases lt_trichotomy (e * spec.epSize + s) (e' * spec.epSize + s') with hlt | heq | hgt
    · exact absurd (hc.lt_of_lt h hc' hlt) (lt_irrefl y)
    · exact heq
    · exact absurd (hc'.lt_of_lt h' hc hgt) (lt_irrefl y)
  have he : e = e' := by rw [← div_of_lt (g := e) h.source, hpair, div_of_lt h'.source]
  have hs : s = s' := by rw [← mod_of_lt (g := e) h.source, hpair, mod_of_lt h'.source]
  -- the same segment: what is left is the place in it
  subst he hs
  obtain ⟨t, htile, -, hy⟩ := hc
  obtain ⟨t', htile', -, hy'⟩ := hc'
  obtain rfl : t = t' := by
    have := Nat.cast_inj.1 (hy.symm.trans hy')
    omega
  exact ⟨rfl, rfl, tile_unique htile htile'⟩

/-- A place in a source's buffer is read once. -/
theorem Copies.unique_source (h : Edge spec s d e v) (h' : Edge spec s d' e' v')
    (hc : Copies spec counts s d e v x y) (hc' : Copies spec counts s d' e' v' x y') :
    d = d' ∧ e = e' ∧ v = v' := by
  obtain ⟨t, htile, hx, -⟩ := hc
  obtain ⟨t', htile', hx', -⟩ := hc'
  have hsame := Nat.cast_inj.1 (hx.symm.trans hx')
  have hgroup : d * spec.localExperts + e = d' * spec.localExperts + e' := by
    rcases lt_trichotomy (d * spec.localExperts + e) (d' * spec.localExperts + e')
      with hlt | heq | hgt
    · exact absurd hsame (segment_lt hlt htile.2.2).ne
    · exact heq
    · exact absurd hsame (segment_lt hgt htile'.2.2).ne'
  have hd : d = d' := by rw [← div_of_lt (g := d) h.expert, hgroup, div_of_lt h'.expert]
  have he : e = e' := by rw [← mod_of_lt (g := d) h.expert, hgroup, mod_of_lt h'.expert]
  subst hd he
  obtain rfl : t = t' := by omega
  exact ⟨rfl, rfl, tile_unique htile htile'⟩

/-! ### The capacity -/

/-- A sum over a flat index, by its two parts. -/
theorem sum_range_flat (f : ℕ → ℕ → ℕ) {m : ℕ} (n : ℕ) :
    ∑ j ∈ range (n * m), f (j % m) (j / m) = ∑ e ∈ range n, ∑ s ∈ range m, f s e := by
  induction n with
  | zero => rw [Nat.zero_mul, sum_range_zero, sum_range_zero]
  | succ n ih =>
    rw [Nat.succ_mul, sum_range_add, ih, sum_range_succ]
    congr 1
    refine sum_congr rfl fun s hs => ?_
    rw [div_of_lt (mem_range.1 hs), mod_of_lt (mem_range.1 hs)]

/-- What a destination receives, by sources. -/
theorem load_eq (spec : MegaMoeSpec) (counts : ℕ → ℕ → ℕ) (d : ℕ) :
    load spec counts d = ∑ s ∈ range spec.epSize, ∑ e ∈ range spec.localExperts,
      counts s (d * spec.localExperts + e) := by
  rw [sum_comm]
  exact sum_range_flat (fun s e => counts s (d * spec.localExperts + e)) spec.localExperts

theorem le_alignCapacity {n k : ℕ} (hk : 0 < k) : n ≤ alignCapacity n k := by
  have hmod := Nat.mod_add_div (n + k - 1) k
  have hlt := Nat.mod_lt (n + k - 1) hk
  rw [alignCapacity, Nat.mul_comm]
  omega

theorem load_le_receiveCapacity (hfits : Fits spec counts) (hd : d < spec.epSize) :
    load spec counts d ≤ spec.receiveCapacity := by
  rw [MegaMoeSpec.receiveCapacity]
  cases hcap : spec.boundedCapacity with
  | some capacity =>
    have haccepts := hfits.accepts capacity hcap d hd
    rw [toInt32_of_lt (hfits.loads d hd)] at haccepts
    exact Nat.cast_le.1 haccepts
  | none =>
    refine le_trans ?_ (le_alignCapacity hfits.split_pos)
    have hsource : ∀ s ∈ range spec.epSize, (∑ e ∈ range spec.localExperts,
        counts s (d * spec.localExperts + e)) ≤ spec.localNumTokens * spec.topK := by
      intro s hs
      refine le_trans ?_ (hfits.slots hcap s (mem_range.1 hs))
      have hsplit := sum_range_add (counts s) (d * spec.localExperts) spec.localExperts
      -- the experts of a destination are some of all
      have hle := monotone_sum_range (counts s) (show d * spec.localExperts + spec.localExperts ≤
        spec.experts by
          rw [← Nat.succ_mul]
          exact Nat.mul_le_mul_right _ hd)
      rw [sourceTotal]
      simp only [hsplit] at hle
      omega
    calc load spec counts d = _ := load_eq spec counts d
      _ ≤ ∑ _s ∈ range spec.epSize, spec.localNumTokens * spec.topK := sum_le_sum hsource
      _ = spec.epSize * (spec.localNumTokens * spec.topK) := by
        rw [sum_const_nat fun _ _ => rfl, card_range]

/-! ### The groups -/

theorem groupList_eq (hfits : Fits spec counts) (hd : d < spec.epSize)
    (he : e < spec.localExperts) : (computeRouteMetadata spec counts d).groupList e =
      destinationRows spec counts d ((e + 1) * spec.epSize) := by
  have hep : spec.epSize - 1 < spec.epSize := by omega
  have hj : e * spec.epSize + (spec.epSize - 1) < spec.localExperts * spec.epSize :=
    tasks_index_lt he hep
  have hend : e * spec.epSize + (spec.epSize - 1) + 1 = (e + 1) * spec.epSize := by
    rw [Nat.succ_mul]
    omega
  have hle : destinationRows spec counts d ((e + 1) * spec.epSize) < 2 ^ 31 :=
    (monotone_sum_range _ (Nat.mul_le_mul_right _ he)).trans_lt (hfits.loads d hd)
  rw [← toInt32_of_lt hle, ← hend, destinationRows, sum_range_succ, Nat.cast_add]
  show toInt32 (destinationPrefix spec counts d _ + _) = _
  rw [destinationPrefix_eq hfits hd hj]
  rfl

theorem groupStart_eq (hfits : Fits spec counts) (hd : d < spec.epSize)
    (he : e < spec.localExperts) :
    groupStart spec counts d e = destinationRows spec counts d (e * spec.epSize) := by
  rw [groupStart]
  cases e with
  | zero =>
    rw [if_pos rfl, Nat.zero_mul]
    rfl
  | succ e =>
    rw [if_neg (Nat.succ_ne_zero e), Nat.succ_sub_one]
    exact groupList_eq hfits hd (Nat.lt_of_succ_lt he)

/-- The rows of a local expert are those between two entries of the group list. -/
theorem Copies.mem_group_iff (h : Edge spec s d e v) (hc : Copies spec counts s d e v x y) {e₀ : ℕ} :
    (destinationRows spec counts d (e₀ * spec.epSize) * spec.hiddenSize : ℕ) ≤ y ∧
      y < (destinationRows spec counts d ((e₀ + 1) * spec.epSize) * spec.hiddenSize : ℕ) ↔ e = e₀ := by
  obtain ⟨t, htile, -, rfl⟩ := hc
  have hflat : destinationFlat spec counts d (e * spec.epSize + s) = _ := flat_eq h
  rw [← hflat] at htile
  have hs := h.source
  rw [Nat.cast_le, Nat.cast_lt]
  constructor
  · rintro ⟨hlo, hhi⟩
    by_contra hne
    rcases Nat.lt_or_gt_of_ne hne with hlt | hgt
    · have hj : e * spec.epSize + s < e₀ * spec.epSize := tasks_index_lt hlt hs
      have := segment_lt_start hj htile.2.2
      exact absurd (hlo.trans_lt this) (lt_irrefl _)
    · have hj : (e₀ + 1) * spec.epSize ≤ e * spec.epSize + s :=
        (Nat.mul_le_mul_right _ hgt).trans (Nat.le_add_right _ _)
      have hle := Nat.mul_le_mul_right spec.hiddenSize
        (monotone_sum_range (destinationFlat spec counts d) hj)
      exact absurd (hhi.trans_le (hle.trans (Nat.le_add_right _ t))) (lt_irrefl _)
  · rintro rfl
    have hlo : e * spec.epSize ≤ e * spec.epSize + s := Nat.le_add_right _ _
    have hhi : e * spec.epSize + s < (e + 1) * spec.epSize := by
      rw [Nat.succ_mul]
      omega
    refine ⟨?_, segment_lt_start hhi htile.2.2⟩
    exact (Nat.mul_le_mul_right _ (monotone_sum_range (destinationFlat spec counts d) hlo)).trans
      (Nat.le_add_right _ _)

/-! ### The call -/

theorem routed_of_fits (hfits : Fits spec counts) : Routed spec counts where
  dispatch := by
    intro d hd y
    constructor
    · rintro ⟨hlo, hhi⟩
      obtain ⟨n, rfl⟩ := Int.eq_ofNat_of_zero_le hlo
      rw [← Nat.cast_mul, Nat.cast_lt] at hhi
      obtain ⟨s, e, v, h, x, hc⟩ := exists_copies_of_lt_load hfits hd hhi
      exact ⟨s, h.source, dispatchTask spec d e v, dispatchTask_lt h, targetPe_eq h, x,
        (dispatch_moves_iff hfits h).2 hc⟩
    · rintro ⟨r, hr, i, hi, rfl, x, hmoves⟩
      obtain ⟨d, e, v, rfl, h⟩ := exists_edge hr hi
      rw [dispatchPut_targetPe h]
      exact ((dispatch_moves_iff hfits h).1 hmoves).lt_load h
  dispatchOrder := by
    intro r hr r' hr' i hi i' hi' hpe x y x' y' hm hm'
    obtain ⟨d, e, v, rfl, h⟩ := exists_edge hr hi
    obtain ⟨d', e', v', rfl, h'⟩ := exists_edge hr' hi'
    obtain rfl : d = d' := (targetPe_eq h).symm.trans (hpe.trans (targetPe_eq h'))
    have hc := (dispatch_moves_iff hfits h).1 hm
    have hc' := (dispatch_moves_iff hfits h').1 hm'
    rw [localExpert_eq h, localExpert_eq h']
    constructor
    · intro hlt
      refine hc.lt_of_lt h hc' ?_
      rcases hlt with hlt | ⟨rfl, hlt⟩
      · exact (tasks_index_lt hlt hr).trans_le (Nat.le_add_right _ _)
      · omega
    · rintro rfl
      obtain ⟨rfl, rfl, rfl⟩ := hc.unique_target h h' hc'
      exact ⟨rfl, rfl⟩
  capacity := fun d hd => load_le_receiveCapacity hfits hd
  groups := by
    intro d hd e he y
    rw [groupList_eq hfits hd he, groupStart_eq hfits hd he, ← Nat.cast_mul, ← Nat.cast_mul]
    constructor
    · rintro ⟨hlo, hhi⟩
      obtain ⟨n, rfl⟩ := Int.eq_ofNat_of_zero_le ((Int.natCast_nonneg _).trans hlo)
      have hall : destinationRows spec counts d ((e + 1) * spec.epSize) ≤ load spec counts d :=
        monotone_sum_range _ (Nat.mul_le_mul_right _ he)
      have hlt := (Nat.cast_lt.1 hhi).trans_le (Nat.mul_le_mul_right spec.hiddenSize hall)
      obtain ⟨s, e', v, h, x, hc⟩ := exists_copies_of_lt_load hfits hd hlt
      obtain rfl := (hc.mem_group_iff h).1 ⟨hlo, hhi⟩
      exact ⟨s, h.source, dispatchTask spec d e' v, dispatchTask_lt h, targetPe_eq h,
        localExpert_eq h, x, (dispatch_moves_iff hfits h).2 hc⟩
    · rintro ⟨r, hr, i, hi, hpe, hlocal, x, hmoves⟩
      obtain ⟨d', e', v, rfl, h⟩ := exists_edge hr hi
      obtain rfl : d' = d := (targetPe_eq h).symm.trans hpe
      obtain rfl : e' = e := (localExpert_eq h).symm.trans hlocal
      exact (((dispatch_moves_iff hfits h).1 hmoves).mem_group_iff h).2 rfl
  combine := by
    intro s hs y
    constructor
    · rintro ⟨hlo, hhi⟩
      obtain ⟨n, rfl⟩ := Int.eq_ofNat_of_zero_le hlo
      rw [← Nat.cast_mul, Nat.cast_lt] at hhi
      obtain ⟨d, e, v, h, x, hc⟩ := exists_copies_of_lt_total hfits hs hhi
      have hback : Edge spec d s e v := ⟨h.destination, h.source, h.expert, h.tile⟩
      exact ⟨d, h.destination, dispatchTask spec s e v, dispatchTask_lt hback, targetPe_eq hback, x,
        (combine_moves_iff hfits h).2 hc⟩
    · rintro ⟨d, hd, i, hi, rfl, x, hmoves⟩
      obtain ⟨s, e, v, rfl, hback⟩ := exists_edge hd hi
      have h : Edge spec s d e v := ⟨hback.destination, hback.source, hback.expert, hback.tile⟩
      rw [combinePut_targetPe hback]
      exact ((combine_moves_iff hfits h).1 hmoves).lt_total h
  combineOnce := by
    intro d hd d' hd' i hi i' hi' hpe x y x' hm hm'
    obtain ⟨s, e, v, rfl, hback⟩ := exists_edge hd hi
    obtain ⟨s', e', v', rfl, hback'⟩ := exists_edge hd' hi'
    obtain rfl : s = s' := (targetPe_eq hback).symm.trans (hpe.trans (targetPe_eq hback'))
    have h : Edge spec s d e v := ⟨hback.destination, hd, hback.expert, hback.tile⟩
    have h' : Edge spec s d' e' v' := ⟨hback.destination, hd', hback'.expert, hback'.tile⟩
    have hc := (combine_moves_iff hfits h).1 hm
    obtain ⟨rfl, rfl, rfl⟩ := hc.unique_source h h' ((combine_moves_iff hfits h').1 hm')
    exact ⟨rfl, rfl⟩
  inverse := by
    intro r hr i hi x y hmoves
    obtain ⟨d, e, v, rfl, h⟩ := exists_edge hr hi
    -- the combine task of the same rows, on the rank that received them
    have hback : Edge spec d r e v := ⟨h.destination, hr, h.expert, h.tile⟩
    rw [dispatchPut_targetPe h]
    exact ⟨dispatchTask spec r e v, dispatchTask_lt hback,
      (combine_moves_iff hfits h).2 ((dispatch_moves_iff hfits h).1 hmoves), targetPe_eq hback⟩

/-- The tokens of a rank bound what can wrap in its tasks. -/
theorem Counted.fits (h : Counted spec counts)
    (htokens : spec.localNumTokens * spec.hiddenSize < 2 ^ 31)
    (hsources : ∀ s < spec.epSize, sourceTotal spec counts s < 2 ^ 31)
    (hloads : ∀ d < spec.epSize, load spec counts d < 2 ^ 31)
    (hslots : spec.boundedCapacity = none →
      ∀ s < spec.epSize, sourceTotal spec counts s ≤ spec.localNumTokens * spec.topK) :
    Fits spec counts := by
  have hall : spec.expertTasks * spec.split = spec.localNumTokens :=
    Nat.div_mul_cancel (Nat.dvd_of_mod_eq_zero h.divides)
  have htile : ∀ v ≤ spec.expertTasks, v * (spec.split * spec.hiddenSize) < 2 ^ 31 := by
    intro v hv
    refine lt_of_le_of_lt ?_ htokens
    rw [← hall, Nat.mul_assoc]
    exact Nat.mul_le_mul_right _ hv
  exact {
    toCounted := h
    sizes := fun s hs e he => (Nat.mul_le_mul_right _ (h.entries s hs e he)).trans_lt htokens
    starts := fun v hv => htile v hv.le
    ends := fun _ _ _ _ v hv _ => htile (v + 1) hv
    sources := hsources
    loads := hloads
    slots := hslots }

end Put

/-- Two ranks with an expert each, which exchange rows of two elements. -/
theorem routed_of_fits_two :
    Routed ⟨2, 1, 2, 2, 1, 1, none⟩ (fun s e => if s = e then 2 else 0) :=
  routed_of_fits (Counted.fits
    { split_pos := by decide
      divides := by decide
      entries := by decide
      accepts := by
        intro capacity hcapacity
        exact absurd hcapacity (by simp) }
    (by decide) (by decide) (by decide) (by decide))

/-- A size that wraps to the least `int32_t`. -/
theorem send_eq_zero {spec : MegaMoeSpec} {tgt so size : ℕ → ℤ} {i : ℕ}
    (h : toInt32 (size (i / spec.expertTasks) * spec.hiddenSize) = -(2 ^ 31)) :
    (executeShmemPutMem spec tgt so size i).send = 0 := by
  simp only [executeShmemPutMem, h]
  exact if_pos (Int.le_bmod (by decide))

/-- A segment of 2 ^ 31 elements: no task of it sends anything. -/
theorem not_routed_wrappedSize :
    Counted ⟨1, 1, 2 ^ 19, 2 ^ 12, 1, 2 ^ 7, none⟩ (fun _ _ => 2 ^ 19) ∧
      ¬Routed ⟨1, 1, 2 ^ 19, 2 ^ 12, 1, 2 ^ 7, none⟩ (fun _ _ => 2 ^ 19) := by
  constructor
  · exact {
      split_pos := by decide
      divides := by decide
      entries := fun _ _ _ _ => Nat.le_refl _
      accepts := by
        intro capacity hcapacity
        exact absurd hcapacity (by simp) }
  · intro hrouted
    have hload : (0 : ℤ) ≤ 0 ∧ (0 : ℤ) < load ⟨1, 1, 2 ^ 19, 2 ^ 12, 1, 2 ^ 7, none⟩
        (fun _ _ => 2 ^ 19) 0 * ((2 ^ 12 : ℕ) : ℤ) := by
      rw [load]
      simp [destinationFlat]
    obtain ⟨r, -, i, -, -, x, k, hk, hsend, -⟩ := (hrouted.dispatch 0 (by decide) 0).1 hload
    have hnone : (dispatchPut ⟨1, 1, 2 ^ 19, 2 ^ 12, 1, 2 ^ 7, none⟩ (fun _ _ => 2 ^ 19) r i).send
        = 0 := by
      refine send_eq_zero ?_
      show toInt32 (((2 ^ 19 : ℕ) : ℤ) * ((2 ^ 12 : ℕ) : ℤ)) = _
      decide
    rw [hnone] at hsend
    omega

end HyperParallel.MegaMoe
