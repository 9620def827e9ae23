import Mathlib.Algebra.BigOperators.Group.Finset.Basic
import Mathlib.Algebra.Order.BigOperators.Group.Finset
import Mathlib.Algebra.Order.BigOperators.GroupWithZero.Finset
import Mathlib.Algebra.Order.Ring.Nat
import Mathlib.Data.Finset.Max
import Mathlib.Data.List.GetD
import Mathlib.Data.List.Sort

/-!
# Split factors

`_compute_expected_split_factors` and `_get_effective_shard_axes` of `core/dtensor/layout.py`.
When several mesh dimensions shard one tensor dimension, the order in which they cut it is kept
only in integers: a mesh dimension carries the product of the sizes of the mesh dimensions to its
right that cut before it, and the order is guessed back by sorting on these products.

* `computeExpectedSplitFactors`, `effectiveShardAxes`;
* `Zigzag`: a mesh dimension cuts between one to its right and one further to the right;
* `factors_effective_iff`: the guessed order gives the same factors exactly when there is no
  zigzag;
* `filter_effective`: and then it is the original order, up to mesh dimensions of size one.
-/

open scoped BigOperators

namespace HyperParallel.DTensor

/-- `_compute_expected_split_factors`: the factor of one mesh dimension. -/
def computeExpectedSplitFactors (meshShape shardAxes shardOrder : List ℕ) (meshIdx : ℕ) : ℕ :=
  ((shardAxes.filter fun right =>
    meshIdx < right ∧ shardOrder.idxOf right < shardOrder.idxOf meshIdx).map
      fun right => meshShape.getD right 1).prod

/-- `_get_effective_shard_axes`: Python's `sorted` by the factor is stable. -/
def effectiveShardAxes (factor : ℕ → ℕ) (shardAxes : List ℕ) : List ℕ :=
  shardAxes.insertionSort fun a b => factor a ≤ factor b

/-! ### Positions -/

section Position

variable {l : List ℕ} {a b : ℕ} {R : ℕ → ℕ → Prop}

theorem idxOf_lt_of_sublist (hl : l.Nodup) (h : [a, b].Sublist l) : l.idxOf a < l.idxOf b := by
  induction l with
  | nil => cases h
  | cons c l ih =>
    rw [List.nodup_cons] at hl
    by_cases hca : c = a
    · subst hca
      have hne : c ≠ b := by
        rintro rfl
        have hnd := (List.nodup_cons.2 hl).sublist h
        simp at hnd
      simp [hne]
    · cases h with
      | cons _ h =>
        have hb : b ∈ l := h.subset (by simp)
        have hne : c ≠ b := fun hcb => hl.1 (hcb ▸ hb)
        simp only [List.idxOf_cons, cond_false, beq_eq_false_iff_ne.2 hca,
          beq_eq_false_iff_ne.2 hne]
        exact Nat.succ_lt_succ (ih hl.2 h)
      | cons_cons _ h => exact absurd rfl hca

theorem idxOf_lt_or_gt (ha : a ∈ l) (hne : a ≠ b) : l.idxOf a < l.idxOf b ∨ l.idxOf b < l.idxOf a := by
  rcases lt_trichotomy (l.idxOf a) (l.idxOf b) with h | h | h
  · exact Or.inl h
  · exact absurd (List.idxOf_inj ha |>.1 h) hne
  · exact Or.inr h

theorem rel_of_idxOf_lt (hl : l.Pairwise R) (hb : b ∈ l) (h : l.idxOf a < l.idxOf b) : R a b := by
  have hlb := List.idxOf_lt_length_iff.2 hb
  have := List.pairwise_iff_getElem.1 hl _ _ (h.trans hlb) hlb h
  simpa using this

theorem pairwise_idxOf (hl : l.Nodup) : l.Pairwise fun a b => l.idxOf a < l.idxOf b := by
  refine List.pairwise_iff_getElem.2 fun i j hi hj hij => ?_
  rwa [hl.idxOf_getElem i hi, hl.idxOf_getElem j hj]

end Position

/-- A product of positive numbers grows with a factor above one. -/
theorem prod_lt_prod_of_subset {s t : Finset ℕ} {f : ℕ → ℕ} {q : ℕ} (h : s ⊆ t) (hq : q ∈ t)
    (hnot : q ∉ s) (hfq : 1 < f q) (hf : ∀ r ∈ t, 1 ≤ f r) :
    ∏ r ∈ s, f r < ∏ r ∈ t, f r := by
  have hpos : 0 < ∏ r ∈ s, f r := Finset.prod_pos fun r hr => hf r (h hr)
  have hinsert : ∏ r ∈ insert q s, f r ≤ ∏ r ∈ t, f r :=
    Finset.prod_le_prod_of_subset_of_one_le' (Finset.insert_subset hq h) fun r hr _ => hf r hr
  rw [Finset.prod_insert hnot] at hinsert
  exact (lt_mul_of_one_lt_left hpos hfq).trans_le hinsert

/-- Some mesh dimension `m` cuts after `q` and before `r` and stands to the left of both, `r` being
the rightmost of the three. -/
def Zigzag (mesh order : List ℕ) : Prop :=
  ∃ q ∈ order, ∃ m ∈ order, ∃ r ∈ order, m < q ∧ q < r ∧ 1 < mesh.getD q 1 ∧
    1 < mesh.getD r 1 ∧ order.idxOf q < order.idxOf m ∧ order.idxOf m < order.idxOf r

instance (mesh order : List ℕ) : Decidable (Zigzag mesh order) :=
  inferInstanceAs (Decidable (∃ q ∈ order, ∃ m ∈ order, ∃ r ∈ order, m < q ∧ q < r ∧
    1 < mesh.getD q 1 ∧ 1 < mesh.getD r 1 ∧ order.idxOf q < order.idxOf m ∧
    order.idxOf m < order.idxOf r))

/-! ### The guessed order -/

/-- The mesh dimensions that shard one tensor dimension: `axes` from left to right, `order` in
the order in which they cut it. -/
structure ShardOrder (mesh : List ℕ) where
  axes : List ℕ
  order : List ℕ
  perm : order.Perm axes
  sorted : axes.Pairwise (· < ·)
  pos : ∀ a ∈ axes, 0 < mesh.getD a 1

namespace ShardOrder

variable {mesh : List ℕ} (o : ShardOrder mesh) {a b m r q : ℕ}

theorem nodup_axes : o.axes.Nodup := o.sorted.imp fun h => h.ne

theorem nodup_order : o.order.Nodup := o.perm.nodup_iff.2 o.nodup_axes

theorem mem_order : a ∈ o.order ↔ a ∈ o.axes := o.perm.mem_iff

/-- The factor a mesh dimension carries. -/
def factor (m : ℕ) : ℕ := computeExpectedSplitFactors mesh o.axes o.order m

/-- The order guessed from the factors. -/
def effective : List ℕ := effectiveShardAxes o.factor o.axes

theorem perm_effective : o.effective.Perm o.axes := List.perm_insertionSort _ _

/-- The mesh dimensions to the right of `m`, of more than one device, that stand before it. -/
def crossing (order : List ℕ) (m : ℕ) : Finset ℕ :=
  o.axes.toFinset.filter fun r =>
    m < r ∧ order.idxOf r < order.idxOf m ∧ 1 < mesh.getD r 1

theorem mem_crossing {order : List ℕ} : r ∈ o.crossing order m ↔
    r ∈ o.axes ∧ m < r ∧ order.idxOf r < order.idxOf m ∧ 1 < mesh.getD r 1 := by
  simp [crossing]

/-- Mesh dimensions of one device do not count. -/
theorem factor_eq_prod (order : List ℕ) : computeExpectedSplitFactors mesh o.axes order m =
    ∏ r ∈ o.crossing order m, mesh.getD r 1 := by
  rw [computeExpectedSplitFactors, ← List.prod_toFinset _ (o.nodup_axes.filter _),
    List.toFinset_filter]
  refine (Finset.prod_subset (fun r hr => ?_) fun r hr hnot => ?_).symm
  · have := o.mem_crossing.1 hr
    simp [this.1, this.2.1, this.2.2.1]
  · simp only [Finset.mem_filter, List.mem_toFinset, decide_eq_true_eq] at hr
    have hpos := o.pos r hr.1
    have : ¬ 1 < mesh.getD r 1 := fun h => hnot (o.mem_crossing.2 ⟨hr.1, hr.2.1, hr.2.2, h⟩)
    omega

theorem one_le_of_crossing {order : List ℕ} (hr : r ∈ o.crossing order m) : 1 ≤ mesh.getD r 1 :=
  o.pos r (o.mem_crossing.1 hr).1

theorem one_le_factor : 1 ≤ o.factor m := by
  rw [factor, factor_eq_prod]
  exact Nat.one_le_iff_ne_zero.2 (Finset.prod_pos fun r hr => (o.one_le_of_crossing hr : 0 < _)).ne'

theorem factor_le_of_subset (h : o.crossing o.order a ⊆ o.crossing o.order b) :
    o.factor a ≤ o.factor b := by
  rw [factor, factor, factor_eq_prod, factor_eq_prod]
  exact Finset.prod_le_prod_of_subset_of_one_le' h fun r hr _ => o.one_le_of_crossing hr

theorem factor_lt_of_subset (h : o.crossing o.order a ⊆ o.crossing o.order b)
    (hq : q ∈ o.crossing o.order b) (hnot : q ∉ o.crossing o.order a) :
    o.factor a < o.factor b := by
  rw [factor, factor, factor_eq_prod, factor_eq_prod]
  exact prod_lt_prod_of_subset h hq hnot (o.mem_crossing.1 hq).2.2.2
    fun r hr => o.one_le_of_crossing hr

/-- A mesh dimension that cuts after one to its right carries the larger factor. -/
theorem factor_lt_of_crossing (hr : r ∈ o.crossing o.order m) : o.factor r < o.factor m := by
  obtain ⟨hra, hmr, hidx, hsize⟩ := o.mem_crossing.1 hr
  refine o.factor_lt_of_subset (q := r) (fun x hx => ?_) hr fun h => ?_
  · obtain ⟨hxa, hrx, hxi, hxs⟩ := o.mem_crossing.1 hx
    exact o.mem_crossing.2 ⟨hxa, hmr.trans hrx, hxi.trans hidx, hxs⟩
  · exact lt_irrefl _ (o.mem_crossing.1 h).2.1

/-- The guessed order sorts by the factor, then from left to right. -/
theorem idxOf_effective_lt_iff (ha : a ∈ o.axes) (hb : b ∈ o.axes) (hne : a ≠ b) :
    o.effective.idxOf a < o.effective.idxOf b ↔
      o.factor a < o.factor b ∨ (o.factor a = o.factor b ∧ a < b) := by
  have hnodup : o.effective.Nodup := o.perm_effective.nodup_iff.2 o.nodup_axes
  have hmem : ∀ {x}, x ∈ o.axes → x ∈ o.effective := fun hx => o.perm_effective.mem_iff.2 hx
  have hsorted : o.effective.Pairwise fun a b => o.factor a ≤ o.factor b :=
    List.pairwise_insertionSort _ _
  -- two mesh dimensions in the right order from the start keep it
  have hstable : ∀ {x y}, x ∈ o.axes → y ∈ o.axes → x < y → o.factor x ≤ o.factor y →
      o.effective.idxOf x < o.effective.idxOf y := by
    intro x y hx hy hxy hle
    refine idxOf_lt_of_sublist hnodup (List.pair_sublist_insertionSort hle ?_)
    obtain ⟨s, t, hst⟩ := List.append_of_mem hx
    have hp := o.sorted
    rw [hst] at hp hy ⊢
    have hyt : y ∈ t := by
      rcases List.mem_append.1 hy with hys | hyt
      · have := (List.pairwise_append.1 hp).2.2 y hys x List.mem_cons_self
        omega
      · rcases List.mem_cons.1 hyt with rfl | hyt
        · omega
        · exact hyt
    exact ((List.singleton_sublist.2 hyt).cons_cons x).trans (List.sublist_append_right s _)
  constructor
  · intro h
    have hle := rel_of_idxOf_lt hsorted (hmem hb) h
    rcases hle.lt_or_eq with hlt | heq
    · exact Or.inl hlt
    · refine Or.inr ⟨heq, ?_⟩
      by_contra hba
      have := hstable hb ha (by omega) heq.ge
      omega
  · rintro (hlt | ⟨heq, hab⟩)
    · rcases idxOf_lt_or_gt (hmem ha) hne with h | h
      · exact h
      · exact absurd (rel_of_idxOf_lt hsorted (hmem ha) h) (not_le.2 hlt)
    · exact hstable ha hb hab heq.le

theorem mem_crossing_effective (hm : m ∈ o.axes) : r ∈ o.crossing o.effective m ↔
    r ∈ o.axes ∧ m < r ∧ o.factor r < o.factor m ∧ 1 < mesh.getD r 1 := by
  rw [mem_crossing]
  refine and_congr_right fun hr => and_congr_right fun hmr => and_congr_left fun _ => ?_
  rw [o.idxOf_effective_lt_iff hr hm (by omega)]
  exact or_iff_left fun h => by omega

theorem crossing_subset_effective (hm : m ∈ o.axes) :
    o.crossing o.order m ⊆ o.crossing o.effective m := by
  intro r hr
  obtain ⟨hra, hmr, -, hsize⟩ := o.mem_crossing.1 hr
  exact (o.mem_crossing_effective hm).2 ⟨hra, hmr, o.factor_lt_of_crossing hr, hsize⟩

theorem crossing_effective_of_not_zigzag (h : ¬ Zigzag mesh o.order) (hm : m ∈ o.axes) :
    o.crossing o.effective m = o.crossing o.order m := by
  refine Finset.Subset.antisymm (fun r hr => ?_) (o.crossing_subset_effective hm)
  obtain ⟨hra, hmr, hlt, hsize⟩ := (o.mem_crossing_effective hm).1 hr
  refine o.mem_crossing.2 ⟨hra, hmr, ?_, hsize⟩
  by_contra hidx
  have hmidx : o.order.idxOf m < o.order.idxOf r := by
    rcases idxOf_lt_or_gt (o.mem_order.2 hm) (by omega : m ≠ r) with h | h
    · exact h
    · exact absurd h hidx
  -- every mesh dimension that counts for `m` counts for `r`
  refine absurd (o.factor_le_of_subset (a := m) (b := r) fun q hq => ?_) (not_le.2 hlt)
  obtain ⟨hqa, hmq, hqidx, hqsize⟩ := o.mem_crossing.1 hq
  refine o.mem_crossing.2 ⟨hqa, ?_, hqidx.trans hmidx, hqsize⟩
  rcases lt_trichotomy q r with hqr | rfl | hqr
  · exact absurd ⟨q, o.mem_order.2 hqa, m, o.mem_order.2 hm, r, o.mem_order.2 hra, hmq, hqr,
      hqsize, hsize, hqidx, hmidx⟩ h
  · omega
  · exact hqr

/-- A zigzag makes the guess wrong. -/
theorem exists_ne_of_zigzag (h : Zigzag mesh o.order) : ∃ m ∈ o.axes,
    computeExpectedSplitFactors mesh o.axes o.effective m ≠ o.factor m := by
  obtain ⟨q, hq, m, hm, r₀, hr₀, hmq, hqr₀, hqsize, hrsize₀, hqm, hmr₀⟩ := h
  rw [o.mem_order] at hq hm hr₀
  -- the rightmost mesh dimension that completes the zigzag
  have hne : (o.axes.toFinset.filter fun r =>
      q < r ∧ 1 < mesh.getD r 1 ∧ o.order.idxOf m < o.order.idxOf r).Nonempty :=
    ⟨r₀, Finset.mem_filter.2 ⟨List.mem_toFinset.2 hr₀, hqr₀, hrsize₀, hmr₀⟩⟩
  obtain ⟨r, hrmem, hmax⟩ := Finset.exists_max_image _ id hne
  simp only [Finset.mem_filter, List.mem_toFinset, id] at hrmem hmax
  obtain ⟨hra, hqr, hrsize, hmr⟩ := hrmem
  have hqin : q ∈ o.crossing o.order m := o.mem_crossing.2 ⟨hq, hmq, hqm, hqsize⟩
  have hlt : o.factor r < o.factor m := by
    refine o.factor_lt_of_subset (q := q) (fun x hx => ?_) hqin fun hqr' => ?_
    · obtain ⟨hxa, hrx, hxidx, hxsize⟩ := o.mem_crossing.1 hx
      have hxm : o.order.idxOf x < o.order.idxOf m := by
        rcases idxOf_lt_or_gt (o.mem_order.2 hxa) (by omega : x ≠ m) with h | h
        · exact h
        · have := hmax x ⟨hxa, by omega, hxsize, h⟩
          omega
      exact o.mem_crossing.2 ⟨hxa, by omega, hxm, hxsize⟩
    · have := (o.mem_crossing.1 hqr').2.1
      omega
  have hrin : r ∈ o.crossing o.effective m :=
    (o.mem_crossing_effective hm).2 ⟨hra, by omega, hlt, hrsize⟩
  have hrnot : r ∉ o.crossing o.order m := fun h => by
    have := (o.mem_crossing.1 h).2.2.1
    omega
  refine ⟨m, hm, ne_of_gt ?_⟩
  rw [factor, factor_eq_prod, factor_eq_prod]
  exact prod_lt_prod_of_subset (o.crossing_subset_effective hm) hrin hrnot hrsize
    fun x hx => o.one_le_of_crossing hx

/-- The guessed order gives the same factors exactly when there is no zigzag. -/
theorem factors_effective_iff :
    (∀ m ∈ o.axes, computeExpectedSplitFactors mesh o.axes o.effective m = o.factor m) ↔
      ¬ Zigzag mesh o.order := by
  constructor
  · intro h hz
    obtain ⟨m, hm, hne⟩ := o.exists_ne_of_zigzag hz
    exact hne (h m hm)
  · intro h m hm
    rw [factor, factor_eq_prod, factor_eq_prod, o.crossing_effective_of_not_zigzag h hm]

/-- Without a zigzag the guessed order is the original one, up to mesh dimensions of one
device. -/
theorem filter_effective (h : ¬ Zigzag mesh o.order) :
    o.effective.filter (fun a => 1 < mesh.getD a 1) =
      o.order.filter fun a => 1 < mesh.getD a 1 := by
  have hperm : (o.effective.filter fun a => 1 < mesh.getD a 1).Perm
      (o.order.filter fun a => 1 < mesh.getD a 1) :=
    (o.perm_effective.trans o.perm.symm).filter _
  have hnodup : o.effective.Nodup := o.perm_effective.nodup_iff.2 o.nodup_axes
  have hkept : (o.effective.filter fun a => 1 < mesh.getD a 1).Pairwise fun a b =>
      o.order.idxOf a < o.order.idxOf b := by
    refine ((pairwise_idxOf hnodup).filter _).imp_of_mem fun {a b} ha hb hab => ?_
    obtain ⟨ha, hasize⟩ := List.mem_filter.1 ha
    obtain ⟨hb, hbsize⟩ := List.mem_filter.1 hb
    rw [decide_eq_true_eq] at hasize hbsize
    have haa := o.perm_effective.mem_iff.1 ha
    have hba := o.perm_effective.mem_iff.1 hb
    have hne : a ≠ b := fun h => by simp [h] at hab
    by_contra hnot
    have hba' : o.order.idxOf b < o.order.idxOf a :=
      (idxOf_lt_or_gt (o.mem_order.2 haa) hne).resolve_left hnot
    rcases Nat.lt_or_gt_of_ne hne with hlt | hgt
    · -- `b` is to the right of `a` and cuts before it
      have hcross := o.crossing_subset_effective haa
        (o.mem_crossing.2 ⟨hba, hlt, hba', hbsize⟩)
      exact absurd (o.mem_crossing.1 hcross).2.2.1 (by omega)
    · have hcross := o.mem_crossing.2 ⟨haa, hgt, hab, hasize⟩
      rw [o.crossing_effective_of_not_zigzag h hba] at hcross
      exact absurd (o.mem_crossing.1 hcross).2.2.1 (by omega)
  exact List.Perm.eq_of_pairwise (fun a b _ _ h1 h2 => absurd h1 (not_lt.2 h2.le)) hkept
    ((pairwise_idxOf o.nodup_order).filter _) hperm

end ShardOrder

end HyperParallel.DTensor
