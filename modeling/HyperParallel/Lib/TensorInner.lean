import HyperParallel.Lib.Tensor
import Mathlib.Algebra.BigOperators.Group.Finset.Sigma
import Mathlib.Algebra.BigOperators.Ring.Finset

/-!
# The inner product of tensors

* `Tensor.indices`: the indices of a shape;
* `Tensor.dot`: the sum over the indices of the products of two entries;
* `Tensor.total`: the sum of tensors of one shape, and `dot_total`.
-/

open MixedRadix

namespace Tensor

/-- The indices within a shape. -/
def indices (shape : List ℕ) : Finset (List ℕ) :=
  (Finset.range shape.prod).image (digits shape)

theorem mem_indices {shape idx : List ℕ} : idx ∈ indices shape ↔ Valid shape idx := by
  rw [indices, Finset.mem_image]
  constructor
  · rintro ⟨k, hk, rfl⟩
    have hpos : shape.prod ≠ 0 := by
      have := Finset.mem_range.1 hk
      omega
    exact digits_lt fun size hsize =>
      Nat.pos_of_ne_zero fun h => hpos (List.prod_eq_zero (h ▸ hsize))
  · intro hidx
    exact ⟨_, Finset.mem_range.2 (ofDigits_lt hidx), digits_ofDigits hidx⟩

variable {α ι : Type*} [CommRing α]

/-- The inner product, over the indices of the first tensor. -/
def dot (t u : Tensor α) : α := ∑ idx ∈ indices t.shape, t.entry idx * u.entry idx

theorem dot_comm {t u : Tensor α} (hshape : t.shape = u.shape) : dot t u = dot u t := by
  rw [dot, dot, hshape]
  exact Finset.sum_congr rfl fun idx _ => mul_comm _ _

/-- The sum of tensors, entry by entry. -/
def total [Fintype ι] (shape : List ℕ) (t : ι → Tensor α) : Tensor α :=
  ofEntries shape fun idx => ∑ i, (t i).entry idx

theorem entry_total [Fintype ι] {shape idx : List ℕ} (t : ι → Tensor α) (h : Valid shape idx) :
    (total shape t).entry idx = ∑ i, (t i).entry idx := entry_ofEntries _ h

theorem dot_total [Fintype ι] {t : Tensor α} {u : ι → Tensor α} :
    dot t (total t.shape u) = ∑ i, dot t (u i) := by
  simp only [dot]
  rw [Finset.sum_comm]
  refine Finset.sum_congr rfl fun idx hidx => ?_
  rw [entry_total u (mem_indices.1 hidx), Finset.mul_sum]

end Tensor
