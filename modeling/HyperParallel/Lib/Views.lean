import HyperParallel.Lib.Tensor
import Mathlib.Algebra.BigOperators.Ring.List

/-!
# Tensors with the same data

* `Tensor.flat`: the entries in row-major order;
* `Tensor.SameData`: two tensors are views of each other;
* `sameData_of_reshape`, `SameData.reshape_eq`;
* `sameData_permute_front`, `sameData_permute_back`: an axis moved past axes of size 1;
* `SameData.permute_back`: leading axes of size 1 dropped.
-/

open MixedRadix

theorem Valid.exists_append {base base' idx : List ℕ} (h : Valid (base ++ base') idx) :
    ∃ xs ys, idx = xs ++ ys ∧ Valid base xs ∧ Valid base' ys := by
  have hlength := h.length_eq
  rw [List.length_append] at hlength
  have hparts := List.take_append_drop base.length idx
  rw [← hparts] at h
  obtain ⟨hxs, hys⟩ := h.of_append (List.length_take_of_le (by omega))
  exact ⟨_, _, hparts.symm, hxs, hys⟩

theorem valid_digits {base : List ℕ} {i : ℕ} (h : i < base.prod) : Valid base (digits base i) := by
  apply digits_lt
  intro size hsize
  by_contra hzero
  rw [show size = 0 by omega] at hsize
  have hprod := List.prod_eq_zero hsize
  omega

/-- Axes of size 1 hold a single index. -/
theorem prod_ones {ones : List ℕ} (h : ∀ size ∈ ones, size = 1) : ones.prod = 1 := by
  rw [List.eq_replicate_of_mem h, List.prod_replicate, one_pow]

theorem ofDigits_ones {ones zs : List ℕ} (h : ∀ size ∈ ones, size = 1) (hzs : Valid ones zs) :
    ofDigits ones zs = 0 := by
  have hlt := ofDigits_lt hzs
  rw [prod_ones h] at hlt
  omega

theorem exists_valid_ones {ones : List ℕ} (h : ∀ size ∈ ones, size = 1) : ∃ zs, Valid ones zs :=
  ⟨_, valid_digits (i := 0) (by rw [prod_ones h]; exact Nat.one_pos)⟩

namespace Tensor

variable {α : Type*} [Zero α] {t t' u u' : Tensor α} {shape idx : List ℕ}

/-- The entries of a tensor in row-major order. -/
def flat (t : Tensor α) (i : ℕ) : α := t.entry (digits t.shape i)

theorem entry_eq_flat (h : Valid t.shape idx) : t.entry idx = t.flat (ofDigits t.shape idx) := by
  rw [flat, digits_ofDigits h]

/-- Two tensors are views of the same data. -/
structure SameData (t t' : Tensor α) : Prop where
  prod_eq : t.shape.prod = t'.shape.prod
  flat_eq : ∀ i < t.shape.prod, t.flat i = t'.flat i

namespace SameData

theorem refl (t : Tensor α) : SameData t t := ⟨rfl, fun _ _ => rfl⟩

theorem symm (h : SameData t t') : SameData t' t :=
  ⟨h.prod_eq.symm, fun i hi => (h.flat_eq i (h.prod_eq ▸ hi)).symm⟩

theorem trans (h : SameData t t') (h' : SameData t' u) : SameData t u :=
  ⟨h.prod_eq.trans h'.prod_eq,
    fun i hi => (h.flat_eq i hi).trans (h'.flat_eq i (h.prod_eq ▸ hi))⟩

/-- Views of the same data have the same views. -/
theorem reshape_eq (h : SameData t t') (shape : List ℕ) : t.reshape shape = t'.reshape shape := by
  simp only [reshape, h.prod_eq]
  split_ifs with hprod
  · congr 1
    apply ofEntries_congr
    intro idx hidx
    exact h.flat_eq _ (by rw [h.prod_eq, ← hprod]; exact ofDigits_lt hidx)
  · rfl

end SameData

theorem sameData_of_reshape (h : t.reshape shape = some t') : SameData t t' ∧ t'.shape = shape := by
  rw [reshape] at h
  split_ifs at h with hprod
  cases h
  refine ⟨⟨hprod.symm, ?_⟩, rfl⟩
  intro i hi
  rw [← hprod] at hi
  rw [flat, flat, shape_ofEntries, entry_ofEntries _ (valid_digits hi), ofDigits_digits,
    Nat.mod_eq_of_lt hi]

theorem exists_reshape (t : Tensor α) (shape : List ℕ) (h : shape.prod = t.shape.prod) :
    ∃ t', t.reshape shape = some t' ∧ SameData t t' ∧ t'.shape = shape :=
  have hreshape : t.reshape shape = some _ := if_pos h
  ⟨_, hreshape, sameData_of_reshape hreshape⟩

theorem sameData_of_entry (hprod : t.shape.prod = t'.shape.prod)
    (h : ∀ idx', Valid t'.shape idx' → ∃ idx, Valid t.shape idx ∧
      ofDigits t.shape idx = ofDigits t'.shape idx' ∧ t.entry idx = t'.entry idx') :
    SameData t t' := by
  refine ⟨hprod, ?_⟩
  intro i hi
  rw [hprod] at hi
  obtain ⟨idx, hidx, hofDigits, hentry⟩ := h _ (valid_digits hi)
  rw [ofDigits_digits, Nat.mod_eq_of_lt hi] at hofDigits
  rw [entry_eq_flat hidx, hofDigits] at hentry
  exact hentry

/-! ### Axes of size 1 -/

variable {ones before after : List ℕ} {n : ℕ}

/-- An axis past axes of size 1 keeps the place of every entry. -/
theorem ofDigits_past_ones {xs ys : List ℕ} {a : ℕ} (hones : ∀ size ∈ ones, size = 1)
    (hxs : Valid ones xs) :
    ofDigits (ones ++ n :: after) (xs ++ a :: ys) =
      ofDigits (n :: (ones ++ after)) (a :: (xs ++ ys)) := by
  rw [ofDigits_append hxs, ofDigits, ofDigits, ofDigits_append hxs, ofDigits_ones hones hxs,
    List.prod_append, prod_ones hones, Nat.zero_mul, Nat.zero_mul, Nat.one_mul, Nat.zero_add,
    Nat.zero_add]

theorem sameData_permute_front (hshape : t.shape = ones ++ n :: after)
    (hones : ∀ size ∈ ones, size = 1) :
    SameData t (t.permute (frontPerm ones.length (ones.length + (after.length + 1)))) := by
  obtain ⟨hfrontShape, hfrontEntry⟩ := permute_front hshape
  apply sameData_of_entry
  · rw [hfrontShape, hshape]
    simp only [List.prod_append, List.prod_cons, prod_ones hones, Nat.one_mul]
  · rw [hfrontShape]
    rintro (_ | ⟨a, idx⟩) hidx
    · cases hidx
    · obtain ⟨ha, hrest⟩ := List.forall₂_cons.1 hidx
      obtain ⟨xs, ys, rfl, hxs, hys⟩ := Valid.exists_append hrest
      refine ⟨xs ++ a :: ys, ?_, ?_, ?_⟩
      · rw [hshape]
        exact hxs.append (.cons ha hys)
      · rw [hshape]
        exact ofDigits_past_ones hones hxs
      · exact (hfrontEntry xs ys a hxs hys ha).symm

theorem sameData_permute_back (hshape : t.shape = n :: (ones ++ after))
    (hones : ∀ size ∈ ones, size = 1) :
    SameData t (t.permute (backPerm ones.length (ones.length + (after.length + 1)))) := by
  obtain ⟨hbackShape, hbackEntry⟩ := permute_back hshape
  apply sameData_of_entry
  · rw [hbackShape, hshape]
    simp only [List.prod_append, List.prod_cons, prod_ones hones, Nat.one_mul]
  · rw [hbackShape]
    intro idx hidx
    obtain ⟨xs, rest, rfl, hxs, hrest⟩ := Valid.exists_append hidx
    cases rest with
    | nil => cases hrest
    | cons a ys =>
      obtain ⟨ha, hys⟩ := List.forall₂_cons.1 hrest
      refine ⟨a :: (xs ++ ys), ?_, ?_, ?_⟩
      · rw [hshape]
        exact .cons ha (hxs.append hys)
      · rw [hshape]
        exact (ofDigits_past_ones hones hxs).symm
      · exact (hbackEntry xs ys a hxs hys ha).symm

/-- The front axis goes to the same place of the data, with and without leading axes of size 1. -/
theorem SameData.permute_back (h : SameData t t')
    (hshape : t.shape = n :: (ones ++ (before ++ after)))
    (hshape' : t'.shape = n :: (before ++ after)) (hones : ∀ size ∈ ones, size = 1) :
    SameData
      (t.permute (backPerm (ones ++ before).length
        ((ones ++ before).length + (after.length + 1))))
      (t'.permute (backPerm before.length (before.length + (after.length + 1)))) := by
  rw [← List.append_assoc] at hshape
  obtain ⟨hbackShape, hbackEntry⟩ := Tensor.permute_back hshape
  obtain ⟨hbackShape', hbackEntry'⟩ := Tensor.permute_back hshape'
  obtain ⟨zs, hzs⟩ := exists_valid_ones hones
  apply sameData_of_entry
  · rw [hbackShape, hbackShape']
    simp only [List.prod_append, List.prod_cons, prod_ones hones, Nat.one_mul]
  · rw [hbackShape']
    intro idx hidx
    obtain ⟨xs, rest, rfl, hxs, hrest⟩ := Valid.exists_append hidx
    cases rest with
    | nil => cases hrest
    | cons a ys =>
      obtain ⟨ha, hys⟩ := List.forall₂_cons.1 hrest
      refine ⟨(zs ++ xs) ++ a :: ys, ?_, ?_, ?_⟩
      · rw [hbackShape]
        exact (hzs.append hxs).append (.cons ha hys)
      · rw [hbackShape, List.append_assoc, List.append_assoc, ofDigits_append hzs,
          ofDigits_ones hones hzs, Nat.zero_mul, Nat.zero_add]
      · have hvalid : Valid t.shape (a :: ((zs ++ xs) ++ ys)) := by
          rw [hshape]
          exact .cons ha ((hzs.append hxs).append hys)
        have hvalid' : Valid t'.shape (a :: (xs ++ ys)) := by
          rw [hshape']
          exact .cons ha (hxs.append hys)
        rw [hbackEntry _ _ _ (hzs.append hxs) hys ha, hbackEntry' _ _ _ hxs hys ha,
          entry_eq_flat hvalid, entry_eq_flat hvalid', h.flat_eq _ (ofDigits_lt hvalid)]
        congr 1
        rw [hshape, hshape', ofDigits, ofDigits, List.append_assoc, List.append_assoc,
          ofDigits_append hzs, ofDigits_ones hones hzs, List.prod_append, prod_ones hones,
          Nat.zero_mul, Nat.one_mul, Nat.zero_add]

end Tensor
