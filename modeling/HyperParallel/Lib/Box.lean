import Mathlib.Data.List.Forall2
import Mathlib.Data.Set.Basic
import Mathlib.Order.MinMax
import Mathlib.Tactic.Common

/-!
# Half-open boxes

An axis-parallel box in any number of dimensions, given by a half-open range for each
dimension.

* `points`: the points of a box;
* `inter`: the intersection of two boxes of the same dimension;
* `points_subset_iff`: inclusion of a non-empty box, range by range;
* `shift`: moving by an offset, for boxes of natural numbers that are given by an offset and
  their sizes.
-/

namespace Box

variable {α : Type*}

section Order

variable [LinearOrder α]

/-- The points of the box with the given ranges. -/
def points (b : List (α × α)) : Set (List α) :=
  {x | List.Forall₂ (fun x i => i.1 ≤ x ∧ x < i.2) x b}

instance (b : List (α × α)) : DecidablePred (· ∈ points b) := fun x =>
  inferInstanceAs (Decidable (List.Forall₂ (fun x i => i.1 ≤ x ∧ x < i.2) x b))

/-- The box has a point. -/
def Nondegenerate (b : List (α × α)) : Prop := ∀ i ∈ b, i.1 < i.2

/-- The intersection of two boxes of the same dimension. -/
def inter (a b : List (α × α)) : List (α × α) :=
  List.zipWith (fun i j => (max i.1 j.1, min i.2 j.2)) a b

variable {a b : List (α × α)} {i j : α × α} {x : List α} {t : α}

@[simp] theorem mem_points_nil : x ∈ points ([] : List (α × α)) ↔ x = [] :=
  List.forall₂_nil_right_iff

@[simp] theorem nil_mem_points_cons : ¬ [] ∈ points (i :: b) := by
  rintro ⟨⟩

@[simp] theorem mem_points_cons :
    t :: x ∈ points (i :: b) ↔ (i.1 ≤ t ∧ t < i.2) ∧ x ∈ points b :=
  List.forall₂_cons

theorem mem_points_cons_iff {y : List α} :
    y ∈ points (i :: b) ↔ ∃ t x, (i.1 ≤ t ∧ t < i.2) ∧ x ∈ points b ∧ y = t :: x :=
  List.forall₂_cons_right_iff

@[simp] theorem inter_nil : inter [] b = [] := rfl

@[simp] theorem inter_cons :
    inter (i :: a) (j :: b) = (max i.1 j.1, min i.2 j.2) :: inter a b := rfl

@[simp] theorem length_inter (h : a.length = b.length) : (inter a b).length = a.length := by
  simp [inter, h]

theorem points_inter (h : a.length = b.length) : points (inter a b) = points a ∩ points b := by
  induction a generalizing b with
  | nil =>
    obtain rfl := List.length_eq_zero_iff.1 h.symm
    simp
  | cons i a ih =>
    obtain ⟨j, b, rfl⟩ := List.exists_cons_of_length_eq_add_one h.symm
    ext x
    cases x with
    | nil => simp
    | cons t x =>
      simp only [inter_cons, mem_points_cons, ih (by simpa using h), Set.mem_inter_iff, max_le_iff,
        lt_min_iff]
      tauto

/-- The lower corner of a non-empty box is one of its points. -/
theorem lower_mem (h : Nondegenerate b) : b.map Prod.fst ∈ points b := by
  induction b with
  | nil => simp
  | cons i b ih =>
    have hi := h i List.mem_cons_self
    exact mem_points_cons.2 ⟨⟨le_rfl, hi⟩, ih fun j hj => h j (List.mem_cons_of_mem _ hj)⟩

theorem nondegenerate_of_mem (h : x ∈ points b) : Nondegenerate b := by
  induction h with
  | nil => simp [Nondegenerate]
  | cons hi _ ih => exact List.forall_mem_cons.2 ⟨hi.1.trans_lt hi.2, ih⟩

theorem nonempty_iff : (points b).Nonempty ↔ Nondegenerate b :=
  ⟨fun ⟨_, hx⟩ => nondegenerate_of_mem hx, fun h => ⟨_, lower_mem h⟩⟩

/-- Range by range, the first box lies in the second. -/
def SubBox (a b : List (α × α)) : Prop := List.Forall₂ (fun i j => j.1 ≤ i.1 ∧ i.2 ≤ j.2) a b

theorem SubBox.subset (h : SubBox a b) : points a ⊆ points b := by
  induction h with
  | nil => exact subset_rfl
  | cons hij _ ih =>
    intro x hx
    obtain ⟨t, y, ht, hy, rfl⟩ := mem_points_cons_iff.1 hx
    exact mem_points_cons.2 ⟨⟨hij.1.trans ht.1, ht.2.trans_le hij.2⟩, ih hy⟩

/-- A non-empty box lies in another exactly when each of its ranges does. -/
theorem points_subset_iff (hlen : a.length = b.length) (ha : Nondegenerate a) :
    points a ⊆ points b ↔ SubBox a b := by
  refine ⟨fun h => ?_, SubBox.subset⟩
  induction a generalizing b with
  | nil =>
    obtain rfl := List.length_eq_zero_iff.1 hlen.symm
    exact List.Forall₂.nil
  | cons i a ih =>
    obtain ⟨j, b, rfl⟩ := List.exists_cons_of_length_eq_add_one hlen.symm
    have hi := ha i List.mem_cons_self
    have ha' : Nondegenerate a := fun k hk => ha k (List.mem_cons_of_mem _ hk)
    have hhead : ∀ t, i.1 ≤ t → t < i.2 → j.1 ≤ t ∧ t < j.2 := fun t h1 h2 =>
      (mem_points_cons.1 (h (mem_points_cons.2 ⟨⟨h1, h2⟩, lower_mem ha'⟩))).1
    refine List.Forall₂.cons ⟨(hhead i.1 le_rfl hi).1, ?_⟩ (ih (by simpa using hlen) ha' ?_)
    · -- otherwise a point of the first range lies above the second
      by_contra hj
      have := (hhead (max i.1 j.2) (le_max_left _ _) (max_lt hi (not_le.1 hj))).2
      exact absurd this (not_lt.2 (le_max_right _ _))
    · intro x hx
      exact (mem_points_cons.1 (h (mem_points_cons.2 ⟨⟨le_rfl, hi⟩, hx⟩))).2

end Order

section Shift

variable {o s x l : List ℕ} {i j : ℕ × ℕ} {r : List (ℕ × ℕ)} {k m n t : ℕ}

/-- The point `x` moved by the offset `o`. -/
def shift (o x : List ℕ) : List ℕ := List.zipWith (· + ·) o x

/-- The box with lower corner `o` and sizes `s`. -/
def ofSizes (o s : List ℕ) : List (ℕ × ℕ) := List.zipWith (fun o s => (o, o + s)) o s

@[simp] theorem shift_nil : shift [] x = [] := rfl

@[simp] theorem shift_cons : shift (k :: o) (t :: x) = (k + t) :: shift o x := rfl

@[simp] theorem ofSizes_nil : ofSizes [] s = [] := rfl

@[simp] theorem ofSizes_cons : ofSizes (k :: o) (n :: s) = (k, k + n) :: ofSizes o s := rfl

@[simp] theorem length_ofSizes (h : s.length = o.length) : (ofSizes o s).length = o.length := by
  simp [ofSizes, h]

/-- The points of a box, counted from its lower corner. -/
def localPoints (s : List ℕ) : Set (List ℕ) := {x | List.Forall₂ (· < ·) x s}

instance (s : List ℕ) : DecidablePred (· ∈ localPoints s) := fun x =>
  inferInstanceAs (Decidable (List.Forall₂ (· < ·) x s))

@[simp] theorem mem_localPoints_nil : x ∈ localPoints [] ↔ x = [] :=
  List.forall₂_nil_right_iff

@[simp] theorem nil_mem_localPoints_cons : ¬ [] ∈ localPoints (n :: s) := by
  rintro ⟨⟩

@[simp] theorem mem_localPoints_cons :
    t :: x ∈ localPoints (n :: s) ↔ t < n ∧ x ∈ localPoints s :=
  List.forall₂_cons

/-- The box lies above the offset. -/
def Above (r : List (ℕ × ℕ)) (o : List ℕ) : Prop := List.Forall₂ (fun i k => k ≤ i.1) r o

theorem above_inter_left {p q : List ℕ} (hs : s.length = o.length) (hp : p.length = o.length)
    (hq : q.length = o.length) : Above (inter (ofSizes o s) (ofSizes p q)) o := by
  induction o generalizing s p q with
  | nil => exact List.Forall₂.nil
  | cons k o ih =>
    obtain ⟨n, s, rfl⟩ := List.exists_cons_of_length_eq_add_one hs
    obtain ⟨m, p, rfl⟩ := List.exists_cons_of_length_eq_add_one hp
    obtain ⟨l, q, rfl⟩ := List.exists_cons_of_length_eq_add_one hq
    exact List.Forall₂.cons (le_max_left _ _)
      (ih (by simpa using hs) (by simpa using hp) (by simpa using hq))

theorem inter_comm_of_length {a b : List (ℕ × ℕ)} (h : a.length = b.length) :
    inter a b = inter b a := by
  induction a generalizing b with
  | nil =>
    obtain rfl := List.length_eq_zero_iff.1 h.symm
    rfl
  | cons i a ih =>
    obtain ⟨j, b, rfl⟩ := List.exists_cons_of_length_eq_add_one h.symm
    simp [ih (by simpa using h), max_comm, min_comm]

/-- The lower corner of a box, counted from an offset. -/
def relative (r : List (ℕ × ℕ)) (o : List ℕ) : List ℕ := List.zipWith (fun i k => i.1 - k) r o

/-- The sizes of a box. -/
def lengths (r : List (ℕ × ℕ)) : List ℕ := r.map fun i => i.2 - i.1

@[simp] theorem relative_cons : relative (i :: r) (k :: o) = (i.1 - k) :: relative r o := rfl

@[simp] theorem lengths_cons : lengths (i :: r) = (i.2 - i.1) :: lengths r := rfl

/-- Counted from an offset, a box has the points that the offset moves into it. -/
theorem mem_points_relative (h : Above r o) (hr : Nondegenerate r) :
    x ∈ points (ofSizes (relative r o) (lengths r)) ↔
      x.length = o.length ∧ shift o x ∈ points r := by
  induction h generalizing x with
  | nil => simp [relative, lengths]
  | @cons i k r o hik _ ih =>
    have hi := hr i List.mem_cons_self
    have hr' : Nondegenerate r := fun j hj => hr j (List.mem_cons_of_mem _ hj)
    cases x with
    | nil => simp
    | cons t x =>
      simp only [relative_cons, lengths_cons, ofSizes_cons, mem_points_cons, ih hr', shift_cons,
        List.length_cons, Nat.add_right_cancel_iff]
      have : (i.1 - k ≤ t ∧ t < i.1 - k + (i.2 - i.1)) ↔ (i.1 ≤ k + t ∧ k + t < i.2) := by omega
      rw [this]
      tauto

/-- The ranges end within the given sizes. -/
def Within (r : List (ℕ × ℕ)) (s : List ℕ) : Prop := List.Forall₂ (fun i n => i.2 ≤ n) r s

instance : Decidable (Within r s) :=
  inferInstanceAs (Decidable (List.Forall₂ (fun i n => i.2 ≤ n) r s))

theorem mem_localPoints_of_within {g : List ℕ} (h : Within r s) (hg : g ∈ points r) :
    g ∈ localPoints s := by
  induction h generalizing g with
  | nil => simpa using hg
  | cons hin _ ih =>
    obtain ⟨t, g, ht, hg', rfl⟩ := mem_points_cons_iff.1 hg
    exact mem_localPoints_cons.2 ⟨ht.2.trans_le hin, ih hg'⟩

/-- Counted from the lower corner of a box, a region stays within its sizes exactly when it lies
in the box. -/
theorem within_relative_iff (h : Above r o) (hr : Nondegenerate r) (hs : s.length = o.length) :
    Within (ofSizes (relative r o) (lengths r)) s ↔ SubBox r (ofSizes o s) := by
  induction h generalizing s with
  | nil =>
    obtain rfl := List.length_eq_zero_iff.1 hs
    exact iff_of_true List.Forall₂.nil List.Forall₂.nil
  | @cons i k r o hik _ ih =>
    obtain ⟨n, s, rfl⟩ := List.exists_cons_of_length_eq_add_one hs
    have hi := hr i List.mem_cons_self
    have hr' : Nondegenerate r := fun j hj => hr j (List.mem_cons_of_mem _ hj)
    rw [relative_cons, lengths_cons, ofSizes_cons, ofSizes_cons, Within, List.forall₂_cons, SubBox,
      List.forall₂_cons]
    exact and_congr (by simp only; omega) (ih hr' (by simpa using hs))

theorem shift_mem_ofSizes (h : s.length = o.length) (hx : x.length = o.length) :
    shift o x ∈ points (ofSizes o s) ↔ x ∈ localPoints s := by
  induction o generalizing s x with
  | nil =>
    obtain rfl := List.length_eq_zero_iff.1 h
    obtain rfl := List.length_eq_zero_iff.1 hx
    simp
  | cons k o ih =>
    obtain ⟨n, s, rfl⟩ := List.exists_cons_of_length_eq_add_one h
    obtain ⟨t, x, rfl⟩ := List.exists_cons_of_length_eq_add_one hx
    rw [shift_cons, ofSizes_cons, mem_points_cons, mem_localPoints_cons,
      ih (by simpa using h) (by simpa using hx)]
    exact and_congr_left fun _ => by omega

end Shift

end Box
