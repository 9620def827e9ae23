import Mathlib.Algebra.Order.Ring.Nat
import Mathlib.Data.List.Perm.Basic
import Mathlib.Tactic.Common

/-!
# A list dealt out

* `share`: the elements of a list by a number that each has;
* `flatMap_share_perm`, `flatMap_share`: together the shares are a permutation of the list, and the
  list itself where the numbers ascend;
* `flatMap_flatMap_perm`: two nested walks in the other order;
* `flatten_slices`: slices of one size, one after the other.
-/

namespace Shares

variable {β : Type*} {f : β → ℕ} {l : List β} {m : ℕ}

/-- The elements with a number. -/
def share (f : β → ℕ) (l : List β) (m : ℕ) : List β := l.filter fun x => f x = m

theorem mem_share {x : β} : x ∈ share f l m ↔ x ∈ l ∧ f x = m := by
  simp [share]

theorem filter_append_share (hsorted : l.Pairwise fun x y => f x ≤ f y) (hle : ∀ x ∈ l, f x ≤ m) :
    (l.filter fun x => f x < m) ++ share f l m = l := by
  unfold share
  induction l with
  | nil => rfl
  | cons x l ih =>
    obtain ⟨hx, hrest⟩ := List.pairwise_cons.1 hsorted
    have htail := ih hrest fun y hy => hle y (List.mem_cons_of_mem x hy)
    rcases Nat.lt_or_ge (f x) m with hlt | hge
    · rw [List.filter_cons_of_pos (by simpa using hlt),
        List.filter_cons_of_neg (by simpa using Nat.ne_of_lt hlt), List.cons_append, htail]
    · -- everything behind has the largest number
      have hnone : (l.filter fun y => f y < m) = [] := by
        refine List.filter_eq_nil_iff.2 fun y hy => ?_
        have := hx y hy
        simp only [decide_eq_true_eq]
        omega
      have heq : f x = m := Nat.le_antisymm (hle x List.mem_cons_self) hge
      rw [hnone, List.nil_append] at htail
      rw [List.filter_cons_of_neg (by simpa using hge), hnone,
        List.filter_cons_of_pos (by simpa using heq), htail, List.nil_append]

/-- The shares one after the other are the list where the numbers ascend. -/
theorem flatMap_share (hsorted : l.Pairwise fun x y => f x ≤ f y) (hlt : ∀ x ∈ l, f x < m) :
    (List.range m).flatMap (share f l) = l := by
  induction m generalizing l with
  | zero => exact (List.eq_nil_iff_forall_not_mem.2 fun x hx => Nat.not_lt_zero _ (hlt x hx)).symm
  | succ m ih =>
    have hbelow : ∀ e < m, share f l e = share f (l.filter fun x => f x < m) e := by
      intro e he
      unfold share
      rw [List.filter_filter]
      refine List.filter_congr fun x _ => ?_
      rw [← Bool.decide_and]
      refine decide_eq_decide.2 ⟨fun h => ⟨h, by omega⟩, fun h => h.1⟩
    have hfirst := ih (l := l.filter fun x => f x < m) (hsorted.filter _)
      fun x hx => by simpa using (List.mem_filter.1 hx).2
    have hsame : (List.range m).flatMap (share f l) =
        (List.range m).flatMap (share f (l.filter fun x => f x < m)) :=
      List.flatMap_congr fun e he => hbelow e (List.mem_range.1 he)
    rw [List.range_succ, List.flatMap_append, List.flatMap_singleton, hsame, hfirst]
    exact filter_append_share hsorted fun x hx => Nat.le_of_lt_succ (hlt x hx)

/-- No element is lost. -/
theorem flatMap_share_perm (hlt : ∀ x ∈ l, f x < m) :
    ((List.range m).flatMap (share f l)).Perm l := by
  induction l with
  | nil => simp [share]
  | cons x l ih =>
    have hx := hlt x List.mem_cons_self
    have hrest := ih fun y hy => hlt y (List.mem_cons_of_mem x hy)
    have hsplit : List.range m =
        List.range (f x) ++ f x :: List.range' (f x + 1) (m - (f x + 1)) := by
      have happend : List.range' 0 (f x) ++ List.range' (0 + f x) (m - (f x + 1) + 1) =
          List.range' 0 (f x + (m - (f x + 1) + 1)) := List.range'_append_1
      rw [Nat.zero_add, show f x + (m - (f x + 1) + 1) = m by omega] at happend
      rw [List.range_eq_range', List.range_eq_range', ← List.range'_succ, happend]
    have hother : ∀ e, e ≠ f x → share f (x :: l) e = share f l e := by
      intro e he
      exact List.filter_cons_of_neg (by simpa using Ne.symm he)
    have hown : share f (x :: l) (f x) = x :: share f l (f x) :=
      List.filter_cons_of_pos (by simp)
    have hbefore : (List.range (f x)).flatMap (share f (x :: l)) =
        (List.range (f x)).flatMap (share f l) :=
      List.flatMap_congr fun e he => hother e (Nat.ne_of_lt (List.mem_range.1 he))
    have hafter : (List.range' (f x + 1) (m - (f x + 1))).flatMap (share f (x :: l)) =
        (List.range' (f x + 1) (m - (f x + 1))).flatMap (share f l) := by
      refine List.flatMap_congr fun e he => hother e ?_
      have := (List.mem_range'_1.1 he).1
      omega
    rw [hsplit, List.flatMap_append, List.flatMap_cons] at hrest ⊢
    rw [hbefore, hafter, hown]
    exact List.perm_middle.trans (hrest.cons x)

/-- Two nested walks in the other order. -/
theorem flatMap_flatMap_perm {γ δ : Type*} (l : List β) (l' : List γ) (f : β → γ → List δ) :
    (l.flatMap fun x => l'.flatMap fun y => f x y).Perm
      (l'.flatMap fun y => l.flatMap fun x => f x y) := by
  induction l' with
  | nil => simp
  | cons y l' ih =>
    simp only [List.flatMap_cons]
    exact (List.flatMap_append_perm l (f · y) fun x => l'.flatMap (f x)).symm.trans
      (ih.append_left _)

/-- The slices of a list, one after the other. -/
theorem flatten_slices (l : List α) (size k : ℕ) :
    ((List.range k).map fun i => (l.take ((i + 1) * size)).drop (i * size)).flatten =
      l.take (k * size) := by
  induction k with
  | zero => simp
  | succ k ih =>
    rw [List.range_succ, List.map_append, List.flatten_append, ih, List.map_singleton,
      List.flatten_singleton]
    have hle : k * size ≤ (k + 1) * size := Nat.mul_le_mul_right _ (Nat.le_succ k)
    have htake : l.take (k * size) = (l.take ((k + 1) * size)).take (k * size) := by
      rw [List.take_take, Nat.min_eq_left hle]
    rw [htake, List.take_append_drop]

end Shares
