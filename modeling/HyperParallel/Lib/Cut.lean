import Mathlib.Order.Monotone.Basic
import Mathlib.Tactic.Common

/-!
# Cutting a range

A range of natural numbers cut into consecutive half-open pieces, some of which may be empty.

* `exists_interval`: a number below the last bound of a sequence falls between two bounds;
* `IsCut`: the pieces `f 0, …, f (n - 1)` are consecutive and fill `[0, size)`;
* `IsCut.exists_piece`, `IsCut.piece_unique`: every number is in exactly one of them.
-/

/-- A number below the last bound falls into one of the intervals. -/
theorem exists_interval {g : ℕ → ℕ} {N x : ℕ} (h0 : g 0 ≤ x) (hN : x < g N) :
    ∃ ρ < N, g ρ ≤ x ∧ x < g (ρ + 1) := by
  induction N with
  | zero => omega
  | succ N ih =>
    by_cases h : x < g N
    · obtain ⟨ρ, hρ, hx⟩ := ih h
      exact ⟨ρ, by omega, hx⟩
    · exact ⟨N, by omega, by omega, hN⟩

/-- The first `n` pieces `f` are consecutive and fill the range of the given size. -/
structure IsCut (f : ℕ → ℕ × ℕ) (n size : ℕ) where
  bound : ℕ → ℕ
  mono : Monotone bound
  bound_zero : bound 0 = 0
  bound_last : bound n = size
  piece : ∀ k < n, f k = (bound k, bound (k + 1))

namespace IsCut

variable {f : ℕ → ℕ × ℕ} {n size k k' t : ℕ}

theorem le (h : IsCut f n size) (hk : k < n) : (f k).1 ≤ (f k).2 := by
  rw [h.piece k hk]
  exact h.mono (Nat.le_succ k)

theorem le_size (h : IsCut f n size) (hk : k < n) : (f k).2 ≤ size := by
  rw [h.piece k hk]
  exact (h.mono hk).trans_eq h.bound_last

theorem exists_piece (h : IsCut f n size) (ht : t < size) :
    ∃ k < n, (f k).1 ≤ t ∧ t < (f k).2 := by
  obtain ⟨k, hk, hlo, hhi⟩ := exists_interval (g := h.bound) (N := n) (x := t)
    (by rw [h.bound_zero]; exact Nat.zero_le t) (by rwa [h.bound_last])
  exact ⟨k, hk, by rwa [h.piece k hk], by rwa [h.piece k hk]⟩

theorem piece_unique (h : IsCut f n size) (hk : k < n) (hk' : k' < n)
    (ht : (f k).1 ≤ t ∧ t < (f k).2) (ht' : (f k').1 ≤ t ∧ t < (f k').2) : k = k' := by
  rw [h.piece k hk] at ht
  rw [h.piece k' hk'] at ht'
  rcases lt_trichotomy k k' with hlt | heq | hgt
  · have := h.mono (Nat.succ_le_of_lt hlt)
    simp only [Nat.succ_eq_add_one] at this
    omega
  · exact heq
  · have := h.mono (Nat.succ_le_of_lt hgt)
    simp only [Nat.succ_eq_add_one] at this
    omega

end IsCut
