import Mathlib.Algebra.BigOperators.Group.List.Lemmas
import Mathlib.Data.Finset.Card
import Mathlib.Data.Finset.Prod
import Mathlib.Data.List.Forall2
import Mathlib.Tactic.Common

/-!
# Mixed-radix digits

A number below `n₁ * ⋯ * n_k` as its digits in the bases `n₁, …, n_k`, the first digit being the
most significant one (row-major order).

* `digits`, `ofDigits` and their bounds and inverse laws;
* `card_filter_matches`: how many numbers have prescribed digits at some places.
-/

namespace MixedRadix

variable {n k q r : ℕ} {base : List ℕ} {c : List (Option ℕ)} {d : List ℕ}

/-- The digits of `k` in the bases `base`, the most significant one first. -/
def digits : List ℕ → ℕ → List ℕ
  | [], _ => []
  | n :: base, k => k / base.prod % n :: digits base k

/-- The number with the given digits. -/
def ofDigits : List ℕ → List ℕ → ℕ
  | n :: base, d :: ds => d % n * base.prod + ofDigits base ds
  | _, _ => 0

@[simp] theorem digits_nil : digits [] k = [] := rfl

@[simp] theorem digits_cons :
    digits (n :: base) k = k / base.prod % n :: digits base k := rfl

@[simp] theorem length_digits : (digits base k).length = base.length := by
  induction base with
  | nil => rfl
  | cons n base ih => simp [ih]

/-- Digits do not see multiples of the product of their bases. -/
theorem digits_add_mul : digits base (k + q * base.prod) = digits base k := by
  induction base generalizing q with
  | nil => rfl
  | cons n base ih =>
    rcases Nat.eq_zero_or_pos base.prod with h0 | hpos
    · have hrest := ih (q := q * n)
      simp only [h0, Nat.mul_zero, Nat.add_zero] at hrest ⊢
      simp [h0]
    · have hmul : q * (n :: base).prod = q * n * base.prod := by
        rw [List.prod_cons, mul_assoc]
      rw [hmul, digits_cons, digits_cons, ih, Nat.add_mul_div_right _ _ hpos,
        Nat.add_mul_mod_self_right]

/-- The digits in more bases end with the digits in the last ones. -/
theorem digits_append {base' : List ℕ} :
    digits (base ++ base') k = digits base (k / base'.prod) ++ digits base' k := by
  induction base with
  | nil => rfl
  | cons n base ih =>
    rw [List.cons_append, digits_cons, digits_cons, ih, List.prod_append, List.cons_append,
      Nat.div_div_eq_div_mul, Nat.mul_comm]

theorem digits_mod : digits base (k % base.prod) = digits base k := by
  conv_rhs => rw [← Nat.mod_add_div k base.prod, mul_comm]
  rw [digits_add_mul]

/-- The digit list is within the bases. -/
theorem digits_lt (h : ∀ n ∈ base, 0 < n) : List.Forall₂ (· < ·) (digits base k) base := by
  induction base with
  | nil => exact List.Forall₂.nil
  | cons n base ih =>
    exact List.Forall₂.cons (Nat.mod_lt _ (h n List.mem_cons_self))
      (ih fun m hm => h m (List.mem_cons_of_mem _ hm))

/-- The number with digit `q` in front of the digits of `r`. -/
theorem digits_mul_add (hq : q < n) (hr : r < base.prod) :
    digits (n :: base) (q * base.prod + r) = q :: digits base r := by
  have hpos : 0 < base.prod := by omega
  rw [digits_cons, add_comm, digits_add_mul, Nat.add_mul_div_right _ _ hpos,
    Nat.div_eq_of_lt hr, zero_add, Nat.mod_eq_of_lt hq]

theorem ofDigits_digits : ofDigits base (digits base k) = k % base.prod := by
  induction base with
  | nil => simp [ofDigits, Nat.mod_one]
  | cons n base ih =>
    rw [digits_cons, ofDigits, Nat.mod_mod, ih, List.prod_cons, Nat.mul_comm n, Nat.mod_mul,
      Nat.mul_comm, Nat.add_comm]

/-- Some of the digits are prescribed. -/
def Matches (d : List ℕ) (c : List (Option ℕ)) : Prop :=
  List.Forall₂ (fun x o => ∀ v, o = some v → x = v) d c

instance : DecidableRel Matches := fun d c =>
  decidable_of_iff (List.Forall₂ (fun x o => o = none ∨ o = some x) d c) <| by
    unfold Matches
    refine ⟨fun h => h.imp fun x o hxo => ?_, fun h => h.imp fun x o hxo => ?_⟩
    · rintro v rfl
      rcases hxo with h | h
      · cases h
      · exact (Option.some.inj h).symm
    · cases o with
      | none => exact Or.inl rfl
      | some v => exact Or.inr (congrArg some (hxo v rfl).symm)

/-- How many values a place can take. -/
def choices (n : ℕ) : Option ℕ → ℕ
  | none => n
  | some v => if v < n then 1 else 0

theorem card_filter_choices (o : Option ℕ) :
    ((Finset.range n).filter fun q => ∀ v, o = some v → q = v).card = choices n o := by
  cases o with
  | none => simp [choices]
  | some v =>
    have : ((Finset.range n).filter fun q => ∀ w, some v = some w → q = w) =
        if v < n then {v} else ∅ := by
      ext q
      split_ifs with h
      · simp only [Finset.mem_filter, Finset.mem_range, Option.some.injEq, forall_eq',
          Finset.mem_singleton]
        constructor
        · exact fun hq => hq.2
        · rintro rfl
          exact ⟨h, rfl⟩
      · simp only [Finset.mem_filter, Finset.mem_range, Option.some.injEq, forall_eq',
          Finset.notMem_empty, iff_false, not_and]
        rintro hq rfl
        exact h hq
    rw [this, choices]
    split_ifs <;> rfl

/-- The numbers with prescribed digits at some places: one factor for every place. -/
theorem card_filter_matches (h : c.length = base.length) :
    ((Finset.range base.prod).filter fun k => Matches (digits base k) c).card =
      (List.zipWith choices base c).prod := by
  induction base generalizing c with
  | nil =>
    obtain rfl := List.length_eq_zero_iff.1 h
    have : (Finset.range ([] : List ℕ).prod).filter (fun k => Matches (digits [] k) []) = {0} := by
      ext k
      simp [Matches]
    rw [this]
    rfl
  | cons n base ih =>
    obtain ⟨o, c, rfl⟩ := List.exists_cons_of_length_eq_add_one h
    have hlen : c.length = base.length := by simpa using h
    rw [List.zipWith_cons_cons, List.prod_cons, List.prod_cons, ← ih hlen, ← card_filter_choices,
      ← Finset.card_product]
    refine Finset.card_nbij' (fun k => (k / base.prod, k % base.prod))
      (fun p => p.1 * base.prod + p.2) ?_ ?_ ?_ ?_
    · intro k hk
      rw [Finset.mem_coe, Finset.mem_filter, Finset.mem_range, digits_cons,
        Matches, List.forall₂_cons] at hk
      obtain ⟨hkn, hhead, htail⟩ := hk
      have hpos : 0 < base.prod := by
        rcases Nat.eq_zero_or_pos base.prod with h0 | hpos
        · rw [h0, Nat.mul_zero] at hkn
          omega
        · exact hpos
      have hq : k / base.prod < n := Nat.div_lt_of_lt_mul (by rwa [mul_comm])
      rw [Nat.mod_eq_of_lt hq] at hhead
      simp only [Finset.coe_product, Finset.coe_filter, Finset.mem_range, Set.mem_prod,
        Set.mem_ofPred_eq, digits_mod]
      exact ⟨⟨hq, hhead⟩, Nat.mod_lt _ hpos, htail⟩
    · rintro ⟨q, r⟩ hqr
      simp only [Finset.coe_product, Finset.coe_filter, Finset.mem_range, Set.mem_prod,
        Set.mem_ofPred_eq] at hqr
      obtain ⟨⟨hq, hhead⟩, hr, htail⟩ := hqr
      change q * base.prod + r ∈ _
      rw [Finset.mem_coe, Finset.mem_filter, Finset.mem_range, digits_mul_add hq hr]
      refine ⟨?_, List.Forall₂.cons hhead htail⟩
      calc q * base.prod + r < q * base.prod + base.prod := by omega
        _ = (q + 1) * base.prod := by rw [Nat.succ_mul]
        _ ≤ n * base.prod := Nat.mul_le_mul_right _ hq
    · intro k _
      exact Nat.div_add_mod' k base.prod
    · rintro ⟨q, r⟩ hqr
      simp only [Finset.coe_product, Finset.coe_filter, Finset.mem_range, Set.mem_prod,
        Set.mem_ofPred_eq] at hqr
      have hpos : 0 < base.prod := by omega
      refine Prod.ext ?_ ?_
      · change (q * base.prod + r) / base.prod = q
        rw [add_comm, Nat.add_mul_div_right _ _ hpos, Nat.div_eq_of_lt hqr.2.1, zero_add]
      · change (q * base.prod + r) % base.prod = r
        rw [add_comm, Nat.add_mul_mod_self_right, Nat.mod_eq_of_lt hqr.2.1]

end MixedRadix
