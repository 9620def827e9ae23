import HyperParallel.Lib.Dict
import Mathlib.Data.List.MinMax
import Mathlib.Data.List.Perm.Basic
import Mathlib.Tactic.Common

/-!
# Buckets

A dict from sizes to lists of items, in insertion order, in which empty lists are not kept.

* `get`, `put`: reading and writing one bucket;
* `items`: every item with the size it is filed under; `items_perm`, `items_put_perm`: one bucket
  and the rest;
* `firstAtLeast`: the smallest size with an item that is not below a bound.
-/

namespace Buckets

variable {β : Type*}

/-- `d[size]`, empty when the size is not there. -/
def get (d : List (ℕ × List β)) (size : ℕ) : List β := (d.lookup size).getD []

/-- `del d[size]`. -/
def erase (d : List (ℕ × List β)) (size : ℕ) : List (ℕ × List β) :=
  d.filter fun x => x.1 ≠ size

/-- `d[size] = items`, or `del d[size]` when there are none. -/
def put (d : List (ℕ × List β)) (size : ℕ) (items : List β) : List (ℕ × List β) :=
  if items.isEmpty then erase d size else Dict.set d size items

/-- Every item with its size. -/
def items (d : List (ℕ × List β)) : List (ℕ × β) := d.flatMap fun x => x.2.map (x.1, ·)

/-- The smallest size with an item, from a bound on. -/
def firstAtLeast (d : List (ℕ × List β)) (minimum : ℕ) : Option ℕ :=
  ((d.filter fun x => decide (minimum ≤ x.1) && !x.2.isEmpty).map Prod.fst).min?

variable {d : List (ℕ × List β)} {size minimum : ℕ} {l : List β}

@[simp] theorem items_nil : items ([] : List (ℕ × List β)) = [] := rfl

@[simp] theorem items_cons (x : ℕ × List β) :
    items (x :: d) = x.2.map (x.1, ·) ++ items d := rfl

theorem nodup_erase (h : (d.map Prod.fst).Nodup) : ((erase d size).map Prod.fst).Nodup :=
  h.sublist (List.filter_sublist.map _)

theorem nodup_put (h : (d.map Prod.fst).Nodup) : ((put d size l).map Prod.fst).Nodup := by
  rw [put]
  split_ifs
  · exact nodup_erase h
  · exact Dict.nodup_set h

theorem erase_of_notMem (h : size ∉ d.map Prod.fst) : erase d size = d := by
  refine List.filter_eq_self.2 fun x hx => ?_
  rw [decide_eq_true_eq]
  rintro rfl
  exact h (List.mem_map_of_mem hx)

/-- One bucket and the rest. -/
theorem items_perm (h : (d.map Prod.fst).Nodup) (size : ℕ) :
    (items d).Perm ((get d size).map (size, ·) ++ items (erase d size)) := by
  induction d with
  | nil => exact List.Perm.refl _
  | cons x d ih =>
    obtain ⟨size', l⟩ := x
    rw [List.map_cons, List.nodup_cons] at h
    by_cases hx : size' = size
    · subst hx
      have hget : get ((size', l) :: d) size' = l := by
        rw [get, List.lookup_cons, beq_self_eq_true]
        rfl
      have herase : erase ((size', l) :: d) size' = d := by
        rw [erase, List.filter_cons_of_neg (by simp)]
        exact erase_of_notMem h.1
      rw [hget, herase, items_cons]
    · have hget : get ((size', l) :: d) size = get d size := by
        rw [get, List.lookup_cons, beq_false_of_ne (Ne.symm hx)]
        rfl
      have herase : erase ((size', l) :: d) size = (size', l) :: erase d size := by
        rw [erase, List.filter_cons_of_pos (by simpa using hx)]
        rfl
      rw [hget, herase, items_cons, items_cons]
      refine ((ih h.2).append_left _).trans ?_
      rw [← List.append_assoc, ← List.append_assoc]
      exact List.perm_append_comm.append_right _

theorem get_set : get (Dict.set d size l) size = l := by
  rw [get, Dict.lookup_set, if_pos rfl]
  rfl

theorem erase_set : erase (Dict.set d size l) size = erase d size := by
  induction d with
  | nil => simp [Dict.set, erase]
  | cons x d ih =>
    rw [Dict.set]
    by_cases hx : x.1 = size
    · rw [if_pos hx, erase, erase, List.filter_cons_of_neg (by simp),
        List.filter_cons_of_neg (by simpa using hx)]
    · rw [if_neg hx, erase, erase, List.filter_cons_of_pos (by simpa using hx),
        List.filter_cons_of_pos (by simpa using hx)]
      exact congrArg _ ih

/-- A bucket written, and the rest. -/
theorem items_put_perm (h : (d.map Prod.fst).Nodup) (size : ℕ) (l : List β) :
    (items (put d size l)).Perm (l.map (size, ·) ++ items (erase d size)) := by
  rw [put]
  split_ifs with hl
  · rw [List.isEmpty_iff.1 hl]
    exact List.Perm.refl _
  · have := items_perm (d := Dict.set d size l) (Dict.nodup_set h) size
    rwa [get_set, erase_set] at this

/-- An item added to a bucket, at either end. -/
theorem items_put_of_perm (h : (d.map Prod.fst).Nodup) {x : β} (hl : l.Perm (x :: get d size)) :
    (items (put d size l)).Perm ((size, x) :: items d) := by
  refine (items_put_perm h size l).trans ?_
  refine ((hl.map (size, ·)).append_right _).trans ?_
  rw [List.map_cons, List.cons_append]
  exact (items_perm h size).symm.cons _

/-- Items taken from a bucket. -/
theorem items_perm_of_get (h : (d.map Prod.fst).Nodup) {m : List β}
    (hl : (get d size).Perm (m ++ l)) :
    (items d).Perm (m.map (size, ·) ++ items (put d size l)) := by
  refine (items_perm h size).trans ?_
  refine ((hl.map (size, ·)).append_right _).trans ?_
  rw [List.map_append, List.append_assoc]
  exact (items_put_perm h size l).symm.append_left _

theorem get_put_of_ne {size' : ℕ} (h : size' ≠ size) : get (put d size l) size' = get d size' := by
  rw [put]
  split_ifs
  · induction d with
    | nil => rfl
    | cons x d ih =>
      obtain ⟨size₀, l₀⟩ := x
      by_cases hx : size₀ = size
      · subst hx
        rw [erase, List.filter_cons_of_neg (by simp), get, get, List.lookup_cons,
          beq_false_of_ne h]
        exact ih
      · rw [erase, List.filter_cons_of_pos (by simpa using hx), get, get, List.lookup_cons,
          List.lookup_cons]
        cases size' == size₀ with
        | true => rfl
        | false => exact ih
  · rw [get, Dict.lookup_set, if_neg h, get]

theorem firstAtLeast_eq_some (h : firstAtLeast d minimum = some size)
    (hd : (d.map Prod.fst).Nodup) : minimum ≤ size ∧ get d size ≠ [] := by
  have hmem := List.min?_mem h
  obtain ⟨x, hx, rfl⟩ := List.mem_map.1 hmem
  obtain ⟨hxd, hcond⟩ := List.mem_filter.1 hx
  rw [Bool.and_eq_true, decide_eq_true_eq, Bool.not_eq_true', List.isEmpty_eq_false_iff] at hcond
  refine ⟨hcond.1, ?_⟩
  rw [get, (Dict.lookup_eq_some_iff hd).2 (show (x.1, x.2) ∈ d from hxd)]
  exact hcond.2

end Buckets
