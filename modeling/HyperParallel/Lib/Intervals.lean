import Mathlib.Algebra.Order.Ring.Nat
import Mathlib.Data.List.Basic
import Mathlib.Data.List.GetD
import Mathlib.Data.List.Induction
import Mathlib.Tactic.Common

/-!
# Intervals between boundaries

* `consecutive`: the intervals between the neighbours in a list of boundaries;
* `exists_interval`, `eq_of_covers`: every position lies in exactly one of them;
* `IsBoundaries`: boundaries of rows of one length, one after the other;
* `Tiles`, `tiles_range`: pieces one after the other; `slice_flatMap_range`: blocks of one length.
-/

namespace Intervals

variable {l : List ℕ} {a p s e t : ℕ}

/-- The intervals between neighbours. -/
def consecutive (l : List ℕ) : List (ℕ × ℕ) := l.dropLast.zip l.tail

theorem consecutive_cons_cons (a b : ℕ) (l : List ℕ) :
    consecutive (a :: b :: l) = (a, b) :: consecutive (b :: l) := rfl

/-- The ends of an interval are boundaries, in order. -/
theorem mem_of_consecutive (h : (s, e) ∈ consecutive l) : s ∈ l.dropLast ∧ s ∈ l ∧ e ∈ l := by
  have hzip := List.of_mem_zip h
  exact ⟨hzip.1, (List.dropLast_sublist l).subset hzip.1, List.mem_of_mem_tail hzip.2⟩

theorem lt_of_consecutive (hl : l.Pairwise (· < ·)) (h : (s, e) ∈ consecutive l) : s < e := by
  induction l with
  | nil => cases h
  | cons a l ih =>
    cases l with
    | nil => cases h
    | cons b l =>
      rw [consecutive_cons_cons] at h
      rcases List.mem_cons.1 h with h | h
      · obtain ⟨rfl, rfl⟩ := Prod.mk.inj h
        exact (List.pairwise_cons.1 hl).1 e List.mem_cons_self
      · exact ih (List.pairwise_cons.1 hl).2 h

/-- No boundary lies inside an interval. -/
theorem le_or_le_of_mem (hl : l.Pairwise (· < ·)) (h : (s, e) ∈ consecutive l) (ht : t ∈ l) :
    t ≤ s ∨ e ≤ t := by
  induction l with
  | nil => cases h
  | cons a l ih =>
    cases l with
    | nil => cases h
    | cons b l =>
      rw [consecutive_cons_cons] at h
      obtain ⟨hfirst, hrest⟩ := List.pairwise_cons.1 hl
      rcases List.mem_cons.1 h with heq | hmem
      · obtain ⟨rfl, rfl⟩ := Prod.mk.inj heq
        rcases List.mem_cons.1 ht with rfl | ht
        · exact .inl (le_refl _)
        · rcases List.mem_cons.1 ht with rfl | ht
          · exact .inr (le_refl _)
          · exact .inr ((List.pairwise_cons.1 hrest).1 t ht).le
      · rcases List.mem_cons.1 ht with rfl | ht
        · exact .inl (hfirst s (mem_of_consecutive hmem).2.1).le
        · exact ih hrest hmem ht

/-- Every position before the last boundary lies in an interval. -/
theorem exists_interval (hfirst : l.head? = some a) (ha : a ≤ p) (hlast : ∃ b ∈ l, p < b) :
    ∃ s e, (s, e) ∈ consecutive l ∧ s ≤ p ∧ p < e := by
  induction l generalizing a with
  | nil => cases hfirst
  | cons c l ih =>
    obtain rfl : c = a := Option.some.inj hfirst
    cases l with
    | nil =>
      obtain ⟨b, hb, hlt⟩ := hlast
      rw [List.mem_singleton.1 hb] at hlt
      omega
    | cons b l =>
      rw [consecutive_cons_cons]
      rcases Nat.lt_or_ge p b with hlt | hge
      · exact ⟨c, b, List.mem_cons_self, ha, hlt⟩
      · have hbeyond : ∃ b' ∈ b :: l, p < b' := by
          obtain ⟨b', hb', hlt⟩ := hlast
          rcases List.mem_cons.1 hb' with rfl | hb'
          · omega
          · exact ⟨b', hb', hlt⟩
        obtain ⟨s, e, hmem, hin⟩ := ih rfl hge hbeyond
        exact ⟨s, e, List.mem_cons_of_mem _ hmem, hin⟩

/-- Every position lies in one interval only. -/
theorem filter_covers (hl : l.Pairwise (· < ·)) (h : (s, e) ∈ consecutive l) (hs : s ≤ p)
    (he : p < e) : (consecutive l).filter (fun i => i.1 ≤ p ∧ p < i.2) = [(s, e)] := by
  induction l with
  | nil => cases h
  | cons a l ih =>
    cases l with
    | nil => cases h
    | cons b l =>
      obtain ⟨hfirst, hrest⟩ := List.pairwise_cons.1 hl
      rw [consecutive_cons_cons] at h ⊢
      rcases List.mem_cons.1 h with h | h
      · obtain ⟨rfl, rfl⟩ := Prod.mk.inj h
        have hnone : (consecutive (e :: l)).filter (fun i => i.1 ≤ p ∧ p < i.2) = [] := by
          refine List.filter_eq_nil_iff.2 fun i hi => ?_
          rcases List.mem_cons.1 (mem_of_consecutive hi).2.1 with heq | hmem
          · simp only [decide_eq_true_eq]
            omega
          · have := (List.pairwise_cons.1 hrest).1 _ hmem
            simp only [decide_eq_true_eq]
            omega
        rw [List.filter_cons_of_pos (by simpa using ⟨hs, he⟩), hnone]
      · have hbefore : b ≤ s := by
          rcases List.mem_cons.1 (mem_of_consecutive h).2.1 with rfl | hmem
          · exact le_refl _
          · exact ((List.pairwise_cons.1 hrest).1 _ hmem).le
        rw [List.filter_cons_of_neg (by simp only [decide_eq_true_eq]; omega)]
        exact ih hrest h

/-- The last of ascending numbers is the largest. -/
theorem getLast?_eq_iff (hl : l.Pairwise (· < ·)) :
    l.getLast? = some p ↔ p ∈ l ∧ ∀ x ∈ l, x ≤ p := by
  cases l using List.reverseRecOn with
  | nil => simp
  | append_singleton l last =>
    have hbefore := fun x hx =>
      (List.pairwise_append.1 hl).2.2 x hx last (List.mem_singleton_self _)
    rw [List.getLast?_concat, Option.some_inj]
    constructor
    · rintro rfl
      refine ⟨by simp, fun x hx => ?_⟩
      rcases List.mem_append.1 hx with hx | hx
      · exact (hbefore x hx).le
      · rw [List.mem_singleton.1 hx]
    · rintro ⟨hp, hle⟩
      rcases List.mem_append.1 hp with hp | hp
      · have hlt := hbefore p hp
        have := hle last (by simp)
        omega
      · exact (List.mem_singleton.1 hp).symm

/-- Boundaries of `rows` rows of `size` positions: from `0` to the end of the last row, with the end
of every row. -/
structure IsBoundaries (rows size : ℕ) (l : List ℕ) : Prop where
  first : l.head? = some 0
  increasing : l.Pairwise (· < ·)
  last : l.getLast? = some (rows * size)
  rowEnd : ∀ b ≤ rows, b * size ∈ l

variable {rows size : ℕ}

namespace IsBoundaries

theorem exists_interval (h : IsBoundaries rows size l) (hp : p < rows * size) :
    ∃ s e, (s, e) ∈ consecutive l ∧ s ≤ p ∧ p < e :=
  Intervals.exists_interval h.first (Nat.zero_le p) ⟨_, List.mem_of_getLast? h.last, hp⟩

/-- An interval lies in one row. -/
theorem div_eq (h : IsBoundaries rows size l) (hsize : 0 < size) (hi : (s, e) ∈ consecutive l)
    (hs : s ≤ p) (he : p < e) (hp : p < rows * size) :
    s / size = p / size ∧ s % size + (e - s) ≤ size := by
  have hrow : p / size < rows := Nat.div_lt_of_lt_mul (by rwa [Nat.mul_comm])
  have hdiv := Nat.div_add_mod p size
  have hmod := Nat.mod_lt p hsize
  -- the start and the end of the row of the position
  have hstart := le_or_le_of_mem h.increasing hi (h.rowEnd (p / size) hrow.le)
  have hstop := le_or_le_of_mem h.increasing hi (h.rowEnd (p / size + 1) hrow)
  rw [Nat.succ_mul] at hstop
  rw [Nat.mul_comm] at hdiv
  have hsdiv : s / size = p / size := by
    refine Nat.div_eq_of_lt_le ?_ ?_
    · omega
    · rw [Nat.succ_mul]
      omega
  have hsmod := Nat.div_add_mod s size
  rw [hsdiv, Nat.mul_comm] at hsmod
  exact ⟨hsdiv, by omega⟩

end IsBoundaries

/-- Rows of one length, one after the other, are the range of all positions. -/
theorem flatMap_range_mul {α : Type*} (f : ℕ → α) (size k : ℕ) :
    ((List.range k).flatMap fun i => (List.range size).map fun j => f (i * size + j)) =
      (List.range (k * size)).map f := by
  induction k with
  | zero => simp
  | succ k ih =>
    rw [List.range_succ, List.flatMap_append, ih, List.flatMap_singleton, Nat.succ_mul,
      List.range_add, List.map_append, List.map_map]
    rfl

/-- Pieces, given by their starts and lengths, one after the other from a start to an end. -/
def Tiles : ℕ → ℕ → List (ℕ × ℕ) → Prop
  | start, stop, [] => start = stop
  | start, stop, piece :: pieces => piece.1 = start ∧ Tiles (start + piece.2) stop pieces

theorem Tiles.append {start middle stop : ℕ} {pieces pieces' : List (ℕ × ℕ)}
    (h : Tiles start middle pieces) (h' : Tiles middle stop pieces') :
    Tiles start stop (pieces ++ pieces') := by
  induction pieces generalizing start with
  | nil =>
    obtain rfl : start = middle := h
    exact h'
  | cons piece pieces ih => exact ⟨h.1, ih h.2⟩

/-- The pieces between the boundaries. -/
theorem tiles_range {f : ℕ → ℕ × ℕ} {b : ℕ → ℕ} {n : ℕ}
    (h : ∀ i < n, (f i).1 = b i ∧ (f i).1 + (f i).2 = b (i + 1)) :
    Tiles (b 0) (b n) ((List.range n).map f) := by
  induction n with
  | zero => exact rfl
  | succ n ih =>
    obtain ⟨hstart, hstop⟩ := h n (Nat.lt_succ_self n)
    rw [List.range_succ, List.map_append]
    refine (ih fun i hi => h i (Nat.lt_succ_of_lt hi)).append ⟨hstart, ?_⟩
    rw [← hstart]
    exact hstop

theorem flatMap_range_flatMap {α : Type*} (g : ℕ → List α) (size k : ℕ) :
    ((List.range k).flatMap fun i => (List.range size).flatMap fun j => g (i * size + j)) =
      (List.range (k * size)).flatMap g := by
  have hrange := congrArg (List.flatMap g) (flatMap_range_mul id size k)
  simp only [List.map_id, List.flatMap_assoc, List.flatMap_map, id] at hrange
  exact hrange

theorem length_flatMap_range {α : Type*} {f : ℕ → List α} {s n : ℕ}
    (hf : ∀ j < n, (f j).length = s) : ((List.range n).flatMap f).length = n * s := by
  rw [List.length_flatMap, List.map_congr_left fun j hj => hf j (List.mem_range.1 hj),
    List.map_const', List.sum_replicate_nat, List.length_range]

/-- Inside of one of several blocks of one length, one after the other. -/
theorem slice_flatMap_range {α : Type*} {f : ℕ → List α} {s n i o m : ℕ}
    (hf : ∀ j < n, (f j).length = s) (hi : i < n) (hm : o + m ≤ s) :
    (((List.range n).flatMap f).drop (i * s + o)).take m = ((f i).drop o).take m := by
  induction n with
  | zero => exact absurd hi (Nat.not_lt_zero i)
  | succ n ih =>
    have hlength : ((List.range n).flatMap f).length = n * s :=
      length_flatMap_range fun j hj => hf j (Nat.lt_succ_of_lt hj)
    rw [List.range_succ, List.flatMap_append, List.flatMap_singleton]
    rcases Nat.lt_succ_iff_lt_or_eq.1 hi with hlt | rfl
    · have hend : i * s + o + m ≤ n * s := by
        have := Nat.mul_le_mul_right s (Nat.succ_le_of_lt hlt)
        rw [Nat.succ_mul] at this
        omega
      rw [List.drop_append_of_le_length (by omega),
        List.take_append_of_le_length (by rw [List.length_drop]; omega)]
      exact ih (fun j hj => hf j (Nat.lt_succ_of_lt hj)) hlt
    · rw [← List.drop_drop, List.drop_left' hlength]

/-- A list, block by block. -/
theorem flatMap_range_slice {α : Type*} (l : List α) (size n : ℕ) :
    ((List.range n).flatMap fun i => (l.drop (i * size)).take size) = l.take (n * size) := by
  induction n with
  | zero => simp
  | succ n ih =>
    rw [List.range_succ, List.flatMap_append, List.flatMap_singleton, ih, Nat.succ_mul,
      List.take_add]

/-- The positions of a list give its elements. -/
theorem map_getD_range {α : Type*} (l : List α) (d : α) :
    ((List.range l.length).map fun i => l.getD i d) = l := by
  refine List.ext_getElem (by simp) fun i hi hi' => ?_
  rw [List.getElem_map, List.getElem_range, List.getD_eq_getElem]

end Intervals
