import Mathlib.Algebra.BigOperators.Fin
import Mathlib.Algebra.Ring.Nat
import Mathlib.Data.List.Flatten
import Mathlib.Data.List.OfFn
import Mathlib.Data.List.SplitLengths
import Mathlib.Tactic.Common

/-!
# Buffers made of blocks

A buffer holds blocks of rows one after the other, and a list of counts says where one ends.

* `concat`, `flat`, `view`: blocks one after the other, a matrix in row-major order and back;
* `cumsum`, `exclusive`, `repeatInterleave`, `expand`: the positions of blocks from their counts;
* `gather`, `scatter`: rows read at and written to positions;
* `gather_block`, `gather_expand`: a block stands where the counts before it end;
* `scatter_of_gather`: writing at the positions that were read restores the buffer.
-/

namespace Blocks

variable {α β : Type*} {n R C : ℕ}

/-! ### Rows and columns -/

/-- The given lists one after the other. -/
def concat (f : Fin n → List α) : List α := (List.ofFn f).flatten

/-- A matrix in row-major order. -/
def flat (m : Fin R → Fin C → β) : List β := concat fun r => List.ofFn (m r)

theorem index_lt (r : Fin R) (c : Fin C) : r.val * C + c.val < R * C :=
  calc r.val * C + c.val < r.val * C + C := Nat.add_lt_add_left c.isLt _
    _ = (r.val + 1) * C := (Nat.succ_mul _ _).symm
    _ ≤ R * C := Nat.mul_le_mul_right C r.isLt

/-- The matrix that a list holds in row-major order, if the list has its size. -/
def view (R C : ℕ) (x : List β) : Option (Fin R → Fin C → β) :=
  if h : x.length = R * C then
    some fun r c => x.get ⟨r.val * C + c.val, (index_lt r c).trans_eq h.symm⟩
  else none

@[simp] theorem length_concat (f : Fin n → List α) :
    (concat f).length = ∑ i, (f i).length := by
  rw [concat, List.length_flatten, List.map_ofFn, List.sum_ofFn]
  rfl

@[simp] theorem length_flat (m : Fin R → Fin C → β) : (flat m).length = R * C := by
  simp [flat]

theorem mem_concat {f : Fin n → List α} {x : α} : x ∈ concat f ↔ ∃ i, x ∈ f i := by
  simp [concat, List.mem_flatten, List.mem_ofFn]

theorem mem_flat {m : Fin R → Fin C → β} {x : β} : x ∈ flat m ↔ ∃ r c, m r c = x := by
  simp [flat, mem_concat, List.mem_ofFn]

theorem map_concat (f : Fin n → List α) (g : α → β) :
    (concat f).map g = concat fun i => (f i).map g := by
  rw [concat, List.map_flatten, List.map_ofFn]
  rfl

theorem map_flat (m : Fin R → Fin C → α) (g : α → β) :
    (flat m).map g = flat fun r c => g (m r c) := by
  rw [flat, map_concat]
  simp only [List.map_ofFn]
  rfl

theorem concat_succ (f : Fin (n + 1) → List α) : concat f = f 0 ++ concat fun i => f i.succ := by
  rw [concat, List.ofFn_succ, List.flatten_cons]
  rfl

/-- Blocks of blocks, one after the other. -/
theorem flatten_flat (B : Fin R → Fin C → List α) :
    (flat B).flatten = concat fun r => concat (B r) := by
  rw [flat, concat, List.flatten_flatten, List.map_ofFn]
  rfl

/-- Blocks that are numbered through, row by row. -/
theorem concat_fin_mul (f : Fin (R * C) → List α) :
    concat f = concat fun r => concat fun c => f ⟨r.val * C + c.val, index_lt r c⟩ := by
  rw [concat, List.ofFn_mul, List.flatten_flatten, List.map_ofFn]
  rfl

theorem divNat_index (r : Fin R) (c : Fin C) :
    (⟨r.val * C + c.val, index_lt r c⟩ : Fin (R * C)).divNat = r := by
  apply Fin.ext
  simp [Fin.divNat, Nat.mul_comm r.val, Nat.mul_add_div c.pos, Nat.div_eq_of_lt c.isLt]

theorem modNat_index (r : Fin R) (c : Fin C) :
    (⟨r.val * C + c.val, index_lt r c⟩ : Fin (R * C)).modNat = c := by
  apply Fin.ext
  simp [Fin.modNat, Nat.mul_comm r.val, Nat.mod_eq_of_lt c.isLt]

theorem flat_eq_ofFn (m : Fin R → Fin C → β) :
    flat m = List.ofFn fun i : Fin (R * C) => m i.divNat i.modNat := by
  rw [List.ofFn_mul]
  simp only [divNat_index, modNat_index]
  rfl

theorem getElem?_flat (m : Fin R → Fin C → β) (r : Fin R) (c : Fin C) :
    (flat m)[r.val * C + c.val]? = some (m r c) := by
  rw [flat_eq_ofFn, List.getElem?_ofFn, dif_pos (index_lt r c), divNat_index, modNat_index]

/-- Blocks of one size stand at its multiples. -/
theorem getElem?_concat {f : Fin n → List α} {m : ℕ} (h : ∀ i, (f i).length = m) (i : Fin n)
    {k : ℕ} (hk : k < m) : (concat f)[i.val * m + k]? = (f i)[k]? := by
  have hrow : ∀ i, f i = List.ofFn fun c : Fin m => (f i).get (c.cast (h i).symm) := fun i =>
    (List.ofFn_get (f i)).symm.trans (List.ofFn_congr (h i) _)
  have hconcat : concat f = flat fun i (c : Fin m) => (f i).get (c.cast (h i).symm) :=
    congrArg concat (funext hrow)
  rw [hconcat, getElem?_flat _ i ⟨k, hk⟩]
  exact (List.getElem?_eq_getElem _).symm

@[simp] theorem view_flat (m : Fin R → Fin C → β) : view R C (flat m) = some m := by
  rw [view, dif_pos (length_flat m)]
  congr 1
  funext r c
  apply Option.some_injective
  rw [List.get_eq_getElem, ← List.getElem?_eq_getElem, getElem?_flat]

/-! ### The positions of blocks -/

/-- The running sum of the counts, on top of what came before. -/
def cumsumFrom (acc : ℕ) : List ℕ → List ℕ
  | [] => []
  | c :: counts => (acc + c) :: cumsumFrom (acc + c) counts

/-- `counts.cumsum(0)` -/
def cumsum (counts : List ℕ) : List ℕ := cumsumFrom 0 counts

/-- `counts.cumsum(0) - counts`: where every block starts. -/
def exclusive (counts : List ℕ) : List ℕ := List.zipWith (· - ·) (cumsum counts) counts

/-- `x.repeat_interleave(counts)` -/
def repeatInterleave (x : List β) (counts : List ℕ) : List β :=
  (List.zipWith (fun v c => List.replicate c v) x counts).flatten

/-- The positions of blocks that start anywhere, one block after the other: the start of its block
for every row, and on top of it the offset of the row in the block. -/
def expand (starts counts : List ℕ) : List ℕ :=
  List.zipWith (· + ·) (repeatInterleave starts counts)
    (List.zipWith (· - ·) (List.range counts.sum) (repeatInterleave (exclusive counts) counts))

@[simp] theorem length_cumsumFrom (acc : ℕ) (counts : List ℕ) :
    (cumsumFrom acc counts).length = counts.length := by
  induction counts generalizing acc with
  | nil => rfl
  | cons c counts ih => simp [cumsumFrom, ih]

@[simp] theorem length_exclusive (counts : List ℕ) :
    (exclusive counts).length = counts.length := by
  simp [exclusive, cumsum]

/-- Where every block starts, if the first one starts at `acc`. -/
def startsFrom (acc : ℕ) : List ℕ → List ℕ
  | [] => []
  | c :: counts => acc :: startsFrom (acc + c) counts

theorem exclusive_eq (counts : List ℕ) : exclusive counts = startsFrom 0 counts := by
  have h : ∀ acc, List.zipWith (· - ·) (cumsumFrom acc counts) counts = startsFrom acc counts := by
    induction counts with
    | nil => exact fun _ => rfl
    | cons c counts ih => simp [cumsumFrom, startsFrom, ih]
  exact h 0

@[simp] theorem length_startsFrom (acc : ℕ) (counts : List ℕ) :
    (startsFrom acc counts).length = counts.length := by
  induction counts generalizing acc with
  | nil => rfl
  | cons c counts ih => simp [startsFrom, ih]

theorem startsFrom_append (acc : ℕ) (counts counts' : List ℕ) :
    startsFrom acc (counts ++ counts') =
      startsFrom acc counts ++ startsFrom (acc + counts.sum) counts' := by
  induction counts generalizing acc with
  | nil => simp [startsFrom]
  | cons c counts ih => simp [startsFrom, ih, Nat.add_assoc]

theorem startsFrom_add (acc acc' : ℕ) (counts : List ℕ) :
    startsFrom (acc + acc') counts = (startsFrom acc counts).map (acc' + ·) := by
  induction counts generalizing acc with
  | nil => rfl
  | cons c counts ih =>
    rw [startsFrom, startsFrom, List.map_cons, Nat.add_right_comm, ih, Nat.add_comm acc]

/-- Rows of blocks: a block starts where it starts in its row, behind the rows before. -/
theorem startsFrom_concat (acc : ℕ) (rows : Fin n → List ℕ) :
    startsFrom acc (concat rows) = concat fun r =>
      (exclusive (rows r)).map fun offset =>
        offset + ((startsFrom acc (List.ofFn fun s => (rows s).sum))[r.val]?).getD 0 := by
  induction n generalizing acc with
  | zero => rfl
  | succ n ih =>
    rw [concat_succ, startsFrom_append, ih, concat_succ, List.ofFn_succ, startsFrom]
    congr 1
    have hzero := startsFrom_add 0 acc (rows 0)
    rw [Nat.zero_add, ← exclusive_eq] at hzero
    rw [hzero]
    apply List.map_congr_left
    intro offset _
    exact Nat.add_comm acc offset

/-- The offset of every row in its block. -/
theorem zipWith_sub_repeat (acc : ℕ) (counts : List ℕ) :
    List.zipWith (· - ·) (List.range' acc counts.sum)
        (repeatInterleave (startsFrom acc counts) counts) =
      (counts.map List.range).flatten := by
  induction counts generalizing acc with
  | nil => rfl
  | cons c counts ih =>
    have hfirst : List.zipWith (· - ·) (List.range' acc c) (List.replicate c acc) =
        List.range c := by
      apply List.ext_getElem <;> simp
    rw [List.sum_cons, ← List.range'_append_1, startsFrom, repeatInterleave, List.zipWith_cons_cons,
      List.flatten_cons, List.zipWith_append (by simp), hfirst]
    exact congrArg _ (ih (acc + c))

theorem expand_eq {starts counts : List ℕ} (h : starts.length = counts.length) :
    expand starts counts = (List.zipWith List.range' starts counts).flatten := by
  rw [expand, exclusive_eq, List.range_eq_range', zipWith_sub_repeat]
  induction starts generalizing counts with
  | nil => rfl
  | cons s starts ih =>
    cases counts with
    | nil => simp at h
    | cons c counts =>
      have hfirst : List.zipWith (· + ·) (List.replicate c s) (List.range c) =
          List.range' s c := by
        apply List.ext_getElem <;> simp
      rw [repeatInterleave, List.zipWith_cons_cons, List.flatten_cons, List.map_cons,
        List.flatten_cons, List.zipWith_append (by simp), hfirst]
      exact congrArg _ (ih (Nat.succ.inj h))

/-- Blocks that start where the counts before them end cover all positions. -/
theorem flatten_range'_startsFrom (acc : ℕ) (counts : List ℕ) :
    (List.zipWith List.range' (startsFrom acc counts) counts).flatten =
      List.range' acc counts.sum := by
  induction counts generalizing acc with
  | nil => rfl
  | cons c counts ih =>
    rw [startsFrom, List.zipWith_cons_cons, List.flatten_cons, ih, List.sum_cons,
      List.range'_append_1]

theorem repeatInterleave_ofFn (v : Fin n → β) (counts : Fin n → ℕ) :
    repeatInterleave (List.ofFn v) (List.ofFn counts) =
      concat fun i => List.replicate (counts i) (v i) := by
  rw [repeatInterleave, concat]
  congr 1
  apply List.ext_getElem <;> simp

theorem map_repeatInterleave {γ : Type*} (f : β → γ) (x : List β) (counts : List ℕ) :
    (repeatInterleave x counts).map f = repeatInterleave (x.map f) counts := by
  rw [repeatInterleave, repeatInterleave, List.map_flatten, List.zipWith_map_left]
  congr 1
  induction x generalizing counts with
  | nil => rfl
  | cons v x ih =>
    cases counts with
    | nil => rfl
    | cons c counts => simp [ih]

theorem zipWith_flat {γ : Type*} (f : α → β → γ) (m : Fin R → Fin C → α) (m' : Fin R → Fin C → β) :
    List.zipWith f (flat m) (flat m') = flat fun r c => f (m r c) (m' r c) := by
  simp only [flat_eq_ofFn]
  apply List.ext_getElem <;> simp

theorem expand_flat (starts counts : Fin R → Fin C → ℕ) :
    expand (flat starts) (flat counts) =
      (flat fun r c => List.range' (starts r c) (counts r c)).flatten := by
  rw [expand_eq (by simp), zipWith_flat]

/-- Where the block of every row and column starts. -/
def starts (counts : Fin R → Fin C → ℕ) (r : Fin R) (c : Fin C) : ℕ :=
  (exclusive (flat counts)).get ⟨r.val * C + c.val, (index_lt r c).trans_eq (by simp)⟩

theorem exclusive_flat (counts : Fin R → Fin C → ℕ) :
    exclusive (flat counts) = flat (starts counts) := by
  calc exclusive (flat counts) = List.ofFn (exclusive (flat counts)).get := (List.ofFn_get _).symm
    _ = List.ofFn fun i : Fin (R * C) => (exclusive (flat counts)).get (i.cast (by simp)) :=
      List.ofFn_congr (by simp) _
    _ = _ := List.ofFn_mul _

/-- The positions of the blocks of a matrix, column by column. -/
def transposed (counts : Fin R → Fin C → ℕ) : List ℕ :=
  (flat fun c r => List.range' (starts counts r c) (counts r c)).flatten

/-- Every position is one of a block. -/
theorem mem_transposed {counts : Fin R → Fin C → ℕ} {i : ℕ} (hi : i < (flat counts).sum) :
    i ∈ transposed counts := by
  have hmem : i ∈ (List.zipWith List.range' (flat (starts counts)) (flat counts)).flatten := by
    rw [← exclusive_flat, exclusive_eq, flatten_range'_startsFrom, List.mem_range'_1]
    omega
  rw [zipWith_flat, List.mem_flatten] at hmem
  obtain ⟨block, hblock, hi⟩ := hmem
  obtain ⟨r, c, rfl⟩ := mem_flat.1 hblock
  exact List.mem_flatten.2 ⟨_, mem_flat.2 ⟨c, r, rfl⟩, hi⟩

theorem count_concat [DecidableEq β] (f : Fin n → List β) (x : β) :
    (concat f).count x = ∑ i, (f i).count x := by
  rw [concat, List.count_flatten, List.map_ofFn, List.sum_ofFn]
  rfl

theorem count_flatten_flat [DecidableEq β] (B : Fin R → Fin C → List β) (x : β) :
    (flat B).flatten.count x = ∑ r, ∑ c, (B r c).count x := by
  simp only [flatten_flat, count_concat]

/-- Column by column, every position still comes once. -/
theorem count_transposed (counts : Fin R → Fin C → ℕ) {i : ℕ} (hi : i < (flat counts).sum) :
    (transposed counts).count i = 1 := by
  have hrows : (flat fun r c => List.range' (starts counts r c) (counts r c)).flatten =
      List.range' 0 (flat counts).sum := by
    rw [← zipWith_flat List.range', ← exclusive_flat, exclusive_eq, flatten_range'_startsFrom]
  calc (transposed counts).count i
      = (flat fun r c => List.range' (starts counts r c) (counts r c)).flatten.count i := by
        rw [transposed, count_flatten_flat, count_flatten_flat, Finset.sum_comm]
    _ = 1 := by
        rw [hrows, ← List.range_eq_range']
        exact List.count_eq_one_of_mem List.nodup_range (List.mem_range.2 hi)

/-! ### Reading and writing at positions -/

/-- `x[idx]` -/
def gather (x : List α) (idx : List ℕ) : Option (List α) := idx.mapM fun i => x[i]?

/-- `result = zeros(n); result[idx] = out` -/
def scatter [Zero α] (n : ℕ) (idx : List ℕ) (out : List α) : Option (List α) :=
  if idx.length = out.length ∧ ∀ i ∈ idx, i < n then
    some ((idx.zip out).foldl (fun result p => result.set p.1 p.2) (List.replicate n 0))
  else none

theorem gather_eq_some_iff {x out : List α} {idx : List ℕ} :
    gather x idx = some out ↔ List.Forall₂ (fun i v => x[i]? = some v) idx out := by
  induction idx generalizing out with
  | nil => simp [gather, eq_comm]
  | cons i idx ih =>
    have hcons : gather x (i :: idx) =
        (x[i]?).bind fun v => (gather x idx).bind fun vs => some (v :: vs) := by
      simp [gather]
    rw [hcons]
    constructor
    · intro h
      obtain ⟨v, hv, h⟩ := Option.bind_eq_some_iff.1 h
      obtain ⟨vs, hvs, h⟩ := Option.bind_eq_some_iff.1 h
      cases h
      exact .cons hv (ih.1 hvs)
    · rintro (_ | ⟨hv, hvs⟩)
      simp [hv, ih.2 hvs]

theorem gather_concat {x : List α} {idx : Fin n → List ℕ} {out : Fin n → List α}
    (h : ∀ i, gather x (idx i) = some (out i)) :
    gather x (concat idx) = some (concat out) := by
  rw [gather_eq_some_iff, concat, concat]
  apply List.rel_flatten
  rw [List.forall₂_iff_get]
  refine ⟨by simp, fun i _ _ => ?_⟩
  simpa using gather_eq_some_iff.1 (h _)

theorem gather_flat {x : List α} {idx : Fin R → Fin C → List ℕ} {out : Fin R → Fin C → List α}
    (h : ∀ r c, gather x (idx r c) = some (out r c)) :
    gather x (flat idx).flatten = some (flat out).flatten := by
  rw [flatten_flat, flatten_flat]
  exact gather_concat fun r => gather_concat (h r)

/-- Consecutive positions. -/
theorem gather_range' (front block back : List α) :
    gather (front ++ (block ++ back)) (List.range' front.length block.length) = some block := by
  rw [gather_eq_some_iff, List.forall₂_iff_get]
  refine ⟨by simp, fun i hi hi' => ?_⟩
  simp only [List.get_eq_getElem, List.getElem_range', Nat.one_mul]
  rw [List.getElem?_append_right (Nat.le_add_right _ _), Nat.add_sub_cancel_left,
    List.getElem?_append_left hi']
  exact List.getElem?_eq_getElem hi'

/-- A block stands where the counts before it end. -/
theorem gather_startsFrom (front : List α) {blocks : List (List α)} {k start : ℕ} {block : List α}
    (hstart : (startsFrom front.length (blocks.map List.length))[k]? = some start)
    (hblock : blocks[k]? = some block) :
    gather (front ++ blocks.flatten) (List.range' start block.length) = some block := by
  induction blocks generalizing front k with
  | nil => simp at hblock
  | cons first blocks ih =>
    cases k with
    | zero =>
      simp only [List.map_cons, startsFrom, List.getElem?_cons_zero, Option.some.injEq]
        at hstart hblock
      subst hstart
      subst hblock
      exact gather_range' front _ _
    | succ k =>
      rw [List.flatten_cons, ← List.append_assoc]
      refine ih (front ++ first) ?_ hblock
      simpa [startsFrom] using hstart

variable {B : Fin R → Fin C → List α} {counts : Fin R → Fin C → ℕ}

theorem gather_block (h : ∀ r c, (B r c).length = counts r c) (r : Fin R) (c : Fin C) :
    gather (flat B).flatten (List.range' (starts counts r c) (counts r c)) = some (B r c) := by
  obtain rfl : (fun r c => (B r c).length) = counts := funext₂ h
  refine gather_startsFrom [] (k := r.val * C + c.val) ?_ (getElem?_flat B r c)
  rw [map_flat, List.length_nil, ← exclusive_eq, exclusive_flat, getElem?_flat]

theorem gather_transposed (h : ∀ r c, (B r c).length = counts r c) :
    gather (flat B).flatten (transposed counts) = some (flat fun c r => B r c).flatten :=
  gather_flat fun c r => gather_block h r c

theorem length_flatten_flat (h : ∀ r c, (B r c).length = counts r c) :
    (flat B).flatten.length = (flat counts).sum := by
  rw [List.length_flatten, map_flat]
  simp only [h]

/-- Writing one position after the other. -/
theorem foldl_set {x result : List α} {idx : List ℕ} {out : List α}
    (h : List.Forall₂ (fun i v => x[i]? = some v) idx out) (hlength : result.length = x.length)
    (i : ℕ) :
    ((idx.zip out).foldl (fun result p => result.set p.1 p.2) result)[i]? =
      if i ∈ idx then x[i]? else result[i]? := by
  induction h generalizing result with
  | nil => simp
  | @cons j v idx out hv _ ih =>
    rw [List.zip_cons_cons, List.foldl_cons, ih (by simpa using hlength), List.getElem?_set]
    have hj : j < result.length := by
      rw [hlength]
      exact (List.getElem?_eq_some_iff.1 hv).1
    by_cases hmem : i ∈ idx
    · simp [hmem]
    · by_cases hij : i = j
      · subst hij
        simp [hmem, hj, hv]
      · simp [hmem, hij, Ne.symm hij]

theorem idx_lt_of_gather {x out : List α} {idx : List ℕ} (h : gather x idx = some out) {i : ℕ}
    (hi : i ∈ idx) : i < x.length := by
  have hrel := gather_eq_some_iff.1 h
  obtain ⟨k, rfl⟩ := List.mem_iff_get.1 hi
  have hv := (List.forall₂_iff_get.1 hrel).2 k k.isLt (k.isLt.trans_eq hrel.length_eq)
  exact (List.getElem?_eq_some_iff.1 hv).1

/-- What was read at positions that cover the buffer restores it, written at the same positions. -/
theorem scatter_of_gather [Zero α] {x out : List α} {idx : List ℕ}
    (h : gather x idx = some out) (hcover : ∀ i < x.length, i ∈ idx) :
    scatter x.length idx out = some x := by
  have hrel := gather_eq_some_iff.1 h
  have hlt : ∀ i ∈ idx, i < x.length := fun i hi => idx_lt_of_gather h hi
  rw [scatter, if_pos ⟨hrel.length_eq, hlt⟩]
  congr 1
  apply List.ext_getElem?
  intro i
  rw [foldl_set hrel (by simp)]
  by_cases hi : i < x.length
  · rw [if_pos (hcover i hi)]
  · rw [if_neg fun hmem => hi (hlt i hmem), List.getElem?_eq_none (by simpa using hi),
      List.getElem?_eq_none (by simpa using hi)]

theorem scatter_transposed [Zero α] (h : ∀ r c, (B r c).length = counts r c) :
    scatter (flat counts).sum (transposed counts) (flat fun c r => B r c).flatten =
      some (flat B).flatten := by
  rw [← length_flatten_flat h]
  refine scatter_of_gather (gather_transposed h) fun i hi => mem_transposed ?_
  rwa [← length_flatten_flat h]

/-- `zeros(n).scatter_add(0, idx, src)` -/
def scatterAdd [AddCommMonoid α] (n : ℕ) (idx : List ℕ) (src : List α) : Option (List α) :=
  if idx.length = src.length ∧ ∀ i ∈ idx, i < n then
    some ((idx.zip src).foldl (fun result p => result.modify p.1 (· + p.2)) (List.replicate n 0))
  else none

theorem foldl_modify [AddCommMonoid α] {x result : List α} {idx : List ℕ} {src : List α}
    (h : List.Forall₂ (fun i v => x[i]? = some v) idx src) (i : ℕ) :
    ((idx.zip src).foldl (fun result p => result.modify p.1 (· + p.2)) result)[i]? =
      (result[i]?).map fun v => v + idx.count i • (x[i]?).getD 0 := by
  induction h generalizing result with
  | nil => simp
  | @cons j v idx src hv _ ih =>
    rw [List.zip_cons_cons, List.foldl_cons, ih, List.getElem?_modify, List.count_cons]
    by_cases hij : j = i
    · subst hij
      cases result[j]? with
      | none => rfl
      | some w =>
        have hassoc : w + v + idx.count j • v = w + (idx.count j • v + v) := by
          rw [add_assoc, add_comm v]
        simpa [hv, succ_nsmul] using hassoc
    · simp [hij]

/-- What was read, added up at the positions that were read: every row as often as it was read. -/
theorem scatterAdd_of_gather [AddCommMonoid α] {x src : List α} {idx : List ℕ}
    (h : gather x idx = some src) :
    ∃ result, scatterAdd x.length idx src = some result ∧ result.length = x.length ∧
      ∀ i < x.length, result[i]? = some (idx.count i • (x[i]?).getD 0) := by
  have hrel := gather_eq_some_iff.1 h
  refine ⟨_, if_pos ⟨hrel.length_eq, fun i hi => idx_lt_of_gather h hi⟩, ?_, ?_⟩
  · have hlength : ∀ (ps : List (ℕ × α)) (result : List α),
        (ps.foldl (fun result p => result.modify p.1 (· + p.2)) result).length =
          result.length := by
      intro ps
      induction ps with
      | nil => exact fun _ => rfl
      | cons p ps ih => simp [ih]
    simp [hlength]
  · intro i hi
    rw [foldl_modify hrel, List.getElem?_replicate, if_pos hi, Option.map_some, zero_add]

/-! ### Consecutive slices -/

section Slices

variable (x : List α) {i j k a b size : ℕ} {c v : ℕ → ℕ}

theorem extract_eq_nil (h : j ≤ i) : x.extract i j = [] := by
  rw [List.extract_eq_take_drop, Nat.sub_eq_zero_of_le h, List.take_zero]

theorem extract_append (hij : i ≤ j) (hjk : j ≤ k) :
    x.extract i j ++ x.extract j k = x.extract i k := by
  have hdrop : x.drop j = (x.drop i).drop (j - i) := by
    rw [List.drop_drop, Nat.add_sub_cancel' hij]
  have hsize : k - i = (j - i) + (k - j) := by omega
  rw [List.extract_eq_take_drop, List.extract_eq_take_drop, List.extract_eq_take_drop, hdrop, hsize,
    List.take_add]

/-- Slices between consecutive bounds are one slice. -/
theorem concat_extract (hc : Monotone c) :
    (concat fun d : Fin n => x.extract (c d) (c (d + 1))) = x.extract (c 0) (c n) := by
  induction n generalizing c with
  | zero => rw [extract_eq_nil x le_rfl]; rfl
  | succ n ih =>
    have hshift : Monotone fun d => c (d + 1) := fun d d' hd => hc (Nat.succ_le_succ hd)
    rw [concat_succ]
    exact (congrArg (x.extract (c 0) (c 1) ++ ·) (ih hshift)).trans
      (extract_append x (hc (Nat.zero_le 1)) (hc (Nat.le_add_left 1 n)))

/-- The overlaps of a slice with slices that fill the list. -/
theorem concat_extract_overlap (hv : Monotone v) (h0 : v 0 = 0) (hn : v n = size) (hab : a ≤ b)
    (hb : b ≤ size) :
    (concat fun d : Fin n => x.extract (max a (v d)) (min b (v (d + 1)))) = x.extract a b := by
  -- the bounds moved into the slice
  let c : ℕ → ℕ := fun d => max a (min b (v d))
  have hc : Monotone c := fun d d' hd => max_le_max_left a (min_le_min_left b (hv hd))
  have hoverlap : ∀ d, x.extract (max a (v d)) (min b (v (d + 1))) = x.extract (c d) (c (d + 1)) := by
    intro d
    have hstep : v d ≤ v (d + 1) := hv (Nat.le_succ d)
    by_cases hmeet : v d ≤ b ∧ a ≤ v (d + 1)
    · have hlow : c d = max a (v d) := by simp only [c]; omega
      have hhigh : c (d + 1) = min b (v (d + 1)) := by simp only [c]; omega
      rw [hlow, hhigh]
    · rw [extract_eq_nil x (by omega), extract_eq_nil x (by simp only [c]; omega)]
  have hzero : c 0 = a := by simp only [c, h0]; omega
  have hlast : c n = b := by simp only [c, hn]; omega
  simp only [hoverlap]
  rw [concat_extract x hc, hzero, hlast]

theorem length_extract (hk : k ≤ x.length) : (x.extract i k).length = k - i := by
  rw [List.extract_eq_take_drop, List.length_take, List.length_drop]
  omega

end Slices

end Blocks
