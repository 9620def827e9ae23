import HyperParallel.Lib.Blocks
import Mathlib.Data.Fin.Tuple.Sort

/-!
# Collectives that move rows

What a collective returns on every rank, from what every rank passes; `none` where the ranks do not
fit together.

* `everyRank`: local work on every rank;
* `groupOrder`: the order in which a group has its members;
* `allToAllSingle`, `groupAllToAllSingle`, `exchangeSplits`: every rank sends one block to every
  rank;
* `allToAllSingle_eq_some_iff`, `exchangeSplits_flat`: what arrives, block by block.
-/

namespace Exchange

open Blocks

variable {α β : Type*} {n L : ℕ}

/-- The local work of every rank, if it fails on none. -/
def everyRank (f : Fin n → Option β) : Option (Fin n → β) :=
  if h : ∀ r, (f r).isSome then some fun r => (f r).get (h r) else none

theorem everyRank_eq_some_iff {f : Fin n → Option β} {g : Fin n → β} :
    everyRank f = some g ↔ ∀ r, f r = some (g r) := by
  rw [everyRank]
  constructor
  · intro h r
    split_ifs at h with hsome
    rw [← Option.some.inj h]
    exact (Option.some_get (hsome r)).symm
  · intro h
    rw [dif_pos fun r => by simp [h r]]
    congr 1
    funext r
    simp [h r]

/-- The members of a process group, in its order: by global rank. -/
def groupOrder (rank : Fin n → ℕ) : Equiv.Perm (Fin n) := Tuple.sort rank

/-- `all_to_all_single` of rows: the splits of two ranks must name the same number of rows. -/
def allToAllSingle (x : Fin n → List α) (inputSplits outputSplits : Fin n → List ℕ) :
    Option (Fin n → List α) :=
  if (∀ s, (inputSplits s).length = n ∧ (inputSplits s).sum = (x s).length) ∧
      ∀ d, outputSplits d = List.ofFn fun s => ((inputSplits s)[d.val]?).getD 0 then
    some fun d => concat fun s => (((inputSplits s).splitLengths (x s))[d.val]?).getD []
  else none

/-- The same in a group: blocks and splits are counted by the positions of the members. -/
def groupAllToAllSingle (order : Equiv.Perm (Fin n)) (x : Fin n → List α)
    (inputSplits outputSplits : Fin n → List ℕ) : Option (Fin n → List α) :=
  (allToAllSingle (x ∘ order) (inputSplits ∘ order) (outputSplits ∘ order)).map (· ∘ order.symm)

/-- Without splits, every rank sends equal parts. -/
def exchangeSplits (x : Fin n → List α) : Option (Fin n → List α) :=
  allToAllSingle x (fun r => List.replicate n ((x r).length / n))
    fun r => List.replicate n ((x r).length / n)

theorem splitLengths_map_length (blocks : List (List α)) :
    (blocks.map List.length).splitLengths blocks.flatten = blocks := by
  induction blocks with
  | nil => rfl
  | cons block blocks ih => simp [ih]

/-- What rank `s` has for rank `d` arrives there, in the order of the senders, if every rank expects
as much. -/
theorem allToAllSingle_eq_some_iff {chunk : Fin n → Fin n → List α} {sizes : Fin n → Fin n → ℕ}
    (h : ∀ s d, (chunk s d).length = sizes s d) {outputSplits : Fin n → List ℕ}
    {y : Fin n → List α} :
    allToAllSingle (fun s => concat (chunk s)) (fun s => List.ofFn (sizes s)) outputSplits =
        some y ↔
      (∀ d, outputSplits d = List.ofFn fun s => sizes s d) ∧ ∀ d, y d = concat fun s => chunk s d := by
  have hsizes : ∀ s, List.ofFn (sizes s) = (List.ofFn (chunk s)).map List.length := by
    intro s
    rw [List.map_ofFn]
    congr 1
    funext d
    exact (h s d).symm
  have hsum : ∀ s, (List.ofFn (sizes s)).length = n ∧
      (List.ofFn (sizes s)).sum = (concat (chunk s)).length := by
    intro s
    refine ⟨List.length_ofFn, ?_⟩
    rw [hsizes, concat, List.length_flatten]
  have hout : (fun d : Fin n => concat fun s => (((List.ofFn (sizes s)).splitLengths
      (concat (chunk s)))[d.val]?).getD []) = fun d => concat fun s => chunk s d := by
    funext d
    congr 1
    funext s
    rw [hsizes, concat, splitLengths_map_length]
    simp
  have hexpected : ∀ d : Fin n, (List.ofFn fun s => ((List.ofFn (sizes s))[d.val]?).getD 0) =
      List.ofFn fun s => sizes s d := fun d => by simp
  unfold allToAllSingle
  simp only [hout, hexpected, hsum, implies_true, true_and, Option.ite_none_right_eq_some,
    Option.some.injEq, and_self]
  exact and_congr_right fun _ => ⟨fun heq d => (congrFun heq d).symm, fun heq => (funext heq).symm⟩

theorem allToAllSingle_blocks {chunk : Fin n → Fin n → List α} {sizes : Fin n → Fin n → ℕ}
    (h : ∀ s d, (chunk s d).length = sizes s d) :
    allToAllSingle (fun s => concat (chunk s)) (fun s => List.ofFn (sizes s))
        (fun d => List.ofFn fun s => sizes s d) =
      some fun d => concat fun s => chunk s d :=
  (allToAllSingle_eq_some_iff h).2 ⟨fun _ => rfl, fun _ => rfl⟩

/-- Blocks of equal lengths are equal where they are equal as a whole. -/
theorem concat_inj {chunk chunk' : Fin n → List α} (hlength : ∀ s, (chunk s).length = (chunk' s).length)
    (h : concat chunk = concat chunk') (s : Fin n) : chunk s = chunk' s := by
  have hsizes : (List.ofFn chunk).map List.length = (List.ofFn chunk').map List.length := by
    rw [List.map_ofFn, List.map_ofFn]
    exact congrArg List.ofFn (funext hlength)
  have hblocks := congrArg (((List.ofFn chunk).map List.length).splitLengths ·) h
  simp only [concat] at hblocks
  rw [splitLengths_map_length, hsizes, splitLengths_map_length] at hblocks
  exact congrFun (List.ofFn_injective hblocks) s

theorem exchangeSplits_flat (m : Fin n → Fin n → Fin L → β) :
    exchangeSplits (fun s => flat (m s)) = some fun d => flat fun s => m s d := by
  have hsplit : (fun r : Fin n => List.replicate n ((flat (m r)).length / n)) =
      fun _ => List.ofFn fun _ : Fin n => L := by
    funext r
    rw [length_flat, Nat.mul_div_cancel_left _ r.pos, List.ofFn_const]
  have hlength : ∀ s d : Fin n, (List.ofFn (m s d)).length = L := fun s d => List.length_ofFn
  rw [exchangeSplits, hsplit]
  exact allToAllSingle_blocks hlength

end Exchange
