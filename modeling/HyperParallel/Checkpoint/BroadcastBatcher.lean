import HyperParallel.Checkpoint.LoadPlan
import HyperParallel.Lib.Collectives
import Mathlib.Data.List.Lex
import Mathlib.Data.Prod.Lex
import Mathlib.Data.String.Basic

/-!
# The broadcasts of a load

`BroadcastBatcher` of `broadcast.py` and the part of `FileSystemReader.execute_read` that hands it
the shared shards.

* `add`, `flush`, `issued`: the broadcasts that one rank starts, in order;
* `sharedShards`: the shards of a rank that have a source, in the order of their names;
* `LoadWorld.InStep`: what has to hold of the broadcasts of all ranks.
-/

namespace HyperParallel.Checkpoint

/-! ### The batcher -/

/-- A shard handed to the batcher: its buffer's elements and dtype, and who sends it. -/
structure SharedShard where
  key : ShardKey
  source : BroadcastSource
  numel : ℕ
  dtype : String
  deriving DecidableEq, Repr

/-- One `dist.broadcast`: the shards in its buffer with their element counts, in packing order. -/
structure Broadcast where
  source : BroadcastSource
  dtype : String
  buffers : List (ShardKey × ℕ)
  deriving DecidableEq, Repr

/-- The element count of a broadcast. -/
def Broadcast.numel (b : Broadcast) : ℕ := (b.buffers.map Prod.snd).sum

/-- An entry of `_batches`, with its `_pending_bytes`: a batch is never empty. -/
structure Batch where
  first : SharedShard
  rest : List SharedShard
  pendingBytes : ℕ
  deriving DecidableEq, Repr

namespace Batch

/-- The buffers of a batch. -/
def shards (b : Batch) : List SharedShard := b.first :: b.rest

/-- The shard has the key of the batch: group, source and dtype. -/
def Accepts (b : Batch) (shard : SharedShard) : Prop :=
  b.first.source = shard.source ∧ b.first.dtype = shard.dtype

instance (b : Batch) (shard : SharedShard) : Decidable (b.Accepts shard) :=
  inferInstanceAs (Decidable (_ ∧ _))

/-- `_send`: the broadcast of a batch, the buffers packed in the order in which they came. -/
def send (b : Batch) : Broadcast :=
  ⟨b.first.source, b.first.dtype, b.shards.map fun shard => (shard.key, shard.numel)⟩

/-- A batch of one shard. -/
def single (shard : SharedShard) (nbytes : ℕ) : Batch := ⟨shard, [], nbytes⟩

/-- A shard joins the batch. -/
def push (b : Batch) (shard : SharedShard) (nbytes : ℕ) : Batch :=
  ⟨b.first, b.rest ++ [shard], b.pendingBytes + nbytes⟩

end Batch

section Batcher

variable (batchBytes : ℕ) (elementSize : String → ℕ)

/-- `get_tensor_storage_size` of a shard's buffer. -/
def SharedShard.nbytes (shard : SharedShard) : ℕ := shard.numel * elementSize shard.dtype

/-- `add`: the broadcast it starts, if any, and `_batches` afterwards, in insertion order. -/
def add (batches : List Batch) (shard : SharedShard) : Option Broadcast × List Batch :=
  let nbytes := shard.nbytes elementSize
  if batchBytes ≤ nbytes then (some (Batch.single shard nbytes).send, batches)
  else
    match batches.span fun b => ¬ b.Accepts shard with
    | (_, []) => (none, batches ++ [.single shard nbytes])
    | (before, batch :: after) =>
        if batchBytes < batch.pendingBytes + nbytes then
          (some batch.send, before ++ after ++ [.single shard nbytes])
        else (none, before ++ batch.push shard nbytes :: after)

/-- `flush`. -/
def flush (batches : List Batch) : List Broadcast := batches.map Batch.send

/-- The shards one after the other, then the flush. -/
def issued : List Batch → List SharedShard → List Broadcast
  | batches, [] => flush batches
  | batches, shard :: shards =>
      let (sent, batches) := add batchBytes elementSize batches shard
      sent.toList ++ issued batches shards

end Batcher

/-! ### The broadcasts of all ranks -/

namespace LoadWorld

variable {α : Type*} (w : LoadWorld α) (dtype : ℕ → String → String)

/-- The element count of the buffer of a shard. -/
def numel (rank : ℕ) (key : ShardKey) : ℕ :=
  match w.chunk? rank key with
  | some chunk => chunk.sizes.prod
  | none => 0

/-- `shared` of `execute_read`, with the buffers; no two indices of `by_shard` tie on name and
offset. -/
def sharedShards (rank : ℕ) : List SharedShard :=
  ((((w.finalPlan rank).map fun item => item.destIndex.key).dedup.insertionSort fun a b =>
    toLex a ≤ toLex b)).filterMap fun key => (w.source? rank key).map fun source =>
      ⟨key, source, w.numel rank key, dtype rank key.1⟩

/-- The broadcasts a rank starts in `execute_read`. -/
def broadcasts (batchBytes : ℕ) (elementSize : String → ℕ) (rank : ℕ) : List Broadcast :=
  issued batchBytes elementSize [] (w.sharedShards dtype rank)

/-- The broadcasts of the ranks of the load. -/
def allBroadcasts (batchBytes : ℕ) (elementSize : String → ℕ) (rank : Fin w.plans.length) :
    List Broadcast :=
  w.broadcasts dtype batchBytes elementSize rank

/-- The rank is a member of the broadcast's group. -/
def TakesPart (b : Broadcast) (rank : Fin w.plans.length) : Prop :=
  (rank : ℕ) ∈ b.source.groupRanks

/-- The broadcasts of all ranks fit together: the members of a group start the same ones in the
same order, all ranks start theirs along one order, and ranks that keep at most `window` of them
in flight never wait on one another for good. -/
structure InStep (batchBytes : ℕ) (elementSize : String → ℕ) : Prop where
  sameSequence : ∀ group, ∀ rank < w.plans.length, ∀ rank' < w.plans.length, rank ∈ group →
    rank' ∈ group →
      (w.broadcasts dtype batchBytes elementSize rank).filter (·.source.groupRanks = group) =
        (w.broadcasts dtype batchBytes elementSize rank').filter (·.source.groupRanks = group)
  oneOrder : ∃ order : List Broadcast, order.Nodup ∧ ∀ rank < w.plans.length,
    (w.broadcasts dtype batchBytes elementSize rank).Sublist order
  neverStuck : ∀ window, 0 < window → ∀ s, Relation.ReflTransGen
      (Collectives.Step (w.allBroadcasts dtype batchBytes elementSize) w.TakesPart window) .start s →
    Collectives.Done (w.allBroadcasts dtype batchBytes elementSize) s ∨
      ∃ s', Collectives.Step (w.allBroadcasts dtype batchBytes elementSize) w.TakesPart window s s'

/-- Ranks that read the same name at the same offsets, with no rank's read of it marked as not
broadcastable, have buffers of the same element count and dtype. -/
def SameBuffers : Prop :=
  ∀ key, (∀ plan ∈ w.plans, ∀ item ∈ plan, item.Names key → item.broadcastable = true) →
    ∀ rank < w.plans.length, ∀ rank' < w.plans.length,
      (∃ item ∈ w.plans.getD rank [], item.Names key) →
      (∃ item ∈ w.plans.getD rank' [], item.Names key) →
      w.numel rank key = w.numel rank' key ∧ dtype rank key.1 = dtype rank' key.1

end LoadWorld

end HyperParallel.Checkpoint
