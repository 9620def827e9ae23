import HyperParallel.Lib.Buckets
import Mathlib.Algebra.BigOperators.Group.List.Basic
import Mathlib.Algebra.Ring.Nat
import Mathlib.Tactic.Common

/-!
# The pinned memory pool

`core/activation_memory/pinned_memory_pool.py`: a bounded pool of host buffers that threads acquire
and release, the latter optionally after an event of a stream.

* `PoolState`: the tables of the pool, the acquires in progress, the views handed out and the
  events that have completed;
* `PoolState.step`: one locked section, or one piece of work between two of them, of any thread;
  allocation, events and checkouts may fail at every point;
* `PoolState.Contract`: what the pool relies on; `PoolState.Sound`: what it promises.

Blocks, storage identities and events are numbers.
-/

namespace HyperParallel.ActivationMemory

/-- `_IN_USE`, `_AVAILABLE` and `_PENDING`. -/
inductive BlockState
  | inUse
  | available
  | pending
  deriving DecidableEq, Repr

/-- `_Block`. -/
structure Block where
  capacity : ℕ
  state : BlockState
  event : Option ℕ := none
  storageKey : Option ℕ := none
  deriving DecidableEq, Repr

/-- A view that `acquire` has returned, with the size that was asked for. -/
structure View where
  block : ℕ
  key : ℕ
  requested : ℕ
  length : ℕ
  deriving DecidableEq, Repr

/-- An `acquire` that does not hold the lock, by what it does next. -/
inductive Acquiring
  /-- the capacity is reserved, the buffer is being allocated -/
  | allocating (size : ℕ)
  /-- the buffer is allocated and has to be checked out -/
  | created (block size : ℕ)
  /-- the reservation has to be given back -/
  | unreserving (alignedSize : ℕ)
  /-- waiting for the event of a pending block -/
  | waiting (block size : ℕ) (event : Option ℕ)
  /-- waiting failed, the block has to be filed as pending again -/
  | restorePending (block : ℕ) (event : Option ℕ)
  /-- waiting is over, the block has to be checked out -/
  | synced (block size : ℕ)
  /-- the checkout failed, the block has to be filed as available -/
  | restoreAvailable (block : ℕ)
  deriving DecidableEq, Repr

/-- `PinnedMemoryPool`, with what the threads and the streams are doing.  `lastEvent` is the event
of the last release of a block. -/
structure PoolState where
  maxHostBytes : ℕ
  alignLimit : ℕ
  available : List (ℕ × List ℕ) := []
  pending : List (ℕ × List ℕ) := []
  table : ℕ → Option ℕ := fun _ => none
  totalAllocated : ℕ := 0
  blocks : ℕ → Block := fun _ => ⟨0, .inUse, none, none⟩
  nextBlock : ℕ := 0
  acquiring : List Acquiring := []
  views : List View := []
  completed : ℕ → Bool := fun _ => false
  lastEvent : ℕ → Option ℕ := fun _ => none

/-- `int.bit_length`. -/
def bitLength (n : ℕ) : ℕ := if n = 0 then 0 else n.log2 + 1

/-- `_MIN_BUCKET_BYTES`. -/
def minBucketBytes : ℕ := 1024

/-- `_aligned_size`. -/
def alignedSize (alignLimit size : ℕ) : ℕ :=
  if alignLimit < size then size
  else
    let minimum := max size minBucketBytes
    let power := 1 <<< bitLength (minimum - 1)
    let aligned := min power alignLimit
    max aligned size

/-- What a thread does next, and what the world answers. -/
inductive PoolAction
  /-- the first locked section of `acquire`; `query` answers `event.query()`, `none` where it
  raises, and `key` is the storage identity of the view, `none` where the checkout raises -/
  | acquire (size : ℕ) (query : ℕ → Option Bool) (key : Option ℕ)
  /-- `alloc_tensor_buffer` returns or raises -/
  | allocate (thread : ℕ) (ok : Bool)
  /-- `event.synchronize()` returns or raises -/
  | synchronize (thread : ℕ) (ok : Bool)
  /-- the locked section that checks the block out -/
  | checkout (thread : ℕ) (key : Option ℕ)
  /-- the locked section that rolls a failed acquire back -/
  | rollBack (thread : ℕ)
  /-- `release` -/
  | release (view : View) (event : Option ℕ)
  /-- an event completes -/
  | complete (event : ℕ)

namespace PoolState

variable (s : PoolState)

/-- A block with some of its fields changed. -/
def setBlock (block : ℕ) (f : Block → Block) : PoolState :=
  { s with blocks := Function.update s.blocks block (f (s.blocks block)) }

/-- `_available[capacity].append(block)`, the block marked as available. -/
def fileAvailable (block : ℕ) : PoolState :=
  let capacity := (s.blocks block).capacity
  { s.setBlock block fun b => { b with state := .available } with
    available := Buckets.put s.available capacity (Buckets.get s.available capacity ++ [block]) }

/-- The answer of `query` for the event of a block. -/
def answer (query : ℕ → Option Bool) (block : ℕ) : Option Bool :=
  (s.blocks block).event.bind query

/-- The loop over one bucket in `_reclaim_completed_locked`: the blocks that are still pending, and
whether the loop ran to its end. -/
def reclaimBucket (query : ℕ → Option Bool) : PoolState → List ℕ → PoolState × Option (List ℕ)
  | s, [] => (s, some [])
  | s, block :: bucket =>
      match s.answer query block with
      | none => (s, none)
      | some true =>
          reclaimBucket query
            ((s.setBlock block fun b => { b with event := none }).fileAvailable block) bucket
      | some false =>
          let r := reclaimBucket query s bucket
          (r.1, r.2.map (block :: ·))

/-- `_reclaim_completed_locked`: the state it leaves, and whether it returned.  The bucket of a
capacity is written back only when its loop ran to its end. -/
def reclaimCompleted (query : ℕ → Option Bool) (minimumCapacity : ℕ) :
    PoolState → List ℕ → PoolState × Bool
  | s, [] => (s, true)
  | s, capacity :: capacities =>
      if capacity < minimumCapacity then reclaimCompleted query minimumCapacity s capacities
      else
        match reclaimBucket query s (Buckets.get s.pending capacity) with
        | (s', none) => (s', false)
        | (s', some stillPending) =>
            reclaimCompleted query minimumCapacity
              { s' with pending := Buckets.put s'.pending capacity stillPending } capacities

/-- `_find_available_locked`. -/
def findAvailable (minimumCapacity : ℕ) : Option (ℕ × PoolState) := do
  let capacity ← Buckets.firstAtLeast s.available minimumCapacity
  let bucket := Buckets.get s.available capacity
  let block ← bucket.getLast?
  return (block, { s.setBlock block fun b => { b with state := .inUse } with
    available := Buckets.put s.available capacity bucket.dropLast })

/-- `_find_pending_locked`. -/
def findPending (minimumCapacity : ℕ) : Option (ℕ × PoolState) := do
  let capacity ← Buckets.firstAtLeast s.pending minimumCapacity
  let bucket := Buckets.get s.pending capacity
  let block ← bucket.head?
  return (block, { s.setBlock block fun b => { b with state := .inUse } with
    pending := Buckets.put s.pending capacity bucket.tail })

/-- The table once the old key of the block is deleted. -/
def withoutOldKey (block key : ℕ) : ℕ → Option ℕ :=
  match (s.blocks block).storageKey with
  | some oldKey =>
      if oldKey ≠ key ∧ s.table oldKey = some block then Function.update s.table oldKey none
      else s.table
  | none => s.table

/-- The pool once a view of the block is registered under a key. -/
def registered (block key : ℕ) : PoolState :=
  { s.setBlock block fun b => { b with storageKey := some key } with
    table := Function.update (s.withoutOldKey block key) key (some block) }

/-- `_register_view_locked`: `none` where it raises. -/
def registerView (block key : ℕ) : Option PoolState :=
  match s.table key with
  | some owner => if owner = block then some (s.registered block key) else none
  | none => some (s.registered block key)

/-- The size of `block.buffer`, or of `block.buffer[:size]`. -/
def viewLength (capacity size : ℕ) : ℕ := if size = capacity then capacity else min size capacity

/-- `_checkout_locked`, the view handed out: `none` where it raises. -/
def checkout (block size : ℕ) (key : Option ℕ) : Option PoolState :=
  key.bind fun key => (s.registerView block key).map fun s' =>
    { s' with views := s.views ++ [⟨block, key, size, viewLength (s.blocks block).capacity size⟩] }

/-- A thread goes on to its next piece. -/
def goOn (thread : ℕ) (next : List Acquiring) : PoolState :=
  { s with acquiring := next ++ s.acquiring.eraseIdx thread }

/-- The first locked section of `acquire`. -/
def acquire (size : ℕ) (query : ℕ → Option Bool) (key : Option ℕ) : PoolState :=
  if size = 0 then s
  else
    let aligned := alignedSize s.alignLimit size
    match s.reclaimCompleted query aligned (s.pending.map Prod.fst) with
    | (s', false) => s'
    | (s', true) =>
        match s'.findAvailable aligned with
        | some (block, s'') =>
            match s''.checkout block size key with
            | some s''' => s'''
            | none => s''.fileAvailable block
        | none =>
            if s'.totalAllocated + aligned ≤ s'.maxHostBytes then
              { s' with
                totalAllocated := s'.totalAllocated + aligned
                acquiring := .allocating size :: s'.acquiring }
            else
              match s'.findPending aligned with
              | none => s'
              | some (block, s'') =>
                  { s'' with
                    acquiring := .waiting block size (s''.blocks block).event :: s''.acquiring }

/-- The block an acquire in progress holds is filed back. -/
def rollBack (thread : ℕ) : Acquiring → PoolState
  | .unreserving alignedSize =>
      { s with totalAllocated := s.totalAllocated - alignedSize }.goOn thread []
  | .restorePending block event =>
      let s' := s.setBlock block fun b => { b with state := .pending, event := event }
      let capacity := (s.blocks block).capacity
      { s' with
        pending := Buckets.put s'.pending capacity (block :: Buckets.get s'.pending capacity)
      }.goOn thread []
  | .restoreAvailable block => (s.fileAvailable block).goOn thread []
  | _ => s

/-- `release`. -/
def release (view : View) (event : Option ℕ) : PoolState :=
  match s.table view.key with
  | none => s
  | some block =>
      if (s.blocks block).state ≠ .inUse then s
      else
        let s' := { s with
          views := s.views.erase view
          lastEvent := Function.update s.lastEvent block event }
        match event with
        | none => s'.fileAvailable block
        | some _ =>
            let capacity := (s.blocks block).capacity
            { s'.setBlock block fun b => { b with state := .pending, event := event } with
              pending := Buckets.put s'.pending capacity
                (Buckets.get s'.pending capacity ++ [block]) }

/-- One step.  An action that its thread cannot take changes nothing. -/
def step : PoolAction → PoolState
  | .acquire size query key => s.acquire size query key
  | .allocate thread ok =>
      match s.acquiring[thread]? with
      | some (.allocating size) =>
          let aligned := alignedSize s.alignLimit size
          if ok then
            { s with
              blocks := Function.update s.blocks s.nextBlock ⟨aligned, .inUse, none, none⟩
              nextBlock := s.nextBlock + 1 }.goOn thread [.created s.nextBlock size]
          else s.goOn thread [.unreserving aligned]
      | _ => s
  | .synchronize thread ok =>
      match s.acquiring[thread]? with
      | some (.waiting block size event) =>
          if ok then
            if event.elim false s.completed then
              (s.setBlock block fun b => { b with event := none }).goOn thread [.synced block size]
            else s
          else s.goOn thread [.restorePending block event]
      | _ => s
  | .checkout thread key =>
      match s.acquiring[thread]? with
      | some (.created block size) =>
          match s.checkout block size key with
          | some s' => s'.goOn thread []
          | none => s.goOn thread [.unreserving (alignedSize s.alignLimit size)]
      | some (.synced block size) =>
          match s.checkout block size key with
          | some s' => s'.goOn thread []
          | none => s.goOn thread [.restoreAvailable block]
      | _ => s
  | .rollBack thread =>
      match s.acquiring[thread]? with
      | some t => s.rollBack thread t
      | none => s
  | .release view event => s.release view event
  | .complete event => { s with completed := Function.update s.completed event true }

/-- A run. -/
def run (s : PoolState) (actions : List PoolAction) : PoolState := actions.foldl step s

/-! ### What is promised, and on what terms -/

/-- Where a block is. -/
inductive Place
  | handedOut (view : View)
  | available (capacity : ℕ)
  | pending (capacity : ℕ)
  | acquiring (thread : Acquiring)
  deriving DecidableEq, Repr

end PoolState

/-- The block an acquire in progress holds. -/
def Acquiring.block? : Acquiring → Option ℕ
  | .allocating _ => none
  | .created block _ => some block
  | .unreserving _ => none
  | .waiting block _ _ => some block
  | .restorePending block _ => some block
  | .synced block _ => some block
  | .restoreAvailable block => some block

/-- The capacity an acquire in progress has reserved without a block. -/
def Acquiring.reserved (alignLimit : ℕ) : Acquiring → ℕ
  | .allocating size => alignedSize alignLimit size
  | .unreserving alignedSize => alignedSize
  | _ => 0

namespace PoolState

variable (s : PoolState)

/-- Every block with the places it is in. -/
def located : List (ℕ × Place) :=
  s.views.map (fun view => (view.block, .handedOut view)) ++
    (Buckets.items s.available).map (fun x => (x.2, .available x.1)) ++
    (Buckets.items s.pending).map (fun x => (x.2, .pending x.1)) ++
    s.acquiring.filterMap fun thread => thread.block?.map (·, .acquiring thread)

/-- The event of the last release of the block has completed. -/
def Settled (block : ℕ) : Prop := ∀ event ∈ s.lastEvent block, s.completed event = true

instance (block : ℕ) : Decidable (s.Settled block) :=
  inferInstanceAs (Decidable (∀ event ∈ s.lastEvent block, _))

/-- What the pool promises. -/
structure Sound : Prop where
  /-- no block is in two places -/
  once : (s.located.map Prod.fst).Nodup
  /-- no block that was ever handed out is lost -/
  kept : ∀ block, (s.blocks block).storageKey ≠ none → block ∈ s.located.map Prod.fst
  /-- no two views share a block -/
  unshared : (s.views.map View.block).Nodup
  /-- a view has the size that was asked for, inside its block -/
  sized : ∀ view ∈ s.views, view.length = view.requested ∧
    view.length ≤ (s.blocks view.block).capacity
  /-- the counter is the capacity of the blocks and of the reservations in progress -/
  counted : s.totalAllocated = (s.located.map fun x => (s.blocks x.1).capacity).sum +
    (s.acquiring.map (Acquiring.reserved s.alignLimit)).sum
  bounded : s.totalAllocated ≤ s.maxHostBytes
  /-- a block is handed out again only after the event of its release -/
  settled : ∀ view ∈ s.views, s.Settled view.block

/-- What the pool relies on: an event that answers `true` has completed, and only a live view is
released, unless the call raises anyway. -/
def Contract : PoolAction → Prop
  | .acquire _ query _ => ∀ event, query event = some true → s.completed event = true
  | .release view _ => view ∈ s.views ∨
      ∀ block ∈ s.table view.key, (s.blocks block).state ≠ .inUse
  | _ => True

/-- Every step of a run meets the contract. -/
def ContractRun (s : PoolState) : List PoolAction → Prop
  | [] => True
  | action :: actions => s.Contract action ∧ ContractRun (s.step action) actions

/-- What the events of a bucket of pending blocks answer. -/
def answers (query : ℕ → Option Bool) (capacity : ℕ) : List (Option Bool) :=
  (Buckets.get s.pending capacity).map (s.answer query)

/-- The first capacity of a scan whose bucket has an event that raises. -/
def firstRaising (query : ℕ → Option Bool) (minimumCapacity : ℕ) (capacities : List ℕ) :
    Option ℕ :=
  (capacities.filter fun capacity => decide (minimumCapacity ≤ capacity)).find? fun capacity =>
    (s.answers query capacity).any Option.isNone

/-- A scan that raises does so before it has found a completed event in the same bucket. -/
def ScansWhole : PoolAction → Prop
  | .acquire size query _ =>
      ∀ capacity ∈ s.firstRaising query (alignedSize s.alignLimit size) (s.pending.map Prod.fst),
        some true ∉ (s.answers query capacity).takeWhile Option.isSome
  | _ => True

instance : (action : PoolAction) → Decidable (s.ScansWhole action)
  | .acquire size query _ => inferInstanceAs (Decidable (∀ capacity ∈ s.firstRaising query
      (alignedSize s.alignLimit size) (s.pending.map Prod.fst), _))
  | .allocate _ _ | .synchronize _ _ | .checkout _ _ | .rollBack _ | .release _ _ | .complete _ =>
      instDecidableTrue

/-- Every step of a run meets the contract and scans its buckets whole. -/
def CleanRun (s : PoolState) : List PoolAction → Prop
  | [] => True
  | action :: actions => s.Contract action ∧ s.ScansWhole action ∧ CleanRun (s.step action) actions

end PoolState

end HyperParallel.ActivationMemory
