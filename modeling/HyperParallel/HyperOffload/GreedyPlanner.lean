import HyperParallel.Lib.Dict
import HyperParallel.Lib.KeyedRun
import Mathlib.Algebra.Ring.Int.Defs
import Mathlib.Data.List.Sort

/-!
# The greedy residency planner

`auto_parallel/hyper_offload`: `planning/greedy.py`, and the replay of its schedule.

* `ActivationTrace`: what the warmup records; `op_id` is the index of the op;
* `GreedyResidencyPlanner.build`: candidates, greedy selection, actions;
* `Slot`: what `runtime/residency.py` holds of a storage, with the number of its writes as contents;
* `replayEvents`: the pre-actions, accesses and post-actions of `execution/replay/executor.py`;
* `Served`, `Fresh`: what an event asks for, and copies that find no stale host buffer.

The events of the streams and the pool of host buffers are left out.
-/

namespace HyperParallel.HyperOffload

/-! ### The trace -/

inductive AccessKind
  | read
  | write
  deriving DecidableEq, Repr

structure StorageAccess where
  opId : ℕ
  storageId : ℕ
  kind : AccessKind
  deriving DecidableEq, Repr

/-- The recorder appends accesses with the index of the running op. -/
structure ActivationTrace where
  ops : List (List StorageAccess)
  storageSizes : ℕ → Option ℕ
  retainedSids : List ℕ
  memoryLimitBytes : Option ℤ
  opId_eq : ∀ (k : ℕ) (op : List StorageAccess), ops[k]? = some op → ∀ access ∈ op, access.opId = k

/-! ### The schedule -/

inductive ResidencyActionType
  | copyD2h
  | copyH2d
  | releaseDevice
  | releaseHost
  deriving DecidableEq, Repr

structure ResidencyAction where
  opId : ℕ
  storageId : ℕ
  kind : ResidencyActionType
  deriving DecidableEq, Repr

/-- The actions in the order in which they were added. -/
structure ResidencySchedule where
  pre : List ResidencyAction
  post : List ResidencyAction

def ResidencySchedule.preActions (schedule : ResidencySchedule) (opId : ℕ) :
    List ResidencyAction :=
  schedule.pre.filter (·.opId = opId)

def ResidencySchedule.postActions (schedule : ResidencySchedule) (opId : ℕ) :
    List ResidencyAction :=
  schedule.post.filter (·.opId = opId)

/-! ### The planner -/

/-- `_EvictionCandidate`. -/
structure EvictionCandidate where
  storageId : ℕ
  sizeBytes : ℕ
  copyStart : StorageAccess
  releaseStart : StorageAccess
  fin : StorageAccess

def EvictionCandidate.distance (c : EvictionCandidate) : ℤ := c.fin.opId - c.releaseStart.opId

def EvictionCandidate.startInterior (c : EvictionCandidate) : ℤ := c.releaseStart.opId + 1

def EvictionCandidate.endInterior (c : EvictionCandidate) : ℤ := c.fin.opId - 1

/-- `_earliest_safe_copy_start`, on accesses that are not empty. -/
def earliestSafeCopyStart (accesses : List StorageAccess) (releaseIndex : ℕ) :
    Option StorageAccess :=
  match (accesses.take (releaseIndex + 1)).reverse.find? (·.kind = .write) with
  | some access => some access
  | none => accesses.head?

/-- The loop of `_process_storage_accesses`. -/
def candidacies (sid sizeBytes : ℕ) (ordered : List StorageAccess) : List EvictionCandidate :=
  (List.range (ordered.length - 1)).filterMap fun releaseIndex => do
    let releaseStart ← ordered[releaseIndex]?
    let fin ← ordered[releaseIndex + 1]?
    let copyStart ← earliestSafeCopyStart ordered releaseIndex
    let candidate : EvictionCandidate := ⟨sid, sizeBytes, copyStart, releaseStart, fin⟩
    if candidate.startInterior ≤ candidate.endInterior then some candidate else none

/-- `accesses.sort(key=op_id)`, which is stable. -/
def sortedAccesses (accesses : List StorageAccess) : List StorageAccess :=
  accesses.insertionSort fun a b => a.opId ≤ b.opId

namespace ActivationTrace

variable (trace : ActivationTrace)

/-- `_group_accesses_by_storage`, in the order of the keys. -/
def accessesByStorage : List (ℕ × List StorageAccess) :=
  (Dict.firstKeys StorageAccess.storageId trace.ops.flatten).map fun sid =>
    (sid, trace.ops.flatten.filter (·.storageId = sid))

/-- The storages with a size, their sizes and their ordered accesses. -/
def footprints : List (ℕ × ℕ × List StorageAccess) :=
  trace.accessesByStorage.filterMap fun entry =>
    (trace.storageSizes entry.1).map fun sizeBytes =>
      (entry.1, sizeBytes, sortedAccesses entry.2)

/-- `resident_bytes`. -/
def residentBytes : List ℤ :=
  let maxOpId := (trace.ops.flatten.map StorageAccess.opId).max?.getD 0
  (List.range (maxOpId + 1)).map fun opId =>
    ((trace.footprints.filter fun f =>
      decide (∃ a ∈ f.2.2.head?, ∃ b ∈ f.2.2.getLast?, a.opId ≤ opId ∧ opId ≤ b.opId)).map
        fun f => (f.2.1 : ℤ)).sum

/-- `reverse=True` on the key of a candidate. -/
def candidateBefore (a b : EvictionCandidate) : Bool :=
  decide (b.distance < a.distance) || (a.distance == b.distance &&
    (decide (b.sizeBytes < a.sizeBytes) || (a.sizeBytes == b.sizeBytes &&
      decide (a.releaseStart.opId ≤ b.releaseStart.opId))))

def candidates : List EvictionCandidate :=
  (trace.footprints.flatMap fun f => candidacies f.1 f.2.1 f.2.2).mergeSort candidateBefore

/-- `releasable`: the storages with their last access. -/
def releasable : List (ℕ × StorageAccess) :=
  trace.footprints.filterMap fun f => f.2.2.getLast?.map fun access => (f.1, access)

end ActivationTrace

/-- The ops inside of a gap. -/
def EvictionCandidate.affects (c : EvictionCandidate) (opId : ℕ) : Bool :=
  decide (c.startInterior ≤ opId) && decide (opId ≤ c.endInterior)

/-- `_greedy_select`. -/
def greedySelect (limit : ℤ) : List EvictionCandidate → List ℤ → List EvictionCandidate
  | [], _ => []
  | candidate :: rest, residentBytes =>
    -- the budget is met
    if residentBytes.max?.getD 0 ≤ limit then []
    -- no op of the gap is over it
    else if ¬residentBytes.zipIdx.any fun r => candidate.affects r.2 && decide (limit < r.1) then
      greedySelect limit rest residentBytes
    else
      candidate :: greedySelect limit rest (residentBytes.zipIdx.map fun r =>
        if candidate.affects r.2 then r.1 - candidate.sizeBytes else r.1)

/-- `_add_eviction_actions`. -/
def EvictionCandidate.postActions (c : EvictionCandidate) : List ResidencyAction :=
  [⟨c.copyStart.opId, c.copyStart.storageId, .copyD2h⟩,
    ⟨c.releaseStart.opId, c.releaseStart.storageId, .releaseDevice⟩]

def EvictionCandidate.preAction (c : EvictionCandidate) : ResidencyAction :=
  ⟨c.fin.opId, c.fin.storageId, .copyH2d⟩

/-- `_emit_release_actions`. -/
def releaseActions (selected : List EvictionCandidate) (retainedSids : List ℕ)
    (releasable : List (ℕ × StorageAccess)) : List ResidencyAction :=
  releasable.flatMap fun entry =>
    if entry.1 ∈ retainedSids then []
    else ⟨entry.2.opId, entry.1, .releaseDevice⟩ ::
      if entry.1 ∈ selected.map EvictionCandidate.storageId then
        [⟨entry.2.opId, entry.1, .releaseHost⟩]
      else []

/-- The actions for some of the candidates. -/
def scheduleOf (selected : List EvictionCandidate) (trace : ActivationTrace) : ResidencySchedule where
  pre := selected.map EvictionCandidate.preAction
  post := selected.flatMap EvictionCandidate.postActions ++
    releaseActions selected trace.retainedSids trace.releasable

/-- `GreedyResidencyPlanner.build`. -/
def GreedyResidencyPlanner.build (trace : ActivationTrace) : ResidencySchedule :=
  match trace.memoryLimitBytes with
  | none => ⟨[], []⟩
  | some limit =>
    if trace.ops = [] then ⟨[], []⟩
    else scheduleOf (greedySelect limit trace.candidates trace.residentBytes) trace

/-! ### The residency manager -/

/-- `PhysicalBuffer`, with the contents of the sides that are there. -/
structure PhysicalBuffer where
  deviceBuffer : Option ℕ
  hostBuffer : Option ℕ
  deriving DecidableEq, Repr

/-- A storage: its entry, whether it was accessed, and the number of its writes. -/
structure Slot where
  buffer : Option PhysicalBuffer
  seen : Bool
  latest : ℕ
  deriving DecidableEq, Repr

namespace Slot

def init : Slot := ⟨none, false, 0⟩

/-- `copy_d2h`, `none` where it raises. -/
def copyD2h (s : Slot) : Option Slot :=
  match s.buffer with
  | none => none
  | some b =>
    if b.hostBuffer ≠ none then some s
    else if b.deviceBuffer = none then none
    else some { s with buffer := some { b with hostBuffer := b.deviceBuffer } }

/-- `copy_h2d`, `none` where it raises. -/
def copyH2d (s : Slot) : Option Slot :=
  match s.buffer with
  | none => none
  | some b =>
    if b.deviceBuffer ≠ none then some s
    else if b.hostBuffer = none then none
    else some { s with buffer := some { b with deviceBuffer := b.hostBuffer } }

/-- `release_device`. -/
def releaseDevice (s : Slot) : Slot :=
  match s.buffer with
  | none => s
  | some b =>
    if b.deviceBuffer = none then s
    else if b.hostBuffer = none then { s with buffer := none }
    else { s with buffer := some { b with deviceBuffer := none } }

/-- `release_host`. -/
def releaseHost (s : Slot) : Slot :=
  match s.buffer with
  | none => s
  | some b =>
    if b.hostBuffer = none then s
    else if b.deviceBuffer = none then { s with buffer := none }
    else { s with buffer := some { b with hostBuffer := none } }

/-- The first access of a storage creates its device buffer. -/
def bind (s : Slot) : Slot :=
  if s.seen then s else ⟨some ⟨some s.latest, none⟩, true, s.latest⟩

/-- What the device holds. -/
def device (s : Slot) : Option ℕ := s.buffer.bind PhysicalBuffer.deviceBuffer

def host (s : Slot) : Option ℕ := s.buffer.bind PhysicalBuffer.hostBuffer

/-- A write changes the contents of the device buffer. -/
def access (s : Slot) : AccessKind → Slot
  | .read => s.bind
  | .write =>
    { s.bind with
      buffer := s.bind.buffer.map fun b =>
        { b with deviceBuffer := b.deviceBuffer.map fun _ => s.latest + 1 }
      latest := s.latest + 1 }

end Slot

/-! ### The replay -/

inductive Event
  | action (action : ResidencyAction)
  | access (access : StorageAccess)

def Event.storageId : Event → ℕ
  | .action a => a.storageId
  | .access a => a.storageId

/-- What `on_op_begin`, the op and `on_op_end` do, op after op. -/
def replayEvents (trace : ActivationTrace) (schedule : ResidencySchedule) : List Event :=
  (List.range trace.ops.length).flatMap fun opId =>
    (schedule.preActions opId).map .action ++ (trace.ops[opId]?.getD []).map .access ++
      (schedule.postActions opId).map .action

/-- An event on its storage; a replay stops where an action raises. -/
def Slot.step (s : Slot) : Event → Slot
  | .action a =>
    match a.kind with
    | .copyD2h => s.copyD2h.getD s
    | .copyH2d => s.copyH2d.getD s
    | .releaseDevice => s.releaseDevice
    | .releaseHost => s.releaseHost
  | .access a => s.access a.kind

/-- The action does not raise; the access finds the contents of the latest write on the device. -/
def Slot.Served (s : Slot) : Event → Prop
  | .action a =>
    match a.kind with
    | .copyD2h => s.copyD2h ≠ none
    | .copyH2d => s.copyH2d ≠ none
    | _ => True
  | .access _ => s.bind.device = some s.latest

/-- A copy to the host does not find a buffer with other contents there. -/
def Slot.Fresh (s : Slot) : Event → Prop
  | .action a => a.kind = .copyD2h → ∀ h ∈ s.host, ∀ d ∈ s.device, h = d
  | .access _ => True

instance (s : Slot) : (e : Event) → Decidable (s.Served e)
  | .action ⟨_, _, .copyD2h⟩ => inferInstanceAs (Decidable (s.copyD2h ≠ none))
  | .action ⟨_, _, .copyH2d⟩ => inferInstanceAs (Decidable (s.copyH2d ≠ none))
  | .action ⟨_, _, .releaseDevice⟩ => .isTrue trivial
  | .action ⟨_, _, .releaseHost⟩ => .isTrue trivial
  | .access _ => inferInstanceAs (Decidable (s.bind.device = some s.latest))

instance (s : Slot) : (e : Event) → Decidable (s.Fresh e)
  | .action a => inferInstanceAs (Decidable (a.kind = .copyD2h → ∀ h ∈ s.host, ∀ d ∈ s.device, h = d))
  | .access _ => .isTrue trivial

/-- A property of every event of a replay, in the state before it. -/
def AlongReplay (P : Slot → Event → Prop) (trace : ActivationTrace) : Prop :=
  KeyedRun.Along (KeyedRun.lift Event.storageId Slot.step) (fun st e => P (st e.storageId) e)
    (fun _ => Slot.init) (replayEvents trace (GreedyResidencyPlanner.build trace))

end HyperParallel.HyperOffload
