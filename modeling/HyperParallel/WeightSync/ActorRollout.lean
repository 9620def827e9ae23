import HyperParallel.Lib.Interrupted
import Mathlib.Algebra.Order.Ring.Int
import Mathlib.Tactic.Common

/-!
# Actor to rollout weight synchronization

`rl/roles/weight_sync`: the controller of `sync.py`, the publication of `transfer.py` and the worker
of `vllm_worker.py`.

* `Worker`: the transaction of the rollout worker, with the weights it serves;
* `SyncState`: the controller and the worker, with the snapshots the worker has committed;
* `publish`, `prepareForTraining`, `updateWeights`, `prepareForRollout`: the calls, as programs that
  may be interrupted between any two of their acts;
* `generationVersion`: the version that the next request is served with.

Names and contents of weights are any types.
-/

namespace HyperParallel.WeightSync

open Interrupted

variable {ν π : Type*} [DecidableEq ν]

/-- `PolicySnapshot`, its payload as the worker receives it: one list of named weights for each
bucket, or for each batch of buckets, that a worker receives in one call. -/
structure PolicySnapshot (ν π : Type*) where
  modelName : String
  version : ℤ
  buckets : List (List (ν × π))

/-- The rollout worker: `_weight_update_active`, `_hyper_pending_policy_version` and
`_hyper_loaded_policy_version`, with the weights it computes with. -/
structure Worker (ν π : Type*) where
  weightUpdateActive : Bool := false
  pendingPolicyVersion : Option ℤ := none
  loadedPolicyVersion : ℤ := 0
  weights : ν → π

inductive Deployment
  | colocated
  | separate
  deriving DecidableEq, Repr

inductive Phase
  | rollout
  | training
  | publishing
  deriving DecidableEq, Repr

/-- `ActorRolloutWeightSync` and its worker.  `publications` are the snapshots whose publication the
worker has completed, in order. -/
structure SyncState (ν π : Type*) where
  modelName : String
  deployment : Deployment
  weightTransfer : Bool
  policyVersion : ℤ := 0
  pendingPolicyVersion : Option ℤ := none
  phase : Phase := .rollout
  worker : Worker ν π
  publications : List (PolicySnapshot ν π) := []

/-- The steps of the client, the server and the transfer that leave versions, phases and weights
alone. -/
inductive ClientStep
  | serverStartup
  | localState
  | layoutPreparation
  | pause
  | isPaused
  | sleep
  | isSleeping
  | wakeUpWeights
  | wakeUpKvCache
  | wakeUpAll
  | materialize
  | acknowledge
  | synchronize
  | resume
  | residencyCheck
  deriving DecidableEq, Repr

namespace SyncState

/-- A step that may only fail. -/
def client (_ : ClientStep) : Act (SyncState ν π) := some

/-- `committed_policy_version`, compared with the version that is expected. -/
def checkVersion (expected : ℤ) : Act (SyncState ν π) := fun s =>
  if s.worker.loadedPolicyVersion = expected then some s else none

/-- A step of the worker. -/
def onWorker (f : Worker ν π → Option (Worker ν π)) : Act (SyncState ν π) := fun s =>
  (f s.worker).map fun worker => { s with worker := worker }

end SyncState

namespace Worker

/-- `start_weight_update`. -/
def startWeightUpdate (w : Worker ν π) : Option (Worker ν π) :=
  if w.weightUpdateActive then none
  else some { w with pendingPolicyVersion := none, weightUpdateActive := true }

/-- `_validate_update`. -/
def validateUpdate (policyVersion : ℤ) (w : Worker ν π) : Option (Worker ν π) :=
  if ¬ w.weightUpdateActive then none
  else if policyVersion ≤ w.loadedPolicyVersion then none
  else if w.pendingPolicyVersion.any (· ≠ policyVersion) then none
  else some w

/-- One weight is loaded in place. -/
def load (x : ν × π) (w : Worker ν π) : Option (Worker ν π) :=
  some { w with weights := Function.update w.weights x.1 x.2 }

/-- `worker._hyper_pending_policy_version = version`. -/
def setPending (version : ℤ) (w : Worker ν π) : Option (Worker ν π) :=
  some { w with pendingPolicyVersion := some version }

/-- `_finish_custom_weight_update`. -/
def finishWeightUpdate (w : Worker ν π) : Option (Worker ν π) :=
  if ¬ w.weightUpdateActive then none
  else w.pendingPolicyVersion.map fun version =>
    { w with
      weightUpdateActive := false
      loadedPolicyVersion := version
      pendingPolicyVersion := none }

end Worker

namespace SyncState

/-- The worker commits the update, which completes the publication of the snapshot. -/
def finishWeightUpdate (snapshot : PolicySnapshot ν π) : Act (SyncState ν π) := fun s =>
  s.worker.finishWeightUpdate.map fun worker =>
    { s with worker := worker, publications := s.publications ++ [snapshot] }

/-- `receive_packed_weights` and its siblings. -/
def receive (version : ℤ) (bucket : List (ν × π)) : List (Act (SyncState ν π)) :=
  [client .materialize, onWorker (Worker.validateUpdate version)] ++
    bucket.map (fun x => onWorker (Worker.load x)) ++
    [onWorker (Worker.setPending version), client .acknowledge]

/-- `WeightPublisher.publish`. -/
def publish (snapshot : PolicySnapshot ν π) : List (Act (SyncState ν π)) :=
  [client .localState, client .layoutPreparation, client .pause,
      onWorker Worker.startWeightUpdate] ++
    snapshot.buckets.flatMap (receive snapshot.version) ++
    [client .synchronize, finishWeightUpdate snapshot, checkVersion snapshot.version]

/-- `_phase = phase`. -/
def setPhase (phase : Phase) : Act (SyncState ν π) := fun s => some { s with phase := phase }

/-- `_pending_policy_version = version`, `_phase = "publishing"`. -/
def stage (version : ℤ) : Act (SyncState ν π) := fun s =>
  some { s with pendingPolicyVersion := some version, phase := .publishing }

/-- `_policy_version = version`, `_pending_policy_version = None`, `_phase = "rollout"`. -/
def expose (version : ℤ) : Act (SyncState ν π) := fun s =>
  some { s with policyVersion := version, pendingPolicyVersion := none, phase := .rollout }

/-- `_resume_rollout`. -/
def resumeRollout (checkResidency : Bool) : List (Act (SyncState ν π)) :=
  client .resume :: if checkResidency then [client .residencyCheck] else []

variable (s : SyncState ν π)

/-- `prepare_for_training`: what it does, `none` where it raises at once. -/
def prepareForTraining : Option (List (Act (SyncState ν π))) :=
  if s.deployment ≠ .colocated then some []
  else if s.phase ≠ .rollout then none
  else some [client .serverStartup, checkVersion s.policyVersion, client .sleep,
    client .isSleeping, setPhase .training]

/-- `update_weights`. -/
def updateWeights (snapshot : PolicySnapshot ν π) : Option (List (Act (SyncState ν π))) :=
  if snapshot.modelName ≠ s.modelName then none
  else if snapshot.version ≤ s.policyVersion then none
  else if ¬ s.weightTransfer then none
  else if s.deployment = .colocated ∧ s.phase ≠ .training then none
  else some ([client .serverStartup, stage snapshot.version] ++
    (if s.deployment = .colocated then [client .wakeUpWeights] else []) ++
    publish snapshot ++
    if s.deployment = .colocated then []
    else resumeRollout false ++ [expose snapshot.version])

/-- `prepare_for_rollout`. -/
def prepareForRollout : Option (List (Act (SyncState ν π))) :=
  if s.deployment ≠ .colocated then some []
  else
    match s.phase, s.pendingPolicyVersion with
    | .rollout, _ => none
    | .publishing, none => none
    | .publishing, some pending =>
        some ([client .serverStartup, client .wakeUpKvCache, client .pause, client .isPaused,
          checkVersion pending] ++ resumeRollout true ++ [expose pending])
    | .training, pending =>
        some ([client .serverStartup, client .wakeUpAll] ++ resumeRollout true ++
          [expose (pending.getD s.policyVersion)])

/-- `generation_version` where no step of the client fails: `none` where it raises. -/
def generationVersion : Option ℤ :=
  if s.phase ≠ .rollout ∨ s.pendingPolicyVersion.isSome then none
  else if s.worker.loadedPolicyVersion ≠ s.policyVersion then none
  else some s.worker.loadedPolicyVersion

end SyncState

/-- The calls of the trainer. -/
inductive SyncCall (ν π : Type*)
  | prepareForTraining
  | updateWeights (snapshot : PolicySnapshot ν π)
  | prepareForRollout
  | generationVersion

namespace SyncState

/-- Before the first call. -/
def initial (modelName : String) (deployment : Deployment) (weightTransfer : Bool)
    (weights : ν → π) : SyncState ν π where
  modelName := modelName
  deployment := deployment
  weightTransfer := weightTransfer
  worker := { weights := weights }

/-- What a call does. -/
def acts (s : SyncState ν π) : SyncCall ν π → Option (List (Act (SyncState ν π)))
  | .prepareForTraining => s.prepareForTraining
  | .updateWeights snapshot => s.updateWeights snapshot
  | .prepareForRollout => s.prepareForRollout
  | .generationVersion => some []

/-- The state that a call leaves when a step of it fails after `fault` acts. -/
def step (s : SyncState ν π) (call : SyncCall ν π × ℕ) : SyncState ν π :=
  match s.acts call.1 with
  | none => s
  | some acts => (perform acts call.2 s).1

/-- A run. -/
def run (s : SyncState ν π) (calls : List (SyncCall ν π × ℕ)) : SyncState ν π :=
  calls.foldl step s

/-- The version a call returns: `generation_version`, unless its query fails. -/
def returned (s : SyncState ν π) : SyncCall ν π × ℕ → Option ℤ
  | (.generationVersion, _ + 1) => s.generationVersion
  | _ => none

/-- The versions that a run returns, in order. -/
def versions (s : SyncState ν π) : List (SyncCall ν π × ℕ) → List ℤ
  | [] => []
  | call :: calls => (s.returned call).toList ++ versions (s.step call) calls

/-- The weights once a list of named weights is loaded. -/
def loaded (weights : ν → π) (entries : List (ν × π)) : ν → π :=
  entries.foldl (fun w x => Function.update w x.1 x.2) weights

/-- The worker serves exactly the last snapshot whose publication completed, at version `v`. -/
structure Serves (s : SyncState ν π) (v : ℤ) : Prop where
  committed : s.worker.loadedPolicyVersion = v
  idle : s.worker.weightUpdateActive = false
  clean : s.worker.pendingPolicyVersion = none
  last : (s.publications.getLast?.map PolicySnapshot.version).getD 0 = v
  whole : ∀ snapshot ∈ s.publications.getLast?, ∃ weights,
    s.worker.weights = loaded weights snapshot.buckets.flatten

end SyncState

end HyperParallel.WeightSync
