import HyperParallel.Shmem.Allocation

/-!
# The lifecycle of the runtime

`core/multicore/shmem/ccsrc/runtime/runtime.cpp`. What the calls of CANN return is part of an
operation.

* `Runtime`: the lifecycle state, the registry and the identity that is kept across lifecycles;
* `step`, `run`: an operation, and a sequence of them; an exception that is thrown is an error.
-/

namespace HyperParallel.Shmem

/-- `State` -/
inductive State
  | uninitialized
  | ready
  | shutdownFailed
  deriving DecidableEq, Repr

/-- `StateName` -/
def State.name : State → String
  | uninitialized => "Uninitialized"
  | ready => "Ready"
  | shutdownFailed => "ShutdownFailed"

/-- `RootWorldInfo` -/
structure RootWorldInfo where
  rootRank : Int
  rootSize : Int
  deriving DecidableEq, Repr

/-- `DataEngine` -/
inductive DataEngine
  | mte
  deriving DecidableEq, Repr

/-- `Config` -/
structure Config where
  heapSizeBytes : UInt64
  timeoutSeconds : UInt32
  dataEngine : DataEngine
  bootstrapEndpointBase : String
  deriving DecidableEq, Repr

/-- `DeviceModel` -/
inductive DeviceModel
  | ascend910B
  | ascend910C
  | ascend950
  deriving DecidableEq, Repr

/-- `DeviceIdentity` -/
structure DeviceIdentity where
  deviceIndex : Int
  model : DeviceModel
  socName : String
  deriving DecidableEq, Repr

/-- `kMaxBootstrapEndpointBytes` -/
def maxBootstrapEndpointBytes : ℕ := 63

/-- `Runtime`, without what is kept for diagnostics. -/
structure Runtime where
  state : State
  deviceIdentity : Option DeviceIdentity
  allocations : Option AllocationRegistry
  nextAllocationId : UInt64
  deriving DecidableEq, Repr

namespace Runtime

/-- The runtime of a process that starts. -/
def new : Runtime := ⟨.uninitialized, none, none, 1⟩

/-- `ValidateInitialInput` -/
def validateInitialInput (root : RootWorldInfo) (config : Config)
    (effectiveBootstrapEndpoint : String) : Status :=
  if root.rootSize ≤ 0 ∨ root.rootRank < 0 ∨ root.rootSize ≤ root.rootRank then
    makeError .invalidArgument
      ("root_rank must be in [0, root_size) and root_size must be positive, but got root_rank=" ++
        toString root.rootRank ++ ", root_size=" ++ toString root.rootSize)
  else if config.heapSizeBytes = 0 ∨ config.timeoutSeconds = 0 ∨ config.dataEngine ≠ .mte then
    makeError .invalidConfig
      "Runtime Config requires positive heap/timeout values and the MTE data engine"
  else if config.bootstrapEndpointBase.utf8ByteSize = 0 ∨
      maxBootstrapEndpointBytes < config.bootstrapEndpointBase.utf8ByteSize then
    makeError .invalidConfig
      ("bootstrap_endpoint_base must contain between 1 and " ++
        toString maxBootstrapEndpointBytes ++ " bytes, but got size=" ++
        toString config.bootstrapEndpointBase.utf8ByteSize)
  else if effectiveBootstrapEndpoint.utf8ByteSize = 0 ∨
      maxBootstrapEndpointBytes < effectiveBootstrapEndpoint.utf8ByteSize then
    makeError .invalidArgument
      ("effective_bootstrap_endpoint must contain between 1 and " ++
        toString maxBootstrapEndpointBytes ++ " bytes, but got size=" ++
        toString effectiveBootstrapEndpoint.utf8ByteSize)
  else .ok ()

/-- `FailInitialization` -/
def failInitialization (runtime : Runtime) (failure : Failure) : Status × Runtime :=
  (.error failure, { runtime with allocations := none, deviceIdentity := none })

/-- `Initialize`, with what `query_device_identity` and `initialize` of CANN return. -/
def initializeRuntime (runtime : Runtime) (root : RootWorldInfo) (config : Config)
    (effectiveBootstrapEndpoint : String) (queryDeviceIdentity : Result DeviceIdentity)
    (cannInitialize : Status) : Status × Runtime :=
  if runtime.state ≠ .uninitialized then
    (makeError .invalidState
      ("Runtime state must be Uninitialized for initialization, but got state=" ++
        runtime.state.name), runtime)
  else match validateInitialInput root config effectiveBootstrapEndpoint with
  | .error failure => runtime.failInitialization failure
  | .ok () => match queryDeviceIdentity with
    | .error failure => runtime.failInitialization failure
    | .ok identity =>
      if identity.model = .ascend950 then
        { runtime with deviceIdentity := some identity }.failInitialization
          ⟨.unsupportedCapability, none, "the first Runtime release supports Ascend 910B and " ++
            "910C, but got soc_name=" ++ identity.socName⟩
      else
        let runtime := { runtime with
          deviceIdentity := some identity
          allocations := some (.new identity.deviceIndex runtime.nextAllocationId) }
        match cannInitialize with
        | .error failure => runtime.failInitialization failure
        | .ok () => (.ok (), { runtime with state := .ready })

/-- `RequireReady` -/
def requireReady (runtime : Runtime) : Status :=
  if runtime.state ≠ .ready then
    makeError .invalidState
      ("Runtime state must be Ready for this operation, but got state=" ++ runtime.state.name)
  else .ok ()

/-- `ValidateCurrentDeviceLocked`, with what `query_current_device_index` returns. -/
def validateCurrentDeviceLocked (identity : DeviceIdentity) (currentDevice : Result Int) :
    Status := do
  let current ← currentDevice
  if current ≠ identity.deviceIndex then
    makeError .invalidArgument
      ("Current ACL device must match the Runtime-bound device, but got current device_index=" ++
        toString current ++ ", bound device_index=" ++ toString identity.deviceIndex)
  else .ok ()

/-- The registry and the device of a runtime that is ready. -/
def engaged (runtime : Runtime) : Except String (AllocationRegistry × DeviceIdentity) :=
  match runtime.allocations, runtime.deviceIdentity with
  | some registry, some identity => .ok (registry, identity)
  | _, _ => .error "a value that is not engaged is used"

/-- `Allocate`, with what the calls of CANN return. -/
def allocate (runtime : Runtime) (spec : AllocationSpec) (currentDevice : Result Int)
    (allocation : Result UInt64) : Except String (Result AllocationRecord × Runtime) :=
  match runtime.requireReady with
  | .error failure => .ok (.error failure, runtime)
  | .ok () => do
    let (registry, identity) ← runtime.engaged
    match registry.validate spec with
    | .error failure => .ok (.error failure, runtime)
    | .ok () => match validateCurrentDeviceLocked identity currentDevice with
      | .error failure => .ok (.error failure, runtime)
      | .ok () => match allocation with
        | .error failure => .ok (.error failure, runtime)
        | .ok base => do
          let (record, registry) ← registry.register spec base
          .ok (.ok record, { runtime with allocations := some registry })

/-- `Free` -/
def free (runtime : Runtime) (buffer : AllocationView) (currentDevice : Result Int) :
    Except String (Status × Runtime) :=
  match runtime.requireReady with
  | .error failure => .ok (.error failure, runtime)
  | .ok () => do
    let (registry, identity) ← runtime.engaged
    match registry.matchForFree buffer with
    | .error failure => .ok (.error failure, runtime)
    | .ok _ => match validateCurrentDeviceLocked identity currentDevice with
      | .error failure => .ok (.error failure, runtime)
      | .ok () => do
        let registry ← registry.remove buffer.allocationId
        .ok (.ok (), { runtime with allocations := some registry })

/-- `ResolveAllocation` -/
def resolveAllocation (runtime : Runtime) (buffer : AllocationView) :
    Except String (Result AllocationRecord × Runtime) :=
  match runtime.requireReady with
  | .error failure => .ok (.error failure, runtime)
  | .ok () => do
    let (registry, _) ← runtime.engaged
    .ok (registry.resolve buffer, runtime)

/-- `Shutdown`, with what `finalize` of CANN returns. -/
def shutdown (runtime : Runtime) (finalize : Status) : Except String (Status × Runtime) :=
  if runtime.state = .uninitialized ∨ runtime.state = .shutdownFailed then .ok (.ok (), runtime)
  else do
    let (registry, _) ← runtime.engaged
    if registry.allocatedCount ≠ 0 then
      .ok (makeError .invalidState
        ("All symmetric Allocations must be freed before Runtime shutdown, " ++
          "but got allocated_count=" ++ toString registry.allocatedCount ++
          ", allocated_bytes=" ++ toString registry.allocatedBytes), runtime)
    else match finalize with
    | .error failure => .ok (.error failure, { runtime with state := .shutdownFailed })
    | .ok () => .ok (.ok (), ⟨.uninitialized, none, none, registry.nextAllocationId⟩)

/-- What `DebugState` tells of the allocations. -/
structure Snapshot where
  allocatedCount : UInt64
  allocatedBytes : UInt64
  activeAllocations : List AllocationRecord

/-- `DebugState` -/
def debugState (runtime : Runtime) : Snapshot :=
  match runtime.allocations with
  | none => ⟨0, 0, []⟩
  | some registry => ⟨registry.allocatedCount, registry.allocatedBytes, registry.records⟩

end Runtime

/-! ### Runs -/

/-- An operation, with what the calls of CANN return to it. -/
inductive Operation
  | initializeRuntime (root : RootWorldInfo) (config : Config) (effectiveBootstrapEndpoint : String)
      (queryDeviceIdentity : Result DeviceIdentity) (cannInitialize : Status)
  | allocate (spec : AllocationSpec) (currentDevice : Result Int) (allocation : Result UInt64)
  | free (buffer : AllocationView) (currentDevice : Result Int)
  | resolveAllocation (buffer : AllocationView)
  | shutdown (finalize : Status)

/-- What an operation returns: an error, a record or nothing. -/
abbrev Response := Result (Option AllocationRecord)

/-- An operation. -/
def step (runtime : Runtime) : Operation → Except String (Response × Runtime)
  | .initializeRuntime root config endpoint identity status =>
    let (status, runtime) := runtime.initializeRuntime root config endpoint identity status
    .ok (status.map fun _ => none, runtime)
  | .allocate spec device allocation => do
    let (result, runtime) ← runtime.allocate spec device allocation
    .ok (result.map some, runtime)
  | .free buffer device => do
    let (status, runtime) ← runtime.free buffer device
    .ok (status.map fun _ => none, runtime)
  | .resolveAllocation buffer => do
    let (result, runtime) ← runtime.resolveAllocation buffer
    .ok (result.map some, runtime)
  | .shutdown finalize => do
    let (status, runtime) ← runtime.shutdown finalize
    .ok (status.map fun _ => none, runtime)

/-- Operations one after the other, and what they return. -/
def run (runtime : Runtime) :
    List Operation → Except String (List (Operation × Response) × Runtime)
  | [] => .ok ([], runtime)
  | operation :: operations => do
    let (response, runtime) ← step runtime operation
    let (trace, runtime) ← run runtime operations
    .ok ((operation, response) :: trace, runtime)

end HyperParallel.Shmem
