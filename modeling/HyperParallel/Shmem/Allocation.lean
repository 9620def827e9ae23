import Mathlib.Algebra.Order.Ring.Nat
import Mathlib.Data.List.Basic
import Mathlib.Tactic.Common

/-!
# Symmetric allocations

`core/multicore/shmem/ccsrc/runtime/allocation.cpp`.

* `Failure`, `Status`, `Result`: what a call returns;
* `AllocationRegistry`: the active allocations of one device;
* `matchForFree_ok`, `resolve_ok`: what a view that is accepted covers.
-/

namespace HyperParallel.Shmem

/-- `ErrorCode`, without `Ok`. -/
inductive ErrorCode
  | invalidState
  | invalidConfig
  | invalidArgument
  | unsupportedCapability
  | doubleFree
  | cannError
  | timeout
  deriving DecidableEq, Repr

/-- A `Status` that is not `Ok`. -/
structure Failure where
  errorCode : ErrorCode
  cannErrorCode : Option Int
  message : String
  deriving DecidableEq, Repr

/-- `Result`: a value, or a status that is not `Ok`. -/
abbrev Result (α : Type) := Except Failure α

/-- `Status` -/
abbrev Status := Result Unit

/-- `MakeError` -/
def makeError {α : Type} (errorCode : ErrorCode) (message : String) : Result α :=
  .error ⟨errorCode, none, message⟩

/-- `AllocationSpec` -/
structure AllocationSpec where
  bytes : UInt64
  alignmentBytes : UInt64
  deriving DecidableEq, Repr

/-- `AllocationRecord` -/
structure AllocationRecord where
  allocationId : UInt64
  allocationBase : UInt64
  allocationBytes : UInt64
  alignmentBytes : UInt64
  deriving DecidableEq, Repr

/-- `AllocationView` -/
structure AllocationView where
  allocationId : UInt64
  viewData : UInt64
  viewBytes : UInt64
  deviceIndex : Int
  deriving DecidableEq, Repr

/-- `IsPowerOfTwo` -/
def isPowerOfTwo (value : UInt64) : Bool := value != 0 && (value &&& (value - 1)) == 0

/-- `AllocationRegistry`. The records are kept in the order in which they were made. -/
structure AllocationRegistry where
  deviceIndex : Int
  nextAllocationId : UInt64
  allocatedBytes : UInt64
  maxAllocatedBytes : UInt64
  records : List AllocationRecord
  deriving DecidableEq, Repr

/-- The largest `uint64_t`. -/
def maxUInt64 : UInt64 := 0xffffffffffffffff

namespace AllocationRegistry

/-- A registry without allocations. -/
def new (deviceIndex : Int) (nextAllocationId : UInt64) : AllocationRegistry :=
  ⟨deviceIndex, nextAllocationId, 0, 0, []⟩

/-- `Validate` -/
def validate (registry : AllocationRegistry) (spec : AllocationSpec) : Status :=
  if spec.bytes = 0 then
    makeError .invalidArgument "Allocation bytes must be greater than zero"
  else if spec.alignmentBytes ≠ 0 ∧ ¬ isPowerOfTwo spec.alignmentBytes then
    makeError .invalidArgument
      ("Allocation alignment_bytes must be zero or a power of two, but got alignment_bytes=" ++
        toString spec.alignmentBytes)
  else if registry.nextAllocationId = maxUInt64 then
    makeError .invalidState "Allocation identity space is exhausted"
  else .ok ()

/-- `Register`, or the `logic_error` it throws. -/
def register (registry : AllocationRegistry) (spec : AllocationSpec) (allocationBase : UInt64) :
    Except String (AllocationRecord × AllocationRegistry) :=
  let record : AllocationRecord :=
    ⟨registry.nextAllocationId, allocationBase, spec.bytes, spec.alignmentBytes⟩
  if registry.records.any (·.allocationId = record.allocationId) then
    .error "Allocation identity is already active"
  else
    let allocatedBytes := registry.allocatedBytes + spec.bytes
    .ok (record, { registry with
      nextAllocationId := registry.nextAllocationId + 1
      allocatedBytes := allocatedBytes
      maxAllocatedBytes := max registry.maxAllocatedBytes allocatedBytes
      records := registry.records ++ [record] })

/-- `Find` -/
def find (registry : AllocationRegistry) (allocationId : UInt64) : Result AllocationRecord :=
  match registry.records.find? (·.allocationId = allocationId) with
  | some record => .ok record
  | none =>
    if allocationId ≠ 0 ∧ allocationId < registry.nextAllocationId then
      makeError .doubleFree ("Allocation identity has already been released: allocation_id=" ++
        toString allocationId)
    else
      makeError .invalidArgument
        ("Allocation identity must be issued by this Runtime, but got allocation_id=" ++
          toString allocationId)

/-- What the messages about a view say of it. -/
def describeView (registry : AllocationRegistry) (buffer : AllocationView) : String :=
  "view_data=" ++ toString buffer.viewData ++ ", view_bytes=" ++ toString buffer.viewBytes ++
    ", device_index=" ++ toString buffer.deviceIndex ++ ", Runtime device_index=" ++
    toString registry.deviceIndex

/-- `MatchForFree` -/
def matchForFree (registry : AllocationRegistry) (buffer : AllocationView) :
    Result AllocationRecord := do
  let record ← registry.find buffer.allocationId
  if buffer.deviceIndex ≠ registry.deviceIndex ∨ buffer.viewData ≠ record.allocationBase ∨
      buffer.viewBytes ≠ record.allocationBytes then
    makeError .invalidArgument
      ("Free requires the complete active Allocation, but got " ++ registry.describeView buffer)
  else .ok record

/-- `Resolve` -/
def resolve (registry : AllocationRegistry) (buffer : AllocationView) :
    Result AllocationRecord := do
  let record ← registry.find buffer.allocationId
  if buffer.deviceIndex ≠ registry.deviceIndex then
    makeError .invalidArgument
      ("Buffer view must be a contiguous range within its active Allocation, but got " ++
        registry.describeView buffer)
  else if buffer.viewBytes = 0 then .ok record
  else if buffer.viewData < record.allocationBase then
    makeError .invalidArgument
      ("Buffer view must be a contiguous range within its active Allocation, but got " ++
        registry.describeView buffer)
  else
    let offset := buffer.viewData - record.allocationBase
    if record.allocationBytes < offset ∨ record.allocationBytes - offset < buffer.viewBytes then
      makeError .invalidArgument
        ("Buffer view must be a contiguous range within its active Allocation, " ++
          "but got offset_bytes=" ++ toString offset ++ ", view_bytes=" ++
          toString buffer.viewBytes ++ ", allocation_bytes=" ++ toString record.allocationBytes)
    else .ok record

/-- `Remove`, or the `logic_error` it throws. -/
def remove (registry : AllocationRegistry) (allocationId : UInt64) :
    Except String AllocationRegistry :=
  match registry.records.find? (·.allocationId = allocationId) with
  | none => .error "Removing an inactive Allocation identity"
  | some record =>
    .ok { registry with
      allocatedBytes := registry.allocatedBytes - record.allocationBytes
      records := registry.records.filter (·.allocationId ≠ allocationId) }

/-- `allocated_count` -/
def allocatedCount (registry : AllocationRegistry) : UInt64 := .ofNat registry.records.length

end AllocationRegistry

/-! ### The view that is accepted -/

/-- A view of a whole allocation. -/
def AllocationView.Complete (view : AllocationView) (record : AllocationRecord) : Prop :=
  view.allocationId = record.allocationId ∧ view.viewData = record.allocationBase ∧
    view.viewBytes = record.allocationBytes

/-- A range of addresses inside an allocation. -/
def AllocationView.Inside (view : AllocationView) (record : AllocationRecord) : Prop :=
  view.allocationId = record.allocationId ∧
    record.allocationBase.toNat ≤ view.viewData.toNat ∧
    view.viewData.toNat + view.viewBytes.toNat ≤
      record.allocationBase.toNat + record.allocationBytes.toNat

namespace AllocationRegistry

variable {registry : AllocationRegistry} {view : AllocationView} {record : AllocationRecord}

theorem find_ok {allocationId : UInt64} (h : registry.find allocationId = .ok record) :
    record ∈ registry.records ∧ record.allocationId = allocationId := by
  unfold find at h
  cases hfind : registry.records.find? (·.allocationId = allocationId) with
  | none =>
    rw [hfind] at h
    simp only [makeError] at h
    split_ifs at h
  | some found =>
    rw [hfind] at h
    obtain rfl := Except.ok.inj h
    exact ⟨List.mem_of_find?_eq_some hfind, by simpa using List.find?_some hfind⟩

/-- Only the complete view of an active allocation can be freed. -/
theorem matchForFree_ok (h : registry.matchForFree view = .ok record) :
    record ∈ registry.records ∧ view.Complete record ∧ view.deviceIndex = registry.deviceIndex := by
  unfold matchForFree at h
  cases hfind : registry.find view.allocationId with
  | error failure => rw [hfind] at h; cases h
  | ok found =>
    rw [hfind] at h
    simp only [bind, Except.bind, makeError] at h
    split_ifs at h with hview
    obtain rfl := Except.ok.inj h
    obtain ⟨hmem, hid⟩ := find_ok hfind
    push Not at hview
    exact ⟨hmem, ⟨hid.symm, hview.2.1, hview.2.2⟩, hview.1⟩

/-- A range test without a wrap. -/
theorem inside_of_offset (hid : record.allocationId = view.allocationId)
    (hbase : ¬ view.viewData < record.allocationBase)
    (hoffset : ¬ record.allocationBytes < view.viewData - record.allocationBase)
    (hbytes : ¬ record.allocationBytes - (view.viewData - record.allocationBase) <
      view.viewBytes) : view.Inside record := by
  have hle : record.allocationBase ≤ view.viewData := UInt64.not_lt.1 hbase
  have hsub : (view.viewData - record.allocationBase).toNat =
      view.viewData.toNat - record.allocationBase.toNat := UInt64.toNat_sub_of_le _ _ hle
  have hleft : (record.allocationBytes - (view.viewData - record.allocationBase)).toNat =
      record.allocationBytes.toNat - (view.viewData - record.allocationBase).toNat :=
    UInt64.toNat_sub_of_le _ _ (UInt64.not_lt.1 hoffset)
  rw [UInt64.lt_iff_toNat_lt] at hbase hoffset hbytes
  exact ⟨hid.symm, by omega, by omega⟩

/-- Only an empty view or one inside an active allocation is resolved. -/
theorem resolve_ok (h : registry.resolve view = .ok record) :
    record ∈ registry.records ∧ record.allocationId = view.allocationId ∧
      view.deviceIndex = registry.deviceIndex ∧ (view.viewBytes = 0 ∨ view.Inside record) := by
  unfold resolve at h
  cases hfind : registry.find view.allocationId with
  | error failure => rw [hfind] at h; cases h
  | ok found =>
    rw [hfind] at h
    obtain ⟨hmem, hid⟩ := find_ok hfind
    simp only [bind, Except.bind, makeError] at h
    split_ifs at h with hdevice hempty hbase hrange
    · obtain rfl := Except.ok.inj h
      exact ⟨hmem, hid, not_not.1 hdevice, .inl hempty⟩
    · obtain rfl := Except.ok.inj h
      rw [not_or] at hrange
      exact ⟨hmem, hid, not_not.1 hdevice, .inr (inside_of_offset hid hbase hrange.1 hrange.2)⟩

end AllocationRegistry

end HyperParallel.Shmem
