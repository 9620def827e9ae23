import HyperParallel.Shmem.Runtime
import Mathlib.Data.List.Nodup
import Mathlib.Data.List.Perm.Subperm

/-!
# Runs of the runtime

* `issued`, `active`: the identities and the active allocations, read off what was returned;
* `Inv`, `inv_step`: what holds between any two operations;
* `runtime_correct`: the totals, the identities and the errors of every run.
-/

namespace HyperParallel.Shmem

/-! ### What was returned -/

/-- The identity that an operation issued. -/
def issuedBy : Operation × Response → Option UInt64
  | (.allocate .., .ok (some record)) => some record.allocationId
  | _ => none

/-- The identities that were issued. -/
def issued (trace : List (Operation × Response)) : List UInt64 := trace.filterMap issuedBy

/-- The active allocations after an operation. -/
def activeAfter (active : List AllocationRecord) : Operation × Response → List AllocationRecord
  | (.allocate .., .ok (some record)) => active ++ [record]
  | (.free buffer _, .ok _) => active.filter (·.allocationId ≠ buffer.allocationId)
  | _ => active

/-- The allocations that were returned and have not been freed. -/
def active (trace : List (Operation × Response)) : List AllocationRecord :=
  trace.foldl activeAfter []

/-- The bytes of some allocations. -/
def totalBytes (records : List AllocationRecord) : ℕ :=
  (records.map fun record => record.allocationBytes.toNat).sum

/-- What an operation returns fits what it does. -/
structure StepCorrect (runtime : Runtime) (operation : Operation) (response : Response)
    (runtime' : Runtime) : Prop where
  kept : ∀ failure, response = .error failure →
    runtime'.debugState.activeAllocations = runtime.debugState.activeAllocations ∧
      (runtime'.state = runtime.state ∨
        operation = .shutdown (.error failure) ∧ runtime'.state = .shutdownFailed)
  freed : ∀ view device result, operation = .free view device → response = .ok result →
    ∃ record ∈ runtime.debugState.activeAllocations, view.Complete record
  resolved : ∀ view result, operation = .resolveAllocation view → response = .ok result →
    ∃ record ∈ runtime.debugState.activeAllocations, record.allocationId = view.allocationId ∧
      (view.viewBytes = 0 ∨ view.Inside record)

/-- The identities of a run are distinct, and the runtime counts what is active. -/
structure Accounts (trace : List (Operation × Response)) (runtime : Runtime) : Prop where
  distinct : (issued trace).Nodup
  records : runtime.debugState.activeAllocations = active trace
  count : runtime.debugState.allocatedCount.toNat = (active trace).length
  bytes : runtime.debugState.allocatedBytes.toNat = totalBytes (active trace) % 2 ^ 64

/-! ### The invariant -/

/-- The next identity, in a lifecycle or between two. -/
def Runtime.nextId (runtime : Runtime) : UInt64 :=
  match runtime.allocations with
  | some registry => registry.nextAllocationId
  | none => runtime.nextAllocationId

/-- What holds between any two operations. -/
structure Inv (trace : List (Operation × Response)) (runtime : Runtime) : Prop where
  ascending : (issued trace).Pairwise (· < ·)
  positive : ∀ id ∈ issued trace, 0 < id
  below : ∀ id ∈ issued trace, id < runtime.nextId
  next : 0 < runtime.nextId
  sub : ((active trace).map (·.allocationId)).Sublist (issued trace)
  records : runtime.debugState.activeAllocations = active trace
  bytes : runtime.debugState.allocatedBytes.toNat = totalBytes (active trace) % 2 ^ 64
  idle : runtime.state = .uninitialized → runtime.allocations = none
  engaged : runtime.state = .ready → ∃ registry identity,
    runtime.allocations = some registry ∧ runtime.deviceIdentity = some identity

variable {trace : List (Operation × Response)} {runtime runtime' : Runtime}
  {operation : Operation} {response : Response} {registry : AllocationRegistry}
  {identity : DeviceIdentity}

theorem issued_append (entry : Operation × Response) :
    issued (trace ++ [entry]) = issued trace ++ (issuedBy entry).toList := by
  rw [issued, List.filterMap_append]
  cases h : issuedBy entry <;> simp [h, issued]

theorem active_append (entry : Operation × Response) :
    active (trace ++ [entry]) = activeAfter (active trace) entry := by
  rw [active, List.foldl_append]
  rfl

theorem totalBytes_append (records : List AllocationRecord) (record : AllocationRecord) :
    totalBytes (records ++ [record]) = totalBytes records + record.allocationBytes.toNat := by
  simp [totalBytes]

/-- The totals of the records without one of them. -/
theorem totalBytes_filter {records : List AllocationRecord} {record : AllocationRecord}
    (hids : (records.map (·.allocationId)).Nodup) (h : record ∈ records) :
    totalBytes (records.filter (·.allocationId ≠ record.allocationId)) +
      record.allocationBytes.toNat = totalBytes records := by
  induction records with
  | nil => cases h
  | cons head records ih =>
    rw [List.map_cons, List.nodup_cons] at hids
    rcases List.mem_cons.1 h with rfl | h
    · have hrest : records.filter (·.allocationId ≠ record.allocationId) = records := by
        refine List.filter_eq_self.2 fun other hother => ?_
        refine decide_eq_true fun heq => hids.1 (heq ▸ ?_)
        exact List.mem_map_of_mem hother
      rw [List.filter_cons_of_neg (by simp), hrest]
      simp only [totalBytes, List.map_cons, List.sum_cons]
      exact Nat.add_comm _ _
    · have hne : head.allocationId ≠ record.allocationId := fun heq =>
        hids.1 (heq ▸ List.mem_map_of_mem h)
      have hrest := ih hids.2 h
      rw [List.filter_cons_of_pos (by simpa using hne)]
      simp only [totalBytes, List.map_cons, List.sum_cons] at hrest ⊢
      omega

namespace Inv

theorem init : Inv [] .new where
  ascending := List.Pairwise.nil
  positive _ h := absurd h List.not_mem_nil
  below _ h := absurd h List.not_mem_nil
  next := by decide
  sub := List.Sublist.refl _
  records := rfl
  bytes := rfl
  idle _ := rfl
  engaged h := by cases h

theorem nodup_ids (h : Inv trace runtime) : ((active trace).map (·.allocationId)).Nodup :=
  (h.ascending.imp fun hlt heq => absurd (heq ▸ hlt) (UInt64.lt_irrefl _)).sublist h.sub

/-- The identities that are issued lie below the next one, so they can be counted. -/
theorem length_lt (h : Inv trace runtime) : (active trace).length < 2 ^ 64 := by
  have hsub : ((active trace).map fun record => record.allocationId.toNat).Subperm
      (List.range' 1 (runtime.nextId.toNat - 1)) := by
    refine List.Nodup.subperm ?_ ?_
    · have hinj : Function.Injective UInt64.toNat := fun _ _ => UInt64.toNat_inj.1
      have hmap := List.Nodup.map hinj h.nodup_ids
      rwa [List.map_map] at hmap
    · intro id hid
      obtain ⟨record, hrecord, rfl⟩ := List.mem_map.1 hid
      have hmem := h.sub.subset (List.mem_map_of_mem hrecord)
      have hpos := UInt64.lt_iff_toNat_lt.1 (h.positive _ hmem)
      have hlt := UInt64.lt_iff_toNat_lt.1 (h.below _ hmem)
      rw [List.mem_range'_1]
      simp only [UInt64.toNat_zero] at hpos
      omega
  have hlength := hsub.length_le
  rw [List.length_map, List.length_range'] at hlength
  have := runtime.nextId.toNat_lt
  omega

theorem accounts (h : Inv trace runtime) : Accounts trace runtime where
  distinct := h.ascending.imp fun hlt heq => absurd (heq ▸ hlt) (UInt64.lt_irrefl _)
  records := h.records
  count := by
    have hlt := h.length_lt
    have hrecords := h.records
    unfold Runtime.debugState at hrecords ⊢
    cases hallocations : runtime.allocations with
    | none =>
      rw [hallocations] at hrecords
      rw [← hrecords]
      rfl
    | some registry =>
      rw [hallocations] at hrecords
      simp only at hrecords ⊢
      rw [← hrecords] at hlt ⊢
      rw [AllocationRegistry.allocatedCount, UInt64.toNat_ofNat', Nat.mod_eq_of_lt hlt]
  bytes := h.bytes

/-- An operation that returns nothing new and leaves the allocations. -/
theorem keep (h : Inv trace runtime) (hissued : issuedBy (operation, response) = none)
    (hactive : activeAfter (active trace) (operation, response) = active trace)
    (hnext : runtime'.nextId = runtime.nextId) (hdebug : runtime'.debugState = runtime.debugState)
    (hidle : runtime'.state = .uninitialized → runtime'.allocations = none)
    (hengaged : runtime'.state = .ready → ∃ registry identity,
      runtime'.allocations = some registry ∧ runtime'.deviceIdentity = some identity) :
    Inv (trace ++ [(operation, response)]) runtime' := by
  have hsame : issued (trace ++ [(operation, response)]) = issued trace := by
    rw [issued_append, hissued]
    exact List.append_nil _
  have hrecords : active (trace ++ [(operation, response)]) = active trace :=
    (active_append _).trans hactive
  constructor
  · rw [hsame]
    exact h.ascending
  · rw [hsame]
    exact h.positive
  · rw [hsame, hnext]
    exact h.below
  · rw [hnext]
    exact h.next
  · rw [hsame, hrecords]
    exact h.sub
  · rw [hrecords, hdebug]
    exact h.records
  · rw [hrecords, hdebug]
    exact h.bytes
  · exact hidle
  · exact hengaged

/-- A runtime that is left as it was. -/
theorem same (h : Inv trace runtime) (hissued : issuedBy (operation, response) = none)
    (hactive : activeAfter (active trace) (operation, response) = active trace) :
    Inv (trace ++ [(operation, response)]) runtime :=
  h.keep hissued hactive rfl rfl h.idle h.engaged

end Inv

/-- A step keeps the invariant and returns what it should. -/
def Sound (trace : List (Operation × Response)) (runtime : Runtime) (operation : Operation) :
    Prop :=
  ∃ response runtime', step runtime operation = .ok (response, runtime') ∧
    Inv (trace ++ [(operation, response)]) runtime' ∧
    StepCorrect runtime operation response runtime'

/-- An error that changes nothing. -/
theorem Inv.sound_error (h : Inv trace runtime) (failure : Failure)
    (hstep : step runtime operation = .ok (.error failure, runtime)) :
    Sound trace runtime operation := by
  refine ⟨_, _, hstep, h.same ?_ ?_, ?_, ?_, ?_⟩
  · cases operation <;> rfl
  · cases operation <;> rfl
  · exact fun _ _ => ⟨rfl, .inl rfl⟩
  · exact fun _ _ _ _ hok => by cases hok
  · exact fun _ _ _ hok => by cases hok

/-! ### Initialize -/

theorem initializeRuntime_cases (root : RootWorldInfo) (config : Config) (endpoint : String)
    (query : Result DeviceIdentity) (status : Status) (hstate : runtime.state = .uninitialized) :
    (∃ failure, runtime.initializeRuntime root config endpoint query status =
      (.error failure, { runtime with allocations := none, deviceIdentity := none })) ∨
      ∃ identity, runtime.initializeRuntime root config endpoint query status =
        (.ok (), { runtime with
          state := .ready
          deviceIdentity := some identity
          allocations := some (.new identity.deviceIndex runtime.nextAllocationId) }) := by
  unfold Runtime.initializeRuntime
  rw [if_neg (not_not.2 hstate)]
  cases Runtime.validateInitialInput root config endpoint with
  | error failure => exact .inl ⟨failure, rfl⟩
  | ok _ =>
    cases query with
    | error failure => exact .inl ⟨failure, rfl⟩
    | ok identity =>
      simp only
      split_ifs
      · exact .inl ⟨_, rfl⟩
      · cases status with
        | error failure => exact .inl ⟨failure, rfl⟩
        | ok _ => exact .inr ⟨identity, rfl⟩

theorem Inv.sound_initialize (h : Inv trace runtime) (root : RootWorldInfo) (config : Config)
    (endpoint : String) (query : Result DeviceIdentity) (status : Status) :
    Sound trace runtime (.initializeRuntime root config endpoint query status) := by
  by_cases hstate : runtime.state = .uninitialized
  · have hnone := h.idle hstate
    rcases initializeRuntime_cases root config endpoint query status hstate with
      ⟨failure, hcase⟩ | ⟨identity, hcase⟩
    · refine ⟨.error failure, _, by rw [step, hcase]; rfl, ?_, ?_, ?_, ?_⟩
      · refine h.keep rfl rfl ?_ ?_ (fun _ => rfl) fun hready => ?_
        · simp [Runtime.nextId, hnone]
        · simp [Runtime.debugState, hnone]
        · exact absurd (hstate.symm.trans hready) (by decide)
      · refine fun _ _ => ⟨?_, .inl rfl⟩
        simp [Runtime.debugState, hnone]
      · exact fun _ _ _ hop => by cases hop
      · exact fun _ _ hop => by cases hop
    · refine ⟨.ok none, _, by rw [step, hcase]; rfl, ?_, ?_, ?_, ?_⟩
      · refine h.keep rfl rfl ?_ ?_ (fun hidle => ?_) fun _ => ⟨_, _, rfl, rfl⟩
        · simp [Runtime.nextId, hnone, AllocationRegistry.new]
        · simp [Runtime.debugState, hnone, AllocationRegistry.new,
            AllocationRegistry.allocatedCount]
        · cases hidle
      · exact fun _ hfail => by cases hfail
      · exact fun _ _ _ hop => by cases hop
      · exact fun _ _ hop => by cases hop
  · have hcase : ∃ failure, runtime.initializeRuntime root config endpoint query status =
        (.error failure, runtime) := ⟨_, if_pos hstate⟩
    obtain ⟨failure, hcase⟩ := hcase
    exact h.sound_error _ (by rw [step, hcase]; rfl)

/-! ### The operations of a runtime that is ready -/

theorem requireReady_of_ne (hstate : runtime.state ≠ .ready) :
    ∃ failure, runtime.requireReady = .error failure :=
  ⟨_, if_pos hstate⟩

theorem requireReady_of_eq (hstate : runtime.state = .ready) : runtime.requireReady = .ok () :=
  if_neg (not_not.2 hstate)

theorem engaged_eq (hregistry : runtime.allocations = some registry)
    (hidentity : runtime.deviceIdentity = some identity) :
    runtime.engaged = .ok (registry, identity) := by
  rw [Runtime.engaged, hregistry, hidentity]

theorem register_eq (spec : AllocationSpec) (base : UInt64)
    (hnew : ∀ record ∈ registry.records, record.allocationId ≠ registry.nextAllocationId) :
    ∃ record registry', registry.register spec base = .ok (record, registry') ∧
      record.allocationId = registry.nextAllocationId ∧
      registry'.nextAllocationId = registry.nextAllocationId + 1 ∧
      registry'.allocatedBytes = registry.allocatedBytes + record.allocationBytes ∧
      registry'.records = registry.records ++ [record] := by
  refine ⟨_, _, if_neg ?_, rfl, rfl, rfl, rfl⟩
  simpa using hnew

theorem allocate_cases (spec : AllocationSpec) (device : Result Int) (allocation : Result UInt64)
    (hstate : runtime.state = .ready) (hregistry : runtime.allocations = some registry)
    (hidentity : runtime.deviceIdentity = some identity)
    (hnew : ∀ record ∈ registry.records, record.allocationId ≠ registry.nextAllocationId) :
    (∃ failure, runtime.allocate spec device allocation = .ok (.error failure, runtime)) ∨
      ∃ record registry', registry.nextAllocationId ≠ maxUInt64 ∧
        runtime.allocate spec device allocation =
          .ok (.ok record, { runtime with allocations := some registry' }) ∧
        record.allocationId = registry.nextAllocationId ∧
        registry'.nextAllocationId = registry.nextAllocationId + 1 ∧
        registry'.allocatedBytes = registry.allocatedBytes + record.allocationBytes ∧
        registry'.records = registry.records ++ [record] := by
  unfold Runtime.allocate
  rw [requireReady_of_eq hstate, engaged_eq hregistry hidentity]
  simp only [bind, Except.bind]
  cases hvalid : registry.validate spec with
  | error failure => exact .inl ⟨failure, rfl⟩
  | ok _ =>
    cases Runtime.validateCurrentDeviceLocked identity device with
    | error failure => exact .inl ⟨failure, rfl⟩
    | ok _ =>
      cases allocation with
      | error failure => exact .inl ⟨failure, rfl⟩
      | ok base =>
        obtain ⟨record, registry', heq, hid, hnext, hbytes, hrecords⟩ :=
          register_eq spec base hnew
        refine .inr ⟨record, registry', fun hmax => ?_, by simp only [heq], hid, hnext, hbytes,
          hrecords⟩
        unfold AllocationRegistry.validate at hvalid
        simp only [makeError] at hvalid
        split_ifs at hvalid

/-- The registry of a runtime that is ready. -/
theorem Inv.of_registry (h : Inv trace runtime) (hregistry : runtime.allocations = some registry) :
    registry.records = active trace ∧
      registry.allocatedBytes.toNat = totalBytes (active trace) % 2 ^ 64 ∧
      runtime.nextId = registry.nextAllocationId := by
  have hrecords := h.records
  have hbytes := h.bytes
  rw [Runtime.debugState, hregistry] at hrecords hbytes
  exact ⟨hrecords, hbytes, by rw [Runtime.nextId, hregistry]⟩

theorem Inv.sound_allocate (h : Inv trace runtime) (spec : AllocationSpec) (device : Result Int)
    (allocation : Result UInt64) : Sound trace runtime (.allocate spec device allocation) := by
  by_cases hstate : runtime.state = .ready
  · obtain ⟨registry, identity, hregistry, hidentity⟩ := h.engaged hstate
    obtain ⟨hrecords, hbytes, hnextId⟩ := h.of_registry hregistry
    have hnew : ∀ record ∈ registry.records, record.allocationId ≠ registry.nextAllocationId := by
      intro record hrecord heq
      rw [hrecords] at hrecord
      have hlt := h.below _ (h.sub.subset (List.mem_map_of_mem hrecord))
      rw [hnextId, ← heq] at hlt
      exact UInt64.lt_irrefl _ hlt
    rcases allocate_cases spec device allocation hstate hregistry hidentity hnew with
      ⟨failure, hcase⟩ | ⟨record, registry', hmax, hcase, hid, hnext, hbytes', hrecords'⟩
    · exact h.sound_error _ (by rw [step, hcase]; rfl)
    · have hissued : issuedBy (.allocate spec device allocation, .ok (some record)) =
          some registry.nextAllocationId := congrArg some hid
      -- the next identity does not wrap
      have hlt : registry.nextAllocationId < registry.nextAllocationId + 1 := by
        have hne : registry.nextAllocationId.toNat ≠ 2 ^ 64 - 1 := fun heq =>
          hmax (UInt64.toNat_inj.1 heq)
        have := registry.nextAllocationId.toNat_lt
        rw [UInt64.lt_iff_toNat_lt, UInt64.toNat_add, UInt64.toNat_one]
        omega
      have hbelow : ∀ id ∈ issued trace, id < registry.nextAllocationId := by
        intro id hid
        exact hnextId ▸ h.below id hid
      refine ⟨.ok (some record), _, by rw [step, hcase]; rfl, ?_, ?_, ?_, ?_⟩
      · constructor
        · rw [issued_append, hissued]
          refine List.pairwise_append.2 ⟨h.ascending, List.pairwise_singleton _ _, ?_⟩
          intro id hid id' hid'
          rw [List.mem_singleton.1 hid']
          exact hbelow id hid
        · rw [issued_append, hissued]
          intro id hid
          rcases List.mem_append.1 hid with hid | hid
          · exact h.positive id hid
          · rw [List.mem_singleton.1 hid, ← hnextId]
            exact h.next
        · rw [issued_append, hissued]
          intro id hid
          simp only [Runtime.nextId, hnext]
          rcases List.mem_append.1 hid with hid | hid
          · exact UInt64.lt_trans (hbelow id hid) hlt
          · rw [List.mem_singleton.1 hid]
            exact hlt
        · simp only [Runtime.nextId, hnext]
          exact UInt64.lt_trans (hnextId ▸ h.next) hlt
        · rw [issued_append, active_append, hissued, activeAfter, List.map_append,
            List.map_singleton, hid]
          exact h.sub.append (List.Sublist.refl _)
        · rw [active_append, activeAfter, ← hrecords, ← hrecords']
          rfl
        · rw [active_append, activeAfter, totalBytes_append]
          simp only [Runtime.debugState, hbytes', UInt64.toNat_add, hbytes]
          omega
        · exact fun hidle => absurd (hstate.symm.trans hidle) (by decide)
        · exact fun _ => ⟨_, _, rfl, hidentity⟩
      · exact fun _ hfail => by cases hfail
      · exact fun _ _ _ hop => by cases hop
      · exact fun _ _ hop => by cases hop
  · obtain ⟨failure, hready⟩ := requireReady_of_ne hstate
    refine h.sound_error failure ?_
    rw [step, Runtime.allocate, hready]
    rfl

theorem remove_eq {record : AllocationRecord}
    (hids : (registry.records.map (·.allocationId)).Nodup) (h : record ∈ registry.records) :
    registry.remove record.allocationId =
      .ok { registry with
        allocatedBytes := registry.allocatedBytes - record.allocationBytes
        records := registry.records.filter (·.allocationId ≠ record.allocationId) } := by
  have hfind : registry.records.find? (·.allocationId = record.allocationId) = some record := by
    cases hfind : registry.records.find? (·.allocationId = record.allocationId) with
    | none => exact absurd (List.find?_eq_none.1 hfind record h) (by simp)
    | some found =>
      have hid : found.allocationId = record.allocationId := by
        simpa using List.find?_some hfind
      rw [List.inj_on_of_nodup_map hids (List.mem_of_find?_eq_some hfind) h hid]
  unfold AllocationRegistry.remove
  rw [hfind]

theorem free_cases (view : AllocationView) (device : Result Int)
    (hstate : runtime.state = .ready) (hregistry : runtime.allocations = some registry)
    (hidentity : runtime.deviceIdentity = some identity)
    (hids : (registry.records.map (·.allocationId)).Nodup) :
    (∃ failure, runtime.free view device = .ok (.error failure, runtime)) ∨
      ∃ record ∈ registry.records, view.Complete record ∧ runtime.free view device =
        .ok (.ok (), { runtime with allocations := some { registry with
          allocatedBytes := registry.allocatedBytes - record.allocationBytes
          records := registry.records.filter (·.allocationId ≠ record.allocationId) } }) := by
  unfold Runtime.free
  rw [requireReady_of_eq hstate, engaged_eq hregistry hidentity]
  simp only [bind, Except.bind]
  cases hmatch : registry.matchForFree view with
  | error failure => exact .inl ⟨failure, rfl⟩
  | ok record =>
    cases Runtime.validateCurrentDeviceLocked identity device with
    | error failure => exact .inl ⟨failure, rfl⟩
    | ok _ =>
      obtain ⟨hmem, hcomplete, -⟩ := AllocationRegistry.matchForFree_ok hmatch
      refine .inr ⟨record, hmem, hcomplete, ?_⟩
      simp only [hcomplete.1, remove_eq hids hmem]

theorem Inv.sound_free (h : Inv trace runtime) (view : AllocationView) (device : Result Int) :
    Sound trace runtime (.free view device) := by
  by_cases hstate : runtime.state = .ready
  · obtain ⟨registry, identity, hregistry, hidentity⟩ := h.engaged hstate
    obtain ⟨hrecords, hbytes, hnextId⟩ := h.of_registry hregistry
    have hids := h.nodup_ids
    rw [← hrecords] at hids
    rcases free_cases view device hstate hregistry hidentity hids with
      ⟨failure, hcase⟩ | ⟨record, hmem, hcomplete, hcase⟩
    · exact h.sound_error _ (by rw [step, hcase]; rfl)
    · have hactive : active (trace ++ [(.free view device, .ok none)]) =
          registry.records.filter (·.allocationId ≠ record.allocationId) := by
        rw [active_append, activeAfter, hcomplete.1, hrecords]
      have hissued : issued (trace ++ [(.free view device, .ok none)]) = issued trace := by
        rw [issued_append]
        exact List.append_nil _
      have htotal := totalBytes_filter hids hmem
      refine ⟨.ok none, _, by rw [step, hcase]; rfl, ?_, ?_, ?_, ?_⟩
      · constructor
        · rw [hissued]
          exact h.ascending
        · rw [hissued]
          exact h.positive
        · rw [hissued]
          exact fun id hid => hnextId ▸ h.below id hid
        · exact hnextId ▸ h.next
        · rw [hissued, hactive]
          refine (List.filter_sublist.map _).trans ?_
          rw [hrecords]
          exact h.sub
        · exact hactive.symm
        · rw [hactive]
          rw [← hrecords] at hbytes
          have hlt := record.allocationBytes.toNat_lt
          simp only [Runtime.debugState, UInt64.toNat_sub, hbytes]
          omega
        · exact fun hidle => absurd (hstate.symm.trans hidle) (by decide)
        · exact fun _ => ⟨_, _, rfl, hidentity⟩
      · exact fun _ hfail => by cases hfail
      · intro view' device' result hop _
        obtain ⟨rfl, rfl⟩ := Operation.free.inj hop
        refine ⟨record, ?_, hcomplete⟩
        rw [h.records, ← hrecords]
        exact hmem
      · exact fun _ _ hop => by cases hop
  · obtain ⟨failure, hready⟩ := requireReady_of_ne hstate
    refine h.sound_error failure ?_
    rw [step, Runtime.free, hready]
    rfl

theorem Inv.sound_resolve (h : Inv trace runtime) (view : AllocationView) :
    Sound trace runtime (.resolveAllocation view) := by
  by_cases hstate : runtime.state = .ready
  · obtain ⟨registry, identity, hregistry, hidentity⟩ := h.engaged hstate
    have hcase : runtime.resolveAllocation view = .ok (registry.resolve view, runtime) := by
      rw [Runtime.resolveAllocation, requireReady_of_eq hstate, engaged_eq hregistry hidentity]
      rfl
    cases hresolve : registry.resolve view with
    | error failure =>
      exact h.sound_error failure (by rw [step, hcase, hresolve]; rfl)
    | ok record =>
      refine ⟨.ok (some record), runtime, by rw [step, hcase, hresolve]; rfl, ?_, ?_, ?_, ?_⟩
      · exact h.same rfl rfl
      · exact fun _ hfail => by cases hfail
      · exact fun _ _ _ hop => by cases hop
      · intro view' result hop _
        obtain rfl := Operation.resolveAllocation.inj hop
        obtain ⟨hmem, hid, -, hrange⟩ := AllocationRegistry.resolve_ok hresolve
        refine ⟨record, ?_, hid, hrange⟩
        rw [h.records, ← (h.of_registry hregistry).1]
        exact hmem
  · obtain ⟨failure, hready⟩ := requireReady_of_ne hstate
    refine h.sound_error failure ?_
    rw [step, Runtime.resolveAllocation, hready]
    rfl

/-! ### Shutdown -/

theorem shutdown_cases (finalize : Status) (hstate : runtime.state = .ready)
    (hregistry : runtime.allocations = some registry)
    (hidentity : runtime.deviceIdentity = some identity) :
    (∃ failure, runtime.shutdown finalize = .ok (.error failure, runtime)) ∨
      registry.allocatedCount = 0 ∧
        ((∃ failure, finalize = .error failure ∧ runtime.shutdown finalize =
            .ok (.error failure, { runtime with state := .shutdownFailed })) ∨
          runtime.shutdown finalize =
            .ok (.ok (), ⟨.uninitialized, none, none, registry.nextAllocationId⟩)) := by
  have hne : ¬ (runtime.state = .uninitialized ∨ runtime.state = .shutdownFailed) := by
    rw [hstate]
    decide
  unfold Runtime.shutdown
  rw [if_neg hne, engaged_eq hregistry hidentity]
  simp only [bind, Except.bind]
  by_cases hzero : registry.allocatedCount = 0
  · rw [if_neg (not_not.2 hzero)]
    cases finalize with
    | error failure => exact .inr ⟨hzero, .inl ⟨failure, rfl, rfl⟩⟩
    | ok _ => exact .inr ⟨hzero, .inr rfl⟩
  · rw [if_pos hzero]
    exact .inl ⟨_, rfl⟩

theorem Inv.sound_shutdown (h : Inv trace runtime) (finalize : Status) :
    Sound trace runtime (.shutdown finalize) := by
  by_cases hstate : runtime.state = .ready
  · obtain ⟨registry, identity, hregistry, hidentity⟩ := h.engaged hstate
    obtain ⟨hrecords, -, hnextId⟩ := h.of_registry hregistry
    have hcount : registry.allocatedCount.toNat = (active trace).length := by
      have := h.accounts.count
      rwa [Runtime.debugState, hregistry] at this
    rcases shutdown_cases finalize hstate hregistry hidentity with
      ⟨failure, hcase⟩ | ⟨hzero, ⟨failure, rfl, hcase⟩ | hcase⟩
    · exact h.sound_error _ (by rw [step, hcase]; rfl)
    · refine ⟨.error failure, _, by rw [step, hcase]; rfl, ?_, ?_, ?_, ?_⟩
      · refine h.keep rfl rfl rfl rfl (fun hidle => ?_) fun hready => ?_
        · cases hidle
        · cases hready
      · intro failure' hfail
        cases hfail
        exact ⟨rfl, .inr ⟨rfl, rfl⟩⟩
      · exact fun _ _ _ hop => by cases hop
      · exact fun _ _ hop => by cases hop
    · have hempty : active trace = [] := by
        rw [hzero] at hcount
        exact List.length_eq_zero_iff.1 hcount.symm
      have hactive : active (trace ++ [(.shutdown finalize, .ok none)]) = [] :=
        (active_append _).trans hempty
      have hissued : issued (trace ++ [(.shutdown finalize, .ok none)]) = issued trace := by
        rw [issued_append]
        exact List.append_nil _
      refine ⟨.ok none, _, by rw [step, hcase]; rfl, ?_, ?_, ?_, ?_⟩
      · constructor
        · rw [hissued]
          exact h.ascending
        · rw [hissued]
          exact h.positive
        · rw [hissued]
          exact fun id hid => hnextId ▸ h.below id hid
        · exact hnextId ▸ h.next
        · rw [hactive]
          exact List.nil_sublist _
        · exact hactive.symm
        · rw [hactive]
          rfl
        · exact fun _ => rfl
        · exact fun hready => by cases hready
      · exact fun _ hfail => by cases hfail
      · exact fun _ _ _ hop => by cases hop
      · exact fun _ _ hop => by cases hop
  · have hcase : runtime.shutdown finalize = .ok (.ok (), runtime) := by
      refine if_pos ?_
      cases hs : runtime.state with
      | ready => exact absurd hs hstate
      | uninitialized => exact .inl rfl
      | shutdownFailed => exact .inr rfl
    refine ⟨.ok none, runtime, by rw [step, hcase]; rfl, h.same rfl rfl, ?_, ?_, ?_⟩
    · exact fun _ hfail => by cases hfail
    · exact fun _ _ _ hop => by cases hop
    · exact fun _ _ hop => by cases hop

/-! ### Runs -/

/-- Every operation keeps the invariant and returns what it should. -/
theorem Inv.sound (h : Inv trace runtime) (operation : Operation) :
    Sound trace runtime operation := by
  cases operation with
  | initializeRuntime root config endpoint query status =>
    exact h.sound_initialize root config endpoint query status
  | allocate spec device allocation => exact h.sound_allocate spec device allocation
  | free view device => exact h.sound_free view device
  | resolveAllocation view => exact h.sound_resolve view
  | shutdown finalize => exact h.sound_shutdown finalize

theorem Inv.run (h : Inv trace runtime) (operations : List Operation) :
    ∃ more runtime', run runtime operations = .ok (more, runtime') ∧
      Inv (trace ++ more) runtime' := by
  induction operations generalizing trace runtime with
  | nil => exact ⟨[], runtime, rfl, by rwa [List.append_nil]⟩
  | cons operation operations ih =>
    obtain ⟨response, runtime', hstep, hinv, -⟩ := h.sound operation
    obtain ⟨more, final, hrun, hfinal⟩ := ih hinv
    refine ⟨(operation, response) :: more, final, ?_, ?_⟩
    · rw [Shmem.run, hstep]
      simp only [bind, Except.bind, hrun]
    · rwa [List.append_assoc] at hfinal

/-- In every run no exception is thrown, the identities are distinct and the runtime counts what is
active, with its bytes modulo `2 ^ 64`; and every operation after it returns what it should. -/
theorem runtime_correct (operations : List Operation) :
    ∃ trace runtime, run .new operations = .ok (trace, runtime) ∧ Accounts trace runtime ∧
      ∀ operation, ∃ response runtime', step runtime operation = .ok (response, runtime') ∧
        StepCorrect runtime operation response runtime' := by
  obtain ⟨trace, runtime, hrun, hinv⟩ := Inv.init.run operations
  refine ⟨trace, runtime, hrun, hinv.accounts, fun operation => ?_⟩
  obtain ⟨response, runtime', hstep, -, hcorrect⟩ := hinv.sound operation
  exact ⟨response, runtime', hstep, hcorrect⟩

/-- A runtime on device 0. -/
def startOperation : Operation :=
  .initializeRuntime ⟨0, 1⟩ ⟨1, 1, .mte, "tcp://127.0.0.1:8662"⟩ "tcp://127.0.0.1:8662"
    (.ok ⟨0, .ascend910B, "Ascend910B1"⟩) (.ok ())

/-- An allocation of `2 ^ 63` bytes that CANN grants at an address. -/
def grant (base : UInt64) : Operation := .allocate ⟨0x8000000000000000, 0⟩ (.ok 0) (.ok base)

/-- Two allocations of `2 ^ 63` bytes are counted as none, and an empty view is resolved at an
address that is not in its allocation. -/
theorem not_runtime_totals : ∃ trace runtime,
    run .new [startOperation, grant 4096, grant 8192] = .ok (trace, runtime) ∧
      totalBytes (active trace) = 2 ^ 64 ∧ runtime.debugState.allocatedBytes = 0 ∧
      ∃ record, step runtime (.resolveAllocation ⟨1, 0, 0, 0⟩) =
        .ok (.ok (some record), runtime) ∧ ¬ (⟨1, 0, 0, 0⟩ : AllocationView).Inside record := by
  refine ⟨_, _, rfl, by decide, by decide, _, rfl, fun h => ?_⟩
  exact absurd h.2.1 (by decide)

end HyperParallel.Shmem
