import HyperParallel.WeightSync.ActorRollout
import Mathlib.Tactic.Common

/-!
# Runs of the weight synchronization

* `Staged`, `Receiving`: the controller and the worker inside a publication;
* `Inv`: what holds wherever a call may be interrupted;
* `triple_publish`, `inv_step`: a publication and a call, from their acts;
* `generationVersion_serves`: what the returned versions stand for, in every run.
-/

namespace HyperParallel.WeightSync.SyncState

open Interrupted

variable {ν π : Type*} [DecidableEq ν] {s s' : SyncState ν π} {v floor : ℤ}
  {snapshot : PolicySnapshot ν π}

/-- What holds between any two acts, with a bound on the version the controller has reached. -/
structure Inv (floor : ℤ) (s : SyncState ν π) : Prop where
  floor : floor ≤ s.policyVersion
  behind : s.policyVersion ≤ s.worker.loadedPolicyVersion
  served : s.worker.weightUpdateActive = false → s.Serves s.worker.loadedPolicyVersion
  resting : s.phase ≠ .publishing → s.pendingPolicyVersion = none ∧
    s.worker.weightUpdateActive = false ∧ s.worker.loadedPolicyVersion = s.policyVersion
  staged : s.phase = .publishing → ∃ v, s.pendingPolicyVersion = some v ∧
    (s.deployment = .colocated → s.worker.weightUpdateActive = true →
      s.worker.loadedPolicyVersion ≠ v)

/-- A snapshot of version `v` is being published. -/
structure Staged (floor v : ℤ) (s : SyncState ν π) : Prop where
  floor : floor ≤ s.policyVersion
  phase : s.phase = .publishing
  pending : s.pendingPolicyVersion = some v
  newer : s.policyVersion < v

/-- The worker has received the buckets `done` of the snapshot, and the first entries of another. -/
structure Receiving (floor v : ℤ) (entries : List (ν × π)) (s : SyncState ν π) : Prop
    extends Staged floor v s where
  active : s.worker.weightUpdateActive = true
  behind : s.policyVersion ≤ s.worker.loadedPolicyVersion
  held : s.deployment = .colocated → s.worker.loadedPolicyVersion ≠ v
  unmixed : ∀ version ∈ s.worker.pendingPolicyVersion, version = v
  entries : ∃ weights, s.worker.weights = loaded weights entries

theorem Receiving.inv {entries : List (ν × π)} (h : Receiving floor v entries s) : Inv floor s where
  floor := h.floor
  behind := h.behind
  served hidle := absurd (h.active.symm.trans hidle) (by simp)
  resting hphase := absurd h.phase hphase
  staged _ := ⟨v, h.pending, fun hd _ => h.held hd⟩

/-- The snapshot is committed, and not exposed yet. -/
theorem Staged.inv (h : Staged floor v s) (hserves : s.Serves v) : Inv floor s where
  floor := h.floor
  behind := by
    rw [hserves.committed]
    exact h.newer.le
  served _ := hserves.committed.symm ▸ hserves
  resting hphase := absurd h.phase hphase
  staged _ := ⟨v, h.pending, fun _ hactive => absurd (hserves.idle.symm.trans hactive) (by simp)⟩

/-- A version the worker serves is exposed. -/
theorem inv_expose (hserves : s.Serves v) (hfloor : floor ≤ v) : Inv floor
    { s with policyVersion := v, pendingPolicyVersion := none, phase := .rollout } where
  floor := hfloor
  behind := hserves.committed.ge
  served _ := ⟨rfl, hserves.idle, hserves.clean, hserves.last.trans hserves.committed.symm,
    hserves.whole⟩
  resting _ := ⟨rfl, hserves.idle, hserves.committed⟩
  staged hphase := nomatch hphase

theorem loaded_append (weights : ν → π) (entries : List (ν × π)) (x : ν × π) :
    Function.update (loaded weights entries) x.1 x.2 = loaded weights (entries ++ [x]) := by
  rw [loaded, loaded, List.foldl_append]
  rfl

omit [DecidableEq ν] in
theorem onWorker_eq_some {f : Worker ν π → Option (Worker ν π)} (h : onWorker f s = some s') :
    ∃ worker, f s.worker = some worker ∧ s' = { s with worker := worker } := by
  obtain ⟨worker, hworker, rfl⟩ := Option.map_eq_some_iff.1 h
  exact ⟨worker, hworker, rfl⟩

/-- One bucket is received. -/
theorem triple_receive (entries bucket : List (ν × π)) :
    Triple (Receiving floor v entries) (receive v bucket)
      (Receiving floor v (entries ++ bucket)) (Inv floor) := by
  have hload : Triple (Receiving floor v (entries ++ []))
      (bucket.flatMap fun x => [onWorker (Worker.load x)])
      (Receiving floor v (entries ++ ([] ++ bucket))) (Inv floor) := by
    refine Triple.flatten (I := fun done => Receiving floor v (entries ++ done)) (fun done x => ?_) []
    refine Triple.cons (fun s hs => hs.inv) (fun s s' hs hact => ?_) (Triple.nil fun _ hs => hs)
    obtain ⟨worker, hworker, rfl⟩ := onWorker_eq_some hact
    obtain rfl := Option.some.inj hworker
    obtain ⟨weights, hweights⟩ := hs.entries
    refine ⟨⟨hs.floor, hs.phase, hs.pending, hs.newer⟩, hs.active, hs.behind, hs.held, hs.unmixed,
      weights, ?_⟩
    rw [← List.append_assoc, ← loaded_append, ← hweights]
  rw [List.append_nil, List.nil_append, ← List.map_eq_flatMap] at hload
  rw [receive, List.append_assoc, List.cons_append, List.cons_append, List.nil_append]
  refine Triple.skip (fun s hs => hs.inv) (Triple.cons (fun s hs => hs.inv) (M := Receiving floor v
    entries) (fun s s' hs hact => ?_) (hload.append ?_))
  · obtain ⟨worker, hworker, rfl⟩ := onWorker_eq_some hact
    rw [Worker.validateUpdate] at hworker
    split_ifs at hworker
    obtain rfl := Option.some.inj hworker
    exact hs
  · refine Triple.cons (fun s hs => hs.inv) (fun s s' hs hact => ?_)
      (Triple.skip (fun s hs => hs.inv) (Triple.nil fun _ hs => hs))
    obtain ⟨worker, hworker, rfl⟩ := onWorker_eq_some hact
    obtain rfl := Option.some.inj hworker
    exact ⟨⟨hs.floor, hs.phase, hs.pending, hs.newer⟩, hs.active, hs.behind, hs.held,
      fun version hversion => (Option.some.inj hversion).symm, hs.entries⟩

/-- A publication runs from a staged snapshot to one the worker serves. -/
theorem triple_publish (snapshot : PolicySnapshot ν π) :
    Triple (fun s => Inv floor s ∧ Staged floor snapshot.version s ∧
        (s.deployment = .colocated → s.worker.loadedPolicyVersion ≠ snapshot.version))
      (publish snapshot) (fun s => Staged floor snapshot.version s ∧ s.Serves snapshot.version)
      (Inv floor) := by
  rw [publish, List.append_assoc]
  simp only [List.cons_append, List.nil_append]
  refine Triple.skip (fun s hs => hs.1) (Triple.skip (fun s hs => hs.1)
    (Triple.skip (fun s hs => hs.1) (Triple.cons (fun s hs => hs.1)
      (M := Receiving floor snapshot.version ([] : List (List (ν × π))).flatten)
      (fun s s' hs hact => ?_) (Triple.append (M := Receiving floor snapshot.version
        ([] ++ snapshot.buckets).flatten) (Triple.flatten (I := fun done =>
          Receiving floor snapshot.version done.flatten) (fun done bucket => ?_) []) ?_))))
  · obtain ⟨hinv, hstaged, hheld⟩ := hs
    obtain ⟨worker, hworker, rfl⟩ := onWorker_eq_some hact
    rw [Worker.startWeightUpdate] at hworker
    split_ifs at hworker
    obtain rfl := Option.some.inj hworker
    exact ⟨⟨hstaged.floor, hstaged.phase, hstaged.pending, hstaged.newer⟩, rfl, hinv.behind, hheld,
      fun version hversion => (nomatch hversion), s.worker.weights, rfl⟩
  · rw [List.flatten_append, List.flatten_singleton]
    exact triple_receive _ _
  · refine Triple.skip (fun s hs => hs.inv) (Triple.cons (fun s hs => hs.inv)
      (M := fun s => Staged floor snapshot.version s ∧ s.Serves snapshot.version)
      (fun s s' hs hact => ?_) (Triple.cons (fun s hs => hs.1.inv hs.2) (fun s s' hs hact => ?_)
        (Triple.nil fun _ hs => hs)))
    · obtain ⟨worker, hworker, rfl⟩ := Option.map_eq_some_iff.1 hact
      rw [Worker.finishWeightUpdate, if_neg (not_not.2 hs.active)] at hworker
      obtain ⟨version, hversion, rfl⟩ := Option.map_eq_some_iff.1 hworker
      obtain rfl := hs.unmixed version hversion
      exact ⟨⟨hs.floor, hs.phase, hs.pending, hs.newer⟩, rfl, rfl, rfl, by simp,
        by simpa using hs.entries⟩
    · rw [checkVersion] at hact
      split_ifs at hact
      obtain rfl := Option.some.inj hact
      exact hs

theorem triple_prepareForTraining {acts : List (Act (SyncState ν π))}
    (h : s.prepareForTraining = some acts) (hs : Inv floor s) :
    Triple (· = s) acts (Inv floor) (Inv floor) := by
  rw [prepareForTraining] at h
  split_ifs at h with hdeployment hphase
  · obtain rfl := Option.some.inj h
    exact Triple.nil fun t ht => ht ▸ hs
  obtain rfl := Option.some.inj h
  have hleave : ∀ t, t = s → Inv floor t := fun t ht => ht ▸ hs
  refine Triple.skip hleave (Triple.cons hleave (M := (· = s)) (fun t t' ht hact => ?_)
    (Triple.skip hleave (Triple.skip hleave (Triple.cons hleave (fun t t' ht hact => ?_)
      (Triple.nil fun _ h => h)))))
  · rw [checkVersion] at hact
    split_ifs at hact
    exact (Option.some.inj hact).symm.trans ht
  · obtain rfl := Option.some.inj hact
    subst ht
    have hrest := hs.resting (by
      rw [not_not.1 hphase]
      decide)
    exact ⟨hs.floor, hs.behind, fun hidle => by
      obtain ⟨h₁, h₂, h₃, h₄, h₅⟩ := hs.served hidle
      exact ⟨h₁, h₂, h₃, h₄, h₅⟩, fun _ => hrest, fun hphase => nomatch hphase⟩

theorem Serves.congr (h : s.Serves v) (hworker : s'.worker = s.worker)
    (hpublications : s'.publications = s.publications) : s'.Serves v := by
  obtain ⟨hcommitted, hidle, hclean, hlast, hwhole⟩ := h
  rw [← hworker] at hcommitted hidle hclean hwhole
  rw [← hpublications] at hlast hwhole
  exact ⟨hcommitted, hidle, hclean, hlast, hwhole⟩

/-- A newer version is staged. -/
theorem triple_stage (hs : Inv floor s) (hversion : s.policyVersion < v)
    (hheld : s.deployment = .colocated → s.worker.loadedPolicyVersion ≠ v) :
    Triple (· = s) [client .serverStartup, stage v]
      (fun s => Inv floor s ∧ Staged floor v s ∧
        (s.deployment = .colocated → s.worker.loadedPolicyVersion ≠ v)) (Inv floor) := by
  have hleave : ∀ t, t = s → Inv floor t := fun t ht => ht ▸ hs
  refine Triple.skip hleave (Triple.cons hleave (fun t t' ht hact => ?_) (Triple.nil fun _ h => h))
  subst ht
  obtain rfl := Option.some.inj hact
  exact ⟨⟨hs.floor, hs.behind, fun hidle => (hs.served hidle).congr rfl rfl,
    fun hphase => absurd rfl hphase, fun _ => ⟨v, rfl, fun hd _ => hheld hd⟩⟩,
    ⟨hs.floor, rfl, rfl, hversion⟩, hheld⟩

/-- Admission is resumed, and a version that the worker serves is exposed. -/
theorem triple_expose {P : SyncState ν π → Prop} {checkResidency : Bool}
    (h : ∀ s, P s → Inv floor s ∧ s.Serves v ∧ floor ≤ v) :
    Triple P (resumeRollout checkResidency ++ [expose v]) (Inv floor) (Inv floor) := by
  have hexpose : Triple P [expose v] (Inv floor) (Inv floor) := by
    refine Triple.cons (fun s hs => (h s hs).1) (fun s s' hs hact => ?_) (Triple.nil fun _ h => h)
    obtain rfl := Option.some.inj hact
    exact inv_expose (h s hs).2.1 (h s hs).2.2
  rw [resumeRollout]
  split_ifs
  · exact Triple.skip (fun s hs => (h s hs).1) (Triple.skip (fun s hs => (h s hs).1) hexpose)
  · exact Triple.skip (fun s hs => (h s hs).1) hexpose

theorem triple_updateWeights {acts : List (Act (SyncState ν π))}
    (h : s.updateWeights snapshot = some acts) (hs : Inv floor s) :
    Triple (· = s) acts (Inv floor) (Inv floor) := by
  rw [updateWeights] at h
  split_ifs at h with hmodel hversion htransfer hphase hdeployment
  all_goals obtain rfl := Option.some.inj h
  · have htraining : s.phase = .training := not_not.1 fun hp => hphase ⟨hdeployment, hp⟩
    have hrest := hs.resting (by
      rw [htraining]
      decide)
    have hstage := triple_stage hs (not_le.1 hversion) fun _ => by
      rw [hrest.2.2]
      exact (not_le.1 hversion).ne
    refine ((hstage.append ?_).append (triple_publish snapshot)).append
      (Triple.nil fun s hs => hs.1.inv hs.2)
    exact Triple.skip (fun s hs => hs.1) (Triple.nil fun _ hs => hs)
  · have hstage := triple_stage hs (not_le.1 hversion) fun hd => absurd hd hdeployment
    refine ((hstage.append ?_).append (triple_publish snapshot)).append (triple_expose fun s hs =>
      ⟨hs.1.inv hs.2, hs.2, hs.1.floor.trans hs.1.newer.le⟩)
    exact Triple.nil fun _ hs => hs

theorem triple_prepareForRollout {acts : List (Act (SyncState ν π))}
    (h : s.prepareForRollout = some acts) (hs : Inv floor s) :
    Triple (· = s) acts (Inv floor) (Inv floor) := by
  have hleave : ∀ t, t = s → Inv floor t := fun t ht => ht ▸ hs
  rw [prepareForRollout] at h
  split_ifs at h with hdeployment
  · obtain rfl := Option.some.inj h
    exact Triple.nil hleave
  rw [not_not] at hdeployment
  split at h
  case h_1 => cases h
  case h_2 => cases h
  case h_3 pending hphase hpending =>
    obtain rfl := Option.some.inj h
    obtain ⟨v, hv, hheld⟩ := hs.staged hphase
    obtain rfl := Option.some.inj (hpending.symm.trans hv)
    have hcheck : Triple (· = s) [client .serverStartup, client .wakeUpKvCache, client .pause,
        client .isPaused, checkVersion pending]
        (fun t => t = s ∧ s.worker.loadedPolicyVersion = pending) (Inv floor) := by
      refine Triple.skip hleave (Triple.skip hleave (Triple.skip hleave (Triple.skip hleave
        (Triple.cons hleave (fun t t' ht hact => ?_) (Triple.nil fun _ h => h)))))
      subst ht
      rw [checkVersion] at hact
      split_ifs at hact with heq
      exact ⟨(Option.some.inj hact).symm, heq⟩
    rw [List.append_assoc]
    refine hcheck.append (triple_expose fun t ⟨ht, heq⟩ => ?_)
    subst ht
    -- the worker cannot be in the middle of an update that it has committed
    have hidle : t.worker.weightUpdateActive = false := by
      rw [← Bool.not_eq_true]
      exact fun hactive => hheld hdeployment hactive heq
    have hserves := hs.served hidle
    exact ⟨hs, heq ▸ hserves, heq ▸ hs.floor.trans hs.behind⟩
  case h_4 hphase =>
    obtain rfl := Option.some.inj h
    obtain ⟨hnone, hidle, heq⟩ := hs.resting (by
      rw [hphase]
      decide)
    rw [List.append_assoc, hnone]
    refine Triple.skip hleave (Triple.skip hleave (triple_expose fun t ht => ?_))
    subst ht
    have hserves := hs.served hidle
    rw [heq] at hserves
    exact ⟨hs, hserves, hs.floor⟩

theorem inv_step {call : SyncCall ν π × ℕ} (hs : Inv floor s) : Inv floor (s.step call) := by
  rw [step]
  cases hacts : s.acts call.1 with
  | none => exact hs
  | some acts =>
    have htriple : Triple (· = s) acts (Inv floor) (Inv floor) := by
      obtain ⟨call, fault⟩ := call
      cases call with
      | prepareForTraining => exact triple_prepareForTraining hacts hs
      | updateWeights snapshot => exact triple_updateWeights hacts hs
      | prepareForRollout => exact triple_prepareForRollout hacts hs
      | generationVersion =>
        obtain rfl := Option.some.inj hacts
        exact Triple.nil fun t ht => ht ▸ hs
    simpa using htriple s call.2 rfl

theorem inv_run {calls : List (SyncCall ν π × ℕ)} (hs : Inv floor s) : Inv floor (s.run calls) := by
  induction calls generalizing s with
  | nil => exact hs
  | cons call calls ih => exact ih (inv_step hs)

omit [DecidableEq ν] in
theorem generationVersion_eq_some (h : s.generationVersion = some v) :
    s.phase = .rollout ∧ s.worker.loadedPolicyVersion = v ∧ s.policyVersion = v := by
  rw [generationVersion] at h
  split_ifs at h with hphase hversion
  obtain rfl := Option.some.inj h
  rw [not_or, not_not] at hphase
  exact ⟨hphase.1, rfl, (not_not.1 hversion).symm⟩

theorem serves_of_generationVersion (hs : Inv floor s) (h : s.generationVersion = some v) :
    s.Serves v := by
  obtain ⟨hphase, rfl, -⟩ := generationVersion_eq_some h
  refine hs.served (hs.resting ?_).2.1
  rw [hphase]
  decide

/-- The versions a run returns do not fall below the version the controller has reached, and do not
decrease. -/
theorem pairwise_versions {calls : List (SyncCall ν π × ℕ)} (hs : Inv floor s) :
    (∀ v ∈ s.versions calls, floor ≤ v) ∧ (s.versions calls).Pairwise (· ≤ ·) := by
  induction calls generalizing s floor with
  | nil => exact ⟨fun v hv => absurd hv List.not_mem_nil, List.Pairwise.nil⟩
  | cons call calls ih =>
    rw [versions]
    cases hreturned : s.returned call with
    | none => exact ih (inv_step hs)
    | some v =>
      have hv : s.policyVersion = v := by
        obtain ⟨call, fault⟩ := call
        cases call with
        | generationVersion =>
          cases fault with
          | zero => cases hreturned
          | succ fault => exact (generationVersion_eq_some hreturned).2.2
        | _ => cases hreturned
      have hs' : Inv v s := ⟨hv.ge, hs.behind, hs.served, hs.resting, hs.staged⟩
      obtain ⟨hle, hpairwise⟩ := ih (inv_step hs')
      refine ⟨fun w hw => ?_, List.Pairwise.cons hle hpairwise⟩
      have hfloor : floor ≤ v := hv ▸ hs.floor
      rcases List.mem_cons.1 hw with rfl | hw
      · exact hfloor
      · exact hfloor.trans (hle w hw)

theorem inv_initial (modelName : String) (deployment : Deployment) (weightTransfer : Bool)
    (weights : ν → π) : Inv 0 (initial modelName deployment weightTransfer weights) where
  floor := le_rfl
  behind := le_rfl
  served _ := ⟨rfl, rfl, rfl, rfl, fun _ h => nomatch h⟩
  resting _ := ⟨rfl, rfl, rfl⟩
  staged hphase := nomatch hphase

/-- In every run, whatever fails in it, a version that `generation_version` returns is the one the
worker serves, and the versions do not decrease. -/
theorem generationVersion_serves (modelName : String) (deployment : Deployment)
    (weightTransfer : Bool) (weights : ν → π) (calls : List (SyncCall ν π × ℕ)) :
    (∀ v, ((initial modelName deployment weightTransfer weights).run calls).generationVersion =
        some v →
      ((initial modelName deployment weightTransfer weights).run calls).Serves v) ∧
    ((initial modelName deployment weightTransfer weights).versions calls).Pairwise (· ≤ ·) :=
  ⟨fun _ h => serves_of_generationVersion (inv_run (inv_initial _ _ _ _)) h,
    (pairwise_versions (inv_initial _ _ _ _)).2⟩

/-- A colocated round trip with two buckets. -/
theorem generationVersion_serves_two_buckets :
    let calls : List (SyncCall ℕ ℕ × ℕ) := [(.prepareForTraining, 9),
      (.updateWeights ⟨"actor", 3, [[(0, 5), (1, 6)], [(2, 7)]]⟩, 99), (.prepareForRollout, 9),
      (.generationVersion, 1)]
    ((initial "actor" .colocated true fun _ => 0).run calls).generationVersion = some 3 ∧
      ((initial "actor" .colocated true fun _ => 0).run calls).Serves 3 ∧
      ((initial "actor" .colocated true fun _ => 0).versions calls).Pairwise (· ≤ ·) :=
  ⟨by decide, (generationVersion_serves "actor" .colocated true (fun _ => 0) _).1 3 (by decide),
    (generationVersion_serves "actor" .colocated true (fun _ => 0) _).2⟩

end HyperParallel.WeightSync.SyncState
