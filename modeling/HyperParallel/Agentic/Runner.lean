import HyperParallel.Agentic.Session
import HyperParallel.Lib.Lockstep

/-!
# The agent runner

`rl/rl/agentic/core/runner.py`.

* `Rank`: what a rank is given, and what fails on it;
* `rolloutAsync`: `AgentRunner.rollout_async`, a program that calls `synchronize_error` and
  `generate`;
* `Collective`: the replies of the engine.
-/

namespace HyperParallel.Agentic

open Lockstep

/-! ### Calls of the engine -/

/-- `GenerationSettings`, what the runner itself reads. -/
structure Settings where
  maxNewTokens : ℤ
  padTokenId : ℤ
  seed : Option ℤ

structure Request where
  inputIds : List (List ℤ)
  attentionMask : List (List Bool)
  settings : Settings
  rowSeeds : Option (List ℤ)

/-- A call, with the sessions a request is made for. -/
inductive Call (P : Type)
  | synchronizeError (operation : String) (error : Option String)
  | generate (request : Request) (sessions : List (Session P))

namespace Call

variable {P : Type}

/-- What a call returns, `R` a generation result. -/
def Returns (R : Type) : Call P → Type
  | .synchronizeError .. => Unit
  | .generate .. => R

abbrev Reply (R : Type) (call : Call P) : Type := Except String (call.Returns R)

/-- The operation of a `synchronize_error`, none for a `generate`. -/
def operation : Call P → Option String
  | .synchronizeError operation _ => some operation
  | .generate .. => none

/-- The error a rank passes. -/
def error : Call P → Option String
  | .synchronizeError _ error => error
  | .generate .. => none

end Call

def Raises {α : Type} (reply : Except String α) : Prop := ∃ error, reply = .error error

/-- The engine: a call raises on every rank or on none, and `synchronize_error` where some rank has
passed an error. -/
structure Collective {P R : Type} {ι : Type*} (call : ι → Call P)
    (reply : ∀ i, (call i).Reply R) : Prop where
  together : ∀ i j, Raises (reply i) → Raises (reply j)
  error : (∀ i, (call i).operation ≠ none) →
    ∀ i, Raises (reply i) ↔ ∃ j, (call j).error ≠ none

/-! ### A rank -/

/-- A session of a rank, and how often it has been closed. -/
structure Slot (P : Type) where
  promptId : String
  sampleIndex : ℕ
  session : Session P
  closes : ℕ

/-- What a rank is given, and what its environments, its tokenizer and its tensors do. Sessions are
counted in the order they are created in. -/
structure Rank (P R B : Type) where
  prompts : List String
  numSamples : ℕ
  numSamples_pos : 0 < numSamples
  settings : Settings
  /-- `engine.policy_version` -/
  engineVersion : Option ℕ
  /-- `prompt_index` of `_canonical_row_seed` -/
  promptIndex : String → ℤ
  /-- building the encoder, the environment and the session -/
  create : ℕ → Option String
  reset : ℕ → Except String Observation
  /-- the tensors of a turn's request -/
  requestError : ℕ → Option String
  /-- `_validate_generation_result` -/
  validate : ℕ → R → Option String
  workerPolicyVersion : R → Option ℤ
  /-- the actions of `_decode_actions` -/
  decode : ℕ → R → Except String (ℕ → Action P)
  recordError : ℕ → ℕ → Option String
  envStep : ℕ → ℕ → Except String Transition
  finishError : ℕ → Option String
  closeError : ℕ → Option String
  buildError : ℕ → Option String
  /-- `_build_batch` -/
  buildBatch : List (Trajectory P) → Except String B

/-- The sessions some statements leave, and what they return or raise. -/
abbrev Outcome (P α : Type) := List (Slot P) × Except String α

abbrev Program (P R α : Type) := Prog (Call P) (Call.Reply R) α

variable {P R B α β : Type}

/-- What has been raised. -/
def raised : Except String α → Option String
  | .ok _ => none
  | .error error => some error

def toExcept (error : Option String) : Except String Unit :=
  match error with
  | none => .ok ()
  | some error => .error error

/-- The next statement runs where none before it has raised. -/
def andThen (program : Program P R (Outcome P α))
    (next : List (Slot P) → α → Program P R (Outcome P β)) : Program P R (Outcome P β) :=
  program.bind fun out =>
    match out.2 with
    | .ok value => next out.1 value
    | .error error => .done (out.1, .error error)

/-- A loop over the sessions, up to the first that raises. -/
def forEach (body : ℕ → Slot P → Slot P × Option String) : ℕ → List (Slot P) → Outcome P Unit
  | _, [] => ([], .ok ())
  | i, slot :: slots =>
    let after := body i slot
    match after.2 with
    | some error => (after.1 :: slots, .error error)
    | none =>
      let rest := forEach body (i + 1) slots
      (after.1 :: rest.1, rest.2)

/-- `_gather_session_operations`: every session runs, and all that is raised is reported. -/
def gatherSessionOperations (operation : String) (body : ℕ → Slot P → Slot P × Option String)
    (slots : List (Slot P)) : Outcome P Unit :=
  let results := slots.mapIdx body
  let errors := results.filterMap (·.2)
  let listed := ", ".intercalate (errors.map fun error => s!"'{error}'")
  (results.map (·.1), if errors.isEmpty then .ok () else .error s!"{operation} failed: [{listed}]")

/-- An operation of the session alone. -/
def Slot.lift (slot : Slot P) (result : Result P) : Slot P × Option String :=
  ({ slot with session := result.1 }, result.2)

/-- `_synchronize_error` -/
def synchronizeError (error : Option String) (operation : String) :
    Program P R (Except String Unit) :=
  .call (.synchronizeError operation error) .done

/-- Statements under `try`, and `_synchronize_error` behind them. -/
def synchronized (operation : String) (out : Outcome P Unit) : Program P R (Outcome P Unit) :=
  (synchronizeError (raised out.2) operation).bind fun reply => .done (out.1, reply)

/-- The same where the statements compute a value that the code reads afterwards. -/
def synchronizedValue (operation missing : String) (out : Outcome P α) :
    Program P R (Outcome P α) :=
  (synchronizeError (raised out.2) operation).bind fun reply =>
    match reply, out.2 with
    | .error error, _ => .done (out.1, .error error)
    | .ok _, .ok value => .done (out.1, .ok value)
    | .ok _, .error _ =>
      .done (out.1, .error s!"{missing} failed without a synchronized error")

/-! ### Setup -/

/-- The sessions built before the first that fails. -/
def createSessions (create : ℕ → Option String) : ℕ → List (String × ℕ) → Outcome P Unit
  | _, [] => ([], .ok ())
  | i, (promptId, sampleIndex) :: samples =>
    match create i with
    | some error => ([], .error error)
    | none =>
      let rest := createSessions create (i + 1) samples
      (⟨promptId, sampleIndex, {}, 0⟩ :: rest.1, rest.2)

/-- `_populate_sessions` -/
def populateSessions (c : Limits) (r : Rank P R B) : Outcome P Unit :=
  let engineVersion := r.engineVersion.getD c.policyVersion
  if r.prompts.isEmpty then ([], .error "AgentRunner requires at least one PromptRecord")
  else if engineVersion ≠ c.policyVersion then
    ([], .error (s!"Rollout requested a stale or unpublished policy snapshot: " ++
      s!"engine={engineVersion}, requested={c.policyVersion}"))
  else createSessions r.create 0
    (r.prompts.flatMap fun promptId => (List.range r.numSamples).map (promptId, ·))

/-- `session.close()` -/
def Slot.close (r : Rank P R B) (i : ℕ) (slot : Slot P) : Slot P × Option String :=
  ({ slot with closes := slot.closes + 1 }, r.closeError i)

/-- The handler of `_synchronize_setup`. -/
def cleanUpSetup (r : Rank P R B) (slots : List (Slot P)) (setupError : String) :
    Program P R (Outcome P Unit) :=
  let cleaned := gatherSessionOperations "rollout setup cleanup" (Slot.close r) slots
  (synchronizeError (raised cleaned.2) "rollout setup cleanup").bind fun
    | .ok _ => .done (cleaned.1, .error setupError)
    | .error error => .done (cleaned.1,
        .error s!"{setupError}; rollout setup cleanup also failed: {error}")

/-- `_synchronize_setup` -/
def synchronizeSetup (r : Rank P R B) (out : Outcome P Unit) : Program P R (Outcome P Unit) :=
  (synchronizeError (raised out.2) "rollout setup").bind fun
    | .ok _ => .done (out.1, .ok ())
    | .error setupError => cleanUpSetup r out.1 setupError

variable [Zero P]

/-! ### A turn -/

/-- `remaining_token_budget` -/
def remainingTokenBudget (c : Limits) (s : Session P) : Option ℤ :=
  c.maxEpisodeTokens.map fun limit => (limit : ℤ) - s.tokenCount

/-- The first loop of `_settings_for_turn`. -/
def limitContext (c : Limits) (slot : Slot P) : Slot P × Option String :=
  match slot.session.active, remainingTokenBudget c slot.session with
  | true, some remaining =>
    if 0 < remaining then (slot, none)
    else if slot.session.turnCount = 0 then
      (slot, some (s!"Initial observation leaves no token budget for an agent action: " ++
        s!"prompt_id='{slot.promptId}', max_episode_tokens={c.maxEpisodeTokens.getD 0}"))
    else (slot.lift (finishContextLimit slot.session, none))
  | _, _ => (slot, none)

def activeSessions (slots : List (Slot P)) : List (Session P) :=
  (slots.map (·.session)).filter (·.active)

/-- The settings that `_settings_for_turn` returns. -/
def turnSettings (c : Limits) (settings : Settings) (slots : List (Slot P)) : Settings :=
  let active := activeSessions slots
  let finiteBudgets := active.filterMap (remainingTokenBudget c)
  if active.isEmpty then { settings with maxNewTokens := 1 }
  else { settings with maxNewTokens := finiteBudgets.foldl min settings.maxNewTokens }

/-- `_settings_for_turn` -/
def settingsForTurn (c : Limits) (settings : Settings) (slots : List (Slot P)) :
    Outcome P Settings :=
  let limited := forEach (fun _ => limitContext c) 0 slots
  (limited.1, limited.2.map fun _ => turnSettings c settings limited.1)

/-- The tokens that `_left_pad_sessions` takes of a session. -/
def paddedTokens (s : Session P) : Except String (List ℤ) :=
  match (tokenIds s).1 with
  | none => .error "AgentSession has not been started"
  | some tokens => .ok (if s.active then tokens else tokens.take 1)

/-- `_left_pad_sessions` -/
def leftPadSessions (padTokenId : ℤ) (slots : List (Slot P)) :
    Except String (List (List ℤ) × List (List Bool)) := do
  let rows ← slots.mapM fun slot => paddedTokens slot.session
  let length := (rows.map List.length).foldl max 0
  if length ≠ 0 ∧ rows.any (·.isEmpty) then
    .error s!"The expanded size of the tensor ({length}) must match the existing size (0)"
  else
    .ok (rows.map fun row => List.replicate (length - row.length) padTokenId ++ row,
      rows.map fun row => List.replicate (length - row.length) false ++
        List.replicate row.length true)

/-- `_canonical_row_seed` -/
def canonicalRowSeed (r : Rank P R B) (seed : ℤ) (slot : Slot P) : Except String ℤ :=
  let promptIndex := r.promptIndex slot.promptId
  if promptIndex < 0 then
    .error s!"Prompt IDs used for seeded rollout must be non-negative, got '{slot.promptId}'"
  else .ok (seed + promptIndex * r.numSamples + slot.sampleIndex)

/-- The request for some settings. -/
def buildRequest (r : Rank P R B) (turn : ℕ) (settings : Settings) (slots : List (Slot P)) :
    Except String Request := do
  let (inputIds, attentionMask) ← leftPadSessions r.settings.padTokenId slots
  toExcept (r.requestError turn)
  match settings.seed with
  | none => .ok ⟨inputIds, attentionMask, settings, none⟩
  | some seed =>
    let rowSeeds ← slots.mapM (canonicalRowSeed r seed)
    .ok ⟨inputIds, attentionMask, settings, some rowSeeds⟩

/-- `_prepare_generation_request` -/
def prepareGenerationRequest (c : Limits) (r : Rank P R B) (turn : ℕ) (slots : List (Slot P)) :
    Outcome P (List Bool × Request) :=
  let limited := settingsForTurn c r.settings slots
  (limited.1, limited.2.bind fun settings =>
    (buildRequest r turn settings limited.1).map
      fun request => (limited.1.map (·.session.active), request))

/-- `_apply_generation_result` with `_decode_actions` -/
def applyGenerationResult (c : Limits) (r : Rank P R B) (turn : ℕ) (slots : List (Slot P))
    (active : List Bool) (result : R) : Outcome P Unit :=
  match r.validate turn result with
  | some error => (slots, .error error)
  | none =>
    let recorded := forEach (fun i slot =>
      if active.getD i false then
        slot.lift (recordWorkerPolicyVersion slot.session (r.workerPolicyVersion result))
      else (slot, none)) 0 slots
    match recorded.2, r.decode turn result with
    | .error error, _ => (recorded.1, .error error)
    | .ok _, .error error => (recorded.1, .error error)
    | .ok _, .ok actions =>
      gatherSessionOperations "session apply" (fun i slot =>
        if active.getD i false then
          slot.lift (apply c slot.session (actions i) (r.recordError turn i) (r.envStep turn i))
        else (slot, none)) recorded.1

/-- A turn of `_run_session_turns`. -/
def runTurn (c : Limits) (r : Rank P R B) (turn : ℕ) (slots : List (Slot P)) :
    Program P R (Outcome P Unit) :=
  andThen (synchronizedValue "generation request preparation" "Generation request preparation"
      (prepareGenerationRequest c r turn slots)) fun slots prepared =>
    .call (.generate prepared.2 (slots.map (·.session))) fun
      | .error error => .done (slots, .error error)
      | .ok result => synchronized "generation postprocessing"
          (applyGenerationResult c r turn slots prepared.1 result)

/-- The loop over the turns, of which some remain. -/
def runTurns (c : Limits) (r : Rank P R B) : ℕ → List (Slot P) → Program P R (Outcome P Unit)
  | 0, slots => .done (slots, .ok ())
  | remaining + 1, slots =>
    andThen (runTurn c r (c.maxTurns - (remaining + 1)) slots) fun slots _ =>
      runTurns c r remaining slots

/-! ### The rollout -/

/-- `session.finish_max_turns()` -/
def finishSlot (r : Rank P R B) (i : ℕ) (slot : Slot P) : Slot P × Option String :=
  match r.finishError i with
  | some error => (slot, some error)
  | none => slot.lift (finishMaxTurns slot.session, none)

/-- `_run_session_turns` -/
def runSessionTurns (c : Limits) (r : Rank P R B) (slots : List (Slot P)) :
    Program P R (Outcome P Unit) :=
  let started := gatherSessionOperations "session start"
    (fun i slot => slot.lift (start c slot.session (r.reset i))) slots
  andThen (synchronized "agent session start" started) fun slots _ =>
    andThen (runTurns c r c.maxTurns slots) fun slots _ =>
      synchronized "agent session finalization" (forEach (finishSlot r) 0 slots)

/-- What `_run_sessions` passes on of the errors of the turns and of the close. -/
def combinedError : Option String → Option String → Option String
  | some primary, some closing =>
    some s!"Agent rollout failed: {primary}; session close also failed: {closing}"
  | some primary, none => some primary
  | none, closing => closing

/-- `session.build()` of every session, up to the first that raises. -/
def buildTrajectories (c : Limits) (r : Rank P R B) (slots : List (Slot P)) :
    Except String (List (Trajectory P)) :=
  (slots.mapIdx fun i slot =>
    (toExcept (r.buildError i)).bind fun _ => build c slot.session).mapM id

/-- `_run_sessions` -/
def runSessions (c : Limits) (r : Rank P R B) (slots : List (Slot P)) :
    Program P R (Outcome P (List (Trajectory P))) :=
  (runSessionTurns c r slots).bind fun turns =>
    let closed := gatherSessionOperations "session close" (Slot.close r) turns.1
    let error := combinedError (raised turns.2) (raised closed.2)
    andThen (synchronized "agent rollout and session close" (closed.1, toExcept error))
      fun slots _ =>
        synchronizedValue "trajectory construction" "Trajectory construction"
          (slots, buildTrajectories c r slots)

/-- `rollout_async` -/
def rolloutAsync (c : Limits) (r : Rank P R B) : Program P R (Outcome P B) :=
  andThen (synchronizeSetup r (populateSessions c r)) fun slots _ =>
    andThen (runSessions c r slots) fun slots trajectories =>
      synchronizedValue "experience batch construction" "Experience batch construction"
        (slots, r.buildBatch trajectories)

end HyperParallel.Agentic
