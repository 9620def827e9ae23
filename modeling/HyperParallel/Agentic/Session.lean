import Mathlib.Algebra.BigOperators.Group.List.Basic
import Mathlib.Algebra.Order.Ring.Nat
import Mathlib.Data.List.Basic
import Mathlib.Tactic.Common

/-!
# Agent sessions

`rl/rl/agentic/core/session.py`.

* `Values`, `Values.cat`: the tensors of a session, and `torch.cat`;
* `Session`, `step`, `run`: the operations, those that raise included;
* `Trajectory`, `build`: the trajectory of a session.
-/

namespace HyperParallel.Agentic

/-! ### Tensors -/

/-- A tensor in row-major order. -/
structure Values (β : Type*) where
  shape : List ℕ
  data : List β
  size_eq : data.length = shape.prod

namespace Values

variable {β γ : Type*}

def ndim (v : Values β) : ℕ := v.shape.length

def numel (v : Values β) : ℕ := v.data.length

/-- `new_zeros(v.shape)` and `new_ones(v.shape)` -/
def fill (v : Values β) (value : γ) : Values γ where
  shape := v.shape
  data := List.replicate v.numel value
  size_eq := by rw [List.length_replicate, numel, v.size_eq]

@[simp] theorem numel_fill (v : Values β) (value : γ) : (v.fill value).numel = v.numel := by
  rw [numel, fill, List.length_replicate]

/-- The data of several tensors. -/
def flat (parts : List (Values β)) : List β := parts.flatMap data

@[simp] theorem flat_nil : flat ([] : List (Values β)) = [] := rfl

@[simp] theorem flat_append (parts parts' : List (Values β)) :
    flat (parts ++ parts') = flat parts ++ flat parts' := List.flatMap_append

@[simp] theorem flat_singleton (v : Values β) : flat [v] = v.data := List.flatMap_singleton data v

/-- `torch.cat`: one shape behind the first axis, tensors of shape `(0,)` apart. -/
def cat (parts : List (Values β)) : Option (List ℕ × List β) :=
  let kept := parts.filter fun v => v.shape ≠ [0]
  let tail := kept.head?.elim [] (·.shape.tail)
  if parts.isEmpty then none
  else if ∀ v ∈ kept, v.ndim ≠ 0 ∧ v.shape.tail = tail then
    some ((kept.map (·.shape.headD 0)).sum :: tail, flat kept)
  else none

theorem flat_filter (parts : List (Values β)) :
    flat (parts.filter fun v => v.shape ≠ [0]) = flat parts := by
  induction parts with
  | nil => rfl
  | cons v parts ih =>
    rw [List.filter_cons]
    split_ifs with hshape
    · rw [flat, List.flatMap_cons, ← flat, ih]
      rfl
    · have hzero : v.shape = [0] := by simpa using hshape
      have hempty : v.data = [] := by
        rw [← List.length_eq_zero_iff, v.size_eq, hzero]
        rfl
      rw [ih, flat, flat, List.flatMap_cons, hempty, List.nil_append]

/-- Vectors can always be put together. -/
theorem cat_vectors {parts : List (Values β)} (hne : parts ≠ [])
    (h : ∀ v ∈ parts, v.ndim = 1) : ∃ size, cat parts = some ([size], flat parts) := by
  have htail : ∀ v ∈ parts, v.shape.tail = [] := by
    intro v hv
    obtain ⟨size, hsize⟩ := List.length_eq_one_iff.1 (h v hv)
    rw [hsize, List.tail_cons]
  have hkept : ∀ v ∈ parts.filter (fun v => v.shape ≠ [0]), v ∈ parts := fun v hv =>
    List.mem_of_mem_filter hv
  have hhead : (parts.filter fun v => v.shape ≠ [0]).head?.elim [] (·.shape.tail) = [] := by
    cases hfirst : (parts.filter fun v => v.shape ≠ [0]).head? with
    | none => rfl
    | some v => exact htail v (hkept v (List.mem_of_mem_head? hfirst))
  have hempty : ¬ parts.isEmpty = true := by rwa [List.isEmpty_iff]
  rw [cat, hhead, flat_filter, if_neg hempty, if_pos]
  · exact ⟨_, rfl⟩
  · intro v hv
    refine ⟨?_, htail v (hkept v hv)⟩
    rw [h v (hkept v hv)]
    exact Nat.one_ne_zero

end Values

/-! ### Records -/

inductive TerminationReason
  | running
  | completed
  | maxTurns
  | environmentTruncated
  | contextLimit
  deriving DecidableEq

/-- `Observation`; of its metadata only the role is read. -/
structure Observation where
  content : String
  tokenIds : Values ℤ
  role : Option String

/-- `AgentAction` -/
structure Action (P : Type) where
  content : String
  tokenIds : Values ℤ
  rolloutLogProbs : Option (Values P)

/-- `TurnResult`; `infoError` is what `_record_transition` raises on its reward and info. -/
structure Transition where
  observation : Observation
  done : Bool
  truncated : Bool
  terminationReason : Option TerminationReason
  infoError : Option String

structure Turn where
  role : String
  content : String
  tokenStart : ℕ
  tokenEnd : ℕ
  trainable : Bool

/-- The limits that `AgentSession.__init__` and `EpisodeContext` check. -/
structure Limits where
  policyVersion : ℕ
  maxTurns : ℕ
  maxObservationTokens : Option ℕ
  maxEpisodeTokens : Option ℕ
  maxTurns_pos : 0 < maxTurns
  maxEpisodeTokens_pos : ∀ limit, maxEpisodeTokens = some limit → 0 < limit

/-- `AgentSession`, its reward and diagnostics apart. -/
structure Session (P : Type) where
  turns : List Turn := []
  tokenParts : List (Values ℤ) := []
  tokenCount : ℕ := 0
  cachedTokenIds : Option (List ℤ) := none
  actionMaskParts : List (Values Bool) := []
  logProbParts : List (Values P) := []
  collectingLogProbs : Option Bool := none
  workerPolicyVersion : Option ℤ := none
  turnResults : List Transition := []
  droppedObservationTokens : Option ℕ := none
  done : Bool := false
  truncated : Bool := false
  terminalReason : TerminationReason := .running
  actionContents : List String := []
  started : Bool := false

/-- The session an operation leaves, and what it raises. -/
abbrev Result (P : Type) := Session P × Option String

/-- The next statement runs where the one before it has raised nothing. -/
def Result.andThen {P : Type} (result : Result P) (next : Session P → Result P) : Result P :=
  match result.2 with
  | none => next result.1
  | some error => (result.1, some error)

variable {P : Type} [Zero P]

/-! ### The operations -/

def Session.active (s : Session P) : Bool := s.started && !s.done && !s.truncated

def Session.turnCount (s : Session P) : ℕ := s.actionContents.length

/-- Within `max_episode_tokens`. -/
def Limits.fits (c : Limits) (tokens : ℕ) : Bool :=
  match c.maxEpisodeTokens with
  | none => true
  | some limit => tokens ≤ limit

/-- `_prepare_observation_tokens`: what it raises. -/
def prepareObservationTokens (c : Limits) (observation : Observation) (initial : Bool) :
    Option String :=
  if observation.tokenIds.ndim ≠ 1 then some "Observation token_ids must be rank one"
  else if initial then none
  else match c.maxObservationTokens with
    | none => none
    | some limit =>
      if observation.tokenIds.numel > limit then
        some (s!"Environment observation exceeds agentic.max_observation_tokens: " ++
          s!"tokens={observation.tokenIds.numel}, limit={limit}")
      else none

def observationRoles : List String := ["system", "user", "tool", "environment"]

def Observation.turnRole (observation : Observation) : String :=
  observation.role.getD "environment"

/-- `_append_observation_turn`: the tokens are there when the role is refused. -/
def appendObservationTurn (s : Session P) (observation : Observation) (start stop : ℕ) :
    Result P :=
  let s := { s with
    tokenParts := s.tokenParts ++ [observation.tokenIds]
    tokenCount := stop
    cachedTokenIds := none
    actionMaskParts := s.actionMaskParts ++ [observation.tokenIds.fill false]
    logProbParts := s.logProbParts ++ [observation.tokenIds.fill 0] }
  let role := observation.turnRole
  if role ∈ observationRoles then
    ({ s with turns := s.turns ++ [⟨role, observation.content, start, stop, false⟩] }, none)
  else (s, some s!"Unsupported observation role: {role}")

/-- `_append_observation` with `_observation_span` -/
def appendObservation (c : Limits) (s : Session P) (observation : Observation)
    (initial terminal : Bool) : Result P :=
  match prepareObservationTokens c observation initial with
  | some error => (s, some error)
  | none =>
    let stop := s.tokenCount + observation.tokenIds.numel
    if c.fits stop then appendObservationTurn s observation s.tokenCount stop
    else if initial then
      (s, some (s!"Initial observation exceeds agentic.max_episode_tokens: " ++
        s!"tokens={stop}, limit={c.maxEpisodeTokens.getD 0}"))
    else
      let s := { s with droppedObservationTokens := some observation.tokenIds.numel }
      if terminal then (s, none)
      else ({ s with truncated := true, terminalReason := .contextLimit }, none)

/-- `start`, given what `environment.reset` does. -/
def start (c : Limits) (s : Session P) (reset : Except String Observation) : Result P :=
  if s.started then (s, some "AgentSession.start() may be called only once")
  else
    let s := { s with started := true }
    match reset with
    | .error error => (s, some error)
    | .ok observation =>
      if observation.tokenIds.numel = 0 then
        (s, some "The initial environment observation must not be empty")
      else appendObservation c s observation true false

/-- The part of `_append_action` behind its checks. -/
def recordAction (s : Session P) (action : Action P) (logProbs : Values P) : Session P :=
  let stop := s.tokenCount + action.tokenIds.numel
  { s with
    tokenParts := s.tokenParts ++ [action.tokenIds]
    tokenCount := stop
    cachedTokenIds := none
    actionMaskParts := s.actionMaskParts ++ [action.tokenIds.fill true]
    logProbParts := s.logProbParts ++ [logProbs]
    turns := s.turns ++ [⟨"assistant", action.content, s.tokenCount, stop, true⟩]
    actionContents := s.actionContents ++ [action.content] }

/-- The log-probabilities recorded for an action. -/
def Action.logProbs (action : Action P) : Values P :=
  action.rolloutLogProbs.getD (action.tokenIds.fill 0)

/-- `_append_action`, given what the encoder's `record_action` raises. -/
def appendAction (s : Session P) (action : Action P) (recordError : Option String) : Result P :=
  if action.tokenIds.ndim ≠ 1 then (s, some "Action token_ids must be a rank-one tensor")
  else
    let hasLogProbs := action.rolloutLogProbs.isSome
    if s.collectingLogProbs.isSome ∧ s.collectingLogProbs ≠ some hasLogProbs then
      (s, some "Every action must consistently provide rollout_log_probs or omit them")
    else
      let s := { s with collectingLogProbs := some hasLogProbs }
      if action.logProbs.numel ≠ action.tokenIds.numel then
        (s, some "Action rollout_log_probs must align with action token_ids")
      else match recordError with
        | some error => (s, some error)
        | none => (recordAction s action action.logProbs, none)

/-- `_update_terminal_reason` -/
def updateTerminalReason (s : Session P) (transition : Transition) : Session P :=
  match transition.terminationReason with
  | some reason => { s with terminalReason := reason }
  | none =>
    if s.done then { s with terminalReason := .completed }
    else if s.truncated ∧ s.terminalReason ≠ .contextLimit then
      { s with terminalReason := .environmentTruncated }
    else s

/-- `apply`, given what `record_action` raises and what `environment.step` does. -/
def apply (c : Limits) (s : Session P) (action : Action P) (recordError : Option String)
    (envStep : Except String Transition) : Result P :=
  if s.active = false then (s, some "Cannot apply an action to an inactive AgentSession")
  else if s.turnCount ≥ c.maxTurns then
    (s, some "AgentSession cannot exceed its configured max_turns")
  else (appendAction s action recordError).andThen fun s =>
    match envStep with
    | .error error => (s, some error)
    | .ok transition =>
      let s := { s with turnResults := s.turnResults ++ [transition] }
      match transition.infoError with
      | some error => (s, some error)
      | none =>
        let s := { s with done := transition.done, truncated := transition.truncated }
        (appendObservation c s transition.observation false
          (transition.done || transition.truncated)).andThen fun s =>
            (updateTerminalReason s transition, none)

/-- `finish_max_turns` and `finish_context_limit` -/
def finish (s : Session P) (reason : TerminationReason) : Session P :=
  if s.active then { s with truncated := true, terminalReason := reason } else s

def finishMaxTurns (s : Session P) : Session P := finish s .maxTurns

def finishContextLimit (s : Session P) : Session P := finish s .contextLimit

/-- `record_worker_policy_version` -/
def recordWorkerPolicyVersion (s : Session P) : Option ℤ → Result P
  | none => (s, none)
  | some version =>
    if s.workerPolicyVersion.isSome ∧ s.workerPolicyVersion ≠ some version then
      (s, some (s!"AgentSession observed multiple rollout policy versions: " ++
        s!"current={s.workerPolicyVersion.getD 0}, received={version}"))
    else ({ s with workerPolicyVersion := some version }, none)

/-- `token_ids`, which keeps what it has concatenated. -/
def tokenIds (s : Session P) : Option (List ℤ) × Session P :=
  if s.tokenParts = [] then (none, s)
  else match s.cachedTokenIds with
    | some tokens => (some tokens, s)
    | none =>
      let tokens := (Values.cat s.tokenParts).map (·.2)
      (tokens, { s with cachedTokenIds := tokens })

inductive Op (P : Type)
  | start (reset : Except String Observation)
  | apply (action : Action P) (recordError : Option String) (envStep : Except String Transition)
  | finishMaxTurns
  | finishContextLimit
  | recordWorkerPolicyVersion (version : Option ℤ)
  | tokenIds

def step (c : Limits) (s : Session P) : Op P → Result P
  | .start reset => start c s reset
  | .apply action recordError envStep => apply c s action recordError envStep
  | .finishMaxTurns => (finishMaxTurns s, none)
  | .finishContextLimit => (finishContextLimit s, none)
  | .recordWorkerPolicyVersion version => recordWorkerPolicyVersion s version
  | .tokenIds => ((tokenIds s).2, none)

/-- The session after some operations, whatever they raise. -/
def run (c : Limits) (ops : List (Op P)) : Session P :=
  ops.foldl (fun s op => (step c s op).1) {}

/-! ### The trajectory -/

/-- `Trajectory`, its identity and rewards apart. -/
structure Trajectory (P : Type) where
  turns : List Turn
  tokenIds : List ℤ
  attentionMask : List Bool
  actionMask : List Bool
  rolloutLogProbs : Option (List P)
  done : Bool
  truncated : Bool
  terminalReason : TerminationReason
  workerPolicyVersion : Option ℤ

/-- `Trajectory.__post_init__`: what it raises. -/
def Trajectory.error (t : Trajectory P) (policyVersion : ℕ) : Option String :=
  if t.workerPolicyVersion.isSome ∧ t.workerPolicyVersion ≠ some (policyVersion : ℤ) then
    some "trajectory worker policy version must match its requested policy version"
  else if t.attentionMask.length ≠ t.tokenIds.length then
    some "trajectory attention_mask must align with token_ids"
  else if t.actionMask.length ≠ t.tokenIds.length then
    some "trajectory action_mask must align with token_ids"
  else if ∃ selected ∈ t.actionMask.zip t.attentionMask, selected = (true, false) then
    some "trajectory action_mask must not select padding tokens"
  else match t.rolloutLogProbs with
    | none => none
    | some logProbs =>
      if (logProbs.length : ℤ) ≠ t.tokenIds.length - 1 then
        some "trajectory rollout_log_probs must align with next-token positions"
      else none

/-- `build` -/
def build (c : Limits) (s : Session P) : Except String (Trajectory P) :=
  if s.started = false then .error "Cannot build an AgentSession before reset"
  else if s.tokenParts = [] then .error "AgentSession has not been started"
  else
    match (tokenIds s).1, Values.cat s.actionMaskParts, Values.cat s.logProbParts with
    | some tokens, some (_, mask), some (shape, logProbs) =>
      let trajectory : Trajectory P := {
        turns := s.turns
        tokenIds := tokens
        attentionMask := List.replicate tokens.length true
        actionMask := mask
        -- the first position of the first axis is dropped
        rolloutLogProbs :=
          if s.collectingLogProbs = some true then some (logProbs.drop shape.tail.prod) else none
        done := s.done
        truncated := s.truncated
        terminalReason := s.terminalReason
        workerPolicyVersion := s.workerPolicyVersion }
      match trajectory.error c.policyVersion with
      | some error => .error error
      | none => .ok trajectory
    | _, _, _ => .error "torch.cat"

end HyperParallel.Agentic
