import HyperParallel.Agentic.Session
import Mathlib.Algebra.Ring.Nat
import Mathlib.Data.List.Forall2
import Mathlib.Data.List.Induction

/-!
# Sessions stay aligned

* `Aligned`: the turns, the tokens, the mask and the log-probabilities belong together;
* `Supported`: what an operation may be given;
* `apply_cases`, `step_aligned`, `step_grows`, `apply_limited`: one operation;
* `Aligned.build_eq`: the trajectory of an aligned session;
* `run_aligned`: whole runs; `not_aligned`: where an episode loses its alignment.
-/

namespace HyperParallel.Agentic

variable {P : Type}

/-! ### What stays aligned -/

/-- Turns one after the other between two positions. -/
def Contiguous : ℕ → List Turn → ℕ → Prop
  | start, [], stop => start = stop
  | start, turn :: turns, stop =>
    turn.tokenStart = start ∧ turn.tokenStart ≤ turn.tokenEnd ∧
      Contiguous turn.tokenEnd turns stop

/-- The mask of a turn. -/
def Turn.mask (turn : Turn) : List Bool :=
  List.replicate (turn.tokenEnd - turn.tokenStart) turn.trainable

def Session.tokens (s : Session P) : List ℤ := Values.flat s.tokenParts

def Session.actionMask (s : Session P) : List Bool := Values.flat s.actionMaskParts

def Session.logProbs (s : Session P) : List P := Values.flat s.logProbParts

/-- The turns, the tokens, the mask and the log-probabilities of a session belong together. -/
structure Aligned (s : Session P) : Prop where
  contiguous : Contiguous 0 s.turns s.tokenCount
  count : s.tokens.length = s.tokenCount
  masks : List.Forall₂ (fun tokens mask => mask.numel = tokens.numel) s.tokenParts
    s.actionMaskParts
  logProbs : List.Forall₂ (fun tokens logProbs => logProbs.numel = tokens.numel) s.tokenParts
    s.logProbParts
  mask_eq : s.actionMask = s.turns.flatMap Turn.mask
  trainable : ∀ turn ∈ s.turns, turn.trainable = (turn.role == "assistant")
  cached : ∀ tokens, s.cachedTokenIds = some tokens → tokens = s.tokens
  vectors : (∀ part ∈ s.tokenParts, part.ndim = 1) ∧ (∀ part ∈ s.actionMaskParts, part.ndim = 1) ∧
    ∀ part ∈ s.logProbParts, part.ndim = 1

theorem Contiguous.append {start middle stop : ℕ} {turns : List Turn} {turn : Turn}
    (h : Contiguous start turns middle) (hstart : turn.tokenStart = middle)
    (hle : middle ≤ turn.tokenEnd) (hstop : turn.tokenEnd = stop) :
    Contiguous start (turns ++ [turn]) stop := by
  induction turns generalizing start with
  | nil =>
    obtain rfl : start = middle := h
    exact ⟨hstart, hstart ▸ hle, hstop⟩
  | cons first turns ih => exact ⟨h.1, h.2.1, ih h.2.2⟩

theorem Contiguous.start_le {start stop : ℕ} {turns : List Turn} {turn : Turn}
    (h : Contiguous start turns stop) (hturn : turn ∈ turns) : start ≤ turn.tokenStart := by
  induction turns generalizing start with
  | nil => cases hturn
  | cons first turns ih =>
    obtain ⟨rfl, hle, hrest⟩ := h
    rcases List.mem_cons.1 hturn with rfl | hturn
    · exact Nat.le_refl _
    · exact Nat.le_trans hle (ih hrest hturn)

/-- The mask between two positions is true on the trainable turns. -/
theorem Contiguous.mask_iff {start stop i : ℕ} {turns : List Turn}
    (h : Contiguous start turns stop) (hi : start ≤ i) :
    (turns.flatMap Turn.mask)[i - start]? = some true ↔
      ∃ turn ∈ turns, turn.trainable = true ∧ turn.tokenStart ≤ i ∧ i < turn.tokenEnd := by
  induction turns generalizing start with
  | nil => simp
  | cons turn turns ih =>
    obtain ⟨rfl, hle, hrest⟩ := h
    have hlength : turn.mask.length = turn.tokenEnd - turn.tokenStart := List.length_replicate
    rw [List.flatMap_cons, List.exists_mem_cons_iff]
    rcases Nat.lt_or_ge i turn.tokenEnd with hlt | hge
    · have hlater : ¬ ∃ other ∈ turns, other.trainable = true ∧ other.tokenStart ≤ i ∧
          i < other.tokenEnd := by
        rintro ⟨other, hother, -, hfrom, -⟩
        have := hrest.start_le hother
        omega
      rw [List.getElem?_append_left (by omega), Turn.mask,
        List.getElem?_replicate_of_lt (by omega), Option.some.injEq]
      constructor
      · intro htrainable
        exact .inl ⟨htrainable, hi, hlt⟩
      · rintro (⟨htrainable, -⟩ | hother)
        · exact htrainable
        · exact absurd hother hlater
    · have hindex : i - turn.tokenStart - turn.mask.length = i - turn.tokenEnd := by omega
      rw [List.getElem?_append_right (by omega), hindex, ih hrest hge]
      constructor
      · intro hother
        exact .inr hother
      · rintro (⟨-, -, hlt⟩ | hother)
        · omega
        · exact hother

theorem Aligned.congr {s s' : Session P} (h : Aligned s) (hturns : s'.turns = s.turns)
    (htokens : s'.tokenParts = s.tokenParts) (hcount : s'.tokenCount = s.tokenCount)
    (hmasks : s'.actionMaskParts = s.actionMaskParts) (hlogProbs : s'.logProbParts = s.logProbParts)
    (hcached : ∀ tokens, s'.cachedTokenIds = some tokens → tokens = s.tokens) : Aligned s' := by
  constructor
  · rw [hturns, hcount]
    exact h.contiguous
  · rw [Session.tokens, htokens, hcount]
    exact h.count
  · rw [htokens, hmasks]
    exact h.masks
  · rw [htokens, hlogProbs]
    exact h.logProbs
  · rw [Session.actionMask, hmasks, hturns]
    exact h.mask_eq
  · rw [hturns]
    exact h.trainable
  · rw [Session.tokens, htokens]
    exact hcached
  · rw [htokens, hmasks, hlogProbs]
    exact h.vectors

/-- A turn with its tokens, its mask and its log-probabilities. -/
theorem Aligned.append {s s' : Session P} {tokens : Values ℤ} {logProbs : Values P} {turn : Turn}
    (h : Aligned s) (hturns : s'.turns = s.turns ++ [turn])
    (htokens : s'.tokenParts = s.tokenParts ++ [tokens])
    (hcount : s'.tokenCount = s.tokenCount + tokens.numel)
    (hmasks : s'.actionMaskParts = s.actionMaskParts ++ [tokens.fill turn.trainable])
    (hlogProbs : s'.logProbParts = s.logProbParts ++ [logProbs])
    (hcached : s'.cachedTokenIds = none) (hstart : turn.tokenStart = s.tokenCount)
    (hend : turn.tokenEnd = s'.tokenCount) (htrainable : turn.trainable = (turn.role == "assistant"))
    (hsize : logProbs.numel = tokens.numel) (hvector : tokens.ndim = 1)
    (hvector' : logProbs.ndim = 1) : Aligned s' := by
  have hfill : (tokens.fill turn.trainable).ndim = 1 := hvector
  constructor
  · rw [hturns]
    exact h.contiguous.append hstart (by omega) hend
  · rw [Session.tokens, htokens, Values.flat_append, List.length_append, ← Session.tokens, h.count,
      Values.flat_singleton, hcount, Values.numel]
  · rw [htokens, hmasks]
    exact List.rel_append h.masks (.cons (Values.numel_fill tokens _) .nil)
  · rw [htokens, hlogProbs]
    exact List.rel_append h.logProbs (.cons hsize .nil)
  · have hmask : turn.mask = (tokens.fill turn.trainable).data := by
      rw [Turn.mask, Values.fill, hstart, hend, hcount, Nat.add_sub_cancel_left]
    rw [Session.actionMask, hmasks, hturns, Values.flat_append, Values.flat_singleton,
      List.flatMap_append, ← h.mask_eq, List.flatMap_singleton, hmask, Session.actionMask]
  · rw [hturns]
    intro other hother
    rcases List.mem_append.1 hother with hother | hother
    · exact h.trainable other hother
    · rw [List.mem_singleton.1 hother, htrainable]
  · intro cached hsome
    rw [hcached] at hsome
    cases hsome
  · rw [htokens, hmasks, hlogProbs]
    simp only [List.forall_mem_append, List.forall_mem_singleton]
    exact ⟨⟨h.vectors.1, hvector⟩, ⟨h.vectors.2.1, hfill⟩, h.vectors.2.2, hvector'⟩

/-! ### What leaves the tokens alone -/

theorem updateTerminalReason_aligned {s : Session P} (h : Aligned s) (transition : Transition) :
    Aligned (updateTerminalReason s transition) := by
  rw [updateTerminalReason]
  split
  · exact h.congr rfl rfl rfl rfl rfl h.cached
  · split_ifs
    · exact h.congr rfl rfl rfl rfl rfl h.cached
    · exact h.congr rfl rfl rfl rfl rfl h.cached
    · exact h

theorem updateTerminalReason_tokens (s : Session P) (transition : Transition) :
    (updateTerminalReason s transition).tokens = s.tokens ∧
      (updateTerminalReason s transition).logProbs = s.logProbs ∧
      (updateTerminalReason s transition).tokenCount = s.tokenCount := by
  rw [updateTerminalReason]
  split
  · exact ⟨rfl, rfl, rfl⟩
  · split_ifs <;> exact ⟨rfl, rfl, rfl⟩

theorem finish_aligned {s : Session P} (h : Aligned s) (reason : TerminationReason) :
    Aligned (finish s reason) := by
  rw [finish]
  split_ifs
  · exact h.congr rfl rfl rfl rfl rfl h.cached
  · exact h

theorem Aligned.tokenIds_eq {s : Session P} (h : Aligned s) (hparts : s.tokenParts ≠ []) :
    (tokenIds s).1 = some s.tokens := by
  rw [tokenIds, if_neg hparts]
  cases hcached : s.cachedTokenIds with
  | some tokens => rw [h.cached tokens hcached]
  | none =>
    obtain ⟨size, hcat⟩ := Values.cat_vectors hparts h.vectors.1
    dsimp only
    rw [hcat]
    rfl

theorem Result.andThen_of {q : Session P → Prop} {result : Result P}
    {next : Session P → Result P} (hfirst : q result.1)
    (hnext : ∀ s, result = (s, none) → q (next s).1) : q (result.andThen next).1 := by
  obtain ⟨s, error⟩ := result
  cases error with
  | none => exact hnext s rfl
  | some error => exact hfirst

variable [Zero P]

/-! ### What an operation may be given -/

/-- The checks of `_append_action`. -/
def ActionAccepted (s : Session P) (action : Action P) : Prop :=
  action.tokenIds.ndim = 1 ∧
    (s.collectingLogProbs = none ∨ s.collectingLogProbs = some action.rolloutLogProbs.isSome) ∧
      action.logProbs.numel = action.tokenIds.numel

/-- An observation that passes the checks of its tokens and fits at `stop` has a role that
`_append_observation_turn` knows. -/
def RoleSupported (c : Limits) (observation : Observation) (initial : Bool) (stop : ℕ) : Prop :=
  prepareObservationTokens c observation initial = none → c.fits stop = true →
    observation.turnRole ∈ observationRoles

/-- A transition that does not end the episode, with an observation that does not fit, gives no
other reason for the end. -/
def ReasonSupported (c : Limits) (transition : Transition) (stop : ℕ) : Prop :=
  prepareObservationTokens c transition.observation false = none → c.fits stop = false →
    transition.done = false → transition.truncated = false →
      ∀ reason, transition.terminationReason = some reason → reason = .contextLimit

/-- What an operation may be given, as far as it gets. -/
def Supported (c : Limits) (s : Session P) : Op P → Prop
  | .start (.ok observation) =>
    s.started = false → observation.tokenIds.numel ≠ 0 →
      RoleSupported c observation true (s.tokenCount + observation.tokenIds.numel)
  | .apply action none envStep =>
    s.active = true → s.turnCount < c.maxTurns → ActionAccepted s action →
      action.logProbs.ndim = 1 ∧
        ∀ transition, envStep = .ok transition → transition.infoError = none →
          let stop := s.tokenCount + action.tokenIds.numel + transition.observation.tokenIds.numel
          RoleSupported c transition.observation false stop ∧ ReasonSupported c transition stop
  | _ => True

/-! ### One operation -/

/-- What `_append_action` does. -/
theorem appendAction_cases (s : Session P) (action : Action P) (recordError : Option String) :
    (∃ collecting error, appendAction s action recordError =
      ({ s with collectingLogProbs := collecting }, some error)) ∨
    (ActionAccepted s action ∧ recordError = none ∧
      appendAction s action recordError =
        (recordAction { s with collectingLogProbs := some action.rolloutLogProbs.isSome } action
          action.logProbs, none)) := by
  rw [appendAction]
  dsimp only
  split_ifs with hndim hcollecting hnumel
  · exact .inl ⟨s.collectingLogProbs, _, rfl⟩
  · exact .inl ⟨s.collectingLogProbs, _, rfl⟩
  · exact .inl ⟨_, _, rfl⟩
  · cases recordError with
    | some error => exact .inl ⟨_, _, rfl⟩
    | none =>
      refine .inr ⟨⟨not_not.1 hndim, ?_, not_not.1 hnumel⟩, rfl, rfl⟩
      cases hs : s.collectingLogProbs with
      | none => exact .inl rfl
      | some collecting =>
        rw [hs] at hcollecting
        exact .inr (not_not.1 fun hne => hcollecting ⟨rfl, hne⟩)

/-- What `_append_observation` does. -/
theorem appendObservation_cases (c : Limits) (s : Session P) (observation : Observation)
    (initial terminal : Bool) :
    (∃ error, appendObservation c s observation initial terminal = (s, some error)) ∨
    (prepareObservationTokens c observation initial = none ∧
      c.fits (s.tokenCount + observation.tokenIds.numel) = true ∧
      appendObservation c s observation initial terminal = appendObservationTurn s observation
        s.tokenCount (s.tokenCount + observation.tokenIds.numel)) ∨
    (prepareObservationTokens c observation initial = none ∧
      c.fits (s.tokenCount + observation.tokenIds.numel) = false ∧ initial = false ∧
      appendObservation c s observation initial terminal =
        (if terminal then { s with droppedObservationTokens := some observation.tokenIds.numel }
          else { s with
            droppedObservationTokens := some observation.tokenIds.numel
            truncated := true
            terminalReason := .contextLimit }, none)) := by
  rw [appendObservation]
  cases hprepare : prepareObservationTokens c observation initial with
  | some error => exact .inl ⟨_, rfl⟩
  | none =>
    dsimp only
    by_cases hfits : c.fits (s.tokenCount + observation.tokenIds.numel) = true
    · rw [if_pos hfits]
      exact .inr (.inl ⟨rfl, hfits, rfl⟩)
    · rw [if_neg hfits]
      cases initial with
      | true => exact .inl ⟨_, rfl⟩
      | false =>
        refine .inr (.inr ⟨rfl, by simpa using hfits, rfl, ?_⟩)
        cases terminal <;> rfl

theorem appendObservation_aligned {c : Limits} {s : Session P} {observation : Observation}
    {initial terminal : Bool} (h : Aligned s)
    (hrole : RoleSupported c observation initial (s.tokenCount + observation.tokenIds.numel)) :
    Aligned (appendObservation c s observation initial terminal).1 := by
  rcases appendObservation_cases c s observation initial terminal with
    ⟨error, heq⟩ | ⟨hprepare, hfits, heq⟩ | ⟨-, -, -, heq⟩
  · rw [heq]
    exact h
  · have hsupported := hrole hprepare hfits
    have hndim : observation.tokenIds.ndim = 1 := by
      rw [prepareObservationTokens] at hprepare
      split_ifs at hprepare with hndim
      all_goals exact not_not.1 hndim
    have hassistant : false = (observation.turnRole == "assistant") := by
      simp only [observationRoles, List.mem_cons, List.not_mem_nil, or_false] at hsupported
      rcases hsupported with hrole | hrole | hrole | hrole <;> rw [hrole] <;> rfl
    rw [heq, appendObservationTurn]
    dsimp only
    rw [if_pos hsupported]
    exact h.append rfl rfl rfl rfl rfl rfl rfl rfl hassistant (Values.numel_fill _ _) hndim hndim
  · rw [heq]
    split_ifs
    · exact h.congr rfl rfl rfl rfl rfl h.cached
    · exact h.congr rfl rfl rfl rfl rfl h.cached

/-- The session when `environment.step` is called. -/
def acted (s : Session P) (action : Action P) : Session P :=
  recordAction { s with collectingLogProbs := some action.rolloutLogProbs.isSome } action
    action.logProbs

theorem acted_tokens (s : Session P) (action : Action P) :
    (acted s action).tokens = s.tokens ++ action.tokenIds.data ∧
      (acted s action).logProbs = s.logProbs ++ action.logProbs.data := by
  rw [acted, recordAction, Session.tokens, Session.logProbs, Values.flat_append,
    Values.flat_append, Values.flat_singleton, Values.flat_singleton]
  exact ⟨rfl, rfl⟩

/-- The session when the observation of a transition is appended. -/
def transitioned (s : Session P) (action : Action P) (transition : Transition) : Session P :=
  { acted s action with
    turnResults := (acted s action).turnResults ++ [transition]
    done := transition.done
    truncated := transition.truncated }

/-- What `apply` does. -/
theorem apply_cases (c : Limits) (s : Session P) (action : Action P) (recordError : Option String)
    (envStep : Except String Transition) :
    (∃ error, apply c s action recordError envStep = (s, some error)) ∨
    (s.active = true ∧ s.turnCount < c.maxTurns ∧
      ((∃ collecting error, apply c s action recordError envStep =
        ({ s with collectingLogProbs := collecting }, some error)) ∨
      (ActionAccepted s action ∧ recordError = none ∧
        ((∃ results error, apply c s action recordError envStep =
          ({ acted s action with turnResults := results }, some error)) ∨
        ∃ transition, envStep = .ok transition ∧ transition.infoError = none ∧
          apply c s action recordError envStep =
            (appendObservation c (transitioned s action transition) transition.observation false
              (transition.done || transition.truncated)).andThen fun s =>
                (updateTerminalReason s transition, none))))) := by
  rw [apply]
  split_ifs with hactive hturns
  · exact .inl ⟨_, rfl⟩
  · exact .inl ⟨_, rfl⟩
  · refine .inr ⟨by simpa using hactive, by omega, ?_⟩
    rcases appendAction_cases s action recordError with
      ⟨collecting, error, heq⟩ | ⟨haccepted, hrecord, heq⟩
    · rw [heq]
      exact .inl ⟨collecting, error, rfl⟩
    · rw [heq]
      refine .inr ⟨haccepted, hrecord, ?_⟩
      cases envStep with
      | error error => exact .inl ⟨_, error, rfl⟩
      | ok transition =>
        cases hinfo : transition.infoError with
        | some error =>
          refine .inl ⟨(acted s action).turnResults ++ [transition], error, ?_⟩
          rw [Result.andThen]
          dsimp only
          rw [hinfo]
          rfl
        | none =>
          refine .inr ⟨transition, rfl, hinfo, ?_⟩
          rw [Result.andThen]
          dsimp only
          rw [hinfo]
          rfl

theorem acted_aligned {s : Session P} {action : Action P} (h : Aligned s)
    (haccepted : ActionAccepted s action) (hvector : action.logProbs.ndim = 1) :
    Aligned (acted s action) :=
  h.append rfl rfl rfl rfl rfl rfl rfl rfl rfl haccepted.2.2 haccepted.1 hvector

theorem step_aligned {c : Limits} {s : Session P} {op : Op P} (h : Aligned s)
    (hop : Supported c s op) : Aligned (step c s op).1 := by
  cases op with
  | start reset =>
    rw [step, start]
    split_ifs with hstarted
    · exact h
    · have hbegun : Aligned { s with started := true } := h.congr rfl rfl rfl rfl rfl h.cached
      cases reset with
      | error error => exact hbegun
      | ok observation =>
        dsimp only
        split_ifs with hempty
        · exact hbegun
        · exact appendObservation_aligned hbegun (hop (by simpa using hstarted) hempty)
  | apply action recordError envStep =>
    rw [step]
    rcases apply_cases c s action recordError envStep with ⟨error, heq⟩ | ⟨hactive, hturns, hrest⟩
    · rw [heq]
      exact h
    rcases hrest with ⟨collecting, error, heq⟩ | ⟨haccepted, rfl, hrest⟩
    · rw [heq]
      exact h.congr rfl rfl rfl rfl rfl h.cached
    obtain ⟨hvector, hsupported⟩ := hop hactive hturns haccepted
    have hacted := acted_aligned h haccepted hvector
    rcases hrest with ⟨results, error, heq⟩ | ⟨transition, rfl, hinfo, heq⟩
    · rw [heq]
      exact hacted.congr rfl rfl rfl rfl rfl hacted.cached
    · rw [heq]
      have htransitioned : Aligned (transitioned s action transition) :=
        hacted.congr rfl rfl rfl rfl rfl hacted.cached
      have hobserved : Aligned (appendObservation c (transitioned s action transition)
          transition.observation false (transition.done || transition.truncated)).1 :=
        appendObservation_aligned htransitioned (hsupported transition rfl hinfo).1
      apply Result.andThen_of hobserved
      intro s' hs'
      rw [hs'] at hobserved
      exact updateTerminalReason_aligned hobserved transition
  | finishMaxTurns => exact finish_aligned h _
  | finishContextLimit => exact finish_aligned h _
  | recordWorkerPolicyVersion version =>
    cases version with
    | none => exact h
    | some version =>
      rw [step, recordWorkerPolicyVersion]
      split_ifs
      · exact h
      · exact h.congr rfl rfl rfl rfl rfl h.cached
  | tokenIds =>
    rw [step, tokenIds]
    split_ifs with hparts
    · exact h
    · cases hcached : s.cachedTokenIds with
      | some tokens => exact h
      | none =>
        refine h.congr rfl rfl rfl rfl rfl ?_
        intro tokens htokens
        obtain ⟨size, hcat⟩ := Values.cat_vectors hparts h.vectors.1
        rw [hcat] at htokens
        exact (Option.some.inj htokens).symm

/-! ### What an operation adds -/

/-- The tokens of the action and their log-probabilities. -/
def Op.actionTokens : Op P → List ℤ × List P
  | .apply action _ _ => (action.tokenIds.data, action.logProbs.data)
  | _ => ([], [])

def Op.observationTokens : Op P → List ℤ
  | .start (.ok observation) => observation.tokenIds.data
  | .apply _ _ (.ok transition) => transition.observation.tokenIds.data
  | _ => []

/-- Recorded tokens stay; the action's tokens and the observation's follow whole or not at all, and
the observation's only within the limit. The action's log-probabilities come with its tokens, and
zeros with the observation's. -/
def Grows (c : Limits) (s s' : Session P) (action : List ℤ × List P) (observation : List ℤ) :
    Prop :=
  ∃ acted observed, s'.tokens = s.tokens ++ acted.1 ++ observed ∧
    s'.logProbs = s.logProbs ++ acted.2 ++ List.replicate observed.length 0 ∧
    (acted = ([], []) ∨ acted = action) ∧
    (observed = [] ∨ observed = observation ∧ c.fits s'.tokenCount = true)

theorem Grows.of_tokens {c : Limits} {s s' : Session P} {action : List ℤ × List P}
    {observation : List ℤ} (h : s'.tokens = s.tokens) (hlogProbs : s'.logProbs = s.logProbs) :
    Grows c s s' action observation :=
  ⟨([], []), [], by rw [h, List.append_nil, List.append_nil],
    by rw [hlogProbs, List.append_nil, List.length_nil, List.replicate_zero, List.append_nil],
    .inl rfl, .inl rfl⟩

theorem appendObservation_grows (c : Limits) (s : Session P) (observation : Observation)
    (initial terminal : Bool) :
    let s' := (appendObservation c s observation initial terminal).1
    ∃ observed, s'.tokens = s.tokens ++ observed ∧
      s'.logProbs = s.logProbs ++ List.replicate observed.length 0 ∧
      (observed = [] ∨ observed = observation.tokenIds.data ∧ c.fits s'.tokenCount = true) := by
  rcases appendObservation_cases c s observation initial terminal with
    ⟨error, heq⟩ | ⟨-, hfits, heq⟩ | ⟨-, -, -, heq⟩
  · rw [heq]
    exact ⟨[], (List.append_nil _).symm, (List.append_nil _).symm, .inl rfl⟩
  · rw [heq, appendObservationTurn]
    refine ⟨observation.tokenIds.data, ?_, ?_, .inr ⟨rfl, ?_⟩⟩
    · dsimp only
      split_ifs <;> simp only [Session.tokens, Values.flat_append, Values.flat_singleton]
    · dsimp only
      split_ifs <;> rw [Session.logProbs, Values.flat_append, Values.flat_singleton] <;> rfl
    · dsimp only
      split_ifs <;> exact hfits
  · rw [heq]
    refine ⟨[], ?_, ?_, .inl rfl⟩
    · rw [List.append_nil]
      split_ifs <;> rfl
    · rw [List.length_nil, List.replicate_zero, List.append_nil]
      split_ifs <;> rfl

theorem step_grows (c : Limits) (s : Session P) (op : Op P) :
    Grows c s (step c s op).1 op.actionTokens op.observationTokens := by
  cases op with
  | start reset =>
    rw [step, start]
    split_ifs with hstarted
    · exact .of_tokens rfl rfl
    · cases reset with
      | error error => exact .of_tokens rfl rfl
      | ok observation =>
        dsimp only
        split_ifs with hempty
        · exact .of_tokens rfl rfl
        · obtain ⟨observed, htokens, hlogProbs, hobserved⟩ :=
            appendObservation_grows c { s with started := true } observation true false
          refine ⟨([], []), observed, ?_, ?_, .inl rfl, hobserved⟩
          · rw [htokens, List.append_nil]
            rfl
          · rw [hlogProbs, List.append_nil]
            rfl
  | apply action recordError envStep =>
    rw [step]
    rcases apply_cases c s action recordError envStep with ⟨error, heq⟩ | ⟨-, -, hrest⟩
    · rw [heq]
      exact .of_tokens rfl rfl
    rcases hrest with ⟨collecting, error, heq⟩ | ⟨-, -, hrest⟩
    · rw [heq]
      exact .of_tokens rfl rfl
    obtain ⟨hacted, hactedLogProbs⟩ := acted_tokens s action
    rcases hrest with ⟨results, error, heq⟩ | ⟨transition, rfl, -, heq⟩
    · rw [heq]
      refine ⟨(action.tokenIds.data, action.logProbs.data), [], ?_, ?_, .inr rfl, .inl rfl⟩
      · rw [List.append_nil, ← hacted]
        rfl
      · rw [List.length_nil, List.replicate_zero, List.append_nil, ← hactedLogProbs]
        rfl
    · rw [heq]
      have hobservation := appendObservation_grows c (transitioned s action transition)
        transition.observation false (transition.done || transition.truncated)
      have hkept : ∀ s' : Session P, (∃ observed,
          s'.tokens = (transitioned s action transition).tokens ++ observed ∧
            s'.logProbs = (transitioned s action transition).logProbs ++
              List.replicate observed.length 0 ∧
            (observed = [] ∨ observed = transition.observation.tokenIds.data ∧
              c.fits s'.tokenCount = true)) →
          Grows c s s' (action.tokenIds.data, action.logProbs.data)
            transition.observation.tokenIds.data := by
        rintro s' ⟨observed, htokens, hlogProbs, hobserved⟩
        refine ⟨(action.tokenIds.data, action.logProbs.data), observed, ?_, ?_, .inr rfl,
          hobserved⟩
        · rw [htokens, ← hacted]
          rfl
        · rw [hlogProbs, ← hactedLogProbs]
          rfl
      refine Result.andThen_of
        (q := fun s' => Grows c s s' (action.tokenIds.data, action.logProbs.data)
          transition.observation.tokenIds.data)
        (hkept _ hobservation) ?_
      intro s' hs'
      rw [hs'] at hobservation
      apply hkept
      dsimp only
      rw [(updateTerminalReason_tokens s' transition).1,
        (updateTerminalReason_tokens s' transition).2.1,
        (updateTerminalReason_tokens s' transition).2.2]
      exact hobservation
  | finishMaxTurns =>
    rw [step, finishMaxTurns, finish]
    split_ifs <;> exact .of_tokens rfl rfl
  | finishContextLimit =>
    rw [step, finishContextLimit, finish]
    split_ifs <;> exact .of_tokens rfl rfl
  | recordWorkerPolicyVersion version =>
    cases version with
    | none => exact .of_tokens rfl rfl
    | some version =>
      rw [step, recordWorkerPolicyVersion]
      split_ifs <;> exact .of_tokens rfl rfl
  | tokenIds =>
    rw [step, tokenIds]
    split_ifs
    · exact .of_tokens rfl rfl
    · cases s.cachedTokenIds <;> exact .of_tokens rfl rfl

/-- An inactive session refuses an action and stays as it is. -/
theorem apply_inactive {c : Limits} {s : Session P} (h : s.active = false) (action : Action P)
    (recordError : Option String) (envStep : Except String Transition) :
    ∃ error, apply c s action recordError envStep = (s, some error) :=
  ⟨_, if_pos h⟩

theorem appendAction_accepted {s : Session P} {action : Action P} (h : ActionAccepted s action) :
    appendAction s action none = (acted s action, none) := by
  obtain ⟨hndim, hcollecting, hnumel⟩ := h
  have hconsistent : ¬ (s.collectingLogProbs.isSome ∧
      s.collectingLogProbs ≠ some action.rolloutLogProbs.isSome) := by
    rintro ⟨hsome, hne⟩
    rcases hcollecting with hnone | heq
    · rw [hnone] at hsome
      cases hsome
    · exact hne heq
  rw [appendAction, if_neg (not_not.2 hndim)]
  dsimp only
  rw [if_neg hconsistent, if_neg (not_not.2 hnumel)]
  rfl

/-- An observation that does not fit is dropped, and ends an episode that goes on. -/
theorem apply_limited {c : Limits} {s : Session P} {action : Action P} {transition : Transition}
    (hreason : ReasonSupported c transition (s.tokenCount + action.tokenIds.numel +
      transition.observation.tokenIds.numel))
    (hactive : s.active = true) (hturns : s.turnCount < c.maxTurns)
    (haccepted : ActionAccepted s action) (hinfo : transition.infoError = none)
    (hprepare : prepareObservationTokens c transition.observation false = none)
    (hfits : c.fits (s.tokenCount + action.tokenIds.numel +
      transition.observation.tokenIds.numel) = false) :
    let s' := (apply c s action none (.ok transition)).1
    s'.tokens = s.tokens ++ action.tokenIds.data ∧
      (transition.done = false → transition.truncated = false →
        s'.truncated = true ∧ s'.terminalReason = .contextLimit) := by
  have hfits' : ¬ c.fits ((transitioned s action transition).tokenCount +
      transition.observation.tokenIds.numel) = true := by
    rw [Bool.not_eq_true]
    exact hfits
  have hacted := (acted_tokens s action).1
  rw [apply, hactive, if_neg (by decide), if_neg (by omega), appendAction_accepted haccepted,
    Result.andThen]
  dsimp only
  rw [hinfo]
  dsimp only
  rw [← transitioned, appendObservation, hprepare]
  dsimp only
  rw [if_neg hfits', if_neg (by decide)]
  constructor
  · split_ifs
    · rw [Result.andThen, (updateTerminalReason_tokens _ _).1, ← hacted]
      rfl
    · rw [Result.andThen, (updateTerminalReason_tokens _ _).1, ← hacted]
      rfl
  · intro hdone htruncated
    rw [hdone, htruncated, Bool.or_self, if_neg (by decide), Result.andThen]
    dsimp only
    rw [updateTerminalReason]
    cases hgiven : transition.terminationReason with
    | some reason => exact ⟨rfl, hreason hprepare hfits hdone htruncated reason hgiven⟩
    | none =>
      dsimp only
      have hopen : (transitioned s action transition).done = false := hdone
      rw [hopen, if_neg (by decide), if_neg fun h => h.2 rfl]
      exact ⟨rfl, rfl⟩

/-! ### The trajectory of an aligned session -/

theorem flat_length {β γ : Type*} {parts : List (Values β)} {parts' : List (Values γ)}
    (h : List.Forall₂ (fun v w => w.numel = v.numel) parts parts') :
    (Values.flat parts').length = (Values.flat parts).length := by
  induction h with
  | nil => rfl
  | @cons v w parts parts' hsize _ ih =>
    simp only [Values.flat, List.flatMap_cons, List.length_append] at ih ⊢
    rw [ih]
    exact congrArg (· + _) hsize

/-- What `build` returns for an aligned session. -/
def alignedTrajectory (s : Session P) : Trajectory P where
  turns := s.turns
  tokenIds := s.tokens
  attentionMask := List.replicate s.tokens.length true
  actionMask := s.actionMask
  rolloutLogProbs := if s.collectingLogProbs = some true then some (s.logProbs.drop 1) else none
  done := s.done
  truncated := s.truncated
  terminalReason := s.terminalReason
  workerPolicyVersion := s.workerPolicyVersion

omit [Zero P] in
theorem alignedTrajectory_error {s : Session P} (h : Aligned s) (hcount : 0 < s.tokenCount)
    {policyVersion : ℕ}
    (hversion : s.workerPolicyVersion = none ∨ s.workerPolicyVersion = some (policyVersion : ℤ)) :
    (alignedTrajectory s).error policyVersion = none := by
  have hmask : (alignedTrajectory s).actionMask.length = (alignedTrajectory s).tokenIds.length :=
    flat_length h.masks
  have hattention : (alignedTrajectory s).attentionMask.length =
      (alignedTrajectory s).tokenIds.length := List.length_replicate
  have hlogProbs : s.logProbs.length = s.tokenCount := (flat_length h.logProbs).trans h.count
  have hworker : ¬ ((alignedTrajectory s).workerPolicyVersion.isSome ∧
      (alignedTrajectory s).workerPolicyVersion ≠ some (policyVersion : ℤ)) := by
    rintro ⟨hsome, hne⟩
    rcases hversion with hnone | heq
    · rw [alignedTrajectory, hnone] at hsome
      cases hsome
    · exact hne heq
  have hpadding : ¬ ∃ selected ∈ (alignedTrajectory s).actionMask.zip
      (alignedTrajectory s).attentionMask, selected = (true, false) := by
    rintro ⟨selected, hmem, rfl⟩
    cases List.eq_of_mem_replicate (List.of_mem_zip hmem).2
  rw [Trajectory.error, if_neg hworker, if_neg (not_not.2 hattention),
    if_neg (not_not.2 hmask), if_neg hpadding, alignedTrajectory]
  by_cases hcollecting : s.collectingLogProbs = some true
  · dsimp only
    rw [if_pos hcollecting]
    dsimp only
    rw [if_neg]
    have hcount' := h.count
    rw [List.length_drop, hlogProbs, hcount']
    omega
  · dsimp only
    rw [if_neg hcollecting]

omit [Zero P] in
theorem Aligned.build_eq {c : Limits} {s : Session P} (h : Aligned s) (hstarted : s.started = true)
    (hcount : 0 < s.tokenCount) (hversion : s.workerPolicyVersion = none ∨
      s.workerPolicyVersion = some (c.policyVersion : ℤ)) :
    build c s = .ok (alignedTrajectory s) := by
  have hparts : s.tokenParts ≠ [] := by
    intro hnil
    have := h.count
    rw [Session.tokens, hnil, Values.flat_nil, List.length_nil] at this
    omega
  have hmaskParts : s.actionMaskParts ≠ [] := fun hnil => by
    have := h.masks
    rw [hnil] at this
    exact hparts (List.forall₂_nil_right_iff.1 this)
  have hlogProbParts : s.logProbParts ≠ [] := fun hnil => by
    have := h.logProbs
    rw [hnil] at this
    exact hparts (List.forall₂_nil_right_iff.1 this)
  obtain ⟨size, hmask⟩ := Values.cat_vectors hmaskParts h.vectors.2.1
  obtain ⟨size', hlogProbs⟩ := Values.cat_vectors hlogProbParts h.vectors.2.2
  have herror := alignedTrajectory_error h hcount hversion
  rw [build, hstarted, if_neg (by decide), if_neg hparts, h.tokenIds_eq hparts, hmask, hlogProbs]
  dsimp only
  rw [alignedTrajectory] at herror ⊢
  simp only [Session.actionMask, Session.logProbs, List.tail_cons, List.prod_nil] at herror ⊢
  rw [herror]

/-! ### Runs -/

/-- What holds of a session at every point. -/
structure TokenAligned (c : Limits) (s : Session P) : Prop where
  contiguous : Contiguous 0 s.turns s.tokenCount
  lengths : s.tokens.length = s.tokenCount ∧ s.actionMask.length = s.tokenCount ∧
    s.logProbs.length = s.tokenCount
  mask_iff : ∀ i, s.actionMask[i]? = some true ↔
    ∃ turn ∈ s.turns, turn.role = "assistant" ∧ turn.tokenStart ≤ i ∧ i < turn.tokenEnd
  builds : s.started = true → 0 < s.tokenCount → (s.workerPolicyVersion = none ∨
      s.workerPolicyVersion = some (c.policyVersion : ℤ)) →
    ∃ trajectory, build c s = .ok trajectory ∧ trajectory.turns = s.turns ∧
      trajectory.tokenIds = s.tokens ∧ trajectory.actionMask = s.actionMask ∧
      ∀ logProbs, trajectory.rolloutLogProbs = some logProbs →
        logProbs.length + 1 = s.tokens.length ∧ ∀ t, logProbs[t]? = s.logProbs[t + 1]?

omit [Zero P] in
theorem Aligned.tokenAligned {c : Limits} {s : Session P} (h : Aligned s) : TokenAligned c s where
  contiguous := h.contiguous
  lengths := ⟨h.count, (flat_length h.masks).trans h.count, (flat_length h.logProbs).trans h.count⟩
  mask_iff := by
    intro i
    have hmask := h.contiguous.mask_iff (Nat.zero_le i)
    rw [Nat.sub_zero, ← h.mask_eq] at hmask
    rw [hmask]
    refine exists_congr fun turn => and_congr_right fun hturn => ?_
    rw [h.trainable turn hturn, beq_iff_eq]
  builds := by
    intro hstarted hcount hversion
    refine ⟨_, h.build_eq hstarted hcount hversion, rfl, rfl, rfl, ?_⟩
    intro logProbs hsome
    have hlength : s.logProbs.length = s.tokens.length := flat_length h.logProbs
    have htokens := h.count
    rw [alignedTrajectory] at hsome
    dsimp only at hsome
    split_ifs at hsome
    cases hsome
    constructor
    · rw [List.length_drop]
      omega
    · intro t
      rw [List.getElem?_drop, Nat.add_comm]

/-- What one operation may do. -/
structure StepAligned (c : Limits) (s : Session P) (op : Op P) : Prop where
  grows : Grows c s (step c s op).1 op.actionTokens op.observationTokens
  refuses : s.active = false → ∀ action recordError envStep,
    op = .apply action recordError envStep → ∃ error, step c s op = (s, some error)
  limits : ∀ action transition, op = .apply action none (.ok transition) → s.active = true →
    s.turnCount < c.maxTurns → ActionAccepted s action → transition.infoError = none →
    prepareObservationTokens c transition.observation false = none →
    c.fits (s.tokenCount + action.tokenIds.numel + transition.observation.tokenIds.numel) = false →
      (step c s op).1.tokens = s.tokens ++ action.tokenIds.data ∧
        (transition.done = false → transition.truncated = false →
          (step c s op).1.truncated = true ∧ (step c s op).1.terminalReason = .contextLimit)

theorem step_stepAligned {c : Limits} {s : Session P} {op : Op P} (h : Supported c s op) :
    StepAligned c s op where
  grows := step_grows c s op
  refuses := by
    rintro hactive action recordError envStep rfl
    exact apply_inactive hactive action recordError envStep
  limits := by
    rintro action transition rfl hactive hturns haccepted hinfo hprepare hfits
    have hreason := ((h hactive hturns haccepted).2 transition rfl hinfo).2
    exact apply_limited hreason hactive hturns haccepted hinfo hprepare hfits

omit [Zero P] in
theorem init_aligned : Aligned ({} : Session P) where
  contiguous := rfl
  count := rfl
  masks := .nil
  logProbs := .nil
  mask_eq := rfl
  trainable := fun _ hturn => by cases hturn
  cached := fun _ hsome => by cases hsome
  vectors := by
    refine ⟨?_, ?_, ?_⟩ <;> intro part hpart <;> cases hpart

/-- In every run of supported operations, those that raise included, the session stays aligned and
every operation does what it may. -/
theorem run_aligned {c : Limits} {ops : List (Op P)}
    (h : ∀ before op after, ops = before ++ op :: after → Supported c (run c before) op) :
    TokenAligned c (run c ops) ∧
      ∀ before op after, ops = before ++ op :: after → StepAligned c (run c before) op := by
  have haligned : Aligned (run c ops) := by
    induction ops using List.reverseRecOn with
    | nil => exact init_aligned
    | append_singleton ops op ih =>
      have hbefore := ih fun before op' after heq =>
        h before op' (after ++ [op]) (by rw [heq, List.append_assoc, List.cons_append])
      rw [run, List.foldl_append]
      exact step_aligned hbefore (h ops op [] rfl)
  exact ⟨haligned.tokenAligned, fun before op after heq => step_stepAligned (h before op after heq)⟩

def Values.vector {β : Type*} (data : List β) : Values β := ⟨[data.length], data, by simp⟩

/-- At most two turns and two tokens. -/
def twoTokens : Limits := ⟨0, 2, none, some 2, by decide, by simp⟩

def greeting (role : String) : Observation := ⟨"hello", Values.vector [1], some role⟩

def reply : Action ℕ := ⟨"hi", Values.vector [2], none⟩

def goingOn (reason : Option TerminationReason) : Transition :=
  ⟨⟨"next", Values.vector [3], none⟩, false, false, reason, none⟩

/-- A reply behind which the next observation does not fit. -/
theorem run_aligned_reply :
    TokenAligned twoTokens (run twoTokens [.start (.ok (greeting "user")),
      .apply reply none (.ok (goingOn none))]) ∧
    ∀ before op after, [.start (.ok (greeting "user")), .apply reply none (.ok (goingOn none))] =
      before ++ op :: after → StepAligned twoTokens (run twoTokens before) op := by
  apply run_aligned
  rintro before op after heq
  rcases before with _ | ⟨first, _ | ⟨second, rest⟩⟩
  · obtain ⟨rfl, -⟩ := List.cons.inj heq
    exact fun _ _ _ _ => by decide
  · obtain ⟨rfl, htail⟩ := List.cons.inj heq
    obtain ⟨rfl, -⟩ := List.cons.inj htail
    intro _ _ _
    refine ⟨rfl, ?_⟩
    rintro transition hstep -
    cases hstep
    refine ⟨fun _ hfits => ?_, fun _ _ _ _ reason hreason => ?_⟩
    · exact absurd hfits (by decide)
    · cases hreason
  · have hlength := congrArg List.length heq
    simp at hlength

/-- Two runs that do not: an observation whose role is refused leaves tokens without a turn, and a
transition that goes on hides that the next observation did not fit. -/
theorem not_aligned :
    ¬ TokenAligned twoTokens (run twoTokens [(.start (.ok (greeting "assistant")) : Op ℕ)]) ∧
    ¬ StepAligned twoTokens (run twoTokens [.start (.ok (greeting "user"))])
      (.apply reply none (.ok (goingOn (some .completed)))) := by
  constructor
  · intro h
    have hcontiguous : 0 = 1 := h.contiguous
    exact absurd hcontiguous (by decide)
  · intro h
    have hlimits := h.limits _ _ rfl (by decide) (by decide)
      ⟨by decide, .inl (by decide), by decide⟩ (by decide) (by decide) (by decide)
    exact absurd (hlimits.2 rfl rfl).2 (by decide)

end HyperParallel.Agentic
