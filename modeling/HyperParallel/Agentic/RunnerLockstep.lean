import HyperParallel.Agentic.Runner
import Mathlib.Data.Fin.Basic

/-!
# A rollout in lockstep

On every rank `rolloutAsync` makes the same calls, returns or raises, and closes every session it
has created once.
-/

namespace HyperParallel.Agentic

open Lockstep

variable {P R B α β : Type} {ι : Type*}

/-! ### Loops over the sessions -/

/-- What identifies a session, and how often it has been closed. -/
def Slot.tag (slot : Slot P) : (String × ℕ) × ℕ := ((slot.promptId, slot.sampleIndex), slot.closes)

/-- The sessions that were created, each closed `closes` times. -/
def Kept (created : List (Slot P)) (closes : ℕ) (slots : List (Slot P)) : Prop :=
  slots.map Slot.tag = created.map fun slot => ((slot.promptId, slot.sampleIndex), closes)

@[simp] theorem Slot.tag_lift (slot : Slot P) (result : Result P) :
    (slot.lift result).1.tag = slot.tag := rfl

theorem map_tag_forEach {body : ℕ → Slot P → Slot P × Option String}
    (hbody : ∀ i slot, (body i slot).1.tag = slot.tag) (i : ℕ) (slots : List (Slot P)) :
    (forEach body i slots).1.map Slot.tag = slots.map Slot.tag := by
  induction slots generalizing i with
  | nil => rfl
  | cons slot slots ih =>
    simp only [forEach]
    split
    · rw [List.map_cons, List.map_cons, hbody]
    · rw [List.map_cons, List.map_cons, hbody, ih]

theorem Kept.forEach {created : List (Slot P)} {closes : ℕ} {slots : List (Slot P)}
    (h : Kept created closes slots) (body : ℕ → Slot P → Slot P × Option String)
    (hbody : ∀ i slot, (body i slot).1.tag = slot.tag) :
    Kept created closes (forEach body 0 slots).1 := by
  rw [Kept, map_tag_forEach hbody]
  exact h

theorem map_tag_gatherSessionOperations {operation : String}
    {body : ℕ → Slot P → Slot P × Option String} (tag : (String × ℕ) × ℕ → (String × ℕ) × ℕ)
    (hbody : ∀ i slot, (body i slot).1.tag = tag slot.tag) (slots : List (Slot P)) :
    (gatherSessionOperations operation body slots).1.map Slot.tag =
      (slots.map Slot.tag).map tag := by
  apply List.ext_getElem?
  intro i
  simp only [gatherSessionOperations, List.getElem?_map, List.getElem?_mapIdx, Option.map_map]
  congr 1
  funext slot
  exact hbody i slot

theorem Kept.gather {created : List (Slot P)} {closes : ℕ} {slots : List (Slot P)}
    (h : Kept created closes slots) {operation : String}
    {body : ℕ → Slot P → Slot P × Option String}
    (hbody : ∀ i slot, (body i slot).1.tag = slot.tag) :
    Kept created closes (gatherSessionOperations operation body slots).1 := by
  rw [Kept, map_tag_gatherSessionOperations id hbody, List.map_id]
  exact h

/-- Closing the sessions adds one to what each has been closed. -/
theorem Kept.close {created : List (Slot P)} {closes : ℕ} {slots : List (Slot P)}
    (h : Kept created closes slots) (r : Rank P R B) (operation : String) :
    Kept created (closes + 1) (gatherSessionOperations operation (Slot.close r) slots).1 := by
  rw [Kept, map_tag_gatherSessionOperations (fun tag => (tag.1, tag.2 + 1))
    (fun _ _ => rfl), h, List.map_map]
  rfl

theorem createSessions_closes (create : ℕ → Option String) (i : ℕ)
    (samples : List (String × ℕ)) :
    ∀ slot ∈ (createSessions (P := P) create i samples).1, slot.closes = 0 := by
  induction samples generalizing i with
  | nil => intro slot hslot; cases hslot
  | cons sample samples ih =>
    intro slot hslot
    simp only [createSessions] at hslot
    split at hslot
    · cases hslot
    · rcases List.mem_cons.1 hslot with rfl | hslot
      · rfl
      · exact ih _ slot hslot

/-- The sessions of a rank are created open. -/
theorem kept_populateSessions (c : Limits) (r : Rank P R B) :
    Kept (populateSessions c r).1 0 (populateSessions c r).1 := by
  refine List.map_congr_left fun slot hslot => ?_
  have hcloses : slot.closes = 0 := by
    simp only [populateSessions] at hslot
    split_ifs at hslot
    · cases hslot
    · cases hslot
    · exact createSessions_closes _ _ _ slot hslot
  rw [Slot.tag, hcloses]

theorem tag_finishSlot (r : Rank P R B) (i : ℕ) (slot : Slot P) :
    (finishSlot r i slot).1.tag = slot.tag := by
  unfold finishSlot
  split <;> rfl

/-! ### The budget of a turn -/

theorem foldl_min_le {budgets : List ℤ} {budget : ℤ} (hmem : budget ∈ budgets) (first : ℤ) :
    budgets.foldl min first ≤ budget := by
  have hle : ∀ (l : List ℤ) (a : ℤ), l.foldl min a ≤ a := by
    intro l
    induction l with
    | nil => exact fun a => le_refl a
    | cons x l ih => exact fun a => (ih (min a x)).trans (min_le_left a x)
  induction budgets generalizing first with
  | nil => cases hmem
  | cons x budgets ih =>
    rcases List.mem_cons.1 hmem with rfl | hmem
    · exact (hle budgets _).trans (min_le_right first budget)
    · exact ih hmem _

/-- A request asks for no more than any active session has left. -/
def WithinBudget (c : Limits) (request : Request) (sessions : List (Session P)) : Prop :=
  ∀ s ∈ sessions, s.active = true → ∀ budget, remainingTokenBudget c s = some budget →
    request.settings.maxNewTokens ≤ budget

theorem turnSettings_le (c : Limits) (settings : Settings) {slots : List (Slot P)} {s : Session P}
    (hs : s ∈ slots.map (·.session)) (hactive : s.active = true) {budget : ℤ}
    (hbudget : remainingTokenBudget c s = some budget) :
    (turnSettings c settings slots).maxNewTokens ≤ budget := by
  have hmem : s ∈ activeSessions slots := List.mem_filter.2 ⟨hs, hactive⟩
  have hne : (activeSessions slots).isEmpty = false := by
    cases hlist : activeSessions slots with
    | nil => rw [hlist] at hmem; cases hmem
    | cons _ _ => rfl
  simp only [turnSettings, hne, Bool.false_eq_true, if_false]
  exact foldl_min_le (List.mem_filterMap.2 ⟨s, hmem, hbudget⟩) _

theorem settings_of_buildRequest {r : Rank P R B} {turn : ℕ} {settings : Settings}
    {slots : List (Slot P)} {request : Request}
    (h : buildRequest r turn settings slots = .ok request) : request.settings = settings := by
  unfold buildRequest at h
  cases hpad : leftPadSessions r.settings.padTokenId slots with
  | error error => rw [hpad] at h; cases h
  | ok padded =>
    cases herror : toExcept (r.requestError turn) with
    | error error => rw [hpad, herror] at h; cases h
    | ok _ =>
      cases hseed : settings.seed with
      | none =>
        rw [hpad, herror, hseed] at h
        cases h
        rfl
      | some seed =>
        cases hseeds : slots.mapM (canonicalRowSeed r seed) with
        | error error =>
          rw [hpad, herror, hseed] at h
          simp only [bind, Except.bind, hseeds] at h
          cases h
        | ok rowSeeds =>
          rw [hpad, herror, hseed] at h
          simp only [bind, Except.bind, hseeds] at h
          cases h
          rfl

theorem tag_limitContext (c : Limits) (slot : Slot P) : (limitContext c slot).1.tag = slot.tag := by
  unfold limitContext
  split
  · split_ifs
    · rfl
    · rfl
    · rfl
  · rfl

theorem Kept.prepare {created : List (Slot P)} {closes : ℕ} {slots : List (Slot P)}
    (h : Kept created closes slots) (c : Limits) (r : Rank P R B) (turn : ℕ) :
    Kept created closes (prepareGenerationRequest c r turn slots).1 :=
  h.forEach _ fun _ slot => tag_limitContext c slot

theorem prepareGenerationRequest_withinBudget {c : Limits} {r : Rank P R B} {turn : ℕ}
    {slots : List (Slot P)} {prepared : List Bool × Request}
    (h : (prepareGenerationRequest c r turn slots).2 = .ok prepared) :
    WithinBudget c prepared.2
      ((prepareGenerationRequest c r turn slots).1.map (·.session)) := by
  intro s hs hactive budget hbudget
  simp only [prepareGenerationRequest, settingsForTurn] at h hs
  cases hlimited : (Agentic.forEach (fun _ => limitContext c) 0 slots).2 with
  | error error =>
    rw [hlimited] at h
    cases h
  | ok _ =>
    rw [hlimited] at h
    simp only [Except.map, Except.bind] at h
    cases hbuild : buildRequest r turn
        (turnSettings c r.settings (Agentic.forEach (fun _ => limitContext c) 0 slots).1)
        (Agentic.forEach (fun _ => limitContext c) 0 slots).1 with
    | error error =>
      rw [hbuild] at h
      cases h
    | ok request =>
      rw [hbuild] at h
      cases h
      rw [settings_of_buildRequest hbuild]
      exact turnSettings_le c r.settings hs hactive hbudget

theorem Kept.applyGenerationResult [Zero P] {created : List (Slot P)} {closes : ℕ}
    {slots : List (Slot P)} (h : Kept created closes slots) (c : Limits) (r : Rank P R B)
    (turn : ℕ) (active : List Bool) (result : R) :
    Kept created closes (applyGenerationResult c r turn slots active result).1 := by
  have hrecorded := h.forEach (fun i slot =>
      if active.getD i false then
        slot.lift (recordWorkerPolicyVersion slot.session (r.workerPolicyVersion result))
      else (slot, none)) fun i slot => by split_ifs <;> rfl
  unfold Agentic.applyGenerationResult
  split
  · exact h
  · simp only
    split
    · exact hrecorded
    · exact hrecorded
    · exact hrecorded.gather fun i slot => by split_ifs <;> rfl

/-! ### Synchronized errors -/

/-- The ranks meet in a call, and a request stays within the budgets. -/
structure Meet (c : Limits) (call : ι → Call P) : Prop where
  operation : ∀ i j, (call i).operation = (call j).operation
  budget : ∀ i request sessions, call i = .generate request sessions →
    WithinBudget c request sessions

abbrev InLockstep (c : Limits) (post : (ι → α) → Prop) (p : ι → Program P R α) : Prop :=
  Together (Meet c) Collective post p

/-- Every rank returns, or every rank raises. -/
def Ends (returns : ι → List (Slot P) → α → Prop) (raises : ι → List (Slot P) → Prop)
    (out : ι → Outcome P α) : Prop :=
  (∀ i, ∃ value, (out i).2 = .ok value ∧ returns i (out i).1 value) ∨
    ∀ i, ∃ error, (out i).2 = .error error ∧ raises i (out i).1

/-- The sessions that were created stay, closed `returned` times where the ranks return and `raised`
times where they raise. -/
abbrev Keeps (created : ι → List (Slot P)) (returned raised : ℕ) : (ι → Outcome P α) → Prop :=
  Ends (fun i slots _ => Kept (created i) returned slots) fun i => Kept (created i) raised

theorem inLockstep_synchronizeError (c : Limits) (error : ι → Option String) (operation : String) :
    InLockstep (P := P) (R := R) c
      (fun reply => (∀ i, reply i = .ok () ∧ error i = none) ∨ ∀ i, ∃ e, reply i = .error e)
      fun i => synchronizeError (error i) operation := by
  let call : ι → Call P := fun i => .synchronizeError operation (error i)
  let next : ∀ i, Call.Reply R (call i) → Program P R (Except String Unit) := fun _ => .done
  have hmeet : Meet c call := by
    constructor
    · exact fun _ _ => rfl
    · rintro i request sessions hcall
      cases hcall
  refine Together.call call next hmeet ?_
  rintro (reply : ι → Except String Unit) hreply
  refine .done reply ?_
  have hraises := hreply.error fun i hnone => by cases hnone
  by_cases hfails : ∃ j, error j ≠ none
  · exact .inr fun i => (hraises i).2 hfails
  · left
    intro i
    constructor
    · cases hi : reply i with
      | ok value => rfl
      | error e => exact absurd ((hraises i).1 ⟨e, hi⟩) hfails
    · exact not_not.1 fun hne => hfails ⟨i, hne⟩

theorem inLockstep_done {c : Limits} {post : (ι → α) → Prop} {p : ι → Program P R α} (out : ι → α)
    (hp : ∀ i, p i = .done (out i)) (hpost : post out) : InLockstep c post p :=
  (Together.done out hpost).congr hp

variable {returns : ι → List (Slot P) → α → Prop} {raises : ι → List (Slot P) → Prop}

theorem inLockstep_synchronized (c : Limits) (operation : String) {created : ι → List (Slot P)}
    {closes : ℕ} {out : ι → Outcome P Unit} (h : ∀ i, Kept (created i) closes (out i).1) :
    InLockstep (R := R) c (Keeps created closes closes)
      fun i => synchronized operation (out i) := by
  refine (inLockstep_synchronizeError c (fun i => raised (out i).2) operation).bind ?_
  rintro reply (hok | herror)
  · exact .done _ (.inl fun i => ⟨(), (hok i).1, h i⟩)
  · refine .done _ (.inr fun i => ?_)
    obtain ⟨e, he⟩ := herror i
    exact ⟨e, he, h i⟩

theorem inLockstep_synchronizedValue (c : Limits) (operation missing : String)
    {out : ι → Outcome P α}
    (hreturns : ∀ i value, (out i).2 = .ok value → returns i (out i).1 value)
    (hraises : ∀ i, raises i (out i).1) :
    InLockstep (R := R) c (Ends returns raises)
      fun i => synchronizedValue operation missing (out i) := by
  refine (inLockstep_synchronizeError c (fun i => raised (out i).2) operation).bind ?_
  rintro reply (hok | herror)
  · have hvalue : ∀ i, ∃ value, (out i).2 = .ok value := by
      intro i
      have hi := (hok i).2
      cases hout : (out i).2 with
      | ok value => exact ⟨value, rfl⟩
      | error e => rw [hout] at hi; cases hi
    choose value hvalue using hvalue
    refine inLockstep_done (fun i => ((out i).1, .ok (value i))) ?_ ?_
    · exact fun i => by rw [(hok i).1, hvalue i]
    · exact .inl fun i => ⟨value i, rfl, hreturns i _ (hvalue i)⟩
  · choose e he using herror
    refine inLockstep_done (fun i => ((out i).1, .error (e i))) ?_ ?_
    · exact fun i => by rw [he i]
    · exact .inr fun i => ⟨e i, rfl, hraises i⟩

theorem inLockstep_andThen {c : Limits} {returns' : ι → List (Slot P) → β → Prop}
    {p : ι → Program P R (Outcome P α)}
    {next : ι → List (Slot P) → α → Program P R (Outcome P β)}
    (h : InLockstep c (Ends returns raises) p)
    (hnext : ∀ (slots : ι → List (Slot P)) (values : ι → α), (∀ i, returns i (slots i) (values i)) →
      InLockstep c (Ends returns' raises) fun i => next i (slots i) (values i)) :
    InLockstep c (Ends returns' raises) fun i => andThen (p i) (next i) := by
  refine h.bind ?_
  rintro out (hreturns | hraises)
  · choose value hvalue using hreturns
    exact (hnext _ value fun i => (hvalue i).2).congr fun i => by rw [(hvalue i).1]
  · choose e he using hraises
    refine inLockstep_done (fun i => ((out i).1, .error (e i))) ?_ ?_
    · exact fun i => by rw [(he i).1]
    · exact .inr fun i => ⟨e i, rfl, (he i).2⟩

/-! ### The rollout -/

variable {c : Limits} {r : ι → Rank P R B} {created : ι → List (Slot P)}

theorem inLockstep_cleanUpSetup {slots : ι → List (Slot P)} (setupError : ι → String)
    (hopen : ∀ i, Kept (created i) 0 (slots i)) :
    InLockstep c (Keeps created 0 1) fun i => cleanUpSetup (r i) (slots i) (setupError i) := by
  let cleaned : ι → Outcome P Unit := fun i =>
    gatherSessionOperations "rollout setup cleanup" (Slot.close (r i)) (slots i)
  have hclosed : ∀ i, Kept (created i) 1 (cleaned i).1 := fun i => (hopen i).close (r i) _
  refine (inLockstep_synchronizeError c (fun i => raised (cleaned i).2)
    "rollout setup cleanup").bind ?_
  rintro reply (hok | herror)
  · refine inLockstep_done (fun i => ((cleaned i).1, .error (setupError i))) ?_ ?_
    · exact fun i => by rw [(hok i).1]
    · exact .inr fun i => ⟨_, rfl, hclosed i⟩
  · choose e he using herror
    refine inLockstep_done (fun i => ((cleaned i).1,
      .error s!"{setupError i}; rollout setup cleanup also failed: {e i}")) ?_ ?_
    · exact fun i => by rw [he i]
    · exact .inr fun i => ⟨_, rfl, hclosed i⟩

theorem inLockstep_synchronizeSetup {out : ι → Outcome P Unit}
    (hopen : ∀ i, Kept (created i) 0 (out i).1) :
    InLockstep c (Keeps created 0 1) fun i => synchronizeSetup (r i) (out i) := by
  refine (inLockstep_synchronizeError c (fun i => raised (out i).2) "rollout setup").bind ?_
  rintro reply (hok | herror)
  · refine inLockstep_done (fun i => ((out i).1, .ok ())) ?_ ?_
    · exact fun i => by rw [(hok i).1]
    · exact .inl fun i => ⟨(), rfl, hopen i⟩
  · choose setupError hsetup using herror
    exact (inLockstep_cleanUpSetup setupError hopen).congr fun i => by rw [hsetup i]

section

variable [Zero P]

/-- One turn: the sessions are made ready, the request is answered, the answer is applied. -/
theorem inLockstep_runTurn (turn : ℕ) {slots : ι → List (Slot P)}
    (hopen : ∀ i, Kept (created i) 0 (slots i)) :
    InLockstep c (Keeps created 0 0)
      fun i => runTurn c (r i) turn (slots i) := by
  have hprepare : InLockstep c (Ends (fun i slots (prepared : List Bool × Request) =>
        Kept (created i) 0 slots ∧ WithinBudget c prepared.2 (slots.map (·.session)))
        fun i => Kept (created i) 0) fun i =>
      (synchronizedValue "generation request preparation" "Generation request preparation"
        (prepareGenerationRequest c (r i) turn (slots i)) :
          Program P R (Outcome P (List Bool × Request))) :=
    inLockstep_synchronizedValue c _ _
      (fun i _ hprepared => ⟨(hopen i).prepare c (r i) turn,
        prepareGenerationRequest_withinBudget hprepared⟩)
      fun i => (hopen i).prepare c (r i) turn
  refine inLockstep_andThen hprepare ?_
  intro slots prepared hprepared
  let call : ι → Call P := fun i => .generate (prepared i).2 ((slots i).map (·.session))
  have hmeet : Meet c call := by
    constructor
    · exact fun _ _ => rfl
    · rintro i request sessions hcall
      cases hcall
      exact (hprepared i).2
  refine Together.call call _ hmeet ?_
  rintro (reply : ι → Except String R) hreply
  by_cases hraises : ∃ i, Raises (reply i)
  · obtain ⟨i, hi⟩ := hraises
    choose e he using fun j => hreply.together i j hi
    refine inLockstep_done (fun i => (slots i, .error (e i))) ?_ ?_
    · exact fun i => by rw [he i]
    · exact .inr fun i => ⟨e i, rfl, (hprepared i).1⟩
  · have hok : ∀ i, ∃ result, reply i = .ok result := by
      intro i
      cases hi : reply i with
      | ok result => exact ⟨result, rfl⟩
      | error e => exact absurd ⟨i, e, hi⟩ hraises
    choose result hresult using hok
    have happlied : ∀ i, Kept (created i) 0 (applyGenerationResult c (r i) turn (slots i)
        (prepared i).1 (result i)).1 :=
      fun i => (hprepared i).1.applyGenerationResult c (r i) turn _ _
    exact (inLockstep_synchronized c "generation postprocessing" happlied).congr
      fun i => by rw [hresult i]

theorem inLockstep_runTurns (remaining : ℕ) {slots : ι → List (Slot P)}
    (hopen : ∀ i, Kept (created i) 0 (slots i)) :
    InLockstep c (Keeps created 0 0)
      fun i => runTurns c (r i) remaining (slots i) := by
  induction remaining generalizing slots with
  | zero => exact .done _ (.inl fun i => ⟨(), rfl, hopen i⟩)
  | succ remaining ih =>
    exact inLockstep_andThen (inLockstep_runTurn _ hopen) fun _ _ hslots => ih hslots

theorem inLockstep_runSessionTurns {slots : ι → List (Slot P)}
    (hopen : ∀ i, Kept (created i) 0 (slots i)) :
    InLockstep c (Keeps created 0 0)
      fun i => runSessionTurns c (r i) (slots i) := by
  have hstarted : ∀ i, Kept (created i) 0 (gatherSessionOperations "session start"
      (fun k slot => slot.lift (start c slot.session ((r i).reset k))) (slots i)).1 :=
    fun i => (hopen i).gather fun _ _ => rfl
  unfold runSessionTurns
  refine inLockstep_andThen (inLockstep_synchronized c _ hstarted) ?_
  intro slots _ hslots
  refine inLockstep_andThen (inLockstep_runTurns c.maxTurns hslots) ?_
  intro slots _ hslots
  have hfinished : ∀ i, Kept (created i) 0 (forEach (finishSlot (r i)) 0 (slots i)).1 :=
    fun i => (hslots i).forEach _ (tag_finishSlot (r i))
  exact inLockstep_synchronized c _ hfinished

/-- Whatever the turns end with, the sessions are closed once. -/
theorem inLockstep_runSessions {slots : ι → List (Slot P)}
    (hopen : ∀ i, Kept (created i) 0 (slots i)) :
    InLockstep c (Keeps created 1 1)
      fun i => runSessions c (r i) (slots i) := by
  refine (inLockstep_runSessionTurns hopen).bind ?_
  intro turns hturns
  have hkept : ∀ i, Kept (created i) 0 (turns i).1 := by
    intro i
    rcases hturns with hreturns | hraises
    · exact (hreturns i).choose_spec.2
    · exact (hraises i).choose_spec.2
  have hclosed : ∀ i, Kept (created i) 1
      (gatherSessionOperations "session close" (Slot.close (r i)) (turns i).1).1 :=
    fun i => (hkept i).close (r i) _
  refine inLockstep_andThen (inLockstep_synchronized c _ hclosed) ?_
  intro slots _ hslots
  exact inLockstep_synchronizedValue c _ _ (fun i _ _ => hslots i) hslots

theorem inLockstep_rolloutAsync (c : Limits) (r : ι → Rank P R B) :
    InLockstep c (Keeps (fun i => (populateSessions c (r i)).1) 1 1)
      fun i => rolloutAsync c (r i) := by
  refine inLockstep_andThen
    (inLockstep_synchronizeSetup fun i => kept_populateSessions c (r i)) ?_
  intro slots _ hslots
  refine inLockstep_andThen (inLockstep_runSessions hslots) ?_
  intro slots trajectories hslots
  exact inLockstep_synchronizedValue c _ _ (fun i _ _ => hslots i) hslots

end

/-! ### Runs -/

/-- Every rank returns or every rank raises, and has closed the sessions it created once. -/
def Ended (c : Limits) (r : ι → Rank P R B) (q : ι → Program P R (Outcome P B)) : Prop :=
  ∃ out : ι → Outcome P B, (∀ i, q i = .done (out i)) ∧
    Keeps (fun i => (populateSessions c (r i)).1) 1 1 out

/-- Every rank is in the same call, and the engine has a reply. -/
def AtOneCall (c : Limits) (q : ι → Program P R (Outcome P B)) : Prop :=
  ∃ (call : ι → Call P) (next : ∀ i, (call i).Reply R → Program P R (Outcome P B)),
    (q = fun i => .call (call i) (next i)) ∧ Meet c call ∧ ∃ q', Step Collective q q'

/-- A reply to a call of which no rank passes an error. -/
def Call.answer : (call : Call P) → call.Reply R
  | .synchronizeError .. => .ok ()
  | .generate .. => .error "no generation"

theorem exists_reply {call : ι → Call P} (hmeet : Meet c call) :
    ∃ reply : ∀ i, (call i).Reply R, Collective call reply := by
  by_cases hfails : ∃ j, (call j).error ≠ none
  · refine ⟨fun i => .error "", ⟨fun _ _ _ => ⟨"", rfl⟩, fun _ i => ?_⟩⟩
    exact ⟨fun _ => hfails, fun _ => ⟨"", rfl⟩⟩
  · have hraises : ∀ i, Raises ((call i).answer (R := R)) ↔ (call i).operation = none := by
      intro i
      cases call i with
      | synchronizeError operation error =>
        constructor
        · rintro ⟨e, he⟩
          cases he
        · rintro hnone
          cases hnone
      | generate request sessions => exact ⟨fun _ => rfl, fun _ => ⟨_, rfl⟩⟩
    refine ⟨fun i => (call i).answer, ⟨?_, ?_⟩⟩
    · intro i j hi
      rw [hraises] at hi ⊢
      rw [hmeet.operation j i, hi]
    · intro hsync i
      constructor
      · exact fun hi => absurd ((hraises i).1 hi) (hsync i)
      · exact fun hj => absurd hj hfails

/-- The ranks of a rollout make the same calls until all return or all raise. -/
theorem rolloutAsync_lockstep [Zero P] {n : ℕ} (c : Limits) (r : Fin (n + 1) → Rank P R B) :
    Acc (fun q p => Step Collective p q) (fun i => rolloutAsync c (r i)) ∧
      ∀ q, Relation.ReflTransGen (Step Collective) (fun i => rolloutAsync c (r i)) q →
        Ended c r q ∨ AtOneCall c q := by
  have hlockstep := inLockstep_rolloutAsync c r
  refine ⟨hlockstep.acc, fun q hrun => ?_⟩
  rcases (hlockstep.run hrun).ended_or_meet with ⟨out, hout, hends⟩ | ⟨call, next, rfl, hmeet⟩
  · exact .inl ⟨out, hout, hends⟩
  · obtain ⟨reply, hreply⟩ := exists_reply (R := R) hmeet
    exact .inr ⟨call, next, rfl, hmeet, _, .call call next reply hreply⟩

/-- A rank on which every session fails to start. -/
def unstartedRank (prompts : List String) : Rank ℕ Unit Unit where
  prompts := prompts
  numSamples := 1
  numSamples_pos := one_pos
  settings := ⟨8, 0, none⟩
  engineVersion := none
  promptIndex := fun _ => 0
  create := fun _ => none
  reset := fun _ => .error "no environment"
  requestError := fun _ => none
  validate := fun _ _ => none
  workerPolicyVersion := fun _ => none
  decode := fun _ _ => .error "no tokenizer"
  recordError := fun _ _ => none
  envStep := fun _ _ => .error "no environment"
  finishError := fun _ => none
  closeError := fun _ => none
  buildError := fun _ => none
  buildBatch := fun _ => .ok ()

/-- Two ranks, the second without prompts: some run of theirs ends. -/
theorem rolloutAsync_lockstep_unstarted :
    ∃ q, Relation.ReflTransGen (Step Collective)
        (fun i : Fin 2 => rolloutAsync ⟨0, 1, none, none, one_pos, by simp⟩
          (unstartedRank (if i = 0 then ["0"] else []))) q ∧
      Ended ⟨0, 1, none, none, one_pos, by simp⟩
        (fun i : Fin 2 => unstartedRank (if i = 0 then ["0"] else [])) q := by
  obtain ⟨hacc, hruns⟩ := rolloutAsync_lockstep ⟨0, 1, none, none, one_pos, by simp⟩
    fun i : Fin 2 => unstartedRank (if i = 0 then ["0"] else [])
  suffices hended : ∀ p, Acc (fun q p => Step Collective p q) p →
      Relation.ReflTransGen (Step Collective) _ p →
        ∃ q, Relation.ReflTransGen (Step Collective) _ q ∧ Ended _ _ q from hended _ hacc .refl
  intro p hp
  induction hp with
  | intro p _ ih =>
    intro hrun
    rcases hruns p hrun with hended | ⟨call, next, hcall, hmeet, p', hstep⟩
    · exact ⟨p, hrun, hended⟩
    · exact ih p' hstep (hrun.tail hstep)

end HyperParallel.Agentic
