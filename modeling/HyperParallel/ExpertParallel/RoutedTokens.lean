import HyperParallel.ExpertParallel.AllToAllDispatcher
import HyperParallel.Lib.Shares

/-!
# Tokens routed to experts

* `RoutedInput`: the tokens of a rank, sorted by the expert they are routed to;
* `RoutedInput.tokens_eq`: they are the blocks that the counts describe;
* `expertOutput`: row-wise experts on what a rank received;
* `expertOutput_eq`: every row meets its own expert;
* `dispatch_combine`: `combine` returns the result of every token in the routed order.
-/

namespace HyperParallel.ExpertParallel

open Blocks Exchange

variable {α π : Type} {n L : ℕ}

/-- A token, the expert it is routed to and its prob. -/
structure RoutedToken (α π : Type) where
  expert : ℕ
  row : α
  prob : π

/-- What a rank passes to `dispatch`: its tokens, sorted by expert. -/
structure RoutedInput (α π : Type) (numExperts : ℕ) where
  tokens : List (RoutedToken α π)
  sorted : tokens.Pairwise fun t t' => t.expert ≤ t'.expert
  expert_lt : ∀ t ∈ tokens, t.expert < numExperts

namespace RoutedInput

variable {E : ℕ} (x : RoutedInput α π E)

/-- `routed_input` -/
def routedInput : List α := x.tokens.map (·.row)

/-- `permuted_probs` -/
def permutedProbs : List π := x.tokens.map (·.prob)

/-- The tokens routed to an expert, in their order. -/
def ofExpert (e : ℕ) : List (RoutedToken α π) := x.tokens.filter (·.expert = e)

/-- `num_tokens_per_expert` -/
def numTokensPerExpert : List ℕ := List.ofFn fun e : Fin E => (x.ofExpert e).length

theorem expert_of_mem_ofExpert {e : ℕ} {t : RoutedToken α π} (h : t ∈ x.ofExpert e) :
    t.expert = e := by
  simpa using (List.mem_filter.1 h).2

end RoutedInput

namespace RoutedInput

/-- The tokens of a rank are the blocks that its counts describe. -/
theorem tokens_eq (x : RoutedInput α π (n * L)) :
    x.tokens = (flat fun (d : Fin n) (e : Fin L) => x.ofExpert (d.val * L + e.val)).flatten := by
  have hrange : (List.ofFn fun i : Fin (n * L) => x.ofExpert i).flatten = x.tokens := by
    have hdealt : (List.range (n * L)).flatMap x.ofExpert = x.tokens :=
      Shares.flatMap_share x.sorted x.expert_lt
    rw [← hdealt, ← List.map_coe_finRange_eq_range, List.flatMap_map, List.flatMap_def,
      List.ofFn_eq_map]
  rw [← hrange, List.ofFn_mul]
  rfl

theorem numTokensPerExpert_eq (x : RoutedInput α π (n * L)) :
    x.numTokensPerExpert =
      flat fun (d : Fin n) (e : Fin L) => (x.ofExpert (d.val * L + e.val)).length := by
  rw [numTokensPerExpert, List.ofFn_mul]
  rfl

theorem routedInput_eq (x : RoutedInput α π (n * L)) :
    x.routedInput = (flat fun (d : Fin n) (e : Fin L) =>
      (x.ofExpert (d.val * L + e.val)).map (·.row)).flatten := by
  rw [routedInput, x.tokens_eq, List.map_flatten, map_flat]

theorem permutedProbs_eq (x : RoutedInput α π (n * L)) :
    x.permutedProbs = (flat fun (d : Fin n) (e : Fin L) =>
      (x.ofExpert (d.val * L + e.val)).map (·.prob)).flatten := by
  rw [permutedProbs, x.tokens_eq, List.map_flatten, map_flat]

end RoutedInput

/-- The tokens routed to the experts of rank `d`, by local expert and then by source. -/
def received (inputs : Fin n → RoutedInput α π (n * L)) (d : Fin n) : List (RoutedToken α π) :=
  (flat fun (e : Fin L) s => (inputs s).ofExpert (d.val * L + e.val)).flatten

theorem received_eq (inputs : Fin n → RoutedInput α π (n * L)) (d : Fin n) :
    received inputs d =
      concat fun e : Fin L => concat fun s => (inputs s).ofExpert (d.val * L + e.val) :=
  flatten_flat _

/-! ### Row-wise experts -/

/-- The prob of a token, where probs are passed. -/
def RoutedToken.prob? (useProbs : Bool) (t : RoutedToken α π) : Option π :=
  if useProbs then some t.prob else none

/-- The probs that come with the rows, row by row. -/
def rowProbs (rows : List α) : Option (List π) → List (Option π)
  | none => List.replicate rows.length none
  | some probs => probs.map some

/-- A row-wise expert computation on what a rank received: the local experts one after the other,
each on as many rows as its count says. -/
def expertOutput (f : ℕ → α → Option π → α) (firstExpert : ℕ) (x : Dispatched α π) : List α :=
  List.zipWith (fun e (t : α × Option π) => f e t.1 t.2)
    (repeatInterleave (List.ofFn fun i : Fin x.localCounts.length => firstExpert + i.val)
      x.localCounts)
    (x.permuted.zip (rowProbs x.permuted x.permutedProbs))

theorem rowProbs_map (useProbs : Bool) (l : List (RoutedToken α π)) :
    rowProbs (l.map (·.row)) (if useProbs then some (l.map (·.prob)) else none) =
      l.map (·.prob? useProbs) := by
  cases useProbs
  · simp [rowProbs, RoutedToken.prob?]
  · simp [rowProbs, RoutedToken.prob?]

/-- The experts of the rows are those that the tokens are routed to. -/
theorem repeatInterleave_experts {T : Fin L → List (RoutedToken α π)} {firstExpert : ℕ}
    (h : ∀ e, ∀ t ∈ T e, t.expert = firstExpert + e.val) :
    repeatInterleave (List.ofFn fun e : Fin L => firstExpert + e.val)
        (List.ofFn fun e => (T e).length) =
      (concat T).map (·.expert) := by
  rw [repeatInterleave_ofFn, map_concat]
  congr 1
  funext e
  symm
  rw [List.eq_replicate_iff]
  constructor
  · exact List.length_map _
  · intro expert hexpert
    obtain ⟨t, ht, rfl⟩ := List.mem_map.1 hexpert
    exact h e t ht

/-- Every row meets the expert that its token is routed to. -/
theorem expertOutput_eq (f : ℕ → α → Option π → α) {T : Fin L → List (RoutedToken α π)}
    {firstExpert : ℕ} (h : ∀ e, ∀ t ∈ T e, t.expert = firstExpert + e.val) (useProbs : Bool)
    {x : Dispatched α π} (hrows : x.permuted = (concat T).map (·.row))
    (hcounts : x.localCounts = List.ofFn fun e => (T e).length)
    (hprobs : x.permutedProbs = if useProbs then some ((concat T).map (·.prob)) else none) :
    expertOutput f firstExpert x =
      (concat T).map fun t => f t.expert t.row (t.prob? useProbs) := by
  have hexperts : (List.ofFn fun i : Fin x.localCounts.length => firstExpert + i.val) =
      List.ofFn fun e : Fin L => firstExpert + e.val := by
    have hlength : x.localCounts.length = L := by rw [hcounts, List.length_ofFn]
    exact List.ofFn_congr hlength _
  rw [expertOutput, hexperts, hcounts, repeatInterleave_experts h, hrows, hprobs, rowProbs_map]
  induction concat T with
  | nil => rfl
  | cons t l ih => simpa using ih

/-! ### Dispatch and combine -/

/-- The number of tokens of source `s` for expert `e` of destination `d`. -/
def blockSize (inputs : Fin n → RoutedInput α π (n * L)) (s d : Fin n) (e : Fin L) : ℕ :=
  ((inputs s).ofExpert (d.val * L + e.val)).length

/-- What every rank has after `dispatch`. -/
structure Delivered (inputs : Fin n → RoutedInput α π (n * L)) (useProbs : Bool)
    (out : Fin n → Dispatched α π) : Prop where
  permuted : ∀ d, (out d).permuted = (received inputs d).map (·.row)
  localCounts : ∀ d, (out d).localCounts = List.ofFn fun e => ∑ s, blockSize inputs s d e
  permutedProbs : ∀ d, (out d).permutedProbs =
    if useProbs then some ((received inputs d).map (·.prob)) else none
  inputSplits : ∀ s, (out s).ctx.inputSplits = List.ofFn fun d => ∑ e, blockSize inputs s d e
  outputSplits : ∀ d, (out d).ctx.outputSplits = List.ofFn fun s => ∑ e, blockSize inputs s d e
  inputShape : ∀ d, (out d).ctx.inputShape = (flat fun s e => blockSize inputs s d e).sum
  permutedIndices : ∀ d,
    (out d).ctx.permutedIndices = transposed fun s e => blockSize inputs s d e

/-- `dispatch` delivers every token to the rank of its expert. -/
theorem dispatch_delivers (inputs : Fin n → RoutedInput α π (n * L)) (useProbs : Bool) :
    ∃ out : Fin n → Dispatched α π,
      dispatch (fun r => (inputs r).routedInput) (fun r => (inputs r).numTokensPerExpert)
          (if useProbs then some fun r => (inputs r).permutedProbs else none) = some out ∧
        Delivered inputs useProbs out := by
  have hrows : ∀ (s d : Fin n) (e : Fin L),
      (((inputs s).ofExpert (d.val * L + e.val)).map (·.row)).length = blockSize inputs s d e :=
    fun _ _ _ => List.length_map _
  let P : Option (Fin n → Fin n → Fin L → List π) :=
    if useProbs then some fun s d e => ((inputs s).ofExpert (d.val * L + e.val)).map (·.prob)
    else none
  have hP : ∀ p, P = some p → ∀ s d e, (p s d e).length = blockSize inputs s d e := by
    intro p hp s d e
    simp only [P] at hp
    split_ifs at hp
    rw [← Option.some.inj hp]
    exact List.length_map _
  have hprobs : (if useProbs then some fun r => (inputs r).permutedProbs else none) =
      P.map fun p s => (flat (p s)).flatten := by
    simp only [P]
    split_ifs
    · simp only [RoutedInput.permutedProbs_eq, Option.map_some]
    · rfl
  have hdispatch := dispatch_eq hrows hP
  simp only [← RoutedInput.routedInput_eq, ← hprobs] at hdispatch
  simp only [RoutedInput.numTokensPerExpert_eq]
  refine ⟨_, hdispatch, ?_, fun _ => rfl, ?_, fun _ => rfl, fun _ => rfl, fun _ => rfl,
    fun _ => rfl⟩
  · intro d
    rw [received, List.map_flatten, map_flat]
  · intro d
    simp only [P]
    split_ifs
    · rw [Option.map_some, received, List.map_flatten, map_flat]
    · rfl

/-- `combine` returns what the experts make of every token, where the token came from. -/
theorem Delivered.combine_eq [Zero α] {inputs : Fin n → RoutedInput α π (n * L)} {useProbs : Bool}
    {out : Fin n → Dispatched α π} (h : Delivered inputs useProbs out)
    (f : ℕ → α → Option π → α) :
    combine (fun d => expertOutput f (d.val * L) (out d)) (fun d => (out d).ctx) =
      some fun r => (inputs r).tokens.map fun t => f t.expert t.row (t.prob? useProbs) := by
  have houtput : ∀ d : Fin n, expertOutput f (d.val * L) (out d) =
      (flat fun (e : Fin L) s => ((inputs s).ofExpert (d.val * L + e.val)).map
        fun t => f t.expert t.row (t.prob? useProbs)).flatten := by
    intro d
    have hexpert : ∀ (e : Fin L), ∀ t ∈ concat fun s => (inputs s).ofExpert (d.val * L + e.val),
        t.expert = d.val * L + e.val := by
      intro e t ht
      obtain ⟨s, hs⟩ := mem_concat.1 ht
      exact (inputs s).expert_of_mem_ofExpert hs
    have hreceived := received_eq inputs d
    rw [expertOutput_eq f hexpert useProbs (hreceived ▸ h.permuted d)
      (by simpa only [length_concat, blockSize] using h.localCounts d) (hreceived ▸ h.permutedProbs d),
      ← hreceived, received, List.map_flatten, map_flat]
  have htokens : ∀ r, ((inputs r).tokens.map fun t => f t.expert t.row (t.prob? useProbs)) =
      (flat fun (d : Fin n) (e : Fin L) => ((inputs r).ofExpert (d.val * L + e.val)).map
        fun t => f t.expert t.row (t.prob? useProbs)).flatten := by
    intro r
    rw [(inputs r).tokens_eq, List.map_flatten, map_flat]
  simp only [houtput, htokens]
  exact ExpertParallel.combine_eq (fun _ _ _ => List.length_map _) h.inputSplits h.outputSplits
    h.inputShape h.permutedIndices

/-- Every rank receives the tokens of its experts, expert by expert, each with its prob, and
`combine` returns what the experts make of every token, in the routed order of its rank; started
and waited for, it returns the same. -/
theorem dispatch_combine [Zero α] (inputs : Fin n → RoutedInput α π (n * L)) (useProbs : Bool) :
    ∃ out : Fin n → Dispatched α π,
      dispatch (fun r => (inputs r).routedInput) (fun r => (inputs r).numTokensPerExpert)
          (if useProbs then some fun r => (inputs r).permutedProbs else none) = some out ∧
        (∀ d, (out d).permuted = (received inputs d).map (·.row) ∧
          (out d).localCounts =
            List.ofFn (fun e : Fin L => ∑ s, ((inputs s).ofExpert (d.val * L + e.val)).length) ∧
          (out d).permutedProbs =
            if useProbs then some ((received inputs d).map (·.prob)) else none) ∧
        ∀ f : ℕ → α → Option π → α,
          let outputs := fun d => expertOutput f (d.val * L) (out d)
          let results := fun r =>
            (inputs r).tokens.map fun t => f t.expert t.row (t.prob? useProbs)
          combine outputs (fun d => (out d).ctx) = some results ∧
            ∃ handles, combineStart outputs (fun d => (out d).ctx) = some handles ∧
              ∀ r, (combineWait (handles r)).1 = ⟨results r, true⟩ ∧
                (combineWait (combineWait (handles r)).2).1 = ⟨results r, true⟩ := by
  obtain ⟨out, hdispatch, hout⟩ := dispatch_delivers inputs useProbs
  refine ⟨out, hdispatch, ?_, ?_⟩
  · intro d
    exact ⟨hout.permuted d, hout.localCounts d, hout.permutedProbs d⟩
  · intro f outputs results
    have hcombine : combine outputs (fun d => (out d).ctx) = some results := hout.combine_eq f
    refine ⟨hcombine, fun r => ⟨⟨results r, false⟩, false⟩, ?_, ?_⟩
    · rw [combineStart_eq, hcombine, Option.map_some]
    · intro r
      exact combineWait_twice (results r)

end HyperParallel.ExpertParallel
