import HyperParallel.Pipeline.InterleavedOrder
import HyperParallel.Pipeline.MPipeTranspose
import Mathlib.Data.List.ReduceOption

/-!
# Runs of the MPipe transpose schedule

* `nonOwned_eq`, `prefixOwnedMicros_eq`: rank 0 receives what the other ranks own;
* `network_completes`: prefix, body and suffix together never wait in a cycle, in any mode;
* `loads_constructExecOrder`: every rank loads what its sampler owns, in that order;
* `samplers_share`: the samplers of all ranks share out every full step.
-/

open Rendezvous Shares

namespace HyperParallel.Pipeline

theorem filter_range_between {a b n : ℕ} (hb : b ≤ n) :
    ((List.range n).filter fun m => a ≤ m ∧ m < b) = List.range' a (b - a) := by
  induction n generalizing b with
  | zero =>
    rw [Nat.le_zero.1 hb, Nat.zero_sub]
    rfl
  | succ n ih =>
    rw [List.range_succ, List.filter_append]
    rcases Nat.lt_or_ge n b with hn | hn
    · obtain rfl : b = n + 1 := by omega
      have hbelow : ((List.range n).filter fun m => a ≤ m ∧ m < n + 1) =
          (List.range n).filter fun m => a ≤ m ∧ m < n := by
        refine List.filter_congr fun m hm => decide_eq_decide.2 ?_
        have := List.mem_range.1 hm
        omega
      rw [hbelow, ih le_rfl]
      by_cases ha : a ≤ n
      · rw [List.filter_cons_of_pos (by simpa using ha), List.filter_nil,
          show n + 1 - a = n - a + 1 by omega, List.range'_concat]
        congr 2
        omega
      · rw [List.filter_cons_of_neg (by simpa using ha), List.filter_nil, List.append_nil,
          show n - a = 0 by omega, show n + 1 - a = 0 by omega]
    · rw [ih hn, List.filter_cons_of_neg (by rw [decide_eq_true_eq]; omega), List.filter_nil,
        List.append_nil]

/-! ### The body without overlap -/

/-- No step of the order is a composite. -/
def Order.Plain (order : Order) : Prop :=
  ∀ entry ∈ order, ∀ type first second, entry ≠ some (.overlap type first second)

theorem plain_insertComms {scheduler : ℕ → Order} {N R rank : ℕ} (hrank : rank < R)
    (h : (scheduler rank).Plain) : (insertComms scheduler N R .loop rank).Plain := by
  intro entry hentry type first second heq
  subst heq
  rw [insertComms_apply .loop hrank] at hentry
  obtain ⟨t, _, hentry⟩ := List.mem_flatMap.1 hentry
  rcases List.mem_append.1 hentry with hitem | hcomm
  · obtain ⟨step, hstep, hmem⟩ := List.mem_flatMap.1 hitem
    rcases List.mem_append.1 hmem with hload | hself
    · obtain ⟨leaf, _, hload⟩ := List.mem_flatMap.1 hload
      split_ifs at hload <;> simp at hload
    · rw [List.mem_singleton] at hself
      subst hself
      cases hget : (expandOverlapSlots scheduler rank)[t]? with
      | none =>
        rw [hget] at hstep
        cases hstep
      | some item =>
        rw [hget] at hstep
        obtain ⟨old, hold, hexpand⟩ := List.mem_flatMap.1 (List.mem_of_getElem? hget)
        cases old with
        | none =>
          obtain rfl := List.mem_singleton.1 hexpand
          simp [Item.emit] at hstep
        | some old =>
          cases old with
          | leaf leaf =>
            obtain rfl := List.mem_singleton.1 hexpand
            simp [Item.emit] at hstep
          | overlap type' first' second' => exact h _ hold type' first' second' rfl
  · simp at hcomm

namespace ScheduleInterleaved1F1B

variable {c : ScheduleInterleaved1F1B}

theorem plain_constructStageExecOrder (h : c.overlapBF = false) (i : ℕ) :
    (c.constructStageExecOrder i).Plain := by
  intro entry hentry type first second heq
  subst heq
  rw [constructStageExecOrder_eq, steady, if_neg (by rw [h]; decide)] at hentry
  simp [warmupBlock, steadyBlock, cooldownBlock, List.mem_replicate] at hentry

theorem plain_constructExecOrder (h : c.overlapBF = false) (hsplit : c.enableDxdwSplit = false)
    {rank : ℕ} (hrank : rank < c.realStageNum) : (c.constructExecOrder rank).Plain := by
  rw [constructExecOrder, if_neg (by rw [hsplit]; decide)]
  exact plain_insertComms hrank (plain_constructStageExecOrder h rank)

/-- The forwards of a rank come in the order of the operations. -/
theorem filter_fwd_leaves (i : ℕ) :
    (c.constructStageExecOrder i).leaves.filter (·.type = .fwd) =
      (List.range (c.nLocalStages * c.microBatchNum)).map (c.fwdStep i) := by
  have hfwd : ∀ l : List ℕ, ∀ f : ℕ → ℕ, (l.map fun k => c.fwdStep i (f k)).filter
      (·.type = .fwd) = l.map fun k => c.fwdStep i (f k) := by
    intro l f
    refine List.filter_eq_self.2 fun leaf hleaf => ?_
    obtain ⟨k, _, rfl⟩ := List.mem_map.1 hleaf
    exact decide_eq_true rfl
  have hbwd : ∀ l : List ℕ, ∀ f : ℕ → ℕ, (l.map fun k => c.bwdStep i (f k)).filter
      (·.type = .fwd) = [] := by
    intro l f
    refine List.filter_eq_nil_iff.2 fun leaf hleaf => ?_
    obtain ⟨k, _, rfl⟩ := List.mem_map.1 hleaf
    simp [bwdStep]
  have hpair : ∀ n, ((List.range n).flatMap fun j =>
      [c.fwdStep i (c.warmupOps i + j), c.bwdStep i j]).filter (·.type = .fwd) =
        (List.range n).map fun j => c.fwdStep i (c.warmupOps i + j) := by
    intro n
    rw [List.filter_flatMap, List.map_eq_flatMap]
    exact List.flatMap_congr fun j _ => rfl
  rw [leaves_constructStageExecOrder, List.filter_append, List.filter_append, hpair,
    hfwd _ fun k => k, hbwd, List.append_nil, map_range_add, warmupOps_add_steadyOps]

/-- The counter of a stage numbers its operations. -/
theorem map_tally (f : ℕ → ℕ) (s n : ℕ) :
    ((List.range n).filter fun k => f k = s).map (fun k => tally f k (f k)) =
      List.range (tally f n s) := by
  induction n with
  | zero => rfl
  | succ n ih =>
    rw [List.range_succ, List.filter_append, List.map_append, ih, tally_succ, Counter.bump]
    by_cases h : f n = s
    · rw [if_pos h.symm, List.filter_cons_of_pos (by simpa), List.filter_nil, List.range_succ, ← h]
      rfl
    · rw [if_neg (Ne.symm h), List.filter_cons_of_neg (by simpa), List.filter_nil, List.map_nil,
        List.append_nil]

/-- The micro-batches that rank 0 runs through stage 0, in order. -/
theorem stage_zero_micros (hR : 0 < c.realStageNum) (hV : 0 < c.nLocalStages) :
    (((List.range (c.nLocalStages * c.microBatchNum)).map (c.fwdStep 0)).filter
      (·.stageIndex = 0)).map LeafStep.microIndex = List.range c.microBatchNum := by
  have hstage : ∀ k, c.forwardStageIndex k 0 = 0 ↔ c.localIndex k = 0 := fun k => by
    simp [forwardStageIndex, hR.ne']
  have htotal : tally (c.forwardStageIndex · 0) (c.nLocalStages * c.microBatchNum) 0 =
      c.microBatchNum := by
    have hcount := opsBefore_roundStart (c := c) hV le_rfl
    rw [roundStart_nRounds hR, Nat.mul_comm] at hcount
    simpa [opsBefore, tally, hstage] using hcount
  rw [List.filter_map, List.map_map, ← congrArg List.range htotal, ← map_tally]
  rfl

end ScheduleInterleaved1F1B

namespace ScheduleMPipeTranspose

variable (c : ScheduleMPipeTranspose)

/-! ### Owners -/

/-- The micro-batches that rank 0 does not own. -/
def foreign : List ℕ := (List.range c.base.microBatchNum).filter fun m => c.ownerOf m ≠ 0

variable {c} {m rank : ℕ}

theorem nt_pos (hR : 0 < c.base.realStageNum) (hm : m < c.base.microBatchNum) : 0 < c.nt :=
  Nat.lt_min.2 ⟨hR, by omega⟩

theorem ownerOf_lt (hR : 0 < c.base.realStageNum) (hm : m < c.base.microBatchNum) :
    c.ownerOf m < c.nt := by
  have hnt := nt_pos hR hm
  unfold ownerOf
  split
  · split_ifs <;> omega
  · exact Nat.mod_lt _ hnt

theorem nt_le : c.nt ≤ c.base.realStageNum ∧ c.nt ≤ c.base.microBatchNum :=
  ⟨Nat.min_le_left _ _, Nat.min_le_right _ _⟩

theorem mem_foreign : m ∈ c.foreign ↔ m < c.base.microBatchNum ∧ c.ownerOf m ≠ 0 := by
  simp [foreign]

/-- The prefix of a rank other than 0 has what the rank owns. -/
theorem prefixOwnedMicros_eq (hR : 0 < c.base.realStageNum) (hrank : rank ≠ 0) :
    c.prefixOwnedMicros rank = share c.ownerOf (List.range c.base.microBatchNum) rank := by
  by_cases hnt : c.nt ≤ rank
  · rw [prefixOwnedMicros, if_pos hnt, eq_comm, List.eq_nil_iff_forall_not_mem]
    intro m hm
    obtain ⟨hlt, howner⟩ := mem_share.1 hm
    have := ownerOf_lt hR (List.mem_range.1 hlt)
    omega
  · rw [prefixOwnedMicros, if_neg hnt]
    cases hmode : c.overflowMode with
    | full => simp only [share, ownerOf, hmode]
    | min =>
      have hown : ∀ m, c.ownerOf m = rank ↔ rank ≤ m ∧ m < rank + 1 := by
        intro m
        simp only [ownerOf, hmode]
        split_ifs <;> omega
      have hlt := (nt_le (c := c)).2
      rw [share]
      simp only [hown]
      rw [filter_range_between (by omega), Nat.add_sub_cancel_left]
      rfl

theorem nonOwned_eq (hR : 0 < c.base.realStageNum) : c.nonOwned = c.foreign := by
  unfold nonOwned foreign
  cases hmode : c.overflowMode with
  | full =>
    refine List.filter_congr fun m hm => ?_
    have hnt := nt_pos hR (List.mem_range.1 hm)
    rw [prefixOwnedMicros, if_neg (by omega)]
    simp only [hmode, ownerOf, List.mem_filter, hm, true_and, decide_eq_true_eq]
  | min =>
    have hle := nt_le (c := c)
    have hown : ∀ m, c.ownerOf m ≠ 0 ↔ 1 ≤ m ∧ m < c.nt := by
      intro m
      simp only [ownerOf, hmode]
      split_ifs <;> omega
    simp only [hown]
    exact (filter_range_between hle.2).symm

/-! ### The communications of a rank -/

section Comms

variable (c) (di : Bool)

theorem comms_append {P M C : Type*} (l l' : List (Op P M C)) :
    comms (l ++ l') = comms l ++ comms l' := List.filter_append _ _

theorem comms_flatMap {P M C β : Type*} (l : List β) (f : β → List (Op P M C)) :
    comms (l.flatMap f) = l.flatMap fun x => comms (f x) := List.filter_flatMap

theorem comms_comms {P M C : Type*} (l : List (Op P M C)) : comms (comms l) = comms l := by
  rw [comms, comms, List.filter_filter]
  simp only [Bool.and_self]

theorem flatMap_ite {β γ : Type*} {q : β → Prop} [DecidablePred q] (l : List β) (f : β → γ) :
    (l.flatMap fun x => if q x then [f x] else []) = (l.filter q).map f := by
  induction l with
  | nil => rfl
  | cons x l ih =>
    rw [List.flatMap_cons, ih]
    by_cases hx : q x
    · rw [if_pos hx, List.filter_cons_of_pos (by simpa using hx)]
      rfl
    · rw [if_neg hx, List.filter_cons_of_neg (by simpa using hx)]
      rfl

/-- A kind of transfer is carried out. -/
def Active (kind : PrefixKind) : Prop := kind = .data → di = true

instance : DecidablePred (Active di) := fun _ => inferInstanceAs (Decidable (_ → _))

theorem comms_sendStep (m : ℕ) (kind : PrefixKind) : comms (c.ops di (kind.sendStep m)) =
    if Active di kind then [.send 0 (.shipped kind m)] else [] := by
  cases kind <;> cases di <;> rfl

theorem comms_recvStep (m : ℕ) (kind : PrefixKind) : comms (c.ops di (kind.recvStep m)) =
    if Active di kind then [.recv (c.ownerOf m) (.shipped kind m)] else [] := by
  cases kind <;> cases di <;> rfl

theorem comms_prefixLocalSteps (rank : ℕ) :
    comms ((c.prefixLocalSteps rank).flatMap (c.ops di)) = [] := by
  rw [comms_flatMap, List.flatMap_eq_nil_iff]
  intro step hstep
  rw [prefixLocalSteps, List.mem_append, List.mem_flatMap] at hstep
  rcases hstep with hstep | ⟨m, _, hstep⟩
  · split_ifs at hstep with hbroadcast
    · obtain rfl := List.mem_singleton.1 hstep
      rfl
    · cases hstep
  · rcases List.mem_cons.1 hstep with rfl | hstep
    · rfl
    · split_ifs at hstep
      · cases hstep
      · obtain rfl := List.mem_singleton.1 hstep
        rfl

/-- The transfers of all prefixes. -/
def prefixTrace : List (Event ℕ Payload MPipeStep) :=
  c.kinds.flatMap fun kind =>
    if Active di kind then c.foreign.map fun m => .transfer (c.ownerOf m) 0 (.shipped kind m)
    else []

/-- The transfers of all suffixes. -/
def suffixTrace : List (Event ℕ Payload MPipeStep) :=
  if c.ownerBackward then c.foreign.map fun m => .transfer 0 (c.ownerOf m) (.grad m) else []

theorem share_eq_filter_foreign (hrank : rank ≠ 0) :
    share c.ownerOf (List.range c.base.microBatchNum) rank =
      c.foreign.filter fun m => c.ownerOf m = rank := by
  rw [share, foreign, List.filter_filter]
  refine List.filter_congr fun m _ => ?_
  rw [← Bool.decide_and]
  exact decide_eq_decide.2 ⟨fun h => ⟨h, by omega⟩, fun h => h.1⟩

theorem comms_buildTransposePrefix (hR : 0 < c.base.realStageNum) (rank : ℕ) :
    comms ((c.buildTransposePrefix rank).flatMap (c.ops di)) =
      ofTrace (c.prefixTrace di) rank := by
  rw [buildTransposePrefix, List.flatMap_append, comms_append, comms_prefixLocalSteps,
    List.nil_append, ofTrace, prefixTrace, List.flatMap_assoc]
  by_cases hrank : rank = 0
  · subst hrank
    rw [if_neg (not_not.2 rfl), prefixTransferSteps, List.flatMap_assoc, comms_flatMap]
    refine List.flatMap_congr fun kind _ => ?_
    rw [List.flatMap_map, comms_flatMap, nonOwned_eq hR]
    simp only [comms_recvStep]
    split_ifs
    · rw [List.flatMap_map]
      refine List.flatMap_congr fun m hm => ?_
      simp [Event.at, (mem_foreign.1 hm).2]
    · simp
  · rw [if_pos hrank, prefixTransferSteps, List.flatMap_assoc, comms_flatMap]
    refine List.flatMap_congr fun kind _ => ?_
    rw [List.flatMap_map, comms_flatMap, prefixOwnedMicros_eq hR hrank,
      share_eq_filter_foreign c hrank]
    simp only [comms_sendStep]
    split_ifs
    · rw [List.flatMap_map, ← List.map_eq_flatMap, ← flatMap_ite]
      refine List.flatMap_congr fun m _ => ?_
      simp [Event.at, Ne.symm hrank]
    · simp

theorem comms_buildOwnerBackwardSuffix (hR : 0 < c.base.realStageNum) (rank : ℕ) :
    comms ((if c.ownerBackward then c.buildOwnerBackwardSuffix rank ++ [.mpipe .gradReduce 0]
      else []).flatMap (c.ops di)) = ofTrace c.suffixTrace rank := by
  rw [suffixTrace, ofTrace]
  split_ifs with howner
  · rw [List.flatMap_append, comms_append]
    have hreduce : comms ([MPipeStep.mpipe .gradReduce 0].flatMap (c.ops di)) = [] := rfl
    rw [hreduce, List.append_nil, List.flatMap_map, buildOwnerBackwardSuffix]
    by_cases hrank : rank = 0
    · subst hrank
      rw [if_pos rfl, List.flatMap_map, comms_flatMap]
      refine List.flatMap_congr fun m hm => ?_
      have hm' := (mem_foreign.1 hm).2
      simp [Event.at, hm', ops, comms]
    · have hat : ∀ m ∈ c.foreign, Event.at rank (Event.transfer 0 (c.ownerOf m) (Payload.grad m) :
          Event ℕ Payload MPipeStep) =
            if c.ownerOf m = rank then [.recv 0 (.grad m)] else [] := by
        intro m _
        simp [Event.at, Ne.symm hrank]
      rw [if_neg hrank, List.flatMap_congr hat, flatMap_ite, ← share_eq_filter_foreign c hrank]
      split_ifs with hlt
      · rw [List.flatMap_map, comms_flatMap, List.map_eq_flatMap]
        exact List.flatMap_congr fun m _ => rfl
      · symm
        show List.map _ _ = []
        rw [List.map_eq_nil_iff, List.eq_nil_iff_forall_not_mem]
        intro m hm
        obtain ⟨hlt', howner'⟩ := mem_share.1 hm
        have := ownerOf_lt hR (List.mem_range.1 hlt')
        omega
  · rfl

/-- What a body step asks for, with the messages of the body. -/
theorem ops_body (step : MetaStep) : c.ops di (.body step) =
    (step.leaves.map (LeafStep.toOp c.base.realStageNum di)).map
      (Op.map Payload.body fun leaf => .body (.leaf leaf)) := by
  rw [List.map_map]
  rfl

theorem comms_patchStep (step : MetaStep) :
    comms ((c.patchStep step).flatMap (c.ops di)) = comms (c.ops di (.body step)) := by
  cases step with
  | overlap type first second => rw [patchStep, List.flatMap_singleton]
  | leaf leaf =>
    rw [patchStep, List.flatMap_append, List.flatMap_cons, comms_append, comms_append]
    have hbefore : comms ((if c.overflowMode = .min ∧ leaf.type = .fwd ∧ leaf.stageIndex = 0 ∧
        c.nt ≤ leaf.microIndex then (MPipeStep.data .dataLoad leaf.microIndex ::
          if c.isDataloadOnly then [] else [MPipeStep.mpipe .transposeFwd leaf.microIndex])
        else []).flatMap (c.ops di)) = [] := by
      split_ifs <;> rfl
    have hafter : comms ((if leaf.type = .bwd ∧ leaf.stageIndex = 0 ∧ c.hasTrainablePreprocess ∧
        ¬ c.ownerBackward then [MPipeStep.mpipe .transposeBwd leaf.microIndex]
        else []).flatMap (c.ops di)) = [] := by
      split_ifs <;> rfl
    rw [hbefore, hafter, List.nil_append, List.append_nil]

theorem leaves_eq (order : Order) :
    order.leaves = order.reduceOption.flatMap MetaStep.leaves := by
  induction order with
  | nil => rfl
  | cons step order ih =>
    cases step with
    | none => rw [Order.leaves_none, ih, List.reduceOption_cons_of_none]
    | some step =>
      rw [Order.leaves_some, ih, List.reduceOption_cons_of_some, List.flatMap_cons]

/-- The body without its data loads communicates as the interleaved schedule does. -/
theorem comms_bodyOrder (rank : ℕ) :
    comms (((c.bodyOrder rank).map MPipeStep.body).flatMap (c.ops di)) =
      (comms ((c.base.constructExecOrder rank).leaves.map
        (LeafStep.toOp c.base.realStageNum di))).map
          (Op.map Payload.body fun leaf => .body (.leaf leaf)) := by
  rw [← comms_map, leaves_eq, List.map_flatMap, List.map_flatMap, List.flatMap_map, comms_flatMap,
    comms_flatMap, bodyOrder]
  generalize (c.base.constructExecOrder rank).reduceOption = order
  induction order with
  | nil => rfl
  | cons step order ih =>
    rw [List.flatMap_cons, ← ih]
    by_cases hload : ∃ leaf, step = .leaf leaf ∧ leaf.type = .dataLoad
    · -- a data load is local work
      obtain ⟨⟨m, type, stage⟩, rfl, rfl⟩ := hload
      rfl
    · rw [List.filter_cons_of_pos, List.flatMap_cons, ops_body]
      cases step with
      | leaf leaf => simpa using hload
      | overlap type first second => rfl

theorem comms_body (rank : ℕ) :
    comms ((if rank = 0 then c.insertRank0PreprocessSteps (c.bodyOrder rank)
      else (c.bodyOrder rank).map .body).flatMap (c.ops di)) =
      comms (((c.bodyOrder rank).map MPipeStep.body).flatMap (c.ops di)) := by
  rw [insertRank0PreprocessSteps]
  split_ifs
  · rfl
  · rw [List.flatMap_assoc, List.flatMap_map, comms_flatMap, comms_flatMap]
    exact List.flatMap_congr fun step _ => comms_patchStep c di step
  · rfl

/-! ### The whole schedule -/

/-- The transfers of the body. -/
def bodyTrace : List (Event ℕ Payload MPipeStep) :=
  (scanTrace .loop (expandOverlapSlots c.base.constructStageExecOrder)
    (c.base.nLocalStages * c.base.realStageNum) c.base.realStageNum di).map
      (Event.map Payload.body fun leaf => .body (.leaf leaf))

theorem comms_network (hR : 0 < c.base.realStageNum) (rank : ℕ) :
    comms (c.network di rank) =
      comms (ofTrace (c.prefixTrace di ++ c.bodyTrace di ++ c.suffixTrace) rank) := by
  have hsplit : ofTrace (c.prefixTrace di ++ c.bodyTrace di ++ c.suffixTrace) rank =
      ofTrace (c.prefixTrace di) rank ++ ofTrace (c.bodyTrace di) rank ++
        ofTrace c.suffixTrace rank := by
    simp only [ofTrace, List.flatMap_append]
  have hbody : comms (ofTrace (c.bodyTrace di) rank) =
      (comms (transport c.base.realStageNum di c.base.constructExecOrder rank)).map
        (Op.map Payload.body fun leaf => .body (.leaf leaf)) := by
    rw [bodyTrace, ofTrace_map, comms_map, c.base.comms_constructExecOrder,
      ScheduleInterleaved1F1B.withTransfers, transport_insertComms di c.base.computes]
  rw [hsplit, comms_append, comms_append, hbody, ← comms_buildTransposePrefix c di hR,
    ← comms_buildOwnerBackwardSuffix c di hR, comms_comms, comms_comms, network, transport]
  by_cases hrank : rank < c.base.realStageNum
  · rw [if_pos hrank, if_pos hrank, constructExecOrder, List.flatMap_append, List.flatMap_append,
      comms_append, comms_append, comms_body, comms_bodyOrder]
  · -- no micro-batch belongs to a rank that there is not
    have hnt : ¬ rank < c.nt := fun h => hrank (h.trans_le (nt_le (c := c)).1)
    have hzero : rank ≠ 0 := fun h => hrank (h ▸ hR)
    have hprefix : comms ((c.buildTransposePrefix rank).flatMap (c.ops di)) = [] := by
      rw [buildTransposePrefix, List.flatMap_append, comms_append, comms_prefixLocalSteps,
        if_pos hzero, prefixTransferSteps, prefixOwnedMicros, if_pos (Nat.le_of_not_lt hnt)]
      simp [comms]
    rw [if_neg hrank, if_neg hrank, hprefix, buildOwnerBackwardSuffix, if_neg hzero, if_neg hnt]
    split_ifs <;> rfl

/-- The prefixes, the body and the suffixes together: with blocking transfers every interleaving of
the ranks runs to the end, every transfer pairs equal messages, and the k-th message a rank sends
another is the k-th that this one receives from it. -/
theorem network_completes (hR : 0 < c.base.realStageNum) :
    Completes (c.network di) ∧ Matched (c.network di) ∧
      ∀ p q, sendsTo q (c.network di p) = recvsFrom p (c.network di q) := by
  refine ofTrace_completes (c.prefixTrace di ++ c.bodyTrace di ++ c.suffixTrace) ?_
    (fun p => comms_network c di hR p) (Finset.range c.base.realStageNum)
    fun p hp => if_neg fun h => hp (Finset.mem_range.2 h)
  intro p q m h
  rw [List.mem_append, List.mem_append] at h
  rcases h with (h | h) | h
  · rw [prefixTrace, List.mem_flatMap] at h
    obtain ⟨kind, _, h⟩ := h
    split_ifs at h
    · obtain ⟨micro, hmicro, heq⟩ := List.mem_map.1 h
      cases heq
      exact (mem_foreign.1 hmicro).2
    · cases h
  · obtain ⟨event, hevent, heq⟩ := List.mem_map.1 h
    cases event with
    | work rank step => cases heq
    | transfer a b message =>
      cases heq
      exact ne_of_mem_scanTrace di c.base.computes hevent
  · rw [suffixTrace] at h
    split_ifs at h
    · obtain ⟨micro, hmicro, heq⟩ := List.mem_map.1 h
      cases heq
      exact (mem_foreign.1 hmicro).2.symm
    · cases h

end Comms

/-- Two ranks with one stage each and three micro-batches. -/
def twoRanks (mode : OverflowMode) : ScheduleMPipeTranspose where
  base := ⟨2, 1, 3, false, false, false⟩
  overflowMode := mode
  hasTrainablePreprocess := true
  ownerBackward := true
  numTransposeLayers := 1
  overlapBF_eq := rfl
  enableDxdwSplit_eq := rfl
  trainable_of_ownerBackward := fun _ => rfl

theorem network_completes_two : Completes ((twoRanks .full).network true) ∧
    Matched ((twoRanks .full).network true) ∧
    ∀ p q, sendsTo q ((twoRanks .full).network true p) =
      recvsFrom p ((twoRanks .full).network true q) :=
  network_completes (twoRanks .full) true (by decide)

/-! ### What the ranks load and receive -/

/-- The micro-batches that an order loads, in its body too. -/
def loads (order : List MPipeStep) : List ℕ :=
  order.flatMap fun step =>
    match step with
    | .data .dataLoad m => [m]
    | .body step => (step.leaves.filter (·.type = .dataLoad)).map LeafStep.microIndex
    | _ => []

/-- The forwards that rank 0 loads for in its body. -/
def Overflows (c : ScheduleMPipeTranspose) (leaf : LeafStep) : Prop :=
  leaf.type = .fwd ∧ leaf.stageIndex = 0 ∧ c.nt ≤ leaf.microIndex

instance : DecidablePred c.Overflows := fun _ => inferInstanceAs (Decidable (_ ∧ _ ∧ _))

/-- The micro-batches of these forwards are loaded before them. -/
def LoadsFirst (c : ScheduleMPipeTranspose) (order : List MPipeStep) : Prop :=
  ∀ before leaf after, order = before ++ .body (.leaf leaf) :: after → c.Overflows leaf →
    .data .dataLoad leaf.microIndex ∈ before

section Loads

variable (c)

theorem loads_append (order order' : List MPipeStep) :
    loads (order ++ order') = loads order ++ loads order' := List.flatMap_append

theorem loads_eq_nil {order : List MPipeStep} (h : ∀ m, MPipeStep.data .dataLoad m ∉ order)
    (hbody : ∀ step, .body step ∈ order → ∀ leaf ∈ step.leaves, leaf.type ≠ .dataLoad) :
    loads order = [] := by
  refine List.flatMap_eq_nil_iff.2 fun step hstep => ?_
  split
  · next m => exact absurd hstep (h m)
  · next step =>
    rw [List.filter_eq_nil_iff.2 fun leaf hleaf => by simpa using hbody step hstep leaf hleaf]
    rfl
  · rfl

/-- The steps of the body are leaves, and none of them loads. -/
theorem bodyOrder_leaf (hrank : rank < c.base.realStageNum) {step : MetaStep}
    (h : step ∈ c.bodyOrder rank) : ∃ leaf, step = .leaf leaf ∧ leaf.type ≠ .dataLoad := by
  obtain ⟨hmem, hkept⟩ := List.mem_filter.1 h
  cases step with
  | leaf leaf => exact ⟨leaf, rfl, by simpa using hkept⟩
  | overlap type first second =>
    exact absurd rfl (ScheduleInterleaved1F1B.plain_constructExecOrder c.overlapBF_eq
      c.enableDxdwSplit_eq hrank _ (List.reduceOption_mem_iff.1 hmem) type first second)

theorem loads_prefixLocalSteps (rank : ℕ) :
    loads (c.prefixLocalSteps rank) = c.prefixOwnedMicros rank := by
  have hbroadcast : loads (if c.hasTrainablePreprocess ∧ ¬ c.isDataloadOnly then
      [.mpipe .paramBroadcast rank] else []) = [] := by
    split_ifs <;> rfl
  rw [prefixLocalSteps, loads_append, hbroadcast, List.nil_append]
  induction c.prefixOwnedMicros rank with
  | nil => rfl
  | cons m micros ih =>
    rw [List.flatMap_cons, loads_append, ih]
    split_ifs <;> rfl

theorem not_load_mem_transfers {micros : List ℕ} {m : ℕ} :
    MPipeStep.data .dataLoad m ∉ c.prefixTransferSteps micros PrefixKind.sendStep ∧
      MPipeStep.data .dataLoad m ∉ c.prefixTransferSteps micros PrefixKind.recvStep := by
  constructor <;>
  · intro h
    obtain ⟨kind, _, h⟩ := List.mem_flatMap.1 h
    obtain ⟨m', _, h⟩ := List.mem_map.1 h
    cases kind <;> cases h

theorem body_notMem_transfers {micros : List ℕ} {step : MetaStep} :
    MPipeStep.body step ∉ c.prefixTransferSteps micros PrefixKind.sendStep ∧
      MPipeStep.body step ∉ c.prefixTransferSteps micros PrefixKind.recvStep := by
  constructor <;>
  · intro h
    obtain ⟨kind, _, h⟩ := List.mem_flatMap.1 h
    obtain ⟨m', _, h⟩ := List.mem_map.1 h
    cases kind <;> cases h

theorem body_notMem_buildTransposePrefix {step : MetaStep} :
    MPipeStep.body step ∉ c.buildTransposePrefix rank := by
  intro h
  rw [buildTransposePrefix, List.mem_append] at h
  rcases h with h | h
  · rw [prefixLocalSteps, List.mem_append] at h
    rcases h with h | h
    · split_ifs at h <;> simp at h
    · obtain ⟨m, _, h⟩ := List.mem_flatMap.1 h
      split_ifs at h <;> simp at h
  · split_ifs at h
    · exact (body_notMem_transfers c).1 h
    · exact (body_notMem_transfers c).2 h

theorem body_notMem_suffix {step : MetaStep} : MPipeStep.body step ∉
    (if c.ownerBackward then c.buildOwnerBackwardSuffix rank ++ [.mpipe .gradReduce 0] else []) := by
  intro h
  rw [buildOwnerBackwardSuffix] at h
  split_ifs at h <;> simp at h

/-- The step itself is the only step of the body that its patch holds. -/
theorem body_mem_patchStep {step other : MetaStep} (h : .body step ∈ c.patchStep other) :
    other = step := by
  cases other with
  | overlap type first second => simpa [patchStep, eq_comm] using h
  | leaf leaf =>
    rw [patchStep] at h
    split_ifs at h <;> simp at h <;> exact h.symm

theorem loads_buildTransposePrefix (rank : ℕ) :
    loads (c.buildTransposePrefix rank) = c.prefixOwnedMicros rank := by
  rw [buildTransposePrefix, loads_append, loads_prefixLocalSteps, loads_eq_nil, List.append_nil]
  · intro m
    split_ifs
    · exact (not_load_mem_transfers c).1
    · exact (not_load_mem_transfers c).2
  · intro step hstep
    split_ifs at hstep
    · exact absurd hstep (body_notMem_transfers c).1
    · exact absurd hstep (body_notMem_transfers c).2

/-- What a body without inline loads loads. -/
theorem loads_body (hrank : rank < c.base.realStageNum) (h : c.overflowMode = .full ∨ rank ≠ 0) :
    loads (if rank = 0 then c.insertRank0PreprocessSteps (c.bodyOrder rank)
      else (c.bodyOrder rank).map .body) = [] := by
  refine loads_eq_nil (fun m hm => ?_) fun step hstep => ?_
  · rw [insertRank0PreprocessSteps] at hm
    split_ifs at hm with hzero hplain
    · simp at hm
    · obtain ⟨step, _, hstep⟩ := List.mem_flatMap.1 hm
      have hfull : c.overflowMode ≠ .min := by
        rcases h with h | h
        · rw [h]
          decide
        · exact absurd hzero h
      cases step with
      | overlap type first second => simp [patchStep] at hstep
      | leaf leaf =>
        rw [patchStep, if_neg fun h => hfull h.1, List.nil_append, List.mem_cons] at hstep
        rcases hstep with hstep | hstep
        · cases hstep
        · split_ifs at hstep <;> simp at hstep
    · simp at hm
  · have hmem : step ∈ c.bodyOrder rank := by
      rw [insertRank0PreprocessSteps] at hstep
      split_ifs at hstep
      · simpa using hstep
      · obtain ⟨other, hother, hstep⟩ := List.mem_flatMap.1 hstep
        rwa [body_mem_patchStep c hstep] at hother
      · simpa using hstep
    obtain ⟨leaf, rfl, hleaf⟩ := c.bodyOrder_leaf hrank hmem
    simpa [MetaStep.leaves] using hleaf

variable {c}

theorem loads_patchStep (hmode : c.overflowMode = .min) {leaf : LeafStep}
    (hleaf : leaf.type ≠ .dataLoad) :
    loads (c.patchStep (.leaf leaf)) = if c.Overflows leaf then [leaf.microIndex] else [] := by
  have hrest : loads (.body (.leaf leaf) ::
      if leaf.type = .bwd ∧ leaf.stageIndex = 0 ∧ c.hasTrainablePreprocess ∧ ¬ c.ownerBackward then
        [.mpipe .transposeBwd leaf.microIndex]
      else []) = [] := by
    refine loads_eq_nil (fun m hm => ?_) fun step hstep => ?_
    · split_ifs at hm <;> simp at hm
    · obtain rfl : step = .leaf leaf := by split_ifs at hstep <;> simpa using hstep
      simpa [MetaStep.leaves] using hleaf
  rw [patchStep, loads_append, hrest, List.append_nil]
  by_cases hover : c.Overflows leaf
  · rw [if_pos hover, if_pos ⟨hmode, hover⟩]
    split_ifs <;> rfl
  · rw [if_neg hover, if_neg fun h => hover h.2]
    rfl

/-- The inline loads follow the forwards of the body. -/
theorem loads_insertRank0PreprocessSteps (hR : 0 < c.base.realStageNum)
    (hmode : c.overflowMode = .min) :
    loads (c.insertRank0PreprocessSteps (c.bodyOrder 0)) =
      ((c.base.constructExecOrder 0).leaves.filter c.Overflows).map LeafStep.microIndex := by
  have hplain := ScheduleInterleaved1F1B.plain_constructExecOrder c.overlapBF_eq
    c.enableDxdwSplit_eq hR
  rw [insertRank0PreprocessSteps, if_neg fun h => OverflowMode.noConfusion (hmode ▸ h.2), bodyOrder]
  revert hplain
  generalize c.base.constructExecOrder 0 = order
  intro hplain
  induction order with
  | nil => rfl
  | cons entry order ih =>
    have ih := ih fun step hstep => hplain step (List.mem_cons_of_mem _ hstep)
    cases entry with
    | none => exact ih
    | some step =>
      cases step with
      | overlap type first second => exact absurd rfl (hplain _ List.mem_cons_self type first second)
      | leaf leaf =>
        rw [Order.leaves_some, MetaStep.leaves, List.filter_append, List.map_append, ← ih,
          List.reduceOption_cons_of_some]
        by_cases hload : leaf.type = .dataLoad
        · have hover : ¬ c.Overflows leaf := fun h => by rw [h.1] at hload; cases hload
          rw [List.filter_cons_of_neg (by simpa using hload), List.filter_cons_of_neg (by simpa),
            List.filter_nil, List.map_nil, List.nil_append]
        · rw [List.filter_cons_of_pos (by simpa using hload), List.flatMap_cons, loads_append,
            loads_patchStep hmode hload]
          congr 1
          split_ifs with hover
          · rw [List.filter_cons_of_pos (by simpa)]
            rfl
          · rw [List.filter_cons_of_neg (by simpa)]
            rfl

/-- The forwards of stage 0 come in the order of their micro-batches. -/
theorem overflows_constructExecOrder (hR : 0 < c.base.realStageNum) (hV : 0 < c.base.nLocalStages) :
    ((c.base.constructExecOrder 0).leaves.filter c.Overflows).map LeafStep.microIndex =
      List.range' c.nt (c.base.microBatchNum - c.nt) := by
  have hcompute : (c.base.constructExecOrder 0).leaves.filter c.Overflows =
      (c.base.constructStageExecOrder 0).leaves.filter c.Overflows := by
    rw [ScheduleInterleaved1F1B.constructExecOrder, if_neg (by rw [c.enableDxdwSplit_eq]; decide),
      ← filter_leaves_insertComms (N := c.base.nLocalStages * c.base.realStageNum) c.base.computes hR,
      List.filter_filter]
    refine List.filter_congr fun leaf _ => ?_
    rw [← Bool.decide_and, decide_eq_decide]
    exact ⟨fun h => ⟨h, Or.inl h.1⟩, fun h => h.1⟩
  have hfwd : (c.base.constructStageExecOrder 0).leaves.filter c.Overflows =
      (((c.base.constructStageExecOrder 0).leaves.filter (·.type = .fwd)).filter
        (·.stageIndex = 0)).filter (c.nt ≤ ·.microIndex) := by
    rw [List.filter_filter, List.filter_filter]
    refine List.filter_congr fun leaf _ => ?_
    rw [← Bool.decide_and, ← Bool.decide_and, decide_eq_decide]
    exact ⟨fun h => ⟨⟨h.2.2, h.2.1⟩, h.1⟩, fun h => ⟨h.2, h.1.2, h.1.1⟩⟩
  have hmicros := ScheduleInterleaved1F1B.stage_zero_micros (c := c.base) hR hV
  rw [hcompute, hfwd, ScheduleInterleaved1F1B.filter_fwd_leaves]
  generalize List.filter (fun leaf : LeafStep => decide (leaf.stageIndex = 0)) _ = steps at hmicros ⊢
  rw [← filter_range_between le_rfl, ← hmicros, List.filter_map]
  refine congrArg _ (List.filter_congr fun leaf hleaf => decide_eq_decide.2 ?_)
  have hlt : leaf.microIndex < c.base.microBatchNum := by
    rw [← List.mem_range, ← hmicros]
    exact List.mem_map_of_mem hleaf
  exact ⟨fun h => ⟨h, hlt⟩, fun h => h.1⟩

variable (c)

/-- Two orders, the second with no forward in question or both with the loads first. -/
theorem LoadsFirst.append {order order' : List MPipeStep} (h : c.LoadsFirst order)
    (h' : c.LoadsFirst order') : c.LoadsFirst (order ++ order') := by
  intro before leaf after heq hover
  rcases List.append_eq_append_iff.1 heq with ⟨rest, rfl, hrest⟩ | ⟨rest, hrest, heq'⟩
  · exact List.mem_append_right _ (h' rest leaf after hrest hover)
  · cases rest with
    | nil =>
      rw [List.append_nil] at hrest
      rw [List.nil_append] at heq'
      exact absurd (h' [] leaf after heq'.symm hover) List.not_mem_nil
    | cons step rest =>
      obtain ⟨rfl, rfl⟩ := List.cons.inj heq'
      exact h before leaf rest hrest hover

theorem loadsFirst_of_notMem {order : List MPipeStep}
    (h : ∀ step, MPipeStep.body step ∉ order) : c.LoadsFirst order :=
  fun _ leaf _ heq _ => absurd (by rw [heq]; simp) (h (.leaf leaf))

/-- A forward and its load are put into the order together. -/
theorem loadsFirst_patchStep (hmode : c.overflowMode = .min) (step : MetaStep) :
    c.LoadsFirst (c.patchStep step) := by
  cases step with
  | overlap type first second =>
    intro before leaf after heq hover
    cases before <;> simp [patchStep] at heq
  | leaf leaf =>
    intro before other after heq hover
    have hmem : MPipeStep.body (.leaf other) ∈ c.patchStep (.leaf leaf) := by rw [heq]; simp
    obtain ⟨⟩ := body_mem_patchStep c hmem
    rw [patchStep, if_pos ⟨hmode, hover⟩, List.cons_append] at heq
    cases before with
    | nil => cases (List.cons.inj heq).1
    | cons first before =>
      rw [← (List.cons.inj heq).1]
      exact List.mem_cons_self

/-- Rank 0 loads what overflows before it runs it. -/
theorem loadsFirst_constructExecOrder (hmode : c.overflowMode = .min) :
    c.LoadsFirst (c.constructExecOrder 0) := by
  have hbody : c.LoadsFirst (c.insertRank0PreprocessSteps (c.bodyOrder 0)) := by
    rw [insertRank0PreprocessSteps, if_neg fun h => OverflowMode.noConfusion (hmode ▸ h.2)]
    induction c.bodyOrder 0 with
    | nil => exact c.loadsFirst_of_notMem fun _ => List.not_mem_nil
    | cons step order ih => exact LoadsFirst.append c (c.loadsFirst_patchStep hmode step) ih
  rw [constructExecOrder, if_pos rfl]
  exact ((c.loadsFirst_of_notMem fun _ => c.body_notMem_buildTransposePrefix).append c hbody).append c
    (c.loadsFirst_of_notMem fun _ => c.body_notMem_suffix)

/-- A rank loads what it owns, in the order of the micro-batches, and nothing more in its body; what
overflows is loaded before its forward. -/
theorem loads_constructExecOrder (hV : 0 < c.base.nLocalStages)
    (hrank : rank < c.base.realStageNum) :
    loads (c.constructExecOrder rank) =
        mpipeOwnedMicros c.base.realStageNum c.base.microBatchNum rank c.overflowMode ∧
      (c.overflowMode = .min → rank = 0 → c.LoadsFirst (c.constructExecOrder rank)) := by
  have hR : 0 < c.base.realStageNum := by omega
  have hsuffix : loads (if c.ownerBackward then
      c.buildOwnerBackwardSuffix rank ++ [.mpipe .gradReduce 0] else []) = [] := by
    refine loads_eq_nil (fun m hm => ?_) fun step hstep => absurd hstep c.body_notMem_suffix
    rw [buildOwnerBackwardSuffix] at hm
    split_ifs at hm <;> simp at hm
  refine ⟨?_, fun hmode hzero => hzero ▸ c.loadsFirst_constructExecOrder hmode⟩
  rw [constructExecOrder, loads_append, loads_append, hsuffix, loads_buildTransposePrefix,
    List.append_nil, prefixOwnedMicros]
  show _ = if c.nt ≤ rank then _ else _
  by_cases hbody : c.overflowMode = .full ∨ rank ≠ 0
  · rw [loads_body c hrank hbody, List.append_nil]
    by_cases hnt : c.nt ≤ rank
    · rw [if_pos hnt, if_pos hnt]
    · rw [if_neg hnt, if_neg hnt]
      cases hmode : c.overflowMode with
      | full => rfl
      | min => exact (if_neg (hbody.resolve_left (by rw [hmode]; decide))).symm
  · -- rank 0 takes the overflow
    obtain ⟨hmode, rfl⟩ : c.overflowMode = .min ∧ rank = 0 := by
      cases hmode : c.overflowMode <;> simp_all
    rw [if_pos rfl, loads_insertRank0PreprocessSteps hR hmode, overflows_constructExecOrder hR hV]
    by_cases hnt : c.nt ≤ 0
    · have hM : c.base.microBatchNum = 0 := by
        by_contra h
        exact absurd (nt_pos (c := c) hR (Nat.pos_of_ne_zero h)) (by omega)
      rw [if_pos hnt, if_pos hnt, hM, Nat.zero_sub]
      rfl
    · rw [if_neg hnt, if_neg hnt, hmode]
      rfl

theorem loads_constructExecOrder_two : loads ((twoRanks .min).constructExecOrder 0) = [0, 2] ∧
    (OverflowMode.min = .min → 0 = 0 →
      (twoRanks .min).LoadsFirst ((twoRanks .min).constructExecOrder 0)) :=
  loads_constructExecOrder (twoRanks .min) (by decide) (by decide)

end Loads

end ScheduleMPipeTranspose

/-! ### The samplers -/

namespace PPRankOwnedSampler

variable (s : PPRankOwnedSampler)

/-- The owned slots of the full steps of a stream. -/
def fullSteps (base : List ℕ) : List ℕ :=
  (List.range (base.length / s.stepSize)).flatMap fun k =>
    s.slots ((base.take ((k + 1) * s.stepSize)).drop (k * s.stepSize))

variable {s}

/-- Further indices leave the full steps as they are. -/
theorem fullSteps_append {base rest : List ℕ} {q : ℕ} (hq : q * s.stepSize ≤ base.length) :
    ((List.range q).flatMap fun k =>
        s.slots (((base ++ rest).take ((k + 1) * s.stepSize)).drop (k * s.stepSize))) =
      (List.range q).flatMap fun k =>
        s.slots ((base.take ((k + 1) * s.stepSize)).drop (k * s.stepSize)) := by
  refine List.flatMap_congr fun k hk => ?_
  have hle : (k + 1) * s.stepSize ≤ q * s.stepSize :=
    Nat.mul_le_mul_right _ (List.mem_range.1 hk)
  rw [List.take_append_of_le_length (hle.trans hq)]

/-- The loop after some indices: the full steps are yielded, the rest is in the chunk. -/
theorem foldl_iterStep (hstep : 0 < s.stepSize) (base : List ℕ) :
    base.foldl s.iterStep ([], []) =
      (base.drop (base.length / s.stepSize * s.stepSize), s.fullSteps base) := by
  induction base using List.reverseRecOn with
  | nil => simp [fullSteps]
  | append_singleton base idx ih =>
    have hdiv := Nat.div_add_mod' base.length s.stepSize
    have hmod := Nat.mod_lt base.length hstep
    have hsucc : (base.length / s.stepSize + 1) * s.stepSize =
        base.length / s.stepSize * s.stepSize + s.stepSize := Nat.succ_mul _ _
    have hchunk : base.drop (base.length / s.stepSize * s.stepSize) ++ [idx] =
        (base ++ [idx]).drop (base.length / s.stepSize * s.stepSize) :=
      (List.drop_append_of_le_length (by omega)).symm
    have hlength : ((base ++ [idx]).drop (base.length / s.stepSize * s.stepSize)).length =
        base.length % s.stepSize + 1 := by
      rw [List.length_drop, List.length_append, List.length_singleton]
      omega
    rw [List.foldl_append, ih, List.foldl_cons, List.foldl_nil, iterStep]
    simp only [hchunk, hlength]
    split_ifs with hfull
    · -- the index completes a step
      have hnext : (base ++ [idx]).length = (base.length / s.stepSize + 1) * s.stepSize := by
        rw [List.length_append, List.length_singleton]
        omega
      have hq : (base ++ [idx]).length / s.stepSize = base.length / s.stepSize + 1 := by
        rw [hnext, Nat.mul_div_cancel _ hstep]
      rw [hq, ← hnext, List.drop_length, fullSteps, fullSteps, hq, List.range_succ,
        List.flatMap_append, List.flatMap_singleton, fullSteps_append (by omega), ← hnext,
        List.take_length]
    · have hq : (base ++ [idx]).length / s.stepSize = base.length / s.stepSize := by
        rw [List.length_append, List.length_singleton]
        refine Nat.div_eq_of_lt_le (by omega) ?_
        rw [hsucc]
        omega
      rw [hq, fullSteps, fullSteps, hq, fullSteps_append (by omega)]

theorem iter_eq (hstep : 0 < s.stepSize) : s.iter = s.fullSteps s.base := by
  rw [iter, foldl_iterStep hstep]

theorem length_slots (howned : ∀ m ∈ s.ownedMicros, m < s.ppMicroBatchNum) {chunk : List ℕ}
    (hchunk : chunk.length = s.stepSize) :
    (s.slots chunk).length = s.ownedMicros.length * s.microBs := by
  rw [slots, List.length_flatMap]
  have hsize : ∀ m ∈ s.ownedMicros,
      ((chunk.take ((m + 1) * s.microBs)).drop (m * s.microBs)).length = s.microBs := by
    intro m hm
    have hle : (m + 1) * s.microBs ≤ s.stepSize := Nat.mul_le_mul_right _ (howned m hm)
    rw [List.length_drop, List.length_take, hchunk, min_eq_left hle, Nat.succ_mul,
      Nat.add_sub_cancel_left]
  rw [List.map_congr_left hsize, List.map_const', List.sum_replicate_nat]

/-- `__len__` counts what `__iter__` yields. -/
theorem len_eq (hstep : 0 < s.stepSize) (howned : ∀ m ∈ s.ownedMicros, m < s.ppMicroBatchNum) :
    s.len = .ok s.iter.length := by
  rw [len, if_neg hstep.ne', iter_eq hstep, fullSteps, List.length_flatMap]
  have hsize : ∀ k ∈ List.range (s.base.length / s.stepSize),
      (s.slots ((s.base.take ((k + 1) * s.stepSize)).drop (k * s.stepSize))).length =
        s.ownedMicros.length * s.microBs := by
    intro k hk
    refine length_slots howned ?_
    have hle : (k + 1) * s.stepSize ≤ s.base.length :=
      (Nat.mul_le_mul_right _ (List.mem_range.1 hk)).trans (Nat.div_mul_le_self _ _)
    rw [List.length_drop, List.length_take, min_eq_left hle, Nat.succ_mul, Nat.add_sub_cancel_left]
  rw [List.map_congr_left hsize, List.map_const', List.sum_replicate_nat,
    List.length_range, Nat.mul_assoc]

end PPRankOwnedSampler

/-- The rank that loads a micro-batch. -/
def microOwner (nt : ℕ) : OverflowMode → ℕ → ℕ
  | .min, m => if nt ≤ m then 0 else m
  | .full, m => m % nt

section Share

variable {ppSize M microBs r : ℕ} {mode : OverflowMode}

theorem microOwner_lt (hpp : 0 < ppSize) {m : ℕ} (hm : m < M) :
    microOwner (Nat.min ppSize M) mode m < ppSize := by
  have hnt : 0 < Nat.min ppSize M := Nat.lt_min.2 ⟨hpp, by omega⟩
  have hle : Nat.min ppSize M ≤ ppSize := Nat.min_le_left _ _
  cases mode with
  | full => exact (Nat.mod_lt _ hnt).trans_le hle
  | min =>
    rw [microOwner]
    split_ifs <;> omega

/-- A rank owns its share of the micro-batches. -/
theorem mpipeOwnedMicros_eq (hpp : 0 < ppSize) :
    mpipeOwnedMicros ppSize M r mode =
      share (microOwner (Nat.min ppSize M) mode) (List.range M) r := by
  have hle : Nat.min ppSize M ≤ M := Nat.min_le_right _ _
  have hpos : 0 < M → 0 < Nat.min ppSize M := fun hM => Nat.lt_min.2 ⟨hpp, hM⟩
  unfold mpipeOwnedMicros
  generalize Nat.min ppSize M = nt at hle hpos
  show (if nt ≤ r then [] else _) = _
  by_cases hnt : nt ≤ r
  · rw [if_pos hnt, eq_comm, List.eq_nil_iff_forall_not_mem]
    intro m hm
    obtain ⟨hlt, howner⟩ := mem_share.1 hm
    rw [List.mem_range] at hlt
    have hmod := Nat.mod_lt m (hpos (by omega))
    cases mode with
    | full => exact absurd howner (by rw [microOwner]; omega)
    | min =>
      rw [microOwner] at howner
      split_ifs at howner <;> omega
  · rw [if_neg hnt]
    cases mode with
    | full => rfl
    | min =>
      by_cases hr : r = 0
      · subst hr
        have hsplit : List.range M = 0 :: (List.range' 1 (nt - 1) ++ List.range' nt (M - nt)) := by
          have happend : List.range' 1 (nt - 1) ++ List.range' (1 + (nt - 1)) (M - nt) =
              List.range' 1 (nt - 1 + (M - nt)) := List.range'_append_1
          rw [show 1 + (nt - 1) = nt by omega, show nt - 1 + (M - nt) = M - 1 by omega] at happend
          obtain ⟨n, rfl⟩ : ∃ n, M = n + 1 := ⟨M - 1, by omega⟩
          rw [happend, List.range_eq_range', Nat.add_sub_cancel, List.range'_succ]
        have hmiddle : (List.range' 1 (nt - 1)).filter
            (fun m => microOwner nt .min m = 0) = [] := by
          refine List.filter_eq_nil_iff.2 fun m hm => ?_
          have hm' := List.mem_range'_1.1 hm
          rw [decide_eq_true_eq, microOwner, if_neg (by omega)]
          omega
        have hlast : (List.range' nt (M - nt)).filter (fun m => microOwner nt .min m = 0) =
            List.range' nt (M - nt) := by
          refine List.filter_eq_self.2 fun m hm => ?_
          rw [decide_eq_true_eq, microOwner, if_pos (List.mem_range'_1.1 hm).1]
        have hzero : microOwner nt .min 0 = 0 := if_neg hnt
        show (if (0 : ℕ) = 0 then 0 :: List.range' nt (M - nt) else [0]) = _
        rw [if_pos rfl, share, hsplit, List.filter_cons_of_pos (by exact decide_eq_true hzero),
          List.filter_append, hmiddle, hlast, List.nil_append]
      · have hown : ∀ m, microOwner nt .min m = r ↔ r ≤ m ∧ m < r + 1 := by
          intro m
          rw [microOwner]
          split_ifs <;> omega
        simp only [share, hown]
        rw [filter_range_between (by omega), Nat.add_sub_cancel_left]
        exact if_neg hr

/-- The sampler of a rank. -/
def rankSampler (ppSize M microBs : ℕ) (mode : OverflowMode) (base : List ℕ) (r : ℕ) :
    PPRankOwnedSampler :=
  ⟨base, mpipeOwnedMicros ppSize M r mode, microBs, M⟩

/-- In every full step the ranks yield each index once among them, and nothing of a step that is not
full. -/
theorem flatMap_iter_perm (hpp : 0 < ppSize) (hM : 0 < M) (hbs : 0 < microBs) (base : List ℕ) :
    ((List.range ppSize).flatMap fun r => (rankSampler ppSize M microBs mode base r).iter).Perm
      (base.take (base.length / (M * microBs) * (M * microBs))) := by
  have hstep : 0 < M * microBs := Nat.mul_pos hM hbs
  have hiter : ∀ r ∈ List.range ppSize, (rankSampler ppSize M microBs mode base r).iter =
      (List.range (base.length / (M * microBs))).flatMap fun k =>
        (mpipeOwnedMicros ppSize M r mode).flatMap fun m =>
          (((base.take ((k + 1) * (M * microBs))).drop (k * (M * microBs))).take
            ((m + 1) * microBs)).drop (m * microBs) :=
    fun r _ => PPRankOwnedSampler.iter_eq (s := rankSampler ppSize M microBs mode base r) hstep
  have howned : ((List.range ppSize).flatMap fun r => mpipeOwnedMicros ppSize M r mode).Perm
      (List.range M) := by
    simp only [mpipeOwnedMicros_eq hpp]
    exact flatMap_share_perm fun m hm => microOwner_lt hpp (List.mem_range.1 hm)
  rw [List.flatMap_congr hiter, ← flatten_slices, ← List.flatMap_def]
  refine (flatMap_flatMap_perm _ _ _).trans (List.Perm.flatMap_left _ fun k hk => ?_)
  -- within one step
  have hle : (k + 1) * (M * microBs) ≤ base.length :=
    (Nat.mul_le_mul_right _ (List.mem_range.1 hk)).trans (Nat.div_mul_le_self _ _)
  have hlength : ((base.take ((k + 1) * (M * microBs))).drop (k * (M * microBs))).length =
      M * microBs := by
    rw [List.length_drop, List.length_take, min_eq_left hle, Nat.succ_mul, Nat.add_sub_cancel_left]
  rw [← List.flatMap_assoc]
  refine (howned.flatMap_right _).trans (List.Perm.of_eq ?_)
  rw [List.flatMap_def, flatten_slices, List.take_of_length_le hlength.le]

/-- The samplers of all ranks share out every full step, and each knows how much it yields. -/
theorem samplers_share (hpp : 0 < ppSize) (hM : 0 < M) (hbs : 0 < microBs) (base : List ℕ) :
    ((List.range ppSize).flatMap fun r => (rankSampler ppSize M microBs mode base r).iter).Perm
        (base.take (base.length / (M * microBs) * (M * microBs))) ∧
      ∀ r, (rankSampler ppSize M microBs mode base r).len =
        .ok (rankSampler ppSize M microBs mode base r).iter.length := by
  refine ⟨flatMap_iter_perm hpp hM hbs base, fun r => ?_⟩
  refine PPRankOwnedSampler.len_eq (Nat.mul_pos hM hbs) fun m hm => ?_
  rw [rankSampler, mpipeOwnedMicros_eq hpp] at hm
  exact List.mem_range.1 (mem_share.1 hm).1

theorem samplers_share_two :
    ((List.range 2).flatMap fun r => (rankSampler 2 3 2 .min (List.range 13) r).iter).Perm
        (List.range 12) ∧
      ∀ r, (rankSampler 2 3 2 .min (List.range 13) r).len =
        .ok (rankSampler 2 3 2 .min (List.range 13) r).iter.length :=
  samplers_share (by decide) (by decide) (by decide) (List.range 13)

end Share

end HyperParallel.Pipeline
