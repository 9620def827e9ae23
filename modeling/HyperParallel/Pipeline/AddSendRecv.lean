import HyperParallel.Pipeline.MetaStep
import Mathlib.Tactic.Common

/-!
# `add_send_recv`: inserting the transfers into a compute schedule

The column scan appends, at the time column of a `FWD` or a `BWD`, the sends to the rank that runs
it and the receives to the rank of its peer.

* `Item`, `expandOverlapSlots`, `commsForStep`, `columnScan`, `insertComms`, `addSendRecv`: the
  pass as the source writes it;
* `columnScan_apply`: what one rank gets, column after column;
* `scanTrace`: the same pass as one global list of events; `transport_insertComms` says that the
  order of every rank is its part of that list, for any compute schedule;
* `addSendRecv_eq_ok_iff`, `addSendRecv_loop`: the pass raises where a peer is not a rank, which
  no schedule of style `loop` has;
* `insertComms_completes`: hence no compute schedule makes the transfers wait in a cycle.
-/

namespace HyperParallel.Pipeline

open Rendezvous

/-! ### The pass -/

/-- An entry of an expanded schedule: a bubble, a plain step, or `_OverlapPhantom`. -/
inductive Item
  | bubble
  | plain (step : LeafStep)
  | phantom (obfStep : MetaStep) (subStep : LeafStep) (isFirstHalf : Bool)
  deriving DecidableEq, Repr

/-- The time slots of one entry of the order. -/
def expandStep : Option MetaStep → List Item
  | none => [.bubble]
  | some (.leaf step) => [.plain step]
  | some (.overlap type first second) =>
      [.phantom (.overlap type first second) first true,
        .phantom (.overlap type first second) second false]

/-- `_expand_overlap_slots`. -/
def expandOverlapSlots (scheduler : ℕ → Order) : ℕ → List Item := fun rank =>
  (scheduler rank).flatMap expandStep

/-- What the column scan appends for an item: a composite only once, at its first half. -/
def Item.emit : Item → Order
  | .bubble => [none]
  | .plain step => [some (.leaf step)]
  | .phantom obfStep _ true => [some obfStep]
  | .phantom _ _ false => []

/-- The step an item inserts the transfers of. -/
def Item.subStep : Item → Option LeafStep
  | .bubble => none
  | .plain step => some step
  | .phantom _ subStep _ => some subStep

/-- The `style` of a schedule. -/
inductive Style
  | loop
  | v
  deriving DecidableEq, Repr

/-- `stage_to_rank`. -/
def stageToRank (style : Style) (stageNum realStageNum stageIndex : ℕ) : ℕ :=
  match style with
  | .loop => stageIndex % realStageNum
  | .v => if stageIndex < realStageNum then stageIndex else stageNum - 1 - stageIndex

/-- `_fwd_peer`. -/
def fwdPeer (style : Style) (stageNum realStageNum stageIndex : ℕ) : Option ℕ :=
  if stageNum - 1 ≤ stageIndex then none
  else
    let peer := stageToRank style stageNum realStageNum (stageIndex + 1)
    if peer ≠ stageToRank style stageNum realStageNum stageIndex then some peer else none

/-- `_bwd_peer`. -/
def bwdPeer (style : Style) (stageNum realStageNum stageIndex : ℕ) : Option ℕ :=
  if stageIndex = 0 then none
  else
    let peer := stageToRank style stageNum realStageNum (stageIndex - 1)
    if peer ≠ stageToRank style stageNum realStageNum stageIndex then some peer else none

/-- The steps `_insert_comms_for_step` appends, each with the rank it appends it to. -/
def commsForStep (style : Style) (stageNum realStageNum rank : ℕ) (step : LeafStep) :
    List (ℕ × LeafStep) :=
  match step.type with
  | .fwd =>
      match fwdPeer style stageNum realStageNum step.stageIndex with
      | none => []
      | some peer =>
          [(rank, ⟨step.microIndex, .dataSend, step.stageIndex⟩),
            (rank, ⟨step.microIndex, .fwdSend, step.stageIndex⟩),
            (peer, ⟨step.microIndex, .dataRecv, step.stageIndex + 1⟩),
            (peer, ⟨step.microIndex, .fwdRecv, step.stageIndex + 1⟩)]
  | .bwd =>
      match bwdPeer style stageNum realStageNum step.stageIndex with
      | none => []
      | some peer =>
          [(rank, ⟨step.microIndex, .bwdSend, step.stageIndex⟩),
            (peer, ⟨step.microIndex, .bwdRecv, step.stageIndex - 1⟩)]
  | _ => []

/-- `new_schedule[rank].append(step)`, for each rank and step of a list in turn. -/
def appendAll (newSchedule : ℕ → Order) (steps : List (ℕ × Option MetaStep)) : ℕ → Order :=
  steps.foldl (fun sched x rank => if rank = x.1 then sched rank ++ [x.2] else sched rank)
    newSchedule

/-- The order in which `_process_rank_items` visits the ranks: even ranks first. -/
def evenFirst (realStageNum : ℕ) : List ℕ :=
  (List.range realStageNum).filter (· % 2 = 0) ++ (List.range realStageNum).filter (· % 2 = 1)

/-- What the first loop of a column appends: the items themselves. -/
def columnItems (expanded : ℕ → List Item) (realStageNum timeStep : ℕ) :
    List (ℕ × Option MetaStep) :=
  (List.range realStageNum).flatMap fun rank =>
    ((expanded rank)[timeStep]?.elim [] Item.emit).map (rank, ·)

/-- What `_process_rank_items` appends in a column: the transfers of the items. -/
def columnComms (style : Style) (expanded : ℕ → List Item) (stageNum realStageNum timeStep : ℕ) :
    List (ℕ × LeafStep) :=
  (evenFirst realStageNum).flatMap fun rank =>
    ((expanded rank)[timeStep]?.bind Item.subStep).elim []
      (commsForStep style stageNum realStageNum rank)

/-- The longest expanded order. -/
def maxLength (expanded : ℕ → List Item) (realStageNum : ℕ) : ℕ :=
  ((List.range realStageNum).map fun rank => (expanded rank).length).foldl max 0

/-- `_column_scan_insert_comms`. -/
def columnScan (style : Style) (expanded : ℕ → List Item) (stageNum realStageNum : ℕ) :
    ℕ → Order :=
  (List.range (maxLength expanded realStageNum)).foldl
    (fun newSchedule timeStep =>
      appendAll (appendAll newSchedule (columnItems expanded realStageNum timeStep))
        ((columnComms style expanded stageNum realStageNum timeStep).map
          fun x => (x.1, some (.leaf x.2))))
    fun _ => []

/-- `_loads_for`: one `DATA_LOAD` for every forward of the step. -/
def loadsFor (step : Option MetaStep) : Order :=
  (Order.leaves [step]).flatMap fun sub =>
    if sub.type = .fwd then [some (.leaf ⟨sub.microIndex, .dataLoad, sub.stageIndex⟩)] else []

/-- `_insert_dataload_before_fwd`. -/
def insertDataloadBeforeFwd (order : Order) : Order :=
  order.flatMap fun step => loadsFor step ++ [step]

/-- What `add_send_recv` returns where every peer is a rank. -/
def insertComms (scheduler : ℕ → Order) (stageNum realStageNum : ℕ) (style : Style) : ℕ → Order :=
  fun rank =>
    insertDataloadBeforeFwd
      (columnScan style (expandOverlapSlots scheduler) stageNum realStageNum rank)

/-- `KeyError`: `new_schedule` has no entry for the rank. -/
structure KeyError where
  rank : ℕ
  deriving DecidableEq, Repr

/-- The transfers of all columns, in the order in which they are appended. -/
def allComms (style : Style) (expanded : ℕ → List Item) (stageNum realStageNum : ℕ) :
    List (ℕ × LeafStep) :=
  (List.range (maxLength expanded realStageNum)).flatMap
    (columnComms style expanded stageNum realStageNum)

/-- `add_send_recv`: `new_schedule[peer]` raises at the first transfer whose peer is not a rank. -/
def addSendRecv (scheduler : ℕ → Order) (stageNum realStageNum : ℕ) (style : Style) :
    Except KeyError (ℕ → Order) :=
  match (allComms style (expandOverlapSlots scheduler) stageNum realStageNum).find?
      (realStageNum ≤ ·.1) with
  | some comm => .error ⟨comm.1⟩
  | none => .ok (insertComms scheduler stageNum realStageNum style)

/-! ### What one rank gets -/

/-- The entries of a list that go to one rank. -/
def forRank {α : Type*} (rank : ℕ) (l : List (ℕ × α)) : List α :=
  (l.filter fun x => x.1 = rank).map Prod.snd

section ForRank

variable {α β : Type*} {rank : ℕ}

@[simp] theorem forRank_nil : forRank rank ([] : List (ℕ × α)) = [] := rfl

@[simp] theorem forRank_cons (x : ℕ × α) (l : List (ℕ × α)) :
    forRank rank (x :: l) = (if x.1 = rank then [x.2] else []) ++ forRank rank l := by
  by_cases hx : x.1 = rank <;> simp [forRank, hx]

@[simp] theorem forRank_append (l l' : List (ℕ × α)) :
    forRank rank (l ++ l') = forRank rank l ++ forRank rank l' := by
  simp [forRank]

theorem forRank_flatMap (l : List β) (f : β → List (ℕ × α)) :
    forRank rank (l.flatMap f) = l.flatMap fun x => forRank rank (f x) := by
  induction l with
  | nil => rfl
  | cons x l ih => simp [ih]

theorem forRank_map (g : α → β) (l : List (ℕ × α)) :
    forRank rank (l.map fun x => (x.1, g x.2)) = (forRank rank l).map g := by
  induction l with
  | nil => rfl
  | cons x l ih => by_cases hx : x.1 = rank <;> simp [ih, hx]

theorem forRank_self (l : List α) : forRank rank (l.map (rank, ·)) = l := by
  induction l with
  | nil => rfl
  | cons x l ih => simp [ih]

theorem forRank_ne {r : ℕ} (h : r ≠ rank) (l : List α) : forRank rank (l.map (r, ·)) = [] := by
  induction l with
  | nil => rfl
  | cons x l ih => simp [h, ih]

end ForRank

theorem appendAll_apply (sched : ℕ → Order) (steps : List (ℕ × Option MetaStep)) (rank : ℕ) :
    appendAll sched steps rank = sched rank ++ forRank rank steps := by
  unfold appendAll
  induction steps generalizing sched with
  | nil => simp
  | cons x steps ih =>
    rw [List.foldl_cons, ih]
    by_cases hx : x.1 = rank
    · simp [hx]
    · simp [hx, Ne.symm hx]

/-- Only one rank of a duplicate-free list contributes to its own part. -/
theorem flatMap_single {α : Type*} {l : List ℕ} {rank : ℕ} {f : ℕ → List α} (hl : l.Nodup)
    (hmem : rank ∈ l) (hf : ∀ r ∈ l, r ≠ rank → f r = []) : l.flatMap f = f rank := by
  induction l with
  | nil => simp at hmem
  | cons r l ih =>
    rw [List.nodup_cons] at hl
    rw [List.flatMap_cons]
    by_cases hr : r = rank
    · subst hr
      have : l.flatMap f = [] := by
        rw [List.flatMap_eq_nil_iff]
        exact fun x hx => hf x (List.mem_cons_of_mem _ hx) fun h => hl.1 (h ▸ hx)
      rw [this, List.append_nil]
    · rw [hf r List.mem_cons_self hr, List.nil_append]
      exact ih hl.2 ((List.mem_cons.1 hmem).resolve_left (Ne.symm hr))
        fun x hx => hf x (List.mem_cons_of_mem _ hx)

/-- The item of a rank in a column, as the scan appends it. -/
theorem forRank_columnItems {expanded : ℕ → List Item} {R rank : ℕ} (t : ℕ) (h : rank < R) :
    forRank rank (columnItems expanded R t) = (expanded rank)[t]?.elim [] Item.emit := by
  unfold columnItems
  rw [forRank_flatMap, flatMap_single List.nodup_range (List.mem_range.2 h), forRank_self]
  exact fun r _ hr => forRank_ne hr _

/-- The transfers appended to `rank` in column `t`. -/
def commsAt (style : Style) (expanded : ℕ → List Item) (stageNum realStageNum rank t : ℕ) :
    List LeafStep :=
  forRank rank (columnComms style expanded stageNum realStageNum t)

/-- What one rank gets: in every column its own item, then the transfers of all ranks' items
that end at it. -/
theorem columnScan_apply (style : Style) (expanded : ℕ → List Item) (stageNum : ℕ) {R rank : ℕ}
    (h : rank < R) : columnScan style expanded stageNum R rank =
      (List.range (maxLength expanded R)).flatMap fun t =>
        (expanded rank)[t]?.elim [] Item.emit ++
          (commsAt style expanded stageNum R rank t).map fun x => some (.leaf x) := by
  unfold columnScan
  induction maxLength expanded R with
  | zero => rfl
  | succ n ih =>
    rw [List.range_succ, List.foldl_append, List.foldl_cons, List.foldl_nil, appendAll_apply,
      appendAll_apply, ih, forRank_columnItems n h,
      forRank_map fun x => some (MetaStep.leaf x)]
    simp [commsAt]

/-! ### The pass as one global list of events -/

theorem insertDataloadBeforeFwd_append (o o' : Order) :
    insertDataloadBeforeFwd (o ++ o') =
      insertDataloadBeforeFwd o ++ insertDataloadBeforeFwd o' := by
  simp [insertDataloadBeforeFwd]

theorem insertDataloadBeforeFwd_flatMap {α : Type*} (l : List α) (f : α → Order) :
    insertDataloadBeforeFwd (l.flatMap f) = l.flatMap fun x => insertDataloadBeforeFwd (f x) := by
  simp [insertDataloadBeforeFwd, List.flatMap_assoc]

/-- Transfers are left as they are. -/
theorem insertDataloadBeforeFwd_comms {l : List LeafStep} (h : ∀ x ∈ l, x.type ≠ .fwd) :
    insertDataloadBeforeFwd (l.map fun x => some (.leaf x)) = l.map fun x => some (.leaf x) := by
  induction l with
  | nil => rfl
  | cons x l ih =>
    have hx := h x List.mem_cons_self
    have := ih fun y hy => h y (List.mem_cons_of_mem _ hy)
    simp_all [insertDataloadBeforeFwd, loadsFor, MetaStep.leaves]

theorem Order.leaves_flatMap {α : Type*} (l : List α) (f : α → Order) :
    Order.leaves (l.flatMap f) = l.flatMap fun x => Order.leaves (f x) := by
  simp [Order.leaves, List.flatMap_assoc]

theorem Order.leaves_map_leaf (l : List LeafStep) :
    Order.leaves (l.map fun x => some (.leaf x)) = l := by
  induction l with
  | nil => rfl
  | cons x l ih => simp [MetaStep.leaves, ih]

/-- The transfer of the data keys, when a data iterator is active. -/
def dataEvents (dataIterator : Bool) (rank peer : ℕ) (step : LeafStep) :
    List (Event ℕ Message LeafStep) :=
  if dataIterator then
    [.transfer rank peer ⟨.dataSend, step.stageIndex, step.microIndex⟩]
  else
    [.work rank ⟨step.microIndex, .dataSend, step.stageIndex⟩,
      .work peer ⟨step.microIndex, .dataRecv, step.stageIndex + 1⟩]

/-- The transfers of a step as events. -/
def commEvents (style : Style) (stageNum realStageNum : ℕ) (dataIterator : Bool) (rank : ℕ)
    (step : LeafStep) : List (Event ℕ Message LeafStep) :=
  match step.type with
  | .fwd =>
      match fwdPeer style stageNum realStageNum step.stageIndex with
      | none => []
      | some peer =>
          dataEvents dataIterator rank peer step ++
            [.transfer rank peer ⟨.fwdSend, step.stageIndex, step.microIndex⟩]
  | .bwd =>
      match bwdPeer style stageNum realStageNum step.stageIndex with
      | none => []
      | some peer => [.transfer rank peer ⟨.bwdSend, step.stageIndex, step.microIndex⟩]
  | _ => []

/-- The local work of an item. -/
def workEvents (rank : ℕ) (item : Item) : List (Event ℕ Message LeafStep) :=
  (Order.leaves (insertDataloadBeforeFwd item.emit)).map (.work rank)

/-- The whole scan as one list of events. -/
def scanTrace (style : Style) (expanded : ℕ → List Item) (stageNum realStageNum : ℕ)
    (dataIterator : Bool) : List (Event ℕ Message LeafStep) :=
  (List.range (maxLength expanded realStageNum)).flatMap fun t =>
    ((List.range realStageNum).flatMap fun rank =>
      (expanded rank)[t]?.elim [] (workEvents rank)) ++
    (evenFirst realStageNum).flatMap fun rank =>
      ((expanded rank)[t]?.bind Item.subStep).elim []
        (commEvents style stageNum realStageNum dataIterator rank)

/-- A compute schedule: every rank runs forwards and backwards of its own stages. -/
def Computes (scheduler : ℕ → Order) (realStageNum : ℕ) : Prop :=
  ∀ rank < realStageNum, ∀ x ∈ (scheduler rank).leaves,
    (x.type = .fwd ∨ x.type = .bwd) ∧ x.stageIndex % realStageNum = rank

section Trace

variable {N R rank p : ℕ} {step : LeafStep}

theorem fwdPeer_eq_some {s : ℕ} (h : fwdPeer .loop N R s = some p) :
    p = (s + 1) % R ∧ p ≠ s % R := by
  unfold fwdPeer at h
  by_cases h1 : N - 1 ≤ s
  · simp [h1] at h
  by_cases h2 : (s + 1) % R = s % R
  · simp [h1, h2, stageToRank] at h
  · simp only [h1, stageToRank, ne_eq, h2, not_false_eq_true, if_true, if_false,
      Option.some.injEq] at h
    exact ⟨h.symm, h ▸ h2⟩

theorem bwdPeer_eq_some {s : ℕ} (h : bwdPeer .loop N R s = some p) :
    p = (s - 1) % R ∧ p ≠ s % R ∧ 0 < s := by
  unfold bwdPeer at h
  by_cases h1 : s = 0
  · simp [h1] at h
  by_cases h2 : (s - 1) % R = s % R
  · simp [h1, h2, stageToRank] at h
  · simp only [h1, stageToRank, ne_eq, h2, not_false_eq_true, if_true, if_false,
      Option.some.injEq] at h
    exact ⟨h.symm, h ▸ h2, Nat.pos_of_ne_zero h1⟩

/-- The transfers of one step: every rank's operations are its part of the events. -/
theorem map_toOp_commsForStep (di : Bool) (hplace : step.stageIndex % R = rank) (q : ℕ) :
    (forRank q (commsForStep .loop N R rank step)).map (LeafStep.toOp R di) =
      (commEvents .loop N R di rank step).flatMap (Event.at q) := by
  unfold commsForStep commEvents
  split
  · cases hpeer : fwdPeer .loop N R step.stageIndex with
    | none => rfl
    | some peer =>
      obtain ⟨rfl, hne⟩ := fwdPeer_eq_some hpeer
      rw [hplace] at hne
      by_cases hr : rank = q
      · subst hr
        cases di <;> simp [dataEvents, Event.at, LeafStep.toOp, hne]
      · by_cases hp : (step.stageIndex + 1) % R = q
        · cases di <;> simp [dataEvents, Event.at, LeafStep.toOp, hr, hp, hplace]
        · cases di <;> simp [dataEvents, Event.at, hr, hp]
  · cases hpeer : bwdPeer .loop N R step.stageIndex with
    | none => rfl
    | some peer =>
      obtain ⟨rfl, hne, hpos⟩ := bwdPeer_eq_some hpeer
      rw [hplace] at hne
      have hs : step.stageIndex - 1 + 1 = step.stageIndex := by omega
      by_cases hr : rank = q
      · subst hr
        simp [Event.at, LeafStep.toOp, hne]
      · by_cases hp : (step.stageIndex - 1) % R = q
        · simp [Event.at, LeafStep.toOp, hr, hp, hplace, hs]
        · simp [Event.at, hr, hp]
  · rfl

theorem mem_expandOverlapSlots {scheduler : ℕ → Order} {item : Item}
    (h : item ∈ expandOverlapSlots scheduler rank) (hsub : item.subStep = some step) :
    step ∈ (scheduler rank).leaves := by
  obtain ⟨entry, hentry, hitem⟩ := List.mem_flatMap.1 h
  refine List.mem_flatMap.2 ⟨entry, hentry, ?_⟩
  cases entry with
  | none =>
    obtain rfl := List.mem_singleton.1 hitem
    simp [Item.subStep] at hsub
  | some m =>
    cases m with
    | leaf x =>
      obtain rfl := List.mem_singleton.1 hitem
      simpa [Item.subStep, MetaStep.leaves, eq_comm] using hsub
    | overlap ty a b =>
      rcases List.mem_pair.1 hitem with rfl | rfl
      · simp_all [Item.subStep, MetaStep.leaves]
      · simp_all [Item.subStep, MetaStep.leaves]

theorem leaves_emit_of_mem {scheduler : ℕ → Order} {item : Item}
    (h : item ∈ expandOverlapSlots scheduler rank) :
    ∀ x ∈ Order.leaves item.emit, x ∈ (scheduler rank).leaves := by
  obtain ⟨entry, hentry, hitem⟩ := List.mem_flatMap.1 h
  intro x hx
  refine List.mem_flatMap.2 ⟨entry, hentry, ?_⟩
  cases entry with
  | none =>
    obtain rfl := List.mem_singleton.1 hitem
    simp [Item.emit] at hx
  | some m =>
    cases m with
    | leaf y =>
      obtain rfl := List.mem_singleton.1 hitem
      simpa [Item.emit] using hx
    | overlap ty a b =>
      rcases List.mem_pair.1 hitem with rfl | rfl
      · simpa [Item.emit] using hx
      · simp [Item.emit] at hx

/-- What is left after the loads are inserted: the loads and the steps themselves. -/
theorem mem_leaves_insertDataload {o : Order} {x : LeafStep}
    (h : x ∈ Order.leaves (insertDataloadBeforeFwd o)) : x.type = .dataLoad ∨ x ∈ o.leaves := by
  induction o with
  | nil => simp [insertDataloadBeforeFwd] at h
  | cons entry o ih =>
    have hcons : insertDataloadBeforeFwd (entry :: o) =
        loadsFor entry ++ [entry] ++ insertDataloadBeforeFwd o := by
      simp [insertDataloadBeforeFwd]
    rw [hcons, Order.leaves_append, Order.leaves_append, List.mem_append, List.mem_append] at h
    rw [show entry :: o = [entry] ++ o from rfl, Order.leaves_append, List.mem_append]
    rcases h with (h | h) | h
    · left
      unfold loadsFor at h
      rw [Order.leaves_flatMap, List.mem_flatMap] at h
      obtain ⟨sub, -, hx⟩ := h
      by_cases hsub : sub.type = .fwd
      · simp only [hsub, if_true, Order.leaves_some, MetaStep.leaves, Order.leaves_nil,
          List.append_nil, List.mem_singleton] at hx
        rw [hx]
      · simp [hsub] at hx
    · exact Or.inr (Or.inl h)
    · exact (ih h).imp id Or.inr

end Trace

section Network

variable {scheduler : ℕ → Order} {N R : ℕ} (di : Bool)

/-- The local work of an item asks nothing of the transport. -/
theorem workEvents_at (hc : Computes scheduler R) {rank p : ℕ} {item : Item} (h : rank < R)
    (hitem : item ∈ expandOverlapSlots scheduler rank) :
    (workEvents rank item).flatMap (Event.at p) =
      if rank = p then
        (Order.leaves (insertDataloadBeforeFwd item.emit)).map (LeafStep.toOp R di)
      else [] := by
  have hwork : ∀ x ∈ Order.leaves (insertDataloadBeforeFwd item.emit),
      x.toOp R di = .work x := by
    intro x hx
    rcases mem_leaves_insertDataload hx with hx | hx
    · simp [LeafStep.toOp, hx]
    · rcases (hc rank h x (leaves_emit_of_mem hitem x hx)).1 with hx | hx <;>
        simp [LeafStep.toOp, hx]
  unfold workEvents
  by_cases hr : rank = p
  · rw [if_pos hr, List.map_congr_left hwork, List.flatMap_map]
    simp [Event.at, hr, ← List.map_eq_flatMap]
  · rw [if_neg hr, List.flatMap_map]
    simp [Event.at, hr]

/-- The local work of a column, for one rank. -/
theorem columnItems_at (hc : Computes scheduler R) (p t : ℕ) :
    ((List.range R).flatMap fun rank =>
        (expandOverlapSlots scheduler rank)[t]?.elim [] (workEvents rank)).flatMap (Event.at p) =
      if p < R then
        (Order.leaves (insertDataloadBeforeFwd
          ((expandOverlapSlots scheduler p)[t]?.elim [] Item.emit))).map (LeafStep.toOp R di)
      else [] := by
  have hone : ∀ rank < R, ((expandOverlapSlots scheduler rank)[t]?.elim []
        (workEvents rank)).flatMap (Event.at p) =
      if rank = p then
        (Order.leaves (insertDataloadBeforeFwd
          ((expandOverlapSlots scheduler rank)[t]?.elim [] Item.emit))).map (LeafStep.toOp R di)
      else [] := by
    intro rank hrank
    cases h : (expandOverlapSlots scheduler rank)[t]? with
    | none => simp [insertDataloadBeforeFwd]
    | some item => exact workEvents_at di hc hrank (List.mem_of_getElem? h)
  rw [List.flatMap_assoc]
  split_ifs with hp
  · rw [flatMap_single List.nodup_range (List.mem_range.2 hp), hone p hp, if_pos rfl]
    intro r hr hne
    rw [hone r (List.mem_range.1 hr), if_neg hne]
  · rw [List.flatMap_eq_nil_iff]
    intro r hr
    have hr' := List.mem_range.1 hr
    rw [hone r hr', if_neg (by omega)]

theorem mem_evenFirst {rank : ℕ} : rank ∈ evenFirst R ↔ rank < R := by
  simp only [evenFirst, List.mem_append, List.mem_filter, List.mem_range, decide_eq_true_eq]
  omega

/-- The transfers of a column, for one rank. -/
theorem columnComms_at (hc : Computes scheduler R) (p t : ℕ) :
    ((evenFirst R).flatMap fun rank =>
        ((expandOverlapSlots scheduler rank)[t]?.bind Item.subStep).elim []
          (commEvents .loop N R di rank)).flatMap (Event.at p) =
      (commsAt .loop (expandOverlapSlots scheduler) N R p t).map (LeafStep.toOp R di) := by
  unfold commsAt columnComms
  rw [forRank_flatMap, List.map_flatMap, List.flatMap_assoc]
  refine List.flatMap_congr fun rank hrank => ?_
  cases h : (expandOverlapSlots scheduler rank)[t]? with
  | none => rfl
  | some item =>
    cases hsub : item.subStep with
    | none => simp [hsub]
    | some step =>
      have hmem := mem_expandOverlapSlots (List.mem_of_getElem? h) hsub
      have hplace := (hc rank (mem_evenFirst.1 hrank) step hmem).2
      simpa [hsub] using (map_toOp_commsForStep di hplace p).symm

theorem commsForStep_type {style : Style} {rank : ℕ} {step : LeafStep} {x : ℕ × LeafStep}
    (h : x ∈ commsForStep style N R rank step) : x.2.type ≠ .fwd ∧ x.2.type ≠ .bwd := by
  unfold commsForStep at h
  split at h
  · cases hp : fwdPeer style N R step.stageIndex with
    | none => simp [hp] at h
    | some peer =>
      simp only [hp, List.mem_cons, List.not_mem_nil, or_false] at h
      rcases h with rfl | rfl | rfl | rfl <;> simp
  · cases hp : bwdPeer style N R step.stageIndex with
    | none => simp [hp] at h
    | some peer =>
      simp only [hp, List.mem_cons, List.not_mem_nil, or_false] at h
      rcases h with rfl | rfl <;> simp
  · simp at h

theorem commsForStep_rank {rank : ℕ} {step : LeafStep} {x : ℕ × LeafStep} (hrank : rank < R)
    (h : x ∈ commsForStep .loop N R rank step) : x.1 < R := by
  have hR : 0 < R := by omega
  unfold commsForStep at h
  split at h
  · cases hp : fwdPeer .loop N R step.stageIndex with
    | none => simp [hp] at h
    | some peer =>
      have hpeer : peer < R := (fwdPeer_eq_some hp).1 ▸ Nat.mod_lt _ hR
      simp only [hp, List.mem_cons, List.not_mem_nil, or_false] at h
      rcases h with rfl | rfl | rfl | rfl <;> assumption
  · cases hp : bwdPeer .loop N R step.stageIndex with
    | none => simp [hp] at h
    | some peer =>
      have hpeer : peer < R := (bwdPeer_eq_some hp).1 ▸ Nat.mod_lt _ hR
      simp only [hp, List.mem_cons, List.not_mem_nil, or_false] at h
      rcases h with rfl | rfl <;> assumption
  · simp at h

/-- The transfers appended in a column come from an item of the column. -/
theorem mem_commsAt {style : Style} {expanded : ℕ → List Item} {rank t : ℕ} {x : LeafStep} :
    x ∈ commsAt style expanded N R rank t ↔
      ∃ r < R, ∃ step, (expanded r)[t]?.bind Item.subStep = some step ∧
        (rank, x) ∈ commsForStep style N R r step := by
  simp only [commsAt, forRank, columnComms, List.mem_map, List.mem_filter, List.mem_flatMap,
    mem_evenFirst, decide_eq_true_eq]
  constructor
  · rintro ⟨⟨q, y⟩, ⟨⟨r, hr, hy⟩, rfl⟩, rfl⟩
    cases hitem : (expanded r)[t]?.bind Item.subStep with
    | none => simp [hitem] at hy
    | some step => exact ⟨r, hr, step, hitem, by simpa [hitem] using hy⟩
  · rintro ⟨r, hr, step, hitem, hx⟩
    exact ⟨(rank, x), ⟨⟨r, hr, by simpa [hitem] using hx⟩, rfl⟩, rfl⟩

/-- A column never appends a compute step as a transfer. -/
theorem commsAt_type {style : Style} {expanded : ℕ → List Item} {rank t : ℕ} {x : LeafStep}
    (h : x ∈ commsAt style expanded N R rank t) : x.type ≠ .fwd ∧ x.type ≠ .bwd := by
  obtain ⟨r, -, step, -, hx⟩ := mem_commsAt.1 h
  exact commsForStep_type hx

theorem flatMap_subStep (scheduler : ℕ → Order) (rank : ℕ) :
    (expandOverlapSlots scheduler rank).flatMap (·.subStep.toList) = (scheduler rank).leaves := by
  unfold expandOverlapSlots Order.leaves
  rw [List.flatMap_assoc]
  refine List.flatMap_congr fun step _ => ?_
  rcases step with _ | step | ⟨ty, a, b⟩ <;> rfl

theorem length_le_maxLength {expanded : ℕ → List Item} {rank : ℕ} (h : rank < R) :
    (expanded rank).length ≤ maxLength expanded R := by
  have hfold : ∀ (l : List ℕ) (m : ℕ), m ≤ l.foldl max m ∧ ∀ x ∈ l, x ≤ l.foldl max m := by
    intro l
    induction l with
    | nil => simp
    | cons y l ih =>
      intro m
      obtain ⟨h1, h2⟩ := ih (max m y)
      rw [List.foldl_cons]
      refine ⟨by omega, fun x hx => ?_⟩
      rcases List.mem_cons.1 hx with rfl | hx
      · omega
      · exact h2 x hx
  exact (hfold _ 0).2 _ (List.mem_map.2 ⟨rank, List.mem_range.2 h, rfl⟩)

theorem mem_allComms {scheduler : ℕ → Order} {style : Style} {x : ℕ × LeafStep} :
    x ∈ allComms style (expandOverlapSlots scheduler) N R ↔
      ∃ r < R, ∃ step ∈ (scheduler r).leaves, x ∈ commsForStep style N R r step := by
  simp only [allComms, columnComms, List.mem_flatMap, List.mem_range, mem_evenFirst]
  constructor
  · rintro ⟨t, -, r, hr, hx⟩
    cases hitem : (expandOverlapSlots scheduler r)[t]?.bind Item.subStep with
    | none => simp [hitem] at hx
    | some step =>
      obtain ⟨item, hget, hsub⟩ := Option.bind_eq_some_iff.1 hitem
      exact ⟨r, hr, step, mem_expandOverlapSlots (List.mem_of_getElem? hget) hsub,
        by simpa [hitem] using hx⟩
  · rintro ⟨r, hr, step, hstep, hx⟩
    rw [← flatMap_subStep, List.mem_flatMap] at hstep
    obtain ⟨item, hitem, hsub⟩ := hstep
    obtain ⟨t, ht, rfl⟩ := List.mem_iff_getElem.1 hitem
    refine ⟨t, ht.trans_le (length_le_maxLength hr), r, hr, ?_⟩
    rw [List.getElem?_eq_getElem ht, Option.bind_some, Option.mem_toList.1 hsub]
    exact hx

/-- The pass returns exactly where all transfers are appended to a rank. -/
theorem addSendRecv_eq_ok_iff {scheduler : ℕ → Order} {style : Style} {out : ℕ → Order} :
    addSendRecv scheduler N R style = .ok out ↔ out = insertComms scheduler N R style ∧
      ∀ r < R, ∀ step ∈ (scheduler r).leaves, ∀ x ∈ commsForStep style N R r step, x.1 < R := by
  have hnone : (allComms style (expandOverlapSlots scheduler) N R).find? (R ≤ ·.1) = none ↔
      ∀ r < R, ∀ step ∈ (scheduler r).leaves, ∀ x ∈ commsForStep style N R r step, x.1 < R := by
    rw [List.find?_eq_none]
    simp only [mem_allComms, decide_eq_true_eq, not_le]
    exact ⟨fun h r hr step hstep x hx => h x ⟨r, hr, step, hstep, hx⟩,
      fun h x ⟨r, hr, step, hstep, hx⟩ => h r hr step hstep x hx⟩
  unfold addSendRecv
  split
  · rename_i comm hfind
    refine iff_of_false (by simp) fun h => ?_
    rw [hnone.2 h.2] at hfind
    cases hfind
  · rename_i hfind
    exact ⟨fun h => ⟨(Except.ok.inj h).symm, hnone.1 hfind⟩, fun h => by rw [h.1]⟩

/-- In style `loop` every peer is a rank. -/
theorem addSendRecv_loop (scheduler : ℕ → Order) :
    addSendRecv scheduler N R .loop = .ok (insertComms scheduler N R .loop) :=
  addSendRecv_eq_ok_iff.2 ⟨rfl, fun _ hr _ _ _ hx => commsForStep_rank hr hx⟩

/-- The order of a rank, column after column. -/
theorem insertComms_apply (style : Style) {rank : ℕ} (h : rank < R) :
    insertComms scheduler N R style rank =
      (List.range (maxLength (expandOverlapSlots scheduler) R)).flatMap fun t =>
        insertDataloadBeforeFwd ((expandOverlapSlots scheduler rank)[t]?.elim [] Item.emit) ++
          (commsAt style (expandOverlapSlots scheduler) N R rank t).map
            fun x => some (.leaf x) := by
  unfold insertComms
  rw [columnScan_apply style _ N h, insertDataloadBeforeFwd_flatMap]
  refine List.flatMap_congr fun t _ => ?_
  rw [insertDataloadBeforeFwd_append,
    insertDataloadBeforeFwd_comms fun x hx => (commsAt_type hx).1]

/-- The order of every rank is its part of the global list of events. -/
theorem transport_insertComms (hc : Computes scheduler R) :
    transport R di (insertComms scheduler N R .loop) =
      ofTrace (scanTrace .loop (expandOverlapSlots scheduler) N R di) := by
  funext p
  unfold ofTrace scanTrace
  rw [List.flatMap_assoc]
  unfold transport
  split_ifs with hp
  · rw [insertComms_apply .loop hp, Order.leaves_flatMap, List.map_flatMap]
    refine List.flatMap_congr fun t _ => ?_
    rw [List.flatMap_append, columnItems_at di hc, columnComms_at di hc, if_pos hp,
      Order.leaves_append, List.map_append, Order.leaves_map_leaf]
  · symm
    rw [List.flatMap_eq_nil_iff]
    intro t _
    rw [List.flatMap_append, columnItems_at di hc, columnComms_at di hc, if_neg hp,
      List.nil_append, List.map_eq_nil_iff, List.eq_nil_iff_forall_not_mem]
    intro x hx
    obtain ⟨r, hr, step, -, hmem⟩ := mem_commsAt.1 hx
    exact hp (commsForStep_rank hr hmem)

theorem ne_of_mem_commEvents {rank p q : ℕ} {step : LeafStep} {m : Message}
    (hplace : step.stageIndex % R = rank)
    (h : Event.transfer p q m ∈ commEvents .loop N R di rank step) : p ≠ q := by
  unfold commEvents at h
  split at h
  · cases hpeer : fwdPeer .loop N R step.stageIndex with
    | none => simp [hpeer] at h
    | some peer =>
      have hne := (fwdPeer_eq_some hpeer).2
      rw [hplace] at hne
      cases di <;> simp [hpeer, dataEvents] at h
      · rw [h.1, h.2.1]; exact hne.symm
      · rcases h with h | h <;> rw [h.1, h.2.1] <;> exact hne.symm
  · cases hpeer : bwdPeer .loop N R step.stageIndex with
    | none => simp [hpeer] at h
    | some peer =>
      have hne := (bwdPeer_eq_some hpeer).2.1
      rw [hplace] at hne
      simp only [hpeer, List.mem_singleton, Event.transfer.injEq] at h
      rw [h.1, h.2.1]
      exact hne.symm
  · simp at h

/-- No event of the scan is a transfer of a rank to itself. -/
theorem ne_of_mem_scanTrace (hc : Computes scheduler R) {p q : ℕ} {m : Message}
    (h : Event.transfer p q m ∈ scanTrace .loop (expandOverlapSlots scheduler) N R di) :
    p ≠ q := by
  unfold scanTrace at h
  simp only [List.mem_flatMap, List.mem_append] at h
  obtain ⟨t, -, ⟨r, -, h⟩ | ⟨r, hr, h⟩⟩ := h
  · cases hitem : (expandOverlapSlots scheduler r)[t]? with
    | none => simp [hitem] at h
    | some item => simp [hitem, workEvents] at h
  · cases hitem : (expandOverlapSlots scheduler r)[t]? with
    | none => simp [hitem] at h
    | some item =>
      cases hsub : item.subStep with
      | none => simp [hitem, hsub] at h
      | some step =>
        have hmem := mem_expandOverlapSlots (List.mem_of_getElem? hitem) hsub
        simp only [hitem, Option.bind_some, hsub, Option.elim_some] at h
        exact ne_of_mem_commEvents di (hc r (mem_evenFirst.1 hr) step hmem).2 h

/-- Whatever compute schedule it is given, `add_send_recv` inserts transfers that never wait in
a cycle and that pair equal messages; and later passes may add and move local work. -/
theorem insertComms_completes (hc : Computes scheduler R) {execOrder : ℕ → Order}
    (hcomms : ∀ p, comms (transport R di execOrder p) =
      comms (transport R di (insertComms scheduler N R .loop) p)) :
    Completes (transport R di execOrder) ∧ Matched (transport R di execOrder) ∧
      ∀ p q, sendsTo q (transport R di execOrder p) =
        recvsFrom p (transport R di execOrder q) := by
  rw [transport_insertComms di hc] at hcomms
  exact ofTrace_completes _ (fun p q m h => ne_of_mem_scanTrace di hc h) hcomms
    (Finset.range R) fun p hp => if_neg fun h => hp (Finset.mem_range.2 h)

/-- The same for the network in which a step that comes too early raises, as long as none does. -/
theorem execution_completes (hc : Computes scheduler R) {execOrder : ℕ → Order} (stageNum : ℕ)
    (hcomms : ∀ p, comms (transport R di execOrder p) =
      comms (transport R di (insertComms scheduler N R .loop) p)) :
    Completes (execution stageNum R di execOrder) := by
  rw [transport_insertComms di hc] at hcomms
  refine (ofTrace_completes ((scanTrace .loop (expandOverlapSlots scheduler) N R di).map
    (Event.map id .ok)) (fun p q m h => ?_) (fun p => ?_) (Finset.range R)
    fun p hp => if_neg fun h => hp (Finset.mem_range.2 h)).1
  · obtain ⟨e, he, heq⟩ := List.mem_map.1 h
    cases e with
    | work q c => simp [Event.map] at heq
    | transfer q r m' =>
      simp only [Event.map, Event.transfer.injEq] at heq
      obtain ⟨rfl, rfl, -⟩ := heq
      exact ne_of_mem_scanTrace di hc he
  · exact (comms_execution execOrder p).trans (by rw [hcomms, ofTrace_map, comms_map])

end Network

end HyperParallel.Pipeline
