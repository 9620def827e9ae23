import HyperParallel.Pipeline.AddSendRecv
import Mathlib.Data.List.Nodup

/-!
# Receives and their consumers in an order built by the column scan

* `ReceivedBefore`: in an order, a receive stands before the step that consumes it;
* `subStep_unique`, `emit_unique`: the column that carries the transfers of a step, and the column
  in which a step is appended, are unique;
* `receivedBefore_iff`: the receive comes first exactly when the column of the sender comes before
  the column in which the consumer is appended.
-/

namespace HyperParallel.Pipeline

/-! ### When a receive comes before its consumer -/

/-- In an order, the step `recv` stands before every step that runs `x`, be it alone or in a
composite. -/
def ReceivedBefore (order : Order) (recv x : LeafStep) : Prop :=
  ∀ o₁ step o₂, order = o₁ ++ some step :: o₂ → x ∈ step.leaves → some (.leaf recv) ∈ o₁

section Columns

/-- In a duplicate-free list of blocks an element belongs to one block only. -/
theorem index_unique {α β : Type*} {l : List α} {f : α → List β} (h : (l.flatMap f).Nodup)
    {t t' : ℕ} {a a' : α} {x : β} (ha : l[t]? = some a) (ha' : l[t']? = some a') (hx : x ∈ f a)
    (hx' : x ∈ f a') : t = t' := by
  have hpw := List.pairwise_iff_getElem.1 (List.nodup_flatMap.1 h).2
  obtain ⟨ht, rfl⟩ := List.getElem?_eq_some_iff.1 ha
  obtain ⟨ht', rfl⟩ := List.getElem?_eq_some_iff.1 ha'
  rcases lt_trichotomy t t' with hlt | heq | hlt
  · exact absurd hx' (hpw t t' ht ht' hlt hx)
  · exact heq
  · exact absurd hx (hpw t' t ht' ht hlt hx')

/-- An element of a list of blocks, with what comes before it. -/
theorem flatMap_range_split {α : Type*} {g : ℕ → List α} {n : ℕ} {l₁ l₂ : List α} {x : α}
    (h : (List.range n).flatMap g = l₁ ++ x :: l₂) :
    ∃ t < n, ∃ a b, g t = a ++ x :: b ∧ l₁ = (List.range t).flatMap g ++ a := by
  induction n generalizing l₂ with
  | zero => simp at h
  | succ n ih =>
    rw [List.range_succ, List.flatMap_append, List.flatMap_singleton] at h
    rcases List.append_eq_append_iff.1 h with ⟨a, h1, h2⟩ | ⟨b, h1, h2⟩
    · exact ⟨n, by omega, a, l₂, h2, h1⟩
    · cases b with
      | nil => exact ⟨n, by omega, [], l₂, by simpa using h2.symm, by simpa using h1.symm⟩
      | cons y b =>
        simp only [List.cons_append, List.cons.injEq] at h2
        obtain ⟨rfl, -⟩ := h2
        obtain ⟨t, ht, hsplit⟩ := ih h1
        exact ⟨t, by omega, hsplit⟩

variable {scheduler : ℕ → Order} {N R rank : ℕ}

theorem flatMap_emit (scheduler : ℕ → Order) (rank : ℕ) :
    (expandOverlapSlots scheduler rank).flatMap (Order.leaves ·.emit) =
      (scheduler rank).leaves := by
  unfold expandOverlapSlots
  rw [List.flatMap_assoc]
  conv_rhs => rw [Order.leaves]
  refine List.flatMap_congr fun step _ => ?_
  rcases step with _ | step | ⟨ty, a, b⟩ <;> rfl

/-- The column that carries the transfers of a step is unique. -/
theorem subStep_unique (hnodup : (scheduler rank).leaves.Nodup) {t t' : ℕ} {x : LeafStep}
    (h : (expandOverlapSlots scheduler rank)[t]?.bind Item.subStep = some x)
    (h' : (expandOverlapSlots scheduler rank)[t']?.bind Item.subStep = some x) : t = t' := by
  obtain ⟨a, ha, hx⟩ := Option.bind_eq_some_iff.1 h
  obtain ⟨a', ha', hx'⟩ := Option.bind_eq_some_iff.1 h'
  rw [← flatMap_subStep] at hnodup
  exact index_unique (x := x) hnodup ha ha' (by simp [hx]) (by simp [hx'])

/-- The column in which a step is appended is unique. -/
theorem emit_unique (hnodup : (scheduler rank).leaves.Nodup) {t t' : ℕ} {a a' : Item}
    {x : LeafStep} (ha : (expandOverlapSlots scheduler rank)[t]? = some a)
    (ha' : (expandOverlapSlots scheduler rank)[t']? = some a') (hx : x ∈ Order.leaves a.emit)
    (hx' : x ∈ Order.leaves a'.emit) : t = t' := by
  rw [← flatMap_emit] at hnodup
  exact index_unique hnodup ha ha' hx hx'

/-- What a rank gets in column `t`. -/
def column (scheduler : ℕ → Order) (N R rank t : ℕ) : Order :=
  insertDataloadBeforeFwd ((expandOverlapSlots scheduler rank)[t]?.elim [] Item.emit) ++
    (commsAt .loop (expandOverlapSlots scheduler) N R rank t).map fun x => some (.leaf x)

theorem insertComms_eq_columns (h : rank < R) : insertComms scheduler N R .loop rank =
    (List.range (maxLength (expandOverlapSlots scheduler) R)).flatMap
      (column scheduler N R rank) :=
  insertComms_apply .loop h

/-- An entry of the order after the loads are inserted. -/
theorem mem_insertDataload {o : Order} {entry : Option MetaStep}
    (h : entry ∈ insertDataloadBeforeFwd o) :
    entry ∈ o ∨ ∃ x : LeafStep, x.type = .dataLoad ∧ entry = some (.leaf x) := by
  obtain ⟨step, hstep, hmem⟩ := List.mem_flatMap.1 h
  rcases List.mem_append.1 hmem with hload | hmem
  · obtain ⟨sub, -, hsub⟩ := List.mem_flatMap.1 hload
    split_ifs at hsub
    · exact Or.inr ⟨_, rfl, List.mem_singleton.1 hsub⟩
    · simp at hsub
  · exact Or.inl (List.mem_singleton.1 hmem ▸ hstep)

theorem mem_insertDataload_of_mem {o : Order} {entry : Option MetaStep} (h : entry ∈ o) :
    entry ∈ insertDataloadBeforeFwd o :=
  List.mem_flatMap.2 ⟨entry, h, by simp⟩

theorem leaves_subset_of_mem {o : Order} {step : MetaStep} {x : LeafStep} (h : some step ∈ o)
    (hx : x ∈ step.leaves) : x ∈ o.leaves :=
  List.mem_flatMap.2 ⟨some step, h, hx⟩

/-- A compute step in a column comes from the item of the column. -/
theorem emit_of_mem_column {t : ℕ} {step : MetaStep} {x : LeafStep}
    (hx : x.type = .fwd ∨ x.type = .bwd) (hstep : some step ∈ column scheduler N R rank t)
    (hmem : x ∈ step.leaves) :
    ∃ item, (expandOverlapSlots scheduler rank)[t]? = some item ∧
      x ∈ Order.leaves item.emit := by
  rcases List.mem_append.1 hstep with hstep | hstep
  · cases hitem : (expandOverlapSlots scheduler rank)[t]? with
    | none => simp [hitem, insertDataloadBeforeFwd] at hstep
    | some item =>
      rw [hitem] at hstep
      rcases mem_insertDataload hstep with hstep | ⟨y, hy, heq⟩
      · exact ⟨item, rfl, leaves_subset_of_mem hstep hmem⟩
      · obtain rfl := Option.some.inj heq
        obtain rfl := List.mem_singleton.1 hmem
        simp [hy] at hx
  · obtain ⟨y, hy, heq⟩ := List.mem_map.1 hstep
    obtain rfl := Option.some.inj heq
    obtain rfl := List.mem_singleton.1 hmem
    exact absurd hx (not_or.2 (commsAt_type hy))

/-- A transfer is not among what a column takes from its own item. -/
theorem notMem_emit (hc : Computes scheduler R) (h : rank < R) {t : ℕ} {item : Item}
    {y : LeafStep} (hitem : (expandOverlapSlots scheduler rank)[t]? = some item)
    (hy : y.type ≠ .fwd ∧ y.type ≠ .bwd ∧ y.type ≠ .dataLoad) :
    some (.leaf y) ∉ insertDataloadBeforeFwd item.emit := by
  intro hmem
  rcases mem_insertDataload hmem with hmem | ⟨z, hz, heq⟩
  · have hleaf := leaves_emit_of_mem (List.mem_of_getElem? hitem) y
      (leaves_subset_of_mem hmem (List.mem_singleton.2 rfl))
    exact absurd (hc rank h y hleaf).1 (not_or.2 ⟨hy.1, hy.2.1⟩)
  · obtain rfl := MetaStep.leaf.inj (Option.some.inj heq)
    exact absurd hz hy.2.2

/-- A transfer in a column comes from an item of the column. -/
theorem comms_of_mem_column {t : ℕ} {y : LeafStep} (hc : Computes scheduler R) (h : rank < R)
    (hy : y.type ≠ .fwd ∧ y.type ≠ .bwd ∧ y.type ≠ .dataLoad)
    (hmem : some (.leaf y) ∈ column scheduler N R rank t) :
    y ∈ commsAt .loop (expandOverlapSlots scheduler) N R rank t := by
  rcases List.mem_append.1 hmem with hmem | hmem
  · cases hitem : (expandOverlapSlots scheduler rank)[t]? with
    | none => simp [hitem, insertDataloadBeforeFwd] at hmem
    | some item =>
      rw [hitem] at hmem
      exact absurd hmem (notMem_emit hc h hitem hy)
  · obtain ⟨z, hz, heq⟩ := List.mem_map.1 hmem
    obtain rfl := MetaStep.leaf.inj (Option.some.inj heq)
    exact hz

/-- A list of blocks cut before one of them. -/
theorem flatMap_range_cut {α : Type*} (g : ℕ → List α) {n t : ℕ} (h : t < n) :
    ∃ post, (List.range n).flatMap g = (List.range t).flatMap g ++ (g t ++ post) := by
  obtain ⟨d, rfl⟩ : ∃ d, n = t + 1 + d := ⟨n - (t + 1), by omega⟩
  rw [List.range_add, List.range_succ]
  exact ⟨_, by rw [List.flatMap_append, List.flatMap_append, List.flatMap_singleton,
    List.append_assoc]⟩

/-- A receive comes before its consumer exactly when the column of its sender comes before the
column in which the consumer is appended. -/
theorem receivedBefore_iff (hc : Computes scheduler R) (h : rank < R)
    (hnodup : ∀ r < R, (scheduler r).leaves.Nodup) {recv x y : LeafStep} {r t t' : ℕ} {item : Item}
    (hrecv : recv.type ≠ .fwd ∧ recv.type ≠ .bwd ∧ recv.type ≠ .dataLoad)
    (hx : x.type = .fwd ∨ x.type = .bwd)
    (hitem : (expandOverlapSlots scheduler rank)[t]? = some item)
    (hemit : x ∈ Order.leaves item.emit) (hr : r < R)
    (hsub : (expandOverlapSlots scheduler r)[t']?.bind Item.subStep = some y)
    (hcomm : (rank, recv) ∈ commsForStep .loop N R r y)
    (hunique : ∀ r' z, (rank, recv) ∈ commsForStep .loop N R r' z → z = y) :
    ReceivedBefore (insertComms scheduler N R .loop rank) recv x ↔ t' < t := by
  have hbound : t < maxLength (expandOverlapSlots scheduler) R :=
    (List.getElem?_eq_some_iff.1 hitem).1.trans_le (length_le_maxLength h)
  rw [insertComms_eq_columns h]
  constructor
  · intro hbefore
    by_contra hge
    -- cut the order at the step that runs `x`
    obtain ⟨entry, hentry, hxe⟩ := List.mem_flatMap.1 hemit
    cases entry with
    | none => simp at hxe
    | some step =>
      obtain ⟨a, b, hab⟩ := List.append_of_mem (mem_insertDataload_of_mem hentry)
      obtain ⟨post, hpost⟩ := flatMap_range_cut (column scheduler N R rank) hbound
      have hcol : column scheduler N R rank t = a ++ some step :: (b ++
          (commsAt .loop (expandOverlapSlots scheduler) N R rank t).map
            fun x => some (.leaf x)) := by
        simp [column, hitem, hab]
      have hmem := hbefore ((List.range t).flatMap (column scheduler N R rank) ++ a) step _
        (by rw [hpost, hcol]; simp; rfl) hxe
      rcases List.mem_append.1 hmem with hmem | hmem
      · -- an earlier column with the receive has the same sender
        obtain ⟨t₀, ht₀, hcol₀⟩ := List.mem_flatMap.1 hmem
        obtain ⟨r', hr', z, hsub', hcomm'⟩ :=
          mem_commsAt.1 (comms_of_mem_column hc h hrecv hcol₀)
        obtain rfl := hunique r' z hcomm'
        have hrank : ∀ {q t}, q < R →
            (expandOverlapSlots scheduler q)[t]?.bind Item.subStep = some z →
            z.stageIndex % R = q := fun hq hsub => by
          obtain ⟨a, ha, hz⟩ := Option.bind_eq_some_iff.1 hsub
          exact (hc _ hq z (mem_expandOverlapSlots (List.mem_of_getElem? ha) hz)).2
        obtain rfl : r' = r := (hrank hr' hsub').symm.trans (hrank hr hsub)
        obtain rfl := subStep_unique (hnodup r' hr) hsub' hsub
        exact hge (List.mem_range.1 ht₀)
      · refine notMem_emit hc h hitem hrecv ?_
        rw [hab]
        exact List.mem_append_left _ hmem
  · intro hlt o₁ step o₂ hsplit hmem
    obtain ⟨t₀, -, a, b, hcol, rfl⟩ := flatMap_range_split hsplit
    obtain ⟨item₀, hitem₀, hx₀⟩ := emit_of_mem_column hx
      (by rw [hcol]; exact List.mem_append_right _ List.mem_cons_self) hmem
    obtain rfl := emit_unique (hnodup rank h) hitem₀ hitem hx₀ hemit
    refine List.mem_append_left _ (List.mem_flatMap.2 ⟨t', List.mem_range.2 hlt, ?_⟩)
    refine List.mem_append_right _ (List.mem_map.2 ⟨recv, ?_, rfl⟩)
    exact mem_commsAt.2 ⟨r, hr, y, hsub, hcomm⟩

/-- An entry of the order that carries a receive is that receive alone. -/
theorem eq_leaf_of_recv (hc : Computes scheduler R) (h : rank < R) {step : MetaStep}
    {recv : LeafStep} (hrecv : recv.type ≠ .fwd ∧ recv.type ≠ .bwd)
    (hstep : some step ∈ insertComms scheduler N R .loop rank) (hmem : recv ∈ step.leaves) :
    step = .leaf recv := by
  cases step with
  | leaf x => rw [List.mem_singleton.1 hmem]
  | overlap type a b =>
    rw [insertComms_eq_columns h] at hstep
    obtain ⟨t, -, hstep⟩ := List.mem_flatMap.1 hstep
    rcases List.mem_append.1 hstep with hstep | hstep
    · cases hitem : (expandOverlapSlots scheduler rank)[t]? with
      | none => simp [hitem, insertDataloadBeforeFwd] at hstep
      | some item =>
        rw [hitem] at hstep
        rcases mem_insertDataload hstep with hstep | ⟨y, -, heq⟩
        · have hleaf := leaves_emit_of_mem (List.mem_of_getElem? hitem) recv
            (leaves_subset_of_mem hstep hmem)
          exact absurd (hc rank h recv hleaf).1 (not_or.2 hrecv)
        · simp at heq
    · obtain ⟨z, -, heq⟩ := List.mem_map.1 hstep
      simp at heq

/-- A step of the finished order: a load, a step of the schedule or a transfer. -/
theorem mem_leaves_insertComms (h : rank < R) {x : LeafStep}
    (hx : x ∈ (insertComms scheduler N R .loop rank).leaves) :
    x.type = .dataLoad ∨ x ∈ (scheduler rank).leaves ∨
      ∃ r y, (rank, x) ∈ commsForStep .loop N R r y := by
  rw [insertComms_eq_columns h, Order.leaves_flatMap] at hx
  obtain ⟨t, -, hx⟩ := List.mem_flatMap.1 hx
  rw [column, Order.leaves_append, Order.leaves_map_leaf, List.mem_append] at hx
  rcases hx with hx | hx
  · cases hitem : (expandOverlapSlots scheduler rank)[t]? with
    | none => simp [hitem, insertDataloadBeforeFwd] at hx
    | some item =>
      rw [hitem] at hx
      exact (mem_leaves_insertDataload hx).imp id fun hx =>
        Or.inl (leaves_emit_of_mem (List.mem_of_getElem? hitem) x hx)
  · obtain ⟨r, -, y, -, hcomm⟩ := mem_commsAt.1 hx
    exact Or.inr (Or.inr ⟨r, y, hcomm⟩)

theorem commsForStep_whole {r r' : ℕ} {x y : LeafStep}
    (h : (r, x) ∈ commsForStep .loop N R r' y) : x.type ≠ .bwdInput ∧ x.type ≠ .bwdWeight := by
  unfold commsForStep at h
  split at h
  · cases hp : fwdPeer .loop N R y.stageIndex with
    | none => simp [hp] at h
    | some peer =>
      simp only [hp, List.mem_cons, Prod.mk.injEq, List.not_mem_nil, or_false] at h
      rcases h with ⟨-, rfl⟩ | ⟨-, rfl⟩ | ⟨-, rfl⟩ | ⟨-, rfl⟩ <;> simp
  · cases hp : bwdPeer .loop N R y.stageIndex with
    | none => simp [hp] at h
    | some peer =>
      simp only [hp, List.mem_cons, Prod.mk.injEq, List.not_mem_nil, or_false] at h
      rcases h with ⟨-, rfl⟩ | ⟨-, rfl⟩ <;> simp
  · simp at h

/-- A step of an order, with the steps the rank runs before it. -/
theorem exists_entry {order : Order} {l₁ l₂ : List LeafStep} {x : LeafStep}
    (h : order.leaves = l₁ ++ x :: l₂) : ∃ o₁ step o₂ a b, order = o₁ ++ some step :: o₂ ∧
      step.leaves = a ++ x :: b ∧ l₁ = Order.leaves o₁ ++ a := by
  induction order generalizing l₁ with
  | nil => simp at h
  | cons entry order ih =>
    rw [Order.leaves_cons] at h
    have hrest : ∀ d, Order.leaves order = d ++ x :: l₂ → l₁ = Order.leaves [entry] ++ d →
        ∃ o₁ step o₂ a b, entry :: order = o₁ ++ some step :: o₂ ∧ step.leaves = a ++ x :: b ∧
          l₁ = Order.leaves o₁ ++ a := by
      intro d hd hl
      obtain ⟨o₁, step, o₂, a, b, rfl, hab, rfl⟩ := ih hd
      exact ⟨entry :: o₁, step, o₂, a, b, rfl, hab, by
        rw [hl, Order.leaves_cons entry o₁, List.append_assoc]⟩
    rcases List.append_eq_append_iff.1 h with ⟨d, hl, hd⟩ | ⟨d, hl, hd⟩
    · exact hrest d hd hl
    · cases d with
      | nil => exact hrest [] hd.symm (by simpa using hl.symm)
      | cons y d =>
        obtain ⟨rfl, -⟩ := List.cons.inj hd
        cases entry with
        | none => simp at hl
        | some step =>
          exact ⟨[], step, order, l₁, d, rfl, by simpa using hl, rfl⟩

/-- Where a receive is an entry of its own, it comes before its consumer entry by entry exactly if
it does step by step. -/
theorem receivedBefore_iff_precedes {order : Order} {recv x : LeafStep}
    (hrecv : ∀ step, some step ∈ order → recv ∈ step.leaves → step = .leaf recv)
    (hne : recv ≠ x) : ReceivedBefore order recv x ↔ Precedes order.leaves recv x := by
  constructor
  · intro h l₁ l₂ heq
    obtain ⟨o₁, step, o₂, a, b, rfl, hab, rfl⟩ := exists_entry heq
    have hmem := h o₁ step o₂ rfl (by simp [hab])
    exact List.mem_append_left _ (leaves_subset_of_mem hmem (List.mem_singleton.2 rfl))
  · rintro h o₁ step o₂ rfl hx
    obtain ⟨a, b, hab⟩ := List.append_of_mem hx
    have hmem := h (Order.leaves o₁ ++ a) (b ++ Order.leaves o₂) (by
      rw [Order.leaves_append, Order.leaves_some, hab]
      simp)
    rcases List.mem_append.1 hmem with hmem | hmem
    · obtain ⟨entry, hentry, hleaf⟩ := List.mem_flatMap.1 hmem
      cases entry with
      | none => simp at hleaf
      | some step' =>
        rwa [hrecv step' (List.mem_append_left _ hentry) hleaf] at hentry
    · -- the entry would be the receive itself
      have hstep := hrecv step (by simp) (by simp [hab, hmem])
      rw [hstep] at hx
      exact absurd (List.mem_singleton.1 hx).symm hne

/-! ### The compute steps of a finished order -/

/-- The step is a forward or a backward. -/
def LeafStep.IsCompute (x : LeafStep) : Prop := x.type = .fwd ∨ x.type = .bwd

instance : DecidablePred LeafStep.IsCompute := fun _ => inferInstanceAs (Decidable (_ ∨ _))

theorem filter_leaves_insertDataload (o : Order) :
    (Order.leaves (insertDataloadBeforeFwd o)).filter (·.IsCompute) =
      o.leaves.filter (·.IsCompute) := by
  unfold insertDataloadBeforeFwd
  rw [Order.leaves_flatMap]
  induction o with
  | nil => rfl
  | cons entry o ih =>
    have hload : (Order.leaves (loadsFor entry)).filter (·.IsCompute) = [] := by
      rw [List.filter_eq_nil_iff]
      intro x hx
      unfold loadsFor at hx
      rw [Order.leaves_flatMap] at hx
      obtain ⟨sub, -, hx⟩ := List.mem_flatMap.1 hx
      split_ifs at hx
      · simp only [Order.leaves_some, MetaStep.leaves, Order.leaves_nil, List.append_nil,
          List.mem_singleton] at hx
        simp [hx, LeafStep.IsCompute]
      · simp at hx
    have hcons : Order.leaves (entry :: o) = Order.leaves [entry] ++ Order.leaves o :=
      Order.leaves_append [entry] o
    rw [List.flatMap_cons, List.filter_append, ih, Order.leaves_append, List.filter_append, hload,
      List.nil_append, hcons, List.filter_append]

/-- A list read through its indices. -/
theorem flatMap_range_getElem? {α β : Type*} (l : List α) (f : α → List β) {n : ℕ}
    (hn : l.length ≤ n) : ((List.range n).flatMap fun t => l[t]?.elim [] f) = l.flatMap f := by
  induction l generalizing n with
  | nil => simp
  | cons a l ih =>
    obtain ⟨m, rfl⟩ : ∃ m, n = m + 1 := ⟨n - 1, by simp at hn; omega⟩
    rw [List.range_succ_eq_map, List.flatMap_cons, List.flatMap_map]
    simpa using ih (by simpa using hn)

/-- The transfers and the loads are no compute steps. -/
theorem filter_leaves_insertComms_of_compute {style : Style} {order : ℕ → Order}
    (hrank : rank < R) (hc : ∀ x ∈ (order rank).leaves, x.IsCompute) :
    (insertComms order N R style rank).leaves.filter (·.IsCompute) = (order rank).leaves := by
  have hcolumn : ∀ t, (Order.leaves (insertDataloadBeforeFwd
      ((expandOverlapSlots order rank)[t]?.elim [] Item.emit) ++
        (commsAt style (expandOverlapSlots order) N R rank t).map fun x => some (.leaf x))).filter
          (·.IsCompute) = (expandOverlapSlots order rank)[t]?.elim [] (Order.leaves ·.emit) := by
    intro t
    have hcomms : (commsAt style (expandOverlapSlots order) N R rank t).filter
        (·.IsCompute) = [] := by
      rw [List.filter_eq_nil_iff]
      intro x hx
      have := commsAt_type hx
      simp [LeafStep.IsCompute, this.1, this.2]
    rw [Order.leaves_append, List.filter_append, filter_leaves_insertDataload,
      Order.leaves_map_leaf, hcomms, List.append_nil]
    cases hitem : (expandOverlapSlots order rank)[t]? with
    | none => rfl
    | some item =>
      rw [Option.elim_some, Option.elim_some, List.filter_eq_self]
      intro x hx
      exact decide_eq_true (hc x (leaves_emit_of_mem (List.mem_of_getElem? hitem) x hx))
  rw [insertComms_apply style hrank, Order.leaves_flatMap, List.filter_flatMap]
  simp only [hcolumn]
  rw [flatMap_range_getElem? _ _ (length_le_maxLength hrank), flatMap_emit]

/-- The pass keeps the compute steps of a rank and their order. -/
theorem filter_leaves_insertComms (hc : Computes scheduler R) (h : rank < R) :
    (insertComms scheduler N R .loop rank).leaves.filter (·.IsCompute) =
      (scheduler rank).leaves :=
  filter_leaves_insertComms_of_compute h fun x hx => (hc rank h x hx).1

/-- What stands before what among the compute steps stands so in the finished order. -/
theorem precedes_of_filter {l : List LeafStep} {a b : LeafStep} (hb : b.IsCompute)
    (h : Precedes (l.filter (·.IsCompute)) a b) : Precedes l a b := by
  rintro l₁ l₂ rfl
  have hfilter := h (l₁.filter (·.IsCompute)) (l₂.filter (·.IsCompute)) (by
    simp [List.filter_append, hb])
  exact List.mem_of_mem_filter hfilter

end Columns

/-! ### Which step a receive belongs to -/

section Peers

variable {N R r r' m s : ℕ}

theorem succ_mod_ne (hR : 2 ≤ R) (s : ℕ) : (s + 1) % R ≠ s % R := by
  intro h
  have h1 : (s + 1 - s) % R = 0 := Nat.sub_mod_eq_zero_of_mod_eq h
  rw [Nat.add_sub_cancel_left, Nat.mod_eq_of_lt (by omega)] at h1
  omega

theorem fwdRecv_mem_comms (hR : 2 ≤ R) (hs : s + 1 < N) :
    ((s + 1) % R, ⟨m, .fwdRecv, s + 1⟩) ∈ commsForStep .loop N R r ⟨m, .fwd, s⟩ := by
  have hpeer : fwdPeer .loop N R s = some ((s + 1) % R) := by
    unfold fwdPeer
    rw [if_neg (by omega), stageToRank, stageToRank, if_pos (succ_mod_ne hR s)]
  simp [commsForStep, hpeer]

theorem bwdRecv_mem_comms (hR : 2 ≤ R) :
    (s % R, ⟨m, .bwdRecv, s⟩) ∈ commsForStep .loop N R r ⟨m, .bwd, s + 1⟩ := by
  have hpeer : bwdPeer .loop N R (s + 1) = some (s % R) := by
    unfold bwdPeer
    rw [if_neg (Nat.succ_ne_zero s), stageToRank, stageToRank, Nat.add_sub_cancel,
      if_pos (succ_mod_ne hR s).symm]
  simp [commsForStep, hpeer]

/-- A forward receive is inserted by the forward of the stage before. -/
theorem eq_of_fwdRecv_mem {z : LeafStep}
    (h : (r, ⟨m, .fwdRecv, s + 1⟩) ∈ commsForStep .loop N R r' z) : z = ⟨m, .fwd, s⟩ := by
  obtain ⟨micro, ty, stage⟩ := z
  unfold commsForStep at h
  split at h
  · rename_i hty
    cases hp : fwdPeer .loop N R stage with
    | none => simp [hp] at h
    | some peer =>
      simp [hp] at h
      simp_all
  · cases hp : bwdPeer .loop N R stage with
    | none => simp [hp] at h
    | some peer => simp [hp] at h
  · simp at h

/-- A backward receive is inserted by the backward of the stage after. -/
theorem eq_of_bwdRecv_mem {z : LeafStep}
    (h : (r, ⟨m, .bwdRecv, s⟩) ∈ commsForStep .loop N R r' z) : z = ⟨m, .bwd, s + 1⟩ := by
  obtain ⟨micro, ty, stage⟩ := z
  unfold commsForStep at h
  split at h
  · cases hp : fwdPeer .loop N R stage with
    | none => simp [hp] at h
    | some peer => simp [hp] at h
  · rename_i hty
    cases hp : bwdPeer .loop N R stage with
    | none => simp [hp] at h
    | some peer =>
      have hpos := (bwdPeer_eq_some hp).2.2
      simp [hp] at h
      obtain ⟨-, rfl, rfl⟩ := h
      simp_all
      omega
  · simp at h

end Peers

end HyperParallel.Pipeline
