import HyperParallel.Checkpoint.FlattenStateDict
import HyperParallel.Lib.Dict

/-!
# Values set through flattened names

* `Obj.get`, `Obj.putChild`: a way into an object, and a child replaced;
* `LeafAt`, `mem_traverseObj`: where the leaves stand;
* `get_changed`, `alters_of_setElement`: what one call changes;
* `StateDict.flatten_setElement`: a leaf is set through its name exactly when its way leads over
  string keys and its container is no tuple and stands nowhere else.
-/

namespace HyperParallel.Checkpoint.Nested

variable {ι κ τ β : Type} {α : Type}

/-! ### Ways into an object -/

section Ways

variable [DecidableEq κ]

/-- The child of a container at a step. -/
def Obj.child : Obj ι κ τ β → Step κ → Option (Obj ι κ τ β)
  | .mapping _ items, .key k => items.lookup k
  | .list _ xs, .index i => xs[i]?
  | .tuple _ xs, .index i => xs[i]?
  | _, _ => Option.none

/-- What stands at the end of a way into an object. -/
def Obj.get : Obj ι κ τ β → List (Step κ) → Option (Obj ι κ τ β)
  | obj, [] => some obj
  | obj, step :: loc => (obj.child step).bind fun child => child.get loc

/-- A container with another child at a step. -/
def Obj.putChild : Obj ι κ τ β → Step κ → Obj ι κ τ β → Obj ι κ τ β
  | .mapping id items, .key k, child => .mapping id (setItem items k child)
  | .list id xs, .index i, child => .list id (xs.set i child)
  | .tuple id xs, .index i, child => .tuple id (xs.set i child)
  | obj, _, _ => obj

/-- The keys of every mapping inside are distinct. -/
inductive Obj.WellFormed : Obj ι κ τ β → Prop
  | none : WellFormed .none
  | tensor (t : τ) : WellFormed (.tensor t)
  | leaf (b : β) : WellFormed (.leaf b)
  | list {id : ι} {xs : List (Obj ι κ τ β)} (h : ∀ x ∈ xs, WellFormed x) : WellFormed (.list id xs)
  | tuple {id : ι} {xs : List (Obj ι κ τ β)} (h : ∀ x ∈ xs, WellFormed x) :
      WellFormed (.tuple id xs)
  | mapping {id : ι} {items : List (Key κ × Obj ι κ τ β)} (hkeys : (items.map Prod.fst).Nodup)
      (h : ∀ item ∈ items, WellFormed item.2) : WellFormed (.mapping id items)

/-- A leaf of an object, and the way to it. -/
inductive LeafAt : Obj ι κ τ β → List (Step κ) → Obj ι κ τ β → Prop
  | here {obj : Obj ι κ τ β} (h : obj.isTerminal = true) : LeafAt obj [] obj
  | key {id : ι} {items : List (Key κ × Obj ι κ τ β)} {k : Key κ} {child value : Obj ι κ τ β}
      {loc : List (Step κ)} (hmem : (k, child) ∈ items) (h : LeafAt child loc value) :
      LeafAt (.mapping id items) (.key k :: loc) value
  | list {id : ι} {xs : List (Obj ι κ τ β)} {i : ℕ} {child value : Obj ι κ τ β}
      {loc : List (Step κ)} (hxs : Obj.allTerminal xs = false) (hi : xs[i]? = some child)
      (h : LeafAt child loc value) : LeafAt (.list id xs) (.index i :: loc) value
  | tuple {id : ι} {xs : List (Obj ι κ τ β)} {i : ℕ} {child value : Obj ι κ τ β}
      {loc : List (Step κ)} (hxs : Obj.allTerminal xs = false) (hi : xs[i]? = some child)
      (h : LeafAt child loc value) : LeafAt (.tuple id xs) (.index i :: loc) value

variable {items : List (Key κ × Obj ι κ τ β)} {obj obj' child value value' v : Obj ι κ τ β}
  {step step' : Step κ} {loc loc' : List (Step κ)}

theorem lookup_setItem_self (k : Key κ) : (setItem items k v).lookup k = some v := by
  unfold setItem replaceItem
  induction items with
  | nil => simp
  | cons item items ih =>
    by_cases hk : item.1 = k
    · simp [hk]
    · have hne : (k == item.1) = false := by simpa using Ne.symm hk
      simp only [List.any_cons, hk, decide_false, Bool.false_or]
      split_ifs at ih ⊢ with hany
      · rw [List.map_cons, if_neg hk, List.lookup_cons, hne]
        exact ih
      · rw [List.cons_append, List.lookup_cons, hne]
        exact ih

theorem lookup_replaceItem_ne {k k' : Key κ} (h : k' ≠ k) :
    (replaceItem items k v).lookup k' = items.lookup k' := by
  unfold replaceItem
  induction items with
  | nil => rfl
  | cons item items ih =>
    rw [List.map_cons]
    split_ifs with hk
    · have hne : (k' == k) = false := by simpa using h
      rw [List.lookup_cons, List.lookup_cons, hk, hne, ih]
    · rw [List.lookup_cons, List.lookup_cons, ih]

theorem lookup_setItem_ne {k k' : Key κ} (h : k' ≠ k) :
    (setItem items k v).lookup k' = items.lookup k' := by
  unfold setItem
  split_ifs
  · exact lookup_replaceItem_ne h
  · have hne : (k' == k) = false := by simpa using h
    rw [List.lookup_append, List.lookup_cons, hne, List.lookup_nil, Option.or_none]

theorem child_putChild_self (h : obj.child step = some child) :
    (obj.putChild step v).child step = some v := by
  cases obj <;> cases step <;> simp only [Obj.child, reduceCtorEq] at h
  · obtain ⟨hlt, -⟩ := List.getElem?_eq_some_iff.1 h
    simp [Obj.putChild, Obj.child, hlt]
  · obtain ⟨hlt, -⟩ := List.getElem?_eq_some_iff.1 h
    simp [Obj.putChild, Obj.child, hlt]
  · exact lookup_setItem_self _

theorem child_putChild_ne (h : step' ≠ step) :
    (obj.putChild step v).child step' = obj.child step' := by
  cases obj <;> cases step <;> cases step' <;>
    simp only [Obj.putChild, Obj.child]
  · rw [List.getElem?_set_ne fun heq => h (congrArg Step.index heq.symm)]
  · rw [List.getElem?_set_ne fun heq => h (congrArg Step.index heq.symm)]
  · exact lookup_setItem_ne fun heq => h (congrArg Step.key heq)

/-- The first step on the way to a leaf. -/
theorem LeafAt.exists_child (h : LeafAt obj (step :: loc) value) (hobj : obj.WellFormed) :
    ∃ child, obj.child step = some child ∧ child.WellFormed ∧ LeafAt child loc value := by
  cases h with
  | key hmem h =>
    cases hobj with
    | mapping hkeys hitems =>
      exact ⟨_, (Dict.lookup_eq_some_iff hkeys).2 hmem, hitems _ hmem, h⟩
  | list hxs hi h =>
    cases hobj with
    | list hentries => exact ⟨_, hi, hentries _ (List.mem_of_getElem? hi), h⟩
  | tuple hxs hi h =>
    cases hobj with
    | tuple hentries => exact ⟨_, hi, hentries _ (List.mem_of_getElem? hi), h⟩

omit [DecidableEq κ] in
theorem LeafAt.ne_none (h : LeafAt obj (step :: loc) value) : obj ≠ .none := by
  rintro rfl
  cases h

omit [DecidableEq κ] in
theorem LeafAt.not_terminal (h : LeafAt obj (step :: loc) value) : obj.isTerminal = false := by
  cases h with
  | key hmem h => rfl
  | list hxs hi h => exact hxs
  | tuple hxs hi h => exact hxs

omit [DecidableEq κ] in
theorem LeafAt.isTerminal (h : LeafAt obj loc value) : value.isTerminal = true := by
  induction h with
  | here h => exact h
  | key _ _ ih => exact ih
  | list _ _ _ ih => exact ih
  | tuple _ _ _ ih => exact ih

theorem LeafAt.get (h : LeafAt obj loc value) (hobj : obj.WellFormed) :
    obj.get loc = some value := by
  induction loc generalizing obj with
  | nil =>
    cases h
    rfl
  | cons step loc ih =>
    obtain ⟨child, hchild, hwf, hleaf⟩ := h.exists_child hobj
    rw [Obj.get, hchild]
    exact ih hleaf hwf

/-- The way to a leaf does not go on to another. -/
theorem LeafAt.eq_of_le (h : LeafAt obj loc value) (h' : LeafAt obj loc' value')
    (hobj : obj.WellFormed) (hle : loc <+: loc') : loc = loc' := by
  induction loc generalizing obj loc' with
  | nil =>
    cases loc' with
    | nil => rfl
    | cons step loc' =>
      have hterm : obj.isTerminal = true := by
        cases h with
        | here h => exact h
      exact absurd (hterm.symm.trans h'.not_terminal) (by decide)
  | cons step loc ih =>
    cases loc' with
    | nil => exact absurd hle (by simp)
    | cons step' loc' =>
      obtain ⟨rfl, hrest⟩ := List.cons_prefix_cons.1 hle
      obtain ⟨child, hchild, hwf, hleaf⟩ := h.exists_child hobj
      obtain ⟨child', hchild', -, hleaf'⟩ := h'.exists_child hobj
      obtain rfl := Option.some.inj (hchild.symm.trans hchild')
      rw [ih hleaf hleaf' hwf hrest]

omit [DecidableEq κ] in
theorem leafAt_nil_iff : LeafAt obj [] value ↔ obj.isTerminal = true ∧ value = obj := by
  constructor
  · intro h
    cases h with
    | here h => exact ⟨h, rfl⟩
  · rintro ⟨h, rfl⟩
    exact .here h

/-- A way in two parts. -/
theorem get_append (obj : Obj ι κ τ β) (loc loc' : List (Step κ)) :
    obj.get (loc ++ loc') = (obj.get loc).bind fun inner => inner.get loc' := by
  induction loc generalizing obj with
  | nil => rfl
  | cons step loc ih =>
    rw [List.cons_append, Obj.get, Obj.get]
    cases obj.child step with
    | none => rfl
    | some child => exact ih child

theorem sizeOf_child (h : obj.child step = some child) : sizeOf child < sizeOf obj := by
  cases obj <;> cases step <;> simp only [Obj.child, reduceCtorEq] at h
  · have := List.sizeOf_lt_of_mem (List.mem_of_getElem? h)
    simp only [Obj.list.sizeOf_spec]
    omega
  · have := List.sizeOf_lt_of_mem (List.mem_of_getElem? h)
    simp only [Obj.tuple.sizeOf_spec]
    omega
  · have := List.sizeOf_lt_of_mem (Dict.mem_of_lookup h)
    simp only [Obj.mapping.sizeOf_spec, Prod.mk.sizeOf_spec] at this ⊢
    omega

theorem sizeOf_get (h : obj.get loc = some child) :
    loc = [] ∧ child = obj ∨ sizeOf child < sizeOf obj := by
  induction loc generalizing obj with
  | nil => exact .inl ⟨rfl, (Option.some.inj h).symm⟩
  | cons step loc ih =>
    rw [Obj.get] at h
    cases hchild : obj.child step with
    | none => simp [hchild] at h
    | some inner =>
      rw [hchild] at h
      have hlt := sizeOf_child hchild
      rcases ih h with ⟨-, rfl⟩ | hsize
      · exact .inr hlt
      · exact .inr (Nat.lt_trans hsize hlt)

/-- No object holds itself. -/
theorem eq_nil_of_get_self (h : obj.get loc = some obj) : loc = [] := by
  rcases sizeOf_get h with ⟨h, -⟩ | h
  · exact h
  · exact absurd h (Nat.lt_irrefl _)

omit [DecidableEq κ] in
theorem allTerminal_eq_false {xs : List (Obj ι κ τ β)} (hmem : child ∈ xs)
    (h : child.isTerminal = false) : Obj.allTerminal xs = false := by
  induction xs with
  | nil => cases hmem
  | cons x xs ih =>
    rcases List.mem_cons.1 hmem with rfl | hmem
    · cases child <;> simp_all [Obj.allTerminal]
    · have hrest := ih hmem
      cases x <;> simp [Obj.allTerminal, hrest]

omit [DecidableEq κ] in
theorem isTerminal_of_mem {xs : List (Obj ι κ τ β)} (h : Obj.allTerminal xs = true)
    (hmem : child ∈ xs) : child.isTerminal = true := by
  by_contra hopen
  have hxs := allTerminal_eq_false hmem (by simpa using hopen)
  exact absurd (h.symm.trans hxs) (by decide)

/-- A leaf of what stands at the end of a way. -/
theorem LeafAt.append (h : obj.get loc = some child) (hleaf : LeafAt child loc' value)
    (hopen : child.isTerminal = false) :
    LeafAt obj (loc ++ loc') value ∧ obj.isTerminal = false := by
  induction loc generalizing obj with
  | nil =>
    obtain rfl := Option.some.inj h
    exact ⟨hleaf, hopen⟩
  | cons step loc ih =>
    rw [Obj.get] at h
    cases hchild : obj.child step with
    | none => simp [hchild] at h
    | some inner =>
      rw [hchild] at h
      obtain ⟨hrest, hinner⟩ := ih h
      cases obj <;> cases step <;> simp only [Obj.child, reduceCtorEq] at hchild
      · have hxs := allTerminal_eq_false (List.mem_of_getElem? hchild) hinner
        exact ⟨.list hxs hchild hrest, hxs⟩
      · have hxs := allTerminal_eq_false (List.mem_of_getElem? hchild) hinner
        exact ⟨.tuple hxs hchild hrest, hxs⟩
      · exact ⟨.key (Dict.mem_of_lookup hchild) hrest, rfl⟩

/-- What a terminal object holds is terminal. -/
theorem isTerminal_of_get (h : obj.isTerminal = true) (hget : obj.get loc = some child) :
    child.isTerminal = true := by
  induction loc generalizing obj with
  | nil => exact Option.some.inj hget ▸ h
  | cons step loc ih =>
    rw [Obj.get] at hget
    cases hchild : obj.child step with
    | none => simp [hchild] at hget
    | some inner =>
      rw [hchild] at hget
      refine ih ?_ hget
      cases obj <;> cases step <;> simp only [Obj.child, reduceCtorEq] at hchild
      · exact isTerminal_of_mem h (List.mem_of_getElem? hchild)
      · exact isTerminal_of_mem h (List.mem_of_getElem? hchild)
      · cases h

/-- The last container on the way to a leaf. -/
theorem LeafAt.exists_holder (h : LeafAt obj (loc ++ [step]) value) (hobj : obj.WellFormed) :
    ∃ holder, obj.get loc = some holder ∧ holder.child step = some value ∧
      LeafAt holder [step] value := by
  induction loc generalizing obj with
  | nil =>
    obtain ⟨child, hchild, -, hleaf⟩ := h.exists_child hobj
    obtain rfl := (leafAt_nil_iff.1 hleaf).2
    exact ⟨obj, rfl, hchild, h⟩
  | cons first loc ih =>
    obtain ⟨child, hchild, hwf, hleaf⟩ := h.exists_child hobj
    obtain ⟨holder, hget, hrest⟩ := ih hleaf hwf
    exact ⟨holder, by rw [Obj.get, hchild]; exact hget, hrest⟩

/-! ### What is changed -/

section Changed

variable [DecidableEq ι] [DecidableEq τ] [DecidableEq β] {c : Change ι κ τ β}

omit [DecidableEq κ] in
theorem changed_of_identity (h : obj.identity = some c.object) : obj.changed c = c.after := by
  cases obj <;> simp only [Obj.identity, reduceCtorEq, Option.some.injEq] at h <;>
    rw [Obj.changed, if_pos h.symm]

omit [DecidableEq κ] in
theorem changedEntries_eq_map (xs : List (Obj ι κ τ β)) :
    Obj.changedEntries c xs = xs.map (Obj.changed c) := by
  induction xs with
  | nil => rfl
  | cons x xs ih => rw [Obj.changedEntries, ih, List.map_cons]

theorem lookup_changedItems (items : List (Key κ × Obj ι κ τ β)) (k : Key κ) :
    (Obj.changedItems c items).lookup k = (items.lookup k).map (Obj.changed c) := by
  induction items with
  | nil => rfl
  | cons item items ih =>
    obtain ⟨k', v⟩ := item
    rw [Obj.changedItems, List.lookup_cons, List.lookup_cons, ih]
    cases k == k' <;> rfl

theorem child_changed (h : obj.identity ≠ some c.object) (step : Step κ) :
    (obj.changed c).child step = (obj.child step).map (Obj.changed c) := by
  cases obj <;> simp only [Obj.identity, ne_eq, Option.some.injEq] at h
  case none => rfl
  case tensor => rw [Obj.changed, if_neg (Ne.symm h)]; rfl
  case leaf => rw [Obj.changed, if_neg (Ne.symm h)]; rfl
  all_goals
    rw [Obj.changed, if_neg (Ne.symm h)]
    cases step <;> simp only [Obj.child, changedEntries_eq_map, lookup_changedItems,
      List.getElem?_map, Option.map_none]

/-- What stands at the end of a way after a change: what the changed object has there if the way
leads through it, else what stood there, as it is afterwards. -/
theorem get_changed (h : obj.get loc = some value) :
    (∃ before rest holder, loc = before ++ rest ∧ obj.get before = some holder ∧
      holder.identity = some c.object ∧ (obj.changed c).get loc = c.after.get rest) ∨
    (∀ before rest holder, loc = before ++ rest → obj.get before = some holder →
      holder.identity ≠ some c.object) ∧ (obj.changed c).get loc = some (value.changed c) := by
  by_cases hid : obj.identity = some c.object
  · exact .inl ⟨[], loc, obj, rfl, rfl, hid, by rw [changed_of_identity hid]⟩
  · induction loc generalizing obj with
    | nil =>
      obtain rfl := Option.some.inj h
      refine .inr ⟨fun before rest holder hloc hget => ?_, rfl⟩
      obtain ⟨rfl, -⟩ := List.append_eq_nil_iff.1 hloc.symm
      exact Option.some.inj hget ▸ hid
    | cons step loc ih =>
      rw [Obj.get] at h
      cases hchild : obj.child step with
      | none => simp [hchild] at h
      | some child =>
        rw [hchild] at h
        have hstep : (obj.changed c).get (step :: loc) = (child.changed c).get loc := by
          rw [Obj.get, child_changed hid, hchild]
          rfl
        have hinto : ∀ before, obj.get (step :: before) = child.get before := fun before => by
          rw [Obj.get, hchild]
          rfl
        rw [hstep]
        by_cases hid' : child.identity = some c.object
        · refine .inl ⟨[step], loc, child, rfl, hinto [], hid', ?_⟩
          rw [changed_of_identity hid']
        · rcases ih h hid' with ⟨before, rest, holder, rfl, hget, hholder, hafter⟩ | ⟨hall, hafter⟩
          · exact .inl ⟨step :: before, rest, holder, rfl, (hinto _).trans hget, hholder, hafter⟩
          · refine .inr ⟨fun before rest holder hloc hget => ?_, hafter⟩
            cases before with
            | nil => exact Option.some.inj hget ▸ hid
            | cons first before =>
              obtain ⟨rfl, hrest⟩ := List.cons.inj hloc
              exact hall before rest holder hrest ((hinto before).symm.trans hget)

omit [DecidableEq κ] in
/-- Another object than the changed one stays empty or not there. -/
theorem changed_eq {id : ι} (hid : obj.identity ≠ some c.object)
    (h : v = .none ∨ v = .tuple id []) (heq : obj.changed c = v) : obj = v := by
  cases obj with
  | none => exact heq
  | tensor t =>
    rwa [Obj.changed, if_neg fun hobject => hid (congrArg some hobject.symm)] at heq
  | leaf b =>
    rwa [Obj.changed, if_neg fun hobject => hid (congrArg some hobject.symm)] at heq
  | list id' xs =>
    rw [Obj.changed, if_neg fun hobject => hid (congrArg some hobject.symm)] at heq
    rcases h with rfl | rfl <;> cases heq
  | tuple id' xs =>
    rw [Obj.changed, if_neg fun hobject => hid (congrArg some hobject.symm)] at heq
    rcases h with rfl | rfl
    · cases heq
    · simp only [Obj.tuple.injEq, changedEntries_eq_map, List.map_eq_nil_iff] at heq
      rw [heq.1, heq.2]
  | mapping id' items =>
    rw [Obj.changed, if_neg fun hobject => hid (congrArg some hobject.symm)] at heq
    rcases h with rfl | rfl <;> cases heq

/-- A terminal object that does not hold the changed one stays. -/
theorem changed_of_terminal (obj : Obj ι κ τ β) (h : obj.isTerminal = true)
    (hnot : ∀ loc inner, obj.get loc = some inner → inner.identity ≠ some c.object) :
    obj.changed c = obj := by
  have hself : ¬ obj.identity = some c.object := hnot [] obj rfl
  have hchild : ∀ step child, obj.child step = some child → ∀ loc inner,
      child.get loc = some inner → inner.identity ≠ some c.object := by
    intro step child hchild loc inner hget
    refine hnot (step :: loc) inner ?_
    rw [Obj.get, hchild]
    exact hget
  cases obj with
  | none => rfl
  | tensor t => exact if_neg fun hobject => hself (congrArg some hobject.symm)
  | leaf b => exact if_neg fun hobject => hself (congrArg some hobject.symm)
  | list id xs =>
    have hxs : ∀ x ∈ xs, x.changed c = x := fun x hx => by
      obtain ⟨i, hi⟩ := List.mem_iff_getElem?.1 hx
      exact changed_of_terminal x (isTerminal_of_mem h hx) (hchild (.index i) x hi)
    rw [Obj.changed, if_neg fun hobject => hself (congrArg some hobject.symm),
      changedEntries_eq_map, List.map_congr_left hxs, List.map_id']
  | tuple id xs =>
    have hxs : ∀ x ∈ xs, x.changed c = x := fun x hx => by
      obtain ⟨i, hi⟩ := List.mem_iff_getElem?.1 hx
      exact changed_of_terminal x (isTerminal_of_mem h hx) (hchild (.index i) x hi)
    rw [Obj.changed, if_neg fun hobject => hself (congrArg some hobject.symm),
      changedEntries_eq_map, List.map_congr_left hxs, List.map_id']
  | mapping id items => cases h
termination_by sizeOf obj

end Changed

/-! ### What is set -/

variable {new : ℕ → ι} {leafItems : LeafItems ι κ τ β} {c : Change ι κ τ β}
  {repr : κ → String} {path : List PathElement} {next : PathElement}

/-- A step that its element of the path leads back to. -/
def Step.Back : Step κ → Prop
  | .key k => ∃ s, k = .str s
  | .index _ => True

/-- The step that an element of a path leads to, in a mapping or in a list. -/
def Step.Walked (step : Step κ) (element : PathElement) : Prop :=
  step = .key element.key ∨ ∃ i, element = .index i ∧ step = .index i

omit [DecidableEq κ] in
theorem Step.Walked.str_eq {element : PathElement} (h : step.Walked element) :
    (step.pathElement repr).str = element.str := by
  rcases h with rfl | ⟨i, rfl, rfl⟩
  · cases element <;> rfl
  · rfl

omit [DecidableEq κ] in
theorem Step.Walked.back (h : step.Walked (step.pathElement repr)) : step.Back := by
  cases step with
  | index i => trivial
  | key k =>
    rcases h with h | ⟨i, h, -⟩
    · exact ⟨_, Step.key.inj h⟩
    · cases h

omit [DecidableEq κ] in
theorem str_eq_of_walked (h : List.Forall₂ Step.Walked loc path) :
    (loc.map (Step.pathElement repr)).map PathElement.str = path.map PathElement.str := by
  induction h with
  | nil => rfl
  | cons hwalked _ ih => simp only [List.map_cons, hwalked.str_eq, ih]

omit [DecidableEq κ] in
theorem back_of_walked (h : List.Forall₂ Step.Walked loc (loc.map (Step.pathElement repr))) :
    ∀ step ∈ loc, step.Back := by
  induction loc with
  | nil => exact nofun
  | cons step loc ih =>
    obtain ⟨hwalked, hrest⟩ := List.forall₂_cons.1 h
    exact List.forall_mem_cons.2 ⟨hwalked.back, ih hrest⟩

omit [DecidableEq κ] in
theorem extendList_of_getElem? {xs : List (Obj ι κ τ β)} {i : ℕ} (h : xs[i]? = some child) :
    extendList xs i = xs := by
  have hlt := (List.getElem?_eq_some_iff.1 h).1
  rw [extendList, Nat.sub_eq_zero_of_le hlt]
  exact List.append_nil _

/-- On the way through a child. -/
theorem setElement_cons (hback : step.Back) (h : obj.child step = some child)
    (hchild : child ≠ .none) :
    setElement new leafItems obj (step.pathElement repr :: next :: path) v =
      setElement new leafItems child (next :: path) v := by
  cases obj <;> cases step <;> simp only [Obj.child, reduceCtorEq] at h
  · rw [Step.pathElement, setElement, h]
    cases child <;> first | exact absurd rfl hchild | rfl
  · rw [Step.pathElement, setElement, h]
    cases child <;> first | exact absurd rfl hchild | rfl
  · obtain ⟨s, rfl⟩ := hback
    rw [Step.pathElement, Key.toStr, setElement, PathElement.key, h]

/-- Along the way to a leaf, its last container is set. -/
theorem setElement_holder (h : LeafAt obj (loc ++ [step]) value) (hobj : obj.WellFormed)
    (hback : ∀ step' ∈ loc, step'.Back) {holder : Obj ι κ τ β} (hget : obj.get loc = some holder) :
    setElement new leafItems obj ((loc ++ [step]).map (Step.pathElement repr)) v =
      setElement new leafItems holder [step.pathElement repr] v := by
  induction loc generalizing obj with
  | nil =>
    obtain rfl := Option.some.inj hget
    rfl
  | cons first loc ih =>
    obtain ⟨child, hchild, hwf, hleaf⟩ := h.exists_child hobj
    rw [List.forall_mem_cons] at hback
    rw [Obj.get, hchild] at hget
    rw [← ih hleaf hwf hback.2 hget]
    obtain ⟨next, rest, hrest⟩ : ∃ next rest, loc ++ [step] = next :: rest := by
      cases loc <;> exact ⟨_, _, rfl⟩
    have hnone : child ≠ .none := by
      rw [List.append_eq, hrest] at hleaf
      exact hleaf.ne_none
    rw [List.cons_append, hrest, List.map_cons, List.map_cons]
    exact setElement_cons hback.1 hchild hnone

/-- At the end of the way, in a container that is no tuple. -/
theorem setElement_last (hback : step.Back) (h : obj.child step = some child)
    (htuple : ∀ id xs, obj ≠ .tuple id xs) : ∃ i, obj.identity = some i ∧
      setElement new leafItems obj [step.pathElement repr] v = .ok ⟨i, obj.putChild step v⟩ := by
  cases obj <;> cases step <;> simp only [Obj.child, reduceCtorEq] at h
  · refine ⟨_, rfl, ?_⟩
    rw [Step.pathElement, setElement, extendList_of_getElem? h]
    rfl
  · exact absurd rfl (htuple _ _)
  · obtain ⟨s, rfl⟩ := hback
    exact ⟨_, rfl, rfl⟩

/-- In a tuple nothing is set. -/
theorem setElement_tuple {id : ι} {xs : List (Obj ι κ τ β)} :
    ∃ message, setElement new leafItems (.tuple id xs) [next] v = .error message := by
  cases next with
  | name s => exact ⟨_, rfl⟩
  | index i =>
    rw [setElement]
    split_ifs <;> exact ⟨_, rfl⟩

/-- What one call changes, `holder` at the end of `loc`: an object without items in it, or a
container, in which one child is replaced or made and the others stay. -/
structure Sets (obj : Obj ι κ τ β) (path : List PathElement) (v : Obj ι κ τ β)
    (c : Change ι κ τ β) (loc : List (Step κ)) (holder : Obj ι κ τ β) (step : Step κ)
    (rest : List PathElement) : Prop where
  get : obj.get loc = some holder
  identity : holder.identity = some c.object
  after : (∀ id xs, c.after ≠ .tuple id xs) ∧ c.after ≠ .none
  walked : ∃ front, path = front ++ rest ∧ List.Forall₂ Step.Walked (loc ++ [step]) front
  others : ∀ step' ≠ step, ∀ child, holder.child step' = some child →
    c.after.child step' = some child
  last : rest = [] → c.after.child step = some v
  made : rest ≠ [] → (holder.child step = none ∨ holder.child step = some .none) ∧
    ∃ inner, c.after.child step = some inner ∧ (∀ id xs, inner ≠ .tuple id xs) ∧ inner ≠ .none

/-- What a call of `set_element` does: it sets items of a tensor or of another object, or it sets a
container. -/
def Alters (obj : Obj ι κ τ β) (path : List PathElement) (v : Obj ι κ τ β)
    (c : Change ι κ τ β) : Prop :=
  (∃ loc t t', obj.get loc = some (.tensor t) ∧ c = ⟨.tensor t, .tensor t'⟩) ∨
  (∃ loc b b', obj.get loc = some (.leaf b) ∧ c = ⟨.leaf b, .leaf b'⟩) ∨
  ∃ loc holder step rest, Sets obj path v c loc holder step rest

theorem Alters.cons (h : Alters child path v c) {first : Step κ} {element : PathElement}
    (hwalked : first.Walked element) (hchild : obj.child first = some child) :
    Alters obj (element :: path) v c := by
  have hinto : ∀ loc, obj.get (first :: loc) = child.get loc := fun loc => by
    rw [Obj.get, hchild]
    rfl
  rcases h with ⟨loc, t, t', hget, rfl⟩ | ⟨loc, b, b', hget, rfl⟩ | ⟨loc, holder, step, rest, hset⟩
  · exact .inl ⟨first :: loc, t, t', (hinto loc).trans hget, rfl⟩
  · exact .inr (.inl ⟨first :: loc, b, b', (hinto loc).trans hget, rfl⟩)
  · obtain ⟨front, rfl, hfront⟩ := hset.walked
    exact .inr (.inr ⟨first :: loc, holder, step, rest,
      { hset with
        get := (hinto loc).trans hset.get
        walked := ⟨element :: front, rfl, .cons hwalked hfront⟩ }⟩)

omit [DecidableEq κ] in
theorem defVal_spec : (∀ id xs, defVal new (next :: path) v ≠ .tuple id xs) ∧
    defVal new (next :: path) v ≠ .none := by
  cases next <;> exact ⟨nofun, nofun⟩

/-- A mapping of which an item is set. -/
theorem alters_mapping {id : ι} {element : PathElement} {rest : List PathElement}
    {inner : Obj ι κ τ β} (hlast : rest = [] → inner = v)
    (hmade : rest ≠ [] → items.lookup element.key = none ∧ (∀ id xs, inner ≠ .tuple id xs) ∧
      inner ≠ .none) :
    Alters (.mapping id items) (element :: rest) v
      ⟨.container id, .mapping id (setItem items element.key inner)⟩ :=
  .inr <| .inr ⟨[], _, .key element.key, rest,
    { get := rfl
      identity := rfl
      after := ⟨nofun, nofun⟩
      walked := ⟨[element], rfl, .cons (.inl rfl) .nil⟩
      others := fun step' hne child hchild => by
        cases step' with
        | index i => cases hchild
        | key k =>
          rw [Obj.child, lookup_setItem_ne fun heq => hne (congrArg Step.key heq)]
          exact hchild
      last := fun hrest => (lookup_setItem_self _).trans (congrArg some (hlast hrest))
      made := fun hrest => ⟨.inl (hmade hrest).1, inner, lookup_setItem_self _, (hmade hrest).2⟩ }⟩

/-- A list of which an entry is set. -/
theorem alters_list {id : ι} {xs : List (Obj ι κ τ β)} {i : ℕ} {rest : List PathElement}
    {inner : Obj ι κ τ β} (hlast : rest = [] → inner = v)
    (hmade : rest ≠ [] → (xs[i]? = none ∨ xs[i]? = some .none) ∧
      (∀ id xs, inner ≠ .tuple id xs) ∧ inner ≠ .none) :
    Alters (.list id xs) (.index i :: rest) v
      ⟨.container id, .list id ((extendList xs i).set i inner)⟩ := by
  have hlength : i < (extendList xs i).length := by
    rw [extendList, List.length_append, List.length_replicate]
    omega
  have hself : ((extendList xs i).set i inner)[i]? = some inner := by
    rw [List.getElem?_set_self hlength]
  exact .inr <| .inr ⟨[], _, .index i, rest,
    { get := rfl
      identity := rfl
      after := ⟨nofun, nofun⟩
      walked := ⟨[.index i], rfl, .cons (.inr ⟨i, rfl, rfl⟩) .nil⟩
      others := fun step' hne child hchild => by
        cases step' with
        | key k => cases hchild
        | index j =>
          have hchild : xs[j]? = some child := hchild
          have hlt := (List.getElem?_eq_some_iff.1 hchild).1
          rw [Obj.child, List.getElem?_set_ne fun heq => hne (congrArg Step.index heq.symm),
            extendList, List.getElem?_append_left hlt, hchild]
      last := fun hrest => hself.trans (congrArg some (hlast hrest))
      made := fun hrest => ⟨(hmade hrest).1, inner, hself, (hmade hrest).2⟩ }⟩

theorem alters_of_setElement (h : setElement new leafItems obj path v = .ok c) :
    Alters obj path v c := by
  fun_induction setElement new leafItems obj path v
  -- the calls that raise
  all_goals first | cases h; done | skip
  case case2 =>
    obtain rfl := Except.ok.inj h
    exact alters_mapping (fun _ => rfl) (absurd rfl)
  case case4 =>
    obtain rfl := Except.ok.inj h
    exact alters_mapping (fun _ => rfl) (absurd rfl)
  case case5 hlookup ih => exact (ih h).cons (.inl rfl) hlookup
  case case6 hlookup =>
    obtain rfl := Except.ok.inj h
    exact alters_mapping nofun fun _ => ⟨hlookup, defVal_spec⟩
  case case7 =>
    obtain rfl := Except.ok.inj h
    exact alters_list (fun _ => rfl) (absurd rfl)
  case case8 hentry =>
    obtain rfl := Except.ok.inj h
    exact alters_list nofun fun _ => ⟨.inl hentry, defVal_spec⟩
  case case9 hentry =>
    obtain rfl := Except.ok.inj h
    exact alters_list nofun fun _ => ⟨.inr hentry, defVal_spec⟩
  case case10 hentry ih => exact (ih h).cons (.inr ⟨_, rfl, rfl⟩) hentry
  case case18 hentry ih => exact (ih h).cons (.inr ⟨_, rfl, rfl⟩) hentry
  case case22 t path v _ =>
    cases hitems : leafItems.tensor t path v with
    | error message => rw [hitems] at h; cases h
    | ok t' =>
      rw [hitems] at h
      exact .inl ⟨[], t, t', rfl, (Except.ok.inj h).symm⟩
  case case23 b path v _ =>
    cases hitems : leafItems.leaf b path v with
    | error message => rw [hitems] at h; cases h
    | ok b' =>
      rw [hitems] at h
      exact .inr (.inl ⟨[], b, b', rfl, (Except.ok.inj h).symm⟩)

end Ways

/-! ### The leaves -/

section Leaves

variable {obj value : Obj ι κ τ β} {items : List (Key κ × Obj ι κ τ β)} {xs : List (Obj ι κ τ β)}
  {loc : List (Step κ)}

/-- A leaf that is reached without a step. -/
theorem entry_of_terminal {before : List (Step κ)} {entry : List (Step κ) × Obj ι κ τ β}
    (h : obj.isTerminal = true) : entry ∈ [(before, obj)] ↔
      ∃ loc, entry.1 = before ++ loc ∧ LeafAt obj loc entry.2 := by
  rw [List.mem_singleton]
  constructor
  · rintro rfl
    exact ⟨[], (List.append_nil _).symm, .here h⟩
  · rintro ⟨loc, hloc, hleaf⟩
    cases loc with
    | nil =>
      rw [List.append_nil] at hloc
      exact Prod.ext hloc (leafAt_nil_iff.1 hleaf).2
    | cons step loc => exact absurd (h.symm.trans hleaf.not_terminal) (by decide)

mutual

/-- The traversal finds the leaves. -/
theorem mem_traverseObj (before : List (Step κ)) (obj : Obj ι κ τ β)
    {entry : List (Step κ) × Obj ι κ τ β} : entry ∈ obj.traverseObj id before ↔
      ∃ loc, entry.1 = before ++ loc ∧ LeafAt obj loc entry.2 := by
  obtain ⟨p, value⟩ := entry
  cases obj with
  | none => exact entry_of_terminal rfl
  | tensor t => exact entry_of_terminal rfl
  | leaf b => exact entry_of_terminal rfl
  | list id' xs =>
    rw [Obj.traverseObj]
    split_ifs with hxs
    · exact entry_of_terminal hxs
    · have hopen : Obj.allTerminal xs = false := by simpa using hxs
      rw [mem_traverseEntries before 0 xs]
      constructor
      · rintro ⟨j, child, hj, loc, hloc, hleaf⟩
        rw [Nat.zero_add] at hloc
        exact ⟨_, hloc, .list hopen hj hleaf⟩
      · rintro ⟨loc, hloc, hleaf⟩
        cases hleaf with
        | here h => exact absurd (hopen.symm.trans h) (by decide)
        | list _ hi h => exact ⟨_, _, hi, _, by rw [Nat.zero_add]; exact hloc, h⟩
  | tuple id' xs =>
    rw [Obj.traverseObj]
    split_ifs with hxs
    · exact entry_of_terminal hxs
    · have hopen : Obj.allTerminal xs = false := by simpa using hxs
      rw [mem_traverseEntries before 0 xs]
      constructor
      · rintro ⟨j, child, hj, loc, hloc, hleaf⟩
        rw [Nat.zero_add] at hloc
        exact ⟨_, hloc, .tuple hopen hj hleaf⟩
      · rintro ⟨loc, hloc, hleaf⟩
        cases hleaf with
        | here h => exact absurd (hopen.symm.trans h) (by decide)
        | tuple _ hi h => exact ⟨_, _, hi, _, by rw [Nat.zero_add]; exact hloc, h⟩
  | mapping id' items =>
    rw [Obj.traverseObj, mem_traverseItems before items]
    constructor
    · rintro ⟨item, hitem, loc, hloc, hleaf⟩
      exact ⟨_, hloc, .key hitem hleaf⟩
    · rintro ⟨loc, hloc, hleaf⟩
      cases hleaf with
      | here h => cases h
      | key hmem h => exact ⟨_, hmem, _, hloc, h⟩

theorem mem_traverseItems (before : List (Step κ)) (items : List (Key κ × Obj ι κ τ β))
    {entry : List (Step κ) × Obj ι κ τ β} :
    entry ∈ Obj.traverseItems id before items ↔ ∃ item ∈ items, ∃ loc,
      entry.1 = before ++ .key item.1 :: loc ∧ LeafAt item.2 loc entry.2 := by
  cases items with
  | nil => simp [Obj.traverseItems]
  | cons item items =>
    obtain ⟨k, v⟩ := item
    rw [Obj.traverseItems, List.mem_append, mem_traverseObj _ v, mem_traverseItems before items]
    simp only [List.mem_cons, exists_eq_or_imp, List.append_assoc, List.singleton_append, id]

theorem mem_traverseEntries (before : List (Step κ)) (i : ℕ) (xs : List (Obj ι κ τ β))
    {entry : List (Step κ) × Obj ι κ τ β} :
    entry ∈ Obj.traverseEntries id before i xs ↔ ∃ j child, xs[j]? = some child ∧ ∃ loc,
      entry.1 = before ++ .index (i + j) :: loc ∧ LeafAt child loc entry.2 := by
  cases xs with
  | nil => simp [Obj.traverseEntries]
  | cons v xs =>
    rw [Obj.traverseEntries, List.mem_append, mem_traverseObj _ v,
      mem_traverseEntries before (i + 1) xs]
    simp only [List.append_assoc, List.singleton_append, id]
    constructor
    · rintro (⟨loc, hloc, hleaf⟩ | ⟨j, child, hj, loc, hloc, hleaf⟩)
      · exact ⟨0, v, rfl, loc, hloc, hleaf⟩
      · exact ⟨j + 1, child, hj, loc, by rw [hloc, Nat.add_right_comm i 1 j]; rfl, hleaf⟩
    · rintro ⟨j, child, hj, loc, hloc, hleaf⟩
      cases j with
      | zero =>
        obtain rfl := Option.some.inj hj
        exact .inl ⟨loc, hloc, hleaf⟩
      | succ j =>
        exact .inr ⟨j, child, hj, loc, by rw [hloc, Nat.add_right_comm i 1 j]; rfl, hleaf⟩

end

mutual

/-- The elements of the path are read off the way. -/
theorem traverseObj_map (label : Step κ → α) (before : List (Step κ)) (obj : Obj ι κ τ β) :
    obj.traverseObj label (before.map label) =
      (obj.traverseObj id before).map fun entry => (entry.1.map label, entry.2) := by
  cases obj with
  | none => rfl
  | tensor t => rfl
  | leaf b => rfl
  | list id' xs =>
    rw [Obj.traverseObj, Obj.traverseObj]
    split_ifs
    · rfl
    · exact traverseEntries_map label before 0 xs
  | tuple id' xs =>
    rw [Obj.traverseObj, Obj.traverseObj]
    split_ifs
    · rfl
    · exact traverseEntries_map label before 0 xs
  | mapping _ items => exact traverseItems_map label before items

theorem traverseItems_map (label : Step κ → α) (before : List (Step κ))
    (items : List (Key κ × Obj ι κ τ β)) :
    Obj.traverseItems label (before.map label) items =
      (Obj.traverseItems id before items).map fun entry => (entry.1.map label, entry.2) := by
  cases items with
  | nil => rfl
  | cons item items =>
    obtain ⟨k, v⟩ := item
    have hfirst := traverseObj_map label (before ++ [.key k]) v
    rw [List.map_append, List.map_singleton] at hfirst
    rw [Obj.traverseItems, Obj.traverseItems, List.map_append, hfirst,
      traverseItems_map label before items]
    rfl

theorem traverseEntries_map (label : Step κ → α) (before : List (Step κ)) (i : ℕ)
    (xs : List (Obj ι κ τ β)) :
    Obj.traverseEntries label (before.map label) i xs =
      (Obj.traverseEntries id before i xs).map fun entry => (entry.1.map label, entry.2) := by
  cases xs with
  | nil => rfl
  | cons v xs =>
    have hfirst := traverseObj_map label (before ++ [.index i]) v
    rw [List.map_append, List.map_singleton] at hfirst
    rw [Obj.traverseEntries, Obj.traverseEntries, List.map_append, hfirst,
      traverseEntries_map label before (i + 1) xs]
    rfl

end

end Leaves

/-! ### Names -/

section Names

variable {repr : κ → String} {visits : List (List PathElement × Obj ι κ τ β)}

/-- The dict is flattened when no name is taken twice. -/
theorem foldlM_flatCopy (state flat : Flattened ι κ τ β)
    (hstate : (state.1.map Prod.fst).Nodup) : visits.foldlM flatCopy state = .ok flat ↔
      (state.1.map Prod.fst ++ visits.map fun visit => fqn visit.1).Nodup ∧
        flat = (state.1 ++ visits.map fun visit => (fqn visit.1, visit.2),
          state.2 ++ visits.map fun visit => (fqn visit.1, visit.1)) := by
  induction visits generalizing state with
  | nil => simpa [pure, Except.pure, hstate] using eq_comm
  | cons visit visits ih =>
    rw [List.foldlM_cons, flatCopy]
    split_ifs with htaken
    · refine iff_of_false (by simp [bind, Except.bind]) fun h => ?_
      refine (List.nodup_append.1 h.1).2.2 _ htaken _ ?_ rfl
      exact List.mem_cons_self
    · have hnext : ((state.1 ++ [(fqn visit.1, visit.2)]).map Prod.fst).Nodup := by
        rw [List.map_append]
        exact List.nodup_append.2 ⟨hstate, List.nodup_singleton _, fun name hname _ hsingle heq =>
          htaken (by
            rw [heq, List.mem_singleton.1 hsingle] at hname
            exact hname)⟩
      have hrest := ih (state.1 ++ [(fqn visit.1, visit.2)], state.2 ++ [(fqn visit.1, visit.1)])
        hnext
      simp only [bind, Except.bind]
      rw [hrest]
      simp

end Names

section Objects

variable [DecidableEq κ]

omit [DecidableEq κ] in
theorem mem_entryObjects {xs : List (Obj ι κ τ β)} {child inner : Obj ι κ τ β} (hmem : child ∈ xs)
    (h : inner ∈ child.objects) : inner ∈ Obj.entryObjects xs := by
  induction xs with
  | nil => cases hmem
  | cons x xs ih =>
    rw [Obj.entryObjects, List.mem_append]
    rcases List.mem_cons.1 hmem with rfl | hmem
    · exact .inl h
    · exact .inr (ih hmem)

omit [DecidableEq κ] in
theorem mem_itemObjects {items : List (Key κ × Obj ι κ τ β)} {k : Key κ} {child inner : Obj ι κ τ β}
    (hmem : (k, child) ∈ items) (h : inner ∈ child.objects) : inner ∈ Obj.itemObjects items := by
  induction items with
  | nil => cases hmem
  | cons item items ih =>
    obtain ⟨k', v⟩ := item
    rw [Obj.itemObjects, List.mem_append]
    rcases List.mem_cons.1 hmem with heq | hmem
    · obtain ⟨-, rfl⟩ := Prod.mk.inj heq
      exact .inl h
    · exact .inr (ih hmem)

/-- What stands at the end of a way is one of the objects. -/
theorem mem_objects_of_get {obj inner : Obj ι κ τ β} {loc : List (Step κ)}
    (h : obj.get loc = some inner) : inner ∈ obj.objects := by
  induction loc generalizing obj with
  | nil =>
    obtain rfl := Option.some.inj h
    cases obj <;> exact List.mem_cons_self
  | cons step loc ih =>
    rw [Obj.get] at h
    cases hchild : obj.child step with
    | none => simp [hchild] at h
    | some child =>
      rw [hchild] at h
      have hinner := ih h
      cases obj <;> cases step <;> simp only [Obj.child, reduceCtorEq] at hchild
      · exact List.mem_cons_of_mem _ (mem_entryObjects (List.mem_of_getElem? hchild) hinner)
      · exact List.mem_cons_of_mem _ (mem_entryObjects (List.mem_of_getElem? hchild) hinner)
      · exact List.mem_cons_of_mem _ (mem_itemObjects (Dict.mem_of_lookup hchild) hinner)

end Objects

/-- A nested state dict. Of one identity there is one object, at however many places it stands. -/
structure StateDict (ι κ τ β : Type) where
  dictId : ι
  items : List (Key κ × Obj ι κ τ β)
  wellFormed : (Obj.mapping dictId items).WellFormed
  shared : ∀ x ∈ (Obj.mapping dictId items).objects, ∀ y ∈ (Obj.mapping dictId items).objects,
    x.identity = y.identity → x = y

namespace StateDict

variable (root : StateDict ι κ τ β)

/-- The state dict as an object. -/
abbrev obj : Obj ι κ τ β := .mapping root.dictId root.items

/-- The leaves, each with the way to it. -/
def leaves : List (List (Step κ) × Obj ι κ τ β) := Obj.traverseItems id [] root.items

/-- The path of a leaf. -/
def path (repr : κ → String) (leaf : List (Step κ) × Obj ι κ τ β) : List PathElement :=
  leaf.1.map (Step.pathElement repr)

variable {root} {leaf : List (Step κ) × Obj ι κ τ β}

theorem mem_leaves : leaf ∈ root.leaves ↔ LeafAt root.obj leaf.1 leaf.2 := by
  have htraverse : root.leaves = root.obj.traverseObj id [] := rfl
  rw [htraverse, mem_traverseObj]
  simp

variable [DecidableEq κ] [DecidableEq ι] [DecidableEq τ] [DecidableEq β]

/-- Setting a value along the path of a leaf changes this leaf and no other. -/
def SetsOnly (root : StateDict ι κ τ β) (new : ℕ → ι) (leafItems : LeafItems ι κ τ β)
    (repr : κ → String) (leaf : List (Step κ) × Obj ι κ τ β) (v : Obj ι κ τ β) : Prop :=
  ∃ c, setElement new leafItems root.obj (path repr leaf) v = .ok c ∧
    (root.obj.changed c).get leaf.1 = some v ∧
    ∀ other ∈ root.leaves, other.1 ≠ leaf.1 → (root.obj.changed c).get other.1 = some other.2

/-- The way to a leaf leads over string keys only, and its last container is no tuple and stands at
no other place. -/
structure Addressable (root : StateDict ι κ τ β) (leaf : List (Step κ) × Obj ι κ τ β) : Prop where
  back : ∀ k, Step.key k ∈ leaf.1 → ∃ s, k = .str s
  noTuple : ∀ id xs, root.obj.get leaf.1.dropLast ≠ some (.tuple id xs)
  once : ∀ loc, root.obj.get loc = root.obj.get leaf.1.dropLast → loc = leaf.1.dropLast

variable {new : ℕ → ι} {leafItems : LeafItems ι κ τ β} {repr : κ → String} {v : Obj ι κ τ β}

omit [DecidableEq κ] [DecidableEq ι] [DecidableEq τ] [DecidableEq β] in
theorem forall_back_iff {loc : List (Step κ)} :
    (∀ step ∈ loc, step.Back) ↔ ∀ k, Step.key k ∈ loc → ∃ s, k = .str s := by
  constructor
  · exact fun h k hk => h _ hk
  · intro h step hstep
    cases step with
    | key k => exact h k hstep
    | index i => trivial

omit [DecidableEq ι] [DecidableEq τ] [DecidableEq β] in
/-- Two places of one identity hold the same object. -/
theorem eq_of_identity {loc loc' : List (Step κ)} {x y : Obj ι κ τ β}
    (hx : root.obj.get loc = some x) (hy : root.obj.get loc' = some y)
    (h : x.identity = y.identity) : x = y :=
  root.shared x (mem_objects_of_get hx) y (mem_objects_of_get hy) h

omit [DecidableEq ι] [DecidableEq τ] [DecidableEq β] in
/-- The last container on the way to a leaf, and the last step. -/
theorem exists_holder (h : leaf ∈ root.leaves) : ∃ loc step holder, leaf.1 = loc ++ [step] ∧
    root.obj.get loc = some holder ∧ holder.child step = some leaf.2 ∧
      LeafAt holder [step] leaf.2 := by
  have hleaf := mem_leaves.1 h
  have hne : leaf.1 ≠ [] := by
    intro hnil
    rw [hnil] at hleaf
    exact absurd (leafAt_nil_iff.1 hleaf).1 (by simp [Obj.isTerminal])
  have hlast := List.dropLast_append_getLast hne
  rw [← hlast] at hleaf
  obtain ⟨holder, hget, hholder⟩ := hleaf.exists_holder root.wellFormed
  exact ⟨_, _, holder, hlast.symm, hget, hholder⟩

omit [DecidableEq ι] [DecidableEq τ] [DecidableEq β] in
/-- Over string keys, and in a container that is no tuple, the last container is set. -/
theorem exists_setElement (h : leaf ∈ root.leaves) (hback : ∀ step ∈ leaf.1, step.Back)
    (htuple : ∀ id xs, root.obj.get leaf.1.dropLast ≠ some (.tuple id xs)) :
    ∃ loc step holder object, leaf.1 = loc ++ [step] ∧ root.obj.get loc = some holder ∧
      holder.child step = some leaf.2 ∧ LeafAt holder [step] leaf.2 ∧
      holder.identity = some object ∧ ∀ v, setElement new leafItems root.obj (path repr leaf) v =
        .ok ⟨object, holder.putChild step v⟩ := by
  obtain ⟨loc, step, holder, hloc, hget, hchild, hlast⟩ := exists_holder h
  have hleaf := mem_leaves.1 h
  rw [hloc] at hleaf hback
  rw [hloc, List.dropLast_concat, hget] at htuple
  obtain ⟨object, hobject⟩ : ∃ object, holder.identity = some object := by
    cases holder <;> first | exact ⟨_, rfl⟩ | cases hlast
  refine ⟨loc, step, holder, object, hloc, hget, hchild, hlast, hobject, fun v => ?_⟩
  obtain ⟨object', hobject', hset⟩ : ∃ i, holder.identity = some i ∧
      setElement new leafItems holder [step.pathElement repr] v = .ok ⟨i, holder.putChild step v⟩ :=
    setElement_last (hback step (by simp)) hchild fun id xs heq => htuple id xs (congrArg some heq)
  obtain rfl := Option.some.inj (hobject.symm.trans hobject')
  rw [path, hloc, setElement_holder hleaf root.wellFormed
    (fun step' hstep' => hback step' (List.mem_append_left _ hstep')) hget, hset]

/-- A container with leaves stands in no leaf. -/
theorem changed_leaf (h : leaf ∈ root.leaves) {c : Change ι κ τ β} {loc : List (Step κ)}
    {holder : Obj ι κ τ β} (hget : root.obj.get loc = some holder)
    (hid : holder.identity = some c.object) (hopen : holder.isTerminal = false) :
    leaf.2.changed c = leaf.2 := by
  have hleaf := mem_leaves.1 h
  refine changed_of_terminal _ hleaf.isTerminal fun inside inner hinner hinnerId => ?_
  have hall : root.obj.get (leaf.1 ++ inside) = some inner := by
    rw [get_append, hleaf.get root.wellFormed]
    exact hinner
  obtain rfl := eq_of_identity hall hget (hinnerId.trans hid.symm)
  exact absurd (hopen.symm.trans (isTerminal_of_get hleaf.isTerminal hinner)) (by decide)

/-- An addressable leaf is set, and no other. -/
theorem Addressable.setsOnly (h : leaf ∈ root.leaves) (haddr : root.Addressable leaf) :
    root.SetsOnly new leafItems repr leaf v := by
  obtain ⟨loc, step, holder, object, hloc, hget, hchild, hlast, hobject, hset⟩ :=
    exists_setElement h (forall_back_iff.2 haddr.back) haddr.noTuple
  have hleaf := mem_leaves.1 h
  have hopen := hlast.not_terminal
  have honce := haddr.once
  rw [hloc, List.dropLast_concat, hget] at honce
  -- the container stands at `loc` alone
  have hbefore : ∀ before inner, root.obj.get before = some inner →
      inner.identity = some object → before = loc := by
    intro before inner hinner hid
    obtain rfl := eq_of_identity hinner hget (hid.trans hobject.symm)
    exact honce before hinner
  refine ⟨_, hset v, ?_, fun other hother hne => ?_⟩
  · rcases get_changed (c := ⟨object, holder.putChild step v⟩) (hleaf.get root.wellFormed) with
      ⟨before, rest, inner, hsplit, hinner, hid, hafter⟩ | ⟨hnot, -⟩
    · obtain rfl := hbefore before inner hinner hid
      obtain rfl := List.append_cancel_left (hloc.symm.trans hsplit)
      rw [hafter, Obj.get, child_putChild_self hchild]
      rfl
    · exact absurd hobject (hnot loc [step] holder hloc hget)
  · have hother' := mem_leaves.1 hother
    rcases get_changed (c := ⟨object, holder.putChild step v⟩) (hother'.get root.wellFormed) with
      ⟨before, rest, inner, hsplit, hinner, hid, hafter⟩ | ⟨-, hafter⟩
    · obtain rfl := hbefore before inner hinner hid
      have hrest : holder.get rest = some other.2 := by
        have hall := hother'.get root.wellFormed
        rwa [hsplit, get_append, hget] at hall
      cases rest with
      | nil =>
        obtain rfl := Option.some.inj hrest
        exact absurd (hopen.symm.trans hother'.isTerminal) (by decide)
      | cons step' rest =>
        have hstep : step' ≠ step := by
          rintro rfl
          refine hne (hleaf.eq_of_le hother' root.wellFormed ?_).symm
          rw [hloc, hsplit]
          exact ⟨rest, by simp⟩
        rw [hafter, ← hrest, Obj.get, Obj.get, child_putChild_ne hstep]
    · rw [hafter, changed_leaf hother hget hobject hopen]

omit [DecidableEq κ] [DecidableEq ι] [DecidableEq τ] [DecidableEq β] in
/-- A value that no container changed in place is, other than the one that is there. -/
theorem exists_other (id : ι) (value : Obj ι κ τ β) :
    ∃ v, v ≠ value ∧ (v = .none ∨ v = .tuple id []) := by
  by_cases hnone : value = .none
  · exact ⟨.tuple id [], by rw [hnone]; exact nofun, .inr rfl⟩
  · exact ⟨.none, Ne.symm hnone, .inl rfl⟩

omit [DecidableEq ι] [DecidableEq τ] [DecidableEq β] in
/-- The place where the last container was found has the leaf's name, and so it is the leaf's. -/
theorem back_of_setsAt (h : leaf ∈ root.leaves)
    (hnames : (root.leaves.map fun leaf => fqn (path repr leaf)).Nodup)
    {before loc : List (Step κ)} {step : Step κ} {holder : Obj ι κ τ β}
    (hsplit : leaf.1 = before ++ [step]) (hget : root.obj.get loc = some holder)
    (hbefore : root.obj.get before = some holder)
    (hwalked : List.Forall₂ Step.Walked (loc ++ [step]) (path repr leaf)) :
    ∀ step ∈ leaf.1, step.Back := by
  obtain ⟨loc', step', holder', hloc, hget', -, hlast⟩ := exists_holder h
  obtain ⟨rfl, hsteps⟩ := List.append_inj' (hsplit.symm.trans hloc) rfl
  obtain rfl := List.singleton_inj.1 hsteps
  obtain rfl := Option.some.inj (hbefore.symm.trans hget')
  have hplace : (loc ++ [step], leaf.2) ∈ root.leaves :=
    mem_leaves.2 (hlast.append hget hlast.not_terminal).1
  have hname : fqn (path repr (loc ++ [step], leaf.2)) = fqn (path repr leaf) := by
    have hstr : (path repr (loc ++ [step], leaf.2)).map PathElement.str =
        (path repr leaf).map PathElement.str := str_eq_of_walked hwalked
    rw [fqn, fqn, hstr]
  have hsame := List.inj_on_of_nodup_map hnames hplace h hname
  rw [path, ← congrArg Prod.fst hsame] at hwalked
  rw [← congrArg Prod.fst hsame]
  exact back_of_walked hwalked

/-- A leaf that is set is found over string keys only. -/
theorem SetsOnly.back (h : leaf ∈ root.leaves)
    (hnames : (root.leaves.map fun leaf => fqn (path repr leaf)).Nodup)
    (hsets : ∀ v, root.SetsOnly new leafItems repr leaf v) : ∀ step ∈ leaf.1, step.Back := by
  have hleaf := mem_leaves.1 h
  have hvalue := hleaf.get root.wellFormed
  obtain ⟨v, hv, hkind⟩ := exists_other (new 0) leaf.2
  obtain ⟨c, hset, hget, -⟩ := hsets v
  have hstays : ∀ {inner : Obj ι κ τ β}, (∀ id xs, inner ≠ .tuple id xs) → inner ≠ .none →
      inner ≠ v := by
    rintro inner htuple hnone rfl
    rcases hkind with rfl | rfl
    · exact hnone rfl
    · exact htuple _ _ rfl
  rcases get_changed (c := c) hvalue with ⟨before, rest, inner, hsplit, hinner, hid, hafter⟩ |
    ⟨hnot, hafter⟩
  · rw [hafter] at hget
    have hrest : inner.get rest = some leaf.2 := by
      rwa [hsplit, get_append, hinner] at hvalue
    rcases alters_of_setElement hset with ⟨-, t, t', -, rfl⟩ | ⟨-, b, b', -, rfl⟩ |
      ⟨loc, holder, step, pathRest, hsets⟩
    · cases rest with
      | nil => exact absurd (Option.some.inj hget) (hstays nofun nofun)
      | cons step' rest => simp [Obj.get, Obj.child] at hget
    · cases rest with
      | nil => exact absurd (Option.some.inj hget) (hstays nofun nofun)
      | cons step' rest => simp [Obj.get, Obj.child] at hget
    · obtain rfl := eq_of_identity hinner hsets.get (hid.trans hsets.identity.symm)
      cases rest with
      | nil => exact absurd (Option.some.inj hget) (hstays hsets.after.1 hsets.after.2)
      | cons step' rest =>
        rw [Obj.get] at hget hrest
        by_cases hstep : step' = step
        · subst hstep
          by_cases hnil : pathRest = []
          · rw [hsets.last hnil] at hget
            obtain rfl := eq_nil_of_get_self hget
            obtain ⟨front, hfront, hwalked⟩ := hsets.walked
            rw [hnil, List.append_nil] at hfront
            subst hfront
            exact back_of_setsAt h hnames hsplit hsets.get hinner hwalked
          · obtain ⟨hchild, made, hmade, htuple, hnone⟩ := hsets.made hnil
            rw [hmade] at hget
            rcases hchild with hchild | hchild <;> rw [hchild] at hrest
            · cases hrest
            · cases rest with
              | nil => exact absurd (Option.some.inj hget) (hstays htuple hnone)
              | cons _ _ => cases hrest
        · cases hchild : inner.child step' with
          | none => rw [hchild] at hrest; cases hrest
          | some child =>
            rw [hsets.others step' hstep child hchild] at hget
            rw [hchild] at hrest
            exact absurd (Option.some.inj (hget.symm.trans hrest)) hv
  · rw [hafter] at hget
    have hself : leaf.2.identity ≠ some c.object :=
      hnot leaf.1 [] leaf.2 (List.append_nil _).symm hvalue
    exact absurd (changed_eq hself hkind (Option.some.inj hget)) (Ne.symm hv)

/-- In a tuple a leaf is not set. -/
theorem SetsOnly.noTuple (h : leaf ∈ root.leaves) (hback : ∀ step ∈ leaf.1, step.Back)
    (hsets : root.SetsOnly new leafItems repr leaf v) (id : ι) (xs : List (Obj ι κ τ β)) :
    root.obj.get leaf.1.dropLast ≠ some (.tuple id xs) := by
  obtain ⟨loc, step, holder, hloc, hget, -, -⟩ := exists_holder h
  have hleaf := mem_leaves.1 h
  rw [hloc] at hleaf hback
  rw [hloc, List.dropLast_concat, hget]
  intro heq
  obtain rfl := Option.some.inj heq
  obtain ⟨c, hset, -⟩ := hsets
  obtain ⟨message, herror⟩ : ∃ message, setElement new leafItems (.tuple id xs)
    [step.pathElement repr] v = .error message := setElement_tuple
  rw [path, hloc, setElement_holder hleaf root.wellFormed
    (fun step' hstep' => hback step' (List.mem_append_left _ hstep')) hget, herror] at hset
  cases hset

/-- What is set in a container is set wherever it stands. -/
theorem SetsOnly.once (h : leaf ∈ root.leaves) (hback : ∀ step ∈ leaf.1, step.Back)
    (hsets : ∀ v, root.SetsOnly new leafItems repr leaf v) (loc' : List (Step κ))
    (hplace : root.obj.get loc' = root.obj.get leaf.1.dropLast) : loc' = leaf.1.dropLast := by
  obtain ⟨loc, step, holder, object, hloc, hget, hchild, hlast, hobject, hset⟩ :=
    exists_setElement h hback (SetsOnly.noTuple h hback (hsets .none))
  rw [hloc, List.dropLast_concat, hget] at hplace
  rw [hloc, List.dropLast_concat]
  by_contra hne
  obtain ⟨v, hv, -⟩ := exists_other (new 0) leaf.2
  obtain ⟨c, hc, -, hothers⟩ := hsets v
  obtain rfl := Except.ok.inj ((hset v).symm.trans hc)
  have hopen := hlast.not_terminal
  -- the leaf at the other place
  have hother := (hlast.append hplace hopen).1
  have hkept := hothers (loc' ++ [step], leaf.2) (mem_leaves.2 hother) fun heq =>
    hne (List.append_cancel_right (heq.trans hloc))
  rcases get_changed (c := ⟨object, holder.putChild step v⟩) (hother.get root.wellFormed) with
    ⟨before, rest, inner, hsplit, hinner, hid, hafter⟩ | ⟨hnot, -⟩
  · obtain rfl := eq_of_identity hinner hget (hid.trans hobject.symm)
    have hvalue : inner.get rest = some leaf.2 := by
      have hall := hother.get root.wellFormed
      rwa [hsplit, get_append, hinner] at hall
    rcases List.eq_nil_or_concat rest with rfl | ⟨inside, last, rfl⟩
    · obtain rfl := Option.some.inj hvalue
      exact absurd (hopen.symm.trans hlast.isTerminal) (by decide)
    · rw [List.concat_eq_append] at hsplit hafter
      rw [← List.append_assoc] at hsplit
      obtain ⟨rfl, hsteps⟩ := List.append_inj' hsplit rfl
      obtain rfl := List.singleton_inj.1 hsteps
      rw [get_append, hinner] at hplace
      obtain rfl := eq_nil_of_get_self hplace
      rw [hafter, List.nil_append, Obj.get, child_putChild_self hchild] at hkept
      exact hv (Option.some.inj hkept)
  · exact hnot loc' [step] holder rfl hplace hobject

/-- All values are set where the leaf stands exactly when it is addressable. -/
theorem setsOnly_iff (h : leaf ∈ root.leaves)
    (hnames : (root.leaves.map fun leaf => fqn (path repr leaf)).Nodup) :
    (∀ v, root.SetsOnly new leafItems repr leaf v) ↔ root.Addressable leaf := by
  constructor
  · intro hsets
    have hback := SetsOnly.back h hnames hsets
    exact ⟨forall_back_iff.1 hback, SetsOnly.noTuple h hback (hsets .none),
      SetsOnly.once h hback hsets⟩
  · exact fun haddr v => haddr.setsOnly h

/-- A state dict that is flattened has distinct names, each of one leaf and its path, and a leaf is
set through its path, and no other is, exactly when it is addressable. -/
theorem flatten_setElement (new : ℕ → ι) (leafItems : LeafItems ι κ τ β) (repr : κ → String)
    (root : StateDict ι κ τ β) {flat : Flattened ι κ τ β}
    (h : flattenStateDict repr root.items = .ok flat) :
    (flat.2.map Prod.fst).Nodup ∧
      flat.1 = root.leaves.map (fun leaf => (fqn (path repr leaf), leaf.2)) ∧
      flat.2 = root.leaves.map (fun leaf => (fqn (path repr leaf), path repr leaf)) ∧
      ∀ leaf ∈ root.leaves,
        (∀ v, root.SetsOnly new leafItems repr leaf v) ↔ root.Addressable leaf := by
  have hvisits : Obj.traverseItems (Step.pathElement repr) [] root.items =
      root.leaves.map fun leaf => (path repr leaf, leaf.2) :=
    traverseItems_map (Step.pathElement repr) [] root.items
  have hstart : ((([], []) : Flattened ι κ τ β).1.map Prod.fst).Nodup := List.nodup_nil
  rw [flattenStateDict, hvisits, foldlM_flatCopy _ _ hstart] at h
  obtain ⟨hnodup, rfl⟩ := h
  have hnames : (root.leaves.map fun leaf => fqn (path repr leaf)).Nodup := by
    simpa [Function.comp_def] using hnodup
  refine ⟨?_, ?_, ?_, fun leaf hleaf => setsOnly_iff hleaf hnames⟩
  · simpa [Function.comp_def] using hnames
  · simp
  · simp

/-- No key is anything but a string or an integer. -/
def noRepr (k : Empty) : String := k.elim

/-- Items of a leaf cannot be set. -/
def noItems : LeafItems ℕ Empty ℕ Unit where
  tensor _ _ _ := .error "too many indices for tensor of dimension 0"
  leaf _ _ _ := .error "object does not support item assignment"

/-- `{"model": {"weight": tensor}}` -/
def modelDict : StateDict ℕ Empty ℕ Unit where
  dictId := 0
  items := [(.str "model", .mapping 1 [(.str "weight", .tensor 0)])]
  wellFormed := by
    refine .mapping (List.nodup_singleton _) fun item hitem => ?_
    obtain rfl := List.mem_singleton.1 hitem
    refine .mapping (List.nodup_singleton _) fun item hitem => ?_
    obtain rfl := List.mem_singleton.1 hitem
    exact .tensor 0
  shared := by simp [Obj.objects, Obj.itemObjects, Obj.identity]

theorem flatten_setElement_model : ∃ flat, flattenStateDict noRepr modelDict.items = .ok flat ∧
    (flat.2.map Prod.fst).Nodup ∧ ∀ leaf ∈ modelDict.leaves,
      (∀ v, modelDict.SetsOnly (· + 2) noItems noRepr leaf v) ↔ modelDict.Addressable leaf :=
  ⟨_, rfl, (flatten_setElement (· + 2) noItems noRepr modelDict rfl).1,
    (flatten_setElement (· + 2) noItems noRepr modelDict rfl).2.2.2⟩

/-- `{1: tensor}` -/
def intDict : StateDict ℕ Empty ℕ Unit where
  dictId := 0
  items := [(.int 1, .tensor 0)]
  wellFormed := by
    refine .mapping (List.nodup_singleton _) fun item hitem => ?_
    obtain rfl := List.mem_singleton.1 hitem
    exact .tensor 0
  shared := by simp [Obj.objects, Obj.itemObjects, Obj.identity]

/-- `{"pair": (tensor,)}` -/
def tupleDict : StateDict ℕ Empty ℕ Unit where
  dictId := 0
  items := [(.str "pair", .tuple 1 [.tensor 0])]
  wellFormed := by
    refine .mapping (List.nodup_singleton _) fun item hitem => ?_
    obtain rfl := List.mem_singleton.1 hitem
    refine .tuple fun x hx => ?_
    obtain rfl := List.mem_singleton.1 hx
    exact .tensor 0
  shared := by simp [Obj.objects, Obj.itemObjects, Obj.entryObjects, Obj.identity]

/-- `{"a": entries, "b": entries}` of one list `entries = [tensor]` -/
def sharedDict : StateDict ℕ Empty ℕ Unit where
  dictId := 0
  items := [(.str "a", .list 1 [.tensor 0]), (.str "b", .list 1 [.tensor 0])]
  wellFormed := by
    have hlist : (Obj.list 1 [.tensor 0] : Obj ℕ Empty ℕ Unit).WellFormed := by
      refine .list fun x hx => ?_
      obtain rfl := List.mem_singleton.1 hx
      exact .tensor 0
    refine .mapping (by decide) fun item hitem => ?_
    rcases List.mem_cons.1 hitem with rfl | hitem
    · exact hlist
    · obtain rfl := List.mem_singleton.1 hitem
      exact hlist
  shared := by simp [Obj.objects, Obj.itemObjects, Obj.entryObjects, Obj.identity]

/-- Below an integer key another item is made, in a tuple nothing can be set, and in a list that
stands twice two leaves are. -/
theorem not_setsOnly_int_tuple :
    (∃ flat, flattenStateDict noRepr intDict.items = .ok flat ∧
      ([.key (.int 1)], .tensor 0) ∈ intDict.leaves ∧
      ¬ intDict.SetsOnly (· + 2) noItems noRepr ([.key (.int 1)], .tensor 0) .none) ∧
    (∃ flat, flattenStateDict noRepr tupleDict.items = .ok flat ∧
      ([.key (.str "pair"), .index 0], .tensor 0) ∈ tupleDict.leaves ∧
      ¬ tupleDict.SetsOnly (· + 2) noItems noRepr
        ([.key (.str "pair"), .index 0], .tensor 0) .none) ∧
    ∃ flat, flattenStateDict noRepr sharedDict.items = .ok flat ∧
      ([.key (.str "a"), .index 0], .tensor 0) ∈ sharedDict.leaves ∧
      ¬ sharedDict.SetsOnly (· + 2) noItems noRepr
        ([.key (.str "a"), .index 0], .tensor 0) .none := by
  refine ⟨⟨_, rfl, List.mem_singleton.2 rfl, ?_⟩, ⟨_, rfl, List.mem_singleton.2 rfl, ?_⟩,
    ⟨_, rfl, List.mem_cons_self, ?_⟩⟩
  · rintro ⟨c, hset, hget, -⟩
    obtain rfl := Except.ok.inj hset
    cases hget
  · rintro ⟨c, hset, -⟩
    cases hset
  · rintro ⟨c, hset, -, hothers⟩
    obtain rfl := Except.ok.inj hset
    have hkept := hothers ([.key (.str "b"), .index 0], .tensor 0)
      (List.mem_cons_of_mem _ List.mem_cons_self) (by decide)
    cases hkept

end StateDict

end HyperParallel.Checkpoint.Nested
