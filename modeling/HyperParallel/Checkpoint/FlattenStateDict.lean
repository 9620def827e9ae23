import Mathlib.Data.List.Nodup
import Mathlib.Tactic.Common

/-!
# Flattened state dicts

`traverse_state_dict`, `flatten_state_dict` and `set_element` of
`core/distributed_checkpoint/utils.py`.

* `Obj`: a nested object, its containers with their identities; `Step`: a step into it;
* `Obj.traverseObj`, `flattenStateDict`: the leaves with their dotted names;
* `setElement`: the object that setting a value along a path changes in place;
* `Obj.changed`: an object after that, wherever it holds the one that is changed.
-/

namespace HyperParallel.Checkpoint.Nested

/-- A key of a mapping. `other` are those that neither are strings nor equal an integer. -/
inductive Key (κ : Type)
  | str (s : String)
  | int (n : Int)
  | other (k : κ)
  deriving DecidableEq, Repr

/-- An object of a state dict: `leaf` is anything that is no tensor, container or `None`. A container
has its identity, and one that is held in two places stands in both. -/
inductive Obj (ι κ τ β : Type)
  | none
  | tensor (t : τ)
  | leaf (b : β)
  | list (id : ι) (xs : List (Obj ι κ τ β))
  | tuple (id : ι) (xs : List (Obj ι κ τ β))
  | mapping (id : ι) (items : List (Key κ × Obj ι κ τ β))

/-- Which object it is; `None` cannot be changed and is not asked. -/
inductive Identity (ι τ β : Type)
  | container (id : ι)
  | tensor (t : τ)
  | leaf (b : β)
  deriving DecidableEq

/-- An element of a path: a string or an integer. -/
inductive PathElement
  | name (s : String)
  | index (i : ℕ)
  deriving DecidableEq, Repr

/-- `str` of an element of a path. -/
def PathElement.str : PathElement → String
  | name s => s
  | index i => toString i

/-- A step into a container. -/
inductive Step (κ : Type)
  | key (k : Key κ)
  | index (i : ℕ)
  deriving DecidableEq, Repr

variable {ι κ τ β : Type} {α : Type}

/-! ### The functions of the source -/

namespace Obj

mutual

/-- `_is_terminal` -/
def isTerminal : Obj ι κ τ β → Bool
  | .mapping _ _ => false
  | .list _ xs => allTerminal xs
  | .tuple _ xs => allTerminal xs
  | .none => true
  | .tensor _ => true
  | .leaf _ => true

/-- The entries of a list or a tuple: no tensors and no containers with something inside. -/
def allTerminal : List (Obj ι κ τ β) → Bool
  | [] => true
  | .tensor _ :: _ => false
  | x :: xs => isTerminal x && allTerminal xs

end

mutual

/-- `_traverse_obj`: the leaves, each with the path to it; a step is entered in the path as `label`
says. -/
def traverseObj (label : Step κ → α) (path : List α) :
    Obj ι κ τ β → List (List α × Obj ι κ τ β)
  | .mapping _ items => traverseItems label path items
  | .list id xs =>
    if allTerminal xs then [(path, .list id xs)] else traverseEntries label path 0 xs
  | .tuple id xs =>
    if allTerminal xs then [(path, .tuple id xs)] else traverseEntries label path 0 xs
  | .none => [(path, .none)]
  | .tensor t => [(path, .tensor t)]
  | .leaf b => [(path, .leaf b)]

/-- The items of a mapping. -/
def traverseItems (label : Step κ → α) (path : List α) :
    List (Key κ × Obj ι κ τ β) → List (List α × Obj ι κ τ β)
  | [] => []
  | (k, v) :: items =>
    traverseObj label (path ++ [label (.key k)]) v ++ traverseItems label path items

/-- The entries of a list or a tuple, from a position on. -/
def traverseEntries (label : Step κ → α) (path : List α) (i : ℕ) :
    List (Obj ι κ τ β) → List (List α × Obj ι κ τ β)
  | [] => []
  | v :: xs =>
    traverseObj label (path ++ [label (.index i)]) v ++ traverseEntries label path (i + 1) xs

end

end Obj

section Paths

variable (repr : κ → String)

/-- `str(k)` -/
def Key.toStr : Key κ → String
  | .str s => s
  | .int n => toString n
  | .other k => repr k

/-- What `_traverse_obj` adds to the path. -/
def Step.pathElement : Step κ → PathElement
  | .key k => .name (k.toStr repr)
  | .index i => .index i

/-- The dotted name of a path. -/
def fqn (path : List PathElement) : String := ".".intercalate (path.map PathElement.str)

/-- `fqn_names` and `mappings` -/
abbrev Flattened (ι κ τ β : Type) :=
  List (String × Obj ι κ τ β) × List (String × List PathElement)

/-- `flat_copy` -/
def flatCopy (state : Flattened ι κ τ β) (visit : List PathElement × Obj ι κ τ β) :
    Except String (Flattened ι κ τ β) :=
  let newFqn := fqn visit.1
  if newFqn ∈ state.1.map Prod.fst then
    .error ("Duplicate flattened FQN '" ++ newFqn ++ "' when converting nested state_dict; " ++
      "two different values map to the same dotted name.")
  else .ok (state.1 ++ [(newFqn, visit.2)], state.2 ++ [(newFqn, visit.1)])

/-- `flatten_state_dict`, with `traverse_state_dict` -/
def flattenStateDict (items : List (Key κ × Obj ι κ τ β)) : Except String (Flattened ι κ τ β) :=
  (Obj.traverseItems (Step.pathElement repr) [] items).foldlM flatCopy ([], [])

end Paths

/-- `extend_list` -/
def extendList (xs : List (Obj ι κ τ β)) (i : ℕ) : List (Obj ι κ τ β) :=
  xs ++ List.replicate (i + 1 - xs.length) .none

/-- The key that an element of a path is. -/
def PathElement.key : PathElement → Key κ
  | .name s => .str s
  | .index i => .int i

/-- The containers that `def_val` makes for the rest of a path, with the value in the last of them;
`new` is their identities. -/
def defVal (new : ℕ → ι) : List PathElement → Obj ι κ τ β → Obj ι κ τ β
  | [], v => v
  | .name s :: path, v => .mapping (new path.length) [(.str s, defVal new path v)]
  | .index i :: path, v => .list (new path.length) ((extendList [] i).set i (defVal new path v))

/-- What setting an element changes in place: an object, and what it is afterwards. -/
structure Change (ι κ τ β : Type) where
  object : Identity ι τ β
  after : Obj ι κ τ β

/-- What setting an item of a tensor, or of an object that is no container, makes of it. -/
structure LeafItems (ι κ τ β : Type) where
  tensor : τ → List PathElement → Obj ι κ τ β → Except String τ
  leaf : β → List PathElement → Obj ι κ τ β → Except String β

section Set

variable [DecidableEq κ]

/-- The items of a mapping with one of them replaced. -/
def replaceItem (items : List (Key κ × Obj ι κ τ β)) (k : Key κ) (v : Obj ι κ τ β) :
    List (Key κ × Obj ι κ τ β) :=
  items.map fun item => if item.1 = k then (k, v) else item

/-- `mapping[k] = v` -/
def setItem (items : List (Key κ × Obj ι κ τ β)) (k : Key κ) (v : Obj ι κ τ β) :
    List (Key κ × Obj ι κ τ β) :=
  if items.any (·.1 = k) then replaceItem items k v else items ++ [(k, v)]

/-- `set_element`. The loop goes into the containers that are there; the first that is missing is
made with all that follow, in the one that lacks it. -/
def setElement (new : ℕ → ι) (leafItems : LeafItems ι κ τ β) :
    Obj ι κ τ β → List PathElement → Obj ι κ τ β → Except String (Change ι κ τ β)
  | _, [], _ => .error "path must be non-empty"
  | .mapping id items, [.name s], v => .ok ⟨.container id, .mapping id (setItem items (.str s) v)⟩
  | .mapping id items, [.index i], v =>
    if items.length ≤ i then .error "'dict' object has no attribute 'append'"
    else .ok ⟨.container id, .mapping id (setItem items (.int i) v)⟩
  | .mapping id items, prevKey :: nextKey :: path, v =>
    match items.lookup prevKey.key with
    | some curContainer => setElement new leafItems curContainer (nextKey :: path) v
    | none =>
      .ok ⟨.container id, .mapping id (setItem items prevKey.key (defVal new (nextKey :: path) v))⟩
  | .list id xs, [.index i], v => .ok ⟨.container id, .list id ((extendList xs i).set i v)⟩
  | .list id xs, .index i :: nextKey :: path, v =>
    match xs[i]? with
    | none =>
      .ok ⟨.container id, .list id ((extendList xs i).set i (defVal new (nextKey :: path) v))⟩
    | some .none =>
      .ok ⟨.container id, .list id ((extendList xs i).set i (defVal new (nextKey :: path) v))⟩
    | some curContainer => setElement new leafItems curContainer (nextKey :: path) v
  | .list _ _, [.name _], _ => .error "list indices must be integers or slices, not str"
  | .list _ _, .name _ :: _ :: _, _ =>
    .error "'<=' not supported between instances of 'int' and 'str'"
  | .tuple _ _, [.name _], _ => .error "'tuple' object does not support item assignment"
  | .tuple _ xs, [.index i], _ =>
    if xs.length ≤ i then .error "'tuple' object has no attribute 'append'"
    else .error "'tuple' object does not support item assignment"
  | .tuple _ xs, .index i :: nextKey :: path, v =>
    match xs[i]? with
    | none => .error "'tuple' object has no attribute 'append'"
    | some .none => .error "'tuple' object does not support item assignment"
    | some curContainer => setElement new leafItems curContainer (nextKey :: path) v
  | .tuple _ _, .name _ :: _ :: _, _ =>
    .error "'<=' not supported between instances of 'int' and 'str'"
  | .none, [.name _], _ => .error "'NoneType' object does not support item assignment"
  | .none, _, _ => .error "object of type 'NoneType' has no len()"
  | .tensor t, path, v => (leafItems.tensor t path v).map fun t' => ⟨.tensor t, .tensor t'⟩
  | .leaf b, path, v => (leafItems.leaf b path v).map fun b' => ⟨.leaf b, .leaf b'⟩

end Set

/-! ### Objects in place -/

namespace Obj

/-- The identity of an object. -/
def identity : Obj ι κ τ β → Option (Identity ι τ β)
  | .none => .none
  | .tensor t => some (.tensor t)
  | .leaf b => some (.leaf b)
  | .list id _ => some (.container id)
  | .tuple id _ => some (.container id)
  | .mapping id _ => some (.container id)

section Changed

variable [DecidableEq ι] [DecidableEq τ] [DecidableEq β]

mutual

/-- An object after a change: the object that is changed is so wherever it is held. -/
def changed (c : Change ι κ τ β) : Obj ι κ τ β → Obj ι κ τ β
  | .none => .none
  | .tensor t => if c.object = .tensor t then c.after else .tensor t
  | .leaf b => if c.object = .leaf b then c.after else .leaf b
  | .list id xs => if c.object = .container id then c.after else .list id (changedEntries c xs)
  | .tuple id xs => if c.object = .container id then c.after else .tuple id (changedEntries c xs)
  | .mapping id items =>
    if c.object = .container id then c.after else .mapping id (changedItems c items)

/-- The entries of a list or a tuple. -/
def changedEntries (c : Change ι κ τ β) : List (Obj ι κ τ β) → List (Obj ι κ τ β)
  | [] => []
  | x :: xs => changed c x :: changedEntries c xs

/-- The items of a mapping. -/
def changedItems (c : Change ι κ τ β) :
    List (Key κ × Obj ι κ τ β) → List (Key κ × Obj ι κ τ β)
  | [] => []
  | (k, v) :: items => (k, changed c v) :: changedItems c items

end

end Changed

mutual

/-- An object and all that it holds. -/
def objects : Obj ι κ τ β → List (Obj ι κ τ β)
  | .none => [.none]
  | .tensor t => [.tensor t]
  | .leaf b => [.leaf b]
  | .list id xs => .list id xs :: entryObjects xs
  | .tuple id xs => .tuple id xs :: entryObjects xs
  | .mapping id items => .mapping id items :: itemObjects items

/-- The entries of a list or a tuple. -/
def entryObjects : List (Obj ι κ τ β) → List (Obj ι κ τ β)
  | [] => []
  | x :: xs => objects x ++ entryObjects xs

/-- The items of a mapping. -/
def itemObjects : List (Key κ × Obj ι κ τ β) → List (Obj ι κ τ β)
  | [] => []
  | (_, v) :: items => objects v ++ itemObjects items

end

end Obj

end HyperParallel.Checkpoint.Nested
