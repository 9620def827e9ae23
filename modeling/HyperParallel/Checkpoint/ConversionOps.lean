import HyperParallel.Lib.Dict
import HyperParallel.Lib.Split

/-!
# Checkpoint conversion operations

`components/checkpoint/conversion_ops.py`: the operations that turn the tensors of a checkpoint
into those of the model, and their reverses.

* `Sections.concatenate`, `Sections.split`: `ConcatenateWithSections` and `Split`;
* `GqaLayout.group`, `GqaLayout.ungroup`: the rows of `InterleaveQKV` and `DeinterleaveQKV`;
* `GqaLayout.gateGroup`, `GqaLayout.gateUngroup`: those with a gate for every query head;
* `ConversionOp.convert`, `ConversionOp.reverseOp`.
-/

namespace HyperParallel.Conversion

/-- What an operation raises; `runtimeError` is one of PyTorch's. -/
inductive ConversionError
  | valueError (message : String)
  | keyError (pattern : String)
  | indexError
  | runtimeError
  deriving DecidableEq, Repr

variable {α : Type} [Zero α]

def ConversionError.torch {β : Type} : Option β → Except ConversionError β
  | some result => .ok result
  | none => .error .runtimeError

open ConversionError (torch)

/-- What has been collected for a pattern. -/
inductive Collected (α : Type) [Zero α]
  | tensor (t : Tensor α)
  | tensors (ts : List (Tensor α))

/-- `_single_tensor` -/
def singleTensor : Collected α → Except ConversionError (Tensor α)
  | .tensor t => .ok t
  | .tensors [t] => .ok t
  | .tensors _ => .error (.valueError "expected exactly one tensor per checkpoint pattern")

/-- `_single_tensor(input_dict[pattern])` -/
def collect (inputDict : List (String × Collected α)) (pattern : String) :
    Except ConversionError (Tensor α) :=
  match inputDict.lookup pattern with
  | some value => singleTensor value
  | none => .error (.keyError pattern)

/-- An axis counted from either end. -/
def axisOf (dim : ℤ) (rank : ℕ) : Option ℕ :=
  if 0 ≤ dim ∧ dim < rank then some dim.toNat
  else if -rank ≤ dim ∧ dim < 0 then some (dim + rank).toNat
  else none

/-! ### Sections -/

/-- The arguments of `ConcatenateWithSections` and `Split`. -/
structure Sections where
  sections : List ℕ
  dim : ℤ
  two_le : 2 ≤ sections.length
  pos : ∀ size ∈ sections, 0 < size

/-- A tuple of at least two numbers in a message. -/
def tupleText (sizes : List ℕ) : String := "(" ++ ", ".intercalate (sizes.map toString) ++ ")"

/-- `tensor.shape[dim]` -/
def sizeAt (dim : ℤ) (t : Tensor α) : Except ConversionError ℕ :=
  match axisOf dim t.shape.length with
  | some axis => .ok (t.shape.getD axis 0)
  | none => .error .indexError

/-- The sizes are compared, then the tensors concatenated. -/
def Sections.concatenate (s : Sections) (tensors : List (Tensor α)) :
    Except ConversionError (Tensor α) := do
  let actualSections ← tensors.mapM (sizeAt s.dim)
  if actualSections ≠ s.sections then
    throw (.valueError ("source sizes " ++ tupleText actualSections ++
      " do not match configured sections " ++ tupleText s.sections))
  torch do
    let axis ← axisOf s.dim (tensors.headD default).shape.length
    Tensor.catAlong tensors axis

def Sections.split (s : Sections) (t : Tensor α) : Except ConversionError (List (Tensor α)) :=
  match axisOf s.dim t.shape.length with
  | some axis => torch (t.splitAlong s.sections axis)
  | none => .error .indexError

/-! ### Grouped query attention -/

/-- The dimensions of a grouped projection. -/
structure GqaLayout where
  numKeyValueHeads : ℕ
  numKeyValueGroups : ℕ
  queryHeadDim : ℕ
  valueHeadDim : ℕ

/-- `t.flatten(0, n - 1)` -/
def flattenFront (t : Tensor α) (n : ℕ) : Option (Tensor α) :=
  t.reshape ((t.shape.take n).prod :: t.shape.drop n)

namespace GqaLayout

variable (g : GqaLayout)

/-- `_source_sections` -/
def sourceSections : List ℕ :=
  [g.numKeyValueHeads * g.numKeyValueGroups * g.queryHeadDim,
    g.numKeyValueHeads * g.queryHeadDim, g.numKeyValueHeads * g.valueHeadDim]

/-- `_group_sections` of `DeinterleaveQKV` -/
def groupSections : List ℕ :=
  [g.numKeyValueGroups * g.queryHeadDim, g.queryHeadDim, g.valueHeadDim]

/-- `_group_sections` of `DeinterleaveGateQKV` -/
def gateSections : List ℕ :=
  [g.numKeyValueGroups * g.queryHeadDim, g.queryHeadDim, g.valueHeadDim,
    g.numKeyValueGroups * g.queryHeadDim]

/-- The rows of a group one after the other, from parts with the given numbers of rows a head. -/
def groupParts (trailing : List ℕ) (parts : List (Tensor α × ℕ)) : Option (Tensor α) := do
  let grouped ← parts.mapM fun part => part.1.reshape (g.numKeyValueHeads :: part.2 :: trailing)
  flattenFront (← Tensor.catAlong grouped 1) 2

/-- The parts of every group. -/
def splitGroups (sections : List ℕ) (grouped : Tensor α) : Option (List (Tensor α)) := do
  let grouped ← grouped.reshape (g.numKeyValueHeads :: sections.sum :: grouped.shape.tail)
  grouped.splitAlong sections 1

/-- `InterleaveQKV.convert`, from the three parts -/
def group (query key value : Tensor α) : Option (Tensor α) :=
  g.groupParts query.shape.tail ([query, key, value].zip g.groupSections)

/-- `DeinterleaveQKV.convert`, to the three parts -/
def ungroup (grouped : Tensor α) : Option (List (Tensor α)) := do
  (← g.splitGroups g.groupSections grouped).mapM (flattenFront · 2)

/-- `InterleaveGateQKV.convert` -/
def gateGroup (queryGate key value : Tensor α) : Option (Tensor α) := do
  let trailing := queryGate.shape.tail
  let queryGate ← queryGate.reshape
    (g.numKeyValueHeads :: g.numKeyValueGroups :: 2 :: g.queryHeadDim :: trailing)
  g.groupParts trailing
    ([queryGate.select 2 0, key, value, queryGate.select 2 1].zip g.gateSections)

/-- `DeinterleaveGateQKV.convert` -/
def gateUngroup (grouped : Tensor α) : Option (List (Tensor α)) := do
  let trailing := grouped.shape.tail
  match ← g.splitGroups g.gateSections grouped with
  | [query, key, value, gate] =>
    let query ← query.reshape
      (g.numKeyValueHeads :: g.numKeyValueGroups :: g.queryHeadDim :: trailing)
    let gate ← gate.reshape
      (g.numKeyValueHeads :: g.numKeyValueGroups :: g.queryHeadDim :: trailing)
    let queryGate ← flattenFront (← query.stackPair gate 2) 4
    some [queryGate, ← flattenFront key 2, ← flattenFront value 2]
  | _ => none

end GqaLayout

/-! ### The operations -/

inductive ConversionOp
  | concatenateWithSections (s : Sections)
  | split (s : Sections)
  | interleaveQKV (g : GqaLayout) (sourceIsFused : Bool)
  | deinterleaveQKV (g : GqaLayout) (targetIsFused : Bool)
  | interleaveGateQKV (g : GqaLayout)
  | deinterleaveGateQKV (g : GqaLayout)

namespace ConversionOp

/-- `reverse_op` -/
def reverseOp : ConversionOp → ConversionOp
  | concatenateWithSections s => split s
  | split s => concatenateWithSections s
  | interleaveQKV g fused => deinterleaveQKV g fused
  | deinterleaveQKV g fused => interleaveQKV g fused
  | interleaveGateQKV g => deinterleaveGateQKV g
  | deinterleaveGateQKV g => interleaveGateQKV g

/-- `convert` -/
def convert (inputDict : List (String × Collected α)) (sources targets : List String) :
    ConversionOp → Except ConversionError (List (String × Tensor α))
  | concatenateWithSections s =>
    match targets with
    | [target] => do
      if sources.length ≠ s.sections.length then
        throw (.valueError
          "ConcatenateWithSections requires one source per section and one target")
      let tensors ← sources.mapM (collect inputDict)
      return [(target, ← s.concatenate tensors)]
    | _ => .error (.valueError
        "ConcatenateWithSections requires one source per section and one target")
  | split s =>
    match sources with
    | [source] => do
      if targets.length ≠ s.sections.length then
        throw (.valueError "Split requires one source and one target per section")
      let tensors ← s.split (← collect inputDict source)
      return Dict.update [] (targets.zip tensors)
    | _ => .error (.valueError "Split requires one source and one target per section")
  | interleaveQKV g sourceIsFused =>
    match targets with
    | [target] => do
      let parts ←
        if sourceIsFused then
          match sources with
          | [source] => do torch ((← collect inputDict source).splitAlong g.sourceSections 0)
          | _ => .error (.valueError "fused GQA projection requires exactly one source")
        else
          match sources with
          | [_, _, _] => sources.mapM (collect inputDict)
          | _ => .error (.valueError "separate GQA projection requires Q, K, and V sources")
      match parts with
      | [query, key, value] => return [(target, ← torch (g.group query key value))]
      | _ => .error .runtimeError
    | _ => .error (.valueError "grouped GQA projection requires exactly one target")
  | deinterleaveQKV g targetIsFused =>
    match sources with
    | [source] => do
      let parts ← torch (g.ungroup (← collect inputDict source))
      if targetIsFused then
        match targets with
        | [target] => return [(target, ← torch (Tensor.catAlong parts 0))]
        | _ => .error (.valueError "fused GQA projection requires exactly one target")
      else
        match targets with
        | [_, _, _] => return Dict.update [] (targets.zip parts)
        | _ => .error (.valueError "separate GQA projection requires Q, K, and V targets")
    | _ => .error (.valueError "ungrouping GQA projection requires exactly one source")
  | interleaveGateQKV g =>
    match sources, targets with
    | [_, _, _], [target] => do
      match ← sources.mapM (collect inputDict) with
      | [queryGate, key, value] => return [(target, ← torch (g.gateGroup queryGate key value))]
      | _ => .error .runtimeError
    | _, _ => .error (.valueError
        "gated GQA conversion requires Q/gate, K, V sources and one target")
  | deinterleaveGateQKV g =>
    match sources, targets with
    | [source], [_, _, _] => do
      let parts ← torch (g.gateUngroup (← collect inputDict source))
      return Dict.update [] (targets.zip parts)
    | _, _ => .error (.valueError
        "gated GQA reverse conversion requires one source and Q/gate, K, V targets")

end ConversionOp

end HyperParallel.Conversion
