import TensorToolchain.Keyed
import TensorToolchain.Tensor.Argument

/-!
# Inputs and outputs of models

Which arguments of a graph are inputs, what they are filled with, and the greatest values of an
output.
-/

namespace TensorToolchain.CommandLine

open Number (Scalar)

def member (j : Json) (name : String) : Result Json :=
  match j with
  | .obj _ => orFail .missingKey (j.field? name)
  | _ => fail .badType

/-- An item of a JSON array, counted from the end if the position is negative. -/
def itemAt (j : Json) (position : Int) : Result Json :=
  match j with
  | .arr items =>
    let i := if position < 0 then position + items.length else position
    if 0 ≤ i then orFail .badIndex items[i.toNat]? else fail .badIndex
  | _ => fail .badType

structure InputInfo where (shape type : Json)

def inputsOf (graph : Json) (params : List String) : Result (Keyed String InputInfo) := do
  let arguments ← member graph "arg_nodes"
  let entries ← arguments.items.mapM fun argument => do
    let position := argument.integer
    let node ← itemAt (← member graph "nodes") position
    let name := (← member node "name").text
    if params.contains name then return none
    else
      let column := fun which => do
        let attributes ← member graph "attrs"
        itemAt (← itemAt (← member attributes which) 1) position
      return some (name, ⟨← column "shape", ← column "dltype"⟩)
  return .ofList (entries.filterMap id)

def inputsReport (inputs : Keyed String InputInfo) : Report :=
  .record [
    ("shapes", .list (inputs.entries.map fun (name, i) => .list [.text name, toReport i.shape])),
    ("dtypes", .list (inputs.entries.map fun (name, i) => .list [.text name, toReport i.type]))]

def filled (mode : String) (shape : List Nat) (type : String) : Result TypedTensor := do
  match mode with
  | "zeros" => return .constant (← ElementType.ofName type) shape (.int 0)
  | "ones" => return .constant (← ElementType.ofName type) shape (.int 1)
  | _ => refuse .command ("unknown fill-mode: " ++ mode)

def makeInputs (shapes : Keyed String (List Nat)) (types : Keyed String String)
    (given : Keyed String TypedTensor) (mode : String) : Result (List (String × TypedTensor)) := do
  given.keys.forM fun name =>
    require (shapes.contains name) .command
      ("the input tensor '" ++ name ++ "' is not in the graph. Expected inputs: '[" ++
        joined ", " (shapes.keys.map Text.quoted) ++ "]'")
  shapes.entries.mapM fun (name, shape) => do
    match given.get? name with
    | some tensor => return (name, tensor)
    | none => return (name, ← filled mode shape (← orFail .missingKey (types.get? name)))

/-! ### Greatest values -/

def lastReversed {α : Type} (count : Int) (items : List α) : List α :=
  let start := if count ≤ 0 then (-count).toNat else items.length - count.toNat
  (items.drop start).reverse

/-- The numbers of a row in ascending order, with their positions; undefined ones come last. -/
def sortedRow (row : List Scalar) : List (Nat × Scalar) :=
  (row.zipIdx.map fun (x, i) => (i, x)).mergeSort fun a b =>
    match a.2, b.2 with
    | .float x, .float y => x ≤ y || y.isNaN
    | x, y => !y.less x

def rowsOf (t : TypedTensor) : List (List Scalar) :=
  let width := t.shape.getLast?.getD 1
  let data := t.body.data.toList
  (List.range (data.length / max width 1)).map fun i => (data.drop (i * width)).take width

/-- The positions and the values of the greatest numbers in the first part of an array. -/
def topResults (output : TypedTensor) (count : Int) : Result TypedTensor := do
  match output.shape with
  | first :: second :: inner =>
    demand (first != 0) .badIndex
    let rows := (rowsOf output).map sortedRow
    let perPart := Tensor.volume (second :: inner.dropLast)
    let parts : List (List (List (Nat × Scalar))) :=
      if inner.isEmpty then (lastReversed count (rows.headD [])).map fun p => [[p]]
      else
        let own := rows.take perPart
        let size := perPart / max second 1
        lastReversed count ((List.range second).map fun i => (own.drop (i * size)).take size)
    let type := (ElementType.int 64).join output.type
    let cells := parts.flatten.flatten
    let labels := cells.map fun p => type.store (.int p.1)
    let values := cells.map (type.store ·.2)
    return ⟨type, ⟨2 :: parts.length :: inner, (labels ++ values).toArray⟩⟩
  | _ => fail .badIndex

end TensorToolchain.CommandLine
