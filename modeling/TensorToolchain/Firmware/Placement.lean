import TensorToolchain.Keyed
import TensorToolchain.Text

/-!
# Placement of data in memory

Parameters are placed one after another, each aligned to its elements. Everything else shares an
arena: buffers of one storage start at the same place, and storages follow one another. Arguments
and results can be left out of the arena, and are then placed one after another themselves.
-/

namespace TensorToolchain.Firmware

structure EntryRef where
  (node index : Nat)
  deriving DecidableEq

/-- What an operator calls, and how many results that has. -/
structure Call where
  function : String
  results : Nat
  deriving DecidableEq

/-- What a node is: an argument of the graph, an operator, or something else. -/
inductive NodeKind where
  | argument
  | operator (call : Result Call)
  | other
  deriving Inhabited

structure Node where
  name : String
  kind : NodeKind
  inputs : List EntryRef
  deriving Inhabited

/-- An operator graph; `rows` gives the data entry of the first result of each node. -/
structure Graph where
  nodes : List Node
  (arguments rows : List Nat)
  results : List EntryRef
  types : Result (List String)
  shapes : Result (List (List Nat))
  storages : Result (List Int)

/-- The element types that the device knows: their names, bytes and descriptions. -/
def elementTypes : List (String × Nat × String) := [
  ("uint64", 8, "kDLUInt, 64, 1"), ("int64", 8, "kDLInt, 64, 1"), ("float32", 4, "kDLFloat, 32, 1"),
  ("uint32", 4, "kDLUInt, 32, 1"), ("int32", 4, "kDLInt, 32, 1"), ("uint16", 2, "kDLUInt, 16, 1"),
  ("int16", 2, "kDLInt, 16, 1"), ("uint8", 1, "kDLUInt, 8, 1"), ("int8", 1, "kDLInt, 8, 1")]

def elementType (name : String) : Result (Nat × String) :=
  match elementTypes.lookup name with
  | some t => .ok t
  | none => refuse .badValue ("Data type " ++ name ++ " is not supported")

structure Buffer where
  type : String
  dims : List Nat
  storage : Int
  width : Nat
  deriving DecidableEq, Inhabited

def Buffer.size (b : Buffer) : Nat := b.dims.foldl (· * ·) 1 * b.width

variable (g : Graph)

def Graph.buffer (r : EntryRef) : Result Buffer := do
  let row ← orFail .badIndex g.rows[r.node]?
  let entry := row + r.index
  let type ← orFail .badIndex (← g.types)[entry]?
  let dims ← orFail .badIndex (← g.shapes)[entry]?
  let storage ← orFail .badIndex (← g.storages)[entry]?
  let (width, _) ← elementType type
  return { type, dims, storage, width }

def identifier (name : String) : String := replaceIn ":" "_" name

def resultName (name : String) (index : Nat) : String := identifier name ++ "_" ++ toString index

def Graph.leaves (r : EntryRef) : Bool := g.results.contains r

def noOperation : String := "__nop"

def reshapeNode : String := "reshape_nop"

/-! ### Placement -/

def alignUp (offset width : Nat) : Nat := if offset % width != 0 then offset + (width - offset % width) else offset

structure Placed where
  buffer : Buffer
  offset : Nat
  deriving DecidableEq

def Placed.stop (p : Placed) : Nat := p.offset + p.buffer.size

def place (cursor : Nat) (b : Buffer) : Placed := ⟨b, alignUp cursor b.width⟩

def placeInOrder : Nat → List (String × Buffer) → List (String × Placed)
  | _, [] => []
  | cursor, (name, b) :: rest =>
    let p := place cursor b
    (name, p) :: placeInOrder p.stop rest

/-- Where the last of some buffers ends, no earlier than a cursor. -/
def stopOf (cursor : Nat) (placed : List Placed) : Nat := placed.foldl (fun _ p => p.stop) cursor

def storageStop (cursor : Nat) (buffers : List Buffer) : Nat :=
  buffers.foldl (fun stop b => max stop (place cursor b).stop) cursor

def storageStarts : Nat → List (Int × List Buffer) → List (Int × Nat)
  | _, [] => []
  | cursor, (storage, buffers) :: rest => (storage, cursor) :: storageStarts (storageStop cursor buffers) rest

def arenaStop : Nat → List (Int × List Buffer) → Nat
  | cursor, [] => cursor
  | cursor, (_, buffers) :: rest => arenaStop (storageStop cursor buffers) rest

def byStorage (buffers : List Buffer) : Keyed Int (List Buffer) :=
  buffers.foldl (fun m b => m.set b.storage ((m.get? b.storage).getD [] ++ [b])) {}

/-- What is kept inside the image. -/
structure Options where
  activations : Bool := true
  inputs : Bool := true
  outputs : Bool := true
  deriving DecidableEq

def Options.check (o : Options) : Result Unit := do
  require (!o.inputs || o.activations) .failedCheck "###Error: Static inputs are not allowed without activations."
  require (!o.outputs || o.activations) .failedCheck "###Error: Static outputs are not allowed without activations."

structure Placement where
  (weights activations inputs outputs : Keyed String Placed)
  (calls weightsSize activationsSize : Nat)

def parameterBuffers (params : List String) : Result (List (String × Buffer)) :=
  params.mapM fun key => do
    let node := g.nodes.findIdx (·.name == key)
    let buffer ← g.buffer ⟨node, 0⟩
    demand (g.arguments.all (· < g.nodes.length)) .badIndex
    return (identifier key, buffer)

def nodeBuffers (index : Nat) (node : Node) : Result (Option (List (String × Buffer))) := do
  match node.kind with
  | .argument => return none
  | .other => refuse .badValue "Only TVM ops are supported"
  | .operator call =>
    let call ← call
    if call.function == noOperation then
      require (node.name == reshapeNode) .failedCheck ("Unsupported __nop operator " ++ node.name ++ ".")
      require (call.results == 1) .failedCheck ""
      require (!g.leaves ⟨index, 0⟩) .failedCheck ""
      return none
    else
      let inside := (List.range call.results).filter fun i => !g.leaves ⟨index, i⟩
      some <$> inside.mapM fun i => do return (resultName node.name i, ← g.buffer ⟨index, i⟩)

/-- The buffers of arguments or results, which need a placed buffer before them. -/
def endBuffers (anchored : Bool) (ends : List (EntryRef × (Node → String))) : Result (List (String × Buffer)) :=
  ends.mapM fun (r, name) => do
    let node ← orFail .badIndex g.nodes[r.node]?
    let buffer ← g.buffer r
    demand anchored .unset
    return (name node, buffer)

/-- Place all data of a graph with the given parameters. Arguments in the arena come after the
parameters, so that there must be one; results in the arena come after parameters or placed
arguments. -/
def placeGraph (params : List String) (o : Options) : Result Placement := do
  let weights := placeInOrder 0 (← parameterBuffers g params)
  let calls := (← (g.nodes.zipIdx).mapM fun (n, i) => nodeBuffers g i n).filterMap id
  let activations := calls.flatten
  let free := g.arguments.filter fun a => !(g.nodes[a]?.any (params.contains ·.name))
  let inputs ← endBuffers g (!o.inputs || !params.isEmpty) (free.map fun a => (⟨a, 0⟩, (identifier ·.name)))
  let outputs ← endBuffers g (!o.outputs || !params.isEmpty || (!o.inputs && !inputs.isEmpty))
    (g.results.map fun r => (r, (resultName ·.name r.index)))
  let arena := byStorage ((activations ++ (if o.inputs then inputs else []) ++
    (if o.outputs then outputs else [])).map Prod.snd)
  let starts := storageStarts 0 arena.entries
  let inArena := fun buffers => buffers.map fun (name, b) =>
    (name, place ((starts.lookup b.storage).getD 0) b)
  return {
    weights := .ofList weights
    activations := .ofList (inArena activations)
    inputs := .ofList (if o.inputs then inArena inputs else placeInOrder 0 inputs)
    outputs := .ofList (if o.outputs then inArena outputs else placeInOrder 0 outputs)
    calls := calls.length
    weightsSize := stopOf 0 (weights.map Prod.snd)
    activationsSize := arenaStop 0 arena.entries }

end TensorToolchain.Firmware
