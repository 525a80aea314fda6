import TensorToolchain.Firmware.Placement
import TensorToolchain.Tensor.Argument

/-!
# Sources of a firmware

The parts of the header and source files that hold the parameters, declare the buffers and run the
operators of a graph.
-/

namespace TensorToolchain.Firmware

/-! ### Quantization of arguments and results

A quantized buffer has a scale and a zero point, of one number each.
-/

open Number (Scalar)

/-- A scale or zero point: a row of numbers, a number alone, or nothing that is a number. -/
inductive Reading where
  | row (values : List Scalar)
  | single (value : Scalar)
  | other

structure Quantization where (scale zeroPoint : Result Reading)

/-- The quantization of the arguments that have one, and of the result: that of the first name that
is no argument. -/
def selectQuantization (given : Keyed String Quantization) (p : Placement) : Result (Keyed String Quantization) := do
  let inputs : List (String × Quantization) := p.inputs.keys.filterMap fun name => (given.get? name).map (name, ·)
  require (p.outputs.entries.length == 1) .failedCheck "Multiple outputs models are not yet supported."
  let output := given.entries.find? (!p.inputs.contains ·.1)
  return .ofList (inputs ++ (output.map fun entry => ("output", entry.2)).toList)

def quantizationOf (chosen : Keyed String Quantization) (p : Placement) (name : String) : Option Quantization :=
  match chosen.get? name with
  | some q => some q
  | none => if p.outputs.contains name then chosen.get? "output" else none

def numberText : Scalar → String
  | .int n => toString n
  | .float x => Number.readable x

def rowText (values : List Scalar) : String :=
  if values.any fun v => match v with | .float _ => true | .int _ => false then
    singleRow (values.map Scalar.approx)
  else integerRow (values.map fun v => match v with | .int n => n | .float _ => 0)

def Reading.isZero : Reading → Bool
  | single v => v.equal (.int 0)
  | _ => false

def quantizationText (name : String) (q : Quantization) : Result (Option (String × String)) := do
  let scale ← q.scale
  let zero ← q.zeroPoint
  match scale, zero with
  | .row scales, .row zeros =>
    require (scales.length == zeros.length) .failedCheck
      ("Inconsistent quantizations scale:" ++ rowText scales ++ " vs zero-point:" ++ rowText zeros)
    if scales.length == 1 then
      let own := name ++ "_quant"
      let list := fun values => .join (values.map fun v => numberText v ++ ", ")
      return some (own, "AI_STATIC float " ++ own ++ "_scale[1] = \x7b " ++ list scales ++ "\x7d;\n" ++
        "AI_STATIC int32_t " ++ own ++ "_zero_point[1] = \x7b " ++ list zeros ++ "\x7d;" ++
        "\nAI_STATIC ai_quantization_info " ++ own ++ " = \x7b\n" ++
        "  .scale = " ++ own ++ "_scale,\n" ++
        "  .zero_point = " ++ own ++ "_zero_point,\n" ++
        "  .dim = -1\n\x7d;\n")
    else return none
  | .row _, _ => fail .badType
  | s, z =>
    require s.isZero .failedCheck "Non-quantized tensor with scale != 0.0"
    require z.isZero .failedCheck "Non-quantized tensor with zero_point != 0"
    return none

/-- A graph with its data placed, ready to be written. -/
structure Image where
  name : String
  options : Options
  graph : Graph
  placement : Placement
  params : List (String × List UInt8)
  quantization : Keyed String Quantization

structure Part where
  header : String := ""
  source : String := ""
  deriving DecidableEq

def rule : String := .ofList (.replicate 60 '=')

/-! ### Parameters -/

def rowLength : Nat := 12

def byteText (b : UInt8) : String := "0x" ++ upperCase (hexByte b) ++ ", "

/-- Bytes in rows, given how many stand in the current one. -/
def byteRows : Nat → List UInt8 → String
  | _, [] => ""
  | count, b :: rest =>
    if count + 1 == rowLength then byteText b ++ "\n\t" ++ byteRows 0 rest
    else byteText b ++ byteRows (count + 1) rest

/-- The bytes of a parameter with the zeros in front of it, and where the next one can start. -/
def paddedBytes (cursor : Nat) (placed : Placed) (bytes : List UInt8) : List UInt8 × Nat :=
  (.replicate (placed.offset - cursor) 0 ++ bytes, max cursor placed.offset + placed.buffer.size)

def parameterBytes : Nat → List (String × Placed × List UInt8) → List (String × List UInt8)
  | _, [] => []
  | cursor, (key, placed, bytes) :: rest =>
    let (padded, next) := paddedBytes cursor placed bytes
    (key, padded) :: parameterBytes next rest

variable (m : Image)

def Image.placedParams : Result (List (String × Placed × List UInt8)) :=
  m.params.mapM fun (key, bytes) => do
    return (key, ← orFail .missingKey (m.placement.weights.get? (identifier key)), bytes)

def commentText (key : String) : String := "// \"" ++ key ++ "\": \n"

def bytesText (bytes : List UInt8) : String := "\t" ++ byteRows 0 bytes ++ "\n"

def Image.dataOpening : String := fillIn [("name", m.name)] "
#include \"@name@_data.h\"

const ai_ptr ai_@name@_data_weights_get (void)
\x7b
  AI_ALIGNED(8) static const __attribute__ ((section(\".nn_weights\"))) uint8_t s_@name@_weights[] = \x7b
"

def Image.dataClosing : String := fillIn [("name", m.name)] "  \x7d;
  return (const ai_ptr)s_@name@_weights;
\x7d
"

def Image.parameterData : Result Part := do
  let rows := (parameterBytes 0 (← m.placedParams)).map fun (key, bytes) => commentText key ++ bytesText bytes
  return {
    header := fillIn [("name", m.name), ("NAME", upperCase m.name)] "#ifndef __@NAME@_DATA_H_
#define __@NAME@_DATA_H_

#include \"ai_runtime_api.h\"

AI_API_ENTRY
const ai_ptr ai_@name@_data_weights_get (void);

#endif /* __@NAME@_DATA_H_ */
"
    source := m.dataOpening ++ .join rows ++ m.dataClosing }

/-! ### Opening and closing -/

def Image.opening : Part :=
  let p := m.placement
  let values := [
    ("name", m.name), ("NAME", upperCase m.name), ("inputs", toString p.inputs.entries.length),
    ("outputs", toString p.outputs.entries.length), ("bytes", toString p.activationsSize)]
  { header := fillIn values "#ifndef __AI_@NAME@_H__
#define __AI_@NAME@_H__

#include \"ai_runtime_api.h\"

#define _@NAME@_INPUTS_COUNT_ (@inputs@)
#define _@NAME@_OUTPUTS_COUNT_ (@outputs@)
#define _@NAME@_ACTIVATION_BYTES_ (@bytes@)
"
    source := fillIn values "#include <stdio.h>

#include \"dlpack/dlpack.h\"
#include \"tvm/runtime/c_runtime_api.h\"
#include \"@name@.h\"
#include \"@name@_data.h\"
" }

def toolVersion : String := "0.11.dev0"

def Image.closing (clock : String) : Part :=
  let p := m.placement
  let values := [
    ("name", m.name), ("clock", clock), ("tool", toolVersion), ("calls", toString p.calls),
    ("inputs", toString p.inputs.entries.length), ("outputs", toString p.outputs.entries.length),
    ("activations", toString p.activationsSize), ("weights", toString p.weightsSize)]
  let arena :=
    if m.options.activations then
      "AI_ALIGNED(8) __attribute__ ((section(\".@name@.nn_data_act\"))) uint8_t @name@_activations[@activations@];\n"
    else "AI_STATIC ai_ptr @name@_activations = NULL;"
  { header := "#endif /*__AI_" ++ upperCase m.name ++ "_H__*/ \n"
    source := fillIn values (arena ++ "
AI_API_ENTRY  __attribute__ ((section(\".nn_models\"))) ai_model_info @name@_network = \x7b
  .name = \"@name@\",
  .datetime = \"@clock@\",
  .revision = \"v1\",
  .tool_version = \"@tool@\",
  .api_version = \"1.0.0.0\",
  .n_nodes = @calls@,
  .n_inputs = @inputs@,
  .n_outputs = @outputs@,
  .activations_size = @activations@,
  .params_size = @weights@,
  .activations = @name@_activations,
  .inputs = _InputsList,
  .outputs = _OutputsList,
  .ai_get_params = &ai_@name@_data_weights_get,
  .ai_create = &ai_@name@_create,
  .ai_destroy = &ai_@name@_destroy,
  .ai_run = &ai_@name@_run
\x7d;
") }

/-! ### Buffers -/

def Image.bufferText (name : String) (b : Buffer) : Result String := do
  let (_, description) ← elementType b.type
  let quantization ←
    match quantizationOf m.quantization m.placement name with
    | some q => quantizationText name q
    | none => pure none
  let values := [
    ("name", name), ("rank", toString b.dims.length), ("dims", joined ", " (b.dims.map toString)),
    ("type", description),
    ("quantization", (quantization.map Prod.snd).getD ""),
    ("reference", (quantization.map ("&" ++ ·.1)).getD "NULL")]
  return fillIn values "AI_STATIC int64_t @name@_shape[@rank@] = \x7b@dims@\x7d;\x20
AI_STATIC int64_t @name@_strides[@rank@] = \x7b\x7d;\x20
@quantization@
AI_ALIGNED(8) AI_STATIC ai_tensor @name@ = \x7b
  .dltensor = \x7b
    .data = (ai_ptr)(NULL),
    .device = \x7bkDLCPU,0\x7d,
    .ndim = @rank@,
    .dtype = \x7b@type@\x7d,
    .shape = @name@_shape,
    .strides = @name@_strides,
    .byte_offset = 0
  \x7d,
  .quant = @reference@\x20
\x7d;\x20
"

def Image.bufferTexts (buffers : Keyed String Placed) (after : String) : Result String := do
  return .join (← buffers.entries.mapM fun (name, p) => do
    return (← m.bufferText name p.buffer) ++ after)

def heading (text : String) : String := unlines ["//", "// " ++ text, "//", ""]

def referenceList (name : String) (buffers : Keyed String Placed) : String :=
  "AI_STATIC ai_tensor * " ++ name ++ "[] = \x7b \n" ++ .join (buffers.keys.zipIdx.map fun (key, i) =>
      "  &" ++ key ++ ", // [" ++ toString i ++ "]\n") ++
    "\x7d; \n\n"

def Image.activationBuffers : Result Part := do
  let p := m.placement
  let inputs ← m.bufferTexts p.inputs "\n"
  let activations ← m.bufferTexts p.activations ""
  let outputs ← m.bufferTexts p.outputs "\n"
  return { source :=
    heading "Inputs:" ++ inputs ++ "\n" ++ referenceList "_InputsList" p.inputs ++
    heading "Activations:" ++ activations ++ "\n" ++
    heading "Outputs:" ++ outputs ++ "\n" ++ referenceList "_OutputsList" p.outputs }

def Image.parameterBuffers : Result Part := do
  return { source := "\n" ++ heading ("Weights: " ++ m.name) ++ (← m.bufferTexts m.placement.weights "") ++ "\n" }

/-! ### Functions -/

def Node.call? (n : Node) : Result (Option Call) :=
  match n.kind with
  | .argument => .ok none
  | .other => refuse .failedCheck "###Error: Only TVM ops are supported."
  | .operator call => do
    let call ← call
    return if call.function == noOperation then none else some call

def Image.network : Result Part := do
  let calls := (← m.graph.nodes.mapM Node.call?).filterMap id
  let prototype := fun c =>
    "TVM_DLL int32_t " ++ c.function ++ "(void * args, void * arg_type_ids, int32_t num_args); \n"
  return { source := "\n" ++ heading ("Network: " ++ m.name) ++ .join (calls.map prototype) ++ "\n" }

def activationText (name : String) (p : Placed) : String :=
  unlines [
    "", "  //", "  // " ++ name ++ ": storage_id:" ++ toString p.buffer.storage, "  //",
    "  " ++ name ++ ".dltensor.data = (ai_ptr)(activations + " ++ toString p.offset ++ ");", ""]

def weightText (name : String) (p : Placed) : String :=
  unlines [
    "  //", "  //  " ++ name, "  //",
    "  " ++ name ++ ".dltensor.data = (ai_ptr)(weights + " ++ toString p.offset ++ ");", ""]

def configureOpening : String := "
// @rule@
//   @name@_configure_@arena@
// @rule@
AI_STATIC AI_INLINE
ai_status @name@_configure_@arena@ (
  const ai_ptr @arena@
)
\x7b
  if (@arena@ == NULL) \x7b
    TVMAPISetLastError@gap@(\"Non-null @arena@ arena is required for this model.\");
    return AI_STATUS_ERROR;
  \x7d
"

def Image.initialization : Part :=
  let p := m.placement
  let start := fun arena gap =>
    fillIn [("name", m.name), ("rule", rule), ("arena", arena), ("gap", gap)] configureOpening
  let texts := fun f buffers =>
    .join (buffers.entries.map fun (name, b) => f name b)
  let finish := "\n  return AI_STATUS_OK;\n\x7d\n"
  { source :=
      start "activations" " " ++
      (if m.options.inputs then texts activationText p.inputs else "") ++
      texts activationText p.activations ++
      (if m.options.outputs then texts activationText p.outputs else "") ++ finish ++
      start "weights" "" ++ texts weightText p.weights ++ finish }

def Image.lifetime : Part :=
  let values := [("name", m.name), ("rule", rule)]
  { header := fillIn values "
AI_API_ENTRY
ai_status ai_@name@_create (
  const ai_ptr weights,
  const ai_ptr activations
);

AI_API_ENTRY
ai_status ai_@name@_destroy ();
"
    source := fillIn values "
// @rule@
//   ai_@name@_create
// @rule@
AI_API_ENTRY
ai_status ai_@name@_create(
  const ai_ptr weights,
  const ai_ptr activations
)
\x7b
  ai_status status = AI_STATUS_OK;
  status = @name@_configure_weights (weights);
  if (status != AI_STATUS_OK) \x7b
    return status;
  \x7d
  status = @name@_configure_activations (activations);
  if (status != AI_STATUS_OK) \x7b
    return status;
  \x7d
  return AI_STATUS_OK;
\x7d

// @rule@
//   ai_@name@_destroy
// @rule@
AI_API_ENTRY
ai_status ai_@name@_destroy ()
\x7b
  return AI_STATUS_OK;
\x7d
" }

/-! ### Running -/

/-- The name of the buffer that an operator reads, looking through nodes that only reshape. -/
def Graph.sourceName (g : Graph) : Nat → EntryRef → Result String
  | 0, _ => fail .runtime
  | fuel + 1, r => do
    let node ← orFail .badIndex g.nodes[r.node]?
    if let .argument := node.kind then return identifier node.name
    else if node.name == reshapeNode then g.sourceName fuel (← orFail .badIndex node.inputs[0]?)
    else return resultName node.name r.index

def argumentText (node : String) (index : Nat) (handle : String) : String :=
  let own := identifier node ++ "_arg"
  "  " ++ own ++ "s[" ++ toString index ++ "].v_handle = &" ++ handle ++ "; \n" ++
  "  " ++ own ++ "_type_ids[" ++ toString index ++ "] = kTVMNDArrayHandle; \n"

/-- What an operator reads from: a buffer of the image, or an argument of the network. -/
def Image.sourceHandle (r : EntryRef) : Result String := do
  let name ← m.graph.sourceName (m.graph.nodes.length + 1) r
  if m.placement.weights.contains name || m.placement.activations.contains name then
    return name ++ ".dltensor"
  else
    require (m.placement.inputs.contains name) .failedCheck ("Tensor " ++ name ++ " not registered ?")
    return "inputs[" ++ toString (m.placement.inputs.keys.findIdx (· == name)) ++ "]->dltensor"

/-- What an operator writes to: a buffer of the image, or a result of the network. -/
def Image.sinkHandle (name : String) : Result String := do
  if m.placement.activations.contains name then return name ++ ".dltensor"
  else
    require (m.placement.outputs.contains name) .failedCheck ""
    return "outputs[" ++ toString (m.placement.outputs.keys.findIdx (· == name)) ++ "]->dltensor"

def Image.callText (node : Node) (call : Call) : Result String := do
  let title := "  // \n  // " ++ call.function ++ "\n  // \n"
  if m.name == noOperation || m.name == "__copy" then return title
  else
    let own := identifier node.name ++ "_arg"
    let inputs := node.inputs.length
    let count := toString (inputs + call.results)
    let sources ← node.inputs.zipIdx.mapM fun (r, i) => do
      return argumentText node.name i (← m.sourceHandle r)
    let sinks ← (List.range call.results).mapM fun i => do
      return argumentText node.name (inputs + i) (← m.sinkHandle (resultName node.name i)) ++ "\n"
    let values := [("function", call.function), ("own", own), ("count", count)]
    return title ++ "  TVMValue " ++ own ++ "s[" ++ count ++ "]; \n" ++
      "  int32_t " ++ own ++ "_type_ids[" ++ count ++ "]; \n" ++
      .join sources ++ .join sinks ++
      fillIn values "
#if (_VERBOSE_ > 0)
  printf (\"  @function@  ... \\r\\n\");
#endif
  if (@function@ (@own@s, @own@_type_ids, @count@)) \x7b
    TVMAPISetLastError(\"Invalid handle\");
    return AI_STATUS_ERROR;
  \x7d
#if (_VERBOSE_ > 0)
  printf (\"  @function@  Done.\\r\\n\");
#endif
"

def Image.running : Result Part := do
  let values := [("name", m.name), ("rule", rule)]
  let calls ← m.graph.nodes.mapM fun node => do
    match ← node.call? with
    | none => return ""
    | some call => m.callText node call
  return {
    header := fillIn values "
AI_API_ENTRY
ai_status ai_@name@_run (
  ai_tensor *inputs[],
  ai_tensor *outputs[]
);
"
    source := fillIn values "
// @rule@
//   ai_@name@_run
// @rule@
AI_API_ENTRY
ai_status ai_@name@_run (
  ai_tensor *inputs[],
  ai_tensor *outputs[]
)
\x7b
" ++ .join calls ++ "\n\n  return AI_STATUS_OK;\n\x7d\n\n" }

/-! ### Requests for device images

A graph as it is given, with its parameters and options, and the report of where its data lies and
of the parts of its source.
-/

def EntryRef.ofJson (j : Json) : EntryRef := ⟨(j.item 0).integer.toNat, (j.item 1).integer.toNat⟩

def Call.ofJson (j : Json) : Result Call := do
  let attributes ← j.member "attrs"
  let function ← attributes.member "func_name"
  let results ← attributes.member "num_outputs"
  let results ←
    match results with
    | .str s => orFail .badValue (Text.readInt? s.toList)
    | other => pure other.integer
  return ⟨function.text, results.toNat⟩

def Node.ofJson (j : Json) : Result Node := do
  let name ← j.member "name"
  let op ← j.member "op"
  return {
    name := name.text
    kind := match op.text with
      | "null" => .argument
      | "tvm_op" => .operator (Call.ofJson j)
      | _ => .other
    inputs := (j.field "inputs").items.map .ofJson }

def graphMembers : List String := [
  "nodes", "arg_nodes", "node_row_ptr", "heads", "attrs", "metadata"]

def Graph.ofJson (j : Json) : Result Graph := do
  require (j.fields.all (graphMembers.contains ·.1)) .failedCheck ""
  let column := fun name => do
    let value ← (j.field "attrs").member name
    .ok (value.item 1).items
  return {
    nodes := ← (j.field "nodes").items.mapM Node.ofJson
    arguments := (j.field "arg_nodes").items.map (·.integer.toNat)
    rows := (j.field "node_row_ptr").items.map (·.integer.toNat)
    results := (j.field "heads").items.map .ofJson
    types := do return (← column "dltype").map Json.text
    shapes := do return (← column "shape").map fun s => s.items.map (·.integer.toNat)
    storages := do return (← column "storage_id").map Json.integer }

def Options.ofJson (j : Json) : Options :=
  let flag := fun name => ((j.field? name).map Json.isTrue).getD true
  ⟨flag "include_activations", flag "include_inputs", flag "include_outputs"⟩

def Reading.ofJson (type : ElementType) : Json → Reading
  | .arr xs => .row (xs.map fun x => type.store (numberOf x))
  | .int n => .single (.int n)
  | .float x => .single (.float x)
  | .bool b => .single (.int (if b then 1 else 0))
  | _ => .other

def Quantization.ofJson (j : Json) : Quantization := {
  scale := do return .ofJson (.float 32) (← j.member "scale")
  zeroPoint := do return .ofJson (.int 32) (← j.member "zero_point") }

def Image.ofJson (j : Json) : Result Image := do
  let options := .ofJson (j.field "options")
  options.check
  let params ← (j.field "params").fields.mapM fun (name, t) => do
    return (name, (← TypedTensor.ofJson t).encode)
  let params := params.mergeSort fun a b => a.1 ≤ b.1
  let graph ← Graph.ofJson (j.field "graph")
  let placement ← placeGraph graph (params.map Prod.fst) options
  let quantization ←
    match j.field? "quantization" with
    | none | some .null => pure {}
    | some q => selectQuantization (.ofList (q.fields.map fun (k, v) => (k, .ofJson v))) placement
  return {
    name := ((j.field? "name").map Json.text).getD "network"
    options, graph, placement, params, quantization }

def Image.part (name : String) : Result Part :=
  match name with
  | "params_data" => m.parameterData
  | "open" => .ok m.opening
  | "close" => .ok (m.closing "DATETIME")
  | "params_buffers" => m.parameterBuffers
  | "activation_buffers" => m.activationBuffers
  | "network" => m.network
  | "init" => .ok m.initialization
  | "create_destroy" => .ok m.lifetime
  | "run" => m.running
  | _ => fail .missingAttribute

def placedReport (buffers : Keyed String Placed) : Report :=
  .list (buffers.entries.map fun (name, p) => .list [.text name, .int p.offset, .int p.buffer.size])

def imageReport (j : Json) : Result Report := do
  let m ← Image.ofJson j
  let p := m.placement
  let parts ← (j.field "emit").items.mapM fun name => do
    let part ← m.part name.text
    .ok (name.text, toReport [part.header, part.source])
  return .record ([
    ("weights", placedReport p.weights), ("activations", placedReport p.activations),
    ("inputs", placedReport p.inputs), ("outputs", placedReport p.outputs),
    ("sizes", toReport [(p.calls : Int), p.weightsSize, p.activationsSize])] ++ parts)

end TensorToolchain.Firmware
