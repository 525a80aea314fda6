import TensorToolchain.Report

/-!
# Cycles, banks, blocks and requests

How many cycles an output element takes, how many cycles a block takes, and how many memory banks
the blocks of an operator need.
-/

namespace TensorToolchain.Npu

open Number (Scalar)

/-! ### Accelerator models

Height, width and depth of a block of a feature map, read from either of two memory layouts, and
rounding to multiples.

The figures of each configuration of the accelerator: the blocks it works in, the cycles it takes,
and the banks of its memory.
-/

def ceilDiv (a b : Int) : Result Int := if b == 0 then fail .zeroDivision else .ok ((a + b - 1).fdiv b)

def roundUp (a b : Int) : Result Int := do return (← ceilDiv a b) * b

/-- The least multiple of `n` from `x` on, by the rounded quotient. -/
def align (x n : Int) : Result Int := if n == 0 then fail .zeroDivision else .ok (-((-x).fdiv n) * n)

/-- A memory layout of a feature map: channels last, or bricks of sixteen channels. -/
inductive Layout where | channelsLast | bricks

/-- Any name but the one of the brick layout means channels last. -/
def Layout.ofName (name : String) : Layout := if name == "NHCWB16" then bricks else channelsLast

structure Shape where (height width depth : Int)

namespace Shape

/-- The shape of a block given by its dimensions in a layout; up to four dimensions are accepted
with channels last, missing ones count as one. -/
def ofDims (layout : Layout) (dims : List Int) : Result Shape :=
  match layout, dims with
  | .bricks, _ :: h :: c :: w :: b :: _ => .ok ⟨h, w, c * b⟩
  | .bricks, _ => fail .badIndex
  | .channelsLast, [_, h, w, d] | .channelsLast, [h, w, d] => .ok ⟨h, w, d⟩
  | .channelsLast, [h, w] => .ok ⟨h, w, 1⟩
  | .channelsLast, [h] => .ok ⟨h, 1, 1⟩
  | .channelsLast, _ => fail .missingAttribute

def roundUp (s unit : Shape) : Result Shape := do
  return ⟨← Npu.roundUp s.height unit.height, ← Npu.roundUp s.width unit.width, ← Npu.roundUp s.depth unit.depth⟩

def area (s : Shape) : Int := s.height * s.width

def dims (s : Shape) : List Int := [1, s.height, s.width, s.depth]

end Shape

/-- The dimensions of a block with channels last, brought into a layout. -/
def layoutBlock (block : List Int) : Layout → Result (List Int)
  | .channelsLast => .ok block
  | .bricks =>
    match block with
    | n :: h :: w :: c :: _ => .ok [n, h, 1 + (c - 1).fdiv 16, w, 16]
    | _ => fail .badIndex

/-! ### Models -/

/-- A number of cycles as an exact count of eighths. `whole` tells that it is counted in whole
cycles. -/
structure Cycles where
  eighths : Nat
  whole : Bool

def Cycles.ofNat (n : Nat) : Cycles := ⟨8 * n, true⟩

def Cycles.ofEighths (n : Nat) : Cycles := ⟨n, false⟩

def Cycles.max (a b : Cycles) : Cycles := if a.eighths < b.eighths then b else a

instance : ToReport Cycles where
  toReport c := if c.whole then .int (c.eighths / 8) else .float (.ofNat c.eighths / 8.0)

structure Model where
  (microBlock inputMicroBlock : Shape)
  (shortDelay longDelay : Nat)
  (clipCycles tableCycles : Cycles)
  (outputUnits totalBanks reservedBanks : Nat)
  (inputGranularity accumulatorGranularity : List (Int × Int))
  tableReserved : Bool

def model256 : Model where
  microBlock := ⟨2, 2, 8⟩
  inputMicroBlock := ⟨2, 2, 8⟩
  shortDelay := 2
  longDelay := 2
  clipCycles := .ofEighths 2
  tableCycles := .ofNat 1
  outputUnits := 8
  totalBanks := 48
  reservedBanks := 4
  inputGranularity := [(1, 8), (2, 8), (4, 16)]
  accumulatorGranularity := [(4, 16), (5, 20)]
  tableReserved := true

def model128 : Model := { model256 with
  microBlock := ⟨1, 2, 8⟩
  inputMicroBlock := ⟨1, 2, 8⟩
  longDelay := 3
  clipCycles := .ofEighths 4
  outputUnits := 4
  totalBanks := 24
  inputGranularity := [(1, 4), (2, 4), (4, 8)]
  accumulatorGranularity := [(4, 8), (5, 12)] }

def model64 : Model where
  microBlock := ⟨1, 1, 8⟩
  inputMicroBlock := ⟨1, 1, 8⟩
  shortDelay := 2
  longDelay := 3
  clipCycles := .ofNat 1
  tableCycles := .ofNat 1
  outputUnits := 2
  totalBanks := 16
  reservedBanks := 2
  inputGranularity := [(1, 2), (2, 2), (4, 4)]
  accumulatorGranularity := [(4, 4), (5, 8)]
  tableReserved := false

def model32 : Model := { model64 with
  microBlock := ⟨1, 1, 4⟩
  shortDelay := 3
  longDelay := 7
  tableCycles := .ofNat 2
  outputUnits := 1
  accumulatorGranularity := [(4, 4), (5, 4)] }

def models : List (String × Model) := [
  ("ethos-u55-256", model256), ("ethos-u55-128", model128), ("ethos-u55-64", model64),
  ("ethos-u55-32", model32)]

def modelOf (name : String) : Result Model := orFail .missingAttribute (models.lookup name)

def maxBlock : Shape := ⟨32, 64, 128⟩

def subkernelLimit : Int := 8

def bankBytes : Int := 1024

/-- Operator types as far as the figures tell them apart. -/
inductive OpType where | conv | depthwiseConv | depthwise | pooling | binaryElementwise | unaryElementwise | other
  deriving DecidableEq

def OpType.ofName : String → OpType
  | "ethosu_conv2d" => conv
  | "ethosu_depthwise_conv2d" => depthwiseConv
  | "ethosu_depthwise2d" => depthwise
  | "ethosu_pooling" => pooling
  | "ethosu_binary_elementwise" => binaryElementwise
  | "ethosu_unary_elementwise" => unaryElementwise
  | _ => other

/-- Element types as far as the figures tell them apart. -/
inductive ElementType where | int8 | int16 | int32 | other deriving DecidableEq

def ElementType.ofName : String → ElementType
  | "int8" => int8
  | "int16" => int16
  | "int32" => int32
  | _ => other

/-- Activations as far as the figures tell them apart. -/
inductive Activation where | clip | table | tanh | sigmoid | none deriving DecidableEq

def Activation.ofName : String → Activation
  | "CLIP" => clip
  | "LUT" => table
  | "TANH" => tanh
  | "SIGMOID" => sigmoid
  | _ => none

/-! ### Output cycles -/

variable (m : Model) (op : OpType)

/-- Cycles of one output element before they are shared by the output units. -/
def elementCycles (name : String) (ifm ofm : ElementType) : Nat :=
  match op with
  | .pooling => if name == "MAX" then 1 else if ifm == .int8 then 2 else 3
  | .conv | .depthwiseConv => if ifm == .int8 then 2 else 3
  | .binaryElementwise =>
    if name == "MIN" || name == "MAX" then 2
    else if name == "MUL" then 3
    else if name == "ADD" || name == "SUB" then
      if ofm == .int32 then (if ifm == .int32 then 3 else 4) else 6
    else 0
  | .unaryElementwise =>
    if name == "CLZ" then 2
    else if name == "SHL" || name == "SHR" then 3
    else if name == "LRELU" || name == "ABS" then 2
    else 0
  | _ => 0

/-- The least cycles of one output element that the memory bandwidth allows. -/
def bandwidthCycles (name : String) (ifm ofm : ElementType) : Cycles :=
  match op with
  | .binaryElementwise =>
    match ifm with
    | .int8 => if ofm == .int8 then .ofEighths 1 else .ofEighths 6
    | .int16 => if ofm == .int16 then .ofEighths 6 else .ofNat 1
    | _ => .ofEighths 12
  | .unaryElementwise =>
    match ifm with
    | .int16 => if name == "LRELU" || name == "ABS" then .ofEighths 4 else .ofEighths 2
    | .int32 => .ofNat 1
    | _ => .ofNat 0
  | _ => .ofNat 0

/-- The least cycles of one output element that an activation takes. -/
def Model.activationCycles : Activation → Cycles
  | .clip => m.clipCycles
  | .table | .tanh | .sigmoid => m.tableCycles
  | .none => .ofNat 0

def Model.outputCycles (name : String) (ifm ofm : ElementType) (activation : Activation) : Cycles :=
  let computed := Cycles.ofEighths (8 * elementCycles op name ifm ofm / m.outputUnits)
  (computed.max (m.activationCycles activation)).max (bandwidthCycles op name ifm ofm)

def delayCycles (model : Result Model) (op : OpType) (ifm : ElementType) : Result Int :=
  match op with
  | .conv | .depthwise | .pooling => do
    let m ← model
    return if ifm == .int16 then m.longDelay else m.shortDelay
  | _ => .ok 0

def weightDecoderCycles (model : Result Model) (op : OpType) : Result Int :=
  match op with
  | .conv | .depthwise => do return (32 * (← model).microBlock.depth).fdiv 8
  | _ => .ok 0

def Model.outputQuantum : Layout → List Int
  | .bricks => [1, m.microBlock.height, 1, m.microBlock.width, m.microBlock.depth]
  | .channelsLast => m.microBlock.dims

/-! ### Kernels and input blocks -/

def inputSize (output stride border upscaling : Int) : Result Int :=
  if upscaling == 0 then fail .zeroDivision
  else .ok (((output - 1) * stride + border).tdiv upscaling)

def dilatedKernelSize (kernel dilation : Int) : Int := (kernel - 1) * dilation + 1

/-- The parts of an extent that are at most as long as the limit. -/
def extents (n : Int) : List Int :=
  (List.range ((n + subkernelLimit - 1).fdiv subkernelLimit).toNat).map fun (i : Nat) =>
    min (n - i * subkernelLimit) subkernelLimit

def subkernels (height width : Int) : List (Int × Int) :=
  (extents height).flatMap fun y => (extents width).map fun x => (y, x)

def kernelSteps (height width : Int) (ifm : ElementType) (partKernel : Bool) : List Int :=
  match op with
  | .binaryElementwise => [1]
  | _ =>
    (subkernels height width).map fun (y, x) =>
      let elements := x * y
      if op == .conv && partKernel then
        if ifm == .int8 then (elements + 3).fdiv 4 else (elements + 1).fdiv 2
      else if op == .depthwiseConv then (elements + 3).fdiv 4
      else elements

def accumulatorWidth (ifm : ElementType) : Int := if ifm == .int16 && op != .pooling then 5 else 4

def ratio (a b : Int) : Result Float := do (← Scalar.div (.int a) (.int b)).toFloat

/-- Whether a kernel is better traversed in parts: it uses the multipliers better than going
through the depth first, or the input is shallow. -/
def isPartKernel (channels : Int) (ifm : ElementType) (kernelElements : Int) : Result Bool := do
  if op != .conv then return false
  let depthFirst ← ratio channels (← roundUp channels (if ifm == .int8 then 32 else 16))
  let channelUse ← ratio channels (← roundUp channels 8)
  let kernelUse ← ratio kernelElements (← roundUp kernelElements (if ifm == .int8 then 4 else 2))
  return depthFirst < channelUse * kernelUse || channels ≤ 8

structure InputWindow where (strideHeight strideWidth kernelHeight kernelWidth upscaling : Int)

def inputDepth (ifm : ElementType) (partKernel : Bool) (outputDepth depth : Int) : Result Int :=
  match op, ifm with
  | .conv, .int8 => align (min (if partKernel then 32 else 16) depth) 8
  | .conv, .int16 => align (min 16 depth) 4
  | .conv, _ => align (min 8 depth) 2
  | _, _ => .ok outputDepth

def Model.inputBlock (output input : Shape) (ifm : ElementType) (op : OpType)
    (partKernel : Bool) (w : InputWindow) : Result Shape := do
  let height ← inputSize output.height w.strideHeight (min w.kernelHeight subkernelLimit) w.upscaling
  let width ← inputSize output.width w.strideWidth (min w.kernelWidth subkernelLimit) w.upscaling
  let depth ← inputDepth op ifm partKernel output.depth input.depth
  return ⟨← align height m.microBlock.height, ← align width m.microBlock.width, depth⟩

/-! ### Banks -/

def banksFor (bytes granularity : Int) : Result Int := do
  roundUp ((← ceilDiv bytes bankBytes) * 2) granularity

def inputBanks (model : Result Model) (block : Shape) (byteWidth : Int) : Result Int := do
  let bytes := block.area * (← align (block.depth * byteWidth) 8)
  banksFor bytes (← orFail .missingKey ((← model).inputGranularity.lookup byteWidth))

def accumulatorBanks (model : Result Model) (block : Shape) (byteWidth : Int) : Result Int := do
  let depth ← roundUp block.depth 8
  let bytes := block.area * (← align depth 8) * byteWidth
  banksFor bytes (← orFail .missingKey ((← model).accumulatorGranularity.lookup byteWidth))

def subkernelCycles (decoder delay planes layers steps : Int) : Int :=
  let repeats := if op == .pooling then 1 else steps
  let base := max decoder (4 * planes) * repeats * layers
  if planes == 1 then
    if layers == 1 then base + delay * steps
    else if 1 < steps then base + delay * (steps - 1) * layers
    else base
  else base

def Model.computeCycles (block input : Shape)
    (kernelHeight kernelWidth channels : Int) (ifm : ElementType) (partKernel : Bool) : Result Int := do
  let across ← ceilDiv block.width m.microBlock.width
  let down ← ceilDiv block.height m.microBlock.height
  let layers ← ceilDiv block.depth m.microBlock.depth
  let steps := kernelSteps op kernelHeight kernelWidth ifm partKernel
  let decoder ← weightDecoderCycles (.ok m) op
  let delay ← delayCycles (.ok m) op ifm
  let total := (steps.map (subkernelCycles op decoder delay (across * down) layers)).foldl (· + ·) 0
  let passes ← if partKernel then ceilDiv input.depth 8 else .ok 1
  let total := total * passes
  if op == .conv then return total * (← ceilDiv channels input.depth) else return total

/-! ### Blocks of elementwise operators

The output block of an elementwise operator starts as large as the accelerator allows and is halved,
first in height, then in width, then in depth, until the blocks of both inputs fit into the free
memory banks.
-/

/-- A block configuration: the input block, the output block in its layout, and their cycles. -/
structure BlockConfig where
  (input output : List Int)
  (computeCycles outputCycles : Int)

inductive Axis where | height | width | depth

def Shape.get (s : Shape) : Axis → Int
  | .height => s.height
  | .width => s.width
  | .depth => s.depth

def Shape.set (s : Shape) (axis : Axis) (n : Int) : Shape :=
  match axis with
  | .height => { s with height := n }
  | .width => { s with width := n }
  | .depth => { s with depth := n }

structure Elementwise where
  op : OpType
  name : String
  activation : Activation
  outputShape : List Int
  (outputLayout inputLayout secondLayout : Layout)
  (ifm ofm : ElementType)
  /-- The first input block that an output block needs. -/
  first : List Int → List Int
  /-- The second input block, if there is a second input. -/
  second : Option (List Int → List Int)

def ElementType.bytes : ElementType → Int
  | int8 => 1
  | int16 => 2
  | _ => 4

def Model.freeBanks (activation : Activation) : Int :=
  (m.totalBanks : Int) - m.reservedBanks - (if activation == .table && !m.tableReserved then 2 else 0)

def Elementwise.outputExtent (e : Elementwise) : Result Shape :=
  match e.outputLayout, e.outputShape with
  | .bricks, _ :: h :: c :: w :: _ => .ok ⟨h, w, c * 16⟩
  | .channelsLast, _ :: h :: w :: c :: _ => .ok ⟨h, w, c⟩
  | _, _ => fail .badIndex

def Model.startBlock (extent : Shape) : Result Shape :=
  Shape.roundUp ⟨min extent.height maxBlock.height, min extent.width maxBlock.width,
    min extent.depth maxBlock.depth⟩ m.microBlock

/-- The input blocks of an output block, rounded up to what the accelerator reads at once. -/
def Model.inputsOf (e : Elementwise) (block : List Int) : Result (Shape × Shape) := do
  let a ← Shape.ofDims e.inputLayout (e.first block)
  let a ← a.roundUp m.inputMicroBlock
  match e.second with
  | none => return (a, ← a.roundUp m.inputMicroBlock)
  | some f =>
    let b ← Shape.ofDims e.secondLayout (f block)
    return (a, ← b.roundUp m.inputMicroBlock)

def Model.blockCycles (e : Elementwise) (block : List Int) : Int :=
  let each : Int := (m.outputCycles e.op e.name e.ifm e.ofm e.activation).eighths
  (each * block.foldl (· * ·) 1 + 7).fdiv 8

/-- Halve the block along the axes left until its inputs fit. -/
def Model.shrink (m : Model) (e : Elementwise) : Nat → Shape → List Axis → Result BlockConfig
  | 0, _, _ | _ + 1, _, [] => fail .exhausted
  | fuel + 1, block, axis :: axes => do
    let output ← layoutBlock block.dims e.outputLayout
    let (a, b) ← m.inputsOf e output
    let banks := (← inputBanks (.ok m) a e.ifm.bytes) + (← inputBanks (.ok m) b e.ifm.bytes)
    if banks ≤ m.freeBanks e.activation then return ⟨a.dims, output, 0, m.blockCycles e output⟩
    else
      match if block.get axis == m.microBlock.get axis then axes else axis :: axes with
      | [] => fail .exhausted
      | axis :: axes =>
        let half ← roundUp (← ceilDiv (block.get axis) 2) (m.microBlock.get axis)
        m.shrink e fuel (block.set axis half) (axis :: axes)

def Model.elementwiseBlock (e : Elementwise) : Result BlockConfig := do
  let block ← m.startBlock (← e.outputExtent)
  let fuel := (block.height + block.width + block.depth).toNat + 4
  m.shrink e fuel block [.height, .width, .depth]

/-! ### Questions about the accelerator

The figures of a named configuration, asked for by the name of the figure and a list of arguments.
-/

def shapeOf (j : Json) : Result Shape :=
  match j with
  | .arr [.arr dims, .str layout] => Shape.ofDims (.ofName layout) (dims.map Json.integer)
  | _ => Shape.ofDims .channelsLast (j.items.map Json.integer)

def ask (device figure : String) (args : Json) : Result Report := do
  let model := modelOf device
  let text := fun i => (args.item i).text
  let int := fun i => (args.item i).integer
  let op := .ofName (text 0)
  match figure with
  | "output_cycles" =>
    return toReport ((← model).outputCycles op (text 1) (.ofName (text 2)) (.ofName (text 3)) (.ofName (text 4)))
  | "delay_cycles" => return toReport (← delayCycles model op (.ofName (text 1)))
  | "weight_decoder_cycles" => return toReport (← weightDecoderCycles model op)
  | "output_quantum" => return toReport ((← model).outputQuantum (.ofName (text 0)))
  | "align" => return toReport (← align (int 0) (int 1))
  | "input_size" => return toReport (← inputSize (int 0) (int 1) (int 2) (int 3))
  | "dilated_kernel_size" => return toReport (dilatedKernelSize (int 0) (int 1))
  | "kernel_steps" => return toReport (kernelSteps op (int 1) (int 2) (.ofName (text 3)) (args.item 4).isTrue)
  | "subkernels" => return toReport (subkernels (int 0) (int 1))
  | "accumulator_width" => return toReport (accumulatorWidth op (.ofName (text 1)))
  | "is_partkernel" => return toReport (← isPartKernel op (int 1) (.ofName (text 2)) (int 3))
  | "layout_block" => return toReport (← layoutBlock ((args.item 0).items.map Json.integer) (.ofName (text 1)))
  | "input_banks" => return toReport (← inputBanks model (← shapeOf (args.item 0)) (int 1))
  | "accumulator_banks" => return toReport (← accumulatorBanks model (← shapeOf (args.item 0)) (int 1))
  | "input_block" =>
    let output ← shapeOf (args.item 0)
    let input ← shapeOf (args.item 1)
    let block ← (← model).inputBlock output input (.ofName (text 2)) (.ofName (text 3))
      (args.item 4).isTrue ⟨int 5, int 6, int 7, int 8, int 9⟩
    return toReport block.dims
  | _ =>
    let block ← shapeOf (args.item 1)
    let input ← shapeOf (args.item 2)
    return toReport (← (← model).computeCycles op block input (int 3) (int 4) (int 5)
      (.ofName (text 6)) (args.item 7).isTrue)

def shapeReport (dims : List Int) (layout : String) (round : Option Json) : Result Report := do
  let s ← Shape.ofDims (.ofName layout) dims
  let base := [("list", toReport s.dims), ("area", toReport s.area)]
  match round with
  | none => return .record base
  | some r => return .record (base ++ [("rounded", toReport (← s.roundUp (← shapeOf r)).dims)])

end TensorToolchain.Npu
