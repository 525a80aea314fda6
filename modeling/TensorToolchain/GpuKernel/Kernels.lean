import TensorToolchain.Text

/-!
# Kernels, their words and their sources

The element types, layouts, instructions and functors that a kernel is put together from, with the
names that stand in kernel names and the tags that stand in kernel source.
-/

namespace TensorToolchain.GpuKernel

def named {α : Type} (items : List α) (title : α → String) (name : String) : Result α :=
  orFail .missingKey (items.find? (title · == name))

inductive Element where | f16 | f32 | s8 | u8 | s32 deriving DecidableEq

namespace Element

def name : Element → String
  | f16 => "f16"
  | f32 => "f32"
  | s8 => "s8"
  | u8 => "u8"
  | s32 => "s32"

def ofName : String → Result Element := named [f16, f32, s8, u8, s32] name

def ofTensorType (name : String) : Result Element :=
  match name with
  | "int8" => .ok s8
  | "uint8" => .ok u8
  | "float32" => .ok f32
  | "float16" => .ok f16
  | _ => fail .missingKey

def letter : Element → Result String
  | f16 => .ok "h"
  | f32 => .ok "s"
  | s32 => .ok "i"
  | _ => fail .missingKey

def tag : Element → String
  | f16 => "cutlass::half_t"
  | f32 => "float"
  | s8 => "int8_t"
  | s32 => "int32_t"
  | u8 => "uint8_t"

def bits : Element → Int
  | f16 => 16
  | f32 => 32
  | u8 => 8
  | s8 => 8
  | s32 => 32

end Element

inductive MathOperation where | multiplyAdd | multiplyAddSaturate | multiplyAddFast
  deriving DecidableEq

namespace MathOperation

def name : MathOperation → String
  | multiplyAdd => "multiply_add"
  | multiplyAddSaturate => "multiply_add_saturate"
  | multiplyAddFast => "multiply_add_fast_f32"

def ofName : String → Result MathOperation := named [multiplyAdd, multiplyAddSaturate, multiplyAddFast] name

def tag : MathOperation → String
  | multiplyAdd => "cutlass::arch::OpMultiplyAdd"
  | multiplyAddSaturate => "cutlass::arch::OpMultiplyAddSaturate"
  | multiplyAddFast => "cutlass::arch::OpMultiplyAddFastF32"

end MathOperation

inductive Layout where | columnMajor | rowMajor | channelsLast deriving DecidableEq

namespace Layout

def title : Layout → String
  | columnMajor => "ColumnMajor"
  | rowMajor => "RowMajor"
  | channelsLast => "TensorNHWC"

def ofName : String → Result Layout := named [columnMajor, rowMajor, channelsLast] title

def tag (l : Layout) : String := "cutlass::layout::" ++ l.title

def short : Layout → String
  | columnMajor => "n"
  | rowMajor => "t"
  | channelsLast => "nhwc"

end Layout

inductive OpcodeClass where | scalar | tensor | warpTensor deriving DecidableEq

namespace OpcodeClass

def title : OpcodeClass → String
  | scalar => "Simt"
  | tensor => "TensorOp"
  | warpTensor => "WmmaTensorOp"

def ofName : String → Result OpcodeClass := named [scalar, tensor, warpTensor] title

def name : OpcodeClass → String
  | scalar => "simt"
  | tensor => "tensorop"
  | warpTensor => "wmma_tensorop"

def tag (o : OpcodeClass) : String := "cutlass::arch::OpClass" ++ o.title

end OpcodeClass

def threadTag (name : String) : String := "cutlass::epilogue::thread::" ++ name

/-- What is done with a sum before it is written. -/
inductive Functor where | linear | relu | bias | gelu | sigmoid | silu | hardSwish | residual
  deriving DecidableEq

namespace Functor

def title (f : Functor) : String := "LinearCombination" ++ match f with
  | linear => ""
  | relu => "Relu"
  | bias => "Bias"
  | gelu => "Gelu"
  | sigmoid => "Sigmoid"
  | silu => "Silu"
  | hardSwish => "HardSwish"
  | residual => "ResidualBlock"

def ofName : String → Result Functor := named [linear, relu, bias, gelu, sigmoid, silu, hardSwish, residual] title

def tag (f : Functor) : String := threadTag <| match f with
  | bias => "LinearCombination"
  | gelu => "LinearCombinationGELU"
  | _ => f.title

end Functor

/-- The order in which blocks are given out. -/
inductive Swizzle where | identity1 | identity2 | identity4 | identity8 | batched | stridedGradient1 | stridedGradient4
  deriving DecidableEq

namespace Swizzle

def title : Swizzle → String
  | identity1 => "Identity1"
  | identity2 => "Identity2"
  | identity4 => "Identity4"
  | identity8 => "Identity8"
  | batched => "Batched"
  | stridedGradient1 => "StridedDgradIdentity1"
  | stridedGradient4 => "StridedDgradIdentity4"

def ofName : String → Result Swizzle :=
  named [identity1, identity2, identity4, identity8, batched, stridedGradient1, stridedGradient4] title

def tag (s : Swizzle) : String :=
  let identity width := "gemm::threadblock::GemmIdentityThreadblockSwizzle<" ++ width
  let gradient width := "conv::threadblock::StridedDgradIdentityThreadblockSwizzle<" ++ width
  "cutlass::" ++ match s with
  | identity1 => identity "1>"
  | identity2 => identity "2>"
  | identity4 => identity "4>"
  | identity8 => identity "8>"
  | batched => "gemm::threadblock::GemmBatchedIdentityThreadblockSwizzle"
  | stridedGradient1 => gradient "1>"
  | stridedGradient4 => gradient "4>"

end Swizzle

/-- Which way a convolution is computed: forward, or the gradient of data or weights. -/
inductive ConvKind where | forward | dataGradient | weightGradient deriving DecidableEq

namespace ConvKind

def name : ConvKind → String
  | forward => "fprop"
  | dataGradient => "dgrad"
  | weightGradient => "wgrad"

def title : ConvKind → String
  | forward => "Fprop"
  | dataGradient => "Dgrad"
  | weightGradient => "Wgrad"

def ofName : String → Result ConvKind := named [forward, dataGradient, weightGradient] title

end ConvKind

inductive Iterator where | analytic | optimized deriving DecidableEq

namespace Iterator

def name : Iterator → String
  | analytic => "analytic"
  | optimized => "optimized"

def title : Iterator → String
  | analytic => "Analytic"
  | optimized => "Optimized"

def ofName : String → Result Iterator := named [analytic, optimized] title

def tag (i : Iterator) : String := "cutlass::conv::IteratorAlgorithm::k" ++ i.title

end Iterator

inductive StrideSupport where | strided | unity deriving DecidableEq

namespace StrideSupport

def title : StrideSupport → String
  | strided => "Strided"
  | unity => "Unity"

def ofName : String → Result StrideSupport := named [strided, unity] title

def tag (s : StrideSupport) : String := "cutlass::conv::StrideSupport::k" ++ s.title

end StrideSupport

structure Block where
  (m n k : Int)
  deriving DecidableEq

namespace Block

def toList (b : Block) : List Int := [b.m, b.n, b.k]

def digits (b : Block) : String := toString b.m ++ toString b.n ++ toString b.k

def tag (b : Block) (close : String) : String :=
  "cutlass::gemm::GemmShape<" ++ toString b.m ++ ", " ++ toString b.n ++ ", " ++ toString b.k ++ close

end Block

/-- The instruction that multiplies: its sizes, the elements it takes and sums in, and its unit. -/
structure MathInstruction where
  shape : Block
  (a b c accumulator : Element)
  opcode : OpcodeClass
  operation : MathOperation := .multiplyAdd
  deriving DecidableEq

/-- How a product is cut into blocks and warps, and the devices that can run it. -/
structure Tile where
  block : Block
  stages : Int
  warps : Block
  math : MathInstruction
  (minCapability maxCapability : Int)
  deriving DecidableEq

def Tile.name (t : Tile) : String :=
  toString t.block.m ++ "x" ++ toString t.block.n ++ "_" ++ toString t.block.k ++ "x" ++ toString t.stages

/-- An operand: its elements, layout and alignment. -/
structure Operand where
  element : Element
  layout : Layout
  alignment : Int := 1
  deriving DecidableEq

/-- The name of a core with the element types that differ from the one that sums are taken in. -/
def extendName (core : String) (a c accumulator : Element) : String :=
  if c != accumulator && a != accumulator then c.name ++ "_" ++ core ++ "_" ++ a.name
  else if c == accumulator && a != accumulator then core ++ "_" ++ a.name
  else core

/-- The element that an instruction takes, if it is neither that of the operand nor that of sums. -/
def intermediateName (m : MathInstruction) (a : Element) : String :=
  if m.a != a && m.a != m.accumulator then m.a.name else ""

/-- The number of elements that are written at once, at most 128 bits. -/
def vectorLength (c : Operand) : Int := (min (c.alignment * c.element.bits) 128).fdiv c.element.bits

def Tile.warpBlock (t : Tile) (divide : Int → Int → Int) : Result Block := do
  demand (t.warps.toList.all (· != 0)) .zeroDivision
  return ⟨divide t.block.m t.warps.m, divide t.block.n t.warps.n, divide t.block.k t.warps.k⟩

/-! ### Kernels for matrix products

The name of a kernel for a matrix product, and the source that instantiates it.
-/

structure ProductKernel where
  arch : Int
  tile : Tile
  (a b c : Operand)
  epilogue : Element
  functor : Functor := .linear
  swizzle : Swizzle := .identity8
  deriving DecidableEq

namespace ProductKernel

def coreName (p : ProductKernel) : Result String := do
  let math := p.tile.math
  let letter ← math.accumulator.letter
  if math.opcode == .scalar then return letter ++ "gemm"
  else return letter ++ math.shape.digits ++ intermediateName math p.a.element ++ "gemm"

/-- The name of the core with the element types that differ from that of the sums. -/
def extendedName (p : ProductKernel) : Result String := do
  return extendName (← p.coreName) p.a.element p.c.element p.tile.math.accumulator

def name (p : ProductKernel) : Result String := do
  return "cutlass_" ++ p.tile.math.opcode.name ++ "_" ++ (← p.extendedName) ++ "_" ++ p.tile.name ++
    "_" ++ p.a.layout.short ++ p.b.layout.short ++ "_align" ++ toString p.a.alignment

def leadingDimensions (p : ProductKernel) : Result String := do
  let dimension := fun l row column =>
    match l with
    | .rowMajor => .ok row
    | .columnMajor => .ok column
    | .channelsLast => fail .unset
  let a ← dimension p.a.layout "K" "M"
  let b ← dimension p.b.layout "N" "K"
  let c ← dimension p.c.layout "N" "M"
  return "int lda = " ++ a ++ ";\n\tint ldb = " ++ b ++ ";\n\tint ldc = " ++ c ++ ";\n"

end ProductKernel

def line (text : String) : String := "    " ++ text ++ ","

def innerLine (text : String) : String := "  " ++ line text

def epilogueLines (functor : Functor) (c : Element) (length : Int) (accumulator epilogue : Element)
    (noBetaScaling : Bool) : List String :=
  ["    ", "    " ++ functor.tag ++ "<", innerLine c.tag, innerLine (toString length), innerLine accumulator.tag] ++
  (if noBetaScaling then [innerLine epilogue.tag, "      " ++ threadTag "ScaleType::NoBetaScaling"]
  else ["      " ++ epilogue.tag]) ++
  ["    >,"]

def ProductKernel.lines (p : ProductKernel) (noBetaScaling batched : Bool) : Result (List String) := do
  let warp ← p.tile.warpBlock .fdiv
  let name ← p.name
  let math := p.tile.math
  let pair := fun o => line (o.element.tag ++ ", " ++ o.layout.tag)
  return [
    "", "  // Gemm operator " ++ name,
    "  using Operation_" ++ name ++ " = cutlass::gemm::device::" ++ (if batched then "GemmBatched" else "Gemm") ++ "<",
    pair p.a, pair p.b, pair p.c,
    line math.accumulator.tag, line math.opcode.tag, line ("cutlass::arch::Sm" ++ toString p.arch),
    line (p.tile.block.tag ">"), line (warp.tag ">"), line (math.shape.tag ">")] ++
    epilogueLines p.functor p.c.element (vectorLength p.c) math.accumulator p.epilogue noBetaScaling ++ [
    line p.swizzle.tag, line (toString p.tile.stages), line (toString p.a.alignment),
    line (toString p.b.alignment), "    " ++ (if batched then "" else "false,"),
    "    " ++ math.operation.tag,
    "  >;", ""]

def ProductKernel.source (p : ProductKernel) (noBetaScaling batched : Bool) : Result String := do
  return unlines (← p.lines noBetaScaling batched)

/-! ### Kernels for convolutions

The name of a kernel for a convolution, and the source that instantiates it, with the reduction over
slices where the sum is split.
-/

structure ConvKernel where
  kind : ConvKind
  iterator : Iterator
  arch : Int
  tile : Tile
  (a b c : Operand)
  epilogue : Element
  stride : StrideSupport
  functor : Functor := .linear
  swizzle : Swizzle := .identity1
  slices : Int := 1
  deriving DecidableEq

/-- The functions of a block that adds a residual. -/
structure Residual where
  (activation binary unary : String)
  deriving DecidableEq

namespace ConvKernel

variable (p : ConvKernel)

/-- The name of the core: the letter of the sums, the instruction, the kind and the iterator. -/
def coreName : Result String := do
  let math := p.tile.math
  let instruction := if math.opcode == .tensor then math.shape.digits ++ intermediateName math p.a.element else ""
  return (← math.accumulator.letter) ++ instruction ++ p.kind.name ++ "_" ++ p.iterator.name

/-- The name of the core with the element types that differ from that of the sums. -/
def extendedName : Result String := do
  return extendName (← p.coreName) p.a.element p.c.element p.tile.math.accumulator

def name (p : ConvKernel) : Result String := do
  return "cutlass_" ++ p.tile.math.opcode.name ++ "_" ++ (← p.extendedName) ++ "_" ++ p.tile.name ++
    "_" ++ p.a.layout.short ++ "_align" ++ toString p.a.alignment ++
    (if p.stride == .unity then "_unity_stride" else "") ++
    (if 1 < p.slices then "_splitk" ++ toString p.slices else "")

/-- Whether the gradient of weights is summed over several slices. -/
def splitsWeights : Bool := p.kind == .weightGradient && decide (1 < p.slices)

def singleEpilogue (functor : Functor) (element close : String) : List String := [
  "    " ++ functor.tag ++ "<", innerLine element, "      4,", "      float,", "      float",
  "    >" ++ close]

def epilogueLines (p : ConvKernel) (noBetaScaling : Bool) (residual : Option Residual) : List String :=
  let accumulator := p.tile.math.accumulator
  let length := vectorLength p.c
  if p.splitsWeights then "    " :: singleEpilogue p.functor "float" ","
  else
    match residual with
    | some r => [
        "    ", "    " ++ p.functor.tag ++ "<", innerLine p.c.element.tag, innerLine accumulator.tag,
        innerLine p.epilogue.tag, innerLine p.c.element.tag, innerLine (toString length),
        innerLine r.activation, innerLine r.binary, "      " ++ r.unary, "    >,"]
    | none => GpuKernel.epilogueLines p.functor p.c.element length accumulator p.epilogue noBetaScaling

def reductionLines : List String :=
  let accumulator := line p.tile.math.accumulator.tag
  ["  ", "using EpilogueOutputOp = "] ++ singleEpilogue p.functor p.c.element.tag ";" ++ [
    "using ReductionOp = cutlass::reduction::thread::ReduceAdd<",
    accumulator, accumulator,
    "      EpilogueOutputOp::kCount",
    "      >;", "",
    "using ReductionKernel = cutlass::reduction::kernel::ReduceSplitK<",
    "    cutlass::MatrixShape<4, 32 * EpilogueOutputOp::kCount>,",
    "      EpilogueOutputOp,", "      ReductionOp", "      >;", "",
    "using ReductionDevice = cutlass::reduction::device::ReduceSplitK<ReductionKernel>;",
    "using ReductionStrideIndex = typename ReductionDevice::StrideIndex;", "", ""]

def lines (noBetaScaling : Bool) (residual : Option Residual) (reduction : Bool) : Result (List String) := do
  let warp ← p.tile.warpBlock .tdiv
  let name ← p.name
  let math := p.tile.math
  let element := if p.splitsWeights then .f32 else p.c.element
  let broadcast := residual.isSome && !p.splitsWeights
  return [
    "",
    "  // Conv2d" ++ p.kind.title ++ " " ++ p.iterator.title ++ " kernel instance \"" ++ name ++ "\"",
    "  using " ++ name ++ " =",
    "  typename cutlass::conv::kernel::DefaultConv2d" ++ p.kind.title ++
      (if broadcast then "WithBroadcast" else "") ++ "<",
    line p.a.element.tag, line p.a.layout.tag, line p.b.element.tag, line p.b.layout.tag,
    line element.tag, line p.c.layout.tag, line math.accumulator.tag, line math.opcode.tag,
    line ("cutlass::arch::Sm" ++ toString p.arch),
    "    " ++ p.tile.block.tag ">,", "    " ++ warp.tag " >,", "    " ++ math.shape.tag ">,"] ++
    p.epilogueLines noBetaScaling residual ++ [
    "    " ++ p.swizzle.tag ++ ", // cutlass::gemm::threadblock::GemmSplitKIdentityThreadblockSwizzle<>,",
    line (toString p.tile.stages), line math.operation.tag, line p.iterator.tag, line p.stride.tag,
    line (toString p.a.alignment), "    " ++ toString p.b.alignment,
    "  >::Kernel;", ""] ++
    (if reduction then p.reductionLines else ["  ", ""])

def source (noBetaScaling : Bool) (residual : Option Residual) (reduction : Bool) : Result String := do
  return unlines (← p.lines noBetaScaling residual reduction)

end ConvKernel

/-! ### Kernels for fused operators

The kernel that computes an operator together with what follows it, such as a bias and an
activation.
-/

/-- The functor of a fused operator, and whether what is added is left unscaled. -/
def fusedFunctors : List (String × Functor × Bool) := [
  ("dense", .linear, false), ("dense_bias", .bias, true), ("dense_bias_relu", .relu, true),
  ("dense_bias_gelu_fp16", .gelu, false), ("dense_bias_gelu_fp32", .gelu, false),
  ("batch_matmul", .linear, false), ("conv2d_bias_hardswish", .hardSwish, false),
  ("conv2d_bias_silu", .silu, false), ("conv2d_bias_sigmoid", .sigmoid, false),
  ("conv2d_bias_relu", .relu, true), ("conv2d_bias", .bias, true), ("conv2d", .linear, false),
  ("conv2d_transpose", .linear, false), ("conv2d_backward_weight", .linear, false)].map fun (op, functor) =>
    ("cutlass." ++ op, functor)

def activations : List (String × String) := [
  ("_hardswish", "HardSwish"), ("_silu", "SiLu"), ("_sigmoid", "Sigmoid"), ("_relu", "ReLu"),
  ("", "Identity")].map fun (op, name) => ("cutlass.conv2d_bias" ++ op, threadTag name)

/-- The part of the name of an operator in front of its residual; without an underscore in front of
that, all but the last character. -/
def beforeResidual (op : String) : String :=
  let text := op.toList
  match Text.find? "_residual".toList text with
  | some i => .ofList (text.take i)
  | none => .ofList text.dropLast

def residualOf (op : String) : Result Residual := do
  let activation ← orFail .missingKey (activations.lookup (beforeResidual op))
  return {
    activation
    binary := if occursIn "residual_multiply" op then "cutlass::multiplies" else "cutlass::plus"
    unary := threadTag (if endsWith "relu" op then "ReLu" else "Identity") }

def fusionOf (op : String) : Result (Functor × Bool × Option Residual) := do
  if occursIn "residual" op then return (.residual, false, some (← residualOf op))
  else
    let (functor, unscaled) ← orFail .missingKey (fusedFunctors.lookup op)
    return (functor, unscaled, none)

def fusedProduct (op : String) (tile : Tile) (types : List Element) (alignment : Int)
    (swizzle : Swizzle) (batched : Bool) : Result (String × String) := do
  match types with
  | [a, b, c, epilogue] =>
    let (functor, unscaled) ← orFail .missingKey (fusedFunctors.lookup op)
    let p : ProductKernel := {
      arch := tile.minCapability, tile, epilogue, functor
      a := ⟨a, .rowMajor, alignment⟩
      b := ⟨b, .columnMajor, alignment⟩
      c := ⟨c, .rowMajor, alignment⟩
      swizzle := if batched then .batched else swizzle }
    return (← p.name, ← p.source unscaled batched)
  | _ => fail .badValue

def fusedConvolution (kind : ConvKind) (stride : StrideSupport) (op : String) (tile : Tile)
    (types : List Element) (alignment : Int) (swizzle : Swizzle) (slices : Int) : Result (String × String) := do
  let (functor, unscaled, residual) ← fusionOf op
  match types with
  | [a, b, c, epilogue] =>
    let p : ConvKernel := {
      kind, iterator := .optimized, arch := tile.minCapability, tile, epilogue, stride, functor
      swizzle, slices
      a := ⟨a, .channelsLast, alignment⟩
      b := ⟨b, .channelsLast, alignment⟩
      c := ⟨c, .channelsLast, alignment⟩ }
    return (← p.name, ← p.source unscaled residual (1 < slices))
  | _ => fail .badValue

end TensorToolchain.GpuKernel
