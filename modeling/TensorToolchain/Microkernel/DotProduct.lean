import TensorToolchain.Text

/-!
# Dot products of 16-bit tensors

The function that computes some dot products of a tensor with a kernel, adds a bias, rescales the
sums to eight bits and writes them. Its body is a list of statements; `Statement.text` writes them
down.
-/

namespace TensorToolchain.Microkernel

/-! ### Multiply and accumulate

Instructions that multiply halves of two words and add the product to a sum. Two of them on the
same words can be fused into one that multiplies both halves.
-/

inductive Half where | bottom | top deriving DecidableEq, Inhabited

def Half.letter : Half → String
  | bottom => "b"
  | top => "t"

/-- What an instruction multiplies: one half of each word, both halves in order, or both halves
crosswise. -/
inductive Opcode where
  | single (tensor kernel : Half)
  | dual
  | crossed
  | other (name : String)
  deriving DecidableEq, Inhabited

namespace Opcode

def name : Opcode → String
  | single t k => "smla" ++ t.letter ++ k.letter
  | dual => "smlad"
  | crossed => "smladx"
  | other n => n

def ofName (name : String) : Opcode :=
  match name with
  | "smlabb" => single .bottom .bottom
  | "smlabt" => single .bottom .top
  | "smlatb" => single .top .bottom
  | "smlatt" => single .top .top
  | "smlad" => dual
  | "smladx" => crossed
  | n => other n

def fused? : Opcode → Opcode → Option Opcode
  | single .bottom .bottom, single .top .top | single .top .top, single .bottom .bottom => some dual
  | single .bottom .top, single .top .bottom | single .top .bottom, single .bottom .top => some crossed
  | _, _ => none

end Opcode

/-- An instruction on a word of the tensor and a word of the kernel. -/
structure Mac where
  opcode : Opcode
  (tensor kernel : String)
  deriving DecidableEq, Inhabited

/-- The instruction that does the work of two on the same words. -/
def Mac.fused? (m n : Mac) : Option Mac :=
  if m.tensor == n.tensor && m.kernel == n.kernel then
    (m.opcode.fused? n.opcode).map fun o => { m with opcode := o }
  else none

def fuse : List Mac → List Mac
  | m :: n :: rest =>
    match m.fused? n with
    | some p => p :: fuse rest
    | none => m :: fuse (n :: rest)
  | ms => ms
termination_by ms => ms.length

def Mac.line (m : Mac) (sum : String) : String :=
  sum ++ " = __" ++ m.opcode.name ++ "(" ++ m.tensor ++ ", " ++ m.kernel ++ ", " ++ sum ++ ");"

def macLines (ms : List Mac) (sum : String) : Result (List String) :=
  ms.mapM fun m => do
    require (occursIn "smla" m.opcode.name) .failedCheck ""
    return m.line sum

/-! ### Halfwords in memory

Tensors of 16-bit values are read in words of two halfwords. Where a row of the tensor does not
start or end at a word, the word holds a halfword that the computation does not use.
-/

/-- A halfword: the row and column of the value that it holds, or none if it is not used. -/
abbrev Halfword := Option (Int × Int)

/-- The sizes of a dot product: the width of the tensor, and the height and width of the kernel. -/
structure Window where
  (tensorWidth kernelHeight kernelWidth : Int)
  deriving DecidableEq

def below (n : Int) : List Int := (List.range n.toNat).map .ofNat

def fillerIfOdd (position : Int) : List Halfword := if position % 2 == 1 then [none] else []

variable (w : Window)

def Window.columns (outputs stride : Int) : Int := (outputs - 1) * stride + w.kernelWidth

/-- The halfwords of one row of the tensor, filled up to whole words. -/
def Window.tensorRow (offset outputs stride y : Int) : List Halfword :=
  let columns := w.columns outputs stride
  let start := y * w.tensorWidth + offset
  fillerIfOdd start ++ (below columns).map (fun x => some (y, x)) ++ fillerIfOdd (start + columns)

def Window.tensorHalfwords (offset outputs stride : Int) : List Halfword :=
  (below w.kernelHeight).flatMap (w.tensorRow offset outputs stride)

def Window.kernelHalfwords (offset : Int) : List Halfword :=
  (if offset == 1 then [none] else []) ++
    ((below w.kernelHeight).flatMap fun y => (below w.kernelWidth).map fun x => some (y, x)) ++
    fillerIfOdd (w.kernelHeight * w.kernelWidth + offset)

/-! ### Names of words -/

def hexText (n : Int) : String :=
  let digits := .ofList (Nat.toDigits 16 n.natAbs)
  if n < 0 then "-" ++ digits else digits

def hexPair (n : Int) : String :=
  let digits := hexText n
  if digits.length < 2 then "0" ++ digits else digits

def Halfword.alias : Halfword → String
  | none => "unknown"
  | some (y, x) => "y" ++ hexPair y ++ "_x" ++ hexPair x

def wordName (low high : Halfword) : String := Halfword.alias low ++ "__" ++ Halfword.alias high

/-- The words that halfwords make up; an odd one is left over. -/
def wordsOf : List Halfword → List (Halfword × Halfword)
  | low :: high :: rest => (low, high) :: wordsOf rest
  | _ => []

inductive Source where | tensor | kernel deriving DecidableEq

def Source.name : Source → String
  | tensor => "tensor"
  | kernel => "kernel"

def Source.variable (s : Source) (low high : Halfword) : String := s.name ++ "__" ++ wordName low high

inductive Statement where
  /-- Declare sums that start at the bias. -/
  | declareSums (names : List String)
  /-- Declare a word and load it. -/
  | load (source : Source) (name : String) (index : Int)
  /-- Add products to a sum. -/
  | accumulate (sum : String) (mac : Mac)
  /-- Declare the scale and load it. -/
  | loadScale
  /-- Declare a result: a sum times the scale, shifted right. -/
  | rescale (output shift : Int)
  /-- Halve a result, rounding half up. -/
  | halve (output : Int)
  /-- Add the zero point to a result and clamp it to eight bits. -/
  | saturate (output zeroPoint : Int)
  /-- Declare a word that packs two results. -/
  | pack (word low high : Int)
  /-- Store a result as a halfword. -/
  | storeHalf (position output : Int)
  /-- Store a packed word. -/
  | storeWord (position word : Int)
  deriving DecidableEq

def resultName (output : Int) : String := "requant_" ++ toString output

def packedName (word : Int) : String := "packed_res_" ++ toString word

def sumName (output : Int) : String := "sum_" ++ toString output

def declaredSumName (output : Int) : String := "sum_" ++ hexText output

def Statement.text : Statement → String
  | declareSums names => "int32_t " ++ joined ", " (names.map (· ++ " = *bias")) ++ ";"
  | load source name index => "int32_t " ++ name ++ " = " ++ source.name ++ "[" ++ toString index ++ "];"
  | accumulate sum mac => mac.line sum
  | loadScale => "int32_t scale_val = *scale;"
  | rescale output shift =>
    "int32_t " ++ resultName output ++ " = (" ++ sumName output ++ " * (int64_t) scale_val) >> " ++
      toString (shift - 1) ++ ";"
  | halve output => resultName output ++ " = (" ++ resultName output ++ " + 1) >> 1;"
  | saturate output zeroPoint =>
    resultName output ++ " = __ssat(" ++ resultName output ++ " + " ++ toString zeroPoint ++ ", 8);"
  | pack word low high =>
    "int32_t " ++ packedName word ++ " = " ++ resultName low ++ " + (" ++ resultName high ++ " << 16);"
  | storeHalf position output =>
    "((int16_t*) output)[" ++ toString position ++ "] = (int16_t) " ++ resultName output ++ ";"
  | storeWord position word => "output[" ++ toString position ++ "] = " ++ packedName word ++ ";"

/-! ### Parts of the body -/

def sumDeclaration (outputs : Int) : Statement := .declareSums ((below outputs).map declaredSumName)

/-- Load the words of the tensor. A word is found from a halfword that it uses. -/
def tensorLoads (halfwords : List Halfword) (tensorWidth : Int) : Result (List Statement) := do
  require (halfwords.length % 2 == 0) .failedCheck ""
  let first ← orFail .badIndex halfwords.head?
  let offset : Int := if first.isNone then 1 else 0
  (wordsOf halfwords).mapM fun (low, high) => do
    let (y, x) ← orFail .badType (high.or low)
    return .load .tensor (Source.tensor.variable low high) ((y * tensorWidth + x + offset).fdiv 2)

def kernelLoads (halfwords : List Halfword) : Result (List Statement) := do
  require (halfwords.length % 2 == 0) .failedCheck ""
  return (wordsOf halfwords).zipIdx.map fun ((low, high), i) => .load .kernel (Source.kernel.variable low high) i

def wordOf (halfwords : List Halfword) (y x : Int) : Result (String × Half) :=
  let i := halfwords.idxOf (some (y, x))
  if i < halfwords.length then
    let halfword := (halfwords.getD · none)
    if i % 2 == 0 then
      if i + 1 < halfwords.length then .ok (wordName (halfword i) (halfword (i + 1)), .bottom)
      else fail .badIndex
    else .ok (wordName (halfword (i - 1)) (halfword i), .top)
  else fail .badValue

/-- One instruction for each value of the kernel, for the output that starts at a column. -/
def singleMacs (tensor kernel : List Halfword) (column : Int) : Result (List Mac) :=
  ((below w.kernelHeight).flatMap fun y => (below w.kernelWidth).map fun x => (y, x)).mapM fun (y, x) => do
      let (t, tensorHalf) ← wordOf tensor y (x + column)
      let (k, kernelHalf) ← wordOf kernel y x
      return ⟨.single tensorHalf kernelHalf, "tensor__" ++ t, "kernel__" ++ k⟩

def rescaleStatements (outputs shift zeroPoint : Int) : List Statement :=
  .loadScale :: (below outputs).flatMap fun i => [.rescale i shift, .halve i, .saturate i zeroPoint]

/-- Write the results: one by one if they stand apart, else two in a word where they fill one. -/
def writeStatements (outputs offset stride : Int) : List Statement :=
  if 1 < stride then (below outputs).map fun i => .storeHalf (i * stride + offset) i
  else
    let packed := (outputs - offset).fdiv 2
    ((below packed).map fun i => .pack i (2 * i + offset) (2 * i + offset + 1)) ++
      (if offset == 1 then [.storeHalf 1 0] else []) ++
      ((below packed).map fun i => .storeWord (offset + i) i) ++
      (if (offset + outputs) % 2 == 1 then [.storeHalf (packed * 2) (packed * 2)] else [])

/-! ### The function -/

structure DotProduct where
  outputs : Int
  window : Window
  (tensorOffset kernelOffset outputOffset inStride outStride : Int)
  shift : Int := 33
  zeroPoint : Int := -128
  deriving DecidableEq

namespace DotProduct

variable (d : DotProduct)

def name : String :=
  "tensordot_opt_x" ++ toString d.outputs ++ "_int16_w" ++ toString d.window.tensorWidth ++ "_" ++
    toString d.window.kernelHeight ++ "x" ++ toString d.window.kernelWidth ++ "_" ++
    toString d.tensorOffset ++ toString d.kernelOffset ++ toString d.outputOffset ++
    (if 1 < d.outputs then "_" ++ toString d.inStride ++ "_" ++ toString d.outStride else "")

def tensor : List Halfword := d.window.tensorHalfwords d.tensorOffset d.outputs d.inStride

def kernel : List Halfword := d.window.kernelHalfwords d.kernelOffset

def macs (output : Int) : Result (List Statement) := do
  let singles ← singleMacs d.window d.tensor d.kernel (output * d.inStride)
  return (fuse singles).map (.accumulate (sumName output))

def sections : Result (List (List Statement)) := do
  let tensorPart ← tensorLoads d.tensor d.window.tensorWidth
  let kernelPart ← kernelLoads d.kernel
  let macPart ← (below d.outputs).mapM d.macs
  return [[sumDeclaration d.outputs], tensorPart, kernelPart, macPart.flatten,
    rescaleStatements d.outputs d.shift d.zeroPoint,
    writeStatements d.outputs d.outputOffset d.outStride]

def sectionText (statements : List Statement) : String := unlines (statements.map ("  " ++ ·.text))

def code : Result String := do
  let body := joined "\n\n" ((← d.sections).map sectionText)
  let guard := d.name.toUpper ++ "_EXISTS"
  return unlines [
    "", "#ifndef " ++ guard, "#define " ++ guard, "#include <arm_acle.h>",
    "__attribute__((always_inline)) static inline int32_t " ++ d.name ++ "(",
    "    int32_t *output, int32_t *tensor, int32_t *kernel, int32_t *bias, int32_t *scale",
    ") \x7b", body, "  return 0;", "\x7d", "#endif", ""]

end DotProduct

def DotProduct.ofLists (outputs : Int) (dimensions offsets strides : List Int)
    (shift zeroPoint : Int) : Result DotProduct := do
  match dimensions with
  | [tensorWidth, kernelHeight, kernelWidth] =>
    demand (outputs ≤ 1 || 2 ≤ strides.length) .badIndex
    match offsets with
    | [tensorOffset, kernelOffset, outputOffset] =>
      require (offsets.all (· < 2)) .failedCheck ""
      match strides with
      | [inStride, outStride] =>
        return { outputs, window := { tensorWidth, kernelHeight, kernelWidth }, tensorOffset,
                 kernelOffset, outputOffset, inStride, outStride, shift, zeroPoint }
      | _ => fail .badValue
    | _ => fail .badValue
  | _ => fail .badValue

end TensorToolchain.Microkernel
