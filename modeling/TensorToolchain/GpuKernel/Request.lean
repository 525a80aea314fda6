import TensorToolchain.GpuKernel.Kernels
import TensorToolchain.Report

/-!
# Templates and requests of kernels

A template refers to a value by its key in braces after a dollar sign. A value may hold references
itself; substitution goes on until nothing changes. In a value a backslash starts an escape.
-/

namespace TensorToolchain.GpuKernel

open Element Operand

def reference (key : List Char) : List Char := "$\x7b".toList ++ key ++ "\x7d".toList

def substituteKey (text : List Char) (entry : List Char × List Char) : List Char :=
  Text.replaceAll (reference entry.1) entry.2 text

def substituteRound (values : List (List Char × List Char)) (text : List Char) : List Char :=
  values.foldl substituteKey text

def substituteRounds (values : List (List Char × List Char)) : Nat → List Char → List Char
  | 0, text => text
  | fuel + 1, text =>
    let next := substituteRound values text
    if next == text then text else substituteRounds values fuel next

def roundBound (values : List (List Char × List Char)) (text : List Char) : Nat :=
  (text.length + (values.map (·.2.length)).foldl (· + ·) 0 + 1) * (values.length + 1) + 1

/-- Replace references until nothing changes. -/
def substituteChars (values : List (List Char × List Char)) (text : List Char) : List Char :=
  substituteRounds values (roundBound values text) text

/-! ### Escapes in values -/

def controlOf : Char → Option Char
  | 'a' => some '\x07'
  | 'b' => some '\x08'
  | 'f' => some '\x0c'
  | 'n' => some '\n'
  | 'r' => some '\r'
  | 't' => some '\t'
  | 'v' => some '\x0b'
  | '\\' => some '\\'
  | _ => none

def isOctal (c : Char) : Bool := '0' ≤ c && c ≤ '7'

def octalValue (ds : List Char) : Nat := ds.foldl (fun n d => n * 8 + (d.toNat - '0'.toNat)) 0

/-- What an escape stands for, and the rest, for the text after the backslash. The only group of
a replaced reference is the whole of it, which has the number zero. -/
def escape (whole : List Char) : List Char → Result (List Char × List Char)
  | [] => fail .malformed
  | 'g' :: '<' :: rest =>
    let name := rest.takeWhile (· != '>')
    if rest.length ≤ name.length || name.isEmpty then fail .malformed
    else if name.all (· == '0') then .ok (whole, rest.drop (name.length + 1))
    else if name.all (fun c => c.isAlphanum || c == '_') && !(name.headD '0').isDigit then
      fail .badIndex
    else fail .malformed
  | 'g' :: _ => fail .malformed
  | '0' :: rest =>
    let digits := (rest.take 2).takeWhile isOctal
    .ok ([.ofNat (octalValue digits)], rest.drop digits.length)
  | c :: rest =>
    let digits := (c :: rest.take 2).takeWhile isOctal
    if c.isDigit then
      if digits.length == 3 && octalValue digits < 256 then
        .ok ([.ofNat (octalValue digits)], rest.drop 2)
      else fail .malformed
    else
      match controlOf c with
      | some d => .ok ([d], rest)
      | none => if c.isAlpha then fail .malformed else .ok (['\\', c], rest)

/-- A value with its escapes replaced, by at most so many steps. -/
def unescapeSteps (whole : List Char) : Nat → List Char → Result (List Char)
  | 0, _ | _, [] => .ok []
  | fuel + 1, c :: rest => do
    if c == '\\' then
      let (replaced, rest) ← escape whole rest
      return replaced ++ (← unescapeSteps whole fuel rest)
    else return c :: (← unescapeSteps whole fuel rest)

def unescape (key value : List Char) : Result (List Char) := unescapeSteps (reference key) value.length value

def substitute (values : List (String × String)) (template : String) : Result String := do
  let values ← values.mapM fun (k, v) => do return (k.toList, ← unescape k.toList v.toList)
  return .ofList (substituteChars values template.toList)

/-! ### Candidate kernels

The tiles and alignments that are tried for a device, given the element types and the sizes of the
operands.
-/

/-- A tile without its instruction: block, stages, warps and the last device that can run it. -/
abbrev TileSize := Block × Int × Block × Int

def anyDevice : Int := 1024

/-- Tiles by the sizes of their blocks, their stages and their warps. -/
def upTo (device : Int) (tiles : List (Int × Int × Int × Int × Int × Int × Int)) : List TileSize :=
  tiles.map fun (m, n, k, stages, x, y, z) => (⟨m, n, k⟩, stages, ⟨x, y, z⟩, device)

def halfTiles75 : List TileSize := upTo anyDevice [
  (256, 128, 32, 2, 4, 2, 1), (128, 256, 32, 2, 2, 4, 1), (128, 128, 32, 2, 2, 2, 1),
  (64, 128, 32, 2, 2, 2, 1), (128, 64, 32, 2, 2, 2, 1), (64, 64, 32, 2, 2, 2, 1), (64, 128, 64, 2, 1, 2, 2)]

def integerTiles75 : List TileSize := upTo anyDevice [
  (256, 128, 64, 2, 4, 2, 1), (128, 256, 64, 2, 2, 4, 1), (128, 128, 64, 2, 2, 2, 1),
  (64, 256, 64, 2, 1, 4, 1), (256, 64, 64, 2, 4, 1, 1), (64, 128, 64, 2, 2, 2, 1),
  (128, 64, 64, 2, 2, 2, 1), (64, 64, 64, 2, 2, 2, 1)]

/-- The tiles on devices from 80 on; `k` is the depth of the shallow ones, and the deep ones are
twice as deep. -/
def commonTiles80 (k : Int) : List TileSize := upTo anyDevice [
  (256, 128, k, 3, 4, 2, 1), (128, 256, k, 3, 2, 4, 1), (256, 64, k, 4, 4, 1, 1), (64, 256, k, 4, 1, 4, 1),
  (128, 128, k, 3, 2, 2, 1), (128, 128, k, 4, 2, 2, 1), (128, 128, k, 5, 2, 2, 1),
  (128, 64, k, 6, 2, 2, 1), (64, 128, k, 6, 2, 2, 1), (64, 64, k, 10, 2, 2, 1)] ++ upTo 80 [
  (256, 128, 2 * k, 3, 4, 2, 1), (128, 256, 2 * k, 3, 2, 4, 1), (256, 64, 2 * k, 4, 4, 1, 1),
  (64, 256, 2 * k, 4, 1, 4, 1)] ++ upTo anyDevice [
  (128, 128, 2 * k, 4, 2, 2, 1), (128, 64, 2 * k, 3, 2, 2, 1), (64, 128, 2 * k, 3, 2, 2, 1),
  (64, 64, 2 * k, 5, 2, 2, 1)]

def tripleTiles80 : List TileSize := upTo anyDevice [
  (128, 128, 16, 4, 4, 2, 1), (128, 128, 16, 3, 4, 2, 1), (256, 64, 16, 3, 4, 2, 1),
  (64, 256, 16, 3, 2, 4, 1), (128, 64, 16, 4, 2, 2, 1), (64, 128, 16, 4, 2, 2, 1),
  (64, 64, 16, 3, 2, 2, 1), (128, 128, 32, 3, 4, 2, 1)] ++ upTo 80 [
  (256, 64, 32, 3, 4, 2, 1), (64, 256, 32, 3, 2, 4, 1)] ++ upTo anyDevice [
  (128, 64, 32, 3, 2, 2, 1), (64, 128, 32, 3, 2, 2, 1), (64, 64, 32, 3, 2, 2, 1)]

structure CandidateRequest where
  (out first second : String)
  sizes : List Int
  triple : Bool := true
  allAlignments : Bool := false
  accumulator : String := "float32"
  deriving DecidableEq

structure Candidate where
  tile : Tile
  alignment : Int
  deriving DecidableEq

namespace CandidateRequest

variable (r : CandidateRequest)

def aligns (alignment : Int) : Bool := r.sizes.all (· % alignment == 0)

/-- The alignments to try: those that fit, or only the first of them. -/
def alignments (all : List Int) : List Int :=
  let fitting := all.filter r.aligns
  if r.allAlignments then fitting else fitting.take 1

def combine (math : MathInstruction) (minCapability : Int) (tiles : List TileSize)
    (alignments : List Int) : List Candidate :=
  tiles.flatMap fun (block, stages, warps, maxCapability) => alignments.map fun alignment =>
    ⟨{ block, stages, warps, math, minCapability, maxCapability }, alignment⟩

def halfMath (shape : Block) : Result MathInstruction := do
  let c ← ofTensorType r.out
  let accumulator ← ofTensorType r.accumulator
  return { shape, a := .f16, b := .f16, c, accumulator, opcode := .tensor }

def integerMath (shape : Block) : Result MathInstruction := do
  require (r.out == "int32") .failedCheck ""
  let a ← ofTensorType r.first
  let b ← ofTensorType r.second
  return { shape, a, b, c := .s32, accumulator := .s32, opcode := .tensor, operation := .multiplyAddSaturate }

def bothAre (type : String) : Bool := r.first == type && r.second == type

/-- The candidates for devices from 75 on; some alignment must fit. -/
def candidates75 : Result (List Candidate) := do
  require (["float32", "float16", "int32"].contains r.out) .failedCheck ""
  let (math, alignments, tiles) ←
    if r.bothAre "float16" then do
      pure (← r.halfMath ⟨16, 8, 8⟩, r.alignments [8, 4, 2, 1], halfTiles75)
    else do
      pure (← r.integerMath ⟨8, 8, 16⟩, r.alignments [16, 8, 4, 2, 1], integerTiles75)
  require (!alignments.isEmpty) .failedCheck ""
  return combine math 75 tiles alignments

/-- The candidates for devices from 80 on: those for older devices, unless an operand has single
precision, then the newer ones. -/
def candidates80 : Result (List Candidate) := do
  let (math, alignments, tiles) ←
    if r.bothAre "float16" then do
      pure (← r.halfMath ⟨16, 8, 16⟩, r.alignments [8, 4, 2], commonTiles80 32)
    else if r.bothAre "float32" then
      let math : MathInstruction := {
        shape := ⟨16, 8, 8⟩, a := .f32, b := .f32, c := .f32, accumulator := .f32, opcode := .tensor
        operation := if r.triple then .multiplyAddFast else .multiplyAdd }
      pure (math, r.alignments [4, 2, 1], if r.triple then tripleTiles80 else commonTiles80 16)
    else do
      pure (← r.integerMath ⟨16, 8, 32⟩, r.alignments [16, 8, 4], commonTiles80 64)
  let older ← if r.first != "float32" && r.second != "float32" then r.candidates75 else pure []
  return older ++ combine math 80 tiles alignments

def candidates (device : Int) : Result (List Candidate) :=
  if device == 75 then r.candidates75
  else if device == 80 then r.candidates80
  else fail .missingKey

end CandidateRequest

/-! ### Requests for kernels

Kernels as they are asked for, and the reports of their names and sources.
-/

variable (j : Json)

def textOr (name default : String) : String := ((j.field? name).map Json.text).getD default

def integerOr (name : String) (default : Int) : Int := ((j.field? name).map Json.integer).getD default

def Block.ofJson : Result Block :=
  match j.items.map Json.integer with
  | [m, n, k] => .ok ⟨m, n, k⟩
  | _ => fail .badType

def MathInstruction.ofJson (j : Json) : Result MathInstruction := do
  return {
    shape := ← Block.ofJson (j.field "shape")
    a := ← ofName (j.field "a").text
    b := ← ofName (j.field "b").text
    c := ← ofName (j.field "c").text
    accumulator := ← ofName (j.field "acc").text
    opcode := ← OpcodeClass.ofName (j.field "opcode").text
    operation := ← MathOperation.ofName (textOr j "operation" "multiply_add") }

def Tile.ofJson (j : Json) : Result Tile := do
  return {
    block := ← Block.ofJson (j.field "threadblock")
    stages := (j.field "stages").integer
    warps := ← Block.ofJson (j.field "warp")
    math := ← MathInstruction.ofJson (j.field "math")
    minCapability := integerOr j "min_cc" 75
    maxCapability := integerOr j "max_cc" 1024 }

def Operand.ofJson : Result Operand := do
  return {
    element := ← ofName (j.item 0).text
    layout := ← Layout.ofName (j.item 1).text
    alignment := ((j.items[2]?).map Json.integer).getD 1 }

def ProductKernel.ofJson (j : Json) : Result ProductKernel := do
  return {
    arch := (j.field "arch").integer
    tile := ← Tile.ofJson (j.field "tile")
    a := ← Operand.ofJson (j.field "A")
    b := ← Operand.ofJson (j.field "B")
    c := ← Operand.ofJson (j.field "C")
    epilogue := ← ofName (j.field "epilogue_type").text
    functor := ← Functor.ofName (textOr j "functor" "LinearCombination")
    swizzle := ← Swizzle.ofName (textOr j "swizzle" "Identity8") }

def ConvKernel.ofJson (j : Json) : Result ConvKernel := do
  return {
    kind := ← ConvKind.ofName (j.field "kind").text
    iterator := ← Iterator.ofName (j.field "iterator").text
    arch := (j.field "arch").integer
    tile := ← Tile.ofJson (j.field "tile")
    a := ← Operand.ofJson (j.field "A")
    b := ← Operand.ofJson (j.field "B")
    c := ← Operand.ofJson (j.field "C")
    epilogue := ← ofName (j.field "epilogue_type").text
    stride := ← StrideSupport.ofName (j.field "stride").text
    functor := ← Functor.ofName (textOr j "functor" "LinearCombination")
    swizzle := ← Swizzle.ofName (textOr j "swizzle" "Identity1")
    slices := integerOr j "split_k" 1 }

def Residual.ofJson : Result (Option Residual) :=
  if j.fields.isEmpty then .ok none
  else do
    let unary ← j.member "unary_op"
    let binary ← j.member "binary_op"
    let activation ← j.member "activation"
    return some { activation := activation.text, binary := binary.text, unary := unary.text }

def namesReport (name core extended : String) : List (String × Report) :=
  [("name", .text name), ("core", .text core), ("extended", .text extended)]

def productReport : Result Report := do
  let p ← ProductKernel.ofJson j
  let names := namesReport (← p.name) (← p.coreName) (← p.extendedName)
  let source ←
    if (j.field "emit").isTrue then do
      pure [("source", .text (← p.source (j.field "no_beta").isTrue (j.field "batched").isTrue))]
    else pure []
  let leading ←
    if (j.field "ld").isTrue then do
      pure [("leading_dim", .text (← p.leadingDimensions))]
    else pure []
  return .record (names ++ source ++ leading)

def convolutionReport : Result Report := do
  let p ← ConvKernel.ofJson j
  let names := namesReport (← p.name) (← p.coreName) (← p.extendedName)
  if (j.field "emit").isTrue then
    let residual ← if p.splitsWeights then pure none else Residual.ofJson (j.field "residual")
    let source ← p.source (j.field "no_beta").isTrue residual (j.field "reduction").isTrue
    return .record (names ++ [("source", .text source)])
  else return .record names

def sourceReport (found : String × String) : Report := .record [("name", .text found.1), ("source", .text found.2)]

def typesOf : Result (List Element) := (j.field "types").items.mapM (ofName ·.text)

def fusedProductReport : Result Report := do
  return sourceReport (← fusedProduct (j.field "op_type").text (← Tile.ofJson (j.field "tile"))
    (← typesOf j) (j.field "alignment").integer (← Swizzle.ofName (j.field "swizzle").text)
    (j.field "batched").isTrue)

def fusedConvolutionReport : Result Report := do
  return sourceReport (← fusedConvolution (← ConvKind.ofName (j.field "kind").text)
    (← StrideSupport.ofName (j.field "stride").text) (j.field "op_type").text
    (← Tile.ofJson (j.field "tile")) (← typesOf j) (j.field "alignment").integer
    (← Swizzle.ofName (j.field "swizzle").text) (j.field "split_k").integer)

def Candidate.report (c : Candidate) : Report :=
  let math := c.tile.math
  .list [
    .text c.tile.name, toReport c.tile.warps.toList, .int c.tile.minCapability,
    .int c.tile.maxCapability,
    toReport ([math.a, math.b, math.c, math.accumulator].map name),
    toReport math.shape.toList, .text math.operation.name, .int c.alignment]

def candidatesReport : Result Report := do
  let r : CandidateRequest := {
    out := (j.field "out").text
    first := (j.field "arg0").text
    second := (j.field "arg1").text
    sizes := (j.field "dims").items.map Json.integer
    triple := ((j.field? "use_3xtf32").map Json.isTrue).getD true
    allAlignments := (j.field "all_alignments").isTrue
    accumulator := textOr j "accumulator" "float32" }
  return .list ((← r.candidates (j.field "sm").integer).map Candidate.report)

def compilerReport (device : Int) (path : String) : Report :=
  let arch := toString device
  let flags :=
    "-I" ++ path ++ "/include -I" ++ path ++ "/tools/util/include -O3 -std=c++11" ++
    " -DCUTLASS_ENABLE_TENSOR_CORE_MMA=1 -gencode=arch=compute_" ++ arch ++ ",code=[sm_" ++ arch ++
    ",compute_" ++ arch ++ "] -Xcompiler=-Wconversion -Xcompiler=-fno-strict-aliasing"
  toReport [flags, "nvcc C S -o O"]

end TensorToolchain.GpuKernel
