import TensorToolchain.Microkernel.DotProduct
import TensorToolchain.Value

/-!
# Kernels on words

A kernel text is a list of functions after a common header. Every function is written for a
compiler of either language family and is inlined.
-/

namespace TensorToolchain.Microkernel

def linkage : String := "#ifdef __cplusplus
extern \"C\"
#endif
__attribute__((always_inline)) static inline int32_t "

def functions (texts : List String) : String := .join (texts.map (linkage ++ · ++ "\n"))

/-! ### Matrix products on words

A matrix is multiplied with the transpose of another, for values of 8 and of 16 bits. Each comes in
two parts: the body sets the result, and the update adds to it. The rest of a row that does not fill
a word is multiplied value by value.
-/

structure ProductPart where (name assign gap note check : String)

def settingNote : String := "      // NOTE: this is the line where `*_body` differs from `*_update`. here
      // we're *setting* the result, instead of accumulating, because we know
      // the `i` and `j` itervars span their entire respective axes.
"

def alignmentCheck : String := "  if(((uint32_t)aa & 0x3) != 0 || ((uint32_t)bb & 0x3) != 0)\x7b
    retcode = kTvmErrorFunctionCallInvalidArg;
    goto out;
  \x7d

"

def bodyPart : ProductPart := ⟨"body", "=", "", settingNote, alignmentCheck⟩

def updatePart : ProductPart := ⟨"update", "+=", " ", "", ""⟩

/-- The function that widens four values of 8 bits to two words. -/
def readAndPad : String := "
#ifndef ARM_CPU_MPROFILE_READ_AND_PAD_EXISTS
#define ARM_CPU_MPROFILE_READ_AND_PAD_EXISTS
__attribute__((always_inline)) static inline const int8_t *read_and_pad(const int8_t *source, int32_t *out1, int32_t *out2)
\x7b
    int32_t inA;
    memcpy(&inA, source, 4);
    source += 4;

    int32_t inAbuf1 = __sxtb16(__ror((uint32_t)inA, 8));
    int32_t inAbuf2 = __sxtb16(inA);
    *out2 = (int32_t)(__pkhtb(inAbuf1, inAbuf2, 16));
    *out1 = (int32_t)(__pkhbt(inAbuf2, inAbuf1, 16));

    return source;
\x7d
#endif
"

def operands : String := "@type@ *aa, @type@ *bb, int32_t *cc,
    int A_stride, int B_stride, int C_stride) \x7b
"

/-- The products of all rows, of so many values that do not fill a word. -/
def restRows (gap : String) (count : Nat) : String :=
  let product (l : Nat) : String := "(int32_t) a_ptr[" ++ toString l ++ "] * (int32_t) b_ptr[" ++ toString l ++ "]"
  let more := (List.range (count - 1)).map fun l => "\n                               @gap@+ " ++ product (l + 1)
  gap ++ "for (int i = 0; i < @M@; i++) \x7b\n" ++
  gap ++ "  for (int j = 0; j < @N@; j++) \x7b\n" ++
  gap ++ "    @type@ *a_ptr = &aa[i * A_stride + k_base];\n" ++
  gap ++ "    @type@ *b_ptr = &bb[j * B_stride + k_base];\n" ++
  gap ++ "    cc[i * C_stride + j] @set@ " ++ (if count == 1 then "" else "  ") ++ product 0 ++ .join more ++ ";\n" ++
  gap ++ "  \x7d\n" ++ gap ++ "\x7d\n"

/-- The product of the values that do not fill a word, up to three of 8 bits and one of 16 bits. -/
def rest (wide : Bool) : String := "@family@_@M@x@N@_@part@_rest_@id@(
    int K,
    " ++ operands ++ "  int k_base = (K / @lanes@) * @lanes@;\n" ++
  (if wide then restRows "  " 1 else
    "  switch ( K % 4 ) \x7b\n" ++ .join ([1, 2, 3].map fun count =>
      "  case " ++ toString count ++ ":\n" ++ restRows "    " count ++ "    break;\n") ++ "  \x7d\n") ++ "  return 0;
\x7d
"

def loop : String := "@family@_@M@x@K@x@N@_@part@_loop_@id@(
    " ++ operands ++ "  for (int i = 0; i < @M@; i++) \x7b
    for (int j = 0; j < @N@; j++) \x7b
      int32_t sum = 0;
      for (int l = 0; l < @K@; l++) \x7b
        sum += (int32_t) aa[i*A_stride + l] * (int32_t) bb[j*B_stride + l];
      \x7d
@note@      cc[i*C_stride + j] @set@ sum;
    \x7d
  \x7d
  return 0;
\x7d
"

/-- The rows of the product of values of 8 bits, which are widened first. -/
def rows8 : String := "  for (int i = 0; i < @N@; i++)
    for (int j = 0; j < @K@ / 4; j++)
      read_and_pad(&bb[i*B_stride + j*4], (int32_t*) &bb_pad[i*@K@ + j*4], (int32_t*) &bb_pad[i*@K@ + j*4 + 2]);

  for (int i = 0; i < @M@; i++) \x7b
    int16_t aa_pad_line[@K@];
    for (int l = 0; l < @K@ / 4; l++)
      read_and_pad(&aa[i*A_stride + l*4], (int32_t*) &aa_pad_line[l*4], (int32_t*) &aa_pad_line[l*4 + 2]);

    for (int j = 0; j < @N@; j++) \x7b
      int32_t *aa_ptr = (int32_t *) aa_pad_line;
      int32_t *bb_ptr = (int32_t *) &bb_pad[j*@K@];
      int32_t sum = 0;
      for (int l = 0; l < 2 * (@K@ / 4); l++) \x7b
        sum = __smlad(*aa_ptr, *bb_ptr, sum);
        ++ aa_ptr; ++ bb_ptr;
"

def rows16 : String := "@check@  for (int i = 0; i < @M@; i++) \x7b
    for (int j = 0; j < @N@; j++) \x7b
      int32_t aa_vector[@K@ / 2];
      int32_t bb_vector[@K@ / 2];
      memcpy(&aa_vector, &aa[i * A_stride], sizeof(aa_vector));
      memcpy(&bb_vector, &bb[j * B_stride], sizeof(bb_vector));

      int32_t sum = 0;
      for (int l = 0; l < @K@ / 2; l++) \x7b
        sum = __smlad(aa_vector[l], bb_vector[l], sum);
"

def main (wide : Bool) : String := "@family@_@M@x@K@x@N@_@part@_@id@(
    " ++ operands ++ (if wide then "" else "  int16_t bb_pad[@size@];\n") ++ "  int32_t retcode = 0;

  if ( @M@ < 2 && @N@ < 2 ) \x7b
    retcode = @family@_@M@x@K@x@N@_@part@_loop_@id@(aa, bb, cc, A_stride, B_stride, C_stride);
    goto out;
  \x7d

" ++ (if wide then rows16 else rows8) ++ "      \x7d
@note@      cc[i*C_stride + j] @set@ sum;
    \x7d
  \x7d

  if ( @K@ % @lanes@ != 0 )
    @family@_@M@x@N@_@part@_rest_@id@(@K@, aa, bb, cc, A_stride, B_stride, C_stride);

out:
  return retcode;
\x7d
"

def reset : String := "gemm_@M@x@K@x@N@_reset_@id@(int32_t *cc, int C_stride) \x7b
  for (int i = 0; i < @M@; i++) \x7b
    for (int j = 0; j < @N@; j++) \x7b
      cc[i*C_stride + j] = 0;
    \x7d
  \x7d
  return 0;
\x7d
"

def productValues (m k n : Int) (id : String) : List (String × String) := [
  ("M", toString m), ("K", toString k), ("N", toString n), ("size", toString (n * k)), ("id", id)]

def partTexts (values : List (String × String)) (wide : Bool) (p : ProductPart) : List String :=
  let values := values ++ [
    ("part", p.name), ("set", p.assign), ("gap", p.gap), ("note", p.note), ("check", p.check),
    ("family", if wide then "gemm16" else "gemm"), ("type", if wide then "int16_t" else "int8_t"),
    ("lanes", if wide then "2" else "4")]
  [rest wide, loop, main wide].map (fillIn values)

/-- The text of the product of an `m` by `k` matrix with the transpose of an `n` by `k` one. -/
def matrixProduct (m k n : Int) (id : String) : String :=
  let values := productValues m k n id
  readAndPad ++ "\n\n\n" ++ functions ( partTexts values false bodyPart ++ partTexts values false updatePart ++
    partTexts values true bodyPart ++ partTexts values true updatePart ++
    [fillIn values reset])

/-! ### Pooling on words

The functions that take the greatest of values of 8 bits, four in a word, and that add values of
16 bits, two in a word.
-/

def maximumTexts : List String := [
  "max8_reset_@id@(
    int8_t *res,
    int N) \x7b
  memset(res, (int8_t)-128, N * sizeof(*res));
  return 0;
\x7d
", "max8_loop_@id@(
    int8_t *arg,
    int8_t *res,
    int N) \x7b
  for ( int i = 0; i < N; ++ i )
    if ( arg[i] > res[i] )
      res[i] = arg[i];
  return 0;
\x7d
", "max8_@id@(
    int8_t *arg,
    int8_t *res,
    int N) \x7b
  int32_t *parg32, *pres32;
  int una_arg = (int32_t)arg & 0x3, una_res = (int32_t)res & 0x3;
  int32_t retcode = 0;

  if ( N < 4 || ((una_arg || una_res) && una_arg != una_res) ) \x7b
    retcode = max8_loop_@id@(arg, res, N);
    goto out;
  \x7d
  if ( una_arg ) \x7b
    int n = (4 - una_arg);
    if ( n > N || (N - n) < 4 )
      n = N;
    retcode = max8_loop_@id@(arg, res, n);
    N -= n;
    if ( N == 0 )
      goto out;
    arg += n; res += n;
  \x7d

  parg32 = (int32_t *)arg;
  pres32 = (int32_t *)res;

  for ( int i = 0; i < N / 4; ++ i ) \x7b
    int32_t arg32 = *parg32 ++;
    int32_t res32 = *pres32;
    __ssub8(arg32, res32);
    res32 = __sel(arg32, res32);
    *pres32 ++ = res32;
  \x7d

  if ( N & 0x3 ) \x7b
    retcode = max8_loop_@id@((int8_t *)parg32, (int8_t *)pres32, N & 0x3);
    goto out;
  \x7d

out:
  return retcode;
\x7d
"]

def sumReset : String := "sum16_reset_@id@(
    int16_t *res) \x7b
  *res = (int16_t)0;
  return 0;
\x7d
"

def sumText : String := "sum16_@N@_@id@(
    int16_t *arr,
    int16_t *res16,
    long arr_offset,
    int reset) \x7b
  int n;
  int32_t *p32;
  int32_t res = reset ? 0 : *res16;

  if ( arr_offset % 4 != 0 ) \x7b
    res += *arr;
    p32 = (int32_t *)(&arr[1]);
    n = @N@ - 1;
  \x7d else \x7b
    p32 = (int32_t *)arr;
    n = @N@;
  \x7d

  for ( int i = 0; i < n / 2; ++ i ) \x7b
    res = __smlad(*p32, 0x00010001, res);
    ++ p32;
  \x7d

  if ( n % 2 != 0 )
    res += *(int16_t *)p32;

  *res16 = res;

  return 0;
\x7d
"

def maximum (id : String) : String := "\n\n\n" ++ functions (maximumTexts.map (fillIn [("id", id)]))

def sum (count : Int) (id : String) : String :=
  let fill := fillIn [("N", toString count), ("id", id)]
  let marked := replaceIn "#endif\n" "#endif // __cplusplus\n" linkage
  "\n\n" ++ marked ++ fill sumReset ++ "\n" ++ functions [fill sumText]

/-! ### Convolution of several channels at once

A word holds the values of several channels at one place, so that the sums of all of them are taken
in one pass over the kernel.
-/

def lanesPerWord (type : String) : Result Int := do
  require (startsWith "int" type) .failedCheck ""
  let width ← orFail .badValue (Text.readInt? (type.toList.drop 3))
  demand (width != 0) .zeroDivision
  return (32 : Int).fdiv width

def quadParameters : List String := [
  "arranged_kernel,",
  "tensor_c3210,",
  "sum_c0, sum_c1, sum_c2, sum_c3) \x7b"]

/-- The statements of the step that sums four channels, in groups. -/
def quadStatements : List (List String) := [
  ["uint32_t kernel_c3210 = *arranged_kernel++;"],
  ["uint32_t tensor_c20 = __sxtb16(tensor_c3210);", "uint32_t kernel_c20 = __sxtb16(kernel_c3210);",
   "sum_c0 = __builtin_arm_smlabb(tensor_c20, kernel_c20, sum_c0);",
   "sum_c2 = __builtin_arm_smlatt(tensor_c20, kernel_c20, sum_c2);"],
  ["uint32_t tensor_c31 = __sxtb16(__ror(tensor_c3210, 8));", "uint32_t kernel_c31 = __sxtb16(__ror(kernel_c3210, 8));",
   "sum_c1 = __builtin_arm_smlabb(tensor_c31, kernel_c31, sum_c1);",
   "sum_c3 = __builtin_arm_smlatt(tensor_c31, kernel_c31, sum_c3);"]]

def quadStep : String :=
  let gap := "          "
  "        #define TVMGEN_QUAD_INT8_CHANNEL_REARRANGE_SUM_DSP( " ++
    .join (quadParameters.map (gap ++ "  " ++ · ++ " ")) ++
    .join (quadStatements.map fun g => gap ++ .join (g.map (gap ++ · ++ " "))) ++
    "        \x7d\n"

def channelLinkage : String := "
        /* We do four channels at once to get this speed boost. */
        #ifdef __cplusplus
        extern \"C\"
        #endif
"

def quadSums : String := "              TVMGEN_QUAD_INT8_CHANNEL_REARRANGE_SUM_DSP(
                kernel,
                *(tensor + j * @column@ + i * @row@),
                sum_c0, sum_c1, sum_c2, sum_c3)
"

def dualSums : String := "              uint32_t tensor_c10 = *(tensor + j * @column@
                + i * @row@);
              uint32_t kernel_c10 = *kernel++;
              sum_c0 = __builtin_arm_smlabb(tensor_c10, kernel_c10, sum_c0);
              sum_c1 = __builtin_arm_smlatt(tensor_c10, kernel_c10, sum_c1);
"

/-- The function that takes the sums of some channels, by the given statements at each place of the
kernel. -/
def channelFunction (channels : Nat) (sums step : String) : String :=
  let each text : String := .join ((List.range channels).map fun c => text (toString c))
  "        int32_t @name@(
            uint32_t *out,
            uint32_t *tensor,
            uint32_t *kernel) \x7b

" ++ each ("          uint32_t sum_c" ++ · ++ " = 0;\n") ++ "
          #pragma GCC unroll 3
          for (int i = 0; i < @height@; i++) \x7b
            #pragma GCC unroll 3
            for (int j = 0; j < @width@; j++) \x7b
" ++ sums ++ "            \x7d
          \x7d

" ++ each (fun c => "          out[" ++ c ++ "] = sum_c" ++ c ++ ";\n") ++ "          return 0;
        \x7d

        #undef TVMGEN_" ++ step ++ "\n"

structure ChannelConvolution where
  (tensorWidth channels kernelHeight kernelWidth : Int)
  suffix : String

def ChannelConvolution.text (c : ChannelConvolution) (wide : Bool) : String :=
  let type := if wide then "int16" else "int8"
  let column := c.channels.fdiv (if wide then 2 else 4)
  let name := "kernel_convolve_" ++ type ++ "_w" ++ toString c.tensorWidth ++ "_c" ++
    toString c.channels ++ "_kh" ++ toString c.kernelHeight ++ "_kw" ++ toString c.kernelWidth ++
    "_" ++ c.suffix
  let values := [
    ("name", name), ("height", toString c.kernelHeight), ("width", toString c.kernelWidth),
    ("column", toString column), ("row", toString (c.tensorWidth * column))]
  if wide then "\n        #include <stdint.h>\n" ++ channelLinkage ++
    fillIn values (channelFunction 2 dualSums "DUAL_INT16_CHANNEL_REARRANGE_SUM")
  else
    "\n        // __SXTB16(_ROR(X, Y)) is combined into one assembly instruction\n\n" ++ quadStep ++
      channelLinkage ++ fillIn values (channelFunction 4 quadSums "QUAD_INT8_CHANNEL_REARRANGE_SUM_DSP")

/-! ### Requests for kernel texts

Kernels and parts of kernels as they are asked for.
-/

variable (j : Json)

def integersOf : List Int := j.items.map Json.integer

def Halfword.ofJson : Halfword :=
  match integersOf j with
  | [y, x] => some (y, x)
  | _ => none

def halfwordsOf : List Halfword := j.items.map .ofJson

def Halfword.report (h : Halfword) : Report := toReport (h.map fun (y, x) => [y, x])

def Window.ofJson : Result Window :=
  match integersOf j with
  | [tensorWidth, kernelHeight, kernelWidth] => .ok { tensorWidth, kernelHeight, kernelWidth }
  | _ => fail .badValue

def Mac.ofJson : Mac := ⟨.ofName (j.item 0).text, (j.item 1).text, (j.item 2).text⟩

def statementTexts (statements : List Statement) : Report := toReport (statements.map Statement.text)

def dotProductReport : Result Report := do
  let quant := j.field "quant"
  demand (quant.fields.all fun (n, _) => n == "requantize_shift" || n == "output_zero_point") .badType
  let given := fun name default => ((quant.field? name).map Json.integer).getD default
  let d ← DotProduct.ofLists (j.field "num_outputs").integer (integersOf (j.field "dimensions"))
    (integersOf (j.field "offsets")) (integersOf (j.field "x_strides"))
    (given "requantize_shift" 33) (given "output_zero_point" (-128))
  return .record [("name", .text d.name), ("code", .text (← d.code))]

def dotProductPart (part : String) (args : Json) : Result Report := do
  let number := fun i => (args.item i).integer
  match part, args.items.length with
  | "tensor_halfwords", 4 =>
    let w ← Window.ofJson (args.item 0)
    return .list ((w.tensorHalfwords (number 1) (number 2) (number 3)).map Halfword.report)
  | "kernel_halfwords", 2 =>
    let w ← Window.ofJson (args.item 0)
    return .list ((w.kernelHalfwords (number 1)).map Halfword.report)
  | "write_sums", 3 => return statementTexts (writeStatements (number 0) (number 1) (number 2))
  | "alias", 1 => return .text (Halfword.alias (.ofJson (args.item 0)))
  | "load_tensor", 2 => return statementTexts (← tensorLoads (halfwordsOf (args.item 0)) (number 1))
  | "load_kernel", 1 => return statementTexts (← kernelLoads (halfwordsOf (args.item 0)))
  | "simd", 2 =>
    let macs := (args.item 0).items.map .ofJson
    return toReport (← macLines (fuse macs) ("sum_" ++ (Value.ofJson (args.item 1)).display))
  | _, _ => fail .badType

def afterHeader (code : String) : Report := .record [("header", .bool true), ("code", .text code)]

def kernelReport (kind : String) (args : Json) : Result Report := do
  let number := fun i => (args.item i).integer
  let text := fun i => (Value.ofJson (args.item i)).display
  match kind, args.items.length with
  | "simd_lanes", 1 => return .int (← lanesPerWord (text 0))
  | "gemm", 4 => return afterHeader (matrixProduct (number 0) (number 1) (number 2) (text 3))
  | "max", 1 => return afterHeader (maximum (text 0))
  | "sum", 2 => return afterHeader (sum (number 0) (text 1))
  | "convolve", n =>
    demand (0 < n) .badType
    let type := text 0
    if type == "int8" || type == "int16" then
      demand (n == 7) .badType
      let c : ChannelConvolution := {
        tensorWidth := number 2, channels := number 3, kernelHeight := number 4,
        kernelWidth := number 5, suffix := text 6 }
      return afterHeader (c.text (type == "int16"))
    else
      refuse .unsupported ("No Cortex-M " ++ type ++ " depthwise_conv2d implementation exists!")
  | _, _ => fail .badType

end TensorToolchain.Microkernel
