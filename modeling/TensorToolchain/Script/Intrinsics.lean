import TensorToolchain.DataType
import TensorToolchain.Tensor.Argument

/-!
# Functions of kernel scripts

The functions that a kernel script may call when it is run directly: loops, allocation, functions
of real numbers, conversions and bit counts.
-/

namespace TensorToolchain.Script

open Number (Scalar)

def countingRange (start stop step : Int) : Result (List Int) :=
  if step == 0 then fail .badValue
  else
    let count := if 0 < step then (stop - start + step - 1).fdiv step
      else (start - stop - step - 1).fdiv (-step)
    .ok ((List.range count.toNat).map fun (i : Nat) => start + i * step)

/-- The items of a loop given by its stop, by start and stop, or by start, stop and step. -/
def loopRange (args : List Argument) : Result (List Int) := do
  match ← args.mapM Argument.integer with
  | [stop] => countingRange 0 stop 1
  | [start, stop] => countingRange start stop 1
  | [start, stop, step] => countingRange start stop step
  | _ => fail .badType

def boundRange (extent : Argument) : Result (List Int) := do
  match ← extent.scalar with
  | .int n => countingRange 0 n 1
  | .float x =>
    if x.isNaN then return []
    else countingRange 0 (← orFail .overflow (Number.ceil? x)) 1

def allocate (shape type : Argument) : Result TypedTensor := do
  let dims ← match shape.integer? with
    | some n => pure [n]
    | none => shape.integers
  demand (dims.all (0 ≤ ·)) .badValue
  let type ← type.elementType (.float 64)
  return .constant type (dims.map Int.toNat) (.int 0)

/-- The precision in which a function of a real number is computed: half for truth values. -/
def realType : Argument → ElementType
  | .bool _ => .float 16
  | _ => .float 64

def wideBound : Int := 9223372036854775808

def realFunction (f : Float → Float) (x : Argument) : Result Report := do
  let s ← x.scalar
  if let .int n := s then
    demand (decide (-wideBound ≤ n ∧ n < 2 * wideBound)) .badType
  return .float ((realType x).store (.float (f s.approx))).approx

def bitCount (n : Nat) : Nat := (Nat.toDigits 2 n).count '1'

def powerMod (modulus base n : Nat) : Nat :=
  if n = 0 then 1 % modulus
  else
    let half := powerMod modulus (base * base % modulus) (n / 2)
    if n % 2 = 1 then half * base % modulus else half

def isWide (n : Int) : Bool := decide (-wideBound ≤ n ∧ n < wideBound)

/-- Whether an integer fits the unsigned integers of 64 bits and no signed ones. -/
def isUnsignedOnly (n : Int) : Bool := decide (wideBound ≤ n ∧ n < 2 * wideBound)

def isMachine : Scalar → Bool
  | .int n => isWide n || isUnsignedOnly n
  | .float _ => true

def scalarReport : Scalar → Report
  | .int n => .int n
  | .float x => .float x

/-- A power: of integers in 64 bits, of real numbers, or exact where an integer fits no machine
type. -/
def power (a b : Argument) : Result Report := do
  let s ← a.scalar
  let t ← b.scalar
  if !(isMachine s && isMachine t) then
    return scalarReport (← Scalar.pow s t)
  match s, t with
  | .int m, .int n =>
    if isWide m && isWide n then
      demand (decide (0 ≤ n)) .badValue
      return .int (ElementType.wrapSigned 64 (powerMod (.pow 2 64) (m % (2 * wideBound)).toNat n.toNat))
    else if isUnsignedOnly m && isUnsignedOnly n then
      return .int (powerMod (.pow 2 64) m.toNat n.toNat)
    else return .float (.pow s.approx t.approx)
  | _, _ => return .float (.pow s.approx t.approx)

/-- A real number rounded to some decimal places, halves of its exact value to the even digit. -/
def roundPlaces (x : Float) (places : Int) : Float :=
  match Number.toRatio? x with
  | none => x
  | some (num, den) =>
    let (a, b) := Number.scaled 10 num.natAbs den places
    let y := Number.ofDecimal (Number.roundDiv a b) (-places)
    if Number.signBit x then -y else y

/-- An integer rounded to a power of ten, halves to the even multiple. -/
def roundInteger (n places : Int) : Int :=
  if 0 ≤ places then n
  else
    let unit := .pow 10 (-places).toNat
    let q : Int := Number.roundDiv n.natAbs unit
    if n < 0 then -(q * unit) else q * unit

def round : List Argument → Result Report
  | [x] => do
    match ← x.scalar with
    | .int n => return .int n
    | .float v =>
      match Number.roundEven? v with
      | some n => return .int n
      | none => if v.isNaN then fail .badValue else fail .overflow
  | [x, .none] => round [x]
  | [x, places] => do
    let p ← places.integer
    match ← x.scalar with
    | .int n => return .int (roundInteger n p)
    | .float v => return .float (roundPlaces v p)
  | _ => fail .badType

/-- An integer from what an argument holds: a number towards zero, or a text. -/
def integerFrom (a : Argument) : Result Int :=
  match a with
  | .text s => orFail .badValue (Text.readInt? s.toList)
  | _ => do (← a.scalar).truncate

def realFrom (a : Argument) : Result Float :=
  match a with
  | .text s => orFail .badValue (Text.readFloat? s.toList)
  | .none => .ok Number.undefined
  | _ => do (← a.scalar).toFloat

def convert (type : ElementType) : List Argument → Result Report
  | [] => .ok (type.report type.zero)
  | [a] => do
    match type with
    | .float _ => return type.report (type.store (.float (← realFrom a)))
    | _ =>
      let n ← integerFrom a
      let top : Int := if type == .uint 64 || type == .uint 32 then 2 * wideBound else wideBound
      demand (decide (-wideBound ≤ n ∧ n < top)) .overflow
      return type.report (type.store (.int n))
  | _ => fail .badType

def greatestOf (a : Argument) : Result Int := do
  match a with
  | .text s =>
    match ← orFail .badType (ArrayElement.fullName? s) >>= ElementType.ofName with
    | .int b => return (.pow 2 (b - 1) : Nat) - 1
    | .uint b => return (.pow 2 b : Nat) - 1
    | _ => fail .badValue
  | _ => fail .badType

def callIntrinsic (name : String) (args : List Argument) (plain : Report) : Result Report := do
  if (wordsOf "unroll vectorize parallel const_range").contains name then
    return toReport (← loopRange args)
  else if name != "bool" && ElementType.all.any (·.name == name) then
    convert (← ElementType.ofName name) args
  else
    match name, args with
    | "bind", [_, e] => return toReport (← boundRange e)
    | "allocate", [s] | "output_tensor", [s] => return toReport (← allocate s (.text "float32"))
    | "allocate", [s, t] | "output_tensor", [s, t] => return toReport (← allocate s t)
    | "allocate", [s, t, _] | "output_tensor", [s, t, _] => return toReport (← allocate s t)
    | "sqrt", [x] => realFunction .sqrt x
    | "rsqrt", [x] => realFunction (1.0 / .sqrt ·) x
    | "log", [x] => realFunction .log x
    | "tanh", [x] => realFunction .tanh x
    | "exp", [x] => realFunction .exp x
    | "sigmoid", [x] => do
      return .float (1.0 / (1.0 + .exp (-(← x.real))))
    | "power", [a, b] => power a b
    | "popcount", [x] =>
      if !x.truthy then return .int 0
      else return .int (bitCount (← x.integer).natAbs)
    | "round", args => round args
    | "likely", [_] => return plain
    | "ceil_div", [a, b] => do
      let a ← a.scalar
      let b ← b.scalar
      return scalarReport (← Scalar.floorDiv (← Scalar.sub (← Scalar.add a b) (.int 1)) b)
    | "inf", [t] | "ninf", [t] => return .int (← greatestOf t)
    | "max_num_threads", _ => fail .missingAttribute
    | _, _ =>
      let known := wordsOf "bind allocate output_tensor sqrt rsqrt log tanh exp sigmoid power popcount likely ceil_div inf ninf"
      if known.contains name then fail .badType
      else fail .missingKey

end TensorToolchain.Script
