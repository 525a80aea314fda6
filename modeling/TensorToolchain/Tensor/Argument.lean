import TensorToolchain.Bytes
import TensorToolchain.Tensor.Slice

/-!
# Tensors with an element type

A tensor of numbers together with the type its elements are stored in. Operations on two of them
are computed in the type in which the two types meet.

The bytes of the elements of an array, in order, each with its lowest byte first.
-/

namespace TensorToolchain

open Tensor List

open Number (Scalar decode infinity ofInt withSign stripZeros shortestSingle)

/-! ### Element types

The types that the elements of an array can have, how a number is stored in each of them, and the
type in which two of them meet.
-/

inductive ElementType where
  | bool
  | int (bits : Nat)
  | uint (bits : Nat)
  | float (bits : Nat)
  deriving DecidableEq, Inhabited

def double : ElementType := .float 64

namespace ElementType

def name : ElementType → String
  | bool => "bool"
  | int b => "int" ++ toString b
  | uint b => "uint" ++ toString b
  | float b => "float" ++ toString b

def all : List ElementType := bool :: [8, 16, 32, 64].flatMap (fun b => [int b, uint b]) ++ [16, 32, 64].map float

def ofName (name : String) : Result ElementType := orFail .badType (all.find? (·.name == name))

def bytes : ElementType → Nat
  | bool => 1
  | int b | uint b | float b => b / 8

/-- The nearest number with eleven significant bits and a five bit exponent. -/
def roundHalf (x : Float) : Float :=
  match decode x with
  | .finite d =>
    if d.mantissa == 0 then x
    else
      let low := max (d.exponent + d.mantissa.log2 - 10) (-24)
      let unit := (2.0 : Float) ^ ofInt low
      match Number.roundEven? (x / unit) with
      | some n =>
        let y := ofInt n * unit
        if y.abs > 65504.0 then (if y < 0.0 then -infinity else infinity)
        else if n == 0 then Number.zeroLike x
        else y
      | none => x
  | _ => x

def roundFloat (bits : Nat) (x : Float) : Float :=
  if bits == 64 then x else if bits == 32 then x.toFloat32.toFloat else roundHalf x

def wrapSigned (bits : Nat) (n : Int) : Int :=
  let m := n % (.pow 2 bits : Nat)
  if m < (.pow 2 (bits - 1) : Nat) then m else m - (.pow 2 bits : Nat)

/-- A number as an integer, towards zero; what has no integer part becomes the least integer of
some bits. -/
def integerPart (bits : Nat) : Scalar → Int
  | .int n => n
  | .float x => (Number.truncate? x).getD (if bits < 32 then 0 else -(.pow 2 (bits - 1) : Nat))

def store : ElementType → Scalar → Scalar
  | bool, s => .int (if s.isNonzero then 1 else 0)
  | int b, s => .int (wrapSigned b (integerPart b s))
  | uint b, s => .int (integerPart b s % (.pow 2 b : Nat))
  | float b, s => .float (roundFloat b s.approx)

def report (t : ElementType) (s : Scalar) : Report :=
  match t, s with
  | bool, s => .bool s.isNonzero
  | _, .int n => .int n
  | _, .float x => .float x

/-- The least floating-point type that holds the integers of some bits next to another one. -/
def floatWith (bits width : Nat) : ElementType :=
  if bits ≤ 8 then .float width else if bits ≤ 16 then .float (max width 32) else .float 64

/-- The least signed type that holds signed integers of some bits and unsigned ones of others. -/
def signedWith (signed unsigned : Nat) : ElementType :=
  if unsigned < signed then .int signed
  else if unsigned < 64 then .int (2 * unsigned)
  else .float 64

def join : ElementType → ElementType → ElementType
  | bool, t => t
  | t, bool => t
  | int a, int b => int (max a b)
  | uint a, uint b => uint (max a b)
  | int a, uint b => signedWith a b
  | uint a, int b => signedWith b a
  | float a, float b => float (max a b)
  | float a, int b | float a, uint b => floatWith b a
  | int a, float b | uint a, float b => floatWith a b

def real : ElementType → ElementType
  | float b => float b
  | _ => float 64

/-- The type in which elements meet a single number: an integer keeps the type, another number
makes integers floating-point. -/
def withScalar (t : ElementType) : Scalar → ElementType
  | .int _ => if t == bool then .int 64 else t
  | .float _ => t.real

end ElementType

def Number.Scalar.combine (onInt : Int → Int → Int) (onFloat : Float → Float → Float) (a b : Scalar) : Scalar :=
  match a, b with
  | .int m, .int n => .int (onInt m n)
  | _, _ => .float (onFloat a.approx b.approx)

namespace ElementType

variable (t : ElementType)

def add (a b : Scalar) : Scalar := t.store (a.combine (· + ·) (· + ·) b)

def sub (a b : Scalar) : Scalar := t.store (a.combine (· - ·) (· - ·) b)

def mul (a b : Scalar) : Scalar := t.store (a.combine (· * ·) (· * ·) b)

/-- The quotient as it is stored; division by zero is infinite or undefined. -/
def div (a b : Scalar) : Scalar := t.store (.float (a.approx / b.approx))

def zero : Scalar := t.store (.int 0)

def less (a b : Scalar) : Bool :=
  match a, b with
  | .int m, .int n => m < n
  | _, _ => a.approx < b.approx

end ElementType

structure TypedTensor where
  type : ElementType
  body : Tensor Scalar
  deriving Inhabited

instance : ToReport TypedTensor where
  toReport t := .array t.body.shape t.type.name (t.body.data.toList.map t.type.report)

def ElementType.arithmetic (t : ElementType) : Arithmetic Scalar := ⟨t.zero, t.add, t.mul⟩

namespace TypedTensor

def shape (t : TypedTensor) : List Nat := t.body.shape

def rank (t : TypedTensor) : Nat := t.body.rank

variable (t : TypedTensor)

def dim (axis : Nat) : Nat := t.shape.getD axis 0

def cast (type : ElementType) : TypedTensor := ⟨type, t.body.map type.store⟩

def constant (type : ElementType) (shape : List Nat) (s : Scalar) : TypedTensor :=
  ⟨type, .full shape (type.store s)⟩

def arrange (f : Tensor Scalar → Result (Tensor Scalar)) : Result TypedTensor := do
  return ⟨t.type, ← f t.body⟩

def transpose (t : TypedTensor) (axes : List Nat) : Result TypedTensor := t.arrange (·.transpose axes)

def reshape (t : TypedTensor) (shape : List Nat) : Result TypedTensor := t.arrange (·.reshape shape)

def combine (op : ElementType → Scalar → Scalar → Scalar) (s t : TypedTensor) : Result TypedTensor := do
  let type := s.type.join t.type
  return ⟨type, ← s.body.zipWith (op type) t.body⟩

def add : TypedTensor → TypedTensor → Result TypedTensor := combine ElementType.add

def sub : TypedTensor → TypedTensor → Result TypedTensor := combine ElementType.sub

def mul : TypedTensor → TypedTensor → Result TypedTensor := combine ElementType.mul

def div (s t : TypedTensor) : Result TypedTensor := do
  let type := (s.type.join t.type).real
  return ⟨type, ← s.body.zipWith type.div t.body⟩

def withScalar (op : ElementType → Scalar → Scalar → Scalar) (t : TypedTensor) (s : Scalar) : TypedTensor :=
  let type := t.type.withScalar s
  ⟨type, t.body.map (op type · s)⟩

def mapReal (f : Float → Float) (t : TypedTensor) : TypedTensor :=
  let type := t.type.real
  ⟨type, t.body.map fun x => type.store (.float (f x.approx))⟩

/-! ### Sums along axes -/

def sumOfEight (ty : ElementType) (r : Array Scalar) : Scalar :=
  let g := (r.getD · (ty.zero))
  ty.add (ty.add (ty.add (g 0) (g 1)) (ty.add (g 2) (g 3))) (ty.add (ty.add (g 4) (g 5)) (ty.add (g 6) (g 7)))

def eightSums (ty : ElementType) : Nat → List Scalar → Array Scalar → Array Scalar × List Scalar
  | 0, xs, r => (r, xs)
  | n + 1, xs, r =>
    eightSums ty n (xs.drop 8) (((range 8).map fun i => ty.add (r.getD i ty.zero) (xs.getD i ty.zero)).toArray)

/-- The sum of at most 128 numbers: short lists from left to right, others by eight running
sums. -/
def blockSum (ty : ElementType) (xs : List Scalar) : Scalar :=
  if xs.length < 8 then xs.foldl ty.add ty.zero
  else
    let (r, rest) := eightSums ty (xs.length / 8 - 1) (xs.drop 8) (xs.take 8).toArray
    rest.foldl ty.add (sumOfEight ty r)

/-- The sum of numbers that lie side by side, by halves down to blocks of 128. -/
def pairwiseSum (ty : ElementType) : Nat → List Scalar → Scalar
  | 0, xs => blockSum ty xs
  | fuel + 1, xs =>
    let n := xs.length
    if n ≤ 128 then blockSum ty xs
    else
      let half := n / 2 - (n / 2) % 8
      ty.add (pairwiseSum ty fuel (xs.take half)) (pairwiseSum ty fuel (xs.drop half))

def total (ty : ElementType) (xs : List Scalar) : Scalar := pairwiseSum ty xs.length xs

/-- The elements whose index agrees with an index outside the reduced axes, in order. -/
def fiber (t : Tensor Scalar) (axes index : List Nat) : List Scalar :=
  let reduced := pick t.shape axes
  (indices reduced).map fun r =>
    t.get ((range t.rank).map fun a => if axes.contains a then r.getD (axes.idxOf a) 0 else index.getD a 0)

def keptShape (t : Tensor Scalar) (axes : List Nat) : List Nat :=
  t.shape.zipIdx.map fun (n, a) => if axes.contains a then 1 else n

def reduce (axes : List Nat) (type : ElementType) (f : List Scalar → Result Scalar) : Result TypedTensor := do
  return ⟨type, ← ofFnM (keptShape t.body axes) fun i => f (fiber t.body axes i)⟩

/-- Axes that may count from the end, in order and without repetition. -/
def axesOf (rank : Nat) (axes : List Int) : Result (List Nat) := do
  let found ← axes.mapM fun a =>
    let j : Int := if a < 0 then a + rank else a
    if 0 ≤ j && j < rank then .ok j.toNat else fail .badAxis
  if found.Nodup then return found.mergeSort else fail .badValue

/-- The sum of a fiber: along the last axis side by side, otherwise from left to right. -/
def fiberSum (rank : Nat) (axes : List Nat) (ty : ElementType) (xs : List Scalar) : Scalar :=
  if axes.getLast? == some (rank - 1) then total ty xs else xs.foldl ty.add ty.zero

def sumAlong (axes : List Nat) : Result TypedTensor :=
  t.reduce axes t.type fun xs => .ok (fiberSum t.rank axes t.type xs)

def greater (a b : Scalar) : Scalar :=
  if a.approx.isNaN then a else if b.approx.isNaN then b
  else if ElementType.less a b then b else a

def greatest : List Scalar → Result Scalar
  | [] => fail .badValue
  | x :: xs => .ok (xs.foldl greater x)

def maxAlong (axes : List Nat) : Result TypedTensor := t.reduce axes t.type greatest

def average (type : ElementType) (sum : List Scalar → Scalar) (xs : List Scalar) : Scalar :=
  type.div (sum xs) (.int xs.length)

def meanAlong (axes : List Nat) : Result TypedTensor :=
  let type := t.type.real
  t.reduce axes type fun xs => .ok (average type (fiberSum t.rank axes type) xs)

end TypedTensor

/-! ### Elements as bytes -/

def halfBits (x : Float) : Nat :=
  match decode x with
  | .undefined => 0x7e00
  | .infinite negative => 0x7c00 + (if negative then 0x8000 else 0)
  | .finite d =>
    let sign := if d.negative then 0x8000 else 0
    let e := d.exponent + d.mantissa.log2
    let scale := if -14 ≤ e then 10 - e else 24
    let (a, b) := Number.scaled 2 d.mantissa 1 (d.exponent + scale)
    if d.mantissa == 0 then sign
    else if -14 ≤ e then sign + (e + 15).toNat * 1024 + (a / b - 1024)
    else sign + a / b

def ElementType.encode (t : ElementType) (s : Scalar) : List UInt8 :=
  match t, s with
  | .float 32, s => littleEndian 4 s.approx.toFloat32.toBits.toNat
  | .float 64, s => littleEndian 8 s.approx.toBits.toNat
  | .float _, s => littleEndian 2 (halfBits s.approx)
  | t, .int n => signedBytes t.bytes n
  | t, .float _ => signedBytes t.bytes 0

def TypedTensor.encode (t : TypedTensor) : List UInt8 := t.body.data.toList.flatMap t.type.encode

/-! ### Padding amounts

Padding is given by one number for
all axes, by one number or two numbers for each axis, or by a name: with `VALID` nothing is padded,
with `SAME` as much as keeps the size. An odd amount puts one more before than after.
-/

inductive PaddingRequest where
  | amounts (ns : List Int)
  | all (n : Int)
  | named (name : String)
  /-- Anything else, with the text under which it is refused. -/
  | unknown (text : String)

namespace PaddingRequest

def ofJson : Json → PaddingRequest
  | .arr xs => amounts (xs.map Json.integer)
  | .int n => all n
  | .bool b => all (if b then 1 else 0)
  | .str s => named s
  | .float x => unknown (Number.readable x)
  | _ => unknown "None"

/-- The sizes of lists of amounts that are accepted, worded. -/
def sizeMessage : Option Nat → String
  | some 3 => "Size of padding can only be 3 or 6"
  | some _ => "Size of padding can only be 2 or 4"
  | none => "Size of padding can only be len(kernel) or len(kernel) * 2"

/-- Split a total amount: the larger half before. -/
def halves (totals : List Int) : List Int × List Int :=
  let before := totals.map fun n => (n + 1).fdiv 2
  (before, (totals.zip before).map fun (n, b) => n - b)

/-- The amounts before and after each axis. `worded` tells how a list of another size is refused:
for a fixed number of axes or for any. -/
def resolve (request : PaddingRequest) (axes : Nat) (worded : Option Nat)
    (kernel : Result (List Int)) : Result (List Int × List Int) :=
  match request with
  | amounts ns =>
    if ns.length == axes then .ok (halves (ns.map (· * 2)))
    else if ns.length == 2 * axes then .ok (ns.take axes, ns.drop axes)
    else refuse .badValue (sizeMessage worded)
  | all n => .ok (halves (.replicate axes (n * 2)))
  | named name =>
    if name == "VALID" then .ok (halves (.replicate axes 0))
    else if name == "SAME" then do
      let ks ← kernel
      if ks.length < axes then fail .badIndex else return halves ((ks.take axes).map (· - 1))
    else refuse .badValue ("Unknown padding option " ++ name)
  | unknown text => refuse .badValue ("Unknown padding option " ++ text)

def forAxes (request : PaddingRequest) (axes : Nat) (kernel : List Int) : Result (List Int × List Int) :=
  request.resolve axes (some axes) (.ok kernel)

def forKernel (request : PaddingRequest) (kernel : List Int) : Result (List Int × List Int) :=
  request.resolve kernel.length none (.ok kernel)

end PaddingRequest

inductive Argument where
  | none
  | bool (b : Bool)
  | int (n : Int)
  | float (x : Float)
  | text (s : String)
  | list (items : List Argument)
  | tuple (items : List Argument)
  | tensor (t : TypedTensor)

/-! ### Reading arguments -/

def numberOf : Json → Scalar
  | .int n => .int n
  | .float x => .float x
  | .bool b => .int (if b then 1 else 0)
  | .str "nan" => .float Number.undefined
  | .str "inf" => .float infinity
  | .str "-inf" => .float (-infinity)
  | _ => .int 0

/-- The elements of a linear pattern: the remainders of `a * i + b` by `m`, less `c`, divided by
`d`. -/
def linearPattern (a b m c d : Int) (count : Nat) : List Scalar :=
  (range count).map fun (i : Nat) =>
    let n := (a * i + b) % m - c
    if d == 1 then .int n else .float (ofInt n / ofInt d)

def TypedTensor.ofJson (j : Json) : Result TypedTensor := do
  let type ← ElementType.ofName ((j.field? "dtype").map Json.text |>.getD "float32")
  let shape := (j.field "shape").items.map (·.integer.toNat)
  let data := match j.field? "lin" with
    | some l =>
      let at' := fun i => (l.item i).integer
      linearPattern (at' 0) (at' 1) (at' 2) (at' 3) (at' 4) (volume shape)
    | .none => (j.field "data").items.map numberOf
  return ⟨type, ⟨shape, (data.map type.store).toArray⟩⟩

namespace Argument

def read : Nat → Json → Result Argument
  | 0, _ => .ok none
  | fuel + 1, j =>
    match j with
    | .null => .ok none
    | .bool b => .ok (bool b)
    | .int n => .ok (int n)
    | .float x => .ok (float x)
    | .str s => .ok (text s)
    | .arr xs => do return list (← xs.mapM (read fuel))
    | .obj _ =>
      match j.field? "tensor", j.field? "tuple" with
      | some t, _ => do return tensor (← TypedTensor.ofJson t)
      | _, some xs => do return tuple (← xs.items.mapM (read fuel))
      | _, _ => .ok none

def ofJson (j : Json) : Result Argument := read (j.depth + 1) j

def items? : Argument → Option (List Argument)
  | list xs | tuple xs => some xs
  | _ => .none

def scalar? : Argument → Option Scalar
  | bool b => some (.int (if b then 1 else 0))
  | int n => some (.int n)
  | float x => some (.float x)
  | _ => .none

variable (a : Argument)

def scalar : Result Scalar := orFail .badType a.scalar?

def real : Result Float := do return (← a.scalar).approx

def integer? : Argument → Option Int
  | bool b => some (if b then 1 else 0)
  | int n => some n
  | _ => .none

def integer : Result Int := orFail .badType a.integer?

def integers : Result (List Int) := do
  (← orFail .badType a.items?).mapM integer

def unpack (n : Nat) (a : Argument) : Result (List Int) := do
  let xs ← orFail .badType a.items?
  if xs.length == n then xs.mapM integer else fail .badValue

def perAxis (n : Nat) (a : Argument) : Result (List Int) :=
  match a.integer? with
  | some k => .ok (.replicate n k)
  | .none => a.unpack n

def asTensor : Argument → Result TypedTensor
  | tensor t => .ok t
  | _ => fail .missingAttribute

def asTensor? : Argument → Result (Option TypedTensor)
  | tensor t => .ok (some t)
  | none => .ok .none
  | _ => fail .missingAttribute

def isText (s : String) : Bool :=
  match a with
  | text t => t == s
  | _ => false

def truthy : Argument → Bool
  | none => false
  | bool b => b
  | int n => n != 0
  | float x => x != 0.0
  | text s => !s.isEmpty
  | list xs | tuple xs => !xs.isEmpty
  | tensor t => t.body.data.any Scalar.isNonzero

mutual

def value : Argument → Value
  | none => .none
  | bool b => .bool b
  | int n => .int n
  | float x => .float x
  | text s => .str s
  | list xs => .list (values xs)
  | tuple xs => .tuple (values xs)
  | tensor _ => .none

def values : List Argument → List Value
  | [] => []
  | a :: as => value a :: values as

end

def padding : Result PaddingRequest :=
  match a with
  | text s => .ok (.named s)
  | list xs | tuple xs => do return .amounts (← xs.mapM integer)
  | _ =>
    match a.integer? with
    | some n => .ok (.all n)
    | .none => .ok (.unknown a.value.display)

def elementType (default : ElementType) : Result ElementType :=
  match a with
  | none => .ok default
  | text s => ElementType.ofName s
  | _ => fail .badType

end Argument

/-- A parameter of an operator, with its default if it has one. -/
structure Parameter where
  name : String
  default : Option Argument := none

/-- Find the argument of each parameter: first those given in order, then those given by name. -/
def bindArguments (params : List Parameter) (args : List Argument)
    (named : List (String × Argument)) : Result (List Argument) := do
  if params.length < args.length then fail .badType
  if !(named.all fun (n, _) => (params.drop args.length).any (·.name == n)) then fail .badType
  let rest ← (params.drop args.length).mapM fun p => orFail .badType ((named.lookup p.name).or p.default)
  return args ++ rest

/-! ### Rows of numbers as text

A row of numbers is shown in brackets, each number in the same number of columns, the points below
one another.
-/

def lineWidth : Nat := 75

def withoutTrailingBlanks (s : String) : String := .ofList (s.toList.reverse.dropWhile (· == ' ')).reverse

/-- Add a word to the lines of a row; a line that would grow too long is closed. -/
def addWord (lines : List String × String) (word : String) : List String × String :=
  let (closed, line) := lines
  if 1 < line.length && lineWidth - 1 < line.length + word.length then
    (closed ++ [withoutTrailingBlanks line], " " ++ word)
  else (closed, line ++ word)

def bracketed (words : List String) : String :=
  let step := fun acc word =>
    let (lines, i) := acc
    let lines := if i == 0 then lines else (lines.1, lines.2 ++ " ")
    (addWord lines word, i + 1)
  let ((closed, line), _) := words.foldl step (([], " "), 0)
  let text := joined "\n" (closed ++ [line])
  "[" ++ .ofList (text.toList.drop 1) ++ "]"

def integerRow (row : List Int) : String :=
  let words := row.map toString
  let width := (words.map String.length).foldl max 0
  bracketed (words.map (padLeft width))

/-- The parts of the text of a number: up to the point, after it, and the exponent. -/
structure NumberParts where
  (whole fraction : String)
  exponent : String := ""

def NumberParts.ofText (text : String) : NumberParts :=
  let (mantissa, exponent) := Text.cutBy (· == 'e') text.toList
  let (whole, fraction) := Text.cutBy (· == '.') mantissa
  ⟨.ofList whole, .ofList (fraction.getD []),
    match exponent with
    | some e => "e" ++ .ofList e
    | none => ""⟩

/-- A number of single precision in positional form with at most eight places. -/
def positionalParts (x : Float) : NumberParts :=
  .ofText <| withSign x "0" fun d =>
    let shortest := shortestSingle x d
    let digits := stripZeros (Nat.repr shortest.digits).toList
    let text := Number.positional digits shortest.exponent false
    if (digits.length : Int) - 1 - shortest.exponent ≤ 8 then text
    else .ofList (stripZeros (Number.fixed 8 x.abs).toList)

def scientificParts (x : Float) : NumberParts :=
  .ofText <| withSign x "0e+00" fun d =>
    let shortest := shortestSingle x d
    Number.scientific (stripZeros (Nat.repr shortest.digits).toList) shortest.exponent

/-- Whether a row is shown in scientific form: a number is very large or small, or two are far
apart. -/
def needsExponent (row : List Float) : Bool :=
  match (row.filter fun x => x.isFinite && x != 0.0).map .abs with
  | [] => false
  | x :: rest =>
    let greatest := rest.foldl max x
    let least := rest.foldl min x
    greatest ≥ 1.0e8 || least < 0.0001 || (greatest / least).toFloat32.toFloat > 1000.0

def singleRow (row : List Float) : String :=
  let scientific := needsExponent row
  let parts := fun x => if scientific then scientificParts x else positionalParts x
  let finite := (row.filter Float.isFinite).map parts
  let longest := fun part => (finite.map fun p => (part p).length).foldl max 0
  let left := longest NumberParts.whole
  let right := longest NumberParts.fraction
  let exponents := longest NumberParts.exponent
  let odd := (row.filter fun x => !x.isFinite).map fun x => (withSign x "" fun _ => "").length
  let after := right + exponents + 1
  let left := (odd.map (· - after)).foldl max left
  let word := fun (x : Float) =>
    if x.isFinite then
      let p := parts x
      let fraction :=
        if scientific then p.fraction ++ .ofList (.replicate (right - p.fraction.length) '0')
        else padRight right p.fraction
      padLeft left p.whole ++ "." ++ fraction ++ p.exponent
    else padLeft (left + after) (withSign x "" fun _ => "")
  bracketed (row.map word)

end TensorToolchain
