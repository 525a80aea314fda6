import TensorToolchain.Fault

/-!
# Numbers

Numbers of double precision, and integers beside them.
-/

namespace TensorToolchain.Number

/-! ### Binary floating-point numbers as exact fractions

A finite floating-point number is an integer times a power of two. That pair is read off the bits
of a `Float`; `Dyadic.toFloat` and `ofRatio` round an exact fraction to the nearest `Float`, a tie
going to the even neighbour.
-/

/-- A number `± mantissa · 2 ^ exponent`. -/
structure Dyadic where
  negative : Bool
  mantissa : Nat
  exponent : Int

inductive Real64 where
  | finite (d : Dyadic)
  | infinite (negative : Bool)
  | undefined

variable (x : Float) (d : Dyadic)

def decode : Real64 :=
  let bits := x.toBits.toNat
  let negative := bits / .pow 2 63 == 1
  let biased : Nat := bits / .pow 2 52 % 2048
  let fraction := bits % .pow 2 52
  if biased == 2047 then
    if fraction == 0 then .infinite negative else .undefined
  else if biased == 0 then .finite ⟨negative, fraction, -1074⟩
  else .finite ⟨negative, fraction + .pow 2 52, (biased : Int) - 1075⟩

/-- The quotient of two naturals rounded to the nearest integer, a tie going to the even one. -/
def roundDiv (num den : Nat) : Nat :=
  let q := num / den
  let r := num % den
  if 2 * r < den then q
  else if 2 * r > den then q + 1
  else if q % 2 == 0 then q else q + 1

def scaled (base num den : Nat) (k : Int) : Nat × Nat :=
  if 0 ≤ k then (num * .pow base k.toNat, den) else (num, den * .pow base (-k).toNat)

/-- The greatest `e` with `base ^ e ≤ num / den`, given a guess that is exact or one too large. -/
def floorExponent (base num den : Nat) (guess : Int) : Int :=
  let (a, b) := scaled base num den (-guess)
  if b ≤ a then guess else guess - 1

/-- The bits of `q · 2 ^ t`, for `q` up to `2 ^ 53` and `t` from `-1074` on; `q` is less than `2 ^
52` only if `t` is `-1074`. A mantissa that has filled all its places carries into the exponent. -/
def bitsOf (q : Nat) (t : Int) : Nat := (t + 1074).toNat * .pow 2 52 + q

def infinityBits : Nat := 2047 * .pow 2 52

/-- The `Float` nearest to `num / den`, a tie going to the even mantissa; `none` beyond the
largest finite one. -/
def nearestFloat? (num den : Nat) : Option Float :=
  if num == 0 then some 0.0
  else
    let e := floorExponent 2 num den ((num.log2 : Int) - den.log2)
    let t := max (e - 52) (-1074)
    let (a, b) := scaled 2 num den (-t)
    let bits := bitsOf (roundDiv a b) t
    if bits < infinityBits then some (.ofBits (.ofNat bits)) else none

/-- The `Float` nearest to an integer fraction, infinite where it is out of range. -/
def ofRatio (num : Int) (den : Nat) : Float :=
  let y := (nearestFloat? num.natAbs den).getD (1.0 / 0.0)
  if num < 0 then -y else y

def ofInt? (n : Int) : Option Float := (nearestFloat? n.natAbs 1).map fun y => if n < 0 then -y else y

def ofInt (n : Int) : Float := ofRatio n 1

def Dyadic.toRatio : Int × Nat :=
  let m : Int := if d.negative then -(d.mantissa : Int) else d.mantissa
  if 0 ≤ d.exponent then (m * Nat.pow 2 d.exponent.toNat, 1) else (m, .pow 2 (-d.exponent).toNat)

def toRatio? : Option (Int × Nat) :=
  match decode x with
  | .finite d => some d.toRatio
  | _ => none

def truncate? : Option Int := (toRatio? x).map fun (n, d) => n.tdiv d

def floor? : Option Int := (toRatio? x).map fun (n, d) => n.fdiv d

def ceil? : Option Int := (toRatio? x).map fun (n, d) => -((-n).fdiv d)

def roundEven? : Option Int :=
  (toRatio? x).map fun (n, d) =>
    let r : Int := roundDiv n.natAbs d
    if n < 0 then -r else r

/-! ### Reading numbers -/

def hexDigit? (c : Char) : Option Nat :=
  if '0' ≤ c ∧ c ≤ '9' then some (c.toNat - '0'.toNat)
  else if 'a' ≤ c ∧ c ≤ 'f' then some (c.toNat - 'a'.toNat + 10)
  else if 'A' ≤ c ∧ c ≤ 'F' then some (c.toNat - 'A'.toNat + 10)
  else none

def ofDigits (digits : List Char) : Nat := digits.foldl (fun n c => 10 * n + (c.toNat - '0'.toNat)) 0

/-- The `Float` nearest to `digits · 10 ^ exponent`. Exponents far outside the range of the
format are cut short: the result is zero or infinite all the same. -/
def ofDecimal (digits : Nat) (exponent : Int) : Float :=
  if digits == 0 then 0.0
  else
    if exponent > 800 then 1.0 / 0.0
    else if (digits.log2 : Int) / 3 + exponent < -2200 then 0.0
    else
      let (a, b) := scaled 10 digits 1 exponent
      (nearestFloat? a b).getD (1.0 / 0.0)

/-! ### Decimal text of floating-point numbers

A number is first rounded to a decimal, `Decimal`, and then laid out. It is rounded to a number of
significant digits, to a number of places, or to the fewest digits that read back as the same
number.
-/

/-- The decimal `digits · 10 ^ (exponent - (number of digits - 1))`: the first digit stands at
`10 ^ exponent`. -/
structure Decimal where
  digits : Nat
  exponent : Int

def digitCount (n : Nat) : Nat := (Nat.repr n).length

def decimalExponent (num den : Nat) : Int := floorExponent 10 num den ((digitCount num : Int) - digitCount den)

/-- A decimal of `count` digits, its first digit moved up if rounding has filled all places. -/
def Decimal.normal (count q : Nat) (e : Int) : Decimal :=
  if q == .pow 10 count then ⟨.pow 10 (count - 1), e + 1⟩ else ⟨q, e⟩

def significant (count num den : Nat) : Decimal :=
  let e := decimalExponent num den
  let (a, b) := scaled 10 num den ((count : Int) - 1 - e)
  .normal count (roundDiv a b) e

/-- The positive fraction that a decimal of `count` digits stands for. -/
def Decimal.toRatio (d : Decimal) (count : Nat) : Nat × Nat := scaled 10 d.digits 1 (d.exponent + 1 - count)

def Dyadic.magnitude : Nat × Nat := scaled 2 d.mantissa 1 d.exponent

/-- Whether rounding `num / den` to the nearest `Float` gives the magnitude of `d`. -/
def Dyadic.readsBack (num den : Nat) : Bool :=
  match nearestFloat? num den with
  | none => false
  | some y =>
    match decode y with
    | .finite e => e.mantissa == d.mantissa && e.exponent == d.exponent
    | _ => false

/-- The two decimals of `count` digits around a positive fraction, the nearer one first. -/
def neighbours (count num den : Nat) : List Decimal :=
  let e := decimalExponent num den
  let (a, b) := scaled 10 num den ((count : Int) - 1 - e)
  let near := roundDiv a b
  let far := if near == a / b then near + 1 else near - 1
  [.normal count near e, .normal count far e]

/-- The decimal with the fewest digits, at least `count` of them, whose value is accepted. -/
def shortestFrom (accepts : Nat → Nat → Bool) (num den count : Nat) : Nat → Decimal
  | 0 => significant count num den
  | fuel + 1 =>
    let hit := (neighbours count num den).find? fun c =>
      let (a, b) := c.toRatio count
      accepts a b
    match hit with
    | some c => c
    | none => shortestFrom accepts num den (count + 1) fuel

/-- The decimal with the fewest significant digits that reads back as the number; of those with
that many digits, the nearest. Seventeen digits always suffice. -/
def shortest : Decimal :=
  let (num, den) := d.magnitude
  shortestFrom d.readsBack num den 1 16

/-- The decimal with the fewest significant digits that reads back as the same number of single
precision. Nine digits always suffice. -/
def shortestSingle : Decimal :=
  let (num, den) := d.magnitude
  let accepts := fun a b => (nearestFloat? a b).any (·.toFloat32.toFloat == x.abs)
  shortestFrom accepts num den 1 8

/-- The decisions of a text form: the exponents written positionally, and whether an integer keeps
a fraction. -/
structure Layout where
  (leastPositional endPositional : Int)
  keepFraction : Bool

def stripZeros (digits : List Char) : List Char := (digits.reverse.dropWhile (· == '0')).reverse

/-- Digits with a point after the first `whole` of them, filled with zeros on either side. -/
def positional (digits : List Char) (exponent : Int) (keepFraction : Bool) : String :=
  if 0 ≤ exponent then
    let whole := exponent.toNat + 1
    let before := digits.take whole ++ .replicate (whole - digits.length) '0'
    let after := digits.drop whole
    let after := if after.isEmpty && keepFraction then ['0'] else after
    .ofList (if after.isEmpty then before else before ++ '.' :: after)
  else
    .ofList ('0' :: '.' :: (.replicate (-exponent - 1).toNat '0' ++ digits))

def scientific (digits : List Char) (exponent : Int) : String :=
  let mark := if exponent < 0 then "e-" else "e+"
  let power := Nat.repr exponent.natAbs
  let power := if power.length < 2 then "0" ++ power else power
  let mantissa :=
    match digits with
    | d :: r@(_ :: _) => .ofList (d :: '.' :: r)
    | ds => .ofList ds
  mantissa ++ mark ++ power

/-- Lay a decimal out, without zeros at its end. -/
def Layout.render (l : Layout) (d : Decimal) : String :=
  let digits := stripZeros (Nat.repr d.digits).toList
  if l.leastPositional ≤ d.exponent && d.exponent < l.endPositional then
    positional digits d.exponent l.keepFraction
  else scientific digits d.exponent

/-- Text of a number, given the text of a positive finite magnitude and of zero. -/
def withSign (zero : String) (magnitude : Dyadic → String) : String :=
  match decode x with
  | .undefined => "nan"
  | .infinite negative => if negative then "-inf" else "inf"
  | .finite d =>
    let text := if d.mantissa == 0 then zero else magnitude d
    if d.negative then "-" ++ text else text

/-- The general form with `count` significant digits: positional from `10 ^ -4` up to
`10 ^ count`, no zeros at the end. -/
def general (count : Nat) (x : Float) : String :=
  withSign x "0" fun d =>
    let (num, den) := d.magnitude
    Layout.render ⟨-4, count, false⟩ (significant count num den)

/-- Answers show nine significant digits, and every zero without a sign. -/
def reported : String :=
  let text := general 9 x
  if text == "-0" then "0" else text

/-- The text with the fewest digits that reads back: positional from `10 ^ -4` up to `10 ^ 16`,
an integer with `.0`. -/
def readable : String := withSign x "0.0" fun d => Layout.render ⟨-4, 16, true⟩ (shortest d)

/-- The digits of `n / 10 ^ places`, with a point before the last `places` of them. -/
def pointed (n places : Nat) : String :=
  let digits := (Nat.repr n).toList
  let digits := .replicate (places + 1 - digits.length) '0' ++ digits
  let whole := digits.length - places
  if places == 0 then .ofList digits
  else .ofList (digits.take whole ++ '.' :: digits.drop whole)

/-- The text with a fixed number of places, a tie going to the even digit. -/
def fixed (places : Nat) (x : Float) : String :=
  withSign x (pointed 0 places) fun d =>
    let (num, den) := d.magnitude
    pointed (roundDiv (num * .pow 10 places) den) places

/-! ### Scalars

Numbers that are either integers of any size or floating-point numbers. An operation on two
integers is exact; as soon as one operand is a floating-point number, the other is converted to the
nearest one. Division of integers by `/` rounds the exact quotient once.
-/

inductive Scalar where
  | int (n : Int)
  | float (x : Float)
  deriving Inhabited

def infinity : Float := 1.0 / 0.0

def undefined : Float := 0.0 / 0.0

def signBit (x : Float) : Bool := x.toBits.toNat / .pow 2 63 == 1

def zeroLike (x : Float) : Float := if signBit x then -0.0 else 0.0

/-- The remainder of `a / b` that has the sign of `a`, exact. -/
def remainder (a b : Float) : Float :=
  match decode a, decode b with
  | .finite x, .finite y =>
    if y.mantissa == 0 then undefined
    else
      let low := min x.exponent y.exponent
      let p := x.mantissa * .pow 2 (x.exponent - low).toNat
      let q := y.mantissa * .pow 2 (y.exponent - low).toNat
      let (n, d) := Dyadic.toRatio ⟨x.negative, p % q, low⟩
      if n == 0 then zeroLike a else ofRatio n d
  | .finite _, .infinite _ => a
  | _, _ => undefined

/-- Quotient rounded down and remainder with the sign of the divisor, which is not zero. -/
def floorDivMod (a b : Float) : Float × Float :=
  let m := remainder a b
  let d := (a - m) / b
  let (m, d) :=
    if m != 0.0 then
      if (b < 0.0) != (m < 0.0) then (m + b, d - 1.0) else (m, d)
    else (zeroLike b, d)
  let q :=
    if d != 0.0 then
      let f := d.floor
      if d - f > 0.5 then f + 1.0 else f
    else zeroLike (a / b)
  (q, m)

namespace Scalar

def toFloat : Scalar → Result Float
  | .int n => orFail .overflow (ofInt? n)
  | .float x => .ok x

def approx : Scalar → Float
  | .int n => ofInt n
  | .float x => x

def isNonzero : Scalar → Bool
  | .int n => n != 0
  | .float x => x != 0.0

/-- An exact operation on integers, and its counterpart on floating-point numbers. -/
def lift (onInt : Int → Int → Int) (onFloat : Float → Float → Float) (a b : Scalar) : Result Scalar :=
  match a, b with
  | .int m, .int n => .ok (.int (onInt m n))
  | _, _ => do return .float (onFloat (← a.toFloat) (← b.toFloat))

def add : Scalar → Scalar → Result Scalar := lift (· + ·) (· + ·)

def sub : Scalar → Scalar → Result Scalar := lift (· - ·) (· - ·)

def mul : Scalar → Scalar → Result Scalar := lift (· * ·) (· * ·)

def neg : Scalar → Scalar
  | .int n => .int (-n)
  | .float x => .float (-x)

def div (a b : Scalar) : Result Scalar :=
  match a, b with
  | .int m, .int n =>
    if n == 0 then fail .zeroDivision
    else
      match nearestFloat? m.natAbs n.natAbs with
      | some q => .ok (.float (if (m < 0) != (n < 0) then -q else q))
      | none => fail .overflow
  | _, _ => do
    let x ← a.toFloat
    let y ← b.toFloat
    if y == 0.0 then fail .zeroDivision else return .float (x / y)

def floorDiv (a b : Scalar) : Result Scalar :=
  match a, b with
  | .int m, .int n => if n == 0 then fail .zeroDivision else .ok (.int (m.fdiv n))
  | _, _ => do
    let x ← a.toFloat
    let y ← b.toFloat
    if y == 0.0 then fail .zeroDivision else return .float (floorDivMod x y).1

def mod (a b : Scalar) : Result Scalar :=
  match a, b with
  | .int m, .int n => if n == 0 then fail .zeroDivision else .ok (.int (m.fmod n))
  | _, _ => do
    let x ← a.toFloat
    let y ← b.toFloat
    if y == 0.0 then fail .zeroDivision else return .float (floorDivMod x y).2

def isIntegral (x : Float) : Bool :=
  match toRatio? x with
  | some (n, d) => n % d == 0
  | none => x.isInf

/-- Power of floating-point numbers; a result that is not a real number is refused. -/
def powFloat (x y : Float) : Result Scalar :=
  if x == 0.0 && y < 0.0 then fail .zeroDivision
  else if x < 0.0 && !x.isInf && !y.isNaN && !isIntegral y then fail .unsupported
  else
    let r := .pow x y
    if r.isInf && !x.isInf && !y.isInf then fail .overflow else .ok (.float r)

def maxPowerBits : Nat := 2000000

/-- Power: of integers exact if the exponent is not negative, else a floating-point number. -/
def pow (a b : Scalar) : Result Scalar :=
  match a, b with
  | .int m, .int n =>
    if 0 ≤ n then
      if 1 < m.natAbs && maxPowerBits < n.natAbs * (m.natAbs.log2 + 1) then fail .overflow
      else if m.natAbs ≤ 1 then
        .ok (.int (if n == 0 then 1 else if m < 0 && n % 2 == 0 then 1 else m))
      else .ok (.int (.pow m n.toNat))
    else do powFloat (← a.toFloat) (← b.toFloat)
  | _, _ => do powFloat (← a.toFloat) (← b.toFloat)

/-- Order of an integer and a floating-point number, exact; none if the latter is undefined. -/
def compareIntFloat (n : Int) (x : Float) : Option Ordering :=
  match decode x with
  | .undefined => none
  | .infinite negative => some (if negative then .gt else .lt)
  | .finite d =>
    let (p, q) := d.toRatio
    some (compare (n * q) p)

def compare? : Scalar → Scalar → Option Ordering
  | .int m, .int n => some (compare m n)
  | .int m, .float y => compareIntFloat m y
  | .float x, .int n => (compareIntFloat n x).map .swap
  | .float x, .float y => if x < y then some .lt else if x == y then some .eq else if y < x then some .gt else none

def equal (a b : Scalar) : Bool := compare? a b == some .eq

def less (a b : Scalar) : Bool := compare? a b == some .lt

def truncate : Scalar → Result Int
  | .int n => .ok n
  | .float x =>
    match decode x with
    | .finite d => let (p, q) := d.toRatio; .ok (p.tdiv q)
    | .infinite _ => fail .overflow
    | .undefined => fail .badValue

end Scalar

end TensorToolchain.Number
