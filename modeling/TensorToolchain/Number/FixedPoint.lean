import TensorToolchain.Number.Scalar

/-!
# Fixed-point values

A real number as an integer of sixteen bits times a power of two. The power is chosen from the
binary exponent of the number in single precision, so that the integer uses fifteen bits, and one
less if rounding leaves the range.
-/

namespace TensorToolchain.Number

/-- The largest magnitude, with its exponent of two, below which a number in single precision
rounds to a finite one. -/
def singleOverflow : Int := (.pow 2 128 : Nat) - (.pow 2 103 : Nat)

/-- The exponent of two of a number in single precision: none if the number is zero or too small to
be normal there. -/
def singleExponent (num : Int) (den : Nat) : Option Int :=
  let n := num.natAbs
  if n == 0 then none
  else
    let e := floorExponent 2 n den (n.log2 - den.log2 : Int)
    let (a, b) := scaled 2 n den (23 - e)
    let e := if 16777216 ≤ roundDiv a b then e + 1 else e
    if e < -126 then none else some e

/-- A ratio of integers times a power of two, rounded to the nearest integer, halves to the even
one. -/
def roundScaled (num : Int) (den : Nat) (exponent : Int) : Int :=
  let (a, b) := scaled 2 num.natAbs den exponent
  if num < 0 then -(roundDiv a b) else roundDiv a b

def fitsFixed (v : Int) : Bool := decide (-32768 ≤ v ∧ v ≤ 32767)

/-- The integer and the exponent of a ratio with a given exponent of two. -/
def fixedOf (num : Int) (den : Nat) (e : Int) : Int × Int :=
  let x := 14 - e
  let v := roundScaled num den x
  if fitsFixed v then (v, x) else (roundScaled num den (x - 1), x - 1)

/-- The fixed-point value of a real number, which must be normal in single precision and not too
small. -/
def fixedPoint (value : Float) (type : String) : Result (Int × Int) := do
  match toRatio? value with
  | none => refuse .runtime "NaN or INF can not be represented as fixed-point"
  | some (num, den) =>
    demand (decide ((num.natAbs : Int) < singleOverflow * den)) .overflow
    match singleExponent num den with
    | none => refuse .runtime "Denormalized values are not considered for float -> fixed-point conversion!"
    | some e =>
      require (type == "int16") .runtime ("Unsupported dtype, " ++ type ++ "'")
      require (decide (14 - e ≤ 127)) .runtime "Value too small for fixed-point conversion!"
      return fixedOf num den e

end TensorToolchain.Number
