import TensorToolchain.Text

/-!
# Unit prefixes

A number in multiples of a unit with a decimal prefix such as kilo or micro.
-/

namespace TensorToolchain.Number

def unitPrefixes : List Char := "yzafpnµm kMGTPEZY".toList

def firstExponent : Int := -24

def occurrence? (part : List Char) : List Char → Option Nat
  | [] => if part.isEmpty then some 0 else none
  | c :: rest => if part.isPrefixOf (c :: rest) then some 0 else (occurrence? part rest).map (· + 1)

inductive Readable where
  | number (s : Scalar)
  | text (s : String)
  | other

def Readable.real : Readable → Result Float
  | number s => s.toFloat
  | text s => orFail .badValue (Text.readFloat? s.toList)
  | other => fail .badType

/-- A number in multiples of a unit with a prefix; several prefixes together stand for the first. -/
def inUnit (x : Readable) (unit : String) : Result Float := do
  let position ← orFail .badValue (occurrence? unit.toList unitPrefixes)
  let scale ← Scalar.pow (.int 10) (.int (position * 3 + firstExponent))
  return (← x.real) / scale.approx

end TensorToolchain.Number
