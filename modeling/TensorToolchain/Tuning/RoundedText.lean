import TensorToolchain.Value

/-!
# Texts with rounded numbers

The text of a value in which fractions have a fixed number of places.
-/

namespace TensorToolchain.Tuning

def defaultPlaces : Int := 6

mutual

def roundedText (places : Int) : Value → Result String
  | .str s => .ok s
  | .list items | .tuple items => do return Value.bracketed "[" "]" (← roundedTexts places items)
  | .dict entries => do return (Value.dict (← roundedEntries entries)).text
  | .bool b => .ok (Value.bool b).text
  | .int n => .ok (toString n)
  | .float x => if places < 0 then fail .badValue else .ok (Number.fixed places.toNat x)
  | .none => refuse .badValue "Invalid value: None\ttype: <class 'NoneType'>"
  | .slice a b c => refuse .badValue ("Invalid value: " ++ (Value.slice a b c).text ++ "\ttype: <class 'slice'>")

def roundedTexts (places : Int) : List Value → Result (List String)
  | [] => .ok []
  | v :: vs => do
    let first ← roundedText places v
    return first :: (← roundedTexts places vs)

def roundedEntries : List (Value × Value) → Result (List (Value × Value))
  | [] => .ok []
  | (k, v) :: es => do
    let first ← roundedText defaultPlaces v
    return (k, .str first) :: (← roundedEntries es)

end

end TensorToolchain.Tuning
