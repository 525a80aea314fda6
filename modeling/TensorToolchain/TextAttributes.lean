import TensorToolchain.Report
import TensorToolchain.Text

/-!
# Attributes given as text

The attributes of an operator, each a text, read as numbers, truth values, and tuples of numbers.
-/

namespace TensorToolchain.TextAttributes

open Text

variable (text : List Char)

def commaPieces : List (List Char) := splitChar ',' text

def without (drop : String) (text : List Char) : List Char := strip drop.toList.contains text

def integer : Result Int := orFail .badValue (readInt? text)

def fraction : Result Float := orFail .badValue (readFloat? text)

def optionalInteger : Result (Option Int) := if text = "None".toList then .ok none else (integer text).map some

/-- A tuple of integers; what does not look like one stands for nothing, and empty pieces do not
count. -/
def integerTuple : Result (List (Option Int)) :=
  ((commaPieces (without "()[]" text)).filter fun x => !x.isEmpty).mapM fun x =>
    let body := without "- " x
    if !body.isEmpty && body.all isAnyDigit then (integer x).map some else .ok none

def fractionTuple : Result (List Float) :=
  (commaPieces (without "()[]" text)).mapM fun x => fraction (strip isBlank x)

def integerList : Result (List Int) :=
  (commaPieces (without "[]()" text)).mapM fun x => integer (strip isBlank x)

def tupleOfTuples : Result (List (List Int)) :=
  (splitText [')', ','] (without "()" text)).mapM fun piece =>
    (commaPieces (without "[]()" piece)).mapM fun x => integer (without "( " x)

/-- A truth value: one of the words for truth, and falsity for anything else. -/
def truth : Bool := ["true", "1", "t", "y", "yes"].contains (lowerCase (String.ofList (strip isBlank text)))

def read (kind : String) (text : List Char) : Result Report :=
  match kind with
  | "float" => do return toReport (← fraction text)
  | "int" => do return toReport (← optionalInteger text)
  | "str" => .ok (.text (.ofList text))
  | "int_tuple" => do return toReport (← integerTuple text)
  | "float_tuple" => do return toReport (← fractionTuple text)
  | "tuple_tuple_int" => do return toReport (← tupleOfTuples text)
  | "int_list" => do return toReport (← integerList text)
  | "bool" => .ok (.bool (truth text))
  | _ => fail .missingAttribute

/-- The attribute of a name as a value of some kind; where there is none the default counts, and
without a default it is required. -/
def get (attributes : List (String × String)) (kind name : String) (default : Option Json) : Result Report :=
  match attributes.lookup name, default with
  | some text, _ => read kind text.toList
  | none, some value => .ok (toReport value)
  | none, none => refuse .missingAttribute ("Required attribute " ++ name ++ " not found.")

def answers (attributes : List (String × String)) (requests : List Json) : List Report :=
  requests.map fun r =>
    let kind := (r.item 0).text
    let name := (r.item 1).text
    if kind == "has" then .bool (attributes.lookup name).isSome
    else toReport (get attributes kind name r.items[2]?)

end TensorToolchain.TextAttributes
