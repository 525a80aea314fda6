import TensorToolchain.Keyed
import TensorToolchain.Report
import TensorToolchain.Text

/-!
# Shapes of inputs

The shapes of inputs are given as names with dimensions in brackets after them. Everything else in
the text is passed over.
-/

namespace TensorToolchain.CommandLine

open Text

def isInputChar (c : Char) : Bool := isWordChar c || c == ':' || c == '.'

def isDigitChar (c : Char) : Bool := (decimalValue? c).isSome

variable (text : List Char)

def dimensionLength : Nat :=
  let sign := if text.head? == some '-' then 1 else 0
  match ((text.drop sign).takeWhile isDigitChar).length with
  | 0 => 0
  | n => sign + n

/-- The length of the dimensions after the first one, with the closing bracket; none if there is no
closing bracket. -/
def dimensionsLength? : Nat → List Char → Option Nat
  | 0, _ => none
  | _ + 1, [] => none
  | fuel + 1, c :: rest =>
    if c == ']' then some 1
    else if c == ',' then
      let blanks := (rest.takeWhile isBlank).length
      match dimensionLength (rest.drop blanks) with
      | 0 => none
      | n => (dimensionsLength? fuel (rest.drop (blanks + n))).map (1 + blanks + n + ·)
    else none

def listLength? : Option Nat :=
  match text with
  | '[' :: rest =>
    match dimensionLength rest with
    | 0 => none
    | n => (dimensionsLength? text.length (rest.drop n)).map (1 + n + ·)
  | _ => none

/-- The length of a name with dimensions at the start of a text: the name ends with a colon, after
which blanks may stand. -/
def mappingLength? : Option Nat :=
  let name := text.takeWhile isInputChar
  let rest := text.drop name.length
  let blanks := (rest.takeWhile isBlank).length
  if 2 ≤ name.length && name.getLast? == some ':' then
    (listLength? (rest.drop blanks)).map (name.length + blanks + ·)
  else none

/-- The length of a mapping at the start of a text, which may have a word and a slash in front. -/
def prefixedLength? : Option Nat :=
  let word := (text.takeWhile isWordChar).length
  let withWord :=
    if word != 0 && (text.drop word).head? == some '/' then
      (mappingLength? (text.drop (word + 1))).map (word + 1 + ·)
    else none
  withWord.or (mappingLength? text)

def mappingsFrom : Nat → List Char → List (List Char)
  | 0, _ => []
  | _ + 1, [] => []
  | fuel + 1, c :: rest =>
    match prefixedLength? (c :: rest) with
    | some (n + 1) => (c :: rest.take n) :: mappingsFrom fuel (rest.drop n)
    | _ => mappingsFrom fuel rest

def mappings : List (List Char) := mappingsFrom text.length text

def openUnlessPositive (n : Int) : Option Nat := if 0 < n then some n.toNat else none

def readMapping (mapping : List Char) : Result (String × List (Option Nat)) := do
  let text := mapping.filter (· != ' ')
  let (dims, name) := (text.reverse.takeWhile (· != ':'), text.reverse.dropWhile (· != ':'))
  let list := strip (fun c => c == '[' || c == ']') dims.reverse
  let dims ← (splitChar ',' list).mapM fun d => orFail .badValue (readInt? d)
  return (.ofList (name.drop 1).reverse, dims.map openUnlessPositive)

def parseShapes (text : String) : Result (Keyed String (List (Option Nat))) := do
  let found := mappings text.toList
  require (!found.isEmpty) .badArgument ("--input-shapes argument must be of the form " ++
      "\"input_name:[dim1,dim2,...,dimn] input_name2:[dim1,dim2]\"")
  return .ofList (← found.mapM readMapping)

def shapesReport (shapes : Keyed String (List (Option Nat))) : Report :=
  .list (shapes.entries.map fun (name, dims) => .list [.text name, .list (dims.map fun d =>
    match d with
    | some n => .int n
    | none => .text "?")])

end TensorToolchain.CommandLine
