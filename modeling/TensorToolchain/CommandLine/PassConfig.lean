import TensorToolchain.Keyed
import TensorToolchain.Report
import TensorToolchain.Text

/-!
# Configuration of passes

Configurations of passes are given as names with values. The known configurations have types, which
say how a value is read.
-/

namespace TensorToolchain.CommandLine

inductive ConfigValue where
  | bool (b : Bool)
  | int (n : Int)
  | text (s : String)

instance : ToReport ConfigValue where
  toReport
    | .bool b => .bool b
    | .int n => .int n
    | .text s => .text s

def readNumber (name value : String) : Result ConfigValue :=
  let text := value.toList
  if !text.isEmpty && text.all Text.isAnyDigit then do
    return .int (← orFail .badValue (Text.readInt? text))
  else
    match lowerCase value with
    | "false" => .ok (.bool false)
    | "true" => .ok (.bool true)
    | _ => refuse .command ("Invalid value '" ++ value ++ "' for configuration '" ++ name ++ "'.")

def addedPasses : String := "tir.add_lower_pass"

/-- Load the function of a pass by its full name; no module is at hand. -/
def loadPass (name : String) : Result ConfigValue :=
  match (name.toList.reverse.dropWhile (· != '.')).drop 1 with
  | [] => fail .badValue
  | _ => fail .missingModule

def readPasses : List String → Result ConfigValue
  | level :: pass :: rest => do
    match Text.readInt? (trimmed level).toList with
    | none => refuse .command ("Only integer is allow for configuration '" ++ addedPasses ++ "'.")
    | some _ =>
      let _ ← loadPass (trimmed pass)
      readPasses rest
  | _ => .ok (.text "")

def readArray (name value : String) : Result ConfigValue := do
  if name == addedPasses then
    let parts := splitAt ',' value
    require (parts.length % 2 == 0) .command ("The configuration of '" ++ name ++ "' must be of the form " ++
        "'tir.add_lower_pass=opt_level1,pass1,opt_evel2,pass2'")
    readPasses parts
  else refuse .command ("Unsupported configuration '" ++ name ++ "' for 'Array' type.")

/-- The types that can be given as text, and how their values are read. -/
def readers : List (String × (String → String → Result ConfigValue)) := [
  ("IntImm", readNumber), ("runtime.String", fun _ value => .ok (.text value)), ("Array", readArray)]

def readConfig (known : List (String × String)) (config : String) : Result (String × ConfigValue) := do
  let (name, value) ←
    match splitAt '=' config with
    | [name, value] => pure (trimmed name, trimmed value)
    | _ => refuse .command ("Invalid format for configuration '" ++ config ++ "', use <config>=<value>")
  match known.lookup name with
  | none =>
    refuse .command ("Configuration '" ++ name ++ "' is not defined in TVM. " ++
        "These are the existing configurations: " ++ joined ", " (known.map Prod.fst))
  | some type =>
    match readers.lookup type with
    | none =>
      refuse .command ("Configuration '" ++ name ++ "' uses a data type not supported by TVMC. " ++
          "The following configurations are supported: " ++
          joined ", " ((known.filter fun k => (readers.lookup k.2).isSome).map Prod.fst))
    | some read => return (name, ← read name value)

def parseConfigs (known : List (String × String)) (configs : List String) : Result (Keyed String ConfigValue) := do
  return .ofList (← configs.mapM (readConfig known))

end TensorToolchain.CommandLine
