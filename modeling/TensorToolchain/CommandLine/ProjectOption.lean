import TensorToolchain.Keyed
import TensorToolchain.Value

/-!
# Options of projects

The options that the methods of a project take, their help texts, and the check of options that are
passed.
-/

namespace TensorToolchain.CommandLine

def optionWidth : Nat := 80

def indented (n : Nat) (s : String) : String := .ofList (.replicate n ' ') ++ s

/-- The help text of an option: its name and choices, then the help with the default value or the
mark of a required option. -/
def formatOption (option help default : String) (required : Bool) : Result String := do
  let (name, choices) ←
    match Text.cutBy (· == '=') option.toList with
    | (name, some choices) => pure (name, choices)
    | _ => fail .badValue
  demand (name.length < optionWidth) .badValue
  match (Text.wrap (optionWidth - name.length) choices).map .ofList with
  | [] => fail .badIndex
  | first :: rest =>
    demand (!help.isEmpty) .badIndex
    let head := (.ofList name ++ "=" ++ first) :: rest.map (indented (name.length + 1))
    let tail := indented 2 (lowerFirst help) ++ (if !default.isEmpty && !required then " " ++ default else "") ++
      (if required then " (required)" else "")
    return joined "\n" head ++ "\n" ++ tail

/-! ### Options by method -/

structure MethodOption where
  name : String
  choices : Json
  help : String
  required : Bool

/-- Whether a value counts as given: not null, empty, zero or false. -/
def isGiven (j : Json) : Bool := (Value.ofJson j).truthy

variable (option : Json)

def choiceTexts (choices : Json) : Result (List String) :=
  choices.items.mapM fun
    | .str s => .ok s
    | _ => fail .badType

def optionChoices : Result Json := do
  if (← option.member "type") == .str "bool" then return .arr [.str "true", .str "false"]
  else option.member "choices"

def methodOption (required : Bool) : Result MethodOption := do
  let name := (← option.member "name").text
  let choices ← optionChoices option
  let shown ←
    if isGiven choices then do
      pure ("\x7b" ++ joined ", " (← choiceTexts choices) ++ "\x7d")
    else pure (upperCase name)
  let help ←
    match ← option.member "help" with
    | .str "" => fail .badIndex
    | .str s => pure s
    | _ => fail .badType
  let default ← option.member "default"
  let default := if isGiven default then "Defaults to '" ++ (Value.ofJson default).display ++ "'."
    else ""
  return {
    name, choices, required
    help := ← formatOption (name ++ "=" ++ shown) (lowerFirst help) default required }

def methodsOf : Result (List (String × Bool)) := do
  let required ← option.member "required"
  let optional ← option.member "optional"
  return required.items.map (fun m => (m.text, true)) ++ optional.items.map (fun m => (m.text, false))

def optionsByMethod (options : List Json) : Result (Keyed String (List MethodOption)) := do
  let entries ← options.mapM fun option => do
    (← methodsOf option).mapM fun (method, required) => do
      .ok (method, ← methodOption option required)
  return entries.flatten.foldl (fun m (method, option) => m.set method ((m.get? method).getD [] ++ [option])) {}

def MethodOption.report (o : MethodOption) : Report :=
  .record [
    ("name", .text o.name), ("choices", toReport o.choices), ("help_text", .text o.help),
    ("required", .bool o.required)]

def optionsReport (options : Keyed String (List MethodOption)) : Report :=
  .list (options.entries.map fun (method, list) => .list [.text method, .list (list.map MethodOption.report)])

/-! ### Options that are passed -/

structure ValidOption where
  name : String
  choices : Option (List Json)
  required : Bool

def ValidOption.ofJson (j : Json) : Result ValidOption := do
  let required ← j.member "required"
  let name ← j.member "name"
  let choices ← j.member "choices"
  return {
    name := name.text
    choices := if choices.isNull then none else some choices.items
    required := isGiven required }

def readPassed (option : String) : Result (String × String) :=
  match splitAt '=' option with
  | [name, value] => .ok (name, value)
  | _ => refuse .command ("Invalid option format: " ++ option ++ ". Please use OPTION=VALUE.")

/-- Check the options that are passed: the required ones are there, all are known, and their values
are among the choices. -/
def checkOptions (passed : List String) (valid : List ValidOption) : Result (Keyed String String) := do
  let options := .ofList (← passed.mapM readPassed)
  valid.forM fun v =>
    require (!v.required || options.contains v.name) .command
      ("Option '" ++ v.name ++ "' is required but was not specified. Use --list-options " ++
        "to see all required options.")
  options.keys.forM fun name =>
    require (valid.any (·.name == name)) .command
      ("Option '" ++ name ++ "' is invalid. Use --list-options to see all available options.")
  let choices := Keyed.ofList (valid.filterMap fun v => v.choices.map (v.name, ·))
  options.entries.forM fun (name, value) =>
    require ((choices.get? name).all (·.contains (.str value))) .command
      ("Choice '" ++ value ++ "' for option '" ++ name ++ "' is invalid. " ++
        "Use --list-options to see all available choices for that option.")
  return options

end TensorToolchain.CommandLine
