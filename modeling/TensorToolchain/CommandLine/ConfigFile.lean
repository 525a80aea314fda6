import TensorToolchain.Value

/-!
# Configuration files

The members of a configuration file become arguments of the command line, each a name with a value.
-/

namespace TensorToolchain.CommandLine

abbrev CliArgument := String × Json

def cliName (name : String) : String := replaceIn "-" "_" name

def displayed (j : Json) : String := (Value.ofJson j).display

/-- A member of a target: its kind, or an option with its value. -/
inductive TargetMember where
  | kind (value : Json)
  | option (name : String) (value : Json)

namespace TargetMember

def ofField (name : String) (value : Json) : TargetMember := if name == "kind" then kind value else option name value

def text : TargetMember → String
  | kind value => displayed value
  | option name value => (Value.tuple [.str name, .ofJson value]).text

/-- The two parts of a member: the name and value of an option, the first two items of a kind. -/
def parts : TargetMember → Result (String × Json)
  | option name value => .ok (name, value)
  | kind (.str s) =>
    match s.toList with
    | a :: b :: _ => .ok (.ofList [a], .str (.ofList [b]))
    | _ => fail .badIndex
  | kind (.arr items) =>
    match items with
    | a :: b :: _ => .ok (displayed a, b)
    | _ => fail .badIndex
  | kind (.obj _) => fail .missingKey
  | kind _ => fail .badType

end TargetMember

/-- The arguments of a target after its first member, and the text of that one. Only the next member
is an argument. -/
def targetArguments (target : Json) : Result (List CliArgument × String) :=
  match target with
  | .obj fields =>
    match fields.map fun (name, value) => TargetMember.ofField name value with
    | [] => fail .badValue
    | [first] => .ok ([], first.text)
    | first :: second :: _ => do
      let (name, value) ← second.parts
      return ([("target_" ++ first.text ++ "_" ++ name, value)], first.text)
  | .str "" | .arr [] => fail .badValue
  | _ => fail .badType

def targetsOf : Json → Result (List Json)
  | .arr items => .ok items
  | .obj fields => .ok (fields.map (.str ·.1))
  | .str s => .ok (s.toList.map fun c => .str (.ofList [c]))
  | _ => fail .badType

/-- The arguments of an executor or a runtime, given the kind seen last. -/
def kindArguments (member : String) : Option String → List (String × Json) → Result (List CliArgument × Option String)
  | kind, [] => .ok ([], kind)
  | kind, (name, value) :: rest =>
    if name == "kind" then do
      let (arguments, last) ← kindArguments member (some (displayed value)) rest
      return ((cliName member, value) :: arguments, last)
    else do
      let own ← orFail .unset kind
      let (arguments, last) ← kindArguments member kind rest
      return ((cliName (member ++ "_" ++ own ++ "_" ++ name), value) :: arguments, last)

def memberArguments (kind : Option String) (name : String) (value : Json) :
    Result (List CliArgument × Option String) := do
  if name == "targets" then
    let targets ← (← targetsOf value).mapM targetArguments
    let kinds := joined ", " (targets.map Prod.snd)
    return ((targets.map Prod.fst).flatten ++ [("target", .str kinds)], kind)
  else if name == "executor" || name == "runtime" then
    match value with
    | .obj fields => kindArguments name kind fields
    | _ => fail .missingAttribute
  else
    match value with
    | .obj fields =>
      let items := fields.map fun (key, v) => .str (key ++ "=" ++ displayed v)
      return ([(cliName name, .arr items)], kind)
    | _ => return ([(cliName name, value)], kind)

/-- The arguments of the members of a file, given the kind seen last. -/
def argumentsFrom (kind : Option String) : List (String × Json) → Result (List CliArgument)
  | [] => .ok []
  | (name, value) :: rest => do
    let (arguments, kind) ← memberArguments kind name value
    return arguments ++ (← argumentsFrom kind rest)

def configArguments (config : Json) : Result (List CliArgument) := argumentsFrom none config.fields

def argumentsReport (arguments : List CliArgument) : Report := .list (arguments.map fun a => .list [toReport a])

end TensorToolchain.CommandLine
