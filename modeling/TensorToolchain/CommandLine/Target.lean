import TensorToolchain.Keyed
import TensorToolchain.Value

/-!
# Compilation targets

A list of targets is given as text: names with options after them, separated by commas. The text is
cut into tokens first; what is no token is passed over.
-/

namespace TensorToolchain.CommandLine

def isNameChar (c : Char) : Bool := Text.isWordChar c || c == '-'

def isValueChar (c : Char) : Bool := Text.isWordChar c || c == '+' || c == '-' || c == '.'

def isQuotedChar (c : Char) : Bool := isValueChar c || c == ',' || Text.isBlank c

def isQuote (c : Char) : Bool := c == '\'' || c == '"'

/-- The length of a quoted value at the start of a text: not empty, and closed by its own quote. -/
def quotedLength (text : List Char) : Nat :=
  match text with
  | [] => 0
  | quote :: rest =>
    let inner := (rest.takeWhile isQuotedChar).length
    if isQuote quote && inner != 0 && (rest.drop inner).head? == some quote then inner + 2 else 0

/-- The length of the value at the start of a text. Values without quotes may hold a comma between
two characters, and follow one another and quoted values directly. -/
def valueLength : Nat → Bool → List Char → Nat
  | 0, _, _ => 0
  | _ + 1, _, [] => 0
  | fuel + 1, afterPlain, c :: rest =>
    if isValueChar c then 1 + valueLength fuel true rest
    else if afterPlain && c == ',' && rest.head?.any isValueChar then
      2 + valueLength fuel true (rest.drop 1)
    else
      match quotedLength (c :: rest) with
      | 0 => 0
      | n + 1 => n + 1 + valueLength fuel false (rest.drop n)

def tokenLength (text : List Char) : Nat :=
  let name := (text.takeWhile isNameChar).length
  if name == 0 then (if text.head? == some ',' then 1 else 0)
  else
    let rest := text.drop name
    let equals := if rest.head? == some '=' then 1 else 0
    name + equals + valueLength text.length false (rest.drop equals)

def tokensFrom : Nat → List Char → List (List Char)
  | 0, _ => []
  | _ + 1, [] => []
  | fuel + 1, c :: rest =>
    match tokenLength (c :: rest) with
    | 0 => tokensFrom fuel rest
    | n + 1 => (c :: rest.take n) :: tokensFrom fuel (rest.drop n)

def tokens (text : List Char) : List (List Char) := tokensFrom text.length text

/-! ### Targets -/

/-- A target: its name, its options, and the text it was given as. -/
structure TargetSpec where
  name : String
  options : Keyed String Json
  raw : String

def readOption (token : List Char) : Result (String × Json) :=
  match token with
  | '-' :: '-' :: name => .ok (.ofList name, .bool true)
  | _ => do
    let text := if token.head? == some '-' then token.drop 1 else token
    match Text.cutBy (· == '=') text with
    | (_, none) => refuse .badValue ("Error when parsing '" ++ .ofList text ++ "'")
    | (_, some []) => fail .badIndex
    | (name, some (c :: rest)) =>
      let value := if isQuote c then rest.dropLast else c :: rest
      return (.ofList name, .str (.ofList value))

def TargetSpec.ofTokens : List (List Char) → Result TargetSpec
  | [] => fail .badIndex
  | name :: options => do
    return {
      name := .ofList name
      options := .ofList (← options.mapM readOption)
      raw := joined " " ((name :: options).map .ofList) }

def splitAtCommas : List (List Char) → List (List (List Char))
  | [] => [[]]
  | t :: rest =>
    match splitAtCommas rest with
    | [] => [[]]
    | group :: groups => if t == [','] then [] :: group :: groups else (t :: group) :: groups

def parseTargets (text : String) : Result (List TargetSpec) :=
  (splitAtCommas (tokens text.toList)).mapM TargetSpec.ofTokens

def codeGenerators : List String := [
  "compute-library", "cmsis-nn", "ethos-n", "ethos-u", "bnns", "vitis-ai"]

variable (kinds : List String)

/-- Whether a name is that of a known kind and not of a code generator. -/
def isKind (name : String) : Bool := kinds.contains name && !codeGenerators.contains name

def TargetSpec.recombined (t : TargetSpec) : String :=
  t.name ++ " " ++ joined " " (t.options.entries.map fun (key, value) =>
    "-" ++ key ++ "=" ++ (Value.ofJson value).display)

abbrev FurtherOptions := List (String × Json)

/-- Check a list of targets: no two alike, the last of a known kind, at most two of a known kind,
and further options only for targets in the list. -/
def validateTargets (targets : List TargetSpec) (further : FurtherOptions) : Result Unit := do
  let names := targets.map TargetSpec.name
  require (decide names.Nodup) .command "Duplicate target definitions are not allowed"
  let last ← orFail .badIndex names.getLast?
  require (kinds.contains last) .command ("The last target needs to be a TVM target. Choices: " ++ joined ", " kinds)
  let known := names.filter (isKind kinds)
  require (known.length ≤ 2) .command
    ("Only two of the following targets can be used at a time. Found: " ++ joined ", " known ++ ".")
  further.forM fun (name, options) => do
    if !names.contains name then
      let first ← orFail .badIndex options.fields.head?
      refuse .command ("Passed --target-" ++ name ++ "-" ++ first.1 ++ " but did not specify " ++ name ++ " target")

def TargetSpec.extend (t : TargetSpec) (further : FurtherOptions) : TargetSpec :=
  match further.lookup t.name with
  | some options => { t with options := t.options.merge ⟨options.fields⟩ }
  | none => t

/-- The targets to compile for: the target itself, its host, and the others. -/
structure TargetChoice where
  target : String
  host : Option String
  others : List TargetSpec

def chooseTargets (text : String) (isJson : Bool) (further : FurtherOptions) : Result TargetChoice := do
  if isJson then fail .unset
  else
    let targets ←
      match parseTargets text with
      | .error ⟨.badValue, some reason⟩ =>
        refuse .command ("Error parsing target string '" ++ text ++ "'.\nThe error was: " ++ reason)
      | other => other
    validateTargets kinds targets further
    let extended := targets.map (.extend · further)
    let others := extended.filter (!isKind kinds ·.name)
    match extended.filter fun t => isKind kinds t.name with
    | [target] => return ⟨target.recombined, none, others⟩
    | [target, host] => return ⟨target.recombined, some host.recombined, others⟩
    | _ => refuse .failedCheck ""

def TargetSpec.report (t : TargetSpec) : Report :=
  .record [
    ("name", .text t.name), ("opts", toReport t.options.entries), ("raw", .text t.raw),
    ("is_tvm_target", .bool (isKind kinds t.name)), ("recombined", .text t.recombined)]

def TargetChoice.report (c : TargetChoice) : Report :=
  .record [
    ("target", .text c.target), ("host", toReport c.host),
    ("extra", .list (c.others.map fun t => .list [.text t.name, toReport t.options.entries, .text t.raw]))]

end TensorToolchain.CommandLine
