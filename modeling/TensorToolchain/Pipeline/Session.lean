import TensorToolchain.Keyed
import TensorToolchain.Value

/-!
# Pipelines of modules

A module has a terminal for each of its inputs and outputs and one for its parameters; the pipeline
itself has inputs, outputs and groups of parameters. A terminal comes into being when it is first
named. All links that were made are kept in order, and so are the links that still await their
source when the modules are put in order.
-/

namespace TensorToolchain

namespace Pipeline

/-- The key of a terminal: a text, an integer, a fraction by its bits, or nothing. -/
inductive Key where
  | text (s : String)
  | whole (n : Int)
  | fraction (bits : UInt64)
  | nothing
  deriving DecidableEq

namespace Key

/-- The key that a JSON value counts as: truth values and whole fractions count as integers, lists
and objects as none. -/
def ofJson? : Json → Option Key
  | .null => some .nothing
  | .bool b => some (.whole (if b then 1 else 0))
  | .int n => some (.whole n)
  | .float x =>
    match Number.truncate? x with
    | some n => some (if Number.ofInt n == x then .whole n else .fraction x.toBits)
    | none => some (.fraction x.toBits)
  | .str s => some (.text s)
  | .arr _ | .obj _ => none

def position : Key → Result Int
  | .text s => orFail .badValue (Text.readInt? s.toList)
  | .whole n => .ok n
  | .fraction bits =>
    let x := Float.ofBits bits
    if x.isNaN then fail .badValue else orFail .overflow (Number.truncate? x)
  | .nothing => fail .badType

end Key

inductive Owner where
  | pipeline
  | module (name : String)
  deriving DecidableEq

inductive TerminalKind where | input | output | param deriving DecidableEq

def TerminalKind.name : TerminalKind → String
  | .input => "input"
  | .output => "output"
  | .param => "param"

structure Terminal where
  owner : Owner
  kind : TerminalKind
  key : Key
  deriving DecidableEq

/-- A terminal with its label and the type of what it carries. -/
structure TerminalInfo where
  terminal : Terminal
  label : String
  type : Option String
  deriving DecidableEq

/-- The results of a module: a single one, or several. -/
inductive Outputs where
  | single (type : String)
  | several (types : List String)

/-- The inputs of a module with their types, and its results. -/
structure ModuleSpec where
  inputs : List (String × String)
  outputs : Outputs

/-- A module of a pipeline; its index is known once the modules were put in order. -/
structure Stage where
  name : String
  spec : ModuleSpec
  index : Option Nat := none
  affinity : String := ""

structure Link where
  (source target : Terminal)
  deriving DecidableEq

end Pipeline

/-- A pipeline: its modules in order, its terminals in the order of their naming, all links, and the
links that still await their source. -/
structure Pipeline where
  stages : List Pipeline.Stage := []
  terminals : List Pipeline.TerminalInfo := []
  links : List Pipeline.Link := []
  waiting : List Pipeline.Link := []

namespace Pipeline

variable (p : Pipeline) (terminal : Terminal)

def stage? (name : String) : Option Stage := p.stages.find? (·.name == name)

def terminalsOf (owner : Owner) (kind : TerminalKind) : List TerminalInfo :=
  p.terminals.filter fun i => i.terminal.owner = owner ∧ i.terminal.kind = kind

def info : TerminalInfo := (p.terminals.find? (·.terminal = terminal)).getD ⟨terminal, "", none⟩

def targetsOf : List TerminalInfo := (p.links.filter (·.source = terminal)).map (p.info ·.target)

def ModuleSpec.type? (spec : ModuleSpec) (kind : TerminalKind) (key : Key) : Result (Option String) :=
  match kind with
  | .input =>
    match key with
    | .text name => .ok (spec.inputs.lookup name)
    | _ => .ok none
  | .output => do
    let i ← key.position
    match spec.outputs with
    | .single type => return if i = 0 then some type else none
    | .several types => if i < types.length then return some (← Value.itemAt types i) else return none
  | .param => .ok none

def paramKey : Key := .text "param"

/-- A step on a pipeline, which keeps what it did before it is refused. -/
abbrev Step := ExceptT Fault (StateM Pipeline)

def addStage (name : String) (spec : ModuleSpec) : Step Unit := do
  let p ← get
  if (p.stage? name).isNone then
    let stage : Stage := { name, spec }
    let param : TerminalInfo := ⟨⟨.module name, .param, paramKey⟩, "param", none⟩
    set { p with stages := p.stages ++ [stage], terminals := p.terminals ++ [param] }

/-- The terminal of an owner under a key, which comes into being if it is new. -/
def nameTerminal (owner : Owner) (kind : TerminalKind) (name : Json) : Step TerminalInfo := do
  let key ← ofExcept (orFail .badType (Key.ofJson? name))
  let terminal : Terminal := ⟨owner, kind, key⟩
  let p ← get
  match p.terminals.find? fun i => i.terminal = terminal with
  | some i => return i
  | none =>
    let label := (Value.ofJson name).display
    let type ←
      match owner with
      | .pipeline => pure none
      | .module m =>
        let spec := ((p.stage? m).map Stage.spec).getD ⟨[], .several []⟩
        match (← ofExcept (spec.type? kind key)).filter fun t => !t.isEmpty with
        | some type => pure (some type)
        | none => throw (.worded .runtime ("Can not find " ++ label ++ " in binding list " ++ kind.name ++ "."))
    let i : TerminalInfo := ⟨terminal, label, type⟩
    set { p with terminals := p.terminals ++ [i] }
    return i

/-! ### Linking terminals and ordering modules

A link goes from an input of the pipeline to an input of a module, from an output of a module to an
input of another or to an output of the pipeline, or from a group of parameters to the parameters of
a module. Terminals of modules that are linked carry the same type, and no module comes before
itself.

Modules that await no source are put in order first, round by round. A module that is put in order
releases the links that leave it, so that a later module of the same round may already be free.
-/

def Terminal.isGlobal (p : Terminal) : Bool := p.owner = .pipeline

def checkRoles (source target : Terminal) : Result Unit := do
  require (source.owner ≠ target.owner) .runtime "Can not bind itself."
  require (source.kind ≠ .param || source.isGlobal) .runtime
    "The \"param\" binding can only be used by a pipeline executor interface!"
  require (source.isGlobal || source.kind ≠ .input) .runtime "Module can only bind from output interface!"
  require (source.kind ≠ .param || target.kind = .param) .runtime
    "A global \"param\" interface can only be bind with a module \"param\" interface!"
  require (source.isGlobal || target.isGlobal || target.kind ≠ .output) .runtime
    "Can not bind module output with another module output!"
  require (source.isGlobal || !target.isGlobal || target.kind ≠ .input) .runtime
    "Can not bind module output with pipeline input!"
  require (!source.isGlobal || source.kind ≠ .output) .runtime "Global output can not be used as binding start point."
  require (!source.isGlobal || source.kind ≠ .input || target.kind = .input) .runtime
    "Global input can only bind with module input."

def parentsOf : List Terminal := (p.waiting.filter (·.target = terminal)).map Link.source

/-- Whether a module and those before it, as far as their links still wait, are all different from a
given owner; none if the search never ends. -/
def avoids (p : Pipeline) (start : Owner) : Nat → Owner → Option Bool
  | 0, _ => none
  | fuel + 1, owner =>
    (p.terminalsOf owner .input).allM fun i =>
      if owner = start then some false
      else (p.parentsOf i.terminal).allM (p.avoids start fuel ·.owner)

def typeText (type : Option String) : String := type.getD "None"

def connect (source target : TerminalInfo) : Step Unit := do
  ofExcept (checkRoles source.terminal target.terminal)
  let link : Link := ⟨source.terminal, target.terminal⟩
  modify fun p => { p with links := p.links ++ [link] }
  if !source.terminal.isGlobal then
    if !target.terminal.isGlobal && source.type ≠ target.type then
      throw (.worded .runtime ("Illegal type (" ++ typeText source.type ++ " vs. " ++
        typeText target.type ++ "): binding type is not same!"))
    modify fun p => { p with waiting := p.waiting ++ [link] }
    let p ← get
    match p.avoids target.terminal.owner (p.stages.length + 1) source.terminal.owner with
    | some true => return
    | some false => throw (.worded .runtime "Illegal connection: Cause a cycle!")
    | none => throw (.plain .endless)

/-! ### The order of the modules -/

def isRoot (name : String) : Bool := (p.terminalsOf (.module name) .input).all fun i => (p.parentsOf i.terminal).isEmpty

/-- Release the links that leave a module: each of them stops waiting once. -/
def release (name : String) : Pipeline :=
  { p with
    waiting := (p.links.filter (·.source.owner = .module name)).foldl .erase p.waiting }

/-- One round over modules: those that are free in their turn, and the pipeline after it. -/
def sweep (p : Pipeline) : List String → List String × Pipeline
  | [] => ([], p)
  | name :: rest =>
    if p.isRoot name then
      let (free, p) := (p.release name).sweep rest
      (name :: free, p)
    else p.sweep rest

/-- Rounds over modules until all are in order; none if a round frees no module. -/
def rounds : Nat → Pipeline → List String → Option (List String × Pipeline)
  | _, p, [] => some ([], p)
  | 0, _, _ => none
  | fuel + 1, p, remaining => do
    let (free, p) := p.sweep remaining
    let (later, p) ← rounds fuel p (remaining.filter (!free.contains ·))
    return (free ++ later, p)

def sorted? : Option Pipeline := do
  let names := p.stages.map Stage.name
  let (order, p) ← rounds names.length p names
  let stages := order.zipIdx.filterMap fun (name, i) => (p.stage? name).map fun s => { s with index := some i }
  return { p with stages }

def sort : Step Unit := do
  match (← get).sorted? with
  | some p => set p
  | none => throw (.plain .endless)

/-! ### The configuration of a pipeline

What an executor needs to know of a pipeline whose modules are in order: for each module where its
results go, and where the inputs and the groups of parameters of the pipeline go; and the same as a
text.
-/

/-- The name that the order gives to a module, if it is in order. -/
def Stage.label? (s : Stage) : Option String := s.index.map ("mod" ++ toString ·)

/-- The name of the owner of a terminal: empty for the pipeline, none for a module out of order. -/
def ownerLabel? : Owner → Option String
  | .pipeline => some ""
  | .module name => (p.stage? name).bind Stage.label?

def ownerText : String := (p.ownerLabel? terminal.owner).getD "None"

def ownerIndex? : Option Int :=
  match terminal.owner with
  | .pipeline => some (-1)
  | .module name => ((p.stage? name).bind Stage.index).map fun (i : Nat) => (i : Int)

inductive Dependency where
  | output (index : Int)
  | input (module : Option Int) (name : String)

structure OutputEntry where
  index : Int
  dependencies : List Dependency

structure ModuleEntry where
  name : String
  index : Option Nat
  affinity : String
  outputs : List OutputEntry

structure GlobalEntry where
  label : String
  module : Option Int
  target : String

structure Config where
  modules : List ModuleEntry
  (inputs params : List GlobalEntry)

def labelNumber (label : String) : Result Int := orFail .badValue (Text.readInt? label.toList)

def dependency (target : TerminalInfo) : Result Dependency :=
  if target.terminal.isGlobal then (labelNumber target.label).map .output
  else .ok (.input (p.ownerIndex? target.terminal) target.label)

def outputEntry (output : TerminalInfo) : Result OutputEntry := do
  let dependencies ← (p.targetsOf output.terminal).mapM p.dependency
  return { index := ← labelNumber output.label, dependencies }

def moduleEntry (s : Stage) : Result ModuleEntry := do
  let outputs ← (p.terminalsOf (.module s.name) .output).mapM p.outputEntry
  return { name := s.name, index := s.index, affinity := s.affinity, outputs }

def globalEntry (i : TerminalInfo) : Result GlobalEntry :=
  match p.targetsOf i.terminal with
  | [] => refuse .runtime "The global interface map is empty!"
  | [target] => .ok { label := i.label, module := p.ownerIndex? target.terminal, target := target.label }
  | _ => refuse .runtime "A global interface maps multiple module interfaces!"

def config : Result Config := do
  let modules ← p.stages.mapM p.moduleEntry
  let inputs ← (p.terminalsOf .pipeline .input).mapM p.globalEntry
  let params ← (p.terminalsOf .pipeline .param).mapM p.globalEntry
  return { modules, inputs, params }

/-! ### Texts -/

def globalLine (i : TerminalInfo) : String :=
  "  |" ++ i.label ++ ": " ++ .join ((p.targetsOf i.terminal).map fun t =>
    p.ownerText t.terminal ++ ":" ++ t.label ++ " ") ++ "\n"

def outputText (i : TerminalInfo) : String := p.ownerText i.terminal ++ ".output(" ++ i.label ++ ")"

def moduleOutputs : List TerminalInfo := p.stages.flatMap fun s => p.terminalsOf (.module s.name) .output

/-- The lines of the links from an output to modules: each line repeats those before it. -/
def linkLines (i : TerminalInfo) : List String :=
  let names := ((p.targetsOf i.terminal).filter fun t => !t.terminal.isGlobal).map fun t =>
    " " ++ p.ownerText t.terminal ++ "." ++ t.label
  (List.range names.length).map fun k => "  |" ++ p.outputText i ++ "->" ++ .join (names.take (k + 1)) ++ "\n"

def globalOutputs : List (String × String) :=
  let all := p.moduleOutputs.flatMap fun i =>
    ((p.targetsOf i.terminal).filter (·.terminal.isGlobal)).map fun t => (t.label, p.outputText i)
  (Keyed.ofList all).entries.mergeSort fun a b => a.1 ≤ b.1

def text : String :=
  let lines := fun kind => .join ((p.terminalsOf .pipeline kind).map p.globalLine)
  "Params\n" ++ lines .param ++ "\nInputs\n" ++ lines .input ++ "\noutput\n" ++
    .join (p.globalOutputs.map fun (label, source) => "  |output(" ++ label ++ ") : " ++ source ++ "\n") ++
    "\nconnections\n" ++ .join (p.moduleOutputs.flatMap p.linkLines)

/-! ### Reports -/

def Dependency.report : Dependency → Report
  | .output i => .record [("global_output_index", .int i)]
  | .input module name => .record [("mod_idx", toReport module), ("input_name", .text name)]

def ModuleEntry.report (m : ModuleEntry) : Report :=
  .list [.text m.name, .record [
    ("mod_idx", toReport m.index), ("cpu_affinity", .text m.affinity),
    ("output", .list (m.outputs.map fun o => .record [
      ("output_idx", .int o.index), ("dependencies", .list (o.dependencies.map (·.report)))]))]]

def Config.report (c : Config) : Report :=
  .record [
    ("modules", .list (c.modules.map ModuleEntry.report)),
    ("input", .list (c.inputs.map fun i => .record [
      ("global_interface_name", .text i.label), ("mod_idx", toReport i.module),
      ("module_interface_name", .text i.target)])),
    ("param", .list (c.params.map fun i => .record [
      ("global_param_name", .text i.label), ("mod_idx", toReport i.module)]))]

def ModuleSpec.ofJson (j : Json) : ModuleSpec :=
  { inputs := (j.field "inputs").items.map fun i => ((i.item 0).text, (i.item 1).text)
    outputs :=
      match j.field "outputs" with
      | .str type => .single type
      | types => .several (types.items.map Json.text) }

def nameStage (specs : List (String × Json)) (name : String) : Step Unit :=
  match specs.lookup name with
  | some spec => addStage name (.ofJson spec)
  | none => throw (.plain .missingKey)

def findTerminal (specs : List (String × Json)) (j : Json) : Step TerminalInfo := do
  match (j.item 0).text with
  | "mod" =>
    let name := (j.item 1).text
    nameStage specs name
    match (j.item 2).text with
    | "input" => nameTerminal (.module name) .input (j.item 3)
    | "output" => nameTerminal (.module name) .output (j.item 3)
    | "param" => return (← get).info ⟨.module name, .param, paramKey⟩
    | other => throw (.worded .runtime (other ++ " not found!"))
  | "input" => nameTerminal .pipeline .input (j.item 1)
  | "output" => nameTerminal .pipeline .output (j.item 1)
  | "param_group" => nameTerminal .pipeline .param (j.item 1)
  | other => throw (.worded .runtime (other ++ " not found!"))

def act (specs : List (String × Json)) (step : Json) : Step Report := do
  match (step.item 0).text with
  | "connect" =>
    let source ← findTerminal specs (step.item 1)
    let target ← findTerminal specs (step.item 2)
    connect source target
    return .text "ok"
  | "get" =>
    let i ← findTerminal specs (step.item 1)
    return .list [toReport ((← get).ownerLabel? i.terminal.owner), .text i.label]
  | "affinity" =>
    let name := (step.item 1).text
    nameStage specs name
    modify fun p => { p with
      stages := p.stages.map fun s => if s.name == name then { s with affinity := (step.item 2).text } else s }
    return .text "ok"
  | "str" =>
    sort
    return .text (← get).text
  | "indices" => return toReport ((← get).stages.map fun s => (s.name, s.index))
  | _ =>
    sort
    return (← ofExcept (← get).config).report

def runSteps (specs : List (String × Json)) (p : Pipeline) : List Json → List Report
  | [] => []
  | step :: rest =>
    let (result, p) := (act specs step).run.run p
    toReport result :: runSteps specs p rest

end Pipeline

end TensorToolchain
