import TensorToolchain.LayoutChoice.Stage
import TensorToolchain.Tensor.Argument

/-!
# Requests for a choice of layouts

Graphs with measured costs as they are asked about, and the reports of what was chosen.
-/

namespace TensorToolchain.LayoutChoice

open Number (Scalar)

def measured : CostScale Scalar where
  zero := .int 0
  add := fun a b => a.combine (· + ·) (· + ·) b
  less := Scalar.less
  invalid := .float 1e10
  kept := fun s => .float (ElementType.roundFloat 32 s.approx)

structure Request where
  graph : Graph
  costs : List (List Scalar)
  transforms : List ((Nat × Nat) × CostTable Scalar)
  links : Option Links
  limit : Option Int

def measuredOf : Json → Scalar
  | .int n => .int n
  | .float x => .float x
  | _ => .int 0

def positionsOf (j : Json) : List Nat := j.items.map (·.integer.toNat)

def Node.ofJson (j : Json) : Node where
  op := (j.field "op").string?
  name := (j.field "name").string?
  inputs := positionsOf (j.field "inputs")

def Graph.ofJson (j : Json) : Graph where
  nodes := (j.field "nodes").items.map .ofJson
  targets := (j.field "target_ops").items.map Json.text
  inputNames := (j.field "input_names").items.map Json.text

def Request.ofJson (j : Json) : Request where
  graph := .ofJson j
  costs := (j.field "nodes").items.map fun n => (n.field "costs").items.map measuredOf
  transforms := (j.field "layout_costs").items.map fun t =>
    (((t.item 0).integer.toNat, (t.item 1).integer.toNat), (t.item 2).items.map (·.items.map measuredOf))
  links := (j.field? "in_nodes").map fun links =>
    .ofList (links.items.map fun l => ((l.item 0).integer.toNat, positionsOf (l.item 1)))
  limit := (j.field "max_num_states").int?

namespace Request

def inputLinks (r : Request) : Result Links :=
  match r.links with
  | some links => .ok links
  | none => r.graph.inputLinks

def costsOf (r : Request) (i : Nat) : List Scalar := r.costs.getD i []

end Request

def ascending {α : Type} (m : Keyed Nat α) : List (Nat × α) := m.entries.mergeSort fun a b => decide (a.1 ≤ b.1)

def measuredReport : Scalar → Report
  | .int n => .int n
  | .float x => .float x

def Graph.report (g : Graph) : Result Report := do
  let links ← g.inputLinks
  return .record [
    ("in", toReport links.entries),
    ("out", toReport (Links.reversed links).entries),
    ("multi", toReport ((List.range g.nodes.length).map g.joins))]

def tableReport (given : Bool) (t : Tensor Scalar) : Report :=
  let isInt := fun s => match s with
    | .int _ => true
    | .float _ => false
  let type :=
    if !given then .float 32
    else if !t.data.isEmpty && t.data.all isInt then .int 64
    else .float 64
  toReport (TypedTensor.mk type (t.map type.store))

def Request.stagesReport (r : Request) : Result Report := do
  let inputs ← r.inputLinks
  let p : Setting Scalar := {
    graph := r.graph, inputs, outs := .reversed inputs, costs := r.costsOf,
    transforms := .ofList r.transforms }
  let found ← solveStages measured p r.limit
  let stages := (ascending found.stages).map fun (i, s) => .list [
    .int i, toReport s.needed, tableReport s.given s.states, tableReport s.given s.full,
    toReport s.axes]
  return .record [
    ("optimal", toReport (ascending found.chosen)),
    ("num_states", .int found.states),
    ("stages", .list stages)]

def Request.eliminationReport (r : Request) : Result Report := do
  let inputs ← r.inputLinks
  let (start, done) ← Elimination.run measured r.graph inputs r.costsOf r.transforms
  return .record [
    ("start", .record [
      ("adj", toReport (ascending start.adjacent)),
      ("buckets", toReport start.buckets)]),
    ("optimal", toReport (ascending done.chosen)),
    ("is_optimal", .bool done.optimal),
    ("stack", toReport done.stack),
    ("costs", toReport ((ascending done.costs).map fun (i, xs) => (i, xs.map measuredReport)))]

end TensorToolchain.LayoutChoice
