import TensorToolchain.LayoutChoice.Elimination
import TensorToolchain.Tensor.Slice

/-!
# Stages of dynamic programming

A stage holds, for one anchor, the least cost of everything up to it, as a table with one axis for
its own choice and one for the choice at every earlier node that is still needed. `align` spreads
the tables of several stages over one list of axes, so that they can be added entry by entry.
-/

namespace TensorToolchain.LayoutChoice

open List Tensor

variable {γ : Type}

/-- The indices of a tensor that differ from an index without one axis in that axis alone. -/
def fibre (axis n : Nat) (index : List Nat) : List (List Nat) := (range n).map (index.insertIdx axis ·)

def CostScale.leastAlong [Inhabited γ] (c : CostScale γ) (t : Tensor γ) (axis : Nat) : Result (Tensor γ) :=
  let n := t.shape.getD axis 0
  if n == 0 then fail .badValue
  else .ok (.ofFn (t.shape.eraseIdx axis) fun i => (c.leastOf? ((fibre axis n i).map t.get)).getD default)

def CostScale.leastIndexAlong [Inhabited γ] (c : CostScale γ) (t : Tensor γ) (axis : Nat) : Result (Tensor Nat) :=
  if t.rank ≤ axis then fail .badAxis
  else
    let n := t.shape.getD axis 0
    if n == 0 then fail .badValue
    else .ok (.ofFn (t.shape.eraseIdx axis) fun i => (c.leastIndex? ((fibre axis n i).map t.get)).getD 0)

/-! ### Stages -/

/-- A stage: the nodes still needed, the table for later stages, and the full table before the nodes
that are not needed were minimised away, with the nodes of its axes. -/
structure Stage (γ : Type) where
  needed : List Nat
  (states full : Tensor γ)
  axes : Option (List Nat)
  /-- Whether the tables hold given costs as they are. -/
  given : Bool := false
  deriving Inhabited

structure Setting (γ : Type) where
  graph : Graph
  (inputs outs : Links)
  costs : Nat → List γ
  transforms : Keyed (Nat × Nat) (CostTable γ)

/-- The stages so far, the nodes whose own cost has been counted, and for each node that is needed
the stages to come that need it. -/
structure Progress (γ : Type) where
  stages : Keyed Nat (Stage γ) := {}
  counted : List Nat := []
  waiting : Links := {}

namespace Setting

variable [Inhabited γ]

def choices (p : Setting γ) (i : Nat) : Nat := (p.costs i).length

def outsOf (p : Setting γ) (i : Nat) : List Nat := (p.outs.get? i).getD []

def transform (p : Setting γ) (source sink choice other : Nat) : Result γ := do
  let t ← orFail .missingKey (p.transforms.get? (source, sink))
  let row ← orFail .badIndex t[choice]?
  orFail .badIndex row[other]?

end Setting

def Progress.stage (s : Progress γ) (i : Nat) : Result (Stage γ) := orFail .missingKey (s.stages.get? i)

/-- A table spread over aligned axes, with the axis of the node itself and the number of entries
that one step along this axis passes. -/
structure Aligned (γ : Type) where
  (node axis stride : Nat)
  states : Tensor γ

/-- The position along the axis of the node itself that an entry has. -/
def Aligned.choiceAt (a : Aligned γ) (entry : Int) : Int :=
  (entry.fmod (a.stride * a.states.shape.getD a.axis 0 : Nat)).fdiv a.stride

def alignedNodes (inputs : List Nat) (needed : List (List Nat)) : List Nat := needed.flatten.foldl addNew inputs

def lastPosition (xs : List Nat) (x : Nat) : Nat := xs.length - 1 - xs.reverse.idxOf x

def alignStage [Inhabited γ] (nodes shape : List Nat) (input : Nat) (s : Stage γ) : Result (Aligned γ) := do
  let own := input :: s.needed
  let order := (nodes.filter own.contains).map own.idxOf
  let sizes := (nodes.zip shape).map fun (i, n) => if own.contains i then n else 1
  let states ← (← (← s.states.transpose order).reshape sizes).spread shape
  let axis := lastPosition nodes input
  return { node := input, axis, stride := volume (shape.drop (axis + 1)), states }

/-- The tables of some stages over common axes, and the nodes of these. There may be any number of
axes; the limit that arrays have is not kept. -/
def align [Inhabited γ] (choices : Nat → Nat) (stages : Keyed Nat (Stage γ)) (inputs : List Nat) :
    Result (List (Aligned γ) × List Nat) := do
  let found ← inputs.mapM fun i => do return (i, ← orFail .missingKey (stages.get? i))
  let nodes := alignedNodes inputs (found.map (·.2.needed))
  let shape := nodes.map choices
  let tables ← found.mapM fun (i, s) => alignStage nodes shape i s
  return (tables, nodes)

namespace Progress

variable [Inhabited γ] (c : CostScale γ) (p : Setting γ)

/-- Let the nodes that a stage leads to wait in its place for what it needs. -/
def handOver (i : Nat) (needed : List Nat) (s : Progress γ) : Result (Progress γ) := do
  let waiting ← needed.foldlM (fun (waiting : Links) k => do
    let stages ← orFail .missingKey (waiting.get? k)
    demand (stages.contains i) .missingKey
    return waiting.set k ((p.outsOf i).foldl addNew (stages.erase i))) s.waiting
  let waiting := if 1 < (p.outsOf i).length then waiting.set i ((p.outsOf i).foldl addNew []) else waiting
  return { s with waiting }

def operatorTable (s : Progress γ) (i input : Nat) (before : Stage γ) : Result (Tensor γ) := do
  let own := p.costs i
  let shape := own.length :: p.choices input :: before.needed.map p.choices
  let stride := volume (shape.drop 2)
  let states := before.states.data.toList
  let counted := s.counted.contains input
  let rows ← own.zipIdx.mapM fun (cost, choice) => states.zipIdx.mapM fun (state, j) => do
    demand (stride != 0) .zeroDivision
    let change ← p.transform input i (j / stride) choice
    let total := c.add cost change
    return c.kept (if counted then total else c.add total state)
  let filled := rows.flatten
  demand (decide (filled.length ≤ volume shape)) .badIndex
  let rest := replicate (volume shape - filled.length) (c.kept c.zero)
  return ⟨shape, (filled ++ rest).toArray⟩

def operatorStage (s : Progress γ) (i : Nat) : Result (Stage γ × Progress γ) := do
  let input ← orFail .badIndex ((p.inputs.get? i).getD []).head?
  if p.graph.isBoundary input then
    let table : Tensor γ := ⟨[p.choices i], (p.costs i).toArray⟩
    return ({ needed := [], states := table, full := table, axes := none, given := true }, ← s.handOver p i [])
  else
    let before ← s.stage input
    let full ← s.operatorTable c p i input before
    let s := { s with counted := addNew s.counted input }
    let axes := some (i :: input :: before.needed)
    if (p.outsOf input).length == 1 then
      let states ← c.leastAlong full 1
      return ({ needed := before.needed, states, full, axes }, ← s.handOver p i before.needed)
    else
      let needed := input :: before.needed
      return ({ needed, states := full, full, axes }, ← s.handOver p i needed)

/-- The cost of one entry of the table of a node that joins inputs. It stays at zero if there is
one input only. -/
def joinedCost (counted : List Nat) (first : Aligned γ) (rest : List (Aligned γ)) (entry : Nat) : Result γ := do
  let state := (·.states.data.getD entry default)
  let start := if counted.contains first.node then c.zero else state first
  let total ← rest.foldlM (fun total a => do
    let change ← p.transform a.node first.node (a.choiceAt entry).toNat (first.choiceAt entry).toNat
    return c.add total (if counted.contains a.node then change else c.add change (state a))) start
  return c.kept (if rest.isEmpty then c.zero else total)

/-- Minimise away the axes that no stage to come needs: the nodes still needed, the table, and who
waits for what. -/
def reduceAxes (nodes : List Nat) (t : Tensor γ) (waiting : Links) : Result (List Nat × Tensor γ × Links) :=
  nodes.foldlM (fun (needed, t, waiting) k => do
    match waiting.get? k with
    | some (_ :: _ :: _) | some [] => return (needed ++ [k], t, waiting)
    | _ => return (needed, ← c.leastAlong t (needed.length + 1), waiting.erase k)) ([], t, waiting)

def joinStage (s : Progress γ) (i : Nat) : Result (Stage γ × Progress γ) := do
  let inputs := ((p.inputs.get? i).getD []).filter (!p.graph.isBoundary ·)
  let (tables, nodes) ← align p.choices s.stages inputs
  match tables with
  | [] => fail .badIndex
  | first :: rest =>
    let shape := first.states.shape
    let entries ← (range (volume shape)).mapM (joinedCost c p s.counted first rest)
    let full : Tensor γ := ⟨shape, entries.toArray⟩
    let s := { s with counted := (tables.map Aligned.node).foldl addNew s.counted }
    let others := (range shape.length).filter (· != first.axis)
    let (needed, states, waiting) ←
      reduceAxes c (pick nodes others) (full.permute (first.axis :: others)) s.waiting
    return ({ needed, states, full, axes := some nodes }, ← { s with waiting }.handOver p i needed)

def advance (s : Progress γ) (i : Nat) : Result (Stage γ × Progress γ) := do
  let (stage, s) ← if p.graph.isTarget i then s.operatorStage c p i else s.joinStage c p i
  return (stage, { s with stages := s.stages.set i stage })

end Progress

/-! ### Choice by dynamic programming

The stages are built in ascending order of their nodes. The choices at the outputs are read off the
least entry of their aligned tables, and the choices at all other nodes are traced back through the
stages.
-/

variable [Inhabited γ]

def maxOutputs : Nat := 16

structure Solution (γ : Type) where
  stages : Keyed Nat (Stage γ) := {}
  states : Nat := 0
  chosen : Keyed Nat Nat := {}

def countStates (limit : Option Int) (total more : Nat) : Result Nat :=
  let now := total + more
  match limit with
  | none => .ok now
  | some n =>
    if n < now then
      refuse .runtime ("Too many states detected while running dynamic programming: got " ++
        toString now ++ " states but upper limit is " ++ toString n ++ ".")
    else .ok now

variable (c : CostScale γ) (p : Setting γ)

def buildStages (limit : Option Int) : Result (Progress γ × Nat) :=
  p.inputs.keys.mergeSort.foldlM (fun (s, n) i => do
    let (stage, s) ← s.advance c p i
    return (s, ← countStates limit n stage.full.data.size)) ({}, 0)

/-- The first entry whose total over all tables is less than a bound and least; none if no entry is
below the bound. -/
def leastEntry (bound : γ) (totals : List γ) : Option Nat :=
  (totals.zipIdx.foldl (fun (least, found) (total, i) =>
    if c.less total least then (total, some i) else (least, found)) (bound, none)).2

/-- The choices at the outputs and at the nodes that their tables need. If no entry is below the
sum of the greatest ones, the last entry is taken. -/
def chooseOutputs (tables : List (Aligned γ)) (nodes : List Nat) : Result (Keyed Nat Nat) := do
  let first ← orFail .badIndex tables.head?
  let shape := first.states.shape
  let size := first.states.data.size
  let greatest ← tables.mapM fun a => orFail .badValue (c.greatestOf? a.states.data.toList)
  let totals := (range size).map fun i => c.sum (tables.map (·.states.data.getD i default))
  let entry : Int := ((leastEntry c (c.sum greatest) totals).map Int.ofNat).getD (-1)
  let atOutputs := (tables.zip nodes).map fun (a, i) => (i, (a.choiceAt entry).toNat)
  let rest := (range nodes.length).drop tables.length
  let atNeeded := rest.map fun k =>
    (nodes.getD k 0, ((entry.fdiv (volume (shape.drop (k + 1)))).fmod (shape.getD k 0)).toNat)
  return .ofList (atOutputs ++ atNeeded)

structure Trace where
  queue : List Nat
  visited : List Nat := []
  chosen : Keyed Nat Nat

def Trace.choice (t : Trace) (i : Nat) : Result Nat := orFail .missingKey (t.chosen.get? i)

/-- Visit a node with one input: the input takes the choice of least cost. -/
def Trace.visitSingle (stage : Stage γ) (i choice : Nat) (t : Trace) : Result Trace := do
  let input ← orFail .badIndex ((p.inputs.get? i).getD []).head?
  if p.graph.isBoundary input || t.visited.contains input then return t
  else
    let t := { t with queue := t.queue ++ [input] }
    if t.chosen.contains input then return t
    else
      let needed ← stage.needed.mapM t.choice
      let best ← c.leastIndexAlong stage.full 1
      let index := choice :: needed
      demand (contains best.shape index) .badIndex
      return { t with chosen := t.chosen.set input (best.get index) }

def choicesOf (shape : List Nat) (entry : Nat) : List Nat := indexAt shape entry

/-- Visit a node that joins inputs: the first takes the choice of the node, and the nodes of the
other axes that have not chosen take the least entry that is left. -/
def Trace.visitJoin (stage : Stage γ) (i choice : Nat) (t : Trace) : Result Trace := do
  let inputs := (p.inputs.get? i).getD []
  let first ← orFail .badIndex inputs.head?
  let t := { t with chosen := t.chosen.set first choice }
  demand (decide (choice < stage.full.shape.headD 0)) .badIndex
  let axes ← orFail .badType stage.axes
  let part := stage.full.sub [choice]
  let others := axes.tail.zipIdx
  let (known, fresh) := others.partition fun (k, _) => t.chosen.contains k
  let lead ← known.mapM fun (k, _) => t.choice k
  let part ←
    if known.isEmpty then pure part
    else do
      let turned ← part.transpose ((known ++ fresh).map Prod.snd)
      demand ((lead.zip turned.shape).all fun (x, n) => decide (x < n)) .badIndex
      pure (turned.sub lead)
  let entry ← orFail .badValue (c.leastIndex? part.data.toList)
  let sizes := fresh.map fun (_, a) => stage.full.shape.getD (a + 1) 0
  let chosen := (fresh.zip (choicesOf sizes entry)).foldl (fun (m : Keyed Nat Nat) ((k, _), x) => m.set k x) t.chosen
  let more := inputs.filter (!t.visited.contains ·)
  return { t with chosen, queue := t.queue ++ more }

def Trace.run (c : CostScale γ) (p : Setting γ) (stages : Keyed Nat (Stage γ)) : Nat → Trace → Result Trace
  | 0, t => .ok t
  | fuel + 1, t => do
    match t.queue with
    | [] => return t
    | i :: queue =>
      let t := { t with queue, visited := addNew t.visited i }
      if p.graph.isBoundary i then run c p stages fuel t
      else
        let choice ← t.choice i
        let stage ← orFail .missingKey (stages.get? i)
        let t ← if p.graph.joins i then t.visitJoin c p stage i choice
          else t.visitSingle c p stage i choice
        run c p stages fuel t

/-- More visits than there can be: every visit follows a path from an output. -/
def visitBound (outputs : Nat) : Nat := outputs * (p.inputs.values.map (·.length + 1)).foldl (· * ·) 1 + 1

/-- Choose a layout at every anchor. With too many outputs the first choice is taken everywhere. -/
def solveStages (limit : Option Int) : Result (Solution γ) := do
  let (s, n) ← buildStages c p limit
  let outputs := (p.outs.entries.filter (·.2.isEmpty)).map Prod.fst
  if maxOutputs < outputs.length then
    return { stages := s.stages, states := n, chosen := p.inputs.mapValues fun _ _ => 0 }
  else
    let (tables, nodes) ← align p.choices s.stages outputs
    let first ← orFail .badIndex tables.head?
    let n ← countStates limit n (first.states.data.size * outputs.length)
    let chosen ← chooseOutputs c tables nodes
    let t ← Trace.run c p s.stages (visitBound p outputs.length) { queue := outputs, chosen }
    return { stages := s.stages, states := n, chosen := t.chosen }

end TensorToolchain.LayoutChoice
