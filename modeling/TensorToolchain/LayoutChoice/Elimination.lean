import TensorToolchain.Fault
import TensorToolchain.Keyed

/-!
# Costs, links and the choice by elimination

Costs are added and compared. The choice of layouts is written for any such costs, so that it can
be run on measured times and reasoned about for exact numbers.
-/

namespace TensorToolchain.LayoutChoice

open List

/-- Costs that can be added and compared, the cost that stands for an impossible layout, and the
value that a table keeps of a cost. -/
structure CostScale (γ : Type) where
  zero : γ
  add : γ → γ → γ
  less : γ → γ → Bool
  invalid : γ
  kept : γ → γ

/-- Costs of a change of layout: one row for each choice at the source, one column for each choice
at the destination. -/
abbrev CostTable (γ : Type) := List (List γ)

variable {γ : Type}

namespace CostScale

variable (c : CostScale γ)

def least (a b : γ) : γ := if c.less b a then b else a

/-- The least cost of a list, the first of equal ones; none if the list is empty. -/
def leastOf? : List γ → Option γ
  | [] => none
  | x :: xs => some (xs.foldl c.least x)

def greatestOf? : List γ → Option γ
  | [] => none
  | x :: xs => some (xs.foldl (fun a b => if c.less a b then b else a) x)

/-- The first position of the least cost among those after some that were seen. -/
def leastFrom (c : CostScale γ) (best : γ) (found : Nat) : Nat → List γ → Nat
  | _, [] => found
  | i, x :: xs => if c.less x best then c.leastFrom x i (i + 1) xs else c.leastFrom best found (i + 1) xs

def leastIndex? : List γ → Option Nat
  | [] => none
  | x :: xs => some (c.leastFrom x 0 1 xs)

def sum (xs : List γ) : γ := xs.foldl c.add c.zero

def addAt (xs : List γ) (i : Nat) (d : γ) : Result (List γ) := do
  let x ← orFail .badIndex xs[i]?
  return xs.set i (c.add x d)

def addEntry (t : CostTable γ) (i j : Nat) (d : γ) : Result (CostTable γ) := do
  let row ← orFail .badIndex t[i]?
  return t.set i (← c.addAt row j d)

def tie (n : Nat) : CostTable γ :=
  (range n).map fun i => (range n).map fun j => if i == j then c.zero else c.invalid

end CostScale

/-- Rows and columns exchanged; the first row has the most columns. -/
def CostTable.transposed (t : CostTable γ) : Result (CostTable γ) := do
  let first ← orFail .badIndex t.head?
  demand (t.all fun row => decide (row.length ≤ first.length)) .badIndex
  return (range first.length).map fun j => t.filterMap (·[j]?)

/-! ### Graphs of operators

Target operators are those whose data layout is to be chosen. Boundary nodes are the inputs of the
graph and the operators that need the plain layout.

The nearest ancestors of a node are the anchors and boundary nodes that are reached from it by going
up through inputs that are neither.
-/

structure Node where
  op : Option String := none
  name : Option String := none
  inputs : List Nat := []
  /-- Whether the node makes a tuple of its inputs. -/
  isTuple : Bool := false

/-- The nodes, the target operators and the names of the inputs of the graph. -/
structure Graph where
  nodes : List Node
  (targets inputNames : List String)

def layoutFixed : List String := [
  "nn.batch_flatten", "transpose", "reshape", "vision.multibox_prior",
  "vision.multibox_transform_loc", "where", "vision.non_max_suppression", "strided_slice"]

def layoutChanging : List String := ["layout_transform"]

namespace Graph

variable (g : Graph)

def node (i : Nat) : Node := g.nodes.getD i {}

def isInput (i : Nat) : Bool := (g.node i).name.any g.inputNames.contains

def isTarget (i : Nat) : Bool := (g.node i).op.any g.targets.contains

def isBoundary (i : Nat) : Bool := (g.node i).op.any layoutFixed.contains || g.isInput i

/-- Whether a node is passed over when nodes are asked for their ancestors: a tuple, which has no
operator. -/
def isSkipped (i : Nat) : Bool := (g.node i).isTuple && (g.node i).op.isNone

/-- Whether more than one input of a node brings in data, looking through at most so many changes of
layout. Such a change counts if its last input has several inputs itself. -/
def joinsWithin (g : Graph) : Nat → Nat → Bool
  | 0, _ => false
  | fuel + 1, i =>
    let counts := fun k =>
      if (g.node k).op.any layoutChanging.contains then
        ((g.node k).inputs.getLast?.map (g.joinsWithin fuel)).getD false
      else (g.node k).op.isSome || g.isInput k
    decide (1 < ((g.node i).inputs.filter counts).length)

def joins (i : Nat) : Bool := g.joinsWithin (g.nodes.length + 1) i

/-- Whether a layout is chosen at a node: it is a target, or joins several inputs. -/
def isAnchor (i : Nat) : Bool := g.isTarget i || g.joins i

def Ordered : Prop := ∀ i, ∀ k ∈ (g.node i).inputs, k < i

end Graph

/-! ### Nearest ancestors -/

/-- The answers found so far, in the order in which they were completed. -/
abbrev Memo := Keyed Nat (List Nat)

def addNew (xs : List Nat) (x : Nat) : List Nat := if xs.contains x then xs else xs ++ [x]

namespace Graph

/-- The nearest ancestors of a node, at most so many steps up, and what is remembered afterwards. -/
def nearest (g : Graph) : Nat → Memo → Nat → List Nat × Memo
  | 0, memo, _ => ([], memo)
  | fuel + 1, memo, i =>
    match memo.get? i with
    | some found => (found, memo)
    | none =>
      if g.isBoundary i then ([i], memo)
      else
        let (found, memo) := (g.node i).inputs.foldl (fun (found, memo) k =>
            if g.isAnchor k then (found ++ [k], memo)
            else
              let (above, memo) := g.nearest fuel memo k
              (above.foldl addNew found, memo)) ([], memo)
        (found, memo.set i found)

def ancestors (g : Graph) (memo : Memo) (i : Nat) : List Nat × Memo := g.nearest (g.nodes.length + 1) memo i

/-- Everything remembered after asking for each node that is no boundary node and no tuple. -/
def allAncestors (g : Graph) : Memo :=
  (range g.nodes.length).foldl (fun memo i =>
    if g.isBoundary i || g.isSkipped i then memo else (g.ancestors memo i).2) {}

end Graph

abbrev Links := Keyed Nat (List Nat)

/-- Turn links around: every node that is a key or linked to leads to the keys that list it. -/
def Links.reversed (links : Links) : Links :=
  links.entries.foldl (fun out (key, inputs) => inputs.foldl
      (fun out k => out.set k (((out.get? k).getD []) ++ [key])) out)
    (links.mapValues fun _ _ => [])

/-- What is left of a list after a walk over it, and whether an item was met before the first that
is kept. -/
structure Walk where
  items : List Nat
  leading : Bool := true
  marked : Bool := false

/-- Walk over a list from a position and take away the items that are not kept. The walk counts
positions, so that it passes over the item that moves up when one is taken away. -/
def Walk.run (kept : Nat → Bool) : Nat → Nat → Walk → Walk
  | 0, _, w => w
  | fuel + 1, pos, w =>
    match w.items[pos]? with
    | none => w
    | some k =>
      let leading := w.leading && !kept k
      .run kept fuel (pos + 1)
        { items := if kept k then w.items else w.items.erase k
          leading
          marked := w.marked || leading }

def Walk.over (kept : Nat → Bool) (items : List Nat) : Walk := .run kept items.length 0 { items }

namespace Graph

def anchorLinks (g : Graph) : Links := ⟨g.allAncestors.entries.filter (g.isAnchor ·.1)⟩

/-- One round of pruning: the links after it and the nodes that were marked. -/
def pruneRound (g : Graph) (links : Links) : Links × List Nat :=
  let walks := links.mapValues fun key inputs =>
    if g.isTarget key then { items := inputs } else
      Walk.over (fun k => !g.isBoundary k && links.contains k) inputs
  let marked := (walks.entries.filter (·.2.marked)).map Prod.fst
  (⟨(walks.entries.filter fun p => !p.2.marked).map fun p => (p.1, p.2.items)⟩, marked)

def prune (g : Graph) : Nat → Links → Links
  | 0, links => links
  | fuel + 1, links =>
    let (links, marked) := g.pruneRound links
    if marked.isEmpty then links else g.prune fuel links

end Graph

def Links.unlink (links : Links) (i : Nat) (outs : List Nat) : Result Links :=
  outs.foldlM (fun links k => do
    let inputs ← orFail .missingKey (links.get? k)
    demand (inputs.contains i) .badValue
    return links.set k (inputs.erase i)) links

/-- Take away nodes without inputs until there are none. -/
def Links.dropEmpty (outs : Links) : Nat → Links → Result Links
  | 0, links => .ok links
  | fuel + 1, links => do
    let empty := (links.entries.filter (·.2.isEmpty)).map Prod.fst
    if empty.isEmpty then return links
    else
      let links ← empty.foldlM (fun links i => unlink (links.erase i) i ((outs.get? i).getD [])) links
      dropEmpty outs fuel links

def Graph.inputLinks (g : Graph) : Result Links :=
  let links := g.anchorLinks
  let fuel := links.entries.length + 1
  Links.dropEmpty (.reversed links) fuel (g.prune fuel links)

/-! ### Choice by elimination

Nodes with one or two neighbours are eliminated by adding the least cost that they can contribute to
what is left; this keeps the least total. If every node has more neighbours, the choice at one of
them is fixed by its least local cost, and the result need not be the least any more. Afterwards the
eliminated nodes are given their choices in reverse order.

Several edges may share a table, so tables are kept in one list and an edge names its table by
position.
-/

structure Elimination (γ : Type) where
  /-- The neighbours of each node. -/
  adjacent : Links
  /-- The cost of each choice at each node. -/
  costs : Keyed Nat (List γ)
  /-- The degree under which each node is filed. -/
  degree : Keyed Nat Nat := {}
  /-- The nodes by degree. -/
  buckets : List (List Nat) := []
  /-- The tables of the edges. -/
  tables : List (CostTable γ) := []
  /-- The position of the table of each edge. -/
  tableOf : Keyed (Nat × Nat) Nat := {}
  /-- The eliminated nodes. -/
  stack : List Nat := []
  /-- The choices made. -/
  chosen : Keyed Nat Nat := {}
  /-- Whether every step so far kept the least total. -/
  optimal : Bool := true

namespace Elimination

variable {γ : Type} (c : CostScale γ) (s : Elimination γ)

def neighbours (i : Nat) : Result (List Nat) := orFail .missingKey (s.adjacent.get? i)

def costsOf (i : Nat) : Result (List γ) := orFail .missingKey (s.costs.get? i)

def tableId (i k : Nat) : Result Nat := orFail .missingKey (s.tableOf.get? (i, k))

def table (i k : Nat) : Result (CostTable γ) := do
  return s.tables.getD (← s.tableId i k) []

def setTable (i k : Nat) (t : CostTable γ) : Elimination γ :=
  { s with tables := s.tables ++ [t], tableOf := s.tableOf.set (i, k) s.tables.length }

def addCost (i choice : Nat) (d : γ) : Result (Elimination γ) := do
  return { s with costs := s.costs.set i (← c.addAt (← s.costsOf i) choice d) }

/-- Add to an entry of the table of an edge, and so to all edges that share it. -/
def addToTable (i k row column : Nat) (d : γ) : Result (Elimination γ) := do
  let id ← s.tableId i k
  return { s with tables := s.tables.set id (← c.addEntry (s.tables.getD id []) row column d) }

def unfile (d i : Nat) : Result (Elimination γ) := do
  let bucket ← orFail .badIndex s.buckets[d]?
  demand (bucket.contains i) .badValue
  return { s with buckets := s.buckets.set d (bucket.erase i) }

/-- Take a node out of the graph; it keeps its own list of neighbours. -/
def remove (i : Nat) : Result (Elimination γ) := do
  let around ← s.neighbours i
  let s ← s.unfile around.length i
  return { s with adjacent := ← Links.unlink s.adjacent i around }

/-- File a node anew if its degree has changed; it then comes first in its bucket. -/
def refile (k : Nat) : Result (Elimination γ) := do
  let now := (← s.neighbours k).length
  let before ← orFail .missingKey (s.degree.get? k)
  if before == now then return s
  else
    let s ← s.unfile before k
    let bucket ← orFail .badIndex s.buckets[now]?
    return { s with buckets := s.buckets.set now (k :: bucket), degree := s.degree.set k now }

/-- Take a node out, file its neighbours anew and remember it. -/
def retire (i : Nat) : Result (Elimination γ) := do
  let s ← s.remove i
  let s ← (← s.neighbours i).foldlM refile s
  return { s with stack := s.stack ++ [i] }

def addEdge (x y : Nat) (t : CostTable γ) : Result (Elimination γ) := do
  let s := (s.setTable x y t).setTable y x (← t.transposed)
  let aroundX ← s.neighbours x
  let s := { s with adjacent := s.adjacent.set x (aroundX ++ [y]) }
  let aroundY ← s.neighbours y
  return { s with adjacent := s.adjacent.set y (aroundY ++ [x]) }

/-- The least cost of a choice at a node whose two neighbours have chosen the given rows; it is at
most the invalid cost. -/
def bestOfPair (rowX rowY own : List γ) : Result γ := do
  let totals ← own.zipIdx.mapM fun (cost, k) => do
    let x ← orFail .badIndex rowX[k]?
    let y ← orFail .badIndex rowY[k]?
    return c.add (c.add x y) cost
  return totals.foldl c.least c.invalid

def bestInRow (row own : List γ) : Result γ := do
  let totals ← row.zipIdx.mapM fun (cost, k) => do
    return c.add cost (← orFail .badIndex own[k]?)
  return totals.foldl c.least c.invalid

def reduceOne (i : Nat) : Result (Elimination γ) := do
  let k ← orFail .badIndex (← s.neighbours i).head?
  let t ← s.table k i
  let s ← t.zipIdx.foldlM (fun s (row, choice) => do
    s.addCost c k choice (← bestInRow c row (← s.costsOf i))) s
  s.retire i

def reduceTwo (i : Nat) : Result (Elimination γ) := do
  match ← s.neighbours i with
  | [x, y] =>
    let tx ← s.table x i
    let ty ← s.table y i
    let own ← s.costsOf i
    let delta ← tx.mapM fun rowX => ty.mapM (bestOfPair c rowX · own)
    let s ←
      if x == y then
        delta.zipIdx.foldlM (fun s (row, choice) => do
          s.addCost c x choice (← orFail .badIndex row[choice]?)) s
      else if (← s.neighbours y).contains x then
        delta.zipIdx.foldlM (fun s (row, p) =>
          row.zipIdx.foldlM (fun s (d, q) => do
            (← s.addToTable c x y p q d).addToTable c y x q p d) s) s
      else s.addEdge x y delta
    s.retire i
  | _ => fail .badValue

def leastBeside (i choice k : Nat) : Result γ := do
  let row ← orFail .badIndex (← s.table i k)[choice]?
  let costs ← row.zipIdx.foldlM (fun costs (d, q) => c.addAt costs q d) (← s.costsOf k)
  orFail .badValue (c.leastOf? costs)

def localCost (i choice : Nat) (cost : γ) : Result γ := do
  (← s.neighbours i).foldlM (fun total k => do
    return c.add total (← s.leastBeside c i choice k)) cost

def fixLocally (i : Nat) : Result (Elimination γ) := do
  let own ← s.costsOf i
  let (_, best) ← own.zipIdx.foldlM (fun (least, best) (cost, choice) => do
    let total ← s.localCost c i choice cost
    return if c.less total least then (total, some choice) else (least, best))
    (c.invalid, none)
  match best with
  | none => refuse .runtime ("Can't find a soltuion for node " ++ toString i ++ " when applying RN reduction")
  | some choice =>
    let s := { s with chosen := s.chosen.set i choice, optimal := false }
    let s ← (← s.neighbours i).foldlM (fun (s : Elimination γ) k => do
      let row ← orFail .badIndex (← s.table i k)[choice]?
      row.zipIdx.foldlM (fun s (d, q) => s.addCost c k q d) s) s
    s.retire i

/-- A node of greatest degree, if there is one with more than two neighbours. -/
def crowded? : Option Nat := ((s.buckets.take (s.buckets.length - 1)).drop 3).reverse.findSome? head?

/-- One step: eliminate a node with one neighbour, else one with two, else fix a choice. None if
every node that is left has no neighbour. -/
def step : Result (Option (Elimination γ)) := do
  let single ← orFail .badIndex s.buckets[1]?
  let double := if 3 < s.buckets.length then s.buckets.getD 2 [] else []
  match single, double, s.crowded? with
  | i :: _, _, _ => return some (← s.reduceOne c i)
  | [], i :: _, _ => return some (← s.reduceTwo c i)
  | [], [], some i => return some (← s.fixLocally c i)
  | [], [], none => return none

def forward (c : CostScale γ) : Nat → Elimination γ → Result (Elimination γ)
  | 0, s => .ok s
  | fuel + 1, s => do
    match ← s.step c with
    | some next => forward c fuel next
    | none => return s

def chooseLeast (i : Nat) (costs : List γ) : Result (Elimination γ) := do
  let best ← orFail .badValue (c.leastIndex? costs)
  return { s with chosen := s.chosen.set i best }

/-- The costs of a node with those of its edges to neighbours that have chosen. -/
def settledCosts (i : Nat) : Result (List γ) := do
  (← s.neighbours i).foldlM (fun costs k => do
    let choice ← orFail .missingKey (s.chosen.get? k)
    costs.zipIdx.mapM fun (cost, p) => do
      let row ← orFail .badIndex (← s.table i k)[p]?
      return c.add cost (← orFail .badIndex row[choice]?)) (← s.costsOf i)

/-- Choose at the nodes that are left, then at the eliminated ones in reverse order. -/
def backward : Result (Elimination γ) := do
  let s ← (s.buckets.headD []).foldlM (fun s i => do
    s.chooseLeast c i (← s.costsOf i)) s
  s.stack.reverse.foldlM (fun s i => do
    if s.chosen.contains i then return s
    else s.chooseLeast c i (← s.settledCosts c i)) s

def solve : Result (Elimination γ) := do
  (← forward c (s.buckets.flatten.length + 1) s).backward c

/-! ### From a graph -/

def innerLinks (g : Graph) (inputs outs : Links) : Result Links :=
  (outs.entries.filter (g.isBoundary ·.1)).foldlM
    (fun links p => Links.unlink links p.1 p.2) inputs

/-- The state before the first step: every node is filed by its degree, in ascending order. -/
def start (inputs outs : Links) (costs : Nat → List γ) : Elimination γ :=
  let adjacent := inputs.mapValues fun i ins => ins ++ (outs.get? i).getD []
  let degree := adjacent.mapValues fun _ around => around.length
  let size := (degree.values.map (· + 2)).foldl max 1
  let sorted := inputs.keys.mergeSort
  { adjacent
    costs := inputs.mapValues fun i _ => costs i
    degree
    buckets := (range size).map fun d => sorted.filter (degree.get? · == some d) }

/-- The tables of the edges into a node that joins inputs: the first input that is no boundary is
tied to the node, and each later one takes the table of its edge to the first. -/
def joinTables (g : Graph) (costs : Nat → List γ) (s : Elimination γ)
    (added : Elimination γ) (key : Nat) (inputs : List Nat) : Result (Elimination γ) := do
  match inputs.dropWhile g.isBoundary with
  | [] => return added
  | first :: rest =>
    let added := added.setTable first key (c.tie (costs first).length)
    (rest.filter (!g.isBoundary ·)).foldlM (fun added i => do
      return { added with tableOf := added.tableOf.set (i, key) (← s.tableId i first) }) added

def reverseTables : Result (Elimination γ) :=
  s.tableOf.entries.foldlM (fun m ((i, k), id) => do
    return m.setTable k i (← (s.tables.getD id []).transposed)) s

/-- The tables for a run: those given, those of joining nodes, and the opposite ones. -/
def withTables (g : Graph) (inputs : Links) (costs : Nat → List γ)
    (given : List ((Nat × Nat) × CostTable γ)) (s : Elimination γ) : Result (Elimination γ) := do
  let s := given.foldl (fun s ((i, k), t) => s.setTable i k t) s
  let added ← (inputs.entries.filter (g.joins ·.1)).foldlM
    (fun added p => joinTables c g costs s added p.1 p.2) s
  added.reverseTables

/-- The state before the first step and the one after the last, for the links of a graph, the costs
of its nodes and the tables that are given for edges. -/
def run (g : Graph) (inputs : Links) (costs : Nat → List γ)
    (given : List ((Nat × Nat) × CostTable γ)) : Result (Elimination γ × Elimination γ) := do
  let outs := .reversed inputs
  let inner ← innerLinks g inputs outs
  let first := start inner outs costs
  let ready ← first.withTables c g inner costs given
  return (first, ← ready.solve c)

end Elimination

end TensorToolchain.LayoutChoice
