import TensorToolchain.Tuning.Subspace

/-!
# Configuration spaces

Configurations are numbered in mixed radix: the first knob varies fastest. Lengths, knob sizes and
the verdicts of the shared filter are computed when first asked for and kept until they are cleared.
Setting the shared filter clears them, and so does a definition that brings a filter; any other does
not.
-/

namespace TensorToolchain.Tuning

abbrev SharedFilter := List (String × Entity) → Result Bool

/-- The current setting of a name: the first candidate of its knob, or a setting of its own. -/
inductive Choice where
  | first
  | own (e : Entity)

structure Kept where
  rangeLength : Option Int := none
  dims : Option (List Nat) := none
  verdicts : Option (List Bool) := none

structure Space where
  knobs : List (String × Subspace) := []
  choices : List (String × Choice) := []
  filter : Option SharedFilter := none
  kept : Kept := {}
  isFallback : Bool := false
  flop : Float := 0.0
  errors : List String := []

/-- A question to a space: it may fail, and what it computed is kept in either case. -/
abbrev Query := ExceptT Fault (StateM Space)

def Query.ofResult {α : Type} (r : Result α) : Query α :=
  match r with
  | .ok a => pure a
  | .error f => throw f

def wrap64 (n : Int) : Int := n.bmod (.pow 2 64)

def product64 (ns : List Int) : Int := ns.foldl (fun p n => wrap64 (p * n)) 1

namespace Space

variable (s : Space)

def sizes : List Nat := s.knobs.map (·.2.size)

def clear : Space := { s with kept := {} }

def setFilter (filter : Option SharedFilter) : Space := { s.clear with filter := filter }

def entity? (name : String) : Option Entity :=
  match s.choices.lookup name with
  | some (.own e) => some e
  | some .first => (s.knobs.lookup name).bind (·.candidates.head?)
  | none => none

def current : List (String × Entity) := s.choices.filterMap fun c => (s.entity? c.1).map fun e => (c.1, e)

def pick (index : Int) : List (String × Subspace) → Result (List (String × Entity))
  | [] => .ok []
  | (name, k) :: ks =>
    if k.size == 0 then fail .zeroDivision
    else do
      let e ← orFail .badIndex k.candidates[(index % k.size).toNat]?
      let rest ← pick (index / k.size) ks
      return (name, e) :: rest

end Space

def rangeLength : Query Int := do
  let s ← get
  match s.kept.rangeLength with
  | some n => return n
  | none =>
    let n := product64 (s.sizes.map .ofNat)
    set { s with kept := { s.kept with rangeLength := some n } }
    return n

def dims : Query (List Nat) := do
  let s ← get
  match s.kept.dims with
  | some ds => return ds
  | none =>
    set { s with kept := { s.kept with dims := some s.sizes } }
    return s.sizes

def verdicts (filter : SharedFilter) : Query (List Bool) := do
  match (← get).kept.verdicts with
  | some vs => return vs
  | none =>
    let n ← rangeLength
    let s ← get
    let vs ← .ofResult ((List.range n.toNat).mapM fun (i : Nat) => do
      filter (← Space.pick i s.knobs))
    modify fun s => { s with kept := { s.kept with verdicts := some vs } }
    return vs

/-- The number of configurations that the shared filter accepts. A product of sizes that wraps
around to a negative number is refused. -/
def length : Query Int := do
  match (← get).filter with
  | none =>
    let n ← rangeLength
    .ofResult (demand (0 ≤ n) .badValue)
    return n
  | some f => return (← verdicts f).count true

def isIndexValid (index : Int) : Query Bool := do
  let n ← rangeLength
  .ofResult (require (0 ≤ index && index < n) .failedCheck "")
  match (← get).filter with
  | none => return true
  | some f =>
    let vs ← verdicts f
    .ofResult (orFail .badIndex vs[index.toNat]?)

def subrangeLength (start stop : Int) : Query Int := do
  let n ← rangeLength
  .ofResult (require (0 ≤ start && start ≤ stop && stop ≤ n) .failedCheck "")
  match (← get).filter with
  | none => return stop - start
  | some f =>
    let vs ← verdicts f
    return ((vs.take stop.toNat).drop start.toNat).count true

/-- Go on from an index in steps of one until `count` accepted indices are met, or the bounds are
left. -/
def seek (trend start stop : Int) : Nat → Nat → Int → Query (Option Int)
  | _, 0, index => return some index
  | 0, _ + 1, _ => return none
  | fuel + 1, count + 1, index => do
    let next := index + trend
    if next < start || stop ≤ next then return none
    else if ← isIndexValid next then seek trend start stop fuel count next
    else seek trend start stop fuel (count + 1) next

/-- The `n`-th accepted index after an index, or before it if `n` is negative, within bounds; a
bound that is missing or zero is the end of the range. -/
def nextIndex (index n : Int) (start stop : Option Int) : Query (Option Int) := do
  .ofResult (require (n != 0) .failedCheck "")
  let start := start.getD 0
  let stop ← match stop with
    | some 0 => rangeLength
    | some b => pure b
    | none => rangeLength
  match (← get).filter with
  | none =>
    let i := index + n
    return if start ≤ i && i < stop then some i else none
  | some _ =>
    let trend : Int := if 0 < n then 1 else -1
    let room := if 0 < n then stop - index else index - start + 1
    seek trend start stop (room.toNat + 1) n.natAbs index

def digits : List Nat → Int → Result (List Int)
  | [], _ => .ok []
  | d :: ds, n =>
    if d == 0 then fail .zeroDivision
    else do
      let rest ← digits ds (n / d)
      return n % d :: rest

def pointToKnob (point : Int) : Query (List Int) := do
  .ofResult (digits (← dims) point)

def weightedSum (ds : List Nat) (knob : List Int) : Int :=
  (knob.zipIdx.map fun (k, j) => product64 ((ds.take j).map .ofNat) * k).foldl (· + ·) 0

def knobToPoint (knob : List Int) : Query Int := do
  return weightedSum (← dims) knob

def getConfiguration (index : Int) : Query Configuration := do
  let n ← rangeLength
  if index < 0 || n ≤ index then
    throw (.worded .badIndex s!"Index out of range: size {n}, got index {index}")
  if ← isIndexValid index then
    let s ← get
    let es ← .ofResult (Space.pick index s.knobs)
    return ⟨.int index, .null, es⟩
  else
    throw (.worded .badIndex (s!"Index does not correspond to the multi-filter condition, got index {index}. " ++
        "Use is_index_valid to pre-check"))

def spaceText : Query String := do
  let len ← length
  let range ← rangeLength
  let s ← get
  let lines := s.knobs.zipIdx.map fun ((name, k), i) => s!"  {padLeft 2 (toString i)} {name}: {k.text}\n"
  return s!"ConfigSpace (len={len}, range_length={range}, space_map=\n" ++ joined "" lines ++ ")"

/-! ### Definitions -/

/-- Define a knob: it replaces one of the same name in its place, and its first candidate becomes
the current setting. A knob without candidates is defined all the same, but refused. In a fallback
configuration a name that has a setting keeps it, and only the number of outputs is answered. -/
def define (name : String) (clears : Bool) (outputs : Result Nat) (knob : Result Subspace) : Query Nat := do
  if clears then modify .clear
  let s ← get
  if s.isFallback && (s.choices.lookup name).isSome then .ofResult outputs
  else
    let k ← .ofResult knob
    let old := s.entity? name
    let s' := { s with knobs := setNamed name k s.knobs }
    if k.candidates.isEmpty then
      set (match old with
        | some e => { s' with choices := setNamed name (.own e) s'.choices }
        | none => s')
      throw (.plain .badIndex)
    else
      set { s' with choices := setNamed name .first s'.choices }
      return k.outputs

def addFlop (x : Float) : Query Float := do
  modify fun s => { s with flop := s.flop + x }
  return (← get).flop

def raiseError (message : String) : Query Unit := modify fun s => { s with errors := s.errors ++ [message] }

end TensorToolchain.Tuning
