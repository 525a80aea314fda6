import TensorToolchain.Tuning.Space

/-!
# Fallbacks, schedules and sessions

`fallbackSplit` gives each part of a split the largest divisor of what is left that a constraint
allows, from the last part to the first. If the current setting is the first candidate itself, the
candidate changes with it.
-/

namespace TensorToolchain.Tuning

open Number (Scalar)
open Query (ofResult)

def Subspace.overwriteFirst (k : Subspace) (e : Entity) : Subspace := { k with candidates := k.candidates.set 0 e }

namespace Space

def setOwn (s : Space) (name : String) (e : Entity) : Space := { s with choices := setNamed name (.own e) s.choices }

/-- Overwrite the current setting of a name, and with it the first candidate that it stands for. -/
def updateCurrent (s : Space) (name : String) (e : Entity) : Space :=
  match s.choices.lookup name with
  | some .first => { s with knobs := s.knobs.map fun k => (k.1, if k.1 == name then k.2.overwriteFirst e else k.2) }
  | _ => s.setOwn name e

end Space

/-- The largest divisor that a constraint allows: minus one allows any up to ten thousand
millions. -/
def largestWithin (factors : List Nat) (constraint : Scalar) : Option Nat :=
  let bound : Scalar := if constraint.equal (.int (-1)) then .float 1e10 else constraint
  (factors.takeWhile fun (f : Nat) => !(bound.less (.int f))).getLast?

/-- The largest divisor of what is left of an axis that a constraint allows. -/
def partWithin (name : String) (left : Int) (constraint : Scalar) : Result Nat := do
  match largestWithin (← divisorsOf left) constraint with
  | none => refuse .runtime s!"Cannot find feasible fallback split entity for node: {name}"
  | some f => .ok f

def setPart (name : String) (i : Nat) (size : Int) : Query Unit := do
  let s ← get
  match s.entity? name with
  | some (.split sizes) =>
    if i < sizes.length then set (s.updateCurrent name (.split (sizes.set i size)))
    else throw (.plain .badIndex)
  | _ => throw (.plain .missingAttribute)

/-- Set the parts of a split from the last position to the first, whose constraints are given in
this order; `left` is what is still to be divided. -/
def fillParts (name : String) : List Scalar → Int → Query Unit
  | [], _ => return
  | constraint :: rest, left => do
    let f ← ofResult (partWithin name left constraint)
    setPart name rest.length f
    fillParts name rest (left / f)

/-- The length of a split knob that yields so many parts and has a current setting. -/
def Space.lengthToSplit (s : Space) (name : String) (parts : Nat) : Result Int := do
  let k ← orFail .missingKey (s.knobs.lookup name)
  match k.splitLength? with
  | none => refuse .failedCheck ""
  | some length =>
    require (parts == k.outputs) .failedCheck ""
    let _ ← orFail .missingKey (s.choices.lookup name)
    return length

def fallbackSplit (name : String) (constraints : List Scalar) : Query Unit := do
  let length ← ofResult ((← get).lengthToSplit name constraints.length)
  fillParts name constraints.reverse length

abbrev Reference := List (String × Entity)

variable (j : Json) (r : Reference)

def Reference.sizes (name : String) : Result (List Int) := do
  let e ← orFail .missingKey (r.lookup name)
  orFail .missingAttribute e.sizes?

/-- How records are scored: shares of a whole, their sums and comparisons, and products of sizes. -/
structure ScoreScale (σ : Type) where
  zero : σ
  share : Nat → Nat → σ
  add : σ → σ → σ
  less : σ → σ → Bool
  product : List Int → Int

def machineScores : ScoreScale Float where
  zero := 0.0
  share part whole := Number.ofRatio part whole
  add := (· + ·)
  less a b := a < b
  product := product64

section

variable {σ : Type}

/-- The share of the divisors of a knob that also divide the product of a record's sizes. -/
def shareOfDivisors (scale : ScoreScale σ) (factors : List Nat) (sizes : List Int) : Result σ := do
  let others ← divisorsOf (scale.product sizes)
  return scale.share (factors.filter others.contains).length factors.length

/-- Add up the shares of the knobs of one record; whenever the sum exceeds the best so far, the
record becomes the best. -/
def scoreRecord (scale : ScoreScale σ) (r : Reference) : List (String × List Nat) → σ →
    σ × Option Reference → Result (σ × Option Reference)
  | [], _, best => .ok best
  | (name, factors) :: rest, score, best => do
    let score := scale.add score (← shareOfDivisors scale factors (← r.sizes name))
    scoreRecord scale r rest score (if scale.less best.1 score then (score, some r) else best)

/-- The first of the records that score best for split knobs of given lengths. -/
def bestRecord (scale : ScoreScale σ) (splits : List (String × Int)) (records : List Reference) :
    Result (Option Reference) := do
  let knobs ← splits.mapM fun k => do return (k.1, ← divisorsOf k.2)
  let best ← records.foldlM (fun best r => scoreRecord scale r knobs scale.zero best) (scale.zero, none)
  return best.2

end

def setEntity (name : String) (e : Entity) : Query Unit := modify (·.setOwn name e)

/-- Set a split knob with the sizes of a record as constraints, the first of which is free. -/
def Reference.imitateSplit (name : String) : Query Unit := do
  match ← ofResult (r.sizes name) with
  | [] => throw (.plain .badIndex)
  | _ :: sizes => fallbackSplit name (.int (-1) :: sizes.map .int)

def Reference.copyEntity (name : String) : Query Unit := do
  setEntity name (← ofResult (orFail .missingKey (r.lookup name)))

def Space.splitLengths (s : Space) : List (String × Int) :=
  s.knobs.filterMap fun k => k.2.splitLength?.map fun n => (k.1, n)

/-- Set all knobs after a record, the split knobs first. -/
def Reference.imitate : Query Unit := do
  let s ← get
  s.splitLengths.forM (r.imitateSplit ·.1)
  (s.knobs.filter (·.2.splitLength?.isNone)).forM (r.copyEntity ·.1)

/-- Set all knobs after the reference record that matches them best. -/
def fallbackFromReferences {σ : Type} (scale : ScoreScale σ) (records : List Reference) : Query Unit := do
  match ← ofResult (bestRecord scale (← get).splitLengths records) with
  | none => return
  | some r => r.imitate

def fallbackText : Query String := do
  return entitiesText (← get).current ++ ",None"

/-! ### Applying settings to a loop nest

A schedule records the transformations that a setting asks for. New axes are named `t0`, `t1` and
so on: a split makes the outer and then the inner one, a fusion makes one.
-/

inductive LoopCall where
  | split (axis : String) (factor : Int)
  | fuse (outer inner : String)
  | reorder (axes : List String)
  | unroll (axis : String)
  | vectorize (axis : String)
  | bindThread (axis thread : String)
  | computeAt (stage axis : String)
  deriving DecidableEq

/-- The calls of a schedule, the number of axes made so far, and the errors noted. -/
structure Schedule where
  calls : List LoopCall := []
  made : Nat := 0
  errors : List String := []
  deriving DecidableEq

abbrev Scheduling := StateT Schedule (Result)

def record (call : LoopCall) : Scheduling Unit := modify fun s => { s with calls := s.calls ++ [call] }

def freshAxis : Scheduling String := do
  let s ← get
  set { s with made := s.made + 1 }
  return s!"t{s.made}"

def splitAxis (axis : String) (factor : Int) : Scheduling (String × String) := do
  record (.split axis factor)
  let outer ← freshAxis
  let inner ← freshAxis
  return (outer, inner)

def fuseAxes (outer inner : String) : Scheduling String := do
  record (.fuse outer inner)
  freshAxis

def applySplit : List Int → String → Scheduling (List String)
  | [], axis => return [axis]
  | s :: rest, axis => do
    let (outer, inner) ← splitAxis axis (product64 (s :: rest))
    return outer :: (← applySplit rest inner)

def axisAt (axes : List String) (i : Int) : Result String := Value.itemAt axes i

/-- Put axes in order; positions beyond the axes are left out if the lengths differ. -/
def applyReorder (order : List Int) (axes : List String) : Scheduling (List String) := do
  let order := if axes.length == order.length then order
    else order.filter (· < axes.length)
  let new ← order.mapM (axisAt axes ·)
  record (.reorder new)
  return new

structure AnnotateOptions where
  axisLengths : Option (List Int) := none
  maxUnroll : Option Int := none
  vectorSizes : Option (List Int) := none
  notesErrors : Bool := false
  sources : Option (List (List String)) := none

def AnnotateOptions.lengthOf (o : AnnotateOptions) (i : Nat) : Result Int := do
  let ls ← orFail .badType o.axisLengths
  orFail .badIndex ls[i]?

def AnnotateOptions.note (o : AnnotateOptions) (message : String) : Scheduling Unit :=
  if o.notesErrors then modify fun s => { s with errors := s.errors ++ [message] }
  else throw (.plain .missingAttribute)

def applyMark (o : AnnotateOptions) (axes : List String) (i : Nat) (mark : Mark) : Scheduling (List String) := do
  match mark with
  | .anchor _ => throw (.plain .badType)
  | .named name =>
    if name == "none" then return axes
    else if name == "unroll" then
      match o.maxUnroll with
      | some limit =>
        if limit != 0 then
          if limit < (← o.lengthOf i) then o.note "Too large factor for unrolling"
      | none => pure ()
      record (.unroll (← axisAt axes i))
      return axes
    else if name == "vec" then
      match o.vectorSizes with
      | some sizes =>
        if !sizes.isEmpty then
          if !sizes.contains (← o.lengthOf i) then o.note "Wrong size of lanes in vectorization"
      | none => pure ()
      record (.vectorize (← axisAt axes i))
      return axes
    else if threadNames.contains name then
      record (.bindThread (← axisAt axes i) name)
      return axes
    else if name == "fuse" then
      match axes[i]?, axes[i + 1]? with
      | some a, some b => return axes.set (i + 1) (← fuseAxes a b)
      | _, _ => throw (.worded .failedCheck "")
    else throw (.worded .runtime s!"Invalid annotation {name}")

def applyMarks (o : AnnotateOptions) (axes : List String) (i : Nat) : List Mark → Scheduling (List String)
  | [] => return axes
  | m :: ms => do
    let axes ← applyMark o axes i m
    applyMarks o axes (i + 1) ms

def attachSources (axes : List String) : List (List String × Mark) → Scheduling Unit
  | [] => return
  | (stages, mark) :: rest => do
    match mark with
    | .anchor i => stages.forM fun stage => do record (.computeAt stage (← axisAt axes i))
    | .named _ => if !stages.isEmpty then throw (.plain .badType)
    attachSources axes rest

/-- Apply a setting to axes; a split takes a single axis. -/
def Entity.apply (e : Entity) (axes : List String) (o : AnnotateOptions) : Scheduling (List String) :=
  match e with
  | split sizes => applySplit sizes.tail (axes.headD "")
  | reorder _ order => applyReorder order axes
  | annotate _ marks => do
    match o.sources with
    | some sources => attachSources axes (sources.zip marks)
    | none => pure ()
    if o.sources.isSome then return axes else applyMarks o axes 0 marks
  | option _ => throw (.plain .missingAttribute)

def LoopCall.report : LoopCall → Report
  | split axis factor => .list [.text "split", .text "op", .text axis, .int factor]
  | fuse a b => toReport ["fuse", "op", a, b]
  | reorder axes => .list [.text "reorder", .text "op", toReport axes]
  | unroll axis => toReport ["unroll", "op", axis]
  | vectorize axis => toReport ["vectorize", "op", axis]
  | bindThread axis thread => toReport ["bind", "op", axis, thread]
  | computeAt stage axis => toReport ["compute_at", stage, "op", axis]

/-- Apply a setting and report the calls, the axes and the errors noted after those given. -/
def Entity.applyReport (e : Entity) (axes : List String) (o : AnnotateOptions)
    (errors : List String) : Result (Schedule × Report) := do
  let (out, s) ← (e.apply axes o).run { errors := errors }
  return (s, .record [("calls", .list (s.calls.map LoopCall.report)), ("axes", toReport out),
    ("errors", toReport s.errors)])

/-! ### Sessions on a configuration space

A session is a list of steps on one space, given as JSON arrays that start with the name of the
step. Each step answers by itself; a step that fails keeps what it had changed before.
-/

def scalarOf : Result Scalar := orFail .badType (Value.ofJson j).scalar?

def relationOf (name : String) (a b : Scalar) : Bool :=
  match name with
  | "<" => a.less b
  | "<=" => a.less b || a.equal b
  | ">" => b.less a
  | ">=" => b.less a || a.equal b
  | "==" => a.equal b
  | _ => !a.equal b

/-- A filter on the sizes of a split: the size at a position stands in a relation to a number. -/
def sizeFilter (sizes : List Int) : Result Bool := do
  let size ← Value.itemAt sizes (j.item 0).integer
  return relationOf (j.item 1).text (.int size) (← scalarOf (j.item 2))

/-- A shared filter: the sum of the sizes at given positions of given splits stands in a relation
to a number. -/
def sumFilter : SharedFilter := fun entities => do
  let sizes ← (j.item 0).items.mapM fun p => do
    let e ← orFail .missingKey (entities.lookup (p.item 0).text)
    let sizes ← orFail .missingAttribute e.sizes?
    Value.itemAt sizes (p.item 1).integer
  return relationOf (j.item 1).text (.int (sizes.foldl (· + ·) 0)) (← scalarOf (j.item 2))

def chainsOf : List (List Int) := j.items.map (·.items.map Json.integer)

def axisLength : Result Int :=
  match j with
  | .int n => .ok n
  | .bool b => .ok (if b then 1 else 0)
  | _ => refuse .runtime s!"Invalid type of axis: {j.kindText}"

def splitKnob (length : Json) (policy : String) (opts : Json) : Result Subspace := do
  let n ← axisLength length
  let maxFactor ← match opts.field? "max_factor" with
    | some m => scalarOf m
    | none => pure (.int 2147483648)
  Subspace.ofSplit {
    length := n, policy := policy, outputs := (opts.field "num_outputs").integer,
    maxFactor := maxFactor, noTail := (opts.field? "no_tail").map Json.isTrue,
    candidates := (opts.field? "candidate").map chainsOf,
    keep := match opts.field? "filter" with
      | some f => sizeFilter f
      | none => fun _ => .ok true }

def reorderKnob (lengths : Json) (policy : String) (opts : Json) : Result Subspace :=
  Subspace.ofReorder {
    axes := lengths.items.length, policy := policy,
    interval := (opts.field? "interval").map (·.items.map Json.integer),
    candidates := (opts.field? "candidate").map chainsOf,
    spatial := (opts.field? "spatial").map chainsOf,
    reduce := (opts.field? "reduce").map chainsOf }

def annotateKnob (lengths : Json) (policy : String) (opts : Json) : Result Subspace :=
  Subspace.ofAnnotate {
    axes := lengths.items.length, policy := policy,
    anchors := (opts.field? "num_anchor").map Json.integer }

def annotateOptions (opts : Json) : AnnotateOptions :=
  let integers := fun name =>
    match opts.field? name with
    | some (.arr xs) => some (xs.map Json.integer)
    | _ => none
  { axisLengths := integers "axis_lens",
    maxUnroll := (opts.field "max_unroll").int?,
    vectorSizes := integers "vec_size",
    notesErrors := (opts.field "cfg").isTrue,
    sources := match opts.field? "source" with
      | some (.arr xs) => some (xs.map (·.items.map Json.text))
      | _ => none }

def axesOf : Json → List String
  | .str axis => [axis]
  | j => j.items.map Json.text

def defineStep (name : String) (opts : Json) (outputs : Result Nat) (knob : Result Subspace) : Query Report := do
  let clears := match opts.field? "filter" with
    | some f => (Value.ofJson f).truthy
    | none => false
  let n ← define name clears outputs knob
  let s ← get
  return .list [toReport n, toReport ((s.knobs.lookup name).map Subspace.text)]

def namesReport : Query Report := do
  return toReport (← get).current

def flopOf : Json → Result Float
  | .str s => orFail .badValue (Text.readFloat? s.toList)
  | j => do (← scalarOf j).toFloat

def contentLess (a b : Entity) : Bool :=
  let values : Entity → Value
    | .split sizes => .list (sizes.map .int)
    | .reorder _ order => .list (order.map .int)
    | .annotate _ marks => .list (marks.map Mark.toValue)
    | .option v => v
  match Value.compareBy .lessEqual (values a) (values b) with
  | .ok r => r
  | .error _ => true

/-- An integer argument that may be missing; zero counts as missing. -/
def boundOf : Option Int :=
  match j.int? with
  | some 0 => none
  | r => r

def step : Query Report := do
  let name := (j.item 1).text
  let opts := j.item 4
  match (j.item 0).text with
  | "split" =>
    let outputs := do return (← opts.member "num_outputs").integer.toNat
    defineStep name opts outputs (splitKnob (j.item 2) (j.item 3).text opts)
  | "reorder" =>
    let _ ← ofResult ((j.item 2).items.mapM axisLength)
    defineStep name opts (.ok (j.item 2).items.length) (reorderKnob (j.item 2) (j.item 3).text opts)
  | "annotate" =>
    let _ ← ofResult ((j.item 2).items.mapM axisLength)
    defineStep name opts (.ok (j.item 2).items.length) (annotateKnob (j.item 2) (j.item 3).text opts)
  | "knob" => defineStep name .null (.ok 0) (.ok (.ofValues ((j.item 2).items.map .ofJson)))
  | "entities" =>
    let k ← ofResult (orFail .missingKey ((← get).knobs.lookup name))
    return toReport (Value.sliceItems k.candidates (j.item 2).int? (j.item 3).int? 1)
  | "sorted_entities" =>
    let k ← ofResult (orFail .missingKey ((← get).knobs.lookup name))
    return toReport (k.candidates.mergeSort contentLess)
  | "multi_filter" =>
    let filter := if (j.item 1).isNull then none else some (sumFilter (j.item 1))
    modify (·.setFilter filter)
    return .null
  | "len" =>
    let len ← length
    let range ← rangeLength
    let ds ← dims
    return .list [.int len, .int range, toReport ds]
  | "repr" => if (← get).isFallback then return .text (← fallbackText) else return .text (← spaceText)
  | "get" =>
    let c ← getConfiguration (j.item 1).integer
    let text ← ofResult c.text
    let record ← ofResult c.record
    return .record [("repr", .text text), ("json", record)]
  | "feature" =>
    let c ← getConfiguration (j.item 1).integer
    ofResult c.feature
  | "other_option" =>
    let c ← getConfiguration (j.item 1).integer
    return .list (c.entities.filterMap fun (_, e) =>
      match e with
      | .option v => some (toReport v)
      | _ => none)
  | "valid_index" => return toReport (← isIndexValid (j.item 1).integer)
  | "next" =>
    let n := if j.items.length < 3 then 1 else (j.item 2).integer
    return toReport (← nextIndex (j.item 1).integer n (boundOf (j.item 3)) (boundOf (j.item 4)))
  | "subrange" => return toReport (← subrangeLength (j.item 1).integer (j.item 2).integer)
  | "point2knob" => return toReport (← pointToKnob (j.item 1).integer)
  | "knob2point" => return toReport (← knobToPoint ((j.item 1).items.map Json.integer))
  | "names" => namesReport
  | "flop" => return toReport (← addFlop (← ofResult (flopOf (j.item 1))))
  | "raise_error" =>
    raiseError name
    return toReport (← get).errors.isEmpty
  | "clear_cache" =>
    modify .clear
    return .null
  | "fallback_split" =>
    ofResult (demand (← get).isFallback .missingAttribute)
    fallbackSplit name (← ofResult ((j.item 2).items.mapM scalarOf))
    return toReport ((← get).entity? name)
  | "fallback_ref" =>
    ofResult (demand (← get).isFallback .missingAttribute)
    let records ← ofResult ((j.item 1).items.mapM fun r => r.fields.mapM fun (n, e) => do return (n, ← Entity.ofJson e))
    fallbackFromReferences machineScores records
    namesReport
  | "set" =>
    ofResult (demand (← get).isFallback .badType)
    setEntity name (← ofResult (Entity.ofJson (j.item 2)))
    return .text (← fallbackText)
  | "apply" =>
    let s ← get
    let e ← ofResult (orFail .missingKey (s.entity? name))
    let o := annotateOptions (j.item 3)
    let (schedule, report) ← ofResult (e.applyReport (axesOf (j.item 2)) o s.errors)
    set { s with errors := schedule.errors }
    return report
  | _ => return .null

def runSteps (s : Space) : List Json → List Report
  | [] => []
  | j :: js =>
    let (r, s') := (step j).run s
    toReport r :: runSteps s' js

end TensorToolchain.Tuning
