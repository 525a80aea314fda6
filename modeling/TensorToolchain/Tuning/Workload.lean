import TensorToolchain.Json.Parser
import TensorToolchain.Value

/-!
# Keys of workloads

The key of a workload is the text of a JSON list: a name, then arguments. Two workloads of one name
are compared argument by argument: an integer may be a multiple of the other, anything else must be
equal.
-/

namespace TensorToolchain.Tuning

open Number (Scalar)

/-- A workload: its name, and its arguments if the key is a list. -/
structure Workload where
  name : Value
  args : Option (List Value)

mutual

def flattenItem : Json → List Value
  | .arr items => flattenItems items
  | .null => [.none]
  | .bool b => [.bool b]
  | .int n => [.int n]
  | .float x => [.float x]
  | .str s => [.str s]
  | .obj fields => [.ofJson (.obj fields)]

def flattenItems : List Json → List Value
  | [] => []
  | x :: xs => flattenItem x ++ flattenItems xs

end

def Workload.ofKey (key : String) : Workload :=
  match Json.parse? key with
  | some (.arr (name :: args)) => ⟨.ofJson name, some (flattenItems args)⟩
  | _ => ⟨.str key, none⟩

def Workload.report (w : Workload) : Report := .list [toReport w.name, toReport w.args]

/-! ### Distances -/

/-- How an argument relates to another: they do not go together, they are alike, or the first is a
multiple of the second. -/
inductive Relation where
  | incompatible
  | alike
  | multiple (target other : Scalar)

def relate (target other : Value) : Result Relation :=
  let byEquality : Relation := if target.equal other then .alike else .incompatible
  match target.integer? with
  | none => .ok byEquality
  | some n =>
    if n = 0 || other.equal (.int 0) then .ok byEquality
    else
      match other.scalar? with
      | none => fail .badType
      | some a => do
        let r ← (Scalar.int n).mod a
        return if r.equal (.int 0) then .multiple (.int n) a else .incompatible

/-- Gather the multiples among arguments; none if some do not go together. -/
def gather {α : Type} (step : α → Scalar → Scalar → Result α) (acc : α) : List Value → List Value → Result (Option α)
  | t :: ts, a :: as => do
    match ← relate t a with
    | .incompatible => return none
    | .alike => gather step acc ts as
    | .multiple x y => gather step (← step acc x y) ts as
  | _, _ => .ok (some acc)

/-- The product of the quotients of the arguments; none if two workloads do not go together. -/
def Workload.factor {α : Type} (step : α → Scalar → Scalar → Result α) (one : α)
    (target other : Workload) : Result (Option α) :=
  let targetArgs := target.args.getD []
  let otherArgs := other.args.getD []
  if !target.name.equal other.name || targetArgs.length ≠ otherArgs.length then .ok none
  else gather step one targetArgs otherArgs

def Workload.distance (target other : Workload) : Result Scalar := do
  let step := fun acc x y => do acc.mul (← x.div y)
  return (← target.factor step (.int 1) other).getD (.float Number.infinity)

/-! ### Arguments as keys -/

mutual

/-- A value with the lists in it as tuples; what is in a dictionary stays. -/
def frozen : Value → Value
  | .list items => .tuple (frozenItems items)
  | v => v

def frozenItems : List Value → List Value
  | [] => []
  | v :: vs => frozen v :: frozenItems vs

end

/-- Arguments as keys: a dictionary is refused, unless it stands in a list. -/
def argumentKeys (args : List Value) : Result (List Value) :=
  args.mapM fun v =>
    match v with
    | .dict _ => refuse .failedCheck (v.display ++ " is not hashable")
    | v => .ok (frozen v)

mutual

/-- A value with the lists in it as tuples; a dictionary is refused. -/
def encoded : Value → Result Value
  | .list items => (encodedItems items).map .tuple
  | .dict _ =>
    refuse .runtime ("Do not support type \"<class 'dict'>\" in argument. Consider to use" ++
      "primitive types or tvm.tir.Var only")
  | v => .ok v

def encodedItems : List Value → Result (List Value)
  | [] => .ok []
  | v :: vs => do
    let first ← encoded v
    return first :: (← encodedItems vs)

end

def taskKey (task : Value) (args : List Value) : Result (List Value) := do
  let keys ← encodedItems args
  return match task with
    | .none => keys
    | task => task :: keys

def argumentsOf : Json → Result (List Value)
  | .arr items => .ok (items.map .ofJson)
  | .str s => .ok (s.toList.map fun c => .str (.ofList [c]))
  | .obj fields => .ok (fields.map (.str ·.1))
  | _ => fail .badType

/-! ### Tags of similar tasks -/

def naturalLog : Scalar → Result Float
  | .int n =>
    if n ≤ 0 then fail .badValue
    else
      match Number.ofInt? n with
      | some x => .ok x.log
      | none =>
        let bits := n.toNat.log2 + 1
        .ok ((Number.ofRatio n (.pow 2 bits)).log + (2.0 : Float).log * bits.toFloat)
  | .float x => if x.isNaN || 0.0 < x then .ok x.log else fail .badValue

def wholeLog (x base : Scalar) : Result Int := do
  let num ← naturalLog x
  let den ← naturalLog base
  demand (den != 0.0) .zeroDivision
  (Scalar.float (num / den)).truncate

def similarityTag (tags : List (Option String)) (operations base : Scalar) : Result String := do
  match tags.filterMap fun t => t.filter fun s => !s.isEmpty with
  | [] => return ""
  | given =>
    let size ← wholeLog (← operations.add (.int 1)) base
    return .join (given.map (· ++ "_")) ++ toString size

end TensorToolchain.Tuning
