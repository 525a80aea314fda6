import TensorToolchain.Tensor.Slice

/-!
# Evaluation and sessions of scripts

Every part of an expression is evaluated, from the inside out; its object is stored in the scope
under a fresh temporary name, which replaces the part. Names are looked up only when an operator is
applied, so that a temporary name can hide a variable of the same name. A literal carries its value
twice: where it is the whole expression the first counts, as an operand the second, which a literal
that is made by hand leaves none.
-/

namespace TensorToolchain.Script

/-! ### Objects

An object is a value together with where it comes from. A variable and all that it holds stand at
places of their own, an operator makes a new object that may hold old ones, and some operators give
back one of their operands. Two objects are one if they stand at one place, or if their value exists
only once.
-/

/-- A place among the variables: a variable, and the positions that lead to an item within its
value. -/
structure Place where
  root : String
  path : List Nat := []
  deriving DecidableEq

/-- Where an object comes from: it is new, it stands at a place, or it is new and holds objects at
its positions. -/
inductive Origin where
  | new
  | placed (place : Place)
  | holding (item : Nat → Origin)

namespace Origin

def item : Origin → Nat → Origin
  | new, _ => new
  | placed p, i => placed { p with path := p.path ++ [i] }
  | holding f, i => f i

def isShared : Origin → Origin → Bool
  | placed p, placed q => p == q
  | _, _ => false

def ofItems (origins : List Origin) : Origin := holding (origins.getD · new)

def joined (n : Nat) (a b : Origin) : Origin := holding fun i => if i < n then a.item i else b.item (i - n)

def repeated (n : Nat) (a : Origin) : Origin := holding fun i => a.item (i % n)

end Origin

structure Object where
  value : Value
  origin : Origin := .new

namespace Object

def truthy (a : Object) : Bool := a.value.truthy

def isSame (a b : Object) : Bool := a.origin.isShared b.origin || a.value.isSame b.value

def ofVariable (name : String) (value : Value) : Object := ⟨value, .placed { root := name }⟩

/-! ### Sequences -/

def tuple (items : List Object) : Object := ⟨.tuple (items.map value), .ofItems (items.map origin)⟩

def list (items : List Object) : Object := ⟨.list (items.map value), .ofItems (items.map origin)⟩

def slice (start stop step : Object) : Object := { value := .slice start.value stop.value step.value }

/-- The origin of two objects joined: a text or tuple that is joined with an empty one is given
back. -/
def joinOrigin (a b : Object) : Origin :=
  match a.value, b.value with
  | .list xs, .list _ => .joined xs.length a.origin b.origin
  | .tuple xs, .tuple ys =>
    if xs.isEmpty then b.origin else if ys.isEmpty then a.origin else .joined xs.length a.origin b.origin
  | .str s, .str t => if s.isEmpty then b.origin else if t.isEmpty then a.origin else .new
  | _, _ => .new

/-- The origin of a sequence repeated: a text or tuple that is taken once is given back. -/
def repeatOrigin? (a : Object) (count : Value) : Option Origin :=
  count.integer?.bind fun n =>
    match a.value with
    | .list xs => some (.repeated xs.length a.origin)
    | .tuple xs => some (if n == 1 then a.origin else .repeated xs.length a.origin)
    | .str _ => some (if n == 1 then a.origin else .new)
    | _ => none

def slicePositions (n : Nat) (start stop step : Value) : Value.SliceRange :=
  let part := fun v => (Value.bound? v).toOption.getD none
  Value.sliceRange n (part start) (part stop) ((part step).getD 1)

def isWhole (n : Nat) (r : Value.SliceRange) : Bool := r.start == 0 && r.count == n && r.step == 1

def sliceOrigin (a : Origin) (r : Value.SliceRange) : Origin :=
  .holding fun i => a.item (r.start + (i : Int) * r.step).toNat

/-- The origin of an item of a sequence of `n` items, at a position that may count from the end. -/
def itemOrigin (a : Origin) (n : Nat) (index : Value) : Origin :=
  let i := index.integer?.getD 0
  a.item (if i < 0 then i + n else i).toNat

/-- The origin of an item, a slice or an entry of an object: the whole of a text or tuple is given
back. -/
def lookupOrigin (a : Object) (index : Value) : Origin :=
  match a.value, index with
  | .dict es, key => a.origin.item (es.findIdx (Value.equal ·.1 key))
  | .list xs, .slice b e s => sliceOrigin a.origin (slicePositions xs.length b e s)
  | .tuple xs, .slice b e s =>
    let r := slicePositions xs.length b e s
    if isWhole xs.length r then a.origin else sliceOrigin a.origin r
  | .str s, .slice b e st => if isWhole s.length (slicePositions s.length b e st) then a.origin else .new
  | .list xs, _ | .tuple xs, _ => itemOrigin a.origin xs.length index
  | _, _ => .new

/-! ### Dictionaries -/

/-- The pairs of a dictionary, later ones replacing the values of equal keys. -/
def makeDict (pairs : List (Object × Object)) : Result Object :=
  if pairs.all fun p => p.1.value.isKey then
    let entries := pairs.foldl (fun es p => Value.setEntry es p.1.value p.2.value) []
    -- the value of an entry is that of the last pair with its key
    let origins := entries.map fun e =>
      ((pairs.reverse.find? (Value.equal e.1 ·.1.value)).map (·.2.origin)).getD .new
    .ok ⟨.dict entries, .ofItems origins⟩
  else fail .badType

def unionOrigin (a b : Object) (union : Value) : Origin :=
  match b.value, union with
  | .dict fs, .dict es =>
    .ofItems (es.zipIdx.map fun (e, i) =>
      match fs.findIdx? fun f => Value.equal e.1 f.1 with
      | some j => b.origin.item j
      | none => a.origin.item i)
  | _, _ => .new

def lookup (a index : Object) : Result Object := do
  return ⟨← a.value.lookup index.value, a.lookupOrigin index.value⟩

end Object

/-! ### Expressions -/

inductive BinaryOp where
  | add
  | sub
  | mult
  | div
  | floorDiv
  | mod
  | shiftLeft
  | shiftRight
  | bitOr
  | bitXor
  | bitAnd
  | matMult
  | pow

inductive UnaryOp where | invert | not | plus | minus

inductive CompareOp where
  | equal
  | notEqual
  | order (c : Value.Comparison)
  | same
  | notSame
  | isIn
  | notIn

inductive Junction where | and | or

inductive Expr where
  | literal (v former : Value)
  | name (id : String)
  | binary (op : BinaryOp) (left right : Expr)
  | unary (op : UnaryOp) (operand : Expr)
  | junction (op : Junction) (operands : List Expr)
  | compare (first : Expr) (ops : List CompareOp) (rest : List Expr)
  | tuple (items : List Expr)
  | list (items : List Expr)
  | dict (keys values : List Expr)
  | choice (test yes no : Expr)
  | subscript (container index : Expr)
  | slice (start stop step : Option Expr)

/-- The value of an operator with two operands. No plain value has a matrix product. -/
def BinaryOp.onValues : BinaryOp → Value → Value → Result Value
  | add => Value.add
  | sub => Value.sub
  | mult => Value.mul
  | div => Value.div
  | floorDiv => Value.floorDiv
  | mod => Value.mod
  | shiftLeft => Value.shiftLeft
  | shiftRight => Value.shiftRight
  | bitOr => Value.bitOr
  | bitXor => Value.bitXor
  | bitAnd => Value.bitAnd
  | matMult => fun _ _ => fail .badType
  | pow => Value.pow

def BinaryOp.origin (op : BinaryOp) (a b : Object) (result : Value) : Origin :=
  match op with
  | add => a.joinOrigin b
  | mult => ((a.repeatOrigin? b.value).orElse fun _ => b.repeatOrigin? a.value).getD .new
  | bitOr => a.unionOrigin b result
  | _ => .new

def BinaryOp.apply (op : BinaryOp) (a b : Object) : Result Object := do
  let v ← op.onValues a.value b.value
  return ⟨v, op.origin a b v⟩

def UnaryOp.onValue : UnaryOp → Value → Result Value
  | invert => Value.invert
  | not => fun a => .ok (.bool (!a.truthy))
  | plus => Value.plus
  | minus => Value.negate

/-- The object that an operator makes of its operand; a plus sign gives back a number. -/
def UnaryOp.apply (op : UnaryOp) (a : Object) : Result Object := do
  let v ← op.onValue a.value
  let origin :=
    match op, a.value with
    | plus, .int _ | plus, .float _ => a.origin
    | _, _ => .new
  return ⟨v, origin⟩

def CompareOp.apply (op : CompareOp) (a b : Object) : Result Bool :=
  match op with
  | equal => .ok (a.value.equal b.value)
  | notEqual => .ok (!a.value.equal b.value)
  | order c => Value.compareBy c a.value b.value
  | same => .ok (a.isSame b)
  | notSame => .ok (!a.isSame b)
  | isIn => a.value.isIn b.value
  | notIn => do return !(← a.value.isIn b.value)

def Junction.decides : Junction → Object → Bool
  | and, a => !a.truthy
  | or, a => a.truthy

/-- The operand that a connective gives: the first if it decides, else the second. -/
def Junction.apply (op : Junction) (a b : Object) : Object := if op.decides a then a else b

/-! ### Evaluation -/

inductive EvalError where
  | undefined (name : String)
  | failed

def EvalError.fault : EvalError → Fault
  | undefined name => .worded .diagnostic s!"Undefined variable: {name}"
  | failed => .plain .diagnostic

abbrev Table := List (String × Value)

abbrev Scope := List (String × Object)

def Table.scope (table : Table) : Scope := table.map fun (name, v) => (name, .ofVariable name v)

def Scope.bind (scope : Scope) (name : String) (x : Object) : Scope := (name, x) :: scope.filter (·.1 != name)

/-- What is left of a part of an expression once it is evaluated. -/
inductive Operand where
  | literal (v former : Value)
  | name (id : String)

/-- The scope of an evaluation, and the number of temporary names given so far. -/
structure Progress where
  scope : Scope
  count : Nat := 0

abbrev Eval := StateT Progress (Except EvalError)

def temporaryStem : String := "__tvm_tmp_value_"

def temporaryName (n : Nat) : String := temporaryStem ++ toString n

def constantNames : List String := ["None", "True", "False"]

def debugName : String := "__debug__"

/-- Store the object of a part under a fresh temporary name. -/
def store (x : Object) : Eval Operand := do
  let p ← get
  let name := temporaryName p.count
  set { scope := p.scope.bind name x, count := p.count + 1 : Progress }
  return .name name

def Scope.operand (scope : Scope) (id : String) : Except EvalError Object :=
  if constantNames.contains id then .error .failed
  else if id == debugName then .ok { value := .bool true }
  else
    match scope.lookup id with
    | some x => .ok x
    | none => .error .failed

def Operand.object : Operand → Eval Object
  | .literal _ former => return { value := former }
  | .name id => do ofExcept ((← get).scope.operand id)

def visitName (id : String) : Eval Operand := do
  match (← get).scope.lookup id with
  | some _ => return .name id
  | none => throw (.undefined id)

/-- What an operator makes; any fault inside fails the evaluation. -/
def attempt (r : Result Object) : Eval Object :=
  match r with
  | .ok x => return x
  | .error _ => throw .failed

def objectsOf (operands : List Operand) : Eval (List Object) := operands.mapM Operand.object

/-- Fold a comparison chain from the left: the truth value of each comparison is the left side of
the next one. -/
def compareChain (left : Object) : List (CompareOp × Object) → Result Object
  | [] => .ok left
  | (op, right) :: rest => do
    let b ← op.apply left right
    compareChain { value := .bool b } rest

def boundObject (o : Option Operand) : Eval Object := o.elim (pure { value := .none }) Operand.object

mutual

@[simp] def visit : Expr → Eval Operand
  | .literal v former => return .literal v former
  | .name id => visitName id
  | .binary op l r => do
    let l ← visit l
    let r ← visit r
    let a ← l.object
    let b ← r.object
    store (← attempt (op.apply a b))
  | .unary op e => do
    let e ← visit e
    let a ← e.object
    store (← attempt (op.apply a))
  | .junction op es => do
    let os ← visitAll es
    match ← objectsOf os with
    | [] => throw .failed
    | x :: xs => store (xs.foldl op.apply x)
  | .compare first ops rest => do
    let l ← visit first
    let rs ← visitAll rest
    let a ← l.object
    let xs ← objectsOf rs
    store (← attempt (compareChain a (ops.zip xs)))
  | .tuple es => do
    let os ← visitAll es
    store (.tuple (← objectsOf os))
  | .list es => do
    let os ← visitAll es
    store (.list (← objectsOf os))
  | .dict ks vs => do
    let ks ← visitAll ks
    let vs ← visitAll vs
    let keys ← objectsOf ks
    let values ← objectsOf vs
    store (← attempt (Object.makeDict (keys.zip values)))
  | .choice test yes no => do
    let t ← visit test
    let y ← visit yes
    let n ← visit no
    let a ← t.object
    let b ← y.object
    let c ← n.object
    store (if a.truthy then b else c)
  | .subscript container index => do
    let c ← visit container
    let i ← visit index
    let a ← c.object
    let b ← i.object
    store (← attempt (a.lookup b))
  | .slice start stop step => do
    let a ← visitOption start
    let b ← visitOption stop
    let c ← visitOption step
    let lo ← boundObject a
    let hi ← boundObject b
    let st ← boundObject c
    store (.slice lo hi st)

@[simp] def visitAll : List Expr → Eval (List Operand)
  | [] => return []
  | e :: es => do
    let o ← visit e
    let os ← visitAll es
    return o :: os

@[simp] def visitOption : Option Expr → Eval (Option Operand)
  | none => return none
  | some e => do return some (← visit e)

end

def Operand.result (scope : Scope) : Operand → Except EvalError Value
  | .literal v _ => .ok v
  | .name id =>
    match scope.lookup id with
    | some x => .ok x.value
    | none => .error (.undefined id)

def evaluate (table : Table) (e : Expr) : Except EvalError Value := do
  let (o, p) ← (visit e).run { scope := table.scope }
  o.result p.scope

/-! ### Variables and assignments

A stack of frames, each holding the names that were defined in one scope, and for each name the
stack of its values, the latest first. Leaving a frame takes one value off the stack of each of its
names.
-/

/-- What a name can stand for: a plain value or an array. -/
inductive Entry where
  | plain (v : Value)
  | array (a : Tensor Value)

instance : Coe Value Entry := ⟨.plain⟩

/-- Variables in nested scopes; frames and values have the innermost element first. -/
structure Variables where
  frames : List (List String) := []
  values : List (String × List Entry) := []

namespace Variables

variable (v : Variables)

def stack (name : String) : List Entry := (v.values.lookup name).getD []

def setStack (name : String) (values : List Entry) : Variables :=
  { v with values := (name, values) :: v.values.filter (·.1 != name) }

def get? (name : String) : Option Entry := (v.stack name).head?

def bindings : List (String × Entry) :=
  v.values.filterMap fun (name, values) => values.head?.map fun x => (name, x)

/-- The plain values, on which expressions are evaluated. -/
def table : Table := v.bindings.filterMap fun
  | (name, .plain x) => some (name, x)
  | (_, .array _) => none

def push : Variables := { v with frames := [] :: v.frames }

def pop : Result Variables :=
  match v.frames with
  | [] => fail .badIndex
  | frame :: frames => .ok (frame.foldl (fun w name => w.setStack name (w.stack name).tail) { v with frames := frames })

/-- Whether a value belongs to the kind of another: kinds are equal, or the other is an integer and
the value a truth value. -/
def isOfKindOf (old new : Value) : Bool :=
  match old, new with
  | .none, .none => true
  | .bool _, .bool _ => true
  | .bool _, .int _ => true
  | .int _, .int _ => true
  | .float _, .float _ => true
  | .str _, .str _ | .list _, .list _ | .tuple _, .tuple _ | .dict _, .dict _ | .slice .., .slice .. => true
  | _, _ => false

/-- The shape of which both shapes are parts, with an axis of length one standing for any other; the
last axes of both come first here. -/
def jointShape? : List Nat → List Nat → Option (List Nat)
  | [], s | s, [] => some s
  | m :: s, n :: r => do
    let rest ← jointShape? s r
    if m = n ∨ n = 1 then some (m :: rest) else if m = 1 then some (n :: rest) else none

/-- The elements of an array where it stands for a part of a larger shape. -/
def spread (a : Tensor Value) (shape : List Nat) : List Value :=
  (Tensor.indices shape).map fun i =>
    a.get (List.zipWith (fun n k => if n = 1 then 0 else k) a.shape (i.drop (shape.length - a.rank)))

/-- Whether a definition is passed over since the name has that value already: an equal one of the
same kind, or an array with all elements equal. Arrays in which not all elements are equal have one
element; others are refused, and so are arrays of shapes that do not go together. -/
def passesOver : Entry → Entry → Result Bool
  | .plain old, .plain new => .ok (isOfKindOf old new && old.equal new)
  | .array old, .array new => do
    let shape ← orFail .badValue (jointShape? old.shape.reverse new.shape.reverse)
    let same := List.zipWith Value.equal (spread old shape.reverse) (spread new shape.reverse)
    if same.all id then return true
    else
      demand (same.length == 1) .badValue
      return false
  | _, _ => .ok false

def alreadyDefined (name : String) : Fault := .worded .badValue s!"Variable {name} already defined in current scope"

def alreadyHas (name : String) (value : Entry) : Result Bool :=
  match v.get? name with
  | some old => passesOver old value
  | none => .ok false

/-- Define a name in the innermost scope. Nothing changes if the name has the value already; a name
of the innermost scope takes a new value only if shadowing is allowed. -/
def add (name : String) (value : Entry) (allowShadowing : Bool) : Result Variables := do
  if ← v.alreadyHas name value then return v
  else
    match v.frames with
    | [] => fail .badIndex
    | frame :: frames =>
      if frame.contains name then
        if allowShadowing then .ok (v.setStack name (value :: (v.stack name).tail))
        else .error (alreadyDefined name)
      else
        .ok ({ v with frames := (name :: frame) :: frames }.setStack name (value :: v.stack name))

end Variables

/-! ### Assignments -/

inductive Target where
  | name (id : String)
  | tuple (items : List Target)
  | list (items : List Target)
  | star (item : Target)
  | literal (v : Value)

inductive AssignError where
  | duplicate
  | invalidTarget
  | mismatch
  | scope (f : Fault)

def AssignError.fault : AssignError → Fault
  | duplicate => .worded .diagnostic "Duplicate vars assigned."
  | invalidTarget => .worded .diagnostic "Invalid type in assign statement"
  | mismatch => .plain .diagnostic
  | scope f => f

mutual

/-- The names of a left side, none if one of them occurs twice; refused for a left side that is
neither a name nor a tuple or list. -/
def Target.names : Target → Except AssignError (Option (List String))
  | .name id => .ok (some [id])
  | .tuple ts | .list ts => namesOf [] ts
  | .star _ | .literal _ => .error .invalidTarget

/-- The names of left sides in order, together with the names already met. -/
def namesOf (seen : List String) : List Target → Except AssignError (Option (List String))
  | [] => .ok (some seen)
  | t :: ts =>
    match t.names with
    | .error e => .error e
    | .ok none => .ok none
    | .ok (some ns) => if ns.any seen.contains then .ok none else namesOf (seen ++ ns) ts

end

mutual

/-- The bindings that unpacking a value along a left side makes, in order. -/
def Target.unpack : Target → Value → Except AssignError (List (String × Value))
  | .name id, v => .ok [(id, v)]
  | .tuple ts, v =>
    match v.items? with
    | some vs => unpackAll ts vs
    | none => .error .mismatch
  | .list ts, v =>
    match v.items? with
    | some vs => unpackAll ts vs
    | none => .error .mismatch
  | .star _, _ | .literal _, _ => .error .invalidTarget

def unpackAll : List Target → List Value → Except AssignError (List (String × Value))
  | [], [] => .ok []
  | t :: ts, v :: vs =>
    match t.unpack v, unpackAll ts vs with
    | .ok bs, .ok cs => .ok (bs ++ cs)
    | .error e, _ | _, .error e => .error e
  | _, _ => .error .mismatch

end

/-- The name under which the right side is held while it is unpacked; it is never defined. -/
def rightSideName : String := "__tvm_rhs_var__"

/-- Define bindings one after another; those before a refused one stay. -/
def Variables.addAll (v : Variables) (allowShadowing : Bool) : List (String × Value) → Variables × Option Fault
  | [] => (v, none)
  | (name, value) :: rest =>
    match v.add name value allowShadowing with
    | .ok w => w.addAll allowShadowing rest
    | .error f => (v, some f)

/-- Assign a value to a left side. The variables after it, and the fault if it was refused. -/
def Variables.assign (v : Variables) (target : Target) (value : Value) (allowShadowing : Bool) :
    Variables × Option Fault :=
  match target.names with
  | .error e => (v, some e.fault)
  | .ok none => (v, some AssignError.duplicate.fault)
  | .ok (some _) =>
    match target.unpack value with
    | .error e => (v, some e.fault)
    | .ok bs => v.addAll allowShadowing (bs.filter (·.1 != rightSideName))

/-! ### Script sessions

A session is a sequence of steps on one set of scoped variables. This file also holds the JSON
form of values, expressions and steps: a tuple is `["tuple", …]` among expressions and an object
with the one field `tuple` among values.
-/

def readValue : Nat → Json → Value
  | 0, _ => .none
  | depth + 1, j =>
    let read := readValue depth
    match j with
    | .null => .none
    | .bool b => .bool b
    | .int n => .int n
    | .float x => .float x
    | .str s => .str s
    | .arr xs => .list (xs.map read)
    | .obj fs =>
      match fs with
      | [(tag, body)] =>
        if tag == "tuple" then .tuple (body.items.map read)
        else if tag == "dict" then
          .dict (body.items.foldl (fun es p => Value.setEntry es (read (p.item 0)) (read (p.item 1))) [])
        else .dict [(.str tag, read body)]
      | _ => .dict (fs.map fun f => (.str f.1, read f.2))

def valueOfJson (j : Json) : Value := readValue j.depth j

mutual

/-- Report a value; tuples, dictionaries, slices and floating-point numbers carry their kind. -/
def reportValue : Value → Report
  | .none => .null
  | .bool b => .bool b
  | .int n => .int n
  | .float x => .record [("float", .float x)]
  | .str s => .text s
  | .list xs => .list (reportValues xs)
  | .tuple xs => .record [("tuple", .list (reportValues xs))]
  | .dict es => .record [("dict", .list (reportEntries es))]
  | .slice a b c => .record [("slice", .list [reportValue a, reportValue b, reportValue c])]

def reportValues : List Value → List Report
  | [] => []
  | x :: xs => reportValue x :: reportValues xs

def reportEntries : List (Value × Value) → List Report
  | [] => []
  | (k, v) :: es => .list [reportValue k, reportValue v] :: reportEntries es

end

/-! ### Expressions -/

def BinaryOp.ofName : String → BinaryOp
  | "Add" => .add
  | "Sub" => .sub
  | "Mult" => .mult
  | "Div" => .div
  | "FloorDiv" => .floorDiv
  | "Mod" => .mod
  | "LShift" => .shiftLeft
  | "RShift" => .shiftRight
  | "BitOr" => .bitOr
  | "BitXor" => .bitXor
  | "BitAnd" => .bitAnd
  | "Pow" => .pow
  | _ => .matMult

def UnaryOp.ofName : String → UnaryOp
  | "Invert" => .invert
  | "Not" => .not
  | "UAdd" => .plus
  | _ => .minus

def CompareOp.ofName : String → CompareOp
  | "Eq" => .equal
  | "NotEq" => .notEqual
  | "Lt" => .order .less
  | "LtE" => .order .lessEqual
  | "Gt" => .order .greater
  | "GtE" => .order .greaterEqual
  | "Is" => .same
  | "IsNot" => .notSame
  | "In" => .isIn
  | _ => .notIn

def Junction.ofName : String → Junction
  | "And" => .and
  | _ => .or

def Expr.read : Nat → Json → Expr
  | 0, _ => .literal .none .none
  | depth + 1, j =>
    let read := .read depth
    let part := fun (p : Json) => if p.isNull then none else some (read p)
    match (j.item 0).text with
    | "const" => .literal (valueOfJson (j.item 1)) .none
    | "name" => .name (j.item 1).text
    | "bin" => .binary (.ofName (j.item 1).text) (read (j.item 2)) (read (j.item 3))
    | "unary" => .unary (.ofName (j.item 1).text) (read (j.item 2))
    | "bool" => .junction (.ofName (j.item 1).text) ((j.item 2).items.map read)
    | "cmp" => .compare (read (j.item 1)) ((j.item 2).items.map (.ofName ·.text)) ((j.item 3).items.map read)
    | "tuple" => .tuple ((j.item 1).items.map read)
    | "list" => .list ((j.item 1).items.map read)
    | "dict" =>
      let pairs := (j.item 1).items
      .dict (pairs.map fun p => read (p.item 0)) (pairs.map fun p => read (p.item 1))
    | "if" => .choice (read (j.item 1)) (read (j.item 2)) (read (j.item 3))
    | "sub" => .subscript (read (j.item 1)) (read (j.item 2))
    | "slice" => .slice (part (j.item 1)) (part (j.item 2)) (part (j.item 3))
    | _ => .literal .none .none

def Expr.ofJson (j : Json) : Expr := .read j.depth j

def Target.read : Nat → Json → Target
  | 0, _ => .literal .none
  | _ + 1, .str id => .name id
  | depth + 1, j =>
    match (j.item 0).text with
    | "tuple" => .tuple ((j.item 1).items.map (.read depth))
    | "list" => .list ((j.item 1).items.map (.read depth))
    | "star" => .star (.read depth (j.item 1))
    | _ => .literal (valueOfJson (j.item 1))

def Target.ofJson (j : Json) : Target := .read j.depth j

/-! ### Steps -/

inductive Step where
  | assign (target : Target) (value : Value) (allowShadowing : Bool)
  | define (name : String) (value : Entry) (allowShadowing : Bool)
  | push
  | pop
  | evaluate (e : Expr)

def Step.ofJson (j : Json) : Step :=
  match (j.item 0).text with
  | "assign" => .assign (.ofJson (j.item 1)) (valueOfJson (j.item 2)) (j.item 3).isTrue
  | "add" => .define (j.item 1).text (.plain (valueOfJson (j.item 2))) (j.item 3).isTrue
  | "push" => .push
  | "pop" => .pop
  | _ => .evaluate (.ofJson (j.item 1))

def Entry.report : Entry → Report
  | .plain x => reportValue x
  | .array a => .record [("shape", toReport a.shape), ("data", .list (reportValues a.data.toList))]

def Variables.report (v : Variables) : Report :=
  let byName := v.bindings.mergeSort fun a b => a.1 ≤ b.1
  .record [
    ("vars", .list (byName.map fun (name, x) => .list [.text name, x.report])),
    ("frames", toReport (v.frames.reverse.map fun f => f.mergeSort fun a b => a ≤ b))]

def Variables.step (v : Variables) : Step → Variables × Report
  | .assign t x allow =>
    match v.assign t x allow with
    | (w, none) => (w, w.report)
    | (w, some f) => (w, .fault f)
  | .define name x allow =>
    match v.add name x allow with
    | .ok w => (w, w.report)
    | .error f => (v, .fault f)
  | .push => (v.push, v.push.report)
  | .pop =>
    match v.pop with
    | .ok w => (w, w.report)
    | .error f => (v, .fault f)
  | .evaluate e =>
    match evaluate v.table e with
    | .ok x => (v, reportValue x)
    | .error f => (v, .fault f.fault)

def Variables.run (v : Variables) : List Step → List Report
  | [] => []
  | s :: ss =>
    let (w, r) := v.step s
    r :: w.run ss

end TensorToolchain.Script
