import TensorToolchain.Value

/-!
# The candidates of one knob

A knob has a finite list of candidate settings. For a split they are enumerated from the factors of
the axis length, for a reordering from the permutations or interleavings of the axes, for
annotations from the words of the policy.
-/

namespace TensorToolchain.Tuning

open List

/-! ### Knob settings

One setting of a knob: the sizes of a split, the order of axes, the annotations of axes, or a plain
value. A configuration is a list of named settings; its feature is the flat list of their numbers
in single precision.
-/

/-- How a sequence of a setting was given; it shows in its text. -/
inductive Form where | list | tuple | range deriving DecidableEq

/-- What is done with one axis: a named annotation, or an anchor position. -/
inductive Mark where
  | named (name : String)
  | anchor (position : Int)
  deriving DecidableEq

inductive Entity where
  | split (sizes : List Int)
  | reorder (form : Form) (order : List Int)
  | annotate (form : Form) (marks : List Mark)
  | option (value : Value)

def Mark.toValue : Mark → Value
  | named s => .str s
  | anchor n => .int n

def Form.text (form : Form) (values : List Value) : String :=
  match form with
  | list => (Value.list values).text
  | tuple => (Value.tuple values).text
  | range => s!"range(0, {values.length})"

namespace Entity

def text : Entity → String
  | split sizes => Form.list.text (sizes.map .int)
  | reorder form order => form.text (order.map .int)
  | annotate form marks => form.text (marks.map Mark.toValue)
  | option v => v.display

def kindName : Entity → String
  | split _ => "sp"
  | reorder .. => "re"
  | annotate .. => "an"
  | option _ => "ot"

def content : Entity → Report
  | split sizes => toReport sizes
  | reorder _ order => toReport order
  | annotate _ marks => toReport (marks.map Mark.toValue)
  | option v => toReport v

instance : ToReport Entity := ⟨fun e => .list [.text e.kindName, e.content]⟩

def sizes? : Entity → Option (List Int)
  | split sizes => some sizes
  | _ => none

def ofParts (kind : String) (content : Json) : Result Entity :=
  let integers := content.items.map Json.integer
  match kind with
  | "sp" => .ok (split integers)
  | "re" => .ok (reorder .list integers)
  | "an" =>
    .ok (annotate .list (content.items.map fun m =>
      match m with
      | .int n => .anchor n
      | m => .named m.text))
  | "ot" => .ok (option (.ofJson content))
  | _ => refuse .runtime s!"Invalid config knob type: {kind}"

def ofJson (j : Json) : Result Entity := ofParts (j.item 0).text (j.item 1)

end Entity

/-! ### Features -/

def threadNames : List String := [
  "blockIdx.x", "blockIdx.y", "blockIdx.z", "threadIdx.x", "threadIdx.y", "threadIdx.z", "vthread"]

def annotationNames : List String := ["none", "vec", "unroll"] ++ threadNames ++ ["fuse"]

def Mark.bits : Mark → Result (List Int)
  | named s =>
    if annotationNames.contains s then
      .ok (annotationNames.map fun a => if a == s then 1 else 0)
    else fail .missingKey
  | anchor _ => fail .missingKey

def Entity.features : Entity → Result (List Value)
  | split sizes => .ok (sizes.map .int)
  | reorder _ order => .ok (order.map .int)
  | annotate _ marks => do
    let bits ← marks.mapM Mark.bits
    return bits.flatten.map .int
  | option v => .ok [v]

def singleOf (v : Value) : Result Float :=
  match v with
  | .none => .ok Number.undefined
  | .str s => do
    let x ← orFail .badValue (Text.readFloat? s.toList)
    return x.toFloat32.toFloat
  | .dict _ => fail .badType
  | _ => do
    let x ← (← orFail .badType v.scalar?).toFloat
    return x.toFloat32.toFloat

/-- Values as an array of any rank: all of them are single, or all of them are sequences that make
arrays of one shape. -/
def arrayOf : Nat → List Value → Result (List Nat × List Float)
  | 0, _ => fail .badValue
  | depth + 1, values => do
    let rows := values.filterMap fun v =>
      match v with
      | .list xs | .tuple xs => some xs
      | _ => .none
    if rows.isEmpty then return ([values.length], ← values.mapM singleOf)
    else if rows.length != values.length then fail .badValue
    else
      let parts ← rows.mapM (arrayOf depth)
      match parts with
      | [] => return ([0], [])
      | (shape, _) :: _ =>
        if parts.all fun p => p.1 == shape then
          return (values.length :: shape, (parts.map (·.2)).flatten)
        else fail .badValue

/-- The feature of a configuration: its numbers one after another, in single precision. -/
def featureOf (entities : List Entity) : Result Report := do
  let parts ← entities.mapM Entity.features
  let (shape, data) ← arrayOf 32 parts.flatten
  return .array shape "float32" (data.map .float)

/-! ### Configurations -/

/-- A configuration: its index in the space, the hash of the code it belongs to, and its settings
by name. -/
structure Configuration where
  (index codeHash : Json)
  entities : List (String × Entity)

/-- The settings as text: a list of pairs, nothing at all if there are none. -/
def entitiesText (entities : List (String × Entity)) : String :=
  if entities.isEmpty then ""
  else
    Value.bracketed "[" "]" (entities.map fun (name, e) => "(" ++ Text.quoted name ++ ", " ++ e.text ++ ")")

def setNamed {α : Type} (name : String) (value : α) : List (String × α) → List (String × α)
  | [] => [(name, value)]
  | e :: es => if e.1 == name then (name, value) :: es else e :: setNamed name value es

namespace Configuration

def indexNumber (c : Configuration) : Result Int :=
  match c.index with
  | .int n => .ok n
  | .bool b => .ok (if b then 1 else 0)
  | .float x => (Number.Scalar.float x).truncate
  | _ => fail .badType

def text (c : Configuration) : Result String := do
  let hash := (Value.ofJson c.codeHash).display
  return s!"{entitiesText c.entities},{hash},{← c.indexNumber}"

def record (c : Configuration) : Result Report := do
  let index ← c.indexNumber
  let rows := c.entities.map fun (name, e) => .list [.text name, .text e.kindName, e.content]
  return .record [("index", .int index), ("code_hash", toReport c.codeHash), ("entity", .list rows)]

def feature (c : Configuration) : Result Report := featureOf (c.entities.map (·.2))

/-- Read the record of a configuration; of two settings of one name the last one counts. -/
def ofJson (j : Json) : Result Configuration := do
  let index ← j.member "index"
  let hash ← j.member "code_hash"
  let rows ← j.member "entity"
  let entities ← rows.items.foldlM (fun es row => do
      match row.items with
      | [key, kind, content] =>
        let e ← Entity.ofParts kind.text content
        return setNamed (Value.ofJson key).display e es
      | _ => fail .badValue)
    []
  return ⟨index, hash, entities⟩

end Configuration

/-! ### Divisors and powers of two -/

def floorSqrt (n : Nat) : Nat :=
  if h : n < 2 then n
  else
    let s := 2 * floorSqrt (n / 4)
    if (s + 1) * (s + 1) ≤ n then s + 1 else s
termination_by n
decreasing_by omega

def smallDivisors (n : Nat) : List Nat := ((range (floorSqrt n)).map (· + 1)).filter (n % · == 0)

def divisors (n : Nat) : List Nat :=
  let small := smallDivisors n
  let large := (small.reverse.map (n / ·)).filter (!small.contains ·)
  small ++ large

def powersOfTwo (n : Nat) : List Nat := (range (n.log2 + 1)).map (.pow 2)

def divisorsOf (n : Int) : Result (List Nat) :=
  if n < 0 then fail .badValue
  else if n == 0 then fail .badType
  else .ok (divisors n.toNat)

def powersOfTwoUpTo (n : Int) : Result (List Nat) := if n ≤ 0 then fail .badValue else .ok (powersOfTwo n.toNat)

open Number (Scalar)

/-! ### Splits -/

/-- Where the factors of a split come from. -/
inductive FactorPolicy where | divisors | powersOfTwo | both deriving DecidableEq

def FactorPolicy.ofName? : String → Option FactorPolicy
  | "factors" => some divisors
  | "power2" => some powersOfTwo
  | "verbose" => some both
  | _ => none

def mergeDistinct (xs ys : List Nat) : List Nat := (xs ++ ys.filter (!xs.contains ·)).mergeSort fun a b => a ≤ b

/-- The factors that a policy offers for an axis length, in ascending order. -/
def FactorPolicy.factors (policy : FactorPolicy) (length : Int) : Result (List Nat) :=
  match policy with
  | divisors => divisorsOf length
  | powersOfTwo => powersOfTwoUpTo length
  | both => do
    let ds ← divisorsOf length
    let ps ← powersOfTwoUpTo length
    return mergeDistinct ds ps

def sequences {α : Type} (items : List α) : Nat → List (List α)
  | 0 => [[]]
  | n + 1 => items.flatMap fun x => (sequences items n).map (x :: ·)

/-- Whether factors fit an axis length: their product is not larger, and divides it unless a tail
is allowed. -/
def fits (length : Nat) (noTail : Bool) (factors : List Nat) : Bool :=
  let p := factors.foldl (· * ·) 1
  p ≤ length && (length % p == 0 || (!noTail && p < length))

/-- The sizes of a split into an outer part and the given factors, the last of which is chosen
first. -/
def sizesOf (factors : List Nat) : List Int := -1 :: factors.reverse.map .ofNat

def splitSizes (length outputs : Nat) (factors : List Nat) (noTail : Bool) : List (List Int) :=
  ((sequences factors (outputs - 1)).filter (fits length noTail)).map sizesOf

structure SplitRequest where
  length : Int
  policy : String
  outputs : Int := 0
  maxFactor : Scalar := .int 2147483648
  noTail : Option Bool := none
  candidates : Option (List (List Int)) := none
  keep : List Int → Result Bool := fun _ => .ok true

def filterM {α : Type} (keep : α → Result Bool) : List α → Result (List α)
  | [] => .ok []
  | x :: xs => do
    let k ← keep x
    let rest ← filterM keep xs
    return if k then x :: rest else rest

/-- The sizes of the candidates of a split knob before they are filtered. -/
def SplitRequest.allSizes (r : SplitRequest) : Result (List (List Int)) := do
  if r.policy == "candidate" then
    let cs ← orFail .missingKey r.candidates
    require (cs.all fun c => (c.length : Int) == r.outputs) .failedCheck ""
    return cs
  else
    match FactorPolicy.ofName? r.policy with
    | none => refuse .runtime s!"Invalid policy: {r.policy}"
    | some policy =>
      let fs ← policy.factors r.length
      let fs := fs.filter fun (f : Nat) => !(r.maxFactor.less (.int f))
      let noTail := r.noTail.getD (policy == .divisors)
      demand (r.outputs != 1) .badType
      return splitSizes r.length.toNat r.outputs.toNat fs noTail

def SplitRequest.sizes (r : SplitRequest) : Result (List (List Int)) := do
  require (0 < r.outputs) .failedCheck ""
  filterM r.keep (← r.allSizes)

/-! ### Orders -/

def picks {α : Type} : List α → List (α × List α)
  | [] => []
  | x :: xs => (x, xs) :: (picks xs).map fun p => (p.1, x :: p.2)

def permutationsOf {α : Type} : Nat → List α → List (List α)
  | 0, _ => [[]]
  | n + 1, xs => (picks xs).flatMap fun p => (permutationsOf n p.2).map (p.1 :: ·)

def permutations {α : Type} (xs : List α) : List (List α) := permutationsOf xs.length xs

def longest {α : Type} (chains : List (List α)) : Option Nat :=
  let top := (chains.map length).foldl max 0
  chains.findIdx? (·.length == top)

/-- Merge chains into one list: each time the first longest chain gives its first item. -/
def mergeChains {α : Type} : Nat → List (List α) → List α
  | 0, _ => []
  | n + 1, chains =>
    match longest chains with
    | none => []
    | some i =>
      match chains[i]? with
      | some (x :: rest) => x :: mergeChains n (chains.set i rest)
      | _ => []

def mergeAll {α : Type} (chains : List (List α)) : List α :=
  mergeChains ((chains.map length).foldl (· + ·) 0) chains

def interval (a b : Int) : List Int := (range (b - a).toNat).map (a + .ofNat ·)

/-- What a reordering knob is asked for; chains name axes by position. -/
structure ReorderRequest where
  axes : Nat
  policy : String
  interval : Option (List Int) := none
  candidates : Option (List (List Int)) := none
  spatial : Option (List (List Int)) := none
  reduce : Option (List (List Int)) := none

def ReorderRequest.position (r : ReorderRequest) (i : Int) : Result Int :=
  let j := if i < 0 then i + r.axes else i
  if 0 ≤ j && j < r.axes then .ok j else fail .badIndex

def ReorderRequest.positions (r : ReorderRequest) (chains : Option (List (List Int))) : Result (List (List Int)) := do
  (← orFail .missingKey chains).mapM (·.mapM r.position)

def ReorderRequest.entities (r : ReorderRequest) : Result (List Entity) := do
  let all := Tuning.interval 0 r.axes
  match r.policy with
  | "identity" => return [.reorder .range all]
  | "all" => return (permutations all).map (.reorder .tuple)
  | "interval_all" =>
    match ← orFail .missingKey r.interval with
    | [a, b] =>
      return (permutations (Tuning.interval a b)).map fun p =>
        .reorder .tuple (Tuning.interval 0 a ++ p ++ Tuning.interval b r.axes)
    | _ => fail .badValue
  | "candidate" => return (← r.positions r.candidates).map (.reorder .list)
  | "interleave" =>
    let _ ← orFail .missingKey r.spatial
    let _ ← orFail .missingKey r.reduce
    let spatial ← r.positions r.spatial
    let reduce ← r.positions r.reduce
    let outer := mergeAll (spatial.map .dropLast)
    let inner := mergeAll (spatial.map (·.getLast?.toList) ++ reduce)
    return [.reorder .list (outer ++ inner)]
  | "interleave_cuda" =>
    let _ ← orFail .missingKey r.spatial
    let _ ← orFail .missingKey r.reduce
    let spatial ← r.positions r.spatial
    let reduce ← r.positions r.reduce
    let outer := mergeAll (spatial.map .dropLast)
    let inner ← spatial.mapM (orFail .badIndex ·.getLast?)
    return [.reorder .list (outer ++ mergeAll reduce ++ inner)]
  | policy => refuse .runtime s!"Invalid policy: {policy}"

/-! ### Annotations -/

structure AnnotateRequest where
  axes : Nat
  policy : String
  anchors : Option Int := none

def combinations {α : Type} : Nat → List α → List (List α)
  | 0, _ => [[]]
  | _ + 1, [] => []
  | k + 1, x :: xs => (combinations k xs).map (x :: ·) ++ combinations (k + 1) xs

/-- Fuse all axes but the last ones, and give these their annotations. -/
def fusedThen (axes : Nat) (last : List String) : Entity :=
  .annotate .list ((.replicate (axes - last.length) "fuse" ++ last).map .named)

/-- Bind axes to the first of the lists of annotations that is not longer than the axes are many. -/
def bindAxes (axes : Nat) (choices : List (List String)) : Result (List Entity) :=
  match choices.find? fun c => c.length ≤ axes with
  | some c => .ok [fusedThen axes c]
  | none => refuse .runtime "Unhandled case in bind_gpu"

/-- The words of an annotation policy; `try` stands for leaving the axis alone. -/
def policyWords (policy : String) : List String := splitAt '_' (replaceIn "try" "none" policy)

def AnnotateRequest.entities (r : AnnotateRequest) : Result (List Entity) :=
  match r.policy with
  | "bind_gpu" =>
    bindAxes r.axes [
      ["blockIdx.z", "blockIdx.y", "blockIdx.x", "threadIdx.z", "threadIdx.y", "threadIdx.x"],
      ["blockIdx.y", "blockIdx.x", "threadIdx.y", "threadIdx.x"],
      ["blockIdx.x", "threadIdx.x"]]
  | "bind_gpu_virtual" =>
    bindAxes r.axes [
      ["blockIdx.z", "blockIdx.y", "blockIdx.x", "vthread", "vthread", "vthread", "threadIdx.z",
        "threadIdx.y", "threadIdx.x"],
      ["blockIdx.y", "blockIdx.x", "vthread", "vthread", "threadIdx.y", "threadIdx.x"],
      ["blockIdx.x", "vthread", "threadIdx.x"]]
  | "locate_cache" => do
    let k ← orFail .missingKey r.anchors
    demand (0 ≤ k) .badValue
    return (combinations k.toNat (interval 0 r.axes)).map fun c => .annotate .tuple (c.map .anchor)
  | policy =>
    let words := policyWords policy
    if words.all fun w => ["none", "unroll", "vec"].contains w then
      .ok (((sequences words r.axes).filter (·.count "vec" ≤ 1)).map fun s => .annotate .list (s.map .named))
    else refuse .runtime s!"Invalid policy: {policy}"

/-! ### Subspaces -/

/-- The kind of a knob, with what its text shows. -/
inductive KnobKind where
  | split (policy : String) (length : Int)
  | reorder (policy : String)
  | annotate (policy : String)
  | option
  deriving DecidableEq

/-- A knob: its kind, the number of axes it yields, and its candidates. -/
structure Subspace where
  kind : KnobKind
  outputs : Nat
  candidates : List Entity

namespace Subspace

def size (s : Subspace) : Nat := s.candidates.length

def splitLength? (s : Subspace) : Option Int :=
  match s.kind with
  | .split _ length => some length
  | _ => none

def text (s : Subspace) : String :=
  match s.kind with
  | .split policy length => s!"Split(policy={policy}, product={length}, num_outputs={s.outputs}) len={s.size}"
  | .reorder policy => s!"Reorder(policy={policy}) len={s.size}"
  | .annotate policy => s!"Annotate(policy={policy}) len={s.size}"
  | .option =>
    let items := Value.bracketed "[" "]" (s.candidates.map Entity.text)
    s!"OtherOption({items}) len={s.size}"

def ofSplit (r : SplitRequest) : Result Subspace := do
  let sizes ← r.sizes
  return ⟨.split r.policy r.length, r.outputs.toNat, sizes.map .split⟩

def ofReorder (r : ReorderRequest) : Result Subspace := do
  return ⟨.reorder r.policy, r.axes, ← r.entities⟩

def ofAnnotate (r : AnnotateRequest) : Result Subspace := do
  return ⟨.annotate r.policy, r.axes, ← r.entities⟩

def ofValues (values : List Value) : Subspace := ⟨.option, 0, values.map .option⟩

end Subspace

end TensorToolchain.Tuning
