import TensorToolchain.Report
import TensorToolchain.Text

/-!
# Dynamic values

Values whose kind is known only when they are used: the values of script expressions, of tuning
knobs and of configuration entries. Truth values count as the integers 0 and 1 in arithmetic and
comparison.
-/

namespace TensorToolchain

inductive Value where
  | none
  | bool (b : Bool)
  | int (n : Int)
  | float (x : Float)
  | str (s : String)
  | list (items : List Value)
  | tuple (items : List Value)
  | dict (entries : List (Value × Value))
  | slice (start stop step : Value)
  deriving Inhabited

namespace Value

open Number (Scalar)

def scalar? : Value → Option Scalar
  | .bool b => some (.int (if b then 1 else 0))
  | .int n => some (.int n)
  | .float x => some (.float x)
  | _ => .none

/-- The integer that a value counts as; a floating-point number counts as none. -/
def integer? : Value → Option Int
  | .bool b => some (if b then 1 else 0)
  | .int n => some n
  | _ => .none

def isText : Value → Bool
  | .str _ => true
  | _ => false

def ofScalar : Scalar → Value
  | .int n => .int n
  | .float x => .float x

/-- Whether a value counts as true: it is not empty, not zero and not none. -/
def truthy : Value → Bool
  | .none => false
  | .bool b => b
  | .int n => n != 0
  | .float x => x != 0.0
  | .str s => !s.isEmpty
  | .list xs | .tuple xs => !xs.isEmpty
  | .dict es => !es.isEmpty
  | .slice .. => true

mutual

/-- Whether two values are equal: numbers by value, sequences item by item and of one kind,
dictionaries entry by entry in any order. -/
def equal : Value → Value → Bool
  | .none, .none => true
  | .str s, .str t => s == t
  | .list xs, .list ys | .tuple xs, .tuple ys => equalItems xs ys
  | .dict es, .dict fs => es.length == fs.length && equalEntries es fs
  | .slice a b c, .slice d e f => equal a d && equal b e && equal c f
  | a, b =>
    match a.scalar?, b.scalar? with
    | some x, some y => x.equal y
    | _, _ => false

def equalItems : List Value → List Value → Bool
  | [], [] => true
  | x :: xs, y :: ys => equal x y && equalItems xs ys
  | _, _ => false

def equalEntries : List (Value × Value) → List (Value × Value) → Bool
  | [], _ => true
  | (k, v) :: es, fs => (fs.any fun f => equal k f.1 && equal v f.2) && equalEntries es fs

end

instance : BEq Value := ⟨equal⟩

mutual

def isKey : Value → Bool
  | .list _ | .dict _ | .slice .. => false
  | .tuple xs => areKeys xs
  | _ => true

def areKeys : List Value → Bool
  | [] => true
  | x :: xs => isKey x && areKeys xs

end

/-- Set an entry: an equal key keeps its place and its form and takes the new value. -/
def setEntry (entries : List (Value × Value)) (key value : Value) : List (Value × Value) :=
  if entries.any (equal ·.1 key) then
    entries.map fun e => if equal e.1 key then (e.1, value) else e
  else entries ++ [(key, value)]

def valueAt? (entries : List (Value × Value)) (key : Value) : Option Value :=
  (entries.find? (equal ·.1 key)).map (·.2)

/-! ### Text -/

def bracketed (opening closing : String) (items : List String) : String := opening ++ joined ", " items ++ closing

mutual

def text : Value → String
  | .none => "None"
  | .bool b => if b then "True" else "False"
  | .int n => toString n
  | .float x => Number.readable x
  | .str s => Text.quoted s
  | .list xs => bracketed "[" "]" (texts xs)
  | .tuple [x] => "(" ++ text x ++ ",)"
  | .tuple xs => bracketed "(" ")" (texts xs)
  | .dict es => bracketed "\x7b" "\x7d" (entryTexts es)
  | .slice a b c => bracketed "slice(" ")" [text a, text b, text c]

def texts : List Value → List String
  | [] => []
  | x :: xs => text x :: texts xs

def entryTexts : List (Value × Value) → List String
  | [] => []
  | (k, v) :: es => (text k ++ ": " ++ text v) :: entryTexts es

end

def display : Value → String
  | .str s => s
  | v => v.text

mutual

def ofJson : Json → Value
  | .null => .none
  | .bool b => .bool b
  | .int n => .int n
  | .float x => .float x
  | .str s => .str s
  | .arr xs => .list (ofItems xs)
  | .obj fs => .dict (ofFields fs)

def ofItems : List Json → List Value
  | [] => []
  | x :: xs => ofJson x :: ofItems xs

def ofFields : List (String × Json) → List (Value × Value)
  | [] => []
  | (name, x) :: fs => (.str name, ofJson x) :: ofFields fs

end

mutual

/-- The report of a value: sequences of either kind as lists, a dictionary as a record if all its
keys are texts, else as a list of pairs. -/
def report : Value → Report
  | .none => .null
  | .bool b => .bool b
  | .int n => .int n
  | .float x => .float x
  | .str s => .text s
  | .list xs | .tuple xs => .list (reports xs)
  | .dict es => if es.all fun e => e.1.isText then .record (fieldReports es) else .list (entryReports es)
  | .slice a b c => .list [report a, report b, report c]

def reports : List Value → List Report
  | [] => []
  | x :: xs => report x :: reports xs

def entryReports : List (Value × Value) → List Report
  | [] => []
  | (k, v) :: es => .list [report k, report v] :: entryReports es

def fieldReports : List (Value × Value) → List (String × Report)
  | [] => []
  | (k, v) :: es => (display k, report v) :: fieldReports es

end

instance : ToReport Value := ⟨report⟩

/-! ### Order and membership

Numbers are ordered by value, texts by code points, and sequences of one kind by their first items
that differ. Values of other kinds have no order.
-/

inductive Comparison where | less | lessEqual | greater | greaterEqual

def Comparison.accepts : Comparison → Ordering → Bool
  | less, o => o == .lt
  | lessEqual, o => o != .gt
  | greater, o => o == .gt
  | greaterEqual, o => o != .lt

def firstDifference : List Value → List Value → Sum (Value × Value) Ordering
  | [], [] => .inr .eq
  | [], _ :: _ => .inr .lt
  | _ :: _, [] => .inr .gt
  | x :: xs, y :: ys => if equal x y then firstDifference xs ys else .inl (x, y)

def textOrder (s t : String) : Ordering := if s == t then .eq else if s < t then .lt else .gt

mutual

def size : Value → Nat
  | .list xs | .tuple xs => sizes xs + 1
  | _ => 1

def sizes : List Value → Nat
  | [] => 1
  | x :: xs => size x + sizes xs

end

/-- Compare two values, looking into nested sequences at most `depth` times. -/
def compareWithin (c : Comparison) : Nat → Value → Value → Result Bool
  | 0, _, _ => fail .badType
  | depth + 1, a, b =>
    match a, b with
    | .str s, .str t => .ok (c.accepts (textOrder s t))
    | .list xs, .list ys =>
      match firstDifference xs ys with
      | .inr o => .ok (c.accepts o)
      | .inl (x, y) => compareWithin c depth x y
    | .tuple xs, .tuple ys =>
      match firstDifference xs ys with
      | .inr o => .ok (c.accepts o)
      | .inl (x, y) => compareWithin c depth x y
    | _, _ =>
      match a.scalar?, b.scalar? with
      | some x, some y =>
        match x.compare? y with
        | some o => .ok (c.accepts o)
        | .none => .ok false
      | _, _ => fail .badType

def compareBy (c : Comparison) (a b : Value) : Result Bool := compareWithin c (a.size + 1) a b

/-- Whether a value stands in a sequence, a text in a text, or a key in a dictionary. -/
def isIn (a b : Value) : Result Bool :=
  match b with
  | .list xs | .tuple xs => .ok (xs.any (equal · a))
  | .dict es => if a.isKey then .ok (es.any (equal ·.1 a)) else fail .badType
  | .str t =>
    match a with
    | .str s => .ok (occursIn s t)
    | _ => fail .badType
  | _ => fail .badType

/-- Whether two separately made values are one: none, truth values, small integers and texts of at
most one simple character exist once. -/
def isSame : Value → Value → Bool
  | .none, .none => true
  | .bool a, .bool b => a == b
  | .int m, .int n => m == n && -5 ≤ m && m ≤ 256
  | .str s, .str t => s == t && s.length ≤ 1 && s.toList.all (·.toNat < 256)
  | .tuple [], .tuple [] => true
  | _, _ => false

/-! ### Items and slices

A position counts from the end if it is negative. A slice has a start, a stop and a step that is
not zero; its bounds are cut to the sequence.
-/

structure SliceRange where
  start : Int
  count : Nat
  step : Int

/-- The bound of a slice moved into the sequence: from the end if negative, then cut to
`[low, high]`. -/
def clampBound (length low high bound : Int) : Int :=
  let b := if bound < 0 then bound + length else bound
  max low (min high b)

def sliceRange (length : Nat) (start stop : Option Int) (step : Int) : SliceRange :=
  let n : Int := length
  if 0 < step then
    let a := (start.map (clampBound n 0 n)).getD 0
    let b := (stop.map (clampBound n 0 n)).getD n
    ⟨a, ((b - a + step - 1) / step).toNat, step⟩
  else
    let a := (start.map (clampBound n (-1) (n - 1))).getD (n - 1)
    let b := (stop.map (clampBound n (-1) (n - 1))).getD (-1)
    ⟨a, ((a - b - step - 1) / (-step)).toNat, step⟩

def SliceRange.positions (r : SliceRange) : List Nat :=
  (List.range r.count).map fun (i : Nat) => (r.start + (i : Int) * r.step).toNat

def sliceItems {α : Type} (xs : List α) (start stop : Option Int) (step : Int) : List α :=
  let items := xs.toArray
  (sliceRange xs.length start stop step).positions.filterMap fun i => items[i]?

def bound? : Value → Result (Option Int)
  | .none => .ok .none
  | v => do return some (← orFail .badType v.integer?)

def takeSlice {α : Type} (xs : List α) (start stop step : Value) : Result (List α) := do
  let s ← bound? step
  let s := s.getD 1
  if s == 0 then fail .badValue
  else
    let a ← bound? start
    let b ← bound? stop
    return sliceItems xs a b s

def itemAt {α : Type} (xs : List α) (i : Int) : Result α :=
  let j := if i < 0 then i + xs.length else i
  if j < 0 then fail .badIndex else orFail .badIndex xs[j.toNat]?

/-- A value looked up in another: an item, a slice or an entry. -/
def lookup (container index : Value) : Result Value :=
  match container with
  | .dict es => if index.isKey then orFail .missingKey (valueAt? es index) else fail .badType
  | .list xs =>
    match index with
    | .slice a b c => do return .list (← takeSlice xs a b c)
    | _ => do itemAt xs (← orFail .badType index.integer?)
  | .tuple xs =>
    match index with
    | .slice a b c => do return .tuple (← takeSlice xs a b c)
    | _ => do itemAt xs (← orFail .badType index.integer?)
  | .str s =>
    match index with
    | .slice a b c => do return .str (.ofList (← takeSlice s.toList a b c))
    | _ => do
      let c ← itemAt s.toList (← orFail .badType index.integer?)
      return .str (.ofList [c])
  | _ => fail .badType

def items? : Value → Option (List Value)
  | .list xs | .tuple xs => some xs
  | .str s => some (s.toList.map fun c => .str (.ofList [c]))
  | .dict es => some (es.map (·.1))
  | _ => .none

/-! ### Templates

A template holds directives that start with a percent sign; each takes the next of the values given
and writes it in the form that the directive names.
-/

structure Directive where
  leftAligned : Bool := false
  plusSign : Bool := false
  blankSign : Bool := false
  zeroFilled : Bool := false
  marked : Bool := false
  width : Nat := 0
  places : Option Nat := .none

variable (d : Directive)

def Directive.flag? : Char → Option Directive
  | '-' => some { d with leftAligned := true }
  | '+' => some { d with plusSign := true }
  | ' ' => some { d with blankSign := true }
  | '0' => some { d with zeroFilled := true }
  | '#' => some { d with marked := true }
  | _ => .none

def readFlags (d : Directive) : List Char → Directive × List Char
  | [] => (d, [])
  | c :: cs =>
    match d.flag? c with
    | some d' => readFlags d' cs
    | .none => (d, c :: cs)

def readCount (text : List Char) : Nat × List Char :=
  let (ds, rest) := text.span Char.isDigit
  (ds.foldl (fun n c => 10 * n + (c.toNat - '0'.toNat)) 0, rest)

def Directive.fill (s : String) : String := if d.leftAligned then padRight d.width s else padLeft d.width s

def Directive.fillNumber (negative : Bool) (mark body : String) : String :=
  let sign := if negative then "-" else if d.plusSign then "+" else if d.blankSign then " " else ""
  if d.zeroFilled && !d.leftAligned then
    let zeros := d.width - (sign.length + mark.length + body.length)
    sign ++ mark ++ .ofList (.replicate zeros '0') ++ body
  else d.fill (sign ++ mark ++ body)

/-- A natural in a base up to sixteen, with at least the places of the directive. -/
def Directive.digits (base n : Nat) : String :=
  let s := .ofList (Nat.toDigits base n)
  .ofList (.replicate (d.places.getD 0 - s.length) '0') ++ s

/-- A number in the general form with the given count of digits. -/
def scientificText (places : Nat) (x : Float) : String :=
  let d := match Number.decode x with
    | .finite d => d
    | _ => ⟨false, 0, 0⟩
  let r : Number.Decimal :=
    if d.mantissa == 0 then ⟨0, 0⟩
    else
      let (num, den) := d.magnitude
      Number.significant (places + 1) num den
  let digits := (Nat.repr r.digits).toList
  let digits := digits ++ .replicate (places + 1 - digits.length) '0'
  Number.scientific digits r.exponent

def wholeNumber (v : Value) : Result Int :=
  match v with
  | .float x =>
    match Number.truncate? x with
    | some n => .ok n
    | .none => fail .badValue
  | _ => orFail .badType v.integer?

def Directive.write (kind : Char) (v : Value) : Result String := do
  let cut := fun s =>
    match d.places with
    | some p => .ofList (s.toList.take p)
    | .none => s
  match kind with
  | 's' => return d.fill (cut v.display)
  | 'r' | 'a' => return d.fill (cut v.text)
  | 'd' | 'i' | 'u' =>
    let n ← wholeNumber v
    return d.fillNumber (n < 0) "" (d.digits 10 n.natAbs)
  | 'x' =>
    let n ← orFail .badType v.integer?
    return d.fillNumber (n < 0) (if d.marked then "0x" else "") (d.digits 16 n.natAbs)
  | 'X' =>
    let n ← orFail .badType v.integer?
    return d.fillNumber (n < 0) (if d.marked then "0X" else "") (d.digits 16 n.natAbs).toUpper
  | 'o' =>
    let n ← orFail .badType v.integer?
    return d.fillNumber (n < 0) (if d.marked then "0o" else "") (d.digits 8 n.natAbs)
  | 'c' =>
    match v with
    | .str s => if s.length == 1 then return d.fill s else fail .badType
    | _ =>
      let n ← orFail .badType v.integer?
      if 0 ≤ n && n < 0x110000 then return d.fill (.ofList [.ofNat n.toNat])
      else fail .overflow
  | 'f' | 'F' | 'e' | 'E' | 'g' | 'G' =>
    let x ← (← orFail .badType v.scalar?).toFloat
    let places := d.places.getD 6
    let body :=
      if x.isNaN then "nan"
      else if x.isInf then "inf"
      else if kind == 'f' || kind == 'F' then Number.fixed places x.abs
      else if kind == 'e' || kind == 'E' then scientificText places x.abs
      else Number.general (max places 1) x.abs
    let body := if kind.isUpper then body.toUpper else body
    return d.fillNumber (Number.signBit x && !x.isNaN) "" body
  | _ => fail .badValue

/-- The values that a template takes in order, and whether all of them have to be taken. -/
def templateValues : Value → List Value × Bool
  | .tuple xs => (xs, true)
  | .list xs => ([.list xs], false)
  | .dict es => ([.dict es], false)
  | v => ([v], true)

def readStar (text : List Char) (values : List Value) : Result (Option Int × List Char × List Value) :=
  match text with
  | '*' :: rest =>
    match values with
    | v :: vs => do return (some (← orFail .badType v.integer?), rest, vs)
    | [] => fail .badType
  | _ => .ok (.none, text, values)

def fillFrom : Nat → List Char → Value → List Value → Result (List Char × List Value)
  | 0, _, _, _ => fail .badValue
  | _ + 1, [], _, values => .ok ([], values)
  | fuel + 1, '%' :: rest, whole, values => do
    let (named, rest) ←
      match rest with
      | '(' :: r =>
        match whole, Text.cutBy (· == ')') r with
        | .dict es, (key, some r) =>
          let v ← orFail .missingKey (valueAt? es (.str (.ofList key)))
          pure (some v, r)
        | .dict _, (_, .none) => fail .badValue
        | _, _ => fail .badType
      | r => pure (.none, r)
    let (d, rest) := readFlags {} rest
    let (star, rest, values) ← readStar rest values
    let (width, rest) :=
      match star with
      | some w => (w, rest)
      | .none =>
        let (w, r) := readCount rest
        ((w : Int), r)
    let d := { d with width := width.natAbs, leftAligned := d.leftAligned || width < 0 }
    let (places, rest, values) ←
      match rest with
      | '.' :: r => do
        let (star, r, values) ← readStar r values
        match star with
        | some p => pure (some p.toNat, r, values)
        | .none =>
          let (p, r) := readCount r
          pure (some p, r, values)
      | r => pure (.none, r, values)
    let d := { d with places := places }
    let rest :=
      match rest with
      | 'h' :: r | 'l' :: r | 'L' :: r | r => r
    match rest with
    | [] => fail .badValue
    | '%' :: rest =>
      let (tail, values) ← fillFrom fuel rest whole values
      return ('%' :: tail, values)
    | kind :: rest =>
      let (v, values) ←
        match named, values with
        | some v, vs | .none, v :: vs => pure (v, vs)
        | .none, [] => fail .badType
      let s ← d.write kind v
      let (tail, values) ← fillFrom fuel rest whole values
      return (s.toList ++ tail, values)
  | fuel + 1, c :: rest, whole, values => do
    let (tail, values) ← fillFrom fuel rest whole values
    return (c :: tail, values)

/-- Fill a template; every value of a tuple, and a single value that is no collection, has to be
taken. -/
def fillTemplate (template : String) (value : Value) : Result String := do
  let (values, takeAll) := templateValues value
  let (out, left) ← fillFrom (template.length + 1) template.toList value values
  if takeAll && !left.isEmpty then fail .badType else return .ofList out

/-! ### Operators

Arithmetic on numbers, joining and repetition of sequences, and bit operations on integers.
-/

def maxItems : Nat := 100000000

/-- Counts have to lie between the negative of this and this, the lower end included. -/
def countBound : Int := 9223372036854775808

def repeated {α : Type} (xs : List α) (count : Int) : Result (List α) :=
  if count < -countBound || countBound ≤ count then fail .overflow
  else if xs.isEmpty then .ok []
  else if maxItems < xs.length * count.toNat then fail .overflow
  else .ok (List.replicate count.toNat xs).flatten

def onScalars (op : Scalar → Scalar → Result Scalar) (a b : Value) : Result Value :=
  match a.scalar?, b.scalar? with
  | some x, some y => do return ofScalar (← op x y)
  | _, _ => fail .badType

/-- Sum of numbers, or two sequences of one kind joined. -/
def add (a b : Value) : Result Value :=
  match a, b with
  | .str s, .str t => .ok (.str (s ++ t))
  | .list xs, .list ys => .ok (.list (xs ++ ys))
  | .tuple xs, .tuple ys => .ok (.tuple (xs ++ ys))
  | _, _ => onScalars Scalar.add a b

def sub : Value → Value → Result Value := onScalars Scalar.sub

def repeatBy? (a b : Value) : Option (Result Value) :=
  match a, b.integer? with
  | .str s, some n => some (do return .str (.ofList (← repeated s.toList n)))
  | .list xs, some n => some (do return .list (← repeated xs n))
  | .tuple xs, some n => some (do return .tuple (← repeated xs n))
  | _, _ => .none

def mul (a b : Value) : Result Value :=
  match repeatBy? a b with
  | some r => r
  | .none =>
    match repeatBy? b a with
    | some r => r
    | .none => onScalars Scalar.mul a b

def div : Value → Value → Result Value := onScalars Scalar.div

def floorDiv : Value → Value → Result Value := onScalars Scalar.floorDiv

def mod (a b : Value) : Result Value :=
  match a with
  | .str template => do return .str (← fillTemplate template b)
  | _ => onScalars Scalar.mod a b

def pow : Value → Value → Result Value := onScalars Scalar.pow

def onIntegers (op : Int → Int → Result Int) (a b : Value) : Result Value :=
  match a.integer?, b.integer? with
  | some m, some n => do return .int (← op m n)
  | _, _ => fail .badType

def shiftLeft : Value → Value → Result Value :=
  onIntegers fun m n =>
    if n < 0 then fail .badValue
    else if m == 0 then .ok 0
    else if (Scalar.maxPowerBits : Int) < n then fail .overflow
    else .ok (m * Nat.pow 2 n.toNat)

def shiftRight : Value → Value → Result Value :=
  onIntegers fun m n =>
    if n < 0 then fail .badValue
    else if (m.natAbs.log2 : Int) < n then .ok (if m < 0 then -1 else 0)
    else .ok (m.fdiv (Nat.pow 2 n.toNat))

def intAnd (m n : Int) : Int :=
  match m, n with
  | .ofNat a, .ofNat b => .ofNat (a &&& b)
  | .ofNat a, .negSucc b => .ofNat (a - (a &&& b))
  | .negSucc a, .ofNat b => .ofNat (b - (a &&& b))
  | .negSucc a, .negSucc b => .negSucc (a ||| b)

def intOr (m n : Int) : Int := -1 - intAnd (-1 - m) (-1 - n)

def intXor (m n : Int) : Int :=
  match m, n with
  | .ofNat a, .ofNat b => .ofNat (a ^^^ b)
  | .ofNat a, .negSucc b | .negSucc a, .ofNat b => .negSucc (a ^^^ b)
  | .negSucc a, .negSucc b => .ofNat (a ^^^ b)

def onBits (onBool : Bool → Bool → Bool) (onInt : Int → Int → Int) (a b : Value) : Result Value :=
  match a, b with
  | .bool x, .bool y => .ok (.bool (onBool x y))
  | _, _ => onIntegers (fun m n => .ok (onInt m n)) a b

def bitAnd : Value → Value → Result Value := onBits (· && ·) intAnd

def bitOr (a b : Value) : Result Value :=
  match a, b with
  | .dict es, .dict fs => .ok (.dict (fs.foldl (fun acc f => setEntry acc f.1 f.2) es))
  | _, _ => onBits (· || ·) intOr a b

def bitXor : Value → Value → Result Value := onBits (· != ·) intXor

def negate (a : Value) : Result Value := do
  return ofScalar (← orFail .badType a.scalar?).neg

def plus (a : Value) : Result Value := do
  return ofScalar (← orFail .badType a.scalar?)

def invert (a : Value) : Result Value := do
  return .int (-1 - (← orFail .badType a.integer?))

end Value

end TensorToolchain
