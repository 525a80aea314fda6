import TensorToolchain.Number.Scalar

/-!
# JSON values

A JSON value keeps the order of the fields of its objects and tells integers, which have any
size, from floating-point numbers.
-/

namespace TensorToolchain

inductive Json where
  | null
  | bool (b : Bool)
  | int (n : Int)
  | float (x : Float)
  | str (s : String)
  | arr (items : List Json)
  | obj (fields : List (String × Json))
  deriving Inhabited

namespace Json

/-! ### Comparing values -/

mutual

/-- Whether two values agree, given when two floating-point numbers do. -/
def agree (onFloat : Float → Float → Bool) : Json → Json → Bool
  | .null, .null => true
  | .bool a, .bool b => a == b
  | .int m, .int n => m == n
  | .float x, .float y => onFloat x y
  | .str s, .str t => s == t
  | .arr xs, .arr ys => agreeItems onFloat xs ys
  | .obj fs, .obj gs => agreeFields onFloat fs gs
  | _, _ => false

def agreeItems (onFloat : Float → Float → Bool) : List Json → List Json → Bool
  | [], [] => true
  | x :: xs, y :: ys => agree onFloat x y && agreeItems onFloat xs ys
  | _, _ => false

def agreeFields (onFloat : Float → Float → Bool) : List (String × Json) → List (String × Json) → Bool
  | [], [] => true
  | (m, x) :: fs, (n, y) :: gs => m == n && agree onFloat x y && agreeFields onFloat fs gs
  | _, _ => false

end

/-- Numbers are compared as numbers: a zero agrees with the negative one, and what is undefined
agrees with nothing. -/
instance : BEq Json := ⟨agree (· == ·)⟩

mutual

theorem agree_iff {onFloat : Float → Float → Bool} (h : ∀ x y, onFloat x y = true ↔ x = y) :
    ∀ a b : Json, agree onFloat a b = true ↔ a = b
  | .null, b => by cases b <;> simp [agree]
  | .bool _, b => by cases b <;> simp [agree]
  | .int _, b => by cases b <;> simp [agree]
  | .float _, b => by cases b <;> simp [agree, h]
  | .str _, b => by cases b <;> simp [agree]
  | .arr xs, b => by cases b <;> simp [agree, agreeItems_iff h xs]
  | .obj fs, b => by cases b <;> simp [agree, agreeFields_iff h fs]

theorem agreeItems_iff {onFloat : Float → Float → Bool} (h : ∀ x y, onFloat x y = true ↔ x = y) :
    ∀ xs ys, agreeItems onFloat xs ys = true ↔ xs = ys
  | [], ys => by cases ys <;> simp [agreeItems]
  | x :: xs, ys => by cases ys <;> simp [agreeItems, agree_iff h x, agreeItems_iff h xs]

theorem agreeFields_iff {onFloat : Float → Float → Bool} (h : ∀ x y, onFloat x y = true ↔ x = y) :
    ∀ fs gs, agreeFields onFloat fs gs = true ↔ fs = gs
  | [], gs => by cases gs <;> simp [agreeFields]
  | (m, x) :: fs, gs => by cases gs <;> simp [agreeFields, agree_iff h x, agreeFields_iff h fs, Prod.ext_iff]

end

instance : DecidableEq Json := fun a b =>
  decidable_of_iff _ (agree_iff (fun _ _ => decide_eq_true_iff) a b)

/-! ### Reading values -/

def field? : Json → String → Option Json
  | .obj fields, name => fields.lookup name
  | _, _ => none

variable (j : Json)

def field (name : String) : Json := (j.field? name).getD .null

def kindText (j : Json) : String :=
  let kind := match j with
    | .null => "NoneType"
    | .bool _ => "bool"
    | .int _ => "int"
    | .float _ => "float"
    | .str _ => "str"
    | .arr _ => "list"
    | .obj _ => "dict"
  "<class '" ++ kind ++ "'>"

def member (name : String) : Result Json := orFail .missingKey (j.field? name)

def items : Json → List Json
  | .arr xs => xs
  | _ => []

def fields : Json → List (String × Json)
  | .obj fs => fs
  | _ => []

def string? : Json → Option String
  | .str s => some s
  | _ => none

def text : String := j.string?.getD ""

def int? : Json → Option Int
  | .int n => some n
  | _ => none

def integer : Int := j.int?.getD 0

def bool? : Json → Option Bool
  | .bool b => some b
  | _ => none

def isTrue : Bool := j.bool?.getD false

def isNull : Json → Bool
  | .null => true
  | _ => false

def item (i : Nat) : Json := j.items[i]?.getD .null

/-- Set a field: an existing one keeps its place and takes the new value, a new one goes last. -/
def setField (fields : List (String × Json)) (name : String) (value : Json) : List (String × Json) :=
  if fields.any (·.1 == name) then
    fields.map fun f => if f.1 == name then (name, value) else f
  else fields ++ [(name, value)]

/-- The object in which a repeated name keeps its first place and its last value. -/
def ofFields (fields : List (String × Json)) : Json := .obj (fields.foldl (fun fs f => setField fs f.1 f.2) [])

mutual

def depth : Json → Nat
  | .arr xs => depthItems xs + 1
  | .obj fs => depthFields fs + 1
  | _ => 1

def depthItems : List Json → Nat
  | [] => 0
  | x :: xs => max (depth x) (depthItems xs)

def depthFields : List (String × Json) → Nat
  | [] => 0
  | (_, x) :: fs => max (depth x) (depthFields fs)

end

end Json

end TensorToolchain

namespace TensorToolchain.Json

/-! ### Writing JSON

The text of a JSON value in ASCII: a blank after each comma and colon, and every character outside
the printable ASCII range as an escape of four hexadecimal digits, or two of them.
-/

def hexDigit (n : Nat) : Char := if n < 10 then .ofNat ('0'.toNat + n) else .ofNat ('a'.toNat + (n - 10))

def unitEscape (n : Nat) : List Char :=
  ['\\', 'u', hexDigit (n / 4096 % 16), hexDigit (n / 256 % 16), hexDigit (n / 16 % 16), hexDigit (n % 16)]

def escapeChar (c : Char) : List Char :=
  match c with
  | '"' => ['\\', '"']
  | '\\' => ['\\', '\\']
  | '\n' => ['\\', 'n']
  | '\r' => ['\\', 'r']
  | '\t' => ['\\', 't']
  | '\x0c' => ['\\', 'f']
  | '\x08' => ['\\', 'b']
  | _ =>
    let n := c.toNat
    if 0x20 ≤ n && n < 0x7F then [c]
    else if n < 0x10000 then unitEscape n
    else
      let m := n - 0x10000
      unitEscape (0xD800 + m / 0x400) ++ unitEscape (0xDC00 + m % 0x400)

def quoted (s : String) : String := .ofList ('"' :: (s.toList.flatMap escapeChar ++ ['"']))

/-- A number with the fewest digits that read back. -/
def floatText (x : Float) : String :=
  if x.isNaN then "NaN"
  else if x.isInf then (if x < 0.0 then "-Infinity" else "Infinity")
  else Number.readable x

structure Style where (comma colon : String)

def Style.spaced : Style := ⟨", ", ": "⟩

mutual

def render (style : Style) : Json → String
  | .null => "null"
  | .bool b => if b then "true" else "false"
  | .int n => toString n
  | .float x => floatText x
  | .str s => quoted s
  | .arr xs => "[" ++ style.comma.intercalate (renderItems style xs) ++ "]"
  | .obj fs => "\x7b" ++ style.comma.intercalate (renderFields style fs) ++ "\x7d"

def renderItems (style : Style) : List Json → List String
  | [] => []
  | x :: xs => render style x :: renderItems style xs

def renderFields (style : Style) : List (String × Json) → List String
  | [] => []
  | (name, x) :: fs => (quoted name ++ style.colon ++ render style x) :: renderFields style fs

end

def print (j : Json) : String := j.render .spaced

end TensorToolchain.Json
