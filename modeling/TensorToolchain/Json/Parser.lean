import TensorToolchain.Json.Printer

/-!
# Reading JSON

A reader of JSON text over lists of characters. It takes the grammar of the format, and besides
it the words `NaN`, `Infinity` and `-Infinity`. Each step returns the value read and the rest of
the text.
-/

namespace TensorToolchain.Json

def isBlank (c : Char) : Bool := c == ' ' || c == '\t' || c == '\n' || c == '\r'

variable (text : List Char)

def skipBlanks : List Char := text.dropWhile isBlank

def hexQuad? (a b c d : Char) : Option Nat := do
  let a ← Number.hexDigit? a
  let b ← Number.hexDigit? b
  let c ← Number.hexDigit? c
  let d ← Number.hexDigit? d
  return ((a * 16 + b) * 16 + c) * 16 + d

/-- The character of a code unit; half of a surrogate pair alone is shown as U+FFFD. -/
def unitChar (n : Nat) : Char := if 0xD800 ≤ n && n < 0xE000 then .ofNat 0xFFFD else .ofNat n

/-- The character after a backslash, for the escapes of one letter. -/
def shortEscape? : Char → Option Char
  | '"' => some '"'
  | '\\' => some '\\'
  | '/' => some '/'
  | 'b' => some '\x08'
  | 'f' => some '\x0c'
  | 'n' => some '\n'
  | 'r' => some '\r'
  | 't' => some '\t'
  | _ => none

/-- The code units of a string after its opening quote, up to its closing one. A character that
stands for itself counts as one unit, whatever its size. -/
def stringUnits : List Char → Option (List Nat × List Char)
  | '"' :: rest => some ([], rest)
  | '\\' :: 'u' :: a :: b :: c :: d :: rest =>
    match hexQuad? a b c d with
    | some n => (stringUnits rest).map fun r => (n :: r.1, r.2)
    | none => none
  | '\\' :: c :: rest =>
    match shortEscape? c with
    | some e => (stringUnits rest).map fun r => (e.toNat :: r.1, r.2)
    | none => none
  | c :: rest =>
    if c == '\\' || c.toNat < 0x20 then none
    else (stringUnits rest).map fun r => (c.toNat :: r.1, r.2)
  | [] => none

def joinPairs : List Nat → List Char
  | hi :: lo :: rest =>
    if 0xD800 ≤ hi && hi < 0xDC00 && 0xDC00 ≤ lo && lo < 0xE000 then
      .ofNat (0x10000 + (hi - 0xD800) * 0x400 + (lo - 0xDC00)) :: joinPairs rest
    else unitChar hi :: joinPairs (lo :: rest)
  | [n] => [unitChar n]
  | [] => []

def stringBody : Option (String × List Char) := (stringUnits text).map fun r => (.ofList (joinPairs r.1), r.2)

def digitRun : List Char × List Char := text.span Char.isDigit

def fraction : List Char → List Char × List Char
  | '.' :: rest =>
    match digitRun rest with
    | ([], _) => ([], '.' :: rest)
    | r => r
  | text => ([], text)

def exponent : Option Int × List Char :=
  match text with
  | mark :: rest =>
    if mark == 'e' || mark == 'E' then
      let (negative, body) :=
        match rest with
        | '-' :: r => (true, r)
        | '+' :: r | r => (false, r)
      match digitRun body with
      | ([], _) => (none, text)
      | (ds, r) =>
        let n : Int := Number.ofDigits ds
        (some (if negative then -n else n), r)
    else (none, text)
  | [] => (none, text)

/-- A number without its sign: an integer if it has neither fraction nor exponent. -/
def magnitude (negative : Bool) (text : List Char) : Option (Json × List Char) :=
  let whole :=
    match text with
    | '0' :: rest => some (['0'], rest)
    | _ =>
      match digitRun text with
      | ([], _) => none
      | r => some r
  match whole with
  | none => none
  | some (ds, rest) =>
    let (frac, rest) := fraction rest
    let (power, rest) := exponent rest
    if frac.isEmpty && power.isNone then
      let n : Int := Number.ofDigits ds
      some (.int (if negative then -n else n), rest)
    else
      let x := Number.ofDecimal (Number.ofDigits (ds ++ frac)) (power.getD 0 - frac.length)
      some (.float (if negative then -x else x), rest)

def afterWord? : List Char → List Char → Option (List Char)
  | [], text => some text
  | _ :: _, [] => none
  | w :: ws, c :: text => if w == c then afterWord? ws text else none

def scalar : Option (Json × List Char) :=
  let words : List (String × Json) :=
    [("null", .null), ("true", .bool true), ("false", .bool false), ("NaN", .float (0.0 / 0.0)),
      ("Infinity", .float (1.0 / 0.0)), ("-Infinity", .float (-1.0 / 0.0))]
  match words.findSome? fun (w, v) => (afterWord? w.toList text).map fun r => (v, r) with
  | some r => some r
  | none =>
    match text with
    | '-' :: rest => magnitude true rest
    | _ => magnitude false text

mutual

def value : Nat → List Char → Option (Json × List Char)
  | 0, _ => none
  | fuel + 1, text =>
    match text with
    | '"' :: rest => (stringBody rest).map fun r => (.str r.1, r.2)
    | '[' :: rest =>
      match skipBlanks rest with
      | ']' :: rest => some (.arr [], rest)
      | rest => (elements fuel rest).map fun r => (.arr r.1, r.2)
    | '{' :: rest =>
      match skipBlanks rest with
      | '}' :: rest => some (.obj [], rest)
      | rest => (members fuel rest).map fun r => (ofFields r.1, r.2)
    | _ => scalar text

def elements : Nat → List Char → Option (List Json × List Char)
  | 0, _ => none
  | fuel + 1, text =>
    match value fuel text with
    | none => none
    | some (v, rest) =>
      match skipBlanks rest with
      | ']' :: rest => some ([v], rest)
      | ',' :: rest => (elements fuel (skipBlanks rest)).map fun r => (v :: r.1, r.2)
      | _ => none

def members : Nat → List Char → Option (List (String × Json) × List Char)
  | 0, _ => none
  | fuel + 1, text =>
    match text with
    | '"' :: rest =>
      match stringBody rest with
      | none => none
      | some (name, rest) =>
        match skipBlanks rest with
        | ':' :: rest =>
          match value fuel (skipBlanks rest) with
          | none => none
          | some (v, rest) =>
            let f := (name, v)
            match skipBlanks rest with
            | '}' :: rest => some ([f], rest)
            | ',' :: rest => (members fuel (skipBlanks rest)).map fun r => (f :: r.1, r.2)
            | _ => none
        | _ => none
    | _ => none

end

def parse? (text : String) : Option Json :=
  let cs := text.toList
  match value (2 * cs.length + 2) (skipBlanks cs) with
  | some (v, rest) => if (skipBlanks rest).isEmpty then some v else none
  | none => none

end TensorToolchain.Json
