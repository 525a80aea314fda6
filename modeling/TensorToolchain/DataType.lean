import TensorToolchain.Report
import TensorToolchain.Text

/-!
# Element types

The type of the elements of a tensor: a class of numbers, a width in bits and a number of vector
lanes. `DataType.parse` reads a type name and `DataType.name` writes one; width and lanes are
words of eight and sixteen bits, so that larger numbers wrap.
-/

namespace TensorToolchain

/-- The class of numbers that an element type belongs to. -/
inductive NumberClass where | int | uint | float | handle | bfloat deriving DecidableEq

namespace NumberClass

def code : NumberClass → Nat
  | int => 0
  | uint => 1
  | float => 2
  | handle => 3
  | bfloat => 4

def word : NumberClass → String
  | int => "int"
  | uint => "uint"
  | float => "float"
  | handle => "handle"
  | bfloat => "bfloat"

def all : List NumberClass := [int, uint, float, handle, bfloat]

end NumberClass

structure DataType where
  numbers : NumberClass
  bits : UInt8
  lanes : UInt16
  deriving DecidableEq

namespace DataType

inductive ParseError where
  | notANumber
  | malformedCustom (name : String)
  | unregisteredCustom (name : String)
  | unknown (name : String)
  deriving DecidableEq

def ParseError.fault : ParseError → Fault
  | notANumber => .plain .badValue
  | malformedCustom name => .worded .badValue s!"Badly formatted custom type string {name}"
  | unregisteredCustom _ => .plain .missingAttribute
  | unknown name => .worded .badValue s!"Do not know how to handle type {name}"

def known : List (String × DataType) := [
  ("bool", ⟨.uint, 1, 1⟩),
  ("int8", ⟨.int, 8, 1⟩), ("int16", ⟨.int, 16, 1⟩), ("int32", ⟨.int, 32, 1⟩),
  ("int64", ⟨.int, 64, 1⟩),
  ("uint8", ⟨.uint, 8, 1⟩), ("uint16", ⟨.uint, 16, 1⟩), ("uint32", ⟨.uint, 32, 1⟩),
  ("uint64", ⟨.uint, 64, 1⟩),
  ("float16", ⟨.float, 16, 1⟩), ("float32", ⟨.float, 32, 1⟩), ("float64", ⟨.float, 64, 1⟩)]

def number (text : List Char) : Except ParseError Int :=
  match Text.readInt? text with
  | some n => .ok n
  | none => .error .notANumber

def classOf? (head : List Char) : Option (NumberClass × List Char) :=
  NumberClass.all.findSome? fun k => if k.word.toList.isPrefixOf head then some (k, head.drop k.word.length) else none

/-- The width after the class word: 32 bits if none is written. A handle has 64 bits, whatever
follows its word. -/
def widthOf (k : NumberClass) (rest : List Char) : Except ParseError Int :=
  match k with
  | .handle => .ok 64
  | _ => if rest.isEmpty then .ok 32 else number rest

def position (c : Char) (text : List Char) : Int :=
  match text.findIdx? (· == c) with
  | some i => i
  | none => -1

/-- The pieces of a name: what stands before the first `x`, and the number of lanes after it. -/
def lanesOf (name : String) : List Char × Except ParseError Int :=
  match Text.splitChar 'x' name.toList with
  | head :: lanes :: _ => (head, number lanes)
  | head :: [] => (head, .ok 1)
  | [] => ([], .ok 1)

def parse (name : String) : Except ParseError DataType :=
  match known.lookup name with
  | some t => .ok t
  | none => do
    let (head, lanes) := lanesOf name
    let lanes ← lanes
    match classOf? head with
    | some (k, rest) =>
      let bits ← widthOf k rest
      return ⟨k, .ofInt bits, .ofInt lanes⟩
    | none =>
      if "custom".toList.isPrefixOf head then
        let low := position '[' head
        let high := position ']' head
        if low ≥ high then throw (.malformedCustom name) else throw (.unregisteredCustom name)
      else throw (.unknown name)

def name (t : DataType) : String :=
  if t.bits == 1 && t.lanes == 1 then "bool"
  else
    let scalar := t.numbers.word ++ toString t.bits.toNat
    if t.lanes == 1 then scalar else scalar ++ "x" ++ toString t.lanes.toNat

instance : ToReport DataType where
  toReport t := .record [
    ("type_code", toReport t.numbers.code), ("bits", toReport t.bits.toNat),
    ("lanes", toReport t.lanes.toNat), ("repr", toReport t.name)]

end DataType

/-! ### Names of array element types -/

namespace ArrayElement

/-- Short and alternative names of array element types, behind the full names. -/
def otherNames : List (String × String) := [
  ("bool", "bool_ ? b1"), ("int8", "byte b i1"), ("int16", "short h i2"), ("int32", "intc i i4"),
  ("int64", "int int_ intp long longlong l q p i8"), ("uint8", "ubyte B u1"), ("uint16", "ushort H u2"),
  ("uint32", "uintc I u4"), ("uint64", "uint uintp ulong ulonglong L Q P u8"), ("float16", "half e f2"),
  ("float32", "single f f4"), ("float64", "double float float_ d f8"),
  ("float128", "longdouble longfloat g f16"), ("complex64", "csingle singlecomplex F c8"),
  ("complex128", "complex complex_ cdouble cfloat D c16"), ("complex256", "clongdouble G c32"),
  ("object", "object_ O"), ("<U0", "str str_ unicode U"), ("|S0", "bytes bytes_ S a"), ("|V0", "void V"),
  ("datetime64", "M8 M"), ("timedelta64", "m8 m")]

def aliases : List (String × String) :=
  otherNames.flatMap fun (full, names) => (splitAt ' ' names).map (·, full)

def plain : List String := [
  "bool", "int8", "int16", "int32", "int64", "uint8", "uint16", "uint32", "uint64",
  "float16", "float32", "float64", "float128", "complex64", "complex128", "complex256",
  "object", "datetime64", "timedelta64"]

/-- The full name of an array element type without a byte order: an alias is replaced, a text type
keeps its width, and a time type keeps its unit. -/
def nativeName? (name : String) : Option String :=
  if plain.contains name then some name
  else
    match aliases.lookup name with
    | some full => some full
    | none =>
      match name.toList with
      | 'S' :: digits | 'V' :: digits => if digits.all Char.isDigit then some ("|" ++ name) else none
      | 'U' :: digits => if digits.all Char.isDigit then some ("<" ++ name) else none
      | 'M' :: '8' :: '[' :: unit => some ("datetime64[" ++ .ofList unit)
      | 'm' :: '8' :: '[' :: unit => some ("timedelta64[" ++ .ofList unit)
      | _ => if startsWith "datetime64[" name || startsWith "timedelta64[" name then some name else none

/-- Numbers that take more than one byte, by the letter of their kind and their size. -/
def wideCodes : List String := [
  "i2", "i4", "i8", "u2", "u4", "u8", "f2", "f4", "f8", "f16", "c8", "c16", "c32"]

/-- The full name of an array element type. A byte order may stand in front: the order of the
machine is left out, and the opposite one stays in the name of whatever takes more than one byte. -/
def fullName? (name : String) : Option String :=
  match name.toList with
  | '<' :: code | '=' :: code | '|' :: code => nativeName? (.ofList code)
  | '>' :: 'U' :: digits => if digits.all Char.isDigit then some name else none
  | '>' :: code => if wideCodes.contains (.ofList code) then some name else nativeName? (.ofList code)
  | _ => nativeName? name

def toDataType (name : String) : Result DataType :=
  match fullName? name with
  | none => fail .badType
  | some full => (DataType.parse full).mapError DataType.ParseError.fault

end ArrayElement

end TensorToolchain
