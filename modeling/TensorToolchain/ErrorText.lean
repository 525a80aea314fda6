import TensorToolchain.Report
import TensorToolchain.Text

/-!
# Error texts across a language border

An error text of compiled code ends in a stack trace with the innermost frame first; an error text
of a script starts with a traceback with the innermost frame last. `toTraceback` and
`toStackTrace` turn one form into the other.
-/

namespace TensorToolchain.ErrorText

open Text

/-- Whether a word can name an error: letters, digits, underscores and points. -/
def isErrorName (word : List Char) : Bool := word.all fun c => isLetterOrDigit c || c == '_' || c == '.'

variable (line : List Char)

/-- The name of the error that a line starts with, up to its first colon. -/
def errorName? : Option (List Char) :=
  match cutBy (· == ':') line with
  | (_, none) => none
  | (word, some _) => if isErrorName word then some word else none

/-- The lines of a text; a newline at the end starts no further line. -/
def textLines (text : List Char) : List (List Char) :=
  let lines := splitChar '\n' text
  if lines.getLast? == some [] then lines.dropLast else lines

/-- The lines of an error text sorted into message lines and frames, both in reverse, and whether
the line before belonged to a trace. -/
structure Sorting where
  inTrace : Bool := false
  frames : List (List Char) := []
  message : List (List Char) := []

def Sorting.outside (isHeading : List Char → Bool) (s : Sorting) (line : List Char) : Sorting :=
  if isHeading line then { s with inTrace := true }
  else { s with inTrace := false, message := line :: s.message }

/-- A frame of compiled code starts with two blanks; a line with eight blanks continues the frame
before it. -/
def stackLine (s : Sorting) (line : List Char) : Option Sorting :=
  if "        ".toList.isPrefixOf line then
    match s.frames with
    | frame :: frames => some { s with frames := (frame ++ '\n' :: line) :: frames }
    | [] => some { s with frames := [line] }
  else if "  ".toList.isPrefixOf line then some { s with frames := line :: s.frames }
  else none

def tracebackLine (s : Sorting) (line : List Char) : Option Sorting :=
  if "  ".toList.isPrefixOf line then some { s with frames := line :: s.frames } else none

/-- Take a line: as part of the running trace if it fits there, else as a line outside. -/
def Sorting.take (isHeading : List Char → Bool)
    (frameLine : Sorting → List Char → Option Sorting) (s : Sorting) (line : List Char) : Sorting :=
  if s.inTrace then
    match frameLine s line with
    | some s' => s'
    | none => s.outside isHeading line
  else s.outside isHeading line

def sortLines (isHeading : List Char → Bool)
    (frameLine : Sorting → List Char → Option Sorting) (lines : List (List Char)) : Sorting :=
  lines.foldl (.take isHeading frameLine) {}

def isStackHeading : Bool := "Stack trace".toList.isPrefixOf line

def isTracebackHeading : Bool := occurs "Traceback".toList line

def joinLines (lines : List (List Char)) : List Char := joinWith ['\n'] lines

/-- A script error text and the name of the error. -/
structure Traceback where
  message : List Char
  errorName : Option (List Char)
  deriving DecidableEq

/-- Turn an error text of compiled code into one with a traceback in front. -/
def toTraceback (text : List Char) : Result Traceback :=
  match textLines text with
  | [] => fail .badIndex
  | first :: rest =>
    let s := sortLines isStackHeading stackLine (first :: rest)
    let message := joinLines s.message.reverse
    let out :=
      if s.frames.isEmpty then message
      else "Traceback (most recent call last):\n".toList ++ joinLines s.frames ++ '\n' :: message
    .ok ⟨out, errorName? first⟩

/-- Drop the first of two error names in front of a message line. -/
def dropOuterName : List Char :=
  match splitAtMost ':' 3 line with
  | _ :: inner :: third :: rest =>
    let inner := strip isBlank inner
    if isErrorName inner then joinWith [':'] (inner :: third :: rest) else line
  | _ => line

/-- Turn an error text with a traceback into one of compiled code, with the stack trace at its
end. -/
def toStackTrace (text : List Char) : Result (List Char) :=
  let s := sortLines isTracebackHeading tracebackLine (textLines text)
  match s.message.reverse with
  | [] => fail .badIndex
  | first :: rest =>
    let message := joinLines (dropOuterName first :: rest)
    if s.frames.isEmpty then .ok message
    else .ok (message ++ "\nStack trace:\n".toList ++ joinLines s.frames ++ ['\n'])

instance : ToReport Traceback where
  toReport t := .record [("message", toReport (String.ofList t.message)),
    ("type", toReport (t.errorName.map String.ofList))]

end TensorToolchain.ErrorText
