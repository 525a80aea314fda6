/-!
# Faults

Every operation of the library that can refuse its input answers with a `Result`. A fault has
a kind, and a message exactly when the refusing operation words one; a fault that arises from
plain arithmetic or from a look-up has a kind alone.
-/

namespace TensorToolchain

/-- What went wrong, without the wording. -/
inductive FaultKind where
  | badValue
  | missingKey
  | badIndex
  | badType
  | missingAttribute
  | failedCheck
  | zeroDivision
  | overflow
  | unset
  | malformedJson
  | malformedText
  | unsupported
  | runtime
  | command
  | badArgument
  | invalidRequest
  | diagnostic
  | system
  | malformed
  | exhausted
  | badAxis
  | missingModule
  | endless
  deriving DecidableEq

/-- A refusal: its kind, and its message if it words one. -/
structure Fault where
  kind : FaultKind
  message : Option String := none
  deriving DecidableEq

namespace Fault

def worded (kind : FaultKind) (message : String) : Fault := ⟨kind, some message⟩

def plain (kind : FaultKind) : Fault := ⟨kind, none⟩

end Fault

abbrev Result := Except Fault

def refuse {α : Type} (kind : FaultKind) (message : String) : Result α := .error (.worded kind message)

def fail {α : Type} (kind : FaultKind) : Result α := .error (.plain kind)

/-- Go on only if the check holds; otherwise refuse with the given wording. -/
def require (check : Bool) (kind : FaultKind) (message : String) : Result Unit :=
  if check then .ok () else refuse kind message

/-- Go on only if the check holds; otherwise refuse without wording. -/
def demand (check : Bool) (kind : FaultKind) : Result Unit := if check then .ok () else fail kind

def orFail {α : Type} (kind : FaultKind) : Option α → Result α
  | some a => .ok a
  | none => fail kind

end TensorToolchain
