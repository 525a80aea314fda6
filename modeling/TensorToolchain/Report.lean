import TensorToolchain.Json.Printer

/-!
# Reports

What an operation answers: a tree of scalars, lists and named fields, in which a fault may stand
in the place of a part that could not be computed.
-/

namespace TensorToolchain

inductive Report where
  | null
  | bool (b : Bool)
  | int (n : Int)
  | float (x : Float)
  | text (s : String)
  | list (items : List Report)
  | record (fields : List (String × Report))
  | fault (f : Fault)
  deriving Inhabited

class ToReport (α : Type) where
  toReport : α → Report

export ToReport (toReport)

instance : ToReport Report := ⟨id⟩
instance : ToReport Bool := ⟨.bool⟩
instance : ToReport Int := ⟨.int⟩
instance : ToReport Nat := ⟨(.int ·)⟩
instance : ToReport Float := ⟨.float⟩
instance : ToReport String := ⟨.text⟩
instance : ToReport Unit := ⟨fun _ => .null⟩

instance {α : Type} [ToReport α] : ToReport (List α) := ⟨fun xs => .list (xs.map toReport)⟩
instance {α : Type} [ToReport α] : ToReport (Array α) := ⟨fun xs => .list (xs.toList.map toReport)⟩

instance {α : Type} [ToReport α] : ToReport (Option α) where
  toReport
    | none => .null
    | some a => toReport a

instance {α β : Type} [ToReport α] [ToReport β] : ToReport (α × β) := ⟨fun p => .list [toReport p.1, toReport p.2]⟩

instance {α : Type} [ToReport α] : ToReport (Result α) where
  toReport
    | .ok a => toReport a
    | .error f => .fault f

namespace Report

mutual

def ofJson : Json → Report
  | .null => .null
  | .bool b => .bool b
  | .int n => .int n
  | .float x => .float x
  | .str s => .text s
  | .arr xs => .list (ofItems xs)
  | .obj fs => .record (ofFields fs)

def ofItems : List Json → List Report
  | [] => []
  | x :: xs => ofJson x :: ofItems xs

def ofFields : List (String × Json) → List (String × Report)
  | [] => []
  | (name, x) :: fs => (name, ofJson x) :: ofFields fs

end

end Report

instance : ToReport Json := ⟨.ofJson⟩

def Report.array (shape : List Nat) (dtype : String) (data : List Report) : Report :=
  .record [("shape", toReport shape), ("dtype", .text dtype), ("data", .list data)]

end TensorToolchain
