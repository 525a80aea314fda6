import TensorToolchain.Text

/-!
# Model formats

The formats that models can be read from, by name and by the suffixes of files.
-/

namespace TensorToolchain.CommandLine

def frontends : List (String × List String) := [
  ("keras", ["h5"]), ("onnx", ["onnx"]), ("pb", ["pb"]), ("tflite", ["tflite"]),
  ("pytorch", ["pth", "zip"]), ("paddle", ["pdmodel"]), ("relay", ["relay"])]

def baseName (path : String) : List Char :=
  let parts := (splitAt '/' path).filter fun part => part != "" && part != "."
  (parts.getLast?.getD "").toList

/-- The suffix of a path, without its dot: what stands after the last dot, if something stands
before and after it. -/
def suffixOf (path : String) : String :=
  let name := baseName path
  let suffix := (name.reverse.takeWhile (· != '.')).reverse
  if suffix.isEmpty || name.length ≤ suffix.length + 1 then "" else .ofList suffix

def guessFrontend (path : String) : Result String :=
  let suffix := lowerCase (suffixOf path)
  match frontends.find? fun f => f.2.contains suffix with
  | some f => .ok f.1
  | none => refuse .command "failed to infer the model format. Please specify --model-format"

def frontendByName (name : String) : Result String :=
  match frontends.find? fun f => f.1 == name with
  | some f => .ok f.1
  | none =>
    refuse .command ("unrecognized frontend '" ++ name ++ "'. Choose from: [" ++
      joined ", " (frontends.map (Text.quoted ·.1)) ++ "]")

end TensorToolchain.CommandLine
