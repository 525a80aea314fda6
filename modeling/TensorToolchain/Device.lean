import TensorToolchain.Report
import TensorToolchain.Text

/-!
# Devices

A device is a kind and an index, both words of 32 bits. Kinds from 128 on belong to remote
sessions: the session number is counted in steps of 128 above the kind of the device itself.
-/

namespace TensorToolchain

/-- A device: the number of its kind, and its index among the devices of that kind. -/
structure Device where (kind index : Int32)

namespace Device

def kindNames : List (Int × String) := [
  (1, "cpu"), (2, "cuda"), (3, "cuda_host"), (13, "cuda_managed"), (4, "opencl"), (7, "vulkan"),
  (8, "metal"), (9, "vpi"), (10, "rocm"), (11, "rocm_host"), (12, "ext_dev"), (14, "oneapi"),
  (15, "webgpu"), (16, "hexagon"), (32, "aocl"), (33, "sdaccel"), (34, "opengl"),
  (35, "microdev")]

def targetKinds : List (String × Int) :=
  [("llvm stackvm cpu c test hybrid composite", 1), ("cuda nvptx", 2), ("cl opencl sdaccel", 4), ("vulkan", 7),
    ("metal", 8), ("vpi", 9), ("rocm", 10), ("ext_dev", 12), ("webgpu", 15), ("hexagon", 16),
    ("aocl aocl_sw_emu", 32)].flatMap fun (names, kind) => (wordsOf names).map (·, kind)

def sessionMask : Int := 128

def kindOfTarget (target : String) : Result Int :=
  match wordsOf target with
  | [] => fail .badIndex
  | word :: _ =>
    match targetKinds.lookup word with
    | some k => .ok k
    | none => refuse .badValue s!"Unknown device type {word}"

def ofNumbers (kind index : Int) : Device := ⟨.ofInt kind, .ofInt index⟩

/-- The name of a device: the session if it is remote, the kind and the index. -/
def name (d : Device) : Result String :=
  let kind := d.kind.toInt
  let (remote, kind) :=
    if sessionMask ≤ kind then
      (s!"remote[{kind / sessionMask - 1}]:", kind % sessionMask)
    else ("", kind)
  match kindNames.lookup kind with
  | some word => .ok s!"{remote}{word}({d.index.toInt})"
  | none => fail .missingKey

/-- The number of a device kind as given: a target text, or a number cut to an integer. -/
def kindOf : Json → Result Int
  | .str target => kindOfTarget target
  | .int n => .ok n
  | .bool b => .ok (if b then 1 else 0)
  | .float x =>
    match Number.decode x with
    | .finite d => let (n, den) := d.toRatio; .ok (n.tdiv den)
    | .infinite _ => fail .overflow
    | .undefined => fail .badValue
  | _ => fail .badType

def indexOf : Json → Result Int
  | .int n => .ok n
  | .bool b => .ok (if b then 1 else 0)
  | _ => fail .badType

def ofJson (kind index : Json) : Result Device := do
  return ofNumbers (← kindOf kind) (← indexOf index)

def report (d : Device) : Result Report := do
  let text ← d.name
  return .record [("device_type", toReport d.kind.toInt), ("device_id", toReport d.index.toInt),
    ("repr", toReport text)]

end Device

end TensorToolchain
