import TensorToolchain.Bytes
import TensorToolchain.Report

/-!
# Packed features

The bytes give the number of records, the sizes of what follows, for each record its statements with
one row of features each, then throughputs and tasks. Every number takes four bytes, the lowest
first. Numbers of single precision are kept by their bits.
-/

namespace TensorToolchain.Tuning

def wordBytes : Nat := 4

def featureCount : Nat := 164

def wordsOf : List UInt8 → List Nat
  | a :: b :: c :: d :: rest => ofLittleEndian [a, b, c, d] :: wordsOf rest
  | _ => []

def readWords (count : Int) (bytes : List UInt8) : Result (List Nat × List UInt8) :=
  let size := wordBytes * count.toNat
  if 0 ≤ count && size ≤ bytes.length then .ok (wordsOf (bytes.take size), bytes.drop size)
  else fail .malformed

def signedWord (word : Nat) : Int := if word < 2147483648 then word else (word : Int) - 4294967296

def decodeSingle (bits : Nat) : Number.Real64 :=
  let negative := bits / 2147483648 == 1
  let biased : Nat := bits / 8388608 % 256
  let fraction := bits % 8388608
  if biased == 255 then
    if fraction == 0 then .infinite negative else .undefined
  else if biased == 0 then .finite ⟨negative, fraction, -149⟩
  else .finite ⟨negative, fraction + 8388608, (biased : Int) - 150⟩

/-- A count that is stored in single precision: a half more, then toward zero. -/
def storedCount (bits : Nat) : Result Int :=
  match decodeSingle bits with
  | .undefined => fail .badValue
  | .infinite _ => fail .overflow
  | .finite d =>
    let (num, den) := d.toRatio
    .ok ((2 * num + den).tdiv (2 * den))

abbrev FeatureRows := List (List Nat)

def readRows : Nat → List UInt8 → Result (FeatureRows × List UInt8)
  | 0, bytes => .ok ([], bytes)
  | count + 1, bytes => do
    let (row, rest) ← readWords featureCount bytes
    let (rows, rest) ← readRows count rest
    return (row :: rows, rest)

def readRecord (size : Int) (bytes : List UInt8) : Result (FeatureRows × List UInt8) := do
  if size = 0 then return ([.replicate featureCount 0], bytes)
  let (head, rest) ← readWords 1 bytes
  let statements ← storedCount (head.headD 0)
  demand (statements != 0) .zeroDivision
  let length := (size - 1).fdiv statements
  require (length == featureCount) .failedCheck
    ("The length of feature vector is wrong. Expected " ++ toString featureCount ++ " but got " ++
      toString length ++ ".")
  require (length * statements == size - 1) .failedCheck ""
  readRows statements.toNat rest

def readRecords : List Int → List UInt8 → Result (List FeatureRows × List UInt8)
  | [], bytes => .ok ([], bytes)
  | size :: sizes, bytes => do
    let (record, rest) ← readRecord size bytes
    let (records, rest) ← readRecords sizes rest
    return (record :: records, rest)

structure Features where
  records : List FeatureRows
  throughputs : List Nat
  tasks : List Int
  deriving DecidableEq

def unpackFeatures (bytes : List UInt8) : Result Features := do
  let (head, rest) ← readWords 1 bytes
  let (sizes, rest) ← readWords (signedWord (head.headD 0) + 2) rest
  let sizes := sizes.map signedWord
  let (records, rest) ← readRecords (sizes.take (sizes.length - 2)) rest
  match sizes.drop (sizes.length - 2) with
  | [throughputCount, taskCount] =>
    let (throughputs, rest) ← readWords throughputCount rest
    let (tasks, rest) ← readWords taskCount rest
    require rest.isEmpty .failedCheck (toString (bytes.length - rest.length) ++ " vs " ++ toString bytes.length)
    return { records, throughputs, tasks := tasks.map signedWord }
  | _ => fail .badIndex

/-! ### Reports -/

def singleValue (bits : Nat) : Float := (Float32.ofBits (.ofNat bits)).toFloat

def rowsShape (rows : FeatureRows) : List Nat := if rows.isEmpty then [0] else [rows.length, featureCount]

def Features.report (f : Features) : Report :=
  let typed := fun type data =>
    .array [data.length] (if data.isEmpty then "float64" else type) data
  .record [
    ("features", toReport (f.records.map rowsShape)),
    ("sums", toReport (f.records.map fun r =>
      r.flatten.foldl (fun s bits => s + singleValue bits) 0.0)),
    ("throughputs", typed "float64" (f.throughputs.map fun b => .float (singleValue b))),
    ("tasks", typed "int64" (f.tasks.map .int))]

/-- The bytes of a number in a format: an integer, or a number of single precision. -/
def packNumber (format : String) (j : Json) : Result (List UInt8) :=
  match format, j with
  | "i", .int n => if -2147483648 ≤ n && n < 2147483648 then .ok (signedBytes wordBytes n) else fail .malformed
  | "i", .bool b => .ok (signedBytes wordBytes (if b then 1 else 0))
  | "i", _ => fail .malformed
  | _, .int n => .ok (littleEndian wordBytes (Number.ofInt n).toFloat32.toBits.toNat)
  | _, .float x => .ok (littleEndian wordBytes x.toFloat32.toBits.toNat)
  | _, _ => fail .malformed

/-- The bytes of a run: a format with numbers, or with one number and how often it stands. -/
def packRun (run : Json) : Result (List UInt8) := do
  let format := (run.item 0).text
  match run.item 1 with
  | .arr items => return (← items.mapM (packNumber format)).flatten
  | j =>
    let bytes ← packNumber format j
    return (List.replicate (run.item 2).integer.toNat bytes).flatten

end TensorToolchain.Tuning
