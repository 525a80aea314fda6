import TensorToolchain.Value

/-!
# Maps of storages

A compiled graph assigns a storage to each of its data entries. The map of its storages lists each
storage once, in the order of first use, with its bytes and with the argument that is bound to it.
-/

namespace TensorToolchain.Firmware

/-- What a graph tells about its storages: the storage of each data entry, shapes, element types,
the nodes that are arguments, and the names of the nodes. -/
structure StoragePlan where
  storages : List Int
  shapes : List (List Int)
  types : List String
  arguments : List Int
  names : List String
  deriving DecidableEq

structure StorageEntry where
  (storage bytes : Int)
  binding : Option String
  deriving DecidableEq

/-- The bytes of elements of some bits, a part of a byte counting as a whole one. -/
def packedBytes (dims : List Int) (bits : Nat) : Int := .fdiv (dims.foldl (· * ·) 1 * bits + 7) 8

/-- The bits of an element type: ASCII letters, then digits; one line feed may follow. -/
def elementBits? (type : String) : Option Nat :=
  let chars := type.toList
  let chars := if chars.getLast? = some '\n' then chars.dropLast else chars
  let letters := chars.takeWhile Char.isAlpha
  let digits := chars.dropWhile Char.isAlpha
  if !letters.isEmpty && !digits.isEmpty && digits.all Char.isDigit then
    some (Number.ofDigits digits)
  else none

/-- The entry of a storage that a node uses first. Shape and element type are those under the number
of the storage. -/
def StoragePlan.entryFor (p : StoragePlan) (node : Nat) (storage : Int) : Result StorageEntry := do
  let dims ← Value.itemAt p.shapes storage
  let type ← Value.itemAt p.types storage
  match elementBits? type with
  | none => refuse .failedCheck ("Exported graph contains unknown dltype " ++ type)
  | some bits =>
    let binding ←
      if p.arguments.contains (node : Int) then
        (orFail .badIndex p.names[node]?).map some
      else pure none
    return { storage, bytes := packedBytes dims bits, binding }

def StoragePlan.entriesFrom (p : StoragePlan) (seen : List Int) (node : Nat) : List Int → Result (List StorageEntry)
  | [] => .ok []
  | storage :: rest =>
    if seen.contains storage then p.entriesFrom seen (node + 1) rest
    else do
      let entry ← p.entryFor node storage
      return entry :: (← p.entriesFrom (storage :: seen) (node + 1) rest)

def StoragePlan.entries (p : StoragePlan) : Result (List StorageEntry) := p.entriesFrom [] 0 p.storages

def storageMember (j : Json) (name : String) : Result Json := orFail .missingKey (j.field? name)

def StoragePlan.ofJson (graph : Json) : Result StoragePlan := do
  let attributes ← storageMember graph "attrs"
  let column := fun name => do
    let list ← storageMember attributes name
    orFail .badIndex list.items[1]?
  let storages ← column "storage_id"
  let shapes ← column "shape"
  let types ← column "dltype"
  let arguments ← storageMember graph "arg_nodes"
  let nodes ← storageMember graph "nodes"
  return {
    storages := storages.items.map Json.integer
    shapes := shapes.items.map (·.items.map Json.integer)
    types := types.items.map Json.text
    arguments := arguments.items.map Json.integer
    names := nodes.items.map fun n => (n.field "name").text }

def storageMap (graph : Json) : Result (List StorageEntry) := do
  (← StoragePlan.ofJson graph).entries

def StorageEntry.report (e : StorageEntry) : Report :=
  .record ([("storage_id", .int e.storage), ("size_bytes", .int e.bytes)] ++
    match e.binding with
    | some name => [("input_binding", .text name)]
    | none => [])

end TensorToolchain.Firmware
