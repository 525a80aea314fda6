import TensorToolchain.Keyed
import TensorToolchain.Value

/-!
# The summary of a tracker as text

A table of the servers and a table of the queues.
-/

namespace TensorToolchain.Tracker

structure ServerEntry where
  (address key : String)
  deriving DecidableEq

structure QueueEntry where
  key : String
  (free pending : Int)
  deriving DecidableEq

def ServerEntry.ofJson (j : Json) : Result ServerEntry := do
  let key ← j.member "key"
  let address ← j.member "addr"
  return ⟨joined ":" (address.items.map fun a => (Value.ofJson a).display), key.text⟩

def QueueEntry.ofJson (key : String) (j : Json) : Result QueueEntry := do
  let free ← j.member "free"
  let pending ← j.member "pending"
  return ⟨key, free.integer, pending.integer⟩

/-- The part of the key of a server after its first colon. -/
def ServerEntry.device (s : ServerEntry) : Result String := orFail .badIndex (splitAt ':' s.key)[1]?

def hyphens (n : Nat) : String := .ofList (.replicate n '-') ++ "\n"

def queueTable (queues : List QueueEntry) (devices : List String) : String :=
  let sorted := queues.mergeSort fun a b => a.key ≤ b.key
  let width := (queues.map (·.key.length)).foldl max 0
  let title := padRight width "key" ++ "   total  free  pending\n"
  let line := hyphens title.length
  let rows := sorted.map fun q =>
    let total := devices.count q.key
    if total == 0 && q.pending == 0 then ""
    else padRight width q.key ++ "   " ++ padRight 5 (toString total) ++ "  " ++
      padRight 4 (toString q.free) ++ "  " ++ padRight 7 (toString q.pending) ++ "\n"
  "Queue Status\n" ++ line ++ title ++ line ++ .join rows ++ line

def textSummary (servers : List ServerEntry) (queues : List QueueEntry) : Result String := do
  let sorted := servers.mergeSort fun a b => a.key ≤ b.key
  let devices ← sorted.mapM ServerEntry.device
  let rows := sorted.map fun s => padLeft 21 s.address ++ "    " ++ s.key ++ "\n"
  let line := hyphens 30
  return "Server List\n" ++ line ++ "server-address           key\n" ++ line ++ .join rows ++
    line ++ "\n" ++ queueTable queues devices

def summaryText (j : Json) : Result String := do
  let servers ← (← j.member "server_info").items.mapM ServerEntry.ofJson
  let queues ← (← j.member "queue_info").fields.mapM fun (k, q) => QueueEntry.ofJson k q
  textSummary servers queues

/-- The parts of a key before and after the last occurrence of a delimiter. -/
def splitKey (key delimiter : String) : Result (List String) := do
  demand (!delimiter.isEmpty) .badValue
  let pieces := Text.splitText delimiter.toList.reverse key.toList.reverse
  match pieces with
  | last :: rest@(_ :: _) =>
    return [.ofList (Text.joinWith delimiter.toList.reverse rest).reverse, .ofList last.reverse]
  | _ => return [key]

end TensorToolchain.Tracker
