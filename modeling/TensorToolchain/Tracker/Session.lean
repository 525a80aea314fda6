import TensorToolchain.Tracker.Server
import TensorToolchain.Value

/-!
# Sessions with a tracker

Steps on one tracker and on one scheduler, with a report after each of them.
-/

namespace TensorToolchain.Tracker

open Number (Scalar)

structure Session where
  server : Server
  names : Keyed String Nat := {}

/-- Cut bytes into pieces of given sizes; the rest is the last piece. -/
def cutAt : List Nat → List UInt8 → List (List UInt8)
  | [], bytes => if bytes.isEmpty then [] else [bytes]
  | n :: sizes, bytes => bytes.take n :: cutAt sizes (bytes.drop n)

def Session.act (s : Session) (step : Json) : Session × Option Fault :=
  let name := (step.item 1).text
  let c := (s.names.get? name).getD s.server.connections.length
  let run := fun names t =>
    let (result, server) := t.run.run s.server
    ({ server, names }, match result with | .ok _ => none | .error f => some f)
  let joining := fun bytes => run (s.names.set name s.server.connections.length) do
    receive (← connect (step.item 2).text []) bytes
  match (step.item 0).text with
  | "connect" => joining (signedBytes 4 magic)
  | "connect_raw" => joining ((ofHex (step.item 3).text.toList).getD [])
  | "send" => run s.names (receive c (frame (step.item 2)))
  | "chunks" =>
    let bytes := (step.item 2).items.flatMap frame
    run s.names (receiveAll c (cutAt ((step.item 3).items.map (·.integer.toNat)) bytes))
  | _ => run s.names (close settle c)

/-! ### Reports of a tracker -/

def ordered : Json → Json
  | .arr items =>
    if items.all fun x => x.string?.isSome then
      .arr (items.mergeSort fun a b => a.text ≤ b.text)
    else
      .arr (items.map fun x =>
        match x with
        | .obj fields => .obj (fields.map fun (name, v) =>
          if name == "server_info" then (name, .arr (v.items.mergeSort fun a b => a.print ≤ b.print))
          else (name, v))
        | x => x)
  | j => j

/-- The messages in bytes that were sent; the first bytes of a connection greet. -/
def sentMessages (earlier : Nat) (bytes : List UInt8) : List Report :=
  let greeting := earlier == 0 && !bytes.isEmpty
  let rest := if greeting then bytes.drop 4 else bytes
  let (texts, _) := ({ buffer := rest : Receiver }).texts (rest.length + 1)
  (if greeting then [.text "magic"] else []) ++ texts.map fun t =>
    match readText t with
    | .ok j => toReport (ordered j)
    | .error f => .fault f

/-- What a step leaves behind: everything but the information about the servers, which is shown as
it is at the end. -/
structure StepReport where
  fault : Option Fault
  sent : List (String × List Report)
  closed : List String
  queue : List (Json × Nat × Nat)
  servers : List Nat
  matchKeys : List (String × List String)

def Session.servers (s : Session) : List Nat :=
  let entries := s.server.connections.zipIdx.filter fun (x, _) => x.registered && (x.isServer.toOption.getD false)
  let text := fun x => (Json.obj (x.info.entries.mergeSort fun a b => a.1 ≤ b.1)).print
  ((entries.map fun (x, c) => (text x, c)).mergeSort fun a b => a.1 ≤ b.1).map Prod.snd

def Session.stepReport (before after : Session) (fault : Option Fault) : StepReport :=
  let earlier := fun c => (before.server.connection c).outbox.taken.length
  let current := (after.server.connection ·)
  { fault
    sent := after.names.entries.filterMap fun (name, c) =>
      let bytes := (current c).outbox.taken
      if earlier c < bytes.length then
        some (name, sentMessages (earlier c) (bytes.drop (earlier c)))
      else none
    closed := (after.names.entries.filter fun (_, c) => !(current c).outbox.isOpen).map Prod.fst
    queue := after.server.pools.map fun (key, p) => (key, p.free.length, p.bids.length)
    servers := after.servers
    matchKeys := after.names.entries.map fun (name, c) =>
      (name, ((current c).matchKeys.map fun k => (Value.ofJson k).display).mergeSort) }

def StepReport.report (r : StepReport) (last : Server) : Report :=
  .record [
    ("error", match r.fault with | some f => .fault f | none => .null),
    ("sent", .record (r.sent.map fun (name, messages) => (name, .list messages))),
    ("closed", toReport r.closed),
    ("queue", .list (r.queue.map fun (key, free, pending) => .list [toReport key, .int free, .int pending])),
    ("servers", .list (r.servers.map fun c => toReport (Json.obj (last.connection c).info.entries))),
    ("matchkeys", .record (r.matchKeys.map fun (name, keys) => (name, toReport keys)))]

def Session.runSteps (s : Session) : List Json → List StepReport × Session
  | [] => ([], s)
  | step :: rest =>
    let (next, fault) := s.act step
    let (reports, last) := next.runSteps rest
    (s.stepReport next fault :: reports, last)

def sessionReport (stopKey : String) (steps : List Json) : Report :=
  let (reports, last) := ({ server := { stopKey } : Session }).runSteps steps
  .list (reports.map (·.report last.server))

/-! ### Steps on a scheduler -/

structure Slot where
  (address matchKey : Json)
  deriving DecidableEq

structure Bidder where
  user : Json
  accepts : Bool
  deriving DecidableEq

abbrev Desk := Exchange Scalar Slot Bidder Json

/-- A slot is awaited by its key, and a bidder has decided beforehand. -/
def slotTerms : Terms Scalar Slot Bidder Json := ⟨Slot.matchKey, fun _ _ bid => bid.holder.accepts⟩

def Exchange.act (d : Desk) (step : Json) : Desk × Option Fault :=
  let slot : Slot := ⟨step.item 1, step.item 2⟩
  match (step.item 0).text with
  | "put" => d.perform slotTerms (.put slot)
  | "request" =>
    match priorityOf (step.item 2) with
    | .error f => (d, some f)
    | .ok priority => d.perform slotTerms (.request priority ⟨step.item 1, decide (0 < (step.item 3).integer)⟩)
  | _ => d.perform slotTerms (.remove slot)

def callReport (call : Call Scalar Slot Bidder) : Report :=
  .list [toReport call.bid.holder.user, toReport [call.value.address, call.value.matchKey], .bool call.accepted]

/-- The report of a step of a scheduler, given the calls before it. -/
def Exchange.report (d : Desk) (earlier : Nat) (fault : Option Fault) : Report :=
  .list [
    match fault with | some f => .fault f | none => .null,
    .record [("free", .int d.pool.free.length), ("pending", .int d.pool.bids.length)],
    .list ((d.calls.drop earlier).map callReport),
    toReport ((d.awaited.map fun k => (Value.ofJson k).display).mergeSort)]

def Exchange.runSteps (d : Desk) : List Json → List Report
  | [] => []
  | step :: rest =>
    let (next, fault) := d.act step
    next.report d.calls.length fault :: next.runSteps rest

end TensorToolchain.Tracker
