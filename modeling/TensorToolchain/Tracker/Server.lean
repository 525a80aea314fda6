import TensorToolchain.Bytes
import TensorToolchain.Json.Parser
import TensorToolchain.Keyed
import TensorToolchain.Text

/-!
# A tracker of devices

Frames of a stream, what waits to be sent, requests that wait for a device, and the server of all
three.
-/

namespace TensorToolchain.Tracker

/-! ### Frames

A message is a JSON value. It is sent as the length of its text, in four bytes, and the text. The
receiver of a stream collects bytes and takes out one frame after another.
-/

def textBytes (s : String) : List UInt8 := s.toUTF8.toList

def frameParts (j : Json) : List UInt8 × List UInt8 :=
  let text := textBytes j.print
  (signedBytes 4 text.length, text)

def frame (j : Json) : List UInt8 := (frameParts j).1 ++ (frameParts j).2

def readText (bytes : List UInt8) : Result Json := do
  let text ← orFail .malformedText (String.fromUTF8? ⟨bytes.toArray⟩)
  orFail .malformedJson (Json.parse? text)

/-! ### Receiving a stream -/

/-- The bytes that were received and belong to no complete frame yet; `size` is the length of the
frame at their start, or zero if it is not known yet. -/
structure Receiver where
  buffer : List UInt8 := []
  size : Int := 0
  deriving DecidableEq

namespace Receiver

/-- A position as it is counted in a list: from the end if it is negative. -/
def position (length : Nat) (p : Int) : Nat := (if p < 0 then p + length else p).toNat

/-- The receiver with the length of its frame read, if enough bytes are there. -/
def measured (r : Receiver) : Receiver :=
  if r.size == 0 && 4 ≤ r.buffer.length then { r with size := ofSignedBytes (r.buffer.take 4) } else r

/-- The text of the frame at the start of the buffer, if it is complete, and the receiver after
it. -/
def next (r : Receiver) : Option (List UInt8) × Receiver :=
  let r := r.measured
  if r.size != 0 && r.size + 4 ≤ r.buffer.length then
    let stop := position r.buffer.length (r.size + 4)
    (some ((r.buffer.take stop).drop 4), { buffer := r.buffer.drop stop, size := 0 })
  else (none, r)

def feed (r : Receiver) (chunk : List UInt8) : Receiver := { r with buffer := r.buffer ++ chunk }

def texts : Nat → Receiver → List (List UInt8) × Receiver
  | 0, r => ([], r)
  | fuel + 1, r =>
    match r.next with
    | (none, r) => ([], r)
    | (some text, r) =>
      let (rest, r) := texts fuel r
      (text :: rest, r)

end Receiver

def takeBytes (n : Int) (stream : List UInt8) : Result (List UInt8 × List UInt8) := do
  require (n ≤ stream.length) .system "connection reset"
  return (stream.take n.toNat, stream.drop n.toNat)

def receiveJson (stream : List UInt8) : Result Json := do
  let (length, rest) ← takeBytes 4 stream
  let (text, _) ← takeBytes (ofSignedBytes length) rest
  readText text

/-! ### Writing to a connection

Messages wait in line until the connection takes their bytes. The connection may take a part of a
message, be busy, or break.
-/

/-- What a connection answers when a message is offered: it takes at least one byte and at most all
of them, it is busy, or it is broken. -/
inductive SendAnswer where
  | takes (count : Nat)
  | busy
  | broken
  deriving DecidableEq

/-- The writing side of a connection. `answers` lists what the connection will answer next; after
that it takes everything. -/
structure Outbox where
  pending : List (List UInt8) := []
  taken : List UInt8 := []
  isOpen : Bool := true
  closing : Bool := false
  answers : List SendAnswer := []
  deriving DecidableEq

namespace Outbox

def takenCount (message : List UInt8) (count : Nat) : Nat :=
  if message.isEmpty then 0 else min (max 1 count) message.length

variable (o : Outbox)

def offer (message : List UInt8) (rest : List (List UInt8)) : Outbox × Bool :=
  match o.answers with
  | [] => ({ o with pending := rest, taken := o.taken ++ message }, true)
  | .takes count :: answers =>
    let n := takenCount message count
    let pending := if n == message.length then rest else message.drop n :: rest
    ({ o with pending, taken := o.taken ++ message.take n, answers }, true)
  | .busy :: answers => ({ o with answers }, false)
  | .broken :: answers => ({ o with answers, isOpen := false }, false)

/-- Offer messages until none is left or the connection takes no more. A connection that is to be
closed is closed when none is left. -/
def flushFor : Nat → Outbox → Outbox
  | 0, o => o
  | fuel + 1, o =>
    match o.pending with
    | [] => if o.closing then { o with isOpen := false } else o
    | message :: rest =>
      match o.offer message rest with
      | (o, true) => flushFor fuel o
      | (o, false) => o

def flushBound : Nat := (o.pending.map (·.length + 1)).foldl (· + ·) 0 + 1

def flush : Outbox := o.flushFor o.flushBound

def write (message : List UInt8) : Result Outbox := do
  require o.isOpen .system "socket is already closed"
  return flush { o with pending := o.pending ++ [message] }

def signalClose : Outbox := if o.pending.isEmpty then { o with isOpen := false } else { o with closing := true }

end Outbox

/-! ### Matching values with bids

The free value that waits longest goes to the bid of the highest priority, among equals to the
first.

Each value has a key that its owner awaits until the value is accepted. A request that refuses a
value is dropped, and the value is free again.
-/

/-- Priorities, with whether one is strictly above another. -/
class Ranked (π : Type) where
  above : π → π → Bool

instance : Ranked Int := ⟨fun a b => decide (b < a)⟩

instance : Ranked Number.Scalar := ⟨fun a b => b.less a⟩

/-- A bid to a value: its priority, when it came, and whose it is. -/
structure Bid (π ρ : Type) where
  priority : π
  arrival : Nat
  holder : ρ
  deriving DecidableEq

def Bid.precedes {π ρ : Type} [Ranked π] (a b : Bid π ρ) : Bool :=
  Ranked.above a.priority b.priority || (!Ranked.above b.priority a.priority && decide (a.arrival < b.arrival))

def takeFirst {π ρ : Type} [Ranked π] : List (Bid π ρ) → Option (Bid π ρ × List (Bid π ρ))
  | [] => none
  | c :: rest =>
    match takeFirst rest with
    | none => some (c, rest)
    | some (d, others) => if d.precedes c then some (d, c :: others) else some (c, rest)

/-- A value that was handed to a bid, and whether it was accepted. -/
structure Call (π ν ρ : Type) where
  value : ν
  bid : Bid π ρ
  accepted : Bool
  deriving DecidableEq

/-- The values that are free and the bids that wait, in order of arrival. -/
structure Scheduler (π ν ρ : Type) where
  free : List ν := []
  bids : List (Bid π ρ) := []
  arrivals : Nat := 0

namespace Scheduler

variable {π ν ρ : Type}

/-- The value and the bid that are brought together next, and the scheduler without them. -/
def turn [Ranked π] (s : Scheduler π ν ρ) : Option (ν × Bid π ρ × Scheduler π ν ρ) :=
  match s.free, takeFirst s.bids with
  | value :: free, some (bid, bids) => some (value, bid, { s with free, bids })
  | _, _ => none

def put (s : Scheduler π ν ρ) (value : ν) : Scheduler π ν ρ := { s with free := s.free ++ [value] }

def bid (s : Scheduler π ν ρ) (priority : π) (holder : ρ) : Scheduler π ν ρ :=
  { s with bids := s.bids ++ [⟨priority, s.arrivals, holder⟩], arrivals := s.arrivals + 1 }

def remove [BEq ν] (s : Scheduler π ν ρ) (value : ν) : Scheduler π ν ρ := { s with free := s.free.erase value }

end Scheduler

/-! ### A scheduler on its own -/

/-- How values and requests behave: the key under which a value is awaited, and whether a request
accepts a value after the calls that were made before. -/
structure Terms (π ν ρ κ : Type) where
  key : ν → κ
  accepts : List (Call π ν ρ) → ν → Bid π ρ → Bool

/-- A scheduler, the keys that are awaited, and the calls made so far. -/
structure Exchange (π ν ρ κ : Type) where
  pool : Scheduler π ν ρ := {}
  awaited : List κ := []
  calls : List (Call π ν ρ) := []

inductive Order (π ν ρ : Type) where
  | put (value : ν)
  | request (priority : π) (holder : ρ)
  | remove (value : ν)
  deriving DecidableEq

namespace Exchange

variable {π ν ρ κ : Type} [Ranked π] [BEq κ]

/-- Hand out free values while requests wait, for at most so many requests. -/
def settleFor (terms : Terms π ν ρ κ) : Nat → Exchange π ν ρ κ → Exchange π ν ρ κ × Option Fault
  | 0, x => (x, none)
  | fuel + 1, x =>
    match x.pool.turn with
    | none => (x, none)
    | some (value, bid, pool) =>
      let accepted := terms.accepts x.calls value bid
      let call : Call π ν ρ := ⟨value, bid, accepted⟩
      let x := { x with pool, calls := x.calls ++ [call] }
      if !accepted then settleFor terms fuel { x with pool := pool.put value }
      else if x.awaited.contains (terms.key value) then
        settleFor terms fuel { x with awaited := x.awaited.erase (terms.key value) }
      else (x, some (.plain .missingKey))

def settle (terms : Terms π ν ρ κ) (x : Exchange π ν ρ κ) : Exchange π ν ρ κ × Option Fault :=
  x.settleFor terms x.pool.bids.length

def await (x : Exchange π ν ρ κ) (key : κ) : Exchange π ν ρ κ :=
  if x.awaited.contains key then x else { x with awaited := x.awaited ++ [key] }

def perform [BEq ν] (terms : Terms π ν ρ κ) (x : Exchange π ν ρ κ) : Order π ν ρ → Exchange π ν ρ κ × Option Fault
  | .put value => settle terms { x.await (terms.key value) with pool := x.pool.put value }
  | .request priority holder => settle terms { x with pool := x.pool.bid priority holder }
  | .remove value =>
    if x.pool.free.contains value then settle terms { x with pool := x.pool.remove value }
    else (x, none)

end Exchange

/-! ### The tracker

Servers offer themselves to the tracker under a key, and clients ask it for a server of a key. Each
connection greets first and then sends framed messages. A connection that goes away takes its offers
with it.
-/

open Number (Scalar)

/-! ### Messages to the tracker

A message is a list with a code in front and what the code needs after it.
-/

inductive Message where
  | ping
  | stop (key : Json)
  | put (key port matchKey : Json) (host : Option Json)
  | request (key priority : Json)
  | update (info : List (String × Json))
  | summary
  | matchKeys
  | unknown

def failCode : Json := .int (-1)

def successCode : Json := .int 0

def codeOf : Json → Option Int
  | .int n => some n
  | .bool b => some (if b then 1 else 0)
  | .float x => if Number.ofInt (Number.truncate? x |>.getD 0) == x then Number.truncate? x else none
  | _ => none

def headOf : Json → Result Json
  | .arr (x :: _) => .ok x
  | .arr [] => fail .badIndex
  | .str s =>
    match s.toList with
    | c :: _ => .ok (.str (.ofList [c]))
    | [] => fail .badIndex
  | .obj _ => fail .missingKey
  | _ => fail .badType

def pairOf : Json → Result (Json × Json)
  | .arr [a, b] => .ok (a, b)
  | .arr _ => fail .badValue
  | .str s =>
    match s.toList with
    | [a, b] => .ok (.str (.ofList [a]), .str (.ofList [b]))
    | _ => fail .badValue
  | .obj fields =>
    match fields with
    | [(a, _), (b, _)] => .ok (.str a, .str b)
    | _ => fail .badValue
  | _ => fail .badType

def isKeyValue : Json → Bool
  | .arr _ | .obj _ => false
  | _ => true

def priorityOf : Json → Result Scalar
  | .int n => .ok (.int n)
  | .float x => .ok (.float x)
  | .bool b => .ok (.int (if b then 1 else 0))
  | _ => fail .badType

def Message.ofJson (j : Json) : Result Message := do
  let code ← headOf j
  let argument := fun i => orFail .badIndex j.items[i]?
  match codeOf code with
  | some 1 => return .ping
  | some 2 => return .stop (← argument 1)
  | some 3 =>
    let key ← argument 1
    let (port, matchKey) ← pairOf (← argument 2)
    return .put key port matchKey (j.items[3]?.filter fun h => !h.isNull)
  | some 4 =>
    let key ← argument 1
    let _ ← argument 2
    return .request key (← argument 3)
  | some 5 =>
    match ← argument 1 with
    | .obj fields => return .update fields
    | _ => refuse .failedCheck ""
  | some 6 => return .summary
  | some 7 => return .matchKeys
  | _ => return .unknown

/-- Information about a server with its own host filled in where its address has none. -/
def fillAddress (info : List (String × Json)) (host : String) : Result (List (String × Json)) := do
  match ← headOf (← orFail .missingKey (info.lookup "addr")) with
  | .null =>
    return info.map fun (name, value) =>
      match name, value with
      | "addr", .arr (_ :: rest) => (name, .arr (.str host :: rest))
      | _, _ => (name, value)
  | _ => return info

def magic : Int := 0x2F271

/-- A server that is offered: which connection offers it, where it is, and the key that a client has
to show. -/
structure Offer where
  owner : Nat
  (host port matchKey : Json)
  deriving DecidableEq, Inhabited

structure Connection where
  host : String
  outbox : Outbox := {}
  receiver : Receiver := {}
  greeted : Bool := false
  registered : Bool := true
  info : Keyed String Json := {}
  matchKeys : List Json := []
  offers : List Offer := []
  deriving Inhabited

abbrev Pool := Scheduler Scalar Offer Nat

/-- The tracker: its connections in order of arrival, its schedulers, and the calls by which it has
handed offers to connections. -/
structure Server where
  stopKey : String
  connections : List Connection := []
  pools : List (Json × Pool) := []
  calls : List (Call Scalar Offer Nat) := []

/-- Steps of the tracker, whose effects stay when they fail. -/
abbrev Tracking := ExceptT Fault (StateM Server)

def orStop {α : Type} (result : Result α) : Tracking α := .mk (pure result)

variable (s : Server)

def Server.connection (c : Nat) : Connection := s.connections.getD c { host := "" }

def Server.update (c : Nat) (f : Connection → Connection) : Server := { s with connections := s.connections.modify c f }

def Server.pool (key : Json) : Pool :=
  match s.pools.find? fun p => p.1 == key with
  | some p => p.2
  | none => {}

def Server.setPool (key : Json) (pool : Pool) : Server :=
  if s.pools.any fun p => p.1 == key then
    { s with pools := s.pools.map fun p => if p.1 == key then (p.1, pool) else p }
  else { s with pools := s.pools ++ [(key, pool)] }

def Server.bidCount : Nat := (s.pools.flatMap (·.2.bids)).length

def connection (c : Nat) : Tracking Connection := return (← get).connection c

def update (c : Nat) (f : Connection → Connection) : Tracking Unit := modify (·.update c f)

def updatePool (key : Json) (f : Pool → Pool) : Tracking Unit := modify fun s => s.setPool key (f (s.pool key))

/-! ### Closing and writing

A connection that is closed withdraws its offers, and then what is free is handed out again. How to
hand out is a parameter here: handing out writes, and a connection may break while it is written to.
-/

def poolKey (matchKey : Json) : Result String :=
  match matchKey with
  | .str s =>
    let reversed := s.toList.reverse
    match reversed.dropWhile (· != ':') with
    | [] => fail .badValue
    | _ :: before => .ok (.ofList before.reverse)
  | _ => fail .missingAttribute

section Closing

variable (settle : Json → Tracking Unit)

def withdraw (offer : Offer) : Tracking Unit := do
  let key := .str (← orStop (poolKey offer.matchKey))
  let s ← get
  if !s.pools.any fun p => p.1 == key then throw (.plain .missingKey)
  if (s.pool key).free.contains offer then
    updatePool key (·.remove offer)
    settle key

/-- Forget a connection that has been closed, and withdraw its offers. -/
def release (c : Nat) : Tracking Unit := do
  let x ← connection c
  update c fun x => { x with registered := false }
  if x.info.contains "key" then x.offers.forM (withdraw settle)

def close (c : Nat) : Tracking Unit := do
  if (← connection c).outbox.isOpen then
    update c fun x => { x with outbox := { x.outbox with isOpen := false } }
    release settle c

/-- Replace the writing side of a connection, and forget the connection if it broke. -/
def setOutbox (c : Nat) (outbox : Outbox) : Tracking Unit := do
  update c fun x => { x with outbox }
  if !outbox.isOpen then release settle c

def write (c : Nat) (bytes : List UInt8) : Tracking Unit := do
  setOutbox settle c (← orStop ((← connection c).outbox.write bytes))

def reply (c : Nat) (value : Json) : Tracking Unit := do
  let (size, text) := frameParts value
  write settle c size
  write settle c text

end Closing

/-! ### Handing out servers -/

def Offer.message (offer : Offer) : Json := .arr [successCode, .arr [offer.host, offer.port, offer.matchKey]]

/-- Go on with another step if the system refuses the first. -/
def orElse {α : Type} (step other : Tracking α) : Tracking α :=
  tryCatch step fun f => if f.kind = .system then other else throw f

/-- Hand an offer over to a connection: whether it took the reply. -/
def handOver (settle : Json → Tracking Unit) (offer : Offer) (c : Nat) : Tracking Bool := do
  if !(← connection c).outbox.isOpen then return false
  orElse (do reply settle c offer.message; return true) (return false)

/-- Strike the key of an offer that was accepted off the keys that its owner awaits. -/
def strike (offer : Offer) : Tracking Unit := do
  if !(← connection offer.owner).matchKeys.contains offer.matchKey then
    throw (.plain .missingKey)
  update offer.owner fun x => { x with matchKeys := x.matchKeys.erase offer.matchKey }

/-- Hand out the free offers of a key while bids wait, for at most so many bids. -/
def settleFor : Nat → Json → Tracking Unit
  | 0, _ => pure ()
  | fuel + 1, key => do
    match ((← get).pool key).turn with
    | none => pure ()
    | some (offer, bid, pool) =>
      updatePool key fun _ => pool
      let accepted ← handOver (settleFor fuel) offer bid.holder
      modify fun s => { s with calls := s.calls ++ [⟨offer, bid, accepted⟩] }
      if accepted then strike offer
      else updatePool key (·.put offer)
      settleFor fuel key

def settle (key : Json) : Tracking Unit := do settleFor (← get).bidCount key

/-! ### Messages -/

def keyText : Json → String
  | .str s => s
  | j => j.print

def Connection.isServer (x : Connection) : Result Bool :=
  match x.info.get? "key" with
  | none => .ok false
  | some (.str key) => .ok (startsWith "server" key)
  | some _ => fail .missingAttribute

def Server.serverInfo : Result (List Json) := do
  let servers ← (s.connections.filter Connection.registered).filterM Connection.isServer
  return servers.map (.obj ·.info.entries)

def Server.summary : Result Json := do
  let queues := s.pools.map fun (key, p) =>
    (keyText key, .obj [("free", .int p.free.length), ("pending", .int p.bids.length)])
  return .obj [("queue_info", .obj queues), ("server_info", .arr (← s.serverInfo))]

def handlePut (c : Nat) (key port matchKey : Json) (host : Option Json) : Tracking Unit := do
  let x ← connection c
  if !isKeyValue matchKey then throw (.plain .badType)
  update c fun x =>
    { x with matchKeys := if x.matchKeys.contains matchKey then x.matchKeys else x.matchKeys ++ [matchKey] }
  if !isKeyValue key then throw (.plain .badType)
  let offer : Offer := { owner := c, host := host.getD (.str x.host), port, matchKey }
  updatePool key (·.put offer)
  settle key
  update c fun x => { x with offers := x.offers ++ [offer] }
  reply settle c successCode

def handleRequest (c : Nat) (key priority : Json) : Tracking Unit := do
  if !isKeyValue key then throw (.plain .badType)
  match priorityOf priority with
  | .error f =>
    updatePool key id
    throw f
  | .ok rank =>
    updatePool key (·.bid rank c)
    settle key

def stopServer : Tracking Unit := do
  let s ← get
  let registered := (List.range s.connections.length).filter fun c => (s.connection c).registered
  registered.forM (close settle)

def handle (c : Nat) (message : Message) : Tracking Unit := do
  match message with
  | .put key port matchKey host => handlePut c key port matchKey host
  | .request key priority => handleRequest c key priority
  | .ping => reply settle c successCode
  | .matchKeys => reply settle c (.arr (← connection c).matchKeys)
  | .stop key =>
    if key == .str (← get).stopKey then
      reply settle c successCode
      stopServer
    else reply settle c failCode
  | .update info =>
    let info ← orStop (fillAddress info (← connection c).host)
    update c fun x => { x with info := x.info.merge ⟨info⟩ }
    reply settle c successCode
  | .summary => reply settle c (.arr [successCode, ← orStop (← get).summary])
  | .unknown => close settle c

def handleValue (c : Nat) (value : Json) : Tracking Unit := do
  handle c (← orStop (Message.ofJson value))

/-! ### Bytes -/

def greet (c : Nat) (bytes : List UInt8) : Tracking Unit := do
  if bytes.length != 4 then
    close settle c
    throw (.plain .malformed)
  if ofSignedBytes bytes != magic then close settle c
  write settle c (signedBytes 4 magic)
  update c fun x => { x with greeted := true }

section Receiving

variable (answer : Json → Tracking Unit)

def handleFrames (c : Nat) : Nat → Tracking Unit
  | 0 => pure ()
  | fuel + 1 => do
    let (text, receiver) := (← connection c).receiver.next
    update c fun x => { x with receiver }
    match text with
    | none => pure ()
    | some text =>
      answer (← orStop (readText text))
      handleFrames c fuel

/-- Take a chunk of bytes from a connection and answer each value in it. -/
def receiveWith (c : Nat) (chunk : List UInt8) : Tracking Unit := do
  if !(← connection c).greeted then greet c chunk
  else
    update c fun x => { x with receiver := x.receiver.feed chunk }
    handleFrames answer c ((← connection c).receiver.buffer.length + 1)

end Receiving

def receive (c : Nat) (chunk : List UInt8) : Tracking Unit := receiveWith (handleValue c) c chunk

def receiveAll (c : Nat) (chunks : List (List UInt8)) : Tracking Unit := chunks.forM (receive c)

def connect (host : String) (answers : List SendAnswer) : Tracking Nat := do
  let s ← get
  let new : Connection := { host, outbox := { answers } }
  set { s with connections := s.connections ++ [new] }
  return s.connections.length

/-! ### Events -/

/-- What happens to a tracker: a connection comes, has sent a chunk of bytes, takes bytes again, or
goes away. -/
inductive Event where
  | connect (host : String) (answers : List SendAnswer)
  | chunk (c : Nat) (bytes : List UInt8)
  | writable (c : Nat)
  | hangUp (c : Nat)
  deriving DecidableEq

/-- React to an event. Nothing happens to a connection that is closed; one that the system refuses
to read is closed. -/
def react : Event → Tracking Unit
  | .connect host answers => do let _ ← connect host answers
  | .chunk c bytes => do
    if (← connection c).outbox.isOpen then orElse (receive c bytes) (close settle c)
  | .writable c => do
    let x ← connection c
    if x.outbox.isOpen then setOutbox settle c x.outbox.flush
  | .hangUp c => close settle c

/-- The tracker after an event; what was done before a failure stays. -/
def Server.after (event : Event) : Server := ((react event).run.run s).2

end TensorToolchain.Tracker
