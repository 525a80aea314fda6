import TensorToolchain.Bytes
import TensorToolchain.Json.Parser
import TensorToolchain.Value

/-!
# The server of a project

An error that a server sends has a code, a message and data. The code of server errors stands for
whatever goes wrong while a valid request is served; some of those have a name of their own, which
is then their message.
-/

namespace TensorToolchain.ProjectServer

inductive ErrorCode where | serverError | parseError | invalidRequest | methodNotFound | invalidParams | internalError

def ErrorCode.number : ErrorCode → Int
  | .serverError => -32000
  | .parseError => -32700
  | .invalidRequest => -32600
  | .methodNotFound => -32601
  | .invalidParams => -32602
  | .internalError => -32603

def ErrorCode.all : List ErrorCode :=
  [.serverError, .parseError, .invalidRequest, .methodNotFound, .invalidParams, .internalError]

def ErrorCode.ofJson? (j : Json) : Option ErrorCode :=
  all.find? fun code => (Value.ofJson j).equal (.int code.number)

/-- The server errors with a name of their own. -/
inductive NamedError where | transportClosed | ioTimeout | unsupportedVersion deriving DecidableEq

def NamedError.name : NamedError → String
  | .transportClosed => "TransportClosedError"
  | .ioTimeout => "IoTimeoutError"
  | .unsupportedVersion => "UnsupportedTVMVersionError"

def NamedError.all : List NamedError := [.transportClosed, .ioTimeout, .unsupportedVersion]

/-- What an error is: one of the protocol, a server error, or one with a name. -/
inductive ErrorClass where
  | protocol
  | server
  | named (error : NamedError)
  deriving DecidableEq

def ErrorClass.name : ErrorClass → String
  | .protocol => "JSONRPCError"
  | .server => "ServerError"
  | .named e => e.name

/-- An error, with the context in which a client met it. -/
structure RpcError where
  category : ErrorClass
  (code message : Json)
  data : Json := .null
  context : Json := .null

namespace RpcError

def ofCode (code : ErrorCode) (message : String) : RpcError :=
  { category := .protocol, code := .int code.number, message := .str message }

def toJson (e : RpcError) : Json := .obj [("code", e.code), ("message", e.message), ("data", e.data)]

def dataText (data : Json) : String :=
  if !(Value.ofJson data).truthy then ""
  else
    let trace := data.field "traceback"
    if (Value.ofJson trace).truthy then "\n" ++ (Value.ofJson trace).display
    else "\n" ++ (Value.ofJson data).text

def text (e : RpcError) : String :=
  let context :=
    if e.category = .protocol || e.context.isNull then ""
    else (Value.ofJson e.context).display ++ ": "
  context ++ "JSON-RPC error # " ++ (Value.ofJson e.code).display ++ ": " ++
    (Value.ofJson e.message).display ++ dataText e.data

def member (error : Json) (name : String) : Result Json :=
  match error with
  | .obj _ => orFail .missingKey (error.field? name)
  | _ => fail .badType

def ofJson (context error : Json) : Result RpcError := do
  let code ← member error "code"
  match ErrorCode.ofJson? code with
  | none => refuse .failedCheck ""
  | some .serverError =>
    let message ← member error "message"
    let data := error.field "data"
    let sent := .int ErrorCode.serverError.number
    match NamedError.all.find? fun e => message == .str e.name with
    | some e => return { category := .named e, code := sent, message, data, context }
    | none =>
      require (!message.isNull) .failedCheck "Plain ServerError must have message="
      return { category := .server, code := sent, message, data, context }
  | some _ =>
    let message ← member error "message"
    return { category := .protocol, code, message, data := error.field "data", context }

def report (e : RpcError) : Report :=
  .record [("class", .text e.category.name), ("text", .text e.text), ("json", toReport e.toJson)]

end RpcError

/-! ### Options of a project

What a project tells about an option that its methods take, and the options that every project has
unless it changes them.
-/

structure ProjectOption where
  name : Json
  choices : Json := .null
  default : Json := .null
  type : Json
  required : Json := .null
  optional : Json := .null
  help : Json

namespace ProjectOption

variable (o : ProjectOption)

def fields : List (String × Json) := [
  ("name", o.name), ("choices", o.choices), ("default", o.default), ("type", o.type),
  ("required", o.required), ("optional", o.optional), ("help", o.help)]

def toJson : Json := .obj o.fields

def report : Report := toReport (o.fields.map Prod.snd)

def set? (field : String) (value : Json) : Option ProjectOption :=
  match field with
  | "name" => some { o with name := value }
  | "choices" => some { o with choices := value }
  | "default" => some { o with default := value }
  | "type" => some { o with type := value }
  | "required" => some { o with required := value }
  | "optional" => some { o with optional := value }
  | "help" => some { o with help := value }
  | _ => none

/-- The option with a name and members: methods that take it, its type and its help are needed. -/
def ofFields (name : Json) (members : List (String × Json)) : Result ProjectOption := do
  let given := fun field => members.any (·.1 == field)
  demand (!given "name") .badType
  require (given "required" || given "optional") .failedCheck
    "at least one of 'required' or 'optional' must be specified."
  require (given "type") .failedCheck "'type' field must be specified."
  demand (given "help") .badType
  members.foldlM (fun o (field, value) => orFail .badType (o.set? field value))
    { name, type := .null, help := .null }

def ofJson (j : Json) : Result ProjectOption := do
  let name ← orFail .badType (j.field? "name")
  ofFields name (j.fields.filter (·.1 != "name"))

def replace : Json → Result ProjectOption
  | .obj members => members.foldlM (fun o (field, value) => orFail .badValue (o.set? field value)) o
  | _ => fail .badType

end ProjectOption

def generation : Json := .arr [.str "generate_project"]

def optionalOption (name type : String) (default : Json) (help : String) : ProjectOption :=
  { name := .str name, type := .str type, default, optional := generation, help := .str help }

def requiredOption (name type help : String) : ProjectOption :=
  { name := .str name, type := .str type, required := generation, help := .str help }

def defaultOptions : List ProjectOption := [
  optionalOption "verbose" "bool" (.bool false) "Run build with verbose output.",
  requiredOption "project_type" "str" "Type of project to generate.",
  requiredOption "board" "str" "Name of the board to build for.",
  optionalOption "cmsis_path" "str" .null "Path to the CMSIS directory.",
  optionalOption "warning_as_error" "bool" (.bool false) "Treat warnings as errors and raise an Exception.",
  optionalOption "compile_definitions" "str" .null "Extra definitions added project compile.",
  optionalOption "extra_files_tar" "str" .null ("If given, during generate_project, " ++
      "uncompress the tarball at this path into the project dir.")]

def updateOption (name : String) (changes : Json) : List ProjectOption → Result (List ProjectOption)
  | [] => refuse .badValue ("Option " ++ name ++ " was not found in default ProjectOptions.")
  | o :: rest => do
    if o.name == .str name then return (← o.replace changes) :: rest
    else return o :: (← updateOption name changes rest)

def changedOptions (changes : List (String × Json)) : Result (List ProjectOption) :=
  changes.foldlM (fun options (name, change) => updateOption name change options) defaultOptions

/-! ### Bytes as digits

Four bytes, the highest first, are five digits. A last group of fewer bytes is filled with zero
bytes and gives one digit more than it has bytes; reading fills a last group of fewer digits with
the highest digit and gives one byte fewer than there are digits.
-/

def base85Digits : List Char :=
  ("0123456789ABCDEFGHIJKLMNOPQRSTUVWXYZabcdefghijklmnopqrstuvwxyz" ++ "!#$%&()*+-;<=>?@^_`\x7b|\x7d~").toList

def digit85 (value : Nat) : Char := base85Digits.getD value '0'

def value85? (digit : Char) : Option Nat := base85Digits.findIdx? (· == digit)

/-- The digits of a number in a base, as many as asked for, the highest first. -/
def digitValues (base : Nat) : Nat → Nat → List Nat
  | 0, _ => []
  | count + 1, n => digitValues base count (n / base) ++ [n % base]

def numberOf (base : Nat) (digits : List Nat) : Nat := digits.foldl (fun n d => n * base + d) 0

def groupDigits (bytes : List UInt8) : List Char :=
  (digitValues 85 5 (numberOf 256 (bytes.map UInt8.toNat))).map digit85

/-- The four bytes of five digits, if they are digits and their number fits. -/
def groupBytes? (digits : List Char) : Option (List UInt8) := do
  let n := numberOf 85 (← digits.mapM value85?)
  if n < 4294967296 then some ((digitValues 256 4 n).map .ofNat) else none

def encode85 : List UInt8 → List Char
  | [] => []
  | a :: b :: c :: d :: rest => groupDigits [a, b, c, d] ++ encode85 rest
  | short => (groupDigits (short ++ .replicate (4 - short.length) 0)).take (short.length + 1)

def decode85? : List Char → Option (List UInt8)
  | [] => some []
  | a :: b :: c :: d :: e :: rest => do
    return (← groupBytes? [a, b, c, d, e]) ++ (← decode85? rest)
  | short => do
    let bytes ← groupBytes? (short ++ .replicate (5 - short.length) (digit85 84))
    return bytes.take (short.length - 1)

/-! ### Calls -/

inductive Method where
  | serverInfoQuery
  | generateProject
  | build
  | flash
  | openTransport
  | closeTransport
  | readTransport
  | writeTransport
  /-- What every project carries besides, by its name. -/
  | carried (name : String)

namespace Method

def all : List Method := [
  .serverInfoQuery, .generateProject, .build, .flash, .openTransport, .closeTransport,
  .readTransport, .writeTransport]

def name : Method → String
  | .serverInfoQuery => "server_info_query"
  | .generateProject => "generate_project"
  | .build => "build"
  | .flash => "flash"
  | .openTransport => "open_transport"
  | .closeTransport => "close_transport"
  | .readTransport => "read_transport"
  | .writeTransport => "write_transport"
  | .carried name => name

def underscored (names : String) : List String := (wordsOf names).map fun n => "__" ++ n ++ "__"

/-- Names of what every project carries and can be called without parameters. -/
def carriedNames : List String := underscored
  "class init new repr str eq ne lt le gt ge hash getattribute setattr delattr dir format sizeof reduce
    reduce_ex getstate init_subclass subclasshook"

def ofName? (name : String) : Option Method :=
  (all.find? (·.name == name)).or (if carriedNames.contains name then some (.carried name) else none)

def parameters : Method → List String
  | .serverInfoQuery => ["tvm_version"]
  | .generateProject => ["model_library_format_path", "standalone_crt_dir", "project_dir", "options"]
  | .build | .flash | .openTransport => ["options"]
  | .closeTransport | .carried _ => []
  | .readTransport => ["n", "timeout_sec"]
  | .writeTransport => ["data", "timeout_sec"]

/-- Whether the parameters, all of them objects, are checked before the call. -/
def isChecked : Method → Bool
  | .build | .flash => true
  | _ => false

end Method

/-- A path in normal form: single separators, no steps to the same place and no separator at the
end; two separators in front, and not more, stay two. -/
def pathText (path : String) : String :=
  let chars := path.toList
  let root :=
    match (chars.takeWhile (· == '/')).length with
    | 0 => ""
    | 2 => "//"
    | _ => "/"
  let steps := (splitAt '/' path).filter fun s => !s.isEmpty && s != "."
  let normal := root ++ joined "/" steps
  if normal.isEmpty then "." else normal

inductive Call where
  | serverInfoQuery (version : Json)
  | generateProject (library runtime directory : String) (options : Json)
  | build (options : Json)
  | flash (options : Json)
  | openTransport (options : Json)
  | closeTransport
  | readTransport (count timeout : Json)
  | writeTransport (data : List UInt8) (timeout : Json)
  | carried (name : String)

namespace Call

def method : Call → Method
  | .serverInfoQuery _ => .serverInfoQuery
  | .generateProject .. => .generateProject
  | .build _ => .build
  | .flash _ => .flash
  | .openTransport _ => .openTransport
  | .closeTransport => .closeTransport
  | .readTransport .. => .readTransport
  | .writeTransport .. => .writeTransport
  | .carried name => .carried name

/-- The call of a method with arguments; paths must be texts, and data must be digits. -/
def prepare? (method : Method) (argument : String → Json) : Option Call :=
  let path := fun name => ((argument name).string?).map pathText
  match method with
  | .serverInfoQuery => some (.serverInfoQuery (argument "tvm_version"))
  | .generateProject => do
    return .generateProject (← path "model_library_format_path") (← path "standalone_crt_dir")
      (← path "project_dir") (argument "options")
  | .build => some (.build (argument "options"))
  | .flash => some (.flash (argument "options"))
  | .openTransport => some (.openTransport (argument "options"))
  | .closeTransport => some .closeTransport
  | .readTransport => some (.readTransport (argument "n") (argument "timeout_sec"))
  | .writeTransport => do
    let digits ← (argument "data").string?
    return .writeTransport (← decode85? digits.toList) (argument "timeout_sec")
  | .carried name => some (.carried name)

end Call

structure ServerInfo where
  (platform isTemplate : Json)
  libraryPath : Option String
  options : List ProjectOption

/-- The times in seconds that a client waits on a transport. -/
structure Timeouts where (startRetry start established : Json)

inductive Returned where
  | value (j : Json)
  | info (i : ServerInfo)
  | timeouts (t : Timeouts)
  | bytes (data : List UInt8)
  | unwritable

/-- What a project can raise: a server error or another error of the protocol with its data, one
that cannot be written, any other error, or what is no error at all, such as an interrupt. -/
inductive Failure where
  | server (message data : Json)
  | protocol (code message data : Json)
  | unwritable
  | other
  | interrupt

def Handler : Type := Call → Except Failure Returned

def protocolVersion : Int := 1

def ServerInfo.toJson (i : ServerInfo) : Json :=
  .obj [
    ("platform_name", i.platform), ("is_template", i.isTemplate),
    ("model_library_format_path", (i.libraryPath.map .str).getD .null),
    ("project_options", .arr (i.options.map ProjectOption.toJson)),
    ("protocol_version", .int protocolVersion)]

def Timeouts.toJson (t : Timeouts) : Json :=
  .obj [
    ("session_start_retry_timeout_sec", t.startRetry),
    ("session_start_timeout_sec", t.start),
    ("session_established_timeout_sec", t.established)]

/-- The result that is sent for what a method gives back, if it can be written. -/
def Method.result? : Method → Returned → Option Json
  | .serverInfoQuery, .info i => some i.toJson
  | .openTransport, .timeouts t => some (.obj [("timeouts", t.toJson)])
  | .readTransport, .bytes data => some (.obj [("data", .str (.ofList (encode85 data)))])
  | .writeTransport, _ => some .null
  | .generateProject, .value j | .build, .value j | .flash, .value j | .closeTransport, .value j
  | .carried _, .value j => some j
  | _, _ => none

/-! ### Serving

A request stands on a line. Its method is called with exactly the parameters that it declares. A
line that cannot be read and a request that does not pass the checks end the service. What goes
wrong later is answered by an error, and the service goes on, unless there is no error to be
written: then it breaks down without a reply.
-/

/-- What a server has written and which calls it has made. -/
structure Exchange where
  replies : List Json := []
  calls : List Call := []

/-- What keeps a request from its result. -/
inductive Interruption where
  | refused (error : RpcError)
  | failed (failure : Failure)

abbrev Serving := ExceptT Interruption (StateM Exchange)

structure CheckedRequest where
  method : String
  params : List (String × Json)
  id : Option Json

def isMethodChar (c : Char) : Bool := c.isAlphanum || c == '_'

/-- Whether a text can be the name of a method; one line feed at the end is passed over. -/
def isMethodName (s : String) : Bool :=
  let chars := s.toList
  let body := if chars.getLast? = some '\n' then chars.dropLast else chars
  !body.isEmpty && body.all isMethodChar

def checkRequest (request : Json) : Except RpcError CheckedRequest := do
  let text := fun j => (Value.ofJson j).text
  let invalid := RpcError.ofCode .invalidRequest
  match request with
  | .obj _ => pure ()
  | other => throw (invalid ("request: want dict; got " ++ text other))
  let version := request.field "jsonrpc"
  if version != .str "2.0" then
    throw (invalid ("request[\"jsonrpc\"]: want \"2.0\"; got " ++ text version))
  let method ←
    match request.field "method" with
    | .str s => pure s
    | other => throw (invalid ("request[\"method\"]: want str; got " ++ text other))
  if !isMethodName method then
    throw (invalid ("request[\"method\"]: should match regex ^[a-zA-Z0-9_]+$; got " ++ text (.str method)))
  let params ←
    match request.field "params" with
    | .obj fs => pure fs
    | other => throw (invalid ("request[\"params\"]: want dict; got " ++ other.kindText))
  match request.field "id" with
  | .float _ | .arr _ | .obj _ =>
    throw (invalid ("request[\"id\"]: want str, number, null; got " ++ text (request.field "id")))
  | _ => return { method, params, id := request.field? "id" }

/-- Names that an interface carries and that are no methods of a project. -/
def carriedData : List String := ["_abc_impl", "mro", "register"] ++ Method.underscored
  "doc module dict weakref abstractmethods annotations name qualname mro bases base call subclasses prepare
    instancecheck subclasscheck or ror flags basicsize itemsize dictoffset weakrefoffset"

def refused {α : Type} (code : ErrorCode) (message : String) : Serving α :=
  throw (.refused (.ofCode code message))

def checkExtra (r : CheckedRequest) (declared : List String) : Serving Unit := do
  let extra := (r.params.map Prod.fst).filter (!declared.contains ·)
  if !extra.isEmpty then
    refused .invalidParams (r.method ++ ": extra parameters: " ++ joined ", " extra)

def bindMethod (r : CheckedRequest) : Serving Method := do
  match Method.ofName? r.method with
  | none =>
    if carriedData.contains r.method then throw (.failed .other)
    else refused .methodNotFound (r.method ++ ": no such method")
  | some method =>
    method.parameters.forM fun p => do
      match r.params.lookup p with
      | none => refused .invalidParams ("method " ++ r.method ++ ": parameter " ++ p ++ " not given")
      | some (.obj _) => pure ()
      | some other =>
        if method.isChecked then
          refused .invalidParams ("method " ++ r.method ++ ": parameter " ++ p ++
            ": want <class 'dict'>, got " ++ other.kindText)
    checkExtra r method.parameters
    return method

def invoke (handler : Handler) (call : Call) : Serving Returned := do
  modify fun x => { x with calls := x.calls ++ [call] }
  match handler call with
  | .ok returned => return returned
  | .error failure => throw (.failed failure)

def writeReply (id : Json) (outcome : String × Json) : StateM Exchange Unit :=
  modify fun x => { x with
    replies := x.replies ++ [.obj [("jsonrpc", .str "2.0"), ("id", id), outcome]] }

/-- Do what a request asks for and write its result. The identity of the request is needed only when
the result is written. -/
def dispatch (handler : Handler) (r : CheckedRequest) : Serving Unit := do
  let method ← bindMethod r
  let argument := fun name => (r.params.lookup name).getD .null
  match Call.prepare? method argument with
  | none => throw (.failed .other)
  | some call =>
    let returned ← invoke handler call
    match r.id, method.result? returned with
    | some id, some result => writeReply id ("result", result)
    | _, _ => throw (.failed .other)

def traceData : Json := .obj [("traceback", .str "TRACEBACK")]

def serverCode : Json := .int ErrorCode.serverError.number

/-- The data of a server error with a trace, unless they mention one; none if they cannot take
it. -/
def tracedData? : Json → Option Json
  | .null => some traceData
  | .obj fs => some (.obj (if fs.any (·.1 == "traceback") then fs else fs ++ traceData.fields))
  | .arr xs => if xs.contains (.str "traceback") then some (.arr xs) else none
  | .str s => if Text.occurs "traceback".toList s.toList then some (.str s) else none
  | _ => none

/-- The error that is sent for a failure, if there is one. -/
def Failure.sent? (method : String) : Failure → Option RpcError
  | .server message data => do
    return { category := .server, code := serverCode, message, data := ← tracedData? data }
  | .protocol code message data => some { category := .protocol, code, message, data }
  | .other => some { category := .server, code := serverCode, message := .str ("calling method " ++ method), data := traceData }
  | .unwritable | .interrupt => none

def Interruption.sent? (method : String) : Interruption → Option RpcError
  | .refused e => some e
  | .failed failure => failure.sent? method

/-- A text without its strings, from a position inside or outside of one. -/
def withoutStrings : Bool → List Char → List Char
  | _, [] => []
  | true, '\\' :: _ :: rest => withoutStrings true rest
  | inside, '"' :: rest => ' ' :: withoutStrings (!inside) rest
  | true, _ :: rest => withoutStrings true rest
  | false, c :: rest => c :: withoutStrings false rest

/-- The most digits of an integer that is read. -/
def maxDigits : Nat := 4300

/-- Whether there are too many digits in an integer, of which so many were met; none stands for
another number. -/
def holdsLong : Option Nat → List Char → Bool
  | met, [] => met.any (maxDigits < ·)
  | met, c :: rest =>
    if c.isDigit then holdsLong (met.map (· + 1)) rest
    else if c == '-' then holdsLong met rest
    else if ['.', 'e', 'E', '+'].contains c then holdsLong none rest
    else met.any (maxDigits < ·) || holdsLong (some 0) rest

/-- Whether an integer of a JSON text has too many digits to be read. -/
def hasLongInteger (line : String) : Bool := holdsLong (some 0) (withoutStrings false line.toList)

/-- Send the error of a request that was interrupted, if there is one to be sent. -/
def conclude (r : CheckedRequest) : Except Interruption Unit → StateM Exchange (Option Bool)
  | .ok () => return some true
  | .error i =>
    match i.sent? r.method with
    | some e => do
      writeReply (r.id.getD .null) ("error", e.toJson)
      return some true
    | none => return none

/-- Serve one line: whether the service goes on, or none if it breaks down. -/
def serveLine (handler : Handler) (line : String) : StateM Exchange (Option Bool) := do
  match if hasLongInteger line then none else Json.parse? line with
  | none => return some false
  | some request =>
    match checkRequest request with
    | .error e => do
      writeReply .null ("error", e.toJson)
      return some false
    | .ok r => do conclude r (← (dispatch handler r).run)

/-- Serve lines until the service ends; the answers after each of them. -/
def serveLines (handler : Handler) : List String → StateM Exchange (List Bool)
  | [] => return [false]
  | line :: rest => do
    match ← serveLine handler line with
    | some true => return true :: (← serveLines handler rest)
    | some false => return [false]
    | none => return []

/-! ### Sessions with a project

The reports of a session in which a sample project serves requests.
-/

/-- Lines end with a line feed, a carriage return or both; the last may lack its end. -/
def inputLines : List Char → List (List Char)
  | [] => []
  | '\r' :: '\n' :: rest | '\n' :: rest | '\r' :: rest => [] :: inputLines rest
  | c :: rest =>
    match inputLines rest with
    | [] => [[c]]
    | line :: lines => if rest.isEmpty then [[c]] else (c :: line) :: lines

def sampleBytes (count : Nat) : List UInt8 := (List.range count).map fun i => .ofNat (37 * i + 11)

def sampleProject (options : List ProjectOption) (failures : String → Option String) : Handler :=
  fun call =>
    match failures call.method.name with
    | some "timeout" => .error (.server (.str NamedError.ioTimeout.name) .null)
    | some "closed" => .error (.server (.str NamedError.transportClosed.name) .null)
    | some _ => .error .other
    | none =>
      match call with
      | .serverInfoQuery _ => .ok (.info { platform := .str "plat", isTemplate := .bool true, libraryPath := none, options })
      | .openTransport _ => .ok (.timeouts ⟨.int 1, .int 2, .int 3⟩)
      | .readTransport count _ =>
        match (Value.ofJson count).integer? with
        | some n => .ok (.bytes (sampleBytes n.toNat))
        | none => .error .other
      | .carried name => if name = "__init_subclass__" then .ok (.value .null) else .error .other
      | _ => .ok (.value .null)

def Call.arguments : Call → List (String × Json)
  | .serverInfoQuery version => [("tvm_version", version)]
  | .generateProject library runtime directory options =>
    [("mlf", .str library), ("crt", .str runtime), ("project", .str directory), ("options", options)]
  | .build options | .flash options | .openTransport options => [("options", options)]
  | .closeTransport | .carried _ => []
  | .readTransport count timeout => [("n", count), ("timeout_sec", timeout)]
  | .writeTransport data timeout => [("data", .str (hexText data)), ("timeout_sec", timeout)]

/-- What a project notes of a call of one of its own methods. -/
def Call.report? : Call → Option Report
  | .carried _ => none
  | c => some (.list [.text c.method.name, toReport (Json.obj c.arguments)])

def requestLine : Json → String
  | .str line => line
  | request => request.print

def sessionReport (options requests : List Json) (failures : Json) : Result Report := do
  let options ← options.mapM ProjectOption.ofJson
  let handler := sampleProject options fun m => (failures.field? m).map Json.text
  let input := requests.flatMap fun r => (requestLine r).toList ++ ['\n']
  let (more, exchange) := (serveLines handler ((inputLines input).map .ofList)).run {}
  return .record [
    ("more", toReport more), ("replies", toReport exchange.replies),
    ("calls", .list (exchange.calls.filterMap Call.report?))]

end TensorToolchain.ProjectServer
