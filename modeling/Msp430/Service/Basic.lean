import Msp430.Instance.Registry
import Msp430.Service.Answer

/-!
# The service

The instances behind the calls that clients make. A call is carried out between two instructions of the
instance that it is about; afterwards the running instances may go on.
-/

namespace Msp430

structure Service where
  config : InstanceConfig := {}
  registry : Registry := {}
  shared : Shared := {}

instance : Inhabited Service := ⟨{}⟩

abbrev Handler (α : Type) := EStateM Failure Service α

namespace Service

/-- The member of a name, made if there is none. The metrics show how many there are. -/
def enroll (name : String) (made : Except ε Instance) : EStateM ε Service Member := fun s =>
  match s.registry.enroll name made with
  | .ok member registry =>
    let metrics := { s.shared.metrics with instances := registry.size }
    .ok member { s with registry, shared := { s.shared with metrics } }
  | .error e registry => .error e { s with registry }

/-- The instance of a name, made if there is none. -/
def lookup (name : String) : Handler Instance := fun s =>
  match s.enroll name (Instance.build name s.config) with
  | .ok member s => .ok member.cpu s
  | .error f s => .error (.control (.cpu f)) s

/-- Puts back an instance and what it shares. -/
def withBench (s : Service) (name : String) (b : Bench) : Service :=
  { s with registry := s.registry.update name b.cpu, shared := b.shared }

/-- Asks the instance of a name. -/
def ask (name : String) (r : Request) : Handler Reply := do
  let cpu ← lookup name
  fun s =>
    let (reply, b) := r.ask { cpu, shared := s.shared }
    let s := s.withBench name b
    match reply with
    | some (.ok reply) => .ok reply s
    | some (.error e) => .error (.control e) s
    | none => .error .noReply s

/-- Uses the store without an instance. -/
def submit (job : KeyValue.Job α) : Handler α := fun s =>
  match job s.shared.store with
  | .ok v store => .ok v { s with shared := { s.shared with store } }
  | .error e store => .error (.control (.store e)) { s with shared := { s.shared with store } }

/-! ### Addresses -/

/-- Drops every leading `0x`. -/
def dropMarks : List Char → List Char
  | '0' :: 'x' :: rest => dropMarks rest
  | cs => cs

/-- The address that a text spells in hexadecimal digits. -/
def parseAddress (text : String) : Except Numeral.Defect UInt16 :=
  (Numeral.read 16 0xFFFF (dropMarks text.toList)).map .ofNat

def address (text : String) : Handler UInt16 :=
  match parseAddress text with
  | .ok a => return a
  | .error cause => throw (.badAddress text cause)

/-! ### Calls -/

/-- Carries out a call and gives its data. -/
def perform : Call → Handler Json
  | .names => return .array ((← get).registry.names.map .text)
  | .status name => do return (← ask name .status).toJson
  | .registers name => do return (← ask name .registers).toJson
  | .setRegisters name values => do
    let _ ← ask name (.setRegisters values)
    return (← ask name .registers).toJson
  | .memory name text length => do
    let a ← address text
    let content ← ask name (.readMemory a length)
    return .record [("address", .word a), ("data", content.toJson)]
  | .listing name text count => do
    let a ← address text
    return (← ask name (.disassemble a count)).toJson
  | .breakpoints name => do return (← ask name .breakpoints).toJson
  | .setBreakpoint name text kind => do
    let a ← address text
    let _ ← ask name (match kind with | some k => .setBreakpoint a k | none => .clearBreakpoint a)
    return .null
  | .load name key => do return (← ask name (.loadImage key)).toJson
  | .input name text => do
    submit (KeyValue.set (Peripheral.input.key name) (Utf8.ofString text))
    return .null
  | .output name => do
    let content ← submit (KeyValue.get (Peripheral.output.key name))
    return .text (Utf8.decodeLossy (content.getD []))
  | .debugLog name => do
    let entries ← submit (KeyValue.range (Peripheral.debugLog.key name) 0 (-1))
    return .array (entries.map fun e => .text (Utf8.decodeLossy e))
  | .control action name => do
    let _ ← ask name action.request
    return (← ask name .status).toJson
  | .metrics => return .null

def recordRequest (s : Service) (call : Call) (status : Nat) : Service :=
  let label := { method := call.endpoint.method, endpoint := call.endpoint.pattern, status }
  { s with shared := { s.shared with metrics := s.shared.metrics.recordRequest label } }

/-- The answer to a call. Metrics show what was before their own request. -/
def answer (call : Call) (s : Service) : Option Response × Service :=
  match call with
  | .metrics =>
    (some { status := 200, body := .lines s.shared.metrics.lines }, s.recordRequest call 200)
  | _ =>
    let finish (result : Except Failure Json) (s : Service) : Option Response × Service :=
      let response := Response.ofResult result
      (some response, s.recordRequest call response.status)
    match perform call s with
    | .ok data s => finish (.ok data) s
    | .error .noReply s => (none, s)
    | .error f s => finish (.error f) s

/-- The answer to a request, if there is one yet. -/
def handle (r : HttpRequest) (s : Service) : Option Response × Service :=
  match r.call with
  | .ok call => s.answer call
  | .error rejection => (some { status := rejection.code, body := .rejected }, s)

/-- Lets the instance of a name run until it is settled, for at most `turns` turns. -/
def runInstance (turns : Nat) (s : Service) (name : String) : Service :=
  match s.registry.get? name with
  | some cpu => s.withBench name (Bench.runToRest { cpu, shared := s.shared } turns)
  | none => s

/-- Lets every instance run until it is settled, for at most `turns` turns each. -/
def runToRest (turns : Nat) (s : Service) : Service := s.registry.names.foldl (runInstance turns) s

end Service

end Msp430
