import Msp430.Service.Body
import Msp430.Service.Query
import Msp430.Service.Target

/-!
# Routes

Which call a request makes. The path chooses the endpoints, the method one of them, and the query and
the body give its arguments; a request that fails at one of these is rejected.
-/

namespace Msp430

/-- Why a request reaches no handler. -/
inductive Rejection where
  | notFound
  | methodNotAllowed
  | badRequest
deriving DecidableEq, Repr, Inhabited

def Rejection.code : Rejection → Nat
  | notFound => 404
  | methodNotAllowed => 405
  | badRequest => 400

inductive Action where
  | boot
  | resume
  | step
  | stop
  | reset
deriving DecidableEq, Repr, Inhabited

/-- An endpoint with the parts of the path that vary. -/
inductive Endpoint where
  | names
  | status (name : String)
  | registers (name : String)
  | setRegisters (name : String)
  | memory (name address : String)
  | listing (name address : String)
  | breakpoints (name : String)
  | setBreakpoint (name : String)
  | load (name : String)
  | input (name : String)
  | output (name : String)
  | debugLog (name : String)
  | control (action : Action) (name : String)
  | metrics
deriving DecidableEq, Repr

namespace Endpoint

def method : Endpoint → String
  | setRegisters _ | setBreakpoint _ | load _ | input _ | control _ _ => "POST"
  | _ => "GET"

/-- The path with its varying parts named. -/
def pattern : Endpoint → String
  | names => "/cpus"
  | status _ => "/cpu/:name"
  | registers _ | setRegisters _ => "/cpu/:name/regs"
  | memory _ _ => "/cpu/:name/memory/:addr"
  | listing _ _ => "/cpu/:name/memory/:addr/insns"
  | breakpoints _ => "/cpu/:name/events"
  | setBreakpoint _ => "/cpu/:name/event"
  | load _ => "/cpu/:name/load"
  | input _ => "/cpu/:name/input"
  | output _ => "/cpu/:name/output"
  | debugLog _ => "/cpu/:name/debuglog"
  | control .boot _ => "/cpu/:name/boot"
  | control .resume _ => "/cpu/:name/continue"
  | control .step _ => "/cpu/:name/step"
  | control .stop _ => "/cpu/:name/stop"
  | control .reset _ => "/cpu/:name/reset"
  | metrics => "/metrics"

/-- The endpoints at a path, one for each method. -/
def atPath : List String → List Endpoint
  | ["cpus"] => [names]
  | ["metrics"] => [metrics]
  | ["cpu", name] => [status name]
  | ["cpu", name, "regs"] => [registers name, setRegisters name]
  | ["cpu", name, "memory", address] => [memory name address]
  | ["cpu", name, "memory", address, "insns"] => [listing name address]
  | ["cpu", name, "events"] => [breakpoints name]
  | ["cpu", name, "event"] => [setBreakpoint name]
  | ["cpu", name, "load"] => [load name]
  | ["cpu", name, "input"] => [input name]
  | ["cpu", name, "output"] => [output name]
  | ["cpu", name, "debuglog"] => [debugLog name]
  | ["cpu", name, "boot"] => [control .boot name]
  | ["cpu", name, "continue"] => [control .resume name]
  | ["cpu", name, "step"] => [control .step name]
  | ["cpu", name, "stop"] => [control .stop name]
  | ["cpu", name, "reset"] => [control .reset name]
  | _ => []

end Endpoint

/-- What a client sends. -/
structure HttpRequest where
  method : String
  target : String
  body : Option String := none
deriving DecidableEq, Repr

namespace HttpRequest

def path (r : HttpRequest) : List Char := (Target.ofString r.target).path

def query (r : HttpRequest) : List Char := (Target.ofString r.target).query

/-- The parts of a path between slashes, of which one at the end counts for nothing. -/
def segments (path : List Char) : List (List Char) :=
  let parts := Query.splitAt '/' (match path with | '/' :: rest => rest | cs => cs)
  if parts.getLast? = some [] then parts.dropLast else parts

/-- The endpoints at the path of a request; an empty segment matches none. -/
def endpoints (r : HttpRequest) : List Endpoint :=
  let parts := segments r.path
  if parts.any (·.isEmpty) then [] else Endpoint.atPath (parts.map String.ofList)

def endpoint (r : HttpRequest) : Except Rejection Endpoint :=
  match r.endpoints with
  | [] => .error .notFound
  | candidates =>
    match candidates.find? (·.method = r.method) with
    | some e => .ok e
    | none => .error .methodNotAllowed

def json? (r : HttpRequest) : Option Json := r.body >>= Json.parse?

end HttpRequest

/-- An endpoint with all its arguments. -/
inductive Call where
  | names
  | status (name : String)
  | registers (name : String)
  | setRegisters (name : String) (values : Vector (Option UInt16) 16)
  | memory (name address : String) (length : UInt16)
  | listing (name address : String) (count : Nat)
  | breakpoints (name : String)
  | setBreakpoint (name address : String) (kind : Option Breakpoint)
  | load (name key : String)
  | input (name text : String)
  | output (name : String)
  | debugLog (name : String)
  | control (action : Action) (name : String)
  | metrics
deriving DecidableEq, Repr

namespace Call

def endpoint : Call → Endpoint
  | names => .names
  | status name => .status name
  | registers name => .registers name
  | setRegisters name _ => .setRegisters name
  | memory name address _ => .memory name address
  | listing name address _ => .listing name address
  | breakpoints name => .breakpoints name
  | setBreakpoint name _ _ => .setBreakpoint name
  | load name _ => .load name
  | input name _ => .input name
  | output name => .output name
  | debugLog name => .debugLog name
  | control action name => .control action name
  | metrics => .metrics

def defaultLength : Nat := 32

def defaultCount : Nat := 10

/-- The call of an endpoint with the arguments that a request carries. -/
def ofEndpoint? (e : Endpoint) (r : HttpRequest) : Option Call :=
  match e with
  | .names => some names
  | .status name => some (status name)
  | .registers name => some (registers name)
  | .setRegisters name => do return setRegisters name (← Body.registers? (← r.json?))
  | .memory name address => do
    let length ← Query.number? 0xFFFF "len" r.query
    return memory name address (.ofNat (length.getD defaultLength))
  | .listing name address => do
    let count ← Query.number? 0xFFFFFFFFFFFFFFFF "count" r.query
    return listing name address (count.getD defaultCount)
  | .breakpoints name => some (breakpoints name)
  | .setBreakpoint name => do
    let (address, kind) ← Body.event? (← r.json?)
    return setBreakpoint name address kind
  | .load name => do return load name (← Body.single? "key" (← r.json?))
  | .input name => do return input name (← Body.single? "input" (← r.json?))
  | .output name => some (output name)
  | .debugLog name => some (debugLog name)
  | .control action name => some (control action name)
  | .metrics => some metrics

end Call

/-- The call that a request makes. -/
def HttpRequest.call (r : HttpRequest) : Except Rejection Call := do
  let e ← r.endpoint
  match Call.ofEndpoint? e r with
  | some call => return call
  | none => throw .badRequest

end Msp430
