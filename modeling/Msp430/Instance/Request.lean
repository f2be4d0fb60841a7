import Msp430.Instance.Control
import Msp430.Instance.Inspect

/-!
# Requests to an instance

What clients can ask of an instance, as data. An instance whose instruction waits for input refuses the
requests that would run it and leaves all others without a reply until the input has come.
-/

namespace Msp430

inductive Request where
  | status
  | registers
  | setRegisters (values : Vector (Option UInt16) 16)
  | readMemory (address length : UInt16)
  | disassemble (address : UInt16) (count : Nat)
  | breakpoints
  | setBreakpoint (address : UInt16) (kind : Breakpoint)
  | clearBreakpoint (address : UInt16)
  | boot
  | resume
  | step
  | stop
  | loadImage (key : String)
  | reset

inductive Reply where
  | done
  | status (s : Instance.Status)
  | registers (rs : Registers)
  | bytes (content : Bytes)
  | listing (lines : List ListingLine)
  | breakpoints (table : Breakpoints)
  | present (was : Bool)
  | written (count : Nat)

namespace Request

/-- Whether the request is refused while the instance waits for input. -/
def needsReady : Request → Bool
  | boot | resume | step | stop => true
  | _ => false

/-- Carries out a request, which happens between two instructions. -/
def serve : Request → Control Reply
  | status => return .status (← get).cpu.status
  | registers => return .registers (← get).cpu.registers
  | setRegisters values => do
    modify (·.setRegisters values)
    return .done
  | readMemory a length => do
    match (← get).cpu.readMemory a length with
    | .ok content => return .bytes content
    | .error f => throw (.cpu f)
  | disassemble a count => return .listing ((← get).cpu.disassemble a count)
  | breakpoints => return .breakpoints (← get).cpu.breakpoints
  | setBreakpoint a kind => do
    modify (·.setBreakpoint a kind)
    return .done
  | clearBreakpoint a => do
    let (was, b) := (← get).clearBreakpoint a
    set b
    return .present was
  | boot => do
    modify (·.setState .running)
    return .done
  | resume => do
    Bench.liftFault Bench.resume
    return .done
  | step => do
    Bench.singleStep
    return .done
  | stop => do
    modify (·.setState .stopped)
    return .done
  | loadImage key => return .written (← Bench.loadImage key)
  | reset => do
    Bench.reset
    return .done

/-- The answer to a request, if there is one yet. -/
def ask (r : Request) (b : Bench) : Option (Except ControlError Reply) × Bench :=
  if b.cpu.awaiting then (if r.needsReady then some (.error .notReady) else none, b)
  else match r.serve b with
    | .ok reply b => (some (.ok reply), b)
    | .error (.cpu .awaitingInput) b => (none, b)
    | .error e b => (some (.error e), b)

end Request

end Msp430
