import Msp430.Instance.Request
import Msp430.Json.Basic
import Msp430.Metrics.Exposition
import Msp430.Service.Route

/-!
# Answers

The JSON form of what a call gives, the envelope around it, and the failures of a handler.
-/

namespace Msp430

/-- Why a call gives no data. A call to an instance that waits for input has no answer yet. -/
inductive Failure where
  | noReply
  | badAddress (text : String) (cause : Numeral.Defect)
  | control (cause : ControlError)
deriving DecidableEq, Repr, Inhabited

namespace Failure

def message : Failure → String
  | noReply => "no reply"
  | badAddress text cause => "bad address " ++ text ++ ": " ++ cause.message
  | control cause => cause.message

def code : Failure → Nat
  | control .notReady => 409
  | _ => 400

end Failure

namespace Registers

def toJson (rs : Registers) : Json := .array (rs.toList.map .word)

end Registers

namespace Breakpoints

/-- The table as an object, with the addresses written in a given way. -/
def toJson (table : Breakpoints) (spell : UInt16 → String) : Json :=
  .record (table.toList.map fun (a, kind) => (spell a, .text kind.label))

end Breakpoints

def Instance.Status.toJson (s : Instance.Status) : Json :=
  .record
    [("name", .text s.name), ("state", .text s.state.label), ("registers", s.registers.toJson),
      ("image", .text s.image),
      ("last_fault", match s.lastFault with | some f => .text f.message | none => .null),
      ("awaiting_input", .bool s.awaiting),
      ("breakpoints", s.breakpoints.toJson fun a => toString a.toNat)]

def ListingLine.toJson (l : ListingLine) : Json :=
  .record [("address", .word l.address), ("text", .text l.text)]

def Reply.toJson : Reply → Json
  | .done => .null
  | .status s => s.toJson
  | .registers rs => rs.toJson
  | .bytes content => .array (content.map fun b => .nat b.toNat)
  | .listing lines => .array (lines.map ListingLine.toJson)
  | .breakpoints table => table.toJson Hex.word
  | .present was => .bool was
  | .written count => .nat count

/-- What an action asks of the instance. -/
def Action.request : Action → Request
  | .boot => .boot
  | .resume => .resume
  | .step => .step
  | .stop => .stop
  | .reset => .reset

/-- The body of an answer. A rejected request gets none. -/
inductive ResponseBody where
  | rejected
  | json (value : Json)
  | lines (samples : List String)

structure Response where
  status : Nat
  body : ResponseBody

namespace Response

def envelope (success : Bool) (data error : Json) : Json :=
  .record [("success", .bool success), ("data", data), ("error", error)]

def ofResult : Except Failure Json → Response
  | .ok data => { status := 200, body := .json (envelope true data .null) }
  | .error f => { status := f.code, body := .json (envelope false .null (.text f.message)) }

end Response

end Msp430
