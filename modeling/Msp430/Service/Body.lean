import Msp430.Instance.Basic
import Msp430.Json.Reader
import Msp430.Json.Record

/-!
# Request bodies

The records that requests carry, each with every one of its fields if it is written as an array.
-/

namespace Msp430

def Breakpoint.ofLabel? : String → Option Breakpoint
  | "stop" => some .stop
  | "step" => some .step
  | "trace" => some .trace
  | _ => none

namespace Body

open Json (fields? required? nullable? word? string?)

/-- A kind is its label, or an object with the label as its only key and null under it. -/
def kind? : Json → Option Breakpoint
  | .string (some label) => Breakpoint.ofLabel? label
  | .object [(some label, .null)] => Breakpoint.ofLabel? label
  | _ => none

/-- Sixteen values, of which a null leaves its register alone. -/
def registerValues? : Json → Option (Vector (Option UInt16) 16)
  | .array items => do
    let values ← items.mapM (nullable? word?)
    if h : values.toArray.size = 16 then some ⟨values.toArray, h⟩ else none
  | _ => none

def registers? (body : Json) : Option (Vector (Option UInt16) 16) := do
  match ← fields? .exact ["regs"] body with
  | [regs] => required? registerValues? regs
  | _ => none

/-- The text of an address and the breakpoint to set there; no kind means that none is to be left. -/
def event? (body : Json) : Option (String × Option Breakpoint) := do
  match ← fields? .exact ["addr", "kind"] body with
  | [addr, kind] => return (← required? string? addr, ← nullable? kind? (kind.getD .null))
  | _ => none

/-- The string in a record with one field. -/
def single? (name : String) (body : Json) : Option String := do
  match ← fields? .exact [name] body with
  | [value] => required? string? value
  | _ => none

end Body

end Msp430
