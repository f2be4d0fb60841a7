import Msp430.Instance.Basic
import Msp430.Isa.Assembly

/-!
# Inspecting an instance

Looking at memory, the listing of a program and the status; none of them changes anything.
-/

namespace Msp430

/-- A line of a listing. -/
structure ListingLine where
  address : UInt16
  text : String
deriving DecidableEq, Repr, Inhabited

/-- What an instance tells about itself. -/
structure Instance.Status where
  name : String
  state : RunState
  registers : Registers
  image : String
  lastFault : Option Fault
  awaiting : Bool
  breakpoints : Breakpoints

namespace Instance

def status (i : Instance) : Instance.Status where
  name := i.name
  state := i.state
  registers := i.registers
  image := i.image
  lastFault := i.lastFault
  awaiting := i.awaiting
  breakpoints := i.breakpoints

/-- The bytes that a fetch at an address would give. -/
def fetch (i : Instance) (a : UInt16) : Except Fault (Vector UInt8 6) :=
  if (i.board.hooks.read a).isSome then .error (.hookedFetch a) else i.memory.fetch a

/-- The instruction that a step at an address would execute. -/
def decodeAt (i : Instance) (a : UInt16) : Except Fault Decoded := do
  match decode (← i.fetch a).toList with
  | .ok d => return d
  | .error cause => throw (.undecodable cause)

/-- Consecutive instructions from an address on, up to the first that cannot be decoded. -/
def listFrom (i : Instance) (a : UInt16) : Nat → List ListingLine
  | 0 => []
  | n + 1 =>
    match i.decodeAt a with
    | .ok d => { address := a, text := d.listing } :: i.listFrom (a + .ofNat d.instruction.size) n
    | .error _ => []

/-- At most `count` lines of a listing, and no more than the settings allow. -/
def disassemble (i : Instance) (a : UInt16) (count : Nat) : List ListingLine :=
  i.listFrom a (min count i.config.maxDisassembly)

/-- A stretch of memory, past the hooks. -/
def readMemory (i : Instance) (a length : UInt16) : Except Fault Bytes := i.memory.read a length

end Instance

end Msp430
