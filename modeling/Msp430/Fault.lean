import Msp430.Isa.Decode
import Msp430.KeyValue.Store

/-!
# Faults

What can keep an instruction from being carried out: the instruction itself, an address, a hook, or
the key/value store behind a hook.
-/

namespace Msp430

inductive BadOperand where
  | constantGenerator
  | immediate
deriving DecidableEq, Repr, Inhabited

def BadOperand.message : BadOperand → String
  | constantGenerator => "constant generator can't be written"
  | immediate => "immediate operand can't be written"

/-- A halt and a wait for input are not failures, but they too end an access early. -/
inductive Fault where
  | undecodable (cause : Undecodable)
  | badOperand (cause : BadOperand)
  | addressTooHigh (address : UInt16)
  | addressUnaligned (address : UInt16)
  | hookedFetch (address : UInt16)
  | hookConflict (address : UInt16)
  | unsupported (what : String)
  | halted
  | awaitingInput
  | collaborator (cause : KeyValue.Error)
deriving DecidableEq, Repr, Inhabited

namespace Fault

def message : Fault → String
  | undecodable cause => cause.message
  | badOperand cause => "bad operand: " ++ cause.message
  | addressTooHigh address => "address 0x" ++ Hex.word address ++ " is too high"
  | addressUnaligned address => "address 0x" ++ Hex.word address ++ " is unaligned"
  | hookedFetch address => "can't fetch an instruction from hooked address 0x" ++ Hex.word address
  | hookConflict address => "a hook is already bound at 0x" ++ Hex.word address
  | unsupported what => what ++ " is not implemented"
  | halted => "CPUOFF set, CPU halted"
  | awaitingInput => "waiting for input"
  | collaborator cause => cause.message

/-- A short label for the kind of fault. -/
def kind : Fault → String
  | undecodable (.tooShort _ _) => "too_short"
  | undecodable (.illegalOpcode _) => "illegal_opcode"
  | badOperand _ => "bad_operand"
  | addressTooHigh _ => "address_too_high"
  | addressUnaligned _ => "address_unaligned"
  | hookedFetch _ => "hooked_fetch"
  | hookConflict _ => "hook_conflict"
  | unsupported _ => "unsupported"
  | halted => "halted"
  | awaitingInput => "awaiting_input"
  | collaborator _ => "collaborator"

end Fault

end Msp430
