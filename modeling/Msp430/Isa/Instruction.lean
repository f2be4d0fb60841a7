import Msp430.Isa.Operand
import Msp430.Width

/-!
# Instructions

Three families: one operand, a conditional jump, and two operands. Each operation has a mnemonic and
the code that stands for it in the opcode word.
-/

namespace Msp430

inductive SingleOp where
  | rrc
  | swpb
  | rra
  | sxt
  | push
  | call
  | reti
deriving DecidableEq, Repr, Inhabited

namespace SingleOp

def code : SingleOp → Nat
  | rrc => 0
  | swpb => 1
  | rra => 2
  | sxt => 3
  | push => 4
  | call => 5
  | reti => 6

def ofCode? : Nat → Option SingleOp
  | 0 => some rrc
  | 1 => some swpb
  | 2 => some rra
  | 3 => some sxt
  | 4 => some push
  | 5 => some call
  | 6 => some reti
  | _ => none

def mnemonic : SingleOp → String
  | rrc => "RRC"
  | swpb => "SWPB"
  | rra => "RRA"
  | sxt => "SXT"
  | push => "PUSH"
  | call => "CALL"
  | reti => "RETI"

/-- Whether the byte bit of the opcode word has a meaning. -/
def hasByteForm : SingleOp → Bool
  | rrc | rra | push => true
  | _ => false

end SingleOp

/-- The condition of a jump. -/
inductive Condition where
  | notZero
  | zero
  | notCarry
  | carry
  | negative
  | greaterEqual
  | less
  | always
deriving DecidableEq, Repr, Inhabited

namespace Condition

def code : Condition → Nat
  | notZero => 0
  | zero => 1
  | notCarry => 2
  | carry => 3
  | negative => 4
  | greaterEqual => 5
  | less => 6
  | always => 7

def ofCode : Nat → Condition
  | 0 => notZero
  | 1 => zero
  | 2 => notCarry
  | 3 => carry
  | 4 => negative
  | 5 => greaterEqual
  | 6 => less
  | _ => always

def mnemonic : Condition → String
  | notZero => "JNZ"
  | zero => "JZ"
  | notCarry => "JNC"
  | carry => "JC"
  | negative => "JN"
  | greaterEqual => "JGE"
  | less => "JL"
  | always => "JMP"

end Condition

inductive DoubleOp where
  | mov
  | add
  | addc
  | subc
  | sub
  | cmp
  | dadd
  | bit
  | bic
  | bis
  | xor
  | and
deriving DecidableEq, Repr, Inhabited

namespace DoubleOp

def code : DoubleOp → Nat
  | mov => 4
  | add => 5
  | addc => 6
  | subc => 7
  | sub => 8
  | cmp => 9
  | dadd => 10
  | bit => 11
  | bic => 12
  | bis => 13
  | xor => 14
  | and => 15

def ofCode : Nat → DoubleOp
  | 4 => mov
  | 5 => add
  | 6 => addc
  | 7 => subc
  | 8 => sub
  | 9 => cmp
  | 10 => dadd
  | 11 => bit
  | 12 => bic
  | 13 => bis
  | 14 => xor
  | _ => and

def mnemonic : DoubleOp → String
  | mov => "MOV"
  | add => "ADD"
  | addc => "ADDC"
  | subc => "SUBC"
  | sub => "SUB"
  | cmp => "CMP"
  | dadd => "DADD"
  | bit => "BIT"
  | bic => "BIC"
  | bis => "BIS"
  | xor => "XOR"
  | and => "AND"

end DoubleOp

inductive Operation where
  | single (op : SingleOp)
  | jump (condition : Condition)
  | double (op : DoubleOp)
deriving DecidableEq, Repr, Inhabited

def Operation.mnemonic : Operation → String
  | single op => op.mnemonic
  | jump condition => condition.mnemonic
  | double op => op.mnemonic

/-- A jump holds the offset in bytes from the instruction after it. -/
inductive Instruction where
  | single (op : SingleOp) (byteFlag : Bool) (operand : Operand)
  | jump (condition : Condition) (offset : Int16)
  | double (op : DoubleOp) (byteFlag : Bool) (source destination : Operand)
deriving DecidableEq, Repr, Inhabited

namespace Instruction

def operation : Instruction → Operation
  | single op _ _ => .single op
  | jump condition _ => .jump condition
  | double op _ _ _ => .double op

def byteFlag : Instruction → Bool
  | single _ flag _ => flag
  | jump _ _ => false
  | double _ flag _ _ => flag

/-- The width that the instruction works at; some operations ignore their byte flag. -/
def width : Instruction → Width
  | single op flag _ => .ofByteFlag (op.hasByteForm && flag)
  | jump _ _ => .word
  | double _ flag _ _ => .ofByteFlag flag

/-- The encoded length in bytes. -/
def size : Instruction → Nat
  | single _ _ operand => 2 + operand.size
  | jump _ _ => 2
  | double _ _ source destination => 2 + source.size + destination.size

/-- The distance in bytes of a jump from the instruction after it. -/
def displacement (offset : Int16) : Int := offset.toInt

end Instruction

/-- An instruction with the bytes it was read from. -/
structure Decoded where
  instruction : Instruction
  bytes : Bytes
deriving DecidableEq, Repr, Inhabited

end Msp430
