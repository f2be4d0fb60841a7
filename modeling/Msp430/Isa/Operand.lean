import Msp430.Bytes

/-!
# Operands

The sixteen registers and the seven ways an instruction names an operand. Indexed, absolute and
immediate operands are completed by an extension word that follows the opcode word.
-/

namespace Msp430

abbrev Reg := Fin 16

namespace Reg

/-- The program counter. -/
abbrev pc : Reg := 0

/-- The stack pointer. -/
abbrev sp : Reg := 1

/-- The status register. -/
abbrev sr : Reg := 2

/-- The constant generator, which reads as zero and cannot be written. -/
abbrev cg : Reg := 3

end Reg

/-- The values that a source operand can name without an extension word. -/
inductive Constant where
  | zero
  | one
  | two
  | four
  | eight
  | minusOne
deriving DecidableEq, Repr, Inhabited

def Constant.value : Constant → UInt16
  | .zero => 0
  | .one => 1
  | .two => 2
  | .four => 4
  | .eight => 8
  | .minusOne => 0xFFFF

inductive Operand where
  | register (r : Reg)
  | indexed (r : Reg) (offset : UInt16)
  | indirect (r : Reg)
  | autoIncrement (r : Reg)
  | absolute (address : UInt16)
  | immediate (value : UInt16)
  | constant (c : Constant)
deriving DecidableEq, Repr, Inhabited

namespace Operand

/-- The extension word, if the operand has one. -/
def extension? : Operand → Option UInt16
  | indexed _ offset => some offset
  | absolute address => some address
  | immediate value => some value
  | _ => none

def needsWord (o : Operand) : Bool := o.extension?.isSome

/-- The bytes that the operand adds to its instruction. -/
def size (o : Operand) : Nat := if o.needsWord then 2 else 0

end Operand

end Msp430
