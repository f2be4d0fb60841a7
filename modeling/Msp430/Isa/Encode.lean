import Msp430.Isa.Decode

/-!
# Encoding

`Instruction.encode` writes the opcode word and the extension words that `decode` reads. Three bits of
a one-operand opcode word carry no meaning and are written as the fixed value found in the manuals.
-/

namespace Msp430

namespace Constant

/-- The register and mode that name a constant. -/
def field : Constant → Reg × Nat
  | zero => (.cg, 0)
  | one => (.cg, 1)
  | two => (.cg, 2)
  | minusOne => (.cg, 3)
  | four => (.sr, 2)
  | eight => (.sr, 3)

end Constant

namespace Operand

/-- The register and mode that name a source operand. -/
def sourceField : Operand → Reg × Nat
  | register r => (r, 0)
  | indexed r _ => (r, 1)
  | indirect r => (r, 2)
  | autoIncrement r => (r, 3)
  | absolute _ => (.sr, 1)
  | immediate _ => (.pc, 3)
  | constant c => c.field

/-- The register and mode that name a destination operand. -/
def destinationField (o : Operand) : Reg × Nat :=
  match o with
  | register r => (r, 0)
  | _ => (o.sourceField.1, 1)

def extensionBytes (o : Operand) : Bytes :=
  match o.extension? with
  | some w => [lowByte w, highByte w]
  | none => []

end Operand

namespace Instruction

def opcodeWord : Instruction → UInt16
  | single op flag operand =>
    let (r, mode) := operand.sourceField
    .ofNat (0x1000 + 0x80 * op.code + 0x40 * flag.toNat + 0x10 * mode + r.val)
  | jump condition offset =>
    -- The field counts words, not bytes.
    let words := BitVec.ofInt 10 (displacement offset / 2)
    .ofNat (0x2000 + 0x400 * condition.code + words.toNat)
  | double op flag source destination =>
    let (r, mode) := source.sourceField
    let (r', mode') := destination.destinationField
    .ofNat (0x1000 * op.code + 0x100 * r.val + 0x80 * mode' + 0x40 * flag.toNat + 0x10 * mode + r'.val)

def extensionBytes : Instruction → Bytes
  | single _ _ operand => operand.extensionBytes
  | jump _ _ => []
  | double _ _ source destination => source.extensionBytes ++ destination.extensionBytes

def encode (i : Instruction) : Bytes :=
  lowByte i.opcodeWord :: highByte i.opcodeWord :: i.extensionBytes

end Instruction

end Msp430
