import Msp430.Isa.Instruction
import Msp430.Text.Hex

/-!
# Decoding

`decode` reads one instruction from the front of a byte string. The opcode word comes first and the
extension words of source and destination follow in that order.
-/

namespace Msp430

/-- Why no instruction stands at the front of a byte string. -/
inductive Undecodable where
  | tooShort (needed available : Nat)
  | illegalOpcode (word : UInt16)
deriving DecidableEq, Repr, Inhabited

def Undecodable.message : Undecodable → String
  | tooShort needed available => s!"instruction too short: needed {needed} bytes, had {available}"
  | illegalOpcode word => "illegal opcode in instruction word 0x" ++ Hex.word word

/-- The word at a byte offset. -/
def wordAt (raw : Bytes) (offset : Nat) : Except Undecodable UInt16 :=
  match raw.drop offset with
  | low :: high :: _ => .ok (wordOf low high)
  | _ => .error (.tooShort (offset + 2) raw.length)

namespace Operand

/-- The source operand of a register field and a two-bit mode; on registers 2 and 3 some modes name
constants. -/
def source (raw : Bytes) (offset : Nat) (r : Reg) (mode : Nat) : Except Undecodable Operand :=
  match r.val, mode with
  | 3, 0 => .ok (constant .zero)
  | 3, 1 => .ok (constant .one)
  | 3, 2 => .ok (constant .two)
  | 3, _ => .ok (constant .minusOne)
  | 2, 2 => .ok (constant .four)
  | 2, 3 => .ok (constant .eight)
  | 2, 1 => absolute <$> wordAt raw offset
  | 0, 3 => immediate <$> wordAt raw offset
  | _, 0 => .ok (register r)
  | _, 1 => indexed r <$> wordAt raw offset
  | _, 2 => .ok (indirect r)
  | _, _ => .ok (autoIncrement r)

/-- The destination operand of a register field and a one-bit mode. -/
def destination (raw : Bytes) (offset : Nat) (r : Reg) (mode : Nat) : Except Undecodable Operand :=
  match r.val, mode with
  | _, 0 => .ok (register r)
  | 2, _ => absolute <$> wordAt raw offset
  | _, _ => indexed r <$> wordAt raw offset

end Operand

/-- The field of a word whose lowest bit has weight `unit` and which takes `count` values. -/
def bitField (word : UInt16) (unit count : Nat) : Nat := word.toNat / unit % count

def registerField (word : UInt16) (unit : Nat) : Reg := ⟨bitField word unit 16, Nat.mod_lt _ (by decide)⟩

namespace Instruction

def ofSingle (raw : Bytes) (word : UInt16) : Except Undecodable Instruction :=
  match SingleOp.ofCode? (bitField word 0x80 8) with
  | none => .error (.illegalOpcode word)
  | some op => do
    let operand ← Operand.source raw 2 (registerField word 1) (bitField word 0x10 4)
    return single op (bitField word 0x40 2 == 1) operand

/-- The low ten bits of a word are a signed count of words, which is an offset in bytes when doubled. -/
def jumpOffset (word : UInt16) : Int16 := .ofBitVec ((BitVec.ofNat 10 word.toNat).signExtend 16) * 2

def ofJump (word : UInt16) : Instruction := jump (.ofCode (bitField word 0x400 8)) (jumpOffset word)

def ofDouble (raw : Bytes) (word : UInt16) : Except Undecodable Instruction := do
  let source ← Operand.source raw 2 (registerField word 0x100) (bitField word 0x10 4)
  let destination ← Operand.destination raw (2 + source.size) (registerField word 1) (bitField word 0x80 2)
  return double (.ofCode (bitField word 0x1000 16)) (bitField word 0x40 2 == 1) source destination

/-- The instruction at the front of `raw`; the top three bits of its first word choose the family. -/
def ofBytes (raw : Bytes) : Except Undecodable Instruction := do
  let word ← wordAt raw 0
  match bitField word 0x2000 8 with
  | 0 => ofSingle raw word
  | 1 => return ofJump word
  | _ => ofDouble raw word

end Instruction

/-- The instruction at the front of `raw` and the bytes it takes. -/
def decode (raw : Bytes) : Except Undecodable Decoded := do
  let instruction ← Instruction.ofBytes raw
  return { instruction, bytes := raw.take instruction.size }

end Msp430
