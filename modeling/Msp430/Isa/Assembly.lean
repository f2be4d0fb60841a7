import Msp430.Isa.Decode

/-!
# Assembly text

An instruction is written as its mnemonic, `.B` if it works on bytes, and its operands. A listing line
puts the bytes in front of it, in six columns and a tab.
-/

namespace Msp430

def Operand.assembly : Operand → String
  | register r => s!"R{r.val}"
  | indexed r offset => s!"{signed offset}(R{r.val})"
  | indirect r => s!"@R{r.val}"
  | autoIncrement r => s!"@R{r.val}+"
  | absolute address => "&" ++ Hex.word address
  | immediate value => s!"#{signed value}"
  | constant c => s!"#{signed c.value}"

namespace Instruction

/-- An integer with its sign, which is `+` for zero. -/
def signedText (n : Int) : String := if n < 0 then toString n else s!"+{n}"

/-- The mnemonic with its width suffix. -/
def head (i : Instruction) : String :=
  i.operation.mnemonic ++ (if i.width = .byte then ".B" else "")

/-- The assembly text; a jump counts from its own address. -/
def assembly (i : Instruction) : String :=
  match i with
  | single _ _ operand => i.head ++ " " ++ operand.assembly
  | jump _ offset => i.head ++ " $" ++ signedText (displacement offset + 2)
  | double _ _ source destination =>
    i.head ++ " " ++ source.assembly ++ ", " ++ destination.assembly

end Instruction

namespace Decoded

/-- Six columns of three characters, one for each byte an instruction can have. -/
def columns (d : Decoded) : String :=
  String.join ((List.range 6).map fun k =>
    match d.bytes[k]? with
    | some b => Hex.byte b ++ " "
    | none => "   ")

def listing (d : Decoded) : String := d.columns ++ "\t" ++ d.instruction.assembly

end Decoded

end Msp430
