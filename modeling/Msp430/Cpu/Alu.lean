import Msp430.Cpu.Registers
import Msp430.Width

/-!
# Arithmetic and logic

Results and flags of the data operations, at either width, as functions of the operands and the carry.
Subtraction adds the complement and a carry, so that carry means "no borrow".
-/

namespace Msp430

/-- The four flags that an operation may set. -/
structure Status where
  carry : Bool
  zero : Bool
  negative : Bool
  overflow : Bool
deriving DecidableEq, Repr

/-- A result, and the flags if the operation sets them. -/
structure AluResult where
  value : UInt16
  status : Option Status
deriving DecidableEq, Repr

def Registers.setStatus (rs : Registers) (s : Status) : Registers :=
  (((rs.setFlag .carry s.carry).setFlag .overflow s.overflow).setFlag .zero s.zero).setFlag
    .negative s.negative

namespace AluResult

/-- A result that leaves the flags alone. -/
def plain (v : UInt16) : AluResult := { value := v, status := none }

/-- A result whose zero and negative flags describe it. -/
def flagged (w : Width) (v : UInt16) (carry overflow : Bool) : AluResult :=
  { value := v, status := some { carry, zero := w.trim v = 0, negative := w.isNegative v, overflow } }

end AluResult

namespace Width

/-- The bitwise complement at a width. -/
def complement (w : Width) (v : UInt16) : UInt16 := w.trim (~~~v)

/-- `a + b + carry`, with a signed overflow where both terms have one sign and the sum the other. -/
def addWithCarry (w : Width) (a b : UInt16) (carry : Bool) : AluResult :=
  let sum := a.toNat + b.toNat + carry.toNat
  let v := UInt16.ofNat (sum % w.modulus)
  .flagged w v (w.modulus ≤ sum)
    (w.isNegative a == w.isNegative b && w.isNegative a != w.isNegative v)

/-- A bitwise result: carry is the negation of zero. -/
def logical (w : Width) (v : UInt16) (overflow : Bool) : AluResult := .flagged w v (v ≠ 0) overflow

end Width

/-- The result of a two-operand operation; decimal addition has none. -/
def DoubleOp.apply (op : DoubleOp) (w : Width) (source destination : UInt16) (carry : Bool) :
    Option AluResult :=
  match op with
  | mov => some (.plain source)
  | add => some (w.addWithCarry destination source false)
  | addc => some (w.addWithCarry destination source carry)
  | sub | cmp => some (w.addWithCarry destination (w.complement source) true)
  | subc => some (w.addWithCarry destination (w.complement source) carry)
  | bit | and => some (w.logical (source &&& destination) false)
  | xor => some (w.logical (source ^^^ destination) (w.isNegative source && w.isNegative destination))
  | bic => some (.plain (w.trim (~~~source &&& destination)))
  | bis => some (.plain (source ||| destination))
  | dadd => none

/-- Whether a two-operand operation stores its result. -/
def DoubleOp.stores : DoubleOp → Bool
  | cmp | bit => false
  | _ => true

namespace Width

/-- The rotation to the right through carry. -/
def rotate (w : Width) (v : UInt16) (carry : Bool) : AluResult :=
  .flagged w (.ofNat ((carry.toNat * w.modulus + v.toNat) / 2)) (v.toNat % 2 = 1) false

/-- The shift to the right; a zero comes in at the top. -/
def shift (w : Width) (v : UInt16) : AluResult :=
  .flagged w (.ofNat (v.toNat / 2)) (v.toNat % 2 = 1) false

end Width

/-- The word with its bytes exchanged. -/
def swapBytes (v : UInt16) : UInt16 := wordOf (highByte v) (lowByte v)

/-- The low byte with its sign carried through the word. -/
def signExtend (v : UInt16) : UInt16 :=
  .ofNat (v.toNat % 0x100 + if v.toNat % 0x100 < 0x80 then 0 else 0xFF00)

end Msp430
