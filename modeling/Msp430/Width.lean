/-!
# Operand widths

An instruction works on bytes or on words. Arithmetic at a width is arithmetic modulo `modulus`,
and a value is negative when it is at least `half`.
-/

namespace Msp430

inductive Width where
  | byte
  | word
deriving DecidableEq, Repr, Inhabited

namespace Width

def ofByteFlag (isByte : Bool) : Width := if isByte then .byte else .word

def modulus : Width → Nat
  | .byte => 0x100
  | .word => 0x10000

def half : Width → Nat
  | .byte => 0x80
  | .word => 0x8000

/-- The number of bytes an operand occupies. -/
def size : Width → UInt16
  | .byte => 1
  | .word => 2

/-- The part of a word that an operand of this width keeps. -/
def trim (w : Width) (v : UInt16) : UInt16 := UInt16.ofNat (v.toNat % w.modulus)

def isNegative (w : Width) (v : UInt16) : Bool := w.half ≤ v.toNat % w.modulus

theorem modulus_eq (w : Width) : w.modulus = 2 * w.half := by cases w <;> rfl

theorem modulus_le (w : Width) : w.modulus ≤ 0x10000 := by cases w <;> decide

@[simp] theorem toNat_trim (w : Width) (v : UInt16) : (w.trim v).toNat = v.toNat % w.modulus := by
  have := v.toNat_lt
  cases w <;> simp only [trim, modulus, UInt16.toNat_ofNat'] <;> omega

@[simp] theorem trim_word (v : UInt16) : Width.word.trim v = v := by
  have := v.toNat_lt
  apply UInt16.toNat_inj.mp
  simp only [toNat_trim, modulus]
  omega

end Width

end Msp430
