/-!
# Hexadecimal text

Bytes and words are written with two and four lower-case digits.
-/

namespace Msp430.Hex

/-- The two lower-case digits of a byte. -/
def byteDigits (b : UInt8) : List Char := [Nat.digitChar (b.toNat / 16), Nat.digitChar (b.toNat % 16)]

/-- The four lower-case digits of a word. -/
def wordDigits (w : UInt16) : List Char :=
  [Nat.digitChar (w.toNat / 4096), Nat.digitChar (w.toNat / 256 % 16),
    Nat.digitChar (w.toNat / 16 % 16), Nat.digitChar (w.toNat % 16)]

def byte (b : UInt8) : String := String.ofList (byteDigits b)

def word (w : UInt16) : String := String.ofList (wordDigits w)

def bytes (bs : List UInt8) : String := String.ofList (bs.flatMap byteDigits)

end Msp430.Hex
