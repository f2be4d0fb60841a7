/-!
# Numerals

A numeral is an optional `+` and one or more digits of a radix up to sixteen, in either case.
Reading goes from the left: at each character a bad digit is reported before a value past the limit.
-/

namespace Msp430

/-- Why a text is not a numeral. -/
inductive Numeral.Defect where
  | empty
  | invalidDigit
  | tooLarge
deriving DecidableEq, Repr, Inhabited

namespace Numeral

def Defect.message : Defect → String
  | .empty => "cannot parse integer from empty string"
  | .invalidDigit => "invalid digit found in string"
  | .tooLarge => "number too large to fit in target type"

/-- The value of a digit, if it is one of the radix. -/
def digit? (radix : Nat) (c : Char) : Option Nat :=
  let n := c.toNat
  let value :=
    if '0'.toNat ≤ n ∧ n ≤ '9'.toNat then n - '0'.toNat
    else if 'a'.toNat ≤ n ∧ n ≤ 'f'.toNat then n - 'a'.toNat + 10
    else if 'A'.toNat ≤ n ∧ n ≤ 'F'.toNat then n - 'A'.toNat + 10
    else radix
  if value < radix then some value else none

/-- Extends the value read so far by the digits that follow. -/
def readDigits (radix limit value : Nat) : List Char → Except Defect Nat
  | [] => .ok value
  | c :: rest =>
    match digit? radix c with
    | none => .error .invalidDigit
    | some d =>
      let next := radix * value + d
      if limit < next then .error .tooLarge else readDigits radix limit next rest

/-- The value of a numeral that is at most `limit`. -/
def read (radix limit : Nat) : List Char → Except Defect Nat
  | [] => .error .empty
  | ['+'] => .error .invalidDigit
  | '+' :: digits => readDigits radix limit 0 digits
  | digits => readDigits radix limit 0 digits

end Numeral

end Msp430
