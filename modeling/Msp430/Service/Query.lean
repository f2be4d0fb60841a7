import Msp430.Text.Numeral
import Msp430.Text.Utf8

/-!
# Query strings

Pairs of names and values, separated by ampersands. A plus sign stands for a space and a percent sign
with two digits for a byte; other bytes stand for themselves.
-/

namespace Msp430.Query

/-- A byte outside an escape. -/
def plain (b : UInt8) : UInt8 := if b = '+'.toUInt8 then ' '.toUInt8 else b

/-- The byte that two digits behind a percent sign spell. -/
def escaped? (high low : UInt8) : Option UInt8 := do
  let h ← Numeral.digit? 16 (Char.ofNat high.toNat)
  let l ← Numeral.digit? 16 (Char.ofNat low.toNat)
  return .ofNat (16 * h + l)

/-- The bytes that an encoded text stands for. -/
def unescape : Bytes → Bytes
  | [] => []
  | b :: high :: low :: rest =>
    if b = '%'.toUInt8 then
      match escaped? high low with
      | some e => e :: unescape rest
      | none => b :: unescape (high :: low :: rest)
    else plain b :: unescape (high :: low :: rest)
  | b :: rest => plain b :: unescape rest

def decode (cs : List Char) : String := Utf8.decodeLossy (unescape (Utf8.encode cs))

/-- The pieces between separators. -/
def splitAt (separator : Char) : List Char → List (List Char)
  | [] => [[]]
  | c :: rest =>
    if c = separator then [] :: splitAt separator rest
    else match splitAt separator rest with
      | piece :: others => (c :: piece) :: others
      | [] => [[c]]

/-- The name and the value of a piece, which is empty without an equals sign. -/
def pair (piece : List Char) : String × String :=
  (decode (piece.takeWhile (· ≠ '=')), decode ((piece.dropWhile (· ≠ '=')).drop 1))

def pairs (query : List Char) : List (String × String) :=
  ((splitAt '&' query).filter (!·.isEmpty)).map pair

/-- The number under a name. A bad number is refused, and so is a name that stands twice. -/
def number? (limit : Nat) (name : String) (query : List Char) : Option (Option Nat) :=
  match (pairs query).filter (·.1 = name) with
  | [] => some none
  | [(_, value)] =>
    match Numeral.read 10 limit value.toList with
    | .ok n => some (some n)
    | .error _ => none
  | _ => none

end Msp430.Query
