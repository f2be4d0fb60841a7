import Msp430.Json.Basic
import Msp430.Text.Numeral

/-!
# JSON tokens

An automaton over the characters. A number or a keyword is the longest run of characters that can
stand in one; a string collects code points, in which an escape may leave a surrogate.
-/

namespace Msp430.Json

inductive Token where
  | leftBrace
  | rightBrace
  | leftBracket
  | rightBracket
  | comma
  | colon
  | scalar (value : Json)

/-! ### Numbers -/

/-- Drops one or more digits. -/
def dropDigits? (cs : List Char) : Option (List Char) :=
  match cs with
  | c :: rest => if c.isDigit then some (rest.dropWhile Char.isDigit) else none
  | [] => none

def dropInteger? : List Char → Option (List Char)
  | '0' :: rest => some rest
  | cs => dropDigits? cs

def dropFraction? : List Char → Option (List Char)
  | '.' :: rest => dropDigits? rest
  | cs => some cs

def dropExponent? : List Char → Option (List Char)
  | c :: rest =>
    if c = 'e' ∨ c = 'E' then
      match rest with
      | '+' :: digits => dropDigits? digits
      | '-' :: digits => dropDigits? digits
      | digits => dropDigits? digits
    else some (c :: rest)
  | [] => some []

/-- Whether the characters are a number: sign, integer, fraction and exponent. -/
def isNumber (cs : List Char) : Bool :=
  let unsigned := match cs with
    | '-' :: rest => rest
    | cs => cs
  (dropInteger? unsigned >>= dropFraction? >>= dropExponent?) matches some []

/-- The value spelled by a run of characters. -/
def ofBare? (cs : List Char) : Option Json :=
  if cs = "null".toList then some .null
  else if cs = "true".toList then some (.bool true)
  else if cs = "false".toList then some (.bool false)
  else if isNumber cs then some (.number (String.ofList cs))
  else none

/-! ### Strings -/

/-- Joins surrogate pairs; an unpaired one gives no text. -/
def joinSurrogates : List Nat → Option (List Char)
  | [] => some []
  | u :: rest =>
    if 0xDC00 ≤ u ∧ u < 0xE000 then none
    else if 0xD800 ≤ u ∧ u < 0xDC00 then
      match rest with
      | v :: rest =>
        if 0xDC00 ≤ v ∧ v < 0xE000 then
          (joinSurrogates rest).map (Char.ofNat (0x10000 + 0x400 * (u - 0xD800) + (v - 0xDC00)) :: ·)
        else none
      | [] => none
    else (joinSurrogates rest).map (Char.ofNat u :: ·)

/-- The character that a one-letter escape stands for. -/
def unescape? (c : Char) : Option Nat :=
  match c with
  | '"' => some 0x22
  | '\\' => some 0x5C
  | '/' => some 0x2F
  | 'b' => some 0x8
  | 'f' => some 0xC
  | 'n' => some 0xA
  | 'r' => some 0xD
  | 't' => some 0x9
  | _ => none

/-! ### The automaton -/

/-- Where in a string the scanner is. -/
inductive Escape where
  | outside
  | begun
  | digits (missing value : Nat)

/-- Characters and code points are collected with the last one first. -/
inductive Scanner where
  | between
  | bare (chars : List Char)
  | quoted (points : List Nat) (escape : Escape)

namespace Scanner

def isBare (c : Char) : Bool := c.isAlphanum || c == '+' || c == '-' || c == '.'

/-- The effect of a character that belongs to no number, keyword or string in progress. -/
def fresh (c : Char) : Option (List Token × Scanner) :=
  if c = ' ' ∨ c = '\t' ∨ c = '\n' ∨ c = '\r' then some ([], between)
  else if isBare c then some ([], bare [c])
  else match c with
    | '"' => some ([], quoted [] .outside)
    | '[' => some ([.leftBracket], between)
    | ']' => some ([.rightBracket], between)
    | '\x7b' => some ([.leftBrace], between)
    | '\x7d' => some ([.rightBrace], between)
    | ',' => some ([.comma], between)
    | ':' => some ([.colon], between)
    | _ => none

def inString (points : List Nat) (escape : Escape) (c : Char) : Option (List Token × Scanner) :=
  match escape with
  | .outside =>
    if c = '"' then
      some ([.scalar (.string ((joinSurrogates points.reverse).map String.ofList))], between)
    else if c = '\\' then some ([], quoted points .begun)
    else if c.toNat < 0x20 then none
    else some ([], quoted (c.toNat :: points) .outside)
  | .begun =>
    if c = 'u' then some ([], quoted points (.digits 4 0))
    else (unescape? c).map fun u => ([], quoted (u :: points) .outside)
  | .digits missing value => do
    let d ← Numeral.digit? 16 c
    let value := 16 * value + d
    if missing ≤ 1 then return ([], quoted (value :: points) .outside)
    else return ([], quoted points (.digits (missing - 1) value))

def advance (s : Scanner) (c : Char) : Option (List Token × Scanner) :=
  match s with
  | between => fresh c
  | bare chars =>
    if isBare c then some ([], bare (c :: chars))
    else do
      let value ← ofBare? chars.reverse
      let (tokens, next) ← fresh c
      return (.scalar value :: tokens, next)
  | quoted points escape => inString points escape c

end Scanner

/-- The tokens of a text, by accumulation of those found so far with the last one first. -/
def tokensFrom (found : List Token) (s : Scanner) : List Char → Option (List Token)
  | [] =>
    match s with
    | .between => some found.reverse
    | .bare chars => (ofBare? chars.reverse).map fun value => (.scalar value :: found).reverse
    | .quoted _ _ => none
  | c :: rest =>
    match s.advance c with
    | none => none
    | some (tokens, next) => tokensFrom (tokens.reverse ++ found) next rest

def tokens? (cs : List Char) : Option (List Token) := tokensFrom [] .between cs

end Msp430.Json
