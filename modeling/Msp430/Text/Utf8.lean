import Msp430.Bytes

/-!
# UTF-8

Byte strings are read by an automaton that looks at one byte at a time. `scalars` lists what it finds:
characters, and `none` for each maximal run of bytes that begins a character and does not finish it.
`decode?` accepts a text without such runs and `decodeLossy` puts U+FFFD in their place.
-/

namespace Msp430.Utf8

def encode (cs : List Char) : Bytes := cs.flatMap String.utf8EncodeChar

def ofString (s : String) : Bytes := encode s.toList

/-- A character begun: the code so far, the bytes still missing and the bounds of the next one. -/
structure Open where
  code : Nat
  missing : Nat
  low : UInt8 := 0x80
  high : UInt8 := 0xBF

/-- The first byte of a character. -/
def lead (b : UInt8) : List (Option Char) × Option Open :=
  let n := b.toNat
  if n < 0x80 then ([some (Char.ofNat n)], none)
  else if n < 0xC2 then ([none], none)
  else if n < 0xE0 then ([], some { code := n - 0xC0, missing := 1 })
  else if n = 0xE0 then ([], some { code := 0, missing := 2, low := 0xA0 })
  else if n = 0xED then ([], some { code := 0xD, missing := 2, high := 0x9F })
  else if n < 0xF0 then ([], some { code := n - 0xE0, missing := 2 })
  else if n = 0xF0 then ([], some { code := 0, missing := 3, low := 0x90 })
  else if n = 0xF4 then ([], some { code := 4, missing := 3, high := 0x8F })
  else if n < 0xF4 then ([], some { code := n - 0xF0, missing := 3 })
  else ([none], none)

/-- What one more byte completes, and the character then begun. -/
def advance (state : Option Open) (b : UInt8) : List (Option Char) × Option Open :=
  match state with
  | none => lead b
  | some o =>
    if o.low ≤ b ∧ b ≤ o.high then
      let code := 64 * o.code + b.toNat % 64
      if o.missing ≤ 1 then ([some (Char.ofNat code)], none)
      else ([], some { code, missing := o.missing - 1 })
    else
      let (found, next) := lead b
      (none :: found, next)

def scalarsFrom (state : Option Open) : Bytes → List (Option Char)
  | [] => if state.isSome then [none] else []
  | b :: rest =>
    let (found, next) := advance state b
    found ++ scalarsFrom next rest

def scalars (bs : Bytes) : List (Option Char) := scalarsFrom none bs

def decode? (bs : Bytes) : Option (List Char) := (scalars bs).mapM id

def decodeLossy (bs : Bytes) : String := String.ofList ((scalars bs).map (·.getD '\ufffd'))

end Msp430.Utf8
