import Msp430.Json.Token

/-!
# Reading JSON

`parse?` folds the tokens of a text into a value. The containers that are still open are kept on an
explicit stack, so nesting may be of any depth.
-/

namespace Msp430.Json

/-- A container still open, with its contents in reverse order. -/
inductive Frame where
  | array (items : List Json)
  | object (members : List (Option String × Json))
  | member (members : List (Option String × Json)) (key : Option String)

/-- What may come next. -/
inductive Expect where
  | value
  | itemOrEnd
  | key
  | keyOrEnd
  | colon
  | separator
  | nothing (result : Json)

structure Reader where
  frames : List Frame
  expect : Expect

namespace Reader

def start : Reader := ⟨[], .value⟩

/-- Puts a finished value into the innermost open container. -/
def deliver (frames : List Frame) (v : Json) : Option Reader :=
  match frames with
  | [] => some ⟨[], .nothing v⟩
  | .array items :: rest => some ⟨.array (v :: items) :: rest, .separator⟩
  | .member members key :: rest => some ⟨.object ((key, v) :: members) :: rest, .separator⟩
  | .object _ :: _ => none

/-- The effect of a token that begins a value. -/
def beginValue (frames : List Frame) : Token → Option Reader
  | .scalar v => deliver frames v
  | .leftBracket => some ⟨.array [] :: frames, .itemOrEnd⟩
  | .leftBrace => some ⟨.object [] :: frames, .keyOrEnd⟩
  | _ => none

def beginMember (frames : List Frame) : Token → Option Reader
  | .scalar (.string key) =>
    match frames with
    | .object members :: rest => some ⟨.member members key :: rest, .colon⟩
    | _ => none
  | _ => none

/-- Closes the innermost container if the token is its bracket. -/
def close (frames : List Frame) (t : Token) : Option Reader :=
  match frames, t with
  | .array items :: rest, .rightBracket => deliver rest (.array items.reverse)
  | .object members :: rest, .rightBrace => deliver rest (.object members.reverse)
  | _, _ => none

def advance (r : Reader) (t : Token) : Option Reader :=
  match r.expect, t with
  | .value, t => beginValue r.frames t
  | .itemOrEnd, .rightBracket => close r.frames t
  | .itemOrEnd, t => beginValue r.frames t
  | .keyOrEnd, .rightBrace => close r.frames t
  | .keyOrEnd, t => beginMember r.frames t
  | .key, t => beginMember r.frames t
  | .colon, .colon => some { r with expect := .value }
  | .separator, .comma =>
    match r.frames with
    | .array _ :: _ => some { r with expect := .value }
    | _ => some { r with expect := .key }
  | .separator, t => close r.frames t
  | _, _ => none

end Reader

/-- The value that a text spells. -/
def parse? (s : String) : Option Json := do
  let tokens ← tokens? s.toList
  let final ← tokens.foldlM Reader.advance .start
  match final.expect with
  | .nothing result => some result
  | _ => none

end Msp430.Json
