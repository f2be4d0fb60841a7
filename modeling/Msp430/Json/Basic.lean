import Msp430.Text.Hex

/-!
# JSON values

Numbers keep their spelling, so that reading one for an integer can be strict. A string whose escapes
leave a surrogate without its partner is well formed but names no text; it is held as `none`.
-/

namespace Msp430

inductive Json where
  | null
  | bool (b : Bool)
  | number (spelling : String)
  | string (text : Option String)
  | array (items : List Json)
  | object (members : List (Option String × Json))
deriving Inhabited

namespace Json

def text (s : String) : Json := .string (some s)

def nat (n : Nat) : Json := .number (toString n)

def word (w : UInt16) : Json := nat w.toNat

def int (n : Int) : Json := .number (toString n)

def record (members : List (String × Json)) : Json := .object (members.map fun (k, v) => (some k, v))

/-! ### Writing -/

def escape (c : Char) : List Char :=
  if c = '"' then ['\\', '"']
  else if c = '\\' then ['\\', '\\']
  else if c.toNat < 0x20 then ['\\', 'u'] ++ Hex.wordDigits (UInt16.ofNat c.toNat)
  else [c]

/-- A quoted string; an unpaired surrogate is written as the replacement character. -/
def quote (s : Option String) : String :=
  String.ofList ('"' :: (s.getD "\ufffd").toList.flatMap escape ++ ['"'])

mutual

def render : Json → String
  | null => "null"
  | bool true => "true"
  | bool false => "false"
  | number spelling => spelling
  | string s => quote s
  | array items => "[" ++ renderItems items ++ "]"
  | object members => "\x7b" ++ renderMembers members ++ "\x7d"

def renderItems : List Json → String
  | [] => ""
  | [item] => render item
  | item :: rest => render item ++ "," ++ renderItems rest

def renderMembers : List (Option String × Json) → String
  | [] => ""
  | [(key, value)] => quote key ++ ":" ++ render value
  | (key, value) :: rest => quote key ++ ":" ++ render value ++ "," ++ renderMembers rest

end

end Json

end Msp430
