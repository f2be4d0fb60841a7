/-!
# Request targets

A target is a path with a query, or these behind a scheme and an authority. Any other target has no
path: it is an authority alone, or the asterisk. A fragment counts for nothing.
-/

namespace Msp430

/-- The parts of a target that choose a call and its arguments. -/
structure Target where
  path : List Char := []
  query : List Char := []
deriving DecidableEq, Repr, Inhabited

namespace Target

/-- Cuts at the first question mark. -/
def ofPathAndQuery (cs : List Char) : Target where
  path := cs.takeWhile (· ≠ '?')
  query := (cs.dropWhile (· ≠ '?')).drop 1

def isSchemeChar (c : Char) : Bool := c.isAlphanum || c == '+' || c == '-' || c == '.' || c == '~'

/-- What follows a scheme and its mark, if the characters begin with these. -/
def afterScheme? (cs : List Char) : Option (List Char) :=
  match cs.dropWhile isSchemeChar with
  | ':' :: '/' :: '/' :: rest => some rest
  | _ => none

/-- What follows an authority, which ends where the path or the query begins. -/
def afterAuthority (cs : List Char) : List Char := cs.dropWhile fun c => c != '/' && c != '?'

def ofString (s : String) : Target :=
  let cs := s.toList.takeWhile (· ≠ '#')
  match cs with
  | '/' :: _ => ofPathAndQuery cs
  | _ =>
    match afterScheme? cs with
    | some rest => ofPathAndQuery (afterAuthority rest)
    | none => {}

end Target

end Msp430
