import Msp430.Json.Basic

/-!
# Records

Reading a JSON value at an expected type. A record may be an object, in which unknown members are
passed over and a known one may stand only once, or an array of its fields in order.
-/

namespace Msp430.Json

/-- An integer from 0 to `limit`: digits alone, the first of them not a needless zero. -/
def natAtMost? (limit : Nat) : Json → Option Nat
  | number spelling =>
    if spelling.toList.all Char.isDigit then
      let n := spelling.toList.foldl (fun n c => 10 * n + (c.toNat - '0'.toNat)) 0
      if n ≤ limit then some n else none
    else none
  | _ => none

def word? (j : Json) : Option UInt16 := (natAtMost? 0xFFFF j).map UInt16.ofNat

def string? : Json → Option String
  | string s => s
  | _ => none

/-- A value of the given kind, or nothing for `null`. -/
def nullable? (read : Json → Option α) : Json → Option (Option α)
  | null => some none
  | j => (read j).map some

/-- The values of a known member; more than one is refused. -/
def member? (members : List (Option String × Json)) (name : String) : Option (Option Json) :=
  match members.filter (·.1 == some name) with
  | [] => some none
  | [(_, v)] => some (some v)
  | _ => none

/-- How an array may stand for a record. -/
inductive ArrayForm where
  | exact
  | atMost
deriving DecidableEq

/-- The values of the named fields, in order; a field without a value is `none`. -/
def fields? (form : ArrayForm) (names : List String) : Json → Option (List (Option Json))
  | object members =>
    if members.all (·.1.isSome) then names.mapM (member? members) else none
  | array items =>
    if items.length = names.length ∨ (form = .atMost ∧ items.length < names.length) then
      some (items.map some ++ List.replicate (names.length - items.length) none)
    else none
  | _ => none

/-- The value of a field that must be there. -/
def required? (read : Json → Option α) (field : Option Json) : Option α := field >>= read

/-- The value of a field that may be missing. -/
def withDefault? (default : α) (read : Json → Option α) : Option Json → Option α
  | none => some default
  | some j => read j

end Msp430.Json
