import Std.Data.ExtTreeMap
import Msp430.Bytes
import Msp430.KeyValue.Window

/-!
# The key/value store

A key holds a byte string or a list of byte strings. Each operation is a job that runs alone on the
store; a job that meets a value of the other kind fails.
-/

namespace Msp430.KeyValue

inductive Error where
  | notFound (key : String)
  | wrongType (key : String)
  | unavailable
deriving DecidableEq, Repr, Inhabited

def Error.message : Error → String
  | notFound key => "key not found: " ++ key
  | wrongType key => "wrong kind of value held at key " ++ key
  | unavailable => "key/value store is unavailable"

inductive Value where
  | bytes (content : Bytes)
  | list (items : List Bytes)
deriving DecidableEq, Repr, Inhabited

abbrev Store := Std.ExtTreeMap String Value

/-- What one client asks of the store in one piece. -/
abbrev Job (α : Type) := EStateM Error Store α

/-- The byte string at a key. -/
def get (key : String) : Job (Option Bytes) := do
  match (← getThe Store)[key]? with
  | none => return none
  | some (.bytes content) => return some content
  | some (.list _) => throw (.wrongType key)

/-- The list at a key; an absent key holds the empty list. -/
def items (key : String) : Job (List Bytes) := do
  match (← getThe Store)[key]? with
  | none => return []
  | some (.list items) => return items
  | some (.bytes _) => throw (.wrongType key)

/-- Puts a byte string at a key, whatever the key held before. -/
def set (key : String) (content : Bytes) : Job Unit := modify (·.insert key (.bytes content))

/-- Removes a key and tells whether it was there. -/
def del (key : String) : Job Bool := do
  let store ← getThe Store
  modify (·.erase key)
  return store.contains key

/-- The bytes in a window of the string at a key. -/
def getRange (key : String) (first last : Int64) : Job Bytes := do
  return slice ((← get key).getD []) first last

/-- Puts a new head on the list at a key and gives the length. -/
def pushFront (key : String) (item : Bytes) : Job Nat := do
  let old ← items key
  modify (·.insert key (.list (item :: old)))
  return old.length + 1

/-- Keeps the elements in a window of the list at a key; an empty list is no longer held. -/
def trim (key : String) (first last : Int64) : Job Unit := do
  match slice (← items key) first last with
  | [] => modify (·.erase key)
  | kept => modify (·.insert key (.list kept))

/-- The elements in a window of the list at a key. -/
def range (key : String) (first last : Int64) : Job (List Bytes) := do
  return slice (← items key) first last

/-- Puts a new head on the list at a key and keeps the elements up to index `last`. -/
def pushBounded (key : String) (item : Bytes) (last : Int64) : Job Unit := do
  let _ ← pushFront key item
  trim key 0 last

end Msp430.KeyValue
