import Msp430.KeyValue.Store

/-!
# Commands

The jobs that clients can send, as data, and the replies they get.
-/

namespace Msp430.KeyValue

inductive Command where
  | get (key : String)
  | set (key : String) (content : Bytes)
  | del (key : String)
  | getRange (key : String) (first last : Int64)
  | pushFront (key : String) (item : Bytes)
  | trim (key : String) (first last : Int64)
  | range (key : String) (first last : Int64)
  | pushBounded (key : String) (item : Bytes) (last : Int64)
deriving DecidableEq, Repr, Inhabited

inductive Reply where
  | done
  | present (was : Bool)
  | length (n : Nat)
  | value (content : Option Bytes)
  | bytes (content : Bytes)
  | list (items : List Bytes)
deriving DecidableEq, Repr, Inhabited

namespace Command

def key : Command → String
  | get key | set key _ | del key | getRange key _ _ | pushFront key _ | trim key _ _
  | range key _ _ | pushBounded key _ _ => key

def job : Command → Job Reply
  | get key => return .value (← KeyValue.get key)
  | set key content => do KeyValue.set key content; return .done
  | del key => return .present (← KeyValue.del key)
  | getRange key first last => return .bytes (← KeyValue.getRange key first last)
  | pushFront key item => return .length (← KeyValue.pushFront key item)
  | trim key first last => do KeyValue.trim key first last; return .done
  | range key first last => return .list (← KeyValue.range key first last)
  | pushBounded key item last => do KeyValue.pushBounded key item last; return .done

/-- The reply to a command and the store after it. -/
def run (c : Command) (store : Store) : Except Error Reply × Store :=
  match c.job.run store with
  | .ok reply store => (.ok reply, store)
  | .error e store => (.error e, store)

end Command

end Msp430.KeyValue
