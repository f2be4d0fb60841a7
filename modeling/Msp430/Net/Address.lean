import Msp430.Text.Hex

/-!
# Socket addresses

An address of either family and the number behind its colon. The text of a version 6 address leaves out
the longest run of zero groups, the first of equals, if it is longer than one.
-/

namespace Msp430.Net

structure Ip4 where
  octets : Vector UInt8 4
deriving DecidableEq, Repr

structure Ip6 where
  groups : Vector UInt16 8
deriving DecidableEq, Repr

inductive SocketAddress where
  | v4 (ip : Ip4) (portNumber : UInt16)
  | v6 (ip : Ip6) (scope : UInt32) (portNumber : UInt16)
deriving DecidableEq, Repr

namespace Ip4

def text (ip : Ip4) : String := ".".intercalate (ip.octets.toList.map fun b => toString b.toNat)

end Ip4

namespace Ip6

/-- The version 4 address that the last two groups hold, if the first six mark it as such. -/
def mapped? (ip : Ip6) : Option Ip4 :=
  match ip.groups.toList with
  | [0, 0, 0, 0, 0, 0xFFFF, a, b] =>
    some ⟨#v[.ofNat (a.toNat / 256), .ofNat a.toNat, .ofNat (b.toNat / 256), .ofNat b.toNat]⟩
  | _ => none

/-- The number of zero groups at the front. -/
def zeroRun (groups : List UInt16) : Nat := (groups.takeWhile (· = 0)).length

/-- The start and length of the longest run of zero groups, the first of equals. -/
def longestZeros (groups : List UInt16) : Nat × Nat :=
  (List.range groups.length).foldl
    (fun best start =>
      let length := zeroRun (groups.drop start)
      if best.2 < length then (start, length) else best)
    (0, 0)

/-- The lower-case digits of a group without leading zeros. -/
def groupText (g : UInt16) : String := String.ofList (Nat.toDigits 16 g.toNat)

def groupsText (groups : List UInt16) : String := ":".intercalate (groups.map groupText)

def text (ip : Ip6) : String :=
  match ip.mapped? with
  | some ip4 => "::ffff:" ++ ip4.text
  | none =>
    let groups := ip.groups.toList
    let (start, length) := longestZeros groups
    if 1 < length then
      groupsText (groups.take start) ++ "::" ++ groupsText (groups.drop (start + length))
    else groupsText groups

end Ip6

namespace SocketAddress

def text : SocketAddress → String
  | v4 ip number => ip.text ++ ":" ++ toString number.toNat
  | v6 ip scope number =>
    let zone := if scope = 0 then "" else "%" ++ toString scope.toNat
    "[" ++ ip.text ++ zone ++ "]:" ++ toString number.toNat

end SocketAddress

end Msp430.Net
