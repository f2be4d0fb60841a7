import Msp430.Net.Address
import Msp430.Text.Numeral

/-!
# Reading socket addresses

Each reader takes what it accepts from the front of a text and gives the rest. A version 6 address may
leave out a run of groups once, and its last two groups may be written as a version 4 address.
-/

namespace Msp430.Net

abbrev Reader (α : Type) := List Char → Option (α × List Char)

def readChar (c : Char) : Reader Unit
  | c' :: rest => if c' = c then some ((), rest) else none
  | [] => none

def isDigit (radix : Nat) (c : Char) : Bool := (Numeral.digit? radix c).isSome

/-- One or more digits of a number that is at most `limit`. -/
def readNumber (radix limit : Nat) : Reader Nat := fun cs =>
  match cs.takeWhile (isDigit radix) with
  | [] => none
  | digits =>
    match Numeral.readDigits radix limit 0 digits with
    | .ok n => some (n, cs.dropWhile (isDigit radix))
    | .error _ => none

/-- A number of at most `width` digits. -/
def readShort (radix limit width : Nat) : Reader Nat := fun cs =>
  if width < (cs.takeWhile (isDigit radix)).length then none else readNumber radix limit cs

/-- One to three decimal digits, the first of them not a needless zero. -/
def readOctet : Reader UInt8 := fun cs =>
  match cs with
  | '0' :: c :: _ => if isDigit 10 c then none else (readShort 10 0xFF 3 cs).map fun (n, r) => (.ofNat n, r)
  | _ => (readShort 10 0xFF 3 cs).map fun (n, r) => (.ofNat n, r)

def readIp4 : Reader Ip4 := fun cs => do
  let (a, cs) ← readOctet cs
  let (_, cs) ← readChar '.' cs
  let (b, cs) ← readOctet cs
  let (_, cs) ← readChar '.' cs
  let (c, cs) ← readOctet cs
  let (_, cs) ← readChar '.' cs
  let (d, cs) ← readOctet cs
  return (⟨#v[a, b, c, d]⟩, cs)

/-- Up to four hexadecimal digits. -/
def readGroup : Reader UInt16 := fun cs => (readShort 16 0xFFFF 4 cs).map fun (n, r) => (.ofNat n, r)

/-- Reads after a colon, or without one at the front of an address. -/
def separated (first : Bool) (read : Reader α) : Reader α := fun cs =>
  if first then read cs else do
    let (_, cs) ← readChar ':' cs
    read cs

/-- Two groups written as a version 4 address. -/
def readTail : Reader (List UInt16) := fun cs => do
  let (ip, cs) ← readIp4 cs
  let pair (high low : UInt8) : UInt16 := .ofNat (256 * high.toNat + low.toNat)
  return ([pair ip.octets[0] ip.octets[1], pair ip.octets[2] ip.octets[3]], cs)

/-- As many groups as there are, at most `room`, and whether they end in a version 4 address. -/
def readGroups (first : Bool) : (room : Nat) → List Char → (List UInt16 × Bool) × List Char
  | 0, cs => (([], false), cs)
  | room + 1, cs =>
    match if 1 ≤ room then separated first readTail cs else none with
    | some (tail, rest) => ((tail, true), rest)
    | none =>
      match separated first readGroup cs with
      | some (g, rest) =>
        let ((groups, ended), rest) := readGroups false room rest
        ((g :: groups, ended), rest)
      | none => (([], false), cs)

/-- Eight groups from a list of so many. -/
def Ip6.ofList? (groups : List UInt16) : Option Ip6 :=
  if h : groups.toArray.size = 8 then some ⟨⟨groups.toArray, h⟩⟩ else none

def readIp6 : Reader Ip6 := fun cs => do
  let ((head, ended), cs) := readGroups true 8 cs
  if head.length = 8 then return (← Ip6.ofList? head, cs)
  if ended then none
  let (_, cs) ← readChar ':' cs
  let (_, cs) ← readChar ':' cs
  let ((tail, _), cs) := readGroups true (7 - head.length) cs
  let zeros := List.replicate (8 - head.length - tail.length) 0
  return (← Ip6.ofList? (head ++ zeros ++ tail), cs)

def readColonNumber : Reader UInt16 := fun cs => do
  let (_, cs) ← readChar ':' cs
  let (n, cs) ← readNumber 10 0xFFFF cs
  return (.ofNat n, cs)

def readV4 : Reader SocketAddress := fun cs => do
  let (ip, cs) ← readIp4 cs
  let (number, cs) ← readColonNumber cs
  return (.v4 ip number, cs)

/-- The number of a scope, which is zero if none is given. -/
def readScope : Reader UInt32 := fun cs =>
  match cs with
  | '%' :: rest =>
    match readNumber 10 0xFFFFFFFF rest with
    | some (n, rest) => some (.ofNat n, rest)
    | none => some (0, cs)
  | _ => some (0, cs)

def readV6 : Reader SocketAddress := fun cs => do
  let (_, cs) ← readChar '[' cs
  let (ip, cs) ← readIp6 cs
  let (scope, cs) ← readScope cs
  let (_, cs) ← readChar ']' cs
  let (number, cs) ← readColonNumber cs
  return (.v6 ip scope number, cs)

/-- The address that a whole text names. -/
def SocketAddress.parse? (s : String) : Option SocketAddress :=
  match (readV4 s.toList).orElse fun _ => readV6 s.toList with
  | some (address, []) => some address
  | _ => none

end Msp430.Net
