import Msp430.Memory.Bus
import Msp430.Text.Blank
import Msp430.Text.Numeral
import Msp430.Text.Utf8

/-!
# Firmware images

An image is a text of records, one a line. A record has a mark, a count of data bytes, an address, a
type, the data and a checksum, all but the mark in hexadecimal digits at fixed byte offsets. Loading
stores the bytes of data records in order and stops at an end record; checksums are not checked.
-/

namespace Msp430.Image

/-- Why an image cannot be loaded; lines count from one. -/
inductive Error where
  | lineTooShort (line : Nat)
  | badHex (line : Nat) (cause : Numeral.Defect)
  | notText
  | memory (cause : Fault)
deriving DecidableEq, Repr, Inhabited

def Error.message : Error → String
  | lineTooShort line => s!"line {line}: record too short"
  | badHex line _ => s!"line {line}: bad hex digits"
  | notText => "can't read image: stream did not contain valid UTF-8"
  | memory cause => cause.message

/-- The pieces between line ends. -/
def lines : Bytes → List Bytes
  | [] => [[]]
  | b :: rest =>
    if b = 0x0A then [] :: lines rest
    else match lines rest with
      | line :: others => (b :: line) :: others
      | [] => [[b]]

/-- Whether a byte offset falls between two characters of a line. -/
def isBoundary (text : Bytes) (offset : Nat) : Bool :=
  match text[offset]? with
  | some b => !(0x80 ≤ b && b < 0xC0)
  | none => offset = text.length

/-- The bytes of a field, which is empty unless it lies within the line on character boundaries. -/
def fieldBytes (text : Bytes) (offset digits : Nat) : Bytes :=
  if isBoundary text offset && isBoundary text (offset + digits) then (text.drop offset).take digits
  else []

/-- The number in a field of hexadecimal digits. -/
def field (line : Nat) (text : Bytes) (offset digits : Nat) : Except Error Nat :=
  match Numeral.read 16 0xFFFF ((fieldBytes text offset digits).map fun b => Char.ofNat b.toNat) with
  | .ok n => .ok n
  | .error cause => .error (.badHex line cause)

/-- The fixed part of a record. -/
structure Header where
  count : Nat
  address : UInt16
  kind : Nat
deriving DecidableEq, Repr

namespace Header

def isData (h : Header) : Bool := h.kind = 0

def isEnd (h : Header) : Bool := h.kind = 1

/-- The header of a line that is not empty. -/
def read (line : Nat) (text : Bytes) : Except Error Header := do
  if text.length < 3 then throw (.lineTooShort line)
  let count ← field line text 1 2
  if text.length < 11 + 2 * count then throw (.lineTooShort line)
  let address ← field line text 3 4
  let kind ← field line text 7 2
  return { count, address := .ofNat address, kind }

end Header

/-- A line as text without the blanks at its end. -/
def trimLine (raw : Bytes) : Except Error Bytes :=
  match Utf8.decode? raw with
  | some cs => .ok (Utf8.encode (trimEnd cs))
  | none => .error .notText

variable [Bus μ]

def lift (x : Except Error α) : EStateM Error μ α := fun m =>
  match x with
  | .ok v => .ok v m
  | .error e => .error e m

def storeByte (a : UInt16) (b : UInt8) : EStateM Error μ Unit := fun m =>
  match Bus.storeByte a b m with
  | .ok v m => .ok v m
  | .error f m => .error (.memory f) m

/-- Stores the data bytes from the `k`-th on, `missing` of them. -/
def loadData (line : Nat) (text : Bytes) (address : UInt16) (k : Nat) : Nat → EStateM Error μ Unit
  | 0 => pure ()
  | missing + 1 => do
    let b ← lift (field line text (9 + 2 * k) 2)
    storeByte address (.ofNat b)
    loadData line text (address + 1) (k + 1) missing

/-- Loads the lines from number `line` on and adds the bytes stored to `written`. -/
def loadLines (line written : Nat) : List Bytes → EStateM Error μ Nat
  | [] => pure written
  | raw :: rest => do
    let text ← lift (trimLine raw)
    if text.isEmpty then loadLines (line + 1) written rest
    else
      let h ← lift (Header.read line text)
      if h.isEnd then pure written
      else if h.isData then
        loadData line text h.address 0 h.count
        loadLines (line + 1) (written + h.count) rest
      else loadLines (line + 1) written rest

/-- Clears the memory, loads an image into it and counts the bytes stored. -/
def load (image : Bytes) : EStateM Error μ Nat := do
  modify Bus.clear
  loadLines 1 0 (lines image)

end Msp430.Image
