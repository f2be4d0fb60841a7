import Msp430.Fault
import Msp430.Memory.Cells

/-!
# Memory

64 KiB of bytes and a console. A byte or word stored at a console cell is printed and not kept. Words
lie at even addresses, and neither they nor an instruction fetch may reach past the end.
-/

namespace Msp430

structure Memory where
  cells : Cells 16
  console : Array UInt8

namespace Memory

def empty : Memory := { cells := .fill 0 16, console := #[] }

instance : Inhabited Memory := ⟨empty⟩

/-- The two cells of the console. -/
def isConsole (a : UInt16) : Bool := a = 0x05CE || a = 0x05CF

/-- The last address at which an instruction may start. -/
def lastFetch : UInt16 := 0xFFFA

/-- The last address at which a word may start. -/
def lastWord : UInt16 := 0xFFFC

/-- The byte at an address. -/
def byteAt (m : Memory) (a : UInt16) : UInt8 := m.cells.get a.toNat

/-- Puts a byte at an address, whether it is a console cell or not. -/
def put (m : Memory) (a : UInt16) (b : UInt8) : Memory := { m with cells := m.cells.set a.toNat b }

def print (m : Memory) (b : UInt8) : Memory := { m with console := m.console.push b }

/-- Six bytes for an instruction to be decoded from. -/
def fetch (m : Memory) (a : UInt16) : Except Fault (Vector UInt8 6) :=
  if lastFetch < a then .error (.addressTooHigh a)
  else if a % 2 = 1 then .error (.addressUnaligned a)
  else .ok (.ofFn fun i => m.byteAt (a + .ofNat i.val))

/-- Whether a word may be accessed at an address. -/
def checkWord (a : UInt16) : Except Fault Unit :=
  if a % 2 = 1 then .error (.addressUnaligned a)
  else if lastWord < a then .error (.addressTooHigh a)
  else .ok ()

def loadWord (m : Memory) (a : UInt16) : Except Fault UInt16 := do
  checkWord a
  return wordOf (m.byteAt a) (m.byteAt (a + 1))

def storeByte (m : Memory) (a : UInt16) (b : UInt8) : Memory :=
  if isConsole a then m.print b else m.put a b

def storeWord (m : Memory) (a : UInt16) (w : UInt16) : Except Fault Memory := do
  checkWord a
  if isConsole a then return m.print (lowByte w)
  else return (m.put a (lowByte w)).put (a + 1) (highByte w)

/-- Zeroes every byte; what was printed stays. -/
def clear (m : Memory) : Memory := { m with cells := .fill 0 16 }

/-- A stretch of bytes, which may end at the last address but not go past it. -/
def read (m : Memory) (a length : UInt16) : Except Fault Bytes :=
  if 0x10000 < a.toNat + length.toNat then .error (.addressTooHigh a)
  else .ok ((List.range length.toNat).map fun k => m.byteAt (a + .ofNat k))

/-- The console output so far and the memory with an empty console. -/
def takeConsole (m : Memory) : Bytes × Memory := (m.console.toList, { m with console := #[] })

/-- Stores bytes at consecutive addresses, from the last address on to the first. -/
def storeBytes (m : Memory) (a : UInt16) : Bytes → Memory
  | [] => m
  | b :: rest => (m.storeByte a b).storeBytes (a + 1) rest

/-! ### Occupied stretches -/

/-- Adds the byte at an address to the stretches at higher addresses. -/
def extendStretch (a : Nat) (b : UInt8) (stretches : List (Nat × Bytes)) : List (Nat × Bytes) :=
  if b = 0 then stretches
  else match stretches with
    | (start, bs) :: rest => if start = a + 1 then (a, b :: bs) :: rest else (a, [b]) :: stretches
    | [] => [(a, [b])]

/-- The longest stretches of non-zero bytes with their addresses, in ascending order. -/
def stretches (m : Memory) : List (Nat × Bytes) :=
  (m.cells.toList.foldr (fun b (a, found) => (a - 1, extendStretch (a - 1) b found)) (0x10000, [])).2

/-! ### Bytes after an operation -/

theorem ext {m m' : Memory} (h : ∀ a, m.byteAt a = m'.byteAt a) (hc : m.console = m'.console) :
    m = m' := by
  obtain ⟨c, p⟩ := m
  obtain ⟨c', p'⟩ := m'
  obtain rfl : p = p' := hc
  have cells : c = c' := Cells.ext fun a => by
    have reduce (e : Cells 16) : e.get (UInt16.ofNat a).toNat = e.get a :=
      e.get_congr fun i hi => by
        rw [UInt16.toNat_ofNat', Nat.testBit_mod_two_pow]
        simp [hi]
    have same := h (.ofNat a)
    rwa [byteAt, byteAt, reduce, reduce] at same
  rw [cells]

@[grind =] theorem byteAt_put (m : Memory) (a : UInt16) (b : UInt8) (a' : UInt16) :
    (m.put a b).byteAt a' = if a' = a then b else m.byteAt a' := by
  have key : (∀ i < 16, a'.toNat.testBit i = a.toNat.testBit i) ↔ a' = a := by
    refine ⟨fun h => UInt16.toNat_inj.mp (Nat.eq_of_testBit_eq fun i => ?_), fun h _ _ => by rw [h]⟩
    by_cases hi : i < 16
    · exact h i hi
    · have hp : 2 ^ 16 ≤ 2 ^ i := Nat.pow_le_pow_right (by decide) (by omega)
      rw [Nat.testBit_lt_two_pow (Nat.lt_of_lt_of_le a'.toNat_lt hp),
        Nat.testBit_lt_two_pow (Nat.lt_of_lt_of_le a.toNat_lt hp)]
  simp only [byteAt, put, Cells.get_set, key]

@[simp] theorem console_put (m : Memory) (a : UInt16) (b : UInt8) : (m.put a b).console = m.console := rfl

@[simp] theorem byteAt_print (m : Memory) (b : UInt8) (a : UInt16) :
    (m.print b).byteAt a = m.byteAt a := rfl

@[simp] theorem byteAt_clear (m : Memory) (a : UInt16) : m.clear.byteAt a = 0 := by
  simp [byteAt, clear]

@[simp] theorem console_clear (m : Memory) : m.clear.console = m.console := rfl

@[simp] theorem byteAt_empty (a : UInt16) : empty.byteAt a = 0 := by simp [byteAt, empty]

end Memory

end Msp430
