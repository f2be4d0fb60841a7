import Msp430.Memory.Basic
import Msp430.Width

/-!
# The bus

`Bus μ` is what the processor asks of a memory `μ`. An access leaves a memory behind whether it
succeeds or fails, because a hook may have acted before the failure.
-/

namespace Msp430

abbrev Access (μ α : Type) := EStateM Fault μ α

namespace Access

/-- An access that looks at the memory and leaves it as it is. -/
def look (f : μ → Except Fault α) : Access μ α := fun m =>
  match f m with
  | .ok v => .ok v m
  | .error e => .error e m

/-- An access that changes the memory if it succeeds. -/
def change (f : μ → Except Fault μ) : Access μ Unit := fun m =>
  match f m with
  | .ok m' => .ok () m'
  | .error e => .error e m

/-- An access to a part of a larger state. -/
def focus (part : σ → μ) (replace : σ → μ → σ) (x : Access μ α) : Access σ α := fun s =>
  match x (part s) with
  | .ok v m => .ok v (replace s m)
  | .error e m => .error e (replace s m)

end Access

class Bus (μ : Type) where
  fetch : UInt16 → Access μ (Vector UInt8 6)
  loadByte : UInt16 → Access μ UInt8
  loadWord : UInt16 → Access μ UInt16
  storeByte : UInt16 → UInt8 → Access μ Unit
  storeWord : UInt16 → UInt16 → Access μ Unit
  clear : μ → μ

namespace Bus

variable [Bus μ]

def load (w : Width) (a : UInt16) : Access μ UInt16 :=
  match w with
  | .byte => UInt8.toUInt16 <$> loadByte a
  | .word => loadWord a

/-- A byte store keeps the low byte of the value. -/
def store (w : Width) (a v : UInt16) : Access μ Unit :=
  match w with
  | .byte => storeByte a (lowByte v)
  | .word => storeWord a v

/-- Stores bytes at consecutive addresses, from the last address on to the first; the first failure ends
it. -/
def storeBytes (a : UInt16) : Bytes → Access μ Unit
  | [] => pure ()
  | b :: rest => do
    storeByte a b
    storeBytes (a + 1) rest

end Bus

instance : Bus Memory where
  fetch a := .look (·.fetch a)
  loadByte a := .look fun m => .ok (m.byteAt a)
  loadWord a := .look (·.loadWord a)
  storeByte a b := .change fun m => .ok (m.storeByte a b)
  storeWord a v := .change (·.storeWord a v)
  clear := Memory.clear

end Msp430
