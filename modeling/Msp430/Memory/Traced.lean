import Msp430.Memory.Bus

/-!
# Traced memory

A memory that notes every access made to it, in order and whether or not it succeeds. It behaves as the
memory that it is built on.
-/

namespace Msp430

/-- What a memory-mapped device sees of an access. -/
inductive Touch where
  | fetch (a : UInt16)
  | load (w : Width) (a : UInt16)
  | store (w : Width) (a v : UInt16)
deriving DecidableEq, Repr, Inhabited

structure Traced (μ : Type) where
  memory : μ
  touches : List Touch

namespace Traced

/-- Makes an access and notes it. -/
def note (t : Touch) (x : Access μ α) : Access (Traced μ) α := fun m =>
  match x m.memory with
  | .ok v memory => .ok v { memory, touches := m.touches ++ [t] }
  | .error f memory => .error f { memory, touches := m.touches ++ [t] }

instance [Bus μ] : Bus (Traced μ) where
  fetch a := note (.fetch a) (Bus.fetch a)
  loadByte a := note (.load .byte a) (Bus.loadByte a)
  loadWord a := note (.load .word a) (Bus.loadWord a)
  storeByte a b := note (.store .byte a b.toUInt16) (Bus.storeByte a b)
  storeWord a v := note (.store .word a v) (Bus.storeWord a v)
  clear m := { m with memory := Bus.clear m.memory }

end Traced

end Msp430
