import Msp430.Isa.Instruction

/-!
# Registers and status flags

Sixteen words. The status register holds five flags, each in a bit of its own; setting one leaves the
other bits alone.
-/

namespace Msp430

structure Registers where
  values : Vector UInt16 16
deriving DecidableEq, Repr

namespace Registers

def zero : Registers := ⟨.replicate 16 0⟩

instance : Inhabited Registers := ⟨zero⟩

def get (rs : Registers) (r : Reg) : UInt16 := rs.values[r.val]

def set (rs : Registers) (r : Reg) (v : UInt16) : Registers := ⟨rs.values.set r.val v⟩

def toList (rs : Registers) : List UInt16 := rs.values.toList

def pc (rs : Registers) : UInt16 := rs.get .pc

def sp (rs : Registers) : UInt16 := rs.get .sp

def sr (rs : Registers) : UInt16 := rs.get .sr

@[grind =] theorem get_set (rs : Registers) (r r' : Reg) (v : UInt16) :
    (rs.set r v).get r' = if r' = r then v else rs.get r' := by
  simp only [get, set, Vector.getElem_set, Fin.ext_iff, eq_comm]

theorem ext {rs rs' : Registers} (h : ∀ r, rs.get r = rs'.get r) : rs = rs' := by
  obtain ⟨v⟩ := rs
  obtain ⟨v'⟩ := rs'
  exact congrArg mk (Vector.ext fun i hi => h ⟨i, hi⟩)

end Registers

/-! ### Flags -/

inductive Flag where
  | carry
  | zero
  | negative
  | cpuOff
  | overflow
deriving DecidableEq, Repr, Inhabited

namespace Flag

/-- The bit of a flag in the status register. -/
def mask : Flag → UInt16
  | carry => 0x0001
  | zero => 0x0002
  | negative => 0x0004
  | cpuOff => 0x0010
  | overflow => 0x0100

def label : Flag → String
  | carry => "carry"
  | zero => "zero"
  | negative => "negative"
  | cpuOff => "cpu_off"
  | overflow => "overflow"

def all : List Flag := [carry, zero, negative, cpuOff, overflow]

end Flag

namespace Registers

def flag (rs : Registers) (f : Flag) : Bool := rs.sr &&& f.mask != 0

def setFlag (rs : Registers) (f : Flag) (on : Bool) : Registers :=
  rs.set .sr (if on then rs.sr ||| f.mask else rs.sr &&& ~~~f.mask)

/-- Whether the processor is switched off. -/
def halted (rs : Registers) : Bool := rs.flag .cpuOff

end Registers

end Msp430
