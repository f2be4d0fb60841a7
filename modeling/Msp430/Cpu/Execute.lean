import Msp430.Cpu.Alu
import Msp430.Memory.Bus

/-!
# Executing an instruction

Operands are resolved to places in order, source first; a place is then loaded from and stored to. The
flags are set before the result is stored, so a result stored to the status register replaces them.
-/

namespace Msp430

/-- The registers and the memory they work with. -/
structure Machine (μ : Type) where
  registers : Registers
  memory : μ

/-- Where an operand is found. -/
inductive Place where
  | register (r : Reg)
  | memory (a : UInt16)
  | literal (v : UInt16)
deriving DecidableEq, Repr, Inhabited

/-- The value of a register in an operand; the constant generator reads as zero. -/
def Registers.base (rs : Registers) (r : Reg) : UInt16 := if r = .cg then 0 else rs.get r

namespace Operand

def place (rs : Registers) : Operand → Place
  | register r => .register r
  | indexed r offset => .memory (rs.base r + offset)
  | indirect r | autoIncrement r => .memory (rs.base r)
  | absolute a => .memory a
  | immediate v => .literal v
  | constant c => .literal c.value

/-- The registers after an operand has been resolved: an autoincrement moves its register on. -/
def advance (w : Width) (rs : Registers) : Operand → Registers
  | autoIncrement r => if r = .cg then rs else rs.set r (rs.get r + w.size)
  | _ => rs

end Operand

/-- Whether a jump with this condition is taken. -/
def Condition.holds (c : Condition) (rs : Registers) : Bool :=
  match c with
  | notZero => !rs.flag .zero
  | zero => rs.flag .zero
  | notCarry => !rs.flag .carry
  | carry => rs.flag .carry
  | negative => rs.flag .negative
  | greaterEqual => rs.flag .negative == rs.flag .overflow
  | less => rs.flag .negative != rs.flag .overflow
  | always => true

namespace Machine

variable [Bus μ]

def onMemory (x : Access μ α) : Access (Machine μ) α :=
  .focus Machine.memory (fun s m => { s with memory := m }) x

def getRegisters : Access (Machine μ) Registers := do return (← get).registers

def setRegisters (rs : Registers) : Access (Machine μ) Unit := modify ({ · with registers := rs })

def resolve (w : Width) (o : Operand) : Access (Machine μ) Place := do
  let rs ← getRegisters
  setRegisters (o.advance w rs)
  return o.place rs

def load (w : Width) : Place → Access (Machine μ) UInt16
  | .register r => do return w.trim ((← getRegisters).base r)
  | .memory a => onMemory (Bus.load w a)
  | .literal v => return w.trim v

/-- A byte stored to a register clears the high byte. -/
def store (w : Width) (p : Place) (v : UInt16) : Access (Machine μ) Unit :=
  match p with
  | .register r =>
    if r = .cg then throw (.badOperand .constantGenerator)
    else do setRegisters ((← getRegisters).set r (w.trim v))
  | .memory a => onMemory (Bus.store w a v)
  | .literal _ => throw (.badOperand .immediate)

def setStatus : Option Status → Access (Machine μ) Unit
  | some s => do setRegisters ((← getRegisters).setStatus s)
  | none => pure ()

/-- Sets the flags of a result and stores it. -/
def settle (w : Width) (p : Place) (r : AluResult) : Access (Machine μ) Unit := do
  setStatus r.status
  store w p r.value

/-- Stores to the stack, which grows downwards in words. -/
def push (w : Width) (v : UInt16) : Access (Machine μ) Unit := do
  let rs ← getRegisters
  setRegisters (rs.set .sp (rs.sp - 2))
  onMemory (Bus.store w (rs.sp - 2) v)

def executeSingle (op : SingleOp) (w : Width) (operand : Operand) : Access (Machine μ) Unit := do
  let p ← resolve w operand
  match op with
  | .rrc => do
    let v ← load w p
    settle w p (w.rotate v ((← getRegisters).flag .carry))
  | .rra => do settle w p (w.shift (← load w p))
  | .swpb => do store w p (swapBytes (← load w p))
  | .sxt => do settle w p (w.logical (signExtend (← load w p)) false)
  | .push => do push w (← load w p)
  | .call => do
    let target ← load w p
    push w (← getRegisters).pc
    setRegisters ((← getRegisters).set .pc target)
  | .reti => throw (.unsupported "RETI")

def executeDouble (op : DoubleOp) (w : Width) (source destination : Operand) :
    Access (Machine μ) Unit := do
  let s ← load w (← resolve w source)
  let p ← resolve w destination
  let d ← if op = .mov then pure 0 else load w p
  match op.apply w s d ((← getRegisters).flag .carry) with
  | none => throw (.unsupported op.mnemonic)
  | some r => do
    setStatus r.status
    if op.stores then store w p r.value

/-- Carries out an instruction; the program counter is already past it. -/
def execute (i : Instruction) : Access (Machine μ) Unit :=
  match i with
  | .single op _ operand => executeSingle op i.width operand
  | .jump condition offset => do
    let rs ← getRegisters
    if condition.holds rs then
      setRegisters (rs.set .pc (rs.pc + .ofInt (Instruction.displacement offset)))
  | .double op _ source destination => executeDouble op i.width source destination

end Machine

end Msp430
