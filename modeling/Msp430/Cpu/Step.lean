import Msp430.Cpu.Execute

/-!
# Stepping

A step fetches and decodes the instruction at the program counter, moves the counter past it and
executes it. A step that leaves the processor switched off has halted.
-/

namespace Msp430

/-- How a step ended. -/
inductive Outcome where
  | ran (d : Decoded)
  | halted (d : Decoded)
  | failed (f : Fault)
deriving DecidableEq, Repr, Inhabited

namespace Outcome

/-- The instruction, or the fault that kept the machine from going on. -/
def result : Outcome → Except Fault Decoded
  | ran d => .ok d
  | halted _ => .error .halted
  | failed f => .error f

/-- The instruction that was executed to its end. -/
def executed? : Outcome → Option Decoded
  | ran d | halted d => some d
  | failed _ => none

end Outcome

namespace Machine

variable [Bus μ]

/-- Carries out the instruction at the program counter. -/
def cycle : Access (Machine μ) Decoded := do
  let pc := (← getRegisters).pc
  let raw ← onMemory (Bus.fetch pc)
  match decode raw.toList with
  | .error cause => throw (.undecodable cause)
  | .ok d => do
    setRegisters ((← getRegisters).set .pc (pc + .ofNat d.instruction.size))
    execute d.instruction
    return d

def step (m : Machine μ) : Outcome × Machine μ :=
  match cycle m with
  | .ok d m' => (if m'.registers.halted then .halted d else .ran d, m')
  | .error f m' => (.failed f, m')

/-- The machine after `n` steps, whatever their outcomes. -/
def steps : Nat → Machine μ → Machine μ
  | 0, m => m
  | n + 1, m => steps n m.step.2

end Machine

end Msp430
