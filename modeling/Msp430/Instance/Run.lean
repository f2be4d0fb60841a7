import Msp430.Instance.Basic

/-!
# Running an instance

`advance` executes one instruction and keeps count. Free running goes by `tick`, which obeys
breakpoints; `step` and `resume` do not look at them. An instruction that waits for input is taken back
and tried again by the next call.
-/

namespace Msp430

def Metrics.recordOutcome (m : Metrics) (o : Outcome) : Metrics :=
  match o.executed? with
  | some d => m.recordInstruction d.instruction.operation
  | none => m

namespace Bench

/-- One step of the machine. It is counted when it starts and not again when it goes on after a wait. -/
def advance (b : Bench) : Outcome × Bench :=
  let b := if b.cpu.awaiting then b else b.mapMetrics .recordStep
  match b.machine.step with
  | (.failed .awaitingInput, m) => (.failed .awaitingInput, b.withWorld m.memory.backing.world)
  | (outcome, m) => (outcome, (b.withMachine m).mapMetrics (·.recordOutcome outcome))

/-- Records a fault and stops on it. -/
def fail (b : Bench) (f : Fault) : Bench :=
  let b := b.mapMetrics (·.recordFault b.cpu.name f.kind)
  setState { b with cpu := { b.cpu with lastFault := some f } } .fault

/-- The effect of the outcome of a step on the run state of a running instance. -/
def settle (b : Bench) : Outcome → Bench
  | .ran _ => b
  | .halted _ => b.setState .stopped
  | .failed .halted => b.setState .stopped
  | .failed .awaitingInput => b
  | .failed f => b.fail f

/-- One turn of free running. -/
def tick (b : Bench) : Bench :=
  let breakpoint := b.cpu.breakpoints[b.cpu.registers.pc]?
  if breakpoint = some .stop then b.setState .stopped
  else
    let (outcome, b) := b.advance
    let b := b.settle outcome
    if breakpoint = some .step ∧ b.cpu.state = .running ∧ !b.cpu.awaiting then b.setState .stopped else b

/-- Executes one instruction; a halt is a success. -/
def step : EStateM Fault Bench Unit := fun b =>
  match b.advance with
  | (.ran _, b) => .ok () b
  | (.halted _, b) => .ok () b
  | (.failed .halted, b) => .ok () b
  | (.failed f, b) => .error f b

/-- Executes one instruction and runs on, unless it has switched the processor off. -/
def resume : EStateM Fault Bench Unit := do
  step
  modify fun b => b.setState (if b.cpu.registers.halted then .stopped else .running)

/-- Turns of free running while the instance runs, at most `n`, with the program counter after each. -/
def run (b : Bench) : Nat → List UInt16 × Bench
  | 0 => ([], b)
  | n + 1 =>
    if b.cpu.state = .running then
      let b := b.tick
      let (pcs, b') := b.run n
      (b.cpu.registers.pc :: pcs, b')
    else ([], b)

/-- Whether a turn of free running can change nothing but counts: the instance is not running, waits for
input, or stands at a jump to itself. -/
def isSettled (before after : Bench) : Bool :=
  after.cpu.state != .running || after.cpu.awaiting ||
    (before.cpu.state = .running && before.cpu.registers.pc = after.cpu.registers.pc
      && before.cpu.registers = after.cpu.registers)

/-- Free running until the instance is settled, for at most `n` turns. -/
def runToRest (b : Bench) : Nat → Bench
  | 0 => b
  | n + 1 =>
    if b.cpu.state = .running then
      let b' := b.tick
      if isSettled b b' then b' else b'.runToRest n
    else b

end Bench

end Msp430
