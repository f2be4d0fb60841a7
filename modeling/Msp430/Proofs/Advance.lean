import Msp430.Instance.Request
import Msp430.Proofs.Hooks

/-!
# One instruction of an instance

What an instance takes over from its machine when it executes an instruction. An instruction that comes to wait
for input leaves only its mark on the world; any other leaves the machine where the step has left it.
-/

namespace Msp430.Bench

variable {b : Bench}

/-! ### Changes of the run state -/

@[simp] theorem cpu_setState (b : Bench) (s : RunState) : (b.setState s).cpu = { b.cpu with state := s } := by
  unfold setState
  split
  · next already => cases already; rfl
  · rfl

@[simp] theorem store_setState (b : Bench) (s : RunState) : (b.setState s).shared.store = b.shared.store := by
  unfold setState
  split <;> rfl

@[simp] theorem clock_setState (b : Bench) (s : RunState) : (b.setState s).shared.clock = b.shared.clock := by
  unfold setState
  split <;> rfl

@[simp] theorem machine_setState (b : Bench) (s : RunState) : (b.setState s).machine = b.machine := by
  unfold setState
  split <;> rfl

theorem counts_setState (b : Bench) (s : RunState) :
    (b.setState s).shared.metrics.steps = b.shared.metrics.steps ∧
      (b.setState s).shared.metrics.instructions = b.shared.metrics.instructions := by
  unfold setState
  split <;> exact ⟨rfl, rfl⟩

/-! ### Steps of the machine -/

/-- The bench when an instruction is begun, which counts unless it is tried again. -/
def begun (b : Bench) : Bench := if b.cpu.awaiting then b else b.mapMetrics .recordStep

@[simp] theorem cpu_begun (b : Bench) : b.begun.cpu = b.cpu := by
  unfold begun
  split <;> rfl

@[simp] theorem machine_begun (b : Bench) : b.begun.machine = b.machine := by
  unfold begun
  split <;> rfl

theorem advance_waits (h : b.machine.step.1 = .failed .awaitingInput) :
    b.advance = (.failed .awaitingInput, b.begun.withWorld b.machine.step.2.memory.backing.world) := by
  have stepped : b.begun.machine.step = (.failed .awaitingInput, b.machine.step.2) := by rw [machine_begun, ← h]
  unfold advance
  rw [← begun]
  simp only [stepped]

theorem advance_goes (h : b.machine.step.1 ≠ .failed .awaitingInput) :
    b.advance = (b.machine.step.1,
      (b.begun.withMachine b.machine.step.2).mapMetrics (·.recordOutcome b.machine.step.1)) := by
  unfold advance
  rw [← begun]
  simp only [machine_begun]

/-- A step keeps the hooks and the clock, so that nothing of the machine is lost when it is taken over. -/
theorem machine_withMachine (b : Bench) : (b.withMachine b.machine.step.2).machine = b.machine.step.2 := by
  have hooks : b.cpu.board.hooks.Keeps fun w => w.clock = b.shared.clock :=
    Peripheral.install_keeps (Peripheral.handler_keeps_clock _ _) b.cpu.board.installed
  obtain ⟨sameHooks, sameClock⟩ := Machine.step_keeps (Hooked.bus_keeps hooks) (m := b.machine) ⟨rfl, rfl⟩
  generalize b.machine.step.2 = m at sameHooks sameClock ⊢
  obtain ⟨rs, hooks', memory, store, clock, calls, awaiting⟩ := m
  obtain rfl : hooks' = _ := sameHooks
  obtain rfl : clock = _ := sameClock
  rfl

theorem machine_advance (goes : b.machine.step.1 ≠ .failed .awaitingInput) :
    b.advance.2.machine = b.machine.step.2 := by
  have machine := machine_withMachine b.begun
  rw [machine_begun] at machine
  rw [advance_goes goes, ← machine]
  unfold mapMetrics Metrics.recordOutcome
  split <;> rfl

/-! ### Steps without breakpoints -/

theorem endState_step (b : Bench) : Access.endState b.step = b.advance.2 := by
  unfold step
  split <;> next same => rw [same]; rfl

theorem machine_resume (b : Bench) : (Access.endState b.resume).machine = b.advance.2.machine := by
  rw [← endState_step]
  change (Access.endState (EStateM.bind step _ b)).machine = _
  unfold EStateM.bind
  cases step b with
  | ok u b' => exact machine_setState b' _
  | error f b' => rfl

theorem machine_singleStep (b : Bench) :
    (Access.endState b.singleStep).machine = (b.setState .stepping).advance.2.machine := by
  rw [← endState_step]
  unfold singleStep
  cases step (b.setState .stepping) with
  | ok u b' => exact machine_setState b' .stopped
  | error f b' => exact machine_setState b' _

/-- A board with the usual settings. -/
def usualBoard (name : String) : Board where
  name
  config := {}
  hooks := (Peripheral.install name {}).toOption.getD .empty
  installed := rfl

end Msp430.Bench
