import Msp430.Proofs.Debugger
import Msp430.Proofs.Waiting

/-!
# Free running

A turn of free running stops before an instruction, stops after it or takes no note, as the breakpoint there says,
and otherwise goes on until an instruction halts or fails. An instruction that waits for input is left to the turns
after it, as if it had not been begun.
-/

namespace Msp430

theorem Outcome.result_eq_ok {o : Outcome} {d : Decoded} : o.result = .ok d ↔ o = .ran d := by
  cases o <;> simp [result]

namespace Bench

open Access

variable {b c : Bench}

def breakpoint? (b : Bench) : Option Breakpoint := b.cpu.breakpoints[b.cpu.registers.pc]?

/-- The next turn comes to wait for input. -/
def Waits (b : Bench) : Prop := b.breakpoint? ≠ some .stop ∧ b.machine.step.1 = .failed .awaitingInput

/-! ### After the step of a turn -/

/-- The bench after the step of a turn and what its outcome makes of the run state. -/
def ended (b : Bench) : Bench := b.advance.2.settle b.advance.1

theorem tick_eq (free : b.breakpoint? ≠ some .stop) :
    b.tick =
      if b.breakpoint? = some .step ∧ b.ended.cpu.state = .running ∧ !b.ended.cpu.awaiting then
        b.ended.setState .stopped
      else b.ended :=
  if_neg free

theorem cpu_fail (b : Bench) (f : Fault) :
    (b.fail f).cpu = { b.cpu with state := .fault, lastFault := some f } := by
  unfold fail
  rw [cpu_setState]
  rfl

theorem machine_settle (b : Bench) (o : Outcome) : (b.settle o).machine = b.machine := by
  unfold settle
  split
  · rfl
  · exact machine_setState b .stopped
  · exact machine_setState b .stopped
  · rfl
  · unfold fail
    rw [machine_setState]
    rfl

theorem ended_waits (h : b.machine.step.1 = .failed .awaitingInput) :
    b.ended = b.begun.withWorld b.machine.step.2.memory.backing.world := by
  unfold ended
  rw [advance_waits h]
  rfl

theorem ended_goes (h : b.machine.step.1 ≠ .failed .awaitingInput) :
    b.ended =
      ((b.begun.withMachine b.machine.step.2).mapMetrics (·.recordOutcome b.machine.step.1)).settle
        b.machine.step.1 := by
  unfold ended
  rw [advance_goes h]

theorem machine_ended (h : b.machine.step.1 ≠ .failed .awaitingInput) : b.ended.machine = b.machine.step.2 :=
  (machine_settle b.advance.2 b.advance.1).trans (machine_advance h)

def stepped (b : Bench) : Instance :=
  { b.cpu with
    registers := b.machine.step.2.registers
    memory := b.machine.step.2.memory.backing.memory
    awaiting := b.machine.step.2.memory.backing.world.awaiting }

theorem settle_cases (b : Bench) {o : Outcome} (h : o ≠ .failed .awaitingInput) :
    (∃ d, o.result = .ok d ∧ (b.settle o).cpu = b.cpu) ∨
    (o.result = .error .halted ∧ (b.settle o).cpu = { b.cpu with state := .stopped }) ∨
    ∃ f, f ≠ .halted ∧ o.result = .error f ∧
      (b.settle o).cpu = { b.cpu with state := .fault, lastFault := some f } := by
  unfold settle
  split
  next d => exact .inl ⟨d, rfl, rfl⟩
  next d => exact .inr (.inl ⟨rfl, cpu_setState b .stopped⟩)
  next => exact .inr (.inl ⟨rfl, cpu_setState b .stopped⟩)
  next => exact absurd rfl h
  next f notHalted _ => exact .inr (.inr ⟨f, notHalted, rfl, cpu_fail b f⟩)

/-- An instance is as the step leaves it if that runs on, and else is stopped by a halt and faulted by any other
failure. -/
theorem ended_cases (h : b.machine.step.1 ≠ .failed .awaitingInput) :
    (∃ d, b.machine.step.1.result = .ok d ∧ b.ended.cpu = b.stepped) ∨
    (b.machine.step.1.result = .error .halted ∧ b.ended.cpu = { b.stepped with state := .stopped }) ∨
    ∃ f, f ≠ .halted ∧ b.machine.step.1.result = .error f ∧
      b.ended.cpu = { b.stepped with state := .fault, lastFault := some f } := by
  have start : ((b.begun.withMachine b.machine.step.2).mapMetrics (·.recordOutcome b.machine.step.1)).cpu =
      b.stepped := by
    change (b.begun.withMachine b.machine.step.2).cpu = _
    unfold withMachine withWorld stepped
    rw [cpu_begun]
  have cases := settle_cases ((b.begun.withMachine b.machine.step.2).mapMetrics (·.recordOutcome b.machine.step.1)) h
  rwa [← ended_goes h, start] at cases

theorem breakpoints_ended (b : Bench) : b.ended.cpu.breakpoints = b.cpu.breakpoints := by
  by_cases waits : b.machine.step.1 = .failed .awaitingInput
  · have begun : b.begun.cpu.breakpoints = b.cpu.breakpoints := by rw [cpu_begun]
    rw [ended_waits waits]
    exact begun
  · rcases ended_cases waits with ⟨d, -, cpu⟩ | ⟨-, cpu⟩ | ⟨f, -, -, cpu⟩ <;> rw [cpu] <;> rfl

theorem breakpoints_tick (b : Bench) : b.tick.cpu.breakpoints = b.cpu.breakpoints := by
  by_cases stop : b.breakpoint? = some .stop
  · rw [tick_stop stop, cpu_setState]
  · rw [tick_eq stop]
    split
    · rw [cpu_setState]
      exact breakpoints_ended b
    · exact breakpoints_ended b

/-! ### Another table of breakpoints -/

def withBreakpoints (b : Bench) (table : Breakpoints) : Bench :=
  { b with cpu := { b.cpu with breakpoints := table } }

theorem begun_withBreakpoints (b : Bench) (table : Breakpoints) :
    (b.withBreakpoints table).begun = b.begun.withBreakpoints table := by
  change (if b.cpu.awaiting then _ else _) = withBreakpoints (if b.cpu.awaiting then _ else _) table
  split <;> rfl

theorem setState_withBreakpoints (b : Bench) (table : Breakpoints) (s : RunState) :
    (b.withBreakpoints table).setState s = (b.setState s).withBreakpoints table := by
  change (if b.cpu.state = s then _ else _) = withBreakpoints (if b.cpu.state = s then _ else _) table
  split <;> rfl

theorem settle_withBreakpoints (b : Bench) (table : Breakpoints) (o : Outcome) :
    (b.withBreakpoints table).settle o = (b.settle o).withBreakpoints table := by
  unfold settle
  split
  · rfl
  · exact setState_withBreakpoints b table .stopped
  · exact setState_withBreakpoints b table .stopped
  · rfl
  · next f _ _ =>
    exact setState_withBreakpoints
      { b.mapMetrics (·.recordFault b.cpu.name f.kind) with cpu := { b.cpu with lastFault := some f } } table .fault

/-- A step does not look at the breakpoints. -/
theorem ended_withBreakpoints (b : Bench) (table : Breakpoints) :
    (b.withBreakpoints table).ended = b.ended.withBreakpoints table := by
  have machine : (b.withBreakpoints table).machine = b.machine := rfl
  by_cases waits : b.machine.step.1 = .failed .awaitingInput
  · rw [ended_waits waits, ended_waits (machine ▸ waits), begun_withBreakpoints]
    rfl
  · rw [ended_goes waits, ended_goes (machine ▸ waits), begun_withBreakpoints, ← settle_withBreakpoints]
    rfl

theorem tick_trace (trace : b.breakpoint? = some .trace) :
    (b.clearBreakpoint b.cpu.registers.pc).2.tick = (b.tick.clearBreakpoint b.cpu.registers.pc).2 := by
  have none : (b.clearBreakpoint b.cpu.registers.pc).2.breakpoint? = none :=
    Std.ExtTreeMap.getElem?_erase_self
  have cleared : (b.clearBreakpoint b.cpu.registers.pc).2.tick = (b.clearBreakpoint b.cpu.registers.pc).2.ended := by
    rw [tick_eq (by rw [none]; nofun), none]
    exact if_neg nofun
  have kept : b.tick = b.ended := by
    rw [tick_eq (by rw [trace]; nofun), trace]
    exact if_neg nofun
  rw [cleared, kept]
  unfold clearBreakpoint
  rw [breakpoints_ended]
  exact ended_withBreakpoints b _

/-! ### Trying again -/

/-- No instruction waits for input, or one that does so in some world is to be tried again. -/
def Poised (b : Bench) : Prop :=
  b.machine.memory.waiting = false ∨ ∃ w, (b.machine.inWorld w).step.1 = .failed .awaitingInput

theorem Poised.awaiting_step (h : b.Poised) :
    b.machine.step.2.memory.waiting = decide (b.machine.step.1 = .failed .awaitingInput) :=
  Machine.waiting_step (Peripheral.install_attentive b.cpu.board.installed) h

theorem Poised.tick_waits (h : b.Poised) (waits : b.Waits) : b.tick.cpu = { b.cpu with awaiting := true } := by
  have awaiting : b.machine.step.2.memory.backing.world.awaiting = true :=
    h.awaiting_step.trans (decide_eq_true waits.2)
  have cpu : b.ended.cpu = { b.cpu with awaiting := true } := by
    rw [ended_waits waits.2]
    unfold withWorld
    rw [cpu_begun, awaiting]
  rw [tick_eq waits.1, if_neg, cpu]
  rw [cpu]
  exact fun all => nomatch all.2.2

theorem Poised.ended_awaiting (h : b.Poised) (goes : b.machine.step.1 ≠ .failed .awaitingInput) :
    b.ended.cpu.awaiting = false := by
  have machine := machine_ended goes
  have awaiting := h.awaiting_step
  rw [← machine, decide_eq_false goes] at awaiting
  exact awaiting

theorem Poised.tick (h : b.Poised) : b.tick.Poised := by
  by_cases stop : b.breakpoint? = some .stop
  · rw [tick_stop stop]
    unfold Poised
    rwa [machine_setState]
  · by_cases waits : b.machine.step.1 = .failed .awaitingInput
    · right
      have cpu := h.tick_waits ⟨stop, waits⟩
      refine ⟨b.machine.memory.backing.world, ?_⟩
      have same : b.tick.machine.inWorld b.machine.memory.backing.world = b.machine := by
        unfold machine Machine.inWorld
        rw [cpu]
      rwa [same]
    · left
      have awaiting := h.ended_awaiting waits
      rw [tick_eq stop]
      split
      · rw [machine_setState]
        exact awaiting
      · exact awaiting

theorem Poised.meanwhile (h : b.Poised) (shared : Shared) : ({ b with shared } : Bench).Poised := h

/-! ### Turns and runs -/

/-- The next turn changes nothing but the run state: the registers, the memory, the store and the counts of steps and
instructions are as before. -/
structure Idle (b : Bench) : Prop where
  cpu : b.tick.cpu = { b.cpu with state := b.tick.cpu.state }
  store : b.tick.shared.store = b.shared.store
  steps : b.tick.shared.metrics.steps = b.shared.metrics.steps
  instructions : b.tick.shared.metrics.instructions = b.shared.metrics.instructions

theorem idle_of_stop (stop : b.breakpoint? = some .stop) : b.Idle := by
  constructor <;> rw [tick_stop stop]
  · rw [cpu_setState]
  · exact store_setState b .stopped
  · exact (counts_setState b .stopped).1
  · exact (counts_setState b .stopped).2

theorem steps_ended (h : b.machine.step.1 ≠ .failed .awaitingInput) :
    b.ended.shared.metrics.steps = b.begun.shared.metrics.steps := by
  have settled (b : Bench) (o : Outcome) : (b.settle o).shared.metrics.steps = b.shared.metrics.steps := by
    unfold settle
    split
    · rfl
    · exact (counts_setState b .stopped).1
    · exact (counts_setState b .stopped).1
    · rfl
    · exact (counts_setState _ .fault).1
  rw [ended_goes h, settled]
  unfold mapMetrics Metrics.recordOutcome
  split <;> rfl

/-- A turn that carries out an instruction shows it: the instruction has been counted now, or it was counted when it
began to wait, and waits no more. -/
theorem Poised.busy (h : b.Poised) (free : b.breakpoint? ≠ some .stop)
    (goes : b.machine.step.1 ≠ .failed .awaitingInput) : ¬ b.Idle := by
  intro idle
  -- An instruction that is tried again has been counted before, but now its flag goes off.
  by_cases awaiting : b.cpu.awaiting = true
  · have ends := h.ended_awaiting goes
    have kept : b.tick.cpu.awaiting = b.cpu.awaiting := by rw [idle.cpu]
    rw [tick_eq free] at kept
    split at kept
    · rw [cpu_setState, awaiting] at kept
      exact nomatch ends.symm.trans kept
    · exact nomatch ends.symm.trans (kept.trans awaiting)
  · have begun : b.begun.shared.metrics.steps = b.shared.metrics.steps + 1 := by
      unfold begun
      rw [if_neg awaiting]
      rfl
    have counted : b.tick.shared.metrics.steps = b.shared.metrics.steps + 1 := by
      rw [tick_eq free]
      split
      · rw [(counts_setState _ _).1, steps_ended goes, begun]
      · rw [steps_ended goes, begun]
    rw [idle.steps] at counted
    omega

/-- What a turn of free running does by the breakpoint at its instruction and the outcome of that instruction. A turn
that comes to wait for input is not finished. -/
structure TickLaw (b : Bench) : Prop where
  stop : b.breakpoint? = some .stop → b.tick.cpu.state = .stopped ∧ b.Idle
  busy : b.breakpoint? ≠ some .stop → ¬ b.Waits → ¬ b.Idle
  step : b.breakpoint? = some .step → ¬ b.Waits →
    b.tick.machine = b.machine.step.2 ∧
    (b.tick.cpu.state = .stopped ∧
        ((∃ d, b.machine.step.1.result = .ok d) ∨ b.machine.step.1.result = .error .halted) ∨
      b.tick.cpu.state = .fault ∧
        ∃ f, f ≠ .halted ∧ b.machine.step.1.result = .error f ∧ b.tick.cpu.lastFault = some f)
  trace : b.breakpoint? = some .trace →
    (b.clearBreakpoint b.cpu.registers.pc).2.tick = (b.tick.clearBreakpoint b.cpu.registers.pc).2
  free : b.breakpoint? ≠ some .stop → b.breakpoint? ≠ some .step → ¬ b.Waits →
    b.tick.machine = b.machine.step.2 ∧
    (b.tick.cpu.state = .running ↔ ∃ d, b.machine.step.1.result = .ok d) ∧
    (b.tick.cpu.state = .stopped ↔ b.machine.step.1.result = .error .halted) ∧
    (b.tick.cpu.state = .stopped → b.tick.cpu.lastFault = b.cpu.lastFault) ∧
    ∀ f, f ≠ .halted →
      (b.tick.cpu.state = .fault ∧ b.tick.cpu.lastFault = some f ↔ b.machine.step.1.result = .error f)
  on : ¬ b.Waits → b.tick.cpu.state = .running → b.tick.cpu.registers.halted = false
  waits : b.Waits → b.tick.cpu = { b.cpu with awaiting := true }

theorem Poised.tickLaw (poised : b.Poised) (running : b.cpu.state = .running) : b.TickLaw := by
  have goes (free : b.breakpoint? ≠ some .stop) (ends : ¬ b.Waits) :
      b.machine.step.1 ≠ .failed .awaitingInput := fun waits => ends ⟨free, waits⟩
  have state : b.stepped.state = .running := running
  have fault : b.stepped.lastFault = b.cpu.lastFault := rfl
  constructor
  case stop =>
    intro stop
    refine ⟨?_, idle_of_stop stop⟩
    rw [tick_stop stop, cpu_setState]
  case busy => exact fun free ends => poised.busy free (goes free ends)
  case step =>
    intro step ends
    have free : b.breakpoint? ≠ some .stop := by rw [step]; nofun
    have goes := goes free ends
    have awaiting := poised.ended_awaiting goes
    rw [tick_eq free]
    constructor
    · split
      · rw [machine_setState, machine_ended goes]
      · exact machine_ended goes
    · rcases ended_cases goes with ⟨d, result, cpu⟩ | ⟨result, cpu⟩ | ⟨f, other, result, cpu⟩
      · left
        rw [if_pos ⟨step, by rw [cpu]; exact running, by rw [awaiting]; rfl⟩, cpu_setState]
        exact ⟨rfl, .inl ⟨d, result⟩⟩
      · left
        rw [if_neg (by rw [cpu]; exact fun all => nomatch all.2.1), cpu]
        exact ⟨rfl, .inr result⟩
      · right
        rw [if_neg (by rw [cpu]; exact fun all => nomatch all.2.1), cpu]
        exact ⟨rfl, f, other, result, rfl⟩
  case trace => exact tick_trace
  case free =>
    intro free unstepped ends
    have goes := goes free ends
    rw [tick_eq free, if_neg fun all => unstepped all.1]
    refine ⟨machine_ended goes, ?_⟩
    rcases ended_cases goes with ⟨d, result, cpu⟩ | ⟨result, cpu⟩ | ⟨f, other, result, cpu⟩
    · simp [result, cpu, state]
    · have others : ∀ f, f ≠ Fault.halted → Fault.halted ≠ f := fun f other => other.symm
      simpa [result, cpu, fault] using others
    · simp [result, cpu, other]
  case on =>
    intro ends on
    by_cases stop : b.breakpoint? = some .stop
    · rw [tick_stop stop, cpu_setState] at on
      cases on
    · have goes := goes stop ends
      rw [tick_eq stop] at on ⊢
      split at on
      · rw [cpu_setState] at on
        cases on
      · next unstepped =>
        rw [if_neg unstepped]
        rcases ended_cases goes with ⟨d, result, cpu⟩ | ⟨-, cpu⟩ | ⟨f, -, -, cpu⟩ <;> rw [cpu] at on ⊢
        · exact Machine.step_ran (Outcome.result_eq_ok.mp result)
        · cases on
        · cases on
  case waits => exact poised.tick_waits

/-- Turns of free running while the instance runs, and in between whatever others do to what is shared. The list
tells at which addresses a turn has done anything but change the run state, the last one first. -/
inductive FreeRun (b : Bench) : List UInt16 → Bench → Prop
  | start : FreeRun b [] b
  | turn {pcs : List UInt16} {c : Bench} :
      FreeRun b pcs c → c.cpu.state = .running → ¬ c.Idle → FreeRun b (c.cpu.registers.pc :: pcs) c.tick
  | idle {pcs : List UInt16} {c : Bench} :
      FreeRun b pcs c → c.cpu.state = .running → c.Idle → FreeRun b pcs c.tick
  | meanwhile {pcs : List UInt16} {c : Bench} (shared : Shared) :
      FreeRun b pcs c → FreeRun b pcs { c with shared }

variable {pcs : List UInt16}

theorem FreeRun.poised (run : b.FreeRun pcs c) (start : b.Poised) : c.Poised := by
  induction run with
  | start => exact start
  | turn _ _ _ ih => exact ih.tick
  | idle _ _ _ ih => exact ih.tick
  | meanwhile shared _ ih => exact ih.meanwhile shared

theorem FreeRun.breakpoints (run : b.FreeRun pcs c) : c.cpu.breakpoints = b.cpu.breakpoints := by
  induction run with
  | start => rfl
  | turn _ _ _ ih => rw [breakpoints_tick, ih]
  | idle _ _ _ ih => rw [breakpoints_tick, ih]
  | meanwhile _ _ ih => exact ih

theorem FreeRun.unstopped (run : b.FreeRun pcs c) : ∀ pc ∈ pcs, b.cpu.breakpoints[pc]? ≠ some .stop := by
  induction run with
  | start => nofun
  | @turn pcs c before _ busy ih =>
    intro pc member
    rcases List.mem_cons.mp member with rfl | member
    · intro stop
      rw [← before.breakpoints] at stop
      exact busy (idle_of_stop stop)
    · exact ih pc member
  | idle _ _ _ ih => exact ih
  | meanwhile _ _ ih => exact ih

/-- However long an instance runs freely, no instruction at a stop breakpoint is executed, and every turn does what
the breakpoint at its instruction and the outcome of that instruction say. -/
theorem free_running (ready : b.cpu.awaiting = false) (run : b.FreeRun pcs c) :
    c.cpu.breakpoints = b.cpu.breakpoints ∧ (∀ pc ∈ pcs, b.cpu.breakpoints[pc]? ≠ some .stop) ∧
      (c.cpu.state = .running → c.TickLaw) :=
  ⟨run.breakpoints, run.unstopped, fun running => (run.poised (.inl ready)).tickLaw running⟩

/-- The loop executes its first instruction and has come to the breakpoint at its second. -/
theorem counter_free_running :
    counter.cpu.awaiting = false ∧ counter.FreeRun [0x4400] counter.tick ∧ counter.tick.cpu.state = .running ∧
      counter.tick.cpu.breakpoints = counter.cpu.breakpoints ∧
      (∀ pc ∈ ([0x4400] : List UInt16), counter.cpu.breakpoints[pc]? ≠ some .stop) ∧
      (counter.tick.cpu.state = .running → counter.tick.TickLaw) := by
  have busy : ¬ counter.Idle := fun idle => by
    have steps := idle.steps
    revert steps
    decide +kernel
  have run : counter.FreeRun [0x4400] counter.tick := .turn .start rfl busy
  exact ⟨rfl, run, by decide +kernel, free_running rfl run⟩

end Bench

end Msp430
