import Msp430.Proofs.FreeRunning
import Msp430.Proofs.Turns

/-!
# Standing at a stop breakpoint

A running instance that has come to a stop breakpoint stays there, whatever turns are taken and whatever requests are
posted, until a step or a resumption is carried out. Free running stops it; a step or a resumption does not look at the
breakpoint, whether the instance has been stopped already or not.
-/

namespace Msp430

open Access

namespace Request

/-- Whether the request leaves registers, memory and breakpoints alone unless it executes an instruction. -/
def leavesProgram : Request → Bool
  | setRegisters _ | setBreakpoint _ _ | clearBreakpoint _ | loadImage _ | reset => false
  | _ => true

def executes : Request → Bool
  | resume | step => true
  | _ => false

variable {r : Request} {b : Bench}

/-- A request that executes nothing and leaves the program alone can only start and stop the instance. -/
theorem serve_steers (leaves : r.leavesProgram) (idle : ¬ r.executes) :
    (endState (r.serve b)).cpu = b.cpu ∨ (endState (r.serve b)).cpu = { b.cpu with state := .running } ∨
      (endState (r.serve b)).cpu = { b.cpu with state := .stopped } := by
  cases r with
  | boot => exact .inr (.inl (Bench.cpu_setState b .running))
  | stop => exact .inr (.inr (Bench.cpu_setState b .stopped))
  | readMemory a length =>
    exact .inl (keeps_readMemory (I := fun c => c.cpu = b.cpu) a length b rfl)
  | status | registers | disassemble a count | breakpoints => exact .inl rfl
  | resume | step => exact absurd rfl idle
  | _ => cases leaves

theorem machine_serve_of_executes (executes : r.executes) (goes : b.machine.step.1 ≠ .failed .awaitingInput) :
    (endState (r.serve b)).machine = b.machine.step.2 := by
  cases r with
  | resume =>
    have drive : Drive.ofRequest? b .resume = some .resume := rfl
    rw [Drive.serve_ofRequest? drive]
    exact b.machine_resume.trans (Bench.machine_advance goes)
  | step =>
    have drive : Drive.ofRequest? b .step = some .singleStep := rfl
    have same := Bench.machine_setState b .stepping
    rw [Drive.serve_ofRequest? drive]
    refine b.machine_singleStep.trans ?_
    rw [Bench.machine_advance (same ▸ goes), same]
  | _ => cases executes

end Request

namespace Actor

variable {a : Actor} {i : Instance}

/-- The instance runs and has come to a stop breakpoint. -/
def AtStop (a : Actor) : Prop := a.bench.cpu.state = .running ∧ a.bench.breakpoint? = some .stop

/-- Every pending request leaves the program alone. -/
def Unaltering (a : Actor) : Prop := ∀ t ∈ a.pending, t.request.leavesProgram

def Event.Unaltering : Event → Prop
  | .post t => t.request.leavesProgram
  | _ => True

/-- The event is a turn that carries out a step or a resumption. -/
def Executing (a : Actor) : Event → Prop
  | .turn => ∃ r, a.due? = some r ∧ r.executes
  | _ => False

/-- None of the events carries out a step or a resumption. -/
def Unexecuted (a : Actor) : List Event → Prop
  | [] => True
  | e :: rest => ¬ a.Executing e ∧ (a.step e).Unexecuted rest

/-- The actor has the instance as it was, running or stopped. -/
structure Holds (i : Instance) (a : Actor) : Prop where
  cpu : a.bench.cpu = { i with state := a.bench.cpu.state }
  state : a.bench.cpu.state = .running ∨ a.bench.cpu.state = .stopped

theorem Holds.of_cpu {a' : Actor} {s : RunState} (h : Holds i a) (cpu : a'.bench.cpu = { a.bench.cpu with state := s })
    (state : s = .running ∨ s = .stopped) : Holds i a' where
  cpu := by rw [cpu, h.cpu]
  state := by
    rw [cpu]
    exact state

theorem Holds.of_same {a' : Actor} (h : Holds i a) (cpu : a'.bench.cpu = a.bench.cpu) : Holds i a' :=
  h.of_cpu (s := a.bench.cpu.state) cpu h.state

theorem Holds.breakpoint? (h : Holds i a) : a.bench.breakpoint? = i.breakpoints[i.registers.pc]? := by
  unfold Bench.breakpoint?
  rw [h.cpu]

section Held

variable (stop : i.breakpoints[i.registers.pc]? = some .stop)
include stop

theorem Holds.turn (h : Holds i a) (unaltering : a.Unaltering) (idle : ¬ a.Executing .turn) : Holds i a.turn.1 := by
  cases due : a.due? with
  | some r =>
    obtain ⟨t, member, rfl⟩ := due_mem_pending due
    have executesNot : ¬ t.request.executes := fun executes => idle ⟨_, due, executes⟩
    have bench := bench_turn_of_due due
    rcases Request.serve_steers (b := a.bench) (unaltering t member) executesNot with cpu | cpu | cpu <;>
      rw [← bench] at cpu
    · exact h.of_same cpu
    · exact h.of_cpu cpu (.inl rfl)
    · exact h.of_cpu cpu (.inr rfl)
  | none =>
    -- Whether the turn is one of free running or none at all, nothing is executed.
    have bench := bench_turn_of_idle due
    split at bench
    · rw [Bench.tick_stop (h.breakpoint?.trans stop)] at bench
      refine h.of_cpu (s := .stopped) ?_ (.inr rfl)
      rw [bench, Bench.cpu_setState]
    · exact h.of_same (congrArg Bench.cpu bench)

theorem Holds.step (h : Holds i a) (unaltering : a.Unaltering) {e : Event} (idle : ¬ a.Executing e) :
    Holds i (a.step e) := by
  cases e with
  | turn => exact h.turn stop unaltering idle
  | post t => exact h.of_same (congrArg Bench.cpu (a.bench_post t))
  | meanwhile shared => exact h.of_same rfl

omit stop in
theorem Unaltering.step (unaltering : a.Unaltering) {e : Event} (allowed : e.Unaltering) : (a.step e).Unaltering := by
  intro t member
  cases e with
  | turn => exact unaltering t (a.pending_turn t member)
  | post t' =>
    rcases a.pending_post t' t member with rfl | member
    · exact allowed
    · exact unaltering t member
  | meanwhile shared => exact unaltering t member

theorem Holds.after (h : Holds i a) (unaltering : a.Unaltering) {es : List Event} (allowed : ∀ e ∈ es, e.Unaltering)
    (idle : a.Unexecuted es) : Holds i (a.after es) := by
  induction es generalizing a with
  | nil => exact h
  | cons e rest ih =>
    obtain ⟨first, later⟩ := idle
    have next := allowed e List.mem_cons_self
    exact ih (h.step stop unaltering first) (unaltering.step next) (fun e' member => allowed e' (.tail e member)) later

end Held

/-- Until a step or a resumption is carried out, the instance is as it was, running or stopped. A turn of free running
stops it, and a step or a resumption executes the instruction as a bare step of the machine. -/
theorem held_at_stop (atStop : a.AtStop) (unaltering : a.Unaltering) {es : List Event}
    (allowed : ∀ e ∈ es, e.Unaltering) (idle : a.Unexecuted es) :
    let c := a.after es
    (c.bench.cpu = { a.bench.cpu with state := c.bench.cpu.state } ∧
      (c.bench.cpu.state = .running ∨ c.bench.cpu.state = .stopped)) ∧
    (c.due? = none → c.bench.cpu.state = .running → c.turn.1.bench.cpu = { a.bench.cpu with state := .stopped }) ∧
    ∀ r, c.due? = some r → r.executes → c.bench.machine.step.1 ≠ .failed .awaitingInput →
      c.turn.1.bench.machine = c.bench.machine.step.2 := by
  intro c
  have start : Holds a.bench.cpu a := ⟨rfl, .inl atStop.1⟩
  have held : Holds a.bench.cpu c := start.after atStop.2 unaltering allowed idle
  refine ⟨⟨held.cpu, held.state⟩, ?_, ?_⟩
  · intro due running
    rw [bench_turn_of_idle due, if_pos (.inr running), Bench.tick_stop (held.breakpoint?.trans atStop.2),
      Bench.cpu_setState, held.cpu]
  · intro r due executes goes
    rw [bench_turn_of_due due]
    exact Request.machine_serve_of_executes executes goes

/-- A loop that counts in two registers, about to execute its second instruction, where it has a breakpoint. -/
def atSecond (queue : List Ticket) : Actor where
  bench := { Bench.counter with cpu := { Bench.counter.cpu with registers := Registers.zero.set .pc 0x4402 } }
  queue

/-- Turns for a request and for free running, and a resumption that is posted then. -/
def stopThenResume : List Event := [.turn, .turn, .post ⟨1, .resume⟩]

theorem atSecond_held :
    (atSecond [⟨0, .status⟩]).AtStop ∧
      ((atSecond [⟨0, .status⟩]).after stopThenResume).bench.cpu =
        { (atSecond [⟨0, .status⟩]).bench.cpu with
          state := ((atSecond [⟨0, .status⟩]).after stopThenResume).bench.cpu.state } ∧
      ((atSecond [⟨0, .status⟩]).after stopThenResume).bench.cpu.state = .stopped ∧
      ((atSecond [⟨0, .status⟩]).after stopThenResume).turn.1.bench.machine =
        ((atSecond [⟨0, .status⟩]).after stopThenResume).bench.machine.step.2 := by
  have atStop : (atSecond [⟨0, .status⟩]).AtStop := ⟨rfl, by decide +kernel⟩
  have unaltering : (atSecond [⟨0, .status⟩]).Unaltering := by
    rintro t (_ | ⟨_, ⟨⟩⟩)
    rfl
  have allowed : ∀ e ∈ stopThenResume, e.Unaltering := by
    rintro e (_ | ⟨_, _ | ⟨_, _ | ⟨_, ⟨⟩⟩⟩⟩)
    · trivial
    · trivial
    · rfl
  have idle : (atSecond [⟨0, .status⟩]).Unexecuted stopThenResume := by
    refine ⟨?_, ?_, nofun, trivial⟩
    · rintro ⟨r, due, executes⟩
      cases due
      cases executes
    · rintro ⟨r, due, -⟩
      cases due
  obtain ⟨⟨cpu, -⟩, -, resumes⟩ := held_at_stop atStop unaltering allowed idle
  have stopped : ((atSecond [⟨0, .status⟩]).after stopThenResume).bench.cpu.state = .stopped := by decide +kernel
  have goes : ((atSecond [⟨0, .status⟩]).after stopThenResume).bench.machine.step.1 ≠ .failed .awaitingInput := by
    decide +kernel
  exact ⟨atStop, cpu, stopped, resumes .resume rfl rfl goes⟩

/-- A resumption that comes to a running instance carries it over the breakpoint before any turn has stopped it. -/
theorem resume_overruns_stop :
    ¬ ∀ (a : Actor) (es : List Event), a.AtStop →
      (∀ t ∈ a.pending, t.request.leavesProgram ∧ t.request ≠ .step) →
      (∀ t, .post t ∈ es → t.request.leavesProgram ∧ t.request ≠ .step) →
      (∀ k < es.length, (a.after (es.take k)).bench.cpu.state ≠ .stopped) →
      (a.after es).bench.cpu.registers = a.bench.cpu.registers ∧
        (a.after es).bench.cpu.memory = a.bench.cpu.memory := by
  intro honoured
  have atStop : (atSecond [⟨0, .resume⟩]).AtStop := ⟨rfl, by decide +kernel⟩
  have pending : ∀ t ∈ (atSecond [⟨0, .resume⟩]).pending, t.request.leavesProgram ∧ t.request ≠ .step := by
    rintro t (_ | ⟨_, ⟨⟩⟩)
    exact ⟨rfl, nofun⟩
  have posted : ∀ t, .post t ∈ [Event.turn] → t.request.leavesProgram ∧ t.request ≠ .step := by
    rintro t (_ | ⟨_, ⟨⟩⟩)
  have unstopped : ∀ k < [Event.turn].length,
      ((atSecond [⟨0, .resume⟩]).after ([Event.turn].take k)).bench.cpu.state ≠ .stopped := by
    intro k first
    obtain rfl : k = 0 := Nat.lt_one_iff.mp first
    nofun
  have kept := (honoured _ [.turn] atStop pending posted unstopped).1
  have moved : ((atSecond [⟨0, .resume⟩]).after [.turn]).bench.cpu.registers ≠
      (atSecond [⟨0, .resume⟩]).bench.cpu.registers := by decide +kernel
  exact moved kept

end Actor

end Msp430
