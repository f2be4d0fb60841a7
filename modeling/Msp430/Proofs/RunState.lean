import Msp430.Proofs.Faults
import Msp430.Proofs.FreeRunning
import Msp430.Proofs.Turns

/-!
# The run state between requests

Each request and each turn of free running leaves an instance stopped, running or faulted, and a faulted instance knows
its fault. A step or a resumption that fails leaves the run state as it was.
-/

namespace Msp430

open Access

/-- What can be said of an instance whenever no request is being carried out. -/
structure Instance.StateLaw (i : Instance) : Prop where
  settled : i.state ≠ .stepping
  explained : i.state = .fault → i.lastFault.isSome
  cause : ∀ f, i.lastFault = some f → f.Recordable

namespace Instance.StateLaw

variable {i j : Instance}

theorem congr (law : i.StateLaw) (state : j.state = i.state) (fault : j.lastFault = i.lastFault) : j.StateLaw where
  settled := by
    rw [state]
    exact law.settled
  explained := by
    rw [state, fault]
    exact law.explained
  cause := by
    rw [fault]
    exact law.cause

theorem withState (law : i.StateLaw) {s : RunState} (settled : s ≠ .stepping) (noFault : s ≠ .fault) :
    { i with state := s }.StateLaw where
  settled := settled
  explained fault := absurd fault noFault
  cause := law.cause

theorem withRegisters (law : i.StateLaw) (rs : Registers) : { i with registers := rs }.StateLaw :=
  ⟨law.settled, law.explained, law.cause⟩

theorem faulted {f : Fault} (cause : f.Recordable) : { i with state := .fault, lastFault := some f }.StateLaw where
  settled := nofun
  explained _ := rfl
  cause := by
    rintro _ ⟨⟩
    exact cause

end Instance.StateLaw

namespace Bench

variable {b b' : Bench}

/-! ### Turns of free running -/

theorem cpu_advance (b : Bench) :
    b.advance.2.cpu.state = b.cpu.state ∧ b.advance.2.cpu.lastFault = b.cpu.lastFault := by
  have state : b.begun.cpu.state = b.cpu.state := congrArg Instance.state b.cpu_begun
  have fault : b.begun.cpu.lastFault = b.cpu.lastFault := congrArg Instance.lastFault b.cpu_begun
  by_cases waits : b.machine.step.1 = .failed .awaitingInput
  · rw [advance_waits waits]
    exact ⟨state, fault⟩
  · rw [advance_goes waits]
    exact ⟨state, fault⟩

theorem stateLaw_setState (law : b.cpu.StateLaw) {s : RunState} (settled : s ≠ .stepping) (noFault : s ≠ .fault) :
    (b.setState s).cpu.StateLaw := by
  rw [cpu_setState]
  exact law.withState settled noFault

theorem step_failed_recordable {f : Fault} (goes : b.machine.step.1 ≠ .failed .awaitingInput) (notHalted : f ≠ .halted)
    (result : b.machine.step.1.result = .error f) : f.Recordable := by
  have failed : b.machine.step.1 = .failed f := by
    cases outcome : b.machine.step.1 with
    | ran d => exact nomatch (congrArg Outcome.result outcome).symm.trans result
    | halted d =>
      cases (congrArg Outcome.result outcome).symm.trans result
      exact absurd rfl notHalted
    | failed f' =>
      cases (congrArg Outcome.result outcome).symm.trans result
      rfl
  have handles := Peripheral.install_handles b.cpu.board.installed
  rcases Machine.step_failed_possible (m := b.machine) handles failed with rfl | recordable
  · exact absurd failed goes
  · exact recordable

theorem stateLaw_ended (law : b.cpu.StateLaw) : b.ended.cpu.StateLaw := by
  by_cases waits : b.machine.step.1 = .failed .awaitingInput
  · obtain ⟨state, fault⟩ := b.cpu_advance
    rw [advance_waits waits] at state fault
    rw [ended_waits waits]
    exact law.congr state fault
  · have stepped : b.stepped.StateLaw := law.congr rfl rfl
    rcases ended_cases waits with ⟨d, -, cpu⟩ | ⟨-, cpu⟩ | ⟨f, notHalted, result, cpu⟩
    · rw [cpu]
      exact stepped
    · rw [cpu]
      exact stepped.withState nofun nofun
    · rw [cpu]
      exact .faulted (step_failed_recordable waits notHalted result)

theorem stateLaw_tick (law : b.cpu.StateLaw) : b.tick.cpu.StateLaw := by
  by_cases stop : b.breakpoint? = some .stop
  · rw [tick_stop stop]
    exact stateLaw_setState law nofun nofun
  · rw [tick_eq stop]
    split
    · exact stateLaw_setState (stateLaw_ended law) nofun nofun
    · exact stateLaw_ended law

/-! ### Requests -/

theorem step_sameState (b : Bench) :
    (endState b.step).cpu.state = b.cpu.state ∧ (endState b.step).cpu.lastFault = b.cpu.lastFault := by
  rw [endState_step]
  exact b.cpu_advance

theorem step_failed {f : Fault} (failed : b.step = .error f b') : b'.cpu.state = b.cpu.state := by
  have same := b.step_sameState
  rw [failed] at same
  exact same.1

theorem resume_failed {f : Fault} (failed : b.resume = .error f b') : b'.cpu.state = b.cpu.state := by
  rcases bind_eq_error.mp failed with stepped | ⟨u, b₁, -, set⟩
  · exact step_failed stepped
  · cases set

theorem singleStep_failed {e : ControlError} (failed : b.singleStep = .error e b') : b'.cpu.state = b.cpu.state := by
  unfold singleStep at failed
  split at failed <;> cases failed
  rw [cpu_setState]

theorem loadImage_keeps_stateLaw (key : String) : Keeps (fun b : Bench => b.cpu.StateLaw) (loadImage key) :=
  loadImage_keeps (fun _ _ law => law.congr rfl rfl) (fun _ _ law => law.congr rfl rfl) key

theorem reset_keeps_stateLaw : Keeps (fun b : Bench => b.cpu.StateLaw) reset := by
  refine keeps_bind keeps_get fun b => keeps_bind (loadImage_keeps_stateLaw _) fun _ => keeps_modify fun b _ => ?_
  change (setState { b with cpu := _ } .stopped).cpu.StateLaw
  rw [cpu_setState]
  exact ⟨nofun, nofun, nofun⟩

theorem resume_keeps_stateLaw : Keeps (fun b : Bench => b.cpu.StateLaw) resume := by
  have stepped : Keeps (fun b : Bench => b.cpu.StateLaw) step := fun b law =>
    law.congr b.step_sameState.1 b.step_sameState.2
  refine keeps_bind stepped fun _ => keeps_modify fun b law => ?_
  split <;> exact stateLaw_setState law nofun nofun

theorem singleStep_keeps_stateLaw : Keeps (fun b : Bench => b.cpu.StateLaw) singleStep := by
  intro b law
  -- The step runs in a state that the law forbids, so only the fault is carried over from it.
  obtain ⟨-, fault⟩ := step_sameState (b.setState .stepping)
  rw [cpu_setState] at fault
  unfold singleStep
  cases stepped : step (b.setState .stepping) with
  | ok u b' =>
    rw [stepped] at fault
    have stopped : { b.cpu with state := .stopped }.StateLaw := law.withState nofun nofun
    refine stopped.congr (state_setState b' .stopped) ?_
    exact (congrArg Instance.lastFault (cpu_setState b' .stopped)).trans fault
  | error f b' =>
    rw [stepped] at fault
    refine law.congr (state_setState b' b.cpu.state) ?_
    exact (congrArg Instance.lastFault (cpu_setState b' b.cpu.state)).trans fault

end Bench

namespace Request

theorem serve_keeps_stateLaw (r : Request) : Keeps (fun b : Bench => b.cpu.StateLaw) r.serve := by
  refine serve_keeps ?_ (fun b values law => law.withRegisters _) (fun _ b _ law => law.congr rfl rfl)
    (fun key _ => Bench.loadImage_keeps_stateLaw key) (fun _ => Bench.reset_keeps_stateLaw) ?_
  · rintro b s (rfl | rfl) law <;> exact Bench.stateLaw_setState law nofun nofun
  · rintro (rfl | rfl)
    · exact keeps_bind (Bench.liftFault_keeps Bench.resume_keeps_stateLaw) fun _ => keeps_pure _
    · exact keeps_bind Bench.singleStep_keeps_stateLaw fun _ => keeps_pure _

theorem serve_failed {r : Request} {b b' : Bench} {e : ControlError} (executes : r = .step ∨ r = .resume)
    (failed : r.serve b = .error e b') : b'.cpu.state = b.cpu.state := by
  rcases executes with rfl | rfl
  · rcases bind_eq_error.mp failed with failed | ⟨u, b₁, -, failed⟩
    · exact Bench.singleStep_failed failed
    · cases failed
  · rcases bind_eq_error.mp failed with failed | ⟨u, b₁, -, failed⟩
    · unfold Bench.liftFault at failed
      cases resumed : Bench.resume b <;> rw [resumed] at failed <;> cases failed
      exact Bench.resume_failed resumed
    · cases failed

end Request

/-! ### Reachable instances -/

namespace Bench

/-- The benches that a new instance can come to by requests, turns of free running and whatever others do to what is
shared. -/
inductive Reachable : Bench → Prop
  | built {name : String} {config : InstanceConfig} {cpu : Instance} (shared : Shared) :
      Instance.build name config = .ok cpu → Reachable ⟨cpu, shared⟩
  | served {b : Bench} (r : Request) : Reachable b → Reachable (endState (r.serve b))
  | ticked {b : Bench} : Reachable b → Reachable b.tick
  | meanwhile {b : Bench} (shared : Shared) : Reachable b → Reachable { b with shared }

theorem stateLaw_build {name : String} {config : InstanceConfig} {cpu : Instance}
    (built : Instance.build name config = .ok cpu) : cpu.StateLaw := by
  obtain ⟨board, -, -, rfl⟩ := Instance.exists_board built
  exact ⟨nofun, nofun, nofun⟩

theorem Reachable.stateLaw (reachable : Reachable b) : b.cpu.StateLaw := by
  induction reachable with
  | built shared built => exact stateLaw_build built
  | served r _ law => exact r.serve_keeps_stateLaw _ law
  | ticked _ law => exact stateLaw_tick law
  | meanwhile shared _ law => exact law

theorem Reachable.turn {a : Actor} (reachable : Reachable a.bench) : Reachable a.turn.1.bench := by
  cases due : a.due? with
  | some r =>
    rw [Actor.bench_turn_of_due due]
    exact reachable.served r
  | none =>
    rw [Actor.bench_turn_of_idle due]
    split
    · exact reachable.ticked
    · exact reachable

/-- An actor never leaves the reachable benches, in whatever order turns and requests come. -/
theorem Reachable.after {a : Actor} (es : List Actor.Event) (reachable : Reachable a.bench) :
    Reachable (a.after es).bench := by
  induction es generalizing a with
  | nil => exact reachable
  | cons e rest ih =>
    apply ih
    cases e with
    | turn => exact reachable.turn
    | post t =>
      change Reachable (a.post t).1.bench
      rw [Actor.bench_post]
      exact reachable
    | meanwhile shared => exact reachable.meanwhile shared

/-- Whatever has been asked of an instance, it is not stepping, it knows the fault that it stands at, and that is of one
of six kinds; and a step or a resumption that fails does not change the run state. -/
theorem state_of_reachable (reachable : Reachable b) :
    b.cpu.StateLaw ∧
      ∀ r, r = Request.step ∨ r = Request.resume →
        ∀ e b', r.serve b = .error e b' → b'.cpu.state = b.cpu.state :=
  ⟨reachable.stateLaw, fun _ executes _ _ failed => Request.serve_failed executes failed⟩

def toOddAddress : Request := .setRegisters (.ofFn fun i => if i.val = 0 then some 0x4401 else none)

/-- A new instance that is sent to an odd address and booted. -/
def misaligned : Bench :=
  let start : Bench := ⟨Instance.ofBoard (usualBoard "odd"), {}⟩
  (endState (Request.boot.serve (endState (toOddAddress.serve start)))).tick

theorem misaligned_faulted :
    misaligned.Reachable ∧ misaligned.cpu.state = .fault ∧
      misaligned.cpu.lastFault = some (.addressUnaligned 0x4401) ∧ misaligned.cpu.StateLaw ∧
      ∀ r, r = Request.step ∨ r = Request.resume →
        ∀ e b', r.serve misaligned = .error e b' → b'.cpu.state = misaligned.cpu.state := by
  have built : Instance.build "odd" {} = .ok (Instance.ofBoard (usualBoard "odd")) := rfl
  have reachable : misaligned.Reachable := (((Reachable.built {} built).served toOddAddress).served .boot).ticked
  have state : misaligned.cpu.state = .fault := by decide +kernel
  have fault : misaligned.cpu.lastFault = some (.addressUnaligned 0x4401) := by decide +kernel
  exact ⟨reachable, state, fault, state_of_reachable reachable⟩

end Bench

end Msp430
