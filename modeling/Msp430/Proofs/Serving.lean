import Msp430.Proofs.StopBreakpoint

/-!
# Requests that wait

A request that executes an instruction may come to wait for input, and then it leaves the instance as it was but for
the flag. All other requests are carried out at once, and leave the flag and the store as they are.
-/

namespace Msp430

open Access

/-! ### Instructions that wait -/

namespace Bench

variable {b b' : Bench}

/-- An instruction that has come to wait for input in some world is to be tried again. -/
def Tried (b : Bench) : Prop := ∃ w, (b.machine.inWorld w).step.1 = .failed .awaitingInput

theorem tried_of_waits (waits : b.machine.step.1 = .failed .awaitingInput) : b.Tried :=
  ⟨b.machine.memory.backing.world, waits⟩

theorem Tried.of_cpu (tried : b.Tried) {on : Bool} (cpu : b'.cpu = { b.cpu with awaiting := on }) : b'.Tried := by
  obtain ⟨w, waits⟩ := tried
  refine ⟨w, ?_⟩
  have same : b'.machine.inWorld w = b.machine.inWorld w := by
    unfold machine Machine.inWorld
    rw [cpu]
  rwa [same]

/-- The fixed part of an instance, its flag and the store. -/
def standing (b : Bench) : Board × Bool × KeyValue.Store := (b.cpu.board, b.cpu.awaiting, b.shared.store)

theorem standing_setState (b : Bench) (s : RunState) : (b.setState s).standing = b.standing := by
  unfold standing
  rw [cpu_setState, store_setState]

theorem standing_setRegisters (b : Bench) (values : Vector (Option UInt16) 16) :
    (b.setRegisters values).standing = b.standing := by
  unfold standing setRegisters
  rfl

theorem cpu_advance_waits (waits : b.machine.step.1 = .failed .awaitingInput) :
    b.advance.2.cpu = { b.cpu with awaiting := true } := by
  have poised : b.Poised := .inr (tried_of_waits waits)
  have awaiting : b.machine.step.2.memory.backing.world.awaiting = true :=
    poised.awaiting_step.trans (decide_eq_true waits)
  rw [advance_waits waits]
  unfold withWorld
  rw [cpu_begun, awaiting]

theorem tick_cpu_waits (free : b.breakpoint? ≠ some .stop) (waits : b.machine.step.1 = .failed .awaitingInput) :
    b.tick.cpu = { b.cpu with awaiting := true } := by
  have poised : b.Poised := .inr (tried_of_waits waits)
  exact poised.tick_waits ⟨free, waits⟩

theorem steps_tick_of_awaiting (awaiting : b.cpu.awaiting = true) :
    b.tick.shared.metrics.steps = b.shared.metrics.steps := by
  have begun : b.begun = b := if_pos awaiting
  have ended : b.ended.shared.metrics.steps = b.shared.metrics.steps := by
    by_cases waits : b.machine.step.1 = .failed .awaitingInput
    · rw [ended_waits waits, begun]
      rfl
    · rw [steps_ended waits, begun]
  by_cases stop : b.breakpoint? = some .stop
  · rw [tick_stop stop, (counts_setState b .stopped).1]
  · rw [tick_eq stop]
    split
    · rw [(counts_setState b.ended .stopped).1, ended]
    · exact ended

theorem steps_tick_of_begun (ready : b.cpu.awaiting = false) (free : b.breakpoint? ≠ some .stop) :
    b.tick.shared.metrics.steps = b.shared.metrics.steps + 1 := by
  have begun : b.begun = b.mapMetrics .recordStep := by
    unfold begun
    rw [ready]
    rfl
  have ended : b.ended.shared.metrics.steps = b.shared.metrics.steps + 1 := by
    by_cases waits : b.machine.step.1 = .failed .awaitingInput
    · rw [ended_waits waits, begun]
      rfl
    · rw [steps_ended waits, begun]
      rfl
  rw [tick_eq free]
  split
  · rw [(counts_setState b.ended .stopped).1, ended]
  · exact ended

theorem outcome_advance (b : Bench) : b.advance.1 = b.machine.step.1 := by
  by_cases waits : b.machine.step.1 = .failed .awaitingInput
  · rw [advance_waits waits, waits]
  · rw [advance_goes waits]

theorem step_error {f : Fault} (failed : b.step = .error f b') : b.machine.step.1 = .failed f ∧ b' = b.advance.2 := by
  have outcome := b.outcome_advance
  unfold step at failed
  split at failed <;> cases failed
  next advanced =>
    rw [advanced] at outcome ⊢
    exact ⟨outcome.symm, rfl⟩

end Bench

/-! ### Requests that wait -/

namespace Request

variable {r : Request} {b b' : Bench}

/-- The request is carried out to its end, with an answer. -/
def Ends (r : Request) (b : Bench) (answer : Except ControlError Reply) (b' : Bench) : Prop :=
  answer ≠ .error (.cpu .awaitingInput) ∧
    r.serve b = match answer with
      | .ok reply => .ok reply b'
      | .error e => .error e b'

theorem loadImage_never_waits (key : String) {e : ControlError} (failed : Bench.loadImage key b = .error e b') :
    e ≠ .cpu .awaitingInput := by
  rcases bind_eq_error.mp failed with read | ⟨found, b₁, -, failed⟩
  · unfold Bench.submit at read
    cases job : KeyValue.get key b.shared.store <;> rw [job] at read <;> cases read
    nofun
  · cases found with
    | none =>
      cases failed
      nofun
    | some image =>
      rcases bind_eq_error.mp failed with loaded | ⟨written, b₂, -, failed⟩
      · unfold Bench.loadBytes at loaded
        cases load : (Image.load image : EStateM Image.Error Memory Nat) b₁.cpu.memory <;>
          rw [load] at loaded <;> cases loaded
        nofun
      · cases failed

/-- Only a step or a resumption can come to wait, and it leaves the instance as it was but for the flag. -/
theorem serve_waits (waits : r.serve b = .error (.cpu .awaitingInput) b') :
    r.executes ∧ b.machine.step.1 = .failed .awaitingInput ∧ b'.cpu = { b.cpu with awaiting := true } := by
  cases r with
  | step =>
    rcases bind_eq_error.mp waits with failed | ⟨u, b₁, -, failed⟩
    · have same := Bench.machine_setState b .stepping
      unfold Bench.singleStep at failed
      cases stepped : Bench.step (b.setState .stepping) <;> rw [stepped] at failed <;> cases failed
      obtain ⟨outcome, rfl⟩ := Bench.step_error stepped
      have cpu := Bench.cpu_advance_waits outcome
      refine ⟨rfl, same ▸ outcome, ?_⟩
      rw [Bench.cpu_setState, cpu, Bench.cpu_setState]
    · cases failed
  | resume =>
    rcases bind_eq_error.mp waits with failed | ⟨u, b₁, -, failed⟩
    · unfold Bench.liftFault at failed
      cases resumed : Bench.resume b <;> rw [resumed] at failed <;> cases failed
      rcases bind_eq_error.mp resumed with stepped | ⟨u, b₁, -, set⟩
      · obtain ⟨outcome, rfl⟩ := Bench.step_error stepped
        exact ⟨rfl, outcome, Bench.cpu_advance_waits outcome⟩
      · cases set
    · cases failed
  | readMemory address length =>
    rcases bind_eq_error.mp waits with failed | ⟨c, b₁, got, failed⟩
    · cases failed
    · cases got
      cases read : b.cpu.readMemory address length <;> rw [read] at failed <;> cases failed
      unfold Instance.readMemory Memory.read at read
      split at read <;> cases read
  | loadImage key =>
    rcases bind_eq_error.mp waits with failed | ⟨n, b₁, -, failed⟩
    · exact absurd rfl (loadImage_never_waits key failed)
    · cases failed
  | reset =>
    rcases bind_eq_error.mp waits with failed | ⟨u, b₁, -, failed⟩
    · rcases bind_eq_error.mp failed with failed | ⟨c, b₁, got, failed⟩
      · cases failed
      · rcases bind_eq_error.mp failed with failed | ⟨n, b₂, -, failed⟩
        · exact absurd rfl (loadImage_never_waits _ failed)
        · cases failed
    · cases failed
  | _ => cases waits

/-- What a request that executes nothing leaves as it is. -/
theorem serve_keeps_standing (plain : ¬ r.executes) {standing : Board × Bool × KeyValue.Store} :
    Keeps (fun b : Bench => b.standing = standing) r.serve := by
  have load (key : String) : Keeps (fun b : Bench => b.standing = standing) (Bench.loadImage key) :=
    Bench.loadImage_keeps (fun _ _ h => h) (fun _ _ h => h) key
  refine serve_keeps (fun b s _ h => (b.standing_setState s).trans h)
    (fun b values h => (b.standing_setRegisters values).trans h) (fun _ _ _ h => h) (fun key _ => load key) (fun _ => ?_)
    ?_
  · refine keeps_bind keeps_get fun b => keeps_bind (load _) fun _ => keeps_modify fun b h => ?_
    exact (Bench.standing_setState _ .stopped).trans h
  · rintro (rfl | rfl) <;> exact absurd rfl plain

theorem exists_serve_of_waits (executes : r.executes) (waits : b.machine.step.1 = .failed .awaitingInput) :
    ∃ b', r.serve b = .error (.cpu .awaitingInput) b' := by
  have stepped {b : Bench} (waits : b.machine.step.1 = .failed .awaitingInput) :
      b.step = .error .awaitingInput b.advance.2 := by
    unfold Bench.step
    rw [Bench.advance_waits waits]
  cases r with
  | step =>
    have waits : (b.setState .stepping).machine.step.1 = .failed .awaitingInput := by
      rwa [Bench.machine_setState]
    have failed : Bench.singleStep b =
        .error (.cpu .awaitingInput) ((b.setState .stepping).advance.2.setState b.cpu.state) := by
      unfold Bench.singleStep
      rw [stepped waits]
    exact ⟨_, bind_eq_error.mpr (.inl failed)⟩
  | resume =>
    have resumed : b.resume = .error .awaitingInput b.advance.2 := bind_eq_error.mpr (.inl (stepped waits))
    have failed : Bench.liftFault Bench.resume b = .error (.cpu .awaitingInput) b.advance.2 := by
      unfold Bench.liftFault
      rw [resumed]
    exact ⟨_, bind_eq_error.mpr (.inl failed)⟩
  | _ => cases executes

namespace Ends

variable {answer : Except ControlError Reply}

theorem endState (ends : r.Ends b answer b') : endState (r.serve b) = b' := by
  rw [ends.2]
  cases answer <;> rfl

theorem ready (ends : r.Ends b answer b') (poised : b.Poised) (calm : r.executes ∨ b.cpu.awaiting = false) :
    b'.cpu.awaiting = false := by
  rw [← ends.endState]
  by_cases executes : r.executes
  · have goes : b.machine.step.1 ≠ .failed .awaitingInput := by
      intro waits
      obtain ⟨b₁, served⟩ := exists_serve_of_waits executes waits
      have answered := served.symm.trans ends.2
      cases answer <;> cases answered
      exact ends.1 rfl
    have machine := machine_serve_of_executes executes goes
    have awaiting := poised.awaiting_step
    rw [← machine, decide_eq_false goes] at awaiting
    exact awaiting
  · have standing := serve_keeps_standing executes b rfl
    exact (congrArg (·.2.1) standing).trans (calm.resolve_left executes)

end Ends

end Request

/-! ### What lasts -/

namespace Bench

variable {I : Bench → Prop}

theorem keeps_step (advance : ∀ b, I b → I b.advance.2) : Keeps I step := by
  intro b holds
  rw [endState_step]
  exact advance b holds

theorem keeps_singleStep (state : ∀ b s, I b → I (b.setState s)) (advance : ∀ b, I b → I b.advance.2) :
    Keeps I singleStep := by
  intro b holds
  have stepped := keeps_step advance _ (state b .stepping holds)
  unfold singleStep
  cases ended : step (b.setState .stepping) <;> rw [ended] at stepped <;> exact state _ _ stepped

/-- What instructions and changes of the run state keep, a step and a resumption keep. -/
theorem keeps_execute (state : ∀ b s, I b → I (b.setState s)) (advance : ∀ b, I b → I b.advance.2) {r : Request}
    (executes : r = .resume ∨ r = .step) : Keeps I r.serve := by
  rcases executes with rfl | rfl
  · refine keeps_bind (liftFault_keeps (keeps_bind (keeps_step advance) fun _ => keeps_modify ?_)) fun _ => keeps_pure _
    exact fun b holds => state b _ holds
  · exact keeps_bind (keeps_singleStep state advance) fun _ => keeps_pure _

/-- Nothing that happens to an instance puts an end to it, short of a load of an image: not a change of the run state,
an instruction, a fault, nor what clients do to registers and breakpoints. -/
structure Lasting (I : Bench → Prop) : Prop where
  state : ∀ b s, I b → I (b.setState s)
  advance : ∀ b, I b → I b.advance.2
  fail : ∀ b f, I b → I (b.fail f)
  registers : ∀ b values, I b → I (b.setRegisters values)
  breakpoints : ∀ b breakpoints, I b → I { b with cpu := { b.cpu with breakpoints } }

namespace Lasting

variable {b : Bench}

theorem settle (lasting : Lasting I) (o : Outcome) (holds : I b) : I (b.settle o) := by
  unfold Bench.settle
  split
  · exact holds
  · exact lasting.state b _ holds
  · exact lasting.state b _ holds
  · exact holds
  · exact lasting.fail b _ holds

theorem tick (lasting : Lasting I) (holds : I b) : I b.tick := by
  have ended : I b.ended := lasting.settle _ (lasting.advance b holds)
  by_cases stop : b.breakpoint? = some .stop
  · rw [tick_stop stop]
    exact lasting.state b _ holds
  · rw [tick_eq stop]
    split
    · exact lasting.state b.ended _ ended
    · exact ended

theorem serve (lasting : Lasting I) {r : Request} (load : ∀ key, r = .loadImage key → Keeps I (loadImage key))
    (reset : r = .reset → Keeps I reset) : Keeps I r.serve :=
  Request.serve_keeps (fun b s _ holds => lasting.state b s holds) lasting.registers (fun _ => lasting.breakpoints) load
    reset (keeps_execute lasting.state lasting.advance)

end Lasting

end Bench

end Msp430
