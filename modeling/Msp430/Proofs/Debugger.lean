import Msp430.Proofs.Advance

/-!
# Debugging an instance

Turns of free running, resumptions and single steps execute the instructions that bare steps of the machine
execute. Breakpoints decide when this happens and not what happens.
-/

namespace Msp430

namespace Machine

variable {μ : Type} [Bus μ] {m : Machine μ} {n : Nat}

/-- The next `n` steps all run on. -/
def Runs (n : Nat) (m : Machine μ) : Prop := ∀ k < n, ∃ d, (m.steps k).step.1 = .ran d

theorem Runs.steps {k l : Nat} (h : Runs n m) (hk : k + l ≤ n) : Runs l (m.steps k) := by
  intro j hj
  rw [← steps_add]
  exact h (k + j) (by omega)

/-- A step that runs on has not switched the processor off. -/
theorem step_ran {d : Decoded} (h : m.step.1 = .ran d) : m.step.2.registers.halted = false := by
  unfold step at h ⊢
  cases hc : cycle m with
  | error f m' =>
    rw [hc] at h
    cases h
  | ok d' m' =>
    rw [hc] at h
    simp only at h ⊢
    split at h
    · cases h
    · next on => exact Bool.not_eq_true _ ▸ on

end Machine

namespace Bench

variable {b b' b'' : Bench} {k l n : Nat}

/-- The number of instructions that the metrics have counted. -/
def executed (b : Bench) : Nat := b.shared.metrics.instructions.total

/-- The registers, the memory and the world are those after `k` bare steps, and the metrics have counted
`k` instructions. -/
structure Later (k : Nat) (b b' : Bench) : Prop where
  machine : b'.machine = b.machine.steps k
  executed : b'.executed = b.executed + k

theorem Later.refl (b : Bench) : Later 0 b b := ⟨rfl, rfl⟩

theorem Later.trans (h : Later k b b') (h' : Later l b' b'') : Later (k + l) b b'' where
  machine := by rw [h'.machine, h.machine, Machine.steps_add]
  executed := by rw [h'.executed, h.executed, Nat.add_assoc]

theorem later_endState {ε : Type} {x : EStateM ε Bench Unit} (h : x b = .ok () b') (later : Later k b b') :
    Later k b (Access.endState (x b)) := by
  rw [h]
  exact later

theorem later_setState (b : Bench) (s : RunState) : Later 0 b (b.setState s) where
  machine := machine_setState b s
  executed := congrArg Tally.total (counts_setState b s).2

theorem state_setState (b : Bench) (s : RunState) : (b.setState s).cpu.state = s := by rw [cpu_setState]

theorem advance_ran {d : Decoded} (h : b.machine.step.1 = .ran d) :
    ∃ b', b.advance = (.ran d, b') ∧ Later 1 b b' ∧ b'.cpu.state = b.cpu.state := by
  have went := advance_goes (b := b) (h ▸ nofun)
  rw [h] at went
  have count : b.begun.executed = b.executed := by
    unfold begun
    split <;> rfl
  have total : (b.begun.shared.metrics.instructions.bump d.instruction.operation).total = b.executed + 1 := by
    rw [Tally.total_bump]
    exact congrArg (· + 1) count
  have machine := machine_withMachine b.begun
  rw [machine_begun] at machine
  have state : b.begun.cpu.state = b.cpu.state := by rw [cpu_begun]
  exact ⟨_, went, ⟨machine, total⟩, state⟩

/-! ### Each way to execute an instruction -/

theorem tick_stop (h : b.cpu.breakpoints[b.cpu.registers.pc]? = some .stop) : b.tick = b.setState .stopped :=
  if_pos h

theorem tick_ran {d : Decoded} (h : b.machine.step.1 = .ran d)
    (free : b.cpu.breakpoints[b.cpu.registers.pc]? ≠ some .stop) : Later 1 b b.tick := by
  obtain ⟨b', advanced, later, -⟩ := advance_ran h
  unfold tick
  simp only [if_neg free, advanced, settle]
  split
  · exact later.trans (later_setState b' .stopped)
  · exact later

theorem step_ran {d : Decoded} (h : b.machine.step.1 = .ran d) :
    ∃ b', b.step = .ok () b' ∧ Later 1 b b' := by
  obtain ⟨b', advanced, later, -⟩ := advance_ran h
  refine ⟨b', ?_, later⟩
  unfold step
  rw [advanced]

/-- A resumption that does not halt leaves the instance running. -/
theorem resume_ran {d : Decoded} (h : b.machine.step.1 = .ran d) :
    ∃ b', b.resume = .ok () b' ∧ Later 1 b b' ∧ b'.cpu.state = .running := by
  obtain ⟨b₁, stepped, later⟩ := step_ran h
  have on : b₁.cpu.registers.halted = false := by
    have running := Machine.step_ran h
    have same : b₁.machine = b.machine.step.2 := later.machine
    rwa [← same] at running
  refine ⟨b₁.setState .running, ?_, later.trans (later_setState b₁ .running), state_setState _ _⟩
  change EStateM.bind step _ b = _
  unfold EStateM.bind
  rw [stepped]
  change EStateM.Result.ok () (b₁.setState (if b₁.cpu.registers.halted then .stopped else .running)) = _
  rw [on]
  rfl

theorem singleStep_ran {d : Decoded} (h : b.machine.step.1 = .ran d) :
    ∃ b', b.singleStep = .ok () b' ∧ Later 1 b b' := by
  have stepping := later_setState b .stepping
  have same : (b.setState .stepping).machine = b.machine := stepping.machine
  obtain ⟨b₁, stepped, later⟩ := step_ran (b := b.setState .stepping) (same ▸ h)
  refine ⟨b₁.setState .stopped, ?_, (stepping.trans later).trans (later_setState b₁ .stopped)⟩
  unfold singleStep
  rw [stepped]

end Bench

/-! ### Any way to drive an instance -/

/-- What a debugger does to an instance: a turn of free running if the instance runs, a resumption, a step with
or without a change of the run state, a change of the run state alone, and another table of breakpoints. -/
inductive Drive where
  | tick
  | resume
  | step
  | singleStep
  | steer (s : RunState)
  | breakpoints (table : Breakpoints)

namespace Drive

def apply (b : Bench) : Drive → Bench
  | tick => if b.cpu.state = .running then b.tick else b
  | resume => Access.endState b.resume
  | step => Access.endState b.step
  | singleStep => Access.endState b.singleStep
  | steer s => b.setState s
  | breakpoints table => { b with cpu := { b.cpu with breakpoints := table } }

/-- The number of instructions that are begun. -/
def attempts (b : Bench) : Drive → Nat
  | tick => if b.cpu.state = .running ∧ b.cpu.breakpoints[b.cpu.registers.pc]? ≠ some .stop then 1 else 0
  | resume | step | singleStep => 1
  | steer _ | breakpoints _ => 0

variable {b : Bench}

/-- Whatever is done, the machine goes as many steps as instructions are begun. -/
theorem apply_later (op : Drive) (h : b.machine.Runs (op.attempts b)) :
    b.Later (op.attempts b) (op.apply b) := by
  cases op with
  | steer s => exact Bench.later_setState b s
  | breakpoints table => exact ⟨rfl, rfl⟩
  | tick =>
    unfold attempts at h ⊢
    unfold apply
    by_cases running : b.cpu.state = .running
    · by_cases stop : b.cpu.breakpoints[b.cpu.registers.pc]? = some .stop
      · rw [if_pos running, if_neg fun both => both.2 stop, Bench.tick_stop stop]
        exact Bench.later_setState b .stopped
      · rw [if_pos ⟨running, stop⟩] at h ⊢
        rw [if_pos running]
        obtain ⟨d, ran⟩ := h 0 Nat.one_pos
        exact Bench.tick_ran ran stop
    · rw [if_neg running, if_neg fun both => running both.1]
      exact .refl b
  | resume =>
    obtain ⟨d, ran⟩ := h 0 Nat.one_pos
    obtain ⟨b', resumed, later, -⟩ := Bench.resume_ran ran
    exact Bench.later_endState resumed later
  | step =>
    obtain ⟨d, ran⟩ := h 0 Nat.one_pos
    obtain ⟨b', stepped, later⟩ := Bench.step_ran ran
    exact Bench.later_endState stepped later
  | singleStep =>
    obtain ⟨d, ran⟩ := h 0 Nat.one_pos
    obtain ⟨b', stepped, later⟩ := Bench.singleStep_ran ran
    exact Bench.later_endState stepped later

/-- What a request of a debugger does to an instance. -/
def ofRequest? (b : Bench) : Request → Option Drive
  | .boot => some (steer .running)
  | .stop => some (steer .stopped)
  | .resume => some resume
  | .step => some singleStep
  | .setBreakpoint a kind => some (breakpoints (b.cpu.breakpoints.insert a kind))
  | .clearBreakpoint a => some (breakpoints (b.cpu.breakpoints.erase a))
  | _ => none

theorem serve_ofRequest? {r : Request} {op : Drive} (h : ofRequest? b r = some op) :
    Access.endState (r.serve b) = op.apply b := by
  cases r with
  | resume =>
    cases h
    change Access.endState (EStateM.bind (Bench.liftFault Bench.resume) _ b) = Access.endState (Bench.resume b)
    unfold EStateM.bind Bench.liftFault
    cases Bench.resume b <;> rfl
  | step =>
    cases h
    change Access.endState (EStateM.bind Bench.singleStep _ b) = Access.endState (Bench.singleStep b)
    unfold EStateM.bind
    cases Bench.singleStep b <;> rfl
  | boot | stop | setBreakpoint a kind | clearBreakpoint a =>
    cases h
    rfl
  | _ => cases h

/-! ### Runs -/

def applyAll (b : Bench) : List Drive → Bench
  | [] => b
  | op :: rest => applyAll (op.apply b) rest

/-- The number of instructions that are begun in all. -/
def attemptsAll (b : Bench) : List Drive → Nat
  | [] => 0
  | op :: rest => op.attempts b + attemptsAll (op.apply b) rest

theorem applyAll_later {n : Nat} (ops : List Drive) (h : b.machine.Runs n) (within : attemptsAll b ops ≤ n) :
    b.Later (attemptsAll b ops) (applyAll b ops) := by
  induction ops generalizing b n with
  | nil => exact .refl b
  | cons op rest ih =>
    unfold attemptsAll at within ⊢
    have first := op.apply_later (h.steps (k := 0) (l := op.attempts b) (by omega))
    refine first.trans (ih (n := n - op.attempts b) ?_ (by omega))
    rw [first.machine]
    exact h.steps (by omega)

theorem attemptsAll_append (b : Bench) (ops ops' : List Drive) :
    attemptsAll b (ops ++ ops') = attemptsAll b ops + attemptsAll (applyAll b ops) ops' := by
  induction ops generalizing b with
  | nil => exact (Nat.zero_add _).symm
  | cons op rest ih =>
    simp only [List.cons_append, attemptsAll, applyAll, ih, Nat.add_assoc]

/-! ### Running to the next stop and resuming -/

/-- With new breakpoints, a turn of free running if the instance runs and a resumption if it does not. -/
def turn (table : Breakpoints) (b : Bench) : List Drive :=
  [breakpoints table, if b.cpu.state = .running then tick else resume]

/-- Free running until the instance does not run, a resumption, and so on for a number of turns. Every turn has
breakpoints of its own. -/
def alternation (tables : Nat → Breakpoints) (b : Bench) : Nat → List Drive
  | 0 => []
  | t + 1 => turn (tables 0) b ++ alternation (fun k => tables (k + 1)) (applyAll b (turn (tables 0) b)) t

theorem attemptsAll_turn_of_stopped (table : Breakpoints) (h : b.cpu.state ≠ .running) :
    attemptsAll b (turn table b) = 1 := by
  unfold turn
  rw [if_neg h]
  rfl

/-- A turn that begins no instruction stops the instance, so that the next one begins one. -/
theorem attemptsAll_turn (table : Breakpoints) (b : Bench) :
    attemptsAll b (turn table b) = 1 ∨
      attemptsAll b (turn table b) = 0 ∧ (applyAll b (turn table b)).cpu.state ≠ .running := by
  by_cases running : b.cpu.state = .running
  · have begun : attemptsAll b (turn table b) =
        if b.cpu.state = .running ∧ table[b.cpu.registers.pc]? ≠ some .stop then 1 else 0 := by
      unfold turn
      rw [if_pos running]
      exact Nat.zero_add _
    by_cases stop : table[b.cpu.registers.pc]? = some .stop
    · refine .inr ⟨begun.trans (if_neg fun both => both.2 stop), ?_⟩
      have stopped : applyAll b (turn table b) =
          ((breakpoints table).apply b).setState .stopped := by
        unfold turn
        rw [if_pos running]
        exact (if_pos running).trans (Bench.tick_stop stop)
      rw [stopped, Bench.state_setState]
      decide
    · exact .inl (begun.trans (if_pos ⟨running, stop⟩))
  · exact .inl (attemptsAll_turn_of_stopped table running)

theorem alternation_reaches {n : Nat} (tables : Nat → Breakpoints) (h : b.machine.Runs n) :
    ∃ t ≤ 2 * n, attemptsAll b (alternation tables b t) = n := by
  induction n generalizing b tables with
  | zero => exact ⟨0, Nat.zero_le _, rfl⟩
  | succ n ih =>
    -- From a turn that begins an instruction on, the induction hypothesis takes over.
    have begin {b : Bench} (tables : Nat → Breakpoints) (h : b.machine.Runs (n + 1))
        (one : attemptsAll b (turn (tables 0) b) = 1) :
        ∃ t ≤ 2 * n + 1, attemptsAll b (alternation tables b t) = n + 1 := by
      have later := applyAll_later (turn (tables 0) b) h (by omega)
      rw [one] at later
      have rest : (applyAll b (turn (tables 0) b)).machine.Runs n := by
        rw [later.machine]
        exact h.steps (by omega)
      obtain ⟨t, bound, reached⟩ := ih (fun k => tables (k + 1)) rest
      refine ⟨t + 1, by omega, ?_⟩
      rw [alternation, attemptsAll_append, one, reached, Nat.add_comm]
    rcases attemptsAll_turn (tables 0) b with one | ⟨none, stopped⟩
    · obtain ⟨t, bound, reached⟩ := begin tables h one
      exact ⟨t, by omega, reached⟩
    · have later := applyAll_later (turn (tables 0) b) h (by omega)
      rw [none] at later
      obtain ⟨t, bound, reached⟩ := begin (fun k => tables (k + 1)) (later.machine ▸ h)
        (attemptsAll_turn_of_stopped _ stopped)
      refine ⟨t + 1, by omega, ?_⟩
      rw [alternation, attemptsAll_append, none, reached, Nat.zero_add]

end Drive

namespace Bench

/-- However the instance is driven, its machine is where bare steps lead, for as long as no more than `n`
instructions are begun. A stop at a breakpoint and a resumption make one instruction, and so resuming at every
stop comes to any number of instructions up to `n`. -/
structure Transparent (n : Nat) (b : Bench) : Prop where
  driven : ∀ ops, Drive.attemptsAll b ops ≤ n → b.Later (Drive.attemptsAll b ops) (Drive.applyAll b ops)
  resumed : 0 < n → b.cpu.breakpoints[b.cpu.registers.pc]? = some .stop →
    b.tick.cpu.state = .stopped ∧ b.Later 0 b.tick ∧
      ∃ b', b.tick.resume = .ok () b' ∧ b.Later 1 b' ∧ b'.cpu.state = .running
  reached : ∀ tables, ∃ t ≤ 2 * n, Drive.attemptsAll b (Drive.alternation tables b t) = n

theorem transparent_of_runs {n : Nat} {b : Bench} (h : b.machine.Runs n) : Transparent n b where
  driven ops within := Drive.applyAll_later ops h within
  resumed := by
    intro some stop
    rw [tick_stop stop]
    have stopped := later_setState b .stopped
    have same : (b.setState .stopped).machine = b.machine := stopped.machine
    obtain ⟨d, ran⟩ := h 0 some
    obtain ⟨b', resumed, later, running⟩ := resume_ran (b := b.setState .stopped) (same ▸ ran)
    exact ⟨state_setState b .stopped, stopped, b', resumed, stopped.trans later, running⟩
  reached tables := Drive.alternation_reaches tables h

/-- A loop that counts in two registers, with a breakpoint on its second instruction. -/
def counter : Bench where
  cpu :=
    { Instance.ofBoard (usualBoard "counter") with
      memory := Memory.empty.storeBytes 0x4400 [0x14, 0x53, 0x15, 0x53, 0xFD, 0x3F]
      state := .running
      breakpoints := (∅ : Breakpoints).insert 0x4402 .stop }
  shared := {}

theorem counter_transparent : counter.machine.Runs 4 ∧ Transparent 4 counter := by
  have runs : counter.machine.Runs 4 := by
    intro k hk
    match k, hk with
    | 0, _ | 1, _ | 2, _ | 3, _ => exact ⟨_, rfl⟩
  exact ⟨runs, transparent_of_runs runs⟩

end Bench

end Msp430
