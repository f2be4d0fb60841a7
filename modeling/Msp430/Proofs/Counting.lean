import Msp430.Proofs.HookCalls
import Msp430.Proofs.Reset

/-!
# What an operation counts

Each thing that is done to an instance adds to the counters what it has done and no more: a step that is begun, an
instruction carried out, a fault, a hook that is run, an image, a reset. A step that waits for input goes on when it is
tried again, and is one step.
-/

namespace Msp430

open Access

/-! ### Notes in tallies -/

namespace Tally

variable {κ : Type} [DecidableEq κ]

/-- Counts an event if there is one. -/
def note (t : Tally κ) : Option κ → Tally κ
  | some k => t.bump k
  | none => t

theorem total_note (t : Tally κ) (k? : Option κ) : (t.note k?).total = t.total + k?.isSome.toNat := by
  cases k? with
  | none => rfl
  | some k => exact t.total_bump k

end Tally

/-! ### What the parts of an operation count -/

namespace Bench

variable {b : Bench}

/-- The metrics without the gauges. -/
def counters (b : Bench) : Metrics := { b.shared.metrics with gauges := [] }

theorem counters_setState (b : Bench) (s : RunState) : (b.setState s).counters = b.counters := by
  unfold setState
  split <;> rfl

theorem counters_setRegisters (b : Bench) (values : Vector (Option UInt16) 16) :
    (b.setRegisters values).counters = b.counters := by
  unfold counters setRegisters
  rfl

theorem counters_begun (b : Bench) :
    b.begun.counters = { b.counters with steps := b.counters.steps + (!b.cpu.awaiting).toNat } := by
  unfold begun
  cases b.cpu.awaiting <;> rfl

theorem counters_advance (b : Bench) :
    b.advance.2.counters =
      Metrics.recordOutcome { b.begun.counters with calls := b.machine.step.2.memory.backing.world.calls }
        b.machine.step.1 := by
  by_cases waits : b.machine.step.1 = .failed .awaitingInput
  · rw [advance_waits waits, waits]
    rfl
  · rw [advance_goes waits]
    unfold mapMetrics Metrics.recordOutcome counters
    cases b.machine.step.1.executed? <;> rfl

end Bench

/-- The fault that a turn of free running records. A halt and a wait are none. -/
def Outcome.fault? : Outcome → Option Fault
  | failed f => if f = .halted ∨ f = .awaitingInput then none else some f
  | _ => none

/-- A step fails, carries out an instruction or waits. -/
theorem Outcome.balance (o : Outcome) :
    o.fault?.isSome.toNat + o.executed?.isSome.toNat + (decide (o = .failed .awaitingInput)).toNat ≤ 1 := by
  cases o with
  | failed f =>
    by_cases waits : f = .awaitingInput
    · subst waits
      exact Nat.le_refl 1
    · have goes : Outcome.failed f ≠ .failed .awaitingInput := fun same => waits (Outcome.failed.inj same)
      rw [decide_eq_false goes]
      exact Bool.toNat_le _
  | _ => exact Nat.le_refl 1

namespace Bench

variable {b b' : Bench}

theorem board_advance (b : Bench) : b.advance.2.cpu.board = b.cpu.board := by
  have begun : b.begun.cpu.board = b.cpu.board := congrArg Instance.board b.cpu_begun
  by_cases waits : b.machine.step.1 = .failed .awaitingInput
  · rw [advance_waits waits]
    exact begun
  · rw [advance_goes waits]
    exact begun

/-- The run state does not matter to a step. -/
theorem counters_advance_setState (b : Bench) (s : RunState) :
    (b.setState s).advance.2.counters = b.advance.2.counters := by
  rw [counters_advance, counters_advance, counters_begun, counters_begun, counters_setState, machine_setState,
    cpu_setState]

theorem counters_settle (b : Bench) (o : Outcome) :
    (b.settle o).counters =
      match o.fault? with
      | some f => b.counters.recordFault b.cpu.name f.kind
      | none => b.counters := by
  unfold settle
  split
  · rfl
  · exact counters_setState b .stopped
  · exact counters_setState b .stopped
  · rfl
  next f notHalted notWaiting =>
    have fault : (Outcome.failed f).fault? = some f := if_neg fun either => either.elim notHalted notWaiting
    rw [fault]
    exact counters_setState _ .fault

theorem counters_tick (free : b.breakpoint? ≠ some .stop) :
    b.tick.counters =
      match b.machine.step.1.fault? with
      | some f => b.advance.2.counters.recordFault b.cpu.name f.kind
      | none => b.advance.2.counters := by
  have name : b.advance.2.cpu.name = b.cpu.name := congrArg Board.name b.board_advance
  have ended : b.ended.counters = b.tick.counters := by
    rw [tick_eq free]
    split
    · exact (counters_setState b.ended .stopped).symm
    · rfl
  rw [← ended, ← name, ← b.outcome_advance]
  exact counters_settle b.advance.2 b.advance.1

theorem counters_serve {r : Request} (executes : r.executes) :
    (endState (r.serve b)).counters = b.advance.2.counters := by
  cases r with
  | resume =>
    have drive : Drive.ofRequest? b .resume = some .resume := rfl
    rw [Drive.serve_ofRequest? drive, ← b.endState_step]
    change (endState (EStateM.bind Bench.step _ b)).counters = _
    unfold EStateM.bind
    cases b.step with
    | ok u b' => exact counters_setState b' _
    | error f b' => rfl
  | step =>
    have drive : Drive.ofRequest? b .step = some .singleStep := rfl
    rw [Drive.serve_ofRequest? drive, ← counters_advance_setState b .stepping, ← endState_step]
    change (endState b.singleStep).counters = _
    unfold singleStep
    cases (b.setState .stepping).step with
    | ok u b' => exact counters_setState b' _
    | error f b' => exact counters_setState b' _
  | _ => cases executes

theorem submit_uncounted (job : KeyValue.Job α) (b : Bench) :
    (endState (submit job b)).counters = b.counters ∧ (endState (submit job b)).cpu = b.cpu := by
  unfold submit
  cases job b.shared.store <;> exact ⟨rfl, rfl⟩

theorem loadBytes_uncounted (image : Bytes) (b : Bench) :
    (endState (loadBytes image b)).counters = b.counters ∧
      (endState (loadBytes image b)).cpu.board = b.cpu.board := by
  unfold loadBytes
  cases (Image.load image : EStateM Image.Error Memory Nat) b.cpu.memory <;> exact ⟨rfl, rfl⟩

/-- An image that is loaded is counted; a load that fails is not. -/
theorem counters_loadImage (key : String) (b : Bench) :
    (endState (loadImage key b)).counters =
      if succeeds (loadImage key b) then b.counters.recordImageLoad b.cpu.name else b.counters := by
  have found := submit_uncounted (KeyValue.get key) b
  cases loaded : loadImage key b with
  | ok n b' =>
    obtain ⟨image?, c, read, loaded⟩ := bind_eq_ok.mp loaded
    rw [read] at found
    cases image? with
    | none => cases loaded
    | some image =>
      obtain ⟨written, c', stored, loaded⟩ := bind_eq_ok.mp loaded
      have kept := loadBytes_uncounted image c
      rw [stored] at kept
      cases loaded
      have counters : c'.counters = b.counters := kept.1.trans found.1
      have name : c'.cpu.name = b.cpu.name := congrArg Board.name (kept.2.trans (congrArg Instance.board found.2))
      change c'.counters.recordImageLoad c'.cpu.name = b.counters.recordImageLoad b.cpu.name
      rw [counters, name]
  | error e b' =>
    rcases bind_eq_error.mp loaded with read | ⟨image?, c, read, loaded⟩
    · rw [read] at found
      exact found.1
    · rw [read] at found
      cases image? with
      | none =>
        cases loaded
        exact found.1
      | some image =>
        have kept := loadBytes_uncounted image c
        rcases bind_eq_error.mp loaded with stored | ⟨written, c', -, loaded⟩
        · rw [stored] at kept
          exact kept.1.trans found.1
        · cases loaded

/-- A reset fails just where its load does, and is counted beside it. -/
theorem counters_reset (b : Bench) :
    succeeds (reset b) = succeeds (loadImage b.cpu.image b) ∧
      (endState (reset b)).counters =
        if succeeds (reset b) then (b.counters.recordImageLoad b.cpu.name).recordReset b.cpu.name else b.counters := by
  have load := counters_loadImage b.cpu.image b
  have board : (endState (loadImage b.cpu.image b)).cpu.board = b.cpu.board :=
    loadImage_keeps (I := fun c => c.cpu.board = b.cpu.board) (fun _ _ same => same) (fun _ _ same => same) _ b rfl
  cases loaded : loadImage b.cpu.image b with
  | error e c =>
    rw [loaded] at load
    have failed : reset b = .error e c := by
      rw [reset_eq]
      exact bind_eq_error.mpr (.inl loaded)
    rw [failed]
    exact ⟨rfl, load⟩
  | ok n c =>
    rw [loaded] at load board
    have done : reset b = .ok () c.restart := by
      rw [reset_eq]
      exact bind_eq_ok.mpr ⟨n, c, loaded, rfl⟩
    rw [done]
    refine ⟨rfl, ?_⟩
    have counters : c.counters = b.counters.recordImageLoad b.cpu.name := load
    have name : c.cpu.name = b.cpu.name := congrArg Board.name board
    have restarted : c.restart.counters = c.counters.recordReset c.cpu.name := by
      let fresh : Bench :=
        { c with cpu := { c.cpu with registers := Instance.entryRegisters c.cpu.config, lastFault := none } }
      change (fresh.setState .stopped).counters.recordReset (fresh.setState .stopped).cpu.name = _
      rw [counters_setState, cpu_setState]
      rfl
    exact restarted.trans (by rw [counters, name]; rfl)

end Bench

/-! ### What is done to an instance -/

/-- Something that is done to an instance, with the bench before it. -/
structure Done where
  before : Bench
  op : Op

namespace Done

variable (d : Done)

def name : String := d.before.cpu.name

/-- Whether a step is begun. One that is tried again has begun before. -/
def begins : Bool := d.op.executes d.before && !d.before.cpu.awaiting

/-- How the step ends, or that it waits. -/
def outcome? : Option Outcome := if d.op.executes d.before then some d.before.machine.step.1 else none

/-- The operation of the instruction that is carried out. -/
def executed? : Option Operation := d.outcome?.bind fun o => o.executed?.map fun i => i.instruction.operation

/-- Whether a step returns an instruction or halts. -/
def returns : Bool :=
  d.outcome?.any fun o =>
    match o.result with
    | .ok _ => true
    | .error f => f = .halted

/-- The kind of the fault with which a turn of free running fails. -/
def fault? : Option String :=
  match d.op with
  | .tick => d.outcome?.bind fun o => o.fault?.map Fault.kind
  | _ => none

/-- The peripheral whose hook is run. -/
def called? : Option Peripheral := if d.begins then d.before.called? else none

/-- Whether an image is loaded, for itself or by a reset. -/
def loads : Bool :=
  match d.op with
  | .serve (.loadImage key) => succeeds (Bench.loadImage key d.before)
  | .serve .reset => succeeds (Bench.loadImage d.before.cpu.image d.before)
  | _ => false

def resets : Bool :=
  match d.op with
  | .serve .reset => succeeds (Bench.reset d.before)
  | _ => false

/-- What is added to the counters. -/
def count (m : Metrics) : Metrics :=
  { m with
    steps := m.steps + d.begins.toNat
    instructions := m.instructions.note d.executed?
    faults := m.faults.note (d.fault?.map (FaultLabel.mk d.name))
    calls := m.calls.note d.called?
    imageLoads := m.imageLoads.note (if d.loads then some d.name else none)
    resets := m.resets.note (if d.resets then some d.name else none) }

/-- A step that halts has carried out the instruction that halts; no access fails in this way. -/
theorem isSome_executed? : d.executed?.isSome = d.returns := by
  unfold executed? returns
  cases outcome : d.outcome? with
  | none => rfl
  | some o =>
    cases o with
    | ran i | halted i => rfl
    | failed f =>
      have failed : d.before.machine.step.1 = .failed f := by
        unfold outcome? at outcome
        split at outcome
        · exact Option.some.inj outcome
        · cases outcome
      have possible := Machine.step_failed_possible (Peripheral.install_handles d.before.cpu.board.installed) failed
      have goesOn : f ≠ .halted := by
        rintro rfl
        exact possible.elim nofun id
      exact (decide_eq_false goesOn).symm

/-- While a step waits nothing is done but that it is tried again or that input is posted. -/
def patient : Bool :=
  !d.before.cpu.awaiting || d.op.executes d.before ||
    match d.op with
    | .post _ => true
    | _ => false

end Done

namespace Op

variable {b : Bench} {op : Op}

/-- A step counts that it is begun, the instruction that it carries out and the hook that it runs. -/
theorem counters_advance (poised : b.Poised) (op : Op) (executes : op.executes b) :
    b.advance.2.counters =
      { b.counters with
        steps := b.counters.steps + (Done.mk b op).begins.toNat
        instructions := b.counters.instructions.note (Done.mk b op).executed?
        calls := b.counters.calls.note (Done.mk b op).called? } := by
  have calls : b.machine.step.2.memory.backing.world.calls = b.counters.calls.note (Done.mk b op).called? := by
    unfold Done.called? Done.begins
    rw [b.calls_step, executes, Bool.true_and]
    cases awaiting : b.cpu.awaiting with
    | false => cases b.called? <;> simp [Tally.note, Bench.counters]
    | true =>
      -- The call has been counted when it began to wait.
      have tried : b.Tried := poised.resolve_left fun off => nomatch awaiting.symm.trans off
      rw [tried.called?]
      rfl
  have begins : (Done.mk b op).begins = !b.cpu.awaiting := by
    unfold Done.begins
    rw [executes, Bool.true_and]
  have outcome : (Done.mk b op).outcome? = some b.machine.step.1 := if_pos executes
  rw [b.counters_advance, b.counters_begun, calls, begins]
  unfold Metrics.recordOutcome Done.executed?
  rw [outcome]
  cases b.machine.step.1 <;> rfl

theorem count_of_plain (plain : ¬ op.executes b) (m : Metrics) :
    (Done.mk b op).count m =
      { m with
        imageLoads := m.imageLoads.note (if (Done.mk b op).loads then some b.cpu.name else none)
        resets := m.resets.note (if (Done.mk b op).resets then some b.cpu.name else none) } := by
  have outcome : (Done.mk b op).outcome? = none := if_neg plain
  have begins : (Done.mk b op).begins = false := by
    unfold Done.begins
    rw [Bool.eq_false_iff.mpr plain, Bool.false_and]
  have fault : (Done.mk b op).fault? = none := by
    unfold Done.fault?
    rw [outcome]
    split <;> rfl
  unfold Done.count Done.executed? Done.called?
  rw [outcome, begins, fault]
  rfl

theorem counters_serve_other {r : Request} (plain : ¬ r.executes) (kept : ∀ key, r ≠ .loadImage key)
    (continued : r ≠ .reset) : (endState (r.serve b)).counters = b.counters := by
  refine Request.serve_keeps (I := fun c : Bench => c.counters = b.counters)
    (fun c s _ same => (c.counters_setState s).trans same)
    (fun c values same => (c.counters_setRegisters values).trans same) (fun _ _ _ same => same)
    (fun key same => absurd same (kept key)) (fun same => absurd same continued) ?_ b rfl
  rintro (rfl | rfl) <;> exact absurd rfl plain

theorem counters_serve_plain {r : Request} (plain : ¬ r.executes) :
    (endState (r.serve b)).counters = (Done.mk b (serve r)).count b.counters := by
  have plain' : ¬ (serve r).executes b := plain
  rw [count_of_plain plain']
  cases r with
  | loadImage key =>
    have loaded := Bench.counters_loadImage key b
    have same : endState ((Request.loadImage key).serve b) = endState (Bench.loadImage key b) :=
      endState_bind_pure _ _ b
    rw [same, loaded]
    change _ = { b.counters with
      imageLoads := b.counters.imageLoads.note (if succeeds (Bench.loadImage key b) then some b.cpu.name else none) }
    split <;> rfl
  | reset =>
    obtain ⟨alike, counted⟩ := b.counters_reset
    have same : endState (Request.reset.serve b) = endState (Bench.reset b) := endState_bind_pure _ _ b
    rw [same, counted]
    change _ = { b.counters with
      imageLoads := b.counters.imageLoads.note
        (if succeeds (Bench.loadImage b.cpu.image b) then some b.cpu.name else none)
      resets := b.counters.resets.note (if succeeds (Bench.reset b) then some b.cpu.name else none) }
    rw [← alike]
    split <;> rfl
  | resume | step => exact absurd rfl plain
  | _ =>
    exact counters_serve_other plain nofun nofun

/-- What is done to an instance adds to the counters what it has done. -/
theorem counters_apply (poised : b.Poised) (op : Op) : (op.apply b).counters = (Done.mk b op).count b.counters := by
  by_cases executes : op.executes b
  · have advanced := counters_advance poised op executes
    have outcome : (Done.mk b op).outcome? = some b.machine.step.1 := if_pos executes
    cases op with
    | tick =>
      have fault : (Done.mk b tick).fault? = b.machine.step.1.fault?.map Fault.kind := by
        unfold Done.fault?
        rw [outcome]
        rfl
      refine (Bench.counters_tick (bne_iff_ne.mp executes)).trans ?_
      unfold Done.count
      rw [advanced, fault]
      cases b.machine.step.1.fault? <;> rfl
    | step =>
      change (endState b.step).counters = _
      rw [b.endState_step, advanced]
      rfl
    | serve r =>
      refine (Bench.counters_serve executes).trans (advanced.trans ?_)
      cases r with
      | resume | step => rfl
      | _ => cases executes
    | post content => cases executes
  · cases op with
    | tick =>
      have stop : b.breakpoint? = some .stop := by simpa [Op.executes] using executes
      change b.tick.counters = _
      rw [Bench.tick_stop stop, Bench.counters_setState, count_of_plain executes]
      rfl
    | step => exact absurd rfl executes
    | serve r => exact counters_serve_plain executes
    | post content =>
      rw [count_of_plain executes]
      rfl

end Op

end Msp430
