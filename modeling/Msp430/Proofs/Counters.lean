import Mathlib.Data.List.Count
import Msp430.Proofs.AssemblyText
import Msp430.Proofs.Counting
import Msp430.Proofs.MailboxOrder

/-!
# What the counters tell

After any run the counters can be read as a record of it: they tell the steps, the instructions, the faults, the runs of
hooks, the images and the resets, each of them once. In between a step that waits is gone on with before anything else,
as it is in all that an actor does.
-/

namespace Msp430

open Access

/-! ### Trying again -/

namespace Op

variable {b : Bench} {op : Op}

theorem awaiting_apply_of_executes (poised : b.Poised) (executes : op.executes b) :
    (op.apply b).cpu.awaiting = decide (b.machine.step.1 = .failed .awaitingInput) := by
  by_cases waits : b.machine.step.1 = .failed .awaitingInput
  · rw [cpu_apply_waits executes waits]
    exact (decide_eq_true waits).symm
  · rw [← poised.awaiting_step, ← machine_apply executes waits]
    rfl

theorem awaiting_apply_of_plain (plain : ¬ op.executes b) : (op.apply b).cpu.awaiting = b.cpu.awaiting := by
  cases op with
  | tick =>
    have stop : b.breakpoint? = some .stop := by simpa [executes] using plain
    change b.tick.cpu.awaiting = _
    rw [Bench.tick_stop stop, Bench.cpu_setState]
  | step => exact absurd rfl plain
  | serve r => exact congrArg (fun standing => standing.2.1) (Request.serve_keeps_standing plain b rfl)
  | post content => rfl

theorem poised_apply (poised : b.Poised) (patient : (Done.mk b op).patient) : (op.apply b).Poised := by
  by_cases executes : op.executes b
  · by_cases waits : b.machine.step.1 = .failed .awaitingInput
    · exact .inr ((Bench.tried_of_waits waits).of_cpu (cpu_apply_waits executes waits))
    · exact .inl ((awaiting_apply_of_executes poised executes).trans (decide_eq_false waits))
  · have kept := awaiting_apply_of_plain executes
    rcases poised with ready | tried
    · exact .inl (kept.trans ready)
    · cases awaiting : b.cpu.awaiting with
      | false => exact .inl (kept.trans awaiting)
      | true =>
        change (!b.cpu.awaiting || op.executes b || _) = true at patient
        rw [awaiting, Bool.eq_false_iff.mpr executes] at patient
        cases op with
        | post content =>
          have same : ((post content).apply b).cpu = { b.cpu with awaiting := b.cpu.awaiting } := rfl
          exact .inr (Bench.Tried.of_cpu tried same)
        | _ => cases patient

end Op

namespace Done

variable {d : Done}

/-- Each step that is begun ends once: it fails, carries out an instruction, or is still waiting. -/
theorem balance (poised : d.before.Poised) :
    d.fault?.isSome.toNat + d.executed?.isSome.toNat + (d.op.apply d.before).cpu.awaiting.toNat ≤
      d.begins.toNat + d.before.cpu.awaiting.toNat := by
  by_cases executes : d.op.executes d.before
  · have begun : d.begins.toNat + d.before.cpu.awaiting.toNat = 1 := by
      unfold begins
      rw [executes]
      cases d.before.cpu.awaiting <;> rfl
    have outcome : d.outcome? = some d.before.machine.step.1 := if_pos executes
    have executed : d.executed?.isSome = d.before.machine.step.1.executed?.isSome := by
      unfold executed?
      rw [outcome]
      cases d.before.machine.step.1 <;> rfl
    have fault : d.fault?.isSome.toNat ≤ d.before.machine.step.1.fault?.isSome.toNat := by
      unfold fault?
      rw [outcome]
      cases d.op with
      | tick =>
        have same : (d.before.machine.step.1.fault?.map Fault.kind).isSome = d.before.machine.step.1.fault?.isSome :=
          Option.isSome_map
        exact Nat.le_of_eq (congrArg Bool.toNat same)
      | _ => exact Nat.zero_le _
    rw [begun, executed, Op.awaiting_apply_of_executes poised executes]
    have ends := d.before.machine.step.1.balance
    omega
  · have begun : d.begins = false := by
      unfold begins
      rw [Bool.eq_false_iff.mpr executes, Bool.false_and]
    have outcome : d.outcome? = none := if_neg executes
    have fault : d.fault? = none := by
      unfold fault?
      rw [outcome]
      cases d.op <;> rfl
    have executed : d.executed? = none := by
      unfold executed?
      rw [outcome]
      rfl
    rw [begun, fault, executed, Op.awaiting_apply_of_plain executes]
    exact Nat.le_refl _

end Done

/-! ### Runs of operations -/

namespace Bench

variable {b : Bench} {es : List Event}

def Event.KeepsMetrics : Event → Prop
  | own _ => True
  | meanwhile change => ∀ shared, (change shared).metrics = shared.metrics

def done? (b : Bench) : Event → Option Done
  | .own op => some ⟨b, op⟩
  | .meanwhile _ => none

/-- What is done to the instance in a run, in order. -/
def done (b : Bench) : List Event → List Done
  | [] => []
  | e :: es => (b.done? e).toList ++ (b.happen e).done es

theorem done_concat (b : Bench) (es : List Event) (e : Event) :
    b.done (es ++ [e]) = b.done es ++ ((b.through es).done? e).toList := by
  induction es generalizing b with
  | nil => exact List.append_nil _
  | cons first rest ih =>
    change _ ++ (b.happen first).done (rest ++ [e]) = _
    rw [ih, ← List.append_assoc]
    rfl

end Bench

namespace Actor

variable {a : Actor}

/-- A turn does one thing to the instance, or nothing, and goes on with a step that waits. -/
theorem Coherent.turn_patient (coherent : a.Coherent) :
    a.turn.1.bench = a.bench ∨ ∃ op, a.turn.1.bench = op.apply a.bench ∧ (Done.mk a.bench op).patient := by
  have turns := a.turn_turns
  have calm {op : Op} (calm : op.executes a.bench ∨ a.bench.cpu.awaiting = false) :
      (Done.mk a.bench op).patient := by
    change (!a.bench.cpu.awaiting || op.executes a.bench || _) = true
    rcases calm with executes | ready
    · rw [executes, Bool.or_true, Bool.true_or]
    · rw [ready]
      rfl
  generalize a.turn = after, a.ending? = done at turns ⊢
  cases turns with
  | @finishes t _ _ _ next _ ends =>
    exact .inr ⟨.serve t.request, ends.endState.symm, calm (coherent.calm next)⟩
  | @waits t _ _ next _ waits =>
    exact .inr ⟨.serve t.request, (congrArg endState waits).symm, calm (coherent.calm next)⟩
  | ticks next idle goes =>
    refine .inr ⟨.tick, rfl, calm ?_⟩
    cases awaiting : a.bench.cpu.awaiting with
    | false => exact .inr rfl
    | true => exact .inl (bne_iff_ne.mpr (coherent.free idle awaiting).2.1)
  | rests => exact .inl rfl

def SparesMetrics (a : Actor) : Event → Prop
  | .meanwhile shared => shared.metrics = a.bench.shared.metrics
  | _ => True

/-- Whatever others do to what is shared, they leave the metrics as they find them. -/
def KeepsMetrics (a : Actor) : List Event → Prop
  | [] => True
  | e :: es => a.SparesMetrics e ∧ (a.step e).KeepsMetrics es

/-- A step of an actor is one event of its instance, or none. -/
theorem Coherent.step_patient (coherent : a.Coherent) {e : Event} (spares : a.SparesMetrics e) :
    (a.step e).bench = a.bench ∨
      ∃ f : Bench.Event, (a.step e).bench = a.bench.happen f ∧ f.KeepsMetrics ∧
        ∀ d ∈ (a.bench.done? f).toList, d.patient := by
  cases e with
  | turn =>
    rcases coherent.turn_patient with same | ⟨op, same, next⟩
    · exact .inl same
    · exact .inr ⟨.own op, same, trivial, List.forall_mem_singleton.mpr next⟩
  | post t => exact .inl (a.bench_post t)
  | meanwhile shared =>
    -- The event must leave any metrics alone, not only those found here.
    refine .inr ⟨.meanwhile fun found => { shared with metrics := found.metrics }, ?_, fun _ => rfl,
      List.forall_mem_nil _⟩
    have same : shared.metrics = a.bench.shared.metrics := spares
    change { a.bench with shared } = { a.bench with shared := { shared with metrics := a.bench.shared.metrics } }
    rw [← same]

/-- Whatever is asked of an instance and whenever, what is done to it is done one after the other, and a step that waits
is gone on with before anything else. -/
theorem Coherent.after_patient (coherent : a.Coherent) {es : List Event} (kept : a.KeepsMetrics es) :
    ∃ history, (a.after es).bench = a.bench.through history ∧ (∀ e ∈ history, e.KeepsMetrics) ∧
      ∀ d ∈ a.bench.done history, d.patient := by
  induction es generalizing a with
  | nil => exact ⟨[], rfl, List.forall_mem_nil _, List.forall_mem_nil _⟩
  | cons e es ih =>
    obtain ⟨spares, later⟩ := kept
    obtain ⟨history, reached, kept, patient⟩ := ih (coherent.step e) later
    rcases coherent.step_patient spares with same | ⟨f, same, keeps, first⟩
    · rw [same] at reached patient
      exact ⟨history, reached, kept, patient⟩
    · rw [same] at reached patient
      exact ⟨f :: history, reached, List.forall_mem_cons.mpr ⟨keeps, kept⟩,
        List.forall_mem_append.mpr ⟨first, patient⟩⟩

end Actor

/-! ### Telling -/

namespace Tally

variable {κ : Type} [DecidableEq κ]

/-- The tally counts the events of a list and no others. -/
structure Tells (t : Tally κ) (events : List κ) : Prop where
  total : t.total = events.length
  count : ∀ k, t.count k = events.count k

theorem tells_empty : Tells ({} : Tally κ) [] := ⟨rfl, fun _ => rfl⟩

theorem Tells.note {t : Tally κ} {events : List κ} (tells : t.Tells events) (k? : Option κ) :
    (t.note k?).Tells (events ++ k?.toList) := by
  constructor
  · rw [total_note, tells.total]
    cases k? <;> simp
  · intro k
    rw [List.count_append, ← tells.count]
    cases k? with
    | none => rfl
    | some k' =>
      rw [Tally.note, count_bump]
      by_cases same : k' = k <;> simp [same]

end Tally

/-- The name under which an instruction is counted tells its operation. -/
theorem Operation.mnemonic_injective : Function.Injective mnemonic := by
  have inverse (op : Operation) : ofMnemonic? op.mnemonic.toList = some op := by
    rcases op with op | condition | op
    · cases op <;> rfl
    · cases condition <;> rfl
    · cases op <;> rfl
  intro op op' same
  exact Option.some.inj ((inverse op).symm.trans (same ▸ inverse op'))

/-- All counters are at their start. -/
structure Metrics.Zeroed (m : Metrics) : Prop where
  steps : m.steps = 0
  instructions : m.instructions = {}
  faults : m.faults = {}
  calls : m.calls = {}
  imageLoads : m.imageLoads = {}
  resets : m.resets = {}

/-- The counters tell what has been done to the one instance there is. -/
structure Metrics.Tells (m : Metrics) (owner : String) (ds : List Done) : Prop where
  steps : m.steps = ds.countP Done.begins
  instructions : m.instructions.Tells (ds.filterMap Done.executed?)
  faults : m.faults.Tells ((ds.filterMap Done.fault?).map (FaultLabel.mk owner))
  calls : m.calls.Tells (ds.filterMap Done.called?)
  imageLoads : m.imageLoads.Tells (List.replicate (ds.countP Done.loads) owner)
  resets : m.resets.Tells (List.replicate (ds.countP Done.resets) owner)

namespace Metrics

variable {m : Metrics} {owner : String} {ds : List Done}

theorem Zeroed.tells (zeroed : m.Zeroed) (owner : String) : m.Tells owner [] where
  steps := zeroed.steps
  instructions := zeroed.instructions ▸ Tally.tells_empty
  faults := zeroed.faults ▸ Tally.tells_empty
  calls := zeroed.calls ▸ Tally.tells_empty
  imageLoads := zeroed.imageLoads ▸ Tally.tells_empty
  resets := zeroed.resets ▸ Tally.tells_empty

/-- There are as many instructions as steps that return or halt. -/
theorem Tells.returns (tells : m.Tells owner ds) : m.instructions.total = ds.countP Done.returns := by
  rw [tells.instructions.total, List.length_filterMap_eq_countP]
  exact List.countP_congr fun d _ => by rw [d.isSome_executed?]

/-- Instructions are told apart by their mnemonics alone. -/
theorem Tells.mnemonics (tells : m.Tells owner ds) (op : Operation) :
    m.instructions.count op = ((ds.filterMap Done.executed?).map Operation.mnemonic).count op.mnemonic := by
  rw [tells.instructions.count, List.count_map_of_injective _ _ Operation.mnemonic_injective]

theorem Tells.count (tells : m.Tells owner ds) {d : Done} (name : d.name = owner) :
    (d.count m).Tells owner (ds ++ [d]) := by
  have one {α : Type} (f : Done → Option α) : (ds ++ [d]).filterMap f = ds.filterMap f ++ (f d).toList := by
    rw [List.filterMap_append]
    cases h : f d <;> simp [h]
  have more (p : Done → Bool) : List.replicate ((ds ++ [d]).countP p) owner =
      List.replicate (ds.countP p) owner ++ (if p d then some d.name else none).toList := by
    rw [List.countP_append, List.replicate_add, name]
    cases h : p d <;> simp [h]
  constructor
  · change m.steps + d.begins.toNat = _
    rw [tells.steps, List.countP_append]
    cases h : d.begins <;> simp [h]
  · exact one _ ▸ tells.instructions.note _
  · have labelled : (d.count m).faults = m.faults.note (d.fault?.map (FaultLabel.mk owner)) := by
      rw [← name]
      rfl
    rw [one, List.map_append, ← Option.toList_map, labelled]
    exact tells.faults.note _
  · exact one _ ▸ tells.calls.note _
  · exact more _ ▸ tells.imageLoads.note _
  · exact more _ ▸ tells.resets.note _

end Metrics

namespace Bench

variable {b : Bench} {es : List Event}

/-- What holds of an instance that has come to where it is by what has been done, counted from zero. -/
structure Tallied (b : Bench) (ds : List Done) : Prop where
  poised : b.Poised
  tells : b.counters.Tells b.cpu.name ds
  balance : b.counters.faults.total + b.counters.instructions.total + b.cpu.awaiting.toNat ≤ b.counters.steps

theorem Tallied.own {ds : List Done} (tallied : b.Tallied ds) {op : Op} (patient : (Done.mk b op).patient) :
    (op.apply b).Tallied (ds ++ [⟨b, op⟩]) := by
  have counted := Op.counters_apply tallied.poised op
  have name : (op.apply b).cpu.name = b.cpu.name := congrArg Board.name (op.apply_untouched b).1
  refine ⟨Op.poised_apply tallied.poised patient, ?_, ?_⟩
  · rw [counted, name]
    exact tallied.tells.count rfl
  · have before := tallied.balance
    have added := Done.balance (d := ⟨b, op⟩) tallied.poised
    have faults : ((Done.mk b op).count b.counters).faults.total =
        b.counters.faults.total + (Done.mk b op).fault?.isSome.toNat :=
      (Tally.total_note _ _).trans (by rw [Option.isSome_map])
    have instructions : ((Done.mk b op).count b.counters).instructions.total =
        b.counters.instructions.total + (Done.mk b op).executed?.isSome.toNat := Tally.total_note _ _
    have steps : ((Done.mk b op).count b.counters).steps = b.counters.steps + (Done.mk b op).begins.toNat := rfl
    rw [counted, faults, instructions, steps]
    simp only at added
    omega

theorem tells_through (zeroed : b.shared.metrics.Zeroed) (ready : b.cpu.awaiting = false)
    (kept : ∀ e ∈ es, e.KeepsMetrics) (patient : ∀ d ∈ b.done es, d.patient) :
    (b.through es).shared.metrics.Tells b.cpu.name (b.done es) ∧
      (b.through es).shared.metrics.faults.total + (b.through es).shared.metrics.instructions.total ≤
        (b.through es).shared.metrics.steps := by
  have tallied : (b.through es).Tallied (b.done es) := by
    induction es using List.reverseRecOn with
    | nil =>
      have start : b.counters.Zeroed := { zeroed with }
      refine ⟨.inl ready, start.tells _, ?_⟩
      change b.counters.faults.total + b.counters.instructions.total + b.cpu.awaiting.toNat ≤ b.counters.steps
      rw [start.faults, start.instructions, ready]
      exact Nat.zero_le _
    | append_singleton es e ih =>
      rw [done_concat] at patient ⊢
      obtain ⟨patient, last⟩ := List.forall_mem_append.mp patient
      have before := ih (fun e' member => kept e' (List.mem_append_left _ member)) patient
      rw [through_concat]
      cases e with
      | own op => exact before.own (last _ List.mem_cons_self)
      | meanwhile change =>
        have same : ((b.through es).happen (.meanwhile change)).counters = (b.through es).counters :=
          congrArg (fun m : Metrics => { m with gauges := [] })
            (kept _ (List.mem_append_right _ List.mem_cons_self) (b.through es).shared)
        refine ⟨before.poised, ?_, ?_⟩
        · rw [same]
          exact (List.append_nil _).symm ▸ before.tells
        · rw [same]
          exact before.balance
  have name : (b.through es).cpu.name = b.cpu.name := congrArg Board.name (b.board_through es)
  obtain ⟨-, tells, balance⟩ := tallied
  rw [name] at tells
  exact ⟨{ tells with }, Nat.le_of_add_right_le balance⟩

/-- After a run that starts with its counters at zero, the counters tell what has been done in the run. Each step that
was begun has failed at most once or carried out at most one instruction, so that there are no more faults than steps
that carried out none. -/
theorem counters_tell (zeroed : b.shared.metrics.Zeroed) (ready : b.cpu.awaiting = false)
    (kept : ∀ e ∈ es, e.KeepsMetrics) (patient : ∀ d ∈ b.done es, d.patient) :
    (b.through es).shared.metrics.Tells b.cpu.name (b.done es) ∧
      (b.through es).shared.metrics.instructions.total = (b.done es).countP Done.returns ∧
      (∀ op, (b.through es).shared.metrics.instructions.count op =
        (((b.done es).filterMap Done.executed?).map Operation.mnemonic).count op.mnemonic) ∧
      (b.through es).shared.metrics.faults.total + (b.through es).shared.metrics.instructions.total ≤
        (b.through es).shared.metrics.steps := by
  obtain ⟨tells, balance⟩ := tells_through zeroed ready kept patient
  exact ⟨tells, tells.returns, tells.mnemonics, balance⟩

/-- A program that stores to the lock, asks for input, and has the debug log print more than there is. Its image jumps
to itself. -/
def porter : Bench where
  cpu :=
    { Instance.ofBoard (usualBoard "a") with
      memory := (Memory.empty.put 0x0260 0x20).storeBytes 0x4400
        [0x92, 0x43, 0x20, 0x02, 0x92, 0x43, 0x82, 0x02, 0xB2, 0x43, 0x62, 0x02]
      state := .running }
  shared := { store := (∅ : KeyValue.Store).insert "boot" (.bytes (Utf8.ofString ":02440000FF3F7C")) }

/-- The input is tried for twice, and of the last two loads only that of the reset succeeds. -/
def shift : List Event :=
  [.own .tick, .own .tick, .meanwhile fun shared => { shared with clock := 7 }, .own (.post [7]), .own .tick,
    .own .tick, .own (.serve .reset), .own (.serve .step), .own (.serve (.loadImage "none"))]

theorem porter_counted :
    porter.shared.metrics.Zeroed ∧ porter.cpu.awaiting = false ∧ (∀ e ∈ shift, e.KeepsMetrics) ∧
      (∀ d ∈ porter.done shift, d.patient) ∧
      ((porter.done shift).countP Done.begins, (porter.done shift).filterMap Done.executed?,
          (porter.done shift).filterMap Done.fault?) =
        (4, [.double .mov, .double .mov, .jump .always], ["address_too_high"]) ∧
      ((porter.done shift).filterMap Done.called?, (porter.done shift).countP Done.loads,
          (porter.done shift).countP Done.resets) = ([.device .lock, .input, .debugLog], 1, 1) ∧
      (porter.through shift).shared.metrics.Tells "a" (porter.done shift) := by
  have zeroed : porter.shared.metrics.Zeroed := ⟨rfl, rfl, rfl, rfl, rfl, rfl⟩
  have kept : ∀ e ∈ shift, e.KeepsMetrics := by
    rintro e (_ | ⟨_, _ | ⟨_, _ | ⟨_, rest⟩⟩⟩)
    · trivial
    · trivial
    · exact fun _ => rfl
    · rcases rest with _ | ⟨_, _ | ⟨_, _ | ⟨_, _ | ⟨_, _ | ⟨_, _ | ⟨_, ⟨⟩⟩⟩⟩⟩⟩⟩ <;> trivial
  have patient : ∀ d ∈ porter.done shift, d.patient := by decide +kernel
  have told := counters_tell zeroed rfl kept patient
  exact ⟨zeroed, rfl, kept, patient, by decide +kernel, by decide +kernel, told.1⟩

end Bench

/-- The counters tell as much of an actor, whose work is patient of its own accord: whatever is posted to it and whatever
others do, its instance has come to where it is by a run that the counters tell. -/
theorem Actor.tells_after {b : Bench} {queue : List Ticket} (zeroed : b.shared.metrics.Zeroed)
    (ready : b.cpu.awaiting = false) {es : List Event} (kept : KeepsMetrics { bench := b, queue } es) :
    ∃ history, (after { bench := b, queue } es).bench = b.through history ∧
      (b.through history).shared.metrics.Tells b.cpu.name (b.done history) ∧
      (b.through history).shared.metrics.faults.total + (b.through history).shared.metrics.instructions.total ≤
        (b.through history).shared.metrics.steps := by
  have coherent : Coherent { bench := b, queue } := .of_ready rfl ready
  obtain ⟨history, reached, kept, patient⟩ := coherent.after_patient kept
  obtain ⟨tells, balance⟩ := Bench.tells_through zeroed ready kept patient
  exact ⟨history, reached, tells, balance⟩

end Msp430
