import Msp430.Metrics.Exposition
import Msp430.Proofs.Counters
import Msp430.Proofs.RunState

/-!
# What the gauges show

The gauges of an instance are set where its run state changes, and nowhere else. So they show the registers as the last
change has left them, and an instance that is found stopped and left stopped may have other registers by then.
-/

namespace Msp430

open Access

/-! ### Setting gauges -/

namespace Metrics

theorem lookup_setGaugeIn (owner name : String) (rs : Registers) (gauges : List (String × Registers)) :
    (setGaugeIn name rs gauges).lookup owner = if owner = name then some rs else gauges.lookup owner := by
  have first (key : String) (value : Registers) (rest : List (String × Registers)) :
      ((key, value) :: rest).lookup owner = if owner = key then some value else rest.lookup owner := by
    by_cases own : owner = key
    · subst own
      rw [List.lookup_cons_self, if_pos rfl]
    · rw [List.lookup_cons, beq_eq_false_iff_ne.mpr own, if_neg own]
  induction gauges with
  | nil => exact first name rs []
  | cons gauge rest ih =>
    obtain ⟨key, old⟩ := gauge
    unfold setGaugeIn
    by_cases found : key = name
    · subst found
      rw [if_pos rfl, first, first]
      by_cases own : owner = key <;> simp [own]
    · rw [if_neg found, first, first, ih]
      by_cases own : owner = key
      · subst own
        rw [if_pos rfl, if_neg found, if_pos rfl]
      · rw [if_neg own, if_neg own]

theorem gauge?_publish (m : Metrics) (owner name : String) (rs : Registers) :
    (m.publish name rs).gauge? owner = if owner = name then some rs else m.gauge? owner :=
  lookup_setGaugeIn owner name rs m.gauges

end Metrics

namespace Bench

variable {b b' b₁ b₂ : Bench}

/-- The registers that the gauges of the instance show. -/
def shown? (b : Bench) : Option Registers := b.shared.metrics.gauge? b.cpu.name

/-- The gauges show the registers and the flags as they are. -/
structure Current (b : Bench) : Prop where
  registers : ∀ r, b.shown?.map (·.get r) = some (b.cpu.registers.get r)
  flags : ∀ f, b.shown?.map (·.flag f) = some (b.cpu.registers.flag f)

theorem current_iff : b.Current ↔ b.shown? = some b.cpu.registers := by
  constructor
  · rintro ⟨registers, -⟩
    cases shown : b.shown? with
    | none => exact nomatch (congrArg (Option.map _) shown).symm.trans (registers .pc)
    | some rs =>
      rw [shown] at registers
      exact congrArg some (Registers.ext fun r => Option.some.inj (registers r))
  · intro shown
    exact ⟨fun r => by rw [shown]; rfl, fun f => by rw [shown]; rfl⟩

/-- Gauges that are current are given out as they are. -/
theorem Current.lines (current : b.Current) {line : String}
    (member : line ∈ Metrics.registerLines b.cpu.name b.cpu.registers ++
      Metrics.flagLines b.cpu.name b.cpu.registers) : line ∈ b.shared.metrics.lines := by
  have entry : (b.cpu.name, b.cpu.registers) ∈ b.shared.metrics.gauges := by
    obtain ⟨before, after, split, -⟩ := List.lookup_eq_some_iff.mp (current_iff.mp current)
    rw [split]
    exact List.mem_append_right _ List.mem_cons_self
  have given : line ∈ b.shared.metrics.unsorted := by
    simp only [Metrics.unsorted, List.mem_append, List.mem_flatMap]
    iterate 6 left
    exact .inr ⟨_, entry, List.mem_append.mp member⟩
  exact List.mem_mergeSort.mpr given

/-! ### Changes of the run state -/

/-- The gauges follow a change of the run state, and are left alone otherwise. -/
def Follows (b b' : Bench) : Prop :=
  b'.shown? = if b'.cpu.state = b.cpu.state then b.shown? else some b'.cpu.registers

/-- Neither the run state nor the gauges change. -/
structure Unmoved (b b' : Bench) : Prop where
  state : b'.cpu.state = b.cpu.state
  shown : b'.shown? = b.shown?

theorem Unmoved.follows (unmoved : b.Unmoved b') : b.Follows b' := by
  unfold Follows
  rw [if_pos unmoved.state, unmoved.shown]

theorem Unmoved.then (unmoved : b.Unmoved b₁) (follows : b₁.Follows b₂) : b.Follows b₂ := by
  unfold Follows at follows ⊢
  rw [follows, unmoved.state, unmoved.shown]

theorem follows_setState (b : Bench) (s : RunState) : b.Follows (b.setState s) := by
  unfold Follows setState
  by_cases same : b.cpu.state = s
  · rw [if_pos same, if_pos rfl]
  · rw [if_neg same]
    refine Eq.trans ?_ (if_neg (Ne.symm same)).symm
    exact (Metrics.gauge?_publish _ _ _ _).trans (if_pos rfl)

theorem unmoved_setRegisters (b : Bench) (values : Vector (Option UInt16) 16) :
    b.Unmoved (b.setRegisters values) := by
  have unmoved (rs : Registers) : b.Unmoved { b with cpu := { b.cpu with registers := rs } } := ⟨rfl, rfl⟩
  exact unmoved _

theorem unmoved_advance (b : Bench) : b.Unmoved b.advance.2 := by
  have begun : b.begun.shared.metrics.gauges = b.shared.metrics.gauges := by
    unfold begun
    cases b.cpu.awaiting <;> rfl
  have gauges : b.advance.2.shared.metrics.gauges = b.shared.metrics.gauges := by
    by_cases waits : b.machine.step.1 = .failed .awaitingInput
    · rw [advance_waits waits]
      exact begun
    · rw [advance_goes waits, ← begun]
      unfold mapMetrics Metrics.recordOutcome
      cases b.machine.step.1.executed? <;> rfl
  refine ⟨b.cpu_advance.1, ?_⟩
  have name : b.advance.2.cpu.name = b.cpu.name := congrArg Board.name b.board_advance
  unfold shown? Metrics.gauge?
  rw [gauges, name]

theorem unmoved_loadImage (key : String) (b : Bench) : b.Unmoved (endState (loadImage key b)) :=
  loadImage_keeps (I := b.Unmoved) (fun _ _ same => ⟨same.state, same.shown⟩) (fun _ _ same => ⟨same.state, same.shown⟩)
    key b ⟨rfl, rfl⟩

/-! ### What is done to an instance -/

theorem follows_settle (b : Bench) (o : Outcome) : b.Follows (b.settle o) := by
  have still : b.Unmoved b := ⟨rfl, rfl⟩
  unfold settle
  split
  · exact still.follows
  · exact b.follows_setState .stopped
  · exact b.follows_setState .stopped
  · exact still.follows
  next f _ _ =>
    let faulted : Bench := { b with cpu := { b.cpu with lastFault := some f } }
    have same : b.Unmoved (faulted.mapMetrics (·.recordFault b.cpu.name f.kind)) := ⟨rfl, rfl⟩
    exact same.then (follows_setState _ .fault)

theorem settle_of_running (o : Outcome) (running : (b.settle o).cpu.state = .running) : b.settle o = b := by
  unfold settle at running ⊢
  split at running
  · rfl
  · cases (state_setState b .stopped).symm.trans running
  · cases (state_setState b .stopped).symm.trans running
  · rfl
  · cases (state_setState _ .fault).symm.trans running

theorem follows_tick (b : Bench) : b.Follows b.tick := by
  by_cases stop : b.breakpoint? = some .stop
  · rw [tick_stop stop]
    exact b.follows_setState .stopped
  · rw [tick_eq stop]
    split
    next stops =>
      -- The turn runs on up to the breakpoint, so that only the stop sets the gauges.
      have same : b.ended = b.advance.2 := settle_of_running b.advance.1 stops.2.1
      rw [same]
      exact b.unmoved_advance.then (follows_setState _ .stopped)
    · exact b.unmoved_advance.then (follows_settle _ _)

theorem follows_resume (b : Bench) : b.Follows (endState b.resume) := by
  have stepped := b.endState_step
  have same := b.unmoved_advance
  change b.Follows (endState (EStateM.bind step _ b))
  unfold EStateM.bind
  cases outcome : b.step with
  | ok u b' =>
    rw [outcome] at stepped
    cases stepped
    exact same.then (follows_setState _ _)
  | error f b' =>
    rw [outcome] at stepped
    cases stepped
    exact same.follows

/-- A single step changes the run state twice, so that the gauges show its registers even if it fails. -/
theorem shown?_singleStep (settled : b.cpu.state ≠ .stepping) :
    (endState b.singleStep).shown? = some (endState b.singleStep).cpu.registers := by
  have stepping : (b.setState .stepping).advance.2.cpu.state = .stepping :=
    (b.setState .stepping).unmoved_advance.state.trans (state_setState b .stepping)
  have left (s : RunState) (other : s ≠ .stepping) :
      ((b.setState .stepping).advance.2.setState s).shown? =
        some ((b.setState .stepping).advance.2.setState s).cpu.registers := by
    refine (follows_setState _ s).trans (if_neg ?_)
    rw [state_setState, stepping]
    exact other
  have stepped := (b.setState .stepping).endState_step
  unfold singleStep
  cases outcome : (b.setState .stepping).step with
  | ok u b' =>
    rw [outcome] at stepped
    cases stepped
    exact left .stopped nofun
  | error f b' =>
    rw [outcome] at stepped
    cases stepped
    exact left b.cpu.state settled

theorem follows_reset (b : Bench) : b.Follows (endState (reset b)) := by
  have loaded := b.unmoved_loadImage b.cpu.image
  rw [reset_eq]
  change b.Follows (endState (EStateM.bind (loadImage b.cpu.image) _ b))
  unfold EStateM.bind
  cases outcome : loadImage b.cpu.image b with
  | ok n c =>
    rw [outcome] at loaded
    let fresh : Bench :=
      { c with cpu := { c.cpu with registers := Instance.entryRegisters c.cpu.config, lastFault := none } }
    have same : b.Unmoved fresh := ⟨loaded.state, loaded.shown⟩
    exact same.then (fresh.follows_setState .stopped)
  | error e c =>
    rw [outcome] at loaded
    exact loaded.follows

theorem follows_serve {r : Request} (other : r ≠ .step) (b : Bench) : b.Follows (endState (r.serve b)) := by
  have still : b.Unmoved b := ⟨rfl, rfl⟩
  cases r with
  | boot => exact b.follows_setState .running
  | stop => exact b.follows_setState .stopped
  | step => exact absurd rfl other
  | resume =>
    have lifted : endState (liftFault resume b) = endState b.resume := by
      unfold liftFault
      cases b.resume <;> rfl
    have same : endState (Request.resume.serve b) = endState b.resume := (endState_bind_pure _ _ b).trans lifted
    rw [same]
    exact b.follows_resume
  | reset =>
    have same : endState (Request.reset.serve b) = endState (reset b) := endState_bind_pure _ _ b
    rw [same]
    exact b.follows_reset
  | loadImage key =>
    have same : endState ((Request.loadImage key).serve b) = endState (loadImage key b) := endState_bind_pure _ _ b
    rw [same]
    exact (b.unmoved_loadImage key).follows
  | readMemory a length =>
    have same : endState ((Request.readMemory a length).serve b) = b :=
      Request.keeps_readMemory (I := (· = b)) a length b rfl
    rw [same]
    exact still.follows
  | setRegisters values => exact (b.unmoved_setRegisters values).follows
  | setBreakpoint a kind =>
    have same : b.Unmoved (b.setBreakpoint a kind) := ⟨rfl, rfl⟩
    exact same.follows
  | clearBreakpoint a =>
    have same : b.Unmoved (b.clearBreakpoint a).2 := ⟨rfl, rfl⟩
    exact same.follows
  | status | registers | disassemble a count | breakpoints => exact still.follows

end Bench

/-- Whether the gauges are set: by a single step always, and else by what changes the run state. -/
def Done.publishes (d : Done) : Bool :=
  match d.op with
  | .serve .step => true
  | _ => (d.op.apply d.before).cpu.state != d.before.cpu.state

namespace Op

variable {b : Bench} {op : Op}

theorem shown?_of_follows (follows : b.Follows (op.apply b)) (plain : op ≠ .serve .step) :
    (op.apply b).shown? = if (Done.mk b op).publishes then some (op.apply b).cpu.registers else b.shown? := by
  have publishes : (Done.mk b op).publishes = ((op.apply b).cpu.state != b.cpu.state) := by
    unfold Done.publishes
    split
    next same => exact absurd same plain
    · rfl
  rw [follows, publishes]
  by_cases same : (op.apply b).cpu.state = b.cpu.state <;> simp [same]

/-- The gauges show the registers as they are left if they are set, and else what they have shown before. -/
theorem shown?_apply (settled : b.cpu.state ≠ .stepping) (op : Op) :
    (op.apply b).shown? = if (Done.mk b op).publishes then some (op.apply b).cpu.registers else b.shown? := by
  cases op with
  | tick => exact shown?_of_follows b.follows_tick nofun
  | step =>
    refine shown?_of_follows ?_ nofun
    change b.Follows (endState b.step)
    rw [b.endState_step]
    exact b.unmoved_advance.follows
  | post content =>
    have same : b.Unmoved ((post content).apply b) := ⟨rfl, rfl⟩
    exact shown?_of_follows same.follows nofun
  | serve r =>
    by_cases single : r = .step
    · subst single
      have same : (serve .step).apply b = endState b.singleStep := endState_bind_pure _ _ b
      have publishes : (Done.mk b (serve .step)).publishes = true := rfl
      rw [same, if_pos publishes]
      exact Bench.shown?_singleStep settled
    · exact shown?_of_follows (Bench.follows_serve single b) fun same => single (Op.serve.inj same)

theorem stateLaw_apply (law : b.cpu.StateLaw) (op : Op) : (op.apply b).cpu.StateLaw := by
  cases op with
  | tick => exact Bench.stateLaw_tick law
  | step => exact law.congr b.step_sameState.1 b.step_sameState.2
  | serve r => exact r.serve_keeps_stateLaw b law
  | post content => exact law.congr rfl rfl

/-- The turn of a running instance, or a request for a change of the run state that is carried out. -/
def Settles (b : Bench) : Op → Prop
  | tick => b.cpu.state = .running
  | serve r => r ∈ [Request.boot, .resume, .step, .stop, .reset] ∧ succeeds (r.serve b)
  | _ => False

end Op

/-! ### Runs -/

namespace Bench

variable {b b' : Bench} {es : List Event}

/-- The others leave the gauges of an instance. -/
def Event.SparesGauges (owner : String) : Event → Prop
  | own _ => True
  | meanwhile change => ∀ shared, (change shared).metrics.gauge? owner = shared.metrics.gauge? owner

/-- The registers that were shown last, if any have been. -/
def lastShown? (ds : List Done) : Option Registers :=
  (ds.filter Done.publishes).getLast?.map fun d => (d.op.apply d.before).cpu.registers

theorem lastShown?_concat (ds : List Done) (d : Done) :
    lastShown? (ds ++ [d]) = if d.publishes then some (d.op.apply d.before).cpu.registers else lastShown? ds := by
  unfold lastShown?
  rw [List.filter_append]
  cases publishes : d.publishes <;> simp [publishes]

theorem shown?_through (law : b.cpu.StateLaw) (spared : ∀ e ∈ es, e.SparesGauges b.cpu.name) :
    (b.through es).cpu.StateLaw ∧ (b.through es).shown? = (lastShown? (b.done es)).or b.shown? := by
  induction es using List.reverseRecOn with
  | nil => exact ⟨law, rfl⟩
  | append_singleton es e ih =>
    obtain ⟨law, shown⟩ := ih fun e' member => spared e' (List.mem_append_left _ member)
    rw [through_concat, done_concat]
    cases e with
    | own op =>
      refine ⟨op.stateLaw_apply law, ?_⟩
      change (op.apply (b.through es)).shown? = (lastShown? (b.done es ++ [⟨b.through es, op⟩])).or b.shown?
      rw [Op.shown?_apply law.settled, lastShown?_concat, shown]
      split <;> rfl
    | meanwhile change =>
      have kept := spared _ (List.mem_append_right _ List.mem_cons_self) (b.through es).shared
      have name : (b.through es).cpu.name = b.cpu.name := congrArg Board.name (b.board_through es)
      refine ⟨law, ?_⟩
      rw [← name] at kept
      change (change (b.through es).shared).metrics.gauge? (b.through es).cpu.name = (lastShown? (b.done es ++ [])).or _
      rw [kept, List.append_nil]
      exact shown

theorem state_of_served {r : Request} {reply : Reply} (asked : r ∈ [Request.boot, .resume, .step, .stop, .reset])
    (served : r.serve b = .ok reply b') : b'.cpu.state = .running ∨ b'.cpu.state = .stopped := by
  cases r with
  | boot =>
    cases served
    exact .inl (state_setState b .running)
  | stop =>
    cases served
    exact .inr (state_setState b .stopped)
  | step =>
    obtain ⟨u, b₁, stepped, served⟩ := bind_eq_ok.mp served
    cases served
    unfold singleStep at stepped
    split at stepped <;> cases stepped
    exact .inr (state_setState _ .stopped)
  | resume =>
    obtain ⟨u, b₁, lifted, served⟩ := bind_eq_ok.mp served
    cases served
    unfold liftFault at lifted
    split at lifted <;> cases lifted
    next resumed =>
      obtain ⟨u, b₂, -, set⟩ := bind_eq_ok.mp resumed
      cases set
      rw [state_setState]
      split
      · exact .inr rfl
      · exact .inl rfl
  | reset =>
    obtain ⟨u, b₁, done, served⟩ := bind_eq_ok.mp served
    cases served
    obtain ⟨n, b₂, -, done⟩ := bind_eq_ok.mp ((reset_eq b).symm.trans done)
    cases done
    exact .inr (congrArg Instance.state b₂.cpu_restart)
  | _ => simp at asked

/-- What the gauges of an instance show after a run, and after what is done next. -/
structure Lags (b : Bench) (es : List Event) : Prop where
  shown : (b.through es).shown? = (lastShown? (b.done es)).or b.shown?
  current : ∀ op, (op.apply (b.through es)).Current ↔
    (Done.mk (b.through es) op).publishes ∨ (b.through es).shown? = some (op.apply (b.through es)).cpu.registers
  rest : ∀ op : Op, op.Settles (b.through es) → (op.apply (b.through es)).cpu.state ≠ .running →
    (b.through es).cpu.state ≠ .stopped ∨ op = .serve .step → (op.apply (b.through es)).Current

theorem publishes_of_settles {op : Op} (settles : op.Settles b) (rests : (op.apply b).cpu.state ≠ .running)
    (moves : b.cpu.state ≠ .stopped ∨ op = .serve .step) : (Done.mk b op).publishes := by
  cases op with
  | tick => exact bne_iff_ne.mpr fun same => rests (same.trans settles)
  | step | post content => exact settles.elim
  | serve r =>
    obtain ⟨asked, carriedOut⟩ := settles
    rcases moves with moves | same
    · cases served : r.serve b with
      | error e b' => cases served ▸ carriedOut
      | ok reply b' =>
        have after : (Op.serve r).apply b = b' := congrArg endState served
        have stopped := (state_of_served asked served).resolve_left (after ▸ rests)
        unfold Done.publishes
        split
        · rfl
        · exact bne_iff_ne.mpr fun same => moves ((after ▸ same).symm.trans stopped)
    · cases same
      rfl

/-- The gauges show the registers as the last operation that set them has left them. They are current after an operation
that sets them, and after any other just where it leaves the registers that they show. An operation that leaves an
instance at rest sets them, but for one that finds it stopped and is no step. -/
theorem gauges_lag (law : b.cpu.StateLaw) (spared : ∀ e ∈ es, e.SparesGauges b.cpu.name) : b.Lags es := by
  obtain ⟨law, shown⟩ := shown?_through law spared
  have current (op : Op) : (op.apply (b.through es)).Current ↔
      (Done.mk (b.through es) op).publishes ∨
        (b.through es).shown? = some (op.apply (b.through es)).cpu.registers := by
    rw [current_iff, Op.shown?_apply law.settled]
    split
    next publishes => exact ⟨fun _ => .inl publishes, fun _ => rfl⟩
    next silent => exact ⟨.inr, fun either => either.resolve_left silent⟩
  refine ⟨shown, current, fun op settles rests moves => ?_⟩
  exact (current op).mpr (.inl (publishes_of_settles settles rests moves))

/-- A new instance with an image of one instruction, which sets a register. -/
def newcomer : Bench where
  cpu := .ofBoard (usualBoard "unit")
  shared := { store := (∅ : KeyValue.Store).insert "boot" (.bytes (Utf8.ofString ":02440000154362")) }

/-- In between the gauges of another instance are set. -/
def trial : List Event :=
  [.own (.serve .reset), .own (.serve .step),
    .meanwhile fun shared => { shared with metrics := shared.metrics.publish "gate" .zero }]

theorem newcomer_lags :
    newcomer.cpu.StateLaw ∧ (∀ e ∈ trial, e.SparesGauges newcomer.cpu.name) ∧
      ((newcomer.through trial).cpu.registers.pc, (newcomer.through trial).shown?.map (·.pc)) =
        (0x4402, some 0x4402) ∧
      newcomer.Lags trial := by
  have built : Instance.build "unit" {} = .ok (Instance.ofBoard (usualBoard "unit")) := rfl
  have law : newcomer.cpu.StateLaw := stateLaw_build built
  have spared : ∀ e ∈ trial, e.SparesGauges newcomer.cpu.name := by
    rintro e (_ | ⟨_, _ | ⟨_, _ | ⟨_, ⟨⟩⟩⟩⟩)
    · trivial
    · trivial
    · exact fun shared => (Metrics.gauge?_publish _ _ _ _).trans (if_neg (by decide))
  exact ⟨law, spared, by decide +kernel, gauges_lag law spared⟩

/-- The new instance, reset and stepped. -/
def settledIn : Bench := endState (Request.step.serve (endState (Request.reset.serve newcomer)))

/-- A reset that finds the instance stopped leaves the gauges of the step before. -/
theorem reset_outdates_gauges :
    ¬ ∀ (b : Bench) (op : Op), b.Reachable → op.Settles b → (op.apply b).cpu.state ≠ .running →
      (op.apply b).Current := by
  intro always
  have built : Instance.build "unit" {} = .ok (Instance.ofBoard (usualBoard "unit")) := rfl
  have reachable : settledIn.Reachable := ((Reachable.built newcomer.shared built).served .reset).served .step
  have carriedOut : succeeds (Request.reset.serve settledIn) := by decide +kernel
  have asked : Request.reset ∈ [Request.boot, .resume, .step, .stop, .reset] := by simp
  have rests : ((Op.serve .reset).apply settledIn).cpu.state ≠ .running := by decide +kernel
  have shown : ((Op.serve .reset).apply settledIn).shown?.map (·.get .pc) = some 0x4402 := by decide +kernel
  have entry : ((Op.serve .reset).apply settledIn).cpu.registers.get .pc = 0x4400 := by decide +kernel
  have current := (always settledIn (.serve .reset) reachable ⟨asked, carriedOut⟩ rests).registers .pc
  rw [shown, entry] at current
  exact absurd current (by decide)

end Bench

end Msp430
