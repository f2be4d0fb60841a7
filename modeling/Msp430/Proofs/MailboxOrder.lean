import Mathlib.Data.List.Induction
import Msp430.Proofs.Serving

/-!
# The order of a mailbox

Requests may come to an instance at any moment. They are carried out in the order in which they have come, each of them
once and between two instructions, and an instruction of free running is begun only when none is left to carry out.
-/

namespace Msp430

open Access

/-! ### What a turn does -/

namespace Actor

variable {a a' : Actor}

/-- The request that the next turn carries out or goes on with. -/
def next? (a : Actor) : Option Ticket :=
  match a.active with
  | some t => some t
  | none => if a.bench.cpu.awaiting then none else a.queue.head?

/-- The request that the next turn brings to its end, and its answer. -/
def ending? (a : Actor) : Option (Ticket × Except ControlError Reply) := do
  let t ← a.next?
  let (_, answer) ← a.turn.2
  return (t, answer)

/-- All that a turn can do, and the request that it brings to its end. -/
inductive Turns (a : Actor) : Actor × Option Delivery → Option (Ticket × Except ControlError Reply) → Prop
  | finishes {t : Ticket} {rest : List Ticket} {answer : Except ControlError Reply} {b : Bench} :
      a.next? = some t → a.pending = t :: rest → t.request.Ends a.bench answer b →
      Turns a ({ bench := b, queue := rest }, some (t.number, answer)) (some (t, answer))
  | waits {t : Ticket} {rest : List Ticket} {b : Bench} :
      a.next? = some t → a.pending = t :: rest → t.request.serve a.bench = .error (.cpu .awaitingInput) b →
      Turns a ({ bench := b, queue := rest, active := some t }, none) none
  | ticks : a.next? = none → a.active = none →
      a.bench.cpu.awaiting = true ∨ a.bench.cpu.state = .running ∧ a.queue = [] →
      Turns a ({ a with bench := a.bench.tick }, none) none
  | rests : a.next? = none → a.pending = [] → a.bench.cpu.awaiting = false → a.bench.cpu.state ≠ .running →
      Turns a (a, none) none

theorem Turns.ending {after : Actor × Option Delivery} {done : Option (Ticket × Except ControlError Reply)}
    (turns : a.Turns after done) : done = a.next?.bind fun t => after.2.map fun reply => (t, reply.2) := by
  cases turns with
  | finishes next | waits next | ticks next | rests next =>
    rw [next]
    rfl

theorem turns_execute {t : Ticket} (next : a.next? = some t) {rest : List Ticket} (pending : a.pending = t :: rest)
    (bench : a'.bench = a.bench) (queue : a'.queue = rest) : ∃ done, a.Turns (a'.execute t) done := by
  subst queue
  unfold execute
  rw [bench]
  split
  next reply b served => exact ⟨_, .finishes next pending ⟨nofun, served⟩⟩
  next b served => exact ⟨_, .waits next pending served⟩
  next e b other served => exact ⟨_, .finishes next pending ⟨fun same => other (Except.error.inj same), served⟩⟩

theorem pending_of_idle (idle : a.active = none) : a.pending = a.queue := by
  unfold pending
  rw [idle]
  rfl

theorem exists_turns (a : Actor) : ∃ done, a.Turns a.turn done := by
  unfold turn
  split
  next t active =>
    have next : a.next? = some t := by
      unfold next?
      rw [active]
    have pending : a.pending = t :: a.queue := by
      unfold pending
      rw [active]
      rfl
    exact turns_execute next pending rfl rfl
  next idle =>
    have pending := pending_of_idle idle
    split
    next awaiting =>
      have next : a.next? = none := by
        unfold next?
        rw [idle]
        exact if_pos awaiting
      exact ⟨_, .ticks next idle (.inl awaiting)⟩
    next ready =>
      have next : a.next? = a.queue.head? := by
        unfold next?
        rw [idle]
        exact if_neg ready
      split
      next t rest queue =>
        rw [queue] at next pending
        exact turns_execute next pending rfl rfl
      next queue =>
        have next : a.next? = none := by
          rw [next, queue]
          rfl
        split
        next running => exact ⟨_, .ticks next idle (.inr ⟨running, queue⟩)⟩
        next stopped => exact ⟨_, .rests next (pending.trans queue) (Bool.not_eq_true _ ▸ ready) stopped⟩

theorem turn_turns (a : Actor) : a.Turns a.turn a.ending? := by
  obtain ⟨done, turns⟩ := a.exists_turns
  have same : a.ending? = done := by
    rw [turns.ending]
    unfold ending?
    cases a.turn.2 <;> rfl
  exact same ▸ turns

/-! ### Moments -/

/-- A turn while which requests come, a request that comes between two turns, or something that others do to what is
shared. -/
inductive Moment where
  | turn (arrivals : List Ticket)
  | arrival (t : Ticket)
  | meanwhile (shared : Shared)

def Moment.arrivals : Moment → List Ticket
  | .turn arrivals => arrivals
  | .arrival t => [t]
  | .meanwhile _ => []

def enqueue (a : Actor) (ts : List Ticket) : Actor := { a with queue := a.queue ++ ts }

/-- What has come while a turn was taken is in the mailbox when the next one looks. -/
def during (a : Actor) : Moment → Actor
  | .turn arrivals => a.turn.1.enqueue arrivals
  | .arrival t => a.enqueue [t]
  | .meanwhile shared => { a with bench := { a.bench with shared } }

/-- The request that a moment brings to its end, and its answer. -/
def finishes (a : Actor) : Moment → Option (Ticket × Except ControlError Reply)
  | .turn _ => a.ending?
  | _ => none

def through (a : Actor) (ms : List Moment) : Actor := ms.foldl during a

/-- The requests that have come to their end, with their answers, the first one first. -/
def finished (a : Actor) : List Moment → List (Ticket × Except ControlError Reply)
  | [] => []
  | m :: ms => (a.finishes m).toList ++ (a.during m).finished ms

def replies (a : Actor) : List Moment → List Delivery
  | [] => []
  | .turn arrivals :: ms => a.turn.2.toList ++ (a.during (.turn arrivals)).replies ms
  | m :: ms => (a.during m).replies ms

/-- A request that is posted comes to the mailbox, unless it is refused. -/
theorem post_eq (a : Actor) (t : Ticket) :
    (a.post t).1 = if (a.post t).2.isSome then a else a.during (.arrival t) := by
  unfold post
  split <;> rfl

theorem through_concat (a : Actor) (ms : List Moment) (m : Moment) :
    a.through (ms ++ [m]) = (a.through ms).during m :=
  List.foldl_append

theorem finished_concat (a : Actor) (ms : List Moment) (m : Moment) :
    a.finished (ms ++ [m]) = a.finished ms ++ ((a.through ms).finishes m).toList := by
  induction ms generalizing a with
  | nil => exact List.append_nil _
  | cons first rest ih =>
    change _ ++ (a.during first).finished (rest ++ [m]) = _
    rw [ih, ← List.append_assoc]
    rfl

theorem pending_enqueue (a : Actor) (ts : List Ticket) : (a.enqueue ts).pending = a.pending ++ ts :=
  (List.append_assoc ..).symm

theorem order_during (a : Actor) (m : Moment) :
    ((a.finishes m).toList.map Prod.fst) ++ (a.during m).pending = a.pending ++ m.arrivals := by
  cases m with
  | turn arrivals =>
    have turns := a.turn_turns
    change (a.ending?.toList.map Prod.fst) ++ (a.turn.1.enqueue arrivals).pending = _
    rw [pending_enqueue, ← List.append_assoc]
    refine congrArg (· ++ arrivals) ?_
    generalize a.turn = after, a.ending? = done at turns ⊢
    cases turns with
    | finishes next pending | waits next pending => exact pending.symm
    | ticks | rests => rfl
  | arrival t => exact a.pending_enqueue [t]
  | meanwhile shared => exact (List.append_nil _).symm

theorem reply_turn (a : Actor) : a.turn.2 = a.ending?.map fun done => (done.1.number, done.2) := by
  have turns := a.turn_turns
  generalize a.turn = after, a.ending? = done at turns ⊢
  cases turns <;> rfl

theorem order (a : Actor) (ms : List Moment) :
    (a.finished ms).map Prod.fst ++ (a.through ms).pending = a.pending ++ ms.flatMap Moment.arrivals := by
  induction ms generalizing a with
  | nil => exact (List.append_nil _).symm
  | cons m rest ih =>
    change ((a.finishes m).toList ++ (a.during m).finished rest).map Prod.fst ++ ((a.during m).through rest).pending = _
    rw [List.map_append, List.append_assoc, ih, ← List.append_assoc, order_during, List.append_assoc]
    rfl

theorem replies_eq (a : Actor) (ms : List Moment) :
    a.replies ms = (a.finished ms).map fun done => (done.1.number, done.2) := by
  induction ms generalizing a with
  | nil => rfl
  | cons m rest ih =>
    cases m with
    | turn arrivals =>
      change a.turn.2.toList ++ _ = (a.ending?.toList ++ _).map _
      rw [ih, a.reply_turn, List.map_append, Option.toList_map]
    | arrival t => exact ih _
    | meanwhile shared => exact ih _

/-! ### Boundaries between instructions -/

/-- No instruction waits but that of the active request or one of free running, which will be tried again. -/
structure Coherent (a : Actor) : Prop where
  active : ∀ t, a.active = some t → t.request.executes ∧ a.bench.Tried
  free : a.active = none → a.bench.cpu.awaiting = true →
    a.bench.cpu.state = .running ∧ a.bench.breakpoint? ≠ some .stop ∧ a.bench.Tried

theorem Coherent.of_ready (idle : a.active = none) (ready : a.bench.cpu.awaiting = false) : a.Coherent where
  active t active := by
    rw [idle] at active
    cases active
  free _ awaiting := by
    rw [ready] at awaiting
    cases awaiting

theorem Coherent.poised (coherent : a.Coherent) : a.bench.Poised := by
  cases active : a.active with
  | some t => exact .inr (coherent.active t active).2
  | none =>
    cases awaiting : a.bench.cpu.awaiting with
    | false => exact .inl awaiting
    | true => exact .inr (coherent.free active awaiting).2.2

theorem Coherent.calm (coherent : a.Coherent) {t : Ticket} (next : a.next? = some t) :
    t.request.executes ∨ a.bench.cpu.awaiting = false := by
  unfold next? at next
  split at next
  next active =>
    cases next
    exact .inl (coherent.active _ active).1
  next =>
    split at next
    next => cases next
    next ready => exact .inr (Bool.not_eq_true _ ▸ ready)

theorem Coherent.running (coherent : a.Coherent) (idle : a.active = none)
    (goes : a.bench.cpu.awaiting = true ∨ a.bench.cpu.state = .running ∧ a.queue = []) :
    a.bench.cpu.state = .running := by
  rcases goes with awaiting | ⟨running, -⟩
  · exact (coherent.free idle awaiting).1
  · exact running

theorem Coherent.tick_ready (coherent : a.Coherent) (idle : a.active = none) (goes : ¬ a.bench.Waits) :
    a.bench.tick.cpu.awaiting = false := by
  by_cases stop : a.bench.breakpoint? = some .stop
  · rw [Bench.tick_stop stop, Bench.cpu_setState]
    cases awaiting : a.bench.cpu.awaiting with
    | false => rfl
    | true => exact absurd stop (coherent.free idle awaiting).2.1
  · have ended := coherent.poised.ended_awaiting fun waits => goes ⟨stop, waits⟩
    rw [Bench.tick_eq stop]
    split
    · rw [Bench.cpu_setState]
      exact ended
    · exact ended

theorem Coherent.during (coherent : a.Coherent) (m : Moment) : (a.during m).Coherent := by
  cases m with
  | arrival t => exact ⟨coherent.active, coherent.free⟩
  | meanwhile shared => exact ⟨coherent.active, coherent.free⟩
  | turn arrivals =>
    suffices turned : a.turn.1.Coherent from ⟨turned.active, turned.free⟩
    have turns := a.turn_turns
    generalize a.turn = after, a.ending? = done at turns ⊢
    cases turns with
    | finishes next _ ends => exact .of_ready rfl (ends.ready coherent.poised (coherent.calm next))
    | waits next _ waits =>
      obtain ⟨executes, waits, cpu⟩ := Request.serve_waits waits
      refine ⟨?_, nofun⟩
      rintro t ⟨⟩
      exact ⟨executes, (Bench.tried_of_waits waits).of_cpu cpu⟩
    | ticks next idle goes =>
      by_cases waits : a.bench.Waits
      · have cpu := Bench.tick_cpu_waits waits.1 waits.2
        refine ⟨fun t active => ?_, fun _ _ => ⟨?_, ?_, (Bench.tried_of_waits waits.2).of_cpu cpu⟩⟩
        · cases idle.symm.trans active
        · rw [cpu]
          exact coherent.running idle goes
        · unfold Bench.breakpoint?
          rw [cpu]
          exact waits.1
      · exact .of_ready idle (coherent.tick_ready idle waits)
    | rests => exact coherent

theorem Coherent.through (coherent : a.Coherent) (ms : List Moment) : (a.through ms).Coherent := by
  induction ms generalizing a with
  | nil => exact coherent
  | cons m rest ih => exact ih (coherent.during m)

theorem Coherent.step (coherent : a.Coherent) (e : Event) : (a.step e).Coherent := by
  cases e with
  | turn =>
    have turned := coherent.during (.turn [])
    exact ⟨turned.active, turned.free⟩
  | post t =>
    change (a.post t).1.Coherent
    rw [post_eq]
    split
    · exact coherent
    · exact coherent.during (.arrival t)
  | meanwhile shared => exact coherent.during (.meanwhile shared)

end Actor

namespace Bench

/-- The instance is as it was at `c`, where no instruction waited, and at most waits now. -/
structure Since (c b : Bench) : Prop where
  ready : c.cpu.awaiting = false
  cpu : b.cpu = { c.cpu with awaiting := b.cpu.awaiting }

theorem Since.refl {b : Bench} (ready : b.cpu.awaiting = false) : Since b b := ⟨ready, rfl⟩

theorem Since.of_cpu {c b b' : Bench} (since : Since c b) {on : Bool} (cpu : b'.cpu = { b.cpu with awaiting := on }) :
    Since c b' where
  ready := since.ready
  cpu := by rw [cpu, since.cpu]

/-- From one boundary between instructions to another: requests that are carried out in whole, with their answers in
order, and whole instructions of free running, each of which may have waited. Others may do anything to what is shared
in between. -/
inductive Serial (b : Bench) : List (Ticket × Except ControlError Reply) → Bench → Prop
  | start : Serial b [] b
  | request {done : List (Ticket × Except ControlError Reply)} {c c₁ c' : Bench} {t : Ticket}
      {answer : Except ControlError Reply} :
      Serial b done c → Since c c₁ → t.request.executes ∨ c₁.cpu.awaiting = false → t.request.Ends c₁ answer c' →
      Serial b (done ++ [(t, answer)]) c'
  | instruction {done : List (Ticket × Except ControlError Reply)} {c c₁ : Bench} :
      Serial b done c → Since c c₁ → c.cpu.state = .running → ¬ c₁.Waits → Serial b done c₁.tick

end Bench

namespace Actor

variable {a : Actor} {ms : List Moment}

def Boundary (a : Actor) (ms : List Moment) (c : Bench) : Prop :=
  a.bench.Serial (a.finished ms) c ∧ c.Since (a.through ms).bench

theorem boundary_concat {c : Bench} (coherent : (a.through ms).Coherent) (boundary : a.Boundary ms c) (m : Moment) :
    ∃ c', a.Boundary (ms ++ [m]) c' := by
  obtain ⟨serial, since⟩ := boundary
  unfold Boundary
  rw [finished_concat, through_concat]
  cases m with
  | arrival t => exact ⟨c, (List.append_nil _).symm ▸ serial, since⟩
  | meanwhile shared => exact ⟨c, (List.append_nil _).symm ▸ serial, since.of_cpu rfl⟩
  | turn arrivals =>
    generalize a.through ms = d at coherent since ⊢
    change ∃ c', a.bench.Serial (a.finished ms ++ d.ending?.toList) c' ∧ c'.Since d.turn.1.bench
    have turns := d.turn_turns
    generalize d.turn = after, d.ending? = done at turns ⊢
    cases turns with
    | finishes next _ ends =>
      have calm := coherent.calm next
      exact ⟨_, .request serial since calm ends, .refl (ends.ready coherent.poised calm)⟩
    | waits next _ waits =>
      exact ⟨c, (List.append_nil _).symm ▸ serial, since.of_cpu (Request.serve_waits waits).2.2⟩
    | ticks next idle goes =>
      by_cases waits : d.bench.Waits
      · exact ⟨c, (List.append_nil _).symm ▸ serial, since.of_cpu (Bench.tick_cpu_waits waits.1 waits.2)⟩
      · have running : c.cpu.state = .running := by
          have running := coherent.running idle goes
          rwa [since.cpu] at running
        exact ⟨_, (List.append_nil _).symm ▸ .instruction serial since running waits,
          .refl (coherent.tick_ready idle waits)⟩
    | rests => exact ⟨c, (List.append_nil _).symm ▸ serial, since⟩

theorem exists_boundary (coherent : a.Coherent) (ready : a.bench.cpu.awaiting = false) (ms : List Moment) :
    ∃ c, a.Boundary ms c := by
  -- A turn that ends nothing leaves the boundary where it was, so the last moment decides.
  induction ms using List.reverseRecOn with
  | nil => exact ⟨a.bench, .start, .refl ready⟩
  | append_singleton ms m ih =>
    obtain ⟨c, boundary⟩ := ih
    exact boundary_concat (coherent.through ms) boundary m

/-! ### Iterations of free running -/

/-- An iteration finds the instance running and the mailbox empty. -/
def Found (a : Actor) : Prop := a.bench.cpu.state = .running ∧ a.pending = []

/-- The turn begins an instruction by free running, and counts it. -/
def Begins (a : Actor) : Prop :=
  a.next? = none ∧ a.turn.1.bench.shared.metrics.steps ≠ a.bench.shared.metrics.steps

theorem begins_iff :
    a.Begins ↔ a.bench.cpu.awaiting = false ∧ a.Found ∧ a.bench.breakpoint? ≠ some .stop := by
  unfold Begins Found
  have turns := a.turn_turns
  generalize a.turn = after, a.ending? = done at turns ⊢
  cases turns with
  | finishes next pending => simp [next, pending]
  | waits next pending => simp [next, pending]
  | rests next pending ready stopped => simp [stopped]
  | ticks next idle goes =>
    constructor
    · rintro ⟨-, counted⟩
      have ready : a.bench.cpu.awaiting = false := by
        cases awaiting : a.bench.cpu.awaiting with
        | false => rfl
        | true => exact absurd (Bench.steps_tick_of_awaiting awaiting) counted
      obtain ⟨running, empty⟩ := goes.resolve_left (by rw [ready]; nofun)
      refine ⟨ready, ⟨running, (pending_of_idle idle).trans empty⟩, fun stop => counted ?_⟩
      change a.bench.tick.shared.metrics.steps = _
      rw [Bench.tick_stop stop, (Bench.counts_setState a.bench .stopped).1]
    · rintro ⟨ready, -, free⟩
      have counted : a.bench.tick.shared.metrics.steps = _ := Bench.steps_tick_of_begun ready free
      exact ⟨next, by rw [counted]; exact Nat.succ_ne_self _⟩

theorem waiting_during (coherent : a.Coherent) {m : Moment} (idle : (a.during m).active = none)
    (awaiting : (a.during m).bench.cpu.awaiting = true) :
    a.active = none ∧ a.finishes m = none ∧ (a.during m).bench.cpu = { a.bench.cpu with awaiting := true } ∧
      (a.bench.cpu.awaiting = true ∨ a.Found) := by
  have same (awaiting : a.bench.cpu.awaiting = true) : a.bench.cpu = { a.bench.cpu with awaiting := true } := by
    rw [← awaiting]
  cases m with
  | arrival t => exact ⟨idle, rfl, same awaiting, .inl awaiting⟩
  | meanwhile shared => exact ⟨idle, rfl, same awaiting, .inl awaiting⟩
  | turn arrivals =>
    change a.turn.1.active = none at idle
    change a.turn.1.bench.cpu.awaiting = true at awaiting
    change _ ∧ a.ending? = none ∧ a.turn.1.bench.cpu = _ ∧ _
    have turns := a.turn_turns
    generalize a.turn = after, a.ending? = done at turns idle awaiting ⊢
    cases turns with
    | finishes next _ ends =>
      cases (ends.ready coherent.poised (coherent.calm next)).symm.trans awaiting
    | waits => cases idle
    | ticks _ idle goes =>
      by_cases waits : a.bench.Waits
      · exact ⟨idle, rfl, Bench.tick_cpu_waits waits.1 waits.2,
          goes.imp_right fun found => ⟨found.1, (pending_of_idle idle).trans found.2⟩⟩
      · cases (coherent.tick_ready idle waits).symm.trans awaiting
    | rests _ _ ready => cases ready.symm.trans awaiting

/-- An instruction of free running that waits was begun when an iteration had found the instance running and the mailbox
empty, and nothing has been finished since. -/
theorem iteration_of_awaiting (coherent : a.Coherent) (ready : a.bench.cpu.awaiting = false) {ms : List Moment}
    (idle : (a.through ms).active = none) (awaiting : (a.through ms).bench.cpu.awaiting = true) :
    ∃ before rest, ms = before ++ rest ∧ (a.through before).Found ∧ a.finished ms = a.finished before ∧
      (a.through before).bench.Since (a.through ms).bench := by
  induction ms using List.reverseRecOn with
  | nil => cases ready.symm.trans awaiting
  | append_singleton ms m ih =>
    rw [through_concat] at idle awaiting
    obtain ⟨idle, nothing, cpu, begun⟩ := waiting_during (coherent.through ms) idle awaiting
    rw [finished_concat, through_concat, nothing, Option.toList_none, List.append_nil]
    -- Either it has waited already, or this is the iteration that began it.
    cases waited : (a.through ms).bench.cpu.awaiting with
    | true =>
      obtain ⟨before, rest, same, found, finished, since⟩ := ih idle waited
      exact ⟨before, rest ++ [m], by rw [same, List.append_assoc], found, finished, since.of_cpu cpu⟩
    | false =>
      have found := begun.resolve_left (by rw [waited]; nofun)
      exact ⟨ms, [m], rfl, found, rfl, (Bench.Since.refl waited).of_cpu cpu⟩

/-! ### After a stop -/

/-- No request that is finished meanwhile leaves the instance running. -/
def Unrestarted (a : Actor) : List Moment → Prop
  | [] => True
  | m :: ms => ((a.finishes m).isSome → (a.during m).bench.cpu.state ≠ .running) ∧ (a.during m).Unrestarted ms

theorem still_during (coherent : a.Coherent) (still : a.bench.cpu.state ≠ .running) {m : Moment}
    (unrestarted : (a.finishes m).isSome → (a.during m).bench.cpu.state ≠ .running) :
    (a.during m).bench.cpu.state ≠ .running := by
  cases m with
  | arrival t => exact still
  | meanwhile shared => exact still
  | turn arrivals =>
    change a.turn.1.bench.cpu.state ≠ .running
    change a.ending?.isSome → a.turn.1.bench.cpu.state ≠ .running at unrestarted
    have turns := a.turn_turns
    generalize a.turn = after, a.ending? = done at turns unrestarted ⊢
    cases turns with
    | finishes => exact unrestarted rfl
    | waits _ _ waits =>
      rw [(Request.serve_waits waits).2.2]
      exact still
    | ticks _ idle goes => exact absurd (coherent.running idle goes) still
    | rests => exact still

theorem still_through (coherent : a.Coherent) (still : a.bench.cpu.state ≠ .running) {ms : List Moment}
    (unrestarted : a.Unrestarted ms) : (a.through ms).bench.cpu.state ≠ .running := by
  induction ms generalizing a with
  | nil => exact still
  | cons m rest ih => exact ih (coherent.during m) (still_during coherent still unrestarted.1) unrestarted.2

theorem turn_still (coherent : a.Coherent) (still : a.bench.cpu.state ≠ .running) (next : a.next? = none) :
    a.turn = (a, none) := by
  have turns := a.turn_turns
  generalize a.turn = after, a.ending? = done at turns ⊢
  cases turns with
  | finishes due => cases next.symm.trans due
  | waits due => cases next.symm.trans due
  | ticks _ idle goes => exact absurd (coherent.running idle goes) still
  | rests => rfl

theorem stopped_of_finishes {m : Moment} {t : Ticket} {answer : Except ControlError Reply}
    (done : a.finishes m = some (t, answer)) (stop : t.request = .stop) :
    (a.during m).bench.cpu.state = .stopped := by
  cases m with
  | arrival => cases done
  | meanwhile => cases done
  | turn arrivals =>
    change a.turn.1.bench.cpu.state = .stopped
    change a.ending? = some (t, answer) at done
    have turns := a.turn_turns
    generalize a.turn = after, a.ending? = ended at turns done ⊢
    cases turns with
    | finishes _ _ ends =>
      cases done
      rw [← ends.endState, stop]
      exact congrArg Instance.state (Bench.cpu_setState a.bench .stopped)
    | waits | ticks | rests => cases done

/-! ### The discipline of a mailbox -/

theorem next?_of_ready (ready : a.bench.cpu.awaiting = false) : a.next? = a.pending.head? := by
  unfold next? pending
  cases a.active with
  | some t => rfl
  | none => simp [ready]

theorem prompt {t : Ticket} {rest : List Ticket} (pending : a.pending = t :: rest)
    (ready : a.bench.cpu.awaiting = false) :
    (∃ answer, a.ending? = some (t, answer)) ∨
      t.request.executes ∧ a.bench.machine.step.1 = .failed .awaitingInput := by
  have due : a.next? = some t := by
    rw [next?_of_ready ready, pending]
    rfl
  have turns := a.turn_turns
  generalize a.turn = after, a.ending? = done at turns ⊢
  cases turns with
  | finishes next =>
    cases due.symm.trans next
    exact .inl ⟨_, rfl⟩
  | waits next _ waits =>
    cases due.symm.trans next
    exact .inr ⟨(Request.serve_waits waits).1, (Request.serve_waits waits).2.1⟩
  | ticks next | rests next => cases due.symm.trans next

theorem Coherent.resumed (coherent : a.Coherent) (goes : a.bench.machine.step.1 ≠ .failed .awaitingInput) :
    a.turn.1.bench.cpu.awaiting = false := by
  have turns := a.turn_turns
  generalize a.turn = after, a.ending? = done at turns ⊢
  cases turns with
  | finishes next _ ends => exact ends.ready coherent.poised (coherent.calm next)
  | waits _ _ waits => exact absurd (Request.serve_waits waits).2.1 goes
  | ticks _ idle => exact coherent.tick_ready idle fun waits => goes waits.2
  | rests _ _ ready => exact ready

theorem not_begins {t : Ticket} (pending : t ∈ a.pending) : ¬ a.Begins := by
  intro begins
  obtain ⟨-, ⟨-, empty⟩, -⟩ := begins_iff.mp begins
  rw [empty] at pending
  cases pending

theorem ticks_of_changed (next : a.next? = none) (changed : a.turn.1.bench ≠ a.bench) :
    a.active = none ∧ (a.bench.cpu.awaiting = true ∨ a.bench.cpu.state = .running ∧ a.queue = []) := by
  have turns := a.turn_turns
  generalize a.turn = after, a.ending? = done at turns changed
  cases turns with
  | finishes due | waits due => cases next.symm.trans due
  | ticks _ idle goes => exact ⟨idle, goes⟩
  | rests => exact absurd rfl changed

/-- What holds of the actor that `a` has become after the moments, and of its next turn. -/
structure Disciplined (a : Actor) (ms : List Moment) : Prop where
  /-- The requests come to their end in the order in which they have come, each once. -/
  order : (a.finished ms).map Prod.fst ++ (a.through ms).pending = a.pending ++ ms.flatMap Moment.arrivals
  replies : a.replies ms = (a.finished ms).map fun done => (done.1.number, done.2)
  /-- All requests and all instructions of free running have been carried out in whole, one after the other. -/
  whole : ∃ c, a.Boundary ms c
  /-- The oldest request is carried out in the next turn, unless it comes to wait for input. -/
  prompt : ∀ {t rest}, (a.through ms).pending = t :: rest → (a.through ms).bench.cpu.awaiting = false →
    (∃ answer, (a.through ms).ending? = some (t, answer)) ∨
      t.request.executes ∧ (a.through ms).bench.machine.step.1 = .failed .awaitingInput
  /-- What waits for input is carried out as soon as there is some. -/
  resumed : (a.through ms).bench.machine.step.1 ≠ .failed .awaitingInput →
    (a.through ms).turn.1.bench.cpu.awaiting = false
  begins : (a.through ms).Begins ↔
    (a.through ms).bench.cpu.awaiting = false ∧ (a.through ms).Found ∧ (a.through ms).bench.breakpoint? ≠ some .stop
  /-- While a request is to be carried out, a stop for one, free running begins no instruction. -/
  held : ∀ t ∈ (a.through ms).pending, ¬ (a.through ms).Begins
  /-- A turn that is not for a request does anything only in an iteration that has found the instance running and the
  mailbox empty, and in which the instruction may have waited since. -/
  iteration : (a.through ms).next? = none → (a.through ms).turn.1.bench ≠ (a.through ms).bench →
    ∃ before rest, ms = before ++ rest ∧ (a.through before).Found ∧ a.finished ms = a.finished before ∧
      (a.through before).bench.Since (a.through ms).bench
  /-- After a stop, free running does nothing until a request has left the instance running. -/
  stopped : ∀ {m t answer rest}, (a.through ms).finishes m = some (t, answer) → t.request = .stop →
    ((a.through ms).during m).Unrestarted rest →
    (((a.through ms).during m).through rest).bench.cpu.state ≠ .running ∧
      ((((a.through ms).during m).through rest).next? = none →
        (((a.through ms).during m).through rest).turn = (((a.through ms).during m).through rest, none))

theorem mailbox_discipline {b : Bench} {queue : List Ticket} (ready : b.cpu.awaiting = false) (ms : List Moment) :
    Disciplined { bench := b, queue } ms := by
  have start : Coherent { bench := b, queue } := .of_ready rfl ready
  have coherent := start.through ms
  refine ⟨order _ ms, replies_eq _ ms, exists_boundary start ready ms, prompt, coherent.resumed, begins_iff,
    fun _ => not_begins, ?iteration, ?stopped⟩
  case iteration =>
    intro next changed
    obtain ⟨idle, goes⟩ := ticks_of_changed next changed
    cases awaiting : (through { bench := b, queue } ms).bench.cpu.awaiting with
    | true => exact iteration_of_awaiting start ready idle awaiting
    | false =>
      obtain ⟨running, empty⟩ := goes.resolve_left (by rw [awaiting]; nofun)
      exact ⟨ms, [], (List.append_nil ms).symm, ⟨running, (pending_of_idle idle).trans empty⟩, rfl, .refl awaiting⟩
  case stopped =>
    intro m t answer rest done stop unrestarted
    have still := stopped_of_finishes done stop
    have later := coherent.during m
    have still := still_through later (by rw [still]; nofun) unrestarted
    exact ⟨still, turn_still (later.through rest) still⟩

/-- A stop comes while the loop executes an instruction, and a step and a resumption come later. -/
def stopDuringTurn : List Moment :=
  [.turn [⟨0, .stop⟩], .turn [⟨1, .step⟩, ⟨2, .resume⟩], .turn [], .turn [⟨3, .status⟩], .turn []]

theorem stopDuringTurn_disciplined :
    Bench.counter.cpu.awaiting = false ∧ Begins { bench := Bench.counter } ∧
      (finished { bench := Bench.counter } stopDuringTurn).map (fun done => done.1.number) = [0, 1, 2, 3] ∧
      Disciplined { bench := Bench.counter } stopDuringTurn := by
  have begins : Begins { bench := Bench.counter } := ⟨rfl, by decide +kernel⟩
  exact ⟨rfl, begins, by decide +kernel, mailbox_discipline rfl stopDuringTurn⟩

end Actor

end Msp430
