import Mathlib.Data.List.Induction
import Msp430.Proofs.AccessTrace
import Msp430.Proofs.Bindings
import Msp430.Proofs.Serving
import Msp430.Proofs.Tenants

/-!
# The store of a step

An instruction stores at most once, and where no loads are hooked the store is all that a step does to the memory and
the world. What becomes of an instance and its keys can thus be told from the stores of its instructions.
-/

namespace Msp430

open Access

/-! ### Steps behind hooks -/

namespace Touch

/-- The address and the value of a store. -/
def stored? : Touch → Option (UInt16 × UInt16)
  | store _ a v => some (a, v)
  | _ => none

theorem stored?_of_read {t : Touch} (read : ¬ t.isStore) : t.seen.stored? = none := by
  cases t with
  | store w a v => exact absurd rfl read
  | _ => rfl

end Touch

namespace Hooked

variable {m : Hooked World}

theorem endState_direct_look (f : Memory → Except Fault α) (m : Hooked World) : endState (direct (.look f) m) = m := by
  unfold direct onBacking Backing.onMemory focus look
  cases f m.backing.memory <;> rfl

theorem endState_make_of_read (unread : ∀ a, m.hooks.read a = none) {t : Touch} (read : ¬ t.isStore) :
    endState (t.make m) = m := by
  cases t with
  | fetch a =>
    simp only [Touch.make, Bus.fetch, unread a]
    exact endState_direct_look _ m
  | load w a =>
    cases w with
    | byte =>
      have loaded : endState (Bus.loadByte a m) = m := by
        rw [loadByte_unbound (unread a)]
        exact endState_direct_look _ m
      change endState (EStateM.map UInt8.toUInt16 (Bus.loadByte a) m) = m
      unfold EStateM.map
      cases same : Bus.loadByte a m <;> rw [same] at loaded <;> exact loaded
    | word =>
      change endState (Bus.loadWord a m) = m
      rw [loadWord_unbound (unread a)]
      exact endState_direct_look _ m
  | store w a v => exact absurd rfl read

theorem make_store (w : Width) (a v : UInt16) (m : Hooked World) :
    (Touch.store w a v).make m =
      match m.hooks.write a with
      | some hook => onBacking (hook a (w.trim v)) m
      | none => direct (Bus.store w a v) m := by
  have trimmed : Width.byte.trim v = (lowByte v).toUInt16 := by
    have seen := congrArg Touch.stored? (Touch.seen_store_byte a v)
    exact congrArg Prod.snd (Option.some.inj seen)
  cases w with
  | byte =>
    rw [trimmed]
    change hookedStore a _ _ m = _
    unfold hookedStore
    cases m.hooks.write a <;> rfl
  | word =>
    rw [Width.trim_word]
    change hookedStore a _ _ m = _
    unfold hookedStore
    cases m.hooks.write a <;> rfl

end Hooked

namespace Dialogue

variable {α : Type} {d : Dialogue α} {m : Hooked World}

def stored? {μ : Type} [Bus μ] (d : Dialogue α) (m : μ) : Option (UInt16 × UInt16) :=
  (d.accesses m).findSome? Touch.stored?

theorem LoadsFirst.run_cases (h : d.LoadsFirst True) (unread : ∀ a, m.hooks.read a = none) :
    (d.stored? m = none ∧ (endState (d.run m)).memory = m) ∨
      ∃ w a v result rs rs', d.stored? m = some (a, w.trim v) ∧
        d.run m = match (Touch.store w a v).make m with
          | .ok _ m' => .ok result ⟨rs, m'⟩
          | .error f m' => .error f ⟨rs', m'⟩ := by
  -- Fetches and loads come first and leave no trace; a store can only be the last access.
  induction h with
  | give => exact .inl ⟨rfl, rfl⟩
  | fail => exact .inl ⟨rfl, rfl⟩
  | @ask t rs next read _ ih =>
    have kept := Hooked.endState_make_of_read unread read
    unfold stored? accesses run
    rw [List.findSome?_cons, Touch.stored?_of_read read]
    cases answer : t.make m with
    | ok reply m' =>
      rw [answer] at kept
      cases kept
      exact ih reply
    | error f m' =>
      rw [answer] at kept
      exact .inl ⟨rfl, kept⟩
  | @store w a v rs result after =>
    refine .inr ⟨w, a, v, result, after, rs, ?_, ?_⟩
    · unfold stored? accesses
      rfl
    unfold run
    cases (Touch.store w a v).make m <;> rfl

end Dialogue

namespace Machine

/-- The address and the value of the store that the next step makes. -/
def stored? {μ : Type} [Bus μ] (m : Machine μ) : Option (UInt16 × UInt16) := m.touches.findSome? Touch.stored?

variable {m : Machine (Hooked World)} {a v : UInt16}

theorem step_cases (unread : ∀ a, m.memory.hooks.read a = none) :
    (m.stored? = none ∧ m.step.2.memory = m.memory) ∨
      ∃ w a v, m.stored? = some (a, w.trim v) ∧ m.step.2.memory = endState ((Touch.store w a v).make m.memory) ∧
        ((∃ f m', (Touch.store w a v).make m.memory = .error f m' ∧ m.step.1 = .failed f) ∨
          (∃ m', (Touch.store w a v).make m.memory = .ok () m' ∧ m.step.1.executed?.isSome)) := by
  unfold stored?
  rw [touches_eq]
  rcases (Dialogue.cycle_loadsFirst m.registers).run_cases unread with ⟨none, same⟩ | ⟨w, a, v, d, rs, rs', stored, run⟩
  · left
    refine ⟨none, ?_⟩
    rw [step_end, Dialogue.cycle_eq_run]
    exact same
  · right
    refine ⟨w, a, v, stored, ?_⟩
    unfold step
    rw [Dialogue.cycle_eq_run, run]
    cases answer : (Touch.store w a v).make m.memory with
    | ok _ m' =>
      refine ⟨rfl, .inr ⟨m', rfl, ?_⟩⟩
      simp only
      split <;> rfl
    | error f m' => exact ⟨rfl, .inl ⟨f, m', rfl, rfl⟩⟩

theorem step_of_unstored (unread : ∀ a, m.memory.hooks.read a = none) (none : m.stored? = none) :
    m.step.2.memory = m.memory := by
  rcases step_cases unread with ⟨-, same⟩ | ⟨w, a, v, stored, -⟩
  · exact same
  · cases none.symm.trans stored

/-- A store that is not hooked does nothing to the world. -/
theorem step_of_unhooked (unread : ∀ a, m.memory.hooks.read a = none) (stored : m.stored? = some (a, v))
    (unbound : m.memory.hooks.write a = none) : m.step.2.memory.backing.world = m.memory.backing.world := by
  rcases step_cases unread with ⟨none, -⟩ | ⟨w, a, v, same, memory, -⟩
  · cases none.symm.trans stored
  · cases same.symm.trans stored
    rw [memory, Hooked.make_store, unbound]
    unfold Hooked.direct Hooked.onBacking Backing.onMemory focus
    cases (Bus.store w a v : Access Memory Unit) m.memory.backing.memory <;> rfl

/-- A hooked store does what the hook does, and the step fails as the hook fails. -/
theorem step_of_hooked (unread : ∀ a, m.memory.hooks.read a = none) (stored : m.stored? = some (a, v))
    {hook : WriteHook World} (bound : m.memory.hooks.write a = some hook) :
    m.step.2.memory.backing = endState (hook a v m.memory.backing) ∧
      ((∃ f b, hook a v m.memory.backing = .error f b ∧ m.step.1 = .failed f) ∨
        (∃ b, hook a v m.memory.backing = .ok () b ∧ m.step.1.executed?.isSome)) := by
  rcases step_cases unread with ⟨none, -⟩ | ⟨w, a, v, same, memory, ends⟩
  · cases none.symm.trans stored
  · cases same.symm.trans stored
    rw [Hooked.make_store, bound] at memory ends
    simp only [Hooked.onBacking, focus] at memory ends
    cases answer : hook a (w.trim v) m.memory.backing with
    | ok u b =>
      rw [answer] at memory ends
      rcases ends with ⟨f, m', failed, -⟩ | ⟨m', -, done⟩
      · cases failed
      · exact ⟨congrArg Hooked.backing memory, .inr ⟨b, rfl, done⟩⟩
    | error f b =>
      rw [answer] at memory ends
      rcases ends with ⟨f, m', failed, outcome⟩ | ⟨m', done, -⟩
      · cases failed
        exact ⟨congrArg Hooked.backing memory, .inl ⟨f, b, rfl, outcome⟩⟩
      · cases done

end Machine

/-! ### What is done to an instance -/

namespace Bench

variable (b : Bench)

theorem store_advance : b.advance.2.shared.store = b.machine.step.2.memory.backing.world.store := by
  by_cases waits : b.machine.step.1 = .failed .awaitingInput
  · rw [advance_waits waits]
    rfl
  · rw [advance_goes waits]
    rfl

theorem store_ended : b.ended.shared.store = b.machine.step.2.memory.backing.world.store := by
  rw [← store_advance]
  unfold ended settle
  split
  · rfl
  · exact store_setState _ .stopped
  · exact store_setState _ .stopped
  · rfl
  · exact store_setState _ .fault

end Bench

namespace Op

variable {b : Bench} {op : Op}

def executes (b : Bench) : Op → Bool
  | tick => b.breakpoint? != some .stop
  | step => true
  | serve r => r.executes
  | post _ => false

/-- The address and the value of what an instruction stores. -/
def stored? (b : Bench) (op : Op) : Option (UInt16 × UInt16) := if op.executes b then b.machine.stored? else none

theorem stored?_eq_some {store : UInt16 × UInt16} :
    op.stored? b = some store ↔ op.executes b ∧ b.machine.stored? = some store := by
  unfold stored?
  by_cases executes : op.executes b
  · simp [executes]
  · simp [executes]

theorem store_apply (executes : op.executes b) :
    (op.apply b).shared.store = b.machine.step.2.memory.backing.world.store := by
  cases op with
  | tick =>
    change b.tick.shared.store = _
    rw [Bench.tick_eq (bne_iff_ne.mp executes), ← b.store_ended]
    split
    · exact Bench.store_setState b.ended .stopped
    · rfl
  | step =>
    change (endState b.step).shared.store = _
    rw [Bench.endState_step, Bench.store_advance]
  | serve r =>
    change (endState (r.serve b)).shared.store = _
    cases r with
    | resume =>
      have drive : Drive.ofRequest? b .resume = some .resume := rfl
      rw [Drive.serve_ofRequest? drive, ← b.store_advance, ← b.endState_step]
      change (endState (EStateM.bind Bench.step _ b)).shared.store = _
      unfold EStateM.bind
      cases b.step with
      | ok u b' => exact Bench.store_setState b' _
      | error f b' => rfl
    | step =>
      have drive : Drive.ofRequest? b .step = some .singleStep := rfl
      have store := (b.setState .stepping).store_advance
      rw [Bench.machine_setState, ← Bench.endState_step] at store
      rw [Drive.serve_ofRequest? drive, ← store]
      change (endState b.singleStep).shared.store = _
      unfold Bench.singleStep
      cases (b.setState .stepping).step with
      | ok u b' => exact Bench.store_setState b' _
      | error f b' => exact Bench.store_setState b' _
    | _ => cases executes
  | post content => cases executes

theorem machine_apply (executes : op.executes b) (goes : b.machine.step.1 ≠ .failed .awaitingInput) :
    (op.apply b).machine = b.machine.step.2 := by
  cases op with
  | tick =>
    change b.tick.machine = _
    rw [Bench.tick_eq (bne_iff_ne.mp executes), ← Bench.machine_ended goes]
    split
    · exact Bench.machine_setState b.ended .stopped
    · rfl
  | step =>
    change (endState b.step).machine = _
    rw [Bench.endState_step, Bench.machine_advance goes]
  | serve r => exact Request.machine_serve_of_executes executes goes
  | post content => cases executes

theorem cpu_apply_waits (executes : op.executes b) (waits : b.machine.step.1 = .failed .awaitingInput) :
    (op.apply b).cpu = { b.cpu with awaiting := true } := by
  cases op with
  | tick => exact Bench.tick_cpu_waits (bne_iff_ne.mp executes) waits
  | step =>
    change (endState b.step).cpu = _
    rw [Bench.endState_step]
    exact Bench.cpu_advance_waits waits
  | serve r =>
    obtain ⟨b', served⟩ := Request.exists_serve_of_waits executes waits
    change (endState (r.serve b)).cpu = _
    rw [served]
    exact (Request.serve_waits served).2.2
  | post content => cases executes

/-- What executes no instruction changes no key but that of posted input. -/
theorem entry_of_plain (plain : ¬ op.executes b) {key : String} (other : key ≠ Peripheral.input.key b.cpu.name) :
    (op.apply b).shared.store[key]? = b.shared.store[key]? := by
  cases op with
  | tick =>
    have stop : b.breakpoint? = some .stop := by simpa [executes] using plain
    change b.tick.shared.store[key]? = _
    rw [Bench.tick_stop stop, Bench.store_setState]
  | step => exact absurd rfl plain
  | serve r =>
    have standing := Request.serve_keeps_standing plain b rfl
    exact congrArg (fun standing => standing.2.2[key]?) standing
  | post content =>
    have different : ¬ compare (Peripheral.input.key b.cpu.name) key = .eq := fun same =>
      other (Std.LawfulEqCmp.eq_of_compare same).symm
    change (b.shared.store.insert _ (KeyValue.Value.bytes content))[key]? = _
    rw [Std.ExtTreeMap.getElem?_insert, if_neg different]

theorem unread (b : Bench) : ∀ a, b.machine.memory.hooks.read a = none :=
  (Peripheral.install_handles b.cpu.board.installed).read

/-- A peripheral other than the input device keeps what it holds under its key, unless an instruction stores to a
peripheral that works there. -/
theorem entry_of_foreign {k : Peripheral} (other : k ≠ .input)
    (foreign : ∀ (p : Peripheral) v, op.stored? b = some (p.address b.cpu.config.io, v) → k ∉ p.uses) :
    (op.apply b).shared.store[k.key b.cpu.name]? = b.shared.store[k.key b.cpu.name]? := by
  by_cases executes : op.executes b
  · rw [store_apply executes]
    have stores : op.stored? b = b.machine.stored? := if_pos executes
    rw [stores] at foreign
    cases stored : b.machine.stored? with
    | none =>
      rw [Machine.step_of_unstored (unread b) stored]
      rfl
    | some store =>
      obtain ⟨a, v⟩ := store
      cases bound : b.machine.memory.hooks.write a with
      | none =>
        rw [Machine.step_of_unhooked (unread b) stored bound]
        rfl
      | some hook =>
        obtain ⟨p, rfl, rfl⟩ := Peripheral.install_bound b.cpu.board.installed bound
        have apart : ∀ q ∈ p.uses, q.key b.cpu.name ≠ k.key b.cpu.name := by
          intro q used same
          exact foreign p v stored (Peripheral.key_injective same ▸ used)
        rw [(Machine.step_of_hooked (unread b) stored bound).1]
        exact Peripheral.handler_keeps_entry apart _ _ _ b.machine.memory.backing rfl
  · exact entry_of_plain executes fun same => other (Peripheral.key_injective same)

/-- An instruction that stores to a peripheral does what the peripheral does, and fails as that fails. -/
theorem apply_of_stored {p : Peripheral} {v : UInt16} (stored : op.stored? b = some (p.address b.cpu.config.io, v)) :
    (∃ f c, p.handler b.cpu.name b.cpu.config.io (p.address b.cpu.config.io) v b.machine.memory.backing = .error f c ∧
        b.machine.step.1 = .failed f ∧ (op.apply b).shared.store = c.world.store) ∨
      ∃ c, p.handler b.cpu.name b.cpu.config.io (p.address b.cpu.config.io) v b.machine.memory.backing = .ok () c ∧
        b.machine.step.1.executed?.isSome ∧ (op.apply b).shared.store = c.world.store ∧
          (op.apply b).cpu.memory = c.memory := by
  obtain ⟨executes, stored⟩ := stored?_eq_some.mp stored
  have bound := Peripheral.install_binds b.cpu.board.installed p
  obtain ⟨backing, ends⟩ := Machine.step_of_hooked (unread b) stored bound
  have store : (op.apply b).shared.store = _ := (store_apply executes).trans (congrArg (·.world.store) backing)
  rcases ends with ⟨f, c, failed, outcome⟩ | ⟨c, done, outcome⟩
  · rw [failed] at store
    exact .inl ⟨f, c, failed, outcome, store⟩
  · have goes : b.machine.step.1 ≠ .failed .awaitingInput := by
      intro waits
      rw [waits] at outcome
      cases outcome
    have machine := congrArg (·.memory.backing) (machine_apply executes goes)
    have memory : (op.apply b).cpu.memory = _ := congrArg Backing.memory (machine.trans backing)
    rw [done] at store memory
    exact .inr ⟨c, done, outcome, store, memory⟩

end Op

/-! ### Runs -/

namespace Bench

/-- Something is done to the instance, or others do something to what is shared. -/
inductive Event where
  | own (op : Op)
  | meanwhile (change : Shared → Shared)

/-- The others leave what is at a key. -/
def Event.Spares (key : String) : Event → Prop
  | own _ => True
  | meanwhile change => ∀ shared, (change shared).store[key]? = shared.store[key]?

def happen (b : Bench) : Event → Bench
  | .own op => op.apply b
  | .meanwhile change => { b with shared := change b.shared }

def through (b : Bench) (es : List Event) : Bench := es.foldl happen b

/-- A store of an instruction, with the bench before it. -/
structure Stored where
  before : Bench
  address : UInt16
  value : UInt16

def stored? (b : Bench) : Event → Option Stored
  | .own op => (op.stored? b).map fun store => ⟨b, store.1, store.2⟩
  | .meanwhile _ => none

/-- The stores of the instructions in a run, the first one first. -/
def stores (b : Bench) : List Event → List Stored
  | [] => []
  | e :: es => (b.stored? e).toList ++ (b.happen e).stores es

theorem through_concat (b : Bench) (es : List Event) (e : Event) : b.through (es ++ [e]) = (b.through es).happen e :=
  List.foldl_append

theorem stores_concat (b : Bench) (es : List Event) (e : Event) :
    b.stores (es ++ [e]) = b.stores es ++ ((b.through es).stored? e).toList := by
  induction es generalizing b with
  | nil => exact List.append_nil _
  | cons first rest ih =>
    change _ ++ (b.happen first).stores (rest ++ [e]) = _
    rw [ih, ← List.append_assoc]
    rfl

theorem board_through (b : Bench) (es : List Event) : (b.through es).cpu.board = b.cpu.board := by
  induction es generalizing b with
  | nil => rfl
  | cons e rest ih =>
    refine (ih (b.happen e)).trans ?_
    cases e with
    | own op => exact (op.apply_untouched b).1
    | meanwhile change => rfl

/-- What a peripheral holds under its key after a run can be told from the stores if each operation adds its own. -/
theorem entry_through {b : Bench} {es : List Event} {k : Peripheral} (content : List Stored → Option KeyValue.Value)
    (start : b.shared.store[k.key b.cpu.name]? = content [])
    (spared : ∀ e ∈ es, e.Spares (k.key b.cpu.name))
    (step : ∀ (c : Bench) (op : Op) (done : List Stored), c.shared.store[k.key c.cpu.name]? = content done →
      (op.apply c).shared.store[k.key c.cpu.name]? = content (done ++ (c.stored? (.own op)).toList)) :
    (b.through es).shared.store[k.key b.cpu.name]? = content (b.stores es) := by
  induction es using List.reverseRecOn with
  | nil => exact start
  | append_singleton es e ih =>
    have held := ih fun e' member => spared e' (List.mem_append_left _ member)
    rw [through_concat, stores_concat]
    cases e with
    | meanwhile change =>
      have kept := spared _ (List.mem_append_right _ List.mem_cons_self) (b.through es).shared
      exact kept.trans (held.trans (congrArg content (List.append_nil _).symm))
    | own op =>
      have name : (b.through es).cpu.name = b.cpu.name := congrArg Board.name (b.board_through es)
      have after := step (b.through es) op (b.stores es)
      rw [name] at after
      exact after held

end Bench

end Msp430
