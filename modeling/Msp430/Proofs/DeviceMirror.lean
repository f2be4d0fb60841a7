import Msp430.Proofs.DebugLog
import Msp430.Proofs.FlatMemory
import Msp430.Proofs.PostedInput
import Msp430.Proofs.Unhooked

/-!
# Devices and their keys

A store to the address of a device puts one value into memory and, in decimal, under the key of the device. The key
changes in no other way. The memory does: a device answers to one address only, so that stores to the odd half of
the word and input that is delivered over it go past the device.
-/

namespace Msp430

open Access

/-! ### Words in memory -/

namespace Memory

variable {m : Memory} {a d x : UInt16}

theorem keeps_word_store (w : Width) (v : UInt16) (aligned : checkWord d = .ok ()) (apart : a ≠ d)
    (half : a ≠ d + 1) : Keeps (fun m : Memory => m.word d = x) (Bus.store w a v) := by
  intro m held
  rw [store_apply]
  cases written : check w a with
  | ok u => exact (word_write v written aligned apart half).trans held
  | error f => exact held

theorem keeps_word_storeBytes {bs : Bytes} (aligned : checkWord d = .ok ())
    (clear : ∀ k < bs.length, a + .ofNat k ≠ d ∧ a + .ofNat k ≠ d + 1) :
    Keeps (fun m : Memory => m.word d = x) (Bus.storeBytes a bs) := by
  induction bs generalizing a with
  | nil => exact keeps_pure ()
  | cons b rest ih =>
    have first : a ≠ d ∧ a ≠ d + 1 := by simpa using clear 0 (Nat.succ_pos _)
    refine keeps_bind ?_ fun _ => ih fun k inside => ?_
    · have stored := keeps_word_store (x := x) .byte b.toUInt16 aligned first.1 first.2
      have same : lowByte b.toUInt16 = b := by simp [lowByte]
      change Keeps _ (Bus.storeByte a (lowByte b.toUInt16)) at stored
      rwa [same] at stored
    · have next : a + 1 + UInt16.ofNat k = a + .ofNat (k + 1) := by
        rw [UInt16.ofNat_add, UInt16.add_assoc, UInt16.add_comm 1]
        rfl
      rw [next]
      exact clear (k + 1) (Nat.succ_lt_succ inside)

end Memory

namespace Backing

variable {σ : Type} {I : Memory → Prop}

theorem keeps_memory_onMemory {x : Access Memory α} (h : Keeps I x) :
    Keeps (fun b : Backing σ => I b.memory) (onMemory x) :=
  keeps_focus h (fun _ h => h) fun _ _ _ h => h

theorem keeps_memory_onWorld (x : Access σ α) : Keeps (fun b : Backing σ => I b.memory) (onWorld x) :=
  keeps_focus (J := fun _ => True) (fun _ _ => trivial) (fun _ _ => trivial) fun _ _ h _ => h

end Backing

/-! ### Peripherals -/

/-- The address of a device in the usual map. -/
def Device.register (d : Device) : UInt16 := d.address {}

namespace Peripheral

open Backing World

variable {owner : String} {io : IoMap} {a x : UInt16} {d : Device} {b : Backing World}

theorem checkWord_register (d : Device) : Memory.checkWord d.register = .ok () := by cases d <;> rfl

theorem isConsole_register (d : Device) : Memory.isConsole d.register = false := by cases d <;> rfl

theorem address_ne_half (p : Peripheral) (d : Device) : p.address {} ≠ d.register + 1 := by
  cases p with
  | device e => cases e <;> cases d <;> decide
  | _ => cases d <;> decide

/-- The bytes that the input device takes when at most so many are asked for. -/
def delivered (owner : String) (max : UInt16) (w : World) : Bytes := ((waiting? owner w).getD []).take max.toNat

theorem enterInput_store {w w' : World} (entered : enterInput w = .ok () w') : w'.store = w.store := by
  obtain ⟨store, clock, calls, awaiting⟩ := w
  cases awaiting <;> cases entered <;> rfl

theorem onWorld_eq_ok {x : Access World α} {v : α} {c : Backing World} (done : onWorld x b = .ok v c) :
    x b.world = .ok v c.world ∧ c.memory = b.memory := by
  unfold onWorld focus at done
  cases answer : x b.world <;> rw [answer] at done <;> cases done
  exact ⟨rfl, rfl⟩

theorem word_of_loaded {c : Backing World} {v : UInt16} (done : onMemory (Bus.loadWord a) b = .ok v c) :
    v = b.memory.word a ∧ c = b := by
  have looked := onMemory_look (·.loadWord a) b
  rw [Memory.loadWord_eq] at looked
  cases checked : Memory.checkWord a <;> rw [checked] at looked <;> cases looked.symm.trans done
  exact ⟨rfl, rfl⟩

theorem waiting?_of_taken {world world' : World} {raw : Bytes} (taken : awaitInput owner world = .ok raw world') :
    waiting? owner world = some raw := by
  have answered := (poll_spec owner world).1
  unfold InputJob.answer? at answered
  rw [taken] at answered
  exact answered.symm

/-- The input device leaves a word alone unless it is stored to there or delivers bytes there. -/
theorem onInput_keeps_word {w max : UInt16} (aligned : Memory.checkWord w = .ok ()) (apart : a ≠ w)
    (half : a ≠ w + 1)
    (clear : ∀ k < (delivered owner max b.world).length,
      b.memory.word io.inputBuffer + .ofNat k ≠ w ∧ b.memory.word io.inputBuffer + .ofNat k ≠ w + 1) :
    (endState (onInput owner io a max b)).memory.word w = b.memory.word w := by
  let M (m : Memory) : Prop := m.word w = b.memory.word w
  let I (c : Backing World) : Prop := M c.memory
  have world {β : Type} (x : Access World β) : Keeps I (onWorld x) := keeps_memory_onWorld (I := M) x
  have load : Keeps I (onMemory (Bus.loadWord io.inputBuffer)) := keeps_memory_onMemory (I := M) (keeps_look _)
  refine ends_bind (I := I) (world enterInput b rfl) fun _ c entered => ?_
  obtain ⟨entered, same⟩ := onWorld_eq_ok entered
  have held : I c := congrArg (Memory.word · w) same
  refine ends_bind (I := I) (load c held) fun buffer c' loaded => ?_
  obtain ⟨rfl, rfl⟩ := word_of_loaded loaded
  refine ends_bind (I := I) (world (awaitInput owner) c' held) fun raw c'' taken => ?_
  obtain ⟨taken, same'⟩ := onWorld_eq_ok taken
  have waits : waiting? owner b.world = some raw := by
    rw [← waiting?_of_taken taken]
    unfold waiting?
    rw [enterInput_store entered]
  have delivers : delivered owner max b.world = raw.take max.toNat := by
    unfold delivered
    rw [waits]
    rfl
  rw [delivers] at clear
  rw [same]
  have bytes : Keeps I (onMemory (Bus.storeBytes (b.memory.word io.inputBuffer) (raw.take max.toNat))) :=
    keeps_memory_onMemory (I := M) (Memory.keeps_word_storeBytes aligned clear)
  have length : Keeps I (onMemory (Bus.storeWord a (.ofNat (raw.take max.toNat).length))) :=
    keeps_memory_onMemory (I := M) (Memory.keeps_word_store .word _ aligned apart half)
  exact keeps_bind bytes (fun _ => length) c'' (congrArg (Memory.word · w) (same'.trans same))

/-- A peripheral leaves a device alone unless it is the device or the input device, which may deliver bytes there. -/
theorem handler_keeps_word {p : Peripheral} {v : UInt16} (apart : p.address {} ≠ d.register)
    (clear : p = input → ∀ k < (delivered owner v b.world).length,
      b.memory.word ({} : IoMap).inputBuffer + .ofNat k ≠ d.register ∧
        b.memory.word ({} : IoMap).inputBuffer + .ofNat k ≠ d.register + 1) :
    (endState (handler owner {} p (p.address {}) v b)).memory.word d.register = b.memory.word d.register := by
  let M (m : Memory) : Prop := m.word d.register = b.memory.word d.register
  let I (c : Backing World) : Prop := M c.memory
  have world {β : Type} (x : Access World β) : Keeps I (onWorld x) := keeps_memory_onWorld (I := M) x
  have look {β : Type} (f : Memory → Except Fault β) : Keeps I (onMemory (.look f)) :=
    keeps_memory_onMemory (I := M) (keeps_look f)
  cases p with
  | input => exact onInput_keeps_word (checkWord_register d) apart (address_ne_half input d) (clear rfl)
  | output => exact keeps_bind (world _) (fun _ => world _) b rfl
  | debugLog =>
    have logs : Keeps I (onDebugLog owner {} (debugLog.address {}) v) :=
      keeps_bind (world _) fun _ => keeps_bind (look _) fun _ => keeps_bind (look _) fun _ => world _
    exact logs b rfl
  | device e =>
    have store : Keeps I (onMemory (Bus.storeWord ((device e).address {}) v)) := keeps_memory_onMemory (I := M)
      (Memory.keeps_word_store .word v (checkWord_register d) apart (address_ne_half (device e) d))
    exact keeps_bind (world _) (fun _ => keeps_bind store fun _ => keeps_bind (world _) fun _ => world _) b rfl

/-- The text under the key of a device to which the value has been stored. -/
def decimal (v : UInt16) : KeyValue.Value := .bytes (Utf8.ofString (toString v.toNat))

theorem appendLog_keeps_entry {key : String} (apart : debugLog.key owner ≠ key) (entry : Option KeyValue.Value)
    (text : Bytes) : Keeps (fun w : World => w.store[key]? = entry) (appendLog owner text) := by
  intro w held
  have own : KeyValue.Respects (debugLog.key owner) (KeyValue.Fixed key entry) := KeyValue.fixed_respects apart
  exact (appendLog_simulates own text w w ⟨rfl, rfl, rfl, rfl, held⟩).endState.store.2

/-- A store to a device puts the value both into memory and under the key, even if it cannot be logged. -/
theorem onDevice_mirrors (owner : String) (d : Device) (v : UInt16) (b : Backing World) :
    (endState (onDevice owner d d.register v b)).memory.word d.register = v ∧
      (endState (onDevice owner d d.register v b)).world.store[(device d).key owner]? = some (decimal v) := by
  let report := Utf8.ofString (d.report v)
  let counted : Backing World := { b with world.calls := b.world.calls.bump (device d) }
  let kept : Backing World := { counted with memory := b.memory.write .word d.register v }
  let shown : Backing World :=
    { kept with world.store := b.world.store.insert ((device d).key owner) (decimal v) }
  have allowed : Memory.check .word d.register = .ok () := checkWord_register d
  have stored : onMemory (Bus.storeWord d.register v) counted = .ok () kept := by
    have written : Bus.storeWord d.register v b.memory = .ok () kept.memory := by
      have written := Memory.store_apply .word b.memory d.register v
      rwa [allowed] at written
    unfold onMemory focus
    rw [written]
  have count : onWorld (recordCall (device d)) b = .ok () counted := rfl
  have put : onWorld (submit (KeyValue.set ((device d).key owner) (Utf8.ofString (toString v.toNat)))) kept =
      .ok () shown := rfl
  have logs : onDevice owner d d.register v b = onWorld (appendLog owner report) shown :=
    (bind_of_ok count).trans ((bind_of_ok stored).trans (bind_of_ok put))
  have apart : debugLog.key owner ≠ (device d).key owner := fun same => nomatch key_injective same
  rw [logs]
  constructor
  · have memory := keeps_memory_onWorld (I := (· = kept.memory)) (appendLog owner report) shown rfl
    rw [memory]
    exact Memory.word_write_self b.memory v (isConsole_register d)
  · exact keeps_onWorld (appendLog_keeps_entry apart (some (decimal v)) report) shown
      Std.ExtTreeMap.getElem?_insert_self

theorem eq_device_of_uses {p : Peripheral} (used : device d ∈ p.uses) : p = device d := by
  cases p with
  | device e => simpa [uses, eq_comm] using used
  | _ => cases List.mem_singleton.mp used

end Peripheral

/-! ### Operations -/

theorem Hooked.loadWord_look {m : Hooked World} {a : UInt16} (unread : m.hooks.read a = none) :
    Bus.loadWord a m = match m.backing.memory.loadWord a with
      | .ok v => .ok v m
      | .error f => .error f m := by
  rw [loadWord_unbound unread]
  change direct (.look (·.loadWord a)) m = _
  simp only [direct, onBacking, Backing.onMemory, focus, look]
  cases m.backing.memory.loadWord a <;> rfl

theorem Hooked.backing_onBacking (x : Access (Backing World) α) (m : Hooked World) :
    (endState (onBacking x m)).backing = endState (x m.backing) := by
  unfold onBacking focus
  cases x m.backing <;> rfl

namespace Bench

variable {b : Bench} {es : List Event} {d : Device}

/-- What a load of the word at an address returns. -/
def load (b : Bench) (a : UInt16) : Except Fault UInt16 :=
  match Bus.loadWord a b.machine.memory with
  | .ok v _ => .ok v
  | .error f _ => .error f

theorem load_eq (b : Bench) (a : UInt16) : b.load a = b.cpu.memory.loadWord a := by
  have memory : b.machine.memory.backing.memory = b.cpu.memory := rfl
  unfold load
  rw [Hooked.loadWord_look (Op.unread b a), memory]
  cases b.cpu.memory.loadWord a <;> rfl

/-- The addresses at which the input device puts bytes, if the store is to it. -/
def Stored.delivery (s : Stored) : List UInt16 :=
  if s.address = Peripheral.input.address {} then
    (List.range (Peripheral.delivered s.before.cpu.name s.value s.before.machine.memory.backing.world).length).map
      fun k => s.before.cpu.memory.word ({} : IoMap).inputBuffer + .ofNat k
  else []

/-- The store writes over a device but goes past it: to the odd half of the word, or by way of the input device. -/
def Stored.Bypasses (d : Device) (s : Stored) : Prop :=
  s.address = d.register + 1 ∨ ∃ a ∈ s.delivery, a = d.register ∨ a = d.register + 1

theorem step_keeps_word (usual : b.cpu.config.io = {})
    (elsewhere : ∀ a v, b.machine.stored? = some (a, v) → a ≠ d.register ∧ ¬ Stored.Bypasses d ⟨b, a, v⟩) :
    b.machine.step.2.memory.backing.memory.word d.register = b.cpu.memory.word d.register := by
  rcases Machine.step_cases (Op.unread b) with ⟨-, same⟩ | ⟨w, a, v, stored, memory, -⟩
  · rw [same]
    rfl
  obtain ⟨apart, past⟩ := elsewhere a (w.trim v) stored
  rw [memory, Hooked.make_store]
  cases bound : b.machine.memory.hooks.write a with
  | none =>
    have behind : (endState (Hooked.direct (Bus.store w a v) b.machine.memory)).backing.memory =
        endState (Bus.store w a v b.cpu.memory) :=
      (Hooked.direct_matches (Bus.store w a v) b.machine.memory).endState
    change (endState (Hooked.direct (Bus.store w a v) b.machine.memory)).backing.memory.word d.register = _
    rw [behind]
    exact Memory.keeps_word_store w v (Peripheral.checkWord_register d) apart (fun half => past (.inl half)) _ rfl
  | some hook =>
    obtain ⟨p, same, rfl⟩ := Peripheral.install_bound b.cpu.board.installed bound
    have map : b.cpu.board.config.io = {} := usual
    rw [map] at same ⊢
    subst same
    change (endState (Hooked.onBacking _ b.machine.memory)).backing.memory.word d.register = _
    rw [Hooked.backing_onBacking]
    refine Peripheral.handler_keeps_word apart fun input k inside => ?_
    subst input
    have member : b.cpu.memory.word ({} : IoMap).inputBuffer + .ofNat k ∈
        Stored.delivery ⟨b, Peripheral.input.address {}, w.trim v⟩ := by
      unfold Stored.delivery
      rw [if_pos rfl]
      exact List.mem_map.mpr ⟨k, List.mem_range.mpr inside, rfl⟩
    exact ⟨fun low => past (.inr ⟨_, member, .inl low⟩), fun high => past (.inr ⟨_, member, .inr high⟩)⟩

end Bench

namespace Op

variable {b : Bench} {op : Op} {d : Device} {v : UInt16}

/-- What neither executes an instruction nor loads an image leaves the memory alone. -/
theorem memory_apply_plain (plain : ¬ op.executes b) (loadless : op.imageKey? b.cpu = none) :
    (op.apply b).cpu.memory = b.cpu.memory := by
  cases op with
  | tick =>
    have stop : b.breakpoint? = some .stop := by simpa [executes] using plain
    change b.tick.cpu.memory = _
    rw [Bench.tick_stop stop, Bench.cpu_setState]
  | step => exact absurd rfl plain
  | post content => rfl
  | serve r =>
    have kept : Keeps (fun c : Bench => c.cpu.memory = b.cpu.memory) r.serve := by
      refine Request.serve_keeps (fun c s _ held => ?_) (fun c values held => ?_) (fun _ _ _ held => held) ?_ ?_ ?_
      · rw [Bench.cpu_setState]
        exact held
      · unfold Bench.setRegisters
        exact held
      · rintro key rfl
        cases loadless
      · rintro rfl
        cases loadless
      · rintro (rfl | rfl) <;> exact absurd rfl plain
    exact kept b rfl

theorem word_apply (usual : b.cpu.config.io = {}) (loadless : op.imageKey? b.cpu = none)
    (elsewhere : ∀ s, b.stored? (.own op) = some s → s.address ≠ d.register ∧ ¬ s.Bypasses d) :
    (op.apply b).cpu.memory.word d.register = b.cpu.memory.word d.register := by
  by_cases executes : op.executes b
  · by_cases waits : b.machine.step.1 = .failed .awaitingInput
    · rw [cpu_apply_waits executes waits]
    · have memory := congrArg (·.memory.backing.memory) (machine_apply executes waits)
      refine (congrArg (Memory.word · d.register) memory).trans (Bench.step_keeps_word usual fun a v stored => ?_)
      have stored : op.stored? b = some (a, v) := stored?_eq_some.mpr ⟨executes, stored⟩
      exact elsewhere ⟨b, a, v⟩ (by simp [Bench.stored?, stored])
  · rw [memory_apply_plain executes loadless]

/-- An instruction that stores to a device leaves the value in memory and under the key. -/
theorem device_apply (usual : b.cpu.config.io = {}) (stored : op.stored? b = some (d.register, v)) :
    (op.apply b).cpu.memory.word d.register = v ∧
      (op.apply b).shared.store[(Peripheral.device d).key b.cpu.name]? = some (Peripheral.decimal v) := by
  obtain ⟨executes, stored⟩ := stored?_eq_some.mp stored
  have bound : b.machine.memory.hooks.write d.register = some (Peripheral.handler b.cpu.name {} (.device d)) := by
    have bound := Peripheral.install_binds b.cpu.board.installed (.device d)
    have map : b.cpu.board.config.io = {} := usual
    rwa [map] at bound
  obtain ⟨backing, ends⟩ := Machine.step_of_hooked (unread b) stored bound
  have goes : b.machine.step.1 ≠ .failed .awaitingInput := by
    intro waits
    have device : Peripheral.device d ≠ .input := nofun
    have quiet : Access.waits (Peripheral.handler b.cpu.name {} (.device d) d.register v b.machine.memory.backing) =
        false := (Peripheral.quiet_handler device d.register v b.machine.memory.backing).1
    rcases ends with ⟨f, c, failed, outcome⟩ | ⟨c, -, outcome⟩
    · cases waits.symm.trans outcome
      rw [failed] at quiet
      cases quiet
    · rw [waits] at outcome
      cases outcome
  obtain ⟨word, text⟩ := Peripheral.onDevice_mirrors b.cpu.name d v b.machine.memory.backing
  have memory : (op.apply b).cpu.memory = _ :=
    congrArg Backing.memory ((congrArg (·.memory.backing) (machine_apply executes goes)).trans backing)
  have store := (store_apply executes).trans (congrArg (·.world.store) backing)
  rw [memory, store]
  exact ⟨word, text⟩

end Op

/-! ### Runs -/

namespace Bench

variable {b c : Bench} {es : List Event} {d : Device} {done : List Stored}

/-- How a device stands when instructions have made these stores, the first one first. -/
inductive Mirrors (c : Bench) (d : Device) (done : List Stored) : Prop
  /-- Without a store to the device there is nothing under its key. -/
  | unset (never : ∀ s ∈ done, s.address ≠ d.register)
      (absent : c.shared.store[(Peripheral.device d).key c.cpu.name]? = none)
  /-- The key tells the value of the last store to the device, and memory holds that value too unless it has been
  written over past the device. -/
  | set (before : List Stored) (s : Stored) (after : List Stored) (split : done = before ++ s :: after)
      (stored : s.address = d.register) (last : ∀ t ∈ after, t.address ≠ d.register)
      (text : c.shared.store[(Peripheral.device d).key c.cpu.name]? = some (Peripheral.decimal s.value))
      (word : (∀ t ∈ after, ¬ t.Bypasses d) → c.load d.register = .ok s.value)

theorem load_register (b : Bench) (d : Device) : b.load d.register = .ok (b.cpu.memory.word d.register) := by
  rw [load_eq, Memory.loadWord_eq, Peripheral.checkWord_register]
  rfl

theorem mirrors_stored {op : Op} (usual : c.cpu.config.io = {}) {v : UInt16}
    (stored : op.stored? c = some (d.register, v)) :
    (op.apply c).Mirrors d (done ++ [⟨c, d.register, v⟩]) := by
  obtain ⟨word, text⟩ := Op.device_apply usual stored
  have name : (op.apply c).cpu.name = c.cpu.name := congrArg Board.name (op.apply_untouched c).1
  refine .set done ⟨c, d.register, v⟩ [] rfl rfl (List.forall_mem_nil _) ?_ fun _ => ?_
  · rw [name, text]
  · rw [load_register, word]

theorem Mirrors.elsewhere {op : Op} (mirrors : c.Mirrors d done) (usual : c.cpu.config.io = {})
    (loadless : op.imageKey? c.cpu = none) (apart : ∀ v, op.stored? c ≠ some (d.register, v)) :
    (op.apply c).Mirrors d (done ++ (c.stored? (.own op)).toList) := by
  have name : (op.apply c).cpu.name = c.cpu.name := congrArg Board.name (op.apply_untouched c).1
  have kept : (op.apply c).shared.store[(Peripheral.device d).key (op.apply c).cpu.name]? =
      c.shared.store[(Peripheral.device d).key c.cpu.name]? := by
    rw [name]
    refine Op.entry_of_foreign nofun fun p v stored used => ?_
    obtain rfl := Peripheral.eq_device_of_uses used
    rw [usual] at stored
    exact apart v stored
  have away : ∀ s ∈ (c.stored? (.own op)).toList, s.address ≠ d.register := by
    intro s member same
    have found : (op.stored? c).map (fun store => Stored.mk c store.1 store.2) = some s := Option.mem_toList.mp member
    obtain ⟨store, stored, rfl⟩ := Option.map_eq_some_iff.mp found
    exact apart store.2 (stored.trans (congrArg (fun a => some (a, store.2)) same))
  cases mirrors with
  | unset never absent => exact .unset (List.forall_mem_append.mpr ⟨never, away⟩) (kept.trans absent)
  | set before s after split stored last text word =>
    refine .set before s (after ++ (c.stored? (.own op)).toList) ?_ stored (List.forall_mem_append.mpr ⟨last, away⟩)
      (kept.trans text) fun clear => ?_
    · rw [split, List.append_assoc, List.cons_append]
    · obtain ⟨clear, here⟩ := List.forall_mem_append.mp clear
      have same := Op.word_apply (d := d) usual loadless fun t stored =>
        ⟨away t (Option.mem_toList.mpr stored), here t (Option.mem_toList.mpr stored)⟩
      rw [load_register, same, ← load_register]
      exact word clear

theorem Mirrors.own (mirrors : c.Mirrors d done) (op : Op) (usual : c.cpu.config.io = {})
    (loadless : op.imageKey? c.cpu = none) : (op.apply c).Mirrors d (done ++ (c.stored? (.own op)).toList) := by
  by_cases here : ∃ v, op.stored? c = some (d.register, v)
  · obtain ⟨v, stored⟩ := here
    have one : (c.stored? (.own op)).toList = [⟨c, d.register, v⟩] := by simp [Bench.stored?, stored]
    rw [one]
    exact mirrors_stored usual stored
  · exact mirrors.elsewhere usual loadless fun v stored => here ⟨v, stored⟩

theorem Mirrors.meanwhile (mirrors : c.Mirrors d done) {change : Shared → Shared}
    (spared : (Event.meanwhile change).Spares ((Peripheral.device d).key c.cpu.name)) :
    Mirrors { c with shared := change c.shared } d done := by
  have kept := spared c.shared
  cases mirrors with
  | unset never absent => exact .unset never (kept.trans absent)
  | set before s after split stored last text word =>
    refine .set before s after split stored last (kept.trans text) fun clear => ?_
    rw [load_register]
    exact (c.load_register d).symm.trans (word clear)

end Bench

end Msp430
