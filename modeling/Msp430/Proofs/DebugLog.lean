import Msp430.Proofs.FlatMemory
import Msp430.Proofs.StepStore
import Msp430.Proofs.Utf8
import Msp430.Proofs.Windows

/-!
# The debug log

Whatever is stored to the length of the debug log and to the devices of an instance, in any run, the log holds the
entries of the last 101 of those stores that have succeeded, the newest one first. Each is the time and a text of at
most 100 bytes.
-/

namespace Msp430

open Access

namespace Peripheral

open KeyValue

variable {owner key : String} {io : IoMap} {entries : List Bytes}

/-! ### One entry more -/

/-- What the key of the debug log holds after these entries, the newest one first. -/
def log (entries : List Bytes) : Option Value := if entries = [] then none else some (.list (entries.take 101))

theorem items_log {s : Store} (held : s[key]? = log entries) : items key s = .ok (entries.take 101) s := by
  rw [items_apply, held]
  cases entries <;> rfl

/-- The list is cut to the indices from 0 to 100, both of them included. -/
theorem pushBounded_log {s : Store} (held : s[key]? = log entries) (item : Bytes) :
    ∃ s', pushBounded key item lastLogIndex s = .ok () s' ∧ s'[key]? = log (item :: entries) := by
  have pushed : pushFront key item s =
      .ok ((entries.take 101).length + 1) (s.insert key (.list (item :: entries.take 101))) :=
    bind_eq_ok.mpr ⟨_, s, items_log held, rfl⟩
  have there : items key (s.insert key (.list (item :: entries.take 101))) =
      .ok (item :: entries.take 101) (s.insert key (.list (item :: entries.take 101))) := by
    rw [items_apply, Std.ExtTreeMap.getElem?_insert_self]
  have short : (item :: entries.take 101).length < 2 ^ 63 := by
    have := List.length_take_le 101 entries
    rw [List.length_cons]
    omega
  have cut : slice (item :: entries.take 101) 0 lastLogIndex = (item :: entries).take 101 := by
    have last : lastLogIndex.toInt = 100 := rfl
    rw [slice_zero short, last]
    change item :: (entries.take 101).take 100 = item :: entries.take 100
    rw [List.take_take]
    rfl
  refine ⟨(s.insert key (.list (item :: entries.take 101))).insert key (.list ((item :: entries).take 101)),
    bind_eq_ok.mpr ⟨_, _, pushed, bind_eq_ok.mpr ⟨_, _, there, ?_⟩⟩, Std.ExtTreeMap.getElem?_insert_self⟩
  rw [cut]
  rfl

def stamp (clock : Nat) : Bytes := Utf8.ofString (toString clock ++ ":")

theorem appendLog_log {w : World} (held : w.store[debugLog.key owner]? = log entries) (text : Bytes) :
    ∃ s, appendLog owner text w = .ok () { w with store := s } ∧
      s[debugLog.key owner]? = log ((stamp w.clock ++ text.take 100) :: entries) := by
  obtain ⟨s, pushed, after⟩ := pushBounded_log held (stamp w.clock ++ text.take 100)
  refine ⟨s, ?_, after⟩
  change World.submit (pushBounded (debugLog.key owner) (stamp w.clock ++ text.take 100) lastLogIndex) w = _
  unfold World.submit
  rw [pushed]

/-! ### What is logged -/

def logs : Peripheral → Bool
  | debugLog | device _ => true
  | _ => false

/-- The text that a store of a value puts into the log: the bytes where the buffer word points, as many as the value
says but not more than 100, or what the device reports. -/
def message (io : IoMap) (m : Memory) (v : UInt16) : Peripheral → Bytes
  | debugLog => (List.range (min 100 v.toNat)).map fun k => m.byteAt (m.word io.debugBuffer + .ofNat k)
  | device d => Utf8.ofString (d.report v)
  | _ => []

theorem length_encode_le (cs : List Char) : (Utf8.encode cs).length ≤ 4 * cs.length := by
  induction cs with
  | nil => exact Nat.le_refl 0
  | cons c cs ih =>
    have one := c.utf8Size_le_four
    rw [Utf8.encode_cons, List.length_append, String.length_utf8EncodeChar, List.length_cons]
    omega

theorem length_report (d : Device) (v : UInt16) : (Utf8.ofString (d.report v)).length ≤ 100 := by
  have digits (n : Nat) (small : n < 10 ^ 5) : (toString n).toList.length ≤ 5 := by
    rw [Nat.toString_eq_ofList_toDigits, String.toList_ofList]
    exact (Nat.length_toDigits_le_iff (by decide) (by decide)).mpr small
  have few : (d.report v).toList.length ≤ 25 := by
    cases d with
    | lock =>
      change (if v = 0 then "LOCK ENGAGED" else "LOCK DISENGAGED").toList.length ≤ 25
      split <;> decide
    | alarm =>
      change (if v = 0 then "ALARM DISARMED" else "ALARM ARMED").toList.length ≤ 25
      split <;> decide
    | temperature =>
      have := digits v.toNat (by have := v.toNat_lt; omega)
      change ("TEMPERATURE TARGET: " ++ toString v.toNat).toList.length ≤ 25
      rw [String.toList_append, List.length_append]
      have head : "TEMPERATURE TARGET: ".toList.length = 20 := rfl
      omega
    | airflow =>
      have := digits (lowByte v).toNat (by have := (lowByte v).toNat_lt; omega)
      change ("AIRFLOW TARGET: " ++ toString (lowByte v).toNat).toList.length ≤ 25
      rw [String.toList_append, List.length_append]
      have head : "AIRFLOW TARGET: ".toList.length = 16 := rfl
      omega
  exact Nat.le_trans (length_encode_le _) (by omega)

theorem length_message (io : IoMap) (m : Memory) (v : UInt16) (p : Peripheral) : (message io m v p).length ≤ 100 := by
  cases p with
  | debugLog =>
    change ((List.range (min 100 v.toNat)).map _).length ≤ 100
    rw [List.length_map, List.length_range]
    exact Nat.min_le_left 100 v.toNat
  | device d => exact length_report d v
  | _ => exact Nat.zero_le 100

theorem uses_of_logs {p : Peripheral} : debugLog ∈ p.uses ↔ p.logs := by
  cases p <;> simp [uses, logs]

theorem take_read {m : Memory} {buffer v : UInt16} {data : Bytes} (loaded : m.loadWord io.debugBuffer = .ok buffer)
    (read : m.read buffer v = .ok data) : data.take maxLogEntry = message io m v debugLog := by
  obtain ⟨-, rfl⟩ := Memory.loadWord_eq_ok.mp loaded
  rw [Memory.read_eq_ok read, ← List.map_take, List.take_range]
  rfl

theorem onMemory_look (f : Memory → Except Fault α) (b : Backing World) :
    Backing.onMemory (.look f) b = match f b.memory with
      | .ok v => .ok v b
      | .error e => .error e b := by
  unfold Backing.onMemory focus look
  cases f b.memory <;> rfl

theorem onMemory_change (f : Memory → Except Fault Memory) (b : Backing World) :
    Backing.onMemory (.change f) b = match f b.memory with
      | .ok memory => .ok () { b with memory }
      | .error e => .error e b := by
  unfold Backing.onMemory focus change
  cases f b.memory <;> rfl

theorem onWorld_appendLog {b : Backing World} (held : b.world.store[debugLog.key owner]? = log entries) (text : Bytes) :
    ∃ c, Backing.onWorld (appendLog owner text) b = .ok () c ∧
      c.world.store[debugLog.key owner]? = log ((stamp b.world.clock ++ text.take maxLogEntry) :: entries) := by
  obtain ⟨s, appended, after⟩ := appendLog_log held text
  refine ⟨{ b with world := { b.world with store := s } }, ?_, after⟩
  unfold Backing.onWorld focus
  rw [appended]

/-- What a peripheral that logs does after its call has been counted. -/
def record (owner : String) (io : IoMap) (a v : UInt16) : Peripheral → Access (Backing World) Unit
  | debugLog => do
    let buffer ← Backing.onMemory (Bus.loadWord io.debugBuffer)
    let data ← Backing.onMemory (.look (·.read buffer v))
    Backing.onWorld (appendLog owner data)
  | device d => do
    Backing.onMemory (Bus.storeWord a v)
    Backing.onWorld (World.submit (KeyValue.set ((device d).key owner) (Utf8.ofString (toString v.toNat))))
    Backing.onWorld (appendLog owner (Utf8.ofString (d.report v)))
  | _ => pure ()

theorem handler_eq_record {p : Peripheral} (logs : p.logs) (a v : UInt16) (b : Backing World) :
    handler owner io p a v b =
      record owner io a v p { b with world := { b.world with calls := b.world.calls.bump p } } := by
  cases p with
  | input | output => cases logs
  | debugLog | device d => rfl

theorem record_logs (io : IoMap) {p : Peripheral} (logs : p.logs) {b : Backing World}
    (held : b.world.store[debugLog.key owner]? = log entries) (a v : UInt16) :
    (∃ f c, record owner io a v p b = .error f c ∧ c.world.store = b.world.store) ∨
      ∃ c, record owner io a v p b = .ok () c ∧
        c.world.store[debugLog.key owner]? = log ((stamp b.world.clock ++ message io b.memory v p) :: entries) := by
  cases p with
  | input | output => cases logs
  | debugLog =>
    have looked := onMemory_look (·.loadWord io.debugBuffer) b
    cases loaded : b.memory.loadWord io.debugBuffer with
    -- The memory is read before anything is written to the store, so that failures leave the log alone.
    | error f =>
      rw [loaded] at looked
      exact .inl ⟨f, b, bind_eq_error.mpr (.inl looked), rfl⟩
    | ok buffer =>
      rw [loaded] at looked
      have taken := onMemory_look (·.read buffer v) b
      cases read : b.memory.read buffer v with
      | error f =>
        rw [read] at taken
        exact .inl ⟨f, b, bind_eq_error.mpr (.inr ⟨_, _, looked, bind_eq_error.mpr (.inl taken)⟩), rfl⟩
      | ok data =>
        rw [read] at taken
        obtain ⟨c, appended, after⟩ := onWorld_appendLog held data
        rw [take_read loaded read] at after
        exact .inr ⟨c, bind_eq_ok.mpr ⟨_, _, looked, bind_eq_ok.mpr ⟨_, _, taken, appended⟩⟩, after⟩
  | device d =>
    have changed := onMemory_change (·.storeWord a v) b
    cases stored : b.memory.storeWord a v with
    | error f =>
      rw [stored] at changed
      exact .inl ⟨f, b, bind_eq_error.mpr (.inl changed), rfl⟩
    | ok memory =>
      rw [stored] at changed
      have apart : ¬ compare ((device d).key owner) (debugLog.key owner) = .eq := fun same =>
        nomatch key_injective (Std.LawfulEqCmp.eq_of_compare same)
      have kept : ({ b with
            memory
            world.store := b.world.store.insert ((device d).key owner)
              (.bytes (Utf8.ofString (toString v.toNat))) } : Backing World).world.store[debugLog.key owner]? =
          log entries := by
        rw [Std.ExtTreeMap.getElem?_insert, if_neg apart, held]
      obtain ⟨c, appended, after⟩ := onWorld_appendLog kept (Utf8.ofString (d.report v))
      have whole : (Utf8.ofString (d.report v)).take maxLogEntry = Utf8.ofString (d.report v) :=
        List.take_of_length_le (length_report d v)
      rw [whole] at after
      exact .inr ⟨c, bind_eq_ok.mpr ⟨_, _, changed, bind_eq_ok.mpr ⟨_, _, rfl, appended⟩⟩, after⟩

/-- Bytes that would reach past the last address cannot be logged. -/
theorem record_overrun (owner : String) {b : Backing World} {v : UInt16}
    (past : 0x10000 < (b.memory.word io.debugBuffer).toNat + v.toNat) (a : UInt16) :
    ∃ f, record owner io a v debugLog b = .error f b := by
  have looked := onMemory_look (·.loadWord io.debugBuffer) b
  rw [Memory.loadWord_eq] at looked
  cases checked : Memory.checkWord io.debugBuffer with
  | error f =>
    rw [checked] at looked
    exact ⟨f, bind_eq_error.mpr (.inl looked)⟩
  | ok u =>
    rw [checked] at looked
    have refused : b.memory.read (b.memory.word io.debugBuffer) v =
        .error (.addressTooHigh (b.memory.word io.debugBuffer)) := if_pos past
    have taken := onMemory_look (·.read (b.memory.word io.debugBuffer) v) b
    rw [refused] at taken
    exact ⟨_, bind_eq_error.mpr (.inr ⟨_, _, looked, bind_eq_error.mpr (.inl taken)⟩)⟩

end Peripheral

/-! ### Runs -/

namespace Bench

variable {b : Bench} {es : List Event}

/-- The peripheral to which the store is, if that logs. -/
def Stored.logger? (s : Stored) : Option Peripheral :=
  Peripheral.all.find? fun p => p.logs && p.address s.before.cpu.config.io = s.address

/-- The entry that the store puts into the log, if it succeeds and is to a peripheral that logs. -/
def Stored.entry? (s : Stored) : Option Bytes :=
  if s.before.machine.step.1.executed?.isSome then
    s.logger?.map fun p =>
      Peripheral.stamp s.before.shared.clock ++ p.message s.before.cpu.config.io s.before.cpu.memory s.value
  else none

/-- The entries that a run puts into the log, the newest one first. -/
def entries (b : Bench) (es : List Event) : List Bytes := ((b.stores es).filterMap Stored.entry?).reverse

theorem entries_append (done : List Stored) (s : Option Stored) :
    ((done ++ s.toList).filterMap Stored.entry?).reverse =
      (s.bind Stored.entry?).toList ++ (done.filterMap Stored.entry?).reverse := by
  rw [List.filterMap_append, List.reverse_append]
  congr 1
  cases s with
  | none => rfl
  | some s =>
    cases entry : s.entry? <;> simp [entry]

theorem logger?_eq_some {s : Stored} {p : Peripheral} :
    s.logger? = some p ↔ p.logs ∧ p.address s.before.cpu.config.io = s.address := by
  constructor
  · intro found
    simpa using List.find?_some found
  · intro logger
    have member : ∃ q ∈ Peripheral.all, q.logs && q.address s.before.cpu.config.io = s.address :=
      ⟨p, p.mem_all, by simpa using logger⟩
    obtain ⟨q, found⟩ := Option.isSome_iff_exists.mp (List.find?_isSome.mpr member)
    have same : q.address s.before.cpu.config.io = p.address s.before.cpu.config.io := by
      have at' := List.find?_some found
      simp only [Bool.and_eq_true, decide_eq_true_eq] at at'
      exact at'.2.trans logger.2.symm
    rwa [Peripheral.address_injective s.before.cpu.board.installed same] at found

theorem log_stored {op : Op} {p : Peripheral} {v : UInt16} {entries : List Bytes} (logs : p.logs)
    (held : b.shared.store[Peripheral.debugLog.key b.cpu.name]? = Peripheral.log entries)
    (stored : op.stored? b = some (p.address b.cpu.config.io, v)) :
    (op.apply b).shared.store[Peripheral.debugLog.key b.cpu.name]? =
      Peripheral.log ((Stored.entry? ⟨b, p.address b.cpu.config.io, v⟩).toList ++ entries) := by
  have logger : Stored.logger? ⟨b, p.address b.cpu.config.io, v⟩ = some p := logger?_eq_some.mpr ⟨logs, rfl⟩
  have ended := Op.apply_of_stored stored
  have counted : ({ b.machine.memory.backing with
      world.calls := b.machine.memory.backing.world.calls.bump p } : Backing World).world.store[
        Peripheral.debugLog.key b.cpu.name]? = Peripheral.log entries := held
  have logged := Peripheral.record_logs b.cpu.config.io logs counted (p.address b.cpu.config.io) v
  rw [← Peripheral.handler_eq_record logs] at logged
  unfold Stored.entry?
  rw [logger]
  rcases ended with ⟨f, c, failed, outcome, store⟩ | ⟨c, done, outcome, store, -⟩
  · rcases logged with ⟨f', c', failed', kept⟩ | ⟨c', done, -⟩
    · cases failed.symm.trans failed'
      rw [store, kept, if_neg (by rw [outcome]; nofun)]
      exact held
    · cases failed.symm.trans done
  · rcases logged with ⟨f, c', failed, -⟩ | ⟨c', done', log⟩
    · cases done.symm.trans failed
    · cases done.symm.trans done'
      rw [store, log, if_pos outcome]
      rfl

theorem log_apply {op : Op} {done : List Stored}
    (held : b.shared.store[Peripheral.debugLog.key b.cpu.name]? =
      Peripheral.log (done.filterMap Stored.entry?).reverse) :
    (op.apply b).shared.store[Peripheral.debugLog.key b.cpu.name]? =
      Peripheral.log ((done ++ (b.stored? (.own op)).toList).filterMap Stored.entry?).reverse := by
  have other : Peripheral.debugLog ≠ .input := nofun
  rw [entries_append]
  cases stored : op.stored? b with
  | none =>
    have nothing : (b.stored? (.own op)).bind Stored.entry? = none := by simp [Bench.stored?, stored]
    rw [nothing]
    refine (Op.entry_of_foreign other fun p v same => ?_).trans held
    cases stored.symm.trans same
  | some store =>
    have one : (b.stored? (.own op)).bind Stored.entry? = Stored.entry? ⟨b, store.1, store.2⟩ := by
      simp [Bench.stored?, stored]
    rw [one]
    cases logger : Stored.logger? ⟨b, store.1, store.2⟩ with
    | some p =>
      obtain ⟨logs, same⟩ := logger?_eq_some.mp logger
      have here : op.stored? b = some (p.address b.cpu.config.io, store.2) := by rw [stored, same]
      have after := log_stored logs held here
      rw [same] at after
      exact after
    | none =>
      have silent : Stored.entry? ⟨b, store.1, store.2⟩ = none := by simp [Stored.entry?, logger]
      rw [silent]
      refine (Op.entry_of_foreign other fun p v same used => ?_).trans held
      obtain ⟨address, -⟩ := Prod.mk.inj (Option.some.inj (stored.symm.trans same))
      have found : Stored.logger? ⟨b, store.1, store.2⟩ = some p :=
        logger?_eq_some.mpr ⟨Peripheral.uses_of_logs.mp used, address.symm⟩
      cases logger.symm.trans found

theorem bounded_of_mem {entry : Bytes} (member : entry ∈ b.entries es) :
    ∃ (clock : Nat) (text : Bytes), entry = Utf8.ofString (toString clock ++ ":") ++ text ∧ text.length ≤ 100 := by
  obtain ⟨s, -, found⟩ := List.mem_filterMap.mp (List.mem_reverse.mp member)
  unfold Stored.entry? at found
  split at found
  · obtain ⟨p, -, rfl⟩ := Option.map_eq_some_iff.mp found
    exact ⟨s.before.shared.clock, _, rfl, Peripheral.length_message _ _ _ p⟩
  · cases found

theorem log_overrun {op : Op} {v : UInt16}
    (stored : op.stored? b = some (b.cpu.config.io.debugLength, v))
    (past : 0x10000 < (b.cpu.memory.word b.cpu.config.io.debugBuffer).toNat + v.toNat) :
    (∃ f, b.machine.step.1 = .failed f) ∧
      (op.apply b).shared.store[Peripheral.debugLog.key b.cpu.name]? =
        b.shared.store[Peripheral.debugLog.key b.cpu.name]? := by
  have stored : op.stored? b = some (Peripheral.debugLog.address b.cpu.config.io, v) := stored
  have past : 0x10000 < (({ b.machine.memory.backing with
      world.calls := b.machine.memory.backing.world.calls.bump .debugLog } : Backing World).memory.word
        b.cpu.config.io.debugBuffer).toNat + v.toNat := past
  obtain ⟨f', failed'⟩ := Peripheral.record_overrun b.cpu.name past (Peripheral.debugLog.address b.cpu.config.io)
  rw [← Peripheral.handler_eq_record rfl] at failed'
  rcases Op.apply_of_stored stored with ⟨f, c, failed, outcome, store⟩ | ⟨c, done, -⟩
  · cases failed.symm.trans failed'
    rw [store]
    exact ⟨⟨f', outcome⟩, rfl⟩
  · cases done.symm.trans failed'

/-- In any run the log holds the entries of the last 101 successful stores to it and to the devices, the newest one
first, each a time and a text of at most 100 bytes. A store whose bytes would reach past the last address fails and
adds none. -/
theorem debug_log (absent : b.shared.store[Peripheral.debugLog.key b.cpu.name]? = none)
    (spared : ∀ e ∈ es, e.Spares (Peripheral.debugLog.key b.cpu.name)) :
    let c := b.through es
    c.shared.store[Peripheral.debugLog.key b.cpu.name]? = Peripheral.log (b.entries es) ∧
      (∀ entry ∈ b.entries es, ∃ (clock : Nat) (text : Bytes),
        entry = Utf8.ofString (toString clock ++ ":") ++ text ∧ text.length ≤ 100) ∧
      ∀ (op : Op) v, op.stored? c = some (b.cpu.config.io.debugLength, v) →
        0x10000 < (c.cpu.memory.word b.cpu.config.io.debugBuffer).toNat + v.toNat →
        (∃ f, c.machine.step.1 = .failed f) ∧
          (op.apply c).shared.store[Peripheral.debugLog.key b.cpu.name]? =
            c.shared.store[Peripheral.debugLog.key b.cpu.name]? := by
  intro c
  have held : c.shared.store[Peripheral.debugLog.key b.cpu.name]? = Peripheral.log (b.entries es) :=
    entry_through (fun done => Peripheral.log (done.filterMap Stored.entry?).reverse) absent spared
      fun _ _ _ => log_apply
  have name : b.cpu.name = c.cpu.name := congrArg Board.name (b.board_through es).symm
  have config : b.cpu.config = c.cpu.config := congrArg Board.config (b.board_through es).symm
  refine ⟨held, fun entry member => bounded_of_mem member, fun op v stored past => ?_⟩
  rw [name]
  rw [config] at stored past
  exact log_overrun stored past

/-- A program that unlocks a door, logs two bytes of itself and then tries to log more bytes than there are. -/
def doorkeeper : Bench where
  cpu :=
    { Instance.ofBoard (usualBoard "a") with
      memory := (Memory.empty.storeBytes 0x0260 [0x00, 0x44]).storeBytes 0x4400
        [0xB2, 0x40, 0x01, 0x00, 0x20, 0x02, 0xB2, 0x40, 0x02, 0x00, 0x62, 0x02, 0xB2, 0x40, 0x00, 0xFF, 0x62, 0x02]
      state := .running }
  shared := {}

def unlocking : List Event := [.own .tick, .meanwhile fun shared => { shared with clock := 7 }, .own .tick]

theorem doorkeeper_log :
    doorkeeper.shared.store[Peripheral.debugLog.key doorkeeper.cpu.name]? = none ∧
      (∀ e ∈ unlocking, e.Spares (Peripheral.debugLog.key doorkeeper.cpu.name)) ∧
      doorkeeper.entries unlocking = [[0x37, 0x3A, 0xB2, 0x40], Utf8.ofString "0:LOCK DISENGAGED"] ∧
      (doorkeeper.through unlocking).shared.store[Peripheral.debugLog.key doorkeeper.cpu.name]? =
        Peripheral.log (doorkeeper.entries unlocking) ∧
      ∃ f, (doorkeeper.through unlocking).machine.step.1 = .failed f := by
  have absent : doorkeeper.shared.store[Peripheral.debugLog.key doorkeeper.cpu.name]? = none := rfl
  have spared : ∀ e ∈ unlocking, e.Spares (Peripheral.debugLog.key doorkeeper.cpu.name) := by
    rintro e (_ | ⟨_, _ | ⟨_, _ | ⟨_, ⟨⟩⟩⟩⟩)
    · trivial
    · exact fun _ => rfl
    · trivial
  have stored : Op.tick.stored? (doorkeeper.through unlocking) = some (0x0262, 0xFF00) := by decide +kernel
  obtain ⟨log, -, overrun⟩ := debug_log absent spared
  exact ⟨absent, spared, by decide +kernel, log, (overrun .tick _ stored (by decide +kernel)).1⟩

end Bench

end Msp430
