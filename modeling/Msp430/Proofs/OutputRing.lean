import Msp430.Proofs.StepStore
import Msp430.Proofs.Windows

/-!
# The output ring

Whatever is stored to the output of an instance, by instructions of any shape and in any run, its key holds the low
bytes of the newest 400 values, and neither the memory nor the console shows anything of it.
-/

namespace Msp430

open Access

/-! ### The newest elements -/

def newest (n : Nat) (xs : List α) : List α := xs.drop (xs.length - n)

theorem length_newest (n : Nat) (xs : List α) : (newest n xs).length = min n xs.length := by
  unfold newest
  rw [List.length_drop]
  omega

theorem newest_concat (n : Nat) (xs : List α) (x : α) :
    newest (n + 1) (xs ++ [x]) = newest n (newest (n + 1) xs) ++ [x] := by
  have same : xs.length + 1 - (n + 1) = xs.length - (n + 1) + (min (n + 1) xs.length - n) := by omega
  unfold newest
  rw [List.length_drop, List.drop_drop, List.length_append, List.length_singleton,
    List.drop_append_of_le_length (by omega)]
  congr 2
  omega

namespace Peripheral

variable {owner key : String} {vs : List UInt16}

/-! ### One byte more -/

/-- What the key of the output holds after stores of these values, the oldest first. -/
def ring (vs : List UInt16) : Option KeyValue.Value :=
  if vs = [] then none else some (.bytes (newest 400 (vs.map lowByte)))

theorem ring_concat (vs : List UInt16) (v : UInt16) :
    ring (vs ++ [v]) = some (.bytes (newest 399 (newest 400 (vs.map lowByte)) ++ [lowByte v])) := by
  have some : ring (vs ++ [v]) = some (.bytes (newest (399 + 1) ((vs ++ [v]).map lowByte))) :=
    if_neg (List.append_ne_nil_of_right_ne_nil vs (List.cons_ne_nil v []))
  rw [some, List.map_append, List.map_singleton, newest_concat]

/-- The bytes that are there are cut to 399, so that with one more there are never more than 400. -/
theorem getRange_ring {s : KeyValue.Store} (held : s[key]? = ring vs) :
    KeyValue.getRange key (-399) 400 s = .ok (newest 399 (newest 400 (vs.map lowByte))) s := by
  have found : KeyValue.get key s = .ok (if vs = [] then none else some (newest 400 (vs.map lowByte))) s := by
    rw [KeyValue.get_apply, held]
    by_cases none : vs = []
    · rw [ring, if_pos none, if_pos none]
    · rw [ring, if_neg none, if_neg none]
  have content : (if vs = [] then none else some (newest 400 (vs.map lowByte))).getD [] =
      newest 400 (vs.map lowByte) := by
    split
    next none =>
      rw [none]
      exact List.drop_nil.symm
    next => exact Option.getD_some
  have short : (newest 400 (vs.map lowByte)).length ≤ 400 := by
    rw [length_newest]
    omega
  have last : (400 : Int64).toInt = 400 := rfl
  refine bind_eq_ok.mpr ⟨_, s, found, ?_⟩
  rw [content, KeyValue.slice_back (by omega) (by decide) (by decide) (by rw [last]; omega)]
  rfl

theorem appendOutput_ring {s : KeyValue.Store} (held : s[key]? = ring vs) (v : UInt16) :
    ∃ s', appendOutput key (lowByte v) s = .ok () s' ∧ s'[key]? = ring (vs ++ [v]) := by
  refine ⟨_, bind_eq_ok.mpr ⟨_, s, getRange_ring held, rfl⟩, ?_⟩
  rw [ring_concat]
  exact Std.ExtTreeMap.getElem?_insert_self

/-- A store to the output always succeeds and leaves the memory as it is. -/
theorem onOutput_ring {b : Backing World} (held : b.world.store[output.key owner]? = ring vs) (a v : UInt16) :
    ∃ c, onOutput owner a v b = .ok () c ∧ c.memory = b.memory ∧
      c.world.store[output.key owner]? = ring (vs ++ [v]) := by
  obtain ⟨s, appended, after⟩ := appendOutput_ring held v
  have counted : Backing.onWorld (World.recordCall output) b =
      .ok () { b with world := { b.world with calls := b.world.calls.bump output } } := rfl
  refine ⟨{ b with world := { b.world with calls := b.world.calls.bump output, store := s } },
    bind_eq_ok.mpr ⟨(), _, counted, ?_⟩, rfl, after⟩
  unfold Backing.onWorld focus World.submit
  rw [appended]

theorem eq_output_of_uses {p : Peripheral} (used : output ∈ p.uses) : p = output := by
  cases p with
  | device d => simp [uses] at used
  | output => rfl
  | _ => cases List.mem_singleton.mp used

end Peripheral

/-! ### Runs -/

namespace Bench

variable {b : Bench} {es : List Event}

/-- The value, if the store is to the output. -/
def Stored.output? (s : Stored) : Option UInt16 :=
  if s.address = s.before.cpu.config.io.output then some s.value else none

/-- The values that are stored to the output in a run, the first one first. -/
def outputs (b : Bench) (es : List Event) : List UInt16 := (b.stores es).filterMap Stored.output?

theorem output_stored {op : Op} {v : UInt16} {vs : List UInt16}
    (held : b.shared.store[Peripheral.output.key b.cpu.name]? = Peripheral.ring vs)
    (stored : op.stored? b = some (b.cpu.config.io.output, v)) :
    b.machine.step.1.executed?.isSome ∧ (op.apply b).cpu.memory = b.cpu.memory ∧
      (op.apply b).shared.store[Peripheral.output.key b.cpu.name]? = Peripheral.ring (vs ++ [v]) := by
  have held : b.machine.memory.backing.world.store[Peripheral.output.key b.cpu.name]? = Peripheral.ring vs := held
  obtain ⟨d, written, kept, ring⟩ := Peripheral.onOutput_ring held b.cpu.config.io.output v
  rcases Op.apply_of_stored (p := .output) stored with ⟨f, c, failed, -⟩ | ⟨c, done, outcome, store, memory⟩
  · cases failed.symm.trans written
  · cases done.symm.trans written
    exact ⟨outcome, memory.trans kept, by rw [store, ring]⟩

theorem output_kept {op : Op} (elsewhere : ∀ v, op.stored? b ≠ some (b.cpu.config.io.output, v)) :
    (op.apply b).shared.store[Peripheral.output.key b.cpu.name]? =
      b.shared.store[Peripheral.output.key b.cpu.name]? := by
  refine Op.entry_of_foreign nofun fun p v stored used => ?_
  obtain rfl := Peripheral.eq_output_of_uses used
  exact elsewhere v stored

theorem ring_apply {op : Op} {done : List Stored}
    (held : b.shared.store[Peripheral.output.key b.cpu.name]? = Peripheral.ring (done.filterMap Stored.output?)) :
    (op.apply b).shared.store[Peripheral.output.key b.cpu.name]? =
      Peripheral.ring ((done ++ (b.stored? (.own op)).toList).filterMap Stored.output?) := by
  rw [List.filterMap_append]
  by_cases printed : ∃ v, op.stored? b = some (b.cpu.config.io.output, v)
  · obtain ⟨v, stored⟩ := printed
    have one : (b.stored? (.own op)).toList.filterMap Stored.output? = [v] := by
      simp [Bench.stored?, stored, Stored.output?]
    rw [one]
    exact (output_stored held stored).2.2
  · have elsewhere : ∀ v, op.stored? b ≠ some (b.cpu.config.io.output, v) := fun v stored => printed ⟨v, stored⟩
    have none : (b.stored? (.own op)).toList.filterMap Stored.output? = [] := by
      cases stored : op.stored? b with
      | none => simp [Bench.stored?, stored]
      | some store =>
        have other : store.1 ≠ b.cpu.config.io.output := fun same => elsewhere store.2 (same ▸ stored)
        simp [Bench.stored?, stored, Stored.output?, other]
    rw [none, List.append_nil]
    exact (output_kept elsewhere).trans held

/-- In any run all stores to the output succeed, the output holds the newest 400 bytes in order, and neither the memory
nor the console takes part. -/
theorem output_ring (absent : b.shared.store[Peripheral.output.key b.cpu.name]? = none)
    (spared : ∀ e ∈ es, e.Spares (Peripheral.output.key b.cpu.name)) :
    let c := b.through es
    c.shared.store[Peripheral.output.key b.cpu.name]? = Peripheral.ring (b.outputs es) ∧
      ∀ (op : Op) v, op.stored? c = some (b.cpu.config.io.output, v) →
        c.machine.step.1.executed?.isSome ∧ (op.apply c).cpu.memory = c.cpu.memory := by
  intro c
  have held : c.shared.store[Peripheral.output.key b.cpu.name]? = Peripheral.ring (b.outputs es) :=
    entry_through (fun done => Peripheral.ring (done.filterMap Stored.output?)) absent spared fun _ _ _ => ring_apply
  refine ⟨held, fun op v stored => ?_⟩
  have name : b.cpu.name = c.cpu.name := congrArg Board.name (b.board_through es).symm
  have config : b.cpu.config = c.cpu.config := congrArg Board.config (b.board_through es).symm
  rw [name] at held
  rw [config] at stored
  obtain ⟨outcome, memory, -⟩ := output_stored held stored
  exact ⟨outcome, memory⟩

/-- A program that prints a byte and then a word. -/
def printer : Bench where
  cpu :=
    { Instance.ofBoard (usualBoard "a") with
      memory := Memory.empty.storeBytes 0x4400 [0xF2, 0x40, 0x41, 0x00, 0xCE, 0x05, 0xB2, 0x40, 0x34, 0x12, 0xCE, 0x05]
      state := .running }
  shared := {}

def printing : List Event :=
  [.own .tick, .meanwhile fun shared => { shared with clock := 7 }, .own (.post [0x43]), .own (.serve .step)]

theorem printer_ring :
    printer.shared.store[Peripheral.output.key printer.cpu.name]? = none ∧
      (∀ e ∈ printing, e.Spares (Peripheral.output.key printer.cpu.name)) ∧
      printer.outputs printing = [0x41, 0x1234] ∧
      (printer.through printing).shared.store[Peripheral.output.key printer.cpu.name]? =
        Peripheral.ring (printer.outputs printing) := by
  have absent : printer.shared.store[Peripheral.output.key printer.cpu.name]? = none := rfl
  have spared : ∀ e ∈ printing, e.Spares (Peripheral.output.key printer.cpu.name) := by
    rintro e (_ | ⟨_, _ | ⟨_, _ | ⟨_, _ | ⟨_, ⟨⟩⟩⟩⟩⟩)
    · trivial
    · exact fun _ => rfl
    · trivial
    · trivial
  exact ⟨absent, spared, by decide +kernel, (output_ring absent spared).1⟩

end Bench

end Msp430
