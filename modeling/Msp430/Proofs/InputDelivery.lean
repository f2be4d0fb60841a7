import Msp430.Proofs.ByteMap
import Msp430.Proofs.DebugLog
import Msp430.Proofs.ImageReadBack
import Msp430.Proofs.PostedInput
import Msp430.Proofs.StepStore

/-!
# Delivered input

A store to the input device takes what is posted out of the store, copies as much of it as is wanted to where the
buffer word points, and leaves the number of the bytes at its address. `onInput_apply` tells how the three phases end,
`Delivered` what the copy and the number leave in memory: the copy may come round to the first address and may fall on
the buffer word, the number, devices and the console.
-/

namespace Msp430.Peripheral

open Access Memory

/-! ### The copy and the number -/

/-- The bytes have been stored from an address on, and then their number at another address. -/
structure Delivered (a buffer : UInt16) (bytes : Bytes) (memory memory' : Memory) : Prop where
  number : (memory'.byteAt a).toNat + 256 * (memory'.byteAt (a + 1)).toNat = bytes.length
  /-- The number is stored last, so that no byte is found in its place, nor in that of the console. -/
  copied : ∀ i (_ : i < bytes.length), isConsole (buffer + .ofNat i) = false → buffer + .ofNat i ≠ a →
    buffer + .ofNat i ≠ a + 1 → memory'.byteAt (buffer + .ofNat i) = bytes[i]
  kept : ∀ x, x ≠ a → x ≠ a + 1 → (∀ i < bytes.length, x ≠ buffer + .ofNat i) ∨ isConsole x = true →
    memory'.byteAt x = memory.byteAt x
  printed : memory'.console.toList =
    memory.console.toList ++ ((Image.Chunk.cells ⟨buffer, bytes⟩).filter fun x => isConsole x.1).map Prod.snd

variable {a buffer max v : UInt16} {bytes : Bytes} {memory : Memory}

theorem byte?_of_inside {i : Nat} (inside : i < bytes.length) (short : bytes.length ≤ 0x10000) :
    Image.Chunk.byte? ⟨buffer, bytes⟩ (buffer + .ofNat i) = some bytes[i] := by
  have offset : (buffer + UInt16.ofNat i - buffer).toNat = i := by
    rw [UInt16.add_comm, UInt16.add_sub_cancel, UInt16.toNat_ofNat_of_lt' (Nat.lt_of_lt_of_le inside short)]
  unfold Image.Chunk.byte?
  simp only [offset, List.getElem?_eq_getElem inside]

theorem byte?_of_outside {x : UInt16} (outside : ∀ i < bytes.length, x ≠ buffer + .ofNat i) :
    Image.Chunk.byte? ⟨buffer, bytes⟩ x = none := by
  refine List.getElem?_eq_none (Nat.le_of_not_lt fun inside => outside _ inside ?_)
  rw [UInt16.ofNat_toNat, UInt16.add_comm, UInt16.sub_add_cancel]

theorem delivered_write (taken : TakesWord a) (plain : isConsole a = false) (short : bytes.length < 0x10000)
    (memory : Memory) :
    Delivered a buffer bytes memory
      ((memory.storeCells (Image.Chunk.cells ⟨buffer, bytes⟩)).write .word a (.ofNat bytes.length)) := by
  have next : isConsole (a + 1) = false := (isConsole_next taken).trans plain
  have short' := Nat.le_of_lt short
  constructor
  · rw [← toNat_word, word_write_self _ _ plain, UInt16.toNat_ofNat_of_lt' short]
  · intro i inside off low high
    rw [byteAt_write_word taken, off, if_neg Bool.false_ne_true, if_neg low, if_neg high,
      byteAt_storeChunk off ⟨buffer, bytes⟩ short', byte?_of_inside inside short', Option.getD_some]
  · intro x low high untouched
    rw [byteAt_write_word taken, if_neg low, if_neg high, ite_self]
    cases port : isConsole x with
    | true => exact byteAt_storeCells_console port _ memory
    | false =>
      have outside := untouched.resolve_right (by rw [port]; exact Bool.false_ne_true)
      rw [byteAt_storeChunk port ⟨buffer, bytes⟩ short', byte?_of_outside outside, Option.getD_none]
  · rw [← console_storeCells, write, plain]
    rfl

/-! ### The device -/

/-- The world when the input device has been called. -/
def entered (w : World) : World :=
  { w with calls := if w.awaiting then w.calls else w.calls.bump input, awaiting := false }

theorem storeBytes_apply (bytes : Bytes) (buffer : UInt16) (memory : Memory) :
    Bus.storeBytes buffer bytes memory = .ok () (memory.storeCells (Image.Chunk.cells ⟨buffer, bytes⟩)) := by
  induction bytes generalizing buffer memory with
  | nil => rfl
  | cons b bytes ih =>
    have first : Bus.storeByte buffer b memory = .ok () (memory.storeByte buffer b) := rfl
    rw [Image.Chunk.cells_cons]
    exact (bind_of_ok first).trans (ih (buffer + 1) _)

/-- How a store to the input device ends: with the buffer word that cannot be read, waiting for input, with a list
where input should be, or with the number of the bytes that have been copied. -/
theorem onInput_apply (owner : String) (io : IoMap) (a max : UInt16) (c : Backing World) :
    onInput owner io a max c =
      match c.memory.loadWord io.inputBuffer with
      | .error f => .error f ⟨c.memory, entered c.world⟩
      | .ok buffer =>
        match c.world.store[input.key owner]? with
        | none => .error .awaitingInput ⟨c.memory, { entered c.world with awaiting := true }⟩
        | some (.list _) => .error (.collaborator (.wrongType (input.key owner))) ⟨c.memory, entered c.world⟩
        | some (.bytes raw) =>
          Backing.onMemory (Bus.storeWord a (.ofNat (raw.take max.toNat).length))
            ⟨c.memory.storeCells (Image.Chunk.cells ⟨buffer, raw.take max.toNat⟩),
              { entered c.world with store := c.world.store.erase (input.key owner) }⟩ := by
  let c₁ : Backing World := ⟨c.memory, entered c.world⟩
  have called : Backing.onWorld enterInput c = .ok () c₁ := focus_of_ok (enter_apply input c.world)
  have answer := awaitInput_apply owner (entered c.world)
  unfold onInput
  rw [bind_of_ok called]
  cases loaded : c.memory.loadWord io.inputBuffer with
  | error f =>
    have read : Backing.onMemory (Bus.loadWord io.inputBuffer) c₁ = .error f c₁ :=
      focus_of_error (look_eq_error.mpr ⟨loaded, rfl⟩)
    exact bind_eq_error.mpr (.inl read)
  | ok buffer =>
    have read : Backing.onMemory (Bus.loadWord io.inputBuffer) c₁ = .ok buffer c₁ :=
      focus_of_ok (look_eq_ok.mpr ⟨loaded, rfl⟩)
    refine (bind_of_ok read).trans ?_
    have same : (entered c.world).store[input.key owner]? = c.world.store[input.key owner]? := rfl
    rw [same] at answer
    cases held : c.world.store[input.key owner]? with
    | none =>
      rw [held] at answer
      have failed : Backing.onWorld (awaitInput owner) c₁ = _ := focus_of_error answer
      exact bind_eq_error.mpr (.inl failed)
    | some value =>
      rw [held] at answer
      cases value with
      | list items =>
        have failed : Backing.onWorld (awaitInput owner) c₁ = _ := focus_of_error answer
        exact bind_eq_error.mpr (.inl failed)
      | bytes raw =>
        have taken : Backing.onWorld (awaitInput owner) c₁ = _ := focus_of_ok answer
        have copied := storeBytes_apply (raw.take max.toNat) buffer c.memory
        exact (bind_of_ok taken).trans (bind_of_ok (focus_of_ok copied))

/-- A list is in the place of the input, or the buffer word cannot be read. -/
def Blocked (owner : String) (io : IoMap) (c : Backing World) : Prop :=
  (∃ items, c.world.store[input.key owner]? = some (.list items)) ∨ ∃ f, c.memory.loadWord io.inputBuffer = .error f

/-- How a store that asks for at most `max` bytes of input ends in a memory with these hooks. -/
structure Delivers (owner : String) (io : IoMap) (max : Nat) (c : Backing World)
    (stored : EStateM.Result Fault (Hooked World) Unit) : Prop where
  /-- It succeeds if there is input and both words may be accessed. -/
  succeeds : (∃ m, stored = .ok () m) ↔
    (∃ raw, c.world.store[input.key owner]? = some (.bytes raw)) ∧ TakesWord io.inputBuffer ∧ TakesWord io.inputLength
  /-- It waits, to be tried again, only if there is nothing to take. -/
  waits : (∃ m, stored = .error .awaitingInput m) ↔
    TakesWord io.inputBuffer ∧ c.world.store[input.key owner]? = none
  /-- Then the input has been taken and delivered to where the buffer word pointed before. -/
  delivers : ∀ raw m, c.world.store[input.key owner]? = some (.bytes raw) → stored = .ok () m →
    ∃ buffer, c.memory.loadWord io.inputBuffer = .ok buffer ∧
      Delivered io.inputLength buffer (raw.take max) c.memory m.backing.memory ∧
      m.backing.world.store[input.key owner]? = none ∧
      ∀ other, other ≠ input.key owner → m.backing.world.store[other]? = c.world.store[other]?
  /-- It fails and takes nothing if a list is in the place of the input or the buffer word cannot be read. -/
  refuses : Blocked owner io c → ∃ f m, stored = .error f m ∧ f ≠ .awaitingInput ∧ m.backing.memory = c.memory ∧
    m.backing.world.store = c.world.store
  /-- However it ends, the device is no longer waiting. -/
  settles : ∀ m, (stored = .ok () m ∨ ∃ f, f ≠ .awaitingInput ∧ stored = .error f m) →
    m.backing.world.awaiting = false

variable {owner : String} {io : IoMap} {hooks : Hooks World} {c : Backing World} {m : Hooked World} {f : Fault}
  {n : Nat}

theorem ne_awaitingInput (unread : c.memory.loadWord a = .error f) : f ≠ .awaitingInput := by
  rintro rfl
  rcases loadWord_eq_error.mp unread with ⟨-, ⟨⟩⟩ | ⟨-, -, ⟨⟩⟩

theorem Blocked.holds_list (blocked : Blocked owner io c) (readable : TakesWord io.inputBuffer) :
    ∃ items, c.world.store[input.key owner]? = some (.list items) := by
  rcases blocked with held | ⟨f, unread⟩
  · exact held
  · cases (loadWord_eq_ok.mpr ⟨readable, rfl⟩).symm.trans unread

/-- What fails before anything is taken. -/
theorem delivers_refused (blocked : Blocked owner io c) (quiet : f ≠ .awaitingInput)
    (memory : m.backing.memory = c.memory) (store : m.backing.world.store = c.world.store)
    (awaiting : m.backing.world.awaiting = false) : Delivers owner io n c (.error f m) where
  succeeds := by
    refine ⟨by rintro ⟨_, ⟨⟩⟩, ?_⟩
    rintro ⟨⟨raw, posted⟩, readable, -⟩
    obtain ⟨items, held⟩ := blocked.holds_list readable
    cases posted.symm.trans held
  waits := by
    refine ⟨by rintro ⟨_, ⟨⟩⟩; exact absurd rfl quiet, ?_⟩
    rintro ⟨readable, absent⟩
    obtain ⟨items, held⟩ := blocked.holds_list readable
    cases absent.symm.trans held
  delivers := nofun
  refuses _ := ⟨f, m, rfl, quiet, memory, store⟩
  settles := by
    rintro _ (⟨⟨⟩⟩ | ⟨_, -, ⟨⟩⟩)
    exact awaiting

/-- What finds nothing to take. -/
theorem delivers_waiting (loaded : c.memory.loadWord io.inputBuffer = .ok v)
    (absent : c.world.store[input.key owner]? = none) : Delivers owner io n c (.error .awaitingInput m) where
  succeeds := by
    refine ⟨by rintro ⟨_, ⟨⟩⟩, ?_⟩
    rintro ⟨⟨raw, posted⟩, -⟩
    cases posted.symm.trans absent
  waits := ⟨fun _ => ⟨(loadWord_eq_ok.mp loaded).1, absent⟩, fun _ => ⟨m, rfl⟩⟩
  delivers := nofun
  refuses blocked := by
    obtain ⟨items, held⟩ := blocked.holds_list (loadWord_eq_ok.mp loaded).1
    cases absent.symm.trans held
  settles := by
    rintro _ (⟨⟨⟩⟩ | ⟨_, quiet, ⟨⟩⟩)
    exact absurd rfl quiet

/-- What takes the input and finds the place for the number. -/
theorem delivers_taken {raw : Bytes} (loaded : c.memory.loadWord io.inputBuffer = .ok buffer)
    (posted : c.world.store[input.key owner]? = some (.bytes raw)) (place : TakesWord io.inputLength)
    (plain : isConsole io.inputLength = false) (short : n < 0x10000)
    (memory : m.backing.memory =
      (c.memory.storeCells (Image.Chunk.cells ⟨buffer, raw.take n⟩)).write .word io.inputLength
        (.ofNat (raw.take n).length))
    (store : m.backing.world.store = c.world.store.erase (input.key owner))
    (awaiting : m.backing.world.awaiting = false) : Delivers owner io n c (.ok () m) where
  succeeds := ⟨fun _ => ⟨⟨raw, posted⟩, (loadWord_eq_ok.mp loaded).1, place⟩, fun _ => ⟨m, rfl⟩⟩
  waits := by
    refine ⟨by rintro ⟨_, ⟨⟩⟩, ?_⟩
    rintro ⟨-, absent⟩
    cases posted.symm.trans absent
  delivers := by
    rintro raw' m' posted' ⟨⟩
    cases posted.symm.trans posted'
    have short : (raw.take n).length < 0x10000 := Nat.lt_of_le_of_lt (List.length_take_le n raw) short
    refine ⟨buffer, loaded, ?_, ?_, fun other apart => ?_⟩
    · rw [memory]
      exact delivered_write place plain short c.memory
    · rw [store]
      exact Std.ExtTreeMap.getElem?_erase_self
    · rw [store, Std.ExtTreeMap.getElem?_erase, if_neg fun same => apart (Std.LawfulEqCmp.eq_of_compare same).symm]
  refuses blocked := by
    obtain ⟨items, held⟩ := blocked.holds_list (loadWord_eq_ok.mp loaded).1
    cases posted.symm.trans held
  settles := by
    rintro _ (⟨⟨⟩⟩ | ⟨_, -, ⟨⟩⟩)
    exact awaiting

/-- What takes the input and finds no place for the number. -/
theorem delivers_misplaced {raw : Bytes} (loaded : c.memory.loadWord io.inputBuffer = .ok buffer)
    (posted : c.world.store[input.key owner]? = some (.bytes raw)) (misplaced : Misplaced io.inputLength f)
    (awaiting : m.backing.world.awaiting = false) : Delivers owner io n c (.error f m) where
  succeeds := by
    refine ⟨by rintro ⟨_, ⟨⟩⟩, ?_⟩
    rintro ⟨-, -, place⟩
    cases (checkWord_eq_ok (u := ()).mpr place).symm.trans (checkWord_eq_error.mpr misplaced)
  waits := by
    refine ⟨?_, ?_⟩
    · rintro ⟨_, ⟨⟩⟩
      rcases misplaced with ⟨-, ⟨⟩⟩ | ⟨-, -, ⟨⟩⟩
    · rintro ⟨-, absent⟩
      cases posted.symm.trans absent
  delivers := nofun
  refuses blocked := by
    obtain ⟨items, held⟩ := blocked.holds_list (loadWord_eq_ok.mp loaded).1
    cases posted.symm.trans held
  settles := by
    rintro _ (⟨⟨⟩⟩ | ⟨_, -, ⟨⟩⟩)
    exact awaiting

/-- A store to the input device delivers what is posted, whatever it holds and wherever it is delivered to. -/
theorem input_delivered (installed : install owner io = .ok hooks) (plain : isConsole io.inputLength = false)
    (hooked : m.hooks = hooks) (w : Width) (v : UInt16) :
    Delivers owner io (w.trim v).toNat m.backing (Bus.store w io.inputLength v m) := by
  have bound : m.hooks.write io.inputLength = some (onInput owner io) := by
    rw [hooked]
    exact install_binds installed input
  have stored : Bus.store w io.inputLength v m =
      Hooked.onBacking (onInput owner io io.inputLength (w.trim v)) m := by
    have made := Hooked.make_store w io.inputLength v m
    rw [bound] at made
    exact made
  have applied := onInput_apply owner io io.inputLength (w.trim v) m.backing
  rw [stored]
  cases loaded : m.backing.memory.loadWord io.inputBuffer with
  | error f =>
    rw [loaded] at applied
    have failed : Hooked.onBacking (onInput owner io io.inputLength (w.trim v)) m = _ := focus_of_error applied
    rw [failed]
    exact delivers_refused (.inr ⟨f, loaded⟩) (ne_awaitingInput loaded) rfl rfl rfl
  | ok buffer =>
    rw [loaded] at applied
    cases held : m.backing.world.store[input.key owner]? with
    | none =>
      rw [held] at applied
      have failed : Hooked.onBacking (onInput owner io io.inputLength (w.trim v)) m = _ := focus_of_error applied
      rw [failed]
      exact delivers_waiting loaded held
    | some value =>
      rw [held] at applied
      cases value with
      | list items =>
        have failed : Hooked.onBacking (onInput owner io io.inputLength (w.trim v)) m = _ := focus_of_error applied
        rw [failed]
        exact delivers_refused (.inl ⟨items, held⟩) nofun rfl rfl rfl
      | bytes raw =>
        by_cases place : TakesWord io.inputLength
        · have written : Hooked.onBacking (onInput owner io io.inputLength (w.trim v)) m = _ :=
            focus_of_ok (applied.trans (focus_of_ok (storeWord_taken place _ _)))
          rw [written]
          exact delivers_taken loaded held place plain (w.trim v).toNat_lt rfl rfl rfl
        · obtain ⟨f, misplaced⟩ := exists_misplaced place
          have failed : Hooked.onBacking (onInput owner io io.inputLength (w.trim v)) m = _ :=
            focus_of_error (applied.trans (focus_of_error (storeWord_refused misplaced _ _)))
          rw [failed]
          exact delivers_misplaced loaded held misplaced rfl

/-- The memory of an instance to which three bytes are posted. Its buffer begins just below the console. -/
def addressed : Hooked World where
  hooks := (Bench.usualBoard "a").hooks
  backing.memory := Memory.empty.storeBytes 0x0280 [0xCD, 0x05]
  backing.world :=
    { store := (∅ : KeyValue.Store).insert "a:input" (.bytes [0x48, 0x49, 0x21]), clock := 0, calls := {},
      awaiting := true }

theorem addressed_delivered :
    isConsole ({} : IoMap).inputLength = false ∧
      Delivers "a" {} 2 addressed.backing (Bus.store .word ({} : IoMap).inputLength 2 addressed) ∧
      ∃ m, Bus.store .word ({} : IoMap).inputLength 2 addressed = .ok () m ∧
        m.backing.memory.byteAt 0x05CD = 0x48 ∧ m.backing.memory.console.toList = [0x49] := by
  have delivers := input_delivered (Bench.usualBoard "a").installed (by decide) (m := addressed) rfl .word 2
  have there : addressed.backing.world.store[input.key "a"]? = some (.bytes [0x48, 0x49, 0x21]) := by
    decide +kernel
  obtain ⟨m, stored⟩ := delivers.succeeds.mpr ⟨⟨_, there⟩, by decide, by decide⟩
  obtain ⟨buffer, loaded, delivered, -⟩ := delivers.delivers _ m there stored
  have points : addressed.backing.memory.loadWord ({} : IoMap).inputBuffer = .ok 0x05CD := by decide +kernel
  cases loaded.symm.trans points
  exact ⟨by decide, delivers, m, stored, delivered.copied 0 (by decide) (by decide) (by decide) (by decide),
    delivered.printed⟩

end Msp430.Peripheral
