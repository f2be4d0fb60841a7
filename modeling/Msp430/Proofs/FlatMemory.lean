import Msp430.Proofs.Phases

/-!
# Stepping on flat memory

A load leaves memory as it is, a failed store too. A store that succeeds writes one byte or two or prints
one. `cycle_eq`, `execute_error` and `execute_ok` say what this makes of a step.
-/

namespace Msp430

namespace Memory

/-- Whether an operand of a width may be accessed at an address. -/
def check (w : Width) (a : UInt16) : Except Fault Unit :=
  match w with
  | .byte => .ok ()
  | .word => checkWord a

/-- The memory after a store that is not refused. -/
def write (w : Width) (m : Memory) (a v : UInt16) : Memory :=
  match w with
  | .byte => m.storeByte a (lowByte v)
  | .word => if isConsole a then m.print (lowByte v) else (m.put a (lowByte v)).put (a + 1) (highByte v)

/-- Words lie at even addresses up to the last one. -/
def TakesWord (a : UInt16) : Prop := a.toNat % 2 = 0 ∧ a.toNat ≤ 0xFFFC

instance (a : UInt16) : Decidable (TakesWord a) := inferInstanceAs (Decidable (_ ∧ _))

/-- Whether no word lies at an address, and with which fault it is refused. -/
def Misplaced (a : UInt16) (f : Fault) : Prop :=
  a.toNat % 2 = 1 ∧ f = .addressUnaligned a ∨ a.toNat % 2 = 0 ∧ 0xFFFC < a.toNat ∧ f = .addressTooHigh a

theorem mod_two_eq_one {a : UInt16} : a % 2 = 1 ↔ a.toNat % 2 = 1 := by
  rw [← UInt16.toNat_inj, UInt16.toNat_mod]
  rfl

theorem checkWord_eq_ok {a : UInt16} {u : Unit} : checkWord a = .ok u ↔ TakesWord a := by
  have bound : lastWord < a ↔ 0xFFFC < a.toNat := UInt16.lt_iff_toNat_lt
  unfold checkWord TakesWord
  simp only [mod_two_eq_one, bound]
  split
  · simp
    omega
  · split <;> simp <;> omega

theorem checkWord_eq_error {a : UInt16} {f : Fault} : checkWord a = .error f ↔ Misplaced a f := by
  have bound : lastWord < a ↔ 0xFFFC < a.toNat := UInt16.lt_iff_toNat_lt
  unfold checkWord Misplaced
  simp only [mod_two_eq_one, bound]
  split
  · next odd => simp [odd, @eq_comm _ f]
  · next even =>
    have even : a.toNat % 2 = 0 := by omega
    split
    · next above => simp [even, above, @eq_comm _ f]
    · next below => simp [even, below]

theorem exists_misplaced {a : UInt16} (refused : ¬TakesWord a) : ∃ f, Misplaced a f := by
  cases checked : checkWord a with
  | ok u => exact absurd (checkWord_eq_ok.mp checked) refused
  | error f => exact ⟨f, checkWord_eq_error.mp checked⟩

theorem load_keeps {I : Memory → Prop} (w : Width) (a : UInt16) : Access.Keeps I (Bus.load w a) := by
  cases w with
  | byte => exact Access.keeps_map _ (Access.keeps_look _)
  | word => exact Access.keeps_look _

theorem store_apply (w : Width) (m : Memory) (a v : UInt16) :
    Bus.store w a v m =
      match check w a with
      | .ok _ => .ok () (m.write w a v)
      | .error f => .error f m := by
  cases w with
  | byte => rfl
  | word =>
    simp only [Bus.store, Bus.storeWord, Access.change, storeWord, check, write]
    cases checkWord a with
    | error f => rfl
    | ok u => by_cases h : isConsole a <;> simp only [h] <;> rfl

theorem storeWord_taken {a : UInt16} (taken : TakesWord a) (m : Memory) (v : UInt16) :
    Bus.storeWord a v m = .ok () (m.write .word a v) := by
  have stored := store_apply .word m a v
  rw [check, checkWord_eq_ok (u := ()).mpr taken] at stored
  exact stored

theorem storeWord_refused {a : UInt16} {f : Fault} (misplaced : Misplaced a f) (m : Memory) (v : UInt16) :
    Bus.storeWord a v m = .error f m := by
  have stored := store_apply .word m a v
  rw [check, checkWord_eq_error.mpr misplaced] at stored
  exact stored

theorem byteAt_storeByte (m : Memory) (a : UInt16) (b : UInt8) (a' : UInt16) :
    (m.storeByte a b).byteAt a' = if a' = a ∧ isConsole a = false then b else m.byteAt a' := by
  unfold storeByte
  by_cases port : isConsole a
  · simp [port]
  · rw [if_neg port, byteAt_put]
    simp [port]

/-- A store writes nothing outside its operand. -/
theorem byteAt_write {w : Width} {m : Memory} {a v a' : UInt16}
    (h : (m.write w a v).byteAt a' ≠ m.byteAt a') : a' = a ∨ w = .word ∧ a' = a + 1 := by
  cases w with
  | byte =>
    rw [write, byteAt_storeByte] at h
    exact .inl (Decidable.of_not_not fun ne => h (if_neg fun both => ne both.1))
  | word =>
    simp only [write] at h
    split at h
    · exact absurd rfl h
    · rw [byteAt_put, byteAt_put] at h
      by_cases high : a' = a + 1
      · exact .inr ⟨rfl, high⟩
      · rw [if_neg high] at h
        exact .inl (Decidable.of_not_not fun ne => h (if_neg ne))

/-- A store either prints a byte and writes none or prints nothing. -/
theorem console_write (w : Width) (m : Memory) (a v : UInt16) :
    (m.write w a v).console = m.console ∨
      (m.write w a v).console = m.console.push (lowByte v) ∧ ∀ a', (m.write w a v).byteAt a' = m.byteAt a' := by
  cases w <;> simp only [write, storeByte] <;> split
  all_goals first
    | exact .inr ⟨rfl, fun _ => rfl⟩
    | exact .inl rfl

/-- The word at an address, wherever words may be accessed. -/
def word (m : Memory) (a : UInt16) : UInt16 := wordOf (m.byteAt a) (m.byteAt (a + 1))

theorem even_of_checkWord {a : UInt16} {u : Unit} (allowed : checkWord a = .ok u) : a.toNat % 2 = 0 :=
  (checkWord_eq_ok.mp allowed).1

theorem word_write {w : Width} {m : Memory} {a d : UInt16} (v : UInt16) (written : check w a = .ok ())
    (aligned : checkWord d = .ok ()) (apart : a ≠ d) (half : a ≠ d + 1) : (m.write w a v).word d = m.word d := by
  have even := even_of_checkWord aligned
  have low : (m.write w a v).byteAt d = m.byteAt d := by
    refine Decidable.byContradiction fun changed => ?_
    rcases byteAt_write changed with same | ⟨rfl, same⟩
    · exact apart same.symm
    · -- Both words are aligned, so that the one does not begin in the middle of the other.
      have even' : a.toNat % 2 = 0 := even_of_checkWord written
      have := congrArg UInt16.toNat same
      rw [UInt16.toNat_add] at this
      have one : (1 : UInt16).toNat = 1 := rfl
      omega
  have high : (m.write w a v).byteAt (d + 1) = m.byteAt (d + 1) := by
    refine Decidable.byContradiction fun changed => ?_
    rcases byteAt_write changed with same | ⟨-, same⟩
    · exact half same.symm
    · exact apart ((UInt16.add_left_inj 1).mp same).symm
  unfold word
  rw [low, high]

theorem word_write_self (m : Memory) {a : UInt16} (v : UInt16) (kept : isConsole a = false) :
    (m.write .word a v).word a = v := by
  have next : a ≠ a + 1 := fun same => by
    have := congrArg UInt16.toNat same
    rw [UInt16.toNat_add] at this
    have one : (1 : UInt16).toNat = 1 := rfl
    omega
  have written : m.write .word a v = (m.put a (lowByte v)).put (a + 1) (highByte v) := by
    unfold write
    rw [kept]
    rfl
  unfold word
  rw [written, byteAt_put, byteAt_put, byteAt_put, if_neg next, if_pos rfl, if_pos rfl, wordOf_low_high]

theorem loadWord_eq (m : Memory) (a : UInt16) : m.loadWord a = (checkWord a).map fun _ => m.word a := by
  unfold loadWord
  cases checkWord a <;> rfl

theorem loadWord_eq_ok {m : Memory} {a v : UInt16} : m.loadWord a = .ok v ↔ TakesWord a ∧ v = m.word a := by
  rw [loadWord_eq, ← checkWord_eq_ok (u := ())]
  cases checkWord a <;> simp [Except.map, eq_comm]

theorem loadWord_eq_error {m : Memory} {a : UInt16} {f : Fault} : m.loadWord a = .error f ↔ Misplaced a f := by
  rw [loadWord_eq, ← checkWord_eq_error]
  cases checkWord a <;> simp [Except.map]

theorem read_eq_ok {m : Memory} {a length : UInt16} {bytes : Bytes} (h : m.read a length = .ok bytes) :
    bytes = (List.range length.toNat).map fun k => m.byteAt (a + .ofNat k) := by
  unfold read at h
  split at h <;> cases h
  rfl

/-- The instruction at an address. -/
def instructionAt (m : Memory) (a : UInt16) : Except Fault Decoded :=
  match m.fetch a with
  | .error f => .error f
  | .ok raw => (decode raw.toList).mapError .undecodable

theorem instructionAt_encodable {m : Memory} {a : UInt16} {d : Decoded} (h : m.instructionAt a = .ok d) :
    d.instruction.Encodable := by
  unfold instructionAt at h
  split at h
  · cases h
  · next raw _ =>
    cases hd : decode raw.toList with
    | error e =>
      rw [hd] at h
      cases h
    | ok d' =>
      rw [hd] at h
      cases h
      exact decode_encodable hd

end Memory

/-- The memory after the store of an effect, if it has one. -/
def Effect.storeTo (w : Width) (rs : Registers) (m : Memory) (e : Effect) : Memory :=
  match e.store? rs with
  | none => m
  | some (a, v) => m.write w a v

namespace Machine

theorem cycle_eq (m : Machine Memory) :
    cycle m =
      match m.memory.instructionAt m.registers.pc with
      | .error f => .error f m
      | .ok d =>
        match execute d.instruction (m.past d.instruction) with
        | .ok _ m' => .ok d m'
        | .error f m' => .error f m' := by
  change EStateM.bind (onMemory (Bus.fetch m.registers.pc)) _ m = _
  simp only [EStateM.bind, onMemory, Access.focus, Bus.fetch, Access.look, Memory.instructionAt]
  cases m.memory.fetch m.registers.pc with
  | error f => rfl
  | ok raw =>
    simp only
    cases decode raw.toList with
    | error cause => rfl
    | ok d =>
      change EStateM.bind (execute d.instruction) _ (m.past d.instruction) = _
      have found : (Except.ok d).mapError Fault.undecodable = .ok d := rfl
      unfold EStateM.bind
      cases h : execute d.instruction (m.past d.instruction) with
      | ok u m' =>
        simp only [found, h]
        rfl
      | error f m' => simp only [found, h]

variable {m m' : Machine Memory} {i : Instruction}

theorem cycle_ok {d : Decoded} (h : cycle m = .ok d m') :
    m.memory.instructionAt m.registers.pc = .ok d ∧ execute d.instruction (m.past d.instruction) = .ok () m' := by
  rw [cycle_eq] at h
  split at h
  · cases h
  · split at h <;> cases h
    exact ⟨‹_›, ‹_›⟩

theorem cycle_error {f : Fault} (h : cycle m = .error f m') :
    m.memory.instructionAt m.registers.pc = .error f ∧ m' = m ∨
      ∃ d, m.memory.instructionAt m.registers.pc = .ok d ∧
        execute d.instruction (m.past d.instruction) = .error f m' := by
  rw [cycle_eq] at h
  split at h
  · cases h
    exact .inl ⟨‹_›, rfl⟩
  · split at h <;> cases h
    exact .inr ⟨_, ‹_›, ‹_›⟩

/-- However gathering ends, memory is the same and no more than the operands has been resolved. -/
theorem gather_endState (h : i.Encodable) :
    Access.endState (gather i m) = { m with registers := i.advance m.registers } := by
  have memory := gather_memory (I := fun mem => mem = m.memory) Memory.load_keeps h (m := m) rfl
  have registers := gather_registers h m
  generalize Access.endState (gather i m) = m₁ at memory registers ⊢
  obtain ⟨rs, mem⟩ := m₁
  obtain rfl : rs = _ := registers
  obtain rfl : mem = _ := memory
  rfl

theorem commit_flat (w : Width) (e : Effect) :
    commit w e m =
      match e.refusal? with
      | some f => .error f { m with registers := e.prepare m.registers }
      | none =>
        match e.store? m.registers with
        | none => .ok () { m with registers := e.finish w m.registers }
        | some (a, v) =>
          match Memory.check w a with
          | .ok _ => .ok () ⟨e.finish w m.registers, m.memory.write w a v⟩
          | .error f => .error f { m with registers := e.prepare m.registers } := by
  rw [commit_apply]
  cases e.refusal? with
  | some f => rfl
  | none =>
    cases e.store? m.registers with
    | none => rfl
    | some store =>
      obtain ⟨a, v⟩ := store
      simp only [Memory.store_apply]
      cases Memory.check w a <;> rfl

theorem commit_error {w : Width} {e : Effect} {f : Fault} (h : commit w e m = .error f m') :
    m' = { m with registers := e.prepare m.registers } := by
  rw [commit_flat] at h
  split at h
  · cases h
    rfl
  · split at h
    · cases h
    · split at h <;> cases h
      rfl

theorem commit_ok {w : Width} {e : Effect} {u : Unit} (h : commit w e m = .ok u m') :
    e.refusal? = none ∧ m'.registers = e.finish w m.registers ∧
      m'.memory = e.storeTo w m.registers m.memory := by
  unfold Effect.storeTo
  rw [commit_flat] at h
  split at h
  · cases h
  · next hr =>
    refine ⟨hr, ?_⟩
    split at h
    · cases h
      exact ⟨rfl, rfl⟩
    · split at h <;> cases h
      exact ⟨rfl, rfl⟩

theorem execute_error {f : Fault} (hi : i.Encodable) (h : execute i m = .error f m') :
    m'.memory = m.memory ∧
      (m'.registers = i.advance m.registers ∨
        ∃ e : Effect, e.Fits i m.registers ∧ m'.registers = e.prepare (i.advance m.registers)) := by
  have start := gather_endState (m := m) hi
  rw [execute_eq] at h
  rcases Access.bind_eq_error.mp h with h | ⟨e, m₁, hg, h⟩
  · rw [h] at start
    obtain rfl : m' = _ := start
    exact ⟨rfl, .inl rfl⟩
  · have fits := gather_fits hg
    rw [hg] at start
    obtain rfl : m₁ = _ := start
    obtain rfl := commit_error h
    exact ⟨rfl, .inr ⟨e, fits, rfl⟩⟩

theorem execute_ok {u : Unit} (hi : i.Encodable) (h : execute i m = .ok u m') :
    ∃ e : Effect, e.Fits i m.registers ∧ e.refusal? = none ∧
      m'.registers = e.finish i.width (i.advance m.registers) ∧
      m'.memory = e.storeTo i.width (i.advance m.registers) m.memory := by
  have start := gather_endState (m := m) hi
  rw [execute_eq] at h
  obtain ⟨e, m₁, hg, h⟩ := Access.bind_eq_ok.mp h
  have fits := gather_fits hg
  rw [hg] at start
  obtain rfl : m₁ = _ := start
  obtain ⟨accepted, registers, memory⟩ := commit_ok h
  exact ⟨e, fits, accepted, registers, memory⟩

end Machine

end Msp430
