import Msp430.Proofs.OneRegister

/-!
# What the constant generator holds

Two processors that differ in the register of the constant generator alone run side by side: they ask the memory for
the same accesses, end every step alike, and neither changes that register.
-/

namespace Msp430

open Access

/-! ### Two dialogues -/

namespace Dialogue

variable {v v' : UInt16} {rs rs' : Registers}

/-- No operand depends on what the generator holds, and no store gets there. -/
theorem execute_parallel (differ : rs.DifferAt .cg v v' rs') (i : Instruction) :
    Parallel (Registers.DifferAt .cg v v') (execute i rs) (execute i rs') := by
  have place (o : Operand) : o.place rs = o.place rs' := differ.place (.inl rfl)
  have advance (o : Operand) (w : Width) := differ.advance (o := o) (.inl rfl) w
  have notPc : Reg.cg ≠ .pc := by decide
  have notSr : Reg.cg ≠ .sr := by decide
  cases i with
  | single op flag operand =>
    exact execute_single_parallel notPc notSr (place operand) (.inl rfl) (advance operand _) fun _ => by decide
  | jump condition offset => exact execute_jump_parallel differ notPc notSr condition offset
  | double op flag source destination =>
    exact execute_double_parallel notPc notSr (place source) (.inl rfl) (advance source _) (.inl rfl)

theorem cycle_parallel (differ : rs.DifferAt .cg v v' rs') :
    Parallel (Registers.DifferAt .cg v v') (cycle rs) (cycle rs') := by
  have pc : rs.pc = rs'.pc := differ.agree .pc (by decide)
  unfold cycle
  rw [pc]
  refine .ask differ fun raw => ?_
  split
  · exact .fail differ
  · exact (execute_parallel (differ.set (by decide) _) _).bind fun _ _ _ after => .give after

end Dialogue

/-! ### Two machines -/

namespace Machine

variable {μ : Type} {v v' : UInt16} {m m' : Machine μ}

/-- The machines have the same memory, and the same registers but for the constant generator, which holds `v` and
`v'`. -/
def Twins (v v' : UInt16) (m m' : Machine μ) : Prop :=
  m.registers.DifferAt .cg v v' m'.registers ∧ m.memory = m'.memory

variable [Bus μ]

theorem execute_twins (twins : m.Twins v v' m') (i : Instruction) :
    Matches (Twins v v') (execute i m) (execute i m') := by
  obtain ⟨differ, memory⟩ := twins
  rw [Dialogue.speaks_execute, Dialogue.speaks_execute, memory]
  exact (Dialogue.execute_parallel differ i).run m'.memory

theorem step_twins (twins : m.Twins v v' m') : m.step.1 = m'.step.1 ∧ m.step.2.Twins v v' m'.step.2 := by
  obtain ⟨differ, memory⟩ := twins
  have cycles : Matches (Twins v v') (cycle m) (cycle m') := by
    rw [Dialogue.cycle_eq_run, Dialogue.cycle_eq_run, memory]
    exact (Dialogue.cycle_parallel differ).run m'.memory
  unfold step
  cases hm : cycle m <;> cases hm' : cycle m' <;> rw [hm, hm'] at cycles
  case ok.ok d x d' x' =>
    obtain ⟨rfl, after⟩ := cycles
    have off : x.registers.halted = x'.registers.halted := after.1.flag (by decide) .cpuOff
    exact ⟨by simp only [off], after⟩
  case error.error =>
    obtain ⟨rfl, after⟩ := cycles
    exact ⟨rfl, after⟩
  all_goals exact cycles.elim

theorem steps_twins (twins : m.Twins v v' m') (n : Nat) : (m.steps n).Twins v v' (m'.steps n) := by
  induction n generalizing m m' with
  | zero => exact twins
  | succ n ih => exact ih (step_twins twins).2

/-- Whatever the memory, two machines that differ only in what the constant generator holds end every step of a run
alike and stay so, and each keeps what it holds there. It is so for every single instruction, those that name the
generator in an operand of any kind included. -/
theorem generator_inert (twins : m.Twins v v' m') :
    (∀ n, (m.steps n).step.1 = (m'.steps n).step.1 ∧ (m.steps n).Twins v v' (m'.steps n)) ∧
      ∀ i : Instruction, Matches (Twins v v') (execute i m) (execute i m') := by
  refine ⟨fun n => ?_, execute_twins twins⟩
  have before := steps_twins twins n
  exact ⟨(step_twins before).1, before⟩

/-- An addition of the autoincremented generator to what is indexed by it, which a hook counts, and then a move into
it. -/
def naming (v : UInt16) : Machine (Hooked Nat) where
  registers := (Registers.zero.set .pc 0x4400).set .cg v
  memory :=
    { hooks :=
        { read := fun _ => none
          write := fun a => if a = 0x0200 then some fun _ x b => .ok () { b with world := b.world + x.toNat } else none }
      backing := { memory := Memory.empty.storeBytes 0x4400 [0xB3, 0x53, 0x00, 0x02, 0x03, 0x45], world := 0 } }

theorem naming_twins : (naming 0).Twins 0 0xBEEF (naming 0xBEEF) := by
  refine ⟨⟨by decide, by decide, fun r other => ?_⟩, rfl⟩
  simp only [naming, Registers.get_set_ne _ _ other]

/-- The sum is that of the constant, and the move is refused. -/
theorem naming_inert :
    ((naming 0xBEEF).steps 1).memory.backing.world = 0xFFFF ∧
    ((naming 0xBEEF).steps 1).step.1 = .failed (.badOperand .constantGenerator) ∧
    (∀ n, ((naming 0).steps n).step.1 = ((naming 0xBEEF).steps n).step.1 ∧
      ((naming 0).steps n).Twins 0 0xBEEF ((naming 0xBEEF).steps n)) ∧
    ∀ i : Instruction, Matches (Twins 0 0xBEEF) (execute i (naming 0)) (execute i (naming 0xBEEF)) := by
  refine ⟨by decide +kernel, ?_, generator_inert naming_twins⟩
  rfl

end Machine

end Msp430
