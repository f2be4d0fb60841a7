import Msp430.Proofs.FlatMemory

/-!
# The footprint of a step

What a step on flat memory can change. A step that fails leaves memory as it is and moves at most the
program counter, an autoincremented register, the stack pointer and the arithmetic flags. A step that
succeeds stores in one place besides.
-/

namespace Msp430

namespace Effect

variable {e : Effect} {i : Instruction} {rs rs' : Registers} {r : Reg}

/-- The register that the effect replaces. -/
def puts? : Effect → Option Reg
  | assign (.register r) _ => some r
  | call _ | branch _ => some .pc
  | _ => none

theorem get_prepare (fits : e.Fits i rs) (hsr : r ≠ .sr) (hsp : i.pushes = true → r ≠ .sp) :
    (e.prepare rs').get r = rs'.get r := by
  cases e with
  | assign p result => exact Registers.get_withStatus _ _ hsr
  | test result => exact Registers.get_withStatus _ _ hsr
  | push v => exact Registers.get_set_ne _ _ (hsp fits)
  | call target => exact Registers.get_set_ne _ _ (hsp fits.1)
  | branch target => rfl
  | idle => rfl

theorem controlBits_prepare (e : Effect) (rs : Registers) : (e.prepare rs).controlBits = rs.controlBits := by
  cases e with
  | assign p result => exact Registers.controlBits_withStatus _ _
  | test result => exact Registers.controlBits_withStatus _ _
  | push v => exact Registers.controlBits_congr (Registers.get_set_ne _ _ (by decide))
  | call target => exact Registers.controlBits_congr (Registers.get_set_ne _ _ (by decide))
  | branch target => rfl
  | idle => rfl

/-- An instruction that sets no flags leaves the status register alone. -/
theorem get_sr_prepare (fits : e.Fits i rs) (h : i.setsFlags = false) :
    (e.prepare rs').get .sr = rs'.get .sr := by
  cases e with
  | assign p result =>
    simp only [prepare, fits.2 h]
    rfl
  | test result => exact absurd fits.2.2 (by rw [h]; decide)
  | push v => exact Registers.get_set_ne _ _ (by decide)
  | call target => exact Registers.get_set_ne _ _ (by decide)
  | branch target => rfl
  | idle => rfl

theorem get_finish (w : Width) (h : e.puts? ≠ some r) : (e.finish w rs).get r = (e.prepare rs).get r := by
  have ne {q : Reg} (hq : some q ≠ some r) : r ≠ q := fun same => hq (same ▸ rfl)
  cases e with
  | assign p result =>
    cases p with
    | register q => exact Registers.get_set_ne _ _ (ne h)
    | _ => rfl
  | call target => exact Registers.get_set_ne _ _ (ne h)
  | branch target => exact Registers.get_set_ne _ _ (ne h)
  | _ => rfl

theorem puts?_of_fits (fits : e.Fits i rs) (h : e.puts? = some r) :
    i.target? = some (.register r) ∨ r = .pc ∧ (i.isCall = true ∨ i.branches rs = true) := by
  cases e with
  | assign p result =>
    cases p with
    | register q =>
      cases h
      exact .inl (Instruction.target?_of_register fits.1)
    | _ => cases h
  | call target =>
    cases h
    exact .inr ⟨rfl, .inl fits.2⟩
  | branch target =>
    cases h
    exact .inr ⟨rfl, .inr fits⟩
  | _ => cases h

/-- What is accepted goes to another register than the constant generator. -/
theorem puts?_ne_cg (h : e.refusal? = none) : e.puts? ≠ some .cg := by
  cases e with
  | assign p result =>
    cases p with
    | register q =>
      intro put
      cases put
      cases h
    | _ => exact nofun
  | _ => exact nofun

theorem eq_assign_of_fits (fits : e.Fits i rs) (h : i.target? = some (.register r)) :
    ∃ result, e = assign (.register r) result := by
  have unpushing : i.pushes ≠ true := fun pushes => by
    rw [Instruction.target?_of_pushes pushes] at h
    cases h
  cases e with
  | assign p result =>
    obtain rfl := Option.some.inj ((Instruction.targetPlace?_of_register h).symm.trans fits.1)
    exact ⟨result, rfl⟩
  | push v => exact absurd fits unpushing
  | call target => exact absurd fits.1 unpushing
  | branch target =>
    rw [(Instruction.target?_of_branches fits).1] at h
    cases h
  | _ =>
    rw [fits.1] at h
    cases h

theorem sp_finish {w : Width} (fits : e.Fits i rs) (h : i.pushes = true) :
    (e.finish w rs').sp = rs'.sp - 2 := by
  have untargeted := Instruction.target?_of_pushes h
  cases e with
  | assign p result =>
    have placed := fits.1
    rw [Instruction.targetPlace?_of_none untargeted] at placed
    cases placed
  | push v => exact Registers.get_set_self _ _ _
  | call target => exact (Registers.get_set_ne _ _ (by decide)).trans (Registers.get_set_self _ _ _)
  | branch target => exact absurd h (by rw [(Instruction.target?_of_branches fits).2]; decide)
  | _ => exact absurd h (by simp only [fits.2]; decide)

/-- The address of the store is the one that the text of the instruction tells. -/
theorem store?_of_fits {a v : UInt16} (fits : e.Fits i rs) (h : e.store? (i.advance rs) = some (a, v)) :
    i.storeAddress? rs = some a := by
  unfold Instruction.storeAddress?
  cases e with
  | assign p result =>
    have spares : i.pushes = false := by
      cases hp : i.pushes with
      | false => rfl
      | true =>
        have placed := fits.1
        rw [Instruction.targetPlace?_of_none (Instruction.target?_of_pushes hp)] at placed
        cases placed
    cases p with
    | memory b =>
      cases h
      rw [if_neg (by rw [spares]; decide), fits.1]
    | _ => cases h
  | push v =>
    cases h
    exact if_pos fits
  | call target =>
    cases h
    exact if_pos fits.1
  | _ => cases h

end Effect

namespace Machine

variable {m : Machine Memory} {d : Decoded} {f : Fault}

/-- The next instruction runs on the machine with the program counter moved past it. -/
theorem step_failed (h : m.step.1.result = .error f) (hf : f ≠ .halted) : cycle m = .error f m.step.2 := by
  unfold step at h ⊢
  cases hc : cycle m with
  | ok d m' =>
    rw [hc] at h
    simp only at h
    split at h <;> cases h
    exact absurd rfl hf
  | error g m' =>
    rw [hc] at h
    cases h
    rfl

theorem step_executed (h : m.step.1.executed? = some d) : cycle m = .ok d m.step.2 := by
  unfold step at h ⊢
  cases hc : cycle m with
  | ok d' m' =>
    rw [hc] at h
    simp only at h
    split at h <;> cases h <;> rfl
  | error g m' =>
    rw [hc] at h
    cases h

theorem get_advance_past {i : Instruction} (hi : i.Encodable) (m : Machine μ) {r : Reg} (hpc : r ≠ .pc)
    (hr : i.incremented? ≠ some r) : (i.advance (m.past i).registers).get r = m.registers.get r := by
  rw [Instruction.get_advance hi _ hr]
  exact Registers.get_set_ne _ _ hpc

theorem pc_advance_past {i : Instruction} (hi : i.Encodable) (m : Machine μ) :
    (i.advance (m.past i).registers).get .pc = m.registers.pc + .ofNat i.size := by
  rw [Instruction.get_advance hi _ (Instruction.incremented_ne hi).1]
  exact Registers.get_set_self _ _ _

theorem sr_advance_past {i : Instruction} (hi : i.Encodable) (m : Machine μ) :
    (i.advance (m.past i).registers).get .sr = m.registers.get .sr :=
  get_advance_past hi m (by decide) (Instruction.incremented_ne hi).2.1

theorem branches_past (i : Instruction) (m : Machine μ) :
    i.branches (m.past i).registers = i.branches m.registers := by
  cases i with
  | jump condition offset => exact condition.holds_congr (Registers.get_set_ne _ _ (by decide))
  | _ => rfl

/-- A step that fails leaves memory as it is. If there is no instruction at the program counter, it leaves
the registers too; otherwise it moves the counter past the instruction, and may have moved an
autoincremented register, the stack pointer and the arithmetic flags. -/
theorem failed_step_footprint (h : m.step.1.result = .error f) (hf : f ≠ .halted) :
    m.step.2.memory = m.memory ∧
      match m.memory.instructionAt m.registers.pc with
      | .error g => f = g ∧ m.step.2.registers = m.registers
      | .ok d =>
        m.step.2.registers.pc = m.registers.pc + .ofNat d.instruction.size ∧
        m.step.2.registers.controlBits = m.registers.controlBits ∧
        ∀ r, r ≠ .pc → r ≠ .sr → d.instruction.incremented? ≠ some r →
          (d.instruction.pushes = true → r ≠ .sp) → m.step.2.registers.get r = m.registers.get r := by
  have failed := step_failed h hf
  generalize m.step.2 = m' at failed ⊢
  rcases cycle_error failed with ⟨missing, rfl⟩ | ⟨d, found, failed⟩
  · rw [missing]
    exact ⟨rfl, rfl, rfl⟩
  · have encodable := Memory.instructionAt_encodable found
    obtain ⟨memory, registers⟩ := execute_error encodable failed
    rw [found]
    refine ⟨memory, ?_⟩
    rcases registers with registers | ⟨e, fits, registers⟩
    · refine ⟨?_, ?_, fun r hpc hsr hr hsp => ?_⟩ <;> rw [registers]
      · exact pc_advance_past encodable m
      · exact Registers.controlBits_congr (sr_advance_past encodable m)
      · exact get_advance_past encodable m hpc hr
    · refine ⟨?_, ?_, fun r hpc hsr hr hsp => ?_⟩ <;> rw [registers]
      · exact (Effect.get_prepare fits (by decide) fun _ => by decide).trans (pc_advance_past encodable m)
      · exact (e.controlBits_prepare _).trans (Registers.controlBits_congr (sr_advance_past encodable m))
      · exact (Effect.get_prepare fits hsr hsp).trans (get_advance_past encodable m hpc hr)

/-- `PUSH @R5+` with a stack pointer at which no word can be stored. -/
def oddStack : Machine Memory :=
  { registers := (Registers.zero.set .pc 0x4400).set .sp 0x3001
    memory := Memory.empty.storeBytes 0x4400 [0x35, 0x12] }

theorem failed_push_footprint :
    oddStack.step.1.result = .error (.addressUnaligned 0x2FFF) ∧
      oddStack.step.2.memory = oddStack.memory ∧
        match oddStack.memory.instructionAt oddStack.registers.pc with
        | .error g => Fault.addressUnaligned 0x2FFF = g ∧ oddStack.step.2.registers = oddStack.registers
        | .ok d =>
          oddStack.step.2.registers.pc = oddStack.registers.pc + .ofNat d.instruction.size ∧
          oddStack.step.2.registers.controlBits = oddStack.registers.controlBits ∧
          ∀ r, r ≠ .pc → r ≠ .sr → d.instruction.incremented? ≠ some r →
            (d.instruction.pushes = true → r ≠ .sp) →
            oddStack.step.2.registers.get r = oddStack.registers.get r := by
  have failed : oddStack.step.1.result = .error (.addressUnaligned 0x2FFF) := rfl
  exact ⟨failed, failed_step_footprint failed (by decide)⟩

/-- What an instruction that is executed to its end may change of a machine. The address of a store counts
from a program counter that is already past the instruction. -/
structure Footprint (i : Instruction) (m m' : Machine Memory) : Prop where
  constantGenerator : m'.registers.get .cg = m.registers.get .cg
  others : ∀ r, r ≠ .pc → m'.registers.get r ≠ m.registers.get r →
    i.target? = some (.register r) ∨ i.incremented? = some r ∨ i.pushes = true ∧ r = .sp ∨ r = .sr
  status : i.target? ≠ some (.register .sr) →
    m'.registers.controlBits = m.registers.controlBits ∧
      (i.setsFlags = false → m'.registers.sr = m.registers.sr)
  byteResult : i.width = .byte → ∀ r, i.target? = some (.register r) → (m'.registers.get r).toNat ≤ 0xFF
  programCounter : m'.registers.pc = m.registers.pc + .ofNat i.size ∨
    i.branches m.registers = true ∨ i.isCall = true ∨ i.target? = some (.register .pc)
  bytes : ∀ a, m'.memory.byteAt a ≠ m.memory.byteAt a →
    ∃ b, i.storeAddress? (m.past i).registers = some b ∧ (a = b ∨ i.width = .word ∧ a = b + 1)
  stack : i.pushes = true → i.storeAddress? (m.past i).registers = some m'.registers.sp
  console : m'.memory.console = m.memory.console ∨
    (∃ b, m'.memory.console = m.memory.console.push b) ∧ ∀ a, m'.memory.byteAt a = m.memory.byteAt a

theorem execute_footprint {i : Instruction} {m' : Machine Memory} {u : Unit} (hi : i.Encodable)
    (h : execute i (m.past i) = .ok u m') : Footprint i m m' := by
  obtain ⟨e, fits, accepted, registers, memory⟩ := execute_ok hi h
  have kept {r : Reg} (hput : e.puts? ≠ some r) (hsr : r ≠ .sr) (hsp : i.pushes = true → r ≠ .sp) :
      m'.registers.get r = (i.advance (m.past i).registers).get r := by
    rw [registers, Effect.get_finish _ hput, Effect.get_prepare fits hsr hsp]
  constructor
  case constantGenerator =>
    rw [kept (Effect.puts?_ne_cg accepted) (by decide) fun _ => by decide]
    exact get_advance_past hi m (by decide) (Instruction.incremented_ne hi).2.2
  case others =>
    intro r hpc changed
    refine Decidable.byContradiction fun other => ?_
    simp only [not_or, not_and] at other
    obtain ⟨untargeted, unmoved, unpushed, hsr⟩ := other
    have unput : e.puts? ≠ some r := fun put =>
      (Effect.puts?_of_fits fits put).elim untargeted fun same => hpc same.1
    exact changed ((kept unput hsr unpushed).trans (get_advance_past hi m hpc unmoved))
  case status =>
    intro untargeted
    have unput : e.puts? ≠ some .sr := fun put =>
      (Effect.puts?_of_fits fits put).elim untargeted fun same => absurd same.1 (by decide)
    have same : m'.registers.get .sr = (e.prepare (i.advance (m.past i).registers)).get .sr := by
      rw [registers, Effect.get_finish _ unput]
    refine ⟨?_, fun plain => ?_⟩
    · rw [Registers.controlBits_congr same, Effect.controlBits_prepare]
      exact Registers.controlBits_congr (sr_advance_past hi m)
    · exact same.trans ((Effect.get_sr_prepare fits plain).trans (sr_advance_past hi m))
  case byteResult =>
    intro width r target
    obtain ⟨result, rfl⟩ := Effect.eq_assign_of_fits fits target
    rw [registers, width]
    simp only [Effect.finish, Registers.get_set_self, Width.toNat_trim]
    exact Nat.lt_succ_iff.mp (Nat.mod_lt _ (by decide))
  case programCounter =>
    by_cases put : e.puts? = some .pc
    · rcases Effect.puts?_of_fits fits put with target | ⟨-, call | taken⟩
      · exact .inr (.inr (.inr target))
      · exact .inr (.inr (.inl call))
      · exact .inr (.inl (branches_past i m ▸ taken))
    · exact .inl ((kept put (by decide) fun _ => by decide).trans (pc_advance_past hi m))
  case bytes =>
    intro a changed
    rw [memory, Effect.storeTo] at changed
    cases hs : e.store? (i.advance (m.past i).registers) with
    | none =>
      rw [hs] at changed
      exact absurd rfl changed
    | some store =>
      obtain ⟨b, v⟩ := store
      rw [hs] at changed
      exact ⟨b, Effect.store?_of_fits fits hs, Memory.byteAt_write changed⟩
  case stack =>
    intro pushes
    rw [registers, Instruction.storeAddress?, if_pos pushes]
    exact congrArg some (Effect.sp_finish fits pushes).symm
  case console =>
    rw [memory, Effect.storeTo]
    cases e.store? (i.advance (m.past i).registers) with
    | none => exact .inl rfl
    | some store =>
      rcases Memory.console_write i.width m.memory store.1 store.2 with same | ⟨printed, unwritten⟩
      · exact .inl same
      · exact .inr ⟨⟨_, printed⟩, unwritten⟩

/-- A step that executes an instruction to its end leaves no more than its footprint. -/
theorem step_footprint (h : m.step.1.executed? = some d) : Footprint d.instruction m m.step.2 := by
  obtain ⟨found, executed⟩ := cycle_ok (step_executed h)
  exact execute_footprint (Memory.instructionAt_encodable found) executed

/-- `ADD.B @SP+, 2(SP)`. -/
def byteSum : Machine Memory :=
  { registers := (Registers.zero.set .pc 0x4400).set .sp 0x3001
    memory := Memory.empty.storeBytes 0x4400 [0xF1, 0x51, 0x02, 0x00] }

theorem byteSum_footprint :
    byteSum.step.1.executed? =
        some ⟨.double .add true (.autoIncrement .sp) (.indexed .sp 2), [0xF1, 0x51, 0x02, 0x00]⟩ ∧
      Footprint (.double .add true (.autoIncrement .sp) (.indexed .sp 2)) byteSum byteSum.step.2 := by
  have executed : byteSum.step.1.executed? =
      some ⟨.double .add true (.autoIncrement .sp) (.indexed .sp 2), [0xF1, 0x51, 0x02, 0x00]⟩ := by
    decide +kernel
  exact ⟨executed, step_footprint executed⟩

end Machine

end Msp430
