import Msp430.Proofs.AccessTrace
import Msp430.Proofs.OneRegister

/-!
# Operand forms that mean the same

An instruction can be written with another form of one of its operands: `@R5` as `0(R5)`, `2(R3)` as `&2`, and `@R5+`
as `@R5` followed by an addition to R5. With any memory the two execute alike, access for access, and fail alike.
-/

namespace Msp430

open Access

namespace Instruction

/-- The operand in the source field of the opcode word, the only operand of some instructions. -/
def source? : Instruction → Option Operand
  | single _ _ operand => some operand
  | jump _ _ => none
  | double _ _ source _ => some source

def destination? : Instruction → Option Operand
  | double _ _ _ destination => some destination
  | _ => none

def withSource (i : Instruction) (o : Operand) : Instruction :=
  match i with
  | single op flag _ => single op flag o
  | jump condition offset => jump condition offset
  | double op flag _ destination => double op flag o destination

def withDestination (i : Instruction) (o : Operand) : Instruction :=
  match i with
  | double op flag source _ => double op flag source o
  | other => other

end Instruction

namespace Dialogue

variable {μ : Type} [Bus μ] {rs : Registers} {i : Instruction} {o o' : Operand}

/-- Operands that are found in one place and move the same registers on are exchangeable. -/
theorem execute_withSource (named : i.source? = some o) (place : o'.place rs = o.place rs)
    (advance : o'.advance i.width rs = o.advance i.width rs) : execute (i.withSource o') rs = execute i rs := by
  cases i with
  | single op flag operand =>
    cases named
    simp only [execute, gather, Instruction.withSource]
    rw [place]
    simp only [Instruction.width] at advance ⊢
    rw [advance]
  | jump condition offset => cases named
  | double op flag source destination =>
    cases named
    simp only [execute, gather, Instruction.withSource]
    rw [place]
    simp only [Instruction.width] at advance ⊢
    rw [advance]

theorem execute_withDestination (named : i.destination? = some o) (place : ∀ rs, o'.place rs = o.place rs)
    (advance : ∀ w rs, o'.advance w rs = o.advance w rs) : execute (i.withDestination o') rs = execute i rs := by
  cases i with
  | double op flag source destination =>
    cases named
    simp only [execute, gather, Instruction.withDestination, Instruction.width, place, advance]
  | _ => cases named

/-- Without the increment the register holds its old value, and nothing looks at it any more. -/
theorem execute_incremented {r : Reg} (encodable : i.Encodable) (named : i.source? = some (.autoIncrement r))
    (apart : ∀ o, i.destination? = some o → o.register? ≠ some r) (pushes : i.pushes = true → r ≠ .sp)
    (rs : Registers) :
    Parallel (Registers.DifferAt r (rs.get r + i.width.size) (rs.get r)) (execute i rs)
      (execute (i.withSource (.indirect r)) rs) := by
  have resolved (isSource : (Operand.autoIncrement r).IsSource) (w : Width) :
      ((Operand.autoIncrement r).advance w rs).DifferAt r (rs.get r + w.size) (rs.get r) rs := by
    simp only [Operand.advance, if_neg isSource.2.2]
    exact .of_set rs r _
  cases i with
  | single op flag operand =>
    cases named
    have moved := resolved encodable (Instruction.single op flag (.autoIncrement r)).width
    obtain ⟨notPc, notSr, -⟩ := encodable
    exact execute_single_parallel notPc notSr rfl (.inr (by rintro ⟨⟩)) moved pushes
  | jump condition offset => cases named
  | double op flag source destination =>
    cases named
    have moved := resolved encodable.1 (.ofByteFlag flag)
    obtain ⟨⟨notPc, notSr, -⟩, -⟩ := encodable
    exact execute_double_parallel notPc notSr rfl (.inr (by rintro ⟨⟩)) moved (.inr (apart destination rfl))

end Dialogue

namespace Machine

variable {μ : Type} {α : Type}

/-- The machine with `n` added to a register. -/
def increment (r : Reg) (n : UInt16) (m : Machine μ) : Machine μ :=
  { m with registers := m.registers.set r (m.registers.get r + n) }

/-- The same result or failure, with `n` added to a register either way. -/
def incremented (r : Reg) (n : UInt16) :
    EStateM.Result Fault (Machine μ) α → EStateM.Result Fault (Machine μ) α
  | .ok a m => .ok a (m.increment r n)
  | .error f m => .error f (m.increment r n)

theorem incremented_of_matches {r : Reg} {n v : UInt16} {x y : EStateM.Result Fault (Machine μ) α}
    (h : Matches (fun m m' => m.registers.DifferAt r (v + n) v m'.registers ∧ m.memory = m'.memory) x y) :
    x = incremented r n y := by
  have moved {m m' : Machine μ} (differ : m.registers.DifferAt r (v + n) v m'.registers)
      (memory : m.memory = m'.memory) : m = m'.increment r n := by
    unfold increment
    rw [differ.right, ← differ.eq_set, ← memory]
  cases x <;> cases y
  case ok.ok =>
    obtain ⟨rfl, differ, memory⟩ := h
    rw [moved differ memory]
    rfl
  case error.error =>
    obtain ⟨rfl, differ, memory⟩ := h
    rw [moved differ memory]
    rfl
  all_goals exact h.elim

theorem touches_of_matches {R : Registers → Registers → Prop}
    {x y : EStateM.Result Fault (Machine (Traced μ)) α}
    (h : Matches (fun m m' => R m.registers m'.registers ∧ m.memory = m'.memory) x y) :
    (endState x).memory.touches = (endState y).memory.touches :=
  congrArg Traced.touches h.endState.2

variable [Bus μ]

/-- The accesses that the execution of an instruction makes. -/
def touchesOf (i : Instruction) (m : Machine μ) : List Touch := (endState (execute i m.noting)).memory.touches

theorem equal_of_speaks {i j : Instruction} (m : Machine μ)
    (same : Dialogue.execute i m.registers = Dialogue.execute j m.registers) :
    execute i m = execute j m ∧ touchesOf i m = touchesOf j m := by
  unfold touchesOf
  rw [Dialogue.speaks_execute, Dialogue.speaks_execute, Dialogue.speaks_execute, Dialogue.speaks_execute, same]
  have noting : m.noting.registers = m.registers := rfl
  rw [noting, same]
  exact ⟨rfl, rfl⟩

/-- With every memory a decoded instruction gives the same result, registers and accesses in each of these forms. -/
theorem equivalent_forms {raw : Bytes} {d : Decoded} (h : decode raw = .ok d) {μ : Type} [Bus μ] (m : Machine μ) :
    (∀ r, d.instruction.source? = some (.indirect r) →
      let indexed := d.instruction.withSource (.indexed r 0)
      execute indexed m = execute d.instruction m ∧ touchesOf indexed m = touchesOf d.instruction m) ∧
    (∀ x, d.instruction.destination? = some (.indexed .cg x) →
      let absolute := d.instruction.withDestination (.absolute x)
      execute absolute m = execute d.instruction m ∧ touchesOf absolute m = touchesOf d.instruction m) ∧
    ∀ r, d.instruction.source? = some (.autoIncrement r) →
      (∀ o, d.instruction.destination? = some o → o.register? ≠ some r) →
      (d.instruction.pushes = true → r ≠ .sp) →
      let indirect := d.instruction.withSource (.indirect r)
      execute d.instruction m = incremented r d.instruction.width.size (execute indirect m) ∧
        touchesOf d.instruction m = touchesOf indirect m := by
  refine ⟨fun r named => ?_, fun x named => ?_, fun r named apart pushes => ?_⟩
  · refine equal_of_speaks m (Dialogue.execute_withSource named ?_ rfl)
    simp only [Operand.place, UInt16.add_zero]
  · refine equal_of_speaks m (Dialogue.execute_withDestination named (fun rs => ?_) fun _ _ => rfl)
    have zero : rs.base .cg = 0 := rfl
    simp only [Operand.place, zero, UInt16.zero_add]
  · have side := Dialogue.execute_incremented (decode_encodable h) named apart pushes m.registers
    have plain := side.run m.memory
    have traced := side.run m.noting.memory
    rw [← Dialogue.speaks_execute, ← Dialogue.speaks_execute] at plain
    refine ⟨incremented_of_matches plain, ?_⟩
    unfold touchesOf
    rw [Dialogue.speaks_execute, Dialogue.speaks_execute]
    exact touches_of_matches traced

/-- A register at a byte that is to be added to the counter of a device, which a hook takes over. -/
def scanning (r : Reg) : Machine (Hooked Nat) where
  registers := Registers.zero.set r 0x0300
  memory :=
    { hooks :=
        { read := fun _ => none
          write := fun a => if a = 0x0202 then some fun _ x b => .ok () { b with world := b.world + x.toNat } else none }
      backing := { memory := Memory.empty.storeBytes 0x0300 [7], world := 0 } }

/-- `ADD.B @R5+, 0x0202(R3)` in its three other forms. -/
theorem scanning_alike :
    let m := scanning 5
    let i : Instruction := .double .add true (.autoIncrement 5) (.indexed .cg 0x0202)
    decode [0xF3, 0x55, 0x02, 0x02] = .ok { instruction := i, bytes := [0xF3, 0x55, 0x02, 0x02] } ∧
      execute (i.withDestination (.absolute 0x0202)) m = execute i m ∧
      execute i m = incremented 5 1 (execute (i.withSource (.indirect 5)) m) ∧
      touchesOf i m = touchesOf (i.withSource (.indirect 5)) m ∧
      touchesOf i m = [.load .byte 0x0300, .load .byte 0x0202, .store .byte 0x0202 7] ∧
      execute (.single .rrc false (.indexed 5 0)) m = execute (.single .rrc false (.indirect 5)) m := by
  intro m i
  have read : decode [0xF3, 0x55, 0x02, 0x02] = .ok { instruction := i, bytes := [0xF3, 0x55, 0x02, 0x02] } := rfl
  have rotation : decode [0x25, 0x10] =
      .ok { instruction := .single .rrc false (.indirect 5), bytes := [0x25, 0x10] } := rfl
  obtain ⟨-, absolute, incremented⟩ := equivalent_forms read m
  obtain ⟨indexed, -⟩ := equivalent_forms rotation m
  obtain ⟨ends, touches⟩ := incremented 5 rfl (fun o named => by cases named; decide) nofun
  exact ⟨read, (absolute 0x0202 rfl).1, ends, touches, by decide +kernel, (indexed 5 rfl).1⟩

end Machine

end Msp430
