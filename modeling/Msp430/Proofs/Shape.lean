import Msp430.Cpu.Execute

/-!
# The shape of an instruction

What an instruction can touch, as far as its text tells: the operand that takes the result, the register
that is autoincremented, the stack. A field of the opcode word cannot name every operand, and what it
leaves out is what execution relies on: the program counter, the status register and the constant
generator are never autoincremented, and nothing but a register or a place in memory is a destination.
-/

namespace Msp430

namespace Operand

/-- The operands that a source field can name. -/
def IsSource : Operand → Prop
  | register r => r ≠ .cg
  | indexed r _ | indirect r => r ≠ .sr ∧ r ≠ .cg
  | autoIncrement r => r ≠ .pc ∧ r ≠ .sr ∧ r ≠ .cg
  | absolute _ | immediate _ | constant _ => True

/-- The operands that a destination field can name. -/
def IsDestination : Operand → Prop
  | register _ | absolute _ => True
  | indexed r _ => r ≠ .sr
  | _ => False

theorem map_wordAt {f : UInt16 → Operand} {raw : Bytes} {offset : Nat} {o : Operand}
    (h : f <$> wordAt raw offset = .ok o) : ∃ w, wordAt raw offset = .ok w ∧ o = f w := by
  cases hw : wordAt raw offset with
  | ok w =>
    rw [hw] at h
    cases h
    exact ⟨w, rfl, rfl⟩
  | error e =>
    rw [hw] at h
    cases h

theorem ne_of_val {r r' : Reg} (h : r.val ≠ r'.val) : r ≠ r' := fun same => h (congrArg Fin.val same)

theorem source_isSource {raw : Bytes} {offset mode : Nat} {r : Reg} {o : Operand} (hm : mode < 4)
    (h : source raw offset r mode = .ok o) : o.IsSource := by
  unfold source at h
  split at h
  case h_7 | h_8 =>
    obtain ⟨w, -, rfl⟩ := map_wordAt h
    trivial
  case h_10 no3 no2 =>
    obtain ⟨w, -, rfl⟩ := map_wordAt h
    exact ⟨ne_of_val no2, ne_of_val no3⟩
  all_goals cases h
  case h_9 no3 => exact ne_of_val no3
  case h_11 no3 no2 => exact ⟨ne_of_val no2, ne_of_val no3⟩
  case h_12 not0 not1 not2 no3 _ _ _ _ no2 _ no0 =>
    change ¬ _ at not0 not1 not2
    exact ⟨ne_of_val fun same => no0 same (by omega), ne_of_val fun same => no2 same (by omega),
      ne_of_val no3⟩
  all_goals trivial

theorem destination_isDestination {raw : Bytes} {offset mode : Nat} {r : Reg} {o : Operand}
    (h : destination raw offset r mode = .ok o) : o.IsDestination := by
  unfold destination at h
  split at h
  case h_1 =>
    cases h
    trivial
  case h_2 =>
    obtain ⟨w, -, rfl⟩ := map_wordAt h
    trivial
  case h_3 no2 =>
    obtain ⟨w, -, rfl⟩ := map_wordAt h
    exact ne_of_val fun same => no2 same

end Operand

/-- The instructions whose operands the opcode word can name, and the jumps over whole words that its ten bits can
count. -/
def Instruction.Encodable : Instruction → Prop
  | single _ _ operand => operand.IsSource
  | jump _ offset => 2 ∣ displacement offset ∧ -0x400 ≤ displacement offset ∧ displacement offset < 0x400
  | double _ _ source destination => source.IsSource ∧ destination.IsDestination

namespace Instruction

theorem jump_words_bounds (word : UInt16) :
    -0x200 ≤ (BitVec.ofNat 10 word.toNat).toInt ∧ (BitVec.ofNat 10 word.toNat).toInt < 0x200 :=
  ⟨BitVec.le_toInt _, BitVec.toInt_lt⟩

/-- Doubling the count does not overflow. -/
theorem displacement_jumpOffset (word : UInt16) :
    displacement (jumpOffset word) = 2 * (BitVec.ofNat 10 word.toNat).toInt := by
  obtain ⟨low, high⟩ := jump_words_bounds word
  have doubled : (jumpOffset word).toInt = ((BitVec.ofNat 10 word.toNat).toInt * 2).bmod (2 ^ 16) := by
    unfold jumpOffset
    rw [Int16.toInt_mul, Int16.toInt_ofBitVec, BitVec.toInt_signExtend_of_le (by decide)]
    rfl
  unfold displacement
  rw [doubled, Int.bmod_eq_of_le (by omega) (by omega), Int.mul_comm]

theorem ofJump_encodable (word : UInt16) : (ofJump word).Encodable := by
  obtain ⟨low, high⟩ := jump_words_bounds word
  change 2 ∣ displacement (jumpOffset word) ∧ _
  rw [displacement_jumpOffset]
  omega

end Instruction

theorem bitField_lt (word : UInt16) (unit : Nat) {count : Nat} (h : 0 < count) :
    bitField word unit count < count := Nat.mod_lt _ h

theorem except_bind_ok {x : Except ε α} {f : α → Except ε β} {b : β} (h : x >>= f = .ok b) :
    ∃ a, x = .ok a ∧ f a = .ok b := by
  cases x with
  | ok a => exact ⟨a, rfl, h⟩
  | error e => cases h

theorem Instruction.ofBytes_of_word {raw : Bytes} {word : UInt16} (first : wordAt raw 0 = .ok word) :
    ofBytes raw =
      match bitField word 0x2000 8 with
      | 0 => ofSingle raw word
      | 1 => .ok (ofJump word)
      | _ => ofDouble raw word := by
  unfold ofBytes
  rw [first]
  rfl

theorem ofBytes_encodable {raw : Bytes} {i : Instruction} (h : Instruction.ofBytes raw = .ok i) :
    i.Encodable := by
  obtain ⟨word, -, h⟩ := except_bind_ok h
  split at h
  · unfold Instruction.ofSingle at h
    split at h
    · cases h
    · obtain ⟨operand, ho, h⟩ := except_bind_ok h
      cases h
      exact Operand.source_isSource (bitField_lt _ _ (by decide)) ho
  · cases h
    exact Instruction.ofJump_encodable word
  · obtain ⟨source, hs, h⟩ := except_bind_ok h
    obtain ⟨destination, hd, h⟩ := except_bind_ok h
    cases h
    exact ⟨Operand.source_isSource (bitField_lt _ _ (by decide)) hs, Operand.destination_isDestination hd⟩

theorem decode_encodable {raw : Bytes} {d : Decoded} (h : decode raw = .ok d) : d.instruction.Encodable := by
  obtain ⟨i, hi, h⟩ := except_bind_ok h
  cases h
  exact ofBytes_encodable hi

/-! ### What an instruction touches -/

namespace SingleOp

/-- Whether the operation puts a result in the place of its operand. -/
def transforms : SingleOp → Bool
  | rrc | rra | swpb | sxt => true
  | _ => false

/-- Whether the operation stores to the stack. -/
def pushes : SingleOp → Bool
  | push | call => true
  | _ => false

def setsFlags : SingleOp → Bool
  | rrc | rra | sxt => true
  | _ => false

end SingleOp

def DoubleOp.setsFlags : DoubleOp → Bool
  | mov | bic | bis => false
  | _ => true

namespace Instruction

/-- The operand that takes the result. -/
def target? : Instruction → Option Operand
  | single op _ operand => if op.transforms then some operand else none
  | jump _ _ => none
  | double op _ _ destination => if op.stores then some destination else none

/-- The register that is autoincremented. -/
def incremented? : Instruction → Option Reg
  | single _ _ (.autoIncrement r) | double _ _ (.autoIncrement r) _ => some r
  | _ => none

def pushes : Instruction → Bool
  | single op _ _ => op.pushes
  | _ => false

def setsFlags : Instruction → Bool
  | single op _ _ => op.setsFlags
  | jump _ _ => false
  | double op _ _ _ => op.setsFlags

/-- The registers once the operands are resolved. -/
def advance (i : Instruction) (rs : Registers) : Registers :=
  match i with
  | single _ _ operand => operand.advance i.width rs
  | jump _ _ => rs
  | double _ _ source destination => destination.advance i.width (source.advance i.width rs)

/-- The place that takes the result. A destination is resolved after the source has been. -/
def targetPlace? (i : Instruction) (rs : Registers) : Option Place :=
  match i with
  | single _ _ _ => i.target?.map (·.place rs)
  | jump _ _ => none
  | double _ _ source _ => i.target?.map (·.place (source.advance i.width rs))

/-- Whether the instruction is a jump that is taken. -/
def branches (i : Instruction) (rs : Registers) : Bool :=
  match i with
  | jump condition _ => condition.holds rs
  | _ => false

def isCall : Instruction → Bool
  | single .call _ _ => true
  | _ => false

/-- The address of the store. A push stores below the stack pointer as the operand leaves it. -/
def storeAddress? (i : Instruction) (rs : Registers) : Option UInt16 :=
  if i.pushes then some ((i.advance rs).sp - 2)
  else match i.targetPlace? rs with
    | some (.memory a) => some a
    | _ => none

end Instruction

namespace Operand

theorem advance_of_isDestination {o : Operand} (h : o.IsDestination) (w : Width) (rs : Registers) :
    o.advance w rs = rs := by
  cases o with
  | autoIncrement r => exact h.elim
  | _ => rfl

theorem get_advance (o : Operand) (w : Width) (rs : Registers) {r : Reg} (h : o ≠ .autoIncrement r) :
    (o.advance w rs).get r = rs.get r := by
  cases o with
  | autoIncrement q =>
    have hne : r ≠ q := fun same => h (same ▸ rfl)
    simp only [advance]
    split
    · rfl
    · rw [Registers.get_set, if_neg hne]
  | _ => rfl

end Operand

namespace Instruction

/-- Resolving the operands changes no register but the one that is autoincremented. -/
theorem get_advance {i : Instruction} (h : i.Encodable) (rs : Registers) {r : Reg}
    (hr : i.incremented? ≠ some r) : (i.advance rs).get r = rs.get r := by
  cases i with
  | single op flag operand =>
    refine operand.get_advance _ rs ?_
    rintro rfl
    exact hr rfl
  | jump condition offset => rfl
  | double op flag source destination =>
    simp only [advance, Operand.advance_of_isDestination h.2]
    refine source.get_advance _ rs ?_
    rintro rfl
    exact hr rfl

theorem incremented_ne {i : Instruction} (h : i.Encodable) :
    i.incremented? ≠ some .pc ∧ i.incremented? ≠ some .sr ∧ i.incremented? ≠ some .cg := by
  have plain {r : Reg} (hs : (Operand.autoIncrement r).IsSource) :
      some r ≠ some .pc ∧ some r ≠ some .sr ∧ some r ≠ some .cg := by
    obtain ⟨notPc, notSr, notCg⟩ := hs
    exact ⟨fun same => notPc (Option.some.inj same), fun same => notSr (Option.some.inj same),
      fun same => notCg (Option.some.inj same)⟩
  cases i with
  | single op flag operand =>
    cases operand with
    | autoIncrement r => exact plain h
    | _ => exact ⟨nofun, nofun, nofun⟩
  | jump condition offset => exact ⟨nofun, nofun, nofun⟩
  | double op flag source destination =>
    cases source with
    | autoIncrement r => exact plain h.1
    | _ => exact ⟨nofun, nofun, nofun⟩

theorem target?_of_pushes {i : Instruction} (h : i.pushes = true) : i.target? = none := by
  cases i with
  | single op flag operand => cases op <;> cases h <;> rfl
  | jump condition offset => rfl
  | double op flag source destination => cases h

theorem target?_of_branches {i : Instruction} {rs : Registers} (h : i.branches rs = true) :
    i.target? = none ∧ i.pushes = false := by
  cases i with
  | jump condition offset => exact ⟨rfl, rfl⟩
  | _ => cases h

theorem target?_of_register {i : Instruction} {rs : Registers} {r : Reg}
    (h : i.targetPlace? rs = some (.register r)) : i.target? = some (.register r) := by
  have named {o : Operand} {rs : Registers} (ho : o.place rs = .register r) : o = .register r := by
    cases o <;> cases ho
    rfl
  cases i with
  | jump condition offset => cases h
  | _ =>
    obtain ⟨o, ho, hp⟩ := Option.map_eq_some_iff.mp h
    rw [ho, named hp]

theorem targetPlace?_of_none {i : Instruction} {rs : Registers} (h : i.target? = none) :
    i.targetPlace? rs = none := by
  cases i with
  | jump condition offset => rfl
  | _ => simp only [targetPlace?, h, Option.map_none]

theorem targetPlace?_of_register {i : Instruction} {rs : Registers} {r : Reg}
    (h : i.target? = some (.register r)) : i.targetPlace? rs = some (.register r) := by
  cases i with
  | jump condition offset => cases h
  | _ =>
    simp only [targetPlace?, h]
    rfl

end Instruction

end Msp430
