import Msp430.Proofs.Phases
import Msp430.Proofs.Listing

/-!
# Comparing and branching

A comparison leaves flags behind from which each condition reads off the relation that it is named for. The
relations are those of bit vectors of the operand width, and the place to which a jump goes is the one that
its listing tells.
-/

namespace Msp430

namespace Width

def bits : Width → Nat
  | .byte => 8
  | .word => 16

/-- A value as a bit vector of the operand width. -/
def value (w : Width) (v : UInt16) : BitVec w.bits := .ofNat w.bits v.toNat

end Width

/-- The relation of a destination to a source that a condition is named for. -/
def Condition.relates (c : Condition) (s d : BitVec n) : Bool :=
  match c with
  | notZero => d != s
  | zero => d == s
  | notCarry => d.ult s
  | carry => s.ule d
  | negative => (d - s).msb
  | greaterEqual => s.sle d
  | less => d.slt s
  | always => true

namespace Width

/-- The difference of a destination and a source, modulo the width. -/
def difference (w : Width) (s d : UInt16) : Nat := (d.toNat + w.modulus - s.toNat) % w.modulus

/-- The flags that a comparison sets. -/
def compared (w : Width) (s d : UInt16) : Status where
  carry := decide (s.toNat ≤ d.toNat)
  zero := decide (d = s)
  negative := decide (w.half ≤ w.difference s d)
  overflow := decide (w.half ≤ d.toNat) != decide (w.half ≤ s.toNat) &&
    decide (w.half ≤ d.toNat) != decide (w.half ≤ w.difference s d)

variable {w : Width} {s d : UInt16}

theorem trim_lt (w : Width) (v : UInt16) : (w.trim v).toNat < w.modulus := by
  rw [toNat_trim]
  exact Nat.mod_lt _ (by cases w <;> decide)

theorem toNat_complement (hs : s.toNat < w.modulus) : (w.complement s).toNat = w.modulus - 1 - s.toNat := by
  rw [complement, toNat_trim, UInt16.toNat_not]
  cases w <;> simp only [modulus, UInt16.size] at hs ⊢ <;> omega

theorem isNegative_of_lt {v : UInt16} (h : v.toNat < w.modulus) : w.isNegative v = decide (w.half ≤ v.toNat) := by
  rw [isNegative, Nat.mod_eq_of_lt h]

/-- The complement has the other sign. -/
theorem isNegative_complement (hs : s.toNat < w.modulus) :
    w.isNegative (w.complement s) = !decide (w.half ≤ s.toNat) := by
  have := w.modulus_eq
  have small : (w.complement s).toNat < w.modulus := by
    rw [toNat_complement hs]
    omega
  rw [isNegative_of_lt small, toNat_complement hs, ← decide_not]
  exact decide_eq_decide.mpr (by omega)

theorem difference_lt (w : Width) (s d : UInt16) : w.difference s d < w.modulus :=
  Nat.mod_lt _ (by cases w <;> decide)

/-- The difference wraps around if the destination is below the source. -/
theorem difference_eq (hs : s.toNat < w.modulus) (hd : d.toNat < w.modulus) :
    w.difference s d =
      if s.toNat ≤ d.toNat then d.toNat - s.toNat else d.toNat + w.modulus - s.toNat := by
  rw [difference]
  split
  · next le =>
    rw [Nat.sub_add_comm le, Nat.add_mod_right]
    exact Nat.mod_eq_of_lt (by omega)
  · exact Nat.mod_eq_of_lt (by omega)

theorem difference_eq_zero (hs : s.toNat < w.modulus) (hd : d.toNat < w.modulus) :
    w.difference s d = 0 ↔ d = s := by
  rw [← UInt16.toNat_inj, difference_eq hs hd]
  split <;> omega

theorem toNat_ofNat_difference (w : Width) (s d : UInt16) :
    (UInt16.ofNat (w.difference s d)).toNat = w.difference s d := by
  rw [UInt16.toNat_ofNat']
  exact Nat.mod_eq_of_lt (Nat.lt_of_lt_of_le (w.difference_lt s d) w.modulus_le)

/-- Subtracting by adding the complement and a carry sets the flags of a comparison. -/
theorem addWithCarry_complement (hs : s.toNat < w.modulus) (hd : d.toNat < w.modulus) :
    (w.addWithCarry d (w.complement s) true).status = some (w.compared s d) := by
  have sum : d.toNat + (w.complement s).toNat + true.toNat = d.toNat + w.modulus - s.toNat := by
    rw [toNat_complement hs, Bool.toNat_true]
    omega
  have result := toNat_ofNat_difference w s d
  have carry : w.modulus ≤ d.toNat + w.modulus - s.toNat ↔ s.toNat ≤ d.toNat := by omega
  have zero : w.trim (.ofNat (w.difference s d)) = 0 ↔ d = s := by
    rw [← difference_eq_zero hs hd, ← UInt16.toNat_inj, toNat_trim, result,
      Nat.mod_eq_of_lt (w.difference_lt s d)]
    rfl
  have negative : w.isNegative (.ofNat (w.difference s d)) = decide (w.half ≤ w.difference s d) := by
    have small := w.difference_lt s d
    rw [← result] at small
    rw [isNegative_of_lt small, result]
  -- Terms of one sign overflow, and the complement has the sign that the source has not.
  have signs : (w.isNegative d == w.isNegative (w.complement s)) =
      (decide (w.half ≤ d.toNat) != decide (w.half ≤ s.toNat)) := by
    rw [isNegative_of_lt hd, isNegative_complement hs]
    cases decide (w.half ≤ d.toNat) <;> cases decide (w.half ≤ s.toNat) <;> rfl
  simp only [addWithCarry, AluResult.flagged, sum, signs]
  change some (Status.mk _ (decide (w.trim (.ofNat (w.difference s d)) = 0))
    (w.isNegative (.ofNat (w.difference s d)))
    (_ && w.isNegative d != w.isNegative (.ofNat (w.difference s d)))) = _
  rw [negative, isNegative_of_lt hd]
  simp only [carry, zero]
  rfl

/-! ### Relations of bit vectors -/

theorem toNat_value {v : UInt16} (h : v.toNat < w.modulus) : (w.value v).toNat = v.toNat := by
  rw [value, BitVec.toNat_ofNat]
  cases w <;> exact Nat.mod_eq_of_lt h

theorem toInt_value {v : UInt16} (h : v.toNat < w.modulus) :
    (w.value v).toInt = if w.half ≤ v.toNat then (v.toNat : Int) - w.modulus else v.toNat := by
  have power : 2 ^ w.bits = w.modulus := by cases w <;> rfl
  rw [BitVec.toInt_eq_toNat_cond, toNat_value h, power, w.modulus_eq]
  split <;> split <;> omega

theorem value_inj (hs : s.toNat < w.modulus) (hd : d.toNat < w.modulus) : w.value d = w.value s ↔ d = s := by
  rw [← BitVec.toNat_inj, toNat_value hs, toNat_value hd, UInt16.toNat_inj]

theorem msb_value_sub (hs : s.toNat < w.modulus) (hd : d.toNat < w.modulus) :
    (w.value d - w.value s).msb = decide (w.half ≤ w.difference s d) := by
  rw [BitVec.msb_eq_decide, BitVec.toNat_sub', toNat_value hs, toNat_value hd, difference,
    Nat.add_sub_assoc (Nat.le_of_lt hs)]
  cases w <;> rfl

theorem slt_value (hs : s.toNat < w.modulus) (hd : d.toNat < w.modulus) :
    (w.value d).slt (w.value s) = ((w.compared s d).negative != (w.compared s d).overflow) := by
  have := w.modulus_eq
  rw [BitVec.slt_eq_decide, toInt_value hs, toInt_value hd, compared, difference_eq hs hd]
  -- The signs say whether there can be an overflow, the order whether the difference wraps around.
  by_cases negD : w.half ≤ d.toNat <;> by_cases negS : w.half ≤ s.toNat <;>
    by_cases le : s.toNat ≤ d.toNat <;> simp [negD, negS, le] <;> omega

end Width

namespace Registers

theorem flag_setStatus (rs : Registers) (status : Status) :
    (rs.setStatus status).flag .carry = status.carry ∧ (rs.setStatus status).flag .zero = status.zero ∧
      (rs.setStatus status).flag .negative = status.negative ∧
      (rs.setStatus status).flag .overflow = status.overflow := by
  simp only [setStatus, flag_setFlag]
  exact ⟨rfl, rfl, rfl, rfl⟩

end Registers

/-- After a comparison a condition holds exactly if its relation does. -/
theorem Condition.holds_compared (c : Condition) (rs : Registers) {w : Width} {s d : UInt16}
    (hs : s.toNat < w.modulus) (hd : d.toNat < w.modulus) :
    c.holds (rs.setStatus (w.compared s d)) = c.relates (w.value s) (w.value d) := by
  obtain ⟨carry, zero, negative, overflow⟩ := rs.flag_setStatus (w.compared s d)
  have equal : (w.value d == w.value s) = decide (d = s) := decide_eq_decide.mpr (Width.value_inj hs hd)
  have below : (w.value d).ult (w.value s) = !decide (s.toNat ≤ d.toNat) := by
    rw [BitVec.ult_eq_decide, Width.toNat_value hs, Width.toNat_value hd, ← decide_not]
    exact decide_eq_decide.mpr Nat.not_le.symm
  have less := Width.slt_value hs hd
  cases c with
  | notZero => rw [holds, zero, relates, bne, equal]; rfl
  | zero => rw [holds, zero, relates, equal]; rfl
  | notCarry => rw [holds, carry, relates, below]; rfl
  | carry => rw [holds, carry, relates, BitVec.ule_eq_not_ult, below, Bool.not_not]; rfl
  | negative => rw [holds, negative, relates, Width.msb_value_sub hs hd]; rfl
  | greaterEqual => rw [holds, negative, overflow, relates, BitVec.sle_eq_not_slt, less, bne, Bool.not_not]
  | less => rw [holds, negative, overflow, relates, less]
  | always => rfl

namespace Machine

variable {μ : Type} [Bus μ]

/-- Loads the operands of a comparison, source first. -/
def operands (w : Width) (source destination : Operand) : Access (Machine μ) (UInt16 × UInt16) := do
  let s ← load w (← resolve w source)
  let d ← load w (← resolve w destination)
  return (s, d)

theorem load_lt {w : Width} {p : Place} {m m' : Machine μ} {v : UInt16} (h : load w p m = .ok v m') :
    v.toNat < w.modulus := by
  cases p with
  | register r =>
    cases h
    exact w.trim_lt _
  | literal c =>
    cases h
    exact w.trim_lt c
  | memory a =>
    cases w with
    | word => exact v.toNat_lt
    | byte =>
      simp only [load, onMemory, Access.focus] at h
      split at h <;> cases h
      next loaded =>
        obtain ⟨b, -, rfl⟩ := Access.map_eq_ok.mp loaded
        rw [UInt8.toNat_toUInt16]
        exact b.toNat_lt

theorem operands_lt {w : Width} {source destination : Operand} {m m' : Machine μ} {s d : UInt16}
    (h : operands w source destination m = .ok (s, d) m') : s.toNat < w.modulus ∧ d.toNat < w.modulus := by
  simp only [operands, Access.bind_eq_ok] at h
  obtain ⟨p, m₁, -, s', m₂, hs, q, m₃, -, d', m₄, hd, h⟩ := h
  cases h
  exact ⟨load_lt hs, load_lt hd⟩

/-- A comparison loads its operands and sets the flags. -/
theorem execute_compare {flag : Bool} {source destination : Operand} {m m₁ : Machine μ}
    (h : execute (.double .cmp flag source destination) m = .ok () m₁) :
    ∃ s d m', operands (.ofByteFlag flag) source destination m = .ok (s, d) m' ∧
      m₁ = { m' with registers := m'.registers.setStatus ((Width.ofByteFlag flag).compared s d) } := by
  simp only [execute, executeDouble, reduceCtorEq, if_false, Access.bind_eq_ok] at h
  obtain ⟨p, m₁, hp, s, m₂, hs, q, m₃, hq, d, m₄, hd, rs, m₅, hrs, h⟩ := h
  have status := Width.addWithCarry_complement (load_lt hs) (load_lt hd)
  cases hrs
  change (setStatus (Width.addWithCarry _ d (Width.complement _ s) true).status >>= fun _ => pure ()) m₄ = _ at h
  rw [status] at h
  cases h
  refine ⟨s, d, m₄, ?_, rfl⟩
  simp only [operands, Access.bind_eq_ok]
  exact ⟨p, m₁, hp, s, m₂, hs, q, m₃, hq, d, m₄, hd, rfl⟩

/-- Whatever jump is found at whatever address, it is taken exactly if its condition is one of `taken`. Then it
goes as far as the number in its listing, otherwise to the next instruction. It changes nothing else; only
fetching it may change the memory, on a bus that does so. -/
def JumpsWhere (m : Machine μ) (taken : Condition → Bool) : Prop :=
  ∀ (p : UInt16) (j : Decoded) (condition : Condition) (offset : Int16),
    j.instruction = .jump condition offset →
    ∃ n, j.printedDistance? = some n ∧
      let next := if taken condition then p + .ofInt n else p + 2
      execute j.instruction (past ⟨m.registers.set .pc p, m.memory⟩ j.instruction) =
        .ok () ⟨m.registers.set .pc next, m.memory⟩ ∧
      ∀ raw mem, Bus.fetch p m.memory = .ok raw mem → decode raw.toList = .ok j →
        cycle ⟨m.registers.set .pc p, m.memory⟩ = .ok j ⟨m.registers.set .pc next, mem⟩

theorem jumpsWhere_holds (m : Machine μ) : JumpsWhere m fun condition => condition.holds m.registers := by
  intro p j condition offset jump
  have executed (mem : μ) : execute j.instruction (past ⟨m.registers.set .pc p, mem⟩ j.instruction) =
      .ok () ⟨m.registers.set .pc (if condition.holds m.registers
        then p + .ofInt (Instruction.displacement offset + 2) else p + 2), mem⟩ := by
    have start : past ⟨m.registers.set .pc p, mem⟩ j.instruction = ⟨m.registers.set .pc (p + 2), mem⟩ := by
      rw [jump, past, Registers.pc, Registers.get_set_self, Registers.set_set]
      rfl
    have same : condition.holds (m.registers.set .pc (p + 2)) = condition.holds m.registers :=
      condition.holds_congr (Registers.get_set_ne _ _ (by decide))
    rw [start, jump]
    change (if condition.holds (m.registers.set .pc (p + 2)) then _ else _ : Access (Machine μ) Unit) _ = _
    rw [same]
    cases condition.holds m.registers with
    | true =>
      change EStateM.Result.ok () (Machine.mk _ mem) = _
      rw [Registers.pc, Registers.get_set_self, Registers.set_set, UInt16.ofInt_add, UInt16.add_assoc,
        UInt16.add_comm 2]
      rfl
    | false => rfl
  refine ⟨_, Decoded.printedDistance?_jump jump, executed m.memory, fun raw mem fetched decoded => ?_⟩
  refine cycle_of_execute ?_ decoded (executed mem)
  rwa [Registers.pc, Registers.get_set_self]

/-- After a comparison, which stores nothing, a jump is taken exactly if the loaded values stand in the relation
that its condition is named for. -/
theorem compare_and_branch {flag : Bool} {source destination : Operand} {m m₁ : Machine μ}
    (h : execute (.double .cmp flag source destination) m = .ok () m₁) :
    let w := Width.ofByteFlag flag
    ∃ s d m', operands w source destination m = .ok (s, d) m' ∧
      s.toNat < w.modulus ∧ d.toNat < w.modulus ∧
      m₁.memory = m'.memory ∧ (∀ r, r ≠ .sr → m₁.registers.get r = m'.registers.get r) ∧
      JumpsWhere m₁ fun condition => condition.relates (w.value s) (w.value d) := by
  intro w
  obtain ⟨s, d, m', loaded, rfl⟩ := execute_compare h
  obtain ⟨hs, hd⟩ := operands_lt loaded
  refine ⟨s, d, m', loaded, hs, hd, rfl, fun r hr => Registers.get_withStatus _ (some _) hr, ?_⟩
  have same : (fun c : Condition => c.holds (m'.registers.setStatus (w.compared s d))) =
      fun c => c.relates (w.value s) (w.value d) := funext fun c => c.holds_compared _ hs hd
  rw [← same]
  exact jumpsWhere_holds _

/-- A machine with 127 at an address, to be compared with -128, so that the difference overflows. Behind the
comparison stand two jumps back to it, `JL` and `JGE`. -/
def farApart : Machine Memory :=
  { registers := Registers.zero.set .pc 0x4406
    memory := (Memory.empty.storeByte 0x3000 0x7F).storeBytes 0x4406 [0xFC, 0x3B, 0xFB, 0x37] }

/-- The first jump is not taken, since 127 is not less than -128, and the second one goes back eight bytes. -/
theorem farApart_branches :
    let compared := farApart.registers.set .sr 0x0104
    let less : Decoded := { instruction := .jump .less (-8), bytes := [0xFC, 0x3B] }
    let greaterEqual : Decoded := { instruction := .jump .greaterEqual (-10), bytes := [0xFB, 0x37] }
    execute (.double .cmp true (.immediate 0x80) (.absolute 0x3000)) farApart =
        .ok () { farApart with registers := compared } ∧
      operands .byte (.immediate 0x80) (.absolute 0x3000) farApart = .ok (0x80, 0x7F) farApart ∧
      less.printedDistance? = some (-6) ∧
      cycle ⟨compared.set .pc 0x4406, farApart.memory⟩ = .ok less ⟨compared.set .pc 0x4408, farApart.memory⟩ ∧
      greaterEqual.printedDistance? = some (-8) ∧
      cycle ⟨compared.set .pc 0x4408, farApart.memory⟩ =
        .ok greaterEqual ⟨compared.set .pc 0x4400, farApart.memory⟩ := by
  intro compared less greaterEqual
  have executed : execute (.double .cmp true (.immediate 0x80) (.absolute 0x3000)) farApart =
      .ok () { farApart with registers := compared } := rfl
  have values : operands .byte (.immediate 0x80) (.absolute 0x3000) farApart = .ok (0x80, 0x7F) farApart := rfl
  obtain ⟨s, d, m', loaded, -, -, -, -, jumps⟩ := compare_and_branch executed
  cases values.symm.trans loaded
  obtain ⟨n, printed, -, untaken⟩ := jumps 0x4406 less .less (-8) rfl
  obtain ⟨n', printed', -, taken⟩ := jumps 0x4408 greaterEqual .greaterEqual (-10) rfl
  cases (Decoded.printedDistance?_jump rfl).symm.trans printed
  cases (Decoded.printedDistance?_jump rfl).symm.trans printed'
  have first : Bus.fetch 0x4406 farApart.memory = .ok #v[0xFC, 0x3B, 0xFB, 0x37, 0, 0] farApart.memory := rfl
  have second : Bus.fetch 0x4408 farApart.memory = .ok #v[0xFB, 0x37, 0, 0, 0, 0] farApart.memory := rfl
  exact ⟨executed, values, printed, untaken _ _ first rfl, printed', taken _ _ second rfl⟩

end Machine

end Msp430
