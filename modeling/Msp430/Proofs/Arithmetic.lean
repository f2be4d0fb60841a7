import Mathlib.Algebra.GroupWithZero.Nat
import Msp430.Proofs.Compare

/-!
# Arithmetic of two operands

A two-operand operation computes a sum or a difference of integers modulo its width, or a function of the bits.
Its `Law` says so, with the flags told from the same expression: the carry from the operands as they are, the
overflow from the operands read as signed numbers. `execute_double` shows that execution follows the law.
-/

namespace Msp430

namespace Width

/-- The integers that a signed number of the width can be. -/
def FitsSigned (w : Width) (n : Int) : Prop := -w.half ≤ n ∧ n < w.half

instance (w : Width) (n : Int) : Decidable (w.FitsSigned n) := inferInstanceAs (Decidable (_ ∧ _))

end Width

/-! ### Laws -/

/-- What an operation computes from a source, a destination and a carry. A bitwise operation that sets flags
may overflow where both operands are negative. -/
inductive Law where
  | sum (f : Int → Int → Int → Int)
  | difference (f : Int → Int → Int → Int)
  | logic (f : (n : Nat) → BitVec n → BitVec n → BitVec n) (overflows : Bool)
  | plain (f : (n : Nat) → BitVec n → BitVec n → BitVec n)

/-- The law of an operation; decimal addition has none. -/
def DoubleOp.law? : DoubleOp → Option Law
  | mov => some (.plain fun _ s _ => s)
  | add => some (.sum fun s d _ => d + s)
  | addc => some (.sum fun s d c => d + s + c)
  | sub | cmp => some (.difference fun s d _ => d - s)
  | subc => some (.difference fun s d c => d - s - 1 + c)
  | and | bit => some (.logic (fun _ s d => s &&& d) false)
  | xor => some (.logic (fun _ s d => s ^^^ d) true)
  | bic => some (.plain fun _ s d => d &&& ~~~s)
  | bis => some (.plain fun _ s d => d ||| s)
  | dadd => none

namespace Law

/-- The result, which is below the modulus. -/
def result (law : Law) (w : Width) (s d : UInt16) (c : Bool) : Nat :=
  match law with
  | sum f | difference f => (f s.toNat d.toNat c.toNat % w.modulus).toNat
  | logic f _ | plain f => (f w.bits (w.value s) (w.value d)).toNat

/-- The carry: a sum reaches the modulus, a difference needs no borrow, a bitwise result is not zero. -/
def carry (law : Law) (w : Width) (s d : UInt16) (c : Bool) : Bool :=
  match law with
  | sum f => w.modulus ≤ f s.toNat d.toNat c.toNat
  | difference f => 0 ≤ f s.toNat d.toNat c.toNat
  | logic _ _ | plain _ => law.result w s d c ≠ 0

/-- The overflow: the exact result of the signed operands does not fit. -/
def overflow (law : Law) (w : Width) (s d : UInt16) (c : Bool) : Bool :=
  match law with
  | sum f | difference f => ¬ w.FitsSigned (f (w.value s).toInt (w.value d).toInt c.toNat)
  | logic _ overflows => overflows && (w.value s).msb && (w.value d).msb
  | plain _ => false

def flags (law : Law) (w : Width) (s d : UInt16) (c : Bool) : Status where
  carry := law.carry w s d c
  zero := law.result w s d c = 0
  negative := (BitVec.ofNat w.bits (law.result w s d c)).msb
  overflow := law.overflow w s d c

def status? (law : Law) (w : Width) (s d : UInt16) (c : Bool) : Option Status :=
  match law with
  | plain _ => none
  | sum _ | difference _ | logic _ _ => some (law.flags w s d c)

/-- A result of the arithmetic unit is what the law tells. -/
def Gives (law : Law) (w : Width) (s d : UInt16) (c : Bool) (r : AluResult) : Prop :=
  r.value.toNat = law.result w s d c ∧ r.status = law.status? w s d c

end Law

namespace Width

variable {w : Width} {a b s d v : UInt16} {c : Bool}

theorem modulus_eq_pow (w : Width) : w.modulus = 2 ^ w.bits := by cases w <;> rfl

theorem isNegative_eq_msb (w : Width) (v : UInt16) : w.isNegative v = (w.value v).msb := by
  rw [isNegative, BitVec.msb_eq_decide, value, BitVec.toNat_ofNat]
  cases w <;> rfl

theorem flagged_eq (h : v.toNat < w.modulus) (carry overflow : Bool) :
    (AluResult.flagged w v carry overflow).status =
      some { carry, zero := v.toNat = 0, negative := (BitVec.ofNat w.bits v.toNat).msb, overflow } := by
  have zero : w.trim v = 0 ↔ v.toNat = 0 := by
    rw [← UInt16.toNat_inj, toNat_trim, Nat.mod_eq_of_lt h]
    rfl
  rw [AluResult.flagged, isNegative_eq_msb, decide_eq_decide.mpr zero]
  rfl

/-! ### Sums -/

theorem toNat_addWithCarry (w : Width) (a b : UInt16) (c : Bool) :
    (w.addWithCarry a b c).value.toNat = (a.toNat + b.toNat + c.toNat) % w.modulus := by
  have small : (a.toNat + b.toNat + c.toNat) % w.modulus < w.modulus :=
    Nat.mod_lt _ (by cases w <;> decide)
  change (UInt16.ofNat _).toNat = _
  rw [UInt16.toNat_ofNat', Nat.mod_eq_of_lt (Nat.lt_of_lt_of_le small w.modulus_le)]

/-- The sum of the terms is in the result, with a carry that is worth the modulus. -/
theorem addWithCarry_carries (ha : a.toNat < w.modulus) (hb : b.toNat < w.modulus) (c : Bool) :
    (w.addWithCarry a b c).value.toNat +
        w.modulus * (decide (w.modulus ≤ a.toNat + b.toNat + c.toNat)).toNat =
      a.toNat + b.toNat + c.toNat := by
  have := c.toNat_le
  rw [toNat_addWithCarry]
  by_cases reached : w.modulus ≤ a.toNat + b.toNat + c.toNat
  · rw [Nat.mod_eq_sub_mod reached, Nat.mod_eq_of_lt (by omega), decide_eq_true reached, Bool.toNat_true]
    omega
  · rw [Nat.mod_eq_of_lt (by omega), decide_eq_false reached, Bool.toNat_false]
    omega

/-- Terms of one sign whose sum has the other are those whose exact sum does not fit. -/
theorem overflow_iff (ha : a.toNat < w.modulus) (hb : b.toNat < w.modulus) (c : Bool) :
    (w.isNegative a == w.isNegative b && w.isNegative a != w.isNegative (w.addWithCarry a b c).value) =
      decide (¬ w.FitsSigned ((w.value a).toInt + (w.value b).toInt + c.toNat)) := by
  have double := w.modulus_eq
  have carries := addWithCarry_carries ha hb c
  have := c.toNat_le
  generalize total : (w.addWithCarry a b c).value = v at carries ⊢
  have small : v.toNat < w.modulus := by
    rw [← total, toNat_addWithCarry]
    exact Nat.mod_lt _ (by omega)
  rw [isNegative_of_lt ha, isNegative_of_lt hb, isNegative_of_lt small, toInt_value ha, toInt_value hb]
  by_cases reached : w.modulus ≤ a.toNat + b.toNat + c.toNat <;> simp only [reached] at carries <;>
    by_cases negA : w.half ≤ a.toNat <;> by_cases negB : w.half ≤ b.toNat <;>
      by_cases negV : w.half ≤ v.toNat <;> simp [FitsSigned, negA, negB, negV] at carries ⊢ <;> omega

theorem addWithCarry_status (ha : a.toNat < w.modulus) (hb : b.toNat < w.modulus) (c : Bool) :
    (w.addWithCarry a b c).status = some {
      carry := w.modulus ≤ a.toNat + b.toNat + c.toNat
      zero := (w.addWithCarry a b c).value.toNat = 0
      negative := (BitVec.ofNat w.bits (w.addWithCarry a b c).value.toNat).msb
      overflow := ¬ w.FitsSigned ((w.value a).toInt + (w.value b).toInt + c.toNat) } := by
  have small : (w.addWithCarry a b c).value.toNat < w.modulus := by
    rw [toNat_addWithCarry]
    exact Nat.mod_lt _ (by cases w <;> decide)
  rw [← overflow_iff ha hb c]
  exact flagged_eq small _ _

theorem toInt_complement (hs : s.toNat < w.modulus) :
    (w.value (w.complement s)).toInt = -1 - (w.value s).toInt := by
  have := w.modulus_eq
  have small : (w.complement s).toNat < w.modulus := by
    rw [toNat_complement hs]
    omega
  rw [toInt_value small, toInt_value hs, toNat_complement hs]
  split <;> split <;> omega

/-- A sum with a carry follows the law of sums. -/
theorem sum_gives {f : Int → Int → Int → Int} (hs : s.toNat < w.modulus) (hd : d.toNat < w.modulus) {c' : Bool}
    (sum : ∀ s d : Int, f s d c.toNat = d + s + c'.toNat) :
    (Law.sum f).Gives w s d c (w.addWithCarry d s c') := by
  have result : (Law.sum f).result w s d c = (w.addWithCarry d s c').value.toNat := by
    rw [toNat_addWithCarry, Law.result, sum]
    norm_cast
  refine ⟨result.symm, ?_⟩
  rw [addWithCarry_status hd hs, Law.status?, Law.flags, result, Law.carry, Law.overflow, sum, sum]
  norm_cast

/-- Adding the complement and a carry follows the law of differences. -/
theorem difference_gives {f : Int → Int → Int → Int} (hs : s.toNat < w.modulus) (hd : d.toNat < w.modulus)
    {c' : Bool} (difference : ∀ s d : Int, f s d c.toNat = d - s - 1 + c'.toNat) :
    (Law.difference f).Gives w s d c (w.addWithCarry d (w.complement s) c') := by
  have complement := toNat_complement hs
  have small : (w.complement s).toNat < w.modulus := by omega
  -- The sum with the complement is the difference and a modulus.
  have exact : ((d.toNat + (w.complement s).toNat + c'.toNat : Nat) : Int) = f s.toNat d.toNat c.toNat + w.modulus := by
    rw [difference, complement]
    omega
  have result : (Law.difference f).result w s d c = (w.addWithCarry d (w.complement s) c').value.toNat := by
    rw [toNat_addWithCarry, Law.result, ← Int.add_emod_right, ← exact]
    norm_cast
  have carry : 0 ≤ f s.toNat d.toNat c.toNat ↔ w.modulus ≤ d.toNat + (w.complement s).toNat + c'.toNat := by omega
  have signed : f (w.value s).toInt (w.value d).toInt c.toNat =
      (w.value d).toInt + (w.value (w.complement s)).toInt + c'.toNat := by
    rw [difference, toInt_complement hs]
    omega
  refine ⟨result.symm, ?_⟩
  rw [addWithCarry_status hd small, Law.status?, Law.flags, result, Law.carry, Law.overflow, signed,
    decide_eq_decide.mpr carry]

/-! ### Bits -/

theorem value_eq_setWidth (w : Width) (v : UInt16) : w.value v = v.toBitVec.setWidth w.bits := by
  apply BitVec.eq_of_toNat_eq
  rw [value, BitVec.toNat_ofNat, BitVec.toNat_setWidth]
  rfl

theorem value_trim (w : Width) (v : UInt16) : w.value (w.trim v) = w.value v := by
  apply BitVec.eq_of_toNat_eq
  rw [value, value, BitVec.toNat_ofNat, BitVec.toNat_ofNat, toNat_trim, modulus_eq_pow, Nat.mod_mod]

theorem value_and (w : Width) (a b : UInt16) : w.value (a &&& b) = w.value a &&& w.value b := by
  simp only [value_eq_setWidth, UInt16.toBitVec_and, BitVec.setWidth_and]

theorem value_or (w : Width) (a b : UInt16) : w.value (a ||| b) = w.value a ||| w.value b := by
  simp only [value_eq_setWidth, UInt16.toBitVec_or, BitVec.setWidth_or]

theorem value_xor (w : Width) (a b : UInt16) : w.value (a ^^^ b) = w.value a ^^^ w.value b := by
  simp only [value_eq_setWidth, UInt16.toBitVec_xor, BitVec.setWidth_xor]

theorem value_not (w : Width) (a : UInt16) : w.value (~~~a) = ~~~w.value a := by
  have narrow : w.bits ≤ 16 := by cases w <;> decide
  simp only [value_eq_setWidth, UInt16.toBitVec_not, BitVec.setWidth_not narrow]

theorem plain_gives {f : (n : Nat) → BitVec n → BitVec n → BitVec n} (small : v.toNat < w.modulus)
    (bits : w.value v = f w.bits (w.value s) (w.value d)) : (Law.plain f).Gives w s d c (.plain v) := by
  refine ⟨?_, rfl⟩
  rw [Law.result, ← bits, toNat_value small]
  rfl

theorem logic_gives {f : (n : Nat) → BitVec n → BitVec n → BitVec n} {overflows overflow : Bool}
    (small : v.toNat < w.modulus) (bits : w.value v = f w.bits (w.value s) (w.value d))
    (signs : overflow = (overflows && (w.value s).msb && (w.value d).msb)) :
    (Law.logic f overflows).Gives w s d c (w.logical v overflow) := by
  have result : (Law.logic f overflows).result w s d c = v.toNat := by
    rw [Law.result, ← bits, toNat_value small]
  have carry : v ≠ 0 ↔ v.toNat ≠ 0 := by
    rw [ne_eq, ← UInt16.toNat_inj]
    rfl
  refine ⟨result.symm, ?_⟩
  rw [logical, flagged_eq small, Law.status?, Law.flags, Law.carry, Law.overflow, result, signs,
    decide_eq_decide.mpr carry]

end Width

/-- Every operation gives what its law tells of operands of its width. -/
theorem DoubleOp.apply_gives {op : DoubleOp} {law : Law} {w : Width} {s d : UInt16} (lawful : op.law? = some law)
    (hs : s.toNat < w.modulus) (hd : d.toNat < w.modulus) (c : Bool) :
    ∃ r, op.apply w s d c = some r ∧ law.Gives w s d c r := by
  have powS : s.toNat < 2 ^ w.bits := w.modulus_eq_pow ▸ hs
  have powD : d.toNat < 2 ^ w.bits := w.modulus_eq_pow ▸ hd
  have conjunction : (s &&& d).toNat < w.modulus := by
    rw [UInt16.toNat_and, w.modulus_eq_pow]
    exact Nat.and_lt_two_pow _ powD
  have disjunction : (s ||| d).toNat < w.modulus := by
    rw [UInt16.toNat_or, w.modulus_eq_pow]
    exact Nat.or_lt_two_pow powS powD
  have exclusion : (s ^^^ d).toNat < w.modulus := by
    rw [UInt16.toNat_xor, w.modulus_eq_pow]
    exact Nat.xor_lt_two_pow powS powD
  have trimmed (v : UInt16) : (w.trim v).toNat < w.modulus := by
    rw [Width.toNat_trim]
    exact Nat.mod_lt _ (by omega)
  cases op <;> cases lawful <;> refine ⟨_, rfl, ?_⟩
  case mov => exact Width.plain_gives hs rfl
  case add => exact Width.sum_gives hs hd fun s d => by simp
  case addc => exact Width.sum_gives hs hd fun s d => rfl
  case subc => exact Width.difference_gives hs hd fun s d => rfl
  case sub | cmp => exact Width.difference_gives hs hd fun s d => by simp
  case bit | and => exact Width.logic_gives conjunction (w.value_and s d) rfl
  case bic =>
    refine Width.plain_gives (trimmed _) ?_
    rw [Width.value_trim, Width.value_and, Width.value_not, BitVec.and_comm]
  case bis =>
    refine Width.plain_gives disjunction ?_
    rw [Width.value_or, BitVec.or_comm]
  case xor =>
    refine Width.logic_gives exclusion (w.value_xor s d) ?_
    rw [Width.isNegative_eq_msb, Width.isNegative_eq_msb, Bool.true_and]

theorem Law.result_lt (law : Law) (w : Width) (s d : UInt16) (c : Bool) : law.result w s d c < w.modulus := by
  have positive : (0 : Int) < w.modulus := by cases w <;> decide
  cases law with
  | sum f | difference f =>
    have := Int.emod_nonneg (f s.toNat d.toNat c.toNat) (Int.ne_of_gt positive)
    have := Int.emod_lt_of_pos (f s.toNat d.toNat c.toNat) positive
    simp only [result]
    omega
  | logic f _ | plain f => exact w.modulus_eq_pow ▸ BitVec.isLt _

/-- The flags are those of a status, or what they were before. -/
def Registers.Shows (rs before : Registers) : Option Status → Prop
  | some s =>
    rs.flag .carry = s.carry ∧ rs.flag .zero = s.zero ∧ rs.flag .negative = s.negative ∧
      rs.flag .overflow = s.overflow
  | none => rs.sr = before.sr

theorem Registers.shows_withStatus {rs before : Registers} {status : Option Status}
    (h : rs.get .sr = (before.withStatus status).get .sr) : rs.Shows before status := by
  have same (f : Flag) : rs.flag f = (before.withStatus status).flag f := by
    unfold flag sr
    rw [h]
  cases status with
  | none => exact h
  | some s =>
    simp only [Shows, same]
    exact before.flag_setStatus s

namespace Machine

variable {μ : Type} [Bus μ]

/-- Loads a source, resolves a destination and loads it. -/
def pair (op : DoubleOp) (w : Width) (source destination : Operand) :
    Access (Machine μ) (UInt16 × Place × UInt16) := do
  let s ← load w (← resolve w source)
  let p ← resolve w destination
  let d ← loadDestination op w p
  return (s, p, d)

/-- Whether a result is all that is stored, at its target if it has one. The status register, where it is not
the target, is left open. -/
def Takes (w : Width) (before : Machine μ) (target : Option Place) (v : UInt16) (after : Machine μ) : Prop :=
  match target with
  | none => after.memory = before.memory ∧ ∀ q, q ≠ .sr → after.registers.get q = before.registers.get q
  | some (.register r) =>
    after.memory = before.memory ∧ after.registers.get r = v ∧
      ∀ q, q ≠ r → q ≠ .sr → after.registers.get q = before.registers.get q
  | some (.memory a) =>
    Bus.store w a v before.memory = .ok () after.memory ∧
      ∀ q, q ≠ .sr → after.registers.get q = before.registers.get q
  | some (.literal _) => False

theorem pair_eq_ok {op : DoubleOp} {w : Width} {source destination : Operand} {m m' : Machine μ} {s d : UInt16}
    {p : Place} (h : pair op w source destination m = .ok (s, p, d) m') :
    s.toNat < w.modulus ∧ d.toNat < w.modulus ∧
      m'.registers = destination.advance w (source.advance w m.registers) := by
  unfold pair at h
  rw [resolve_bind] at h
  obtain ⟨s', m₁, hs, h⟩ := Access.bind_eq_ok.mp h
  rw [resolve_bind] at h
  obtain ⟨d', m₂, hd, h⟩ := Access.bind_eq_ok.mp h
  cases h
  have advanced : m₁.registers = source.advance w m.registers := load_registers hs
  unfold loadDestination at hd
  split at hd
  · cases hd
    exact ⟨load_lt hs, by cases w <;> decide, by rw [← advanced]⟩
  · exact ⟨load_lt hs, load_lt hd, by rw [load_registers hd, ← advanced]⟩

/-- The carry that an operation works with is the one from before the instruction. -/
theorem pair_carry {op : DoubleOp} {flag : Bool} {source destination : Operand} {m m' : Machine μ} {s d : UInt16}
    {p : Place} (encodable : (Instruction.double op flag source destination).Encodable)
    (h : pair op (Width.ofByteFlag flag) source destination m = .ok (s, p, d) m') :
    m'.registers.sr = m.registers.sr := by
  rw [(pair_eq_ok h).2.2]
  exact Instruction.get_advance encodable m.registers (Instruction.incremented_ne encodable).2.1

theorem execute_double_eq_ok {op : DoubleOp} {flag : Bool} {source destination : Operand} {m m₁ : Machine μ}
    (h : execute (.double op flag source destination) m = .ok () m₁) :
    ∃ s p d m' r, pair op (Width.ofByteFlag flag) source destination m = .ok (s, p, d) m' ∧
      op.apply (Width.ofByteFlag flag) s d (m'.registers.flag .carry) = some r ∧
      commit (Width.ofByteFlag flag) (op.effect p r) m' = .ok () m₁ := by
  rw [executeDouble_eq] at h
  obtain ⟨e, m₂, gathered, committed⟩ := Access.bind_eq_ok.mp h
  unfold gather at gathered
  obtain ⟨q, m₃, hq, gathered⟩ := Access.bind_eq_ok.mp gathered
  obtain ⟨s, m₄, hs, gathered⟩ := Access.bind_eq_ok.mp gathered
  obtain ⟨p, m₅, hp, gathered⟩ := Access.bind_eq_ok.mp gathered
  obtain ⟨d, m', hd, gathered⟩ := Access.bind_eq_ok.mp gathered
  obtain ⟨rs, m₆, looked, gathered⟩ := Access.bind_eq_ok.mp gathered
  cases looked
  have loaded : pair op (Width.ofByteFlag flag) source destination m = .ok (s, p, d) m' := by
    simp only [pair, Access.bind_eq_ok]
    exact ⟨q, m₃, hq, s, m₄, hs, p, m₅, hp, d, m', hd, rfl⟩
  cases applied : op.apply (Instruction.double op flag source destination).width s d (m'.registers.flag .carry) with
  | none =>
    rw [applied] at gathered
    cases gathered
  | some r =>
    rw [applied] at gathered
    cases gathered
    exact ⟨s, p, d, m₂, r, loaded, applied, committed⟩

theorem execute_double_of_pair {op : DoubleOp} {flag : Bool} {source destination : Operand} {m m' : Machine μ}
    {s d : UInt16} {p : Place} {r : AluResult}
    (loaded : pair op (Width.ofByteFlag flag) source destination m = .ok (s, p, d) m')
    (applied : op.apply (Width.ofByteFlag flag) s d (m'.registers.flag .carry) = some r) :
    execute (.double op flag source destination) m = commit (Width.ofByteFlag flag) (op.effect p r) m' := by
  simp only [pair, Access.bind_eq_ok] at loaded
  obtain ⟨q, m₁, hq, s, m₂, hs, p, m₃, hp, d, m₄, hd, finished⟩ := loaded
  cases finished
  have looked : (getRegisters : Access (Machine μ) Registers) m' = .ok m'.registers m' := rfl
  have gathered : gather (.double op flag source destination) m = .ok (op.effect p r) m' := by
    unfold gather
    refine Access.bind_eq_ok.mpr ⟨q, m₁, hq, ?_⟩
    refine Access.bind_eq_ok.mpr ⟨s, m₂, hs, ?_⟩
    refine Access.bind_eq_ok.mpr ⟨p, m₃, hp, ?_⟩
    refine Access.bind_eq_ok.mpr ⟨d, m', hd, ?_⟩
    refine Access.bind_eq_ok.mpr ⟨m'.registers, m', looked, ?_⟩
    have applied' : op.apply (Instruction.double op flag source destination).width s d
        (m'.registers.flag .carry) = some r := applied
    rw [applied']
    rfl
  rw [executeDouble_eq, Access.bind_of_ok gathered]
  rfl

/-- A result is stored at its place, if the operation stores it, and its flags are set. -/
theorem commit_takes {op : DoubleOp} {w : Width} {p : Place} {r : AluResult} {m m₁ : Machine μ}
    (small : r.value.toNat < w.modulus) (h : commit w (op.effect p r) m = .ok () m₁) :
    Takes w m (if op.stores then some p else none) r.value m₁ ∧
      (op.stores = false ∨ p ≠ .register .sr → m₁.registers.Shows m.registers r.status) := by
  have others (q : Reg) (hq : q ≠ .sr) : (m.registers.withStatus r.status).get q = m.registers.get q :=
    Registers.get_withStatus _ _ hq
  have trimmed : w.trim r.value = r.value := by
    rw [← UInt16.toNat_inj, Width.toNat_trim, Nat.mod_eq_of_lt small]
  rw [commit_apply] at h
  unfold DoubleOp.effect at h
  cases stores : op.stores with
  | false =>
    simp only [stores, Bool.false_eq_true, if_false, Effect.refusal?, Effect.store?] at h
    cases h
    exact ⟨⟨rfl, others⟩, fun _ => Registers.shows_withStatus rfl⟩
  | true =>
    simp only [stores, if_true] at h ⊢
    cases p with
    | literal v => cases h
    | register q =>
      simp only [Effect.refusal?] at h
      split at h
      · cases h
      · simp only [Effect.store?] at h
        cases h
        simp only [Effect.finish, Effect.prepare, trimmed]
        refine ⟨⟨rfl, Registers.get_set_self _ _ _, fun q' ne hq => ?_⟩, ?_⟩
        · rw [Registers.get_set_ne _ _ ne, others q' hq]
        · rintro (impossible | elsewhere)
          · cases impossible
          · exact Registers.shows_withStatus (Registers.get_set_ne _ _ fun same => elsewhere (same ▸ rfl))
    | memory a =>
      simp only [Effect.refusal?, Effect.store?] at h
      split at h <;> cases h
      next stored => exact ⟨⟨stored, others⟩, fun _ => Registers.shows_withStatus rfl⟩

/-- A two-operand instruction that is carried out loads its operands, computes what its law tells of them and of
the carry from before, and stores the result where the destination is, or nowhere if it only compares or tests.
The flags are those of the law, unless the result has gone to the status register itself. -/
theorem execute_double {op : DoubleOp} {flag : Bool} {source destination : Operand} {m m₁ : Machine μ}
    (encodable : (Instruction.double op flag source destination).Encodable)
    (h : execute (.double op flag source destination) m = .ok () m₁) :
    let w := Width.ofByteFlag flag
    let c := m.registers.flag .carry
    ∃ law s p d m' v, op.law? = some law ∧ pair op w source destination m = .ok (s, p, d) m' ∧
      s.toNat < w.modulus ∧ d.toNat < w.modulus ∧ v.toNat = law.result w s d c ∧
      Takes w m' (if op.stores then some p else none) v m₁ ∧
      (op.stores = false ∨ p ≠ .register .sr → m₁.registers.Shows m.registers (law.status? w s d c)) := by
  intro w c
  obtain ⟨s, p, d, m', r, loaded, applied, committed⟩ := execute_double_eq_ok h
  obtain ⟨hs, hd, -⟩ := pair_eq_ok loaded
  have sr : m'.registers.sr = m.registers.sr := pair_carry encodable loaded
  have carry : m'.registers.flag .carry = c := by
    unfold Registers.flag
    rw [sr]
    rfl
  cases lawful : op.law? with
  | none =>
    cases op <;> cases lawful
    cases applied
  | some law =>
    obtain ⟨r', applied', value, status⟩ := DoubleOp.apply_gives lawful hs hd c
    rw [carry, applied'] at applied
    cases applied
    have small : r.value.toNat < w.modulus := by
      rw [value]
      exact law.result_lt w s d c
    obtain ⟨takes, flags⟩ := commit_takes small committed
    refine ⟨law, s, p, d, m', r.value, rfl, loaded, hs, hd, value, takes, fun elsewhere => ?_⟩
    have shown := flags elsewhere
    rw [status] at shown
    cases told : law.status? w s d c with
    | none =>
      rw [told] at shown
      exact shown.trans sr
    | some st =>
      rw [told] at shown
      exact shown

/-- A machine that is to take -128 and a borrow from 127. The register tells where the -128 is. -/
def borrowing (r : Reg) : Machine Memory :=
  { registers := (Registers.zero.set .pc 0x4406).set r 0x3002
    memory := (Memory.empty.storeByte 0x3000 0x7F).storeByte 0x3002 0x80 }

/-- The machine after that, with the source register moved on and the overflow noted. -/
def borrowed (r : Reg) : Machine Memory :=
  { registers := ((borrowing r).registers.set r 0x3003).set .sr 0x0104
    memory := (borrowing r).memory.storeByte 0x3000 0xFE }

theorem borrowing_overflows :
    (Instruction.double .subc true (.autoIncrement 5) (.absolute 0x3000)).Encodable ∧
      execute (.double .subc true (.autoIncrement 5) (.absolute 0x3000)) (borrowing 5) = .ok () (borrowed 5) ∧
      ∃ law s p d m' v, DoubleOp.law? .subc = some law ∧
        pair .subc .byte (.autoIncrement 5) (.absolute 0x3000) (borrowing 5) = .ok (s, p, d) m' ∧
        s.toNat < 0x100 ∧ d.toNat < 0x100 ∧ v.toNat = law.result .byte s d false ∧
        Takes .byte m' (some p) v (borrowed 5) ∧
        (DoubleOp.stores .subc = false ∨ p ≠ .register .sr →
          (borrowed 5).registers.Shows (borrowing 5).registers (law.status? .byte s d false)) := by
  have encodable : (Instruction.double .subc true (.autoIncrement 5) (.absolute 0x3000)).Encodable :=
    ⟨⟨by decide, by decide, by decide⟩, trivial⟩
  have executed :
      execute (.double .subc true (.autoIncrement 5) (.absolute 0x3000)) (borrowing 5) = .ok () (borrowed 5) := rfl
  have lawful := execute_double encodable executed
  exact ⟨encodable, executed, lawful⟩

end Machine

end Msp430
