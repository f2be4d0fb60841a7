import Mathlib.Data.Nat.Digits.Defs
import Msp430.Proofs.Arithmetic
import Msp430.Proofs.FlatMemory

/-!
# Carry chains

Numbers longer than a word are added value by value from the lowest on, each addition taking up the carry of the
one before. The invariant is that the digits so far and the carry make up the sum so far; the overflow of the whole
is that of its highest digit. A chain of subtractions is a chain of additions of complements.
-/

namespace Msp430

/-! ### Numbers of several digits -/

namespace Width

variable {w : Width} {k x y a r d b t n : Nat} {c c' : Bool} {rs : Registers}

/-- A number with `k` digits above its lowest one, as a bit vector. -/
def long (w : Width) (k n : Nat) : BitVec (w.bits * (k + 1)) := .ofNat _ n

theorem modulus_pow (w : Width) (k : Nat) : w.modulus ^ (k + 1) = 2 ^ (w.bits * (k + 1)) := by
  rw [modulus_eq_pow, Nat.pow_mul]

theorem modulus_pow_eq (w : Width) (k : Nat) : w.modulus ^ (k + 1) = 2 * (w.half * w.modulus ^ k) := by
  rw [Nat.pow_succ', modulus_eq, Nat.mul_assoc]

theorem toNat_long (h : n < w.modulus ^ (k + 1)) : (w.long k n).toNat = n := by
  rw [long, BitVec.toNat_ofNat, ← modulus_pow, Nat.mod_eq_of_lt h]

theorem toInt_long (h : n < w.modulus ^ (k + 1)) :
    (w.long k n).toInt = if n < w.half * w.modulus ^ k then (n : Int) else n - (w.modulus ^ (k + 1) : Nat) := by
  have double := w.modulus_pow_eq k
  rw [BitVec.toInt_eq_toNat_cond, toNat_long h, ← modulus_pow]
  split <;> split <;> omega

/-- The signed numbers with `k` digits above the lowest one. -/
def FitsLong (w : Width) (k : Nat) (n : Int) : Prop :=
  -(w.half * w.modulus ^ k : Nat) ≤ n ∧ n < (w.half * w.modulus ^ k : Nat)

instance (w : Width) (k : Nat) (n : Int) : Decidable (w.FitsLong k n) := inferInstanceAs (Decidable (_ ∧ _))

/-- A digit put below a number leaves the sign to the number. -/
theorem toInt_long_digit (hd : d < w.modulus) (hn : n < w.modulus ^ (k + 1)) :
    (w.long (k + 1) (d + w.modulus * n)).toInt = d + w.modulus * (w.long k n).toInt := by
  have room : w.modulus * (n + 1) ≤ w.modulus ^ (k + 1 + 1) := by
    rw [Nat.pow_succ' (n := k + 1)]
    exact Nat.mul_le_mul_left _ hn
  have next : w.half * w.modulus ^ (k + 1) = w.modulus * (w.half * w.modulus ^ k) := by
    rw [Nat.pow_succ', Nat.mul_left_comm]
  rw [toInt_long (by rw [Nat.mul_succ] at room; omega), toInt_long hn, next, Nat.pow_succ' (n := k + 1)]
  by_cases below : n < w.half * w.modulus ^ k
  · have := Nat.mul_le_mul_left w.modulus (Nat.succ_le_of_lt below)
    rw [Nat.mul_succ] at this
    rw [if_pos below, if_pos (by omega)]
    push_cast
    rfl
  · have := Nat.mul_le_mul_left w.modulus (Nat.le_of_not_lt below)
    rw [if_neg below, if_neg (by omega)]
    push_cast
    ring

theorem fitsLong_digit (hr : r < w.modulus) (z : Int) :
    w.FitsLong (k + 1) (r + w.modulus * z) ↔ w.FitsLong k z := by
  have next : ((w.half * w.modulus ^ (k + 1) : Nat) : Int) = w.modulus * (w.half * w.modulus ^ k : Nat) := by
    push_cast
    ring
  have positive : (0 : Int) < w.modulus := by omega
  unfold FitsLong
  rw [next]
  generalize ((w.half * w.modulus ^ k : Nat) : Int) = half
  constructor
  · rintro ⟨above, below⟩
    refine ⟨?_, ?_⟩
    · have : (w.modulus : Int) * (-half) < w.modulus * (z + 1) := by
        rw [Int.mul_add, Int.mul_neg]
        omega
      have := Int.lt_of_mul_lt_mul_left this (Int.le_of_lt positive)
      omega
    · exact Int.lt_of_mul_lt_mul_left (a := (w.modulus : Int)) (by omega) (Int.le_of_lt positive)
  · rintro ⟨above, below⟩
    have low := Int.mul_le_mul_of_nonneg_left above (Int.le_of_lt positive)
    have high := Int.mul_le_mul_of_nonneg_left (Int.add_one_le_of_lt below) (Int.le_of_lt positive)
    rw [Int.mul_neg] at low
    rw [Int.mul_add] at high
    exact ⟨by omega, by omega⟩

/-- A number `r` and the flags are what adding two numbers and a carry leaves. -/
structure Adds (w : Width) (k y a : Nat) (c : Bool) (r : Nat) (rs : Registers) : Prop where
  total : r + w.modulus ^ (k + 1) * (rs.flag .carry).toNat = y + a + c.toNat
  overflow : rs.flag .overflow = decide (¬ w.FitsLong k ((w.long k y).toInt + (w.long k a).toInt + c.toNat))

/-- Where the lowest digits have given a carry and the others have been added with it, all have been added. -/
theorem Adds.digit (ha : a < w.modulus) (hb : b < w.modulus) (hr : r < w.modulus)
    (hx : x < w.modulus ^ (k + 1)) (hy : y < w.modulus ^ (k + 1))
    (lowest : r + w.modulus * c'.toNat = b + a + c.toNat) (others : w.Adds k y x c' t rs) :
    w.Adds (k + 1) (b + w.modulus * y) (a + w.modulus * x) c (r + w.modulus * t) rs := by
  constructor
  · calc r + w.modulus * t + w.modulus ^ (k + 1 + 1) * (rs.flag .carry).toNat
        = r + w.modulus * (t + w.modulus ^ (k + 1) * (rs.flag .carry).toNat) := by ring
      _ = r + w.modulus * (y + x + c'.toNat) := by rw [others.total]
      _ = r + w.modulus * c'.toNat + w.modulus * (y + x) := by ring
      _ = b + w.modulus * y + (a + w.modulus * x) + c.toNat := by
        rw [lowest]
        ring
  · have exact : (w.long (k + 1) (b + w.modulus * y)).toInt + (w.long (k + 1) (a + w.modulus * x)).toInt + c.toNat =
        r + w.modulus * ((w.long k y).toInt + (w.long k x).toInt + c'.toNat) := by
      have lowest : (b : Int) + a + c.toNat = r + w.modulus * c'.toNat := by exact_mod_cast lowest.symm
      rw [toInt_long_digit hb hy, toInt_long_digit ha hx]
      calc (b : Int) + w.modulus * (w.long k y).toInt + (a + w.modulus * (w.long k x).toInt) + c.toNat
          = b + a + c.toNat + w.modulus * ((w.long k y).toInt + (w.long k x).toInt) := by ring
        _ = _ := by
          rw [lowest]
          ring
    rw [others.overflow, exact]
    exact decide_eq_decide.mpr (not_congr (fitsLong_digit hr _).symm)

/-- One digit is added by the arithmetic unit. -/
theorem adds_addWithCarry {d s : UInt16} (hd : d.toNat < w.modulus) (hs : s.toNat < w.modulus)
    {rs before : Registers} (shown : rs.Shows before (w.addWithCarry d s c).status) :
    w.Adds 0 d.toNat s.toNat c (w.addWithCarry d s c).value.toNat rs := by
  have carries := addWithCarry_carries hd hs c
  rw [addWithCarry_status hd hs c] at shown
  obtain ⟨carry, -, -, overflow⟩ := shown
  have one (v : UInt16) (hv : v.toNat < w.modulus) : (w.long 0 v.toNat).toInt = (w.value v).toInt := by
    have double := w.modulus_eq
    rw [toInt_value hv, toInt_long (by rwa [Nat.zero_add, Nat.pow_one]), Nat.zero_add, Nat.pow_one, Nat.pow_zero,
      Nat.mul_one]
    split <;> split <;> omega
  constructor
  · rw [carry]
    simpa using carries
  · rw [overflow, one d hd, one s hs]
    simp [FitsLong, FitsSigned]

/-! ### What is left in the end -/

theorem not_fitsLong (k : Nat) (z : Int) :
    decide (¬ w.FitsLong k z) =
      (decide (z ≥ 2 ^ (w.bits * (k + 1) - 1)) || decide (z < -2 ^ (w.bits * (k + 1) - 1))) := by
  have half : w.half = 2 ^ (w.bits - 1) := by cases w <;> rfl
  have positive : 0 < w.bits := by cases w <;> decide
  have reach : ((w.half * w.modulus ^ k : Nat) : Int) = 2 ^ (w.bits * (k + 1) - 1) := by
    have exponent : w.bits * (k + 1) - 1 = w.bits - 1 + w.bits * k := by
      rw [Nat.mul_succ]
      omega
    rw [exponent, half, modulus_eq_pow, ← Nat.pow_mul, ← Nat.pow_add]
    norm_cast
  rw [← Bool.decide_or]
  refine decide_eq_decide.mpr ?_
  unfold FitsLong
  rw [reach]
  omega

theorem Adds.sum (hr : r < w.modulus ^ (k + 1)) (h : w.Adds k y x false r rs) :
    r = (y + x) % 2 ^ (w.bits * (k + 1)) ∧ rs.flag .carry = decide (2 ^ (w.bits * (k + 1)) ≤ y + x) ∧
      rs.flag .overflow = BitVec.saddOverflow (w.long k y) (w.long k x) := by
  obtain ⟨total, overflow⟩ := h
  rw [← w.modulus_pow]
  refine ⟨?_, ?_, ?_⟩
  · have total : y + x = r + w.modulus ^ (k + 1) * (rs.flag .carry).toNat := total.symm
    rw [total, Nat.add_mul_mod_self_left, Nat.mod_eq_of_lt hr]
  · cases carry : rs.flag .carry <;> simp [carry] at total ⊢ <;> omega
  · rw [overflow, not_fitsLong, Bool.toNat_false, Int.ofNat_zero, Int.add_zero]
    rfl

/-- A number below the power and its complement have opposite signs. -/
theorem toInt_long_complement (hx : x < w.modulus ^ (k + 1)) :
    (w.long k (w.modulus ^ (k + 1) - 1 - x)).toInt = -1 - (w.long k x).toInt := by
  have double := w.modulus_pow_eq k
  rw [toInt_long (by omega), toInt_long hx]
  split <;> split <;> omega

theorem Adds.difference (hx : x < w.modulus ^ (k + 1)) (hr : r < w.modulus ^ (k + 1))
    (h : w.Adds k y (w.modulus ^ (k + 1) - 1 - x) true r rs) :
    (r : Int) = ((y : Int) - x) % (2 ^ (w.bits * (k + 1)) : Nat) ∧ rs.flag .carry = !decide (y < x) ∧
      rs.flag .overflow = BitVec.ssubOverflow (w.long k y) (w.long k x) := by
  obtain ⟨total, overflow⟩ := h
  rw [toInt_long_complement hx] at overflow
  rw [← w.modulus_pow]
  generalize w.modulus ^ (k + 1) = power at *
  rw [Bool.toNat_true] at total
  refine ⟨?_, ?_, ?_⟩
  · have exact : (y : Int) - x = r + power * ((rs.flag .carry).toNat - 1) := by
      rw [Int.mul_sub, Int.mul_one]
      have total : (r : Int) + power * (rs.flag .carry).toNat = y + (power - 1 - x : Nat) + 1 := by exact_mod_cast total
      omega
    rw [exact, Int.add_mul_emod_self_left, Int.emod_eq_of_lt (by omega) (by omega)]
  · cases carry : rs.flag .carry <;> simp [carry] at total ⊢ <;> omega
  · have exact : (w.long k y).toInt + (-1 - (w.long k x).toInt) + true.toNat =
        (w.long k y).toInt - (w.long k x).toInt := by
      rw [Bool.toNat_true]
      omega
    rw [overflow, exact, not_fitsLong]
    rfl

end Width

/-! ### Ordinary operands -/

namespace Operand

/-- A general register, or an address off the console where a value of the width may be. -/
def Ordinary (w : Width) : Operand → Prop
  | register r => 4 ≤ r.val
  | absolute a => Memory.isConsole a = false ∧ (w = .word → Memory.TakesWord a)
  | _ => False

instance (w : Width) : (o : Operand) → Decidable (o.Ordinary w)
  | register r => inferInstanceAs (Decidable (4 ≤ r.val))
  | absolute _ => inferInstanceAs (Decidable (_ ∧ _))
  | indexed _ _ | indirect _ | autoIncrement _ | immediate _ | constant _ => inferInstanceAs (Decidable False)

/-- The value that an ordinary operand holds. -/
def valueIn (w : Width) (m : Machine Memory) : Operand → UInt16
  | register r => w.trim (m.registers.get r)
  | absolute a =>
    match w with
    | .byte => (m.memory.byteAt a).toUInt16
    | .word => m.memory.word a
  | _ => 0

variable {w : Width} {o o' : Operand} {m m' : Machine Memory}

theorem valueIn_lt (w : Width) (m : Machine Memory) (o : Operand) : (o.valueIn w m).toNat < w.modulus := by
  have positive : 0 < w.modulus := by cases w <;> decide
  cases o with
  | register r =>
    simp only [valueIn, Width.toNat_trim]
    exact Nat.mod_lt _ positive
  | absolute a =>
    cases w with
    | byte =>
      simp only [valueIn, UInt8.toNat_toUInt16]
      exact (m.memory.byteAt a).toNat_lt
    | word => exact UInt16.toNat_lt _
  | _ => exact positive

/-- What an ordinary operand holds does not depend on the program counter or the flags. -/
theorem valueIn_congr (ordinary : o.Ordinary w) (memory : m'.memory = m.memory)
    (registers : ∀ r : Reg, 4 ≤ r.val → m'.registers.get r = m.registers.get r) :
    o.valueIn w m' = o.valueIn w m := by
  cases o with
  | register r => rw [valueIn, valueIn, registers r ordinary]
  | absolute a => cases w <;> rw [valueIn, valueIn, memory]
  | _ => rfl

theorem resolve_ordinary (ordinary : o.Ordinary w) :
    Machine.resolve w o m = .ok (o.place m.registers) m := by
  cases o with
  | register r | absolute a => rfl
  | _ => exact ordinary.elim

theorem load_ordinary (ordinary : o.Ordinary w) :
    Machine.load w (o.place m.registers) m = .ok (o.valueIn w m) m := by
  cases o with
  | register r =>
    have general : r ≠ .cg := by
      rintro rfl
      exact absurd (show 4 ≤ 3 from ordinary) (by decide)
    change EStateM.Result.ok (w.trim (m.registers.base r)) m = _
    rw [Registers.base, if_neg general]
    rfl
  | absolute a =>
    cases w with
    | byte => rfl
    | word =>
      have loaded : m.memory.loadWord a = .ok (m.memory.word a) := Memory.loadWord_eq_ok.mpr ⟨ordinary.2 rfl, rfl⟩
      simp only [place, Machine.load, Machine.onMemory, Access.focus, Bus.load, Bus.loadWord, Access.look, loaded]
      rfl
  | _ => exact ordinary.elim

theorem ne_sr_of_general {q : Reg} (general : 4 ≤ q.val) : q ≠ .sr := by
  rintro rfl
  exact absurd general (by decide)

theorem check_of_ordinary {a : UInt16} (ordinary : (absolute a).Ordinary w) : Memory.check w a = .ok () := by
  cases w with
  | byte => rfl
  | word => exact Memory.checkWord_eq_ok.mpr (ordinary.2 rfl)

/-- What a word or a byte written off the console leaves in memory operands. -/
theorem valueIn_write {a v : UInt16} (ordinary : (absolute a).Ordinary w) (small : v.toNat < w.modulus)
    (rs : Registers) :
    (absolute a).valueIn w ⟨rs, m.memory.write w a v⟩ = v ∧
      ∀ a', (absolute a').Ordinary w → a' ≠ a →
        (absolute a').valueIn w ⟨rs, m.memory.write w a v⟩ = (absolute a').valueIn w m := by
  obtain ⟨plain, aligned⟩ := ordinary
  cases w with
  | byte =>
    have low : (lowByte v).toUInt16 = v := by
      rw [← UInt16.toNat_inj, UInt8.toNat_toUInt16, lowByte, UInt8.toNat_ofNat']
      exact Nat.mod_eq_of_lt small
    refine ⟨?_, fun a' _ apart => ?_⟩
    · simp only [valueIn, Memory.write, Memory.byteAt_storeByte, plain, and_self, if_true, low]
    · simp only [valueIn, Memory.write, Memory.byteAt_storeByte, apart, false_and, if_false]
  | word =>
    have taken := aligned rfl
    refine ⟨Memory.word_write_self _ _ plain, fun a' ordinary' apart => ?_⟩
    have taken' := ordinary'.2 rfl
    have half : a ≠ a' + 1 := by
      rintro rfl
      obtain ⟨even, -⟩ := taken
      obtain ⟨even', -⟩ := taken'
      rw [UInt16.toNat_add, UInt16.toNat_one] at even
      omega
    exact Memory.word_write (w := .word) v (Memory.checkWord_eq_ok.mpr taken) (Memory.checkWord_eq_ok.mpr taken')
      (Ne.symm apart) half

/-- A result stored in an ordinary operand is what the operand then holds, and all others hold what they did. -/
theorem commit_ordinary {r : AluResult} (ordinary : o.Ordinary w) (small : r.value.toNat < w.modulus) :
    ∃ m', Machine.commit w (.assign (o.place m.registers) r) m = .ok () m' ∧ o.valueIn w m' = r.value ∧
      m'.registers.Shows m.registers r.status ∧
      ∀ o' : Operand, o'.Ordinary w → o' ≠ o → o'.valueIn w m' = o'.valueIn w m := by
  have flagged {q : Reg} (general : 4 ≤ q.val) :
      (m.registers.withStatus r.status).get q = m.registers.get q :=
    Registers.get_withStatus _ _ (ne_sr_of_general general)
  rw [Machine.commit_flat]
  cases o with
  | register q =>
    have general : 4 ≤ q.val := ordinary
    have notCg : q ≠ .cg := by
      rintro rfl
      exact absurd general (by decide)
    have trimmed : w.trim r.value = r.value := by
      rw [← UInt16.toNat_inj, Width.toNat_trim, Nat.mod_eq_of_lt small]
    simp only [place, Effect.refusal?, notCg, if_false, Effect.store?]
    refine ⟨_, rfl, ?_, ?_, fun o' ordinary' other => ?_⟩
    · simp only [valueIn, Effect.finish, Registers.get_set_self, trimmed]
    · exact Registers.shows_withStatus (Registers.get_set_ne _ _ (Ne.symm (ne_sr_of_general general)))
    · cases o' with
      | register q' =>
        have apart : q' ≠ q := fun same => other (same ▸ rfl)
        simp only [valueIn, Effect.finish, Effect.prepare, Registers.get_set_ne _ _ apart, flagged ordinary']
      | absolute a => cases w <;> rfl
      | _ => exact ordinary'.elim
  | absolute a =>
    obtain ⟨stored, others⟩ := valueIn_write (m := m) ordinary small (m.registers.withStatus r.status)
    simp only [place, Effect.refusal?, Effect.store?, check_of_ordinary ordinary]
    refine ⟨_, rfl, stored, Registers.shows_withStatus rfl, fun o' ordinary' other => ?_⟩
    cases o' with
    | register q' => simp only [valueIn, Effect.finish, Effect.prepare, flagged ordinary']
    | absolute a' => exact others a' ordinary' fun same => other (same ▸ rfl)
    | _ => exact ordinary'.elim
  | _ => exact ordinary.elim

end Operand

/-- The operation adds something made of the source and a carry, which may be another than the flag says. -/
structure DoubleOp.Adding (op : DoubleOp) (w : Width) (addend : UInt16 → UInt16) (flag carry : Bool) : Prop where
  loads : op ≠ .mov
  stores : op.stores = true
  applied : ∀ s d, op.apply w s d flag = some (w.addWithCarry d (addend s) carry)

namespace DoubleOp

theorem adding_add (w : Width) (flag : Bool) : add.Adding w id flag false := ⟨by decide, rfl, fun _ _ => rfl⟩

theorem adding_addc (w : Width) (flag : Bool) : addc.Adding w id flag flag := ⟨by decide, rfl, fun _ _ => rfl⟩

theorem adding_sub (w : Width) (flag : Bool) : sub.Adding w w.complement flag true :=
  ⟨by decide, rfl, fun _ _ => rfl⟩

theorem adding_subc (w : Width) (flag : Bool) : subc.Adding w w.complement flag flag :=
  ⟨by decide, rfl, fun _ _ => rfl⟩

end DoubleOp

namespace Machine

variable {w : Width} {flag : Bool} {m m' : Machine Memory}

/-- An operation that stores what it computes from both operands does so on ordinary ones. -/
theorem execute_ordinary {op : DoubleOp} {source destination : Operand} {r : AluResult}
    (width : Width.ofByteFlag flag = w) (loads : op ≠ .mov) (stores : op.stores = true) (hs : source.Ordinary w)
    (hd : destination.Ordinary w)
    (applied : op.apply w (source.valueIn w m) (destination.valueIn w m) (m.registers.flag .carry) = some r)
    (small : r.value.toNat < w.modulus) :
    ∃ m', execute (.double op flag source destination) m = .ok () m' ∧ destination.valueIn w m' = r.value ∧
      m'.registers.Shows m.registers r.status ∧
      ∀ o : Operand, o.Ordinary w → o ≠ destination → o.valueIn w m' = o.valueIn w m := by
  subst width
  have loaded : pair op (Width.ofByteFlag flag) source destination m =
      .ok (source.valueIn (Width.ofByteFlag flag) m, destination.place m.registers,
        destination.valueIn (Width.ofByteFlag flag) m) m := by
    unfold pair loadDestination
    rw [Access.bind_of_ok (Operand.resolve_ordinary hs), Access.bind_of_ok (Operand.load_ordinary hs),
      Access.bind_of_ok (Operand.resolve_ordinary hd), if_neg loads, Access.bind_of_ok (Operand.load_ordinary hd)]
    rfl
  obtain ⟨m', committed, rest⟩ := Operand.commit_ordinary (m := m) hd small
  refine ⟨m', ?_, rest⟩
  rw [execute_double_of_pair loaded applied, DoubleOp.effect, if_pos stores]
  exact committed

/-! ### Chains -/

/-- The number in operands that hold a digit each, the lowest first. -/
def number (w : Width) (m : Machine Memory) (os : List Operand) : Nat :=
  Nat.ofDigits w.modulus (os.map fun o => (o.valueIn w m).toNat)

/-- Carries out instructions one after the other, wherever each of them is found. -/
def carryOut : List (UInt16 × Instruction) → Access (Machine Memory) Unit
  | [] => pure ()
  | (pc, i) :: rest => do
    setRegisters ((← getRegisters).set .pc pc)
    execute i
    carryOut rest

/-- The instructions on pairs of a source and a destination, the lowest of which has an operation of its own. -/
def chain (lowest next : DoubleOp) (flag : Bool) : List (Operand × Operand) → List Instruction
  | [] => []
  | (source, destination) :: rest => .double lowest flag source destination :: chain next next flag rest

theorem number_lt (w : Width) (m : Machine Memory) (os : List Operand) : number w m os < w.modulus ^ os.length := by
  have base : 1 < w.modulus := by cases w <;> decide
  have bounded := Nat.ofDigits_lt_base_pow_length (l := os.map fun o => (o.valueIn w m).toNat) base fun x hx => by
    obtain ⟨o, -, rfl⟩ := List.mem_map.mp hx
    exact o.valueIn_lt w m
  rwa [List.length_map] at bounded

variable {lowest next : DoubleOp} {addend : UInt16 → UInt16} {c : Bool} {source destination : Operand}

/-- The instruction on a pair adds the digits of the pair and leaves all other operands as they are. -/
theorem step_adds (width : Width.ofByteFlag flag = w)
    (small : ∀ s, s.toNat < w.modulus → (addend s).toNat < w.modulus)
    (adding : lowest.Adding w addend (m.registers.flag .carry) c) (hs : source.Ordinary w)
    (hd : destination.Ordinary w) (pc : UInt16) :
    ∃ m', execute (.double lowest flag source destination) { m with registers := m.registers.set .pc pc } =
        .ok () m' ∧
      w.Adds 0 (destination.valueIn w m).toNat (addend (source.valueIn w m)).toNat c (destination.valueIn w m').toNat
        m'.registers ∧
      ∀ o : Operand, o.Ordinary w → o ≠ destination → o.valueIn w m' = o.valueIn w m := by
  obtain ⟨loads, stores, applied⟩ := adding
  have moved {o : Operand} (ordinary : o.Ordinary w) :
      o.valueIn w { m with registers := m.registers.set .pc pc } = o.valueIn w m := by
    refine Operand.valueIn_congr ordinary rfl fun r general => Registers.get_set_ne _ _ ?_
    rintro rfl
    exact absurd general (by decide)
  have result := applied (source.valueIn w m) (destination.valueIn w m)
  have inside : (w.addWithCarry (destination.valueIn w m) (addend (source.valueIn w m)) c).value.toNat < w.modulus := by
    rw [Width.toNat_addWithCarry]
    exact Nat.mod_lt _ (by cases w <;> decide)
  have same : (m.registers.set .pc pc).flag .carry = m.registers.flag .carry := by
    unfold Registers.flag Registers.sr
    rw [Registers.get_set_ne _ _ (by decide)]
  rw [← moved hs, ← moved hd, ← same] at result
  rw [← moved hs, ← moved hd] at inside
  obtain ⟨m', executed, held, shown, others⟩ := execute_ordinary width loads stores hs hd result inside
  refine ⟨m', executed, ?_, fun o ordinary other => (others o ordinary other).trans (moved ordinary)⟩
  rw [held, moved hs, moved hd]
  rw [moved hs, moved hd] at shown
  exact Width.adds_addWithCarry (destination.valueIn_lt w m) (small _ (source.valueIn_lt w m)) shown

theorem addends_lt (small : ∀ s, s.toNat < w.modulus → (addend s).toNat < w.modulus) (m : Machine Memory)
    (pairs : List (Operand × Operand)) :
    Nat.ofDigits w.modulus (pairs.map fun p => (addend (p.1.valueIn w m)).toNat) < w.modulus ^ pairs.length := by
  have base : 1 < w.modulus := by cases w <;> decide
  have bounded := Nat.ofDigits_lt_base_pow_length (l := pairs.map fun p => (addend (p.1.valueIn w m)).toNat) base
    fun x hx => by
      obtain ⟨p, -, rfl⟩ := List.mem_map.mp hx
      exact small _ (p.1.valueIn_lt w m)
  rwa [List.length_map] at bounded

/-- The lowest destination is none of the operands above it. -/
theorem apart_of_nodup {pairs : List (Operand × Operand)}
    (distinct : (((source, destination) :: pairs).map Prod.fst ++
      ((source, destination) :: pairs).map Prod.snd).Nodup) :
    (∀ p ∈ pairs, p.1 ≠ destination) ∧ destination ∉ pairs.map Prod.snd ∧
      (pairs.map Prod.fst ++ pairs.map Prod.snd).Nodup := by
  obtain ⟨sources, destinations, apart⟩ := List.nodup_append.mp distinct
  obtain ⟨-, sources⟩ := List.nodup_cons.mp sources
  obtain ⟨new, destinations⟩ := List.nodup_cons.mp destinations
  refine ⟨fun p hp => ?_, new, List.nodup_append.mpr ⟨sources, destinations, fun a ha b hb => ?_⟩⟩
  · exact apart _ (List.mem_cons_of_mem _ (List.mem_map_of_mem hp)) _ List.mem_cons_self
  · exact apart a (List.mem_cons_of_mem _ ha) b (List.mem_cons_of_mem _ hb)

/-- A chain adds the numbers in its operands. The induction is on the pairs above the lowest one. -/
theorem chain_adds (width : Width.ofByteFlag flag = w)
    (small : ∀ s, s.toNat < w.modulus → (addend s).toNat < w.modulus) (carried : ∀ c, next.Adding w addend c c)
    {pair : Operand × Operand} {pairs : List (Operand × Operand)} {program : List (UInt16 × Instruction)}
    (adding : lowest.Adding w addend (m.registers.flag .carry) c)
    (ordinary : ∀ p ∈ pair :: pairs, p.1.Ordinary w ∧ p.2.Ordinary w)
    (distinct : ((pair :: pairs).map Prod.fst ++ (pair :: pairs).map Prod.snd).Nodup)
    (instructions : program.map Prod.snd = chain lowest next flag (pair :: pairs)) :
    ∃ m', carryOut program m = .ok () m' ∧
      w.Adds pairs.length (number w m ((pair :: pairs).map Prod.snd))
        (Nat.ofDigits w.modulus ((pair :: pairs).map fun p => (addend (p.1.valueIn w m)).toNat)) c
        (number w m' ((pair :: pairs).map Prod.snd)) m'.registers ∧
      ∀ o : Operand, o.Ordinary w → o ∉ (pair :: pairs).map Prod.snd → o.valueIn w m' = o.valueIn w m := by
  induction pairs generalizing pair lowest c m program with
  | nil =>
    obtain ⟨source, destination⟩ := pair
    obtain ⟨⟨pc, i⟩, rest, rfl, rfl, rest_nil⟩ := List.map_eq_cons_iff.mp instructions
    obtain rfl := List.map_eq_nil_iff.mp rest_nil
    obtain ⟨hs, hd⟩ := ordinary _ (List.mem_singleton_self _)
    obtain ⟨m₁, executed, adds, others⟩ := step_adds width small adding hs hd pc
    refine ⟨m₁, ?_, ?_, fun o ho other => others o ho fun same => other (same ▸ List.mem_singleton_self _)⟩
    · change (execute _ >>= fun _ => pure ()) _ = _
      rw [Access.bind_of_ok executed]
      rfl
    · simpa only [number, List.map_cons, List.map_nil, Nat.ofDigits_singleton, List.length_nil] using adds
  | cons pair' pairs ih =>
    obtain ⟨source, destination⟩ := pair
    obtain ⟨⟨pc, i⟩, rest, rfl, rfl, others_follow⟩ := List.map_eq_cons_iff.mp instructions
    obtain ⟨hs, hd⟩ := ordinary _ List.mem_cons_self
    obtain ⟨m₁, executed, lowest_adds, others⟩ := step_adds width small adding hs hd pc
    obtain ⟨sources, new, distinct'⟩ := apart_of_nodup distinct
    have ordinary' : ∀ p ∈ pair' :: pairs, p.1.Ordinary w ∧ p.2.Ordinary w := fun p hp =>
      ordinary p (List.mem_cons_of_mem _ hp)
    obtain ⟨m', carried_out, adds, rest_others⟩ := ih (carried _) ordinary' distinct' others_follow
    -- The first instruction leaves the digits above the lowest ones as they are, the others leave its result.
    have number_kept : number w m₁ ((pair' :: pairs).map Prod.snd) = number w m ((pair' :: pairs).map Prod.snd) := by
      refine congrArg (Nat.ofDigits w.modulus) (List.map_congr_left fun o ho => ?_)
      obtain ⟨p, hp, rfl⟩ := List.mem_map.mp ho
      have other : p.2 ≠ destination := fun same => new (same ▸ ho)
      rw [others _ (ordinary' p hp).2 other]
    have addends_kept : (pair' :: pairs).map (fun p => (addend (p.1.valueIn w m₁)).toNat) =
        (pair' :: pairs).map fun p => (addend (p.1.valueIn w m)).toNat :=
      List.map_congr_left fun p hp => by rw [others _ (ordinary' p hp).1 (sources p hp)]
    have result_kept : destination.valueIn w m' = destination.valueIn w m₁ := rest_others _ hd new
    rw [number_kept, addends_kept] at adds
    refine ⟨m', ?_, ?_, fun o ho other => ?_⟩
    · change (execute _ >>= fun _ => carryOut rest) _ = _
      rw [Access.bind_of_ok executed]
      exact carried_out
    · have total := lowest_adds.total
      rw [Nat.zero_add, Nat.pow_one] at total
      have digit := adds.digit (small _ (source.valueIn_lt w m)) (destination.valueIn_lt w m)
        (destination.valueIn_lt w m₁) (addends_lt small m _) ?_ total
      · rw [← result_kept] at digit
        exact digit
      · have bounded := number_lt w m ((pair' :: pairs).map Prod.snd)
        rwa [List.length_map] at bounded
    · have notLowest : o ≠ destination := fun same => other (same ▸ List.mem_cons_self)
      have notAbove : o ∉ (pair' :: pairs).map Prod.snd := fun above => other (List.mem_cons_of_mem _ above)
      exact (rest_others o ho notAbove).trans (others o ho notLowest)

/-- Digits and their complements make up the greatest number. -/
theorem number_complement (w : Width) (m : Machine Memory) (pairs : List (Operand × Operand)) :
    number w m (pairs.map Prod.fst) +
        Nat.ofDigits w.modulus (pairs.map fun p => (w.complement (p.1.valueIn w m)).toNat) + 1 =
      w.modulus ^ pairs.length := by
  induction pairs with
  | nil => rfl
  | cons p rest ih =>
    have small := p.1.valueIn_lt w m
    simp only [number, List.map_cons, Nat.ofDigits_cons, List.length_cons, Nat.pow_succ', ← ih,
      Width.toNat_complement small, Nat.mul_add, Nat.mul_one] at *
    omega

/-- Adding on the lowest pair and adding with the carry on the others, wherever the instructions are, adds the
numbers in ordinary operands that are all different: the carry says whether the sum has reached the next power, the
overflow whether the signed sum has left its range. Subtracting likewise subtracts them, where the carry is
clear if there is a borrow. -/
theorem carry_chains {flag : Bool} {pairs : List (Operand × Operand)} (filled : pairs ≠ [])
    (ordinary : ∀ p ∈ pairs, p.1.Ordinary (Width.ofByteFlag flag) ∧ p.2.Ordinary (Width.ofByteFlag flag))
    (distinct : (pairs.map Prod.fst ++ pairs.map Prod.snd).Nodup) (m : Machine Memory)
    (program : List (UInt16 × Instruction)) :
    let w := Width.ofByteFlag flag
    let n := w.bits * pairs.length
    let x := number w m (pairs.map Prod.fst)
    let y := number w m (pairs.map Prod.snd)
    (program.map Prod.snd = chain .add .addc flag pairs →
      ∃ m', carryOut program m = .ok () m' ∧ number w m' (pairs.map Prod.snd) = (y + x) % 2 ^ n ∧
        m'.registers.flag .carry = decide (2 ^ n ≤ y + x) ∧
        m'.registers.flag .overflow = BitVec.saddOverflow (.ofNat n y) (.ofNat n x)) ∧
    (program.map Prod.snd = chain .sub .subc flag pairs →
      ∃ m', carryOut program m = .ok () m' ∧
        (number w m' (pairs.map Prod.snd) : Int) = ((y : Int) - x) % (2 ^ n : Nat) ∧
        m'.registers.flag .carry = !decide (y < x) ∧
        m'.registers.flag .overflow = BitVec.ssubOverflow (.ofNat n y) (.ofNat n x)) := by
  intro w n x y
  cases pairs with
  | nil => exact absurd rfl filled
  | cons pair pairs =>
    have bounded (m : Machine Memory) :
        number w m ((pair :: pairs).map Prod.snd) < w.modulus ^ (pairs.length + 1) := by
      have bounded := number_lt w m ((pair :: pairs).map Prod.snd)
      rwa [List.length_map] at bounded
    constructor
    · intro instructions
      obtain ⟨m', ran, adds, -⟩ := chain_adds (w := w) (m := m) rfl (fun s hs => hs) (DoubleOp.adding_addc w)
        (DoubleOp.adding_add w _) ordinary distinct instructions
      have same : Nat.ofDigits w.modulus ((pair :: pairs).map fun p => (p.1.valueIn w m).toNat) = x := by
        simp only [x, number, List.map_map]
        rfl
      simp only [same] at adds
      exact ⟨m', ran, adds.sum (bounded m')⟩
    · intro instructions
      have small (s : UInt16) (hs : s.toNat < w.modulus) : (w.complement s).toNat < w.modulus := by
        rw [Width.toNat_complement hs]
        omega
      obtain ⟨m', ran, adds, -⟩ := chain_adds (w := w) (m := m) rfl small (DoubleOp.adding_subc w)
        (DoubleOp.adding_sub w _) ordinary distinct instructions
      have whole := number_complement w m (pair :: pairs)
      have below : x < w.modulus ^ (pairs.length + 1) := by
        have bounded := number_lt w m ((pair :: pairs).map Prod.fst)
        rwa [List.length_map] at bounded
      have same : Nat.ofDigits w.modulus ((pair :: pairs).map fun p => (w.complement (p.1.valueIn w m)).toNat) =
          w.modulus ^ (pairs.length + 1) - 1 - x := by
        change x + _ + 1 = w.modulus ^ (pairs.length + 1) at whole
        omega
      rw [same] at adds
      exact ⟨m', ran, adds.difference below (bounded m')⟩

/-- A machine with the greatest signed number of two words, the lower one in a register, and with a one. -/
def wide (r : Reg) : Machine Memory :=
  { registers := Registers.zero.set r 0xFFFF
    memory := ((Memory.empty.put 0x2000 0x01).put 0x2004 0xFF).put 0x2005 0x7F }

/-- The one and the number to which it is added or from which it is taken. -/
def widePairs (r : Reg) : List (Operand × Operand) :=
  [(.absolute 0x2000, .register r), (.absolute 0x2002, .absolute 0x2004)]

theorem wide_overflows :
    widePairs 4 ≠ [] ∧ (∀ p ∈ widePairs 4, p.1.Ordinary .word ∧ p.2.Ordinary .word) ∧
      ((widePairs 4).map Prod.fst ++ (widePairs 4).map Prod.snd).Nodup ∧
      (∃ m', carryOut [(0x4404, .double .add false (.absolute 0x2000) (.register 4)),
          (0x440A, .double .addc false (.absolute 0x2002) (.absolute 0x2004))] (wide 4) = .ok () m' ∧
        number .word m' [.register 4, .absolute 0x2004] = 0x80000000 ∧
        m'.registers.flag .carry = false ∧ m'.registers.flag .overflow = true) ∧
      ∃ m', carryOut [(0x4404, .double .sub false (.absolute 0x2000) (.register 4)),
          (0x440A, .double .subc false (.absolute 0x2002) (.absolute 0x2004))] (wide 4) = .ok () m' ∧
        (number .word m' [.register 4, .absolute 0x2004] : Int) = 0x7FFFFFFE ∧
        m'.registers.flag .carry = true ∧ m'.registers.flag .overflow = false := by
  have filled : widePairs 4 ≠ [] := by decide
  have ordinary : ∀ p ∈ widePairs 4, p.1.Ordinary .word ∧ p.2.Ordinary .word := by decide
  have distinct : ((widePairs 4).map Prod.fst ++ (widePairs 4).map Prod.snd).Nodup := by decide
  have chains := @carry_chains false (widePairs 4) filled ordinary distinct (wide 4)
  exact ⟨filled, ordinary, distinct, (chains _).1 rfl, (chains _).2 rfl⟩

end Machine

end Msp430
