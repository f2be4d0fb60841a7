import Msp430.Proofs.CarryChain

/-!
# Rotations, swaps and shifts

A rotation through carry turns the carry flag and the operand as one ring of bits, so that as many rotations as the
ring has bits bring both back. A swap undoes itself, a sign extension gives the signed low byte, and a shift halves. All
this is so in every register that takes a result, with any memory, and wherever flat memory takes an operand.
-/

namespace Msp430

/-! ### Rings of bits -/

section Ring

variable {n : Nat} (x : BitVec n)

theorem getLsbD_rotateRight_mod (r : Nat) {i : Nat} (h : i < n) :
    (x.rotateRight r).getLsbD i = x.getLsbD ((i + r) % n) := by
  have turned : r % n < n := Nat.mod_lt _ (by omega)
  rw [BitVec.getLsbD_rotateRight, ← Nat.add_mod_mod]
  generalize r % n = k at turned ⊢
  by_cases inside : i < n - k
  · rw [Nat.mod_eq_of_lt (by omega), Nat.add_comm, decide_eq_true inside]
    rfl
  · have above : i + k = n + (i - (n - k)) := by omega
    rw [above, Nat.add_mod_left, Nat.mod_eq_of_lt (by omega), decide_eq_false inside, decide_eq_true h]
    rfl

theorem rotateRight_rotateRight (r s : Nat) : (x.rotateRight r).rotateRight s = x.rotateRight (r + s) := by
  apply BitVec.eq_of_getLsbD_eq
  intro i h
  have inside : (i + s) % n < n := Nat.mod_lt _ (by omega)
  rw [getLsbD_rotateRight_mod _ _ h, getLsbD_rotateRight_mod _ _ inside, getLsbD_rotateRight_mod _ _ h, Nat.mod_add_mod,
    Nat.add_assoc, Nat.add_comm s r]

theorem rotateRight_zero : x.rotateRight 0 = x := by
  apply BitVec.eq_of_getLsbD_eq
  intro i h
  rw [getLsbD_rotateRight_mod _ _ h, Nat.add_zero, Nat.mod_eq_of_lt h]

theorem rotateRight_length : x.rotateRight n = x := by
  apply BitVec.eq_of_getLsbD_eq
  intro i h
  rw [getLsbD_rotateRight_mod _ _ h, Nat.add_mod_right, Nat.mod_eq_of_lt h]

theorem cons_inj {c c' : Bool} {x x' : BitVec n} (h : BitVec.cons c x = BitVec.cons c' x') : c = c' ∧ x = x' := by
  have top := congrArg BitVec.msb h
  have rest := congrArg (BitVec.setWidth n) h
  rw [BitVec.msb_cons, BitVec.msb_cons] at top
  rw [BitVec.setWidth_cons, BitVec.setWidth_cons] at rest
  exact ⟨top, rest⟩

end Ring

namespace Width

variable {w : Width} {v : UInt16} {c : Bool}

theorem bits_pos (w : Width) : 0 < w.bits := by cases w <;> decide

theorem getLsbD_value (w : Width) (v : UInt16) {i : Nat} (h : i < w.bits) :
    (w.value v).getLsbD i = v.toNat.testBit i := by
  rw [value, BitVec.getLsbD_ofNat, decide_eq_true h, Bool.true_and]

theorem toNat_rotate (small : v.toNat < w.modulus) (c : Bool) :
    (w.rotate v c).value.toNat = (2 ^ w.bits * c.toNat + v.toNat) / 2 := by
  have carry := Bool.toNat_lt c
  have modulus := w.modulus_eq_pow
  have bound := w.modulus_le
  change (UInt16.ofNat ((c.toNat * w.modulus + v.toNat) / 2)).toNat = _
  rw [UInt16.toNat_ofNat', ← modulus, Nat.mul_comm]
  refine Nat.mod_eq_of_lt ?_
  cases c <;> simp only [Bool.toNat_true, Bool.toNat_false] <;> omega

/-- The carry and the operand are turned as one ring: what the operand loses at the bottom is the new carry. -/
theorem rotate_ring (small : v.toNat < w.modulus) (c : Bool) :
    BitVec.cons (decide (v.toNat % 2 = 1)) (w.value (w.rotate v c).value) =
      (BitVec.cons c (w.value v)).rotateRight 1 := by
  have positive := w.bits_pos
  have pow : v.toNat < 2 ^ w.bits := w.modulus_eq_pow ▸ small
  apply BitVec.eq_of_getLsbD_eq
  intro i h
  rw [getLsbD_rotateRight_mod _ _ h, BitVec.getLsbD_cons, BitVec.getLsbD_cons]
  by_cases top : i = w.bits
  · have around : (i + 1) % (w.bits + 1) = 0 := by rw [top, Nat.mod_self]
    rw [if_pos top, around, if_neg (by omega), getLsbD_value _ _ positive, Nat.testBit_zero]
  · have inside : i < w.bits := by omega
    rw [if_neg top, Nat.mod_eq_of_lt (by omega), getLsbD_value _ _ inside, toNat_rotate small, Nat.testBit_div_two,
      Nat.testBit_two_pow_mul_add _ pow]
    by_cases below : i + 1 < w.bits
    · rw [if_pos below, if_neg (by omega), getLsbD_value _ _ below]
    · have last : i + 1 = w.bits := by omega
      rw [if_neg below, if_pos last, last, Nat.sub_self]
      cases c <;> rfl

end Width

/-! ### Results of the operations -/

namespace SingleOp

/-- The result of an operation that puts one in the place of its operand. -/
def result (op : SingleOp) (w : Width) (v : UInt16) (carry : Bool) : AluResult :=
  match op with
  | rrc => w.rotate v carry
  | rra => w.shift v
  | swpb => .plain (swapBytes v)
  | _ => w.logical (signExtend v) false

theorem effect_of_transforms {op : SingleOp} (transforms : op.transforms = true) (w : Width) (p : Place) (v : UInt16)
    (carry : Bool) : op.effect w p v carry = .assign p (op.result w v carry) := by
  cases op <;> first | rfl | cases transforms

theorem result_lt {op : SingleOp} {flag : Bool} {operand : Operand} {w : Width} {v : UInt16}
    (width : (Instruction.single op flag operand).width = w) (transforms : op.transforms = true)
    (small : v.toNat < w.modulus) (carry : Bool) : (op.result w v carry).value.toNat < w.modulus := by
  cases op with
  | rrc =>
    have bound := Bool.toNat_lt carry
    simp only [result]
    rw [Width.toNat_rotate small, ← Width.modulus_eq_pow]
    cases carry <;> simp only [Bool.toNat_true, Bool.toNat_false] <;> omega
  | rra =>
    change (UInt16.ofNat (v.toNat / 2)).toNat < _
    rw [UInt16.toNat_ofNat']
    exact Nat.lt_of_le_of_lt (Nat.mod_le _ _) (by omega)
  | swpb | sxt =>
    -- These work on words, whatever the byte flag says.
    subst width
    exact UInt16.toNat_lt _
  | _ => cases transforms

end SingleOp

theorem swapBytes_swapBytes (v : UInt16) : swapBytes (swapBytes v) = v := by
  unfold swapBytes
  rw [lowByte_wordOf, highByte_wordOf, wordOf_low_high]

/-- The low byte as a signed number, modulo the words. -/
theorem toNat_signExtend (v : UInt16) :
    ((signExtend v).toNat : Int) = (BitVec.ofNat 8 v.toNat).toInt % 0x10000 := by
  have low : v.toNat % 0x100 < 0x100 := Nat.mod_lt _ (by decide)
  rw [BitVec.toInt_eq_toNat_cond, BitVec.toNat_ofNat, signExtend, UInt16.toNat_ofNat']
  split <;> split <;> omega

/-! ### Operands that can be worked on again and again -/

/-- The status register is no part of an address. -/
theorem Operand.IsSource.place_withStatus {o : Operand} (named : o.IsSource) (rs : Registers) (s : Option Status) :
    o.place (rs.withStatus s) = o.place rs := by
  have base {r : Reg} (other : r ≠ .sr) : (rs.withStatus s).base r = rs.base r := by
    unfold Registers.base
    rw [rs.get_withStatus s other]
  cases o with
  | indexed r x => simp only [place, base named.1]
  | indirect r => simp only [place, base named.1]
  | autoIncrement r => simp only [place, base named.2.1]
  | _ => rfl

namespace Machine

variable {μ : Type} [Bus μ]

/-- In all states of `I` the operand shows what was last stored in it, and stores in it succeed. -/
structure Cell (w : Width) (o : Operand) (contents : Machine μ → UInt16) (I : Machine μ → Prop) : Prop where
  still : ∀ rs, o.advance w rs = rs
  loads : ∀ m, I m → load w (o.place m.registers) m = .ok (w.trim (contents m)) m
  settles : ∀ m (r : AluResult), I m → r.value.toNat < w.modulus →
    ∃ m', settle w (o.place m.registers) r m = .ok () m' ∧ I m' ∧ contents m' = r.value ∧
      m'.registers.Shows m.registers r.status

/-- Every register but those with a meaning of their own in an operand, whatever the memory. -/
theorem cell_register {r : Reg} (notSr : r ≠ .sr) (notCg : r ≠ .cg) (w : Width) :
    Cell (μ := μ) w (.register r) (·.registers.get r) fun _ => True where
  still _ := rfl
  loads m _ := by
    have base : m.registers.base r = m.registers.get r := if_neg notCg
    change EStateM.Result.ok (w.trim (m.registers.base r)) m = _
    rw [base]
  settles m result _ small := by
    have trimmed : w.trim result.value = result.value := by
      rw [← UInt16.toNat_inj, Width.toNat_trim, Nat.mod_eq_of_lt small]
    rw [settle_apply, Operand.place, store, if_neg notCg]
    refine ⟨_, rfl, trivial, ?_, Registers.shows_withStatus (Registers.get_set_ne _ _ notSr.symm)⟩
    exact (Registers.get_set_self _ _ _).trans trimmed

/-- A place in flat memory that is no port of the console and takes the width, found in any way but by
autoincrement. -/
theorem cell_memory {o : Operand} {w : Width} {a : UInt16} (named : o.IsSource) (fixed : ∀ r, o ≠ .autoIncrement r)
    (ordinary : (Operand.absolute a).Ordinary w) :
    Cell w o ((Operand.absolute a).valueIn w) fun m : Machine Memory => o.place m.registers = .memory a where
  still rs := by
    cases o with
    | autoIncrement r => exact (fixed r rfl).elim
    | _ => rfl
  loads m found := by
    have trimmed : w.trim ((Operand.absolute a).valueIn w m) = (Operand.absolute a).valueIn w m := by
      rw [← UInt16.toNat_inj, Width.toNat_trim, Nat.mod_eq_of_lt (Operand.valueIn_lt w m _)]
    rw [found, trimmed]
    exact Operand.load_ordinary ordinary
  settles m result found small := by
    have settled : settle w (.memory a) result m =
        .ok () ⟨m.registers.withStatus result.status, m.memory.write w a result.value⟩ := by
      change commit w (.assign (.memory a) result) m = _
      rw [commit_flat]
      simp only [Effect.refusal?, Effect.store?, Operand.check_of_ordinary ordinary]
      rfl
    obtain ⟨stored, -⟩ := Operand.valueIn_write (m := m) ordinary small (m.registers.withStatus result.status)
    rw [found]
    exact ⟨_, settled, (named.place_withStatus _ _).trans found, stored, Registers.shows_withStatus rfl⟩

/-- An operation carried out on what the operand holds leaves its result there, and its flags. -/
theorem Cell.executes {w : Width} {o : Operand} {contents : Machine μ → UInt16} {I : Machine μ → Prop}
    (cell : Cell w o contents I) (op : SingleOp) (flag : Bool) (width : (Instruction.single op flag o).width = w)
    (transforms : op.transforms = true) {m : Machine μ} (holds : I m) {r : AluResult}
    (result : op.result w (w.trim (contents m)) (m.registers.flag .carry) = r) :
    ∃ m', execute (.single op flag o) m = .ok () m' ∧ I m' ∧ contents m' = r.value ∧
      r.value.toNat < w.modulus ∧ m'.registers.Shows m.registers r.status := by
  have small := SingleOp.result_lt width transforms (w.trim_lt (contents m)) (m.registers.flag .carry)
  rw [result] at small
  obtain ⟨m', settled, holds', stored, shows⟩ := cell.settles m r holds small
  refine ⟨m', ?_, holds', stored, small, shows⟩
  have returns : op ≠ .reti := by
    rintro rfl
    cases transforms
  have gathered : gather (.single op flag o) m = .ok (.assign (o.place m.registers) r) m := by
    simp only [gather, if_neg returns, width]
    rw [resolve_bind, cell.still, Access.bind_of_ok (cell.loads m holds), ← result]
    change EStateM.Result.ok (op.effect _ _ _ _) m = _
    rw [SingleOp.effect_of_transforms transforms]
  rw [execute_eq, Access.bind_of_ok gathered, width]
  exact settled

/-- Executes an instruction a number of times. -/
def repeatedly (i : Instruction) : Nat → Access (Machine μ) Unit
  | 0 => pure ()
  | n + 1 => do
    execute i
    repeatedly i n

omit [Bus μ] in
/-- The ring of the carry flag and what an operand holds, with the carry at the top. -/
def ring (w : Width) (contents : Machine μ → UInt16) (m : Machine μ) : BitVec (w.bits + 1) :=
  BitVec.cons (m.registers.flag .carry) (w.value (contents m))

/-- The zero and negative flags describe what an operand holds, and the overflow flag is clear. -/
def Described (w : Width) (contents : Machine μ → UInt16) (m : Machine μ) : Prop :=
  m.registers.flag .zero = decide (w.value (contents m) = 0) ∧
    m.registers.flag .negative = (w.value (contents m)).msb ∧ m.registers.flag .overflow = false

omit [Bus μ] in
theorem described_of_flagged {w : Width} {contents : Machine μ → UInt16} {m m' : Machine μ} {v : UInt16} {carry : Bool}
    (stored : contents m' = v) (small : v.toNat < w.modulus)
    (shows : m'.registers.Shows m.registers (AluResult.flagged w v carry false).status) :
    m'.registers.flag .carry = carry ∧ Described w contents m' := by
  rw [Width.flagged_eq small] at shows
  obtain ⟨carries, zero, negative, overflow⟩ := shows
  have empty : w.value v = 0 ↔ v.toNat = 0 := by
    rw [← BitVec.toNat_inj, Width.toNat_value small]
    rfl
  refine ⟨carries, ?_, ?_, overflow⟩
  · rw [stored, zero]
    exact decide_eq_decide.mpr empty.symm
  · rw [stored, negative]
    rfl

variable {w : Width} {o : Operand} {contents : Machine μ → UInt16} {I : Machine μ → Prop} {flag : Bool} {m : Machine μ}

theorem Cell.rotate (cell : Cell w o contents I) (width : .ofByteFlag flag = w) (holds : I m) :
    ∃ m', execute (.single .rrc flag o) m = .ok () m' ∧ I m' ∧ (contents m').toNat < w.modulus ∧
      ring w contents m' = (ring w contents m).rotateRight 1 ∧ Described w contents m' := by
  obtain ⟨m', executed, holds', stored, small, shows⟩ := cell.executes .rrc flag width rfl holds rfl
  obtain ⟨carries, described⟩ := described_of_flagged stored small shows
  refine ⟨m', executed, holds', stored ▸ small, ?_, described⟩
  have turned := Width.rotate_ring (Width.trim_lt w (contents m)) (m.registers.flag .carry)
  unfold ring
  rw [carries, stored, ← Width.value_trim w (contents m)]
  exact turned

/-- The ring is turned once for each rotation. -/
theorem Cell.rotates (cell : Cell w o contents I) (width : .ofByteFlag flag = w) (n : Nat) (holds : I m) :
    ∃ m', repeatedly (.single .rrc flag o) n m = .ok () m' ∧ I m' ∧ (0 < n → (contents m').toNat < w.modulus) ∧
      ring w contents m' = (ring w contents m).rotateRight n := by
  induction n generalizing m with
  | zero => exact ⟨m, rfl, holds, nofun, (rotateRight_zero _).symm⟩
  | succ n ih =>
    obtain ⟨m₁, first, holds₁, small, turned⟩ := cell.rotate width holds
    obtain ⟨m', rest, holds', later, ring'⟩ := ih holds₁
    refine ⟨m', ?_, holds', fun _ => ?_, ?_⟩
    · rw [repeatedly, Access.bind_of_ok first]
      exact rest
    · cases n with
      | zero =>
        cases rest
        exact small
      | succ n => exact later (Nat.succ_pos n)
    · rw [ring', turned.1, rotateRight_rotateRight, Nat.add_comm n 1]

theorem Cell.restore (cell : Cell w o contents I) (width : .ofByteFlag flag = w) (holds : I m) :
    ∃ m', repeatedly (.single .rrc flag o) (w.bits + 1) m = .ok () m' ∧ contents m' = w.trim (contents m) ∧
      m'.registers.flag .carry = m.registers.flag .carry := by
  obtain ⟨m', executed, -, small, turned⟩ := cell.rotates width (w.bits + 1) holds
  rw [rotateRight_length] at turned
  obtain ⟨carry, value⟩ := cons_inj turned
  refine ⟨m', executed, ?_, carry⟩
  rw [← w.value_trim (contents m)] at value
  exact (Width.value_inj (Width.trim_lt w _) (small (Nat.succ_pos _))).mp value

theorem Cell.shift (cell : Cell w o contents I) (width : .ofByteFlag flag = w) (holds : I m) :
    ∃ m', execute (.single .rra flag o) m = .ok () m' ∧ (contents m').toNat = (w.trim (contents m)).toNat / 2 ∧
      m'.registers.flag .carry = decide ((w.trim (contents m)).toNat % 2 = 1) ∧ Described w contents m' := by
  obtain ⟨m', executed, -, stored, small, shows⟩ := cell.executes .rra flag width rfl holds rfl
  obtain ⟨carries, described⟩ := described_of_flagged stored small shows
  refine ⟨m', executed, ?_, carries, described⟩
  have whole := (w.trim (contents m)).toNat_lt
  rw [stored]
  change (UInt16.ofNat ((w.trim (contents m)).toNat / 2)).toNat = _
  rw [UInt16.toNat_ofNat']
  exact Nat.mod_eq_of_lt (by omega)

theorem Cell.swap (cell : Cell .word o contents I) (flag : Bool) (holds : I m) :
    ∃ m', execute (.single .swpb flag o) m = .ok () m' ∧ I m' ∧ m'.registers.sr = m.registers.sr ∧
      contents m' = swapBytes (contents m) := by
  obtain ⟨m', executed, holds', stored, -, shows⟩ := cell.executes .swpb flag rfl rfl holds rfl
  rw [Width.trim_word] at stored
  exact ⟨m', executed, holds', shows, stored⟩

theorem Cell.extend (cell : Cell .word o contents I) (flag : Bool) (holds : I m) :
    ∃ m', execute (.single .sxt flag o) m = .ok () m' ∧
      ((contents m').toNat : Int) = (BitVec.ofNat 8 (contents m).toNat).toInt % 2 ^ 16 ∧
      Described .word contents m' := by
  obtain ⟨m', executed, -, stored, small, shows⟩ := cell.executes .sxt flag rfl rfl holds rfl
  obtain ⟨-, described⟩ := described_of_flagged stored small shows
  refine ⟨m', executed, ?_, described⟩
  rw [Width.trim_word] at stored
  rw [stored]
  exact toNat_signExtend (contents m)

/-! ### The laws -/

/-- What rotations, shifts, swaps and sign extensions make of an operand, whatever their byte flag is worth. -/
structure RotationLaws (w : Width) (o : Operand) (contents : Machine μ → UInt16) (m : Machine μ) : Prop where
  rotated : ∀ flag, .ofByteFlag flag = w → ∃ m', execute (.single .rrc flag o) m = .ok () m' ∧
    ring w contents m' = (ring w contents m).rotateRight 1 ∧ Described w contents m'
  restored : ∀ flag, .ofByteFlag flag = w → ∃ m',
    repeatedly (.single .rrc flag o) (w.bits + 1) m = .ok () m' ∧
      contents m' = w.trim (contents m) ∧ m'.registers.flag .carry = m.registers.flag .carry
  halved : ∀ flag, .ofByteFlag flag = w → ∃ m', execute (.single .rra flag o) m = .ok () m' ∧
    (contents m').toNat = (w.trim (contents m)).toNat / 2 ∧
      m'.registers.flag .carry = decide ((w.trim (contents m)).toNat % 2 = 1) ∧ Described w contents m'
  swapped : w = .word → ∀ flag, ∃ m₁ m₂,
    execute (.single .swpb flag o) m = .ok () m₁ ∧ execute (.single .swpb flag o) m₁ = .ok () m₂ ∧
      m₁.registers.sr = m.registers.sr ∧ m₂.registers.sr = m.registers.sr ∧ contents m₂ = contents m
  extended : w = .word → ∀ flag, ∃ m', execute (.single .sxt flag o) m = .ok () m' ∧
    ((contents m').toNat : Int) = (BitVec.ofNat 8 (contents m).toNat).toInt % 2 ^ 16 ∧ Described w contents m'

theorem Cell.laws (cell : Cell w o contents I) (holds : I m) : RotationLaws w o contents m where
  rotated flag width := by
    obtain ⟨m', executed, -, -, turned, described⟩ := cell.rotate width holds
    exact ⟨m', executed, turned, described⟩
  restored flag width := cell.restore width holds
  halved flag width := cell.shift width holds
  swapped := by
    rintro rfl flag
    obtain ⟨m₁, first, holds₁, status₁, once⟩ := cell.swap flag holds
    obtain ⟨m₂, second, -, status₂, twice⟩ := cell.swap flag holds₁
    refine ⟨m₁, m₂, first, second, status₁, status₂.trans status₁, ?_⟩
    rw [twice, once, swapBytes_swapBytes]
  extended := by
    rintro rfl flag
    exact cell.extend flag holds

/-- Rotations, shifts, swaps and sign extensions obey their laws in every register other than the status register and
the constant generator, and wherever flat memory gives the operand, if that is no port of the console and not
autoincremented. -/
theorem rotation_laws {o : Operand} (named : o.IsSource) :
    (∀ r, o = .register r → r ≠ .sr → ∀ (μ : Type) [Bus μ] (m : Machine μ) (w : Width),
      RotationLaws w o (·.registers.get r) m) ∧
    ∀ (m : Machine Memory) (a : UInt16) (w : Width), o.place m.registers = .memory a →
      (∀ r, o ≠ .autoIncrement r) → Memory.isConsole a = false → (∃ v m', load w (.memory a) m = .ok v m') →
      RotationLaws w o ((Operand.absolute a).valueIn w) m := by
  constructor
  · rintro r rfl notSr μ _ m w
    exact (cell_register notSr named w).laws trivial
  · rintro m a w found fixed plain ⟨v, m', loaded⟩
    have ordinary : (Operand.absolute a).Ordinary w := by
      refine ⟨plain, ?_⟩
      rintro rfl
      simp only [load, onMemory, Access.focus, Bus.load] at loaded
      split at loaded <;> cases loaded
      next found => exact (Memory.loadWord_eq_ok.mp (Access.look_eq_ok.mp found).1).1
    exact (cell_memory named fixed ordinary).laws found

/-- A register in front of a word with both outermost bits set, and the carry set. -/
def spinning (r : Reg) : Machine Memory where
  registers := (Registers.zero.set r 0x0300).set .sr 1
  memory := Memory.empty.storeBytes 0x0302 [0x01, 0x80]

theorem spinning_restored :
    let m := spinning 5
    RotationLaws .word (.indexed 5 2) ((Operand.absolute 0x0302).valueIn .word) m ∧
      RotationLaws .byte (.register 5) (·.registers.get 5) m ∧
      (Access.endState (execute (.single .rrc false (.indexed 5 2)) m)).memory.word 0x0302 = 0xC000 := by
  intro m
  obtain ⟨-, memory⟩ := rotation_laws (o := .indexed 5 2) ⟨by decide, by decide⟩
  obtain ⟨register, -⟩ := rotation_laws (o := .register 5) (show (5 : Reg) ≠ .cg by decide)
  have ordinary : (Operand.absolute 0x0302).Ordinary .word := by decide
  have loaded := Operand.load_ordinary (m := m) ordinary
  exact ⟨memory m 0x0302 .word (by decide) nofun (by decide) ⟨_, _, loaded⟩,
    register 5 rfl (by decide) Memory m .byte, by decide +kernel⟩

end Machine

end Msp430
