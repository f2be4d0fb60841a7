import Msp430.Cpu.Execute

/-!
# Registers after an update

Setting a flag changes one bit of the status register. The four arithmetic flags lie in `statusMask`, and
no operation sets a bit of the status register outside of it.
-/

namespace Msp430

theorem or_and_distrib (a b c : UInt16) : (a ||| b) &&& c = a &&& c ||| b &&& c :=
  UInt16.toBitVec_inj.mp BitVec.and_or_distrib_right

namespace Flag

/-- The bits of the four arithmetic flags. -/
def statusMask : UInt16 := carry.mask ||| zero.mask ||| negative.mask ||| overflow.mask

/-- Flags have bits of their own. -/
theorem mask_and_mask (f f' : Flag) : f.mask &&& f'.mask = if f = f' then f.mask else 0 := by
  cases f <;> cases f' <;> decide

theorem mask_ne_zero (f : Flag) : f.mask ≠ 0 := by cases f <;> decide

theorem mask_and_not_mask {f f' : Flag} (h : f ≠ f') : ~~~f.mask &&& f'.mask = f'.mask := by
  revert h
  cases f <;> cases f' <;> decide

end Flag

namespace Registers

@[simp] theorem get_set_self (rs : Registers) (r : Reg) (v : UInt16) : (rs.set r v).get r = v := by
  rw [get_set, if_pos rfl]

theorem get_set_ne (rs : Registers) {r r' : Reg} (v : UInt16) (h : r' ≠ r) :
    (rs.set r v).get r' = rs.get r' := by
  rw [get_set, if_neg h]

theorem set_set (rs : Registers) (r : Reg) (v v' : UInt16) : (rs.set r v).set r v' = rs.set r v' := by
  apply ext
  intro r'
  grind

/-! ### Flags -/

theorem flag_setFlag (rs : Registers) (f f' : Flag) (on : Bool) :
    (rs.setFlag f on).flag f' = if f' = f then on else rs.flag f' := by
  unfold flag setFlag sr
  rw [get_set_self]
  by_cases h : f' = f
  · subst h
    cases on with
    | true => simp [or_and_distrib, Flag.mask_ne_zero]
    | false => simp [UInt16.and_assoc]
  · cases on with
    | true => simp [or_and_distrib, Flag.mask_and_mask, h, Ne.symm h]
    | false => simp [UInt16.and_assoc, Flag.mask_and_not_mask (Ne.symm h), h]

theorem get_setFlag (rs : Registers) (f : Flag) (on : Bool) {r : Reg} (h : r ≠ .sr) :
    (rs.setFlag f on).get r = rs.get r := get_set_ne rs _ h

/-- The registers with the flags of a result, if it has any. -/
def withStatus (rs : Registers) : Option Status → Registers
  | some s => rs.setStatus s
  | none => rs

theorem get_withStatus (rs : Registers) (s : Option Status) {r : Reg} (h : r ≠ .sr) :
    (rs.withStatus s).get r = rs.get r := by
  cases s with
  | none => rfl
  | some s => simp only [withStatus, setStatus, get_setFlag _ _ _ h]

/-- The bits of the status register that are no arithmetic flags. -/
def controlBits (rs : Registers) : UInt16 := rs.sr &&& ~~~Flag.statusMask

theorem controlBits_setFlag (rs : Registers) (f : Flag) (on : Bool) (hf : f ≠ .cpuOff) :
    (rs.setFlag f on).controlBits = rs.controlBits := by
  have inside : f.mask &&& ~~~Flag.statusMask = 0 := by
    revert hf
    cases f <;> decide
  have outside : ~~~f.mask &&& ~~~Flag.statusMask = ~~~Flag.statusMask := by
    revert hf
    cases f <;> decide
  unfold controlBits setFlag sr
  rw [get_set_self]
  cases on with
  | true => simp [or_and_distrib, inside]
  | false => simp [UInt16.and_assoc, outside]

theorem controlBits_withStatus (rs : Registers) (s : Option Status) :
    (rs.withStatus s).controlBits = rs.controlBits := by
  cases s with
  | none => rfl
  | some s =>
    simp only [withStatus, setStatus]
    rw [controlBits_setFlag _ _ _ (by decide), controlBits_setFlag _ _ _ (by decide),
      controlBits_setFlag _ _ _ (by decide), controlBits_setFlag _ _ _ (by decide)]

theorem controlBits_congr {rs rs' : Registers} (h : rs'.get .sr = rs.get .sr) : rs'.controlBits = rs.controlBits := by
  unfold controlBits sr
  rw [h]

end Registers

/-- Whether a jump is taken depends on the status register alone. -/
theorem Condition.holds_congr (c : Condition) {rs rs' : Registers} (h : rs'.get .sr = rs.get .sr) :
    c.holds rs' = c.holds rs := by
  have flags (f : Flag) : rs'.flag f = rs.flag f := by
    unfold Registers.flag Registers.sr
    rw [h]
  cases c <;> simp only [holds, flags]

end Msp430
