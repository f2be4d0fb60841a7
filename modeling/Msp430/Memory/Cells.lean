/-!
# Byte cells

`Cells n` holds a byte at each of `2 ^ n` addresses, as a perfect binary tree whose branches follow
the address bits from the highest down. An address is used modulo `2 ^ n`. Two trees with the same
bytes are equal.
-/

namespace Msp430

inductive Cells : Nat → Type where
  | cell (b : UInt8) : Cells 0
  | node {n : Nat} (low high : Cells n) : Cells (n + 1)
deriving Repr

namespace Cells

/-- The cells that all hold one byte. -/
def fill (b : UInt8) : (n : Nat) → Cells n
  | 0 => cell b
  | n + 1 => let half := fill b n; node half half

instance : Inhabited (Cells n) := ⟨fill 0 n⟩

def get : {n : Nat} → Cells n → Nat → UInt8
  | _, cell b, _ => b
  | n + 1, node low high, a => if a.testBit n then high.get a else low.get a

def set : {n : Nat} → Cells n → Nat → UInt8 → Cells n
  | _, cell _, _, b => cell b
  | n + 1, node low high, a, b =>
    if a.testBit n then node low (high.set a b) else node (low.set a b) high

/-- The bytes in the order of their addresses, in front of `rest`. -/
def appendTo : {n : Nat} → Cells n → List UInt8 → List UInt8
  | _, cell b, rest => b :: rest
  | _, node low high, rest => low.appendTo (high.appendTo rest)

def toList (c : Cells n) : List UInt8 := c.appendTo []

@[simp] theorem get_fill (b : UInt8) (n a : Nat) : (fill b n).get a = b := by
  induction n with
  | zero => rfl
  | succ n ih => simp [fill, get, ih]

theorem get_set (c : Cells n) (a : Nat) (b : UInt8) (a' : Nat) :
    (c.set a b).get a' = if ∀ i < n, a'.testBit i = a.testBit i then b else c.get a' := by
  induction c with
  | cell => simp [get, set]
  | @node n low high ihl ihh =>
    have hs : (∀ i < n + 1, a'.testBit i = a.testBit i) ↔
        (∀ i < n, a'.testBit i = a.testBit i) ∧ a'.testBit n = a.testBit n := by
      refine ⟨fun h => ⟨fun i hi => h i (by omega), h n (by omega)⟩, fun ⟨h, hn⟩ i hi => ?_⟩
      rcases Nat.lt_succ_iff_lt_or_eq.mp hi with hi | rfl
      · exact h i hi
      · exact hn
    simp only [hs]
    cases ha : a.testBit n <;> cases ha' : a'.testBit n <;> simp [get, set, ha, ha', ihl, ihh]

/-- Only the lowest `n` bits of an address count. -/
theorem get_congr (c : Cells n) {a a' : Nat} (h : ∀ i < n, a.testBit i = a'.testBit i) :
    c.get a = c.get a' := by
  induction c with
  | cell => rfl
  | @node n low high ihl ihh =>
    have hl := ihl fun i hi => h i (by omega)
    have hh := ihh fun i hi => h i (by omega)
    simp only [get, h n (by omega), hl, hh]

theorem ext {c d : Cells n} (h : ∀ a, c.get a = d.get a) : c = d := by
  induction c with
  | cell b =>
    cases d with
    | cell b' => exact congrArg cell (h 0)
  | @node n low high ihl ihh =>
    cases d with
    | node low' high' =>
      have lows : low = low' := ihl fun a => by
        have same := h (a % 2 ^ n)
        have bit : (a % 2 ^ n).testBit n = false := Nat.testBit_lt_two_pow (Nat.mod_lt _ (Nat.two_pow_pos n))
        have reduce (e : Cells n) : e.get (a % 2 ^ n) = e.get a :=
          get_congr e fun i hi => by simp [Nat.testBit_mod_two_pow, hi]
        simpa only [get, bit, Bool.false_eq_true, if_false, reduce] using same
      have highs : high = high' := ihh fun a => by
        have same := h (2 ^ n + a % 2 ^ n)
        have bit : (2 ^ n + a % 2 ^ n).testBit n = true := by
          rw [Nat.testBit_two_pow_add_eq, Nat.testBit_lt_two_pow (Nat.mod_lt _ (Nat.two_pow_pos n))]
          rfl
        have reduce (e : Cells n) : e.get (2 ^ n + a % 2 ^ n) = e.get a :=
          get_congr e fun i hi => by simp [Nat.testBit_two_pow_add_gt hi, Nat.testBit_mod_two_pow, hi]
        simpa only [get, bit, if_true, reduce] using same
      rw [lows, highs]

end Cells

end Msp430
