import Mathlib.Algebra.GroupWithZero.Nat
import Msp430.KeyValue.Window

/-!
# What windows cover

A window from the front covers as many elements as its last index says and one more; one that begins at an index counted
from the end, and reaches to it, covers that many of the last elements.
-/

namespace Msp430.KeyValue

theorem toInt_max (x y : Int64) : (max x y).toInt = max x.toInt y.toInt := by
  change (if x ≤ y then y else x).toInt = _
  split <;> rename_i order <;> rw [Int64.le_iff_toInt_le] at order <;> omega

theorem toInt_min (x y : Int64) : (min x y).toInt = min x.toInt y.toInt := by
  change (if x ≤ y then x else y).toInt = _
  split <;> rename_i order <;> rw [Int64.le_iff_toInt_le] at order <;> omega

/-- The first position that a window would have if positions were unbounded. -/
def lowest (length : Nat) (first : Int) : Int := if first < 0 then max (length + first) 0 else first

def highest (length : Nat) (last : Int) : Int := if last < 0 then length + last else min last (length - 1)

/-- Nothing overflows when indices are counted from the end of a sequence of `n` elements. -/
structure Exact (n : Nat) (first last : Int64) : Prop where
  size : (Int64.ofNat n).toInt = n
  first : first.toInt < 0 → (Int64.ofNat n + first).toInt = n + first.toInt
  last : last.toInt < 0 → (Int64.ofNat n + last).toInt = n + last.toInt
  pred : (Int64.ofNat n - 1).toInt = n - 1

theorem exact_of_short {n : Nat} (short : n < 2 ^ 63) (first last : Int64) : Exact n first last := by
  have size : (Int64.ofNat n).toInt = n := Int64.toInt_ofNat_of_lt short
  have plus (i : Int64) (negative : i.toInt < 0) : (Int64.ofNat n + i).toInt = n + i.toInt := by
    have low := i.le_toInt
    rw [Int64.toInt_add, size]
    exact Int.bmod_eq_of_le (by omega) (by omega)
  refine ⟨size, plus first, plus last, ?_⟩
  rw [Int64.toInt_sub, size, Int64.toInt_one]
  exact Int.bmod_eq_of_le (by omega) (by omega)

/-- On lengths that fit into an index, a window is what it would be if positions were unbounded. -/
theorem window_eq {n : Nat} (short : n < 2 ^ 63) (first last : Int64) :
    window n first last =
      if n = 0 ∨ highest n last.toInt < lowest n first.toInt ∨ n ≤ lowest n first.toInt then none
      else some ((lowest n first.toInt).toNat, (highest n last.toInt).toNat + 1) := by
  obtain ⟨size, plusFirst, plusLast, pred⟩ := exact_of_short short first last
  have lo : (if first < 0 then max (Int64.ofNat n + first) 0 else first).toInt = lowest n first.toInt := by
    unfold lowest
    simp only [Int64.lt_iff_toInt_lt, Int64.toInt_zero]
    split
    next negative => rw [toInt_max, plusFirst negative, Int64.toInt_zero]
    next => rfl
  have hi : (if last < 0 then Int64.ofNat n + last else min last (Int64.ofNat n - 1)).toInt =
      highest n last.toInt := by
    unfold highest
    simp only [Int64.lt_iff_toInt_lt, Int64.toInt_zero]
    split
    next negative => rw [plusLast negative]
    next => rw [toInt_min, pred]
  unfold window
  simp only
  rw [← lo, ← hi]
  have zero : Int64.ofNat n = 0 ↔ n = 0 := by
    rw [← Int64.toInt_inj, size, Int64.toInt_zero]
    omega
  simp only [Int64.lt_iff_toInt_lt, Int64.le_iff_toInt_le, size, zero]
  rfl

/-- The elements from the front up to an index, itself included. A negative index counts from the end. -/
def upTo (last : Int) (xs : List α) : List α :=
  if last < 0 then xs.take (xs.length + last + 1).toNat else xs.take (last.toNat + 1)

/-- A window from the front covers the elements up to its last index. -/
theorem slice_zero {xs : List α} (short : xs.length < 2 ^ 63) (last : Int64) :
    slice xs 0 last = upTo last.toInt xs := by
  have lo : lowest xs.length (0 : Int64).toInt = 0 := rfl
  have hi : upTo last.toInt xs = xs.take (highest xs.length last.toInt + 1).toNat := by
    unfold upTo highest
    split
    next => rfl
    next front =>
      refine List.take_eq_take_iff.mpr ?_
      omega
  unfold slice
  rw [window_eq short, lo, hi]
  split
  next lo hi covered =>
    split at covered <;> cases covered
    rw [Int.toNat_zero, List.drop_zero]
    refine List.take_eq_take_iff.mpr ?_
    omega
  next covered =>
    split at covered
    next empty =>
      refine (List.take_eq_nil_iff.mpr ?_).symm
      rcases empty with none | before | past
      · exact .inr (List.eq_nil_of_length_eq_zero none)
      · exact .inl (by omega)
      · exact .inr (List.eq_nil_of_length_eq_zero (by omega))
    next => cases covered

/-- A window that reaches to the end from an index counted from there covers the last elements. -/
theorem slice_back {xs : List α} (short : xs.length < 2 ^ 63) {first last : Int64} (back : first.toInt < 0)
    (front : 0 ≤ last.toInt) (reaches : xs.length ≤ last.toInt + 1) :
    slice xs first last = xs.drop (xs.length - first.toInt.natAbs) := by
  have lo : lowest xs.length first.toInt = max (xs.length + first.toInt) 0 := if_pos back
  have hi : highest xs.length last.toInt = xs.length - 1 := by
    unfold highest
    split <;> omega
  unfold slice
  rw [window_eq short, lo, hi]
  split
  next lo hi covered =>
    split at covered <;> cases covered
    rw [List.take_of_length_le (by omega)]
    congr 1
    omega
  next covered =>
    split at covered
    next empty =>
      have empty : xs = [] := List.eq_nil_of_length_eq_zero (by omega)
      rw [empty, List.drop_nil]
    next => cases covered

end Msp430.KeyValue
