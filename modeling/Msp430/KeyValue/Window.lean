/-!
# Index windows

A window names a stretch of a sequence by its first and last index; a negative index counts from the
end. `window` turns it into the half-open range of positions it covers.
-/

namespace Msp430.KeyValue

/-- The positions from `lo` up to but not including `hi` that the indices name, if there are any. -/
def window (length : Nat) (first last : Int64) : Option (Nat × Nat) :=
  let size := Int64.ofNat length
  let lo := if first < 0 then max (size + first) 0 else first
  let hi := if last < 0 then size + last else min last (size - 1)
  if size = 0 ∨ hi < lo ∨ size ≤ lo then none
  else some (lo.toNatClampNeg, hi.toNatClampNeg + 1)

/-- The elements in a window, in order. -/
def slice (xs : List α) (first last : Int64) : List α :=
  match window xs.length first last with
  | some (lo, hi) => (xs.take hi).drop lo
  | none => []

end Msp430.KeyValue
