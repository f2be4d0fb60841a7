import Msp430.Isa.Assembly
import Std.Data.String.ToInt

/-!
# Reading a listing line

The listing line of a jump has one dollar sign, and what is printed after it is the distance of the jump
from its own address.
-/

namespace Msp430

/-- The integer that a numeral with a sign stands for. -/
def readSigned (text : List Char) : Option Int :=
  match text with
  | '+' :: digits => (String.ofList digits).toInt?
  | _ => (String.ofList text).toInt?

/-- The number printed after the dollar sign. -/
def Decoded.printedDistance? (d : Decoded) : Option Int :=
  match d.listing.toList.dropWhile (· ≠ '$') with
  | _ :: text => readSigned text
  | [] => none

theorem readSigned_signedText (n : Int) : readSigned (Instruction.signedText n).toList = some n := by
  unfold Instruction.signedText
  cases n with
  | ofNat k =>
    have plus : s!"+{Int.ofNat k}".toList = '+' :: k.repr.toList := by
      change ("+" ++ k.repr).toList = _
      rw [String.toList_append]
      rfl
    have natural : ¬Int.ofNat k < 0 := Int.not_lt.mpr (Int.natCast_nonneg k)
    rw [if_neg natural, plus]
    change (String.ofList k.repr.toList).toInt? = _
    rw [String.ofList_toList]
    exact Nat.toInt?_repr k
  | negSucc k =>
    have minus : (toString (Int.negSucc k)).toList = '-' :: (k + 1).repr.toList := by
      change ("-" ++ (k + 1).repr).toList = _
      rw [String.toList_append]
      rfl
    rw [if_pos (Int.negSucc_lt_zero k), minus]
    change (String.ofList ('-' :: (k + 1).repr.toList)).toInt? = _
    rw [← minus, String.ofList_toList]
    exact Int.toInt?_repr _

theorem Hex.not_mem_byteDigits {c : Char} (plain : ∀ n < 16, c ≠ Nat.digitChar n) (b : UInt8) : c ∉ byteDigits b := by
  have high : b.toNat / 16 < 16 := by
    have := b.toNat_lt
    omega
  simp only [byteDigits, List.mem_cons, List.not_mem_nil, or_false, not_or]
  exact ⟨plain _ high, plain _ (Nat.mod_lt _ (by decide))⟩

namespace Decoded

theorem not_mem_columns {c : Char} (plain : ∀ n < 16, c ≠ Nat.digitChar n) (blank : c ≠ ' ') (d : Decoded) :
    c ∉ d.columns.toList := by
  have single : c ∉ " ".toList := fun h => blank (List.mem_singleton.mp h)
  have triple : c ∉ "   ".toList := by
    rintro (_ | ⟨_, _ | ⟨_, _ | ⟨_, ⟨⟩⟩⟩⟩) <;> exact blank rfl
  intro h
  rw [columns, String.toList_join, List.mem_flatMap] at h
  obtain ⟨column, hc, h⟩ := h
  obtain ⟨k, -, rfl⟩ := List.mem_map.mp hc
  split at h
  · next b _ =>
    rw [String.toList_append, Hex.byte, String.toList_ofList, List.mem_append] at h
    exact h.elim (Hex.not_mem_byteDigits plain b) single
  · exact triple h

/-- What is printed in the listing of a jump is its distance from the jump's own address. -/
theorem printedDistance?_jump {d : Decoded} {condition : Condition} {offset : Int16}
    (h : d.instruction = .jump condition offset) :
    d.printedDistance? = some (Instruction.displacement offset + 2) := by
  have text : d.listing.toList = (d.columns ++ "\t" ++ condition.mnemonic ++ " ").toList ++
      '$' :: (Instruction.signedText (Instruction.displacement offset + 2)).toList := by
    have head : (Instruction.jump condition offset).head = condition.mnemonic := String.append_empty
    simp only [listing, h, Instruction.assembly, head, String.toList_append, List.append_assoc]
    rfl
  have front : ∀ c ∈ (d.columns ++ "\t" ++ condition.mnemonic ++ " ").toList, decide (c ≠ '$') = true := by
    intro c hc
    refine decide_eq_true ?_
    rintro rfl
    simp only [String.toList_append, List.mem_append] at hc
    rcases hc with ((hc | hc) | hc) | hc
    · exact d.not_mem_columns (by decide) (by decide) hc
    · exact absurd hc (by decide)
    · revert hc
      cases condition <;> decide
    · exact absurd hc (by decide)
  unfold printedDistance?
  rw [text, List.dropWhile_append_of_pos front]
  exact readSigned_signedText _

end Decoded

end Msp430
