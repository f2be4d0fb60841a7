import Msp430.Proofs.ImageWriting
import Msp430.Service.Basic

/-!
# Addresses in text

An address may be spelled in many ways. Its four digits are one of them, and the order of these spellings is the order
of the addresses.
-/

namespace Msp430

namespace Hex

theorem digitChar_lt {d e : Nat} (hd : d < 16) (he : e < 16) : Nat.digitChar d < Nat.digitChar e ↔ d < e := by
  have table : ∀ d < 16, ∀ e < 16, Nat.digitChar d < Nat.digitChar e ↔ d < e := by decide
  exact table d hd e he

theorem digitChar_inj {d e : Nat} (hd : d < 16) (he : e < 16) : Nat.digitChar d = Nat.digitChar e ↔ d = e := by
  have table : ∀ d < 16, ∀ e < 16, Nat.digitChar d = Nat.digitChar e ↔ d = e := by decide
  exact table d hd e he

theorem toList_word (a : UInt16) : (word a).toList = wordDigits a := String.toList_ofList

theorem word_lt_word {a b : UInt16} (below : a < b) : word a < word b := by
  have below : a.toNat < b.toNat := below
  have boundA := a.toNat_lt
  have boundB := b.toNat_lt
  change (word a).toList < (word b).toList
  rw [toList_word, toList_word]
  simp only [wordDigits, List.cons_lt_cons_iff]
  rw [digitChar_lt (by omega) (by omega), digitChar_lt (by omega) (by omega), digitChar_lt (by omega) (by omega),
    digitChar_lt (by omega) (by omega), digitChar_inj (by omega) (by omega), digitChar_inj (by omega) (by omega),
    digitChar_inj (by omega) (by omega)]
  omega

end Hex

namespace Service

/-! ### Marks -/

theorem dropMarks_marks (k : Nat) (rest : List Char) :
    dropMarks ((List.replicate k ['0', 'x']).flatten ++ rest) = dropMarks rest := by
  induction k with
  | zero => rfl
  | succ k ih => exact ih

theorem dropMarks_of_unmarked {cs : List Char} (unmarked : ¬['0', 'x'] <+: cs) : dropMarks cs = cs := by
  unfold dropMarks
  split
  · next rest => exact absurd ⟨rest, rfl⟩ unmarked
  · rfl

theorem marks_dropMarks (cs : List Char) :
    ¬['0', 'x'] <+: dropMarks cs ∧ ∃ k, cs = (List.replicate k ['0', 'x']).flatten ++ dropMarks cs := by
  fun_induction dropMarks cs with
  | case1 rest ih =>
    obtain ⟨unmarked, k, marks⟩ := ih
    refine ⟨unmarked, k + 1, ?_⟩
    rw [List.replicate_succ, List.flatten_cons, List.append_assoc, ← marks]
    rfl
  | case2 cs other =>
    refine ⟨?_, 0, rfl⟩
    rintro ⟨rest, rfl⟩
    exact other rest rfl

/-! ### Spellings -/

/-- A text spells an address if behind every leading `0x` there is a hexadecimal numeral for it. -/
theorem parseAddress_eq_ok {text : String} {a : UInt16} :
    parseAddress text = .ok a ↔
      ∃ k digits, text.toList = (List.replicate k ['0', 'x']).flatten ++ digits ∧ ¬['0', 'x'] <+: digits ∧
        Numeral.Hexadecimal digits a.toNat := by
  have bound := a.toNat_lt
  have reads : parseAddress text = .ok a ↔ Numeral.read 16 0xFFFF (dropMarks text.toList) = .ok a.toNat := by
    unfold parseAddress
    cases read : Numeral.read 16 0xFFFF (dropMarks text.toList) with
    | error cause => exact ⟨nofun, nofun⟩
    | ok n =>
      have small := (Numeral.read_eq_ok.mp read).2
      change Except.ok (UInt16.ofNat n) = _ ↔ _
      rw [Except.ok.injEq, Except.ok.injEq, ← UInt16.toNat_inj, UInt16.toNat_ofNat_of_lt' (by change n < 65536; omega)]
  rw [reads, Numeral.read_eq_ok]
  constructor
  · rintro ⟨numeral, -⟩
    obtain ⟨unmarked, k, marks⟩ := marks_dropMarks text.toList
    exact ⟨k, _, marks, unmarked, numeral⟩
  · rintro ⟨k, digits, marks, unmarked, numeral⟩
    rw [marks, dropMarks_marks, dropMarks_of_unmarked unmarked]
    exact ⟨numeral, by omega⟩

theorem parseAddress_word (a : UInt16) : parseAddress (Hex.word a) = .ok a := by
  have digits : ∀ d < 16, (Nat.digitChar d).toLower = Nat.digitChar d ∧ Nat.digitChar d ≠ 'x' := by decide
  refine parseAddress_eq_ok.mpr ⟨0, Hex.wordDigits a, Hex.toList_word a, ?_, Image.hexadecimal_word ?_⟩
  · rintro ⟨rest, marked⟩
    have member : 'x' ∈ Hex.wordDigits a := by simp [← marked]
    obtain ⟨d, small, same⟩ := Image.digit_of_mem_wordDigits member
    exact (digits d small).2 same.symm
  · refine (List.map_congr_left fun c member => ?_).trans (List.map_id _)
    obtain ⟨d, small, rfl⟩ := Image.digit_of_mem_wordDigits member
    exact (digits d small).1

end Service

end Msp430
