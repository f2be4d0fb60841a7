import Mathlib.Algebra.GroupWithZero.Nat
import Msp430.Image.Loader
import Msp430.Proofs.Utf8

/-!
# The fields of a record

A field is the stretch of a line's characters between two byte offsets. It is good if it is a hexadecimal
numeral. The loader reads the good ones and says of a bad one whether there is no such stretch or a wrong
character in it.
-/

namespace Msp430

namespace Numeral

/-- A hexadecimal digit and its value. -/
def HexDigit (c : Char) (d : Nat) : Prop := d < 16 ∧ (c = Nat.digitChar d ∨ c = (Nat.digitChar d).toUpper)

/-- The digits `cs` behind the number `n` make the number `m`. -/
inductive Extends : Nat → List Char → Nat → Prop where
  | nil : Extends n [] n
  | cons (digit : HexDigit c d) (rest : Extends (16 * n + d) cs m) : Extends n (c :: cs) m

/-- A numeral has one or more digits after an optional `+`. -/
def Hexadecimal (text : List Char) (n : Nat) : Prop :=
  ∃ digits, digits ≠ [] ∧ (text = digits ∨ text = '+' :: digits) ∧ Extends 0 digits n

/-! ### Digits -/

theorem forall_ascii {P : Char → Prop} (h : ∀ n < 0x80, P (Char.ofNat n)) (c : Char) (low : c.toNat < 0x80) : P c := by
  have this := h c.toNat low
  rwa [Char.ofNat_toNat] at this

theorem digit?_lt {radix d : Nat} {c : Char} (h : digit? radix c = some d) : d < radix := by
  unfold digit? at h
  obtain ⟨small, same⟩ := Option.ite_none_right_eq_some.mp h
  rwa [← Option.some.inj same]

theorem digit?_of_high {c : Char} (high : 0x80 ≤ c.toNat) : digit? 16 c = none := by
  have nine : '9'.toNat = 57 := rfl
  have lower : 'f'.toNat = 102 := rfl
  have upper : 'F'.toNat = 70 := rfl
  unfold digit?
  simp only
  rw [if_neg (c := '0'.toNat ≤ _ ∧ _) (by omega), if_neg (c := 'a'.toNat ≤ _ ∧ _) (by omega),
    if_neg (c := 'A'.toNat ≤ _ ∧ _) (by omega)]
  exact if_neg (Nat.lt_irrefl 16)

theorem HexDigit.ascii {c : Char} {d : Nat} (h : HexDigit c d) : c.toNat < 0x80 := by
  have table : ∀ d < 16, (Nat.digitChar d).toNat < 0x80 ∧ (Nat.digitChar d).toUpper.toNat < 0x80 := by decide
  obtain ⟨small, rfl | rfl⟩ := h
  · exact (table d small).1
  · exact (table d small).2

theorem digit?_eq_some {c : Char} {d : Nat} : digit? 16 c = some d ↔ HexDigit c d := by
  have table : ∀ c : Char, c.toNat < 0x80 → ∀ d < 16,
      digit? 16 c = some d ↔ c = Nat.digitChar d ∨ c = (Nat.digitChar d).toUpper :=
    forall_ascii (by decide)
  constructor
  · intro h
    by_cases low : c.toNat < 0x80
    · exact ⟨digit?_lt h, (table c low d (digit?_lt h)).mp h⟩
    · rw [digit?_of_high (by omega)] at h
      cases h
  · intro h
    exact (table c h.ascii d h.1).mpr h.2

theorem Extends.lt {n m k : Nat} {cs : List Char} (h : Extends n cs m) (small : n < 16 ^ k) :
    m < 16 ^ (k + cs.length) := by
  induction h generalizing k with
  | nil => exact small
  | cons digit rest ih =>
    have next := ih (k := k + 1) (by have := digit.1; omega)
    rwa [List.length_cons, show ∀ l, k + (l + 1) = k + 1 + l by omega]

theorem Hexadecimal.lt {text : List Char} {n : Nat} (h : Hexadecimal text n) : n < 16 ^ text.length := by
  obtain ⟨digits, -, shape, value⟩ := h
  have small := value.lt (k := 0) (by decide)
  have long : digits.length ≤ text.length := by
    rcases shape with rfl | rfl
    · exact Nat.le_refl _
    · exact Nat.le_succ _
  exact Nat.lt_of_lt_of_le small (Nat.pow_le_pow_right (by decide) (by omega))

theorem Extends.le {n m : Nat} {cs : List Char} (h : Extends n cs m) : n ≤ m := by
  induction h with
  | nil => exact Nat.le_refl _
  | cons _ _ ih => omega

theorem readDigits_eq_ok {limit value n : Nat} {cs : List Char} (within : value ≤ limit) :
    readDigits 16 limit value cs = .ok n ↔ Extends value cs n ∧ n ≤ limit := by
  induction cs generalizing value with
  | nil =>
    constructor
    · rintro ⟨⟩
      exact ⟨.nil, within⟩
    · rintro ⟨⟨⟩, -⟩
      rfl
  | cons c cs ih =>
    constructor
    · intro read
      unfold readDigits at read
      split at read
      · cases read
      next d digit =>
        simp only at read
        split at read
        · cases read
        next small =>
          obtain ⟨rest, fits⟩ := (ih (by omega)).mp read
          exact ⟨.cons (digit?_eq_some.mp digit) rest, fits⟩
    · rintro ⟨spelled, fits⟩
      cases spelled with
      | cons digit rest =>
        have small := rest.le
        unfold readDigits
        rw [digit?_eq_some.mpr digit]
        simp only
        rw [if_neg (by omega)]
        exact (ih (by omega)).mpr ⟨rest, fits⟩

theorem HexDigit.ne_sign {c : Char} {d : Nat} (h : HexDigit c d) : c ≠ '+' := by
  have table : ∀ d < 16, Nat.digitChar d ≠ '+' ∧ (Nat.digitChar d).toUpper ≠ '+' := by decide
  obtain ⟨small, rfl | rfl⟩ := h
  · exact (table d small).1
  · exact (table d small).2

theorem hexadecimal_sign {cs : List Char} {n : Nat} : Hexadecimal ('+' :: cs) n ↔ cs ≠ [] ∧ Extends 0 cs n := by
  constructor
  · rintro ⟨digits, some, rfl | same, value⟩
    · cases value with
      | cons digit rest => exact absurd rfl digit.ne_sign
    · cases same
      exact ⟨some, value⟩
  · rintro ⟨some, value⟩
    exact ⟨cs, some, .inr rfl, value⟩

theorem hexadecimal_unsigned {c : Char} (h : c ≠ '+') {cs : List Char} {n : Nat} :
    Hexadecimal (c :: cs) n ↔ Extends 0 (c :: cs) n := by
  constructor
  · rintro ⟨digits, some, rfl | same, value⟩
    · exact value
    · exact absurd (List.cons.inj same).1 h
  · intro value
    exact ⟨_, List.cons_ne_nil c cs, .inl rfl, value⟩

theorem read_sign (limit : Nat) {digits : List Char} (h : digits ≠ []) :
    read 16 limit ('+' :: digits) = readDigits 16 limit 0 digits := by
  cases digits with
  | nil => exact absurd rfl h
  | cons d ds => rfl

theorem read_unsigned (limit : Nat) {c : Char} (h : c ≠ '+') (cs : List Char) :
    read 16 limit (c :: cs) = readDigits 16 limit 0 (c :: cs) := by
  unfold read
  split
  · next none => cases none
  · next sign => exact absurd (List.cons.inj sign).1 h
  · next sign => exact absurd (List.cons.inj sign).1 h
  · rfl

/-- The numerals that are read are the hexadecimal ones up to the limit. -/
theorem read_eq_ok {limit n : Nat} {cs : List Char} : read 16 limit cs = .ok n ↔ Hexadecimal cs n ∧ n ≤ limit := by
  cases cs with
  | nil =>
    constructor
    · rintro ⟨⟩
    · rintro ⟨⟨digits, some, rfl | same, -⟩, -⟩
      · exact absurd rfl some
      · cases same
  | cons c cs =>
    by_cases sign : c = '+'
    · subst sign
      rw [hexadecimal_sign]
      by_cases none : cs = []
      · subst none
        exact ⟨nofun, fun h => absurd rfl h.1.1⟩
      · rw [read_sign limit none, readDigits_eq_ok (Nat.zero_le limit), and_iff_right none]
    · rw [hexadecimal_unsigned sign, read_unsigned limit sign, readDigits_eq_ok (Nat.zero_le limit)]

/-! ### Numerals in encoded text -/

/-- Bytes taken for characters one by one. -/
def byteChars (bs : Bytes) : List Char := bs.map fun b => Char.ofNat b.toNat

theorem byteChars_encodeChar (c : Char) :
    c.toNat < 0x80 ∧ byteChars (String.utf8EncodeChar c) = [c] ∨
      0x80 ≤ c.toNat ∧ ∃ d ds, byteChars (String.utf8EncodeChar c) = d :: ds ∧ 0x80 ≤ d.toNat := by
  obtain ⟨first, tails, shape, ⟨low, same, rfl⟩ | ⟨high, lead⟩, -⟩ := Utf8.encodeChar_bytes c
  · refine .inl ⟨low, ?_⟩
    rw [shape, byteChars, List.map_singleton, same, Char.ofNat_toNat]
  · refine .inr ⟨high, Char.ofNat first.toNat, byteChars tails, by rw [shape]; rfl, ?_⟩
    have value := Utf8.toNat_ofNat_char (n := first.toNat) (.inl (by have := first.toNat_lt; omega))
    change _ ≤ (Char.ofNat first.toNat).val.toNat
    omega

variable {cs : List Char} {value k n : Nat}

theorem byteChars_encode_cons (c : Char) (cs : List Char) :
    byteChars (Utf8.encode (c :: cs)) = byteChars (String.utf8EncodeChar c) ++ byteChars (Utf8.encode cs) := by
  rw [Utf8.encode_cons]
  exact List.map_append

theorem Extends.byteChars_encode (h : Extends value cs n) : byteChars (Utf8.encode cs) = cs := by
  induction h with
  | nil => rfl
  | @cons c d n cs m digit rest ih =>
    rcases byteChars_encodeChar c with ⟨-, shape⟩ | ⟨high, -⟩
    · rw [byteChars_encode_cons, shape, List.singleton_append, ih]
    · have := digit.ascii
      omega

theorem readDigits_of_not_extends (h : ∀ n, ¬Extends value cs n) (small : value < 16 ^ k)
    (fits : k + (Utf8.encode cs).length ≤ 4) :
    readDigits 16 0xFFFF value (byteChars (Utf8.encode cs)) = .error .invalidDigit := by
  induction cs generalizing value k with
  | nil => exact absurd .nil (h value)
  | cons c cs ih =>
    rw [Utf8.encode_cons, List.length_append, String.length_utf8EncodeChar] at fits
    have width := Char.utf8Size_pos c
    rw [byteChars_encode_cons]
    rcases byteChars_encodeChar c with ⟨-, shape⟩ | ⟨-, d, ds, shape, high⟩
    · rw [shape, List.singleton_append, readDigits]
      cases digit : digit? 16 c with
      | none => rfl
      | some d =>
        have hex := digit?_eq_some.mp digit
        have next : 16 * value + d < 16 ^ (k + 1) := by
          have := hex.1
          omega
        have within : 16 ^ (k + 1) ≤ 16 ^ 4 := Nat.pow_le_pow_right (by decide) (by omega)
        simp only
        rw [if_neg (by omega)]
        exact ih (fun n rest => h n (.cons hex rest)) next (by omega)
    · rw [shape, List.cons_append, readDigits, digit?_of_high high]

theorem byteChars_encode_sign (cs : List Char) :
    byteChars (Utf8.encode ('+' :: cs)) = '+' :: byteChars (Utf8.encode cs) := byteChars_encode_cons '+' cs

theorem byteChars_encode_ne_nil (h : cs ≠ []) : byteChars (Utf8.encode cs) ≠ [] := by
  cases cs with
  | nil => exact absurd rfl h
  | cons c cs =>
    rw [byteChars_encode_cons]
    rcases byteChars_encodeChar c with ⟨-, shape⟩ | ⟨-, d, ds, shape, -⟩
    all_goals
      rw [shape]
      exact List.cons_ne_nil _ _

theorem read_unsigned_encode {c : Char} (h : c ≠ '+') (cs : List Char) :
    read 16 0xFFFF (byteChars (Utf8.encode (c :: cs))) =
      readDigits 16 0xFFFF 0 (byteChars (Utf8.encode (c :: cs))) := by
  rw [byteChars_encode_cons]
  rcases byteChars_encodeChar c with ⟨-, shape⟩ | ⟨-, d, ds, shape, high⟩
  · rw [shape]
    exact read_unsigned _ h _
  · rw [shape]
    refine read_unsigned _ ?_ _
    rintro rfl
    exact absurd high (by decide)

theorem Hexadecimal.byteChars_encode (h : Hexadecimal cs n) : byteChars (Utf8.encode cs) = cs := by
  obtain ⟨digits, -, rfl | rfl, value⟩ := h
  · exact value.byteChars_encode
  · rw [byteChars_encode_sign, value.byteChars_encode]

theorem read_of_hexadecimal (h : Hexadecimal cs n) (short : (Utf8.encode cs).length ≤ 4) :
    read 16 0xFFFF (byteChars (Utf8.encode cs)) = .ok n := by
  have long := Utf8.length_le_encode cs
  -- A number of at most four digits does not reach the limit.
  have within : n < 16 ^ 4 := Nat.lt_of_lt_of_le h.lt (Nat.pow_le_pow_right (by decide) (by omega))
  rw [h.byteChars_encode, read_eq_ok]
  exact ⟨h, by omega⟩

theorem read_of_not_hexadecimal (h : ∀ n, ¬Hexadecimal cs n) (some : cs ≠ [])
    (short : (Utf8.encode cs).length ≤ 4) :
    read 16 0xFFFF (byteChars (Utf8.encode cs)) = .error .invalidDigit := by
  cases cs with
  | nil => exact absurd rfl some
  | cons c cs =>
    by_cases sign : c = '+'
    · subst sign
      rw [Utf8.encode_cons, List.length_append] at short
      rw [byteChars_encode_sign]
      by_cases none : cs = []
      · rw [none]
        rfl
      · have unread : ∀ n, ¬Extends 0 cs n := fun n value => h n ⟨cs, none, .inr rfl, value⟩
        rw [read_sign _ (byteChars_encode_ne_nil none)]
        exact readDigits_of_not_extends unread (k := 0) (by decide) (by omega)
    · have unread : ∀ n, ¬Extends 0 (c :: cs) n := fun n value => h n ⟨c :: cs, some, .inl rfl, value⟩
      rw [read_unsigned_encode sign]
      exact readDigits_of_not_extends unread (k := 0) (by decide) (by omega)

end Numeral

namespace Image

/-- The characters of a line from a byte offset on that fill a number of bytes. -/
def Spans (text : List Char) (offset width : Nat) (inside : List Char) : Prop :=
  ∃ before after, text = before ++ inside ++ after ∧ (Utf8.encode before).length = offset ∧
    (Utf8.encode inside).length = width

/-- A good field and the number in it. -/
def Field (text : List Char) (offset width n : Nat) : Prop :=
  ∃ inside, Spans text offset width inside ∧ Numeral.Hexadecimal inside n

/-- A bad field. It is empty where characters do not begin and end at its bounds. -/
inductive BadField (text : List Char) (offset width : Nat) : Numeral.Defect → Prop where
  | empty (h : ∀ inside, ¬Spans text offset width inside) : BadField text offset width .empty
  | invalidDigit (span : Spans text offset width inside) (h : ∀ n, ¬Numeral.Hexadecimal inside n) :
      BadField text offset width .invalidDigit

theorem field_or_bad (text : List Char) (offset width : Nat) :
    (∃ n, Field text offset width n) ∨ ∃ cause, BadField text offset width cause := by
  by_cases span : ∃ inside, Spans text offset width inside
  · obtain ⟨inside, span⟩ := span
    by_cases value : ∃ n, Numeral.Hexadecimal inside n
    · obtain ⟨n, value⟩ := value
      exact .inl ⟨n, inside, span, value⟩
    · exact .inr ⟨_, .invalidDigit span fun n hex => value ⟨n, hex⟩⟩
  · exact .inr ⟨_, .empty fun inside h => span ⟨inside, h⟩⟩

/-! ### Character boundaries -/

variable {text inside : List Char} {offset width n : Nat}

theorem isBoundary_of_byte {bs : Bytes} {b : UInt8} (h : bs[offset]? = some b) :
    isBoundary bs offset = true ↔ ¬(0x80 ≤ b.toNat ∧ b.toNat < 0xC0) := by
  unfold isBoundary
  rw [h]
  simp only [Bool.not_eq_true', Bool.and_eq_false_iff, decide_eq_false_iff_not, UInt8.le_iff_toNat_le,
    UInt8.lt_iff_toNat_lt]
  exact Decidable.not_and_iff_or_not.symm

theorem isBoundary_append (front back : Bytes) (offset : Nat) :
    isBoundary (front ++ back) (front.length + offset) = isBoundary back offset := by
  unfold isBoundary
  rw [List.getElem?_append_right (by omega), Nat.add_sub_cancel_left, List.length_append]
  cases back[offset]? with
  | some b => rfl
  | none => simp

/-- The boundaries of a text lie where one of its characters begins and at its end. -/
theorem isBoundary_encode : isBoundary (Utf8.encode text) offset = true ↔
    ∃ before after, text = before ++ after ∧ (Utf8.encode before).length = offset := by
  induction text generalizing offset with
  | nil =>
    constructor
    · intro h
      exact ⟨[], [], rfl, (of_decide_eq_true h).symm⟩
    · rintro ⟨before, after, empty, rfl⟩
      rw [(List.append_eq_nil_iff.mp empty.symm).1]
      rfl
  | cons c cs ih =>
    obtain ⟨first, tails, shape, lead, rest⟩ := Utf8.encodeChar_bytes c
    have width : (first :: tails).length = (String.utf8EncodeChar c).length := by rw [shape]
    rw [List.length_cons] at width
    by_cases start : offset = 0
    · subst start
      refine ⟨fun _ => ⟨[], c :: cs, rfl, rfl⟩, fun _ => ?_⟩
      rw [isBoundary_of_byte (b := first) (by rw [Utf8.encode_cons, shape]; rfl)]
      omega
    by_cases within : offset < tails.length + 1
    -- Inside the first character every byte is a tail.
    · have inside : ∃ t ∈ tails, (Utf8.encode (c :: cs))[offset]? = some t := by
        obtain ⟨j, rfl⟩ := Nat.exists_eq_succ_of_ne_zero start
        have bound : j < tails.length := by omega
        refine ⟨tails[j], List.getElem_mem _, ?_⟩
        rw [Utf8.encode_cons, shape, List.cons_append, List.getElem?_cons_succ, List.getElem?_append_left bound]
        exact List.getElem?_eq_getElem bound
      obtain ⟨t, member, byte⟩ := inside
      rw [isBoundary_of_byte byte]
      refine ⟨fun outside => absurd (rest t member) outside, ?_⟩
      rintro ⟨_ | ⟨d, before⟩, after, split, length⟩
      · exact absurd length.symm start
      · obtain ⟨rfl, -⟩ := List.cons.inj split
        rw [Utf8.encode_cons, List.length_append] at length
        omega
    · obtain ⟨o, rfl⟩ := Nat.exists_eq_add_of_le (Nat.le_of_not_lt within)
      rw [width, Utf8.encode_cons, isBoundary_append, ih]
      constructor
      · rintro ⟨before, after, rfl, rfl⟩
        exact ⟨c :: before, after, rfl, by rw [Utf8.encode_cons, List.length_append]⟩
      · rintro ⟨_ | ⟨d, before⟩, after, split, length⟩
        · change 0 = _ at length
          omega
        · obtain ⟨rfl, rfl⟩ := List.cons.inj split
          refine ⟨before, after, rfl, ?_⟩
          rw [Utf8.encode_cons, List.length_append] at length
          omega

/-! ### Reading a field -/

theorem fieldBytes_of_spans (h : Spans text offset width inside) :
    fieldBytes (Utf8.encode text) offset width = Utf8.encode inside := by
  obtain ⟨before, after, rfl, rfl, rfl⟩ := h
  have first : isBoundary (Utf8.encode (before ++ inside ++ after)) (Utf8.encode before).length = true :=
    isBoundary_encode.mpr ⟨before, inside ++ after, List.append_assoc .., rfl⟩
  have last : isBoundary (Utf8.encode (before ++ inside ++ after))
      ((Utf8.encode before).length + (Utf8.encode inside).length) = true :=
    isBoundary_encode.mpr ⟨before ++ inside, after, rfl, by rw [Utf8.encode_append, List.length_append]⟩
  rw [fieldBytes, first, last]
  simp [Utf8.encode_append]

theorem fieldBytes_of_not_spans (h : ∀ inside, ¬Spans text offset width inside) (wide : 0 < width) :
    fieldBytes (Utf8.encode text) offset width = [] := by
  refine if_neg fun bounds => ?_
  obtain ⟨first, last⟩ := Bool.and_eq_true_iff.mp bounds
  obtain ⟨before, rest, split, start⟩ := isBoundary_encode.mp first
  obtain ⟨front, after, split', stop⟩ := isBoundary_encode.mp last
  rw [split] at split'
  rcases List.append_eq_append_iff.mp split' with ⟨inside, rfl, rfl⟩ | ⟨back, rfl, -⟩
  · rw [Utf8.encode_append, List.length_append] at stop
    exact h inside ⟨before, after, by rw [split, List.append_assoc], start, by omega⟩
  · rw [Utf8.encode_append, List.length_append] at start
    omega

theorem Spans.width_eq (h : Spans text offset width inside) : (Utf8.encode inside).length = width := by
  obtain ⟨_, _, _, _, size⟩ := h
  exact size

theorem field_eq (line : Nat) (bs : Bytes) (offset width : Nat) :
    field line bs offset width =
      match Numeral.read 16 0xFFFF (Numeral.byteChars (fieldBytes bs offset width)) with
      | .ok n => .ok n
      | .error cause => .error (.badHex line cause) := rfl

theorem field_of_good (line : Nat) (h : Field text offset width n) (short : width ≤ 4) :
    field line (Utf8.encode text) offset width = .ok n := by
  obtain ⟨inside, span, value⟩ := h
  have size := span.width_eq
  rw [field_eq, fieldBytes_of_spans span, Numeral.read_of_hexadecimal value (by omega)]

theorem field_of_bad (line : Nat) {cause : Numeral.Defect} (h : BadField text offset width cause) (wide : 0 < width)
    (short : width ≤ 4) : field line (Utf8.encode text) offset width = .error (.badHex line cause) := by
  cases h with
  | empty h =>
    rw [field_eq, fieldBytes_of_not_spans h wide]
    rfl
  | @invalidDigit inside span h =>
    have size := span.width_eq
    have some : inside ≠ [] := by
      rintro rfl
      change 0 = width at size
      omega
    rw [field_eq, fieldBytes_of_spans span, Numeral.read_of_not_hexadecimal h some (by omega)]

theorem Field.lt (h : Field text offset width n) : n < 16 ^ width := by
  obtain ⟨inside, span, value⟩ := h
  have long : inside.length ≤ width := by
    rw [← span.width_eq]
    exact Utf8.length_le_encode inside
  exact Nat.lt_of_lt_of_le value.lt (Nat.pow_le_pow_right (by decide) long)

end Image

end Msp430
