import Msp430.Text.Utf8

/-!
# UTF-8 read and written

`decode?` accepts the byte strings that `encode` writes and no others, and gives back the characters.
-/

namespace Msp430.Utf8

theorem encode_append (cs ds : List Char) : encode (cs ++ ds) = encode cs ++ encode ds := List.flatMap_append

theorem encode_cons (c : Char) (cs : List Char) : encode (c :: cs) = String.utf8EncodeChar c ++ encode cs :=
  List.flatMap_cons

theorem length_le_encode (cs : List Char) : cs.length ≤ (encode cs).length := by
  induction cs with
  | nil => exact Nat.le_refl 0
  | cons c cs ih =>
    have width := Char.utf8Size_pos c
    rw [encode_cons, List.length_append, String.length_utf8EncodeChar, List.length_cons]
    omega

/-! ### The bytes of a character -/

theorem toNat_ofNat_char {n : Nat} (h : n.isValidChar) : (Char.ofNat n).val.toNat = n := by
  unfold Char.ofNat
  rw [dif_pos h]
  exact UInt32.toNat_ofNatLT

/-- The byte that carries the lowest six of the bits of `n`. -/
def tail (n : Nat) : UInt8 := .ofNat (n % 0x40 + 0x80)

theorem encodeChar_one {n : Nat} (h : n < 0x80) : String.utf8EncodeChar (Char.ofNat n) = [.ofNat n] := by
  unfold String.utf8EncodeChar
  rw [toNat_ofNat_char (.inl (by omega))]
  exact if_pos (by omega)

theorem encodeChar_two {n : Nat} (low : 0x80 ≤ n) (high : n < 0x800) :
    String.utf8EncodeChar (Char.ofNat n) = [.ofNat (n / 0x40 + 0xC0), tail n] := by
  unfold String.utf8EncodeChar
  rw [toNat_ofNat_char (.inl (by omega))]
  simp only [tail]
  rw [if_neg (by omega), if_pos (by omega), Nat.mod_eq_of_lt (a := n / 64) (by omega)]

theorem encodeChar_three {n : Nat} (valid : n.isValidChar) (low : 0x800 ≤ n) (high : n < 0x10000) :
    String.utf8EncodeChar (Char.ofNat n) = [.ofNat (n / 0x1000 + 0xE0), tail (n / 0x40), tail n] := by
  unfold String.utf8EncodeChar
  rw [toNat_ofNat_char valid]
  simp only [tail]
  rw [if_neg (by omega), if_neg (by omega), if_pos (by omega), Nat.mod_eq_of_lt (a := n / 4096) (by omega)]

theorem encodeChar_four {n : Nat} (valid : n.isValidChar) (low : 0x10000 ≤ n) :
    String.utf8EncodeChar (Char.ofNat n) =
      [.ofNat (n / 0x40000 + 0xF0), tail (n / 0x1000), tail (n / 0x40), tail n] := by
  have high : n < 0x110000 := by
    rcases valid with h | h <;> omega
  unfold String.utf8EncodeChar
  rw [toNat_ofNat_char valid]
  simp only [tail]
  rw [if_neg (by omega), if_neg (by omega), if_neg (by omega), Nat.mod_eq_of_lt (a := n / 262144) (by omega)]

/-! ### One byte of the automaton -/

variable {b : UInt8} {o : Open} {bs rest : Bytes} {cs : List Char}

theorem lead_one (h : b.toNat < 0x80) : lead b = ([some (Char.ofNat b.toNat)], none) := if_pos h

theorem lead_two (low : 0xC2 ≤ b.toNat) (high : b.toNat < 0xE0) :
    lead b = ([], some { code := b.toNat - 0xC0, missing := 1 }) := by
  unfold lead
  simp only
  rw [if_neg (by omega), if_neg (by omega), if_pos high]

theorem lead_three (low : 0xE0 ≤ b.toNat) (high : b.toNat < 0xF0) :
    lead b =
      ([], some
        { code := b.toNat - 0xE0
          missing := 2
          low := if b.toNat = 0xE0 then 0xA0 else 0x80
          high := if b.toNat = 0xED then 0x9F else 0xBF }) := by
  unfold lead
  simp only
  rw [if_neg (by omega), if_neg (by omega), if_neg (by omega)]
  by_cases first : b.toNat = 0xE0
  · simp [first]
  · by_cases surrogate : b.toNat = 0xED
    · simp [surrogate]
    · simp [first, surrogate, high]

theorem lead_four (low : 0xF0 ≤ b.toNat) (high : b.toNat < 0xF5) :
    lead b =
      ([], some
        { code := b.toNat - 0xF0
          missing := 3
          low := if b.toNat = 0xF0 then 0x90 else 0x80
          high := if b.toNat = 0xF4 then 0x8F else 0xBF }) := by
  unfold lead
  simp only
  rw [if_neg (by omega), if_neg (by omega), if_neg (by omega), if_neg (by omega), if_neg (by omega), if_neg (by omega)]
  by_cases first : b.toNat = 0xF0
  · simp [first]
  · by_cases last : b.toNat = 0xF4
    · simp [last]
    · have between : b.toNat < 0xF4 := by omega
      simp [first, last, between]

theorem lead_none (h : 0x80 ≤ b.toNat ∧ b.toNat < 0xC2 ∨ 0xF5 ≤ b.toNat) : lead b = ([none], none) := by
  unfold lead
  simp only
  rcases h with h | h
  · rw [if_neg (by omega), if_pos (by omega)]
  · rw [if_neg (by omega), if_neg (by omega), if_neg (by omega), if_neg (by omega), if_neg (by omega),
      if_neg (by omega), if_neg (by omega), if_neg (by omega), if_neg (by omega)]

/-- The state after one more byte of a character. -/
def Open.next (o : Open) (b : UInt8) : Option Open :=
  if o.missing ≤ 1 then none else some { code := 64 * o.code + b.toNat % 64, missing := o.missing - 1 }

theorem scalarsFrom_within (low : o.low.toNat ≤ b.toNat) (high : b.toNat ≤ o.high.toNat) (rest : Bytes) :
    scalarsFrom (some o) (b :: rest) =
      (if o.missing ≤ 1 then [some (Char.ofNat (64 * o.code + b.toNat % 64))] else []) ++
        scalarsFrom (o.next b) rest := by
  have within : o.low ≤ b ∧ b ≤ o.high := ⟨low, high⟩
  rw [scalarsFrom, advance, if_pos within, Open.next]
  simp only
  by_cases last : o.missing ≤ 1
  · rw [if_pos last, if_pos last, if_pos last]
  · rw [if_neg last, if_neg last, if_neg last]

/-- Where a character has been begun, there is a gap unless the next byte goes on with it. -/
theorem goes_on (h : none ∉ scalarsFrom (some o) bs) :
    ∃ b rest, bs = b :: rest ∧ o.low.toNat ≤ b.toNat ∧ b.toNat ≤ o.high.toNat ∧ none ∉ scalarsFrom (o.next b) rest := by
  cases bs with
  | nil => exact absurd List.mem_cons_self h
  | cons b rest =>
    by_cases within : o.low.toNat ≤ b.toNat ∧ b.toNat ≤ o.high.toNat
    · rw [scalarsFrom_within within.1 within.2, List.mem_append, not_or] at h
      exact ⟨b, rest, rfl, within.1, within.2, h.2⟩
    · have outside : ¬(o.low ≤ b ∧ b ≤ o.high) := within
      rw [scalarsFrom, advance, if_neg outside] at h
      exact absurd List.mem_cons_self h

/-! ### Which codes are written in three and four bytes -/

/-- The bounds of the second byte keep out codes that need fewer bytes and surrogates. -/
theorem valid_three {n : Nat} (small : n < 0x10000) :
    n.isValidChar ∧ 0x800 ≤ n ↔
      (if n / 0x1000 + 0xE0 = 0xE0 then 0xA0 else 0x80 : UInt8).toNat ≤ n / 0x40 % 0x40 + 0x80 ∧
        n / 0x40 % 0x40 + 0x80 ≤ (if n / 0x1000 + 0xE0 = 0xED then 0x9F else 0xBF : UInt8).toNat := by
  have lows : (0xA0 : UInt8).toNat = 0xA0 ∧ (0x80 : UInt8).toNat = 0x80 := ⟨rfl, rfl⟩
  have highs : (0x9F : UInt8).toNat = 0x9F ∧ (0xBF : UInt8).toNat = 0xBF := ⟨rfl, rfl⟩
  unfold Nat.isValidChar
  split <;> split <;> omega

/-- The bounds of the second byte keep out codes that need fewer bytes and those past the last. -/
theorem valid_four {n : Nat} :
    n.isValidChar ∧ 0x10000 ≤ n ↔
      n / 0x40000 < 5 ∧
        (if n / 0x40000 + 0xF0 = 0xF0 then 0x90 else 0x80 : UInt8).toNat ≤ n / 0x1000 % 0x40 + 0x80 ∧
        n / 0x1000 % 0x40 + 0x80 ≤ (if n / 0x40000 + 0xF0 = 0xF4 then 0x8F else 0xBF : UInt8).toNat := by
  have lows : (0x90 : UInt8).toNat = 0x90 ∧ (0x80 : UInt8).toNat = 0x80 := ⟨rfl, rfl⟩
  have highs : (0x8F : UInt8).toNat = 0x8F ∧ (0xBF : UInt8).toNat = 0xBF := ⟨rfl, rfl⟩
  unfold Nat.isValidChar
  split <;> split <;> omega

/-! ### Reading what was written -/

theorem toNat_ofNat_byte {n : Nat} (h : n < 0x100) : (UInt8.ofNat n).toNat = n := by
  rw [UInt8.toNat_ofNat']
  exact Nat.mod_eq_of_lt h

theorem toNat_tail (n : Nat) : (tail n).toNat = n % 0x40 + 0x80 := toNat_ofNat_byte (by omega)

theorem scalarsFrom_lead (b : UInt8) (rest : Bytes) :
    scalarsFrom none (b :: rest) = (lead b).1 ++ scalarsFrom (lead b).2 rest := rfl

theorem scalarsFrom_tail {n : Nat} (bits : n / 0x40 = o.code) (low : o.low.toNat ≤ n % 0x40 + 0x80)
    (high : n % 0x40 + 0x80 ≤ o.high.toNat) (rest : Bytes) :
    scalarsFrom (some o) (tail n :: rest) =
      if o.missing ≤ 1 then some (Char.ofNat n) :: scalarsFrom none rest
      else scalarsFrom (some { code := n, missing := o.missing - 1 }) rest := by
  have value := toNat_tail n
  have whole : 64 * o.code + (tail n).toNat % 64 = n := by omega
  rw [scalarsFrom_within (by omega) (by omega), Open.next, whole]
  split <;> rfl

theorem low_le_tail (n : Nat) : (0x80 : UInt8).toNat ≤ n % 0x40 + 0x80 := by
  change 0x80 ≤ _
  omega

theorem tail_le_high (n : Nat) : n % 0x40 + 0x80 ≤ (0xBF : UInt8).toNat := by
  change _ ≤ 0xBF
  omega

theorem scalarsFrom_one {code n : Nat} (bits : n / 0x40 = code) (rest : Bytes) :
    scalarsFrom (some { code, missing := 1 }) (tail n :: rest) = some (Char.ofNat n) :: scalarsFrom none rest := by
  rw [scalarsFrom_tail bits (low_le_tail n) (tail_le_high n)]
  exact if_pos (Nat.le_refl 1)

theorem scalarsFrom_two {code n : Nat} {low high : UInt8} (bits : n / 0x1000 = code)
    (above : low.toNat ≤ n / 0x40 % 0x40 + 0x80) (below : n / 0x40 % 0x40 + 0x80 ≤ high.toNat) (rest : Bytes) :
    scalarsFrom (some { code, missing := 2, low, high }) (tail (n / 0x40) :: tail n :: rest) =
      some (Char.ofNat n) :: scalarsFrom none rest := by
  have middle : n / 0x40 / 0x40 = code := by omega
  rw [scalarsFrom_tail middle above below]
  exact (if_neg (show ¬2 ≤ 1 by decide)).trans (scalarsFrom_one rfl rest)

theorem scalarsFrom_three {code n : Nat} {low high : UInt8} (bits : n / 0x40000 = code)
    (above : low.toNat ≤ n / 0x1000 % 0x40 + 0x80) (below : n / 0x1000 % 0x40 + 0x80 ≤ high.toNat) (rest : Bytes) :
    scalarsFrom (some { code, missing := 3, low, high }) (tail (n / 0x1000) :: tail (n / 0x40) :: tail n :: rest) =
      some (Char.ofNat n) :: scalarsFrom none rest := by
  have middle : n / 0x1000 / 0x40 = code := by omega
  rw [scalarsFrom_tail middle above below]
  exact (if_neg (show ¬3 ≤ 1 by decide)).trans (scalarsFrom_two rfl (low_le_tail _) (tail_le_high _) rest)

theorem scalarsFrom_encodeChar (c : Char) (rest : Bytes) :
    scalarsFrom none (String.utf8EncodeChar c ++ rest) = some c :: scalarsFrom none rest := by
  have valid : c.toNat.isValidChar := c.valid
  rw [← Char.ofNat_toNat c]
  generalize c.toNat = n at valid
  by_cases one : n < 0x80
  · have value : (UInt8.ofNat n).toNat = n := toNat_ofNat_byte (by omega)
    rw [encodeChar_one one, List.cons_append, scalarsFrom_lead, lead_one (by omega), value]
    rfl
  by_cases two : n < 0x800
  · have value : (UInt8.ofNat (n / 0x40 + 0xC0)).toNat = n / 0x40 + 0xC0 := toNat_ofNat_byte (by omega)
    rw [encodeChar_two (by omega) two, List.cons_append, scalarsFrom_lead, lead_two (by omega) (by omega), value]
    simp only [List.cons_append, List.nil_append]
    exact scalarsFrom_one (by omega) rest
  by_cases three : n < 0x10000
  · have value : (UInt8.ofNat (n / 0x1000 + 0xE0)).toNat = n / 0x1000 + 0xE0 := toNat_ofNat_byte (by omega)
    obtain ⟨above, below⟩ := (valid_three three).mp ⟨valid, by omega⟩
    rw [encodeChar_three valid (by omega) three, List.cons_append, scalarsFrom_lead, lead_three (by omega) (by omega),
      value]
    simp only [List.cons_append, List.nil_append]
    exact scalarsFrom_two (by omega) above below rest
  · obtain ⟨high, above, below⟩ := valid_four.mp ⟨valid, by omega⟩
    have value : (UInt8.ofNat (n / 0x40000 + 0xF0)).toNat = n / 0x40000 + 0xF0 := toNat_ofNat_byte (by omega)
    rw [encodeChar_four valid (by omega), List.cons_append, scalarsFrom_lead, lead_four (by omega) (by omega), value]
    simp only [List.cons_append, List.nil_append]
    exact scalarsFrom_three (by omega) above below rest

theorem scalars_encode (cs : List Char) : scalars (encode cs) = cs.map some := by
  unfold scalars
  induction cs with
  | nil => rfl
  | cons c cs ih => rw [encode_cons, scalarsFrom_encodeChar, ih, List.map_cons]

/-! ### Writing what was read -/

theorem tail_of_scalarsFrom (h : none ∉ scalarsFrom (some o) bs) (above : 0x80 ≤ o.low.toNat)
    (below : o.high.toNat ≤ 0xBF) :
    ∃ n rest, bs = tail n :: rest ∧ n / 0x40 = o.code ∧ o.low.toNat ≤ n % 0x40 + 0x80 ∧
      n % 0x40 + 0x80 ≤ o.high.toNat ∧
      none ∉ scalarsFrom (if o.missing ≤ 1 then none else some { code := n, missing := o.missing - 1 }) rest := by
  obtain ⟨b, rest, rfl, low, high, h⟩ := goes_on h
  have byte : b = tail (64 * o.code + b.toNat % 64) := by
    apply UInt8.toNat_inj.mp
    rw [toNat_tail]
    omega
  exact ⟨64 * o.code + b.toNat % 64, rest, by rw [← byte], by omega, by omega, by omega, h⟩

theorem tail_of_one {code : Nat} (h : none ∉ scalarsFrom (some { code, missing := 1 }) bs) :
    ∃ n rest, bs = tail n :: rest ∧ n / 0x40 = code ∧ none ∉ scalarsFrom none rest := by
  obtain ⟨n, rest, shape, bits, -, -, h⟩ := tail_of_scalarsFrom h (Nat.le_refl 0x80) (Nat.le_refl 0xBF)
  exact ⟨n, rest, shape, bits, h⟩

theorem tail_of_two {code : Nat} {low high : UInt8} (h : none ∉ scalarsFrom (some { code, missing := 2, low, high }) bs)
    (above : 0x80 ≤ low.toNat) (below : high.toNat ≤ 0xBF) :
    ∃ n rest, bs = tail (n / 0x40) :: tail n :: rest ∧ n / 0x1000 = code ∧ low.toNat ≤ n / 0x40 % 0x40 + 0x80 ∧
      n / 0x40 % 0x40 + 0x80 ≤ high.toNat ∧ none ∉ scalarsFrom none rest := by
  obtain ⟨k, rest, rfl, bits, low, high, more⟩ := tail_of_scalarsFrom h above below
  rw [if_neg (show ¬2 ≤ 1 by decide)] at more
  obtain ⟨n, rest, rfl, rfl, done⟩ := tail_of_one more
  exact ⟨n, rest, rfl, (Nat.div_div_eq_div_mul n 0x40 0x40).symm.trans bits, low, high, done⟩

theorem tail_of_three {code : Nat} {low high : UInt8}
    (h : none ∉ scalarsFrom (some { code, missing := 3, low, high }) bs) (above : 0x80 ≤ low.toNat)
    (below : high.toNat ≤ 0xBF) :
    ∃ n rest, bs = tail (n / 0x1000) :: tail (n / 0x40) :: tail n :: rest ∧ n / 0x40000 = code ∧
      low.toNat ≤ n / 0x1000 % 0x40 + 0x80 ∧ n / 0x1000 % 0x40 + 0x80 ≤ high.toNat ∧
      none ∉ scalarsFrom none rest := by
  obtain ⟨k, rest, rfl, bits, low, high, more⟩ := tail_of_scalarsFrom h above below
  rw [if_neg (show ¬3 ≤ 1 by decide)] at more
  obtain ⟨n, rest, rfl, rfl, -, -, done⟩ := tail_of_two more (Nat.le_refl 0x80) (Nat.le_refl 0xBF)
  exact ⟨n, rest, rfl, (Nat.div_div_eq_div_mul n 0x1000 0x40).symm.trans bits, low, high, done⟩

/-- Bytes without a gap begin with a character. -/
theorem encodeChar_of_scalarsFrom (h : none ∉ scalarsFrom none (b :: bs)) :
    ∃ c rest, b :: bs = String.utf8EncodeChar c ++ rest ∧ none ∉ scalarsFrom none rest := by
  have restore (n : Nat) (value : n = b.toNat) : UInt8.ofNat n = b := by
    rw [value, UInt8.ofNat_toNat]
  rw [scalarsFrom_lead] at h
  by_cases one : b.toNat < 0x80
  · rw [lead_one one] at h
    refine ⟨Char.ofNat b.toNat, bs, ?_, fun gap => h (List.mem_cons_of_mem _ gap)⟩
    rw [encodeChar_one one, restore _ rfl, List.singleton_append]
  by_cases stray : b.toNat < 0xC2
  · rw [lead_none (.inl ⟨by omega, stray⟩)] at h
    exact absurd List.mem_cons_self h
  by_cases two : b.toNat < 0xE0
  · rw [lead_two (by omega) two] at h
    obtain ⟨n, rest, rfl, bits, done⟩ := tail_of_one h
    refine ⟨Char.ofNat n, rest, ?_, done⟩
    rw [encodeChar_two (by omega) (by omega), restore _ (by omega)]
    simp only [List.cons_append, List.nil_append]
  by_cases three : b.toNat < 0xF0
  · rw [lead_three (by omega) three] at h
    obtain ⟨n, rest, rfl, bits, low, high, done⟩ := tail_of_two h (by split <;> decide) (by split <;> decide)
    have value : b.toNat = n / 0x1000 + 0xE0 := by omega
    have small : n < 0x10000 := by omega
    rw [value] at low high
    obtain ⟨valid, long⟩ := (valid_three small).mpr ⟨low, high⟩
    refine ⟨Char.ofNat n, rest, ?_, done⟩
    rw [encodeChar_three valid long small, restore _ value.symm]
    simp only [List.cons_append, List.nil_append]
  by_cases four : b.toNat < 0xF5
  · rw [lead_four (by omega) four] at h
    obtain ⟨n, rest, rfl, bits, low, high, done⟩ := tail_of_three h (by split <;> decide) (by split <;> decide)
    have value : b.toNat = n / 0x40000 + 0xF0 := by omega
    rw [value] at low high
    obtain ⟨valid, long⟩ := valid_four.mpr ⟨by omega, low, high⟩
    refine ⟨Char.ofNat n, rest, ?_, done⟩
    rw [encodeChar_four valid long, restore _ value.symm]
    simp only [List.cons_append, List.nil_append]
  · rw [lead_none (.inr (by omega))] at h
    exact absurd List.mem_cons_self h

theorem eq_encode_of_scalarsFrom (h : none ∉ scalarsFrom none bs) : ∃ cs, bs = encode cs := by
  induction size : bs.length using Nat.strongRecOn generalizing bs with
  | ind n ih =>
    cases bs with
    | nil => exact ⟨[], rfl⟩
    | cons b bs =>
      obtain ⟨c, rest, shape, h⟩ := encodeChar_of_scalarsFrom h
      -- A character takes at least one byte, so there are fewer behind it.
      have shorter : rest.length < n := by
        have width := Char.utf8Size_pos c
        rw [← size, shape, List.length_append, String.length_utf8EncodeChar]
        omega
      obtain ⟨cs, rfl⟩ := ih rest.length shorter h rfl
      exact ⟨c :: cs, by rw [shape, encode_cons]⟩

theorem mapM_id_map_some (cs : List Char) : (cs.map some).mapM id = some cs := by
  induction cs with
  | nil => rfl
  | cons c cs ih =>
    rw [List.map_cons, List.mapM_cons, ih]
    rfl

theorem mapM_id_of_gap {found : List (Option Char)} (gap : none ∈ found) : found.mapM id = none := by
  induction found with
  | nil => exact absurd gap List.not_mem_nil
  | cons c? found ih =>
    cases c? with
    | none => rw [List.mapM_cons]; rfl
    | some c =>
      rcases List.mem_cons.mp gap with here | gap
      · cases here
      · rw [List.mapM_cons, ih gap]
        rfl

theorem decode?_encode (cs : List Char) : decode? (encode cs) = some cs := by
  rw [decode?, scalars_encode, mapM_id_map_some]

/-- The byte strings that are texts are the ones that are written for characters. -/
theorem decode?_eq_some : decode? bs = some cs ↔ bs = encode cs := by
  refine ⟨fun found => ?_, fun shape => by rw [shape, decode?_encode]⟩
  have noGap : none ∉ scalars bs := fun gap => by
    rw [decode?, mapM_id_of_gap gap] at found
    cases found
  obtain ⟨ds, rfl⟩ := eq_encode_of_scalarsFrom noGap
  rw [decode?_encode] at found
  rw [Option.some.inj found]

theorem encode_injective {ds : List Char} (h : encode cs = encode ds) : cs = ds := by
  have same := decode?_encode cs
  rw [h, decode?_encode] at same
  exact (Option.some.inj same).symm

/-! ### Where characters begin -/

/-- A character of seven bits is written as itself; any other has a first byte with both highest bits and then only
tails. -/
theorem encodeChar_bytes (c : Char) :
    ∃ first tails, String.utf8EncodeChar c = first :: tails ∧
      (c.toNat < 0x80 ∧ first.toNat = c.toNat ∧ tails = [] ∨ 0x80 ≤ c.toNat ∧ 0xC0 ≤ first.toNat) ∧
      ∀ t ∈ tails, 0x80 ≤ t.toNat ∧ t.toNat < 0xC0 := by
  have valid : c.toNat.isValidChar := c.valid
  have tails (n : Nat) : 0x80 ≤ (tail n).toNat ∧ (tail n).toNat < 0xC0 := by
    rw [toNat_tail]
    omega
  have shape : String.utf8EncodeChar c = String.utf8EncodeChar (Char.ofNat c.toNat) := by rw [Char.ofNat_toNat]
  rw [shape]
  generalize c.toNat = n at valid
  by_cases one : n < 0x80
  · refine ⟨_, _, encodeChar_one one, .inl ⟨one, ?_, rfl⟩, fun t none => absurd none List.not_mem_nil⟩
    rw [toNat_ofNat_byte (by omega)]
  by_cases two : n < 0x800
  · refine ⟨_, _, encodeChar_two (by omega) two, .inr ⟨by omega, ?_⟩, ?_⟩
    · rw [toNat_ofNat_byte (by omega)]
      omega
    · exact List.forall_mem_singleton.mpr (tails n)
  by_cases three : n < 0x10000
  · refine ⟨_, _, encodeChar_three valid (by omega) three, .inr ⟨by omega, ?_⟩, ?_⟩
    · rw [toNat_ofNat_byte (by omega)]
      omega
    · exact List.forall_mem_cons.mpr ⟨tails (n / 0x40), List.forall_mem_singleton.mpr (tails n)⟩
  · have bound : n < 0x110000 := by
      rcases valid with h | h <;> omega
    refine ⟨_, _, encodeChar_four valid (by omega), .inr ⟨by omega, ?_⟩, ?_⟩
    · rw [toNat_ofNat_byte (by omega)]
      omega
    · exact List.forall_mem_cons.mpr ⟨tails (n / 0x1000), List.forall_mem_cons.mpr
        ⟨tails (n / 0x40), List.forall_mem_singleton.mpr (tails n)⟩⟩

theorem feed_not_mem_encode (h : ∀ c ∈ cs, c ≠ '\n') : ∀ b ∈ encode cs, b ≠ 0x0A := by
  intro b member feed
  subst feed
  obtain ⟨c, here, byte⟩ := List.mem_flatMap.mp member
  obtain ⟨first, tails, shape, ⟨low, same, rfl⟩ | ⟨-, high⟩, others⟩ := encodeChar_bytes c
  · rw [shape, List.mem_singleton] at byte
    subst byte
    exact h c here (Char.toNat_inj.mp same.symm)
  · rw [shape] at byte
    rcases List.mem_cons.mp byte with rfl | tail
    · exact absurd high (by decide)
    · exact absurd (others _ tail).1 (by decide)

end Msp430.Utf8
