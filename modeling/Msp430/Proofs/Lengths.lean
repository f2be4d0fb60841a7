import Msp430.Proofs.Encoding

/-!
# The length of an instruction

An instruction is read from its own bytes and from nothing behind them. When bytes are missing, the failure tells
up to which even length they would have to be supplied, and what is there stays the beginning of an instruction that
is at least as long. The opcode word alone decides whether there is an instruction at all. `measured` says all this
of every byte string.
-/

namespace Msp430

/-! ### An instruction is read from its own bytes -/

theorem drop_of_take {front raw raw' : Bytes} {k n : Nat} (h : front <+: raw.drop k)
    (fits : k + front.length ≤ n) (stands : raw.take n <+: raw') : front <+: raw'.drop k := by
  have inside : front <+: (raw.take n).drop k := by
    rw [List.drop_take, List.prefix_take_iff]
    exact ⟨h, by omega⟩
  obtain ⟨rest, rfl⟩ := stands
  rw [List.drop_append]
  exact inside.trans (List.prefix_append _ _)

namespace Operand

variable {raw raw' : Bytes} {offset mode : Nat} {r : Reg} {o : Operand}

theorem source_of_stands (hm : mode < 4) (h : source raw offset r mode = .ok o)
    (stands : o.extensionBytes <+: raw'.drop offset) : source raw' offset r mode = .ok o := by
  have read := source_of_field (source_isSource hm h) stands
  rwa [(field_of_source hm h).1] at read

theorem destination_of_stands (hm : mode < 2) (h : destination raw offset r mode = .ok o)
    (stands : o.extensionBytes <+: raw'.drop offset) : destination raw' offset r mode = .ok o := by
  have read := destination_of_field (destination_isDestination h) stands
  rwa [(field_of_destination hm h).1] at read

end Operand

namespace Instruction

variable {raw raw' : Bytes} {word : UInt16} {i : Instruction}

theorem two_le_size (i : Instruction) : 2 ≤ i.size := by
  cases i <;> simp only [size] <;> omega

theorem ofSingle_of_take (h : ofSingle raw word = .ok i) (stands : raw.take i.size <+: raw') :
    ofSingle raw' word = .ok i := by
  unfold ofSingle at h ⊢
  split at h
  · cases h
  · obtain ⟨operand, read, h⟩ := except_bind_ok h
    cases h
    have mode : bitField word 0x10 4 < 4 := bitField_lt _ _ (by decide)
    have extension := drop_of_take (Operand.field_of_source mode read).2
      (by rw [operand.length_extensionBytes]; exact Nat.le_refl _) stands
    rw [Operand.source_of_stands mode read extension]
    rfl

theorem ofDouble_of_take (h : ofDouble raw word = .ok i) (stands : raw.take i.size <+: raw') :
    ofDouble raw' word = .ok i := by
  obtain ⟨source, readS, h⟩ := except_bind_ok h
  obtain ⟨destination, readD, h⟩ := except_bind_ok h
  cases h
  have modeS : bitField word 0x10 4 < 4 := bitField_lt _ _ (by decide)
  have modeD : bitField word 0x80 2 < 2 := bitField_lt _ _ (by decide)
  have lengthS := source.length_extensionBytes
  have lengthD := destination.length_extensionBytes
  simp only [size] at stands
  have extensionS := drop_of_take (Operand.field_of_source modeS readS).2 (by omega) stands
  have extensionD := drop_of_take (Operand.field_of_destination modeD readD).2 (by omega) stands
  unfold ofDouble
  rw [Operand.source_of_stands modeS readS extensionS]
  change (Operand.destination raw' (2 + source.size) _ _ >>= _) = _
  rw [Operand.destination_of_stands modeD readD extensionD]
  rfl

theorem ofBytes_of_take (h : ofBytes raw = .ok i) (stands : raw.take i.size <+: raw') : ofBytes raw' = .ok i := by
  obtain ⟨word, first, -⟩ := except_bind_ok h
  have first' : wordAt raw' 0 = .ok word :=
    wordAt_eq_ok.mpr (drop_of_take (wordAt_eq_ok.mp first) i.two_le_size stands)
  rw [ofBytes_of_word first] at h
  rw [ofBytes_of_word first']
  split at h
  · exact ofSingle_of_take h stands
  · exact h
  · exact ofDouble_of_take h stands

end Instruction

/-- Whatever stands after the bytes of an instruction, the same instruction is read from them. -/
theorem decode_of_take {raw raw' : Bytes} {d : Decoded} (h : decode raw = .ok d)
    (stands : raw.take d.instruction.size <+: raw') : decode raw' = .ok d := by
  obtain ⟨-, length⟩ := bytes_of_decode h
  obtain ⟨i, read, h⟩ := except_bind_ok h
  cases h
  have taken : raw'.take i.size = raw.take i.size := by
    obtain ⟨rest, rfl⟩ := stands
    exact List.take_left' length
  unfold decode
  rw [Instruction.ofBytes_of_take read stands]
  simp only [bind, Except.bind, pure, Except.pure, taken]

/-! ### The parts that make up the length -/

namespace Instruction

/-- The operands in the order in which their extension words follow. -/
def operands : Instruction → List Operand
  | single _ _ operand => [operand]
  | jump _ _ => []
  | double _ _ source destination => [source, destination]

/-- The values of the register fields of the opcode word. -/
def registerFields : Instruction → List Nat
  | single _ _ operand => [operand.sourceField.1.val]
  | jump _ _ => []
  | double _ _ source destination => [source.sourceField.1.val, destination.destinationField.1.val]

theorem size_eq_operands (i : Instruction) : i.size = 2 + 2 * i.operands.countP Operand.needsWord := by
  have part (o : Operand) : o.size = 2 * [o].countP Operand.needsWord := by
    simp only [Operand.size, List.countP_singleton]
    split <;> rfl
  cases i with
  | single op flag operand => rw [size, part operand, operands]
  | jump condition offset => rfl
  | double op flag source destination =>
    have both : [source, destination].countP Operand.needsWord =
        [source].countP Operand.needsWord + [destination].countP Operand.needsWord := by
      rw [← List.countP_append]
      rfl
    rw [size, part source, part destination, operands, both]
    omega

theorem registerFields_lt (i : Instruction) {field : Nat} (h : field ∈ i.registerFields) : field < 16 := by
  -- A register is one of sixteen by its type.
  cases i with
  | single op flag operand =>
    obtain rfl := List.mem_singleton.mp h
    exact operand.sourceField.1.isLt
  | jump condition offset => cases h
  | double op flag source destination =>
    simp only [registerFields, List.mem_cons, List.not_mem_nil, or_false] at h
    rcases h with rfl | rfl
    · exact source.sourceField.1.isLt
    · exact destination.destinationField.1.isLt

end Instruction

/-! ### Words that stand for no instruction -/

/-- The family is that of one operand, in bits 15 to 13, and bits 9 to 7 name none of its operations. -/
def IsIllegal (word : UInt16) : Prop :=
  word.toBitVec.extractLsb 15 13 = 0#3 ∧ word.toBitVec.extractLsb 9 7 = 7#3

theorem SingleOp.ofCode?_eq_none {n : Nat} (h : n < 8) : ofCode? n = none ↔ n = 7 := by
  revert n
  decide

theorem isIllegal_iff {word : UInt16} :
    IsIllegal word ↔ bitField word 0x2000 8 = 0 ∧ SingleOp.ofCode? (bitField word 0x80 8) = none := by
  rw [SingleOp.ofCode?_eq_none (bitField_lt _ _ (by decide))]
  unfold IsIllegal bitField
  rw [← BitVec.toNat_inj, ← BitVec.toNat_inj]
  simp only [BitVec.extractLsb_toNat, Nat.shiftRight_eq_div_pow]
  rfl

theorem decode_of_illegal {raw : Bytes} {word : UInt16} (first : wordAt raw 0 = .ok word) (illegal : IsIllegal word) :
    decode raw = .error (.illegalOpcode word) := by
  obtain ⟨family, unnamed⟩ := isIllegal_iff.mp illegal
  have none : Instruction.ofBytes raw = .error (.illegalOpcode word) := by
    rw [Instruction.ofBytes_of_word first, family]
    simp only [Instruction.ofSingle, unnamed]
  unfold decode
  rw [none]
  rfl

/-! ### Bytes that are missing -/

section Missing

variable {raw : Bytes} {offset mode : Nat} {r : Reg} {word : UInt16} {cause : Undecodable}

theorem wordAt_eq_error :
    wordAt raw offset = .error cause ↔ raw.length < offset + 2 ∧ cause = .tooShort (offset + 2) raw.length := by
  have rest : (raw.drop offset).length = raw.length - offset := List.length_drop
  unfold wordAt
  split
  · next low high tail found =>
    rw [found] at rest
    simp only [List.length_cons] at rest
    refine ⟨nofun, fun ⟨short, _⟩ => ?_⟩
    omega
  · next short =>
    have few : raw.length < offset + 2 := by
      match found : raw.drop offset with
      | [] | [_] =>
        rw [found] at rest
        simp only [List.length_nil, List.length_singleton] at rest
        omega
      | low :: high :: tail => exact (short low high tail found).elim
    exact ⟨fun h => ⟨few, (Except.error.inj h).symm⟩, fun ⟨_, same⟩ => same ▸ rfl⟩

theorem wordAt_of_map_error {f : UInt16 → Operand} (h : f <$> wordAt raw offset = .error cause) :
    wordAt raw offset = .error cause := by
  cases found : wordAt raw offset with
  | ok w =>
    rw [found] at h
    cases h
  | error e =>
    rw [found] at h
    cases h
    rfl

theorem Operand.wordAt_of_source_error (h : source raw offset r mode = .error cause) :
    wordAt raw offset = .error cause := by
  unfold source at h
  split at h
  case h_7 | h_8 | h_10 => exact wordAt_of_map_error h
  all_goals cases h

theorem Operand.wordAt_of_destination_error (h : destination raw offset r mode = .error cause) :
    wordAt raw offset = .error cause := by
  unfold destination at h
  split at h
  case h_2 | h_3 => exact wordAt_of_map_error h
  cases h

theorem Operand.size_cases (o : Operand) : o.size = 0 ∨ o.size = 2 := by
  unfold size
  split
  · exact .inr rfl
  · exact .inl rfl

/-- One of the three words that an instruction may have is not there, or only its first byte is. -/
def Undecodable.Lacks (raw : Bytes) (cause : Undecodable) : Prop :=
  ∃ k ≤ 2, 2 * k ≤ raw.length ∧ raw.length < 2 * k + 2 ∧ cause = .tooShort (2 * k + 2) raw.length

theorem lacks_of_wordAt {k : Nat} (third : k ≤ 2) (reached : 2 * k ≤ raw.length)
    (h : wordAt raw (2 * k) = .error cause) : cause.Lacks raw := by
  obtain ⟨short, rfl⟩ := wordAt_eq_error.mp h
  exact ⟨k, third, reached, short, rfl⟩

theorem except_bind_error {ε α β : Type} {x : Except ε α} {f : α → Except ε β} {e : ε} (h : x >>= f = .error e) :
    x = .error e ∨ ∃ a, x = .ok a ∧ f a = .error e := by
  cases x with
  | ok a => exact .inr ⟨a, rfl, h⟩
  | error e' =>
    cases h
    exact .inl rfl

theorem ofSingle_eq_error (reached : 2 ≤ raw.length) (h : Instruction.ofSingle raw word = .error cause) :
    (SingleOp.ofCode? (bitField word 0x80 8) = none ∧ cause = .illegalOpcode word) ∨ cause.Lacks raw := by
  unfold Instruction.ofSingle at h
  split at h
  · next unnamed => exact .inl ⟨unnamed, (Except.error.inj h).symm⟩
  · rcases except_bind_error h with unread | ⟨operand, -, h⟩
    · exact .inr (lacks_of_wordAt (k := 1) (by decide) reached (Operand.wordAt_of_source_error unread))
    · cases h

theorem ofDouble_eq_error (reached : 2 ≤ raw.length) (h : Instruction.ofDouble raw word = .error cause) :
    cause.Lacks raw := by
  rcases except_bind_error h with unread | ⟨source, read, h⟩
  · exact lacks_of_wordAt (k := 1) (by decide) reached (Operand.wordAt_of_source_error unread)
  rcases except_bind_error h with unread | ⟨destination, -, h⟩
  · -- The source has been read, so its extension word is there and the destination's follows it.
    have missing := Operand.wordAt_of_destination_error unread
    have extension := (Operand.field_of_source (bitField_lt _ _ (by decide)) read).2.length_le
    rw [source.length_extensionBytes, List.length_drop] at extension
    rcases source.size_cases with size | size
    · rw [size] at missing
      exact lacks_of_wordAt (k := 1) (by decide) reached missing
    · rw [size] at missing extension
      exact lacks_of_wordAt (k := 2) (by decide) (by omega) missing
  · cases h

/-- Reading fails on an opcode word that stands for nothing, or for want of bytes. -/
theorem decode_eq_error (h : decode raw = .error cause) :
    (∃ word, wordAt raw 0 = .ok word ∧ IsIllegal word ∧ cause = .illegalOpcode word) ∨ cause.Lacks raw := by
  have unread : Instruction.ofBytes raw = .error cause := by
    rcases except_bind_error h with unread | ⟨i, -, h⟩
    · exact unread
    · cases h
  rcases except_bind_error unread with missing | ⟨word, first, -⟩
  · exact .inr (lacks_of_wordAt (k := 0) (by decide) (Nat.zero_le _) missing)
  have reached : 2 ≤ raw.length := by
    have := (wordAt_eq_ok.mp first).length_le
    simpa using this
  rw [Instruction.ofBytes_of_word first] at unread
  split at unread
  · next family =>
    rcases ofSingle_eq_error reached unread with ⟨unnamed, rfl⟩ | lacks
    · exact .inl ⟨word, first, isIllegal_iff.mpr ⟨family, unnamed⟩, rfl⟩
    · exact .inr lacks
  · cases unread
  · exact .inr (ofDouble_eq_error reached unread)

theorem decode_of_long (long : 6 ≤ raw.length) (h : decode raw = .error cause) :
    ∃ word, wordAt raw 0 = .ok word ∧ IsIllegal word ∧ cause = .illegalOpcode word := by
  rcases decode_eq_error h with illegal | ⟨k, third, -, short, -⟩
  · exact illegal
  · omega

end Missing

/-! ### What the length decides -/

/-- What is read from a byte string, told from its length and its first word. -/
structure Measured (raw : Bytes) : Prop where
  illegal : ∀ word, decode raw = .error (.illegalOpcode word) ↔
    (∃ low high rest, raw = low :: high :: rest ∧ word = wordOf low high) ∧ IsIllegal word
  read : ∀ d, decode raw = .ok d →
    d.instruction.size = 2 + 2 * d.instruction.operands.countP Operand.needsWord ∧
      d.instruction.size ≤ raw.length ∧ (∀ field ∈ d.instruction.registerFields, field < 16) ∧
      d.bytes = raw.take d.instruction.size ∧ ∀ rest, decode (d.bytes ++ rest) = .ok d
  short : ∀ needed available, decode raw = .error (.tooShort needed available) →
    available = raw.length ∧ available < needed ∧ needed ≤ 6 ∧
      (∀ front d, front <+: raw → decode front ≠ .ok d) ∧
      ∀ rest, 6 ≤ (raw ++ rest).length →
        (∃ d, decode (raw ++ rest) = .ok d ∧ needed ≤ d.instruction.size) ∨
          raw.length < 2 ∧ ∃ word, decode (raw ++ rest) = .error (.illegalOpcode word)
  long : 6 ≤ raw.length → ∀ needed available, decode raw ≠ .error (.tooShort needed available)

theorem wordAt_zero {raw : Bytes} {word : UInt16} :
    wordAt raw 0 = .ok word ↔ ∃ low high rest, raw = low :: high :: rest ∧ word = wordOf low high := by
  unfold wordAt
  rw [List.drop_zero]
  split
  · next low high rest =>
    constructor
    · intro h
      exact ⟨low, high, rest, rfl, (Except.ok.inj h).symm⟩
    · rintro ⟨low', high', rest', same, rfl⟩
      cases same
      rfl
  · next short =>
    refine ⟨nofun, ?_⟩
    rintro ⟨low, high, rest, rfl, -⟩
    exact (short low high rest rfl).elim

theorem decode_illegal_iff {raw : Bytes} {word : UInt16} :
    decode raw = .error (.illegalOpcode word) ↔ wordAt raw 0 = .ok word ∧ IsIllegal word := by
  constructor
  · intro h
    rcases decode_eq_error h with ⟨word', first, illegal, same⟩ | ⟨k, -, -, -, same⟩
    · cases same
      exact ⟨first, illegal⟩
    · cases same
  · rintro ⟨first, illegal⟩
    exact decode_of_illegal first illegal

theorem decode_append {raw : Bytes} {d : Decoded} (h : decode raw = .ok d) (rest : Bytes) :
    decode (raw ++ rest) = .ok d :=
  decode_of_take h ((List.take_prefix _ _).trans (List.prefix_append _ _))

theorem size_le_of_decode {raw : Bytes} {d : Decoded} (h : decode raw = .ok d) : d.instruction.size ≤ raw.length := by
  obtain ⟨bytes, length⟩ := bytes_of_decode h
  rw [← length, bytes]
  exact List.length_take_le' _ _

/-- The bytes that are there begin no illegal word, for that would have been found. -/
theorem decode_of_supplied {raw rest : Bytes} {k : Nat} (short : raw.length < 2 * k + 2)
    (reached : 2 * k ≤ raw.length)
    (h : decode raw = .error (.tooShort (2 * k + 2) raw.length)) (long : 6 ≤ (raw ++ rest).length) :
    (∃ d, decode (raw ++ rest) = .ok d ∧ 2 * k + 2 ≤ d.instruction.size) ∨
      raw.length < 2 ∧ ∃ word, decode (raw ++ rest) = .error (.illegalOpcode word) := by
  cases again : decode (raw ++ rest) with
  | ok d =>
    refine .inl ⟨d, rfl, ?_⟩
    -- An instruction that fitted into what is there would have been read from it.
    have longer : raw.length < d.instruction.size := by
      refine Nat.lt_of_not_le fun fits => ?_
      have front : (raw ++ rest).take d.instruction.size <+: raw := by
        rw [List.take_append_of_le_length fits]
        exact List.take_prefix _ _
      cases (decode_of_take again front).symm.trans h
    have even := d.instruction.size_eq_operands
    omega
  | error cause =>
    obtain ⟨word, first, illegal, rfl⟩ := decode_of_long long again
    refine .inr ⟨Nat.lt_of_not_le fun whole => ?_, word, rfl⟩
    have same : wordAt raw 0 = .ok word := by
      obtain ⟨low, high, tail, split, rfl⟩ := wordAt_zero.mp first
      match raw with
      | [_] => cases Nat.le_of_succ_le_succ whole
      | low' :: high' :: tail' =>
        cases split
        rfl
    cases (decode_of_illegal same illegal).symm.trans h

theorem measured (raw : Bytes) : Measured raw where
  illegal word := by rw [decode_illegal_iff, wordAt_zero]
  read d h := by
    obtain ⟨bytes, length⟩ := bytes_of_decode h
    refine ⟨d.instruction.size_eq_operands, size_le_of_decode h, fun field named =>
      d.instruction.registerFields_lt named, bytes, fun rest => ?_⟩
    rw [bytes]
    exact decode_of_take h (List.prefix_append _ _)
  short needed available h := by
    rcases decode_eq_error h with ⟨word, -, -, same⟩ | ⟨k, third, reached, short, same⟩
    · cases same
    cases same
    refine ⟨rfl, short, by omega, ?_, fun rest => decode_of_supplied short reached h⟩
    rintro front d ⟨rest, rfl⟩ read
    cases (decode_append read rest).symm.trans h
  long six needed available h := by
    obtain ⟨word, -, -, same⟩ := decode_of_long six h
    cases same

end Msp430
