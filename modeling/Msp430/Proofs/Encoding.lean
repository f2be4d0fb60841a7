import Msp430.Isa.Encode
import Msp430.Proofs.Shape

/-!
# Encoding what was decoded

`encode` gives back the bytes that an instruction was decoded from, but for three bits of a one-operand opcode word
that mean nothing, and what it gives is decoded to the same instruction.
-/

namespace Msp430

/-! ### Extension words -/

theorem wordAt_eq_ok {raw : Bytes} {offset : Nat} {w : UInt16} :
    wordAt raw offset = .ok w ↔ [lowByte w, highByte w] <+: raw.drop offset := by
  unfold wordAt
  split
  · next low high rest found =>
    rw [found]
    constructor
    · intro h
      cases h
      simp
    · intro h
      obtain ⟨rfl, rfl⟩ : lowByte w = low ∧ highByte w = high := by simpa using h
      rw [wordOf_low_high]
  · next short =>
    refine ⟨nofun, fun ⟨rest, h⟩ => ?_⟩
    exact (short _ _ rest h.symm).elim

namespace Operand

variable {raw : Bytes} {offset mode : Nat} {r : Reg} {o : Operand} {f : UInt16 → Operand}

theorem length_extensionBytes (o : Operand) : o.extensionBytes.length = o.size := by cases o <;> rfl

theorem extensionBytes_of_none (h : o.extension? = none) : o.extensionBytes = [] := by
  unfold extensionBytes
  rw [h]

theorem extensionBytes_of_some {w : UInt16} (h : o.extension? = some w) :
    o.extensionBytes = [lowByte w, highByte w] := by
  unfold extensionBytes
  rw [h]

theorem extension_of_map (h : f <$> wordAt raw offset = .ok o) (carries : ∀ w, (f w).extension? = some w) :
    ∃ w, o = f w ∧ o.extensionBytes <+: raw.drop offset := by
  obtain ⟨w, word, rfl⟩ := map_wordAt h
  refine ⟨w, rfl, ?_⟩
  rw [extensionBytes_of_some (carries w)]
  exact wordAt_eq_ok.mp word

theorem map_of_extension {w : UInt16} (carries : (f w).extension? = some w)
    (h : (f w).extensionBytes <+: raw.drop offset) : f <$> wordAt raw offset = .ok (f w) := by
  rw [extensionBytes_of_some carries] at h
  rw [wordAt_eq_ok.mpr h]
  rfl

theorem extension_prefix_of_none (h : o.extension? = none) : o.extensionBytes <+: raw.drop offset := by
  rw [extensionBytes_of_none h]
  exact List.nil_prefix

/-! ### Operand fields -/

theorem field_of_source (hm : mode < 4) (h : source raw offset r mode = .ok o) :
    o.sourceField = (r, mode) ∧ o.extensionBytes <+: raw.drop offset := by
  have three {m : Nat} (hm : m < 4) (h0 : m ≠ 0) (h1 : m ≠ 1) (h2 : m ≠ 2) : m = 3 := by omega
  unfold source at h
  split at h
  case h_7 r₂ =>
    obtain ⟨w, rfl, stands⟩ := extension_of_map h fun _ => rfl
    obtain rfl : r = .sr := Fin.ext r₂
    exact ⟨rfl, stands⟩
  case h_8 r₀ =>
    obtain ⟨w, rfl, stands⟩ := extension_of_map h fun _ => rfl
    obtain rfl : r = .pc := Fin.ext r₀
    exact ⟨rfl, stands⟩
  case h_10 =>
    obtain ⟨w, rfl, stands⟩ := extension_of_map h fun _ => rfl
    exact ⟨rfl, stands⟩
  all_goals cases h
  case h_1 r₃ | h_2 r₃ | h_3 r₃ =>
    obtain rfl : r = .cg := Fin.ext r₃
    exact ⟨rfl, extension_prefix_of_none rfl⟩
  case h_4 r₃ not0 not1 not2 =>
    obtain rfl := three hm not0 not1 not2
    obtain rfl : r = .cg := Fin.ext r₃
    exact ⟨rfl, extension_prefix_of_none rfl⟩
  case h_5 r₂ | h_6 r₂ =>
    obtain rfl : r = .sr := Fin.ext r₂
    exact ⟨rfl, extension_prefix_of_none rfl⟩
  case h_9 | h_11 => exact ⟨rfl, extension_prefix_of_none rfl⟩
  case h_12 not0 not1 not2 _ _ _ _ _ _ _ _ =>
    obtain rfl := three hm not0 not1 not2
    exact ⟨rfl, extension_prefix_of_none rfl⟩

theorem source_of_field (h : o.IsSource) (stands : o.extensionBytes <+: raw.drop offset) :
    source raw offset o.sourceField.1 o.sourceField.2 = .ok o := by
  have val {r n : Reg} (ne : r ≠ n) : r.val ≠ n.val := fun same => ne (Fin.ext same)
  cases o with
  | constant c => cases c <;> rfl
  | absolute a => exact map_of_extension rfl stands
  | immediate v => exact map_of_extension rfl stands
  | register r =>
    have not3 := val h
    simp only [sourceField, source]
    split <;> first | contradiction | rfl
  | indexed r w =>
    have not2 := val h.1
    have not3 := val h.2
    simp only [sourceField, source]
    split <;> first | contradiction | exact map_of_extension rfl stands
  | indirect r =>
    have not2 := val h.1
    have not3 := val h.2
    simp only [sourceField, source]
    split <;> first | contradiction | rfl
  | autoIncrement r =>
    have not0 := val h.1
    have not2 := val h.2.1
    have not3 := val h.2.2
    simp only [sourceField, source]
    split <;> first | contradiction | rfl

theorem field_of_destination (hm : mode < 2) (h : destination raw offset r mode = .ok o) :
    o.destinationField = (r, mode) ∧ o.extensionBytes <+: raw.drop offset := by
  have one {m : Nat} (hm : m < 2) (h0 : m ≠ 0) : m = 1 := by omega
  unfold destination at h
  split at h
  case h_1 =>
    cases h
    exact ⟨rfl, extension_prefix_of_none rfl⟩
  case h_2 r₂ not0 =>
    obtain ⟨w, rfl, stands⟩ := extension_of_map h fun _ => rfl
    obtain rfl : r = .sr := Fin.ext r₂
    obtain rfl := one hm not0
    exact ⟨rfl, stands⟩
  case h_3 not0 _ =>
    obtain ⟨w, rfl, stands⟩ := extension_of_map h fun _ => rfl
    obtain rfl := one hm not0
    exact ⟨rfl, stands⟩

theorem destination_of_field (h : o.IsDestination) (stands : o.extensionBytes <+: raw.drop offset) :
    destination raw offset o.destinationField.1 o.destinationField.2 = .ok o := by
  cases o with
  | register r => rfl
  | absolute a => exact map_of_extension rfl stands
  | indexed r w =>
    have not2 : r.val ≠ 2 := fun same => h (Fin.ext same)
    simp only [destinationField, sourceField, destination]
    exact map_of_extension rfl stands
  | _ => exact h.elim

theorem sourceField_lt (o : Operand) : o.sourceField.2 < 4 := by
  cases o with
  | constant c => cases c <;> decide
  | _ => simp only [sourceField]; decide

theorem destinationField_lt (o : Operand) : o.destinationField.2 < 2 := by
  cases o <;> simp only [destinationField] <;> decide

end Operand

/-! ### Operation fields -/

theorem SingleOp.code_of_ofCode? {n : Nat} {op : SingleOp} (h : ofCode? n = some op) : op.code = n := by
  unfold ofCode? at h
  split at h <;> cases h <;> rfl

theorem SingleOp.ofCode?_code (op : SingleOp) : ofCode? op.code = some op := by cases op <;> rfl

theorem SingleOp.code_lt (op : SingleOp) : op.code < 7 := by cases op <;> decide

theorem Condition.code_ofCode {n : Nat} (h : n < 8) : (ofCode n).code = n := by
  revert n
  decide

theorem Condition.ofCode_code (c : Condition) : ofCode c.code = c := by cases c <;> rfl

theorem Condition.code_lt (c : Condition) : c.code < 8 := by cases c <;> decide

theorem DoubleOp.code_ofCode {n : Nat} (low : 4 ≤ n) (high : n < 16) : (ofCode n).code = n := by
  have all : ∀ n < 16, 4 ≤ n → (ofCode n).code = n := by decide
  exact all n high low

theorem DoubleOp.ofCode_code (op : DoubleOp) : ofCode op.code = op := by cases op <;> rfl

theorem DoubleOp.code_bounds (op : DoubleOp) : 4 ≤ op.code ∧ op.code < 16 := by cases op <;> decide

theorem toNat_beq_one {n : Nat} (h : n < 2) : (n == 1).toNat = n := by
  revert n
  decide

namespace Instruction

variable {raw : Bytes} {word : UInt16} {i : Instruction}

/-- The word with bits 10 to 12, which count 0x400 each, at the value 4. -/
def fixUnused (word : UInt16) : UInt16 := .ofNat (word.toNat / 0x2000 * 0x2000 + 4 * 0x400 + word.toNat % 0x400)

/-- The opcode word with the bits that mean nothing at the value that `encode` gives them. -/
def canonicalWord (i : Instruction) (word : UInt16) : UInt16 :=
  match i with
  | single _ _ _ => fixUnused word
  | _ => word

theorem ofSingle_fields (family : bitField word 0x2000 8 = 0) (h : ofSingle raw word = .ok i) :
    i.opcodeWord = i.canonicalWord word ∧ i.extensionBytes <+: raw.drop 2 := by
  unfold ofSingle at h
  split at h
  · cases h
  · next op coded =>
    obtain ⟨operand, read, h⟩ := except_bind_ok h
    cases h
    obtain ⟨field, stands⟩ := Operand.field_of_source (bitField_lt _ _ (by decide)) read
    refine ⟨?_, stands⟩
    have code := SingleOp.code_of_ofCode? coded
    have flag := toNat_beq_one (n := bitField word 0x40 2) (bitField_lt _ _ (by decide))
    simp only [opcodeWord, canonicalWord, field, code, flag, fixUnused]
    simp only [bitField, registerField] at family ⊢
    congr 1
    have := word.toNat_lt
    omega

theorem ofJump_fields (family : bitField word 0x2000 8 = 1) : (ofJump word).opcodeWord = word := by
  have code := Condition.code_ofCode (n := bitField word 0x400 8) (bitField_lt _ _ (by decide))
  have words : BitVec.ofInt 10 (displacement (jumpOffset word) / 2) = BitVec.ofNat 10 word.toNat := by
    rw [displacement_jumpOffset, Int.mul_ediv_cancel_left _ (by decide), BitVec.ofInt_toInt]
  have := word.toNat_lt
  apply UInt16.toNat_inj.mp
  simp only [ofJump, opcodeWord, code, words, BitVec.toNat_ofNat, UInt16.toNat_ofNat']
  simp only [bitField] at family ⊢
  omega

theorem ofDouble_fields (family : 2 ≤ bitField word 0x2000 8) (h : ofDouble raw word = .ok i) :
    i.opcodeWord = i.canonicalWord word ∧ i.extensionBytes <+: raw.drop 2 := by
  obtain ⟨source, readS, h⟩ := except_bind_ok h
  obtain ⟨destination, readD, h⟩ := except_bind_ok h
  cases h
  obtain ⟨fieldS, standsS⟩ := Operand.field_of_source (bitField_lt _ _ (by decide)) readS
  obtain ⟨fieldD, standsD⟩ := Operand.field_of_destination (bitField_lt _ _ (by decide)) readD
  constructor
  · have low : 4 ≤ bitField word 0x1000 16 := by
      simp only [bitField] at family ⊢
      omega
    have code := DoubleOp.code_ofCode low (bitField_lt _ _ (by decide))
    have flag := toNat_beq_one (n := bitField word 0x40 2) (bitField_lt _ _ (by decide))
    have := word.toNat_lt
    apply UInt16.toNat_inj.mp
    simp only [opcodeWord, canonicalWord, fieldS, fieldD, code, flag, UInt16.toNat_ofNat']
    simp only [bitField, registerField]
    omega
  · obtain ⟨rest, split⟩ := standsS
    have after : raw.drop (2 + source.size) = rest := by
      rw [← List.drop_drop, ← split, ← Operand.length_extensionBytes, List.drop_left]
    rw [after] at standsD
    rw [← split]
    exact (List.prefix_append_right_inj source.extensionBytes).mpr standsD

theorem ofBytes_fields (h : ofBytes raw = .ok i) :
    ∃ word, wordAt raw 0 = .ok word ∧ i.opcodeWord = i.canonicalWord word ∧ i.extensionBytes <+: raw.drop 2 := by
  obtain ⟨word, first, h⟩ := except_bind_ok h
  refine ⟨word, first, ?_⟩
  split at h
  next family => exact ofSingle_fields family h
  next family =>
    cases h
    exact ⟨ofJump_fields family, List.nil_prefix⟩
  next not0 not1 =>
    refine ofDouble_fields ?_ h
    change ¬ _ at not0 not1
    omega

/-! ### Decoding what was encoded -/

theorem ofSingle_opcodeWord (op : SingleOp) (flag : Bool) {operand : Operand} (encodable : operand.IsSource)
    (stands : operand.extensionBytes <+: raw.drop 2) :
    bitField (single op flag operand).opcodeWord 0x2000 8 = 0 ∧
      ofSingle raw (single op flag operand).opcodeWord = .ok (single op flag operand) := by
  have read := Operand.source_of_field encodable stands
  have mode := operand.sourceField_lt
  have code := op.code_lt
  have flagBit := Bool.toNat_lt flag
  have reg := operand.sourceField.1.isLt
  have word : (single op flag operand).opcodeWord.toNat =
      0x1000 + 0x80 * op.code + 0x40 * flag.toNat + 0x10 * operand.sourceField.2 + operand.sourceField.1.val := by
    simp only [opcodeWord, UInt16.toNat_ofNat']
    omega
  have opField : bitField (single op flag operand).opcodeWord 0x80 8 = op.code := by
    simp only [bitField]
    omega
  have flagField : bitField (single op flag operand).opcodeWord 0x40 2 = flag.toNat := by
    simp only [bitField]
    omega
  have modeField : bitField (single op flag operand).opcodeWord 0x10 4 = operand.sourceField.2 := by
    simp only [bitField]
    omega
  have regField : registerField (single op flag operand).opcodeWord 1 = operand.sourceField.1 := by
    apply Fin.ext
    simp only [registerField, bitField]
    omega
  constructor
  · simp only [bitField]
    omega
  · unfold ofSingle
    rw [opField, op.ofCode?_code, flagField, modeField, regField, read]
    cases flag <;> rfl

theorem ofJump_opcodeWord (c : Condition) {offset : Int16} (h : (jump c offset).Encodable) :
    bitField (jump c offset).opcodeWord 0x2000 8 = 1 ∧ ofJump (jump c offset).opcodeWord = jump c offset := by
  obtain ⟨even, low, high⟩ := h
  have code := c.code_lt
  have count := (BitVec.ofInt 10 (displacement offset / 2)).isLt
  have word : (jump c offset).opcodeWord.toNat =
      0x2000 + 0x400 * c.code + (BitVec.ofInt 10 (displacement offset / 2)).toNat := by
    simp only [opcodeWord, UInt16.toNat_ofNat']
    omega
  have conditionField : bitField (jump c offset).opcodeWord 0x400 8 = c.code := by
    simp only [bitField]
    omega
  have wordsField : BitVec.ofNat 10 (jump c offset).opcodeWord.toNat = .ofInt 10 (displacement offset / 2) := by
    apply BitVec.eq_of_toNat_eq
    rw [BitVec.toNat_ofNat]
    omega
  have offsetField : jumpOffset (jump c offset).opcodeWord = offset := by
    apply Int16.toInt_inj.mp
    change displacement (jumpOffset _) = displacement offset
    rw [displacement_jumpOffset, wordsField, BitVec.toInt_ofInt_eq_self (by decide) (by omega) (by omega)]
    exact Int.mul_ediv_cancel' even
  constructor
  · simp only [bitField]
    omega
  · unfold ofJump
    rw [conditionField, c.ofCode_code, offsetField]

theorem ofDouble_opcodeWord (op : DoubleOp) (flag : Bool) {source destination : Operand} (isSource : source.IsSource)
    (isDestination : destination.IsDestination)
    (stands : source.extensionBytes ++ destination.extensionBytes <+: raw.drop 2) :
    2 ≤ bitField (double op flag source destination).opcodeWord 0x2000 8 ∧
      ofDouble raw (double op flag source destination).opcodeWord = .ok (double op flag source destination) := by
  have readS := Operand.source_of_field isSource ((List.prefix_append _ _).trans stands)
  have readD : Operand.destination raw (2 + source.size) destination.destinationField.1
      destination.destinationField.2 = .ok destination := by
    refine Operand.destination_of_field isDestination ?_
    obtain ⟨rest, split⟩ := stands
    rw [← List.drop_drop, ← split, ← Operand.length_extensionBytes, List.append_assoc, List.drop_left]
    exact List.prefix_append _ _
  have code := op.code_bounds
  have flagBit := Bool.toNat_lt flag
  have modeS := source.sourceField_lt
  have modeD := destination.destinationField_lt
  have regS := source.sourceField.1.isLt
  have regD := destination.destinationField.1.isLt
  have word : (double op flag source destination).opcodeWord.toNat =
      0x1000 * op.code + 0x100 * source.sourceField.1.val + 0x80 * destination.destinationField.2 +
        0x40 * flag.toNat + 0x10 * source.sourceField.2 + destination.destinationField.1.val := by
    simp only [opcodeWord, UInt16.toNat_ofNat']
    omega
  have opField : bitField (double op flag source destination).opcodeWord 0x1000 16 = op.code := by
    simp only [bitField]
    omega
  have flagField : bitField (double op flag source destination).opcodeWord 0x40 2 = flag.toNat := by
    simp only [bitField]
    omega
  have modeFieldS : bitField (double op flag source destination).opcodeWord 0x10 4 = source.sourceField.2 := by
    simp only [bitField]
    omega
  have modeFieldD : bitField (double op flag source destination).opcodeWord 0x80 2 =
      destination.destinationField.2 := by
    simp only [bitField]
    omega
  have regFieldS : registerField (double op flag source destination).opcodeWord 0x100 = source.sourceField.1 := by
    apply Fin.ext
    simp only [registerField, bitField]
    omega
  have regFieldD : registerField (double op flag source destination).opcodeWord 1 =
      destination.destinationField.1 := by
    apply Fin.ext
    simp only [registerField, bitField]
    omega
  constructor
  · simp only [bitField]
    omega
  · unfold ofDouble
    rw [opField, op.ofCode_code, flagField, modeFieldS, modeFieldD, regFieldS, regFieldD, readS]
    change (Operand.destination raw (2 + source.size) _ _ >>= _) = _
    rw [readD]
    cases flag <;> rfl

theorem ofBytes_encode (h : i.Encodable) (rest : Bytes) : ofBytes (i.encode ++ rest) = .ok i := by
  have first : wordAt (i.encode ++ rest) 0 = .ok i.opcodeWord := by
    rw [wordAt_eq_ok]
    exact ⟨i.extensionBytes ++ rest, rfl⟩
  have stands : i.extensionBytes <+: (i.encode ++ rest).drop 2 := List.prefix_append i.extensionBytes rest
  rw [ofBytes_of_word first]
  cases i with
  | single op flag operand =>
    obtain ⟨family, read⟩ := ofSingle_opcodeWord op flag h stands
    rw [family]
    exact read
  | jump c offset =>
    obtain ⟨family, read⟩ := ofJump_opcodeWord c h
    rw [family, read]
    rfl
  | double op flag source destination =>
    obtain ⟨family, read⟩ := ofDouble_opcodeWord op flag h.1 h.2 stands
    split
    next same => omega
    next same => omega
    next => exact read

theorem length_encode (i : Instruction) : i.encode.length = i.size := by
  cases i with
  | single op flag operand =>
    simp only [encode, extensionBytes, size, List.length_cons, Operand.length_extensionBytes]
    omega
  | jump c offset => rfl
  | double op flag source destination =>
    simp only [encode, extensionBytes, size, List.length_cons, List.length_append, Operand.length_extensionBytes]
    omega

end Instruction

/-- The bytes that the instruction was read from, but with bits 10 to 12 of a one-operand opcode word at the value
4. -/
def Decoded.canonicalBytes (d : Decoded) : Bytes :=
  match d.bytes with
  | low :: high :: rest =>
    let word := d.instruction.canonicalWord (wordOf low high)
    lowByte word :: highByte word :: rest
  | short => short

theorem decode_encode {i : Instruction} (h : i.Encodable) (rest : Bytes) :
    decode (i.encode ++ rest) = .ok { instruction := i, bytes := i.encode } := by
  have whole : (i.encode ++ rest).take i.size = i.encode := by rw [← i.length_encode, List.take_left]
  unfold decode
  rw [Instruction.ofBytes_encode h rest]
  simp only [bind, Except.bind, pure, Except.pure, whole]

theorem bytes_of_ofBytes {raw : Bytes} {i : Instruction} (h : Instruction.ofBytes raw = .ok i) :
    ∃ word, i.opcodeWord = i.canonicalWord word ∧
      lowByte word :: highByte word :: i.extensionBytes <+: raw := by
  obtain ⟨word, first, opcode, ⟨rest, extension⟩⟩ := Instruction.ofBytes_fields h
  obtain ⟨after, split⟩ := wordAt_eq_ok.mp first
  refine ⟨word, opcode, rest, ?_⟩
  rw [List.drop_zero] at split
  rw [← split] at extension ⊢
  exact congrArg (lowByte word :: highByte word :: ·) extension

theorem bytes_of_decode {raw : Bytes} {d : Decoded} (h : decode raw = .ok d) :
    d.bytes = raw.take d.instruction.size ∧ d.bytes.length = d.instruction.size := by
  obtain ⟨i, read, h⟩ := except_bind_ok h
  cases h
  obtain ⟨word, -, rest, rfl⟩ := bytes_of_ofBytes read
  refine ⟨rfl, List.length_take_of_le ?_⟩
  rw [← i.length_encode]
  change (lowByte word :: highByte word :: i.extensionBytes).length ≤ _
  rw [List.length_append]
  exact Nat.le_add_right _ _

/-- Encoding what was decoded gives the bytes back, with bits 10 to 12 of a one-operand opcode word at a fixed value,
and decoding that gives the same instruction with the same length, whatever bytes follow. -/
theorem encode_inverts_decode {raw : Bytes} {d : Decoded} (h : decode raw = .ok d) :
    d.bytes = raw.take d.instruction.size ∧ d.bytes.length = d.instruction.size ∧
      d.instruction.encode = d.canonicalBytes ∧
      ∀ rest, decode (d.instruction.encode ++ rest) =
        .ok { instruction := d.instruction, bytes := d.instruction.encode } := by
  have again := fun rest => decode_encode (decode_encodable h) rest
  obtain ⟨i, read, h⟩ := except_bind_ok h
  cases h
  obtain ⟨word, opcode, rest, rfl⟩ := bytes_of_ofBytes read
  have length : i.size = (lowByte word :: highByte word :: i.extensionBytes).length := i.length_encode.symm
  have bytes : ((lowByte word :: highByte word :: i.extensionBytes) ++ rest).take i.size =
      lowByte word :: highByte word :: i.extensionBytes := by rw [length, List.take_left]
  refine ⟨rfl, ?_, ?_, again⟩
  · change (List.take i.size _).length = i.size
    rw [bytes, length]
  · unfold Decoded.canonicalBytes
    simp only [bytes, wordOf_low_high, Instruction.encode, opcode]

/-- A byte rotation with an extension word, whose unused bits are 2, and a jump six bytes back from the instruction
after it, each with a byte after it. -/
theorem encode_inverts_decode_rotation_jump :
    let d : Decoded :=
      { instruction := .single .rrc true (.indexed 5 0xFFFE), bytes := [0x55, 0x08, 0xFE, 0xFF] }
    let back : Decoded := { instruction := .jump .less (-6), bytes := [0xFD, 0x3B] }
    (decode [0x55, 0x08, 0xFE, 0xFF, 0xAA] = .ok d ∧ d.instruction.encode = [0x55, 0x10, 0xFE, 0xFF] ∧
      d.instruction.encode = d.canonicalBytes ∧
      decode (d.instruction.encode ++ [0xAA]) = .ok { d with bytes := d.instruction.encode }) ∧
    decode [0xFD, 0x3B, 0xAA] = .ok back ∧ back.instruction.encode = [0xFD, 0x3B] ∧
      back.instruction.encode = back.canonicalBytes ∧
      decode (back.instruction.encode ++ [0xAA]) = .ok { back with bytes := back.instruction.encode } := by
  have read : decode [0x55, 0x08, 0xFE, 0xFF, 0xAA] = .ok
      { instruction := .single .rrc true (.indexed 5 0xFFFE), bytes := [0x55, 0x08, 0xFE, 0xFF] } := rfl
  have readBack : decode [0xFD, 0x3B, 0xAA] = .ok { instruction := .jump .less (-6), bytes := [0xFD, 0x3B] } := rfl
  obtain ⟨-, -, canonical, again⟩ := encode_inverts_decode read
  obtain ⟨-, -, canonicalBack, againBack⟩ := encode_inverts_decode readBack
  exact ⟨⟨read, by decide, canonical, again [0xAA]⟩, readBack, by decide, canonicalBack, againBack [0xAA]⟩

end Msp430
