import Msp430.Cpu.Execute
import Msp430.Proofs.Listing
import Msp430.Text.Numeral

/-!
# Reading assembly text

What is printed after the tab of a listing line can be read back, up to what the text does not tell and execution does
not ask: whether a literal came from the constant generator, and the byte flag of an operation that has no byte form.
-/

namespace Msp430

/-! ### Pieces of text -/

/-- The text before the first `c` and the text after it. -/
def cut (c : Char) (text : List Char) : List Char × List Char :=
  (text.takeWhile (· ≠ c), (text.dropWhile (· ≠ c)).tail)

theorem cut_append {c : Char} {front : List Char} (free : c ∉ front) (back : List Char) :
    cut c (front ++ c :: back) = (front, back) := by
  have pass : ∀ a ∈ front, decide (a ≠ c) = true := by
    intro a ha
    refine decide_eq_true ?_
    rintro rfl
    exact free ha
  unfold cut
  rw [List.takeWhile_append_of_pos pass, List.dropWhile_append_of_pos pass, List.takeWhile_cons_of_neg (by simp),
    List.dropWhile_cons_of_neg (by simp), List.append_nil, List.tail_cons]

def readInt (text : List Char) : Option UInt16 := (String.ofList text).toInt?.map UInt16.ofInt

def readRegister (digits : List Char) : Option Reg := do
  let n ← (String.ofList digits).toNat?
  if h : n < 16 then some ⟨n, h⟩ else none

def readWord (digits : List Char) : Option UInt16 := (Numeral.read 16 0xFFFF digits).toOption.map UInt16.ofNat

theorem ofInt_signed (w : UInt16) : UInt16.ofInt (signed w) = w := by
  have := w.toNat_lt
  apply UInt16.toNat_inj.mp
  unfold signed
  split <;> simp only [UInt16.ofInt, UInt16.toNat_ofNat'] <;> omega

theorem readInt_signed (w : UInt16) : readInt (toString (signed w)).toList = some w := by
  unfold readInt
  rw [String.ofList_toList]
  change (Int.repr _).toInt?.map _ = _
  rw [Int.toInt?_repr, Option.map_some, ofInt_signed]

theorem readRegister_val (r : Reg) : readRegister (toString r.val).toList = some r := by
  unfold readRegister
  rw [String.ofList_toList]
  change (Nat.repr _).toNat? >>= _ = _
  rw [Nat.toNat?_repr]
  exact dif_pos r.isLt

namespace Numeral

theorem digit?_digitChar {n : Nat} (h : n < 16) : digit? 16 (Nat.digitChar n) = some n := by
  revert n
  decide

theorem readDigits_digitChar {limit value n : Nat} (digit : n < 16) (low : 16 * value + n ≤ limit)
    (rest : List Char) :
    readDigits 16 limit value (Nat.digitChar n :: rest) = readDigits 16 limit (16 * value + n) rest := by
  have fits : ¬ limit < 16 * value + n := by omega
  rw [readDigits, digit?_digitChar digit]
  exact if_neg fits

end Numeral

theorem readWord_wordDigits (w : UInt16) : readWord (Hex.wordDigits w) = some w := by
  have bound := w.toNat_lt
  have unsigned : Nat.digitChar (w.toNat / 4096) ≠ '+' := by
    have all : ∀ n < 16, Nat.digitChar n ≠ '+' := by decide
    exact all _ (by omega)
  have read : Numeral.read 16 0xFFFF (Hex.wordDigits w) = .ok w.toNat := by
    unfold Numeral.read Hex.wordDigits
    split
    next h => cases h
    next h => exact absurd (List.cons.inj h).1 unsigned
    next h => exact absurd (List.cons.inj h).1 unsigned
    next =>
      rw [Numeral.readDigits_digitChar (by omega) (by omega), Numeral.readDigits_digitChar (by omega) (by omega),
        Numeral.readDigits_digitChar (by omega) (by omega), Numeral.readDigits_digitChar (by omega) (by omega),
        Numeral.readDigits]
      congr 1
      omega
  unfold readWord
  rw [read]
  exact congrArg some w.ofNat_toNat

/-! ### The characters of an operand -/

theorem digit_of_mem_nat {n : Nat} {c : Char} (h : c ∈ (toString n).toList) : c.isDigit := by
  change c ∈ n.repr.toList at h
  rw [Nat.toList_repr] at h
  exact Nat.isDigit_of_mem_toDigits (by decide) (by decide) h

theorem toList_int_ne_nil (n : Int) : (toString n).toList ≠ [] := by
  cases n with
  | ofNat k => exact fun h => Nat.repr_ne_empty (String.toList_eq_nil_iff.mp h)
  | negSucc k =>
    change ("-" ++ (k + 1).repr).toList ≠ []
    rw [String.toList_append]
    exact List.cons_ne_nil _ _

theorem digit_or_minus_of_mem_int {n : Int} {c : Char} (h : c ∈ (toString n).toList) : c.isDigit ∨ c = '-' := by
  cases n with
  | ofNat k => exact .inl (digit_of_mem_nat h)
  | negSucc k =>
    change c ∈ ("-" ++ (k + 1).repr).toList at h
    rw [String.toList_append, List.mem_append] at h
    rcases h with h | h
    · exact .inr (List.mem_singleton.mp h)
    · exact .inl (digit_of_mem_nat h)

theorem Hex.not_mem_wordDigits {c : Char} (plain : ∀ n < 16, c ≠ Nat.digitChar n) (w : UInt16) : c ∉ wordDigits w := by
  have := w.toNat_lt
  simp only [wordDigits, List.mem_cons, List.not_mem_nil, or_false, not_or]
  exact ⟨plain _ (by omega), plain _ (by omega), plain _ (by omega), plain _ (by omega)⟩

namespace Operand

/-- The operand with a constant as the literal that prints like it. -/
def plain : Operand → Operand
  | constant c => immediate c.value
  | o => o

/-- The characters of the assembly text. -/
def letters : Operand → List Char
  | register r => 'R' :: (toString r.val).toList
  | indexed r offset => (toString (signed offset)).toList ++ '(' :: 'R' :: ((toString r.val).toList ++ [')'])
  | indirect r => '@' :: 'R' :: (toString r.val).toList
  | autoIncrement r => '@' :: 'R' :: ((toString r.val).toList ++ ['+'])
  | absolute a => '&' :: Hex.wordDigits a
  | immediate v => '#' :: (toString (signed v)).toList
  | constant c => '#' :: (toString (signed c.value)).toList

theorem toList_assembly (o : Operand) : o.assembly.toList = o.letters := by
  cases o with
  | register r => exact String.toList_append
  | indexed r offset =>
    change (toString (signed offset) ++ "(R" ++ toString r.val ++ ")").toList = _
    simp only [String.toList_append, List.append_assoc]
    rfl
  | indirect r => exact String.toList_append
  | autoIncrement r =>
    change ("@R" ++ toString r.val ++ "+").toList = _
    simp only [String.toList_append]
    rfl
  | absolute a =>
    change ("&" ++ String.ofList (Hex.wordDigits a)).toList = _
    simp only [String.toList_append, String.toList_ofList]
    rfl
  | immediate v => exact String.toList_append
  | constant c => exact String.toList_append

theorem comma_not_mem_letters (o : Operand) : ',' ∉ o.letters := by
  have noRegister (r : Reg) : ',' ∉ (toString r.val).toList := fun h => absurd (digit_of_mem_nat h) (by decide)
  have noNumber (w : UInt16) : ',' ∉ (toString (signed w)).toList :=
    fun h => absurd (digit_or_minus_of_mem_int h) (by decide)
  have noWord (w : UInt16) : ',' ∉ Hex.wordDigits w := Hex.not_mem_wordDigits (by decide) w
  cases o <;>
    simp only [letters, List.mem_cons, List.mem_append, List.not_mem_nil, noRegister, noNumber, noWord, or_false,
      false_or] <;>
    decide

/-! ### Reading an operand -/

def ofIndexedText? (text : List Char) : Option Operand := do
  let (number, base) := cut '(' text
  return .indexed (← readRegister (cut ')' (base.drop 1)).1) (← readInt number)

def ofText? (text : List Char) : Option Operand :=
  match text with
  | 'R' :: digits => register <$> readRegister digits
  | '@' :: 'R' :: digits =>
    if '+' ∈ digits then autoIncrement <$> readRegister (cut '+' digits).1 else indirect <$> readRegister digits
  | '&' :: digits => absolute <$> readWord digits
  | '#' :: number => immediate <$> readInt number
  | _ => ofIndexedText? text

theorem ofText?_of_number {c : Char} {rest : List Char} (number : c.isDigit ∨ c = '-') :
    ofText? (c :: rest) = ofIndexedText? (c :: rest) := by
  unfold ofText?
  split
  case h_5 => rfl
  all_goals
    next h =>
      obtain rfl := (List.cons.inj h).1
      exact absurd number (by decide)

theorem ofText?_indexed (r : Reg) (offset : UInt16) : ofText? (indexed r offset).letters = some (indexed r offset) := by
  have noOpening : '(' ∉ (toString (signed offset)).toList :=
    fun h => absurd (digit_or_minus_of_mem_int h) (by decide)
  have noClosing : ')' ∉ (toString r.val).toList := fun h => absurd (digit_of_mem_nat h) (by decide)
  have read : ofIndexedText? (indexed r offset).letters = some (indexed r offset) := by
    unfold ofIndexedText? letters
    rw [cut_append noOpening]
    change (readRegister (cut ')' ((toString r.val).toList ++ [')'])).1 >>= _) = _
    rw [cut_append noClosing, readRegister_val]
    change (readInt _ >>= _) = _
    rw [readInt_signed]
    rfl
  -- No other form begins like a number, so the reader comes to the last one.
  rw [← read]
  simp only [letters]
  cases number : (toString (signed offset)).toList with
  | nil => exact absurd number (toList_int_ne_nil _)
  | cons c rest =>
    have first : c ∈ (toString (signed offset)).toList := number ▸ List.mem_cons_self
    rw [List.cons_append]
    exact ofText?_of_number (digit_or_minus_of_mem_int first)

theorem ofText?_immediate (v : UInt16) : ofText? (immediate v).letters = some (immediate v) := by
  change immediate <$> readInt _ = _
  rw [readInt_signed]
  rfl

theorem ofText?_letters (o : Operand) : ofText? o.letters = some o.plain := by
  have noPlus (r : Reg) : '+' ∉ (toString r.val).toList := fun h => absurd (digit_of_mem_nat h) (by decide)
  cases o with
  | register r =>
    change register <$> readRegister _ = _
    rw [readRegister_val]
    rfl
  | indexed r offset => exact ofText?_indexed r offset
  | indirect r =>
    change (if '+' ∈ (toString r.val).toList then _ else indirect <$> readRegister _) = _
    rw [if_neg (noPlus r), readRegister_val]
    rfl
  | autoIncrement r =>
    change (if '+' ∈ (toString r.val).toList ++ ['+'] then autoIncrement <$> readRegister (cut '+' _).1 else _) = _
    rw [if_pos (by simp), cut_append (noPlus r), readRegister_val]
    rfl
  | absolute a =>
    change absolute <$> readWord _ = _
    rw [readWord_wordDigits]
    rfl
  | immediate v => exact ofText?_immediate v
  | constant c => exact ofText?_immediate c.value

end Operand

/-! ### Reading an instruction -/

def Operation.all : List Operation :=
  [.rrc, .swpb, .rra, .sxt, .push, .call, .reti].map single ++
    [.notZero, .zero, .notCarry, .carry, .negative, .greaterEqual, .less, .always].map jump ++
    [.mov, .add, .addc, .subc, .sub, .cmp, .dadd, .bit, .bic, .bis, .xor, .and].map double

def Operation.ofMnemonic? (text : List Char) : Option Operation := all.find? (·.mnemonic.toList = text)

theorem Width.decide_ofByteFlag (isByte : Bool) : decide (ofByteFlag isByte = .byte) = isByte := by
  cases isByte <;> rfl

namespace Instruction

/-- The operation and whether it works on bytes. -/
def ofHead? (head : List Char) : Option (Operation × Bool) :=
  (Operation.ofMnemonic? (cut '.' head).1).map (·, decide ('.' ∈ head))

def ofOperands? (operation : Operation) (byte : Bool) (text : List Char) : Option Instruction :=
  match operation with
  | .single op => do return single op byte (← Operand.ofText? text)
  | .jump condition => do
    let distance ← readSigned (text.drop 1)
    return jump condition (.ofInt (distance - 2))
  | .double op => do
    let (source, destination) := cut ',' text
    return double op byte (← Operand.ofText? source) (← Operand.ofText? (destination.drop 1))

def ofText? (text : List Char) : Option Instruction := do
  let (head, operands) := cut ' ' text
  let (operation, byte) ← ofHead? head
  ofOperands? operation byte operands

/-- The instruction with its operands plain, and without a byte flag that means nothing. -/
def plain : Instruction → Instruction
  | single op flag operand => single op (op.hasByteForm && flag) operand.plain
  | jump condition offset => jump condition offset
  | double op flag source destination => double op flag source.plain destination.plain

theorem ofHead?_head (i : Instruction) : ofHead? i.head.toList = some (i.operation, decide (i.width = .byte)) := by
  unfold head
  generalize i.operation = operation
  generalize i.width = width
  cases operation with
  | single op => cases op <;> cases width <;> rfl
  | jump condition => cases condition <;> cases width <;> rfl
  | double op => cases op <;> cases width <;> rfl

theorem space_not_mem_head (i : Instruction) : ' ' ∉ i.head.toList := by
  unfold head
  generalize i.operation = operation
  generalize i.width = width
  cases operation with
  | single op => cases op <;> cases width <;> decide
  | jump condition => cases condition <;> cases width <;> decide
  | double op => cases op <;> cases width <;> decide

theorem ofInt_distance (offset : Int16) : Int16.ofInt (displacement offset + 2 - 2) = offset := by
  rw [Int.add_sub_cancel]
  exact Int16.ofInt_toInt offset

theorem ofText?_head (i : Instruction) (operands : List Char) : ofText? (i.head.toList ++ ' ' :: operands) =
    ofOperands? i.operation (decide (i.width = .byte)) operands := by
  unfold ofText?
  rw [cut_append i.space_not_mem_head]
  change (ofHead? i.head.toList >>= _) = _
  rw [i.ofHead?_head]
  rfl

theorem ofText?_assembly (i : Instruction) : ofText? i.assembly.toList = some i.plain := by
  cases i with
  | single op flag operand =>
    have text : (single op flag operand).assembly.toList =
        (single op flag operand).head.toList ++ ' ' :: operand.letters := by
      simp only [assembly, String.toList_append, Operand.toList_assembly, List.append_assoc]
      rfl
    rw [text, ofText?_head]
    change (Operand.ofText? operand.letters >>= _) = _
    rw [operand.ofText?_letters]
    change some (single op (decide (Width.ofByteFlag _ = .byte)) operand.plain) = _
    rw [Width.decide_ofByteFlag]
    rfl
  | jump condition offset =>
    have text : (jump condition offset).assembly.toList =
        (jump condition offset).head.toList ++ ' ' :: '$' :: (signedText (displacement offset + 2)).toList := by
      simp only [assembly, String.toList_append, List.append_assoc]
      rfl
    rw [text, ofText?_head]
    change (readSigned (signedText _).toList >>= _) = _
    rw [readSigned_signedText]
    change some (jump condition _) = _
    rw [ofInt_distance]
    rfl
  | double op flag source destination =>
    have text : (double op flag source destination).assembly.toList =
        (double op flag source destination).head.toList ++ ' ' ::
          (source.letters ++ ',' :: ' ' :: destination.letters) := by
      simp only [assembly, String.toList_append, Operand.toList_assembly, List.append_assoc]
      rfl
    rw [text, ofText?_head]
    unfold ofOperands?
    simp only [operation]
    rw [cut_append source.comma_not_mem_letters]
    change (Operand.ofText? source.letters >>= _) = _
    rw [source.ofText?_letters]
    change (Operand.ofText? destination.letters >>= _) = _
    rw [destination.ofText?_letters]
    change some (double op (decide (Width.ofByteFlag _ = .byte)) source.plain destination.plain) = _
    rw [Width.decide_ofByteFlag]
    rfl

end Instruction

/-! ### Execution -/

namespace Machine

theorem resolve_plain {μ : Type} (w : Width) (o : Operand) : resolve (μ := μ) w o.plain = resolve w o := by
  cases o <;> rfl

theorem execute_plain {μ : Type} [Bus μ] (i : Instruction) : execute (μ := μ) i.plain = execute i := by
  cases i with
  | single op flag operand =>
    have width : (Instruction.single op flag operand).plain.width = (Instruction.single op flag operand).width := by
      simp only [Instruction.plain, Instruction.width]
      cases op.hasByteForm <;> rfl
    change executeSingle op _ operand.plain = executeSingle op _ operand
    rw [width]
    unfold executeSingle
    rw [resolve_plain]
  | jump condition offset => rfl
  | double op flag source destination =>
    change executeDouble op (.ofByteFlag flag) source.plain destination.plain = executeDouble op _ source destination
    unfold executeDouble
    rw [resolve_plain, resolve_plain]
    rfl

end Machine

/-- What the listing line of the instruction at the front of the bytes has after its tab. -/
def printed? (raw : Bytes) : Option (List Char) := (decode raw).toOption.map fun d => (cut '\t' d.listing.toList).2

theorem printed?_eq {raw : Bytes} {d : Decoded} (read : decode raw = .ok d) :
    printed? raw = some d.instruction.assembly.toList := by
  have noTab := d.not_mem_columns (c := '\t') (by decide) (by decide)
  have text : d.listing.toList = d.columns.toList ++ '\t' :: d.instruction.assembly.toList := by
    simp only [Decoded.listing, String.toList_append, List.append_assoc]
    rfl
  unfold printed?
  rw [read]
  change some (cut '\t' d.listing.toList).2 = _
  rw [text, cut_append noTab]

/-- Bytes that print the same after the tab are executed alike, with any memory and from any state. -/
theorem execute_eq_of_printed {raw raw' : Bytes} {d d' : Decoded} (read : decode raw = .ok d)
    (read' : decode raw' = .ok d') (same : printed? raw = printed? raw') {μ : Type} [Bus μ] (m : Machine μ) :
    Machine.execute d.instruction m = Machine.execute d'.instruction m := by
  have text : d.instruction.assembly.toList = d'.instruction.assembly.toList := by
    rw [printed?_eq read, printed?_eq read'] at same
    exact Option.some.inj same
  have plain : d.instruction.plain = d'.instruction.plain := by
    apply Option.some.inj
    rw [← d.instruction.ofText?_assembly, ← d'.instruction.ofText?_assembly, text]
  rw [← Machine.execute_plain d.instruction, ← Machine.execute_plain d'.instruction, plain]

/-- A one from the constant generator and a one from an extension word; and a byte swap whose byte flag and unused bits
are set and one where they are not. -/
theorem literal_and_swap_executed_alike :
    let m : Machine Memory := { registers := Registers.zero.set 5 0x1234, memory := .empty }
    printed? [0x15, 0x43] = some "MOV #1, R5".toList ∧
      Machine.execute (.double .mov false (.constant .one) (.register 5)) m =
        Machine.execute (.double .mov false (.immediate 1) (.register 5)) m ∧
      printed? [0xC5, 0x1C] = some "SWPB R5".toList ∧
      Machine.execute (.single .swpb true (.register 5)) m = Machine.execute (.single .swpb false (.register 5)) m := by
  have constant : decode [0x15, 0x43] = .ok
      { instruction := .double .mov false (.constant .one) (.register 5), bytes := [0x15, 0x43] } := rfl
  have immediate : decode [0x35, 0x40, 0x01, 0x00] = .ok
      { instruction := .double .mov false (.immediate 1) (.register 5), bytes := [0x35, 0x40, 0x01, 0x00] } := rfl
  have sameLiteral : printed? [0x15, 0x43] = printed? [0x35, 0x40, 0x01, 0x00] := by
    rw [printed?_eq constant, printed?_eq immediate]
    rfl
  have flagged : decode [0xC5, 0x1C] = .ok
      { instruction := .single .swpb true (.register 5), bytes := [0xC5, 0x1C] } := rfl
  have unflagged : decode [0x85, 0x10] = .ok
      { instruction := .single .swpb false (.register 5), bytes := [0x85, 0x10] } := rfl
  have sameSwap : printed? [0xC5, 0x1C] = printed? [0x85, 0x10] := by
    rw [printed?_eq flagged, printed?_eq unflagged]
    rfl
  refine ⟨?_, execute_eq_of_printed constant immediate sameLiteral _, ?_,
    execute_eq_of_printed flagged unflagged sameSwap _⟩
  · rw [printed?_eq constant]
    rfl
  · rw [printed?_eq flagged]
    rfl

end Msp430
