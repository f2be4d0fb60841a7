import Msp430.Proofs.ImageGrammar
import Msp430.Text.Hex

/-!
# Writing images

Chunks can be written down in many ways, and `Writes` has them all: digits of either case, any checksums and line
ends, lines without data in between and anything at all behind an end record. Loading what has been written stores
the bytes of the chunks and no others.
-/

namespace Msp430

namespace Image

open Utf8 (encode)

/-- A record in lower case. -/
def recordText (kind : UInt8) (c : Chunk) (checksum : UInt8) : List Char :=
  ':' :: (Hex.byteDigits (.ofNat c.data.length) ++ Hex.wordDigits c.address ++ Hex.byteDigits kind ++
    c.data.flatMap Hex.byteDigits ++ Hex.byteDigits checksum)

/-- A record with digits of either case and any checksum. -/
structure Spells (text : List Char) (kind : UInt8) (c : Chunk) : Prop where
  short : c.data.length ≤ 255
  lower : ∃ checksum, text.map Char.toLower = recordText kind c checksum

/-- What ends a line in front of `rest`. The last line may do without. -/
inductive LineEnd : Bytes → Bytes → Prop where
  | feed : LineEnd [0x0A] rest
  | returnFeed : LineEnd [0x0D, 0x0A] rest
  | last : LineEnd [] []

/-- An image of chunks: their records in order, with blank lines and records of other types between them. Behind an end
record anything may follow. -/
inductive Writes : List Chunk → Bytes → Prop where
  | nil : Writes [] []
  | blank (blanks : ∀ c ∈ cs, isBlank c = true ∧ c ≠ '\n') (ends : LineEnd ending rest) (more : Writes chunks rest) :
      Writes chunks (encode cs ++ ending ++ rest)
  | data (spells : Spells text 0 c) (ends : LineEnd ending rest) (more : Writes chunks rest) :
      Writes (c :: chunks) (encode text ++ ending ++ rest)
  | other (spells : Spells text kind c) (passed : kind ≠ 0 ∧ kind ≠ 1) (ends : LineEnd ending rest)
      (more : Writes chunks rest) : Writes chunks (encode text ++ ending ++ rest)
  | finish (spells : Spells text 1 c) (ends : LineEnd ending rest) : Writes [] (encode text ++ ending ++ rest)

/-! ### The characters of a record -/

theorem toLower_of_high {c : Char} (h : 0x80 ≤ c.toNat) : c.toLower = c := by
  unfold Char.toLower
  split
  · next upper =>
    have low : c.val.toNat ≤ 90 := upper.2
    change 0x80 ≤ c.val.toNat at h
    omega
  · rfl

theorem hexDigit_of_toLower {c : Char} {d : Nat} (small : d < 16) (h : c.toLower = Nat.digitChar d) :
    Numeral.HexDigit c d := by
  have table : ∀ c : Char, c.toNat < 0x80 → ∀ d < 16, c.toLower = Nat.digitChar d →
      c = Nat.digitChar d ∨ c = (Nat.digitChar d).toUpper :=
    Numeral.forall_ascii (by decide)
  by_cases low : c.toNat < 0x80
  · exact ⟨small, table c low d small h⟩
  · rw [toLower_of_high (by omega)] at h
    exact ⟨small, .inl h⟩

theorem eq_mark_of_toLower {c : Char} (h : c.toLower = ':') : c = ':' := by
  by_cases low : c.toNat < 0x80
  · exact Numeral.forall_ascii (P := fun c => c.toLower = ':' → c = ':') (by decide) c low h
  · rwa [toLower_of_high (by omega)] at h

theorem digit_of_mem_byteDigits {c : Char} {b : UInt8} (h : c ∈ Hex.byteDigits b) : ∃ d < 16, c = Nat.digitChar d := by
  have bound := b.toNat_lt
  simp only [Hex.byteDigits, List.mem_cons, List.not_mem_nil, or_false] at h
  rcases h with rfl | rfl
  · exact ⟨_, by omega, rfl⟩
  · exact ⟨_, by omega, rfl⟩

theorem digit_of_mem_wordDigits {c : Char} {w : UInt16} (h : c ∈ Hex.wordDigits w) :
    ∃ d < 16, c = Nat.digitChar d := by
  have bound := w.toNat_lt
  simp only [Hex.wordDigits, List.mem_cons, List.not_mem_nil, or_false] at h
  rcases h with rfl | rfl | rfl | rfl
  all_goals exact ⟨_, by omega, rfl⟩

theorem mark_or_digit_of_mem {c : Char} {kind checksum : UInt8} {chunk : Chunk}
    (h : c ∈ recordText kind chunk checksum) : c = ':' ∨ ∃ d < 16, c = Nat.digitChar d := by
  simp only [recordText, List.mem_cons, List.mem_append, List.mem_flatMap] at h
  rcases h with mark | (((count | address) | kind) | ⟨b, -, data⟩) | checksum
  · exact .inl mark
  · exact .inr (digit_of_mem_byteDigits count)
  · exact .inr (digit_of_mem_wordDigits address)
  · exact .inr (digit_of_mem_byteDigits kind)
  · exact .inr (digit_of_mem_byteDigits data)
  · exact .inr (digit_of_mem_byteDigits checksum)

variable {text : List Char} {kind : UInt8} {c : Chunk}

/-- A record is written in visible characters of seven bits. -/
theorem Spells.visible (h : Spells text kind c) {x : Char} (member : x ∈ text) :
    x.toNat < 0x80 ∧ isBlank x = false := by
  have table : ∀ d < 16, isBlank (Nat.digitChar d) = false ∧ isBlank (Nat.digitChar d).toUpper = false := by decide
  obtain ⟨checksum, lower⟩ := h.lower
  have inside : x.toLower ∈ recordText kind c checksum := by
    rw [← lower]
    exact List.mem_map_of_mem member
  rcases mark_or_digit_of_mem inside with mark | ⟨d, small, digit⟩
  · rw [eq_mark_of_toLower mark]
    decide
  · have hex := hexDigit_of_toLower small digit
    refine ⟨hex.ascii, ?_⟩
    obtain ⟨-, rfl | rfl⟩ := hex
    · exact (table d small).1
    · exact (table d small).2

theorem map_toLower_recordText (kind : UInt8) (c : Chunk) (checksum : UInt8) :
    (recordText kind c checksum).map Char.toLower = recordText kind c checksum := by
  have digits : ∀ d < 16, (Nat.digitChar d).toLower = Nat.digitChar d := by decide
  refine (List.map_congr_left fun x member => ?_).trans (List.map_id _)
  rcases mark_or_digit_of_mem member with rfl | ⟨d, small, rfl⟩
  · decide
  · exact digits d small

/-- Any chunks of at most 255 bytes can be written. -/
theorem exists_written {chunks : List Chunk} (short : ∀ c ∈ chunks, c.data.length ≤ 255) :
    ∃ image, Writes chunks image := by
  induction chunks with
  | nil => exact ⟨[], .nil⟩
  | cons c chunks ih =>
    obtain ⟨first, short⟩ := List.forall_mem_cons.mp short
    obtain ⟨image, more⟩ := ih short
    exact ⟨_, .data ⟨first, 0, map_toLower_recordText 0 c 0⟩ .feed more⟩

/-! ### The fields of a record -/

theorem length_encode_of_ascii {cs : List Char} (h : ∀ x ∈ cs, x.toNat < 0x80) : (encode cs).length = cs.length := by
  induction cs with
  | nil => rfl
  | cons x cs ih =>
    obtain ⟨low, rest⟩ := List.forall_mem_cons.mp h
    rcases Utf8.encodeChar_bytes x with ⟨first, tails, shape, ⟨-, -, rfl⟩ | ⟨high, -⟩, -⟩
    · rw [Utf8.encode_cons, shape, List.length_append, ih rest, List.length_cons, Nat.add_comm]
      rfl
    · omega

theorem spans_of_lower {front digits back : List Char} (ascii : ∀ x ∈ text, x.toNat < 0x80)
    (h : text.map Char.toLower = front ++ digits ++ back) :
    ∃ inside, Spans text front.length digits.length inside ∧ inside.map Char.toLower = digits := by
  obtain ⟨start, after, rfl, split, rfl⟩ := List.map_eq_append_iff.mp h
  obtain ⟨before, inside, rfl, rfl, rfl⟩ := List.map_eq_append_iff.mp split
  have early : ∀ x ∈ before, x.toNat < 0x80 := fun x m => ascii x (by simp [m])
  have here : ∀ x ∈ inside, x.toNat < 0x80 := fun x m => ascii x (by simp [m])
  refine ⟨inside, ⟨before, after, rfl, ?_, ?_⟩, rfl⟩
  · rw [length_encode_of_ascii early, List.length_map]
  · rw [length_encode_of_ascii here, List.length_map]

theorem extends_of_lower (ds : List Nat) {digits : List Char} (small : ∀ d ∈ ds, d < 16)
    (h : digits.map Char.toLower = ds.map Nat.digitChar) (n : Nat) :
    Numeral.Extends n digits (ds.foldl (fun n d => 16 * n + d) n) := by
  induction ds generalizing digits n with
  | nil =>
    obtain rfl := List.map_eq_nil_iff.mp h
    exact .nil
  | cons d ds ih =>
    obtain ⟨first, small⟩ := List.forall_mem_cons.mp small
    obtain ⟨x, rest, rfl, digit, h⟩ := List.map_eq_cons_iff.mp h
    exact .cons (hexDigit_of_toLower first digit) (ih small h _)

theorem hexadecimal_byte {inside : List Char} {b : UInt8} (h : inside.map Char.toLower = Hex.byteDigits b) :
    Numeral.Hexadecimal inside b.toNat := by
  have bound := b.toNat_lt
  have value : 16 * (16 * 0 + b.toNat / 16) + b.toNat % 16 = b.toNat := by omega
  have read := extends_of_lower [b.toNat / 16, b.toNat % 16] (by simp; omega) h 0
  simp only [List.foldl_cons, List.foldl_nil, value] at read
  refine ⟨inside, ?_, .inl rfl, read⟩
  rintro rfl
  cases h

theorem hexadecimal_word {inside : List Char} {w : UInt16} (h : inside.map Char.toLower = Hex.wordDigits w) :
    Numeral.Hexadecimal inside w.toNat := by
  have bound := w.toNat_lt
  have value : 16 * (16 * (16 * (16 * 0 + w.toNat / 4096) + w.toNat / 256 % 16) + w.toNat / 16 % 16) + w.toNat % 16 =
      w.toNat := by
    omega
  have read := extends_of_lower [w.toNat / 4096, w.toNat / 256 % 16, w.toNat / 16 % 16, w.toNat % 16]
    (by simp; omega) h 0
  simp only [List.foldl_cons, List.foldl_nil, value] at read
  refine ⟨inside, ?_, .inl rfl, read⟩
  rintro rfl
  cases h

theorem field_byte {front back : List Char} {b : UInt8} (ascii : ∀ x ∈ text, x.toNat < 0x80)
    (h : text.map Char.toLower = front ++ Hex.byteDigits b ++ back) : Field text front.length 2 b.toNat := by
  obtain ⟨inside, spans, lower⟩ := spans_of_lower ascii h
  exact ⟨inside, spans, hexadecimal_byte lower⟩

theorem field_word {front back : List Char} {w : UInt16} (ascii : ∀ x ∈ text, x.toNat < 0x80)
    (h : text.map Char.toLower = front ++ Hex.wordDigits w ++ back) : Field text front.length 4 w.toNat := by
  obtain ⟨inside, spans, lower⟩ := spans_of_lower ascii h
  exact ⟨inside, spans, hexadecimal_word lower⟩

theorem length_flatMap_byteDigits (bs : Bytes) : (bs.flatMap Hex.byteDigits).length = 2 * bs.length := by
  induction bs with
  | nil => rfl
  | cons b bs ih =>
    rw [List.flatMap_cons, List.length_append, ih, List.length_cons]
    change 2 + _ = _
    omega

theorem Spells.ascii (h : Spells text kind c) : ∀ x ∈ text, x.toNat < 0x80 := fun _ member => (h.visible member).1

theorem Spells.length_encode (h : Spells text kind c) : (encode text).length = 11 + 2 * c.data.length := by
  obtain ⟨checksum, lower⟩ := h.lower
  have same := congrArg List.length lower
  have data := length_flatMap_byteDigits c.data
  rw [List.length_map] at same
  rw [length_encode_of_ascii h.ascii, same]
  simp only [recordText, Hex.byteDigits, Hex.wordDigits, List.length_cons, List.length_append, List.length_nil, data]
  omega

theorem Spells.heads (h : Spells text kind c) : Header.Heads ⟨c.data.length, c.address, kind.toNat⟩ text := by
  have length := h.length_encode
  have short := h.short
  obtain ⟨checksum, lower⟩ := h.lower
  have count : (UInt8.ofNat c.data.length).toNat = c.data.length := Utf8.toNat_ofNat_byte (by omega)
  have address : text.map Char.toLower =
      (':' :: Hex.byteDigits (.ofNat c.data.length)) ++ Hex.wordDigits c.address ++
        (Hex.byteDigits kind ++ c.data.flatMap Hex.byteDigits ++ Hex.byteDigits checksum) := by
    rw [lower, recordText]
    simp only [List.append_assoc, List.cons_append]
  have type : text.map Char.toLower =
      (':' :: (Hex.byteDigits (.ofNat c.data.length) ++ Hex.wordDigits c.address)) ++ Hex.byteDigits kind ++
        (c.data.flatMap Hex.byteDigits ++ Hex.byteDigits checksum) := by
    rw [lower, recordText]
    simp only [List.append_assoc, List.cons_append]
  refine ⟨?_, ?_, Nat.le_of_eq length.symm, field_word h.ascii address, field_byte h.ascii type⟩
  · omega
  · have first : text.map Char.toLower =
        [':'] ++ Hex.byteDigits (.ofNat c.data.length) ++
          (Hex.wordDigits c.address ++ Hex.byteDigits kind ++ c.data.flatMap Hex.byteDigits ++
            Hex.byteDigits checksum) := by
      rw [lower, recordText]
      simp only [List.append_assoc, List.cons_append, List.nil_append]
    have field := field_byte h.ascii first
    rwa [count] at field

theorem Spells.fields (h : Spells text kind c) : DataFields text c.data := by
  intro k b found
  obtain ⟨checksum, lower⟩ := h.lower
  have split : c.data = c.data.take k ++ b :: c.data.drop (k + 1) := by
    obtain ⟨bound, rfl⟩ := List.getElem?_eq_some_iff.mp found
    rw [List.getElem_cons_drop, List.take_append_drop]
  have front : (':' :: (Hex.byteDigits (.ofNat c.data.length) ++ Hex.wordDigits c.address ++ Hex.byteDigits kind ++
      (c.data.take k).flatMap Hex.byteDigits)).length = 9 + 2 * k := by
    obtain ⟨bound, -⟩ := List.getElem?_eq_some_iff.mp found
    have early := length_flatMap_byteDigits (c.data.take k)
    rw [List.length_take, Nat.min_eq_left (by omega)] at early
    simp only [Hex.byteDigits, Hex.wordDigits, List.length_cons, List.length_append, List.length_nil]
    omega
  have shape : text.map Char.toLower =
      (':' :: (Hex.byteDigits (.ofNat c.data.length) ++ Hex.wordDigits c.address ++ Hex.byteDigits kind ++
        (c.data.take k).flatMap Hex.byteDigits)) ++ Hex.byteDigits b ++
          ((c.data.drop (k + 1)).flatMap Hex.byteDigits ++ Hex.byteDigits checksum) := by
    have data : c.data.flatMap Hex.byteDigits = (c.data.take k).flatMap Hex.byteDigits ++
        (Hex.byteDigits b ++ (c.data.drop (k + 1)).flatMap Hex.byteDigits) := by
      rw [← List.flatMap_cons, ← List.flatMap_append, ← split]
    rw [lower, recordText, data]
    simp only [List.append_assoc, List.cons_append]
  rw [← front]
  exact field_byte h.ascii shape

/-! ### The lines of a written image -/

variable {blanks : List Char} {ending rest : Bytes} {chunks : List Chunk}

theorem Spells.trims (h : Spells text kind c) (blank : ∀ x ∈ blanks, isBlank x = true) :
    Trims (encode (text ++ blanks)) text :=
  ⟨blanks, rfl, blank, fun _ last => (h.visible (List.mem_of_getLast? last)).2⟩

theorem Spells.no_feed (h : Spells text kind c) : ∀ x ∈ text, x ≠ '\n' := by
  rintro x member rfl
  exact absurd (h.visible member).2 (by decide)

/-- A line is followed by the lines of the rest, or it is the last. -/
theorem lines_of_lineEnd (inside : ∀ x ∈ text, x ≠ '\n') (ends : LineEnd ending rest) :
    ∃ blanks, (∀ x ∈ blanks, isBlank x = true) ∧
      (lines (encode text ++ ending ++ rest) = encode (text ++ blanks) :: lines rest ∨
        rest = [] ∧ lines (encode text ++ ending ++ rest) = [encode (text ++ blanks)]) := by
  cases ends with
  | feed =>
    refine ⟨[], nofun, .inl ?_⟩
    rw [List.append_nil, List.append_assoc, List.singleton_append, lines_append (Utf8.feed_not_mem_encode inside)]
  | returnFeed =>
    have more : ∀ x ∈ text ++ ['\r'], x ≠ '\n' := by
      intro x member
      rcases List.mem_append.mp member with here | last
      · exact inside x here
      · rw [List.mem_singleton.mp last]
        decide
    refine ⟨['\r'], List.forall_mem_singleton.mpr (by decide), .inl ?_⟩
    rw [← lines_append (Utf8.feed_not_mem_encode more), Utf8.encode_append, List.append_assoc, List.append_assoc]
    rfl
  | last =>
    refine ⟨[], nofun, .inr ⟨rfl, ?_⟩⟩
    rw [List.append_nil, List.append_nil, List.append_nil, lines_of_no_end (Utf8.feed_not_mem_encode inside)]

theorem Writes.eq_nil (h : Writes chunks []) : chunks = [] := by
  generalize shape : ([] : Bytes) = image at h
  have unwritten {text : List Char} {kind : UInt8} {c : Chunk} {ending rest : Bytes} (spells : Spells text kind c)
      (empty : [] = encode text ++ ending ++ rest) : False := by
    have none := congrArg List.length empty
    rw [List.length_append, List.length_append, spells.length_encode, List.length_nil] at none
    omega
  induction h with
  | nil => rfl
  | blank blanks ends more ih => exact ih (List.append_eq_nil_iff.mp shape.symm).2.symm
  | data spells ends more => exact (unwritten spells shape).elim
  | other spells passed ends more => exact (unwritten spells shape).elim
  | finish spells ends => rfl

theorem Writes.holds_cons {entry : Entry} (more : Writes chunks rest) (ih : Holds (lines rest) chunks)
    (inside : ∀ x ∈ text, x ≠ '\n') (ends : LineEnd ending rest)
    (reads : ∀ blanks, (∀ x ∈ blanks, isBlank x = true) → Reads (encode (text ++ blanks)) entry)
    (goes : entry ≠ .finish) : Holds (lines (encode text ++ ending ++ rest)) (entry.chunks ++ chunks) := by
  obtain ⟨blanks, blank, shape | ⟨rfl, shape⟩⟩ := lines_of_lineEnd inside ends
  · rw [shape]
    exact ih.cons (reads blanks blank) goes
  · obtain rfl := more.eq_nil
    rw [shape]
    exact Holds.cons (.all .nil) (reads blanks blank) goes

/-- However chunks are written, their lines hold them. -/
theorem Writes.holds {image : Bytes} (h : Writes chunks image) : Holds (lines image) chunks := by
  induction h with
  | nil => exact Holds.cons (.all .nil) (.blank ⟨[], rfl, nofun, nofun⟩) (by decide)
  | @blank cs ending rest chunks white ends more ih =>
    have reads (blanks : List Char) (blank : ∀ x ∈ blanks, isBlank x = true) :
        Reads (encode (cs ++ blanks)) .blank := by
      refine .blank ⟨cs ++ blanks, rfl, fun x member => ?_, nofun⟩
      rcases List.mem_append.mp member with here | behind
      · exact (white x here).1
      · exact blank x behind
    exact more.holds_cons ih (fun x member => (white x member).2) ends reads (by decide)
  | data spells ends more ih =>
    exact more.holds_cons ih spells.no_feed ends
      (fun _ blank => .data (spells.trims blank) spells.heads rfl spells.fields rfl) (by simp)
  | other spells passed ends more ih =>
    have kinds : _ ∧ _ := ⟨fun zero => passed.1 (UInt8.toNat_inj.mp zero), fun one => passed.2 (UInt8.toNat_inj.mp one)⟩
    exact more.holds_cons ih spells.no_feed ends (fun _ blank => .skipped (spells.trims blank) spells.heads kinds)
      (by decide)
  | finish spells ends =>
    obtain ⟨blanks, blank, shape | ⟨-, shape⟩⟩ := lines_of_lineEnd spells.no_feed ends
    · rw [shape]
      exact .upTo .nil (.finish (spells.trims blank) spells.heads rfl)
    · rw [shape]
      exact .upTo .nil (.finish (spells.trims blank) spells.heads rfl)

theorem length_cells (chunks : List Chunk) : (cells chunks).length = (chunks.map fun c => c.data.length).sum := by
  induction chunks with
  | nil => rfl
  | cons c chunks ih =>
    rw [cells, List.flatMap_cons, List.length_append, Chunk.length_cells, List.map_cons, List.sum_cons, ← ih]
    rfl

/-- Whatever the chunks, there is an image that puts them into flat memory, if each has at most 255 bytes. -/
theorem exists_image (short : ∀ c ∈ chunks, c.data.length ≤ 255) :
    ∃ image, Writes chunks image ∧
      ∀ m : Memory, load image m = .ok (cells chunks).length (m.clear.storeCells (cells chunks)) := by
  obtain ⟨image, writes⟩ := exists_written short
  exact ⟨image, writes, fun m => load_flat writes.holds m⟩

/-- Loading an image does to any memory what clearing it and storing the bytes of the chunks does. On flat memory this
always succeeds. -/
theorem load_written {image : Bytes} (h : Writes chunks image) :
    (∀ {μ : Type} [Bus μ],
      (load image : EStateM Error μ Nat) = do
        modify Bus.clear
        storeCells (cells chunks)
        return (chunks.map fun c => c.data.length).sum) ∧
    ∀ m : Memory,
      load image m = .ok (chunks.map fun c => c.data.length).sum (m.clear.storeCells (cells chunks)) := by
  have total := length_cells chunks
  refine ⟨fun {μ _} => ?_, fun m => ?_⟩
  · rw [load_holds h.holds, total]
  · rw [load_flat h.holds m, total]

/-- A segment record, a blank line, one data record across the top of memory and what is no text behind the end. -/
def spliced : Bytes :=
  Utf8.ofString ":020000040000FA\r\n \t\r\n:02FfFf00aAbB9c\n:00000001ff\n" ++ [0xFF, 0xC0]

theorem load_spliced :
    Writes [⟨0xFFFF, [0xAA, 0xBB]⟩] spliced ∧
      ∀ m : Memory, load spliced m = .ok 2 ((m.clear.storeByte 0xFFFF 0xAA).storeByte 0x0000 0xBB) := by
  have segment : Spells ":020000040000FA".toList 4 ⟨0, [0, 0]⟩ := ⟨by decide, 0xFA, by decide⟩
  have data : Spells ":02FfFf00aAbB9c".toList 0 ⟨0xFFFF, [0xAA, 0xBB]⟩ := ⟨by decide, 0x9C, by decide⟩
  have finish : Spells ":00000001ff".toList 1 ⟨0, []⟩ := ⟨by decide, 0xFF, by decide⟩
  have white : ∀ c ∈ [' ', '\t'], isBlank c = true ∧ c ≠ '\n' :=
    List.forall_mem_cons.mpr ⟨by decide, List.forall_mem_singleton.mpr (by decide)⟩
  have records : Writes [⟨0xFFFF, [0xAA, 0xBB]⟩]
      (encode ":02FfFf00aAbB9c".toList ++ [0x0A] ++ (encode ":00000001ff".toList ++ [0x0A] ++ [0xFF, 0xC0])) :=
    .data data .feed (.finish finish .feed)
  have lines := Writes.other segment (by decide) .returnFeed (.blank white .returnFeed records)
  have shape : encode ":020000040000FA".toList ++ [0x0D, 0x0A] ++ (encode [' ', '\t'] ++ [0x0D, 0x0A] ++
      (encode ":02FfFf00aAbB9c".toList ++ [0x0A] ++ (encode ":00000001ff".toList ++ [0x0A] ++ [0xFF, 0xC0]))) =
      spliced := by
    decide
  rw [shape] at lines
  exact ⟨lines, (load_written lines).2⟩

end Image

end Msp430
