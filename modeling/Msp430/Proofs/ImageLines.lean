import Msp430.Proofs.Access
import Msp430.Proofs.ImageFields

/-!
# The lines of an image

A line without the blanks at its end says nothing, or holds a record to pass over, the end of the image or
bytes to store. A line that reads as none of these has a first defect. Every line has one or the other, and
`loadLines_reads`, `loadLines_finish` and `loadLines_defect` say what the loader does with it.
-/

namespace Msp430

namespace Image

open Utf8 (encode)

/-! ### What a line says -/

/-- A line is the text and blanks behind it. -/
def Trims (raw : Bytes) (text : List Char) : Prop :=
  ∃ blanks, raw = encode (text ++ blanks) ∧ (∀ c ∈ blanks, isBlank c = true) ∧
    ∀ c, text.getLast? = some c → isBlank c = false

/-- A line begins with a header and is long enough for the bytes that the header announces. -/
structure Header.Heads (h : Header) (text : List Char) : Prop where
  long : 3 ≤ (encode text).length
  count : Field text 1 2 h.count
  complete : 11 + 2 * h.count ≤ (encode text).length
  address : Field text 3 4 h.address.toNat
  kind : Field text 7 2 h.kind

/-- The bytes in the data fields of a line, from the first on. -/
def DataFields (text : List Char) (bytes : Bytes) : Prop :=
  ∀ k b, bytes[k]? = some b → Field text (9 + 2 * k) 2 b.toNat

/-- Bytes for consecutive addresses. -/
structure Chunk where
  address : UInt16
  data : Bytes
deriving DecidableEq, Repr, Inhabited

/-- The bytes of a chunk with their addresses; the last address of all is followed by the first. -/
def Chunk.cells (c : Chunk) : List (UInt16 × UInt8) := c.data.mapIdx fun k b => (c.address + .ofNat k, b)

def cells (chunks : List Chunk) : List (UInt16 × UInt8) := chunks.flatMap Chunk.cells

inductive Entry where
  | blank
  | skipped
  | finish
  | data (c : Chunk)
deriving DecidableEq, Repr, Inhabited

def Entry.chunks : Entry → List Chunk
  | data c => [c]
  | _ => []

/-- The good lines. -/
inductive Reads (raw : Bytes) : Entry → Prop where
  | blank (trims : Trims raw []) : Reads raw .blank
  | skipped (trims : Trims raw text) (heads : Header.Heads h text) (other : h.kind ≠ 0 ∧ h.kind ≠ 1) :
      Reads raw .skipped
  | finish (trims : Trims raw text) (heads : Header.Heads h text) (kind : h.kind = 1) : Reads raw .finish
  | data (trims : Trims raw text) (heads : Header.Heads h text) (kind : h.kind = 0)
      (fields : DataFields text bytes) (whole : bytes.length = h.count) : Reads raw (.data ⟨h.address, bytes⟩)

/-- The first defect of line number `line`, in the order of the checks, and the bytes in front of it. -/
inductive Defect (line : Nat) (raw : Bytes) : List Chunk → Error → Prop where
  | notText (h : ∀ cs, raw ≠ encode cs) : Defect line raw [] .notText
  | short (trims : Trims raw text) (some : text ≠ []) (h : (encode text).length < 3) :
      Defect line raw [] (.lineTooShort line)
  | count (trims : Trims raw text) (long : 3 ≤ (encode text).length) (bad : BadField text 1 2 cause) :
      Defect line raw [] (.badHex line cause)
  | truncated (trims : Trims raw text) (long : 3 ≤ (encode text).length) (count : Field text 1 2 n)
      (h : (encode text).length < 11 + 2 * n) : Defect line raw [] (.lineTooShort line)
  | address (trims : Trims raw text) (count : Field text 1 2 n) (complete : 11 + 2 * n ≤ (encode text).length)
      (bad : BadField text 3 4 cause) : Defect line raw [] (.badHex line cause)
  | kind (trims : Trims raw text) (count : Field text 1 2 n) (complete : 11 + 2 * n ≤ (encode text).length)
      (address : Field text 3 4 a) (bad : BadField text 7 2 cause) : Defect line raw [] (.badHex line cause)
  | data (trims : Trims raw text) (heads : Header.Heads h text) (kind : h.kind = 0)
      (fields : DataFields text bytes) (more : bytes.length < h.count)
      (bad : BadField text (9 + 2 * bytes.length) 2 cause) :
      Defect line raw [⟨h.address, bytes⟩] (.badHex line cause)

variable {raw : Bytes} {text : List Char} {line : Nat}

/-! ### Text without the blanks at its end -/

theorem trimEnd_append {blanks : List Char} (blank : ∀ c ∈ blanks, isBlank c = true)
    (last : ∀ c, text.getLast? = some c → isBlank c = false) : trimEnd (text ++ blanks) = text := by
  unfold trimEnd
  rw [List.reverse_append, List.dropWhile_append_of_pos (by simpa using blank)]
  have stays : text.reverse.dropWhile isBlank = text.reverse := by
    rw [← List.head?_reverse] at last
    cases shape : text.reverse with
    | nil => rfl
    | cons c cs =>
      rw [shape] at last
      rw [List.dropWhile_cons, last c rfl]
      rfl
  rw [stays, List.reverse_reverse]

theorem trims_trimEnd (cs : List Char) : Trims (encode cs) (trimEnd cs) := by
  refine ⟨(cs.reverse.takeWhile isBlank).reverse, ?_, ?_, ?_⟩
  · unfold trimEnd
    rw [← List.reverse_append, List.takeWhile_append_dropWhile, List.reverse_reverse]
  · intro c member
    have all := List.all_takeWhile (p := isBlank) (l := cs.reverse)
    exact List.all_eq_true.mp all c (List.mem_reverse.mp member)
  · intro c last
    rw [trimEnd, List.getLast?_reverse] at last
    have stop := List.head?_dropWhile_not isBlank cs.reverse
    rw [last] at stop
    exact stop

theorem trimLine_of_trims (h : Trims raw text) : trimLine raw = .ok (encode text) := by
  obtain ⟨blanks, rfl, blank, last⟩ := h
  rw [trimLine, Utf8.decode?_encode]
  simp only
  rw [trimEnd_append blank last]

theorem trimLine_of_not_text (h : ∀ cs, raw ≠ encode cs) : trimLine raw = .error .notText := by
  unfold trimLine
  cases decoded : Utf8.decode? raw with
  | none => rfl
  | some cs => exact absurd (Utf8.decode?_eq_some.mp decoded) (h cs)

theorem trims_or_not_text (raw : Bytes) : (∃ text, Trims raw text) ∨ ∀ cs, raw ≠ encode cs := by
  by_cases h : ∃ cs, raw = encode cs
  · obtain ⟨cs, rfl⟩ := h
    exact .inl ⟨trimEnd cs, trims_trimEnd cs⟩
  · exact .inr fun cs same => h ⟨cs, same⟩

theorem Trims.unique {text' : List Char} (h : Trims raw text) (h' : Trims raw text') : text = text' := by
  have same := trimLine_of_trims h
  rw [trimLine_of_trims h'] at same
  exact (Utf8.encode_injective (Except.ok.inj same)).symm

theorem isEmpty_encode (h : text ≠ []) : (encode text).isEmpty = false := by
  have long := Utf8.length_le_encode text
  have some := List.length_pos_iff.mpr h
  rw [List.isEmpty_eq_false_iff, ← List.length_pos_iff]
  omega

/-! ### Headers -/

theorem Header.read_eq (line : Nat) (bs : Bytes) :
    Header.read line bs =
      if bs.length < 3 then .error (.lineTooShort line)
      else match field line bs 1 2 with
        | .error e => .error e
        | .ok count =>
          if bs.length < 11 + 2 * count then .error (.lineTooShort line)
          else match field line bs 3 4 with
            | .error e => .error e
            | .ok address =>
              match field line bs 7 2 with
              | .error e => .error e
              | .ok kind => .ok { count, address := .ofNat address, kind } := by
  unfold Header.read
  split
  · rfl
  · cases field line bs 1 2 with
    | error e => rfl
    | ok count =>
      simp only [bind, Except.bind, pure, Except.pure]
      split
      · rfl
      · cases field line bs 3 4 with
        | error e => rfl
        | ok address => cases field line bs 7 2 <;> rfl

theorem Header.Heads.read_eq {h : Header} (heads : h.Heads text) (line : Nat) :
    Header.read line (encode text) = .ok h := by
  rw [Header.read_eq, if_neg (Nat.not_lt.mpr heads.long), field_of_good line heads.count (by decide)]
  simp only
  rw [if_neg (Nat.not_lt.mpr heads.complete), field_of_good line heads.address (by decide),
    field_of_good line heads.kind (by decide)]
  simp only [UInt16.ofNat_toNat]

theorem Header.Heads.unique {h h' : Header} (heads : h.Heads text) (heads' : h'.Heads text) : h = h' := by
  have same := heads.read_eq 0
  rw [heads'.read_eq] at same
  exact (Except.ok.inj same).symm

theorem Header.Heads.ne_nil {h : Header} (heads : h.Heads text) : text ≠ [] := by
  rintro rfl
  have long := heads.long
  contradiction

/-! ### Every line reads as an entry or has a defect -/

theorem dataFields_or_bad (text : List Char) (n : Nat) :
    (∃ bytes, DataFields text bytes ∧ bytes.length = n) ∨
      ∃ bytes cause, DataFields text bytes ∧ bytes.length < n ∧ BadField text (9 + 2 * bytes.length) 2 cause := by
  induction n with
  | zero => exact .inl ⟨[], nofun, rfl⟩
  | succ n ih =>
    rcases ih with ⟨bytes, fields, rfl⟩ | ⟨bytes, cause, fields, more, bad⟩
    · rcases field_or_bad text (9 + 2 * bytes.length) 2 with ⟨v, good⟩ | ⟨cause, bad⟩
      · refine .inl ⟨bytes ++ [.ofNat v], fun k b found => ?_, List.length_append⟩
        rcases Nat.lt_trichotomy k bytes.length with before | rfl | behind
        · rw [List.getElem?_append_left before] at found
          exact fields k b found
        · rw [List.getElem?_concat_length] at found
          cases found
          rwa [Utf8.toNat_ofNat_byte good.lt]
        · rw [List.getElem?_eq_none (by simp; omega)] at found
          cases found
      · exact .inr ⟨bytes, cause, fields, Nat.lt_succ_self _, bad⟩
    · exact .inr ⟨bytes, cause, fields, Nat.lt_succ_of_lt more, bad⟩

theorem Header.Heads.reads_or_defect {h : Header} (heads : h.Heads text) (trims : Trims raw text) (line : Nat) :
    (∃ entry, Reads raw entry) ∨ ∃ chunks e, Defect line raw chunks e := by
  by_cases ends : h.kind = 1
  · exact .inl ⟨_, .finish trims heads ends⟩
  by_cases data : h.kind = 0
  · rcases dataFields_or_bad text h.count with ⟨bytes, fields, whole⟩ | ⟨bytes, cause, fields, more, bad⟩
    · exact .inl ⟨_, .data trims heads data fields whole⟩
    · exact .inr ⟨_, _, .data trims heads data fields more bad⟩
  · exact .inl ⟨_, .skipped trims heads ⟨data, ends⟩⟩

theorem reads_or_defect (line : Nat) (raw : Bytes) :
    (∃ entry, Reads raw entry) ∨ ∃ chunks e, Defect line raw chunks e := by
  rcases trims_or_not_text raw with ⟨text, trims⟩ | h
  · by_cases empty : text = []
    · subst empty
      exact .inl ⟨_, .blank trims⟩
    by_cases short : (encode text).length < 3
    · exact .inr ⟨_, _, .short trims empty short⟩
    have long := Nat.le_of_not_lt short
    rcases field_or_bad text 1 2 with ⟨n, count⟩ | ⟨cause, bad⟩
    · by_cases truncated : (encode text).length < 11 + 2 * n
      · exact .inr ⟨_, _, .truncated trims long count truncated⟩
      have complete := Nat.le_of_not_lt truncated
      rcases field_or_bad text 3 4 with ⟨a, address⟩ | ⟨cause, bad⟩
      · rcases field_or_bad text 7 2 with ⟨k, kind⟩ | ⟨cause, bad⟩
        · have word : (UInt16.ofNat a).toNat = a := UInt16.toNat_ofNat_of_lt' address.lt
          have heads : Header.Heads ⟨n, .ofNat a, k⟩ text := ⟨long, count, complete, by rwa [word], kind⟩
          exact heads.reads_or_defect trims line
        · exact .inr ⟨_, _, .kind trims count complete address bad⟩
      · exact .inr ⟨_, _, .address trims count complete bad⟩
    · exact .inr ⟨_, _, .count trims long bad⟩
  · exact .inr ⟨_, _, .notText h⟩

/-! ### What the loader does with a line -/

theorem lift_ok_bind {μ : Type} (v : α) (f : α → EStateM Error μ β) : (lift (.ok v) >>= f) = f v := rfl

theorem lift_error_bind {μ : Type} (e : Error) (f : α → EStateM Error μ β) : (lift (.error e) >>= f) = throw e := rfl

theorem Chunk.cells_cons (a : UInt16) (b : UInt8) (bytes : Bytes) :
    Chunk.cells ⟨a, b :: bytes⟩ = (a, b) :: Chunk.cells ⟨a + 1, bytes⟩ := by
  have next (k : Nat) : a + UInt16.ofNat (k + 1) = a + 1 + UInt16.ofNat k := by
    rw [UInt16.ofNat_add, UInt16.add_comm (.ofNat k), UInt16.add_assoc]
    rfl
  unfold cells
  simp only [List.mapIdx_cons, next]
  rw [show a + UInt16.ofNat 0 = a from UInt16.add_zero a]

section Loading

variable {μ : Type} [Bus μ] {written k : Nat} {a : UInt16} {rest : List Bytes} {bytes : Bytes}

/-- Stores each byte at its address, in order; the first failure ends it. -/
def storeCells : List (UInt16 × UInt8) → EStateM Error μ Unit
  | [] => pure ()
  | (a, b) :: rest => do
    storeByte a b
    storeCells rest

theorem loadData_append (line : Nat) (fields : ∀ i b, bytes[i]? = some b → Field text (9 + 2 * (k + i)) 2 b.toNat)
    (more : Nat) :
    (loadData line (encode text) a k (bytes.length + more) : EStateM Error μ Unit) =
      storeCells (Chunk.cells ⟨a, bytes⟩) >>= fun _ =>
        loadData line (encode text) (a + .ofNat bytes.length) (k + bytes.length) more := by
  induction bytes generalizing a k with
  | nil =>
    rw [List.length_nil, Nat.zero_add, Nat.add_zero, show a + UInt16.ofNat 0 = a from UInt16.add_zero a]
    rfl
  | cons b bytes ih =>
    have first : Field text (9 + 2 * k) 2 b.toNat := fields 0 b rfl
    have later : ∀ i b, bytes[i]? = some b → Field text (9 + 2 * (k + 1 + i)) 2 b.toNat := by
      intro i b found
      rw [show k + 1 + i = k + (i + 1) by omega]
      exact fields (i + 1) b found
    have next : a + 1 + UInt16.ofNat bytes.length = a + UInt16.ofNat (bytes.length + 1) := by
      rw [UInt16.ofNat_add, UInt16.add_comm (.ofNat bytes.length), UInt16.add_assoc]
      rfl
    rw [List.length_cons, show bytes.length + 1 + more = bytes.length + more + 1 by omega, loadData,
      field_of_good line first (by decide), lift_ok_bind, UInt8.ofNat_toNat, Chunk.cells_cons, storeCells, ih later,
      next, bind_assoc, show k + 1 + bytes.length = k + (bytes.length + 1) by omega]

theorem loadData_of_fields (line more : Nat) (fields : DataFields text bytes) :
    (loadData line (encode text) a 0 (bytes.length + more) : EStateM Error μ Unit) =
      storeCells (Chunk.cells ⟨a, bytes⟩) >>= fun _ =>
        loadData line (encode text) (a + .ofNat bytes.length) bytes.length more := by
  have first : ∀ i b, bytes[i]? = some b → Field text (9 + 2 * (0 + i)) 2 b.toNat := by
    intro i b found
    rw [Nat.zero_add]
    exact fields i b found
  rw [loadData_append line first more, Nat.zero_add]

theorem cells_singleton (c : Chunk) : cells [c] = c.cells := List.flatMap_singleton _ _

theorem Chunk.length_cells (c : Chunk) : c.cells.length = c.data.length := List.length_mapIdx

theorem loadLines_of_heads {h : Header} (trims : Trims raw text) (heads : h.Heads text) :
    (loadLines line written (raw :: rest) : EStateM Error μ Nat) =
      if h.kind = 1 then pure written
      else if h.kind = 0 then do
        loadData line (encode text) h.address 0 h.count
        loadLines (line + 1) (written + h.count) rest
      else loadLines (line + 1) written rest := by
  rw [loadLines, trimLine_of_trims trims, lift_ok_bind, isEmpty_encode heads.ne_nil, if_neg Bool.false_ne_true,
    heads.read_eq, lift_ok_bind, Header.isEnd, Header.isData]
  simp only [decide_eq_true_eq]

/-- The loader stores what a line wants stored, counts it and goes on. -/
theorem loadLines_reads {entry : Entry} (h : Reads raw entry) (goes : entry ≠ .finish) :
    (loadLines line written (raw :: rest) : EStateM Error μ Nat) =
      storeCells (cells entry.chunks) >>= fun _ =>
        loadLines (line + 1) (written + (cells entry.chunks).length) rest := by
  cases h with
  | blank trims =>
    rw [loadLines, trimLine_of_trims trims, lift_ok_bind]
    rfl
  | skipped trims heads other =>
    rw [loadLines_of_heads trims heads, if_neg other.2, if_neg other.1]
    rfl
  | finish => exact absurd rfl goes
  | @data _ h bytes trims heads kind fields whole =>
    have stored := loadData_of_fields (μ := μ) (a := h.address) line 0 fields
    rw [Nat.add_zero, whole] at stored
    rw [loadLines_of_heads trims heads, if_neg (by omega), if_pos kind, stored, Entry.chunks, cells_singleton,
      Chunk.length_cells, ← whole, bind_assoc]
    rfl

theorem loadLines_finish (h : Reads raw .finish) :
    (loadLines line written (raw :: rest) : EStateM Error μ Nat) = pure written := by
  cases h with
  | finish trims heads kind => rw [loadLines_of_heads trims heads, if_pos kind]

theorem loadLines_of_header_error {e : Error} (trims : Trims raw text) (some : text ≠ [])
    (h : Header.read line (encode text) = .error e) :
    (loadLines line written (raw :: rest) : EStateM Error μ Nat) = throw e := by
  rw [loadLines, trimLine_of_trims trims, lift_ok_bind, isEmpty_encode some, if_neg Bool.false_ne_true, h,
    lift_error_bind]

/-- The loader stores what stands in front of a defect and gives up. -/
theorem loadLines_defect {chunks : List Chunk} {e : Error} (h : Defect line raw chunks e) :
    (loadLines line written (raw :: rest) : EStateM Error μ Nat) =
      storeCells (cells chunks) >>= fun _ => throw e := by
  have ne_nil {n : Nat} {text : List Char} (long : n + 1 ≤ (encode text).length) : text ≠ [] := by
    rintro rfl
    contradiction
  cases h with
  | notText h =>
    rw [loadLines, trimLine_of_not_text h, lift_error_bind]
    rfl
  | short trims some h =>
    rw [loadLines_of_header_error trims some (by rw [Header.read_eq, if_pos h])]
    rfl
  | count trims long bad =>
    rw [loadLines_of_header_error trims (ne_nil long)
      (by rw [Header.read_eq, if_neg (by omega), field_of_bad line bad (by decide) (by decide)])]
    rfl
  | @truncated text n trims long count h =>
    have read : Header.read line (encode text) = .error (.lineTooShort line) := by
      rw [Header.read_eq, if_neg (by omega), field_of_good line count (by decide)]
      exact if_pos h
    rw [loadLines_of_header_error trims (ne_nil long) read]
    rfl
  | @address text n cause trims count complete bad =>
    have read : Header.read line (encode text) = .error (.badHex line cause) := by
      rw [Header.read_eq, if_neg (by omega), field_of_good line count (by decide)]
      simp only
      rw [if_neg (by omega), field_of_bad line bad (by decide) (by decide)]
    rw [loadLines_of_header_error trims (ne_nil (n := 10 + 2 * n) (by omega)) read]
    rfl
  | @kind text n a cause trims count complete address bad =>
    have read : Header.read line (encode text) = .error (.badHex line cause) := by
      rw [Header.read_eq, if_neg (by omega), field_of_good line count (by decide)]
      simp only
      rw [if_neg (by omega), field_of_good line address (by decide), field_of_bad line bad (by decide) (by decide)]
    rw [loadLines_of_header_error trims (ne_nil (n := 10 + 2 * n) (by omega)) read]
    rfl
  | @data text h bytes cause trims heads kind fields more bad =>
    obtain ⟨missing, whole⟩ : ∃ missing, h.count = bytes.length + (missing + 1) :=
      ⟨h.count - bytes.length - 1, by omega⟩
    rw [loadLines_of_heads trims heads, if_neg (by omega), if_pos kind, whole, loadData_of_fields line _ fields,
      loadData, field_of_bad line bad (by decide) (by decide), lift_error_bind, cells_singleton, bind_assoc]
    rfl

end Loading

end Image

end Msp430
