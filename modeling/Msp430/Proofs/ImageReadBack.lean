import Msp430.Proofs.Advance
import Msp430.Proofs.FlatMemory
import Msp430.Proofs.ImageWriting

/-!
# What an instance holds after a load

Each address holds the byte of the last record that covers it, or zero. The console cells hold nothing: what is
written to them is printed.
-/

namespace Msp430

namespace Image

/-- The byte that a chunk has for an address. -/
def Chunk.byte? (c : Chunk) (a : UInt16) : Option UInt8 := c.data[(a - c.address).toNat]?

variable {c : Chunk} {chunks before after : List Chunk} {a : UInt16} {b : UInt8}

theorem Chunk.byte?_here (a : UInt16) (b : UInt8) (bytes : Bytes) : Chunk.byte? ⟨a, b :: bytes⟩ a = some b := by
  unfold byte?
  rw [UInt16.sub_self]
  rfl

theorem Chunk.byte?_above {a' : UInt16} (other : a' ≠ a) (b : UInt8) (bytes : Bytes) :
    Chunk.byte? ⟨a, b :: bytes⟩ a' = Chunk.byte? ⟨a + 1, bytes⟩ a' := by
  unfold byte?
  have apart : a'.toNat ≠ a.toNat := fun same => other (UInt16.toNat_inj.mp same)
  have distance : (a' - a).toNat = (a' - (a + 1)).toNat + 1 := by
    have := a.toNat_lt
    have := a'.toNat_lt
    simp only [UInt16.toNat_sub, UInt16.toNat_add, UInt16.toNat_one]
    omega
  rw [distance, List.getElem?_cons_succ]

theorem Chunk.byte?_below {bytes : Bytes} (short : bytes.length < 0x10000) : Chunk.byte? ⟨a + 1, bytes⟩ a = none := by
  unfold byte?
  have distance : (a - (a + 1)).toNat = 0xFFFF := by
    have := a.toNat_lt
    simp only [UInt16.toNat_sub, UInt16.toNat_add, UInt16.toNat_one]
    omega
  rw [distance]
  exact List.getElem?_eq_none (Nat.le_of_lt_succ short)

end Image

namespace Memory

open Image

variable {m : Memory} {a : UInt16}

theorem storeCells_append (m : Memory) (front back : List (UInt16 × UInt8)) :
    m.storeCells (front ++ back) = (m.storeCells front).storeCells back := List.foldl_append

/-- A console cell keeps what it holds. -/
theorem byteAt_storeCells_console (port : isConsole a = true) (cells : List (UInt16 × UInt8)) (m : Memory) :
    (m.storeCells cells).byteAt a = m.byteAt a := by
  induction cells generalizing m with
  | nil => rfl
  | cons x cells ih =>
    refine (ih (m.storeByte x.1 x.2)).trans ?_
    rw [byteAt_storeByte, if_neg]
    rintro ⟨rfl, plain⟩
    rw [port] at plain
    cases plain

/-- Bytes for console cells are printed in order, and no others are. -/
theorem console_storeCells (cells : List (UInt16 × UInt8)) (m : Memory) :
    (m.storeCells cells).console.toList =
      m.console.toList ++ (cells.filter fun x => isConsole x.1).map Prod.snd := by
  induction cells generalizing m with
  | nil => exact (List.append_nil _).symm
  | cons x cells ih =>
    refine (ih (m.storeByte x.1 x.2)).trans ?_
    unfold storeByte
    by_cases port : isConsole x.1
    · rw [if_pos port, List.filter_cons, if_pos port, List.map_cons, print, Array.toList_push, List.append_assoc]
      rfl
    · rw [if_neg port, List.filter_cons, if_neg port, console_put]

/-- Storing a chunk puts its bytes where they belong and leaves the rest. -/
theorem byteAt_storeChunk (plain : isConsole a = false) (c : Chunk) (short : c.data.length ≤ 0x10000) (m : Memory) :
    (m.storeCells c.cells).byteAt a = (c.byte? a).getD (m.byteAt a) := by
  obtain ⟨address, data⟩ := c
  induction data generalizing address m with
  | nil => rfl
  | cons b data ih =>
    have rest := ih (m.storeByte address b) (address + 1) (Nat.le_of_lt short)
    rw [Chunk.cells_cons]
    refine rest.trans ?_
    by_cases here : a = address
    -- The later bytes do not come round to the first address, because they are fewer than the addresses.
    · subst here
      rw [Chunk.byte?_below short, Chunk.byte?_here, Option.getD_none, Option.getD_some, byteAt_storeByte,
        if_pos ⟨rfl, plain⟩]
    · rw [Chunk.byte?_above here, byteAt_storeByte, if_neg fun both => here both.1]

variable {chunks before after : List Chunk} {c : Chunk} {b : UInt8}

theorem byteAt_storeCells_uncovered (plain : isConsole a = false) (short : ∀ c ∈ chunks, c.data.length ≤ 0x10000)
    (none : ∀ c ∈ chunks, c.byte? a = none) (m : Memory) : (m.storeCells (Image.cells chunks)).byteAt a = m.byteAt a := by
  induction chunks generalizing m with
  | nil => rfl
  | cons c chunks ih =>
    obtain ⟨first, short⟩ := List.forall_mem_cons.mp short
    obtain ⟨here, none⟩ := List.forall_mem_cons.mp none
    rw [Image.cells, List.flatMap_cons, storeCells_append]
    refine (ih short none _).trans ?_
    rw [byteAt_storeChunk plain c first, here, Option.getD_none]

theorem byteAt_storeCells_last (plain : isConsole a = false)
    (short : ∀ d ∈ before ++ c :: after, d.data.length ≤ 0x10000) (byte : c.byte? a = some b)
    (last : ∀ d ∈ after, d.byte? a = none) (m : Memory) :
    (m.storeCells (Image.cells (before ++ c :: after))).byteAt a = b := by
  obtain ⟨-, these⟩ := List.forall_mem_append.mp short
  obtain ⟨this, behind⟩ := List.forall_mem_cons.mp these
  rw [cells_append, storeCells_append, Image.cells, Image.cells, List.flatMap_cons, storeCells_append]
  refine (byteAt_storeCells_uncovered plain behind last _).trans ?_
  rw [byteAt_storeChunk plain c this, byte, Option.getD_some]

theorem read_one (m : Memory) (a : UInt16) : m.read a 1 = .ok [m.byteAt a] := by
  have bound := a.toNat_lt
  have within : ¬0x10000 < a.toNat + (1 : UInt16).toNat := by
    change ¬0x10000 < a.toNat + 1
    omega
  unfold read
  rw [if_neg within]
  change Except.ok [m.byteAt (a + UInt16.ofNat 0)] = _
  rw [show a + UInt16.ofNat 0 = a from UInt16.add_zero a]

end Memory

namespace Image

/-- A record has at most 255 bytes. -/
theorem Reads.short {raw : Bytes} (h : Reads raw (.data c)) : c.data.length < 0x100 := by
  cases h with
  | data trims heads kind fields whole =>
    have bound := heads.count.lt
    rw [← whole] at bound
    exact bound

theorem Scans.short {raws : List Bytes} (h : Scans raws chunks) : ∀ c ∈ chunks, c.data.length < 0x100 := by
  induction h with
  | nil => exact nofun
  | @cons raw entry raws chunks reads goes rest ih =>
    intro c member
    rcases List.mem_append.mp member with here | later
    · cases entry with
      | data d =>
        obtain rfl := List.mem_singleton.mp here
        exact reads.short
      | _ => exact absurd here List.not_mem_nil
    · exact ih c later

theorem Holds.short {raws : List Bytes} (h : Holds raws chunks) : ∀ c ∈ chunks, c.data.length < 0x100 := by
  cases h with
  | all scans => exact scans.short
  | upTo scans _ => exact scans.short

end Image

theorem KeyValue.get_of_bytes {store : Store} {key : String} {content : Bytes}
    (h : store[key]? = some (.bytes content)) : get key store = .ok (some content) store := by
  refine Access.bind_eq_ok.mpr ⟨store, store, rfl, ?_⟩
  rw [h]
  rfl

namespace Bench

open Image

variable {b : Bench} {key : String} {image : Bytes} {chunks : List Chunk}

/-- What can be read of the chunks in `b'` after they were loaded into `b`. -/
structure ReadsBack (b b' : Bench) (chunks : List Chunk) : Prop where
  covered : ∀ before c after a byte, chunks = before ++ c :: after → c.byte? a = some byte →
    (∀ d ∈ after, d.byte? a = none) → Memory.isConsole a = false → b'.cpu.readMemory a 1 = .ok [byte]
  uncovered : ∀ a, (∀ c ∈ chunks, c.byte? a = none) → b'.cpu.readMemory a 1 = .ok [0]
  console : ∀ a, Memory.isConsole a = true → b'.cpu.readMemory a 1 = .ok [0]
  printed : b'.cpu.memory.console.toList =
    b.cpu.memory.console.toList ++ ((cells chunks).filter fun x => Memory.isConsole x.1).map Prod.snd

theorem loadImage_holds (stored : b.shared.store[key]? = some (.bytes image)) (holds : Holds (lines image) chunks) :
    ∃ b', loadImage key b = .ok (cells chunks).length b' ∧
      b'.cpu.memory = b.cpu.memory.clear.storeCells (cells chunks) := by
  have got : submit (KeyValue.get key) b = .ok (some image) b := by
    unfold submit
    rw [KeyValue.get_of_bytes stored]
  have loaded : loadBytes image b =
      .ok (cells chunks).length
        { b with cpu := { b.cpu with memory := b.cpu.memory.clear.storeCells (cells chunks) } } := by
    unfold loadBytes
    rw [load_flat holds]
  refine ⟨_, Access.bind_eq_ok.mpr ⟨_, _, got, Access.bind_eq_ok.mpr ⟨_, _, loaded, rfl⟩⟩, rfl⟩

theorem load_read_back (stored : b.shared.store[key]? = some (.bytes image)) (holds : Holds (lines image) chunks) :
    ∃ b', loadImage key b = .ok (cells chunks).length b' ∧ ReadsBack b b' chunks := by
  obtain ⟨b', loaded, memory⟩ := loadImage_holds stored holds
  have short : ∀ c ∈ chunks, c.data.length ≤ 0x10000 := fun c member => by
    have := holds.short c member
    omega
  have read (a : UInt16) : b'.cpu.readMemory a 1 = .ok [(b.cpu.memory.clear.storeCells (cells chunks)).byteAt a] := by
    rw [Instance.readMemory, memory, Memory.read_one]
  have console (a : UInt16) (port : Memory.isConsole a = true) : b'.cpu.readMemory a 1 = .ok [0] := by
    rw [read, Memory.byteAt_storeCells_console port, Memory.byteAt_clear]
  refine ⟨b', loaded, ?_, fun a none => ?_, console, ?_⟩
  · rintro before c after a byte rfl found last plain
    rw [read, Memory.byteAt_storeCells_last plain short found last]
  · by_cases port : Memory.isConsole a = true
    · exact console a port
    · rw [read, Memory.byteAt_storeCells_uncovered (Bool.eq_false_iff.mpr port) short none, Memory.byteAt_clear]
  · rw [memory, Memory.console_storeCells, Memory.console_clear]

/-- Two records, of which the second covers the first byte of the first; the other byte is for a console cell. -/
def portedImage : Bytes := Utf8.ofString ":0205CD004142ea\n:0105cd0043EA\r\n"

def ported : Bench where
  cpu := Instance.ofBoard (usualBoard "ported")
  shared := { store := (∅ : KeyValue.Store).insert "boot" (.bytes portedImage) }

def portedChunks : List Chunk := [⟨0x05CD, [0x41, 0x42]⟩, ⟨0x05CD, [0x43]⟩]

theorem portedImage_writes : Writes portedChunks portedImage := by
  have first : Spells ":0205CD004142ea".toList 0 ⟨0x05CD, [0x41, 0x42]⟩ := ⟨by decide, 0xEA, by decide⟩
  have second : Spells ":0105cd0043EA".toList 0 ⟨0x05CD, [0x43]⟩ := ⟨by decide, 0xEA, by decide⟩
  have lines := Writes.data first .feed (.data second .returnFeed .nil)
  have shape : Utf8.encode ":0205CD004142ea".toList ++ [0x0A] ++
      (Utf8.encode ":0105cd0043EA".toList ++ [0x0D, 0x0A] ++ []) = portedImage := by
    decide
  rwa [shape] at lines

theorem ported_stored : ported.shared.store["boot"]? = some (.bytes portedImage) :=
  Std.ExtTreeMap.getElem?_insert_self

theorem ported_read_back :
    ∃ b', loadImage "boot" ported = .ok 3 b' ∧ b'.cpu.readMemory 0x05CD 1 = .ok [0x43] ∧
      b'.cpu.readMemory 0x05CE 1 = .ok [0] ∧ b'.cpu.readMemory 0x05D0 1 = .ok [0] ∧
      b'.cpu.memory.console.toList = [0x42] := by
  obtain ⟨b', loaded, back⟩ := load_read_back ported_stored portedImage_writes.holds
  have covered := back.covered [⟨0x05CD, [0x41, 0x42]⟩] ⟨0x05CD, [0x43]⟩ [] 0x05CD 0x43 rfl (by decide) nofun (by decide)
  have uncovered := back.uncovered 0x05D0 (by decide)
  exact ⟨b', loaded, covered, back.console 0x05CE (by decide), uncovered, back.printed⟩

/-- A byte for a console cell cannot be read back. -/
theorem console_not_read_back :
    ¬∀ (b b' : Bench) (key : String) (image : Bytes) (chunks : List Chunk) (n : Nat),
      b.shared.store[key]? = some (.bytes image) → Writes chunks image → loadImage key b = .ok n b' →
      ∀ before c after a byte, chunks = before ++ c :: after → c.byte? a = some byte →
        (∀ d ∈ after, d.byte? a = none) → b'.cpu.readMemory a 1 = .ok [byte] := by
  intro kept
  obtain ⟨b', loaded, memory⟩ := loadImage_holds ported_stored portedImage_writes.holds
  have claimed := kept ported b' "boot" _ portedChunks _ ported_stored portedImage_writes loaded [] _ _ 0x05CE 0x42 rfl
    (by decide) (by decide)
  have port : Memory.isConsole 0x05CE = true := by decide
  rw [Instance.readMemory, memory, Memory.read_one, Memory.byteAt_storeCells_console port, Memory.byteAt_clear]
    at claimed
  cases claimed

end Bench

end Msp430
