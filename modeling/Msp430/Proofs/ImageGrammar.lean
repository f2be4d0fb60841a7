import Msp430.Proofs.ImageLines

/-!
# The grammar of images

Only the lines up to the first end record count. If all of them are good, the loader stores the bytes of their
data records; if not, it stores those in front of the first defect, which it reports. `load_grammar` says so
of every image and every memory.
-/

namespace Msp430

/-- Stores each byte at its address, in order. -/
def Memory.storeCells (m : Memory) (cells : List (UInt16 × UInt8)) : Memory :=
  cells.foldl (fun m c => m.storeByte c.1 c.2) m

namespace Image

/-! ### Lines -/

theorem lines_append {raw : Bytes} (inside : ∀ b ∈ raw, b ≠ 0x0A) (rest : Bytes) :
    lines (raw ++ 0x0A :: rest) = raw :: lines rest := by
  induction raw with
  | nil => rfl
  | cons b raw ih =>
    obtain ⟨other, inside⟩ := List.forall_mem_cons.mp inside
    rw [List.cons_append, lines, if_neg other, ih inside]

theorem lines_of_no_end {raw : Bytes} (inside : ∀ b ∈ raw, b ≠ 0x0A) : lines raw = [raw] := by
  induction raw with
  | nil => rfl
  | cons b raw ih =>
    obtain ⟨other, inside⟩ := List.forall_mem_cons.mp inside
    rw [lines, if_neg other, ih inside]

/-- The lines have no line ends in them and give the image when they are joined by line ends. -/
theorem lines_joined (image : Bytes) :
    lines image ≠ [] ∧ (∀ raw ∈ lines image, ∀ b ∈ raw, b ≠ 0x0A) ∧ [0x0A].intercalate (lines image) = image := by
  induction image with
  | nil => exact ⟨List.cons_ne_nil _ _, by simp [lines], rfl⟩
  | cons b rest ih =>
    obtain ⟨some, inside, joined⟩ := ih
    rw [lines]
    split
    · next ends =>
      refine ⟨List.cons_ne_nil _ _, List.forall_mem_cons.mpr ⟨nofun, inside⟩, ?_⟩
      rw [List.intercalate_cons_of_ne_nil some, joined, ends]
      rfl
    · next other =>
      split
      · next line others shape =>
        rw [shape] at inside joined
        obtain ⟨here, later⟩ := List.forall_mem_cons.mp inside
        refine ⟨List.cons_ne_nil _ _,
          List.forall_mem_cons.mpr ⟨List.forall_mem_cons.mpr ⟨other, here⟩, later⟩, ?_⟩
        cases others with
        | nil =>
          rw [List.intercalate_singleton] at joined ⊢
          rw [joined]
        | cons next others =>
          rw [List.intercalate_cons_cons] at joined ⊢
          rw [← joined]
          rfl
      · next none => exact absurd none some

/-! ### The good lines and the first defect -/

/-- Good lines without an end record, and what they want stored. -/
inductive Scans : List Bytes → List Chunk → Prop where
  | nil : Scans [] []
  | cons (reads : Reads raw entry) (goes : entry ≠ .finish) (rest : Scans raws chunks) :
      Scans (raw :: raws) (entry.chunks ++ chunks)

/-- Lines that are good up to the first end record, if there is one. -/
inductive Holds : List Bytes → List Chunk → Prop where
  | all (scans : Scans raws chunks) : Holds raws chunks
  | upTo (scans : Scans before chunks) (ends : Reads raw .finish) : Holds (before ++ raw :: after) chunks

/-- Lines from number `line` on with a defect before any end record, and what is to be stored before it. -/
inductive Breaks (line : Nat) : List Bytes → List Chunk → Error → Prop where
  | at (scans : Scans before chunks) (defect : Defect (line + before.length) raw stored e) :
      Breaks line (before ++ raw :: after) (chunks ++ stored) e

variable {raw : Bytes} {raws before after : List Bytes} {chunks : List Chunk} {line : Nat} {e : Error}

theorem Holds.cons {entry : Entry} (h : Holds raws chunks) (reads : Reads raw entry) (goes : entry ≠ .finish) :
    Holds (raw :: raws) (entry.chunks ++ chunks) := by
  cases h with
  | all scans => exact .all (.cons reads goes scans)
  | upTo scans ends => exact .upTo (.cons reads goes scans) ends

theorem holds_or_breaks (line : Nat) (raws : List Bytes) :
    (∃ chunks, Holds raws chunks) ∨ ∃ chunks e, Breaks line raws chunks e := by
  induction raws generalizing line with
  | nil => exact .inl ⟨[], .all .nil⟩
  | cons raw raws ih =>
    rcases reads_or_defect line raw with ⟨entry, reads⟩ | ⟨stored, e, defect⟩
    · by_cases ends : entry = .finish
      · subst ends
        exact .inl ⟨[], .upTo .nil reads⟩
      rcases ih (line + 1) with ⟨chunks, holds⟩ | ⟨chunks, e, breaks⟩
      · exact .inl ⟨_, holds.cons reads ends⟩
      · obtain ⟨scans, defect⟩ := breaks
        rw [Nat.add_assoc, Nat.add_comm 1] at defect
        exact .inr ⟨_, e, .at (.cons reads ends scans) defect⟩
    · exact .inr ⟨_, e, .at .nil defect⟩

/-! ### What the loader does with the lines -/

section Loading

variable {μ : Type} [Bus μ] {written : Nat}

theorem storeCells_append (front back : List (UInt16 × UInt8)) :
    (storeCells (front ++ back) : EStateM Error μ Unit) = storeCells front >>= fun _ => storeCells back := by
  induction front with
  | nil => rfl
  | cons c front ih => rw [List.cons_append, storeCells, storeCells, ih, bind_assoc]

theorem cells_append (front back : List Chunk) : cells (front ++ back) = cells front ++ cells back :=
  List.flatMap_append

theorem loadLines_scans (line written : Nat) (h : Scans before chunks) (rest : List Bytes) :
    (loadLines line written (before ++ rest) : EStateM Error μ Nat) =
      storeCells (cells chunks) >>= fun _ =>
        loadLines (line + before.length) (written + (cells chunks).length) rest := by
  induction h generalizing line written with
  | nil => rfl
  | @cons raw entry raws chunks reads goes scans ih =>
    rw [List.cons_append, loadLines_reads reads goes, ih, cells_append, storeCells_append, bind_assoc,
      List.length_append, List.length_cons, Nat.add_assoc line, Nat.add_comm 1, Nat.add_assoc written]

theorem loadLines_holds (h : Holds raws chunks) :
    (loadLines line written raws : EStateM Error μ Nat) =
      storeCells (cells chunks) >>= fun _ => pure (written + (cells chunks).length) := by
  cases h with
  | all scans =>
    have whole := loadLines_scans (μ := μ) line written scans []
    rwa [List.append_nil] at whole
  | upTo scans ends => simp only [loadLines_scans line written scans, loadLines_finish ends]

theorem loadLines_breaks (h : Breaks line raws chunks e) :
    (loadLines line written raws : EStateM Error μ Nat) = storeCells (cells chunks) >>= fun _ => throw e := by
  obtain ⟨scans, defect⟩ := h
  simp only [loadLines_scans line written scans, loadLines_defect defect, cells_append, storeCells_append, bind_assoc]

/-- A good image is loaded by clearing the memory and storing its bytes. -/
theorem load_holds {image : Bytes} (h : Holds (lines image) chunks) :
    (load image : EStateM Error μ Nat) = do
      modify Bus.clear
      storeCells (cells chunks)
      return (cells chunks).length := by
  rw [load, loadLines_holds h, Nat.zero_add]

end Loading

/-! ### Flat memory -/

theorem storeCells_flat (cells : List (UInt16 × UInt8)) (m : Memory) : storeCells cells m = .ok () (m.storeCells cells) := by
  induction cells generalizing m with
  | nil => rfl
  | cons c cells ih => exact ih (m.storeByte c.1 c.2)

theorem load_flat {image : Bytes} (h : Holds (lines image) chunks) (m : Memory) :
    load image m = .ok (cells chunks).length (m.clear.storeCells (cells chunks)) := by
  rw [load_holds h]
  exact Access.bind_eq_ok.mpr ⟨(), m.clear, rfl, Access.bind_eq_ok.mpr ⟨(), _, storeCells_flat _ _, rfl⟩⟩

theorem load_broken {image : Bytes} (h : Breaks 1 (lines image) chunks e) (m : Memory) :
    load image m = .error e (m.clear.storeCells (cells chunks)) := by
  rw [load, loadLines_breaks h]
  refine Access.bind_eq_error.mpr (.inr ⟨(), m.clear, rfl, ?_⟩)
  exact Access.bind_eq_error.mpr (.inr ⟨(), _, storeCells_flat _ _, rfl⟩)

/-! ### Which images are loaded -/

theorem Reads.ne_finish {entry : Entry} (h : Reads raw entry) (goes : entry ≠ .finish) : ¬Reads raw .finish := by
  intro ends
  cases ends with
  | finish trims heads kind =>
    cases h with
    | blank trims' => exact heads.ne_nil (trims.unique trims')
    | skipped trims' heads' other =>
      obtain rfl := trims.unique trims'
      obtain rfl := heads.unique heads'
      exact other.2 kind
    | finish => exact goes rfl
    | data trims' heads' kind' =>
      obtain rfl := trims.unique trims'
      obtain rfl := heads.unique heads'
      omega

theorem Reads.not_defect {entry : Entry} (h : Reads raw entry) : ¬Defect line raw chunks e := by
  intro defect
  have bad : loadLines line 0 [raw] Memory.empty = .error e (Memory.empty.storeCells (cells chunks)) := by
    rw [loadLines_defect defect]
    exact Access.bind_eq_error.mpr (.inr ⟨(), _, storeCells_flat _ _, rfl⟩)
  have good : ∃ chunks, Holds [raw] chunks := by
    by_cases ends : entry = .finish
    · subst ends
      exact ⟨[], .upTo .nil h⟩
    · exact ⟨_, Holds.cons (.all .nil) h ends⟩
  obtain ⟨stored, holds⟩ := good
  rw [loadLines_holds holds] at bad
  rcases Access.bind_eq_error.mp bad with failed | ⟨_, _, _, returned⟩
  · rw [storeCells_flat] at failed
    cases failed
  · cases returned

theorem Scans.good (h : Scans raws chunks) : ∀ raw ∈ raws, ∃ entry, Reads raw entry ∧ entry ≠ .finish := by
  induction h with
  | nil => exact nofun
  | cons reads goes _ ih => exact List.forall_mem_cons.mpr ⟨⟨_, reads, goes⟩, ih⟩

/-- Every line that counts is good. -/
theorem Holds.good (h : Holds (before ++ raw :: after) chunks) (counts : ∀ l ∈ before, ¬Reads l .finish) :
    ∃ entry, Reads raw entry := by
  generalize shape : before ++ raw :: after = raws at h
  cases h with
  | all scans =>
    subst shape
    obtain ⟨entry, reads, -⟩ := scans.good raw (List.mem_append_right _ List.mem_cons_self)
    exact ⟨entry, reads⟩
  | @upTo front _ last behind scans ends =>
    -- The line stands before the end record, is the end record itself, or stands behind it and does not count.
    rcases List.append_eq_append_iff.mp shape with ⟨inner, rfl, tail⟩ | ⟨inner, rfl, tail⟩
    · cases inner with
      | nil =>
        obtain ⟨rfl, -⟩ := List.cons.inj tail
        exact ⟨_, ends⟩
      | cons next inner =>
        obtain ⟨rfl, -⟩ := List.cons.inj tail
        obtain ⟨entry, reads, -⟩ := scans.good raw (List.mem_append_right _ List.mem_cons_self)
        exact ⟨entry, reads⟩
    · cases inner with
      | nil =>
        obtain ⟨rfl, -⟩ := List.cons.inj tail
        exact ⟨_, ends⟩
      | cons next inner =>
        obtain ⟨rfl, -⟩ := List.cons.inj tail
        exact absurd ends (counts last (List.mem_append_right _ List.mem_cons_self))

theorem load_ok_iff (image : Bytes) (m : Memory) :
    (∃ n m', load image m = .ok n m') ↔
      ∀ before raw after, lines image = before ++ raw :: after → (∀ l ∈ before, ¬Reads l .finish) →
        ∃ entry, Reads raw entry := by
  constructor
  · rintro ⟨n, m', loaded⟩ before raw after shape counts
    rcases holds_or_breaks 1 (lines image) with ⟨chunks, holds⟩ | ⟨chunks, e, breaks⟩
    · rw [shape] at holds
      exact holds.good counts
    · rw [load_broken breaks] at loaded
      cases loaded
  · intro good
    rcases holds_or_breaks 1 (lines image) with ⟨chunks, holds⟩ | ⟨chunks, e, breaks⟩
    · exact ⟨_, _, load_flat holds m⟩
    · generalize shape : lines image = raws at breaks
      obtain ⟨scans, defect⟩ := breaks
      have counts : ∀ l ∈ _, ¬Reads l .finish := fun l member ends => by
        obtain ⟨entry, reads, goes⟩ := scans.good l member
        exact reads.ne_finish goes ends
      obtain ⟨entry, reads⟩ := good _ _ _ shape counts
      exact absurd defect reads.not_defect

theorem load_error_iff (image : Bytes) (m m' : Memory) (e : Error) :
    load image m = .error e m' ↔
      ∃ before raw after chunks stored, lines image = before ++ raw :: after ∧ Scans before chunks ∧
        Defect (before.length + 1) raw stored e ∧ m' = m.clear.storeCells (cells (chunks ++ stored)) := by
  constructor
  · intro failed
    rcases holds_or_breaks 1 (lines image) with ⟨chunks, holds⟩ | ⟨chunks, e', breaks⟩
    · rw [load_flat holds] at failed
      cases failed
    · rw [load_broken breaks] at failed
      cases failed
      generalize lines image = raws at breaks
      obtain ⟨scans, defect⟩ := breaks
      rw [Nat.add_comm] at defect
      exact ⟨_, _, _, _, _, rfl, scans, defect, rfl⟩
  · rintro ⟨before, raw, after, chunks, stored, shape, scans, defect, rfl⟩
    rw [Nat.add_comm] at defect
    have breaks : Breaks 1 (lines image) (chunks ++ stored) e := by
      rw [shape]
      exact .at scans defect
    exact load_broken breaks m

/-- The lines of an image are what stands between its line ends. It is loaded if every line up to the first end record
is good. If not, the first line with a defect decides the error, and the bytes in front of the defect have been
stored. -/
theorem load_grammar (image : Bytes) (m : Memory) :
    (lines image ≠ [] ∧ (∀ raw ∈ lines image, ∀ b ∈ raw, b ≠ 0x0A) ∧
      [0x0A].intercalate (lines image) = image) ∧
    ((∃ n m', load image m = .ok n m') ↔
      ∀ before raw after, lines image = before ++ raw :: after → (∀ l ∈ before, ¬Reads l .finish) →
        ∃ entry, Reads raw entry) ∧
    ∀ e m', load image m = .error e m' ↔
      ∃ before raw after chunks stored, lines image = before ++ raw :: after ∧ Scans before chunks ∧
        Defect (before.length + 1) raw stored e ∧ m' = m.clear.storeCells (cells (chunks ++ stored)) :=
  ⟨lines_joined image, load_ok_iff image m, fun e m' => load_error_iff image m m' e⟩

end Image

end Msp430
