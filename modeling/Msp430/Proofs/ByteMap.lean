import Mathlib.Data.List.Induction
import Msp430.Proofs.Dialogue
import Msp430.Proofs.FlatMemory

/-!
# Memory as a map of bytes

After any stores, clearings and removals of output, a memory that was empty shows at each address the byte last put
there, whichever way it is read, and the console holds what was printed since it was last taken.
-/

namespace Msp430

open Access

namespace Memory

/-- What can be done to a memory. -/
inductive Edit where
  | byte (a : UInt16) (b : UInt8)
  | word (a v : UInt16)
  | clear
  | take

namespace Edit

/-- Makes the edit. Only the taking of the output has bytes to answer. -/
def perform : Edit → Access Memory Bytes
  | byte a b => (fun _ => []) <$> Bus.storeByte a b
  | word a v => (fun _ => []) <$> Bus.storeWord a v
  | clear => fun m => .ok [] (Bus.clear m)
  | take => fun m => .ok m.takeConsole.1 m.takeConsole.2

/-- Whether the edit succeeds. -/
def Accepted : Edit → Prop
  | word a _ => TakesWord a
  | _ => True

/-- The byte that the edit puts at an address. A word puts its low byte there and its high byte at the next. -/
def puts? (x : UInt16) : Edit → Option UInt8
  | byte a b => if x = a then some b else none
  | word a v =>
    if TakesWord a then
      if x = a then some (lowByte v) else if x = a + 1 then some (highByte v) else none
    else none
  | _ => none

/-- The byte that the edit prints. -/
def prints? : Edit → Option UInt8
  | byte a b => if isConsole a then some b else none
  | word a v => if TakesWord a ∧ isConsole a then some (lowByte v) else none
  | _ => none

end Edit

/-- The memory after edits one after the other, each made whether or not those before it have failed. -/
def edited (m : Memory) (es : List Edit) : Memory := es.foldl (fun m e => endState (e.perform m)) m

/-! In a history the newest edit comes first. -/

/-- The byte last put at an address since the last clearing. -/
def held (x : UInt16) : List Edit → UInt8
  | [] => 0
  | .clear :: _ => 0
  | e :: older => (e.puts? x).getD (held x older)

/-- What has been printed since the output was last taken. -/
def printed : List Edit → Bytes
  | [] => []
  | .take :: _ => []
  | e :: older => printed older ++ e.prints?.toList

/-! ### What an edit does -/

variable {m m' : Memory} {a v x : UInt16} {f : Fault} {older : List Edit}

theorem isConsole_iff : isConsole a = true ↔ a.toNat = 0x05CE ∨ a.toNat = 0x05CF := by
  simp [isConsole, ← UInt16.toNat_inj]

/-- The console cells are the two halves of one word. -/
theorem isConsole_next (taken : TakesWord a) : isConsole (a + 1) = isConsole a := by
  obtain ⟨even, -⟩ := taken
  have bound := a.toNat_lt
  rw [Bool.eq_iff_iff, isConsole_iff, isConsole_iff, UInt16.toNat_add, UInt16.toNat_one]
  omega

theorem byteAt_write_word (taken : TakesWord a) (m : Memory) (v x : UInt16) :
    (m.write .word a v).byteAt x =
      if isConsole x then m.byteAt x
      else if x = a then lowByte v else if x = a + 1 then highByte v else m.byteAt x := by
  have apart : x = a → x ≠ a + 1 := by
    rintro rfl same
    have := congrArg UInt16.toNat same
    rw [UInt16.toNat_add, UInt16.toNat_one] at this
    omega
  have halves := isConsole_next taken
  unfold write
  cases port : isConsole a with
  | true =>
    rw [port] at halves
    simp only [if_true, byteAt_print]
    split
    · rfl
    · next plain =>
      rw [if_neg (by rintro rfl; exact plain port), if_neg (by rintro rfl; exact plain halves)]
  | false =>
    rw [port] at halves
    simp only [Bool.false_eq_true, if_false, byteAt_put]
    by_cases low : x = a
    · subst low
      rw [if_neg (apart rfl), if_pos rfl, port, if_neg Bool.false_ne_true, if_pos rfl]
    · by_cases high : x = a + 1
      · subst high
        rw [if_pos rfl, halves, if_neg Bool.false_ne_true, if_neg low, if_pos rfl]
      · rw [if_neg high, if_neg low, if_neg low, if_neg high, ite_self]

namespace Edit

/-- The memory holds what the history says. -/
structure Left (older : List Edit) (m : Memory) : Prop where
  byteAt : ∀ x, m.byteAt x = if isConsole x then 0 else held x older
  console : m.console.toList = printed older

theorem left_empty : Left [] empty where
  byteAt x := by simp [held]
  console := rfl

theorem left_byte (left : Left older m) (a : UInt16) (b : UInt8) : Left (byte a b :: older) (m.storeByte a b) where
  byteAt x := by
    rw [byteAt_storeByte, left.byteAt x]
    by_cases here : x = a
    · subst here
      cases port : isConsole x <;> simp [held, puts?]
    · simp [here, held, puts?]
  console := by
    unfold storeByte
    cases port : isConsole a <;> simp [printed, prints?, print, left.console, port]

theorem perform_taken (taken : TakesWord a) (m : Memory) (v : UInt16) :
    (word a v).perform m = .ok [] (m.write .word a v) :=
  map_eq_ok.mpr ⟨(), storeWord_taken taken m v, rfl⟩

theorem perform_refused (misplaced : Misplaced a f) (m : Memory) (v : UInt16) : (word a v).perform m = .error f m :=
  map_eq_error.mpr (storeWord_refused misplaced m v)

theorem left_word (left : Left older m) (a v : UInt16) :
    Left (word a v :: older) (endState ((word a v).perform m)) := by
  by_cases taken : TakesWord a
  · rw [perform_taken taken]
    refine ⟨fun x => ?_, ?_⟩
    · refine (byteAt_write_word taken m v x).trans ?_
      rw [left.byteAt x]
      cases port : isConsole x with
      | true => rfl
      | false =>
        simp only [Bool.false_eq_true, if_false, held, puts?, taken, if_true]
        split <;> [rfl; split <;> rfl]
    · change (m.write .word a v).console.toList = _
      unfold write
      cases port : isConsole a <;> simp [printed, prints?, print, left.console, port, taken]
  · obtain ⟨f, misplaced⟩ := exists_misplaced taken
    rw [perform_refused misplaced]
    refine ⟨fun x => ?_, ?_⟩
    · have before := left.byteAt x
      simpa [endState, held, puts?, taken] using before
    · have before := left.console
      simpa [endState, printed, prints?, taken] using before

theorem left_perform (e : Edit) (left : Left older m) : Left (e :: older) (endState (e.perform m)) := by
  cases e with
  | byte a b => exact left_byte left a b
  | word a v => exact left_word left a v
  | clear =>
    refine ⟨fun x => ?_, left.console.trans (List.append_nil _).symm⟩
    change m.clear.byteAt x = if isConsole x then 0 else 0
    rw [byteAt_clear, ite_self]
  | take => exact ⟨left.byteAt, rfl⟩

theorem left_edited (es : List Edit) : Left es.reverse (empty.edited es) := by
  induction es using List.reverseRecOn with
  | nil => exact left_empty
  | append_singleton es e ih =>
    rw [List.reverse_concat, edited, List.foldl_append]
    exact left_perform e ih

end Edit

/-! ### What a memory shows -/

/-- Whatever is asked of the memory, it answers from these bytes and this output. What fails changes nothing. -/
structure Shows (m : Memory) (bytes : UInt16 → UInt8) (output : Bytes) : Prop where
  loadByte : ∀ a, Bus.loadByte a m = .ok (bytes a) m
  loadWord : ∀ a v m', Bus.loadWord a m = .ok v m' →
    v.toNat = (bytes a).toNat + 256 * (bytes (a + 1)).toNat ∧ m' = m
  loadWordFails : ∀ a f m', Bus.loadWord a m = .error f m' ↔ Misplaced a f ∧ m' = m
  fetch : ∀ a raw m', Bus.fetch a m = .ok raw m' → m.read a 6 = .ok raw.toList ∧ m' = m
  fetchFails : ∀ a, (∃ f m', Bus.fetch a m = .error f m') ↔ 0xFFFA < a.toNat ∨ a.toNat % 2 = 1
  read : ∀ a length data, m.read a length = .ok data →
    data.length = length.toNat ∧ ∀ k < length.toNat, data[k]? = some (bytes (a + .ofNat k))
  readFails : ∀ a length f, m.read a length = .error f ↔ 0x10000 < a.toNat + length.toNat ∧ f = .addressTooHigh a
  accepts : ∀ e : Edit, (∃ answer m', e.perform m = .ok answer m') ↔ e.Accepted
  refuses : ∀ (e : Edit) f m', e.perform m = .error f m' → m' = m
  fails : ∀ (t : Touch) f m', t.make m = .error f m' → m' = m
  console : m.console.toList = output
  takes : Edit.take.perform m = .ok output { m with console := #[] }

theorem toNat_word (m : Memory) (a : UInt16) :
    (m.word a).toNat = (m.byteAt a).toNat + 256 * (m.byteAt (a + 1)).toNat := by
  have low := (m.byteAt a).toNat_lt
  have high := (m.byteAt (a + 1)).toNat_lt
  rw [word, wordOf, UInt16.toNat_ofNat']
  omega

theorem read_of_fetch {raw : Vector UInt8 6} (fetched : m.fetch a = .ok raw) : m.read a 6 = .ok raw.toList := by
  unfold fetch at fetched
  split at fetched
  · cases fetched
  · next low =>
    split at fetched <;> cases fetched
    have within : ¬0x10000 < a.toNat + (6 : UInt16).toNat := by
      have bound : ¬0xFFFA < a.toNat := low
      have six : (6 : UInt16).toNat = 6 := rfl
      omega
    unfold read
    rw [if_neg within]
    rfl

theorem fetch_fails : (∃ f, m.fetch a = .error f) ↔ 0xFFFA < a.toNat ∨ a.toNat % 2 = 1 := by
  have bound : lastFetch < a ↔ 0xFFFA < a.toNat := UInt16.lt_iff_toNat_lt
  unfold fetch
  simp only [bound, mod_two_eq_one]
  split
  · next above => simp [above]
  · next below =>
    split
    · next odd => simp [odd]
    · next even => simp [below, even]

theorem same_of_failed {t : Touch} (failed : t.make m = .error f m') : m' = m := by
  cases t with
  | fetch a => exact (look_eq_error (f := (fetch · a)).mp failed).2
  | load w a =>
    cases w with
    | byte => exact (look_eq_error.mp (map_eq_error.mp failed)).2
    | word => exact (look_eq_error (f := (loadWord · a)).mp failed).2
  | store w a v =>
    cases w with
    | byte => cases failed
    | word => exact (change_eq_error (f := (storeWord · a v)).mp failed).2

theorem shows (m : Memory) : m.Shows m.byteAt m.console.toList where
  loadByte a := rfl
  loadWord a v m' loaded := by
    obtain ⟨found, rfl⟩ := look_eq_ok.mp loaded
    obtain ⟨-, rfl⟩ := loadWord_eq_ok.mp found
    exact ⟨toNat_word m' a, rfl⟩
  loadWordFails a f m' := by
    change look (·.loadWord a) m = _ ↔ _
    rw [look_eq_error, loadWord_eq_error]
  fetch a raw m' fetched := by
    obtain ⟨found, rfl⟩ := look_eq_ok.mp fetched
    exact ⟨read_of_fetch found, rfl⟩
  fetchFails a := by
    rw [← fetch_fails (m := m)]
    constructor
    · rintro ⟨f, m', failed⟩
      exact ⟨f, (look_eq_error.mp failed).1⟩
    · rintro ⟨f, failed⟩
      exact ⟨f, m, look_eq_error.mpr ⟨failed, rfl⟩⟩
  read a length data found := by
    obtain rfl := read_eq_ok found
    refine ⟨by simp, fun k within => ?_⟩
    simp [within]
  readFails a length f := by
    unfold read
    split
    · next past => simp [past, eq_comm]
    · next within => simp [within]
  accepts e := by
    cases e with
    | word a v =>
      constructor
      · rintro ⟨answer, m', made⟩
        by_contra refused
        obtain ⟨f, misplaced⟩ := exists_misplaced refused
        rw [Edit.perform_refused misplaced] at made
        cases made
      · intro taken
        exact ⟨[], m.write .word a v, Edit.perform_taken taken m v⟩
    | _ => exact ⟨fun _ => trivial, fun _ => ⟨_, _, rfl⟩⟩
  refuses e f m' failed := by
    cases e with
    | word a v => exact same_of_failed (t := .store .word a v) (map_eq_error.mp failed)
    | _ => cases failed
  fails t f m' := same_of_failed
  console := rfl
  takes := rfl

/-- After any edits of an empty memory, failed ones among them, it shows what the history of the edits says, and at the
console cells nothing. -/
theorem edited_shows (es : List Edit) :
    (empty.edited es).Shows (fun a => if isConsole a then 0 else held a es.reverse) (printed es.reverse) := by
  have left := Edit.left_edited es
  have bytes : (empty.edited es).byteAt = fun a => if isConsole a then 0 else held a es.reverse := funext left.byteAt
  rw [← bytes, ← left.console]
  exact shows _

/-- A byte over the high half of a word, and a word that does not fit. -/
example : [0x0200, 0x0201].map (held · [.word 0x0201 0xEEEE, .byte 0x0201 7, .word 0x0200 0xABCD]) = [0xCD, 7] := by
  decide

end Memory

end Msp430
