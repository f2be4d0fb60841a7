import Msp430.Proofs.StoreDiscipline

/-!
# What indices name

An index counts from the front, a negative one from the end. Whichever command is given a first and a last index, it
works on the elements at the positions in between, both included, whether there are as many elements or not.
-/

namespace Msp430.KeyValue

/-- The position that an index names in a sequence of `n` elements, which need not be one of the sequence. -/
def position (n : Nat) (i : Int) : Int := if i < 0 then n + i else i

/-- There is an element at the position, and the position lies between those that the indices name. -/
def Covers (n : Nat) (first last : Int) (k : Nat) : Prop := k < n ∧ position n first ≤ k ∧ k ≤ position n last

instance (n : Nat) (first last : Int) (k : Nat) : Decidable (Covers n first last k) :=
  inferInstanceAs (Decidable (_ ∧ _))

/-- The elements at the covered positions, in order. -/
def covered (first last : Int) (xs : List α) : List α :=
  (xs.zipIdx.filter fun x => Covers xs.length first last x.2).map Prod.fst

/-- The range of positions is that of the covered ones, and there is one if any position is covered. -/
def Spans (n : Nat) (first last : Int) : Option (Nat × Nat) → Prop
  | none => ∀ k, ¬Covers n first last k
  | some (lo, hi) => lo < hi ∧ hi ≤ n ∧ ∀ k, lo ≤ k ∧ k < hi ↔ Covers n first last k

theorem lowest_eq (n : Nat) (first : Int) : lowest n first = max (position n first) 0 := by
  unfold lowest position
  split <;> omega

theorem highest_eq (n : Nat) (last : Int) : highest n last = min (position n last) (n - 1) := by
  unfold highest position
  split <;> omega

theorem window_spans {n : Nat} (short : n < 2 ^ 63) (first last : Int64) :
    Spans n first.toInt last.toInt (window n first last) := by
  rw [window_eq short, lowest_eq, highest_eq]
  split
  next empty =>
    rintro k ⟨inside, low, high⟩
    omega
  next full =>
    refine ⟨by omega, by omega, fun k => ?_⟩
    unfold Covers
    omega

/-- The elements from one position to another, where the first of them has the position `k`. -/
theorem filter_zipIdx (xs : List α) (lo hi k : Nat) :
    ((xs.zipIdx k).filter fun x => lo ≤ x.2 ∧ x.2 < hi).map Prod.fst = (xs.take (hi - k)).drop (lo - k) := by
  induction xs generalizing k with
  | nil => simp
  | cons x xs ih =>
    rw [List.zipIdx_cons, List.filter_cons]
    by_cases past : hi ≤ k
    · have none : hi - k = 0 := by omega
      have none' : hi - (k + 1) = 0 := by omega
      rw [if_neg (by simp; omega), ih, none, none', List.take_zero, List.take_zero, List.drop_nil, List.drop_nil]
    · have more : hi - k = hi - (k + 1) + 1 := by omega
      rw [more, List.take_succ_cons]
      by_cases before : k < lo
      · have skip : lo - k = lo - (k + 1) + 1 := by omega
        rw [if_neg (by simp; omega), ih, skip, List.drop_succ_cons]
      · have keep : lo - k = 0 := by omega
        have keep' : lo - (k + 1) = 0 := by omega
        rw [if_pos (by simp; omega), List.map_cons, ih, keep, keep', List.drop_zero, List.drop_zero]

theorem slice_eq_covered {xs : List α} (short : xs.length < 2 ^ 63) (first last : Int64) :
    slice xs first last = covered first.toInt last.toInt xs := by
  have spans := window_spans short first last
  unfold slice covered
  cases windowed : window xs.length first last with
  | none =>
    rw [windowed] at spans
    have none : (xs.zipIdx.filter fun x => Covers xs.length first.toInt last.toInt x.2) = [] :=
      List.filter_eq_nil_iff.mpr fun x _ => by simpa using spans x.2
    rw [none]
    rfl
  | some range =>
    obtain ⟨lo, hi⟩ := range
    rw [windowed] at spans
    obtain ⟨-, -, between⟩ := spans
    have same : (fun x : α × Nat => decide (Covers xs.length first.toInt last.toInt x.2)) =
        fun x => decide (lo ≤ x.2 ∧ x.2 < hi) := funext fun x => decide_eq_decide.mpr (between x.2).symm
    rw [same]
    exact (filter_zipIdx xs lo hi 0).symm

theorem length_slice_le (xs : List α) (first last : Int64) : (slice xs first last).length ≤ xs.length := by
  unfold slice
  split
  · rw [List.length_drop, List.length_take]
    omega
  · exact Nat.zero_le _

/-- The window from the first element to the last one leaves out nothing. -/
theorem slice_whole {xs : List α} (short : xs.length < 2 ^ 63) : slice xs 0 (-1) = xs := by
  have minus : (-1 : Int64).toInt = -1 := rfl
  rw [slice_zero short, upTo, minus, if_pos (by decide)]
  exact List.take_of_length_le (by omega)

/-! ### Commands -/

variable {s : Store} {key : String} {items : List Bytes}

theorem itemsOf_entryOf (key : String) (items : List Bytes) : itemsOf key (entryOf items) = .ok items := by
  cases items <;> rfl

theorem getRange_run {content : Option Bytes} (held : contentOf key s[key]? = .ok content) (first last : Int64) :
    (Command.getRange key first last).run s = (.ok (.bytes (slice (content.getD []) first last)), s) := by
  rw [run_eq]
  simp only [Command.onEntry, Command.key, held, Except.map, put_self]

theorem range_run (held : itemsOf key s[key]? = .ok items) (first last : Int64) :
    (Command.range key first last).run s = (.ok (.list (slice items first last)), s) := by
  rw [run_eq]
  simp only [Command.onEntry, Command.key, held, Except.map, put_self]

theorem trim_run (held : itemsOf key s[key]? = .ok items) (first last : Int64) :
    (Command.trim key first last).run s = (.ok .done, put key (entryOf (slice items first last)) s) := by
  rw [run_eq]
  simp only [Command.onEntry, Command.key, held, Except.map]

/-- What is left after trimming is what the window showed. -/
theorem range_trim (held : itemsOf key s[key]? = .ok items) (short : items.length < 2 ^ 63) (first last : Int64) :
    ((Command.range key 0 (-1)).run ((Command.trim key first last).run s).2).1 =
      ((Command.range key first last).run s).1 := by
  have kept : itemsOf key ((Command.trim key first last).run s).2[key]? = .ok (slice items first last) := by
    rw [trim_run held, entry_put, if_pos rfl, itemsOf_entryOf]
  rw [range_run kept, range_run held, slice_whole (Nat.lt_of_le_of_lt (length_slice_le items first last) short)]

/-- Two indices mean the same stretch everywhere, however far from the sequence they are: no sum or difference of them
overflows, the range of positions lies within the sequence, and commands give or keep the elements in it, in order. -/
theorem windows_agree (first last : Int64) :
    (∀ n < 2 ^ 63, Exact n first last ∧ Spans n first.toInt last.toInt (window n first last)) ∧
    (∀ (s : Store) key content, contentOf key s[key]? = .ok content → (content.getD []).length < 2 ^ 63 →
      (Command.getRange key first last).run s =
        (.ok (.bytes (covered first.toInt last.toInt (content.getD []))), s)) ∧
    ∀ (s : Store) key items, itemsOf key s[key]? = .ok items → items.length < 2 ^ 63 →
      (Command.range key first last).run s = (.ok (.list (covered first.toInt last.toInt items)), s) ∧
      (Command.trim key first last).run s =
        (.ok .done, put key (entryOf (covered first.toInt last.toInt items)) s) ∧
      ((Command.range key 0 (-1)).run ((Command.trim key first last).run s).2).1 =
        ((Command.range key first last).run s).1 := by
  refine ⟨fun n short => ⟨exact_of_short short first last, window_spans short first last⟩, ?_, ?_⟩
  · intro s key content held short
    rw [getRange_run held, slice_eq_covered short]
  · intro s key items held short
    refine ⟨?_, ?_, range_trim held short first last⟩
    · rw [range_run held, slice_eq_covered short]
    · rw [trim_run held, slice_eq_covered short]

/-- The least index lies before a list of three and the greatest one behind it; together they name the whole list. -/
theorem windows_agree_extremes :
    let s : Store := put "log" (some (.list [[1], [2], [3]])) ∅
    itemsOf "log" s["log"]? = .ok [[1], [2], [3]] ∧
    window 3 Int64.minValue Int64.maxValue = some (0, 3) ∧
    Spans 3 Int64.minValue.toInt Int64.maxValue.toInt (window 3 Int64.minValue Int64.maxValue) ∧
    (Command.range "log" Int64.minValue Int64.maxValue).run s = (.ok (.list [[1], [2], [3]]), s) := by
  intro s
  have held : itemsOf "log" s["log"]? = .ok [[1], [2], [3]] := by
    rw [entry_put]
    rfl
  obtain ⟨windows, -, lists⟩ := windows_agree Int64.minValue Int64.maxValue
  exact ⟨held, by decide, (windows 3 (by decide)).2, (lists s "log" _ held (by decide)).1⟩

end Msp430.KeyValue
