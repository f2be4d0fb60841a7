import Mathlib.Data.List.Induction
import Msp430.Proofs.Bindings
import Msp430.Proofs.Windows

/-!
# What commands do to the store

A command works on the entry at its key and on nothing else, and one that fails changes nothing. So no key ever holds
an empty list, and a key that holds bytes comes to hold a list only by being deleted in between.
-/

namespace Msp430.KeyValue

variable {s : Store} {c : Command} {cs : List Command} {key : String}

/-- Puts an entry at a key. -/
def put (key : String) (entry : Option Value) (s : Store) : Store :=
  match entry with
  | some v => s.insert key v
  | none => s.erase key

theorem entry_put (s : Store) (key k : String) (entry : Option Value) :
    (put key entry s)[k]? = if k = key then entry else s[k]? := by
  cases entry with
  | some v =>
    exact Std.ExtTreeMap.getElem?_insert.trans (if_congr (Std.compare_eq_iff_eq.trans eq_comm) rfl rfl)
  | none => exact Std.ExtTreeMap.getElem?_erase.trans (if_congr (Std.compare_eq_iff_eq.trans eq_comm) rfl rfl)

theorem put_put (s : Store) (key : String) (first second : Option Value) :
    put key second (put key first s) = put key second s := by
  refine Std.ExtTreeMap.ext_getElem? fun k => ?_
  rw [entry_put, entry_put, entry_put]
  split <;> rfl

theorem put_self (s : Store) (key : String) : put key s[key]? s = s := by
  refine Std.ExtTreeMap.ext_getElem? fun k => ?_
  rw [entry_put]
  split
  next same => rw [same]
  next => rfl

/-! ### One entry -/

/-- The byte string that an entry holds, if the key is there. -/
def contentOf (key : String) : Option Value → Except Error (Option Bytes)
  | none => .ok none
  | some (.bytes content) => .ok (some content)
  | some (.list _) => .error (.wrongType key)

/-- The list that an entry holds; an absent key holds the empty list. -/
def itemsOf (key : String) : Option Value → Except Error (List Bytes)
  | none => .ok []
  | some (.list items) => .ok items
  | some (.bytes _) => .error (.wrongType key)

/-- The entry of a list. A key with an empty list is absent. -/
def entryOf : List Bytes → Option Value
  | [] => none
  | item :: items => some (.list (item :: items))

namespace Command

/-- The reply to a command and the entry that it leaves at its key, as told from the entry before. -/
def onEntry (entry : Option Value) : Command → Except Error (Reply × Option Value)
  | get key => (contentOf key entry).map fun content => (.value content, entry)
  | set _ content => .ok (.done, some (.bytes content))
  | del _ => .ok (.present entry.isSome, none)
  | getRange key first last => (contentOf key entry).map fun content =>
    (.bytes (slice (content.getD []) first last), entry)
  | pushFront key item => (itemsOf key entry).map fun items => (.length (items.length + 1), some (.list (item :: items)))
  | trim key first last => (itemsOf key entry).map fun items => (.done, entryOf (slice items first last))
  | range key first last => (itemsOf key entry).map fun items => (.list (slice items first last), entry)
  | pushBounded key item last => (itemsOf key entry).map fun items => (.done, entryOf (slice (item :: items) 0 last))

end Command

theorem get_eq (key : String) (s : Store) :
    get key s = match contentOf key s[key]? with
      | .ok content => .ok content s
      | .error e => .error e s := by
  rw [get_apply]
  cases s[key]? with
  | none => rfl
  | some v => cases v <;> rfl

theorem items_eq (key : String) (s : Store) :
    items key s = match itemsOf key s[key]? with
      | .ok items => .ok items s
      | .error e => .error e s := by
  rw [items_apply]
  cases s[key]? with
  | none => rfl
  | some v => cases v <;> rfl

theorem pushFront_eq (key : String) (item : Bytes) (s : Store) :
    pushFront key item s = match itemsOf key s[key]? with
      | .ok items => .ok (items.length + 1) (put key (some (.list (item :: items))) s)
      | .error e => .error e s := by
  change EStateM.bind (items key) _ s = _
  unfold EStateM.bind
  rw [items_eq]
  cases itemsOf key s[key]? <;> rfl

theorem trim_eq (key : String) (first last : Int64) (s : Store) :
    trim key first last s = match itemsOf key s[key]? with
      | .ok items => .ok () (put key (entryOf (slice items first last)) s)
      | .error e => .error e s := by
  change EStateM.bind (items key) _ s = _
  unfold EStateM.bind
  rw [items_eq]
  cases itemsOf key s[key]? with
  | error e => rfl
  | ok items =>
    simp only
    cases slice items first last <;> rfl

/-- The trimming after a push cannot fail, for by then the key holds a list. -/
theorem pushBounded_eq (key : String) (item : Bytes) (last : Int64) (s : Store) :
    pushBounded key item last s = match itemsOf key s[key]? with
      | .ok items => .ok () (put key (entryOf (slice (item :: items) 0 last)) s)
      | .error e => .error e s := by
  change EStateM.bind (pushFront key item) _ s = _
  unfold EStateM.bind
  rw [pushFront_eq]
  cases itemsOf key s[key]? with
  | error e => rfl
  | ok items =>
    have pushed : itemsOf key (some (.list (item :: items))) = .ok (item :: items) := rfl
    simp only
    rw [trim_eq, entry_put, if_pos rfl, pushed]
    simp only [put_put]

/-- A command works as it does on the entry at its key. One that fails changes nothing. -/
theorem job_eq (c : Command) (s : Store) :
    c.job s = match c.onEntry s[c.key]? with
      | .ok (reply, entry) => .ok reply (put c.key entry s)
      | .error e => .error e s := by
  have bind {α : Type} (x : Job α) (f : α → Job Reply) : (x >>= f) s = EStateM.bind x f s := rfl
  cases c with
  | set key content => rfl
  | del key =>
    have present : s[key]?.isSome = s.contains key := Std.ExtTreeMap.isSome_getElem?_eq_contains
    simp only [Command.onEntry, Command.key, present]
    rfl
  | get key =>
    simp only [Command.job, Command.onEntry, Command.key, bind, EStateM.bind, get_eq]
    cases contentOf key s[key]? with
    | error e => rfl
    | ok content => exact congrArg _ (put_self s key).symm
  | getRange key first last =>
    have read : getRange key first last s = match contentOf key s[key]? with
        | .ok content => .ok (slice (content.getD []) first last) s
        | .error e => .error e s := by
      change EStateM.bind (KeyValue.get key) _ s = _
      unfold EStateM.bind
      rw [get_eq]
      cases contentOf key s[key]? <;> rfl
    simp only [Command.job, Command.onEntry, Command.key, bind, EStateM.bind, read]
    cases contentOf key s[key]? with
    | error e => rfl
    | ok content => exact congrArg _ (put_self s key).symm
  | range key first last =>
    have read : range key first last s = match itemsOf key s[key]? with
        | .ok items => .ok (slice items first last) s
        | .error e => .error e s := by
      change EStateM.bind (KeyValue.items key) _ s = _
      unfold EStateM.bind
      rw [items_eq]
      cases itemsOf key s[key]? <;> rfl
    simp only [Command.job, Command.onEntry, Command.key, bind, EStateM.bind, read]
    cases itemsOf key s[key]? with
    | error e => rfl
    | ok items => exact congrArg _ (put_self s key).symm
  | pushFront key item =>
    simp only [Command.job, Command.onEntry, Command.key, bind, EStateM.bind, pushFront_eq]
    cases itemsOf key s[key]? <;> rfl
  | trim key first last =>
    simp only [Command.job, Command.onEntry, Command.key, bind, EStateM.bind, trim_eq]
    cases itemsOf key s[key]? <;> rfl
  | pushBounded key item last =>
    simp only [Command.job, Command.onEntry, Command.key, bind, EStateM.bind, pushBounded_eq]
    cases itemsOf key s[key]? <;> rfl

theorem run_eq (c : Command) (s : Store) :
    c.run s = match c.onEntry s[c.key]? with
      | .ok (reply, entry) => (.ok reply, put c.key entry s)
      | .error e => (.error e, s) := by
  unfold Command.run EStateM.run
  rw [job_eq]
  cases c.onEntry s[c.key]? <;> rfl

/-! ### One command -/

theorem run_of_error {e : Error} (failed : (c.run s).1 = .error e) : (c.run s).2 = s := by
  rw [run_eq] at failed ⊢
  cases told : c.onEntry s[c.key]? with
  | error e => rfl
  | ok told' =>
    rw [told] at failed
    cases failed

/-- After a command its key holds what it held or what the command leaves there, and the other keys are as before. -/
theorem entry_run (c : Command) (s : Store) (key : String) :
    (c.run s).2[key]? = s[key]? ∨
      key = c.key ∧ ∃ reply, c.onEntry s[key]? = .ok (reply, (c.run s).2[key]?) := by
  rw [run_eq]
  cases told : c.onEntry s[c.key]? with
  | error e => exact .inl rfl
  | ok told' =>
    obtain ⟨reply, entry⟩ := told'
    simp only [entry_put]
    split
    next own => exact .inr ⟨own, reply, by rw [own, told]⟩
    next => exact .inl rfl

theorem run_other (apart : key ≠ c.key) : (c.run s).2[key]? = s[key]? :=
  (entry_run c s key).resolve_right fun own => apart own.1

def HoldsBytes (key : String) (s : Store) : Prop := ∃ content, s[key]? = some (.bytes content)

/-- All that a command can do to the entry at a key. A list can come only where no bytes are. -/
inductive Writes (key : String) (s : Store) : Command → Option Value → Prop
  | nothing (c : Command) : Writes key s c s[key]?
  | bytes (content : Bytes) : Writes key s (.set key content) (some (.bytes content))
  | away : Writes key s (.del key) none
  | list (c : Command) (items : List Bytes) (free : ¬ HoldsBytes key s) : Writes key s c (entryOf items)

theorem not_holdsBytes_of_itemsOf {items : List Bytes} (h : itemsOf key s[key]? = .ok items) :
    ¬ HoldsBytes key s := by
  rintro ⟨content, held⟩
  rw [held] at h
  cases h

theorem run_writes (c : Command) (s : Store) (key : String) : Writes key s c (c.run s).2[key]? := by
  rcases entry_run c s key with same | ⟨rfl, reply, told⟩
  · rw [same]
    exact .nothing c
  · generalize (c.run s).2[c.key]? = after at told
    -- What replies with a part of an entry leaves the entry; what changes a list has read one.
    have reads {α : Type} {part : Except Error α} {answer : α → Reply}
        (h : (part.map fun x => (answer x, s[c.key]?)) = .ok (reply, after)) : Writes c.key s c after := by
      cases part with
      | error e => cases h
      | ok x =>
        cases h
        exact .nothing c
    have works {answer : List Bytes → Reply} (change : List Bytes → List Bytes)
        (h : ((itemsOf c.key s[c.key]?).map fun items => (answer items, entryOf (change items))) = .ok (reply, after)) :
        Writes c.key s c after := by
      cases held : itemsOf c.key s[c.key]? with
      | error e =>
        rw [held] at h
        cases h
      | ok items =>
        rw [held] at h
        cases h
        exact .list c _ (not_holdsBytes_of_itemsOf held)
    cases c with
    | get key => exact reads told
    | getRange key first last => exact reads told
    | range key first last => exact reads told
    | set key content =>
      cases told
      exact .bytes content
    | del key =>
      cases told
      exact .away
    | pushFront key item => exact works (item :: ·) told
    | trim key first last => exact works (slice · first last) told
    | pushBounded key item last => exact works (fun items => slice (item :: items) 0 last) told

/-! ### Many commands -/

/-- The store after a sequence of commands. -/
def through (s : Store) (cs : List Command) : Store := cs.foldl (fun s c => (c.run s).2) s

theorem through_concat (s : Store) (cs : List Command) (c : Command) :
    through s (cs ++ [c]) = (c.run (through s cs)).2 :=
  List.foldl_concat ..

theorem entryOf_ne_empty (items : List Bytes) : entryOf items ≠ some (.list []) := by
  cases items <;> simp [entryOf]

theorem through_ne_empty (cs : List Command) (key : String) : (through ∅ cs)[key]? ≠ some (.list []) := by
  induction cs using List.reverseRecOn with
  | nil => simp [through]
  | append_singleton cs c ih =>
    rw [through_concat]
    generalize told : (c.run (through ∅ cs)).2[key]? = after
    cases told ▸ run_writes c (through ∅ cs) key with
    | nothing => exact ih
    | bytes content => simp
    | away => nofun
    | list c items free => exact entryOf_ne_empty items

/-- Bytes stay at a key until it is deleted; only their content may change. -/
theorem holdsBytes_or_del (held : HoldsBytes key s) (more : List Command) :
    HoldsBytes key (through s more) ∨ .del key ∈ more := by
  induction more using List.reverseRecOn with
  | nil => exact .inl held
  | append_singleton cs c ih =>
    rw [through_concat]
    rcases ih with held | deleted
    · unfold HoldsBytes
      generalize told : (c.run (through s cs)).2[key]? = after
      cases told ▸ run_writes c (through s cs) key with
      | nothing => exact .inl held
      | bytes content => exact .inl ⟨content, rfl⟩
      | away => exact .inr (by simp)
      | list c items free => exact absurd held free
    · exact .inr (List.mem_append_left [c] deleted)

/-- The bytes at a key were there from the start or are those of a `set`. -/
theorem held_or_set {more : List Command} {content : Bytes} (later : (through s more)[key]? = some (.bytes content)) :
    s[key]? = some (.bytes content) ∨ .set key content ∈ more := by
  induction more using List.reverseRecOn with
  | nil => exact .inl later
  | append_singleton cs c ih =>
    rw [through_concat] at later
    generalize told : (c.run (through s cs)).2[key]? = after at later
    cases told ▸ run_writes c (through s cs) key with
    | nothing => exact (ih later).imp_right (List.mem_append_left [c])
    | bytes =>
      cases later
      exact .inr (by simp)
    | away => cases later
    | list c items free => cases items <;> cases later

theorem pushBounded_run {items : List Bytes} (held : s[key]? = entryOf items) (item : Bytes) (last : Int64) :
    (Command.pushBounded key item last).run s =
      (.ok .done, put key (entryOf (slice (item :: items) 0 last)) s) := by
  have read : itemsOf key (entryOf items) = .ok items := by cases items <;> rfl
  rw [run_eq]
  simp only [Command.onEntry, Command.key, held, read]
  rfl

theorem pushBounded_run_of_bytes (held : HoldsBytes key s) (item : Bytes) (last : Int64) :
    (Command.pushBounded key item last).run s = (.error (.wrongType key), s) := by
  obtain ⟨content, held⟩ := held
  rw [run_eq]
  simp only [Command.onEntry, Command.key, held]
  rfl

def HoldsList (key : String) (s : Store) : Prop := ∃ items, s[key]? = some (Value.list items)

/-- Whatever commands have run, no key holds an empty list, a command works at its own key, and one that fails changes
nothing. Bytes give way to a list only by a `del` in between and a list to bytes only by a `set` of them. A bounded push
onto an absent key or a list leaves the new head and what the window keeps of the old list; onto bytes it fails. -/
theorem through_disciplined (cs : List Command) :
    let s := through ∅ cs
    (∀ key : String, s[key]? ≠ some (.list [])) ∧
    (∀ (c : Command) (key : String), key ≠ c.key → (c.run s).2[key]? = s[key]?) ∧
    (∀ (c : Command) (e : Error), (c.run s).1 = .error e → (c.run s).2 = s) ∧
    (∀ key more, HoldsBytes key s → HoldsList key (through s more) → .del key ∈ more) ∧
    (∀ (key : String) more content, HoldsList key s → (through s more)[key]? = some (.bytes content) →
      .set key content ∈ more) ∧
    (∀ key item last, HoldsBytes key s →
      (Command.pushBounded key item last).run s = (.error (.wrongType key), s)) ∧
    ∀ (key : String) item last items, s[key]? = entryOf items →
      (Command.pushBounded key item last).run s =
        (.ok .done, put key (entryOf (slice (item :: items) 0 last)) s) ∧
      ((item :: items).length < 2 ^ 63 → slice (item :: items) 0 last = upTo last.toInt (item :: items)) := by
  intro s
  refine ⟨through_ne_empty cs, fun c key => run_other, fun c e => run_of_error, ?_, ?_, ?_, ?_⟩
  · rintro key more held ⟨items, later⟩
    refine (holdsBytes_or_del held more).resolve_left ?_
    rintro ⟨content, bytes⟩
    cases later.symm.trans bytes
  · rintro key more content ⟨items, held⟩ later
    exact (held_or_set later).resolve_left (held ▸ nofun)
  · exact fun key item last held => pushBounded_run_of_bytes held item last
  · exact fun key item last items held => ⟨pushBounded_run held item last, fun short => slice_zero short last⟩

/-- One key holds bytes and another a list of one; a push bounded to the newest element fails at the one and drops the
old element at the other. -/
theorem through_disciplined_newest :
    let s := through ∅ [.set "conf" [1], .pushFront "log" [2]]
    (Command.pushBounded "conf" [3] 0).run s = (.error (.wrongType "conf"), s) ∧
    (Command.pushBounded "log" [3] 0).run s = (.ok .done, put "log" (some (.list [[3]])) s) := by
  intro s
  have built : s = put "log" (some (.list [[2]])) (put "conf" (some (.bytes [1])) ∅) := by
    change ((Command.pushFront "log" [2]).run ((Command.set "conf" [1]).run ∅).2).2 = _
    rw [run_eq, run_eq]
    simp only [Command.onEntry, Command.key, entry_put]
    rfl
  have bytes : HoldsBytes "conf" s := ⟨[1], by rw [built, entry_put, entry_put]; rfl⟩
  have items : s["log"]? = entryOf [[2]] := by rw [built, entry_put]; rfl
  obtain ⟨-, -, -, -, -, refused, pushed⟩ := through_disciplined [.set "conf" [1], .pushFront "log" [2]]
  exact ⟨refused "conf" [3] 0 bytes, (pushed "log" [3] 0 [[2]] items).1⟩

end Msp430.KeyValue
