import Mathlib.Data.List.Induction
import Msp430.Proofs.Bindings

/-!
# Posted input

Input that is posted to an instance overwrites what was posted before, and the input device takes it and removes it in
one job. So each posting is taken at most once, by the first try after it, and nothing else is ever taken.
-/

namespace Msp430.Peripheral

open Access

/-! ### Jobs -/

/-- The job leaves what is at a key as it is. -/
def Leaves (key : String) (job : KeyValue.Job Unit) : Prop := ∀ s, (endState (job s))[key]? = s[key]?

/-- A job in the mailbox of the store, as it concerns one instance: input is posted to it, its input device tries to
take some, or something else is done. -/
inductive InputJob where
  | post (content : Bytes)
  | poll
  | other (job : KeyValue.Job Unit)

variable {owner key : String} {w : World} {js : List InputJob}

theorem leaves_command {c : KeyValue.Command} (apart : c.key ≠ key) : Leaves key (do let _ ← c.job) := by
  intro s
  have fixed : Simulates (KeyValue.Fixed key s[key]?) (do let _ ← c.job) (do let _ ← c.job) :=
    simulates_bind (KeyValue.command_simulates c (KeyValue.fixed_respects apart)) fun _ => simulates_pure ()
  exact KeyValue.keeps_of_fixed fixed s rfl

namespace InputJob

def posted? : InputJob → Option Bytes
  | post content => some content
  | _ => none

def isOther : InputJob → Bool
  | other _ => true
  | _ => false

/-- What a job returns to the input device, if it is a try of the device and succeeds. -/
def answer? (owner : String) (w : World) : InputJob → Option Bytes
  | poll =>
    match awaitInput owner w with
    | .ok raw _ => some raw
    | .error _ _ => none
  | _ => none

def run (owner : String) (w : World) : InputJob → World
  | post content => endState (World.submit (KeyValue.set (input.key owner) content) w)
  | poll => endState (awaitInput owner w)
  | other job => endState (World.submit job w)

end InputJob

open InputJob

def through (owner : String) (w : World) (js : List InputJob) : World := js.foldl (InputJob.run owner) w

/-- What the tries of the device have returned, the first one first. -/
def answers (owner : String) (w : World) : List InputJob → List Bytes
  | [] => []
  | j :: js => (j.answer? owner w).toList ++ answers owner (j.run owner w) js

/-- The input that is posted and not taken. -/
def waiting? (owner : String) (w : World) : Option Bytes :=
  match w.store[input.key owner]? with
  | some (.bytes content) => some content
  | _ => none

/-! ### One job -/

theorem takeInput_apply (key : String) (s : KeyValue.Store) :
    takeInput key s = match s[key]? with
      | none => .ok none s
      | some (.bytes content) => .ok (some content) (s.erase key)
      | some (.list _) => .error (.wrongType key) s := by
  unfold takeInput
  change EStateM.bind (KeyValue.get key) _ s = _
  unfold EStateM.bind
  rw [KeyValue.get_apply]
  cases s[key]? with
  | none => rfl
  | some v => cases v <;> rfl

theorem awaitInput_apply (owner : String) (w : World) :
    awaitInput owner w = match w.store[input.key owner]? with
      | none => .error .awaitingInput { w with awaiting := true }
      | some (.bytes content) => .ok content { w with store := w.store.erase (input.key owner) }
      | some (.list _) => .error (.collaborator (.wrongType (input.key owner))) w := by
  change EStateM.bind (World.submit (takeInput (input.key owner))) _ w = _
  unfold EStateM.bind World.submit
  rw [takeInput_apply]
  cases w.store[input.key owner]? with
  | none => rfl
  | some v => cases v <;> rfl

theorem waiting?_post (owner : String) (w : World) (content : Bytes) :
    waiting? owner ((post content).run owner w) = some content := by
  have there : ((post content).run owner w).store[input.key owner]? = some (.bytes content) :=
    Std.ExtTreeMap.getElem?_insert_self
  unfold waiting?
  rw [there]

theorem waiting?_other {job : KeyValue.Job Unit} (leaves : Leaves (input.key owner) job) (w : World) :
    waiting? owner ((other job).run owner w) = waiting? owner w := by
  have same : ((other job).run owner w).store[input.key owner]? = w.store[input.key owner]? := by
    have left := leaves w.store
    change (endState (World.submit job w)).store[input.key owner]? = _
    unfold World.submit
    cases done : job w.store <;> rw [done] at left <;> exact left
  unfold waiting?
  rw [same]

/-- A try returns what is there and leaves nothing. -/
theorem poll_spec (owner : String) (w : World) :
    answer? owner w poll = waiting? owner w ∧ waiting? owner (poll.run owner w) = none := by
  have tried := awaitInput_apply owner w
  unfold answer? run waiting?
  cases held : w.store[input.key owner]? with
  | none =>
    rw [held] at tried
    simp only [tried, endState, held, and_self]
  | some v =>
    rw [held] at tried
    cases v with
    | bytes content => simp only [tried, endState, Std.ExtTreeMap.getElem?_erase_self, and_self]
    | list items => simp only [tried, endState, held, and_self]

/-! ### Runs -/

/-- The other jobs leave what is posted. -/
def Apart (owner : String) (js : List InputJob) : Prop := ∀ job, .other job ∈ js → Leaves (input.key owner) job

theorem Apart.left {more : List InputJob} (apart : Apart owner (js ++ more)) : Apart owner js :=
  fun job member => apart job (List.mem_append_left more member)

theorem Apart.tail {j : InputJob} (apart : Apart owner (j :: js)) : Apart owner js :=
  fun job member => apart job (List.mem_cons_of_mem j member)

theorem through_append (owner : String) (w : World) (js more : List InputJob) :
    through owner w (js ++ more) = through owner (through owner w js) more :=
  List.foldl_append

/-- What waits after a run: the last posting, if it is followed by nothing but other jobs. -/
theorem waiting?_eq_some (apart : Apart owner js) {v : Bytes} (held : waiting? owner (through owner w js) = some v) :
    (∃ past others, js = past ++ .post v :: others ∧ ∀ j ∈ others, j.isOther) ∨
      waiting? owner w = some v ∧ ∀ j ∈ js, j.isOther := by
  induction js using List.reverseRecOn with
  | nil => exact .inr ⟨held, nofun⟩
  | append_singleton js j ih =>
    rw [through_append] at held
    change waiting? owner (j.run owner (through owner w js)) = some v at held
    cases j with
    | post content =>
      rw [waiting?_post] at held
      cases held
      exact .inl ⟨js, [], rfl, nofun⟩
    | poll =>
      rw [(poll_spec owner _).2] at held
      cases held
    | other job =>
      rw [waiting?_other (apart job (List.mem_append_right js List.mem_cons_self))] at held
      rcases ih apart.left held with ⟨past, others, rfl, quiet⟩ | ⟨first, quiet⟩
      · refine .inl ⟨past, others ++ [.other job], by rw [List.append_assoc, List.cons_append], ?_⟩
        exact List.forall_mem_append.mpr ⟨quiet, List.forall_mem_singleton.mpr rfl⟩
      · exact .inr ⟨first, List.forall_mem_append.mpr ⟨quiet, List.forall_mem_singleton.mpr rfl⟩⟩

theorem waiting?_through (apart : Apart owner js) (quiet : ∀ j ∈ js, j.isOther) :
    waiting? owner (through owner w js) = waiting? owner w := by
  induction js generalizing w with
  | nil => rfl
  | cons j rest ih =>
    obtain ⟨first, later⟩ := List.forall_mem_cons.mp quiet
    cases j with
    | other job =>
      exact (ih apart.tail later).trans (waiting?_other (apart job List.mem_cons_self) w)
    | post | poll => cases first

theorem answers_sublist (apart : Apart owner js) :
    (answers owner w js).Sublist ((waiting? owner w).toList ++ js.filterMap posted?) := by
  -- What waits stands in front of what is still to be posted: a posting replaces it and a try takes it off.
  induction js generalizing w with
  | nil => exact List.nil_sublist _
  | cons j rest ih =>
    have later := ih (w := j.run owner w) apart.tail
    cases j with
    | post content =>
      rw [waiting?_post] at later
      exact later.trans (List.sublist_append_right _ _)
    | poll =>
      rw [(poll_spec owner w).2] at later
      change ((answer? owner w poll).toList ++ _).Sublist _
      rw [(poll_spec owner w).1]
      exact later.append_left _
    | other job =>
      rw [waiting?_other (apart job List.mem_cons_self)] at later
      exact later

/-- How the input device takes what is posted in a run of jobs. What waits at the start counts as posted. -/
structure TakesPosted (owner : String) (w : World) (js : List InputJob) : Prop where
  order : (answers owner w js).Sublist ((waiting? owner w).toList ++ js.filterMap posted?)
  /-- A try that succeeds returns what was posted last, and none has been made since. -/
  latest : ∀ {before after v}, js = before ++ .poll :: after → answer? owner (through owner w before) .poll = some v →
    (∃ past others, before = past ++ .post v :: others ∧ ∀ j ∈ others, j.isOther) ∨
      waiting? owner w = some v ∧ ∀ j ∈ before, j.isOther
  /-- What it returns has been posted since the try before it, so that no two tries return one posting. -/
  once : ∀ {before between after v}, js = before ++ .poll :: between ++ .poll :: after →
    answer? owner (through owner w (before ++ .poll :: between)) .poll = some v →
    ∃ past others, between = past ++ .post v :: others ∧ ∀ j ∈ others, j.isOther
  /-- The first try after a posting returns it, unless something else has been posted in between. -/
  seen : ∀ {before others after v}, js = before ++ .post v :: others ++ .poll :: after → (∀ j ∈ others, j.isOther) →
    answer? owner (through owner w (before ++ .post v :: others)) .poll = some v

theorem posted_input (apart : Apart owner js) : TakesPosted owner w js where
  order := answers_sublist apart
  latest := by
    rintro before after v rfl answered
    rw [(poll_spec owner _).1] at answered
    exact waiting?_eq_some apart.left answered
  once := by
    rintro before between after v rfl answered
    rw [(poll_spec owner _).1, through_append] at answered
    have emptied := (poll_spec owner (through owner w before)).2
    have apart : Apart owner between := fun job member =>
      apart.left job (List.mem_append_right before (List.mem_cons_of_mem _ member))
    rcases waiting?_eq_some apart answered with posted | ⟨kept, -⟩
    · exact posted
    · cases emptied.symm.trans kept
  seen := by
    rintro before others after v rfl quiet
    have apart : Apart owner others := fun job member =>
      apart.left job (List.mem_append_right before (List.mem_cons_of_mem _ member))
    rw [(poll_spec owner _).1, through_append]
    exact (waiting?_through apart quiet).trans (waiting?_post owner _ v)

def emptyWorld : World where
  store := ∅
  clock := 0
  calls := {}
  awaiting := false

/-- Of three postings the second overwrites the first, and the third comes after a try that finds nothing. -/
def exchange : List InputJob :=
  [.poll, .post [1], .other (do let _ ← (KeyValue.Command.set (input.key "b") [9]).job), .post [2], .poll, .poll,
    .post [3], .poll]

theorem exchange_takesPosted :
    Apart "a" exchange ∧ answers "a" emptyWorld exchange = [[2], [3]] ∧ TakesPosted "a" emptyWorld exchange := by
  have apart : Apart "a" exchange := by
    intro job member
    have same : job = (do let _ ← (KeyValue.Command.set (input.key "b") [9]).job) := by
      simpa [exchange] using member
    rw [same]
    exact leaves_command (by decide)
  exact ⟨apart, by decide +kernel, posted_input apart⟩

end Msp430.Peripheral
