import Msp430.Proofs.AddressText
import Msp430.Proofs.Lookups

/-!
# The table of breakpoints

The breakpoints of an instance are those that event requests have put there, in whatever way the addresses were
spelled. The table is shown with one spelling for each address.
-/

namespace Msp430

open Access

/-! ### One instance -/

/-- The kind of the breakpoint at each address. -/
def Instance.breakpointAt (cpu : Instance) (a : UInt16) : Option Breakpoint := cpu.breakpoints[a]?

theorem Bench.breakpoints_setRegisters (b : Bench) (values : Vector (Option UInt16) 16) :
    (b.setRegisters values).cpu.breakpoints = b.cpu.breakpoints := by
  unfold setRegisters
  rfl

theorem Bench.breakpoints_advance (b : Bench) : b.advance.2.cpu.breakpoints = b.cpu.breakpoints := by
  have begun := congrArg Instance.breakpoints b.cpu_begun
  by_cases waits : b.machine.step.1 = .failed .awaitingInput
  · rw [advance_waits waits]
    exact begun
  · rw [advance_goes waits]
    exact begun

namespace Request

variable {r : Request}

/-- What is asked to put a breakpoint of some kind at an address, or to leave none there. -/
def edit (a : UInt16) : Option Breakpoint → Request
  | some kind => setBreakpoint a kind
  | none => clearBreakpoint a

theorem serve_keeps_breakpoints (plain : ¬ r.Edits) {table : Breakpoints} :
    Keeps (fun b : Bench => b.cpu.breakpoints = table) r.serve := by
  have state (b : Bench) (s : RunState) (same : b.cpu.breakpoints = table) :
      (b.setState s).cpu.breakpoints = table := by
    rw [Bench.cpu_setState]
    exact same
  have load (key : String) : Keeps (fun b : Bench => b.cpu.breakpoints = table) (Bench.loadImage key) :=
    Bench.loadImage_keeps (fun _ _ same => same) (fun _ _ same => same) key
  refine serve_keeps (fun b s _ => state b s) (fun b values same => (b.breakpoints_setRegisters values).trans same)
    (fun edits => absurd edits plain) (fun key _ => load key) (fun _ => ?_)
    (Bench.keeps_execute state fun b same => b.breakpoints_advance.trans same)
  exact keeps_bind keeps_get fun b => keeps_bind (load _) fun _ => keeps_modify fun b same => state _ .stopped same

theorem breakpointAt_ask (plain : ¬ r.Edits) (b : Bench) : (r.ask b).2.cpu.breakpointAt = b.cpu.breakpointAt := by
  unfold Instance.breakpointAt
  rw [bench_ask]
  split
  · rfl
  · rw [serve_keeps_breakpoints plain b rfl]

theorem awaiting_ask (plain : ¬ r.executes) (b : Bench) : (r.ask b).2.cpu.awaiting = b.cpu.awaiting := by
  rw [bench_ask]
  split
  · rfl
  · exact congrArg (·.2.1) (serve_keeps_standing plain b rfl)

/-- Where there is no wait, an edit is carried out. -/
theorem breakpointAt_edit (a : UInt16) (kind : Option Breakpoint) {b : Bench} (ready : b.cpu.awaiting = false) :
    ((edit a kind).ask b).2.cpu.breakpointAt = Function.update b.cpu.breakpointAt a kind := by
  have served : ((edit a kind).ask b).2.cpu.breakpoints =
      match kind with
      | some kind => b.cpu.breakpoints.insert a kind
      | none => b.cpu.breakpoints.erase a := by
    rw [bench_ask, ready]
    cases kind <;> rfl
  funext other
  unfold Instance.breakpointAt
  rw [served, Function.update_apply]
  by_cases same : other = a
  · subst same
    cases kind <;> simp
  · cases kind <;> simp [same, Ne.symm same, Std.ExtTreeMap.getElem?_insert, Std.ExtTreeMap.getElem?_erase]

end Request

theorem Op.breakpointAt_apply {op : Op} (plain : ∀ r, op = .serve r → ¬ r.Edits) (b : Bench) :
    (op.apply b).cpu.breakpointAt = b.cpu.breakpointAt := by
  have same : (op.apply b).cpu.breakpoints = b.cpu.breakpoints := by
    cases op with
    | tick => exact b.breakpoints_tick
    | step => exact Bench.keeps_step (fun b same => b.breakpoints_advance.trans same) b rfl
    | serve r => exact r.serve_keeps_breakpoints (plain r rfl) b rfl
    | post content => rfl
  unfold Instance.breakpointAt
  rw [same]

/-! ### Edits -/

namespace Call.Asks

variable {call : Call} {name : String} {r : Request}

/-- Only event requests edit the breakpoints. -/
theorem of_edits (asks : call.Asks name r) (edits : r.Edits) :
    ∃ text kind a, call = .setBreakpoint name text kind ∧ Service.parseAddress text = .ok a := by
  cases asks with
  | placed parsed | cleared parsed => exact ⟨_, _, _, rfl, parsed⟩
  | @control action => cases action <;> cases edits
  | _ => cases edits

theorem of_executes (asks : call.Asks name r) (executes : r.executes) :
    call = .control .step name ∨ call = .control .resume name := by
  cases asks with
  | @control action =>
    cases action with
    | step => exact .inl rfl
    | resume => exact .inr rfl
    | boot | stop | reset => cases executes
  | _ => cases executes

end Call.Asks

/-- The address that an event request to an instance is about, if it can be read, and the kind of breakpoint to put
there. -/
def HttpRequest.edit? (name : String) (r : HttpRequest) : Option (UInt16 × Option Breakpoint) :=
  match r.call with
  | .ok (.setBreakpoint n text kind) => if n = name then (Service.parseAddress text).toOption.map (·, kind) else none
  | _ => none

/-- The request has the instance execute an instruction. -/
def HttpRequest.Executes (name : String) (r : HttpRequest) : Prop :=
  r.call = .ok (.control .step name) ∨ r.call = .ok (.control .resume name)

instance (name : String) (r : HttpRequest) : Decidable (r.Executes name) := inferInstanceAs (Decidable (_ ∨ _))

/-- The table that edits make of one: a kind is put in at its address, and no kind takes away what is there. -/
def edited (table : UInt16 → Option Breakpoint) (edits : List (UInt16 × Option Breakpoint)) :
    UInt16 → Option Breakpoint :=
  edits.foldl (fun table e => Function.update table e.1 e.2) table

theorem HttpRequest.edit?_eq_some {name : String} {r : HttpRequest} {a : UInt16} {kind : Option Breakpoint} :
    r.edit? name = some (a, kind) ↔
      ∃ text, r.call = .ok (.setBreakpoint name text kind) ∧ Service.parseAddress text = .ok a := by
  unfold edit?
  constructor
  · intro edit
    split at edit
    next n text kind' called =>
      obtain ⟨rfl, readable⟩ := Option.ite_none_right_eq_some.mp edit
      cases parsed : Service.parseAddress text with
      | error cause =>
        rw [parsed] at readable
        cases readable
      | ok a' =>
        rw [parsed] at readable
        cases readable
        exact ⟨text, called, parsed⟩
    next => cases edit
  · rintro ⟨text, called, parsed⟩
    simp [called, parsed, Except.toOption]

/-- Nothing is left where everything has been taken away. -/
theorem edited_clearing {table : UInt16 → Option Breakpoint} {edits : List (UInt16 × Option Breakpoint)}
    (clearing : ∀ e ∈ edits, e.2 = none) {a : UInt16} (covered : table a = none ∨ a ∈ edits.map Prod.fst) :
    edited table edits a = none := by
  induction edits generalizing table with
  | nil => exact covered.resolve_right List.not_mem_nil
  | cons e edits ih =>
    obtain ⟨first, rest⟩ := List.forall_mem_cons.mp clearing
    refine ih rest ?_
    change Function.update table e.1 e.2 a = none ∨ _
    rw [Function.update_apply, first]
    split
    · exact .inl rfl
    next other => simpa [other] using covered

namespace Service

variable {s : Service} {name : String} {table : UInt16 → Option Breakpoint}

/-- The edit that an occurrence brings. -/
def Occurrence.edit? (name : String) : Occurrence → Option (UInt16 × Option Breakpoint)
  | request r => r.edit? name
  | work _ _ => none

/-- The breakpoints are edited without a request. -/
def Occurrence.Meddles (name : String) : Occurrence → Prop
  | request _ => False
  | work n op => n = name ∧ ∃ r, op = .serve r ∧ r.Edits

/-- The instance waits for input, so that it leaves requests without a reply. -/
def Waits (name : String) (s : Service) : Prop := s.Holds name (·.awaiting = true)

/-- Breakpoints are edited by event requests only, and none of these comes while the instance waits. -/
def Heard (name : String) (s : Service) : List Occurrence → Prop
  | [] => True
  | e :: es => ¬ e.Meddles name ∧ ((e.edit? name).isSome → ¬ s.Waits name) ∧ (s.occur e).Heard name es

theorem Holds.ready {I : Instance → Prop} (holds : s.Holds name I) (ready : ¬ s.Waits name) :
    ∃ cpu, s.behind name = .ok cpu ∧ cpu.awaiting = false ∧ I cpu := by
  obtain ⟨cpu, found, property⟩ := holds
  exact ⟨cpu, found, Bool.eq_false_iff.mpr fun waits => ready ⟨cpu, found, waits⟩, property⟩

theorem not_waits (holds : s.Holds name (·.awaiting = false)) : ¬ s.Waits name := by
  obtain ⟨cpu, found, ready⟩ := holds
  rintro ⟨cpu', found', waits⟩
  cases found.symm.trans found'
  exact absurd waits (by simp [ready])

theorem holds_opened {config : InstanceConfig} (distinct : Peripheral.Distinct config.io) (store : KeyValue.Store)
    (clock : Nat) (name : String) :
    (opened config store clock).Holds name fun cpu => cpu.breakpointAt = (fun _ => none) ∧ cpu.awaiting = false := by
  rcases Instance.build_cases name config with ⟨-, cpu, built⟩ | ⟨repeated, -⟩
  · refine ⟨cpu, ?_, ?_⟩
    · unfold behind
      simpa [opened, Registry.get?] using built
    · obtain ⟨board, -, -, rfl⟩ := Instance.exists_board built
      exact ⟨funext fun a => Std.ExtTreeMap.getElem?_empty, rfl⟩
  · exact absurd distinct repeated

/-! ### Requests -/

theorem endState_edit {text : String} {kind : Option Breakpoint} {a : UInt16} (parsed : parseAddress text = .ok a)
    (s : Service) :
    endState (perform (.setBreakpoint name text kind) s) = endState (ask name (Request.edit a kind) s) := by
  have read : address text s = .ok a s := by
    unfold address
    rw [parsed]
    rfl
  refine (congrArg endState (bind_of_ok read)).trans ?_
  cases kind <;> exact endState_bind_pure _ (fun _ => Json.null) s

theorem holds_edit {r : HttpRequest} {kind : Option Breakpoint} {a : UInt16} (edit : r.edit? name = some (a, kind))
    (holds : s.Holds name (·.breakpointAt = table)) (ready : ¬ s.Waits name) :
    (s.handle r).2.Holds name (·.breakpointAt = Function.update table a kind) := by
  obtain ⟨text, called, parsed⟩ := HttpRequest.edit?_eq_some.mp edit
  obtain ⟨cpu, found, ready, rfl⟩ := holds.ready ready
  obtain ⟨shared, replaced, -⟩ := ask_of_behind found (Request.edit a kind)
  unfold handle
  rw [called]
  refine Holds.of_same ⟨_, replaced.there, Request.breakpointAt_edit a kind ready⟩ ?_
  rw [behind_answer, endState_edit parsed]

theorem holds_unedited {r : HttpRequest} (unedited : r.edit? name = none)
    (holds : s.Holds name (·.breakpointAt = table)) : (s.handle r).2.Holds name (·.breakpointAt = table) := by
  refine holds_handle (fun call called q asks b same => ?_) holds
  have plain : ¬ q.Edits := by
    intro edits
    obtain ⟨text, kind, a, rfl, parsed⟩ := asks.of_edits edits
    cases unedited.symm.trans (HttpRequest.edit?_eq_some.mpr ⟨text, called, parsed⟩)
  exact (q.breakpointAt_ask plain b).trans same

/-- A request that has the instance execute nothing does not make it wait. -/
theorem holds_ready {r : HttpRequest} (idle : ¬ r.Executes name) (holds : s.Holds name (·.awaiting = false)) :
    (s.handle r).2.Holds name (·.awaiting = false) := by
  refine holds_handle (fun call called q asks b same => ?_) holds
  have plain : ¬ q.executes := by
    intro executes
    rcases asks.of_executes executes with rfl | rfl
    · exact idle (.inl called)
    · exact idle (.inr called)
  exact (q.awaiting_ask plain b).trans same

theorem holds_occur {e : Occurrence} (direct : ¬ e.Meddles name) (ready : (e.edit? name).isSome → ¬ s.Waits name)
    (holds : s.Holds name (·.breakpointAt = table)) :
    (s.occur e).Holds name (·.breakpointAt = edited table (e.edit? name).toList) := by
  cases e with
  | work n op =>
    refine holds_work (fun same b at' => ?_) holds
    exact (Op.breakpointAt_apply (fun r serves edits => direct ⟨same, r, serves, edits⟩) b).trans at'
  | request r =>
    cases edit : r.edit? name with
    | none =>
      have none : (Occurrence.request r).edit? name = none := edit
      rw [none]
      exact holds_unedited edit holds
    | some change =>
      have some : (Occurrence.request r).edit? name = some change := edit
      rw [some] at ready ⊢
      exact holds_edit edit holds (ready rfl)

/-! ### Runs -/

theorem holds_through {es : List Occurrence} (heard : s.Heard name es)
    (holds : s.Holds name (·.breakpointAt = table)) :
    (s.through es).Holds name (·.breakpointAt = edited table (es.filterMap (·.edit? name))) := by
  induction es generalizing s table with
  | nil => exact holds
  | cons e es ih =>
    obtain ⟨direct, ready, later⟩ := heard
    have after := ih later (holds_occur direct ready holds)
    have edits : edited (edited table (e.edit? name).toList) (es.filterMap (·.edit? name)) =
        edited table ((e :: es).filterMap (·.edit? name)) := by
      rw [List.filterMap_cons]
      cases e.edit? name <;> rfl
    rwa [edits] at after

theorem heard_requests {rs : List HttpRequest} (idle : ∀ r ∈ rs, ¬ r.Executes name)
    (holds : s.Holds name (·.awaiting = false)) :
    s.Heard name (rs.map .request) ∧ (s.through (rs.map .request)).Holds name (·.awaiting = false) := by
  induction rs generalizing s with
  | nil => exact ⟨trivial, holds⟩
  | cons r rs ih =>
    obtain ⟨first, rest⟩ := List.forall_mem_cons.mp idle
    obtain ⟨heard, after⟩ := ih rest (holds_ready first holds)
    exact ⟨⟨id, fun _ => not_waits holds, heard⟩, after⟩

/-! ### What is shown -/

/-- The breakpoints are shown in the order of their addresses, each at its four digits. -/
theorem exists_members (table : Breakpoints) :
    ∃ members : List (String × Json), table.toJson Hex.word = .record members ∧
      (members.map Prod.fst).Pairwise (· < ·) ∧
      ∀ key value, (key, value) ∈ members ↔
        ∃ a kind, table[a]? = some kind ∧ key = Hex.word a ∧ value = .string (some kind.label) := by
  refine ⟨_, rfl, ?_, fun key value => ?_⟩
  · have ordered : table.toList.Pairwise fun x y => compare x.1 y.1 = .lt := Std.ExtTreeMap.ordered_keys_toList
    rw [List.map_map, List.pairwise_map]
    exact ordered.imp fun below => Hex.word_lt_word (compareOfLessAndEq_eq_lt.mp below)
  · simp only [List.mem_map, Prod.exists, Std.ExtTreeMap.mem_toList_iff_getElem?_eq_some, Prod.mk.injEq]
    constructor
    · rintro ⟨a, kind, present, rfl, rfl⟩
      exact ⟨a, kind, present, rfl, rfl⟩
    · rintro ⟨a, kind, present, rfl, rfl⟩
      exact ⟨a, kind, present, rfl, rfl⟩

/-- The answer that shows breakpoints. -/
def shown (members : List (String × Json)) : Response :=
  { status := 200
    body := .json (.object
      [(some "success", .bool true), (some "data", .object (members.map fun (key, value) => (some key, value))),
        (some "error", .null)]) }

theorem handle_breakpoints {get : HttpRequest} (asks : get.call = .ok (.breakpoints name)) {cpu : Instance}
    (found : s.behind name = .ok cpu) (ready : cpu.awaiting = false) :
    ∃ members, (s.handle get).1 = some (shown members) ∧ (members.map Prod.fst).Pairwise (· < ·) ∧
      ∀ key value, (key, value) ∈ members ↔
        ∃ a kind, cpu.breakpointAt a = some kind ∧ key = Hex.word a ∧ value = .string (some kind.label) := by
  obtain ⟨members, object, ascending, listed⟩ := exists_members cpu.breakpoints
  refine ⟨members, ?_, ascending, listed⟩
  obtain ⟨shared, -, replies⟩ := ask_of_behind found .breakpoints
  have answered : (Request.breakpoints.ask ⟨cpu, shared⟩).1 = some (.ok (.breakpoints cpu.breakpoints)) := by
    unfold Request.ask
    rw [ready]
    rfl
  obtain ⟨s', asked⟩ := replies _ answered
  have performed : perform (.breakpoints name) s = .ok (cpu.breakpoints.toJson Hex.word) s' := bind_of_ok asked
  unfold handle
  rw [asks]
  unfold answer
  simp only [performed, object]
  rfl

theorem edit?_of_null {r : HttpRequest} {a : UInt16} (null : r.call = .ok (.setBreakpoint name (Hex.word a) none)) :
    r.edit? name = some (a, none) :=
  HttpRequest.edit?_eq_some.mpr ⟨_, null, parseAddress_word a⟩

theorem not_executes {r : HttpRequest} {call : Call} (called : r.call = .ok call)
    (other : ∀ action, call ≠ .control action name) : ¬ r.Executes name := by
  rintro (step | resume)
  · cases called.symm.trans step
    exact other _ rfl
  · cases called.symm.trans resume
    exact other _ rfl

/-- Taking away what is at each address that has a breakpoint leaves nothing. -/
theorem handle_cleared {get : HttpRequest} (asks : get.call = .ok (.breakpoints name))
    (holds : s.Holds name (·.breakpointAt = table)) (ready : s.Holds name (·.awaiting = false))
    {nulls : List HttpRequest} (null : ∀ r ∈ nulls, ∃ a, r.call = .ok (.setBreakpoint name (Hex.word a) none))
    (each : ∀ a kind, table a = some kind → ∃ r ∈ nulls, r.call = .ok (.setBreakpoint name (Hex.word a) none)) :
    ((s.through (nulls.map .request)).handle get).1 = some (shown []) := by
  have idle (r : HttpRequest) (member : r ∈ nulls) : ¬ r.Executes name := by
    obtain ⟨a, called⟩ := null r member
    exact not_executes called nofun
  obtain ⟨heard, ready'⟩ := heard_requests idle ready
  obtain ⟨cpu, found, ready, same⟩ := (holds_through heard holds).ready (not_waits ready')
  have cleared (a : UInt16) : cpu.breakpointAt a = none := by
    rw [same]
    refine edited_clearing (fun e member => ?_) ?_
    · obtain ⟨x, posted, edit⟩ := List.mem_filterMap.mp member
      obtain ⟨r, inside, rfl⟩ := List.mem_map.mp posted
      obtain ⟨a', called⟩ := null r inside
      cases (edit?_of_null called).symm.trans edit
      rfl
    · -- Every address that has a breakpoint is among those posted, under its own digits.
      cases present : table a with
      | none => exact .inl rfl
      | some kind =>
        obtain ⟨r, posted, called⟩ := each a kind present
        refine .inr (List.mem_map.mpr ⟨(a, none), ?_, rfl⟩)
        exact List.mem_filterMap.mpr ⟨.request r, List.mem_map_of_mem posted, edit?_of_null called⟩
  obtain ⟨members, answered, -, listed⟩ := handle_breakpoints asks found ready
  have empty : members = [] := by
    refine List.eq_nil_iff_forall_not_mem.mpr fun (key, value) member => ?_
    obtain ⟨a, kind, present, -, -⟩ := (listed key value).mp member
    rw [cleared a] at present
    cases present
  rw [answered, empty]

/-- An address is read from a text just if behind every leading `0x` there is a hexadecimal numeral for it, and so it is
read from its own four digits. After any requests, and whatever was done to the instances between them, the breakpoints
shown are those that the event requests with readable addresses make, one after the other, in ascending order of their
spellings, and event requests without a kind for all the spellings shown take all of them away. Breakpoints are edited
by requests only; and none of these must come while the instance waits for input, to which it can come only by executing
an instruction. -/
theorem breakpoint_table (config : InstanceConfig) (store : KeyValue.Store) (clock : Nat) (name : String)
    (distinct : Peripheral.Distinct config.io) :
    (∀ text a, parseAddress text = .ok a ↔
      ∃ k digits, text.toList = (List.replicate k ['0', 'x']).flatten ++ digits ∧ ¬['0', 'x'] <+: digits ∧
        Numeral.Hexadecimal digits a.toNat) ∧
    (∀ a, parseAddress (Hex.word a) = .ok a) ∧
    (∀ rs : List HttpRequest, (∀ r ∈ rs, ¬ r.Executes name) →
      (opened config store clock).Heard name (rs.map .request) ∧
        ¬ ((opened config store clock).through (rs.map .request)).Waits name) ∧
    ∀ es, (opened config store clock).Heard name es →
      let s := (opened config store clock).through es
      ¬ s.Waits name → ∀ get : HttpRequest, get.call = .ok (.breakpoints name) →
        ∃ members, (s.handle get).1 = some (shown members) ∧ (members.map Prod.fst).Pairwise (· < ·) ∧
          (∀ key value, (key, value) ∈ members ↔
            ∃ a kind, edited (fun _ => none) (es.filterMap (·.edit? name)) a = some kind ∧
              key = Hex.word a ∧ value = .string (some kind.label)) ∧
          ∀ nulls : List HttpRequest,
            (∀ r ∈ nulls, ∃ key ∈ members.map Prod.fst, r.call = .ok (.setBreakpoint name key none)) →
            (∀ key ∈ members.map Prod.fst, ∃ r ∈ nulls, r.call = .ok (.setBreakpoint name key none)) →
            (((s.handle get).2.through (nulls.map .request)).handle get).1 = some (shown []) := by
  obtain ⟨fresh, unmade, start, ready⟩ := holds_opened distinct store clock name
  refine ⟨fun text a => parseAddress_eq_ok, parseAddress_word, fun rs idle => ?_, ?_⟩
  · obtain ⟨heard, after⟩ := heard_requests idle ⟨fresh, unmade, ready⟩
    exact ⟨heard, not_waits after⟩
  · intro es heard s waitless get asks
    have holds : s.Holds name (·.breakpointAt = _) := holds_through heard ⟨fresh, unmade, start⟩
    obtain ⟨cpu, found, ready, same⟩ := holds.ready waitless
    obtain ⟨members, answered, ascending, listed⟩ := handle_breakpoints asks found ready
    rw [same] at listed
    refine ⟨members, answered, ascending, listed, fun nulls null each => ?_⟩
    have unedited : get.edit? name = none := by
      unfold HttpRequest.edit?
      rw [asks]
    refine handle_cleared asks (holds_unedited unedited holds)
      (holds_ready (not_executes asks nofun) ⟨cpu, found, ready⟩) (fun r posted => ?_) fun a kind present => ?_
    · obtain ⟨key, member, called⟩ := null r posted
      obtain ⟨⟨_, value⟩, pair, rfl⟩ := List.mem_map.mp member
      obtain ⟨a, kind, -, rfl, -⟩ := (listed _ _).mp pair
      exact ⟨a, called⟩
    · have pair := (listed (Hex.word a) (.string (some kind.label))).mpr ⟨a, kind, present, rfl, rfl⟩
      exact each _ (List.mem_map_of_mem pair)

def event (body : String) : HttpRequest := { method := "POST", target := "/cpu/unit/event", body := some body }

/-- The fourth request spells the address of the first one in another way and the fifth that of the second one. The
third gives an address that cannot be read, and the sixth brings a body that is rejected. -/
def spelled : List HttpRequest :=
  [event "[\"0x4400\",\"stop\"]", event "[\"+4402\",\"step\"]", event "[\"zz\",\"stop\"]",
    event "[\"0x0x004400\",\"trace\"]", event "[\"4402\",null]", event "[]", event "[\"440A\",\"step\"]"]

theorem spelled_shown :
    let s := (opened {} ∅ 0).through (spelled.map .request)
    let get : HttpRequest := { method := "GET", target := "/cpu/unit/events" }
    let nulls := [event "[\"440a\",null]", event "[\"4400\",null]"]
    Peripheral.Distinct {} ∧
      (s.handle get).1 = some
        { status := 200
          body := .json (.object
            [(some "success", .bool true),
              (some "data", .object [(some "4400", .string (some "trace")), (some "440a", .string (some "step"))]),
              (some "error", .null)]) } ∧
      (((s.handle get).2.through (nulls.map .request)).handle get).1 = some
        { status := 200
          body := .json (.object
            [(some "success", .bool true), (some "data", .object []), (some "error", .null)]) } := by
  intro s get nulls
  have distinct : Peripheral.Distinct {} := by decide
  have idle : ∀ r ∈ spelled, ¬ r.Executes "unit" := by decide +kernel
  have edits : (spelled.map Occurrence.request).filterMap (·.edit? "unit") =
      [(0x4400, some .stop), (0x4402, some .step), (0x4400, some .trace), (0x4402, none), (0x440A, some .step)] := by
    decide +kernel
  have asks : get.call = .ok (.breakpoints "unit") := by decide +kernel
  have first : (event "[\"440a\",null]").call = .ok (.setBreakpoint "unit" "440a" none) := by decide +kernel
  have second : (event "[\"4400\",null]").call = .ok (.setBreakpoint "unit" "4400" none) := by decide +kernel
  obtain ⟨-, -, quiet, shows⟩ := breakpoint_table {} ∅ 0 "unit" distinct
  obtain ⟨heard, ready⟩ := quiet spelled idle
  obtain ⟨members, answered, ascending, listed, cleared⟩ := shows _ heard ready get asks
  have table (a : UInt16) (kind : Breakpoint) :
      edited (fun _ => none) ((spelled.map Occurrence.request).filterMap (·.edit? "unit")) a = some kind ↔
        a = 0x4400 ∧ kind = .trace ∨ a = 0x440A ∧ kind = .step := by
    rw [edits]
    simp only [edited, List.foldl_cons, List.foldl_nil, Function.update_apply]
    grind
  have both : members = [("4400", .string (some "trace")), ("440a", .string (some "step"))] := by
    refine (List.pairwise_map.mp ascending).eq_of_mem_iff (List.pairwise_pair.mpr (by decide)) fun (key, value) => ?_
    simp only [listed, table, List.mem_pair, Prod.mk.injEq]
    constructor
    · rintro ⟨a, kind, ⟨rfl, rfl⟩ | ⟨rfl, rfl⟩, rfl, rfl⟩
      · exact .inl ⟨rfl, rfl⟩
      · exact .inr ⟨rfl, rfl⟩
    · rintro (⟨rfl, rfl⟩ | ⟨rfl, rfl⟩)
      · exact ⟨0x4400, .trace, .inl ⟨rfl, rfl⟩, rfl, rfl⟩
      · exact ⟨0x440A, .step, .inr ⟨rfl, rfl⟩, rfl, rfl⟩
  subst both
  refine ⟨distinct, answered, cleared nulls (fun r posted => ?_) fun key member => ?_⟩
  · rcases List.mem_pair.mp posted with rfl | rfl
    · exact ⟨"440a", List.mem_pair.mpr (.inr rfl), first⟩
    · exact ⟨"4400", List.mem_pair.mpr (.inl rfl), second⟩
  · rcases List.mem_pair.mp member with rfl | rfl
    · exact ⟨_, List.mem_pair.mpr (.inr rfl), second⟩
    · exact ⟨_, List.mem_pair.mpr (.inl rfl), first⟩

end Service

end Msp430
