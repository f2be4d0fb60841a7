import Mathlib.Data.List.Induction
import Mathlib.Data.List.Sort
import Msp430.Proofs.Bindings
import Msp430.Proofs.Membership

/-!
# Which requests make instances

A request makes an instance for the name it is about as soon as it asks the instance something, whatever comes of it.
Requests that are rejected, that give an address which cannot be read or that need no more than the store make none.
Where two peripherals have one address, none is ever made.
-/

namespace Msp430

open Access

theorem Instance.build_cases (name : String) (config : InstanceConfig) :
    (Peripheral.Distinct config.io ∧ ∃ cpu, Instance.build name config = .ok cpu) ∨
      ¬Peripheral.Distinct config.io ∧
        ∃ p : Peripheral, Instance.build name config = .error (.hookConflict (p.address config.io)) := by
  rcases Instance.build_or_conflict name config with made | ⟨a, repeated, refused⟩
  · exact .inl made
  · obtain ⟨p, -, rfl⟩ := List.mem_map.mp repeated.mem
    exact .inr ⟨repeated.not_nodup, p, refused⟩

/-! ### Names that requests are about -/

/-- The name that goes with an address, if the address can be read. -/
def Service.addressed? (text name : String) : Option String :=
  match parseAddress text with
  | .ok _ => some name
  | .error _ => none

/-- The name that a call looks up. -/
def Call.enrolls? : Call → Option String
  | status name | registers name | setRegisters name _ | breakpoints name | load name _ | control _ name => some name
  | memory name text _ | listing name text _ | setBreakpoint name text _ => Service.addressed? text name
  | names | input _ _ | output _ | debugLog _ | metrics => none

def HttpRequest.enrolls? (r : HttpRequest) : Option String :=
  match r.call with
  | .ok call => call.enrolls?
  | .error _ => none

namespace Service

variable {α β : Type} {s : Service} {name : String} {name? other? : Option String}

/-- No name comes into the registry but the one given, which is there afterwards if an instance can be made. -/
def Admits (name? : Option String) (s s' : Service) : Prop :=
  s'.config = s.config ∧
    ∀ n, n ∈ s'.registry.names ↔ n ∈ s.registry.names ∨ name? = some n ∧ Peripheral.Distinct s.config.io

theorem Admits.refl (s : Service) : Admits none s s := ⟨rfl, by simp⟩

theorem Admits.trans {s₁ s₂ : Service} (first : Admits name? s s₁) (second : Admits other? s₁ s₂)
    (again : other? = none ∨ other? = name?) : Admits name? s s₂ := by
  obtain ⟨config₁, names₁⟩ := first
  obtain ⟨config₂, names₂⟩ := second
  refine ⟨config₂.trans config₁, fun n => ?_⟩
  rw [names₂, names₁, config₁]
  rcases again with rfl | rfl
  · simp
  · -- The second lookup finds what the first has brought in.
    rw [or_assoc, or_self]

/-- Work on an instance that is there. -/
theorem admits_withBench (s : Service) (name : String) (b : Bench) : Admits none s (s.withBench name b) := by
  refine ⟨rfl, fun n => ?_⟩
  have kept := s.registry.serial?_update name b.cpu n
  simp only [withBench, Registry.mem_names, kept]
  simp

/-! ### What handlers admit -/

def Enrolls (name? : Option String) (x : Handler α) : Prop := ∀ s, Admits name? s (endState (x s))

theorem enrolls_pure (a : α) : Enrolls none (pure a : Handler α) := Admits.refl

theorem enrolls_bind {x : Handler α} {f : α → Handler β} (hx : Enrolls name? x) (hf : ∀ a, Enrolls other? (f a))
    (again : other? = none ∨ other? = name?) : Enrolls name? (x >>= f) := by
  intro s
  refine ends_bind (hx s) fun a s₁ done => ?_
  have first := hx s
  rw [done] at first
  exact first.trans (hf a s₁) again

theorem enrolls_submit (job : KeyValue.Job α) : Enrolls none (submit job) := by
  intro s
  unfold submit
  cases job s.shared.store <;> exact ⟨rfl, by simp [endState]⟩

theorem enrolls_lookup (name : String) : Enrolls (some name) (lookup name) := by
  intro s
  rw [endState_lookup]
  cases present : s.registry.serial? name with
  | some n =>
    obtain ⟨member, -, found⟩ := Registry.enroll_of_present (spawn name s.config true) present
    have there : name ∈ s.registry.names := by simp [Registry.mem_names, present]
    simp only [happen, enroll, found]
    refine ⟨rfl, fun n => ⟨.inl, ?_⟩⟩
    rintro (before | ⟨same, -⟩)
    · exact before
    · cases same
      exact there
  | none =>
    rcases Instance.build_cases name s.config with ⟨distinct, cpu, built⟩ | ⟨repeated, p, refused⟩
    · have made : spawn name s.config true = .ok cpu := by simp [spawn, built]
      obtain ⟨member, r, enrolled, -, -, -, serials⟩ := Registry.enroll_of_ok present made
      simp only [happen, enroll, enrolled]
      refine ⟨rfl, fun n => ?_⟩
      simp only [Registry.mem_names, serials]
      by_cases same : n = name
      · simp [same, distinct]
      · simp [same, Ne.symm same]
    · have failed : spawn name s.config true = .error (some (.hookConflict (p.address s.config.io))) := by
        simp [spawn, refused]
      simp only [happen, enroll, failed, Registry.enroll_of_error present]
      exact ⟨rfl, by simp [repeated]⟩

theorem enrolls_ask (name : String) (r : Request) : Enrolls (some name) (ask name r) := by
  refine enrolls_bind (enrolls_lookup name) (fun cpu s => ?_) (.inl rfl)
  have kept := admits_withBench s name (r.ask ⟨cpu, s.shared⟩).2
  generalize r.ask ⟨cpu, s.shared⟩ = answered at kept ⊢
  obtain ⟨reply, b⟩ := answered
  match reply with
  | some (.ok _) | some (.error _) | none => exact kept

/-- Nothing is looked up where the address cannot be read. -/
theorem enrolls_address {f : UInt16 → Handler α} (text : String) (hf : ∀ a, Enrolls (some name) (f a)) :
    Enrolls (addressed? text name) (address text >>= f) := by
  unfold addressed? address
  cases parseAddress text with
  | ok a => exact hf a
  | error cause => exact Admits.refl

theorem enrolls_perform (call : Call) : Enrolls call.enrolls? (perform call) := by
  have asked {f : Reply → Json} (name : String) (r : Request) :
      Enrolls (some name) (do return f (← ask name r)) :=
    enrolls_bind (enrolls_ask name r) (fun _ => enrolls_pure _) (.inl rfl)
  cases call with
  | names => exact Admits.refl
  | status name => exact asked name .status
  | registers name => exact asked name .registers
  | setRegisters name values =>
    exact enrolls_bind (enrolls_ask name _) (fun _ => asked name .registers) (.inr rfl)
  | memory name text length =>
    exact enrolls_address text fun a => asked name (.readMemory a length)
  | listing name text count => exact enrolls_address text fun a => asked name (.disassemble a count)
  | breakpoints name => exact asked name .breakpoints
  | setBreakpoint name text kind =>
    exact enrolls_address text fun a => enrolls_bind (enrolls_ask name _) (fun _ => enrolls_pure _) (.inl rfl)
  | load name key => exact asked name (.loadImage key)
  | input name text => exact enrolls_bind (enrolls_submit _) (fun _ => enrolls_pure _) (.inl rfl)
  | output name => exact enrolls_bind (enrolls_submit _) (fun _ => enrolls_pure _) (.inl rfl)
  | debugLog name => exact enrolls_bind (enrolls_submit _) (fun _ => enrolls_pure _) (.inl rfl)
  | control action name => exact enrolls_bind (enrolls_ask name _) (fun _ => asked name .status) (.inr rfl)
  | metrics => exact Admits.refl

/-! ### Requests -/

theorem registry_answer (call : Call) (s : Service) :
    (s.answer call).2.registry = (endState (perform call s)).registry ∧
      (s.answer call).2.config = (endState (perform call s)).config := by
  unfold answer
  split
  · exact ⟨rfl, rfl⟩
  · cases perform call s with
    | ok data s => exact ⟨rfl, rfl⟩
    | error f s => cases f <;> exact ⟨rfl, rfl⟩

theorem admits_handle (r : HttpRequest) (s : Service) : Admits r.enrolls? s (s.handle r).2 := by
  unfold HttpRequest.enrolls? handle
  cases r.call with
  | error rejection => exact Admits.refl s
  | ok call =>
    obtain ⟨registry, config⟩ := registry_answer call s
    have performed := enrolls_perform call s
    unfold Admits at performed ⊢
    rwa [registry, config]

theorem listed_names {r : HttpRequest} (asks : r.call = .ok .names) (s : Service) :
    (s.handle r).1 = some
      { status := 200
        body := .json (.object
          [(some "success", .bool true), (some "data", .array (s.registry.names.map fun n => .string (some n))),
            (some "error", .null)]) } := by
  unfold handle
  rw [asks]
  rfl

/-! ### Requests to instances that cannot be made -/

section Refused

variable {f : Fault} (free : name ∉ s.registry.names) (refused : Instance.build name s.config = .error f)
include free refused

theorem ask_refused (r : Request) : ask name r s = .error (.control (.cpu f)) s := by
  have absent : s.registry.serial? name = none := by simpa [Registry.mem_names] using free
  refine bind_eq_error.mpr (.inl ?_)
  unfold lookup enroll
  rw [refused, Registry.enroll_of_error absent]

theorem perform_refused {call : Call} (enrolls : call.enrolls? = some name) :
    perform call s = .error (.control (.cpu f)) s := by
  have asked {α : Type} (r : Request) (next : Reply → Handler α) :
      (ask name r >>= next) s = .error (.control (.cpu f)) s :=
    bind_eq_error.mpr (.inl (ask_refused free refused r))
  have addressed {α : Type} {text other : String} {next : UInt16 → Handler α} (found : addressed? text other = some name)
      (h : other = name → ∀ a, next a s = .error (.control (.cpu f)) s) :
      (address text >>= next) s = .error (.control (.cpu f)) s := by
    unfold addressed? at found
    unfold address
    cases parsed : parseAddress text <;> rw [parsed] at found <;> cases found
    exact h rfl _
  cases call with
  | names | input _ _ | output _ | debugLog _ | metrics => cases enrolls
  | memory other text length => exact addressed enrolls fun same a => same ▸ asked _ _
  | listing other text count => exact addressed enrolls fun same a => same ▸ asked _ _
  | setBreakpoint other text kind => exact addressed enrolls fun same a => same ▸ asked _ _
  | _ =>
    cases enrolls
    exact asked _ _

end Refused

theorem answer_refused {call : Call} {cause : ControlError}
    (failed : perform call s = .error (.control cause) s) :
    (s.answer call).1 = some (Response.ofResult (.error (.control cause))) := by
  unfold answer
  split
  · cases failed
  · rw [failed]

theorem handle_refused {r : HttpRequest} {f : Fault} (enrolls : r.enrolls? = some name)
    (free : name ∉ s.registry.names) (refused : Instance.build name s.config = .error f) :
    (s.handle r).1 = some
      { status := 400
        body := .json (.object
          [(some "success", .bool false), (some "data", .null), (some "error", .string (some f.message))]) } := by
  unfold HttpRequest.enrolls? at enrolls
  unfold handle
  cases called : r.call with
  | error rejection =>
    rw [called] at enrolls
    cases enrolls
  | ok call =>
    rw [called] at enrolls
    exact answer_refused (perform_refused free refused enrolls)

/-! ### Runs -/

/-- A request is answered, or something is done to an instance. -/
inductive Occurrence where
  | request (r : HttpRequest)
  | work (name : String) (op : Op)

namespace Occurrence

def enrolls? : Occurrence → Option String
  | request r => r.enrolls?
  | work _ _ => none

end Occurrence

def occur (s : Service) : Occurrence → Service
  | .request r => (s.handle r).2
  | .work name op => (s.happen (.work name op)).2

def through (s : Service) (es : List Occurrence) : Service := es.foldl occur s

theorem admits_occur (e : Occurrence) (s : Service) : Admits e.enrolls? s (s.occur e) := by
  cases e with
  | request r => exact admits_handle r s
  | work name op =>
    simp only [occur, happen]
    cases s.registry.get? name with
    | some cpu => exact admits_withBench s name _
    | none => exact Admits.refl s

/-- The names in the registry are those that have been enrolled. -/
theorem names_through (config : InstanceConfig) (store : KeyValue.Store) (clock : Nat) (es : List Occurrence) :
    ((opened config store clock).through es).config = config ∧
      ∀ n, n ∈ ((opened config store clock).through es).registry.names ↔
        Peripheral.Distinct config.io ∧ ∃ e ∈ es, e.enrolls? = some n := by
  induction es using List.reverseRecOn with
  | nil =>
    refine ⟨rfl, fun n => ?_⟩
    simp [through, opened, Registry.names]
  | append_singleton es e ih =>
    obtain ⟨kept, names⟩ := ih
    obtain ⟨config', names'⟩ := admits_occur e ((opened config store clock).through es)
    have last : (opened config store clock).through (es ++ [e]) = ((opened config store clock).through es).occur e :=
      List.foldl_append
    rw [last]
    refine ⟨config'.trans kept, fun n => ?_⟩
    have split : (∃ x ∈ es ++ [e], x.enrolls? = some n) ↔ (∃ x ∈ es, x.enrolls? = some n) ∨ e.enrolls? = some n := by
      simp [or_and_right, exists_or]
    rw [names', names, kept, split, and_or_left, and_comm (a := e.enrolls? = some n)]

theorem exists_request {es : List Occurrence} :
    (∃ e ∈ es, e.enrolls? = some name) ↔ ∃ r, .request r ∈ es ∧ r.enrolls? = some name := by
  constructor
  · rintro ⟨e, member, enrolls⟩
    cases e with
    | request r => exact ⟨r, member, enrolls⟩
    | work name op => cases enrolls
  · rintro ⟨r, member, enrolls⟩
    exact ⟨_, member, enrolls⟩

/-- After any requests, and whatever was done to the instances between them, the names are listed in ascending order.
They are those that a request has enrolled, if no two peripherals have the same address. Otherwise there are none, and
a request that would enrol a name is told of the conflict. -/
theorem enrolment (config : InstanceConfig) (store : KeyValue.Store) (clock : Nat) (es : List Occurrence) :
    let s := (opened config store clock).through es
    ∃ listed : List String, listed.Pairwise (· < ·) ∧
      (∀ r : HttpRequest, r.call = .ok .names → (s.handle r).1 = some
        { status := 200
          body := .json (.object
            [(some "success", .bool true), (some "data", .array (listed.map fun n => .string (some n))),
              (some "error", .null)]) }) ∧
      (Peripheral.Distinct config.io → ∀ name, name ∈ listed ↔ ∃ r, .request r ∈ es ∧ r.enrolls? = some name) ∧
      (¬Peripheral.Distinct config.io → listed = [] ∧
        ∀ (r : HttpRequest) (name : String), r.enrolls? = some name → ∃ p : Peripheral, (s.handle r).1 = some
          { status := 400
            body := .json (.object
              [(some "success", .bool false), (some "data", .null),
                (some "error", .string (some (Fault.hookConflict (p.address config.io)).message))]) }) := by
  intro s
  obtain ⟨kept, names⟩ := names_through config store clock es
  refine ⟨s.registry.names, s.registry.names_ascending, fun r asks => listed_names asks s, ?_, ?_⟩
  · intro distinct name
    rw [names, exists_request]
    exact and_iff_right distinct
  · intro repeated
    have free (name : String) : name ∉ s.registry.names := by
      rw [names]
      rintro ⟨distinct, -⟩
      exact repeated distinct
    refine ⟨List.eq_nil_iff_forall_not_mem.mpr free, fun r name enrolls => ?_⟩
    rcases Instance.build_cases name config with ⟨distinct, -⟩ | ⟨-, p, refused⟩
    · exact absurd distinct repeated
    · rw [← kept] at refused
      exact ⟨p, kept ▸ handle_refused enrolls (free name) refused⟩

/-- Only the third request and the last one reach an instance: the others leave input, give an address that cannot be
read, and bring a body that is rejected. -/
def visits : List Occurrence :=
  [.request { method := "POST", target := "/cpu/vent/input", body := some "[\"x\"]" },
    .request { method := "GET", target := "/cpu/vent/memory/zz" },
    .request { method := "GET", target := "/cpu/unit/memory/0x20?len=2" },
    .request { method := "POST", target := "/cpu/vent/regs", body := some "[]" },
    .request { method := "POST", target := "/cpu/gate/step" }]

theorem visits_enrolled :
    Peripheral.Distinct {} ∧ ¬Peripheral.Distinct { lock := 0x0222 } ∧
      (((opened {} ∅ 0).through visits).handle { method := "GET", target := "/cpus" }).1 = some
        { status := 200
          body := .json (.object
            [(some "success", .bool true), (some "data", .array [.string (some "gate"), .string (some "unit")]),
              (some "error", .null)]) } ∧
      ∃ p : Peripheral,
        (((opened { io := { lock := 0x0222 } } ∅ 0).through visits).handle { method := "GET", target := "/cpu/unit" }).1 =
          some
            { status := 400
              body := .json (.object
                [(some "success", .bool false), (some "data", .null),
                  (some "error", .string (some (Fault.hookConflict (p.address { lock := 0x0222 })).message))]) } := by
  have spelled : visits.map Occurrence.enrolls? = [none, none, some "unit", none, some "gate"] := by decide +kernel
  have distinct : Peripheral.Distinct {} := by decide
  have repeated : ¬Peripheral.Distinct { lock := 0x0222 } := by decide
  obtain ⟨listed, ascending, answers, members, -⟩ := enrolment {} ∅ 0 visits
  obtain ⟨_, -, -, -, conflict⟩ := enrolment { io := { lock := 0x0222 } } ∅ 0 visits
  have both : listed = ["gate", "unit"] := by
    refine ascending.eq_of_mem_iff (by decide) fun name => ?_
    rw [members distinct, ← exists_request, ← List.mem_map, spelled]
    simp [or_comm]
  subst both
  exact ⟨distinct, repeated, answers _ rfl, (conflict repeated).2 _ "unit" rfl⟩

end Service

end Msp430
