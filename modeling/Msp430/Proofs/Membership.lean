import Mathlib.Data.List.Induction
import Msp430.Proofs.Serving
import Msp430.Proofs.Tenants
import Msp430.Service.Basic

/-!
# Members of the registry

Clients look up names and ask for the list of names, in any order, while work goes on in the instances. A name is
given one instance when it is first looked up with success and keeps it; the list and the gauge show just these names.
-/

namespace Msp430

open Access

/-! ### The gauge -/

namespace Bench

variable {n : Nat}

/-- What the metrics show as the number of instances. -/
def active (b : Bench) : Nat := b.shared.metrics.instances

theorem active_setState (b : Bench) (s : RunState) : (b.setState s).active = b.active := by
  unfold setState
  split <;> rfl

theorem active_setRegisters (b : Bench) (values : Vector (Option UInt16) 16) :
    (b.setRegisters values).active = b.active := by
  unfold setRegisters active
  rfl

theorem active_begun (b : Bench) : b.begun.active = b.active := by
  unfold begun
  split <;> rfl

theorem active_advance (b : Bench) : b.advance.2.active = b.active := by
  rw [← b.active_begun]
  by_cases waits : b.machine.step.1 = .failed .awaitingInput
  · rw [advance_waits waits]
    rfl
  · rw [advance_goes waits]
    simp only [mapMetrics, Metrics.recordOutcome, active]
    split <;> rfl

theorem active_fail (b : Bench) (f : Fault) : (b.fail f).active = b.active := active_setState _ .fault

theorem lasting_active : Lasting fun b => b.active = n where
  state b s same := (b.active_setState s).trans same
  advance b same := b.active_advance.trans same
  fail b f same := (b.active_fail f).trans same
  registers b values same := (b.active_setRegisters values).trans same
  breakpoints _ _ same := same

end Bench

theorem Request.serve_keeps_active (r : Request) {n : Nat} : Keeps (fun b : Bench => b.active = n) r.serve := by
  have load (key : String) : Keeps (fun b : Bench => b.active = n) (Bench.loadImage key) :=
    Bench.loadImage_keeps (fun _ _ same => same) (fun _ _ same => same) key
  refine Bench.lasting_active.serve (fun key _ => load key) fun _ => ?_
  refine keeps_bind keeps_get fun b => keeps_bind (load _) fun _ => keeps_modify fun b same => ?_
  exact (Bench.active_setState _ .stopped).trans same

theorem Op.active_apply (op : Op) (b : Bench) : (op.apply b).active = b.active := by
  cases op with
  | tick => exact Bench.lasting_active.tick rfl
  | step => exact Bench.keeps_step Bench.lasting_active.advance b rfl
  | serve r => exact r.serve_keeps_active b rfl
  | post content => rfl

/-! ### One change of the registry -/

namespace Registry

variable {r r' : Registry} {name other : String}

/-- The number of the instance of a name. -/
def serial? (r : Registry) (name : String) : Option Nat := (r.members[name]?).map (·.serial)

theorem mem_names : name ∈ r.names ↔ (r.serial? name).isSome := by
  unfold names serial?
  rw [Std.ExtTreeMap.mem_keys, Std.ExtTreeMap.mem_iff_isSome_getElem?, Option.isSome_map]

theorem names_ascending (r : Registry) : r.names.Pairwise (· < ·) := by
  have ordered : r.names.Pairwise fun a b => compare a b = .lt := Std.ExtTreeMap.ordered_keys
  exact ordered.imp fun lt => compareOfLessAndEq_eq_lt.mp lt

theorem size_update (r : Registry) (name : String) (cpu : Instance) : (r.update name cpu).size = r.size :=
  Std.ExtTreeMap.size_modify

theorem serial?_update (r : Registry) (name : String) (cpu : Instance) (other : String) :
    (r.update name cpu).serial? other = r.serial? other := by
  unfold update serial?
  rw [Std.ExtTreeMap.getElem?_modify]
  split
  next same =>
    rw [Std.LawfulEqCmp.eq_of_compare same]
    cases r.members[other]? <;> rfl
  next => rfl

theorem enroll_of_present (made : Except ε Instance) {n : Nat} (present : r.serial? name = some n) :
    ∃ member, member.serial = n ∧ r.enroll name made = .ok member r := by
  unfold serial? at present
  obtain ⟨member, found, same⟩ := Option.map_eq_some_iff.mp present
  refine ⟨member, same, ?_⟩
  simp only [enroll, found]

theorem enroll_of_error (free : r.serial? name = none) (e : ε) : r.enroll name (.error e) = .error e r := by
  simp only [enroll, Option.map_eq_none_iff.mp free]

theorem enroll_of_ok (free : r.serial? name = none) {made : Except ε Instance} {cpu : Instance}
    (built : made = .ok cpu) :
    ∃ member r', r.enroll name made = .ok member r' ∧ member.serial = r.created ∧
      r'.created = r.created + 1 ∧ r'.size = r.size + 1 ∧
      ∀ other, r'.serial? other = if other = name then some r.created else r.serial? other := by
  subst built
  have absent := Option.map_eq_none_iff.mp free
  refine ⟨⟨r.created, cpu⟩, ⟨r.members.insert name ⟨r.created, cpu⟩, r.created + 1⟩, ?_, rfl, rfl, ?_, fun other => ?_⟩
  · simp only [enroll, absent]
  · have fresh : name ∉ r.members := by simp [Std.ExtTreeMap.mem_iff_isSome_getElem?, absent]
    simp [size, Std.ExtTreeMap.size_insert, fresh]
  · simp only [serial?, Std.ExtTreeMap.getElem?_insert, Std.compare_eq_iff_eq]
    by_cases same : other = name
    · simp [same]
    · simp [same, Ne.symm same]

end Registry

/-! ### Lookups and lists -/

namespace Service

/-- A new instance, unless it cannot be built or the system has no thread to run it. -/
def spawn (name : String) (config : InstanceConfig) (thread : Bool) : Except (Option Fault) Instance :=
  match Instance.build name config with
  | .ok cpu => if thread then .ok cpu else .error none
  | .error f => .error (some f)

/-- A client looks up a name or asks for the names, or something is done to an instance. -/
inductive Event where
  | lookup (name : String) (thread : Bool)
  | list
  | work (name : String) (op : Op)

/-- What a client is told. An instance is known by its number. -/
inductive Answer where
  | found (name : String) (serial : Nat)
  | failed (name : String)
  | listed (names : List String)
deriving DecidableEq

def happen (s : Service) : Event → Option Answer × Service
  | .lookup name thread =>
    match s.enroll name (spawn name s.config thread) with
    | .ok member s => (some (.found name member.serial), s)
    | .error _ s => (some (.failed name), s)
  | .list => (some (.listed s.registry.names), s)
  | .work name op =>
    match s.registry.get? name with
    | some cpu => (none, s.withBench name (op.apply ⟨cpu, s.shared⟩))
    | none => (none, s)

def after (s : Service) (es : List Event) : Service := es.foldl (fun s e => (s.happen e).2) s

/-- The answers to the clients, the first one first. -/
def answers (s : Service) : List Event → List Answer
  | [] => []
  | e :: es => (s.happen e).1.toList ++ (s.happen e).2.answers es

variable {s : Service} {name : String} {thread : Bool} {log : List Answer} {config : InstanceConfig}

/-- A call that looks up a name does to the service what the lookup does when there are threads. -/
theorem endState_lookup (name : String) (s : Service) :
    endState (s.lookup name) = (s.happen (.lookup name true)).2 := by
  cases built : Instance.build name s.config <;> cases found : s.registry.members[name]? <;>
    simp [lookup, happen, enroll, Registry.enroll, spawn, built, found, endState]

/-- The registry agrees with what the clients have been told. -/
structure Agrees (config : InstanceConfig) (log : List Answer) (s : Service) : Prop where
  config : s.config = config
  serial : ∀ name n, s.registry.serial? name = some n ↔ .found name n ∈ log
  below : ∀ name n, s.registry.serial? name = some n → n < s.registry.created
  apart : ∀ a b n, s.registry.serial? a = some n → s.registry.serial? b = some n → a = b
  created : s.registry.created = s.registry.size
  gauge : s.shared.metrics.instances = s.registry.size

namespace Agrees

theorem happen_of_present (h : Agrees config log s) {n : Nat} (present : s.registry.serial? name = some n) :
    s.happen (.lookup name thread) = (some (.found name n), s) := by
  obtain ⟨member, rfl, found⟩ := Registry.enroll_of_present (spawn name s.config thread) present
  simp only [happen, enroll, found, ← h.gauge]

theorem happen_of_error (free : s.registry.serial? name = none) {e : Option Fault}
    (failed : spawn name s.config thread = .error e) :
    s.happen (.lookup name thread) = (some (.failed name), s) := by
  simp only [happen, enroll, failed, Registry.enroll_of_error free]

theorem quiet (h : Agrees config log s) {told : List Answer} (none : ∀ a n, .found a n ∉ told) :
    Agrees config (log ++ told) s := by
  refine { h with serial := fun a n => (h.serial a n).trans ?_ }
  simp [none]

theorem happen (h : Agrees config log s) (e : Event) :
    Agrees config (log ++ (s.happen e).1.toList) (s.happen e).2 := by
  cases e with
  | list => exact h.quiet (by simp [Service.happen])
  | work name op =>
    simp only [Service.happen]
    cases s.registry.get? name with
    | none => exact h.quiet (by simp)
    | some cpu =>
      have serials := s.registry.serial?_update name (op.apply ⟨cpu, s.shared⟩).cpu
      have size := s.registry.size_update name (op.apply ⟨cpu, s.shared⟩).cpu
      have kept : Agrees config log (s.withBench name (op.apply ⟨cpu, s.shared⟩)) := by
        refine ⟨h.config, ?_, ?_, ?_, h.created.trans size.symm, ?_⟩
        · exact fun a n => serials a ▸ h.serial a n
        · exact fun a n => serials a ▸ h.below a n
        · exact fun a b n => serials a ▸ serials b ▸ h.apart a b n
        · exact ((op.active_apply ⟨cpu, s.shared⟩).trans h.gauge).trans size.symm
      exact kept.quiet (by simp)
  | lookup name thread =>
    cases present : s.registry.serial? name with
    | some n =>
      have told := (h.serial name n).mp present
      rw [h.happen_of_present present]
      refine { h with serial := fun a m => (h.serial a m).trans ?_ }
      simp only [Option.toList_some, List.mem_append, List.mem_singleton]
      refine ⟨.inl, ?_⟩
      rintro (already | again)
      · exact already
      · cases again
        exact told
    | none =>
      cases made : spawn name s.config thread with
      | error e =>
        rw [happen_of_error present made]
        exact h.quiet (by simp)
      | ok cpu =>
        obtain ⟨member, r, enrolled, number, created, size, serials⟩ := Registry.enroll_of_ok present made
        have untold (n : Nat) : .found name n ∉ log := by
          intro told
          cases present.symm.trans ((h.serial name n).mpr told)
        simp only [Service.happen, enroll, enrolled, number]
        constructor
        case config => exact h.config
        case serial =>
          intro a n
          simp only [serials]
          split
          next same =>
            simp only [same, Option.toList_some, List.mem_append, List.mem_singleton, untold, false_or]
            grind
          next other =>
            simp only [h.serial, Option.toList_some, List.mem_append, List.mem_singleton]
            grind
        case below =>
          intro a n held
          show n < r.created
          simp only [serials] at held
          split at held
          next =>
            cases held
            omega
          next =>
            have below := h.below a n held
            omega
        case apart =>
          intro a b n first second
          -- The new number is above all others.
          have fresh := h.below a n
          have fresh' := h.below b n
          have apart := h.apart a b n
          simp only [serials] at first second
          grind
        case created => rw [created, size, h.created]
        case gauge => rfl

end Agrees

/-- A service with an empty registry. -/
def opened (config : InstanceConfig) (store : KeyValue.Store) (clock : Nat) : Service :=
  { config, shared := { store, clock } }

example : (opened {} ∅ 0).answers [.lookup "unit" true, .lookup "gate" false, .lookup "unit" true, .list] =
    [.found "unit" 0, .failed "gate", .found "unit" 0, .listed ["unit"]] := by
  rfl

end Service

end Msp430
