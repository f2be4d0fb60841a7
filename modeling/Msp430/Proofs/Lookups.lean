import Msp430.Proofs.Enrolment

/-!
# The instance behind a name

A name stands for an instance before it is looked up for the first time, namely for the one that would be made. A
lookup changes none of them, and a call changes only the one it asks, by what it asks.
-/

namespace Msp430

open Access

/-- The request comes from the call, to the instance of the name. -/
inductive Call.Asks : Call → String → Request → Prop
  | status : Asks (.status name) name .status
  | registers : Asks (.registers name) name .registers
  | written : Asks (.setRegisters name values) name (.setRegisters values)
  | shown : Asks (.setRegisters name values) name .registers
  | memory : Service.parseAddress text = .ok a → Asks (.memory name text length) name (.readMemory a length)
  | listing : Service.parseAddress text = .ok a → Asks (.listing name text count) name (.disassemble a count)
  | breakpoints : Asks (.breakpoints name) name .breakpoints
  | placed : Service.parseAddress text = .ok a → Asks (.setBreakpoint name text (some kind)) name (.setBreakpoint a kind)
  | cleared : Service.parseAddress text = .ok a → Asks (.setBreakpoint name text none) name (.clearBreakpoint a)
  | load : Asks (.load name key) name (.loadImage key)
  | control : Asks (.control action name) name action.request
  | told : Asks (.control action name) name .status

theorem Request.bench_ask (r : Request) (b : Bench) :
    (r.ask b).2 = if b.cpu.awaiting then b else endState (r.serve b) := by
  unfold ask
  split
  · rfl
  · split <;> next served => rw [served]; rfl

theorem Registry.get?_update (r : Registry) (name : String) (cpu : Instance) (other : String) :
    (r.update name cpu).get? other = if other = name then (r.get? name).map fun _ => cpu else r.get? other := by
  unfold update get?
  rw [Std.ExtTreeMap.getElem?_modify]
  simp only [Std.compare_eq_iff_eq]
  by_cases same : other = name
  · subst same
    rw [if_pos rfl, if_pos rfl]
    cases r.members[other]? <;> rfl
  · rw [if_neg (Ne.symm same), if_neg same]

namespace Service

variable {s s' : Service} {name other : String} {cpu : Instance} {I : Instance → Prop}

/-- The instance that a name stands for. -/
def behind (s : Service) (name : String) : Except Fault Instance :=
  match s.registry.get? name with
  | some cpu => .ok cpu
  | none => Instance.build name s.config

/-- There is an instance behind the name, with the given property. -/
def Holds (name : String) (I : Instance → Prop) (s : Service) : Prop := ∃ cpu, s.behind name = .ok cpu ∧ I cpu

theorem behind_congr (config : s'.config = s.config) (same : s'.registry.get? name = s.registry.get? name) :
    s'.behind name = s.behind name := by
  unfold behind
  rw [config, same]

theorem Holds.of_same (holds : s.Holds name I) (same : s'.behind name = s.behind name) : s'.Holds name I := by
  obtain ⟨cpu, found, property⟩ := holds
  exact ⟨cpu, same.trans found, property⟩

/-! ### Lookups -/

/-- A lookup gives the instance behind the name, which is there from then on. -/
theorem lookup_of_behind (found : s.behind name = .ok cpu) :
    ∃ s', lookup name s = .ok cpu s' ∧ s'.registry.get? name = some cpu ∧ ∀ n, s'.behind n = s.behind n := by
  unfold behind at found
  unfold lookup enroll Registry.enroll
  cases present : s.registry.members[name]? with
  | some member =>
    have got : s.registry.get? name = some member.cpu := by simp [Registry.get?, present]
    rw [got] at found
    cases found
    exact ⟨_, rfl, got, fun n => behind_congr rfl rfl⟩
  | none =>
    have free : s.registry.get? name = none := by simp [Registry.get?, present]
    rw [free] at found
    simp only [found]
    refine ⟨_, rfl, by simp [Registry.get?], fun n => ?_⟩
    unfold behind
    simp only [Registry.get?, Std.ExtTreeMap.getElem?_insert, Std.compare_eq_iff_eq]
    by_cases same : name = n
    · subst same
      simp [present, found]
    · rw [if_neg same]

theorem refused_of_behind {f : Fault} (refused : s.behind name = .error f) :
    name ∉ s.registry.names ∧ Instance.build name s.config = .error f := by
  unfold behind at refused
  split at refused
  · cases refused
  next free =>
    have absent : s.registry.members[name]? = none := by simpa [Registry.get?] using free
    exact ⟨by simp [Registry.mem_names, Registry.serial?, absent], refused⟩

/-! ### Questions -/

/-- The instance of the name is put back with another, and nothing else about the instances changes. -/
structure Replaced (name : String) (cpu : Instance) (s s' : Service) : Prop where
  there : s'.behind name = .ok cpu
  others : ∀ n, n ≠ name → s'.behind n = s.behind n

theorem replaced_withBench (present : s.registry.get? name = some cpu) (b : Bench) :
    Replaced name b.cpu s (s.withBench name b) where
  there := by
    unfold behind withBench
    simp only [Registry.get?_update, present]
    rfl
  others n other := by
    refine behind_congr rfl ?_
    unfold withBench
    rw [Registry.get?_update, if_neg other]

theorem Replaced.holds (replaced : Replaced other cpu s s')
    (kept : other = name → ∀ before, s.behind name = .ok before → I before → I cpu) (holds : s.Holds name I) :
    s'.Holds name I := by
  by_cases same : other = name
  · obtain ⟨before, found, property⟩ := holds
    exact ⟨cpu, same ▸ replaced.there, kept same before found property⟩
  · exact holds.of_same (replaced.others name (Ne.symm same))

/-- What an instance is asked changes no other. A reply that it gives is the reply. -/
theorem ask_of_behind (found : s.behind name = .ok cpu) (r : Request) :
    ∃ shared, Replaced name (r.ask ⟨cpu, shared⟩).2.cpu s (endState (ask name r s)) ∧
      ∀ reply, (r.ask ⟨cpu, shared⟩).1 = some (.ok reply) → ∃ s', ask name r s = .ok reply s' := by
  obtain ⟨s₁, looked, present, same⟩ := lookup_of_behind found
  have asked : ask name r s = _ := bind_of_ok looked
  refine ⟨s₁.shared, ?_⟩
  rw [asked]
  generalize r.ask ⟨cpu, s₁.shared⟩ = answered
  obtain ⟨reply, b⟩ := answered
  have put := replaced_withBench present b
  have replaced : Replaced name b.cpu s (s₁.withBench name b) :=
    ⟨put.there, fun n other => (put.others n other).trans (same n)⟩
  rcases reply with _ | _ | reply
  · exact ⟨replaced, nofun⟩
  · exact ⟨replaced, nofun⟩
  · refine ⟨replaced, ?_⟩
    rintro _ ⟨⟩
    exact ⟨_, rfl⟩

/-! ### What calls keep -/

theorem holds_submit (job : KeyValue.Job α) : Keeps (Holds name I) (submit job) := by
  intro s holds
  unfold submit
  cases job s.shared.store <;> exact holds.of_same (behind_congr rfl rfl)

theorem holds_ask {r : Request} (kept : other = name → ∀ b, I b.cpu → I (r.ask b).2.cpu) :
    Keeps (Holds name I) (ask other r) := by
  intro s holds
  cases behind : s.behind other with
  | error f =>
    obtain ⟨free, refused⟩ := refused_of_behind behind
    rw [ask_refused free refused r]
    exact holds
  | ok cpu =>
    obtain ⟨shared, replaced, -⟩ := ask_of_behind behind r
    refine replaced.holds (fun same before found property => ?_) holds
    subst same
    cases behind.symm.trans found
    exact kept rfl ⟨cpu, shared⟩ property

theorem holds_perform {call : Call} (kept : ∀ r, call.Asks name r → ∀ b, I b.cpu → I (r.ask b).2.cpu) :
    Keeps (Holds name I) (perform call) := by
  have asked {α : Type} {n : String} {r : Request} (asks : call.Asks n r) {f : Reply → Handler α}
      (hf : ∀ reply, Keeps (Holds name I) (f reply)) : Keeps (Holds name I) (ask n r >>= f) :=
    keeps_bind (holds_ask fun same => kept r (same ▸ asks)) hf
  have addressed {α : Type} {text : String} {f : UInt16 → Handler α}
      (hf : ∀ a, parseAddress text = .ok a → Keeps (Holds name I) (f a)) :
      Keeps (Holds name I) (address text >>= f) := by
    unfold address
    cases parsed : parseAddress text with
    | ok a => exact hf a parsed
    | error cause => exact fun s holds => holds
  cases call with
  | names => exact fun s holds => holds
  | status n => exact asked .status fun _ => keeps_pure _
  | registers n => exact asked .registers fun _ => keeps_pure _
  | setRegisters n values => exact asked .written fun _ => asked .shown fun _ => keeps_pure _
  | memory n text length => exact addressed fun a parsed => asked (.memory parsed) fun _ => keeps_pure _
  | listing n text count => exact addressed fun a parsed => asked (.listing parsed) fun _ => keeps_pure _
  | breakpoints n => exact asked .breakpoints fun _ => keeps_pure _
  | setBreakpoint n text kind =>
    refine addressed fun a parsed => ?_
    cases kind with
    | some kind => exact asked (.placed parsed) fun _ => keeps_pure _
    | none => exact asked (.cleared parsed) fun _ => keeps_pure _
  | load n key => exact asked .load fun _ => keeps_pure _
  | input n text => exact keeps_bind (holds_submit _) fun _ => keeps_pure _
  | output n => exact keeps_bind (holds_submit _) fun _ => keeps_pure _
  | debugLog n => exact keeps_bind (holds_submit _) fun _ => keeps_pure _
  | control action n => exact asked .control fun _ => asked .told fun _ => keeps_pure _
  | metrics => exact fun s holds => holds

theorem behind_answer (call : Call) (s : Service) (name : String) :
    (s.answer call).2.behind name = (endState (perform call s)).behind name := by
  obtain ⟨registry, config⟩ := registry_answer call s
  exact behind_congr config (by rw [registry])

theorem holds_handle {r : HttpRequest}
    (kept : ∀ call, r.call = .ok call → ∀ q, call.Asks name q → ∀ b, I b.cpu → I (q.ask b).2.cpu)
    (holds : s.Holds name I) : (s.handle r).2.Holds name I := by
  unfold handle
  cases called : r.call with
  | error rejection => exact holds
  | ok call => exact (holds_perform (kept call called) s holds).of_same (behind_answer call s name)

theorem holds_work {n : String} {op : Op} (kept : n = name → ∀ b, I b.cpu → I (op.apply b).cpu)
    (holds : s.Holds name I) : (s.occur (.work n op)).Holds name I := by
  simp only [occur, happen]
  cases present : s.registry.get? n with
  | none => exact holds
  | some cpu =>
    refine (replaced_withBench present _).holds (fun same before found property => ?_) holds
    subst same
    unfold behind at found
    rw [present] at found
    cases found
    exact kept rfl ⟨cpu, s.shared⟩ property

end Service

end Msp430
