import Msp430.Proofs.StoreLocality

/-!
# Two instances at one store

Each instance keeps its data under keys that begin with its own name and a colon, and no key belongs to two names.
So what becomes of an instance does not depend on what is done to another one in between.
-/

namespace Msp430

open Access

/-! ### Keys -/

namespace Peripheral

def Owns (owner key : String) : Prop := ∃ p : Peripheral, key = p.key owner

theorem colon_notMem_keyPart (p : Peripheral) : ':' ∉ p.keyPart.toList := by
  cases p with
  | device d => cases d <;> decide
  | _ => decide

/-- Names may hold colons, but what follows the name in a key does not, so the last colon ends the name. -/
theorem owner_eq_of_key_eq {a b : String} {p q : Peripheral} (h : p.key a = q.key b) : a = b := by
  have chars : a.toList ++ ':' :: p.keyPart.toList = b.toList ++ ':' :: q.keyPart.toList := by
    have lists := congrArg String.toList h
    simpa [key] using lists
  have ends {l s t : List Char} (cut : ':' :: s = l ++ ':' :: t) (plain : ':' ∉ s) : l = [] := by
    cases l with
    | nil => rfl
    | cons c l =>
      obtain ⟨-, rfl⟩ := List.cons.inj cut
      exact absurd (List.mem_append_right l List.mem_cons_self) plain
  apply String.toList_inj.mp
  rcases List.append_eq_append_iff.mp chars with ⟨l, longer, cut⟩ | ⟨l, longer, cut⟩
  · rw [longer, ends cut (colon_notMem_keyPart p), List.append_nil]
  · rw [longer, ends cut (colon_notMem_keyPart q), List.append_nil]

theorem owns_apart {a b : String} (apart : a ≠ b) (p : Peripheral) : ¬ Owns b (p.key a) := by
  rintro ⟨q, same⟩
  exact apart (owner_eq_of_key_eq same)

/-- The stores agree at every key that does not belong to the owner. -/
def AgreeOff (owner : String) (s t : KeyValue.Store) : Prop := ∀ key, ¬ Owns owner key → s[key]? = t[key]?

theorem agreeOff_respects {a b : String} (apart : a ≠ b) (p : Peripheral) :
    KeyValue.Respects (p.key a) (AgreeOff b) where
  agree s t agree := agree _ (owns_apart apart p)
  insert s t v agree key foreign := by
    rw [Std.ExtTreeMap.getElem?_insert, Std.ExtTreeMap.getElem?_insert, agree key foreign]
  erase s t agree key foreign := by
    rw [Std.ExtTreeMap.getElem?_erase, Std.ExtTreeMap.getElem?_erase, agree key foreign]

/-- Both stores are one, and it agrees with `kept` at every key that does not belong to the owner. -/
def Untouched (owner : String) (kept s t : KeyValue.Store) : Prop := s = t ∧ AgreeOff owner kept s

theorem untouched_respects (owner : String) (kept : KeyValue.Store) (p : Peripheral) :
    KeyValue.Respects (p.key owner) (Untouched owner kept) := by
  have different {key : String} (foreign : ¬ Owns owner key) : ¬ compare (p.key owner) key = .eq :=
    fun same => foreign ⟨p, (Std.LawfulEqCmp.eq_of_compare same).symm⟩
  constructor
  case agree =>
    rintro s _ ⟨rfl, -⟩
    rfl
  case insert =>
    rintro s _ v ⟨rfl, same⟩
    refine ⟨rfl, fun key foreign => ?_⟩
    rw [Std.ExtTreeMap.getElem?_insert, if_neg (different foreign), same key foreign]
  case erase =>
    rintro s _ ⟨rfl, same⟩
    refine ⟨rfl, fun key foreign => ?_⟩
    rw [Std.ExtTreeMap.getElem?_erase, if_neg (different foreign), same key foreign]

end Peripheral

/-! ### What is done to one instance -/

/-- A turn of free running, one bare instruction, a request, or input that is posted. -/
inductive Op where
  | tick
  | step
  | serve (r : Request)
  | post (content : Bytes)

namespace Op

def apply (b : Bench) : Op → Bench
  | tick => b.tick
  | step => endState b.step
  | serve r => endState (r.serve b)
  | post content => endState (Bench.submit (KeyValue.set (Peripheral.input.key b.cpu.name) content) b)

def imageKey? (i : Instance) : Op → Option String
  | serve r => r.imageKey? i
  | _ => none

/-- What is done, with the reply to it. -/
def run : Op → Control Reply
  | tick => do
    modify Bench.tick
    return .done
  | step => do
    Bench.liftFault Bench.step
    return .done
  | serve r => r.serve
  | post content => do
    Bench.submit (KeyValue.set (Peripheral.input.key (← get).cpu.name) content)
    return .done

theorem endState_run (op : Op) (b : Bench) : endState (op.run b) = op.apply b := by
  cases op with
  | step =>
    change endState (EStateM.bind (Bench.liftFault Bench.step) _ b) = _
    unfold EStateM.bind Bench.liftFault apply
    cases Bench.step b <;> rfl
  | _ => rfl

variable {board : Board} {now : Nat} {M : Memory → Memory → Prop} {Q : KeyValue.Store → KeyValue.Store → Prop}
  {b b' : Bench}

theorem run_matches (indistinct : Memory.Indistinct M) (own : ∀ p : Peripheral, KeyValue.Respects (p.key board.name) Q)
    (alike : b.Alike board now M Q b') (op : Op)
    (reads : ∀ key, op.imageKey? b.cpu = some key → ∀ s t, Q s t → s[key]? = t[key]?) :
    Matches (Bench.Alike board now M Q) (op.run b) (op.run b') := by
  cases op with
  | tick =>
    have ticked := simulates_modify (ε := ControlError) fun (c c' : Bench) (related : c.Alike board now M Q c') =>
      related.tick indistinct own
    exact simulates_bind ticked (fun _ => simulates_pure Reply.done) b b' alike
  | step =>
    exact simulates_bind (Bench.liftFault_simulates (Bench.step_simulates indistinct own))
      (fun _ => simulates_pure Reply.done) b b' alike
  | serve r => exact Bench.serve_matches indistinct own alike r reads
  | post content =>
    refine simulates_get_bind (fun c c' related => ?_) b b' alike
    have name (d : Bench) (fixed : d.cpu.board = board) : d.cpu.name = board.name := congrArg Board.name fixed
    rw [name c related.board, name c' related.board']
    exact simulates_bind (Bench.submit_simulates (KeyValue.set_simulates (own .input) content)) fun _ =>
      simulates_pure Reply.done

theorem apply_alike (indistinct : Memory.Indistinct M) (own : ∀ p : Peripheral, KeyValue.Respects (p.key board.name) Q)
    (alike : b.Alike board now M Q b') (op : Op)
    (reads : ∀ key, op.imageKey? b.cpu = some key → ∀ s t, Q s t → s[key]? = t[key]?) :
    (op.apply b).Alike board now M Q (op.apply b') := by
  rw [← endState_run, ← endState_run]
  exact (run_matches indistinct own alike op reads).endState

/-- What is done to an instance leaves its board, the clock, and every key of the store that is not its own. -/
theorem apply_untouched (op : Op) (b : Bench) :
    (op.apply b).cpu.board = b.cpu.board ∧ (op.apply b).shared.clock = b.shared.clock ∧
      Peripheral.AgreeOff b.cpu.name b.shared.store (op.apply b).shared.store := by
  have start : b.Alike b.cpu.board b.shared.clock Eq (Peripheral.Untouched b.cpu.name b.shared.store) b :=
    ⟨rfl, rfl, rfl, rfl, rfl, rfl, fun _ _ => rfl⟩
  have after := apply_alike Memory.indistinct_eq (Peripheral.untouched_respects _ _) start op fun key _ s t same => by
    rw [same.1]
  exact ⟨after.board, after.clock, after.store.2⟩

end Op

/-! ### Two instances -/

/-- An instance, another one, and what they share. -/
structure Tenants where
  own : Instance
  other : Instance
  shared : Shared

namespace Tenants

/-- Something is done to one of the two, or time goes on. -/
inductive Event where
  | own (op : Op)
  | other (op : Op)
  | clock (now : Nat)

namespace Event

def concernsOther : Event → Bool
  | other _ => true
  | _ => false

/-- The key from which the first instance reads an image. -/
def imageKey? (t : Tenants) : Event → Option String
  | own op => op.imageKey? t.own
  | _ => none

end Event

def step (t : Tenants) : Event → Tenants
  | .own op =>
    let b := op.apply ⟨t.own, t.shared⟩
    { t with own := b.cpu, shared := b.shared }
  | .other op =>
    let b := op.apply ⟨t.other, t.shared⟩
    { t with other := b.cpu, shared := b.shared }
  | .clock now => { t with shared := { t.shared with clock := now } }

def after (t : Tenants) : List Event → Tenants
  | [] => t
  | e :: rest => (t.step e).after rest

def purge (es : List Event) : List Event := es.filter fun e => !e.concernsOther

/-- No image that the first instance reads is at a key of the other one. -/
def ReadsApart (t : Tenants) : List Event → Prop
  | [] => True
  | e :: rest =>
    (∀ key, e.imageKey? t = some key → ¬ Peripheral.Owns t.other.name key) ∧ (t.step e).ReadsApart rest

variable {board : Board} {neighbour : String} {t t' : Tenants}

/-- The first instance is the same, and so is the store but for the keys of the other instance. -/
structure Alike (board : Board) (neighbour : String) (t t' : Tenants) : Prop where
  own : t.own = t'.own
  board : t.own.board = board
  other : t.other.name = neighbour
  clock : t.shared.clock = t'.shared.clock
  store : Peripheral.AgreeOff neighbour t.shared.store t'.shared.store

theorem Alike.step_own (apart : board.name ≠ neighbour) (alike : Alike board neighbour t t') (op : Op)
    (reads : ∀ key, op.imageKey? t.own = some key → ¬ Peripheral.Owns neighbour key) :
    Alike board neighbour (t.step (.own op)) (t'.step (.own op)) := by
  have benches : (Bench.mk t.own t.shared).Alike board t.shared.clock Eq (Peripheral.AgreeOff neighbour)
      (Bench.mk t'.own t'.shared) :=
    ⟨by rw [alike.own], congrArg Instance.memory alike.own, alike.board, rfl, alike.clock.symm, alike.store⟩
  have done := op.apply_alike Memory.indistinct_eq (Peripheral.agreeOff_respects apart) benches
    fun key read s s' agree => agree key (reads key read)
  exact ⟨done.same, done.board, alike.other, done.clock.trans done.clock'.symm, done.store⟩

/-- What is done to the other instance is as good as not done. -/
theorem Alike.step_other (alike : Alike board neighbour t t') (op : Op) :
    Alike board neighbour (t.step (.other op)) t' := by
  obtain ⟨sameBoard, sameClock, untouched⟩ := op.apply_untouched ⟨t.other, t.shared⟩
  refine ⟨alike.own, alike.board, ?_, sameClock.trans alike.clock, fun key foreign => ?_⟩
  · exact (congrArg Board.name sameBoard).trans alike.other
  · rw [← alike.other] at foreign
    exact (untouched key foreign).symm.trans (alike.store key (alike.other ▸ foreign))

theorem Alike.after (apart : board.name ≠ neighbour) (alike : Alike board neighbour t t') {es : List Event}
    (reads : t.ReadsApart es) : Alike board neighbour (t.after es) (t'.after (purge es)) := by
  -- The events of the other instance move only the one run; all others move both alike.
  induction es generalizing t t' with
  | nil => exact alike
  | cons e rest ih =>
    obtain ⟨first, later⟩ := reads
    rw [alike.other] at first
    cases e with
    | own op => exact ih (alike.step_own apart op first) later
    | other op => exact ih (alike.step_other op) later
    | clock now => exact ih ⟨alike.own, alike.board, alike.other, rfl, alike.store⟩ later

/-- An instance comes to the same, and so does everything under its keys, if all that is done to the other instance
is left out. -/
theorem isolated (apart : t.own.name ≠ t.other.name) {es : List Event} (reads : t.ReadsApart es) :
    (t.after es).own = (t.after (purge es)).own ∧
      ∀ p : Peripheral, (t.after es).shared.store[p.key t.own.name]? =
        (t.after (purge es)).shared.store[p.key t.own.name]? := by
  have start : Alike t.own.board t.other.name t t := ⟨rfl, rfl, rfl, rfl, fun _ _ => rfl⟩
  have done := start.after apart reads
  exact ⟨done.own, fun p => done.store _ (Peripheral.owns_apart apart p)⟩

/-- An instance that prints, and one whose name is a key of the first. -/
def nested : Tenants where
  own :=
    { Instance.ofBoard (Bench.usualBoard "a") with
      memory := Memory.empty.storeBytes 0x4400 [0xF2, 0x40, 0x41, 0x00, 0xCE, 0x05]
      state := .running }
  other :=
    { Instance.ofBoard (Bench.usualBoard "a:input") with
      memory := Memory.empty.storeBytes 0x4400 [0xF2, 0x40, 0x42, 0x00, 0xCE, 0x05]
      state := .running }
  shared := {}

def nestedEvents : List Event :=
  [.own .tick, .other .tick, .other (.post [0x43]), .clock 7, .own (.serve (.loadImage "boot")), .own .tick,
    .other (.serve .reset), .own (.post [0x44])]

theorem nested_isolated :
    nested.own.name ≠ nested.other.name ∧ nested.ReadsApart nestedEvents ∧
      (nested.after nestedEvents).own = (nested.after (purge nestedEvents)).own ∧
      ∀ p : Peripheral, (nested.after nestedEvents).shared.store[p.key nested.own.name]? =
        (nested.after (purge nestedEvents)).shared.store[p.key nested.own.name]? := by
  have apart : nested.own.name ≠ nested.other.name := by decide
  have foreign : ¬ Peripheral.Owns "a:input" "boot" := by
    rintro ⟨p, same⟩
    cases p with
    | device d => cases d <;> revert same <;> decide
    | _ => revert same; decide
  have reads : nested.ReadsApart nestedEvents := by
    refine ⟨nofun, nofun, nofun, nofun, ?_, nofun, nofun, nofun, trivial⟩
    rintro key ⟨⟩
    exact foreign
  exact ⟨apart, reads, isolated apart reads⟩

end Tenants

end Msp430
