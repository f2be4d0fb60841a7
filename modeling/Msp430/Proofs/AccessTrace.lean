import Msp430.Proofs.Simulation

/-!
# The accesses of a step

A step fetches once, loads each operand in memory once, source first, and stores at most once. Which accesses
these are can be told from the instruction and the registers. They are made in order until one fails, and a hook
is called exactly for each access at its address.
-/

namespace Msp430

open Access

/-- An access as far as the text of an instruction tells it, which is all but the value that is stored. -/
inductive Site where
  | fetch (a : UInt16)
  | load (w : Width) (a : UInt16)
  | store (w : Width) (a : UInt16)
deriving DecidableEq, Repr

theorem Width.trim_byte (v : UInt16) : Width.byte.trim v = (lowByte v).toUInt16 := by
  apply UInt16.toNat_inj.mp
  simp only [UInt8.toNat_toUInt16, lowByte, toNat_trim, modulus, UInt8.toNat_ofNat']

namespace Touch

variable {μ : Type} [Bus μ]

def site : Touch → Site
  | fetch a => .fetch a
  | load w a => .load w a
  | store w a _ => .store w a

/-- The access as it arrives at a memory: a byte store brings no more than a byte. -/
def seen : Touch → Touch
  | store w a v => store w a (w.trim v)
  | t => t

/-- Makes accesses one after the other until one fails. -/
def makeAll : List Touch → Access μ Unit
  | [], m => .ok () m
  | t :: rest, m =>
    match t.make m with
    | .ok _ m' => makeAll rest m'
    | .error f m' => .error f m'

/-- The accesses that are made then, with the one that fails. -/
def made : List Touch → μ → List Touch
  | [], _ => []
  | t :: rest, m =>
    t :: match t.make m with
      | .ok _ m' => made rest m'
      | .error _ _ => []

theorem lowByte_trim (v : UInt16) : lowByte (Width.byte.trim v) = lowByte v := by
  apply UInt8.toNat_inj.mp
  simp only [lowByte, Width.toNat_trim, Width.modulus, UInt8.toNat_ofNat']
  omega

theorem seen_store_byte (a v : UInt16) : (store .byte a v).seen = store .byte a (lowByte v).toUInt16 :=
  congrArg _ (Width.trim_byte v)

theorem seen_store_word (a v : UInt16) : (store .word a v).seen = store .word a v :=
  congrArg _ (Width.trim_word v)

theorem store_trim (w : Width) (a v : UInt16) : (Bus.store w a (w.trim v) : Access μ Unit) = Bus.store w a v := by
  cases w with
  | byte => simp only [Bus.store, lowByte_trim]
  | word => rw [Width.trim_word]

end Touch

/-! ### What an instruction asks for -/

namespace Place

def loads (w : Width) : Place → List Site
  | memory a => [.load w a]
  | _ => []

def stores (w : Width) : Place → List Site
  | memory a => [.store w a]
  | _ => []

end Place

namespace Instruction

/-- The loads of the operands. A return from interrupt loads nothing, and a move does not look at its
destination. -/
def loadSites (i : Instruction) (rs : Registers) : List Site :=
  match i with
  | single op _ operand => if op = .reti then [] else (operand.place rs).loads i.width
  | jump _ _ => []
  | double op _ source destination =>
    (source.place rs).loads i.width ++
      if op = .mov then [] else (destination.place (source.advance i.width rs)).loads i.width

/-- The store of the result, to where the operand has been loaded from. A push stores below the stack pointer as
the operand leaves it. -/
def storeSites (i : Instruction) (rs : Registers) : List Site :=
  match i with
  | single op _ operand =>
    if op.pushes then [.store i.width ((operand.advance i.width rs).sp - 2)]
    else if op.transforms then (operand.place rs).stores i.width
    else []
  | jump _ _ => []
  | double op _ source destination =>
    if op.stores ∧ op ≠ .dadd then (destination.place (source.advance i.width rs)).stores i.width else []

end Instruction

def Effect.storeSites (w : Width) (rs : Registers) (e : Effect) : List Site :=
  (e.store? rs).toList.map fun store => .store w store.1

theorem Effect.storeSites_assign (w : Width) (rs : Registers) (p : Place) (r : AluResult) :
    (assign p r).storeSites w rs = p.stores w := by
  cases p <;> rfl

theorem SingleOp.storeSites_effect (op : SingleOp) (w : Width) (p : Place) (v : UInt16) (carry : Bool)
    (rs : Registers) :
    (op.effect w p v carry).storeSites w rs =
      if op.pushes then [.store w (rs.sp - 2)] else if op.transforms then p.stores w else [] := by
  cases op
  case rrc | rra | swpb | sxt => exact Effect.storeSites_assign w rs p _
  all_goals rfl

theorem DoubleOp.storeSites_effect (op : DoubleOp) (w : Width) (p : Place) (r : AluResult) (rs : Registers) :
    (op.effect p r).storeSites w rs = if op.stores then p.stores w else [] := by
  unfold DoubleOp.effect
  split
  · exact Effect.storeSites_assign w rs p r
  · rfl

theorem DoubleOp.apply_eq_none {op : DoubleOp} {w : Width} {s d : UInt16} {carry : Bool} :
    op.apply w s d carry = none ↔ op = .dadd := by
  cases op <;> simp [apply]

namespace Dialogue

variable {μ α β : Type}

/-- Whatever the replies, the accesses asked for have these sites in this order. Then the dialogue gives a result
of which `Q` holds, or it fails of itself, which it does only if `F`. -/
inductive Asks (Q : α → Registers → Prop) (F : Prop) : List Site → Dialogue α → Prop
  | give {a : α} {rs : Registers} : Q a rs → Asks Q F [] (.give a rs)
  | fail {f : Fault} {rs : Registers} : F → Asks Q F [] (.fail f rs)
  | ask {t : Touch} {rs : Registers} {next : t.Reply → Dialogue α} {sites : List Site} :
      (∀ reply, Asks Q F sites (next reply)) → Asks Q F (t.site :: sites) (.ask t rs next)

theorem Asks.bind {Q : α → Registers → Prop} {F : Prop} {Q' : β → Registers → Prop} {F' : Prop}
    {sites rest : List Site} {d : Dialogue α} {f : α → Registers → Dialogue β} (h : d.Asks Q F sites)
    (hf : ∀ a rs, Q a rs → (f a rs).Asks Q' F' rest) (failed : F → rest = [] ∧ F') :
    (d.bind f).Asks Q' F' (sites ++ rest) := by
  induction h with
  | give hQ => exact hf _ _ hQ
  | fail hF =>
    obtain ⟨rfl, hF'⟩ := failed hF
    exact .fail hF'
  | ask _ ih => exact .ask ih

theorem Asks.bind_last {Q : α → Registers → Prop} {F : Prop} {Q' : β → Registers → Prop} {F' : Prop}
    {sites : List Site} {d : Dialogue α} {f : α → Registers → Dialogue β} (h : d.Asks Q F sites)
    (hf : ∀ a rs, Q a rs → (f a rs).Asks Q' F' []) (failed : F → F') : (d.bind f).Asks Q' F' sites := by
  rw [← List.append_nil sites]
  exact h.bind hf fun hF => ⟨rfl, failed hF⟩

theorem load_asks (w : Width) (rs : Registers) (p : Place) :
    (load w rs p).Asks (fun _ rs' => rs' = rs) False (p.loads w) := by
  cases p with
  | register r => exact .give rfl
  | literal v => exact .give rfl
  | memory a => exact .ask (t := .load w a) fun v => .give rfl

theorem loadDestination_asks (op : DoubleOp) (w : Width) (rs : Registers) (p : Place) :
    (loadDestination op w rs p).Asks (fun _ rs' => rs' = rs) False (if op = .mov then [] else p.loads w) := by
  unfold loadDestination
  split
  · exact .give rfl
  · exact load_asks w rs p

theorem gather_asks {i : Instruction} (hi : i.Encodable) (rs : Registers) :
    (gather i rs).Asks (fun e rs' => e.storeSites i.width rs' = i.storeSites rs) (i.storeSites rs = [])
      (i.loadSites rs) := by
  cases i with
  | single op flag operand =>
    simp only [gather, Instruction.loadSites]
    split
    next reti =>
      subst reti
      exact .fail rfl
    next =>
      refine (load_asks _ _ _).bind_last (fun v rs' same => .give ?_) False.elim
      subst same
      exact op.storeSites_effect _ _ _ _ _
  | jump condition offset =>
    refine .give ?_
    cases condition.holds rs <;> rfl
  | double op flag source destination =>
    simp only [gather, Instruction.loadSites]
    refine (load_asks _ _ _).bind (fun s rs₁ same => ?_) False.elim
    subst same
    refine (loadDestination_asks _ _ _ _).bind_last (fun d rs₂ same => ?_) False.elim
    subst same
    rw [Operand.advance_of_isDestination hi.2]
    split
    next none =>
      obtain rfl := DoubleOp.apply_eq_none.mp none
      exact .fail rfl
    next r some =>
      have other : op ≠ .dadd := fun same => by
        rw [DoubleOp.apply_eq_none.mpr same] at some
        cases some
      refine .give ?_
      rw [op.storeSites_effect]
      simp only [Instruction.storeSites, other, ne_eq, not_false_eq_true, and_true]

theorem commit_asks (w : Width) (e : Effect) (rs : Registers) :
    (commit w e rs).Asks (fun _ _ => True) True (e.storeSites w rs) := by
  have unplaced {f : Fault} (h : e.refusal? = some f) : e.storeSites w rs = [] := by
    cases e with
    | assign p r =>
      cases p with
      | memory a => cases h
      | _ => rfl
    | _ => cases h
  unfold commit
  cases hr : e.refusal? with
  | some f =>
    rw [unplaced hr]
    exact .fail trivial
  | none =>
    unfold Effect.storeSites
    cases e.store? rs with
    | none => exact .give trivial
    | some store => exact .ask (t := .store w store.1 store.2) fun _ => .give trivial

theorem execute_asks {i : Instruction} (hi : i.Encodable) (rs : Registers) :
    (execute i rs).Asks (fun _ _ => True) True (i.loadSites rs ++ i.storeSites rs) := by
  refine (gather_asks hi rs).bind (fun e rs' same => ?_) fun none => ⟨none, trivial⟩
  rw [← same]
  exact commit_asks i.width e rs'

/-! ### Accesses as they are made -/

/-- The accesses that arrive at a memory. -/
def accesses [Bus μ] : Dialogue α → μ → List Touch
  | ask t _ next, m =>
    t.seen :: match t.make m with
      | .ok reply m' => (next reply).accesses m'
      | .error _ _ => []
  | _, _ => []

/-- The dialogue makes the accesses of a plan until one fails. They are all that it does to the memory, and it
fails as the access fails. -/
structure Carries [Bus μ] (d : Dialogue α) (m : μ) (plan : List Touch) : Prop where
  made : d.accesses m = Touch.made plan m
  memory : (endState (d.run m)).memory = endState (Touch.makeAll plan m)
  failure : ∀ f m', Touch.makeAll plan m = .error f m' → ∃ x, d.run m = .error f x

end Dialogue

namespace Touch

variable {μ : Type} [Bus μ]

theorem site_seen (t : Touch) : t.seen.site = t.site := by cases t <;> rfl

theorem makeAll_seen (t : Touch) (rest : List Touch) (m : μ) :
    makeAll (t.seen :: rest) m =
      match t.make m with
      | .ok _ m' => makeAll rest m'
      | .error f m' => .error f m' := by
  cases t with
  | fetch a => rfl
  | load w a => rfl
  | store w a v =>
    simp only [seen, makeAll, make, store_trim]
    cases Bus.store w a v m <;> rfl

theorem made_seen (t : Touch) (rest : List Touch) (m : μ) :
    made (t.seen :: rest) m =
      t.seen :: match t.make m with
        | .ok _ m' => made rest m'
        | .error _ _ => [] := by
  cases t with
  | fetch a => rfl
  | load w a => rfl
  | store w a v =>
    simp only [seen, made, make, store_trim]
    cases Bus.store w a v m <;> rfl

theorem exists_of_sites (sites : List Site) : ∃ plan : List Touch, plan.map site = sites := by
  induction sites with
  | nil => exact ⟨[], rfl⟩
  | cons s rest ih =>
    obtain ⟨plan, rfl⟩ := ih
    cases s with
    | fetch a => exact ⟨.fetch a :: plan, rfl⟩
    | load w a => exact ⟨.load w a :: plan, rfl⟩
    | store w a => exact ⟨.store w a 0 :: plan, rfl⟩

end Touch

namespace Dialogue

variable {μ α : Type} [Bus μ] {t : Touch} {rs : Registers} {next : t.Reply → Dialogue α} {m m' : μ}
  {plan : List Touch}

theorem Carries.answered {reply : t.Reply} (h : t.make m = .ok reply m') (rest : (next reply).Carries m' plan) :
    (ask t rs next).Carries m (t.seen :: plan) where
  made := by
    rw [Touch.made_seen, accesses, h]
    simp only [rest.made]
  memory := by
    rw [Touch.makeAll_seen, run, h]
    exact rest.memory
  failure := by
    rw [Touch.makeAll_seen, run, h]
    exact rest.failure

theorem Carries.refused {f : Fault} (h : t.make m = .error f m') (plan : List Touch) :
    (ask t rs next).Carries m (t.seen :: plan) where
  made := by rw [Touch.made_seen, accesses, h]
  memory := by
    rw [Touch.makeAll_seen, run, h]
    rfl
  failure := by
    rw [Touch.makeAll_seen, run, h]
    rintro f' m'' same
    cases same
    exact ⟨_, rfl⟩

theorem Asks.carried {Q : α → Registers → Prop} {F : Prop} {sites : List Site} {d : Dialogue α}
    (h : d.Asks Q F sites) (m : μ) : ∃ plan : List Touch, plan.map Touch.site = sites ∧ d.Carries m plan := by
  induction h generalizing m with
  | give => exact ⟨[], rfl, rfl, rfl, fun f m' h => by cases h⟩
  | fail => exact ⟨[], rfl, rfl, rfl, fun f m' h => by cases h⟩
  | @ask t rs next sites _ ih =>
    cases answer : t.make m with
    | ok reply m' =>
      obtain ⟨plan, rfl, carried⟩ := ih reply m'
      exact ⟨t.seen :: plan, by rw [List.map_cons, Touch.site_seen], .answered answer carried⟩
    | error f m' =>
      obtain ⟨plan, rfl⟩ := Touch.exists_of_sites sites
      exact ⟨t.seen :: plan, by rw [List.map_cons, Touch.site_seen], .refused answer plan⟩

end Dialogue

namespace Touch

variable {μ : Type} [Bus μ]

/-- A traced memory notes each access as it arrives. -/
theorem make_traced (t : Touch) : (t.make : Access (Traced μ) t.Reply) = Traced.note t.seen t.make := by
  cases t with
  | fetch a => rfl
  | load w a =>
    cases w with
    | byte =>
      funext m
      change EStateM.map _ (Traced.note _ (Bus.loadByte a)) m = Traced.note _ (EStateM.map _ (Bus.loadByte a)) m
      simp only [EStateM.map, Traced.note]
      cases Bus.loadByte a m.memory <;> rfl
    | word => rfl
  | store w a v =>
    cases w with
    | byte =>
      rw [seen_store_byte]
      rfl
    | word =>
      rw [seen_store_word]
      rfl

end Touch

theorem Dialogue.run_traced {μ α : Type} [Bus μ] (d : Dialogue α) (m : μ) (touches : List Touch) :
    d.run (Traced.mk m touches) =
      match d.run m with
      | .ok a m' => .ok a ⟨m'.registers, m'.memory, touches ++ d.accesses m⟩
      | .error f m' => .error f ⟨m'.registers, m'.memory, touches ++ d.accesses m⟩ := by
  induction d generalizing m touches with
  | give a rs => simp only [run, accesses, List.append_nil]
  | fail f rs => simp only [run, accesses, List.append_nil]
  | ask t rs next ih =>
    simp only [run, accesses, Touch.make_traced, Traced.note]
    cases t.make m with
    | ok reply m' => simp only [ih, List.append_assoc, List.singleton_append]
    | error f m' => rfl

namespace Machine

variable {μ : Type} [Bus μ]

omit [Bus μ] in
/-- The machine with a memory that notes the accesses from now on. -/
def noting (m : Machine μ) : Machine (Traced μ) := ⟨m.registers, m.memory, []⟩

/-- The accesses that the next step makes. -/
def touches (m : Machine μ) : List Touch := m.noting.step.2.memory.touches

/-- What the operands of the next instruction ask for; nothing, if there is no instruction. -/
def operandSites (m : Machine μ) : List Site :=
  match Bus.fetch m.registers.pc m.memory with
  | .error _ _ => []
  | .ok raw _ =>
    match decode raw.toList with
    | .error _ => []
    | .ok d =>
      d.instruction.loadSites (m.past d.instruction).registers ++
        d.instruction.storeSites (m.past d.instruction).registers

/-- The step makes one fetch, then loads and stores what the instruction asks for, in order until an access
fails. Then it fails in the same way. No more than this happens to the memory, and noting it changes nothing. -/
structure Orderly (m : Machine μ) : Prop where
  unseen : m.noting.step = (m.step.1, ⟨m.step.2.registers, m.step.2.memory, m.touches⟩)
  planned : ∃ plan : List Touch, plan.map Touch.site = .fetch m.registers.pc :: m.operandSites ∧
    m.touches = Touch.made plan m.memory ∧ m.step.2.memory = endState (Touch.makeAll plan m.memory) ∧
    ∀ f mem, Touch.makeAll plan m.memory = .error f mem → m.step.1 = .failed f

theorem step_noting (m : Machine μ) :
    m.noting.step =
      (m.step.1, ⟨m.step.2.registers, m.step.2.memory, (Dialogue.cycle m.registers).accesses m.memory⟩) := by
  unfold step
  rw [Dialogue.cycle_eq_run, Dialogue.cycle_eq_run m]
  unfold noting
  rw [Dialogue.run_traced]
  cases (Dialogue.cycle m.registers).run m.memory <;> rfl

theorem touches_eq (m : Machine μ) : m.touches = (Dialogue.cycle m.registers).accesses m.memory := by
  rw [touches, step_noting]

theorem cycle_carried (m : Machine μ) :
    ∃ plan : List Touch, plan.map Touch.site = .fetch m.registers.pc :: m.operandSites ∧
      (Dialogue.cycle m.registers).Carries m.memory plan := by
  unfold operandSites
  cases fetched : Bus.fetch m.registers.pc m.memory with
  | error f mem => exact ⟨[.fetch m.registers.pc], rfl, .refused (t := .fetch _) fetched []⟩
  | ok raw mem =>
    simp only
    cases decoded : decode raw.toList with
    | error cause =>
      have rest : (Dialogue.fail (α := Decoded) (.undecodable cause) m.registers).Carries mem [] :=
        ⟨rfl, rfl, fun f m' h => by cases h⟩
      refine ⟨[.fetch m.registers.pc], rfl, .answered (t := .fetch _) fetched ?_⟩
      rw [decoded]
      exact rest
    | ok d =>
      have asks : ((Dialogue.execute d.instruction (m.past d.instruction).registers).bind
          fun _ rs => .give d rs).Asks (fun _ _ => True) True _ :=
        (Dialogue.execute_asks (decode_encodable decoded) _).bind_last (fun _ _ _ => .give trivial) id
      obtain ⟨plan, sites, rest⟩ := asks.carried mem
      refine ⟨.fetch m.registers.pc :: plan, congrArg _ sites, .answered (t := .fetch _) fetched ?_⟩
      rw [decoded]
      exact rest

theorem step_orderly (m : Machine μ) : m.Orderly where
  unseen := by rw [step_noting, touches_eq]
  planned := by
    obtain ⟨plan, sites, carried⟩ := m.cycle_carried
    refine ⟨plan, sites, m.touches_eq.trans carried.made, ?_, fun f mem failed => ?_⟩
    · rw [step_end, Dialogue.cycle_eq_run]
      exact carried.memory
    · obtain ⟨x, ended⟩ := carried.failure f mem failed
      unfold step
      rw [Dialogue.cycle_eq_run, ended]

end Machine

/-! ### Calls of hooks -/

inductive HookCall where
  | read (a : UInt16)
  | write (a v : UInt16)
deriving DecidableEq, Repr

structure Counted (σ : Type) where
  world : σ
  calls : List HookCall

namespace HookCall

variable {σ α : Type}

def count (c : HookCall) (x : Access (Backing σ) α) : Access (Backing (Counted σ)) α := fun b =>
  match x ⟨b.memory, b.world.world⟩ with
  | .ok v b' => .ok v ⟨b'.memory, b'.world, b.world.calls ++ [c]⟩
  | .error f b' => .error f ⟨b'.memory, b'.world, b.world.calls ++ [c]⟩

end HookCall

namespace Hooks

variable {σ : Type}

/-- The same hooks, which note that they are called. -/
def counting (h : Hooks σ) : Hooks (Counted σ) where
  read a := (h.read a).map fun hook a' => (HookCall.read a').count (hook a')
  write a := (h.write a).map fun hook a' v => (HookCall.write a' v).count (hook a' v)

/-- The call that an access makes, if there is a hook at its address. -/
def call? (h : Hooks σ) : Touch → Option HookCall
  | .fetch _ => none
  | .load _ a => if (h.read a).isSome then some (.read a) else none
  | .store _ a v => if (h.write a).isSome then some (.write a v) else none

end Hooks

namespace Hooked

variable {σ : Type}

def counting (m : Hooked σ) (calls : List HookCall) : Hooked (Counted σ) :=
  ⟨m.hooks.counting, m.backing.memory, m.backing.world, calls⟩

/-- What an access gives, with the calls that are noted meanwhile. -/
def addCalls (calls : List HookCall) :
    EStateM.Result Fault (Hooked σ) α → EStateM.Result Fault (Hooked (Counted σ)) α
  | .ok v m => .ok v (m.counting calls)
  | .error f m => .error f (m.counting calls)

theorem direct_counting (x : Access Memory α) (m : Hooked σ) (calls : List HookCall) :
    direct x (m.counting calls) = addCalls calls (direct x m) := by
  simp only [direct, onBacking, Backing.onMemory, Access.focus, counting]
  cases x m.backing.memory <;> rfl

theorem hookedLoad_counting (w : Width) (a : UInt16) (m : Hooked σ) (calls : List HookCall) :
    hookedLoad a (m.counting calls) =
      addCalls (calls ++ (m.hooks.call? (.load w a)).toList) (hookedLoad a m) := by
  simp only [hookedLoad, counting, Hooks.counting, Hooks.call?]
  cases bound : m.hooks.read a with
  | none => simp [addCalls, counting, Hooks.counting]
  | some hook =>
    simp only [Option.map_some, HookCall.count]
    cases hook a ⟨m.backing.memory, m.backing.world⟩ <;> rfl

theorem load_counting (w : Width) (a : UInt16) (value : UInt16 → α) (x : Access Memory α) (m : Hooked σ)
    (calls : List HookCall) :
    (hookedLoad a >>= fun v? => match v? with
      | some v => pure (value v)
      | none => direct x) (m.counting calls) =
      addCalls (calls ++ (m.hooks.call? (.load w a)).toList)
        ((hookedLoad a >>= fun v? => match v? with
          | some v => pure (value v)
          | none => direct x) m) := by
  change EStateM.bind _ _ (m.counting calls) = addCalls _ (EStateM.bind _ _ m)
  unfold EStateM.bind
  rw [hookedLoad_counting w]
  cases hookedLoad a m with
  | error f m' => rfl
  | ok v? m' =>
    cases v? with
    | some v => rfl
    | none => exact direct_counting x m' _

theorem hookedStore_counting (w : Width) (a v : UInt16) (x : Access Memory Unit) (m : Hooked σ)
    (calls : List HookCall) :
    hookedStore a v x (m.counting calls) =
      addCalls (calls ++ (m.hooks.call? (.store w a v)).toList) (hookedStore a v x m) := by
  unfold hookedStore
  simp only [counting, Hooks.counting, Hooks.call?]
  cases bound : m.hooks.write a with
  | none =>
    rw [Option.map_none]
    simp only [Option.isSome_none, Bool.false_eq_true, if_false, Option.toList_none, List.append_nil]
    exact direct_counting x m calls
  | some hook =>
    simp only [Option.map_some, onBacking, Access.focus, HookCall.count]
    cases hook a v ⟨m.backing.memory, m.backing.world⟩ <;> rfl

theorem make_counting (t : Touch) (m : Hooked σ) (calls : List HookCall) :
    t.make (m.counting calls) = addCalls (calls ++ (m.hooks.call? t.seen).toList) (t.make m) := by
  cases t with
  | fetch a =>
    have none : m.hooks.call? (Touch.fetch a).seen = none := rfl
    rw [none, Option.toList_none, List.append_nil]
    simp only [Touch.make, Bus.fetch, counting, Hooks.counting, Option.isSome_map]
    split
    · rfl
    · exact direct_counting _ m calls
  | load w a =>
    cases w with
    | byte =>
      have loaded : Bus.loadByte a (m.counting calls) =
          addCalls (calls ++ (m.hooks.call? (.load .byte a)).toList) (Bus.loadByte a m) :=
        load_counting .byte a lowByte (Bus.loadByte a) m calls
      change EStateM.map _ (Bus.loadByte a) (m.counting calls) = addCalls _ (EStateM.map _ (Bus.loadByte a) m)
      unfold EStateM.map
      rw [loaded]
      cases Bus.loadByte a m <;> rfl
    | word => exact load_counting .word a id (Bus.loadWord a) m calls
  | store w a v =>
    cases w with
    | byte =>
      rw [Touch.seen_store_byte]
      exact hookedStore_counting .byte a _ _ m calls
    | word =>
      rw [Touch.seen_store_word]
      exact hookedStore_counting .word a v _ m calls

/-- The memories do the same, and the calls noted by the one are those that the accesses noted by the other
make. -/
def SameCalls (hooks : Hooks σ) (t : Traced (Hooked σ)) (m : Hooked (Counted σ)) : Prop :=
  t.memory.hooks = hooks ∧ m = t.memory.counting (t.touches.filterMap hooks.call?)

theorem make_sameCalls (hooks : Hooks σ) (t : Touch) : Simulates (SameCalls hooks) t.make t.make := by
  rintro ⟨m, touches⟩ _ ⟨rfl, rfl⟩
  have kept := make_hooks t m
  have noted : (touches ++ [t.seen]).filterMap m.hooks.call? =
      touches.filterMap m.hooks.call? ++ (m.hooks.call? t.seen).toList := by
    rw [List.filterMap_append]
    cases h : m.hooks.call? t.seen <;> simp [h]
  rw [Touch.make_traced, make_counting]
  simp only [Traced.note]
  cases hm : t.make m <;> rw [hm] at kept <;> exact ⟨rfl, kept, by simp only [noted]⟩

end Hooked

namespace Machine

variable {σ : Type}

def counting (m : Machine (Hooked σ)) : Machine (Hooked (Counted σ)) := ⟨m.registers, m.memory.counting []⟩

theorem step_counting (m : Machine (Hooked σ)) :
    m.counting.step =
      (m.step.1, ⟨m.step.2.registers, m.step.2.memory.counting (m.touches.filterMap m.memory.hooks.call?)⟩) := by
  obtain ⟨outcome, registers, -, memory⟩ := step_simulates (x := m.noting) (y := m.counting)
    (Hooked.make_sameCalls m.memory.hooks) rfl ⟨rfl, rfl⟩
  rw [m.step_orderly.unseen] at outcome registers memory
  exact Prod.ext outcome.symm (by rw [← memory, registers])

/-- A step on any memory makes its accesses in order. On hooked memory each access at the address of a hook calls
the hook once, and nothing else calls one. -/
theorem accesses_of_step :
    (∀ {μ : Type} [Bus μ] (m : Machine μ), m.Orderly) ∧
      ∀ {σ : Type} (m : Machine (Hooked σ)), m.counting.step =
        (m.step.1, ⟨m.step.2.registers, m.step.2.memory.counting (m.touches.filterMap m.memory.hooks.call?)⟩) :=
  ⟨step_orderly, step_counting⟩

end Machine

end Msp430
