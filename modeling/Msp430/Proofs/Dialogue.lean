import Msp430.Memory.Traced
import Msp430.Proofs.Phases

/-!
# Dialogues with a memory

A step is the same dialogue with every memory: which access comes next depends on the registers and on the
replies so far, and on nothing else of the memory. `cycle_eq_run` shows it, so that what holds of a dialogue
against each of two memories holds of a step.
-/

namespace Msp430

namespace Touch

/-- What an access gives when it succeeds. -/
abbrev Reply : Touch → Type
  | fetch _ => Vector UInt8 6
  | load _ _ => UInt16
  | store _ _ _ => Unit

def make {μ : Type} [Bus μ] : (t : Touch) → Access μ t.Reply
  | fetch a => Bus.fetch a
  | load w a => Bus.load w a
  | store w a v => Bus.store w a v

end Touch

/-- The accesses to come and the result. An access is asked for with the registers at which a failure leaves
the processor. -/
inductive Dialogue (α : Type) where
  | give (result : α) (rs : Registers)
  | fail (f : Fault) (rs : Registers)
  | ask (t : Touch) (rs : Registers) (next : t.Reply → Dialogue α)

namespace Dialogue

variable {μ ν α β : Type}

def bind : Dialogue α → (α → Registers → Dialogue β) → Dialogue β
  | give a rs, f => f a rs
  | fail fault rs, _ => fail fault rs
  | ask t rs next, f => ask t rs fun reply => (next reply).bind f

def run [Bus μ] : Dialogue α → μ → EStateM.Result Fault (Machine μ) α
  | give a rs, m => .ok a ⟨rs, m⟩
  | fail f rs, m => .error f ⟨rs, m⟩
  | ask t rs next, m =>
    match t.make m with
    | .ok reply m' => (next reply).run m'
    | .error f m' => .error f ⟨rs, m'⟩

theorem run_bind [Bus μ] (d : Dialogue α) (f : α → Registers → Dialogue β) (m : μ) :
    (d.bind f).run m =
      match d.run m with
      | .ok a m' => (f a m'.registers).run m'.memory
      | .error fault m' => .error fault m' := by
  induction d generalizing m with
  | give a rs => rfl
  | fail fault rs => rfl
  | ask t rs next ih =>
    simp only [bind, run]
    cases t.make m with
    | ok reply m' => exact ih reply m'
    | error fault m' => rfl

/-! ### The dialogue of a step -/

def load (w : Width) (rs : Registers) : Place → Dialogue UInt16
  | .register r => give (w.trim (rs.base r)) rs
  | .memory a => ask (.load w a) rs fun v => give v rs
  | .literal v => give (w.trim v) rs

def loadDestination (op : DoubleOp) (w : Width) (rs : Registers) (p : Place) : Dialogue UInt16 :=
  if op = .mov then give 0 rs else load w rs p

def gather (i : Instruction) (rs : Registers) : Dialogue Effect :=
  match i with
  | .single op _ operand =>
    if op = .reti then fail (.unsupported op.mnemonic) (operand.advance i.width rs)
    else (load i.width (operand.advance i.width rs) (operand.place rs)).bind fun v rs' =>
      give (op.effect i.width (operand.place rs) v (rs'.flag .carry)) rs'
  | .jump condition offset =>
    give (if condition.holds rs then .branch (rs.pc + .ofInt (Instruction.displacement offset)) else .idle) rs
  | .double op _ source destination =>
    (load i.width (source.advance i.width rs) (source.place rs)).bind fun s rs₁ =>
    (loadDestination op i.width (destination.advance i.width rs₁) (destination.place rs₁)).bind fun d rs₂ =>
    match op.apply i.width s d (rs₂.flag .carry) with
    | none => fail (.unsupported op.mnemonic) rs₂
    | some r => give (op.effect (destination.place rs₁) r) rs₂

def commit (w : Width) (e : Effect) (rs : Registers) : Dialogue Unit :=
  match e.refusal? with
  | some f => fail f (e.prepare rs)
  | none =>
    match e.store? rs with
    | none => give () (e.finish w rs)
    | some (a, v) => ask (.store w a v) (e.prepare rs) fun _ => give () (e.finish w rs)

def execute (i : Instruction) (rs : Registers) : Dialogue Unit := (gather i rs).bind (commit i.width)

def cycle (rs : Registers) : Dialogue Decoded :=
  ask (.fetch rs.pc) rs fun raw =>
    match decode raw.toList with
    | .error cause => fail (.undecodable cause) rs
    | .ok d => (execute d.instruction (rs.set .pc (rs.pc + .ofNat d.instruction.size))).bind fun _ rs' => give d rs'

/-- An access of the machine is the dialogue `d`. -/
def Speaks [Bus μ] (x : Access (Machine μ) α) (d : Registers → Dialogue α) : Prop :=
  ∀ m, x m = (d m.registers).run m.memory

variable [Bus μ]

theorem speaks_bind {x : Access (Machine μ) α} {f : α → Access (Machine μ) β} {d : Registers → Dialogue α}
    {e : α → Registers → Dialogue β} (hx : Speaks x d) (hf : ∀ a, Speaks (f a) (e a)) :
    Speaks (x >>= f) fun rs => (d rs).bind e := by
  intro m
  change EStateM.bind x f m = _
  rw [run_bind, ← hx m]
  unfold EStateM.bind
  cases x m with
  | ok a m' => exact hf a m'
  | error fault m' => rfl

theorem speaks_load (w : Width) (p : Place) : Speaks (μ := μ) (Machine.load w p) (load w · p) := by
  intro m
  cases p with
  | register r => rfl
  | literal v => rfl
  | memory a =>
    simp only [Machine.load, Machine.onMemory, Access.focus, load, run, Touch.make]
    cases Bus.load w a m.memory <;> rfl

theorem speaks_loadDestination (op : DoubleOp) (w : Width) (p : Place) :
    Speaks (μ := μ) (Machine.loadDestination op w p) (loadDestination op w · p) := by
  intro m
  unfold Machine.loadDestination loadDestination
  split
  · rfl
  · exact speaks_load w p m

theorem speaks_gather (i : Instruction) : Speaks (μ := μ) (Machine.gather i) (gather i) := by
  intro m
  cases i with
  | single op flag operand =>
    simp only [Machine.gather, gather]
    rw [Machine.resolve_bind]
    split
    · rfl
    · have answer (p : Place) (w : Width) (v : UInt16) :
          Speaks (μ := μ) (Machine.getRegisters >>= fun rs => pure (op.effect w p v (rs.flag .carry)))
            fun rs => give (op.effect w p v (rs.flag .carry)) rs := fun m => rfl
      exact speaks_bind (speaks_load _ _) (answer _ _) ⟨_, _⟩
  | jump condition offset => rfl
  | double op flag source destination =>
    have finish (p : Place) (s d : UInt16) (w : Width) :
        Speaks (μ := μ)
          (Machine.getRegisters >>= fun rs =>
            match op.apply w s d (rs.flag .carry) with
            | none => throw (.unsupported op.mnemonic)
            | some r => return op.effect p r)
          fun rs =>
            match op.apply w s d (rs.flag .carry) with
            | none => fail (.unsupported op.mnemonic) rs
            | some r => give (op.effect p r) rs := by
      intro m
      change (match op.apply w s d (m.registers.flag .carry) with
        | none => throw (.unsupported op.mnemonic)
        | some r => return op.effect p r : Access (Machine μ) Effect) m =
        (match op.apply w s d (m.registers.flag .carry) with
        | none => fail (.unsupported op.mnemonic) m.registers
        | some r => give (op.effect p r) m.registers : Dialogue Effect).run m.memory
      cases op.apply w s d (m.registers.flag .carry) <;> rfl
    simp only [Machine.gather, gather]
    rw [Machine.resolve_bind]
    refine speaks_bind (speaks_load _ _) (fun s m => ?_) _
    rw [Machine.resolve_bind]
    exact speaks_bind (speaks_loadDestination op _ _) (fun d => finish _ s d _) _

theorem speaks_commit (w : Width) (e : Effect) :
    Speaks (μ := μ) (Machine.commit w e) (commit w e) := by
  intro m
  rw [Machine.commit_apply]
  unfold commit
  cases e.refusal? with
  | some f => rfl
  | none =>
    cases e.store? m.registers with
    | none => rfl
    | some store =>
      obtain ⟨a, v⟩ := store
      simp only [run, Touch.make]
      cases Bus.store w a v m.memory <;> rfl

theorem speaks_execute (i : Instruction) : Speaks (μ := μ) (Machine.execute i) (execute i) := by
  rw [Machine.execute_eq]
  exact speaks_bind (speaks_gather i) (speaks_commit i.width)

theorem cycle_eq_run (m : Machine μ) : Machine.cycle m = (cycle m.registers).run m.memory := by
  change EStateM.bind (Machine.onMemory (Bus.fetch m.registers.pc)) _ m = _
  simp only [EStateM.bind, Machine.onMemory, Access.focus, cycle, run, Touch.make]
  cases Bus.fetch m.registers.pc m.memory with
  | error f mem => rfl
  | ok raw mem =>
    simp only
    cases decode raw.toList with
    | error cause => rfl
    | ok d =>
      change EStateM.bind (Machine.execute d.instruction) _ ⟨_, mem⟩ = _
      simp only [EStateM.bind, run_bind, speaks_execute d.instruction _]
      cases (execute d.instruction _).run mem <;> rfl

end Dialogue

end Msp430
