import Msp430.Cpu.Step
import Msp430.Proofs.Access
import Msp430.Proofs.Registers
import Msp430.Proofs.Shape

/-!
# Gathering and committing

An instruction is carried out in two phases. `gather` loads its operands and moves autoincremented
registers on; it stores nothing. `commit` then sets flags, stores at most once, and moves the program and
stack pointers. `execute_eq` shows that the two make up `execute`.
-/

namespace Msp430

/-- What is left to do of an instruction when its operands are known. -/
inductive Effect where
  | assign (p : Place) (r : AluResult)
  | test (r : AluResult)
  | push (v : UInt16)
  | call (target : UInt16)
  | branch (target : UInt16)
  | idle

/-- The effect of a one-operand operation on a value loaded from `p`; a return from interrupt has none. -/
def SingleOp.effect (op : SingleOp) (w : Width) (p : Place) (v : UInt16) (carry : Bool) : Effect :=
  match op with
  | rrc => .assign p (w.rotate v carry)
  | rra => .assign p (w.shift v)
  | swpb => .assign p (.plain (swapBytes v))
  | sxt => .assign p (w.logical (signExtend v) false)
  | push => .push v
  | call => .call v
  | reti => .idle

/-- The effect of a two-operand operation with a result. -/
def DoubleOp.effect (op : DoubleOp) (p : Place) (r : AluResult) : Effect :=
  if op.stores then .assign p r else .test r

/-- What the text of an instruction tells about its effect. -/
def Effect.Fits (i : Instruction) (rs : Registers) : Effect → Prop
  | assign p r => i.targetPlace? rs = some p ∧ (i.setsFlags = false → r.status = none)
  | test _ => i.target? = none ∧ i.pushes = false ∧ i.setsFlags = true
  | push _ => i.pushes = true
  | call _ => i.pushes = true ∧ i.isCall = true
  | branch _ => i.branches rs = true
  | idle => i.target? = none ∧ i.pushes = false

theorem SingleOp.effect_fits (op : SingleOp) (flag : Bool) (operand : Operand) (rs : Registers) (w : Width)
    (v : UInt16) (carry : Bool) :
    (op.effect w (operand.place rs) v carry).Fits (.single op flag operand) rs := by
  cases op <;> simp [effect, Effect.Fits, Instruction.targetPlace?, Instruction.target?, transforms,
    Instruction.setsFlags, setsFlags, Instruction.pushes, pushes, Instruction.isCall, AluResult.plain]

theorem DoubleOp.apply_status {op : DoubleOp} {w : Width} {s d : UInt16} {carry : Bool} {r : AluResult}
    (h : op.apply w s d carry = some r) (plain : op.setsFlags = false) : r.status = none := by
  cases op <;> cases plain <;> cases h <;> rfl

theorem DoubleOp.effect_fits {op : DoubleOp} {flag : Bool} {source destination : Operand} {w : Width}
    {s d : UInt16} {carry : Bool} {r : AluResult} {rs : Registers} (h : op.apply w s d carry = some r) :
    (op.effect (destination.place (source.advance (Width.ofByteFlag flag) rs)) r).Fits
      (.double op flag source destination) rs := by
  unfold effect
  split
  next stores =>
    refine ⟨?_, apply_status h⟩
    simp only [Instruction.targetPlace?, Instruction.target?, stores, if_true, Option.map_some, Instruction.width]
  next drops => cases op <;> simp [stores] at drops <;> exact ⟨rfl, rfl, rfl⟩

namespace Machine

variable {μ : Type} [Bus μ]

/-- The value of a destination; a move does not look at it. -/
def loadDestination (op : DoubleOp) (w : Width) (p : Place) : Access (Machine μ) UInt16 :=
  if op = .mov then pure 0 else load w p

def gather (i : Instruction) : Access (Machine μ) Effect :=
  match i with
  | .single op _ operand => do
    let p ← resolve i.width operand
    if op = .reti then throw (.unsupported op.mnemonic)
    else
      let v ← load i.width p
      return op.effect i.width p v ((← getRegisters).flag .carry)
  | .jump condition offset => do
    let rs ← getRegisters
    return if condition.holds rs then .branch (rs.pc + .ofInt (Instruction.displacement offset)) else .idle
  | .double op _ source destination => do
    let s ← load i.width (← resolve i.width source)
    let p ← resolve i.width destination
    let d ← loadDestination op i.width p
    match op.apply i.width s d ((← getRegisters).flag .carry) with
    | none => throw (.unsupported op.mnemonic)
    | some r => return op.effect p r

def commit (w : Width) : Effect → Access (Machine μ) Unit
  | .assign p r => settle w p r
  | .test r => setStatus r.status
  | .push v => push w v
  | .call target => do
    push w (← getRegisters).pc
    setRegisters ((← getRegisters).set .pc target)
  | .branch target => do setRegisters ((← getRegisters).set .pc target)
  | .idle => pure ()

theorem executeSingle_eq (op : SingleOp) (flag : Bool) (operand : Operand) :
    (execute (.single op flag operand) : Access (Machine μ) Unit) =
      gather (.single op flag operand) >>= commit (Instruction.single op flag operand).width := by
  simp only [execute, executeSingle, gather, bind_assoc]
  refine bind_congr fun p => ?_
  cases op <;> simp only [reduceCtorEq, if_false, if_true, bind_assoc, pure_bind]
  case reti => rfl
  all_goals
    refine bind_congr fun v => ?_
    rfl

theorem executeDouble_eq (op : DoubleOp) (flag : Bool) (source destination : Operand) :
    (execute (.double op flag source destination) : Access (Machine μ) Unit) =
      gather (.double op flag source destination) >>=
        commit (Instruction.double op flag source destination).width := by
  have finish (w : Width) (p : Place) (r : Option AluResult) :
      (match r with
        | none => throw (.unsupported op.mnemonic)
        | some r => do
          setStatus r.status
          if op.stores then store w p r.value : Access (Machine μ) Unit) =
      (match r with
        | none => throw (.unsupported op.mnemonic)
        | some r => return op.effect p r) >>= commit w := by
    cases r with
    | none => rfl
    | some r =>
      unfold DoubleOp.effect
      cases op.stores with
      | true =>
        simp only [if_true, pure_bind]
        rfl
      | false =>
        simp only [Bool.false_eq_true, if_false, pure_bind]
        exact bind_pure_unit
  simp only [execute, executeDouble, gather, loadDestination, bind_assoc]
  refine bind_congr fun p => bind_congr fun s => bind_congr fun p' => ?_
  split
  · exact bind_congr fun d => bind_congr fun rs => finish _ p' _
  · exact bind_congr fun d => bind_congr fun rs => finish _ p' _

theorem execute_eq (i : Instruction) : (execute i : Access (Machine μ) Unit) = gather i >>= commit i.width := by
  cases i with
  | single op flag operand => exact executeSingle_eq op flag operand
  | jump condition offset =>
    funext m
    simp only [execute, gather, bind_assoc, pure_bind]
    change (if condition.holds m.registers then _ else _ : Access (Machine μ) Unit) m =
      commit _ (if condition.holds m.registers then _ else _) m
    cases condition.holds m.registers <;> rfl
  | double op flag source destination => exact executeDouble_eq op flag source destination

/-! ### Cycles -/

/-- The machine with the program counter moved past an instruction. -/
def past (m : Machine μ) (i : Instruction) : Machine μ :=
  { m with registers := m.registers.set .pc (m.registers.pc + .ofNat i.size) }

theorem cycle_of_execute {m m' : Machine μ} {raw : Vector UInt8 6} {mem : μ} {d : Decoded}
    (fetched : Bus.fetch m.registers.pc m.memory = .ok raw mem) (decoded : decode raw.toList = .ok d)
    (executed : execute d.instruction (past { m with memory := mem } d.instruction) = .ok () m') :
    cycle m = .ok d m' := by
  change EStateM.bind (onMemory (Bus.fetch m.registers.pc)) _ m = _
  simp only [EStateM.bind, onMemory, Access.focus, fetched, decoded]
  change EStateM.bind (execute d.instruction) _ (past { m with memory := mem } d.instruction) = _
  simp only [EStateM.bind, executed]
  rfl

theorem steps_add (m : Machine μ) (k l : Nat) : m.steps (k + l) = (m.steps k).steps l := by
  induction k generalizing m with
  | zero => rw [Nat.zero_add, steps]
  | succ k ih =>
    rw [Nat.succ_add, steps, steps]
    exact ih m.step.2

/-! ### Gathering -/

omit [Bus μ] in
/-- An access to memory alone keeps what it keeps of the memory. -/
theorem keeps_onMemory {I : μ → Prop} {x : Access μ α} (h : Access.Keeps I x) :
    Access.Keeps (fun m => I m.memory) (onMemory x : Access (Machine μ) α) :=
  Access.keeps_focus h (fun _ h => h) fun _ _ _ h => h

omit [Bus μ] in
/-- An access to memory alone leaves the registers as they are. -/
theorem onMemory_keeps_registers (rs : Registers) (x : Access μ α) :
    Access.Keeps (fun m => m.registers = rs) (onMemory x : Access (Machine μ) α) :=
  Access.keeps_focus (J := fun _ => True) (fun _ _ => trivial) (fun _ _ => trivial) fun _ _ h _ => h

omit [Bus μ] in
theorem keeps_getRegisters {J : Machine μ → Prop} : Access.Keeps J getRegisters := fun _ h => h

theorem load_keeps {J : Machine μ → Prop} (h : ∀ w a, Access.Keeps J (onMemory (Bus.load w a)))
    (w : Width) (p : Place) : Access.Keeps J (load w p) := by
  cases p with
  | register r => exact fun _ h => h
  | memory a => exact h w a
  | literal v => exact fun _ h => h

theorem load_registers {w : Width} {p : Place} {m m' : Machine μ} {v : UInt16} (h : load w p m = .ok v m') :
    m'.registers = m.registers := by
  have kept := load_keeps (fun w a => onMemory_keeps_registers m.registers (Bus.load w a)) w p m rfl
  rwa [h] at kept

theorem loadDestination_keeps {J : Machine μ → Prop} (h : ∀ w p, Access.Keeps J (load w p)) (op : DoubleOp)
    (w : Width) (p : Place) : Access.Keeps J (loadDestination op w p) := by
  unfold loadDestination
  split
  · exact Access.keeps_pure 0
  · exact h w p

omit [Bus μ] in
theorem resolve_bind (w : Width) (o : Operand) (f : Place → Access (Machine μ) α) (m : Machine μ) :
    (resolve w o >>= f) m = f (o.place m.registers) { m with registers := o.advance w m.registers } := rfl

omit [Bus μ] in
theorem resolve_keeps {J : Machine μ → Prop} (w : Width) {o : Operand} (h : o.IsDestination) :
    Access.Keeps J (resolve w o) := by
  intro m hm
  change J { m with registers := o.advance w m.registers }
  rw [Operand.advance_of_isDestination h]
  exact hm

/-- Apart from resolving the operands, gathering does no more than its loads do. -/
theorem gather_end {J : Machine μ → Prop} (loads : ∀ w p, Access.Keeps J (load w p)) {i : Instruction}
    (h : i.Encodable) {m : Machine μ} (start : J { m with registers := i.advance m.registers }) :
    J (Access.endState (gather i m)) := by
  cases i with
  | single op flag operand =>
    simp only [gather]
    rw [resolve_bind]
    refine (?_ : Access.Keeps J _) _ start
    split
    · exact Access.keeps_throw _
    · exact Access.keeps_bind (loads _ _) fun v => Access.keeps_bind keeps_getRegisters fun rs => Access.keeps_pure _
  | jump condition offset => exact start
  | double op flag source destination =>
    simp only [gather]
    rw [resolve_bind]
    simp only [Instruction.advance, Operand.advance_of_isDestination h.2] at start
    refine (?_ : Access.Keeps J _) _ start
    refine Access.keeps_bind (loads _ _) fun s => Access.keeps_bind (resolve_keeps _ h.2) fun p =>
      Access.keeps_bind (loadDestination_keeps loads op _ p) fun d => Access.keeps_bind keeps_getRegisters fun rs => ?_
    split
    · exact Access.keeps_throw _
    · exact Access.keeps_pure _

theorem gather_registers {i : Instruction} (h : i.Encodable) (m : Machine μ) :
    (Access.endState (gather i m)).registers = i.advance m.registers :=
  gather_end (J := fun m' => m'.registers = i.advance m.registers)
    (load_keeps fun _ _ => onMemory_keeps_registers _ _) h rfl

theorem gather_memory {I : μ → Prop} (loads : ∀ w a, Access.Keeps I (Bus.load w a)) {i : Instruction}
    (h : i.Encodable) {m : Machine μ} (start : I m.memory) : I (Access.endState (gather i m)).memory :=
  gather_end (J := fun m' => I m'.memory) (load_keeps fun w a => keeps_onMemory (loads w a)) h start

theorem gather_fits {i : Instruction} {m m' : Machine μ} {e : Effect} (h : gather i m = .ok e m') :
    e.Fits i m.registers := by
  cases i with
  | single op flag operand =>
    simp only [gather] at h
    rw [resolve_bind] at h
    split at h
    · cases h
    · simp only [Access.bind_eq_ok] at h
      obtain ⟨v, m₁, -, rs, m₂, -, h⟩ := h
      cases h
      exact op.effect_fits flag operand m.registers _ v _
  | jump condition offset =>
    cases h
    cases hc : condition.holds m.registers with
    | true => rw [if_pos rfl]; exact hc
    | false => rw [if_neg Bool.false_ne_true]; exact ⟨rfl, rfl⟩
  | double op flag source destination =>
    simp only [gather] at h
    rw [resolve_bind] at h
    obtain ⟨s, m₁, hs, h⟩ := Access.bind_eq_ok.mp h
    rw [resolve_bind] at h
    simp only [Access.bind_eq_ok] at h
    obtain ⟨d, m₂, -, rs, m₃, -, h⟩ := h
    rw [load_registers hs] at h
    cases hr : op.apply (Instruction.double op flag source destination).width s d (rs.flag .carry) with
    | none =>
      rw [hr] at h
      cases h
    | some r =>
      rw [hr] at h
      cases h
      exact DoubleOp.effect_fits hr

/-! ### Committing -/

end Machine

namespace Effect

/-- The registers with which the effect comes to its store. -/
def prepare (rs : Registers) : Effect → Registers
  | assign _ r | test r => rs.withStatus r.status
  | push _ | call _ => rs.set .sp (rs.sp - 2)
  | branch _ | idle => rs

/-- The registers after the effect. -/
def finish (w : Width) (rs : Registers) (e : Effect) : Registers :=
  match e with
  | assign (.register r) result => (e.prepare rs).set r (w.trim result.value)
  | call target | branch target => (e.prepare rs).set .pc target
  | _ => e.prepare rs

/-- The address and the value of the store. -/
def store? (rs : Registers) : Effect → Option (UInt16 × UInt16)
  | assign (.memory a) r => some (a, r.value)
  | push v => some (rs.sp - 2, v)
  | call _ => some (rs.sp - 2, rs.pc)
  | _ => none

/-- Why the effect has nowhere to go. -/
def refusal? : Effect → Option Fault
  | assign (.register r) _ => if r = .cg then some (.badOperand .constantGenerator) else none
  | assign (.literal _) _ => some (.badOperand .immediate)
  | _ => none

end Effect

namespace Machine

variable {μ : Type} [Bus μ]

omit [Bus μ] in
theorem setStatus_apply (s : Option Status) (m : Machine μ) :
    setStatus s m = .ok () { m with registers := m.registers.withStatus s } := by
  cases s <;> rfl

theorem settle_apply (w : Width) (p : Place) (r : AluResult) (m : Machine μ) :
    settle w p r m = store w p r.value { m with registers := m.registers.withStatus r.status } := by
  change EStateM.bind _ _ m = _
  unfold EStateM.bind
  rw [setStatus_apply]

/-- What a commit does, in terms of at most one store. -/
theorem commit_apply (w : Width) (e : Effect) (m : Machine μ) :
    commit w e m =
      match e.refusal? with
      | some f => .error f { m with registers := e.prepare m.registers }
      | none =>
        match e.store? m.registers with
        | none => .ok () { m with registers := e.finish w m.registers }
        | some (a, v) =>
          match Bus.store w a v m.memory with
          | .ok _ memory => .ok () ⟨e.finish w m.registers, memory⟩
          | .error f memory => .error f ⟨e.prepare m.registers, memory⟩ := by
  cases e with
  | assign p r =>
    rw [commit, settle_apply]
    cases p with
    | register q =>
      simp only [store, Effect.refusal?]
      split <;> rfl
    | memory a =>
      simp only [store, onMemory, Access.focus, Effect.refusal?, Effect.store?]
      cases Bus.store w a r.value m.memory <;> rfl
    | literal v => rfl
  | test r =>
    rw [commit, setStatus_apply]
    rfl
  | push v =>
    change onMemory (Bus.store w (m.registers.sp - 2) v) _ = _
    simp only [onMemory, Access.focus, Effect.refusal?, Effect.store?]
    cases Bus.store w (m.registers.sp - 2) v m.memory <;> rfl
  | call target =>
    change EStateM.bind (onMemory (Bus.store w (m.registers.sp - 2) m.registers.pc)) _ _ = _
    simp only [EStateM.bind, onMemory, Access.focus, Effect.refusal?, Effect.store?]
    cases Bus.store w (m.registers.sp - 2) m.registers.pc m.memory <;> rfl
  | branch target => rfl
  | idle => rfl

end Machine

end Msp430
