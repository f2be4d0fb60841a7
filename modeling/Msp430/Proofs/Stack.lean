import Msp430.Proofs.ByteMap

/-!
# The stack

Words that are pushed one after the other and then popped come back in reverse order, the addresses after calls
among them. The invariant is `Memory.Holds`: the words on the stack lie from the stack pointer upwards, where a push
below them cannot reach. Which operands are pushed, where the instructions lie and where the calls go does not matter.
-/

namespace Msp430

/-! ### Words in memory -/

namespace Memory

/-- A word stored at the address is kept there. -/
def KeepsWord (a : UInt16) : Prop := TakesWord a ∧ isConsole a = false

instance (a : UInt16) : Decidable (KeepsWord a) := inferInstanceAs (Decidable (_ ∧ _))

/-- The words lie one after the other from an address on. -/
def Holds (memory : Memory) (a : UInt16) : List UInt16 → Prop
  | [] => True
  | w :: words => TakesWord a ∧ memory.word a = w ∧ memory.Holds (a + 2) words

/-- The address of the `k`-th word below a stack pointer, counted from zero. -/
def below (sp : UInt16) (k : Nat) : UInt16 := sp - .ofNat (2 * (k + 1))

/-- Nothing but the `n` words below a stack pointer differs. -/
structure SameAbove (sp : UInt16) (n : Nat) (memory memory' : Memory) : Prop where
  console : memory'.console = memory.console
  bytes : ∀ a, (∀ k < n, a ≠ below sp k ∧ a ≠ below sp k + 1) → memory'.byteAt a = memory.byteAt a

variable {memory memory' : Memory} {a sp v : UInt16} {n k : Nat} {words : List UInt16}

theorem below_zero (sp : UInt16) : below sp 0 = sp - 2 := rfl

theorem ofNat_words (n : Nat) : UInt16.ofNat (2 * (n + 1)) = 2 + .ofNat (2 * n) := by
  rw [Nat.mul_succ, Nat.add_comm, UInt16.ofNat_add]
  rfl

theorem sub_words (sp : UInt16) (n : Nat) : sp - 2 - .ofNat (2 * n) = sp - .ofNat (2 * (n + 1)) := by
  simp only [ofNat_words, UInt16.sub_eq_add_neg, UInt16.neg_add, UInt16.add_assoc]

theorem below_next (sp : UInt16) (k : Nat) : below (sp - 2) k = below sp (k + 1) := sub_words sp (k + 1)

/-- Words do not wrap around. -/
theorem toNat_add_two (taken : TakesWord a) : (a + 2).toNat = a.toNat + 2 := by
  have two : (2 : UInt16).toNat = 2 := rfl
  obtain ⟨-, low⟩ := taken
  rw [UInt16.toNat_add, two]
  omega

theorem toNat_sub_two (taken : TakesWord (sp - 2)) : sp.toNat = (sp - 2).toNat + 2 := by
  rw [← toNat_add_two taken, UInt16.sub_add_cancel]

/-- A word stored below others leaves them as they are. -/
theorem holds_write (kept : KeepsWord a) (under : a.toNat + 2 ≤ sp.toNat) (held : memory.Holds sp words) :
    (memory.write .word a v).Holds sp words := by
  induction words generalizing sp with
  | nil => trivial
  | cons w words ih =>
    obtain ⟨taken, same, rest⟩ := held
    refine ⟨taken, ?_, ih (by rw [toNat_add_two taken]; omega) rest⟩
    have apart : a ≠ sp := fun same => by
      rw [same] at under
      omega
    have half : a ≠ sp + 1 := fun same => by
      have bound := sp.toNat_lt
      obtain ⟨-, low⟩ := taken
      rw [same, UInt16.toNat_add, UInt16.toNat_one] at under
      omega
    have written : check .word a = .ok () := checkWord_eq_ok.mpr kept.1
    rw [word_write v written (checkWord_eq_ok.mpr taken) apart half, same]

/-- A push puts its word on those that are held. -/
theorem holds_push (kept : KeepsWord (sp - 2)) (held : memory.Holds sp words) (v : UInt16) :
    (memory.write .word (sp - 2) v).Holds (sp - 2) (v :: words) := by
  refine ⟨kept.1, word_write_self memory v kept.2, ?_⟩
  rw [UInt16.sub_add_cancel]
  exact holds_write kept (Nat.le_of_eq (toNat_sub_two kept.1).symm) held

theorem sameAbove_refl (sp : UInt16) (memory : Memory) : SameAbove sp 0 memory memory := ⟨rfl, fun _ _ => rfl⟩

/-- What happens below a pushed word happens below the stack pointer before. -/
theorem sameAbove_push (kept : KeepsWord (sp - 2))
    (same : SameAbove (sp - 2) n (memory.write .word (sp - 2) v) memory') : SameAbove sp (n + 1) memory memory' where
  console := by
    rw [same.console, write, kept.2]
    rfl
  bytes a apart := by
    have lower : ∀ k < n, a ≠ below (sp - 2) k ∧ a ≠ below (sp - 2) k + 1 := fun k small => by
      rw [below_next]
      exact apart (k + 1) (Nat.succ_lt_succ small)
    obtain ⟨low, high⟩ := apart 0 (Nat.succ_pos n)
    rw [below_zero] at low high
    rw [same.bytes a lower]
    refine Decidable.byContradiction fun changed => ?_
    rcases byteAt_write changed with here | ⟨-, here⟩
    · exact low here
    · exact high here

end Memory

/-! ### Pushing and popping -/

/-- The word that an operand stands for, or why it cannot be loaded. -/
def Operand.wordIn (m : Machine Memory) (o : Operand) : Except Fault UInt16 :=
  match o.place m.registers with
  | .register r => .ok (m.registers.base r)
  | .memory a => m.memory.loadWord a
  | .literal v => .ok v

/-- The instructions that push a word. -/
inductive WordPush where
  | push (operand : Operand)
  | call (flag : Bool) (operand : Operand)

namespace WordPush

def operand : WordPush → Operand
  | push operand | call _ operand => operand

def instruction : WordPush → Instruction
  | push operand => .single .push false operand
  | call flag operand => .single .call flag operand

/-- What the instruction does once its operand is known. -/
def effect (v : UInt16) : WordPush → Effect
  | push _ => .push v
  | call _ _ => .call v

/-- The word that the instruction pushes, given its operand: a call pushes the address after it. Of that address the
program counter falls short only if the operand is the next word of the program, which is decoded as an immediate. -/
def word (rs : Registers) (v : UInt16) : WordPush → UInt16
  | push _ => v
  | call _ operand => if operand = .autoIncrement .pc then rs.pc + 2 else rs.pc

/-- The instruction pushes a word: its operand as it was before, or the address after a call, which goes to its operand
as it was before. -/
structure Pushed (i : WordPush) (m m' : Machine Memory) (w : UInt16) : Prop where
  operand : ∃ v, i.operand.wordIn m = .ok v ∧ w = i.word m.registers v ∧
    ∀ flag o, i = call flag o → m'.registers.pc = v
  pointer : m'.registers.sp = m.registers.sp - 2
  top : m'.memory.word m'.registers.sp = w

variable {i : WordPush}

theorem store?_effect (i : WordPush) (rs : Registers) (v : UInt16) :
    (i.effect v).store? (i.operand.advance .word rs) =
      some ((i.operand.advance .word rs).sp - 2, i.word rs v) := by
  cases i with
  | push operand => rfl
  | call flag operand =>
    have counter : (operand.advance .word rs).pc = (call flag operand).word rs v := by
      change _ = if operand = .autoIncrement .pc then rs.pc + 2 else rs.pc
      split
      next immediate =>
        rw [immediate]
        exact Registers.get_set_self _ _ _
      next other => exact operand.get_advance _ _ other
    rw [← counter]
    rfl

theorem refusal?_effect (i : WordPush) (v : UInt16) : (i.effect v).refusal? = none := by cases i <;> rfl

theorem width_instruction (i : WordPush) : i.instruction.width = .word := by cases i <;> rfl

theorem sp_finish (i : WordPush) (rs : Registers) (v : UInt16) : ((i.effect v).finish .word rs).sp = rs.sp - 2 := by
  cases i with
  | push o => exact Registers.get_set_self _ _ _
  | call flag o => exact (Registers.get_set_ne _ _ (by decide)).trans (Registers.get_set_self _ _ _)

end WordPush

/-- The instruction that pops a word into a register; into the program counter, it returns. -/
def Instruction.pop (r : Reg) : Instruction := .double .mov false (.autoIncrement .sp) (.register r)

namespace Machine

/-- The machine with the program counter at an address. -/
def movedTo (pc : UInt16) (m : Machine Memory) : Machine Memory := { m with registers := m.registers.set .pc pc }

/-- Executed one after the other, with the program counter at the address that is given with each, the instructions
lead from one machine to the other and each of them moves its word. -/
inductive Carried (instruction : ι → Instruction) (moves : ι → Machine Memory → Machine Memory → UInt16 → Prop) :
    Machine Memory → List (UInt16 × ι) → List UInt16 → Machine Memory → Prop
  | nil (m : Machine Memory) : Carried instruction moves m [] [] m
  | cons {m m₁ m' : Machine Memory} {pc w : UInt16} {i : ι} {turns : List (UInt16 × ι)} {words : List UInt16}
    (executed : execute (instruction i) (m.movedTo pc) = .ok () m₁) (moved : moves i (m.movedTo pc) m₁ w)
    (rest : Carried instruction moves m₁ turns words m') :
    Carried instruction moves m ((pc, i) :: turns) (w :: words) m'

/-- The instructions push the words. -/
abbrev Pushes : Machine Memory → List (UInt16 × WordPush) → List UInt16 → Machine Memory → Prop :=
  Carried WordPush.instruction WordPush.Pushed

/-- The words are popped into the registers. -/
abbrev Pops : Machine Memory → List (UInt16 × Reg) → List UInt16 → Machine Memory → Prop :=
  Carried Instruction.pop fun r _ m' w => m'.registers.get r = w

/-- Each operand can be loaded when its turn comes. -/
def OperandsLoad : Machine Memory → List (UInt16 × WordPush) → Prop
  | _, [] => True
  | m, (pc, i) :: rest =>
    (∃ v, i.operand.wordIn (m.movedTo pc) = .ok v) ∧
      ∀ m', execute i.instruction (m.movedTo pc) = .ok () m' → m'.OperandsLoad rest

/-- Memory holds each instruction where the program counter is when its turn comes, in front of the address given. -/
def Fetched : Machine Memory → List (UInt16 × Instruction) → Prop
  | _, [] => True
  | m, (pc, i) :: rest =>
    (∃ d, m.memory.instructionAt m.registers.pc = .ok d ∧ d.instruction = i) ∧
      pc = m.registers.pc + .ofNat i.size ∧
      ∀ m', execute i (m.movedTo pc) = .ok () m' → m'.Fetched rest

variable {m m' : Machine Memory} {pc v w : UInt16} {r : Reg} {i : WordPush} {words older : List UInt16}

theorem load_wordIn {o : Operand} (loads : o.wordIn m = .ok v) :
    load .word (o.place m.registers) { m with registers := o.advance .word m.registers } =
      .ok v { m with registers := o.advance .word m.registers } := by
  have memory {a : UInt16} {rs : Registers} (loads : m.memory.loadWord a = .ok v) :
      load .word (.memory a) { m with registers := rs } = .ok v { m with registers := rs } := by
    simp only [load, onMemory, Access.focus, Bus.load, Bus.loadWord, Access.look, loads]
  cases o with
  | register r =>
    cases loads
    exact congrArg (EStateM.Result.ok · m) (Width.trim_word _)
  | immediate v' | constant c =>
    cases loads
    exact congrArg (EStateM.Result.ok · m) (Width.trim_word _)
  | indexed r offset | indirect r | autoIncrement r | absolute a => exact memory loads

theorem gather_push (loads : i.operand.wordIn m = .ok v) :
    gather i.instruction m =
      .ok (i.effect v) { m with registers := i.operand.advance .word m.registers } := by
  have loaded := load_wordIn loads
  cases i with
  | push o | call flag o =>
    simp only [WordPush.instruction, gather]
    rw [resolve_bind, if_neg (by decide)]
    exact (Access.bind_of_ok loaded).trans rfl

/-- A push whose operand can be loaded succeeds where there is room for the word. -/
theorem execute_push (plain : i.operand ≠ .autoIncrement .sp) (loads : i.operand.wordIn m = .ok v)
    (kept : Memory.KeepsWord (m.registers.sp - 2)) :
    ∃ m', execute i.instruction m = .ok () m' ∧ i.Pushed m m' (i.word m.registers v) ∧
      m'.memory = m.memory.write .word (m.registers.sp - 2) (i.word m.registers v) := by
  let rs := i.operand.advance .word m.registers
  have still : rs.sp = m.registers.sp := Operand.get_advance _ _ _ plain
  have checked : Memory.check .word (m.registers.sp - 2) = .ok () := Memory.checkWord_eq_ok.mpr kept.1
  have committed : commit .word (i.effect v) { m with registers := rs } =
      .ok () ⟨(i.effect v).finish .word rs,
        m.memory.write .word (m.registers.sp - 2) (i.word m.registers v)⟩ := by
    rw [commit_flat, i.refusal?_effect, i.store?_effect, still]
    simp only [checked]
  have pointer : ((i.effect v).finish .word rs).sp = m.registers.sp - 2 := by
    rw [i.sp_finish, still]
  refine ⟨⟨(i.effect v).finish .word rs, _⟩, ?_, ⟨⟨v, loads, rfl, ?_⟩, pointer, ?_⟩, rfl⟩
  · rw [execute_eq, Access.bind_of_ok (gather_push loads), i.width_instruction]
    exact committed
  · rintro flag o rfl
    exact Registers.get_set_self _ _ _
  · rw [pointer]
    exact Memory.word_write_self m.memory _ kept.2

/-- A word at the stack pointer is popped. -/
theorem execute_pop (taken : Memory.TakesWord m.registers.sp) (general : r ≠ .sp ∧ r ≠ .cg) :
    ∃ m', execute (Instruction.pop r) m = .ok () m' ∧ m'.registers.get r = m.memory.word m.registers.sp ∧
      m'.registers.sp = m.registers.sp + 2 ∧ m'.memory = m.memory := by
  let rs := m.registers.set .sp (m.registers.sp + 2)
  let w := m.memory.word m.registers.sp
  have loaded : load .word (.memory m.registers.sp) { m with registers := rs } = .ok w { m with registers := rs } := by
    have found : m.memory.loadWord m.registers.sp = .ok w := Memory.loadWord_eq_ok.mpr ⟨taken, rfl⟩
    simp only [load, onMemory, Access.focus, Bus.load, Bus.loadWord, Access.look, found]
  have gathered : gather (Instruction.pop r) m =
      .ok (.assign (.register r) (.plain w)) { m with registers := rs } := by
    simp only [Instruction.pop, gather]
    rw [resolve_bind]
    exact (Access.bind_of_ok loaded).trans rfl
  have committed : commit .word (.assign (.register r) (.plain w)) { m with registers := rs } =
      .ok () ⟨rs.set r w, m.memory⟩ := by
    rw [commit_flat]
    simp only [Effect.refusal?, if_neg general.2, Effect.store?, Effect.finish, Width.trim_word]
    rfl
  refine ⟨⟨rs.set r w, m.memory⟩, ?_, Registers.get_set_self _ _ _, ?_, rfl⟩
  · rw [execute_eq, Access.bind_of_ok gathered]
    exact committed
  · exact (Registers.get_set_ne _ _ (Ne.symm general.1)).trans (Registers.get_set_self _ _ _)

/-! ### Runs -/

/-- Pushed one after the other, words lie on those that were held before, the last one on top. -/
theorem pushes_hold {program : List (UInt16 × WordPush)} (plain : ∀ turn ∈ program, turn.2.operand ≠ .autoIncrement .sp)
    (room : ∀ k < program.length, Memory.KeepsWord (Memory.below m.registers.sp k)) (loads : m.OperandsLoad program)
    (held : m.memory.Holds m.registers.sp older) :
    ∃ words m', Pushes m program words m' ∧ m'.memory.Holds m'.registers.sp (words.reverse ++ older) ∧
      words.length = program.length ∧ m'.registers.sp = m.registers.sp - .ofNat (2 * program.length) ∧
      Memory.SameAbove m.registers.sp program.length m.memory m'.memory := by
  induction program generalizing m older with
  | nil =>
    refine ⟨[], m, .nil m, held, rfl, ?_, Memory.sameAbove_refl _ _⟩
    exact (UInt16.sub_zero _).symm
  | cons turn program ih =>
    obtain ⟨pc, i⟩ := turn
    obtain ⟨⟨v, loaded⟩, later⟩ := loads
    have still : (m.movedTo pc).registers.sp = m.registers.sp := Registers.get_set_ne _ _ (by decide)
    have kept : Memory.KeepsWord (m.registers.sp - 2) := room 0 (Nat.succ_pos _)
    obtain ⟨m₁, executed, pushed, stored⟩ := execute_push (plain _ List.mem_cons_self) loaded (still ▸ kept)
    have pointer := pushed.pointer
    rw [still] at pointer stored
    have held₁ : m₁.memory.Holds m₁.registers.sp (i.word (m.movedTo pc).registers v :: older) := by
      rw [pointer, stored]
      exact Memory.holds_push kept held _
    have room₁ : ∀ k < program.length, Memory.KeepsWord (Memory.below m₁.registers.sp k) := fun k small => by
      rw [pointer, Memory.below_next]
      exact room (k + 1) (Nat.succ_lt_succ small)
    obtain ⟨words, m', pushes, held', length, pointer', same⟩ :=
      ih (fun turn member => plain turn (List.mem_cons_of_mem _ member)) room₁ (later m₁ executed) held₁
    refine ⟨_ :: words, m', .cons executed pushed pushes, ?_, congrArg Nat.succ length, ?_, ?_⟩
    · rw [List.reverse_cons, List.append_assoc]
      exact held'
    · rw [pointer', pointer]
      exact Memory.sub_words _ _
    · rw [pointer, stored] at same
      exact Memory.sameAbove_push kept same

/-- Words that are held come back from the top. -/
theorem pops_held {targets : List (UInt16 × Reg)} (general : ∀ turn ∈ targets, turn.2 ≠ .sp ∧ turn.2 ≠ .cg)
    (balanced : targets.length = words.length) (held : m.memory.Holds m.registers.sp words) :
    ∃ m', Pops m targets words m' ∧ m'.registers.sp = m.registers.sp + .ofNat (2 * words.length) ∧
      m'.memory = m.memory := by
  induction words generalizing m targets with
  | nil =>
    obtain rfl := List.length_eq_zero_iff.mp balanced
    exact ⟨m, .nil m, (UInt16.add_zero _).symm, rfl⟩
  | cons w words ih =>
    obtain ⟨⟨pc, r⟩, targets, rfl⟩ := List.exists_cons_of_length_eq_add_one balanced
    obtain ⟨taken, top, rest⟩ := held
    have still : (m.movedTo pc).registers.sp = m.registers.sp := Registers.get_set_ne _ _ (by decide)
    obtain ⟨m₁, executed, popped, pointer, memory⟩ :=
      execute_pop (m := m.movedTo pc) (still ▸ taken) (general _ List.mem_cons_self)
    rw [still] at popped pointer
    change m₁.memory = m.memory at memory
    obtain ⟨m', pops, pointer', memory'⟩ :=
      ih (fun turn member => general turn (List.mem_cons_of_mem _ member)) (Nat.succ.inj balanced)
        (m := m₁) (by rw [pointer, memory]; exact rest)
    refine ⟨m', .cons executed (popped.trans top) pops, ?_, memory'.trans memory⟩
    rw [pointer', pointer, List.length_cons, Memory.ofNat_words, UInt16.add_assoc]

theorem step_of_execute {d : Decoded} (found : m.memory.instructionAt m.registers.pc = .ok d)
    (executed : execute d.instruction (m.past d.instruction) = .ok () m') : m.step.2 = m' := by
  have cycled : cycle m = .ok d m' := by
    rw [cycle_eq, found]
    simp only [executed]
  unfold step
  rw [cycled]

/-- Where memory holds the instructions, carrying them out takes as many steps. -/
theorem Carried.steps {instruction : ι → Instruction} {moves : ι → Machine Memory → Machine Memory → UInt16 → Prop}
    {turns : List (UInt16 × ι)} {later : List (UInt16 × Instruction)}
    (carried : Carried instruction moves m turns words m')
    (fetched : m.Fetched (turns.map (fun turn => (turn.1, instruction turn.2)) ++ later)) :
    m.steps turns.length = m' ∧ m'.Fetched later := by
  induction carried with
  | nil m => exact ⟨rfl, fetched⟩
  | cons executed moved carried ih =>
    obtain ⟨⟨d, found, same⟩, next, rest⟩ := fetched
    obtain ⟨ran, fetched'⟩ := ih (rest _ executed)
    have stepped := step_of_execute found (by rw [past, same, ← next]; exact executed)
    refine ⟨?_, fetched'⟩
    rw [List.length_cons, Machine.steps, stepped, ran]

/-- Words that instructions push one after the other come back in reverse order, whatever operands that leave the stack
pointer alone they have, where the instructions lie and where the calls go: the stack pointer is again where it was, and
nothing but the words below it has changed. Where memory holds the instructions, as many steps do this. -/
theorem stack_discipline {program : List (UInt16 × WordPush)} {targets : List (UInt16 × Reg)}
    (plain : ∀ turn ∈ program, turn.2.operand ≠ .autoIncrement .sp)
    (room : ∀ k < program.length, Memory.KeepsWord (Memory.below m.registers.sp k)) (loads : m.OperandsLoad program)
    (general : ∀ turn ∈ targets, turn.2 ≠ .sp ∧ turn.2 ≠ .cg) (balanced : targets.length = program.length) :
    ∃ words m₁ m₂, Pushes m program words m₁ ∧ Pops m₁ targets words.reverse m₂ ∧
      m₂.registers.sp = m.registers.sp ∧ Memory.SameAbove m.registers.sp program.length m.memory m₂.memory ∧
      (m.Fetched (program.map (fun turn => (turn.1, turn.2.instruction)) ++
          targets.map fun turn => (turn.1, .pop turn.2)) →
        m.steps (program.length + targets.length) = m₂) := by
  have empty : m.memory.Holds m.registers.sp [] := trivial
  obtain ⟨words, m₁, pushes, held, length, pointer, same⟩ := pushes_hold plain room loads empty
  rw [List.append_nil] at held
  have balanced' : targets.length = words.reverse.length := by rw [List.length_reverse, length, balanced]
  obtain ⟨m₂, pops, pointer', memory⟩ := pops_held general balanced' held
  refine ⟨words, m₁, m₂, pushes, pops, ?_, memory ▸ same, fun fetched => ?_⟩
  · rw [pointer', pointer, List.length_reverse, length, UInt16.sub_add_cancel]
  · obtain ⟨pushed, fetched'⟩ := pushes.steps fetched
    rw [← List.append_nil (targets.map _)] at fetched'
    obtain ⟨popped, -⟩ := pops.steps fetched'
    rw [steps_add, pushed, popped]

/-- A call of a procedure that pushes the stack pointer and a copy of its return address and then pops both and
returns. -/
def nested : Machine Memory :=
  { registers := (Registers.zero.set .pc 0x4400).set .sp 0x4400
    memory := Memory.empty.storeBytes 0x4400
      [0xB0, 0x12, 0x08, 0x44, 0, 0, 0, 0, 0x01, 0x12, 0x12, 0x12, 0xFE, 0x43, 0x35, 0x41, 0x36, 0x41, 0x30, 0x41] }

def nestedPushes : List (UInt16 × WordPush) :=
  [(0x4404, .call false (.immediate 0x4408)), (0x440A, .push (.register .sp)), (0x440E, .push (.absolute 0x43FE))]

def nestedPops : List (UInt16 × Reg) := [(0x4410, ⟨5, by decide⟩), (0x4412, ⟨6, by decide⟩), (0x4414, .pc)]

theorem nested_returns :
    ∃ words m₁ m₂, Pushes nested nestedPushes words m₁ ∧ Pops m₁ nestedPops words.reverse m₂ ∧
      m₂.registers.sp = 0x4400 ∧ Memory.SameAbove 0x4400 3 nested.memory m₂.memory ∧ nested.steps 6 = m₂ := by
  have loads : nested.OperandsLoad nestedPushes :=
    ⟨⟨_, rfl⟩, fun _ _ => ⟨⟨_, rfl⟩, fun _ _ => ⟨⟨_, rfl⟩, fun _ _ => trivial⟩⟩⟩
  have fetched : nested.Fetched (nestedPushes.map (fun turn => (turn.1, turn.2.instruction)) ++
      nestedPops.map fun turn => (turn.1, .pop turn.2)) := by
    iterate 6
      refine ⟨⟨_, rfl, rfl⟩, rfl, ?_⟩
      rintro _ ⟨⟩
    trivial
  have general : ∀ turn ∈ nestedPops, turn.2 ≠ .sp ∧ turn.2 ≠ .cg := by
    rintro _ (_ | ⟨_, _ | ⟨_, _ | ⟨_, ⟨⟩⟩⟩⟩) <;> decide
  obtain ⟨words, m₁, m₂, pushes, pops, pointer, same, steps⟩ :=
    @stack_discipline nested nestedPushes nestedPops (by decide) (by decide) loads general rfl
  exact ⟨words, m₁, m₂, pushes, pops, pointer, same, steps fetched⟩

end Machine

end Msp430
