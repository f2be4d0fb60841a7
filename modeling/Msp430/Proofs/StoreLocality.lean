import Msp430.Proofs.Advance
import Msp430.Proofs.Simulation

/-!
# What an instance sees of the store

An instance acts on the shared store by jobs at the keys of its own peripherals, and reads the image that it is
told to load. It goes the same way from any two stores that agree there.
-/

namespace Msp430

open Access

/-! ### Jobs at a key -/

namespace KeyValue

variable {Q : Store → Store → Prop} {key : String}

/-- Related stores agree at a key, and stay related when the same is done to both at that key. -/
structure Respects (key : String) (Q : Store → Store → Prop) : Prop where
  agree : ∀ s t, Q s t → s[key]? = t[key]?
  insert : ∀ s t v, Q s t → Q (s.insert key v) (t.insert key v)
  erase : ∀ s t, Q s t → Q (s.erase key) (t.erase key)

theorem get_simulates (agree : ∀ s t, Q s t → s[key]? = t[key]?) : Simulates Q (get key) (get key) := by
  refine simulates_get_bind fun s t related => ?_
  rw [agree s t related]
  split
  · exact simulates_pure _
  · exact simulates_pure _
  · exact simulates_throw _

theorem items_simulates (agree : ∀ s t, Q s t → s[key]? = t[key]?) : Simulates Q (items key) (items key) := by
  refine simulates_get_bind fun s t related => ?_
  rw [agree s t related]
  split
  · exact simulates_pure _
  · exact simulates_pure _
  · exact simulates_throw _

theorem set_simulates (own : Respects key Q) (content : Bytes) : Simulates Q (set key content) (set key content) :=
  simulates_modify fun s t => own.insert s t (.bytes content)

theorem del_simulates (own : Respects key Q) : Simulates Q (del key) (del key) := by
  refine simulates_get_bind fun s t related => ?_
  have held : s.contains key = t.contains key := by
    rw [← Std.ExtTreeMap.isSome_getElem?_eq_contains, ← Std.ExtTreeMap.isSome_getElem?_eq_contains,
      own.agree s t related]
  rw [held]
  exact simulates_bind (simulates_modify own.erase) fun _ => simulates_pure _

theorem getRange_simulates (own : Respects key Q) (first last : Int64) :
    Simulates Q (getRange key first last) (getRange key first last) :=
  simulates_bind (get_simulates own.agree) fun _ => simulates_pure _

theorem pushFront_simulates (own : Respects key Q) (item : Bytes) :
    Simulates Q (pushFront key item) (pushFront key item) :=
  simulates_bind (items_simulates own.agree) fun old =>
    simulates_bind (simulates_modify fun s t => own.insert s t (.list (item :: old))) fun _ => simulates_pure _

theorem trim_simulates (own : Respects key Q) (first last : Int64) :
    Simulates Q (trim key first last) (trim key first last) := by
  refine simulates_bind (items_simulates own.agree) fun items => ?_
  split
  · exact simulates_modify own.erase
  · exact simulates_modify fun s t => own.insert s t _

theorem pushBounded_simulates (own : Respects key Q) (item : Bytes) (last : Int64) :
    Simulates Q (pushBounded key item last) (pushBounded key item last) :=
  simulates_bind (pushFront_simulates own item) fun _ => trim_simulates own 0 last

end KeyValue

/-! ### Peripherals -/

namespace World

variable {now : Nat} {Q : KeyValue.Store → KeyValue.Store → Prop}

/-- The time is `now` in both worlds, and the stores are related. The calls made so far do not count. -/
structure Alike (now : Nat) (Q : KeyValue.Store → KeyValue.Store → Prop) (w w' : World) : Prop where
  clock : w.clock = now
  clock' : w'.clock = now
  awaiting : w.awaiting = w'.awaiting
  store : Q w.store w'.store

theorem submit_simulates {job : KeyValue.Job α} (h : Simulates Q job job) :
    Simulates (Alike now Q) (submit job) (submit job) := by
  intro w w' alike
  have answer := h _ _ alike.store
  unfold submit
  cases hx : job w.store <;> cases hy : job w'.store <;> rw [hx, hy] at answer
  case ok.ok => exact ⟨answer.1, { alike with store := answer.2 }⟩
  case error.error => exact ⟨congrArg Fault.collaborator answer.1, { alike with store := answer.2 }⟩
  all_goals exact answer.elim

theorem recordCall_simulates (p : Peripheral) : Simulates (Alike now Q) (recordCall p) (recordCall p) :=
  simulates_modify fun _ _ alike => { alike with }

theorem setAwaiting_simulates (on : Bool) : Simulates (Alike now Q) (setAwaiting on) (setAwaiting on) :=
  simulates_modify fun _ _ alike => { alike with awaiting := rfl }

end World

namespace Peripheral

open Backing KeyValue World

variable {owner : String} {io : IoMap} {now : Nat} {M : Memory → Memory → Prop} {Q : Store → Store → Prop}

theorem appendLog_simulates (own : Respects (debugLog.key owner) Q) (entry : Bytes) :
    Simulates (World.Alike now Q) (appendLog owner entry) (appendLog owner entry) := by
  refine simulates_get_bind fun w w' alike => ?_
  rw [alike.clock, alike.clock']
  exact submit_simulates (pushBounded_simulates own _ _)

theorem takeInput_simulates {key : String} (own : Respects key Q) :
    Simulates Q (takeInput key) (takeInput key) := by
  refine simulates_bind (get_simulates own.agree) fun posted => ?_
  cases posted with
  | none => exact simulates_pure _
  | some raw => exact simulates_bind (del_simulates own) fun _ => simulates_pure _

theorem awaitInput_simulates (own : Respects (input.key owner) Q) :
    Simulates (World.Alike now Q) (awaitInput owner) (awaitInput owner) := by
  refine simulates_bind (submit_simulates (takeInput_simulates own)) fun posted => ?_
  cases posted with
  | some raw => exact simulates_pure raw
  | none => exact simulates_bind (setAwaiting_simulates true) fun _ => simulates_throw _

theorem enterInput_simulates : Simulates (World.Alike now Q) enterInput enterInput := by
  refine simulates_get_bind fun w w' alike => ?_
  rw [alike.awaiting]
  split
  · exact simulates_bind (recordCall_simulates input) fun _ => setAwaiting_simulates false
  · exact setAwaiting_simulates false

theorem appendOutput_simulates {key : String} (own : Respects key Q) (b : UInt8) :
    Simulates Q (appendOutput key b) (appendOutput key b) :=
  simulates_bind (getRange_simulates own _ _) fun _ => set_simulates own _

/-- The peripherals at whose keys a peripheral works: its own, and that of the log if it is a device. -/
def uses : Peripheral → List Peripheral
  | device d => [device d, debugLog]
  | p => [p]

theorem handler_simulates {p : Peripheral} (indistinct : Memory.Indistinct M)
    (own : ∀ q ∈ p.uses, Respects (key owner q) Q) (a v : UInt16) :
    Simulates (Backing.Alike M (World.Alike now Q)) (handler owner io p a v) (handler owner io p a v) := by
  have count (p : Peripheral) : Simulates (Backing.Alike M (World.Alike now Q)) (onWorld (recordCall p))
      (onWorld (recordCall p)) := onWorld_simulates (recordCall_simulates p)
  have load (a : UInt16) := onMemory_simulates (S := World.Alike now Q) (indistinct.bus_loadWord a)
  have store (a v : UInt16) := onMemory_simulates (S := World.Alike now Q) (indistinct.bus_storeWord a v)
  have self : Respects (key owner p) Q := own p (by cases p <;> exact List.mem_cons_self)
  cases p with
  | input =>
    exact simulates_bind (onWorld_simulates enterInput_simulates) fun _ => simulates_bind (load _) fun _ =>
      simulates_bind (onWorld_simulates (awaitInput_simulates self)) fun _ =>
      simulates_bind (onMemory_simulates (indistinct.bus_storeBytes _ _)) fun _ => store _ _
  | output =>
    exact simulates_bind (count output) fun _ =>
      onWorld_simulates (submit_simulates (appendOutput_simulates self _))
  | debugLog =>
    exact simulates_bind (count debugLog) fun _ => simulates_bind (load _) fun _ =>
      simulates_bind (onMemory_simulates (indistinct.look_read _ _)) fun _ =>
      onWorld_simulates (appendLog_simulates self _)
  | device d =>
    have log : Respects (key owner debugLog) Q := own debugLog (.tail _ List.mem_cons_self)
    exact simulates_bind (count (device d)) fun _ => simulates_bind (store _ _) fun _ =>
      simulates_bind (onWorld_simulates (submit_simulates (set_simulates self _))) fun _ =>
      onWorld_simulates (appendLog_simulates log _)

/-- What every handler does the same in related worlds is done the same by the hooks. -/
theorem install_simulates {S : World → World → Prop} {hooks : Hooks World}
    (handlers : ∀ p a v, Simulates (Backing.Alike M S) (handler owner io p a v) (handler owner io p a v))
    (h : install owner io = .ok hooks) : hooks.Simulates M S := by
  have handles := install_handles h
  refine ⟨fun a hook bound => ?_, fun a hook bound => ?_⟩
  · rw [handles.read a] at bound
    cases bound
  · obtain ⟨p, rfl⟩ := handles.write a hook bound
    exact handlers p

end Peripheral

/-! ### Images -/

namespace Image

variable {M : Memory → Memory → Prop}

theorem lift_simulates (x : Except Error α) : Simulates M (lift x) (lift x) := by
  intro m m' related
  cases x <;> exact ⟨rfl, related⟩

variable (indistinct : Memory.Indistinct M)
include indistinct

theorem loadData_simulates (line : Nat) (text : Bytes) (address : UInt16) (k missing : Nat) :
    Simulates M (loadData line text address k missing) (loadData line text address k missing) := by
  have store (a : UInt16) (b : UInt8) : Simulates M (storeByte a b) (storeByte a b) := by
    intro m m' related
    exact ⟨rfl, (indistinct.bus_storeByte a b m m' related).2⟩
  induction missing generalizing address k with
  | zero => exact simulates_pure ()
  | succ missing ih => exact simulates_bind (lift_simulates _) fun b => simulates_bind (store _ _) fun _ => ih _ _

theorem loadLines_simulates (line written : Nat) (raws : List Bytes) :
    Simulates M (loadLines line written raws) (loadLines line written raws) := by
  induction raws generalizing line written with
  | nil => exact simulates_pure written
  | cons raw rest ih =>
    refine simulates_bind (lift_simulates _) fun text => ?_
    split
    · exact ih _ _
    · refine simulates_bind (lift_simulates _) fun h => ?_
      split
      · exact simulates_pure written
      · split
        · exact simulates_bind (loadData_simulates indistinct _ _ _ _ _) fun _ => ih _ _
        · exact ih _ _

/-- Once they are cleared, it does not matter what the memories held. -/
theorem load_matches (image : Bytes) {m m' : Memory} (cleared : M m.clear m'.clear) :
    Matches M (load image m) (load image m') :=
  loadLines_simulates indistinct 1 0 (lines image) m.clear m'.clear cleared

end Image

/-! ### Instances -/

namespace Bench

variable {board : Board} {now : Nat} {M : Memory → Memory → Prop} {Q : KeyValue.Store → KeyValue.Store → Prop}
  {b b' : Bench}

/-- The instance is the same on both benches but for its memory, which is related, and so are the stores; the time is
`now`. The metrics do not count. -/
structure Alike (board : Board) (now : Nat) (M : Memory → Memory → Prop)
    (Q : KeyValue.Store → KeyValue.Store → Prop) (b b' : Bench) : Prop where
  cpu : b'.cpu = { b.cpu with memory := b'.cpu.memory }
  memory : M b.cpu.memory b'.cpu.memory
  board : b.cpu.board = board
  clock : b.shared.clock = now
  clock' : b'.shared.clock = now
  store : Q b.shared.store b'.shared.store

namespace Alike

/-- What is told from an instance without its memory is told alike. -/
theorem part (alike : Alike board now M Q b b') (f : Instance → α) (apart : ∀ i memory, f { i with memory } = f i) :
    f b'.cpu = f b.cpu :=
  (congrArg f alike.cpu).trans (apart b.cpu b'.cpu.memory)

theorem registers (alike : Alike board now M Q b b') : b'.cpu.registers = b.cpu.registers :=
  alike.part Instance.registers fun _ _ => rfl

theorem awaiting (alike : Alike board now M Q b b') : b'.cpu.awaiting = b.cpu.awaiting :=
  alike.part Instance.awaiting fun _ _ => rfl

theorem breakpoints (alike : Alike board now M Q b b') : b'.cpu.breakpoints = b.cpu.breakpoints :=
  alike.part Instance.breakpoints fun _ _ => rfl

theorem board' (alike : Alike board now M Q b b') : b'.cpu.board = board :=
  (congrArg Instance.board alike.cpu).trans alike.board

theorem same (alike : Alike board now Eq Q b b') : b.cpu = b'.cpu := by
  rw [alike.cpu, ← alike.memory]

theorem mapMetrics (alike : Alike board now M Q b b') (f g : Metrics → Metrics) :
    Alike board now M Q (b.mapMetrics f) (b'.mapMetrics g) := { alike with }

/-- A change of the instance that leaves its board and has nothing to do with its memory is made on both alike. -/
theorem mapCpu (alike : Alike board now M Q b b') (f : Instance → Instance)
    (apart : ∀ i memory, f { i with memory } = { f i with memory }) (fixed : ∀ i, (f i).board = i.board) :
    Alike board now M Q { b with cpu := f b.cpu } { b' with cpu := f b'.cpu } where
  cpu := by
    have same : f b'.cpu = _ := (congrArg f alike.cpu).trans (apart b.cpu b'.cpu.memory)
    simp only [same]
  memory := by
    have kept (i : Instance) : (f i).memory = i.memory := by
      have same := congrArg Instance.memory (apart i i.memory)
      exact same
    rw [kept, kept]
    exact alike.memory
  board := (fixed b.cpu).trans alike.board
  clock := alike.clock
  clock' := alike.clock'
  store := alike.store

theorem setState (alike : Alike board now M Q b b') (s : RunState) :
    Alike board now M Q (b.setState s) (b'.setState s) := by
  have after := alike.mapCpu (fun i => { i with state := s }) (fun _ _ => rfl) fun _ => rfl
  constructor
  case cpu => simpa only [cpu_setState] using after.cpu
  case memory => simpa only [cpu_setState] using after.memory
  case board => simpa only [cpu_setState] using after.board
  case clock => simpa only [clock_setState] using after.clock
  case clock' => simpa only [clock_setState] using after.clock'
  case store => simpa only [store_setState] using after.store

theorem fail (alike : Alike board now M Q b b') (f : Fault) : Alike board now M Q (b.fail f) (b'.fail f) := by
  have noted := (alike.mapMetrics (·.recordFault b.cpu.name f.kind) (·.recordFault b'.cpu.name f.kind)).mapCpu
    (fun i => { i with lastFault := some f }) (fun _ _ => rfl) fun _ => rfl
  exact noted.setState .fault

theorem settle (alike : Alike board now M Q b b') (o : Outcome) :
    Alike board now M Q (b.settle o) (b'.settle o) := by
  unfold Bench.settle
  split
  · exact alike
  · exact alike.setState .stopped
  · exact alike.setState .stopped
  · exact alike
  · exact alike.fail _

theorem withWorld (alike : Alike board now M Q b b') {w w' : World} (worlds : World.Alike now Q w w') :
    Alike board now M Q (b.withWorld w) (b'.withWorld w') where
  cpu := by
    unfold Bench.withWorld
    rw [alike.cpu, worlds.awaiting]
  memory := alike.memory
  board := alike.board
  clock := alike.clock
  clock' := alike.clock'
  store := worlds.store

theorem withMachine (alike : Alike board now M Q b b') {m m' : Machine (Hooked World)}
    (registers : m.registers = m'.registers)
    (backing : m.memory.backing.Alike M (World.Alike now Q) m'.memory.backing) :
    Alike board now M Q (b.withMachine m) (b'.withMachine m') where
  cpu := by
    unfold Bench.withMachine Bench.withWorld
    rw [alike.cpu, registers, backing.2.awaiting]
  memory := backing.1
  board := alike.board
  clock := alike.clock
  clock' := alike.clock'
  store := backing.2.store

theorem begun (alike : Alike board now M Q b b') : Alike board now M Q b.begun b'.begun := by
  unfold Bench.begun
  rw [alike.awaiting]
  split
  · exact alike
  · exact alike.mapMetrics _ _

theorem setRegisters (alike : Alike board now M Q b b') (values : Vector (Option UInt16) 16) :
    Alike board now M Q (b.setRegisters values) (b'.setRegisters values) where
  cpu := by
    unfold Bench.setRegisters
    rw [alike.cpu]
  memory := by
    unfold Bench.setRegisters
    exact alike.memory
  board := by
    unfold Bench.setRegisters
    exact alike.board
  clock := alike.clock
  clock' := alike.clock'
  store := alike.store

variable (indistinct : Memory.Indistinct M) (own : ∀ p : Peripheral, KeyValue.Respects (p.key board.name) Q)
include indistinct own

theorem machine_step (alike : Alike board now M Q b b') :
    b.machine.step.1 = b'.machine.step.1 ∧ b.machine.step.2.registers = b'.machine.step.2.registers ∧
      b.machine.step.2.memory.backing.Alike M (World.Alike now Q) b'.machine.step.2.memory.backing := by
  have hooks : board.hooks.Simulates M (World.Alike now Q) :=
    Peripheral.install_simulates (fun p => Peripheral.handler_simulates indistinct fun q _ => own q) board.installed
  have start : Hooked.Alike board.hooks M (World.Alike now Q) b.machine.memory b'.machine.memory :=
    ⟨congrArg Board.hooks alike.board, congrArg Board.hooks alike.board', alike.memory,
      ⟨alike.clock, alike.clock', alike.awaiting.symm, alike.store⟩⟩
  obtain ⟨outcome, registers, -, -, backing⟩ :=
    Machine.step_simulates (Hooked.make_simulates indistinct hooks) alike.registers.symm start
  exact ⟨outcome, registers, backing⟩

theorem advance (alike : Alike board now M Q b b') :
    b.advance.1 = b'.advance.1 ∧ Alike board now M Q b.advance.2 b'.advance.2 := by
  obtain ⟨outcome, registers, backing⟩ := alike.machine_step indistinct own
  by_cases waiting : b.machine.step.1 = .failed .awaitingInput
  · rw [advance_waits waiting, advance_waits (outcome ▸ waiting)]
    exact ⟨rfl, alike.begun.withWorld backing.2⟩
  · rw [advance_goes waiting, advance_goes (outcome ▸ waiting)]
    have after := alike.begun.withMachine registers backing
    exact ⟨outcome, after.mapMetrics (·.recordOutcome _) (·.recordOutcome _)⟩

theorem tick (alike : Alike board now M Q b b') : Alike board now M Q b.tick b'.tick := by
  obtain ⟨outcome, after⟩ := alike.advance indistinct own
  have settled := after.settle b.advance.1
  have state := settled.part Instance.state fun _ _ => rfl
  unfold Bench.tick
  simp only
  rw [alike.registers, alike.breakpoints, ← outcome, state, settled.awaiting]
  split
  · exact alike.setState .stopped
  · split
    · exact settled.setState .stopped
    · exact settled

end Alike

section Requests

variable (indistinct : Memory.Indistinct M)
include indistinct

theorem step_simulates (own : ∀ p : Peripheral, KeyValue.Respects (p.key board.name) Q) :
    Simulates (Alike board now M Q) step step := by
  intro b b' alike
  obtain ⟨outcome, after⟩ := alike.advance indistinct own
  unfold step
  generalize b.advance = r at outcome after ⊢
  generalize b'.advance = r' at outcome after ⊢
  obtain ⟨o, b₁⟩ := r
  obtain ⟨o', b₁'⟩ := r'
  obtain rfl : o = o' := outcome
  cases o with
  | ran d => exact ⟨rfl, after⟩
  | halted d => exact ⟨rfl, after⟩
  | failed f => cases f <;> exact ⟨rfl, after⟩

theorem resume_simulates (own : ∀ p : Peripheral, KeyValue.Respects (p.key board.name) Q) :
    Simulates (Alike board now M Q) resume resume := by
  refine simulates_bind (step_simulates indistinct own) fun _ => simulates_modify fun b b' alike => ?_
  rw [alike.registers]
  exact alike.setState _

theorem singleStep_simulates (own : ∀ p : Peripheral, KeyValue.Respects (p.key board.name) Q) :
    Simulates (Alike board now M Q) singleStep singleStep := by
  intro b b' alike
  have answer := step_simulates indistinct own _ _ (alike.setState .stepping)
  have state := alike.part Instance.state fun _ _ => rfl
  unfold singleStep
  cases hx : step (b.setState .stepping) <;> cases hy : step (b'.setState .stepping) <;> rw [hx, hy] at answer
  case ok.ok => exact ⟨rfl, answer.2.setState .stopped⟩
  case error.error =>
    rw [state]
    exact ⟨congrArg ControlError.cpu answer.1, answer.2.setState _⟩
  all_goals exact answer.elim

omit indistinct in
theorem liftFault_simulates {x : EStateM Fault Bench α} (h : Simulates (Alike board now M Q) x x) :
    Simulates (Alike board now M Q) (liftFault x) (liftFault x) := by
  intro b b' alike
  have answer := h b b' alike
  unfold liftFault
  cases hx : x b <;> cases hy : x b' <;> rw [hx, hy] at answer
  case ok.ok => exact answer
  case error.error => exact ⟨congrArg ControlError.cpu answer.1, answer.2⟩
  all_goals exact answer.elim

omit indistinct in
theorem submit_simulates {job : KeyValue.Job α} (h : Simulates Q job job) :
    Simulates (Alike board now M Q) (submit job) (submit job) := by
  intro b b' alike
  have answer := h _ _ alike.store
  unfold submit
  cases hx : job b.shared.store <;> cases hy : job b'.shared.store <;> rw [hx, hy] at answer
  case ok.ok => exact ⟨answer.1, { alike with store := answer.2 }⟩
  case error.error => exact ⟨congrArg ControlError.store answer.1, { alike with store := answer.2 }⟩
  all_goals exact answer.elim

theorem loadBytes_simulates (image : Bytes) :
    Simulates (Alike board now M Q) (loadBytes image) (loadBytes image) := by
  intro b b' alike
  have loaded := Image.load_matches indistinct image (indistinct.clear _ _ alike.memory)
  have taken {memory memory' : Memory} (related : M memory memory') : Alike board now M Q
      { b with cpu := { b.cpu with memory } } { b' with cpu := { b'.cpu with memory := memory' } } :=
    { alike with
      cpu := by rw [alike.cpu]
      memory := related }
  unfold loadBytes
  cases hx : (Image.load image : EStateM Image.Error Memory Nat) b.cpu.memory <;>
    cases hy : (Image.load image : EStateM Image.Error Memory Nat) b'.cpu.memory <;> rw [hx, hy] at loaded
  case ok.ok => exact ⟨loaded.1, taken loaded.2⟩
  case error.error => exact ⟨congrArg ControlError.image loaded.1, taken loaded.2⟩
  all_goals exact loaded.elim

theorem loadImage_simulates {key : String} (agree : ∀ s t, Q s t → s[key]? = t[key]?) :
    Simulates (Alike board now M Q) (loadImage key) (loadImage key) := by
  refine simulates_bind (submit_simulates (KeyValue.get_simulates agree)) fun image => ?_
  cases image with
  | none => exact simulates_throw _
  | some image =>
    refine simulates_bind (loadBytes_simulates indistinct image) fun written => ?_
    refine simulates_bind (simulates_modify fun b b' alike => ?_) fun _ => simulates_pure written
    exact Alike.mapMetrics (alike.mapCpu (fun i => { i with image := key }) (fun _ _ => rfl) fun _ => rfl) _ _

theorem reset_matches (alike : Alike board now M Q b b')
    (agree : ∀ s t, Q s t → s[b.cpu.image]? = t[b.cpu.image]?) :
    Matches (Alike board now M Q) (reset b) (reset b') := by
  have image := alike.part Instance.image fun _ _ => rfl
  change Matches _ ((loadImage b.cpu.image >>= fun _ => modify _) b) ((loadImage b'.cpu.image >>= fun _ => modify _) b')
  rw [image]
  refine simulates_bind (loadImage_simulates indistinct agree) (fun _ => simulates_modify fun c c' loaded => ?_) b b'
    alike
  have entered := loaded.mapCpu
    (fun i => { i with registers := Instance.entryRegisters i.config, lastFault := none }) (fun _ _ => rfl) fun _ => rfl
  exact (entered.setState .stopped).mapMetrics _ _

end Requests

theorem Alike.disassemble (indistinct : Memory.Indistinct M) (alike : Alike board now M Q b b') (a : UInt16)
    (count : Nat) : b'.cpu.disassemble a count = b.cpu.disassemble a count := by
  have board := alike.part Instance.board fun _ _ => rfl
  have decoded (a : UInt16) : b'.cpu.decodeAt a = b.cpu.decodeAt a := by
    unfold Instance.decodeAt Instance.fetch
    rw [board, indistinct.fetch alike.memory]
  unfold Instance.disassemble Instance.config
  rw [board]
  generalize min count b.cpu.board.config.maxDisassembly = n
  induction n generalizing a with
  | zero => rfl
  | succ n ih => simp only [Instance.listFrom, decoded, ih]

end Bench

def Request.imageKey? (i : Instance) : Request → Option String
  | loadImage key => some key
  | reset => some i.image
  | _ => none

namespace Bench

variable {board : Board} {now : Nat} {M : Memory → Memory → Prop} {Q : KeyValue.Store → KeyValue.Store → Prop}
  {b b' : Bench}

/-- A request is served alike, with the same reply, if the stores agree at the instance's own keys and at the image
that is read. -/
theorem serve_matches (indistinct : Memory.Indistinct M)
    (own : ∀ p : Peripheral, KeyValue.Respects (p.key board.name) Q) (alike : Alike board now M Q b b') (r : Request)
    (reads : ∀ key, r.imageKey? b.cpu = some key → ∀ s t, Q s t → s[key]? = t[key]?) :
    Matches (Alike board now M Q) (r.serve b) (r.serve b') := by
  cases r with
  | status =>
    have status := alike.part Instance.status fun _ _ => rfl
    exact ⟨congrArg Reply.status status.symm, alike⟩
  | registers => exact ⟨congrArg Reply.registers alike.registers.symm, alike⟩
  | disassemble a count => exact ⟨congrArg Reply.listing (alike.disassemble indistinct a count).symm, alike⟩
  | breakpoints => exact ⟨congrArg Reply.breakpoints alike.breakpoints.symm, alike⟩
  | readMemory a length =>
    refine simulates_get_bind (fun c c' related => ?_) b b' alike
    have read : c.cpu.readMemory a length = c'.cpu.readMemory a length := indistinct.read related.memory a length
    rw [read]
    split
    · exact simulates_pure _
    · exact simulates_throw _
  | setRegisters values => exact ⟨rfl, alike.setRegisters values⟩
  | setBreakpoint a kind =>
    exact ⟨rfl, alike.mapCpu (fun i => { i with breakpoints := i.breakpoints.insert a kind }) (fun _ _ => rfl)
      fun _ => rfl⟩
  | clearBreakpoint a =>
    exact ⟨congrArg (fun table => Reply.present (table.contains a)) alike.breakpoints.symm,
      alike.mapCpu (fun i => { i with breakpoints := i.breakpoints.erase a }) (fun _ _ => rfl) fun _ => rfl⟩
  | boot => exact ⟨rfl, alike.setState .running⟩
  | stop => exact ⟨rfl, alike.setState .stopped⟩
  | resume =>
    exact simulates_map (fun _ => Reply.done) (liftFault_simulates (resume_simulates indistinct own)) b b' alike
  | step => exact simulates_map (fun _ => Reply.done) (singleStep_simulates indistinct own) b b' alike
  | loadImage key => exact simulates_map Reply.written (loadImage_simulates indistinct (reads key rfl)) b b' alike
  | reset => exact (reset_matches indistinct alike (reads _ rfl)).map fun _ => Reply.done

end Bench

end Msp430
