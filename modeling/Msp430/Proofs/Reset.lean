import Msp430.Proofs.Bindings
import Msp430.Proofs.Tenants

/-!
# Starting over

A reset takes the image, the breakpoints and the store as they are and forgets all else that an instance has done.
What has been printed stays, but nothing ever depends on it.
-/

namespace Msp430

open Access

namespace Access

variable {R R' : σ → τ → Prop} {α β : Type}

/-- Both succeed with the same value and end in related states, or both fail in the same way. -/
inductive Agrees (R : σ → τ → Prop) : EStateM.Result ε σ α → EStateM.Result ε τ α → Prop
  | ok {a : α} {s : σ} {t : τ} (related : R s t) : Agrees R (.ok a s) (.ok a t)
  | error {e : ε} {s : σ} {t : τ} : Agrees R (.error e s) (.error e t)

theorem Agrees.bind {x : EStateM ε σ α} {y : EStateM ε τ α} {f : α → EStateM ε σ β} {g : α → EStateM ε τ β}
    {s : σ} {t : τ} (first : Agrees R (x s) (y t)) (next : ∀ a s t, R s t → Agrees R' (f a s) (g a t)) :
    Agrees R' ((x >>= f) s) ((y >>= g) t) := by
  change Agrees R' (EStateM.bind x f s) (EStateM.bind y g t)
  unfold EStateM.bind
  generalize x s = r at first
  generalize y t = r' at first
  cases first with
  | ok related => exact next _ _ _ related
  | error => exact .error

theorem Agrees.imp {r : EStateM.Result ε σ α} {r' : EStateM.Result ε τ α} (h : Agrees R r r')
    (weaker : ∀ s t, R s t → R' s t) : Agrees R' r r' := by
  cases h with
  | ok related => exact .ok (weaker _ _ related)
  | error => exact .error

def succeeds : EStateM.Result ε σ α → Bool
  | .ok _ _ => true
  | .error _ _ => false

theorem Agrees.of_succeeds {r : EStateM.Result ε σ α} {r' : EStateM.Result ε τ α} (h : Agrees R r r')
    (ok : succeeds r') : ∃ a s t, r = .ok a s ∧ r' = .ok a t ∧ R s t := by
  cases h with
  | ok related => exact ⟨_, _, _, rfl, rfl, related⟩
  | error => cases ok

end Access

theorem Board.eq_of_name {i j : Board} (name : i.name = j.name) (config : i.config = j.config) : i = j := by
  obtain ⟨_, _, _, installed⟩ := i
  obtain ⟨_, _, _, installed'⟩ := j
  cases name
  cases config
  cases installed.symm.trans installed'
  rfl

namespace KeyValue

theorem respects_eq (key : String) : Respects key Eq where
  agree := by
    rintro s _ rfl
    rfl
  insert := by
    rintro s _ v rfl
    rfl
  erase := by
    rintro s _ rfl
    rfl

end KeyValue

namespace Bench

variable {b b' : Bench} {key : String}

/-- The instances may have done different things. They have one name, one configuration, one image to start over from
and the same breakpoints, and they find the same store at the same time. No reset comes while an instruction waits for
input, so that the flag of the input device is no part of what they have done. -/
structure Akin (b b' : Bench) : Prop where
  name : b.cpu.name = b'.cpu.name
  config : b.cpu.config = b'.cpu.config
  image : b.cpu.image = b'.cpu.image
  breakpoints : b.cpu.breakpoints = b'.cpu.breakpoints
  awaiting : b.cpu.awaiting = b'.cpu.awaiting
  store : b.shared.store = b'.shared.store
  clock : b.shared.clock = b'.shared.clock

def SameBytes (b b' : Bench) : Prop := Memory.SameBytes b.cpu.memory b'.cpu.memory

namespace Akin

theorem board (akin : b.Akin b') : b.cpu.board = b'.cpu.board := Board.eq_of_name akin.name akin.config

theorem submit_get (akin : b.Akin b') : Agrees Akin (submit (KeyValue.get key) b) (submit (KeyValue.get key) b') := by
  unfold submit
  rw [KeyValue.get_apply, KeyValue.get_apply, akin.store]
  cases b'.shared.store[key]? with
  | none => exact .ok { akin with store := rfl }
  | some v =>
    cases v with
    | bytes content => exact .ok { akin with store := rfl }
    | list items => exact .error

theorem loadBytes (akin : b.Akin b') (image : Bytes) :
    Agrees (fun c c' => c.Akin c' ∧ c.SameBytes c') (loadBytes image b) (loadBytes image b') := by
  have cleared : Memory.SameBytes b.cpu.memory.clear b'.cpu.memory.clear := by
    funext a
    rw [Memory.byteAt_clear, Memory.byteAt_clear]
  have loaded := Image.load_matches Memory.indistinct_sameBytes image cleared
  unfold Bench.loadBytes
  cases hx : (Image.load image : EStateM Image.Error Memory Nat) b.cpu.memory <;>
    cases hy : (Image.load image : EStateM Image.Error Memory Nat) b'.cpu.memory <;> rw [hx, hy] at loaded
  case ok.ok =>
    obtain ⟨rfl, bytes⟩ := loaded
    exact .ok ⟨{ akin with }, bytes⟩
  case error.error =>
    obtain ⟨rfl, -⟩ := loaded
    exact .error
  all_goals exact loaded.elim

theorem loadImage (akin : b.Akin b') :
    Agrees (fun c c' => c.Akin c' ∧ c.SameBytes c') (loadImage key b) (loadImage key b') := by
  refine akin.submit_get.bind fun image? c c' akin => ?_
  cases image? with
  | none => exact .error
  | some image =>
    exact (akin.loadBytes image).bind fun _ _ _ ⟨akin, bytes⟩ => .ok ⟨{ akin with image := rfl }, bytes⟩

end Akin

/-- The instance as a reset leaves it. -/
structure Fresh (b : Bench) : Prop where
  state : b.cpu.state = .stopped
  pc : b.cpu.registers.pc = b.cpu.config.entryPoint
  others : ∀ r, r ≠ .pc → b.cpu.registers.get r = 0
  lastFault : b.cpu.lastFault = none

/-- What a reset does once the image is loaded. -/
def restart (b : Bench) : Bench :=
  let registers := Instance.entryRegisters b.cpu.config
  let b := setState { b with cpu := { b.cpu with registers, lastFault := none } } .stopped
  b.mapMetrics (·.recordReset b.cpu.name)

theorem reset_eq (b : Bench) : reset b = (loadImage b.cpu.image >>= fun _ => modify restart) b := rfl

theorem cpu_restart (b : Bench) :
    b.restart.cpu =
      { b.cpu with registers := Instance.entryRegisters b.cpu.config, lastFault := none, state := .stopped } :=
  cpu_setState _ .stopped

theorem store_restart (b : Bench) : b.restart.shared.store = b.shared.store := store_setState _ .stopped

theorem fresh_restart (b : Bench) : b.restart.Fresh := by
  have registers : b.restart.cpu.registers = Instance.entryRegisters b.restart.cpu.config := by rw [cpu_restart]; rfl
  constructor
  case state => rw [cpu_restart]
  case pc =>
    rw [registers]
    exact (Registers.get_set ..).trans (if_pos rfl)
  case others =>
    intro r other
    have zero : Registers.zero.get r = 0 := by simp [Registers.zero, Registers.get]
    rw [registers]
    exact (Registers.get_set ..).trans ((if_neg other).trans zero)
  case lastFault => rw [cpu_restart]

theorem Akin.restart (akin : b.Akin b') (bytes : b.SameBytes b') :
    b.restart.Alike b.cpu.board b.shared.clock Memory.SameBytes Eq b'.restart where
  cpu := by
    simp only [cpu_restart, akin.config, akin.board, akin.image, akin.breakpoints, akin.awaiting]
  memory := by
    rw [cpu_restart, cpu_restart]
    exact bytes
  board := by rw [cpu_restart]
  clock := clock_setState _ .stopped
  clock' := (clock_setState _ .stopped).trans akin.clock.symm
  store := by rw [store_restart, store_restart, akin.store]

theorem Akin.reset (akin : b.Akin b') :
    Agrees (fun c c' => c.Fresh ∧ c'.Fresh ∧ c.Alike c.cpu.board c.shared.clock Memory.SameBytes Eq c')
      (reset b) (reset b') := by
  rw [reset_eq, reset_eq, ← akin.image]
  refine akin.loadImage.bind fun _ c c' ⟨akin, bytes⟩ => .ok ⟨fresh_restart c, fresh_restart c', ?_⟩
  have alike := akin.restart bytes
  exact { alike with board := rfl, clock := rfl, clock' := alike.clock'.trans alike.clock.symm }

/-! ### What comes after -/

/-- Nothing that is shown of an instance tells the two benches apart. -/
structure Resembles (b b' : Bench) : Prop where
  registers : b.cpu.registers = b'.cpu.registers
  bytes : ∀ a, b.cpu.memory.byteAt a = b'.cpu.memory.byteAt a
  state : b.cpu.state = b'.cpu.state
  store : b.shared.store = b'.shared.store

theorem Alike.resembles {board : Board} {now : Nat} (alike : b.Alike board now Memory.SameBytes Eq b') :
    b.Resembles b' where
  registers := alike.registers.symm
  bytes := congrFun alike.memory
  state := (alike.part Instance.state fun _ _ => rfl).symm
  store := alike.store

def reply (b : Bench) (op : Op) : Except ControlError Reply :=
  match op.run b with
  | .ok reply _ => .ok reply
  | .error e _ => .error e

/-- The replies to operations, each carried out where the one before has ended. -/
def replies (b : Bench) : List Op → List (Except ControlError Reply)
  | [] => []
  | op :: ops => b.reply op :: (op.apply b).replies ops

def after (b : Bench) (ops : List Op) : Bench := ops.foldl (fun b op => op.apply b) b

theorem Alike.operate {board : Board} {now : Nat} (alike : b.Alike board now Memory.SameBytes Eq b') (op : Op) :
    b.reply op = b'.reply op ∧ (op.apply b).Alike board now Memory.SameBytes Eq (op.apply b') := by
  have run := op.run_matches Memory.indistinct_sameBytes (fun p => KeyValue.respects_eq _) alike
    fun key _ s t same => by rw [same]
  refine ⟨?_, ?_⟩
  · unfold reply
    cases hx : op.run b <;> cases hy : op.run b' <;> rw [hx, hy] at run
    case ok.ok => exact congrArg Except.ok run.1
    case error.error => exact congrArg Except.error run.1
    all_goals exact run.elim
  · rw [← op.endState_run, ← op.endState_run]
    exact run.endState

theorem Alike.operations {board : Board} {now : Nat} (alike : b.Alike board now Memory.SameBytes Eq b')
    (ops : List Op) : b.replies ops = b'.replies ops ∧ (b.after ops).Resembles (b'.after ops) := by
  induction ops generalizing b b' with
  | nil => exact ⟨rfl, alike.resembles⟩
  | cons op rest ih =>
    obtain ⟨reply, alike⟩ := alike.operate op
    obtain ⟨replies, resembles⟩ := ih alike
    exact ⟨congrArg₂ List.cons reply replies, resembles⟩

/-- A reset forgets history: on akin benches it fails on both, and alike, or it leaves both instances fresh with the
same bytes in memory. From then on all that is done to both gets the same replies and leaves the same registers,
bytes, run state and store. -/
theorem reset_forgets (akin : b.Akin b') :
    Agrees (fun c c' => c.Fresh ∧ c'.Fresh ∧ c.Resembles c' ∧
      ∀ ops, c.replies ops = c'.replies ops ∧ (c.after ops).Resembles (c'.after ops)) (reset b) (reset b') := by
  refine akin.reset.imp fun c c' done => ?_
  obtain ⟨fresh, fresh', alike⟩ := done
  exact ⟨fresh, fresh', alike.resembles, alike.operations⟩

/-- A board with its image in the store, as it is built and after some other life. -/
def shelved : Bench where
  cpu := .ofBoard (usualBoard "unit")
  shared := { store := (∅ : KeyValue.Store).insert "boot" (.bytes (Utf8.ofString ":02440000FF3F7C")) }

def worn : Bench :=
  { shelved with
    cpu :=
      { shelved.cpu with
        registers := Registers.zero.set .sp 0x0300
        memory := (Memory.empty.put 0x4400 0x43).print 0x41
        state := .fault
        lastFault := some (.unsupported "RETI") } }

theorem worn_forgets :
    shelved.Akin worn ∧ ∃ c c', reset shelved = .ok () c ∧ reset worn = .ok () c' ∧ c'.Fresh ∧ c.Resembles c' ∧
      ∀ ops, c.replies ops = c'.replies ops := by
  have akin : shelved.Akin worn := ⟨rfl, rfl, rfl, rfl, rfl, rfl, rfl⟩
  have loads : succeeds (reset worn) := by decide +kernel
  obtain ⟨_, c, c', ok, ok', -, fresh, resembles, later⟩ := (reset_forgets akin).of_succeeds loads
  exact ⟨akin, c, c', ok, ok', fresh, resembles, fun ops => (later ops).1⟩

end Bench

end Msp430
