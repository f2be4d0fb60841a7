import Msp430.Proofs.Dialogue
import Msp430.Proofs.Hooks

/-!
# Two memories behind one processor

Where two memories answer every access alike, a step on the one goes as a step on the other. On hooked memory
this is so for any two worlds that the hooks do not tell apart.
-/

namespace Msp430

namespace Access

variable {ε σ τ α β : Type} {R : σ → τ → Prop}

/-- Both end with the same value or the same failure, in related states. -/
def Matches (R : σ → τ → Prop) : EStateM.Result ε σ α → EStateM.Result ε τ α → Prop
  | .ok a s, .ok b t => a = b ∧ R s t
  | .error e s, .error f t => e = f ∧ R s t
  | _, _ => False

/-- From related states on, the two accesses match. -/
def Simulates (R : σ → τ → Prop) (x : EStateM ε σ α) (y : EStateM ε τ α) : Prop :=
  ∀ s t, R s t → Matches R (x s) (y t)

theorem Matches.endState {x : EStateM.Result ε σ α} {y : EStateM.Result ε τ α} (h : Matches R x y) :
    R (endState x) (endState y) := by
  cases x <;> cases y
  case ok.ok => exact h.2
  case error.error => exact h.2
  all_goals exact h.elim

theorem simulates_pure (a : α) : Simulates R (pure a : EStateM ε σ α) (pure a : EStateM ε τ α) :=
  fun _ _ h => ⟨rfl, h⟩

theorem simulates_throw (e : ε) : Simulates R (throw e : EStateM ε σ α) (throw e : EStateM ε τ α) :=
  fun _ _ h => ⟨rfl, h⟩

theorem simulates_modify {f : σ → σ} {g : τ → τ} (h : ∀ s t, R s t → R (f s) (g t)) :
    Simulates R (modify f : EStateM ε σ PUnit) (modify g : EStateM ε τ PUnit) :=
  fun s t hR => ⟨rfl, h s t hR⟩

theorem simulates_bind {x : EStateM ε σ α} {y : EStateM ε τ α} {f : α → EStateM ε σ β}
    {g : α → EStateM ε τ β} (hx : Simulates R x y) (hf : ∀ a, Simulates R (f a) (g a)) :
    Simulates R (x >>= f) (y >>= g) := by
  intro s t h
  have first := hx s t h
  change Matches R (EStateM.bind x f s) (EStateM.bind y g t)
  unfold EStateM.bind
  cases hs : x s <;> cases ht : y t <;> rw [hs, ht] at first
  case ok.ok a s₁ b t₁ =>
    obtain ⟨rfl, related⟩ := first
    exact hf a s₁ t₁ related
  case error.error => exact first
  all_goals exact first.elim

/-- What is read of the state may differ, as long as what follows does not depend on the difference. -/
theorem simulates_get_bind {f : σ → EStateM ε σ β} {g : τ → EStateM ε τ β}
    (h : ∀ s t, R s t → Simulates R (f s) (g t)) : Simulates R (get >>= f) (get >>= g) :=
  fun s t hR => h s t hR s t hR

theorem Matches.map {x : EStateM ε σ α} {y : EStateM ε τ α} {s : σ} {t : τ} (f : α → β)
    (h : Matches R (x s) (y t)) : Matches R ((f <$> x) s) ((f <$> y) t) := by
  change Matches R (EStateM.map f x s) (EStateM.map f y t)
  unfold EStateM.map
  cases hs : x s <;> cases ht : y t <;> rw [hs, ht] at h
  case ok.ok => exact ⟨congrArg f h.1, h.2⟩
  case error.error => exact h
  all_goals exact h.elim

theorem simulates_map {x : EStateM ε σ α} {y : EStateM ε τ α} (f : α → β) (h : Simulates R x y) :
    Simulates R (f <$> x) (f <$> y) :=
  fun s t related => (h s t related).map f

theorem simulates_focus {μ ν : Type} {part : σ → μ} {part' : τ → ν} {replace : σ → μ → σ}
    {replace' : τ → ν → τ}
    {S : μ → ν → Prop} {x : Access μ α} {y : Access ν α} (h : Simulates S x y)
    (down : ∀ s t, R s t → S (part s) (part' t))
    (up : ∀ s t m n, R s t → S m n → R (replace s m) (replace' t n)) :
    Simulates R (focus part replace x) (focus part' replace' y) := by
  intro s t hR
  have inner := h _ _ (down s t hR)
  unfold focus
  cases hs : x (part s) <;> cases ht : y (part' t) <;> rw [hs, ht] at inner
  case ok.ok => exact ⟨inner.1, up _ _ _ _ hR inner.2⟩
  case error.error => exact ⟨inner.1, up _ _ _ _ hR inner.2⟩
  all_goals exact inner.elim

end Access

open Access

/-! ### Steps -/

namespace Dialogue

variable {μ ν α : Type} [Bus μ] [Bus ν] {R : μ → ν → Prop}

theorem run_matches (accesses : ∀ t : Touch, Simulates R t.make t.make) (d : Dialogue α) {m : μ} {n : ν}
    (h : R m n) :
    Matches (fun x y => x.registers = y.registers ∧ R x.memory y.memory) (d.run m) (d.run n) := by
  induction d generalizing m n with
  | give a rs => exact ⟨rfl, rfl, h⟩
  | fail f rs => exact ⟨rfl, rfl, h⟩
  | ask t rs next ih =>
    have answer := accesses t m n h
    simp only [run]
    cases hm : t.make m <;> cases hn : t.make n <;> rw [hm, hn] at answer
    case ok.ok reply m' reply' n' =>
      obtain ⟨rfl, related⟩ := answer
      exact ih reply related
    case error.error => exact ⟨answer.1, rfl, answer.2⟩
    all_goals exact answer.elim

end Dialogue

namespace Machine

variable {μ ν : Type} [Bus μ] [Bus ν] {R : μ → ν → Prop} {x : Machine μ} {y : Machine ν}

/-- How a step ends and where it leaves the machine can be told from how the cycle ends. -/
theorem step_of_matches
    (h : Matches (fun x y => x.registers = y.registers ∧ R x.memory y.memory) (cycle x) (cycle y)) :
    x.step.1 = y.step.1 ∧ x.step.2.registers = y.step.2.registers ∧ R x.step.2.memory y.step.2.memory := by
  unfold step
  cases hx : cycle x <;> cases hy : cycle y <;> rw [hx, hy] at h
  case ok.ok =>
    obtain ⟨rfl, registers, memory⟩ := h
    exact ⟨by simp only [registers], registers, memory⟩
  case error.error =>
    obtain ⟨rfl, registers, memory⟩ := h
    exact ⟨rfl, registers, memory⟩
  all_goals exact h.elim

theorem step_simulates (accesses : ∀ t : Touch, Simulates R t.make t.make) (registers : x.registers = y.registers)
    (memory : R x.memory y.memory) :
    x.step.1 = y.step.1 ∧ x.step.2.registers = y.step.2.registers ∧ R x.step.2.memory y.step.2.memory := by
  apply step_of_matches
  rw [Dialogue.cycle_eq_run, Dialogue.cycle_eq_run, registers]
  exact Dialogue.run_matches accesses _ memory

end Machine

/-! ### Memories that are told apart by the console alone -/

namespace Access

variable {μ : Type} {M : μ → μ → Prop}

theorem simulates_look {f : μ → Except Fault α} (same : ∀ m m', M m m' → f m = f m') :
    Simulates M (look f) (look f) := by
  intro m m' related
  unfold look
  rw [same m m' related]
  cases f m' <;> exact ⟨rfl, related⟩

end Access

namespace Memory

/-- Related memories hold the same bytes, and stay related when the same is stored to both. -/
structure Indistinct (M : Memory → Memory → Prop) : Prop where
  byteAt : ∀ m m', M m m' → m.byteAt = m'.byteAt
  put : ∀ m m' a b, M m m' → M (m.put a b) (m'.put a b)
  print : ∀ m m' b, M m m' → M (m.print b) (m'.print b)
  clear : ∀ m m', M m m' → M m.clear m'.clear

theorem indistinct_eq : Indistinct Eq := by
  constructor <;> rintro m _ <;> intros <;> simp_all

/-- The memories hold the same bytes, whatever has been printed. -/
def SameBytes (m m' : Memory) : Prop := m.byteAt = m'.byteAt

theorem indistinct_sameBytes : Indistinct SameBytes where
  byteAt _ _ same := same
  put m m' a b same := by
    funext a'
    rw [byteAt_put, byteAt_put, same]
  print _ _ _ same := same
  clear m m' _ := by
    funext a
    rw [byteAt_clear, byteAt_clear]

namespace Indistinct

variable {M : Memory → Memory → Prop} {m m' : Memory} (indistinct : Indistinct M)
include indistinct

theorem fetch (related : M m m') (a : UInt16) : m.fetch a = m'.fetch a := by
  unfold Memory.fetch
  rw [indistinct.byteAt m m' related]

theorem loadWord (related : M m m') (a : UInt16) : m.loadWord a = m'.loadWord a := by
  unfold Memory.loadWord
  rw [indistinct.byteAt m m' related]

theorem read (related : M m m') (a length : UInt16) : m.read a length = m'.read a length := by
  unfold Memory.read
  rw [indistinct.byteAt m m' related]

theorem bus_fetch (a : UInt16) : Simulates M (Bus.fetch a : Access Memory _) (Bus.fetch a) :=
  simulates_look fun _ _ related => indistinct.fetch related a

theorem bus_loadByte (a : UInt16) : Simulates M (Bus.loadByte a : Access Memory _) (Bus.loadByte a) :=
  simulates_look fun m m' related => by rw [indistinct.byteAt m m' related]

theorem bus_loadWord (a : UInt16) : Simulates M (Bus.loadWord a : Access Memory _) (Bus.loadWord a) :=
  simulates_look fun _ _ related => indistinct.loadWord related a

theorem look_read (a length : UInt16) : Simulates M (look (·.read a length)) (look (·.read a length)) :=
  simulates_look fun _ _ related => indistinct.read related a length

theorem bus_storeByte (a : UInt16) (b : UInt8) :
    Simulates M (Bus.storeByte a b : Access Memory _) (Bus.storeByte a b) := by
  intro m m' related
  refine ⟨rfl, ?_⟩
  unfold Memory.storeByte
  split
  · exact indistinct.print m m' b related
  · exact indistinct.put m m' a b related

theorem bus_storeWord (a v : UInt16) : Simulates M (Bus.storeWord a v : Access Memory _) (Bus.storeWord a v) := by
  intro m m' related
  change Matches M (change (·.storeWord a v) m) (change (·.storeWord a v) m')
  unfold Access.change Memory.storeWord
  cases checkWord a with
  | error f => exact ⟨rfl, related⟩
  | ok u =>
    cases isConsole a with
    | true => exact ⟨rfl, indistinct.print m m' _ related⟩
    | false => exact ⟨rfl, indistinct.put _ _ _ _ (indistinct.put m m' _ _ related)⟩

theorem bus_storeBytes (bs : Bytes) (a : UInt16) :
    Simulates M (Bus.storeBytes a bs : Access Memory _) (Bus.storeBytes a bs) := by
  induction bs generalizing a with
  | nil => exact simulates_pure ()
  | cons b rest ih => exact simulates_bind (indistinct.bus_storeByte a b) fun _ => ih (a + 1)

end Indistinct

end Memory

/-! ### Hooks in two worlds -/

section Hooks

variable {σ τ α : Type} {M : Memory → Memory → Prop} {S : σ → τ → Prop}

def Backing.Alike (M : Memory → Memory → Prop) (S : σ → τ → Prop) (b : Backing σ) (b' : Backing τ) : Prop :=
  M b.memory b'.memory ∧ S b.world b'.world

theorem Backing.onMemory_simulates {x : Access Memory α} (h : Simulates M x x) :
    Simulates (Alike M S) (onMemory x) (onMemory x) :=
  simulates_focus h (fun _ _ related => related.1) fun _ _ _ _ related after => ⟨after, related.2⟩

theorem Backing.onWorld_simulates {x : Access σ α} {y : Access τ α} (h : Simulates S x y) :
    Simulates (Alike M S) (onWorld x) (onWorld y) :=
  simulates_focus h (fun _ _ related => related.2) fun _ _ _ _ related after => ⟨related.1, after⟩

structure Hooks.Simulates (M : Memory → Memory → Prop) (S : σ → σ → Prop) (hooks : Hooks σ) : Prop where
  read : ∀ a hook, hooks.read a = some hook → ∀ a', Access.Simulates (Backing.Alike M S) (hook a') (hook a')
  write : ∀ a hook, hooks.write a = some hook → ∀ a' v,
    Access.Simulates (Backing.Alike M S) (hook a' v) (hook a' v)

def Touch.isStore : Touch → Bool
  | .store _ _ _ => true
  | _ => false

namespace Hooked

variable {S : σ → σ → Prop} {hooks : Hooks σ}

theorem make_hooks (t : Touch) (m : Hooked σ) : (endState (t.make m)).hooks = m.hooks := by
  have free : m.hooks.Keeps fun _ => True := ⟨fun _ _ _ _ _ _ => trivial, fun _ _ _ _ _ _ _ => trivial⟩
  have bus := bus_keeps free
  cases t with
  | fetch a => exact (bus.fetch a m ⟨rfl, trivial⟩).1
  | load w a => exact (bus.load w a m ⟨rfl, trivial⟩).1
  | store w a v => exact (bus.store w a v m ⟨rfl, trivial⟩).1

def Alike (hooks : Hooks σ) (M : Memory → Memory → Prop) (S : σ → σ → Prop) (m m' : Hooked σ) : Prop :=
  m.hooks = hooks ∧ m'.hooks = hooks ∧ m.backing.Alike M S m'.backing

theorem onBacking_simulates {x y : Access (Backing σ) α} (h : Simulates (Backing.Alike M S) x y) :
    Simulates (Alike hooks M S) (onBacking x) (onBacking y) :=
  simulates_focus h (fun _ _ related => related.2.2) fun _ _ _ _ related after => ⟨related.1, related.2.1, after⟩

theorem direct_simulates {x : Access Memory α} (h : Simulates M x x) :
    Simulates (Alike hooks M S) (direct x) (direct x) :=
  onBacking_simulates (Backing.onMemory_simulates h)

def ReadsAlike (hooks : Hooks σ) (M : Memory → Memory → Prop) (S : σ → σ → Prop) : Prop :=
  ∀ a hook, hooks.read a = some hook → ∀ a', Access.Simulates (Backing.Alike M S) (hook a') (hook a')

theorem hookedLoad_simulates (reads : ReadsAlike hooks M S) (a : UInt16) :
    Simulates (Alike hooks M S) (hookedLoad a) (hookedLoad a) := by
  rintro m m' ⟨rfl, same, related⟩
  unfold hookedLoad
  rw [same]
  cases bound : m.hooks.read a with
  | none => exact ⟨rfl, rfl, same, related⟩
  | some hook =>
    have answer := reads a hook bound a _ _ related
    simp only
    cases hx : hook a m.backing <;> cases hy : hook a m'.backing <;> rw [hx, hy] at answer
    case ok.ok => exact ⟨congrArg some answer.1, rfl, rfl, answer.2⟩
    case error.error => exact ⟨rfl, rfl, rfl, answer.2⟩
    all_goals exact answer.elim

theorem hookedStore_simulates (each : hooks.Simulates M S) (a v : UInt16) {x : Access Memory Unit}
    (plain : Simulates M x x) : Simulates (Alike hooks M S) (hookedStore a v x) (hookedStore a v x) := by
  rintro m m' ⟨rfl, same, related⟩
  unfold hookedStore
  rw [same]
  cases bound : m.hooks.write a with
  | none => exact direct_simulates plain m m' ⟨rfl, same, related⟩
  | some hook => exact onBacking_simulates (each.write a hook bound a v) m m' ⟨rfl, same, related⟩

theorem load_simulates (reads : ReadsAlike hooks M S) (a : UInt16) (value : UInt16 → α) {x : Access Memory α}
    (plain : Simulates M x x) :
    Simulates (Alike hooks M S)
      (hookedLoad a >>= fun v? => match v? with
        | some v => pure (value v)
        | none => direct x)
      (hookedLoad a >>= fun v? => match v? with
        | some v => pure (value v)
        | none => direct x) := by
  refine simulates_bind (hookedLoad_simulates reads a) fun v? => ?_
  cases v? with
  | some v => exact simulates_pure _
  | none => exact direct_simulates plain

variable (indistinct : Memory.Indistinct M)
include indistinct

theorem make_simulates_of_read (reads : ReadsAlike hooks M S) {t : Touch} (read : ¬ t.isStore) :
    Simulates (Alike hooks M S) t.make t.make := by
  cases t with
  | fetch a =>
    rintro m m' ⟨rfl, same, related⟩
    simp only [Touch.make, Bus.fetch]
    rw [same]
    split
    · exact ⟨rfl, rfl, same, related⟩
    · exact direct_simulates (indistinct.bus_fetch a) m m' ⟨rfl, same, related⟩
  | load w a =>
    cases w with
    | byte => exact simulates_map _ (load_simulates reads a lowByte (indistinct.bus_loadByte a))
    | word => exact load_simulates reads a id (indistinct.bus_loadWord a)
  | store w a v => exact absurd rfl read

/-- Whatever is accessed, hooks that do not tell two worlds apart answer the same. -/
theorem make_simulates (each : hooks.Simulates M S) (t : Touch) : Simulates (Alike hooks M S) t.make t.make := by
  cases t with
  | store w a v =>
    cases w with
    | byte => exact hookedStore_simulates each _ _ (indistinct.bus_storeByte a _)
    | word => exact hookedStore_simulates each _ _ (indistinct.bus_storeWord a v)
  | _ => exact make_simulates_of_read indistinct each.read nofun

end Hooked

end Hooks

end Msp430
