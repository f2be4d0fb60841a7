import Msp430.Proofs.AccessTrace
import Msp430.Proofs.Faults
import Msp430.Proofs.FlatMemory

/-!
# Misplaced words

No word lies at an odd address or above the last one that a word may have. Memory refuses every access to a word
there, and the step that makes it fails. A hook comes before the memory, so that one which is bound there can still
take the access over.
-/

namespace Msp430

open Access Memory

namespace Touch

/-- The address of a word that is loaded or stored. -/
def word? : Touch → Option UInt16
  | load .word a | store .word a _ => some a
  | _ => none

variable {μ : Type} [Bus μ] {plan before after : List Touch} {t : Touch} {m mem : μ}

theorem made_split (split : made plan m = before ++ t :: after) :
    ∃ mem, makeAll before m = .ok () mem ∧
      ∀ f mem', t.make mem = .error f mem' → makeAll plan m = .error f mem' ∧ after = [] := by
  induction before generalizing plan m with
  | nil =>
    cases plan with
    | nil => cases split
    | cons t' rest =>
      obtain ⟨rfl, later⟩ := List.cons_eq_cons.mp split
      refine ⟨m, rfl, fun f mem' refused => ?_⟩
      rw [refused] at later
      rw [makeAll, refused]
      exact ⟨rfl, later.symm⟩
  | cons first before ih =>
    cases plan with
    | nil => cases split
    | cons t' rest =>
      obtain ⟨rfl, later⟩ := List.cons_eq_cons.mp split
      rw [makeAll, makeAll]
      cases answer : t'.make m with
      | ok reply m' =>
        rw [answer] at later
        exact ih later
      | error f m' =>
        rw [answer] at later
        cases before <;> cases later

theorem hooks_makeAll {σ : Type} {before : List Touch} {m mem : Hooked σ} (made : makeAll before m = .ok () mem) :
    mem.hooks = m.hooks := by
  induction before generalizing m with
  | nil =>
    cases made
    rfl
  | cons t rest ih =>
    have kept := Hooked.make_hooks t m
    rw [makeAll] at made
    cases answer : t.make m with
    | ok reply m' =>
      rw [answer] at made kept
      exact (ih made).trans kept
    | error f m' =>
      rw [answer] at made
      cases made

end Touch

theorem Machine.step_of_refused {μ : Type} [Bus μ] {m : Machine μ} {before after : List Touch} {t : Touch}
    (split : m.touches = before ++ t :: after) :
    ∃ mem, Touch.makeAll before m.memory = .ok () mem ∧
      ∀ f mem', t.make mem = .error f mem' → m.step.1 = .failed f ∧ after = [] := by
  obtain ⟨plan, -, touches, -, failed⟩ := m.step_orderly.planned
  obtain ⟨mem, made, refused⟩ := Touch.made_split (touches.symm.trans split)
  refine ⟨mem, made, fun f mem' answer => ?_⟩
  obtain ⟨ended, last⟩ := refused f mem' answer
  exact ⟨failed f mem' ended, last⟩

variable {a : UInt16} {f : Fault} {t : Touch}

theorem Memory.loadWord_refused (misplaced : Misplaced a f) (m : Memory) : Bus.loadWord a m = .error f m :=
  look_eq_error.mpr ⟨loadWord_eq_error.mpr misplaced, rfl⟩

theorem Memory.make_misplaced (misplaced : Misplaced a f) (word : t.word? = some a) (m : Memory) :
    t.make m = .error f m := by
  match t with
  | .load .word _ =>
    cases word
    exact loadWord_refused misplaced m
  | .store .word _ v =>
    cases word
    exact storeWord_refused misplaced m v
  | .fetch _ | .load .byte _ | .store .byte _ _ => cases word

namespace Hooked

variable {σ α : Type} {m : Hooked σ}

/-- A hook takes the access over. -/
def Caught (m : Hooked σ) : Touch → Prop
  | .load _ a => ∃ hook v b, m.hooks.read a = some hook ∧ hook a m.backing = .ok v b
  | .store _ a _ => (m.hooks.write a).isSome
  | .fetch _ => False

theorem direct_refused {x : Access Memory α} (refused : x m.backing.memory = .error f m.backing.memory) :
    direct x m = .error f m := by
  simp only [direct, onBacking, Backing.onMemory, focus, refused]

section Bound

variable {hook : ReadHook σ} (bound : m.hooks.read a = some hook)
include bound

theorem hookedLoad_bound (value : UInt16 → α) (x : Access Memory α) :
    (hookedLoad a >>= fun v? => match v? with
      | some v => pure (value v)
      | none => direct x) m =
      match hook a m.backing with
      | .ok v b => .ok (value v) { m with backing := b }
      | .error _ b => direct x { m with backing := b } := by
  change EStateM.bind (hookedLoad a) _ m = _
  unfold EStateM.bind hookedLoad
  simp only [bound]
  cases hook a m.backing <;> rfl

theorem loadByte_bound :
    Bus.loadByte a m =
      match hook a m.backing with
      | .ok v b => .ok (lowByte v) { m with backing := b }
      | .error _ b => direct (Bus.loadByte a) { m with backing := b } :=
  hookedLoad_bound bound lowByte (Bus.loadByte a)

theorem loadWord_bound :
    Bus.loadWord a m =
      match hook a m.backing with
      | .ok v b => .ok v { m with backing := b }
      | .error _ b => direct (Bus.loadWord a) { m with backing := b } :=
  hookedLoad_bound bound id (Bus.loadWord a)

end Bound

theorem storeWord_eq (m : Hooked σ) (a v : UInt16) :
    Bus.storeWord a v m =
      match m.hooks.write a with
      | some hook => onBacking (hook a v) m
      | none => direct (Bus.storeWord a v) m := rfl

/-- What becomes of accesses to a word where none lies. Hooks at other addresses play no part. -/
structure Refuses (m : Hooked σ) (a : UInt16) (f : Fault) : Prop where
  load : m.hooks.read a = none → ∀ calls,
    Bus.loadWord a m = .error f m ∧ Bus.loadWord a (m.counting calls) = .error f (m.counting calls)
  hookedLoad : ∀ hook, m.hooks.read a = some hook →
    Bus.loadWord a m =
      match hook a m.backing with
      | .ok v b => .ok v { m with backing := b }
      | .error _ b => .error f { m with backing := b }
  store : m.hooks.write a = none → ∀ v calls,
    Bus.storeWord a v m = .error f m ∧ Bus.storeWord a v (m.counting calls) = .error f (m.counting calls)
  hookedStore : ∀ hook, m.hooks.write a = some hook → ∀ v, Bus.storeWord a v m = onBacking (hook a v) m

theorem load_misplaced (misplaced : Misplaced a f) (unbound : m.hooks.read a = none) :
    Bus.loadWord a m = .error f m := by
  rw [loadWord_unbound unbound]
  exact direct_refused (loadWord_refused misplaced _)

theorem store_misplaced (misplaced : Misplaced a f) (unbound : m.hooks.write a = none) (v : UInt16) :
    Bus.storeWord a v m = .error f m := by
  rw [storeWord_eq, unbound]
  exact direct_refused (storeWord_refused misplaced _ v)

theorem refuses (misplaced : Misplaced a f) (m : Hooked σ) : m.Refuses a f where
  load unbound calls := by
    have silent : (m.counting calls).hooks.read a = none := by simp [counting, Hooks.counting, unbound]
    exact ⟨load_misplaced misplaced unbound, load_misplaced misplaced silent⟩
  hookedLoad hook bound := by
    rw [loadWord_bound bound]
    cases hook a m.backing with
    | ok v b => rfl
    | error _ b => exact direct_refused (loadWord_refused misplaced _)
  store unbound v calls := by
    have silent : (m.counting calls).hooks.write a = none := by simp [counting, Hooks.counting, unbound]
    exact ⟨store_misplaced misplaced unbound v, store_misplaced misplaced silent v⟩
  hookedStore hook bound v := by rw [storeWord_eq, bound]

theorem make_misplaced (misplaced : Misplaced a f) (word : t.word? = some a) (m : Hooked σ) :
    m.Caught t ∨ ∃ mem, t.make m = .error f mem := by
  have refuses := refuses misplaced m
  match t with
  | .load .word _ =>
    cases word
    cases bound : m.hooks.read a with
    | none => exact .inr ⟨m, (refuses.load bound []).1⟩
    | some hook =>
      have loaded := refuses.hookedLoad hook bound
      cases answer : hook a m.backing with
      | ok v b => exact .inl ⟨hook, v, b, bound, answer⟩
      | error _ b =>
        rw [answer] at loaded
        exact .inr ⟨_, loaded⟩
  | .store .word _ v =>
    cases word
    cases bound : m.hooks.write a with
    | none => exact .inr ⟨m, (refuses.store bound v []).1⟩
    | some hook => exact .inl (Option.isSome_of_eq_some bound)
  | .fetch _ | .load .byte _ | .store .byte _ _ => cases word

end Hooked

namespace Machine

/-- Memory refuses every word access to an address where no word lies and stays as it is, and a step that makes one
fails with it as its last access. On hooked memory it is so too, and no hook is called, unless a hook is bound at the
address itself: a read hook that succeeds answers the load, and a write hook decides about the store. -/
theorem misplaced_words (misplaced : Misplaced a f) :
    (∀ m : Memory, Bus.loadWord a m = .error f m ∧ ∀ v, Bus.storeWord a v m = .error f m) ∧
    (∀ {σ : Type} (m : Hooked σ), m.Refuses a f) ∧
    (∀ (m : Machine Memory) (before after : List Touch) (t : Touch), m.touches = before ++ t :: after →
      t.word? = some a → m.step.1 = .failed f ∧ after = []) ∧
    ∀ {σ : Type} (m : Machine (Hooked σ)) (before after : List Touch) (t : Touch),
      m.touches = before ++ t :: after → t.word? = some a →
      ∃ mem, Touch.makeAll before m.memory = .ok () mem ∧ mem.hooks = m.memory.hooks ∧
        (mem.Caught t ∨ m.step.1 = .failed f ∧ after = []) := by
  refine ⟨fun m => ⟨loadWord_refused misplaced m, storeWord_refused misplaced m⟩, Hooked.refuses misplaced, ?_, ?_⟩
  · intro m before after t split word
    obtain ⟨mem, -, refused⟩ := step_of_refused split
    exact refused f mem (Memory.make_misplaced misplaced word mem)
  · intro σ m before after t split word
    obtain ⟨mem, made, refused⟩ := step_of_refused split
    refine ⟨mem, made, Touch.hooks_makeAll made, ?_⟩
    rcases Hooked.make_misplaced misplaced word mem with caught | ⟨mem', answer⟩
    · exact .inl caught
    · exact .inr (refused f mem' answer)

/-- A move from one odd address to another, at both of which hooks are bound, and then a load from a third. -/
def straying : Machine (Hooked Nat) where
  registers := Registers.zero.set .pc 0x4400
  memory :=
    { hooks :=
        { read := fun a => if a = 0x0301 then some fun _ b => .ok 0x1234 b else none
          write := fun a => if a = 0x0303 then some fun _ v b => .ok () { b with world := b.world + v.toNat } else none }
      backing :=
        { memory := Memory.empty.storeBytes 0x4400 [0x92, 0x42, 0x01, 0x03, 0x03, 0x03, 0x15, 0x42, 0x05, 0x03]
          world := 0 } }

/-- The hooks answer the load and take the value, so that the step succeeds. -/
theorem straying_taken_over :
    Misplaced 0x0301 (.addressUnaligned 0x0301) ∧ Misplaced 0x0303 (.addressUnaligned 0x0303) ∧
      Bus.loadWord 0x0301 straying.memory = .ok 0x1234 straying.memory ∧
      (∃ m, Bus.storeWord 0x0303 0x1234 straying.memory = .ok () m ∧ m.backing.world = 0x1234) ∧
      straying.touches = [.fetch 0x4400, .load .word 0x0301, .store .word 0x0303 0x1234] ∧
      straying.step.1.executed?.isSome = true :=
  ⟨.inl ⟨rfl, rfl⟩, .inl ⟨rfl, rfl⟩, rfl, ⟨_, rfl, rfl⟩, by decide +kernel, by decide +kernel⟩

/-- The next step has no hook to help it. -/
theorem straying_refused :
    (straying.steps 1).touches = [.fetch 0x4406, .load .word 0x0305] ∧
      (straying.steps 1).step.1 = .failed (.addressUnaligned 0x0305) ∧
      (straying.steps 1).memory.Refuses 0x0305 (.addressUnaligned 0x0305) := by
  have laws := misplaced_words (a := 0x0305) (.inl ⟨rfl, rfl⟩)
  have split : (straying.steps 1).touches = [.fetch 0x4406] ++ .load .word 0x0305 :: [] := by decide +kernel
  obtain ⟨mem, -, hooks, caught | ⟨failed, -⟩⟩ := laws.2.2.2 (straying.steps 1) _ _ _ split rfl
  · obtain ⟨hook, -, -, bound, -⟩ := caught
    rw [hooks] at bound
    cases bound
  · exact ⟨split, failed, laws.2.1 _⟩

end Machine

end Msp430
