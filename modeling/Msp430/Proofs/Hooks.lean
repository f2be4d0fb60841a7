import Msp430.Peripheral.Hook
import Msp430.Proofs.Phases

/-!
# What a step keeps behind hooks

What each access of a bus keeps is kept by every step. On hooked memory an access keeps the hooks, and of the
world it keeps what the hooks keep. The hooks of the peripherals keep the clock.
-/

namespace Msp430

/-- Every access of the processor keeps an invariant of the memory. -/
structure Bus.Keeps {μ : Type} [Bus μ] (I : μ → Prop) : Prop where
  fetch : ∀ a, Access.Keeps I (Bus.fetch a)
  load : ∀ w a, Access.Keeps I (Bus.load w a)
  store : ∀ w a v, Access.Keeps I (Bus.store w a v)

namespace Machine

variable {μ : Type} [Bus μ] {I : μ → Prop}

omit [Bus μ] in
theorem setRegisters_keeps (rs : Registers) :
    Access.Keeps (fun m => I m.memory) (setRegisters rs : Access (Machine μ) Unit) :=
  Access.keeps_modify fun _ h => h

theorem commit_keeps (bus : Bus.Keeps I) (w : Width) (e : Effect) :
    Access.Keeps (fun m => I m.memory) (commit w e : Access (Machine μ) Unit) := by
  intro m h
  rw [commit_apply]
  cases e.refusal? with
  | some f => exact h
  | none =>
    cases e.store? m.registers with
    | none => exact h
    | some store =>
      obtain ⟨a, v⟩ := store
      have kept := bus.store w a v m.memory h
      simp only
      cases hs : Bus.store w a v m.memory <;> rw [hs] at kept <;> exact kept

theorem execute_keeps (bus : Bus.Keeps I) {i : Instruction} (hi : i.Encodable) :
    Access.Keeps (fun m => I m.memory) (execute i : Access (Machine μ) Unit) := by
  rw [execute_eq]
  exact Access.keeps_bind (fun m h => gather_memory bus.load hi h) fun e => commit_keeps bus i.width e

theorem cycle_keeps (bus : Bus.Keeps I) :
    Access.Keeps (fun m => I m.memory) (cycle : Access (Machine μ) Decoded) := by
  unfold cycle
  refine Access.keeps_bind keeps_getRegisters fun rs =>
    Access.keeps_bind (keeps_onMemory (bus.fetch _)) fun raw => ?_
  split
  · exact Access.keeps_throw _
  · next d hd =>
    exact Access.keeps_bind keeps_getRegisters fun rs => Access.keeps_bind (setRegisters_keeps _) fun _ =>
      Access.keeps_bind (execute_keeps bus (decode_encodable hd)) fun _ => Access.keeps_pure d

theorem step_end (m : Machine μ) : m.step.2 = Access.endState (cycle m) := by
  unfold step
  cases cycle m <;> rfl

theorem step_keeps (bus : Bus.Keeps I) {m : Machine μ} (h : I m.memory) : I m.step.2.memory := by
  rw [step_end]
  exact cycle_keeps bus m h

end Machine

/-! ### Hooked memory -/

namespace Hooks

variable {σ : Type} {h h' : Hooks σ} {a : UInt16} {f : Fault}

theorem bindRead_eq_ok {hook : ReadHook σ} :
    h.bindRead a hook = .ok h' ↔
      h.read a = none ∧ h' = { h with read := fun a' => if a' = a then some hook else h.read a' } := by
  unfold bindRead
  cases h.read a <;> simp [eq_comm]

theorem bindWrite_eq_ok {hook : WriteHook σ} :
    h.bindWrite a hook = .ok h' ↔
      h.write a = none ∧ h' = { h with write := fun a' => if a' = a then some hook else h.write a' } := by
  unfold bindWrite
  cases h.write a <;> simp [eq_comm]

theorem bindRead_eq_error {hook : ReadHook σ} :
    h.bindRead a hook = .error f ↔ (h.read a).isSome ∧ f = .hookConflict a := by
  unfold bindRead
  cases h.read a <;> simp [eq_comm]

theorem bindWrite_eq_error {hook : WriteHook σ} :
    h.bindWrite a hook = .error f ↔ (h.write a).isSome ∧ f = .hookConflict a := by
  unfold bindWrite
  cases h.write a <;> simp [eq_comm]

/-- What a table holds in which a free place has been taken. -/
theorem entry_eq_some {α : Type} {t : UInt16 → Option α} {a a' : UInt16} {x y : α} (free : t a = none) :
    (if a' = a then some x else t a') = some y ↔ t a' = some y ∨ a' = a ∧ y = x := by
  by_cases here : a' = a
  · subst here
    simp [free, eq_comm]
  · simp [here]

end Hooks

/-- The hooks keep an invariant of the world. -/
structure Hooks.Keeps {σ : Type} (I : σ → Prop) (hooks : Hooks σ) : Prop where
  read : ∀ a hook, hooks.read a = some hook → ∀ a', Access.Keeps (fun b : Backing σ => I b.world) (hook a')
  write : ∀ a hook, hooks.write a = some hook → ∀ a' v,
    Access.Keeps (fun b : Backing σ => I b.world) (hook a' v)

namespace Backing

variable {σ : Type} {I : σ → Prop}

theorem keeps_onMemory (x : Access Memory α) :
    Access.Keeps (fun b : Backing σ => I b.world) (Backing.onMemory x) :=
  Access.keeps_focus (J := fun _ => True) (fun _ _ => trivial) (fun _ _ => trivial) fun _ _ h _ => h

theorem keeps_onWorld {x : Access σ α} (h : Access.Keeps I x) :
    Access.Keeps (fun b : Backing σ => I b.world) (Backing.onWorld x) :=
  Access.keeps_focus h (fun _ h => h) fun _ _ _ h => h

end Backing

namespace Hooked

variable {σ : Type} {I : σ → Prop} {hooks : Hooks σ}

theorem keeps_onBacking {x : Access (Backing σ) α} (h : Access.Keeps (fun b => I b.world) x) :
    Access.Keeps (fun m : Hooked σ => m.hooks = hooks ∧ I m.backing.world) (onBacking x) :=
  Access.keeps_focus h (fun _ h => h.2) fun _ _ h kept => ⟨h.1, kept⟩

theorem keeps_direct (x : Access Memory α) :
    Access.Keeps (fun m : Hooked σ => m.hooks = hooks ∧ I m.backing.world) (direct x) :=
  keeps_onBacking (Backing.keeps_onMemory x)

theorem keeps_hookedLoad (kept : hooks.Keeps I) (a : UInt16) :
    Access.Keeps (fun m : Hooked σ => m.hooks = hooks ∧ I m.backing.world) (hookedLoad a) := by
  rintro m ⟨rfl, h⟩
  unfold hookedLoad
  cases bound : m.hooks.read a with
  | none => exact ⟨rfl, h⟩
  | some hook =>
    have after := kept.read a hook bound a m.backing h
    simp only
    cases hr : hook a m.backing <;> rw [hr] at after <;> exact ⟨rfl, after⟩

theorem keeps_hookedStore (kept : hooks.Keeps I) (a v : UInt16) (x : Access Memory Unit) :
    Access.Keeps (fun m : Hooked σ => m.hooks = hooks ∧ I m.backing.world) (hookedStore a v x) := by
  rintro m ⟨rfl, h⟩
  unfold hookedStore
  cases bound : m.hooks.write a with
  | none => exact keeps_direct x m ⟨rfl, h⟩
  | some hook => exact keeps_onBacking (kept.write a hook bound a v) m ⟨rfl, h⟩

/-- The accesses keep the hooks, and of the world what the hooks keep. -/
theorem bus_keeps (kept : hooks.Keeps I) :
    Bus.Keeps fun m : Hooked σ => m.hooks = hooks ∧ I m.backing.world where
  fetch a := by
    intro m h
    simp only [Bus.fetch]
    split
    · exact h
    · exact keeps_direct _ m h
  load w a := by
    cases w with
    | byte =>
      refine Access.keeps_map _ (Access.keeps_bind (keeps_hookedLoad kept a) fun v => ?_)
      cases v with
      | some v => exact Access.keeps_pure _
      | none => exact keeps_direct _
    | word =>
      refine Access.keeps_bind (keeps_hookedLoad kept a) fun v => ?_
      cases v with
      | some v => exact Access.keeps_pure v
      | none => exact keeps_direct _
  store w a v := by
    cases w with
    | byte => exact keeps_hookedStore kept _ _ _
    | word => exact keeps_hookedStore kept _ _ _

end Hooked

/-! ### Peripherals -/

namespace World

variable {I : World → Prop}

/-- The invariant does not look at the store or at the flag of the input device. -/
structure Aside (I : World → Prop) : Prop where
  store : ∀ w store, I w → I { w with store }
  awaiting : ∀ w awaiting, I w → I { w with awaiting }

theorem Aside.submit (aside : Aside I) (job : KeyValue.Job α) : Access.Keeps I (submit job) := by
  intro w h
  unfold World.submit
  cases job w.store <;> exact aside.store w _ h

theorem Aside.setAwaiting (aside : Aside I) (on : Bool) : Access.Keeps I (setAwaiting on) :=
  Access.keeps_modify fun w h => aside.awaiting w on h

end World

namespace Peripheral

open Access Backing World

variable {I : World → Prop}

/-- Counts a call of the peripheral. -/
def enter : Peripheral → Access World Unit
  | input => enterInput
  | p => World.recordCall p

theorem appendLog_keeps (aside : Aside I) (owner : String) (entry : Bytes) : Keeps I (appendLog owner entry) :=
  keeps_bind keeps_get fun _ => aside.submit _

theorem awaitInput_keeps (aside : Aside I) (owner : String) : Keeps I (awaitInput owner) := by
  refine keeps_bind (aside.submit _) fun posted => ?_
  cases posted with
  | some raw => exact keeps_pure raw
  | none => exact keeps_bind (aside.setAwaiting true) fun _ => keeps_throw _

/-- A peripheral counts its call first. All that it then does to the world is to the store and to the flag. -/
theorem handler_enters (owner : String) (io : IoMap) (p : Peripheral) (a v : UInt16) :
    ∃ rest, handler owner io p a v = (onWorld p.enter >>= fun _ => rest) ∧
      ∀ I, Aside I → Keeps (fun b : Backing World => I b.world) rest := by
  have memory {α : Type} (I : World → Prop) (x : Access Memory α) :
      Keeps (fun b : Backing World => I b.world) (onMemory x) := keeps_onMemory x
  cases p with
  | input =>
    refine ⟨_, rfl, fun I aside => ?_⟩
    exact keeps_bind (memory I _) fun _ => keeps_bind (keeps_onWorld (awaitInput_keeps aside owner)) fun _ =>
      keeps_bind (memory I _) fun _ => memory I _
  | output => exact ⟨_, rfl, fun I aside => keeps_onWorld (aside.submit _)⟩
  | debugLog =>
    refine ⟨_, rfl, fun I aside => ?_⟩
    exact keeps_bind (memory I _) fun _ => keeps_bind (memory I _) fun _ =>
      keeps_onWorld (appendLog_keeps aside owner _)
  | device d =>
    refine ⟨_, rfl, fun I aside => ?_⟩
    exact keeps_bind (memory I _) fun _ => keeps_bind (keeps_onWorld (aside.submit _)) fun _ =>
      keeps_onWorld (appendLog_keeps aside owner _)

theorem enter_apply (p : Peripheral) (w : World) :
    p.enter w = .ok () (if p = input then
      { w with calls := if w.awaiting then w.calls else w.calls.bump p, awaiting := false }
      else { w with calls := w.calls.bump p }) := by
  cases p with
  | input =>
    obtain ⟨store, clock, calls, awaiting⟩ := w
    cases awaiting <;> rfl
  | _ => rfl

theorem handler_keeps_clock {c : Nat} (owner : String) (io : IoMap) (p : Peripheral) (a v : UInt16) :
    Keeps (fun b : Backing World => b.world.clock = c) (handler owner io p a v) := by
  obtain ⟨rest, same, kept⟩ := handler_enters owner io p a v
  rw [same]
  refine keeps_bind (keeps_onWorld (I := fun w : World => w.clock = c) fun w h => ?_) fun _ =>
    kept (fun w => w.clock = c) ⟨fun _ _ h => h, fun _ _ h => h⟩
  rw [enter_apply]
  change World.clock (if _ then _ else _) = c
  split <;> exact h

/-- No loads are hooked, and each hooked store is handled by a peripheral. -/
structure Handles (owner : String) (io : IoMap) (hooks : Hooks World) : Prop where
  read : ∀ a, hooks.read a = none
  write : ∀ a hook, hooks.write a = some hook → ∃ p, hook = handler owner io p

variable {owner : String} {io : IoMap} {hooks hooks' : Hooks World}

theorem Handles.bindWrite {a : UInt16} {p : Peripheral} (old : Handles owner io hooks)
    (h : hooks.bindWrite a (handler owner io p) = .ok hooks') : Handles owner io hooks' := by
  obtain ⟨free, rfl⟩ := Hooks.bindWrite_eq_ok.mp h
  refine ⟨old.read, fun a' hook bound => ?_⟩
  rcases (Hooks.entry_eq_some free).mp bound with before | ⟨-, rfl⟩
  · exact old.write a' hook before
  · exact ⟨p, rfl⟩

theorem install_handles (h : install owner io = .ok hooks) : Handles owner io hooks := by
  have bound (ps : List Peripheral) (before : Hooks World) (old : Handles owner io before)
      (h : ps.foldlM (fun hooks p => hooks.bindWrite (p.address io) (handler owner io p)) before = .ok hooks) :
      Handles owner io hooks := by
    induction ps generalizing before with
    | nil =>
      cases h
      exact old
    | cons p rest ih =>
      obtain ⟨after, bound, h⟩ := except_bind_ok h
      exact ih after (old.bindWrite bound) h
  exact bound all .empty ⟨fun _ => rfl, nofun⟩ h

/-- What every handler keeps is kept by the hooks. -/
theorem install_keeps {I : World → Prop}
    (handlers : ∀ p a v, Keeps (fun b : Backing World => I b.world) (handler owner io p a v))
    (h : install owner io = .ok hooks) : hooks.Keeps I := by
  have handles := install_handles h
  refine ⟨fun a hook bound => ?_, fun a hook bound => ?_⟩
  · rw [handles.read a] at bound
    cases bound
  · obtain ⟨p, rfl⟩ := handles.write a hook bound
    exact handlers p

end Peripheral

end Msp430
