import Msp430.Proofs.Advance
import Msp430.Proofs.Faults

/-!
# Waiting for input

A step that finds no input breaks off and leaves a flag on. The step can be tried again in any other world: it
comes to the input device again, for nothing before that depends on the world. So after each try the flag tells
whether the step waits.
-/

namespace Msp430

/-! ### Results and the flag -/

namespace Access

variable {σ τ α β : Type} {flag : σ → Bool}

def waits : EStateM.Result Fault σ α → Bool
  | .error .awaitingInput _ => true
  | _ => false

/-- The flag is on if the access waits, and off if it does not. -/
def Shows (flag : σ → Bool) (r : EStateM.Result Fault σ α) : Prop := flag (endState r) = waits r

/-- The access does not wait and leaves the flag as it is. -/
def Quiet (flag : σ → Bool) (x : Access σ α) : Prop :=
  ∀ s, waits (x s) = false ∧ flag (endState (x s)) = flag s

/-- Begun with the flag off, the access ends with the flag on if it waits, and off if it does not. -/
def Signals (flag : σ → Bool) (x : Access σ α) : Prop := ∀ s, flag s = false → Shows flag (x s)

theorem waits_of_ne {f : Fault} {s : σ} (h : f ≠ .awaitingInput) :
    waits (.error f s : EStateM.Result Fault σ α) = false := by
  cases f <;> first | rfl | exact absurd rfl h

theorem waits_error {f : Fault} {s : σ} {s' : τ} (h : waits (.error f s : EStateM.Result Fault σ α) = false) :
    waits (.error f s' : EStateM.Result Fault τ β) = false := by
  cases f <;> first | rfl | cases h

theorem Quiet.signals {x : Access σ α} (h : Quiet flag x) : Signals flag x := by
  intro s off
  obtain ⟨goesOn, same⟩ := h s
  exact (same.trans off).trans goesOn.symm

theorem quiet_pure (a : α) : Quiet flag (pure a) := fun _ => ⟨rfl, rfl⟩

theorem quiet_modify {f : σ → σ} (h : ∀ s, flag (f s) = flag s) : Quiet flag (modify f) := fun s => ⟨rfl, h s⟩

theorem quiet_bind {x : Access σ α} {f : α → Access σ β} (hx : Quiet flag x) (hf : ∀ a, Quiet flag (f a)) :
    Quiet flag (x >>= f) := by
  intro s
  have first := hx s
  change waits (EStateM.bind x f s) = false ∧ flag (endState (EStateM.bind x f s)) = flag s
  unfold EStateM.bind
  cases hs : x s with
  | ok a s₁ =>
    rw [hs] at first
    obtain ⟨goesOn, same⟩ := hf a s₁
    exact ⟨goesOn, same.trans first.2⟩
  | error e s₁ =>
    rw [hs] at first
    cases e <;> exact first

theorem waits_map (f : α → β) (x : Access σ α) (s : σ) :
    waits ((f <$> x) s) = waits (x s) ∧ endState ((f <$> x) s) = endState (x s) := by
  change waits (EStateM.map f x s) = _ ∧ endState (EStateM.map f x s) = _
  unfold EStateM.map
  cases x s with
  | ok a s' => exact ⟨rfl, rfl⟩
  | error e s' => cases e <;> exact ⟨rfl, rfl⟩

theorem quiet_get_bind {f : σ → Access σ β} (h : ∀ s, Quiet flag (f s)) : Quiet flag (get >>= f) :=
  fun s => h s s

theorem shows_bind {x : Access σ α} {f : α → Access σ β} {s : σ} (hx : Shows flag (x s))
    (hf : ∀ a, Signals flag (f a)) : Shows flag ((x >>= f) s) := by
  change Shows flag (EStateM.bind x f s)
  unfold EStateM.bind
  cases hs : x s with
  | ok a s₁ =>
    rw [hs] at hx
    exact hf a s₁ hx
  | error e s₁ =>
    rw [hs] at hx
    cases e <;> exact hx

theorem signals_bind {x : Access σ α} {f : α → Access σ β} (hx : Signals flag x) (hf : ∀ a, Signals flag (f a)) :
    Signals flag (x >>= f) :=
  fun s off => shows_bind (hx s off) hf

theorem quiet_focus {part : σ → τ} {replace : σ → τ → σ} {flag' : τ → Bool} {x : Access τ α}
    (hx : Quiet flag' x) (same : ∀ s m, flag' m = flag' (part s) → flag (replace s m) = flag s) :
    Quiet flag (focus part replace x) := by
  intro s
  obtain ⟨goesOn, kept⟩ := hx (part s)
  unfold focus
  cases hr : x (part s) with
  | ok a m =>
    rw [hr] at kept
    exact ⟨rfl, same s m kept⟩
  | error e m =>
    rw [hr] at goesOn kept
    exact ⟨waits_error goesOn, same s m kept⟩

theorem shows_focus {part : σ → τ} {replace : σ → τ → σ} {flag' : τ → Bool} {x : Access τ α} {s : σ}
    (hx : Shows flag' (x (part s))) (same : ∀ m, flag (replace s m) = flag' m) :
    Shows flag (focus part replace x s) := by
  unfold focus
  cases hr : x (part s) with
  | ok a m =>
    rw [hr] at hx
    exact (same m).trans hx
  | error e m =>
    rw [hr] at hx
    cases e <;> exact (same m).trans hx

end Access

open Access

/-- What fails with faults that can be recorded does not wait; plain memory never does. -/
theorem Access.Raises.quiet {x : Access σ α} (h : Raises Fault.Recordable x) : Quiet (fun _ => false) x := by
  intro s
  cases hr : x s with
  | ok a s' => exact ⟨rfl, rfl⟩
  | error f s' => exact ⟨waits_of_ne (h s f s' hr).ne_awaitingInput, rfl⟩

/-! ### Peripherals -/

namespace World

theorem quiet_submit (job : KeyValue.Job α) : Quiet World.awaiting (submit job) := by
  intro w
  unfold submit
  cases job w.store <;> exact ⟨rfl, rfl⟩

theorem quiet_recordCall (p : Peripheral) : Quiet World.awaiting (recordCall p) := quiet_modify fun _ => rfl

end World

namespace Backing

def waiting (b : Backing World) : Bool := b.world.awaiting

theorem quiet_onMemory {x : Access Memory α} (h : Quiet (fun _ => false) x) : Quiet waiting (onMemory x) :=
  quiet_focus h fun _ _ _ => rfl

theorem quiet_onWorld {x : Access World α} (h : Quiet World.awaiting x) : Quiet waiting (onWorld x) :=
  quiet_focus h fun _ _ same => same

end Backing

namespace Peripheral

open Backing World

theorem quiet_appendLog (owner : String) (entry : Bytes) : Quiet World.awaiting (appendLog owner entry) :=
  quiet_get_bind fun _ => quiet_submit _

/-- The other devices do not wait, and they leave the flag of the input device alone. -/
theorem quiet_handler {owner : String} {io : IoMap} {p : Peripheral} (other : p ≠ input) (a v : UInt16) :
    Quiet Backing.waiting (handler owner io p a v) := by
  cases p with
  | input => exact absurd rfl other
  | output =>
    exact quiet_bind (quiet_onWorld (quiet_recordCall output)) fun _ => quiet_onWorld (quiet_submit _)
  | debugLog =>
    exact quiet_bind (quiet_onWorld (quiet_recordCall debugLog)) fun _ =>
      quiet_bind (quiet_onMemory (Memory.raises_loadWord _).quiet) fun _ =>
      quiet_bind (quiet_onMemory (Memory.raises_read _ _).quiet) fun _ => quiet_onWorld (quiet_appendLog owner _)
  | device d =>
    exact quiet_bind (quiet_onWorld (quiet_recordCall (device d))) fun _ =>
      quiet_bind (quiet_onMemory (Memory.raises_storeWord _ _).quiet) fun _ =>
      quiet_bind (quiet_onWorld (quiet_submit _)) fun _ => quiet_onWorld (quiet_appendLog owner _)

theorem shows_enterInput (w : World) : Shows World.awaiting (enterInput w) := by
  obtain ⟨store, clock, calls, awaiting⟩ := w
  cases awaiting <;> rfl

theorem signals_awaitInput (owner : String) : Signals World.awaiting (awaitInput owner) := by
  refine signals_bind (quiet_submit _).signals fun posted => ?_
  cases posted with
  | some raw => exact (quiet_pure raw).signals
  | none => exact fun _ _ => rfl

/-- The input device sets its flag whenever it is called, however the flag was before. -/
theorem shows_onInput (owner : String) (io : IoMap) (a max : UInt16) (b : Backing World) :
    Shows Backing.waiting (onInput owner io a max b) := by
  have enter : Shows Backing.waiting (onWorld enterInput b) := shows_focus (shows_enterInput b.world) fun _ => rfl
  have await : Signals Backing.waiting (onWorld (awaitInput owner)) := fun c off =>
    shows_focus (signals_awaitInput owner c.world off) fun _ => rfl
  have memory {α : Type} {x : Access Memory α} (h : Quiet (fun _ => false) x) :
      Signals Backing.waiting (onMemory x) := (quiet_onMemory h).signals
  exact shows_bind enter fun _ => signals_bind (memory (Memory.raises_loadWord _).quiet) fun _ =>
    signals_bind await fun _ => signals_bind (memory (Memory.raises_storeBytes _ _).quiet) fun _ =>
    memory (Memory.raises_storeWord _ _).quiet

end Peripheral

/-! ### Hooks -/

/-- Loads are not hooked. A hooked store does not wait and leaves the flag alone, or it sets the flag, however that
was before. -/
structure Hooks.Attentive (hooks : Hooks World) : Prop where
  read : ∀ a, hooks.read a = none
  write : ∀ a hook, hooks.write a = some hook →
    (∀ a' v, Quiet Backing.waiting (hook a' v)) ∨ ∀ a' v b, Shows Backing.waiting (hook a' v b)

theorem Peripheral.install_attentive {owner : String} {io : IoMap} {hooks : Hooks World}
    (h : install owner io = .ok hooks) : hooks.Attentive := by
  have handles := install_handles h
  refine ⟨handles.read, fun a hook bound => ?_⟩
  obtain ⟨p, rfl⟩ := handles.write a hook bound
  by_cases device : p = input
  · subst device
    exact .inr fun a v b => shows_onInput owner io a v b
  · exact .inl (quiet_handler device)

namespace Hooked

variable {hooks : Hooks World}

def waiting (m : Hooked World) : Bool := m.backing.waiting

theorem quiet_direct {x : Access Memory α} (h : Quiet (fun _ => false) x) : Quiet waiting (direct x) :=
  quiet_focus (Backing.quiet_onMemory h) fun _ _ same => same

/-- Whatever the world, the access does not wait and leaves the flag as it is. -/
def QuietAt (hooks : Hooks World) (t : Touch) : Prop :=
  ∀ m : Hooked World, m.hooks = hooks → waits (t.make m) = false ∧ waiting (endState (t.make m)) = waiting m

theorem quietAt_of_read (attentive : hooks.Attentive) {t : Touch} (read : ¬ t.isStore) : QuietAt hooks t := by
  rintro m rfl
  cases t with
  | fetch a =>
    simp only [Touch.make, Bus.fetch, attentive.read a]
    exact quiet_direct (Memory.raises_fetch a).quiet m
  | load w a =>
    cases w with
    | byte =>
      have mapped := waits_map UInt8.toUInt16 (Bus.loadByte a) m
      obtain ⟨goesOn, same⟩ := quiet_direct (Memory.raises_loadByte a).quiet m
      rw [← loadByte_unbound (attentive.read a)] at goesOn same
      exact ⟨mapped.1.trans goesOn, (congrArg waiting mapped.2).trans same⟩
    | word =>
      obtain ⟨goesOn, same⟩ := quiet_direct (Memory.raises_loadWord a).quiet m
      rw [← loadWord_unbound (attentive.read a)] at goesOn same
      exact ⟨goesOn, same⟩
  | store w a v => exact absurd rfl read

theorem quietAt_or_shows (attentive : hooks.Attentive) (w : Width) (a v : UInt16) :
    QuietAt hooks (.store w a v) ∨
      ∀ m : Hooked World, m.hooks = hooks → Shows waiting ((Touch.store w a v).make m) := by
  have stored {v : UInt16} {x : Access Memory Unit} (h : Quiet (fun _ => false) x) :
      (∀ m : Hooked World, m.hooks = hooks →
        waits (hookedStore a v x m) = false ∧ waiting (endState (hookedStore a v x m)) = waiting m) ∨
      ∀ m : Hooked World, m.hooks = hooks → Shows waiting (hookedStore a v x m) := by
    unfold hookedStore
    cases bound : hooks.write a with
    | none =>
      left
      rintro m rfl
      rw [bound]
      exact quiet_direct h m
    | some hook =>
      rcases attentive.write a hook bound with quiet | shows
      · have focused : Quiet waiting (onBacking (hook a v)) := quiet_focus (quiet a v) fun _ _ same => same
        left
        rintro m rfl
        rw [bound]
        exact focused m
      · right
        rintro m rfl
        rw [bound]
        exact shows_focus (shows a v m.backing) fun _ => rfl
  cases w with
  | byte => exact stored (Memory.raises_storeByte _ _).quiet
  | word => exact stored (Memory.raises_storeWord _ _).quiet

end Hooked

/-! ### Steps -/

namespace Dialogue

variable {α β : Type}

/-- Loads are asked for first, and then, if `stores`, one store, which ends the dialogue. Of itself it never
waits. -/
inductive LoadsFirst (stores : Prop) : Dialogue α → Prop
  | give {a : α} {rs : Registers} : LoadsFirst stores (.give a rs)
  | fail {f : Fault} {rs : Registers} : f ≠ .awaitingInput → LoadsFirst stores (.fail f rs)
  | ask {t : Touch} {rs : Registers} {next : t.Reply → Dialogue α} :
      ¬ t.isStore → (∀ reply, (next reply).LoadsFirst stores) → LoadsFirst stores (.ask t rs next)
  | store {w : Width} {a v : UInt16} {rs : Registers} {result : α} {after : Registers} :
      stores → LoadsFirst stores (.ask (.store w a v) rs fun _ => .give result after)

theorem LoadsFirst.bind {stores : Prop} {d : Dialogue α} {f : α → Registers → Dialogue β} (h : d.LoadsFirst False)
    (hf : ∀ a rs, (f a rs).LoadsFirst stores) : (d.bind f).LoadsFirst stores := by
  induction h with
  | give => exact hf _ _
  | fail own => exact .fail own
  | ask read _ ih => exact .ask read ih
  | store no => exact no.elim

theorem LoadsFirst.bind_give {stores : Prop} {d : Dialogue α} (h : d.LoadsFirst stores) (g : α → β) :
    (d.bind fun a rs => .give (g a) rs).LoadsFirst stores := by
  induction h with
  | give => exact .give
  | fail own => exact .fail own
  | ask read _ ih => exact .ask read ih
  | store yes => exact .store yes

theorem load_loadsFirst (w : Width) (rs : Registers) (p : Place) : (load w rs p).LoadsFirst False := by
  cases p with
  | memory a => exact .ask nofun fun _ => .give
  | _ => exact .give

theorem gather_loadsFirst (i : Instruction) (rs : Registers) : (gather i rs).LoadsFirst False := by
  cases i with
  | single op flag operand =>
    simp only [gather]
    split
    · exact .fail (by simp)
    · exact (load_loadsFirst _ _ _).bind fun _ _ => .give
  | jump condition offset => exact .give
  | double op flag source destination =>
    refine (load_loadsFirst _ _ _).bind fun s rs₁ => LoadsFirst.bind ?_ fun d rs₂ => ?_
    · unfold loadDestination
      split
      · exact .give
      · exact load_loadsFirst _ _ _
    · split
      · exact .fail (by simp)
      · exact .give

theorem commit_loadsFirst (w : Width) (e : Effect) (rs : Registers) : (commit w e rs).LoadsFirst True := by
  have refusal {f : Fault} (refused : e.refusal? = some f) : f ≠ .awaitingInput := by
    unfold Effect.refusal? at refused
    split at refused
    · split at refused <;> cases refused
      nofun
    · cases refused
      nofun
    · cases refused
  unfold commit
  cases refused : e.refusal? with
  | some f => exact .fail (refusal refused)
  | none =>
    cases e.store? rs with
    | none => exact .give
    | some store => exact .store trivial

theorem cycle_loadsFirst (rs : Registers) : (cycle rs).LoadsFirst True := by
  refine .ask nofun fun raw => ?_
  split
  · exact .fail nofun
  · exact ((gather_loadsFirst _ _).bind fun e rs' => commit_loadsFirst _ e rs').bind_give _

variable {d : Dialogue α} {m n : Hooked World}

/-- Begun with the flag off, a dialogue ends with the flag on if it waits, and off if it does not. -/
theorem LoadsFirst.shows (h : d.LoadsFirst True) (attentive : m.hooks.Attentive) (off : m.waiting = false) :
    Shows (fun x : Machine (Hooked World) => x.memory.waiting) (d.run m) := by
  induction h generalizing m with
  | give => exact off
  | fail own => exact off.trans (waits_of_ne own).symm
  | @ask t rs next read _ ih =>
    obtain ⟨goesOn, same⟩ := Hooked.quietAt_of_read attentive read m rfl
    have kept := Hooked.make_hooks t m
    unfold run
    cases hm : t.make m with
    | ok reply m' =>
      rw [hm] at same kept
      exact ih reply (kept ▸ attentive) (same.trans off)
    | error f m' =>
      rw [hm] at goesOn same
      exact (same.trans off).trans (waits_error goesOn).symm
  | @store w a v rs result after =>
    have answer : Shows Hooked.waiting ((Touch.store w a v).make m) := by
      rcases Hooked.quietAt_or_shows attentive w a v with quiet | shows
      · obtain ⟨goesOn, same⟩ := quiet m rfl
        exact (same.trans off).trans goesOn.symm
      · exact shows m rfl
    unfold run
    cases hm : (Touch.store w a v).make m with
    | ok reply m' =>
      rw [hm] at answer
      exact answer
    | error f m' =>
      rw [hm] at answer
      cases f <;> exact answer

/-- What waits in one world comes to the input device in every world, and the flag tells whether it waits there. -/
theorem LoadsFirst.retried (h : d.LoadsFirst True) (attentive : m.hooks.Attentive) (hooks : n.hooks = m.hooks)
    (memory : n.backing.memory = m.backing.memory) (waited : waits (d.run m) = true) :
    Shows (fun x : Machine (Hooked World) => x.memory.waiting) (d.run n) := by
  -- Up to the store both worlds see the same accesses, and the store is where the first one waits.
  induction h generalizing m n with
  | give => cases waited
  | fail own => cases waited.symm.trans (waits_of_ne own)
  | @ask t rs next read _ ih =>
    have unread : Hooked.ReadsAlike m.hooks Eq fun _ _ : World => True := fun a hook bound => by
      rw [attentive.read a] at bound
      cases bound
    have answer := Hooked.make_simulates_of_read Memory.indistinct_eq unread read m n ⟨rfl, hooks, memory.symm, trivial⟩
    have goesOn := (Hooked.quietAt_of_read attentive read m rfl).1
    unfold run at waited ⊢
    cases hm : t.make m <;> cases hn : t.make n <;> rw [hm, hn] at answer <;> rw [hm] at waited goesOn
    case ok.ok reply m' reply' n' =>
      obtain ⟨rfl, hooks, hooks', memory, -⟩ := answer
      exact ih reply (hooks ▸ attentive) (hooks'.trans hooks.symm) memory.symm waited
    case error.error f m' f' n' =>
      simp only [waits_error goesOn] at waited
      cases waited
    all_goals exact answer.elim
  | @store w a v rs result after =>
    unfold run at waited
    rcases Hooked.quietAt_or_shows attentive w a v with quiet | shows
    · have goesOn := (quiet m rfl).1
      cases hm : (Touch.store w a v).make m <;> rw [hm] at waited goesOn
      · cases waited
      · simp only [waits_error goesOn] at waited
        cases waited
    · have answer := shows n hooks
      unfold run
      cases hn : (Touch.store w a v).make n with
      | ok reply n' =>
        rw [hn] at answer
        exact answer
      | error f n' =>
        rw [hn] at answer
        cases f <;> exact answer

end Dialogue

namespace Machine

variable {m : Machine (Hooked World)}

def inWorld (m : Machine (Hooked World)) (w : World) : Machine (Hooked World) :=
  { m with memory := { m.memory with backing := { m.memory.backing with world := w } } }

theorem step_waits : m.step.1 = .failed .awaitingInput ↔ waits (cycle m) = true := by
  unfold step
  cases cycle m with
  | ok d m' =>
    simp only [waits]
    split <;> simp
  | error f m' => cases f <;> simp [waits]

/-- After a step the flag tells whether it waits, if the flag was off before or the step has waited in some world. -/
theorem waiting_step (attentive : m.memory.hooks.Attentive)
    (start : m.memory.waiting = false ∨ ∃ w, (m.inWorld w).step.1 = .failed .awaitingInput) :
    m.step.2.memory.waiting = decide (m.step.1 = .failed .awaitingInput) := by
  have shows : Shows (fun x : Machine (Hooked World) => x.memory.waiting) (cycle m) := by
    rw [Dialogue.cycle_eq_run]
    rcases start with off | ⟨w, waited⟩
    · exact (Dialogue.cycle_loadsFirst _).shows attentive off
    · rw [step_waits, Dialogue.cycle_eq_run] at waited
      exact (Dialogue.cycle_loadsFirst _).retried (m := (m.inWorld w).memory) attentive rfl rfl waited
  rw [step_end, Bool.eq_iff_iff, decide_eq_true_iff, step_waits, ← Bool.eq_iff_iff]
  exact shows

end Machine

end Msp430
