import Msp430.Proofs.FlatMemory
import Msp430.Proofs.Lengths
import Msp430.Proofs.Simulation

/-!
# The faults of a step

The hooks of the peripherals take over no loads, and a fetch gives as many bytes as the longest instruction has. So of
all the faults there are, a step can only end with a wait for input or with one of six kinds.
-/

namespace Msp430

/-- The faults that can be recorded for an instance. -/
def Fault.Recordable : Fault → Prop
  | undecodable (.illegalOpcode _) | badOperand _ | addressTooHigh _ | addressUnaligned _ | unsupported _
  | collaborator _ => True
  | undecodable (.tooShort _ _) | hookedFetch _ | hookConflict _ | halted | awaitingInput => False

theorem Fault.Recordable.ne_awaitingInput {f : Fault} (h : f.Recordable) : f ≠ .awaitingInput := by
  rintro rfl
  exact h

/-- The faults that a step can end with. -/
def Fault.Possible (f : Fault) : Prop := f = .awaitingInput ∨ f.Recordable

namespace Access

variable {σ τ α β : Type} {P : Fault → Prop}

/-- If the access fails, `P` holds of the fault. -/
def Raises (P : Fault → Prop) (x : Access σ α) : Prop := ∀ s f s', x s = .error f s' → P f

theorem Raises.possible {x : Access σ α} (h : Raises Fault.Recordable x) : Raises Fault.Possible x :=
  fun s f s' failed => .inr (h s f s' failed)

theorem raises_pure (a : α) : Raises P (pure a : Access σ α) := nofun

theorem raises_throw {f : Fault} (h : P f) : Raises P (throw f : Access σ α) := by
  rintro s _ _ ⟨⟩
  exact h

theorem raises_get : Raises P (get : Access σ σ) := nofun

theorem raises_modify (f : σ → σ) : Raises P (modify f : Access σ PUnit) := nofun

theorem raises_bind {x : Access σ α} {f : α → Access σ β} (hx : Raises P x) (hf : ∀ a, Raises P (f a)) :
    Raises P (x >>= f) := by
  intro s e s' h
  rcases bind_eq_error.mp h with h | ⟨a, s₁, -, h⟩
  · exact hx s e s' h
  · exact hf a s₁ e s' h

theorem raises_look {f : σ → Except Fault α} (hf : ∀ s e, f s = .error e → P e) : Raises P (look f) := by
  intro s e s' h
  unfold look at h
  cases hr : f s <;> rw [hr] at h <;> cases h
  exact hf s _ hr

theorem raises_change {f : σ → Except Fault σ} (hf : ∀ s e, f s = .error e → P e) : Raises P (change f) := by
  intro s e s' h
  unfold change at h
  cases hr : f s <;> rw [hr] at h <;> cases h
  exact hf s _ hr

theorem raises_focus {part : σ → τ} {replace : σ → τ → σ} {x : Access τ α} (hx : Raises P x) :
    Raises P (focus part replace x) := by
  intro s e s' h
  unfold focus at h
  cases hr : x (part s) <;> rw [hr] at h <;> cases h
  exact hx _ _ _ hr

end Access

open Access

/-! ### Memory -/

namespace Memory

theorem Misplaced.recordable {a : UInt16} {f : Fault} (h : Misplaced a f) : f.Recordable := by
  rcases h with ⟨-, rfl⟩ | ⟨-, -, rfl⟩ <;> trivial

theorem raises_fetch (a : UInt16) : Raises Fault.Recordable (Bus.fetch (μ := Memory) a) := by
  refine raises_look fun m f h => ?_
  unfold fetch at h
  split at h
  · cases h
    trivial
  · split at h <;> cases h
    trivial

theorem raises_loadByte (a : UInt16) : Raises Fault.Recordable (Bus.loadByte (μ := Memory) a) := raises_look nofun

theorem raises_loadWord (a : UInt16) : Raises Fault.Recordable (Bus.loadWord (μ := Memory) a) :=
  raises_look fun _ _ h => (loadWord_eq_error.mp h).recordable

theorem raises_storeByte (a : UInt16) (b : UInt8) : Raises Fault.Recordable (Bus.storeByte (μ := Memory) a b) :=
  raises_change nofun

theorem raises_storeWord (a v : UInt16) : Raises Fault.Recordable (Bus.storeWord (μ := Memory) a v) := by
  intro m f m' h
  by_cases taken : TakesWord a
  · rw [storeWord_taken taken] at h
    cases h
  · obtain ⟨e, misplaced⟩ := exists_misplaced taken
    rw [storeWord_refused misplaced] at h
    cases h
    exact misplaced.recordable

theorem raises_make (t : Touch) : Raises Fault.Recordable (t.make : Access Memory t.Reply) := by
  cases t with
  | fetch a => exact raises_fetch a
  | load w a =>
    cases w with
    | byte => exact fun m f m' failed => raises_loadByte a m f m' (map_eq_error.mp failed)
    | word => exact raises_loadWord a
  | store w a v =>
    cases w with
    | byte => exact raises_storeByte a _
    | word => exact raises_storeWord a v

theorem raises_read (a length : UInt16) : Raises Fault.Recordable (look fun m : Memory => m.read a length) := by
  refine raises_look fun m f h => ?_
  unfold read at h
  split at h <;> cases h
  trivial

theorem raises_storeBytes (a : UInt16) (bs : Bytes) : Raises Fault.Recordable (Bus.storeBytes (μ := Memory) a bs) := by
  induction bs generalizing a with
  | nil => exact raises_pure ()
  | cons b rest ih => exact raises_bind (raises_storeByte a b) fun _ => ih (a + 1)

end Memory

/-! ### Peripherals -/

theorem World.raises_submit (job : KeyValue.Job α) : Raises Fault.Recordable (World.submit job) := by
  intro w f w' h
  unfold submit at h
  cases hr : job w.store <;> rw [hr] at h <;> cases h
  trivial

namespace Peripheral

theorem raises_appendLog (owner : String) (entry : Bytes) : Raises Fault.Recordable (appendLog owner entry) :=
  raises_bind raises_get fun _ => World.raises_submit _

theorem raises_enterInput : Raises P enterInput := by
  refine raises_bind raises_get fun w => ?_
  split
  · exact raises_bind (raises_modify _) fun _ => raises_modify _
  · exact raises_modify _

theorem raises_awaitInput (owner : String) : Raises Fault.Possible (awaitInput owner) := by
  refine raises_bind (World.raises_submit _).possible fun posted => ?_
  cases posted with
  | some raw => exact raises_pure raw
  | none => exact raises_bind (raises_modify _) fun _ => raises_throw (.inl rfl)

theorem raises_handler (owner : String) (io : IoMap) (p : Peripheral) (a v : UInt16) :
    Raises Fault.Possible (handler owner io p a v) := by
  have memory {α : Type} {x : Access Memory α} (h : Raises Fault.Recordable x) :
      Raises Fault.Possible (Backing.onMemory (σ := World) x) :=
    raises_focus h.possible
  have world {α : Type} {x : Access World α} (h : Raises Fault.Possible x) :
      Raises Fault.Possible (Backing.onWorld x) := raises_focus h
  cases p with
  | input =>
    exact raises_bind (world raises_enterInput) fun _ => raises_bind (memory (Memory.raises_loadWord _)) fun _ =>
      raises_bind (world (raises_awaitInput owner)) fun _ => raises_bind (memory (Memory.raises_storeBytes _ _)) fun _ =>
      memory (Memory.raises_storeWord _ _)
  | output =>
    exact raises_bind (world (raises_modify _)) fun _ => world (World.raises_submit _).possible
  | debugLog =>
    exact raises_bind (world (raises_modify _)) fun _ => raises_bind (memory (Memory.raises_loadWord _)) fun _ =>
      raises_bind (memory (Memory.raises_read _ _)) fun _ => world (raises_appendLog owner _).possible
  | device d =>
    exact raises_bind (world (raises_modify _)) fun _ => raises_bind (memory (Memory.raises_storeWord _ _)) fun _ =>
      raises_bind (world (World.raises_submit _).possible) fun _ => world (raises_appendLog owner _).possible

end Peripheral

/-! ### Hooked memory -/

namespace Hooked

variable {owner : String} {io : IoMap} {m : Hooked World}

theorem raises_direct {x : Access Memory α} (h : Raises Fault.Recordable x) :
    Raises Fault.Possible (direct (σ := World) x) :=
  raises_focus (raises_focus h.possible)

section Unbound

variable {σ : Type} {m : Hooked σ} {a : UInt16}

theorem hookedLoad_unbound (unbound : m.hooks.read a = none) : hookedLoad a m = .ok none m := by
  unfold hookedLoad
  rw [unbound]

theorem loadByte_unbound (unbound : m.hooks.read a = none) : Bus.loadByte a m = direct (Bus.loadByte a) m := by
  change EStateM.bind (hookedLoad a) _ m = _
  unfold EStateM.bind
  rw [hookedLoad_unbound unbound]

theorem loadWord_unbound (unbound : m.hooks.read a = none) : Bus.loadWord a m = direct (Bus.loadWord a) m := by
  change EStateM.bind (hookedLoad a) _ m = _
  unfold EStateM.bind
  rw [hookedLoad_unbound unbound]

end Unbound

theorem make_possible (handles : Peripheral.Handles owner io m.hooks) {t : Touch} {f : Fault} {m' : Hooked World}
    (h : t.make m = .error f m') : f.Possible := by
  have stored {a v : UInt16} {x : Access Memory Unit} (unhooked : Raises Fault.Recordable x)
      (h : hookedStore a v x m = .error f m') : f.Possible := by
    unfold hookedStore at h
    cases bound : m.hooks.write a with
    | none =>
      rw [bound] at h
      exact raises_direct unhooked m f m' h
    | some hook =>
      rw [bound] at h
      obtain ⟨p, rfl⟩ := handles.write a hook bound
      have hooked : Raises Fault.Possible (onBacking (Peripheral.handler owner io p a v)) :=
        raises_focus (Peripheral.raises_handler owner io p a v)
      exact hooked m f m' h
  cases t with
  | fetch a =>
    simp only [Touch.make, Bus.fetch, handles.read a] at h
    exact raises_direct (Memory.raises_fetch a) m f m' h
  | load w a =>
    cases w with
    | byte =>
      have loaded := map_eq_error.mp h
      rw [loadByte_unbound (handles.read a)] at loaded
      exact raises_direct (Memory.raises_loadByte a) m f m' loaded
    | word =>
      have loaded := (loadWord_unbound (handles.read a)).symm.trans h
      exact raises_direct (Memory.raises_loadWord a) m f m' loaded
  | store w a v =>
    cases w with
    | byte => exact stored (Memory.raises_storeByte a _) h
    | word => exact stored (Memory.raises_storeWord a _) h

end Hooked

/-! ### Steps -/

namespace Dialogue

variable {α β : Type} {owner : String} {io : IoMap}

/-- What the dialogue fails with of itself is possible. -/
inductive Sound : Dialogue α → Prop
  | give {a : α} {rs : Registers} : Sound (.give a rs)
  | fail {f : Fault} {rs : Registers} : f.Possible → Sound (.fail f rs)
  | ask {t : Touch} {rs : Registers} {next : t.Reply → Dialogue α} :
      (∀ reply, (next reply).Sound) → Sound (.ask t rs next)

theorem Sound.bind {d : Dialogue α} {f : α → Registers → Dialogue β} (h : d.Sound) (hf : ∀ a rs, (f a rs).Sound) :
    (d.bind f).Sound := by
  induction h with
  | give => exact hf _ _
  | fail own => exact .fail own
  | ask _ ih => exact .ask ih

theorem load_sound (w : Width) (rs : Registers) (p : Place) : (load w rs p).Sound := by
  cases p with
  | memory a => exact .ask fun _ => .give
  | _ => exact .give

theorem gather_sound (i : Instruction) (rs : Registers) : (gather i rs).Sound := by
  cases i with
  | single op flag operand =>
    simp only [gather]
    split
    · exact .fail (.inr trivial)
    · exact (load_sound _ _ _).bind fun _ _ => .give
  | jump condition offset => exact .give
  | double op flag source destination =>
    refine (load_sound _ _ _).bind fun s rs₁ => Sound.bind ?_ fun d rs₂ => ?_
    · unfold loadDestination
      split
      · exact .give
      · exact load_sound _ _ _
    · split
      · exact .fail (.inr trivial)
      · exact .give

theorem commit_sound (w : Width) (e : Effect) (rs : Registers) : (commit w e rs).Sound := by
  have refusal {f : Fault} (refused : e.refusal? = some f) : f.Possible := by
    unfold Effect.refusal? at refused
    split at refused
    · split at refused <;> cases refused
      exact .inr trivial
    · cases refused
      exact .inr trivial
    · cases refused
  unfold commit
  cases refused : e.refusal? with
  | some f => exact .fail (refusal refused)
  | none =>
    cases e.store? rs with
    | none => exact .give
    | some store => exact .ask fun _ => .give

theorem cycle_sound (rs : Registers) : (cycle rs).Sound := by
  refine .ask fun raw => ?_
  split
  · next cause undecodable =>
    obtain ⟨word, -, -, rfl⟩ := decode_of_long (Nat.le_of_eq raw.length_toList.symm) undecodable
    exact .fail (.inr trivial)
  · exact ((gather_sound _ _).bind fun e rs' => commit_sound _ e rs').bind fun _ _ => .give

theorem Sound.run_failed {μ : Type} [Bus μ] {I : μ → Prop} {P : Fault → Prop} {d : Dialogue α} (h : d.Sound)
    {m : μ} {f : Fault} {m' : Machine μ} (own : ∀ f, f.Possible → P f)
    (kept : ∀ (t : Touch) m, I m → I (endState (t.make m)))
    (made : ∀ (t : Touch) m f m', I m → t.make m = .error f m' → P f) (start : I m) (failed : d.run m = .error f m') :
    P f := by
  induction h generalizing m with
  | give => cases failed
  | fail possible =>
    cases failed
    exact own _ possible
  | @ask t rs next _ ih =>
    have after := kept t m start
    unfold run at failed
    cases answer : t.make m with
    | ok reply n =>
      rw [answer] at failed after
      exact ih reply after failed
    | error e n =>
      rw [answer] at failed
      cases failed
      exact made t m _ _ start answer

end Dialogue

/-- A step fails with a fault that is possible or with what an access has failed with. -/
theorem Machine.fault_of_step_failed {μ : Type} [Bus μ] {I : μ → Prop} {P : Fault → Prop} {m : Machine μ} {f : Fault}
    (own : ∀ f, f.Possible → P f) (kept : ∀ (t : Touch) m, I m → I (endState (t.make m)))
    (made : ∀ (t : Touch) m f m', I m → t.make m = .error f m' → P f) (start : I m.memory)
    (failed : m.step.1 = .failed f) : P f := by
  unfold step at failed
  cases ends : cycle m with
  | ok d m' =>
    rw [ends] at failed
    simp only at failed
    split at failed <;> cases failed
  | error e m' =>
    rw [ends] at failed
    cases failed
    rw [Dialogue.cycle_eq_run] at ends
    exact (Dialogue.cycle_sound _).run_failed own kept made start ends

/-- A step behind the hooks of the peripherals fails with a wait for input or with a fault that can be recorded. -/
theorem Machine.step_failed_possible {m : Machine (Hooked World)} {owner : String} {io : IoMap} {f : Fault}
    (handles : Peripheral.Handles owner io m.memory.hooks) (failed : m.step.1 = .failed f) : f.Possible :=
  fault_of_step_failed (I := fun m : Hooked World => Peripheral.Handles owner io m.hooks) (fun _ possible => possible)
    (fun t m handles => (Hooked.make_hooks t m).symm ▸ handles)
    (fun _ _ _ _ handles failed => Hooked.make_possible handles failed) handles failed

/-! ### Instructions are fetched whole -/

/-- Every access keeps it, and under it none fails for want of bytes. -/
structure Bus.Whole {μ : Type} [Bus μ] (I : μ → Prop) : Prop where
  kept : ∀ (t : Touch) m, I m → I (endState (t.make m))
  served : ∀ (t : Touch) m needed available m', I m → t.make m ≠ .error (.undecodable (.tooShort needed available)) m'

theorem Fault.Possible.not_short {f : Fault} (h : f.Possible) (needed available : Nat) :
    f ≠ .undecodable (.tooShort needed available) := by
  rintro rfl
  rcases h with h | h
  · cases h
  · exact h

theorem Machine.step_not_short {μ : Type} [Bus μ] {I : μ → Prop} (whole : Bus.Whole I) {m : Machine μ}
    (start : I m.memory) (needed available : Nat) :
    m.step.1 ≠ .failed (.undecodable (.tooShort needed available)) := by
  intro failed
  refine fault_of_step_failed (P := (· ≠ .undecodable (.tooShort needed available)))
    (fun f possible => possible.not_short needed available) whole.kept ?_ start failed rfl
  rintro t m f m' holds failed rfl
  exact whole.served t m _ _ m' holds failed

theorem Memory.whole : Bus.Whole fun _ : Memory => True where
  kept _ _ _ := trivial
  served t m needed available m' _ failed :=
    Fault.Possible.not_short (.inr (raises_make t m _ m' failed)) needed available rfl

/-- An illegal word is told by its bits, an instruction by its extension words, and bytes that are too few by how many
are missing. Six bytes are never too few, and so no step fails for want of bytes, unless its memory itself does. -/
theorem decode_lengths :
    (∀ raw, Measured raw) ∧
      (∀ (m : Machine Memory) (needed available : Nat),
        m.step.1 ≠ .failed (.undecodable (.tooShort needed available))) ∧
      (∀ (owner : String) (io : IoMap) (m : Machine (Hooked World)), Peripheral.Handles owner io m.memory.hooks →
        ∀ needed available, m.step.1 ≠ .failed (.undecodable (.tooShort needed available))) ∧
      ∀ (μ : Type) [Bus μ] (I : μ → Prop), Bus.Whole I → ∀ m : Machine μ, I m.memory →
        ∀ needed available, m.step.1 ≠ .failed (.undecodable (.tooShort needed available)) := by
  refine ⟨measured, fun m => Machine.step_not_short Memory.whole trivial, ?_,
    fun μ _ I whole m start => Machine.step_not_short whole start⟩
  intro owner io m handles needed available failed
  exact (Machine.step_failed_possible handles failed).not_short needed available rfl

/-- The first three bytes of `MOV #1234h, R13`, with bytes to follow. -/
theorem immediate_completed :
    decode [0x3D, 0x40, 0x34] = .error (.tooShort 4 3) ∧
      ∃ d, decode [0x3D, 0x40, 0x34, 0x12, 0x55, 0xAA] = .ok d ∧ d.instruction.size = 4 ∧
        decode (d.bytes ++ [0x00]) = .ok d := by
  have short : decode [0x3D, 0x40, 0x34] = .error (.tooShort 4 3) := rfl
  obtain ⟨measured, -⟩ := decode_lengths
  obtain ⟨-, -, -, -, supplied⟩ := (measured _).short 4 3 short
  rcases supplied [0x12, 0x55, 0xAA] (by decide) with ⟨d, read, -⟩ | ⟨few, -⟩
  · obtain ⟨-, -, -, -, again⟩ := (measured _).read d read
    cases read
    exact ⟨short, _, rfl, rfl, again [0x00]⟩
  · exact absurd few (by decide)

end Msp430
