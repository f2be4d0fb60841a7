import Msp430.Proofs.StepStore

/-!
# Calls of hooks

A step runs a hook where it stores to the address of a peripheral, and the run is counted however it ends. Only the
input device is called by a step that is tried again, and that call has been counted.
-/

namespace Msp430

open Access

/-! ### The peripheral -/

namespace Peripheral

/-- Every run of a hook is counted, however it ends. Input that is tried for again goes on with the call that began to
wait. -/
theorem calls_handler (owner : String) (io : IoMap) (p : Peripheral) (a v : UInt16) (b : Backing World) :
    (endState (handler owner io p a v b)).world.calls =
      if p = input ∧ b.world.awaiting then b.world.calls else b.world.calls.bump p := by
  obtain ⟨rest, same, kept⟩ := handler_enters owner io p a v
  have entered : Backing.onWorld p.enter b = .ok () { b with world := endState (p.enter b.world) } := by
    unfold Backing.onWorld focus
    rw [enter_apply]
    rfl
  have settled := kept (fun w => w.calls = (endState (p.enter b.world)).calls) ⟨fun _ _ h => h, fun _ _ h => h⟩
    { b with world := endState (p.enter b.world) } rfl
  rw [same, bind_of_ok entered, settled, enter_apply]
  change World.calls (if _ then _ else _) = _
  by_cases device : p = input
  · cases awaiting : b.world.awaiting <;> simp [device]
  · simp [device]

end Peripheral

/-! ### The store that waits -/

namespace Dialogue

variable {α : Type} {d : Dialogue α} {m : Hooked World}

/-- What waits does so at its store, and it makes this store whatever the world. -/
theorem LoadsFirst.stored?_of_waits (h : d.LoadsFirst True) (attentive : m.hooks.Attentive) (w : World)
    (waited : waits (d.run m) = true) :
    ∃ width a v, d.stored? { m with backing := { m.backing with world := w } } = some (a, Width.trim width v) ∧
      waits ((Touch.store width a v).make m) = true := by
  induction h with
  | give => cases waited
  | fail own => cases waited.symm.trans (waits_of_ne own)
  | @ask t rs next read _ ih =>
    have unread : Hooked.ReadsAlike m.hooks Eq fun _ _ : World => True := fun a hook bound => by
      rw [attentive.read a] at bound
      cases bound
    have answer := Hooked.make_simulates_of_read Memory.indistinct_eq unread read m
      { m with backing := { m.backing with world := w } } ⟨rfl, rfl, rfl, trivial⟩
    have goesOn := (Hooked.quietAt_of_read attentive read m rfl).1
    have kept := Hooked.endState_make_of_read attentive.read read
    have kept' := Hooked.endState_make_of_read (m := { m with backing := { m.backing with world := w } })
      attentive.read read
    unfold run at waited
    unfold stored? accesses
    rw [List.findSome?_cons, Touch.stored?_of_read read]
    cases hm : t.make m <;> cases hn : t.make { m with backing := { m.backing with world := w } } <;>
      rw [hm, hn] at answer <;> rw [hm] at waited goesOn kept <;> rw [hn] at kept'
    case ok.ok reply m' reply' n' =>
      obtain ⟨rfl, -⟩ := answer
      cases kept
      cases kept'
      exact ih reply waited
    case error.error f m' f' n' =>
      simp only [waits_error goesOn] at waited
      cases waited
    all_goals exact answer.elim
  | @store width a v rs result after =>
    refine ⟨width, a, v, ?_, ?_⟩
    · unfold stored? accesses
      rfl
    · unfold run at waited
      cases made : (Touch.store width a v).make m with
      | ok u m' =>
        rw [made] at waited
        cases waited
      | error f m' =>
        rw [made] at waited
        cases f <;> exact waited

end Dialogue

/-! ### The step -/

namespace Bench

variable {b : Bench} {p : Peripheral}

/-- The peripheral whose hook the next step runs. -/
def called? (b : Bench) : Option Peripheral :=
  b.machine.stored?.bind fun store => Peripheral.all.find? fun p => p.address b.cpu.config.io = store.1

theorem called?_eq_some : b.called? = some p ↔ ∃ v, b.machine.stored? = some (p.address b.cpu.config.io, v) := by
  unfold called?
  constructor
  · intro called
    obtain ⟨⟨a, v⟩, stored, found⟩ := Option.bind_eq_some_iff.mp called
    have same := List.find?_some found
    exact ⟨v, of_decide_eq_true same ▸ stored⟩
  · rintro ⟨v, stored⟩
    rw [stored, Option.bind_some]
    cases found : Peripheral.all.find? fun q => decide (q.address b.cpu.config.io = p.address b.cpu.config.io) with
    | none => exact absurd (List.find?_eq_none.mp found p p.mem_all) (by simp)
    | some q =>
      have same := List.find?_some found
      rw [Peripheral.address_injective b.cpu.board.installed (of_decide_eq_true same)]

theorem calls_step (b : Bench) :
    b.machine.step.2.memory.backing.world.calls =
      match b.called? with
      | some p => if p = .input ∧ b.cpu.awaiting then b.shared.metrics.calls else b.shared.metrics.calls.bump p
      | none => b.shared.metrics.calls := by
  have unread := Op.unread b
  cases stored : b.machine.stored? with
  | none =>
    have uncalled : b.called? = none := by
      unfold called?
      rw [stored]
      rfl
    rw [Machine.step_of_unstored unread stored, uncalled]
    rfl
  | some store =>
    obtain ⟨a, v⟩ := store
    cases bound : b.machine.memory.hooks.write a with
    | none =>
      have uncalled : b.called? = none := by
        rw [Option.eq_none_iff_forall_ne_some]
        intro p called
        obtain ⟨v', same⟩ := called?_eq_some.mp called
        cases stored.symm.trans same
        exact nomatch bound.symm.trans (Peripheral.install_binds b.cpu.board.installed p)
      rw [Machine.step_of_unhooked unread stored bound, uncalled]
      rfl
    | some hook =>
      obtain ⟨p, rfl, rfl⟩ := Peripheral.install_bound b.cpu.board.installed bound
      have called : b.called? = some p := called?_eq_some.mpr ⟨v, stored⟩
      rw [(Machine.step_of_hooked unread stored bound).1, called]
      exact Peripheral.calls_handler _ _ p _ v b.machine.memory.backing

/-- What is tried again runs the hook of the input device. -/
theorem Tried.called? (tried : b.Tried) : b.called? = some .input := by
  -- The step has waited in another world, but where it stores does not depend on the world.
  obtain ⟨w, waited⟩ := tried
  have attentive := Peripheral.install_attentive b.cpu.board.installed
  rw [Machine.step_waits, Dialogue.cycle_eq_run] at waited
  obtain ⟨width, a, v, stored, waits⟩ := (Dialogue.cycle_loadsFirst _).stored?_of_waits
    (m := (b.machine.inWorld w).memory) attentive b.machine.memory.backing.world waited
  have stored : b.machine.stored? = some (a, width.trim v) := by
    unfold Machine.stored?
    rw [Machine.touches_eq]
    exact stored
  rw [Hooked.make_store] at waits
  cases bound : b.machine.memory.hooks.write a with
  | none =>
    have plain : (b.machine.inWorld w).memory.hooks.write a = none := bound
    rw [plain] at waits
    have quiet : Quiet (fun _ => false) (Bus.store width a v : Access Memory Unit) := by
      cases width with
      | byte => exact (Memory.raises_storeByte _ _).quiet
      | word => exact (Memory.raises_storeWord _ _).quiet
    exact nomatch waits.symm.trans (Hooked.quiet_direct quiet (b.machine.inWorld w).memory).1
  | some hook =>
    obtain ⟨p, rfl, rfl⟩ := Peripheral.install_bound b.cpu.board.installed bound
    have hooked : (b.machine.inWorld w).memory.hooks.write (p.address b.cpu.board.config.io) = some _ := bound
    rw [hooked] at waits
    by_cases device : p = .input
    · subst device
      exact called?_eq_some.mpr ⟨_, stored⟩
    · have quiet : Quiet Hooked.waiting (Hooked.onBacking
          (Peripheral.handler b.cpu.name b.cpu.config.io p (p.address b.cpu.config.io) (width.trim v))) :=
        quiet_focus (Peripheral.quiet_handler device _ _) fun _ _ same => same
      exact nomatch waits.symm.trans (quiet (b.machine.inWorld w).memory).1

end Bench

end Msp430
