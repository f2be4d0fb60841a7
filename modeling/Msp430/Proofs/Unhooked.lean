import Msp430.Proofs.AccessTrace

/-!
# Hooks that are not hit

A run in which no hook acts goes as it does without hooks. A hook that a load meets does not act if it fails and
leaves the memory as it is, whatever it does to its world.
-/

namespace Msp430

open Access

namespace Touch

/-- Each access meets `P` in the memory that the accesses before it leave. -/
def Along {μ : Type} [Bus μ] (P : Touch → μ → Prop) : List Touch → μ → Prop
  | [], _ => True
  | t :: rest, m => P t m ∧ Along P rest (endState (t.make m))

variable {σ : Type}

/-- No hook acts on the access. -/
def Spared (t : Touch) (m : Hooked σ) : Prop :=
  match t with
  | fetch a => m.hooks.read a = none
  | load _ a =>
    ∀ hook, m.hooks.read a = some hook → ∃ f w, hook a m.backing = .error f { m.backing with world := w }
  | store _ a _ => m.hooks.write a = none

theorem spared_seen {t : Touch} {m : Hooked σ} : t.seen.Spared m ↔ t.Spared m := by cases t <;> rfl

theorem endState_make_seen {μ : Type} [Bus μ] (t : Touch) (m : μ) :
    endState (t.seen.make m) = endState (t.make m) := by
  cases t with
  | fetch a => rfl
  | load w a => rfl
  | store w a v => simp only [seen, make, store_trim]

end Touch

namespace Hooked

variable {σ α : Type}

def Over (m : Hooked σ) (bare : Memory) : Prop := m.backing.memory = bare

theorem direct_matches (x : Access Memory α) (m : Hooked σ) :
    Matches Over (direct x m) (x m.backing.memory) := by
  simp only [direct, onBacking, Backing.onMemory, focus]
  cases x m.backing.memory <;> exact ⟨rfl, rfl⟩

theorem hookedLoad_spared {w : Width} {a : UInt16} {m : Hooked σ} (h : (Touch.load w a).Spared m) :
    ∃ m', hookedLoad a m = .ok none m' ∧ m'.backing.memory = m.backing.memory := by
  unfold hookedLoad
  cases bound : m.hooks.read a with
  | none => exact ⟨m, rfl, rfl⟩
  | some hook =>
    obtain ⟨f, w, failed⟩ := h hook bound
    simp only [failed]
    exact ⟨_, rfl, rfl⟩

theorem load_matches {w : Width} {a : UInt16} {m : Hooked σ} (h : (Touch.load w a).Spared m) (value : UInt16 → α)
    (x : Access Memory α) :
    Matches Over
      ((hookedLoad a >>= fun v? => match v? with
        | some v => pure (value v)
        | none => direct x) m) (x m.backing.memory) := by
  obtain ⟨m', unanswered, same⟩ := hookedLoad_spared h
  change Matches Over (EStateM.bind _ _ m) _
  unfold EStateM.bind
  rw [unanswered, ← same]
  exact direct_matches x m'

theorem make_matches {t : Touch} {m : Hooked σ} (h : t.Spared m) :
    Matches Over (t.make m) (t.make m.backing.memory) := by
  cases t with
  | fetch a =>
    have unhooked : m.hooks.read a = none := h
    simp only [Touch.make, Bus.fetch, unhooked]
    exact direct_matches _ m
  | load w a =>
    cases w with
    | byte => exact (load_matches h lowByte (Bus.loadByte a)).map _
    | word => exact load_matches h id (Bus.loadWord a)
  | store w a v =>
    have unhooked : m.hooks.write a = none := h
    cases w <;> simp only [Touch.make, Bus.store, Bus.storeByte, Bus.storeWord, hookedStore, unhooked] <;>
      exact direct_matches _ m

end Hooked

theorem Dialogue.run_spared {σ α : Type} (d : Dialogue α) {m : Hooked σ}
    (h : Touch.Along Touch.Spared (d.accesses m) m) :
    Matches (fun x y => x.registers = y.registers ∧ Hooked.Over x.memory y.memory) (d.run m)
      (d.run m.backing.memory) := by
  induction d generalizing m with
  | give a rs => exact ⟨rfl, rfl, rfl⟩
  | fail f rs => exact ⟨rfl, rfl, rfl⟩
  | ask t rs next ih =>
    rw [accesses] at h
    obtain ⟨spared, rest⟩ := h
    have answer := Hooked.make_matches (Touch.spared_seen.mp spared)
    rw [Touch.endState_make_seen] at rest
    simp only [run]
    cases hm : t.make m <;> cases hn : t.make m.backing.memory <;> rw [hm, hn] at answer
    case ok.ok reply m' reply' n' =>
      obtain ⟨rfl, rfl⟩ := answer
      rw [hm] at rest
      exact ih reply rest
    case error.error => exact ⟨answer.1, rfl, answer.2⟩
    all_goals exact answer.elim

namespace Machine

variable {σ : Type} {m : Machine (Hooked σ)} {n : Nat}

def bare (m : Machine (Hooked σ)) : Machine Memory := ⟨m.registers, m.memory.backing.memory⟩

/-- No hook acts in the next step. -/
def Spared (m : Machine (Hooked σ)) : Prop := Touch.Along Touch.Spared m.touches m.memory

theorem step_spared (h : m.Spared) : m.step.1 = m.bare.step.1 ∧ m.step.2.bare = m.bare.step.2 := by
  have cycles : Matches (fun x y => x.registers = y.registers ∧ Hooked.Over x.memory y.memory) (cycle m)
      (cycle m.bare) := by
    rw [Dialogue.cycle_eq_run, Dialogue.cycle_eq_run]
    unfold Spared at h
    rw [touches_eq] at h
    exact Dialogue.run_spared _ h
  obtain ⟨outcome, registers, memory⟩ := step_of_matches cycles
  refine ⟨outcome, ?_⟩
  change Machine.mk m.step.2.registers m.step.2.memory.backing.memory = m.bare.step.2
  rw [registers, memory]

theorem steps_spared (h : ∀ k < n, (m.steps k).Spared) : (m.steps n).bare = m.bare.steps n := by
  induction n generalizing m with
  | zero => rfl
  | succ n ih =>
    have first : m.step.2.bare = m.bare.step.2 := (step_spared (h 0 (Nat.succ_pos n))).2
    rw [steps, steps, ← first]
    exact ih fun k hk => h (k + 1) (Nat.succ_lt_succ hk)

/-- Along a run in which no hook acts, every step ends as it does without hooks, and leaves the same registers,
bytes and console. -/
theorem unhit_hooks_invisible {b : Machine Memory} (registers : m.registers = b.registers)
    (memory : m.memory.backing.memory = b.memory) (spared : ∀ k < n, (m.steps k).Spared) :
    ∀ k < n,
      (m.steps k).step.1 = (b.steps k).step.1 ∧
      (m.steps (k + 1)).registers = (b.steps (k + 1)).registers ∧
      (∀ a, (m.steps (k + 1)).memory.backing.memory.byteAt a = (b.steps (k + 1)).memory.byteAt a) ∧
      (m.steps (k + 1)).memory.backing.memory.console = (b.steps (k + 1)).memory.console := by
  obtain rfl : m.bare = b := by
    unfold bare
    rw [registers, memory]
  intro k hk
  have before : (m.steps k).bare = m.bare.steps k := steps_spared fun j hj => spared j (Nat.lt_trans hj hk)
  have after : (m.steps (k + 1)).bare = m.bare.steps (k + 1) :=
    steps_spared fun j hj => spared j (Nat.lt_of_lt_of_le hj hk)
  have outcome := (step_spared (spared k hk)).1
  rw [before] at outcome
  rw [← after]
  exact ⟨outcome, rfl, fun _ => rfl, rfl⟩

/-- A copy of a word that a failing hook watches, to beside a word that another hook takes, and then an
instruction that fails. The hooks' world counts the calls. -/
def watched : Machine (Hooked Nat) where
  registers := Registers.zero.set .pc 0x4400
  memory :=
    { hooks :=
        { read := fun a =>
            if a = 0x3000 then some fun _ b => .error .awaitingInput { b with world := b.world + 1 } else none
          write := fun a => if a = 0x3004 then some fun _ _ b => .ok () b else none }
      backing :=
        { memory := Memory.empty.storeBytes 0x4400 [0x92, 0x42, 0x00, 0x30, 0x02, 0x30, 0x00, 0x13]
          world := 0 } }

theorem watched_touches :
    watched.touches = [.fetch 0x4400, .load .word 0x3000, .store .word 0x3002 0] ∧
    (watched.steps 1).touches = [.fetch 0x4406] := by
  decide +kernel

theorem watched_spared : ∀ k < 2, (watched.steps k).Spared := by
  intro k hk
  match k, hk with
  | 0, _ =>
    unfold Spared
    rw [steps, watched_touches.1]
    refine ⟨rfl, ⟨fun hook bound => ?_, rfl, trivial⟩⟩
    cases bound
    exact ⟨.awaitingInput, 1, rfl⟩
  | 1, _ =>
    unfold Spared
    rw [watched_touches.2]
    exact ⟨rfl, trivial⟩

/-- The hook is called in the first step, and the second step fails. -/
theorem watched_unhit :
    (watched.steps 1).memory.backing.world = 1 ∧ (watched.steps 1).step.1 = .failed (.unsupported "RETI") ∧
      ∀ k < 2,
        (watched.steps k).step.1 = (watched.bare.steps k).step.1 ∧
        (watched.steps (k + 1)).registers = (watched.bare.steps (k + 1)).registers ∧
        (∀ a, (watched.steps (k + 1)).memory.backing.memory.byteAt a =
          (watched.bare.steps (k + 1)).memory.byteAt a) ∧
        (watched.steps (k + 1)).memory.backing.memory.console =
          (watched.bare.steps (k + 1)).memory.console := by
  refine ⟨by decide +kernel, ?_, unhit_hooks_invisible rfl rfl watched_spared⟩
  rfl

end Machine

end Msp430
