import Msp430.Memory.Bus

/-!
# Hooked memory

A hook takes over the loads or the stores at one address. It works on the memory behind it, where no
hook is in its way, and on a world of its own. A failing read hook leaves the load to the memory; a
failing write hook makes the store fail.
-/

namespace Msp430

/-- What hooks work on. -/
structure Backing (σ : Type) where
  memory : Memory
  world : σ

namespace Backing

def onMemory (x : Access Memory α) : Access (Backing σ) α :=
  .focus Backing.memory (fun s m => { s with memory := m }) x

def onWorld (x : Access σ α) : Access (Backing σ) α :=
  .focus Backing.world (fun s w => { s with world := w }) x

end Backing

/-- A read hook is given the address, so that one hook can serve several. -/
abbrev ReadHook (σ : Type) := UInt16 → Access (Backing σ) UInt16

/-- A write hook is given the address and the value; a byte is widened to a word. -/
abbrev WriteHook (σ : Type) := UInt16 → UInt16 → Access (Backing σ) Unit

/-- The hooks by address, at most one for each direction. -/
structure Hooks (σ : Type) where
  read : UInt16 → Option (ReadHook σ)
  write : UInt16 → Option (WriteHook σ)

namespace Hooks

def empty : Hooks σ := { read := fun _ => none, write := fun _ => none }

instance : Inhabited (Hooks σ) := ⟨empty⟩

/-- Binds a read hook at an address that has none. -/
def bindRead (h : Hooks σ) (a : UInt16) (hook : ReadHook σ) : Except Fault (Hooks σ) :=
  if (h.read a).isSome then .error (.hookConflict a)
  else .ok { h with read := fun a' => if a' = a then some hook else h.read a' }

/-- Binds a write hook at an address that has none. -/
def bindWrite (h : Hooks σ) (a : UInt16) (hook : WriteHook σ) : Except Fault (Hooks σ) :=
  if (h.write a).isSome then .error (.hookConflict a)
  else .ok { h with write := fun a' => if a' = a then some hook else h.write a' }

end Hooks

structure Hooked (σ : Type) where
  hooks : Hooks σ
  backing : Backing σ

namespace Hooked

def onBacking (x : Access (Backing σ) α) : Access (Hooked σ) α :=
  .focus Hooked.backing (fun s b => { s with backing := b }) x

/-- An access past the hooks. -/
def direct (x : Access Memory α) : Access (Hooked σ) α := onBacking (Backing.onMemory x)

/-- The value of the read hook at an address, if there is one and it succeeds. -/
def hookedLoad (a : UInt16) : Access (Hooked σ) (Option UInt16) := fun m =>
  match m.hooks.read a with
  | none => .ok none m
  | some hook =>
    match hook a m.backing with
    | .ok v b => .ok (some v) { m with backing := b }
    | .error _ b => .ok none { m with backing := b }

/-- Stores through the write hook at an address, or else as given. -/
def hookedStore (a v : UInt16) (unhooked : Access Memory Unit) : Access (Hooked σ) Unit := fun m =>
  match m.hooks.write a with
  | some hook => onBacking (hook a v) m
  | none => direct unhooked m

instance : Bus (Hooked σ) where
  fetch a := fun m =>
    if (m.hooks.read a).isSome then .error (.hookedFetch a) m
    else direct (Bus.fetch a) m
  loadByte a := do
    match ← hookedLoad a with
    | some v => return lowByte v
    | none => direct (Bus.loadByte a)
  loadWord a := do
    match ← hookedLoad a with
    | some v => return v
    | none => direct (Bus.loadWord a)
  storeByte a b := hookedStore a b.toUInt16 (Bus.storeByte a b)
  storeWord a v := hookedStore a v (Bus.storeWord a v)
  clear m := { m with backing := { m.backing with memory := m.backing.memory.clear } }

end Hooked

end Msp430
