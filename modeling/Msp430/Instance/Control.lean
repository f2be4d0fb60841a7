import Msp430.Instance.Run

/-!
# Controlling an instance

Loading an image, starting over, and single steps. A failed load may leave the memory changed and
changes nothing else.
-/

namespace Msp430

inductive ControlError where
  | notReady
  | cpu (cause : Fault)
  | image (cause : Image.Error)
  | store (cause : KeyValue.Error)
deriving DecidableEq, Repr, Inhabited

def ControlError.message : ControlError → String
  | notReady => "not ready for this operation"
  | cpu cause => cause.message
  | image cause => cause.message
  | store cause => cause.message

abbrev Control (α : Type) := EStateM ControlError Bench α

namespace Bench

/-- Uses the store on behalf of an instance. -/
def submit (job : KeyValue.Job α) : Control α := fun b =>
  match job b.shared.store with
  | .ok v store => .ok v { b with shared := { b.shared with store } }
  | .error e store => .error (.store e) { b with shared := { b.shared with store } }

/-- Loads an image into the memory, past the hooks. -/
def loadBytes (image : Bytes) : Control Nat := fun b =>
  match (Image.load image : EStateM Image.Error Memory Nat) b.cpu.memory with
  | .ok n memory => .ok n { b with cpu := { b.cpu with memory } }
  | .error e memory => .error (.image e) { b with cpu := { b.cpu with memory } }

/-- Replaces the memory by the image at a key, which a reset will load from then on. -/
def loadImage (key : String) : Control Nat := do
  match ← submit (KeyValue.get key) with
  | none => throw (.store (.notFound key))
  | some image => do
    let written ← loadBytes image
    modify fun b =>
      { b with cpu := { b.cpu with image := key } }.mapMetrics (·.recordImageLoad b.cpu.name)
    return written

/-- Loads the current image again and starts over from the entry point. -/
def reset : Control Unit := do
  let _ ← loadImage (← get).cpu.image
  modify fun b =>
    let registers := Instance.entryRegisters b.cpu.config
    let b := setState { b with cpu := { b.cpu with registers, lastFault := none } } .stopped
    b.mapMetrics (·.recordReset b.cpu.name)

def liftFault (x : EStateM Fault Bench α) : Control α := fun b =>
  match x b with
  | .ok v b => .ok v b
  | .error f b => .error (.cpu f) b

/-- Executes one instruction and stops; if it fails, the run state is as before. -/
def singleStep : Control Unit := fun b =>
  match step (b.setState .stepping) with
  | .ok _ b' => .ok () (b'.setState .stopped)
  | .error f b' => .error (.cpu f) (b'.setState b.cpu.state)

def setBreakpoint (b : Bench) (a : UInt16) (kind : Breakpoint) : Bench :=
  { b with cpu := { b.cpu with breakpoints := b.cpu.breakpoints.insert a kind } }

def clearBreakpoint (b : Bench) (a : UInt16) : Bool × Bench :=
  (b.cpu.breakpoints.contains a,
    { b with cpu := { b.cpu with breakpoints := b.cpu.breakpoints.erase a } })

/-- Overwrites the registers for which there is a value. -/
def setRegisters (b : Bench) (values : Vector (Option UInt16) 16) : Bench :=
  let registers :=
    ⟨.ofFn fun i => (values[i.val]).getD (b.cpu.registers.get i)⟩
  { b with cpu := { b.cpu with registers } }

end Bench

end Msp430
