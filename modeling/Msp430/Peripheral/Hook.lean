import Msp430.Peripheral.Basic
import Msp430.Text.Utf8

/-!
# Peripheral hooks

What a store to the address of each peripheral does.
-/

namespace Msp430.Peripheral

abbrev Handler := WriteHook World

/-- The most bytes that a log entry keeps. -/
def maxLogEntry : Nat := 100

/-- The index of the oldest log entry that is kept. -/
def lastLogIndex : Int64 := 100

/-- Puts a stamped entry at the head of the log of an instance. -/
def appendLog (owner : String) (entry : Bytes) : Access World Unit := do
  let stamp := Utf8.ofString (toString (← get).clock ++ ":")
  World.submit (KeyValue.pushBounded (debugLog.key owner) (stamp ++ entry.take maxLogEntry) lastLogIndex)

/-- Takes the bytes at a key out of the store. -/
def takeInput (key : String) : KeyValue.Job (Option Bytes) := do
  match ← KeyValue.get key with
  | none => return none
  | some raw => do
    let _ ← KeyValue.del key
    return some raw

/-- The bytes posted as input. With nothing posted the access breaks off and the device waits. -/
def awaitInput (owner : String) : Access World Bytes := do
  match ← World.submit (takeInput (input.key owner)) with
  | some raw => return raw
  | none => do
    World.setAwaiting true
    throw .awaitingInput

/-- Counts a call of the input device; an access tried again after a wait is not another call. -/
def enterInput : Access World Unit := do
  if !(← get).awaiting then World.recordCall input
  World.setAwaiting false

/-- A store of `max` delivers at most that many bytes of input to the buffer and leaves their number at
the address. -/
def onInput (owner : String) (io : IoMap) : Handler := fun a max => do
  Backing.onWorld enterInput
  let buffer ← Backing.onMemory (Bus.loadWord io.inputBuffer)
  let raw ← Backing.onWorld (awaitInput owner)
  let taken := raw.take max.toNat
  Backing.onMemory (Bus.storeBytes buffer taken)
  Backing.onMemory (Bus.storeWord a (.ofNat taken.length))

/-- The output kept when a byte is added to it. -/
def appendOutput (key : String) (b : UInt8) : KeyValue.Job Unit := do
  let kept ← KeyValue.getRange key (-399) 400
  KeyValue.set key (kept ++ [b])

def onOutput (owner : String) : Handler := fun _ v => do
  Backing.onWorld (World.recordCall output)
  Backing.onWorld (World.submit (appendOutput (output.key owner) (lowByte v)))

/-- A store of a length logs that many bytes from where the buffer word points. -/
def onDebugLog (owner : String) (io : IoMap) : Handler := fun _ length => do
  Backing.onWorld (World.recordCall debugLog)
  let buffer ← Backing.onMemory (Bus.loadWord io.debugBuffer)
  let data ← Backing.onMemory (.look (·.read buffer length))
  Backing.onWorld (appendLog owner data)

/-- A store to a device is kept in memory, written in decimal to the key of the device and logged. -/
def onDevice (owner : String) (d : Device) : Handler := fun a v => do
  Backing.onWorld (World.recordCall (device d))
  Backing.onMemory (Bus.storeWord a v)
  Backing.onWorld (World.submit (KeyValue.set ((device d).key owner) (Utf8.ofString (toString v.toNat))))
  Backing.onWorld (appendLog owner (Utf8.ofString (d.report v)))

def handler (owner : String) (io : IoMap) : Peripheral → Handler
  | input => onInput owner io
  | output => onOutput owner
  | debugLog => onDebugLog owner io
  | device d => onDevice owner d

/-- The hooks of an instance; two peripherals at one address are refused. -/
def install (owner : String) (io : IoMap) : Except Fault (Hooks World) :=
  all.foldlM (fun hooks p => hooks.bindWrite (p.address io) (handler owner io p)) .empty

end Msp430.Peripheral
