import Msp430.Memory.Hooked
import Msp430.Metrics.Tally

/-!
# Peripherals

The devices of an instance, the map of the addresses that they answer to, and the world that they act
on. Each peripheral keeps its data under a key of the instance.
-/

namespace Msp430

inductive Device where
  | lock
  | alarm
  | temperature
  | airflow
deriving DecidableEq, Repr, Inhabited

inductive Peripheral where
  | input
  | output
  | debugLog
  | device (d : Device)
deriving DecidableEq, Repr, Inhabited

def Device.label : Device → String
  | lock => "lock"
  | alarm => "alarm"
  | temperature => "temperature"
  | airflow => "airflow"

/-- The log entry for a value stored to a device. -/
def Device.report (d : Device) (v : UInt16) : String :=
  match d with
  | lock => if v = 0 then "LOCK ENGAGED" else "LOCK DISENGAGED"
  | alarm => if v = 0 then "ALARM DISARMED" else "ALARM ARMED"
  | temperature => s!"TEMPERATURE TARGET: {v.toNat}"
  | airflow => s!"AIRFLOW TARGET: {(lowByte v).toNat}"

/-- The addresses of peripherals and of the words that point to their buffers. -/
structure IoMap where
  inputBuffer : UInt16 := 0x0280
  inputLength : UInt16 := 0x0282
  output : UInt16 := 0x05CE
  lock : UInt16 := 0x0220
  alarm : UInt16 := 0x0222
  temperature : UInt16 := 0x0224
  airflow : UInt16 := 0x0226
  debugBuffer : UInt16 := 0x0260
  debugLength : UInt16 := 0x0262
deriving DecidableEq, Repr, Inhabited

def Device.address (io : IoMap) : Device → UInt16
  | lock => io.lock
  | alarm => io.alarm
  | temperature => io.temperature
  | airflow => io.airflow

namespace Peripheral

/-- The address whose stores the peripheral takes over. -/
def address (io : IoMap) : Peripheral → UInt16
  | input => io.inputLength
  | output => io.output
  | debugLog => io.debugLength
  | device d => d.address io

def label : Peripheral → String
  | input => "user_input"
  | output => "user_output"
  | debugLog => "debug_log"
  | device d => d.label

/-- The last part of the key at which the peripheral keeps its data. -/
def keyPart : Peripheral → String
  | input => "input"
  | output => "output"
  | debugLog => "debuglog"
  | device d => d.label

/-- The key at which a peripheral of an instance keeps its data. -/
def key (owner : String) (p : Peripheral) : String := owner ++ ":" ++ p.keyPart

/-- All peripherals, in the order in which they are bound. -/
def all : List Peripheral :=
  [output, input, debugLog, device .alarm, device .airflow, device .lock, device .temperature]

end Peripheral

/-- What peripherals act on: the store, a clock in seconds, the calls made so far, and whether the input
device is waiting. -/
structure World where
  store : KeyValue.Store
  clock : Nat
  calls : Tally Peripheral
  awaiting : Bool

namespace World

def submit (job : KeyValue.Job α) : Access World α := fun w =>
  match job w.store with
  | .ok v store => .ok v { w with store }
  | .error e store => .error (.collaborator e) { w with store }

def recordCall (p : Peripheral) : Access World Unit := modify fun w => { w with calls := w.calls.bump p }

def setAwaiting (on : Bool) : Access World Unit := modify ({ · with awaiting := on })

end World

end Msp430
