import Msp430.Cpu.Registers
import Msp430.Metrics.Tally
import Msp430.Peripheral.Basic

/-!
# Metrics

Counters of what happened, and gauges that show the registers an instance had when its run state last
changed.
-/

namespace Msp430

/-- What is counted about a request: its method, the route that took it and the status of the answer. -/
structure RequestLabel where
  method : String
  endpoint : String
  status : Nat
deriving DecidableEq, Repr, Inhabited

/-- A fault of a running instance. -/
structure FaultLabel where
  owner : String
  kind : String
deriving DecidableEq, Repr, Inhabited

structure Metrics where
  instances : Nat := 0
  steps : Nat := 0
  instructions : Tally Operation := {}
  faults : Tally FaultLabel := {}
  calls : Tally Peripheral := {}
  imageLoads : Tally String := {}
  resets : Tally String := {}
  requests : Tally RequestLabel := {}
  gauges : List (String × Registers) := []

namespace Metrics

instance : Inhabited Metrics := ⟨{}⟩

def setGaugeIn (owner : String) (rs : Registers) : List (String × Registers) → List (String × Registers)
  | [] => [(owner, rs)]
  | (name, old) :: rest =>
    if name = owner then (name, rs) :: rest else (name, old) :: setGaugeIn owner rs rest

/-- Shows the registers of an instance. -/
def publish (m : Metrics) (owner : String) (rs : Registers) : Metrics :=
  { m with gauges := setGaugeIn owner rs m.gauges }

/-- The registers last shown for an instance. -/
def gauge? (m : Metrics) (owner : String) : Option Registers := m.gauges.lookup owner

def recordStep (m : Metrics) : Metrics := { m with steps := m.steps + 1 }

def recordInstruction (m : Metrics) (op : Operation) : Metrics :=
  { m with instructions := m.instructions.bump op }

def recordFault (m : Metrics) (owner kind : String) : Metrics :=
  { m with faults := m.faults.bump { owner, kind } }

def recordImageLoad (m : Metrics) (owner : String) : Metrics :=
  { m with imageLoads := m.imageLoads.bump owner }

def recordReset (m : Metrics) (owner : String) : Metrics := { m with resets := m.resets.bump owner }

def recordRequest (m : Metrics) (label : RequestLabel) : Metrics :=
  { m with requests := m.requests.bump label }

end Metrics

end Msp430
