import Std.Data.ExtTreeMap
import Msp430.Cpu.Step
import Msp430.Image.Loader
import Msp430.Metrics.Basic
import Msp430.Peripheral.Hook

/-!
# Instances

An instance is a processor with its own memory, peripherals and breakpoints. It shares a key/value
store, a clock and the metrics with the other instances; a `Bench` is an instance together with these.
-/

namespace Msp430

inductive RunState where
  | stopped
  | running
  | fault
  | stepping
deriving DecidableEq, Repr, Inhabited

def RunState.label : RunState → String
  | stopped => "stopped"
  | running => "running"
  | fault => "fault"
  | stepping => "stepping"

/-- What happens when a running instance reaches an address: stop before the instruction, stop after it,
or only take note. -/
inductive Breakpoint where
  | stop
  | step
  | trace
deriving DecidableEq, Repr, Inhabited

def Breakpoint.label : Breakpoint → String
  | stop => "stop"
  | step => "step"
  | trace => "trace"

abbrev Breakpoints := Std.ExtTreeMap UInt16 Breakpoint

/-- The settings of every instance. -/
structure InstanceConfig where
  bootImage : String := "boot"
  entryPoint : UInt16 := 0x4400
  inputPollMs : Nat := 500
  maxDisassembly : Nat := 100
  io : IoMap := {}
deriving DecidableEq, Repr, Inhabited

/-- The fixed part of an instance: its name, its settings and the hooks that follow from them. -/
structure Board where
  name : String
  config : InstanceConfig
  hooks : Hooks World
  installed : Peripheral.install name config.io = .ok hooks

namespace Board

def build (name : String) (config : InstanceConfig) : Except Fault Board :=
  match h : Peripheral.install name config.io with
  | .ok hooks => .ok { name, config, hooks, installed := h }
  | .error f => .error f

end Board

structure Instance where
  board : Board
  registers : Registers
  memory : Memory
  state : RunState
  /-- The key of the image that a reset loads. -/
  image : String
  breakpoints : Breakpoints
  lastFault : Option Fault
  /-- Whether an instruction is waiting for input. -/
  awaiting : Bool

namespace Instance

def name (i : Instance) : String := i.board.name

def config (i : Instance) : InstanceConfig := i.board.config

/-- The registers at the start of a program. -/
def entryRegisters (config : InstanceConfig) : Registers := Registers.zero.set .pc config.entryPoint

/-- A new instance is stopped at its entry point with empty memory. -/
def ofBoard (board : Board) : Instance where
  board
  registers := entryRegisters board.config
  memory := .empty
  state := .stopped
  image := board.config.bootImage
  breakpoints := ∅
  lastFault := none
  awaiting := false

def build (name : String) (config : InstanceConfig) : Except Fault Instance :=
  (Board.build name config).map ofBoard

theorem exists_board {name : String} {config : InstanceConfig} {i : Instance} (built : build name config = .ok i) :
    ∃ board : Board, board.name = name ∧ board.config = config ∧ i = ofBoard board := by
  unfold build Board.build at built
  split at built <;> cases built
  exact ⟨_, rfl, rfl, rfl⟩

end Instance

/-- What all instances share. -/
structure Shared where
  store : KeyValue.Store := ∅
  clock : Nat := 0
  metrics : Metrics := {}

instance : Inhabited Shared := ⟨{}⟩

structure Bench where
  cpu : Instance
  shared : Shared

namespace Bench

/-- The machine that an instance is, with the shared parts as the world of its peripherals. -/
def machine (b : Bench) : Machine (Hooked World) where
  registers := b.cpu.registers
  memory :=
    { hooks := b.cpu.board.hooks
      backing :=
        { memory := b.cpu.memory
          world :=
            { store := b.shared.store
              clock := b.shared.clock
              calls := b.shared.metrics.calls
              awaiting := b.cpu.awaiting } } }

/-- Takes over the world from a machine. -/
def withWorld (b : Bench) (w : World) : Bench :=
  { cpu := { b.cpu with awaiting := w.awaiting }
    shared :=
      { b.shared with
        store := w.store
        metrics := { b.shared.metrics with calls := w.calls } } }

/-- Takes over registers, memory and world from a machine. -/
def withMachine (b : Bench) (m : Machine (Hooked World)) : Bench :=
  let b := b.withWorld m.memory.backing.world
  { b with cpu := { b.cpu with registers := m.registers, memory := m.memory.backing.memory } }

def mapMetrics (b : Bench) (f : Metrics → Metrics) : Bench :=
  { b with shared := { b.shared with metrics := f b.shared.metrics } }

/-- Changes the run state; a change shows the registers in the metrics. -/
def setState (b : Bench) (s : RunState) : Bench :=
  if b.cpu.state = s then b
  else
    let b := { b with cpu := { b.cpu with state := s } }
    b.mapMetrics (·.publish b.cpu.name b.cpu.registers)

end Bench

end Msp430
