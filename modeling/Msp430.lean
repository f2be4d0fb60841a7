import Msp430.KeyValue.Command
import Msp430.Main
import Msp430.Proofs.Arithmetic
import Msp430.Proofs.AssemblyText
import Msp430.Proofs.BreakpointTable
import Msp430.Proofs.ByteMap
import Msp430.Proofs.CarryChain
import Msp430.Proofs.Compare
import Msp430.Proofs.ConstantGenerator
import Msp430.Proofs.Counters
import Msp430.Proofs.DeviceMirror
import Msp430.Proofs.Disassembly
import Msp430.Proofs.Encoding
import Msp430.Proofs.Enrolment
import Msp430.Proofs.FailedLoads
import Msp430.Proofs.Footprint
import Msp430.Proofs.Gauges
import Msp430.Proofs.ImageReadBack
import Msp430.Proofs.HookTable
import Msp430.Proofs.IndexWindows
import Msp430.Proofs.InputDelivery
import Msp430.Proofs.MailboxOrder
import Msp430.Proofs.Membership
import Msp430.Proofs.MisplacedWords
import Msp430.Proofs.OperandForms
import Msp430.Proofs.OutputRing
import Msp430.Proofs.Reset
import Msp430.Proofs.Rotations
import Msp430.Proofs.RunState
import Msp430.Proofs.Stack
import Msp430.Proofs.StopBreakpoint
import Msp430.Proofs.StoreDiscipline
