import Msp430.Instance.Basic
import Msp430.Json.Reader
import Msp430.Json.Record
import Msp430.Net.Reader

/-!
# Configuration

The settings of the service as a JSON text. Every field has a default, and every record may be written
as an array of its first fields.
-/

namespace Msp430

structure Config where
  listen : Net.SocketAddress := .v4 ⟨#v[127, 0, 0, 1]⟩ 8080
  settings : InstanceConfig := {}
deriving DecidableEq, Repr

instance : Inhabited Config := ⟨{}⟩

open Json (fields? withDefault? natAtMost? word? string?)

/-- The largest 64-bit number. -/
def maxCount : Nat := 0xFFFFFFFFFFFFFFFF

namespace IoMap

def fieldNames : List String :=
  ["input_buffer", "input_length", "output", "lock", "alarm", "temperature", "airflow", "debug_buffer",
    "debug_length"]

def ofJson? (j : Json) : Option IoMap := do
  let d : IoMap := {}
  match ← fields? .atMost fieldNames j with
  | [inputBuffer, inputLength, output, lock, alarm, temperature, airflow, debugBuffer, debugLength] =>
    return {
      inputBuffer := ← withDefault? d.inputBuffer word? inputBuffer
      inputLength := ← withDefault? d.inputLength word? inputLength
      output := ← withDefault? d.output word? output
      lock := ← withDefault? d.lock word? lock
      alarm := ← withDefault? d.alarm word? alarm
      temperature := ← withDefault? d.temperature word? temperature
      airflow := ← withDefault? d.airflow word? airflow
      debugBuffer := ← withDefault? d.debugBuffer word? debugBuffer
      debugLength := ← withDefault? d.debugLength word? debugLength }
  | _ => none

def toJson (io : IoMap) : Json :=
  .record (fieldNames.zip
    [.word io.inputBuffer, .word io.inputLength, .word io.output, .word io.lock, .word io.alarm,
      .word io.temperature, .word io.airflow, .word io.debugBuffer, .word io.debugLength])

end IoMap

namespace InstanceConfig

def fieldNames : List String := ["boot_image", "entry_point", "input_poll_ms", "max_disassembly", "io"]

def ofJson? (j : Json) : Option InstanceConfig := do
  let d : InstanceConfig := {}
  match ← fields? .atMost fieldNames j with
  | [bootImage, entryPoint, inputPollMs, maxDisassembly, io] =>
    return {
      bootImage := ← withDefault? d.bootImage string? bootImage
      entryPoint := ← withDefault? d.entryPoint word? entryPoint
      inputPollMs := ← withDefault? d.inputPollMs (natAtMost? maxCount) inputPollMs
      maxDisassembly := ← withDefault? d.maxDisassembly (natAtMost? maxCount) maxDisassembly
      io := ← withDefault? d.io IoMap.ofJson? io }
  | _ => none

def toJson (c : InstanceConfig) : Json :=
  .record (fieldNames.zip
    [.text c.bootImage, .word c.entryPoint, .nat c.inputPollMs, .nat c.maxDisassembly, c.io.toJson])

/-- The seconds and milliseconds between two looks for input. -/
def pollInterval (c : InstanceConfig) : Nat × Nat := (c.inputPollMs / 1000, c.inputPollMs % 1000)

end InstanceConfig

namespace Config

def fieldNames : List String := ["listen", "instance"]

def ofJson? (j : Json) : Option Config := do
  let d : Config := {}
  match ← fields? .atMost fieldNames j with
  | [listen, settings] =>
    return {
      listen := ← withDefault? d.listen (fun j => string? j >>= Net.SocketAddress.parse?) listen
      settings := ← withDefault? d.settings InstanceConfig.ofJson? settings }
  | _ => none

def toJson (c : Config) : Json :=
  .record (fieldNames.zip [.text c.listen.text, c.settings.toJson])

def parse? (text : String) : Option Config := Json.parse? text >>= ofJson?

end Config

end Msp430
