import Msp430.Config.Basic
import Msp430.Service.Basic

/-!
# Sessions

A session with the service, line by line. A line is a JSON record: an image to keep in the store, or a
request. Every request is answered by a line, and then the instances run until they are settled.
-/

namespace Msp430

/-- What a client says in one line. -/
inductive SessionLine where
  | image (key text : String)
  | request (r : HttpRequest)

namespace SessionLine

open Json (fields? required? withDefault? nullable? string?)

def image? (j : Json) : Option SessionLine := do
  match ← fields? .exact ["image", "text"] j with
  | [key, text] => return image (← required? string? key) (← required? string? text)
  | _ => none

def request? (j : Json) : Option SessionLine := do
  match ← fields? .exact ["method", "target", "body"] j with
  | [method, target, body] =>
    return request {
      method := ← required? string? method
      target := ← required? string? target
      body := ← withDefault? none (nullable? string?) body }
  | _ => none

def parse? (line : String) : Option SessionLine := do
  let j ← Json.parse? line
  (image? j).orElse fun _ => request? j

end SessionLine

namespace Response

def toJson (r : Response) : Json :=
  let body := match r.body with
    | .rejected => .null
    | .json value => value
    | .lines samples => .array (samples.map .text)
  .record [("status", .nat r.status), ("body", body)]

end Response

namespace Service

/-- The turns that an instance may take before the next line is read. -/
def patience : Nat := 1000000

/-- The service before the first line. -/
def start (config : Config) : Service := { config := config.settings }

/-- Keeps an image under a key. -/
def keepImage (s : Service) (key text : String) : Service :=
  let store := ((KeyValue.set key (Utf8.ofString text)).run s.shared.store)
  match store with
  | .ok _ store | .error _ store => { s with shared := { s.shared with store } }

/-- The answer to a line, if it has one, and the service after it. -/
def converse (line : String) (s : Service) : Option String × Service :=
  match SessionLine.parse? line with
  | some (.image key text) => (none, s.keepImage key text)
  | some (.request r) =>
    let (response, s) := s.handle r
    (response.map fun r => r.toJson.render, s.runToRest patience)
  | none => (some (Response.toJson { status := Rejection.badRequest.code, body := .rejected }).render, s)

end Service

end Msp430
