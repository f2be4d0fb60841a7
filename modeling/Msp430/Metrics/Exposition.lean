import Msp430.Metrics.Basic

/-!
# Exposition of metrics

One line a sample: the name, the labels in alphabetical order and the value. The lines are sorted.
-/

namespace Msp430.Metrics

def escapeLabel (c : Char) : List Char :=
  if c = '\\' then ['\\', '\\']
  else if c = '"' then ['\\', '"']
  else if c = '\n' then ['\\', 'n']
  else [c]

def labelText (name value : String) : String :=
  name ++ "=\"" ++ String.ofList (value.toList.flatMap escapeLabel) ++ "\""

/-- The line of a sample; the labels are given in alphabetical order. -/
def sample (name : String) (labels : List (String × String)) (value : Nat) : String :=
  let shown := if labels.isEmpty then ""
    else "\x7b" ++ ",".intercalate (labels.map fun (n, v) => labelText n v) ++ "\x7d"
  name ++ shown ++ " " ++ toString value

def registerLines (owner : String) (rs : Registers) : List String :=
  (List.finRange 16).map fun r =>
    sample "cpu_register_value" [("instance", owner), ("register", s!"r{r.val}")] (rs.get r).toNat

def flagLines (owner : String) (rs : Registers) : List String :=
  Flag.all.map fun f =>
    sample "cpu_flags" [("flag", f.label), ("instance", owner)] (rs.flag f).toNat

/-- The number of requests by method and endpoint, whatever their status. -/
def durations (m : Metrics) : List ((String × String) × Nat) :=
  let keys := (m.requests.entries.map fun (l, _) => (l.endpoint, l.method)).eraseDups
  keys.map fun k =>
    (k, Tally.total ⟨m.requests.entries.filter fun (l, _) => (l.endpoint, l.method) = k⟩)

/-- The lines in no particular order. -/
def unsorted (m : Metrics) : List String :=
  [sample "active_instances_total" [] m.instances, sample "cpu_steps_total" [] m.steps]
    ++ (m.instructions.entries.flatMap fun (op, n) =>
      [sample "cpu_instructions_total" [("instruction", op.mnemonic)] n,
        sample "instruction_duration_seconds_count" [("instruction", op.mnemonic)] n])
    ++ (m.gauges.flatMap fun (owner, rs) => registerLines owner rs ++ flagLines owner rs)
    ++ (m.faults.entries.map fun (l, n) =>
      sample "cpu_faults_total" [("instance", l.owner), ("kind", l.kind)] n)
    ++ (m.calls.entries.map fun (p, n) => sample "hook_invocations_total" [("hook", p.label)] n)
    ++ (m.imageLoads.entries.map fun (owner, n) => sample "image_loads_total" [("instance", owner)] n)
    ++ (m.resets.entries.map fun (owner, n) => sample "instance_resets_total" [("instance", owner)] n)
    ++ (m.requests.entries.map fun (l, n) =>
      sample "api_requests_total"
        [("endpoint", l.endpoint), ("method", l.method), ("status", toString l.status)] n)
    ++ (m.durations.map fun ((endpoint, method), n) =>
      sample "api_request_duration_seconds_count" [("endpoint", endpoint), ("method", method)] n)

def lines (m : Metrics) : List String := m.unsorted.mergeSort fun a b => !(b < a)

end Msp430.Metrics
