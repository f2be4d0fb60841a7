import Msp430.Instance.Request

/-!
# Mailboxes

An actor is an instance with a mailbox. It goes from turn to turn: a turn carries out the oldest request,
or else one instruction if the instance runs. An instruction that waits for input holds up the actor, and
every later turn tries it again.
-/

namespace Msp430

/-- A request in a mailbox, with a number by which its reply is known. -/
structure Ticket where
  number : Nat
  request : Request

structure Actor where
  bench : Bench
  /-- The requests not yet begun, the oldest first. -/
  queue : List Ticket := []
  /-- The request that has been begun and waits for input. -/
  active : Option Ticket := none

/-- A reply with the number of its request. -/
abbrev Delivery := Nat × Except ControlError Reply

namespace Actor

/-- Puts a request into the mailbox, unless it is refused at once because an instruction waits. -/
def post (a : Actor) (t : Ticket) : Actor × Option Delivery :=
  if t.request.needsReady && a.bench.cpu.awaiting then (a, some (t.number, .error .notReady))
  else ({ a with queue := a.queue ++ [t] }, none)

/-- Carries out a request, which stays active if it comes to wait for input. -/
def execute (a : Actor) (t : Ticket) : Actor × Option Delivery :=
  match t.request.serve a.bench with
  | .ok reply bench => ({ a with bench, active := none }, some (t.number, .ok reply))
  | .error (.cpu .awaitingInput) bench => ({ a with bench, active := some t }, none)
  | .error e bench => ({ a with bench, active := none }, some (t.number, .error e))

/-- One turn, and the reply that it gives. -/
def turn (a : Actor) : Actor × Option Delivery :=
  match a.active with
  | some t => a.execute t
  | none =>
    if a.bench.cpu.awaiting then ({ a with bench := a.bench.tick }, none)
    else match a.queue with
      | t :: rest => execute { a with queue := rest } t
      | [] =>
        if a.bench.cpu.state = .running then ({ a with bench := a.bench.tick }, none) else (a, none)

end Actor

end Msp430
