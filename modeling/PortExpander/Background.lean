import PortExpander.Engine.Client
import PortExpander.Engine.Worker

/-!
# Workers in the background

On a host with threads the worker runs in a thread of its own, and the platform wakes it. What clients see then depends on
the worker only where they wait for it: at such a place the worker has made its passes.
-/

namespace PortExpander

/-- The name of the thread a worker runs in. -/
def workerName : String := "i2c_handler"

/-- The size of the stack of that thread. -/
def workerStack : Nat := 65536

/-- The platform of a host with threads: whether a worker has told it that it has started. -/
structure Host where
  started : Bool
  deriving DecidableEq

namespace Host

/-- What is asked of the platform. -/
inductive Request where
  | interruptContext
  | delay
  | notify
  | workerStarted
  | wait
  deriving DecidableEq

/-- What the platform answers and logs, and the platform after it. There is no interrupt context on a host; only the first
worker that starts can be woken, and a second one is reported. -/
def perform (h : Host) : Request → Option Bool × List LogRecord × Host
  | .interruptContext => (some false, [], h)
  | .workerStarted => (none, if h.started then [.startedTwice] else [], { started := true })
  | _ => (none, [], h)

/-- The answers to requests in order, with what each one logs. -/
def performAll (h : Host) : List Request → List (Option Bool × List LogRecord)
  | [] => []
  | r :: rs =>
    let (answer, log, h) := h.perform r
    (answer, log) :: h.performAll rs

end Host

namespace Background

open Sim

/-- What clients do while the worker runs. `settle` waits until the worker has done all that was asked for. -/
inductive Act where
  | settle
  | write (pin : Nat) (high : Bool)
  | flush
  | read (pin : Nat)
  | attach (pin : Nat) (handler : Handler)
  | poke (place : Place) (value : Byte)
  deriving DecidableEq

/-- Nothing falls into the middle of anything. -/
def quiet : Nest := fun _ => return

/-- The worker's passes until nothing is asked for, and one more. -/
def settle : Nat → Sim Unit
  | 0 => throw .stalled
  | left + 1 => do
    if (← Engine.update quiet) = .stopped then return
    if (← extender).status.isEmpty then
      let _ ← Engine.update quiet
    else
      settle left

/-- The answer to an attempt that gives no value. -/
def done (m : Attempt Unit) : Sim Reply := do
  match ← m.run with
  | .ok () => return .done
  | .error e => return .error e

/-- The answer to an attempt to read a pin. -/
def reading (pin : Nat) : Sim Reply := do
  match ← (Client.read quiet pin).run with
  | .ok value => return .bit value
  | .error e => return .error e

/-- Does what a client does. -/
def act : Act → Sim Reply
  | .settle => do
    settle (← board).roundLimit
    return .done
  | .write pin high => done (Client.write pin high)
  | .flush => done (Client.flush quiet)
  | .read pin => reading pin
  | .attach pin handler => done (Client.attach pin handler)
  | .poke place value => do
    modifyBoard (·.poke place value)
    return .done

/-- What is seen of an extender whose worker runs in the background until it is shut down. -/
structure Outcome where
  replies : List Reply
  stopped : Bool
  after : Reply

/-- Takes and sets up pins, may shut the extender down at once, starts the worker, lets clients act, and shuts down. -/
def play (pins : List (Nat × PinAttributes)) (stopFirst : Bool) (acts : List Act) : Sim Outcome := do
  pins.forM fun (pin, attrs) => do
    let _ ← done (Client.claim pin)
    let _ ← done (Client.setup pin attrs)
  if stopFirst then
    let _ ← Engine.shutdown quiet
  request .resync
  let replies ← acts.mapM act
  let stopped ← Engine.shutdown quiet
  let after ← reading 0
  return { replies, stopped, after }

/-- The arguments of the handlers that were called, the earliest first. -/
def fired (h : History) : List Nat :=
  h.reverse.filterMap fun
    | .called _ h => some h.argument
    | _ => none

end Background

end PortExpander
