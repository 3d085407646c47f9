import PortExpander.Engine.Pass

/-!
# The worker

The worker makes passes until the extender halts. It waits when there is nothing to do, and backs off while transactions
fail. Shutting down asks it to stop and tries to halt the extender itself, a bounded number of times.
-/

namespace PortExpander

/-- How many milliseconds the worker waits for work. -/
def pollInterval : Nat := 10

/-- How often a shutdown tries to halt the extender. -/
def teardownRetries : Nat := 10

namespace Engine

open Sim

/-- Waits for work for a while. -/
def awaitWork (nest : Nest) : Sim Unit := do
  note .waits
  wait nest pollInterval

/-- Gives the bus time if transactions have failed. -/
def backOff (nest : Nest) : Sim Unit := do
  let ms := (← extender).backoff.delay
  if ms != 0 then
    note (.backsOff ms)
    delay nest ms

/-- What the worker does between two passes. -/
def rest (nest : Nest) : Sim Unit := do
  backOff nest
  if (← extender).status.isEmpty then awaitWork nest

/-- The rounds of the worker, each of them an update and a wait. -/
def rounds (nest : Nest) : Nat → Sim Unit
  | 0 => throw .stalled
  | left + 1 => do
    match ← update nest with
    | .stopped => return
    | .contended =>
      awaitWork nest
      rounds nest left
    | _ =>
      rest nest
      rounds nest left

/-- Runs the worker until the extender halts. Nothing is known about the chips when it starts, so everything is written and
read first. -/
def work (nest : Nest) : Sim Unit := do
  workerStarted
  log (← extender).greeting
  request .resync
  rounds nest ((← board).roundLimit + 1)

/-- Lets go of the interrupt lines. Like the bus they are behind a lock, which a pass holds while it is at work. -/
def releaseLines : Sim Unit := do
  let e ← extender
  if e.updating then throw .portLocked
  modifyExtender ({ · with lines := .none })
  e.lines.toList.forM fun line => emit (.released line)

/-- Tries to halt the extender some more times; tells whether it has halted. -/
def awaitHalt (nest : Nest) : Nat → Sim Bool
  | 0 => do
    log (.stopUnacknowledged (← extender).label)
    return false
  | left + 1 => do
    if (← update nest) = .stopped then
      releaseLines
      return true
    delay nest pollInterval
    awaitHalt nest left

/-- Stops the extender for good; tells whether it has halted, after which nothing goes over the bus any more. -/
def shutdown (nest : Nest) : Sim Bool := do
  request .stop
  notify
  awaitHalt nest teardownRetries

end Engine

end PortExpander
