import PortExpander.World.Board

/-!
# Running on a board

A simulation carries the extender's memory, the board and the history. A fault ends it but keeps the state reached by
then.

Operations can fall into the middle of other ones: into a transaction, a wait, or a handler's call. What plays them is not
decided here; every effect into which operations may fall takes it as an argument, its `Nest`.
-/

namespace PortExpander

/-- The extender, the board it is on, and all that has happened. -/
structure State where
  extender : Extender
  board : Board
  history : History

/-- The state with one more note in its history. -/
def State.noting (s : State) (n : Note) : State := { s with history := .noted n s.extender :: s.history }

/-- A computation on the state that may end in a fault. -/
abbrev Sim := ExceptT Fault (StateM State)

/-- What plays the operations that fall into the middle of something. -/
abbrev Nest := List Op → Sim Unit

namespace Sim

/-- The memory of the extender. -/
def extender : Sim Extender := do return (← get).extender

/-- The board. -/
def board : Sim Board := do return (← get).board

/-- Changes the memory of the extender. -/
def modifyExtender (f : Extender → Extender) : Sim Unit := modify fun s => { s with extender := f s.extender }

/-- Changes the board. -/
def modifyBoard (f : Board → Board) : Sim Unit := modify fun s => { s with board := f s.board }

/-- Adds an event to the history. -/
def emit (e : Event) : Sim Unit := modify fun s => { s with history := e :: s.history }

/-- Adds a note to the history. -/
def note (n : Note) : Sim Unit := modify (·.noting n)

/-- Adds a record to the log. -/
def log (r : LogRecord) : Sim Unit := emit (.logged r)

/-- Goes on only if what is looked up is there. -/
def checked {α : Type} (r : Except Fault α) : Sim α := ofExcept r

/-- What comes of a computation; a fault is an outcome, too. -/
def outcome {α : Type} (m : Sim α) : Sim (Except Fault α) := fun s =>
  let (r, s) := m s
  (.ok r, s)

/-- Asks for work. -/
def request (bits : Status) : Sim Unit := do
  modifyExtender (·.request bits)
  note (.requested bits)

/-- Wakes the worker. -/
def notify : Sim Unit := emit .notified

/-- Makes a transaction: plays the operations whose moment has come, then lets the bus answer. -/
def transact (nest : Nest) (a : Access) : Sim (Except BusKind Byte) := do
  let due := (← board).dueHooks
  modifyBoard (·.passHooks)
  nest due
  let result := (← board).outcome a
  modifyBoard (·.after a)
  emit (.transaction a result)
  return result

/-- Plays what happens during a wait of the worker that is running. -/
def pause (nest : Nest) : Sim Unit := do
  match (← board).agenda with
  | none => pure ()
  | some agenda =>
    match agenda.next? with
    | none => throw .runAborted
    | some (ops, rest) =>
      modifyBoard ({ · with agenda := some rest })
      nest ops

/-- Delays for some milliseconds. -/
def delay (nest : Nest) (ms : Nat) : Sim Unit := do
  emit (.delayed ms)
  pause nest

/-- Waits for work, for some milliseconds at most. -/
def wait (nest : Nest) (ms : Nat) : Sim Unit := do
  emit (if (← board).reportsWaits then .waited ms else .delayed ms)
  pause nest

/-- Tells the platform that the worker has started. -/
def workerStarted : Sim Unit := do
  if (← board).reportsWaits then emit .started

/-- Samples an interrupt line. -/
def sample (line : Nat) : Sim Level := do
  let level := (← board).lines line
  emit (.sampled line level)
  return level

/-- Calls the handler of a pin, which plays the operations planned for its argument. -/
def callHandler (nest : Nest) (pin : Nat) (h : Handler) : Sim Unit := do
  emit (.called pin h)
  nest ((← board).scripts h.argument)

end Sim

end PortExpander
