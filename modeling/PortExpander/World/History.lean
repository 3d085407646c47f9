import PortExpander.Extender.Log
import PortExpander.World.Script

/-!
# Histories

Everything that happens is written down. An observer of the board sees the transactions, the samples of the interrupt
line, the signals and waits of the worker, the handlers' calls, the released lines and the log. Besides, the history holds
notes, which nobody sees: where steps, operations and passes begin and end, and what is asked for and taken, each with the
extender's memory at that moment. Statements about every moment of a session are statements about its notes.
-/

namespace PortExpander

/-- One transaction: a read of a register, or a write of a byte to it. -/
inductive Access where
  | read (place : Place)
  | write (place : Place) (value : Byte)
  deriving DecidableEq

/-- Where a transaction goes. -/
def Access.place : Access → Place
  | read place => place
  | write place _ => place

/-- What is noted. `took` is the work a pass takes out of the status word, `passBegan` the work it then does; `passCut`
stands for the end of a pass that a fault has cut short. `backsOff` and `waits` precede a delay and a wait that the worker
makes of its own. -/
inductive Note where
  | stepBegan (s : Step)
  | stepEnded (s : Step) (r : Reply)
  | opBegan (o : Op)
  | opEnded (o : Op) (r : Reply)
  | requested (bits : Status)
  | took (bits : Status)
  | passBegan (pending : Status)
  | passEnded (clean : Bool)
  | passCut
  | updated (p : Pass)
  | backsOff (ms : Nat)
  | waits

/-- What happens, with the byte a transaction moved or the kind of its failure. -/
inductive Event where
  | transaction (access : Access) (outcome : Except BusKind Byte)
  | sampled (line : Nat) (level : Level)
  | notified
  | delayed (ms : Nat)
  | waited (ms : Nat)
  | started
  | released (line : Nat)
  | called (pin : Nat) (h : Handler)
  | logged (r : LogRecord)
  | noted (n : Note) (e : Extender)

/-- All events so far, the latest first. -/
abbrev History := List Event

/-- Whether an event is a note. -/
def Event.isNote : Event → Bool
  | noted .. => true
  | _ => false

/-- A transaction as a line of a trace: the direction, the place, the byte that was moved and the kind of failure. -/
def Access.line (a : Access) (outcome : Except BusKind Byte) : String :=
  let place := s!"{a.place.address.hex} {a.place.register.hex}"
  match a, outcome with
  | read _, .ok value => s!"R {place} {value.hex}"
  | read _, .error kind => s!"R {place} !{kind.text}"
  | write _ value, .ok _ => s!"W {place} {value.hex}"
  | write _ value, .error kind => s!"W {place} {value.hex} !{kind.text}"

/-- An entry of a trace: a line, or an operation that ended within another one. -/
inductive Entry where
  | line (text : String)
  | nested (name : String) (r : Reply)

/-- How a trace shows an event, with or without the log. -/
def Event.shown (withLog : Bool) : Event → Option Entry
  | transaction access outcome => some (.line (access.line outcome))
  | sampled line level => some (.line s!"L{line} {level.text}")
  | notified => some (.line "notify")
  | delayed ms => some (.line s!"delay {ms}")
  | waited ms => some (.line s!"wait {ms}")
  | started => some (.line "started")
  | released line => some (.line s!"release L{line}")
  | called _ h => some (.line s!"cb{h.callback} {h.argument}")
  | logged r => if withLog then some (.line r.line) else none
  | noted (.opEnded o r) _ => some (.nested o.name r)
  | noted .. => none

/-- The trace of a list of events, the earliest first. -/
def trace (withLog : Bool) (events : List Event) : List Entry :=
  events.filterMap (·.shown withLog)

end PortExpander
