import PortExpander.Extender.Basic

/-!
# Log records

What an extender reports about itself while it works. Every record has a level and a text; the texts name the extender by
its `label`.
-/

namespace PortExpander

/-- A record of the log. -/
inductive LogRecord where
  | transactionFailed (error : BusError) (count : Nat)
  | stopUnacknowledged (label : String)
  | startedTwice
  | workerStarted (label : String)
  | workerStartedWithLines (label : String) (lines : Byte)
  | halting (label : String)
  | inputPolling (label : String) (enabled : Bool)
  | pollingChips (label : String) (chips : Byte)
  | driverCreated (name : String)
  | passStarted (family : String) (pending : Status)
  | edge (pin : Nat)
  deriving DecidableEq

namespace LogRecord

/-- How urgent a record is. -/
def level : LogRecord → String
  | transactionFailed .. | stopUnacknowledged _ | startedTwice => "WARN"
  | workerStarted _ | workerStartedWithLines .. | halting _ => "INFO"
  | inputPolling .. | pollingChips .. | driverCreated _ => "DEBUG"
  | passStarted .. | edge _ => "TRACE"

/-- The record in words. -/
def text : LogRecord → String
  | transactionFailed error count => s!"{error.message} (consecutive errors: {count})"
  | stopUnacknowledged label => s!"{label}: worker did not acknowledge stop"
  | startedTwice => "worker started twice on the same platform"
  | workerStarted label => s!"{label}: worker started"
  | workerStartedWithLines label lines => s!"{label}: worker started, lines 0b{lines.nibble}"
  | halting label => s!"{label}: stop requested, worker halting"
  | inputPolling label true => s!"{label}: input polling enabled"
  | inputPolling label false => s!"{label}: input polling disabled"
  | pollingChips label chips => s!"{label}: polling chips 0b{chips.nibble}"
  | driverCreated name => s!"created extender driver {name}"
  | passStarted family pending => s!"{family}: update pass {Status.vocabulary.text pending}"
  | edge pin => s!"pin {pin} edge, dispatching handler"

/-- The record as a line of the log. -/
def line (r : LogRecord) : String := s!"{r.level} {r.text}"

end LogRecord

/-- What the worker of an extender logs when it starts. -/
def Extender.greeting (e : Extender) : LogRecord :=
  match e.engine with
  | .generic _ => .workerStarted e.label
  | .queued q => .workerStartedWithLines e.label q.wired.mask

end PortExpander
