import PortExpander.Extender.Basic

/-!
# Scripts

What is done to an extender and to the board it is on. An `Op` can happen at any moment, also in the middle of another
one: between two transactions, in a handler, or while the worker waits. A `Step` happens on its own; taking and giving
back pins needs the extender for oneself and is a step only.
-/

namespace PortExpander

/-- A pin handle and the level it is to get. A handle is foreign if it belongs to another extender. -/
structure Target where
  pin : Nat
  high : Bool
  foreign : Bool
  deriving DecidableEq

/-- What a client or an interrupt line asks of an extender that it shares with others. The last three go through pin
handles. -/
inductive Call where
  | setup (pin : Nat) (attrs : PinAttributes)
  | write (pin : Nat) (high : Bool)
  | read (pin : Nat)
  | flush
  | attach (pin : Nat) (handler : Handler)
  | detach (pin : Nat)
  | interrupt (line : Nat)
  | set (pin : Nat) (high : Bool)
  | get (pin : Nat) (high : Bool)
  | setMany (targets : List Target)
  deriving DecidableEq

/-- A change of the board. -/
inductive Change where
  | interruptContext (on : Bool)
  | chip (address : Byte) (present : Bool)
  | poke (place : Place) (value : Byte)
  | failNext (kinds : List (Option BusKind))
  | failAddress (address : Byte) (kind : Option BusKind)
  | line (line : Nat) (level : Level)
  deriving DecidableEq

/-- What can happen at any moment. `run ticks` runs the worker; the lists are what happens during its waits, one list
each. `hook after ops` lets `ops` happen in the middle of the transaction that comes after `after` others, and
`handler argument ops` whenever a handler is called with the argument. -/
inductive Op where
  | call (c : Call)
  | update
  | shutdown
  | run (ticks : List (List Op))
  | info
  | indexOf (pin : Nat)
  | change (c : Change)
  | peek (place : Place)
  | hook (after : Nat) (ops : List Op)
  | handler (argument : Nat) (ops : List Op)
  | panic

/-- What happens on its own. -/
inductive Step where
  | claim (pin : Nat)
  | free (pin : Nat)
  | op (o : Op)

/-- How an update came out: another pass was at work, there was nothing to do, a pass was made, or the extender has
halted. -/
inductive Pass where
  | contended
  | idle
  | ran
  | stopped
  deriving DecidableEq

/-- The outcome as a word that begins with a capital. -/
def Pass.title : Pass → String
  | contended => "Contended"
  | idle => "Idle"
  | ran => "Ran"
  | stopped => "Stopped"

/-- What an extender tells about itself. `place` is its address and the name of its family; the queued engine, which has
no choice of either, does not tell. -/
structure Info where
  name : String
  errors : Nat
  claimed : Nat
  place : Option (Byte × String)
  deriving DecidableEq

/-- What an extender tells about itself. -/
def Extender.info (e : Extender) : Info where
  name := e.name
  errors := e.backoff.count
  claimed := e.claims.count
  place := match e.engine with
    | .generic _ => some (e.address, e.family.name)
    | .queued _ => none

/-- What a step comes to. -/
inductive Reply where
  | done
  | bit (value : Bool)
  | content (value : Option Byte)
  | index (pin : Nat)
  | pass (p : Pass)
  | info (i : Info)
  | returned
  | error (e : Error)
  | fault (f : Fault)
  deriving DecidableEq

/-- The word for a call. -/
def Call.name : Call → String
  | setup .. => "setup"
  | write .. => "write"
  | read _ => "read"
  | flush => "flush"
  | attach .. => "attach"
  | detach _ => "detach"
  | interrupt _ => "interrupt"
  | set .. => "pin_set"
  | get .. => "pin_get"
  | setMany _ => "multi"

/-- The word for a change. -/
def Change.name : Change → String
  | interruptContext _ => "isr"
  | chip .. => "chip"
  | poke .. => "poke"
  | failNext _ => "fail_next"
  | failAddress .. => "fail_addr"
  | line .. => "line"

/-- The word for an operation. -/
def Op.name : Op → String
  | call c => c.name
  | update => "update"
  | shutdown => "shutdown"
  | run _ => "run"
  | info => "info"
  | indexOf _ => "pin_index"
  | change c => c.name
  | peek _ => "peek"
  | hook .. => "hook"
  | handler .. => "handler"
  | panic => "panic"

mutual

/-- How deep operations lie within one another in an operation. -/
def Op.height : Op → Nat
  | .run ticks => Op.heightOfLists ticks + 1
  | .hook _ ops => Op.heightOfList ops + 1
  | .handler _ ops => Op.heightOfList ops + 1
  | _ => 1

/-- The greatest height in a list. -/
def Op.heightOfList : List Op → Nat
  | [] => 0
  | op :: ops => max op.height (Op.heightOfList ops)

/-- The greatest height in a list of lists. -/
def Op.heightOfLists : List (List Op) → Nat
  | [] => 0
  | ops :: rest => max (Op.heightOfList ops) (Op.heightOfLists rest)

end

/-- How deep operations lie within one another in a step. -/
def Step.height : Step → Nat
  | op o => o.height
  | _ => 0

end PortExpander
