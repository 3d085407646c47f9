import PortExpander.World.History

/-!
# The board

What surrounds an extender: the chips on the bus, the transactions that are going to fail, the levels of the interrupt
lines, the platform that runs the worker, and the operations that wait for their moment.
-/

namespace PortExpander

/-- What happens during the waits of the worker that is running. When the lists are used up, the worker is shut down in
the next wait, nothing happens in the one after, and the one after that aborts the run. -/
structure Agenda where
  lists : List (List Op)
  overtime : Nat

namespace Agenda

/-- An agenda none of which has happened. -/
def new (lists : List (List Op)) : Agenda := { lists, overtime := 0 }

/-- What happens in the next wait, and the agenda after it. -/
def next? (a : Agenda) : Option (List Op × Agenda) :=
  match a.lists, a.overtime with
  | ops :: lists, _ => some (ops, { a with lists })
  | [], 0 => some ([.shutdown], { a with overtime := 1 })
  | [], 1 => some ([], { a with overtime := 2 })
  | [], _ => none

end Agenda

/-- How many more rounds than one a worker is followed for, unless a board says otherwise. -/
def maxRounds : Nat := 1000000

/-- The surroundings of an extender. A chip is the content of its registers. `reportsWaits` tells whether the platform
takes note of the worker's start and waits in a way of its own, instead of merely delaying. A worker on the board is followed
for one round and `roundLimit` more. -/
structure Board where
  chips : Byte → Option (Byte → Byte)
  failNext : List (Option BusKind)
  failAddress : Byte → Option BusKind
  lines : Nat → Level
  interruptContext : Bool
  reportsWaits : Bool
  roundLimit : Nat
  hooks : List (Nat × List Op)
  scripts : Nat → List Op
  agenda : Option Agenda

namespace Board

/-- A function with one of its values replaced. -/
def override {α β : Type} [DecidableEq α] (f : α → β) (a : α) (b : β) : α → β :=
  fun x => if x = a then b else f x

/-- A board with chips at some addresses, all of whose registers hold zero, and with all lines high. -/
def withChips (addresses : List Byte) (reportsWaits : Bool) : Board where
  chips := fun a => if a ∈ addresses then some fun _ => 0 else none
  failNext := []
  failAddress := fun _ => none
  lines := fun _ => .high
  interruptContext := false
  reportsWaits := reportsWaits
  roundLimit := maxRounds
  hooks := []
  scripts := fun _ => []
  agenda := none

instance : Inhabited Board := ⟨withChips [] true⟩

variable (b : Board)

/-- The content of a register, if its chip is there. -/
def peek (place : Place) : Option Byte := (b.chips place.address).map fun regs => regs place.register

/-- The board with one register replaced; nothing happens if its chip is not there. -/
def poke (place : Place) (value : Byte) : Board :=
  match b.chips place.address with
  | none => b
  | some regs => { b with chips := override b.chips place.address (some (override regs place.register value)) }

/-- How the bus answers a transaction on a board: the next planned failure comes first, then a chip that is missing, then
the failure planned for the address. -/
def outcome (a : Access) : Except BusKind Byte :=
  match b.failNext, b.peek a.place, b.failAddress a.place.address with
  | some kind :: _, _, _ => .error kind
  | _, none, _ => .error .noAcknowledgeAddress
  | _, _, some kind => .error kind
  | _, some content, none =>
    match a with
    | .read _ => .ok content
    | .write _ value => .ok value

/-- The board after a transaction. -/
def after (a : Access) : Board :=
  let next := { b with failNext := b.failNext.tail }
  match a, b.outcome a with
  | .write place value, .ok _ => next.poke place value
  | _, _ => next

/-- The operations whose moment has come with this transaction. -/
def dueHooks : List Op := (b.hooks.filter fun h => h.1 = 0).flatMap (·.2)

/-- The board when the operations of this transaction have been taken, one transaction nearer to the others. -/
def passHooks : Board :=
  { b with hooks := (b.hooks.filter fun h => h.1 ≠ 0).map fun h => (h.1 - 1, h.2) }

/-- The board after a change. -/
def change : Change → Board
  | .interruptContext on => { b with interruptContext := on }
  | .chip address present => { b with chips := override b.chips address (if present then some fun _ => 0 else none) }
  | .poke place value => b.poke place value
  | .failNext kinds => { b with failNext := b.failNext ++ kinds }
  | .failAddress address kind => { b with failAddress := override b.failAddress address kind }
  | .line line level => { b with lines := override b.lines line level }

/-- The board with operations planned for a transaction to come. -/
def hook (count : Nat) (ops : List Op) : Board := { b with hooks := b.hooks ++ [(count, ops)] }

/-- The board with the operations of a handler's argument replaced. -/
def script (argument : Nat) (ops : List Op) : Board := { b with scripts := override b.scripts argument ops }

end Board

end PortExpander
