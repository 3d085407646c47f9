import PortExpander.Word.Byte

/-!
# What can go wrong

Three things are kept apart. An `Error` is an answer of the extender to a call it does not carry out. A `BusError` is a
transaction that failed; it is logged and repaired by a later pass, and no call ever returns it. A `Fault` ends the step
that ran into it, wherever in the step that was, and what had been done by then stays done.
-/

namespace PortExpander

/-- Why a call was not carried out. -/
inductive Error where
  | range (index capacity : Nat)
  | alreadyClaimed (pin : Nat)
  | notClaimed (pin : Nat)
  | duplicateInterrupt (pin : Nat)
  | unknownDevice
  | unknownDriver
  | missingBus
  | registryFull
  | stopped
  deriving DecidableEq

namespace Error

/-- The name of the kind of error. -/
def name : Error → String
  | range .. => "Range"
  | alreadyClaimed _ => "AlreadyClaimed"
  | notClaimed _ => "NotClaimed"
  | duplicateInterrupt _ => "DuplicateInterrupt"
  | unknownDevice => "UnknownDevice"
  | unknownDriver => "UnknownDriver"
  | missingBus => "MissingBus"
  | registryFull => "RegistryFull"
  | stopped => "Stopped"

/-- The error in words. -/
def message : Error → String
  | range index capacity => s!"pin index {index} is out of range, the extender has {capacity} pins"
  | alreadyClaimed pin => s!"pin {pin} is already claimed"
  | notClaimed pin => s!"pin {pin} was used without being claimed"
  | duplicateInterrupt pin => s!"pin {pin} already has an interrupt handler attached"
  | unknownDevice => "unknown port-expander device family"
  | unknownDriver => "no pin extender driver is registered under that name"
  | missingBus => "pin extender works through I2C, but no I2C bus is configured"
  | registryFull => "driver registry is full"
  | stopped => "pin extender has been stopped"

/-- The name of the kind of error with what it carries. -/
def detail : Error → String
  | range index capacity => s!"Range \x7b index: {index}, capacity: {capacity} \x7d"
  | e@(alreadyClaimed pin) => s!"{e.name}({pin})"
  | e@(notClaimed pin) => s!"{e.name}({pin})"
  | e@(duplicateInterrupt pin) => s!"{e.name}({pin})"
  | e => e.name

/-- The kind under which a digital pin reports every one of these errors. -/
def pinKind (_ : Error) : String := "Other"

end Error

/-- What the bus reports about a failed transaction. -/
inductive BusKind where
  | bus
  | arbitrationLoss
  | noAcknowledgeAddress
  | noAcknowledgeData
  | noAcknowledgeUnknown
  | overrun
  | other
  deriving DecidableEq

namespace BusKind

/-- Every kind of failure. -/
def all : List BusKind :=
  [bus, arbitrationLoss, noAcknowledgeAddress, noAcknowledgeData, noAcknowledgeUnknown, overrun, other]

/-- The kind in words. -/
def text : BusKind → String
  | bus => "Bus"
  | arbitrationLoss => "ArbitrationLoss"
  | noAcknowledgeAddress => "NoAcknowledge(Address)"
  | noAcknowledgeData => "NoAcknowledge(Data)"
  | noAcknowledgeUnknown => "NoAcknowledge(Unknown)"
  | overrun => "Overrun"
  | other => "Other"

/-- The kind with a given text. -/
def ofText? (s : String) : Option BusKind := all.find? (·.text == s)

end BusKind

/-- Where a register is on the bus. -/
structure Place where
  address : Byte
  register : Byte
  deriving DecidableEq

/-- A transaction that failed, and how. -/
structure BusError where
  place : Place
  kind : BusKind
  deriving DecidableEq

/-- The failed transaction in words. -/
def BusError.message (e : BusError) : String :=
  "I2C transaction with device 0x" ++ e.place.address.hex ++ ", register 0x" ++ e.place.register.hex ++ " failed: " ++
    e.kind.text

/-- What ends a step at once. `handlerPanic` and `runAborted` come from the script that is played, `stalled` from a
worker that has made more rounds, or operations that lie deeper within one another, than is provided for; the others come
from the extender. -/
inductive Fault where
  | addOverflow
  | shiftOverflow
  | divideByZero
  | indexOutOfBounds (length index : Nat)
  | pinOutOfMap
  | portLocked
  | foreignPin
  | handlerPanic
  | runAborted
  | stalled
  deriving DecidableEq

/-- The fault in words. -/
def Fault.message : Fault → String
  | addOverflow => "attempt to add with overflow"
  | shiftOverflow => "attempt to shift left with overflow"
  | divideByZero => "attempt to divide by zero"
  | indexOutOfBounds length index => s!"index out of bounds: the len is {length} but the index is {index}"
  | pinOutOfMap => "assertion failed: index < 64"
  | portLocked => "already borrowed: BorrowMutError"
  | foreignPin => "assertion failed: core::ptr::eq(pin.driver(), driver)"
  | handlerPanic => "handler panic"
  | runAborted => "run aborted"
  | stalled => "worker stalled"

/-- The sum of two bytes, if it is a byte. -/
def Byte.plus (a b : Byte) : Except Fault Byte :=
  if a.toNat + b.toNat < 256 then .ok (a + b) else .error .addOverflow

/-- One, shifted to the left, if it stays in the byte. -/
def Byte.bit (count : Nat) : Except Fault Byte :=
  if count < 8 then .ok (BitVec.twoPow 8 count) else .error .shiftOverflow

/-- Faults if an array of some length has no element with an index. -/
def checkIndex (length index : Nat) : Except Fault Unit :=
  if index < length then .ok () else .error (.indexOutOfBounds length index)

/-- Faults if maps of pins have no bit for a pin. -/
def checkPin (pin : Nat) : Except Fault Unit :=
  if pin < 64 then .ok () else .error .pinOutOfMap

/-- A bit of a byte stays in the byte. -/
theorem Byte.bit_of_lt {count : Nat} (h : count < 8) : bit count = .ok (BitVec.twoPow 8 count) := if_pos h

/-- An index below the length is one of an element. -/
theorem checkIndex_of_lt {length index : Nat} (h : index < length) : checkIndex length index = .ok () := if_pos h

/-- A pin below 64 has its bit. -/
theorem checkPin_of_lt {pin : Nat} (h : pin < 64) : checkPin pin = .ok () := if_pos h

end PortExpander
