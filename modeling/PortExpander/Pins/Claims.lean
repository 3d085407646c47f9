import PortExpander.Fault
import PortExpander.Word.PinMap

/-!
# Claimed pins

A pin is used by one client at a time. Only groups with a claimed pin are ever written to or read from.
-/

namespace PortExpander

/-- Which of the first `capacity` pins are claimed. A map has a bit for each of them. -/
structure Claims where
  capacity : Nat
  claimed : PinMap
  room : capacity ≤ 64
  deriving DecidableEq

namespace Claims

/-- No pin is claimed. -/
def new (capacity : Nat) (room : capacity ≤ 64) : Claims := { capacity, claimed := .empty, room }

/-- Fails for a pin the extender does not have. -/
def checkRange (c : Claims) (pin : Nat) : Except Error Unit :=
  if pin < c.capacity then .ok () else .error (.range pin c.capacity)

/-- Whether a pin is claimed. -/
def isClaimed (c : Claims) (pin : Nat) : Bool := pin < c.capacity && c.claimed.get pin

/-- Fails for a pin that is not claimed. -/
def checkClaimed (c : Claims) (pin : Nat) : Except Error Unit := do
  c.checkRange pin
  if c.isClaimed pin then .ok () else .error (.notClaimed pin)

/-- Claims a pin that nobody holds. -/
def claim (c : Claims) (pin : Nat) : Except Error Claims := do
  c.checkRange pin
  if c.isClaimed pin then .error (.alreadyClaimed pin) else .ok { c with claimed := c.claimed.set pin true }

/-- Gives a pin back; nothing happens if it is not claimed. -/
def free (c : Claims) (pin : Nat) : Claims :=
  if pin < c.capacity then { c with claimed := c.claimed.set pin false } else c

/-- The groups with a claimed pin. -/
def groups (c : Claims) : Byte := c.claimed.groups

/-- How many pins are claimed. -/
def count (c : Claims) : Nat := c.claimed.count

end Claims

end PortExpander
