import PortExpander.Fault

/-!
# Interrupt lines

An extender has four places for interrupt lines, numbered from zero. A chip pulls its line low when an input has changed,
and lets go of it when the inputs are read.
-/

namespace PortExpander

/-- The level of an interrupt line. A line may also fail to tell. -/
inductive Level where
  | high
  | low
  | error
  deriving DecidableEq

namespace Level

/-- The level in words. -/
def text : Level → String
  | high => "high"
  | low => "low"
  | error => "error"

/-- Whether the level is high, if the line tells. -/
def isHigh? : Level → Option Bool
  | high => some true
  | low => some false
  | error => none

/-- Whether the level is low, if the line tells. -/
def isLow? (l : Level) : Option Bool := l.isHigh?.map (!·)

/-- The level of a line that is not there: no chip pulls it low. -/
def absent : Level := high

end Level

/-- How many interrupt lines an extender has places for. -/
def maxLines : Nat := 4

/-- The interrupt lines that are present. -/
structure Lines where
  mask : Byte
  deriving DecidableEq

namespace Lines

/-- No line is present. -/
def none : Lines := ⟨0⟩

instance : Inhabited Lines := ⟨none⟩

/-- Whether a line is present. -/
def has (l : Lines) (line : Nat) : Bool := l.mask.getLsbD line

/-- The lines with one more, which needs a place. -/
def attach (l : Lines) (line : Nat) : Except Fault Lines := do
  checkIndex maxLines line
  return ⟨l.mask ||| (← Byte.bit line)⟩

/-- The lines for which `p` holds. -/
def ofPredicate (p : Nat → Bool) : Lines := ⟨Byte.ofGroups fun line => line < maxLines && p line⟩

/-- The numbers of the lines that are present, ascending. -/
def toList (l : Lines) : List Nat := l.mask.groups

end Lines

end PortExpander
