import PortExpander.Pins.Attributes
import PortExpander.Word.PinMap

/-!
# Shadow registers

What the chips' registers are meant to hold, kept in memory, together with the inputs as they were last read. Clients
change the shadow; a pass carries it to the chips and the inputs back. Output levels that a client has written are
`staged` until the client commits them, and `dirty` from then until a pass writes them.
-/

namespace PortExpander

/-- The memory behind the registers of all pins. `staged` and `dirty` are masks of groups. -/
structure Shadow where
  direction : PinMap
  invert : PinMap
  output : PinMap
  input : PinMap
  staged : Byte
  dirty : Byte
  deriving DecidableEq

namespace Shadow

/-- All pins are outputs at low level, nothing is to be written. -/
def empty : Shadow :=
  { direction := .empty, invert := .empty, output := .empty, input := .empty, staged := 0, dirty := 0 }

instance : Inhabited Shadow := ⟨empty⟩

/-- Gives a pin the direction, the level and the polarity its attributes ask for. An input's pull goes into its output
bit. -/
def setup (s : Shadow) (pin : Nat) (attrs : PinAttributes) : Shadow :=
  let s :=
    if attrs.contains PinAttributes.input then
      let s := { s with direction := s.direction.set pin true }
      if attrs.contains PinAttributes.pullUp then { s with output := s.output.set pin true }
      else if attrs.contains PinAttributes.pullDown then { s with output := s.output.set pin false }
      else s
    else if attrs.contains PinAttributes.output then
      { s with direction := s.direction.set pin false, output := s.output.set pin (attrs.contains PinAttributes.initialOn) }
    else s
  { s with invert := s.invert.set pin (attrs.contains PinAttributes.activeLow) }

/-- Gives an output a level, and stages its group if that is a change. -/
def write (s : Shadow) (pin : Nat) (high : Bool) : Shadow :=
  let (changed, output) := s.output.assign pin high
  { s with output, staged := if changed then s.staged ||| BitVec.twoPow 8 (pin / 8) else s.staged }

/-- What is staged becomes dirty. -/
def commit (s : Shadow) : Shadow := { s with staged := 0, dirty := s.dirty ||| s.staged }

/-- Every group becomes dirty. -/
def markAllDirty (s : Shadow) : Shadow := { s with dirty := 255 }

/-- Groups become dirty. -/
def markDirty (s : Shadow) (groups : Byte) : Shadow := { s with dirty := s.dirty ||| groups }

/-- No group is dirty. -/
def clearDirty (s : Shadow) : Shadow := { s with dirty := 0 }

/-- What a group's output register is to hold. Polarity registers do not act on outputs, so the outputs that are active
low are inverted here. -/
def outputByte (s : Shadow) (group : Nat) : Byte :=
  s.output.byte group ^^^ (s.invert.byte group &&& ~~~s.direction.byte group)

/-- Keeps what was read from a group's inputs. -/
def setInput (s : Shadow) (group : Nat) (value : Byte) : Shadow := { s with input := s.input.setByte group value }

end Shadow

end PortExpander
