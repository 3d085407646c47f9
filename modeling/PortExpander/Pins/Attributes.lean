import PortExpander.Word.FlagSet

/-!
# Attributes of pins

How a client wants a pin to be set up.
-/

namespace PortExpander

/-- The attributes of a pin. -/
abbrev PinAttributes := FlagSet 16

namespace PinAttributes

/-- The pin is an input. -/
def input : PinAttributes := .flag 0

/-- The pin is an output, unless it is an input. -/
def output : PinAttributes := .flag 1

/-- An input is pulled up. -/
def pullUp : PinAttributes := .flag 2

/-- An input is pulled down, unless it is pulled up. -/
def pullDown : PinAttributes := .flag 3

/-- The pin is on when its level is low. -/
def activeLow : PinAttributes := .flag 4

/-- An output starts on. -/
def initialOn : PinAttributes := .flag 5

/-- The pin is meant to interrupt. -/
def interrupt : PinAttributes := .flag 6

/-- The names of the attributes. -/
def vocabulary : Vocabulary 16 where
  title := "PinAttributes"
  flags := [("INPUT", input), ("OUTPUT", output), ("PULL_UP", pullUp), ("PULL_DOWN", pullDown),
    ("ACTIVE_LOW", activeLow), ("INITIAL_ON", initialOn), ("INTERRUPT", interrupt)]

end PinAttributes

end PortExpander
