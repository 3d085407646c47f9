import PortExpander.Fault

/-!
# Edge handlers

A client may attach one handler to each pin; it is called with its argument when the pin's input changes in the direction
it waits for.
-/

namespace PortExpander

/-- The direction of change a handler waits for. -/
inductive Edge where
  | rising
  | falling
  | change
  deriving DecidableEq

/-- Whether an input that was at one level and now is at another has changed in a direction. -/
def Edge.matches : Edge → Bool → Bool → Bool
  | rising, was, now => !was && now
  | falling, was, now => was && !now
  | change, was, now => (!was && now) || (was && !now)

/-- No handler waits for an input that stays as it was. -/
theorem Edge.matches_self (edge : Edge) (level : Bool) : edge.matches level level = false := by
  cases edge <;> cases level <;> rfl

/-- What is called, and when. -/
structure Handler where
  callback : Nat
  argument : Nat
  edge : Edge
  deriving DecidableEq

/-- The handler of each pin. The table has a slot for each pin of its extender and no others; who goes to a slot looks first
whether it is there. -/
abbrev Handlers := Nat → Option Handler

namespace Handlers

/-- No pin has a handler. -/
def none : Handlers := fun _ => .none

/-- The table with the slot of one pin replaced. -/
def set (h : Handlers) (pin : Nat) (slot : Option Handler) : Handlers :=
  fun i => if i = pin then slot else h i

/-- Attaches a handler to a pin that has none. -/
def install (h : Handlers) (pin : Nat) (handler : Handler) : Except Error Handlers :=
  if (h pin).isSome then .error (.duplicateInterrupt pin) else .ok (h.set pin (some handler))

/-- Takes away the handler of a pin, if it has one. -/
def remove (h : Handlers) (pin : Nat) : Handlers := h.set pin .none

/-- Whether some pin from `first` on, of `count` pins, has a handler. -/
def anyIn (h : Handlers) (first count : Nat) : Bool :=
  (List.range' first count).any fun pin => (h pin).isSome

end Handlers

end PortExpander
