import PortExpander.Fault

/-!
# Families of port-expander chips

The chips of a family share one register map: an input, an output, a polarity and a configuration register for every bank
of eight pins, with a configuration bit of one for an input. Polarity registers act on inputs only, and a family may have
none. An extender lays its groups of eight pins over the banks of chips at consecutive addresses.
-/

namespace PortExpander

/-- The register map of a family of chips. -/
structure Family where
  name : String
  baseAddress : Byte
  pinsPerDevice : Nat
  inputReg : Byte
  outputReg : Byte
  polarityReg : Option Byte
  configReg : Byte
  deriving DecidableEq

namespace Family

/-- How many banks of eight pins one chip has. -/
def registersPerDevice (f : Family) : Nat := f.pinsPerDevice / 8

/-- Where the register of a group is, when the chips start at `address` and the register of the first bank is `reg`. The
chip's number is taken modulo 256 before it is added to the address; neither sum may leave the byte. -/
def locate (f : Family) (address : Byte) (group : Nat) (reg : Byte) : Except Fault Place :=
  if f.registersPerDevice = 0 then
    .error .divideByZero
  else do
    let address ← address.plus (BitVec.ofNat 8 (group / f.registersPerDevice))
    let register ← reg.plus (BitVec.ofNat 8 (group % f.registersPerDevice))
    return { address, register }

end Family

end PortExpander
