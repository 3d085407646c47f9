import PortExpander.Chip.Family

/-!
# The supported devices

Five families are built in and are found by name, in either case of the ASCII letters.
-/

namespace PortExpander

/-- A device whose register map is built in. -/
inductive Device where
  | pca9539
  | pca9555
  | tca6408
  | pca9554
  | pca9538
  deriving DecidableEq

/-- The text with every ASCII letter in lower case; two names that agree under it are the same name. -/
def foldCase (s : String) : String := String.ofList (s.toList.map Char.toLower)

/-- The built-in map of a chip with one bank. -/
def Family.singleBank (name : String) (baseAddress : Byte) : Family where
  name := name
  baseAddress := baseAddress
  pinsPerDevice := 8
  inputReg := 0
  outputReg := 1
  polarityReg := some 2
  configReg := 3

/-- The built-in map of a chip with two banks. -/
def Family.doubleBank (name : String) (baseAddress : Byte) : Family where
  name := name
  baseAddress := baseAddress
  pinsPerDevice := 16
  inputReg := 0
  outputReg := 2
  polarityReg := some 4
  configReg := 6

namespace Device

/-- Every device, in the order in which names are looked up. -/
def all : List Device := [pca9539, pca9555, tca6408, pca9554, pca9538]

/-- The register map of a device. -/
def family : Device → Family
  | pca9539 => .doubleBank "pca9539" 0x74
  | pca9555 => .doubleBank "pca9555" 0x20
  | tca6408 => .singleBank "tca6408" 0x20
  | pca9554 => .singleBank "pca9554" 0x20
  | pca9538 => .singleBank "pca9538" 0x70

/-- The name of a device is that of its family. -/
def name (d : Device) : String := d.family.name

/-- The name of a device as a word that begins with a capital. -/
def title : Device → String
  | pca9539 => "Pca9539"
  | pca9555 => "Pca9555"
  | tca6408 => "Tca6408"
  | pca9554 => "Pca9554"
  | pca9538 => "Pca9538"

/-- The device of a name. -/
def ofName? (s : String) : Except Error Device :=
  match all.find? fun d => foldCase d.name == foldCase s with
  | some d => .ok d
  | none => .error .unknownDevice

end Device

end PortExpander
