import PortExpander.Extender.Log
import PortExpander.World.Script

/-!
# The registry of drivers

An extender can be made by the name of its driver. A registry maps names to constructors; names are told apart without
regard to the case of ASCII letters, and keep the spelling and the place of their first registration.
-/

namespace PortExpander

/-- How many drivers a registry holds. -/
def maxDrivers : Nat := 8

/-- How an extender is to be made. `interrupt` is the line of the generic engine, `chipInterrupts` those of the queued one;
an engine drops the lines it has no use for. -/
structure Config where
  device : Option Device
  deviceId : Byte
  interrupt : Bool
  chipInterrupts : Nat → Bool

/-- What comes of making an extender. -/
inductive Creation where
  | created (e : Extender)
  | refused (e : Error)
  | faulted (f : Fault)

/-- What comes of making an extender that cannot be refused. -/
def Creation.ofExcept : Except Fault Extender → Creation
  | .ok e => .created e
  | .error f => .faulted f

/-- Makes an extender. -/
abbrev Constructor := Config → Creation

namespace Constructor

/-- Makes an extender with the generic engine for the device of the configuration. -/
def generic : Constructor := fun config =>
  match config.device with
  | none => .refused .unknownDevice
  | some device => .ofExcept (Extender.generic device.family config.deviceId config.interrupt)

/-- Makes an extender with the queued engine. -/
def queued : Constructor := fun config => .created (.queued config.chipInterrupts)

/-- Makes an extender with the generic engine for a family, whatever device is configured. -/
def ofFamily (family : Family) : Constructor := fun config =>
  .ofExcept (Extender.generic family config.deviceId config.interrupt)

/-- Makes an extender with the generic engine for chips that start at a fixed address. -/
def ofPlace (family : Family) (deviceId : Byte) : Constructor := fun config =>
  .ofExcept (Extender.generic family deviceId config.interrupt)

/-- Makes no extender, and blames the pin whose number is the configured offset. -/
def refusing : Constructor := fun config => .refused (.notClaimed config.deviceId.toNat)

end Constructor

/-- The registered drivers, in the order of their first registration. -/
structure Registry where
  drivers : List (String × Constructor)

namespace Registry

/-- No driver is registered. -/
def empty : Registry := ⟨[]⟩

/-- The drivers of the two engines. -/
def defaults : Registry := ⟨[("i2c_extender", .generic), ("tca6408", .queued)]⟩

/-- Whether two names are the same. -/
def sameName (a b : String) : Bool := foldCase a == foldCase b

/-- The names, in order. -/
def names (r : Registry) : List String := r.drivers.map (·.1)

/-- The constructor of a name. -/
def find? (r : Registry) (name : String) : Option Constructor :=
  (r.drivers.find? fun d => sameName d.1 name).map (·.2)

/-- The drivers with the constructor of the first one of a name replaced. -/
def replace (name : String) (constructor : Constructor) : List (String × Constructor) → List (String × Constructor)
  | [] => []
  | d :: ds => if sameName d.1 name then (d.1, constructor) :: ds else d :: replace name constructor ds

/-- Registers a constructor under a name, in place of one that has the name already. -/
def register (r : Registry) (name : String) (constructor : Constructor) : Except Error Registry :=
  if (r.find? name).isSome then .ok ⟨replace name constructor r.drivers⟩
  else if r.drivers.length < maxDrivers then .ok ⟨r.drivers ++ [(name, constructor)]⟩
  else .error .registryFull

/-- Makes an extender by the name of its driver, if there is a bus; a success is logged. -/
def create (r : Registry) (name : String) (bus : Bool) (config : Config) : Creation × List LogRecord :=
  match r.find? name with
  | none => (.refused .unknownDriver, [])
  | some constructor =>
    if bus then
      match constructor config with
      | .created e => (.created e, [.driverCreated e.name])
      | other => (other, [])
    else
      (.refused .missingBus, [])

/-- What is done with a registry. -/
inductive Command where
  | names
  | register (name : String) (constructor : Constructor)
  | create (name : String) (bus : Bool) (config : Config)

/-- What a command comes to. -/
inductive Answer where
  | names (names : List String)
  | registered
  | refused (e : Error)
  | creation (c : Creation)

/-- Carries out a command; gives its answer, what it logs, and the registry after it. -/
def perform (r : Registry) : Command → Answer × List LogRecord × Registry
  | .names => (.names r.names, [], r)
  | .register name constructor =>
    match r.register name constructor with
    | .ok r => (.registered, [], r)
    | .error e => (.refused e, [], r)
  | .create name bus config =>
    let (c, log) := r.create name bus config
    (.creation c, log, r)

/-- Carries out commands in order. -/
def performAll (r : Registry) : List Command → List (Answer × List LogRecord)
  | [] => []
  | c :: cs =>
    let (answer, log, r) := r.perform c
    (answer, log) :: r.performAll cs

end Registry

end PortExpander
