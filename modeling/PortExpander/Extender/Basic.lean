import PortExpander.Chip.Device
import PortExpander.Extender.Backoff
import PortExpander.Extender.Lines
import PortExpander.Extender.Status
import PortExpander.Pins.Claims
import PortExpander.Pins.Handlers
import PortExpander.Pins.Shadow

/-!
# The memory of an extender

An extender offers the pins of a chain of chips to its clients. All it knows is in one record: who holds which pin, the
shadow of the chips' registers, the attached handlers, the status word, and what its engine keeps for itself.

There are two engines. The *generic* engine serves up to 64 pins of any family and may have one interrupt line, whose
level it samples. The *queued* engine serves four chips of one family, each with an interrupt line of its own or without;
a line's interrupt puts the chip's number into a queue, and a pass reads the chips it finds there.
-/

namespace PortExpander

/-- How many pins the generic engine serves. -/
def genericCapacity : Nat := 64

/-- How many chips the queued engine serves. -/
def queuedChips : Nat := 4

/-- How many pins the queued engine serves. -/
def queuedCapacity : Nat := 32

/-- A map has a bit for every pin that the generic engine serves. -/
theorem genericCapacity_le : genericCapacity ≤ 64 := by decide

/-- A map has a bit for every pin that the queued engine serves. -/
theorem queuedCapacity_le : queuedCapacity ≤ 64 := by decide

/-- How many chip numbers the queue holds. -/
def queueDepth : Nat := 16

/-- What the generic engine keeps: whether it was made with an interrupt line, whether the line's level is remembered as
high, and whether it reads the inputs in every pass. -/
structure Sampler where
  wired : Bool
  high : Bool
  polling : Bool
  deriving DecidableEq

/-- What the queued engine keeps: the chips that were made with an interrupt line, the chips that have interrupted, oldest
first, and the chips it reads in every pass. Only chips that it serves are in the queue. -/
structure ChipQueue where
  wired : Lines
  queue : List Nat
  polled : Byte
  served : ∀ chip ∈ queue, chip < queuedChips
  deriving DecidableEq

namespace ChipQueue

/-- No chip has interrupted, none is read in every pass. -/
def new (wired : Lines) : ChipQueue := { wired, queue := [], polled := 0, served := nofun }

/-- The interrupt of a chip is kept: the chip is served, and the queue has room for its number. -/
structure Admits (q : ChipQueue) (chip : Nat) : Prop where
  served : chip < queuedChips
  room : q.queue.length < queueDepth

instance (q : ChipQueue) (chip : Nat) : Decidable (q.Admits chip) :=
  decidable_of_decidable_of_iff
    (⟨fun h => ⟨h.1, h.2⟩, fun h => ⟨h.served, h.room⟩⟩ : chip < queuedChips ∧ q.queue.length < queueDepth ↔ q.Admits chip)

/-- One more chip has interrupted. -/
def push (q : ChipQueue) (chip : Nat) (h : chip < queuedChips) : ChipQueue where
  wired := q.wired
  queue := q.queue ++ [chip]
  polled := q.polled
  served := by simpa [or_imp, forall_and, h] using q.served

/-- All chips have been taken out of the queue. -/
def emptied (q : ChipQueue) : ChipQueue where
  wired := q.wired
  queue := []
  polled := q.polled
  served := nofun

/-- The chips that are to be read, those in the queue and those that are read in every pass, each as one bit. -/
def mask (q : ChipQueue) : Except Fault Byte :=
  q.queue.foldlM (fun mask chip => return mask ||| (← Byte.bit chip)) q.polled

/-- Every chip in the queue has a bit. -/
theorem mask_eq (q : ChipQueue) : q.mask = .ok (q.queue.foldl (fun mask chip => mask ||| BitVec.twoPow 8 chip) q.polled) := by
  obtain ⟨_, queue, polled, served⟩ := q
  unfold mask
  induction queue generalizing polled with
  | nil => rfl
  | cons chip queue ih =>
    have hchip : chip < 8 := Nat.lt_trans (served chip List.mem_cons_self) (by decide)
    rw [List.foldlM_cons, Byte.bit_of_lt hchip]
    exact ih (polled ||| BitVec.twoPow 8 chip) fun c hc => served c (List.mem_cons_of_mem chip hc)

end ChipQueue

/-- The engine of an extender. -/
inductive Engine where
  | generic (s : Sampler)
  | queued (q : ChipQueue)
  deriving DecidableEq

/-- The memory of an extender. `updating` is held by the pass that is at work, `lines` are the interrupt lines the extender
has not released. -/
structure Extender where
  family : Family
  address : Byte
  claims : Claims
  shadow : Shadow
  handlers : Handlers
  status : Status
  updating : Bool
  backoff : Backoff
  halted : Bool
  lines : Lines
  engine : Engine

namespace Extender

/-- An extender that has not been used. -/
def fresh (family : Family) (address : Byte) (capacity : Nat) (lines : Lines) (engine : Engine)
    (room : capacity ≤ 64) : Extender where
  family := family
  address := address
  claims := .new capacity room
  shadow := .empty
  handlers := .none
  status := ∅
  updating := false
  backoff := default
  halted := false
  lines := lines
  engine := engine

/-- An extender with the generic engine, its first chip `deviceId` above the family's base address. -/
def generic (family : Family) (deviceId : Byte) (wired : Bool) : Except Fault Extender := do
  let address ← family.baseAddress.plus deviceId
  return fresh family address genericCapacity (.ofPredicate fun line => wired && line == 0)
    (.generic { wired, high := wired, polling := false }) genericCapacity_le

/-- An extender with the queued engine; `wired` tells which chips have an interrupt line. -/
def queued (wired : Nat → Bool) : Extender :=
  let lines := Lines.ofPredicate wired
  let family := Device.tca6408.family
  fresh family family.baseAddress queuedCapacity lines (.queued (.new lines)) queuedCapacity_le

instance : Inhabited Extender := ⟨queued fun _ => false⟩

variable (e : Extender)

/-- The name of the engine. -/
def name : String :=
  match e.engine with
  | .generic _ => "i2c_extender"
  | .queued _ => "tca6408"

/-- How the log calls the extender. -/
def label : String :=
  match e.engine with
  | .generic _ => s!"{e.family.name}@0x{e.address.hex}"
  | .queued _ => "tca6408"

/-- Whether the extender has halted or has been asked to. -/
def isStopped : Bool := e.halted || e.status.contains Status.stop

/-- Where the register of a group is. -/
def locate (group : Nat) (reg : Byte) : Except Fault Place := e.family.locate e.address group reg

/-- Where the register of a group is, for a transaction that moves the group's byte of a map. -/
def reach (group : Nat) (reg : Byte) : Except Fault Place := do
  let place ← e.locate group reg
  checkIndex 8 group
  return place

/-- The handler in the slot of a pin. There are as many slots as pins that can be claimed. -/
def slot (pin : Nat) : Except Fault (Option Handler) := do
  checkIndex e.claims.capacity pin
  return e.handlers pin

/-- Looks up the chip of a pin among the chips with interrupt lines, where there are several. -/
def checkChip (pin : Nat) : Except Fault Unit :=
  match e.engine with
  | .generic _ => .ok ()
  | .queued _ => discard (Byte.bit (pin / 8))

/-- The extender with more work asked for. -/
def request (bits : Status) : Extender := { e with status := e.status ∪ bits }

/-- Whether some pin has a handler. -/
def hasHandler : Bool := e.handlers.anyIn 0 e.claims.capacity

/-- The chips without an interrupt line that have a pin with a handler. -/
def handledChips (wired : Lines) : Byte :=
  Byte.ofGroups fun chip => chip < queuedChips && !wired.has chip && e.handlers.anyIn (8 * chip) 8

/-- The work the engine asks for in every pass. -/
def standing : Status :=
  match e.engine with
  | .generic s => if s.polling then .readDirty else ∅
  | .queued _ => ∅

/-- Whether a pass that has taken `pending` has nothing to do. -/
def isIdleWith (pending : Status) : Bool :=
  match e.engine with
  | .generic _ => pending.isEmpty
  | .queued q => pending.isEmpty && q.polled == 0

/-- Whether reading a pin reads the chip first, because no interrupt line reports its changes. -/
def readsThrough (pin : Nat) : Bool :=
  match e.engine with
  | .generic s => !s.wired
  | .queued q => !q.wired.has (pin / 8)

end Extender

end PortExpander
