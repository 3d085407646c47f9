import PortExpander.World.Sim

/-!
# Passes

A pass carries the shadow registers to the chips and reads the inputs back. It does what the status word and the engine
ask for: it writes the configuration, then the outputs, then reads the inputs, each group by group in ascending order, and
last calls the handlers of the inputs that have changed. A failed transaction does not stop it; when one has failed,
everything is asked for again.

At most one pass is at work at a time. An update that finds another one at work does nothing.
-/

namespace PortExpander

namespace Engine

open Sim

/-- Counts a transaction that has failed. -/
def record (a : Access) : Except BusKind Byte → Sim Unit
  | .ok _ => return
  | .error kind => do
    let (count, backoff) := (← extender).backoff.fail
    modifyExtender ({ · with backoff })
    log (.transactionFailed { place := a.place, kind } count.toNat)

/-- Makes a transaction and counts it if it fails. -/
def transfer (nest : Nest) (a : Access) : Sim (Except BusKind Byte) := do
  let result ← transact nest a
  record a result
  return result

/-- Whether a transaction succeeded. -/
def succeeded (result : Except BusKind Byte) : Bool := result.toBool

/-- Writes the register `reg` of each of some groups; tells whether every write succeeded. The byte to write is taken from
the memory as it is when the group's turn comes. -/
def writeGroups (nest : Nest) (reg : Byte) (value : Shadow → Nat → Byte) : List Nat → Sim Bool
  | [] => return true
  | group :: groups => do
    let e ← extender
    let place ← checked (e.reach group reg)
    let first := succeeded (← transfer nest (.write place (value e.shadow group)))
    let rest ← writeGroups nest reg value groups
    return first && rest

/-- Writes the polarities of some groups, if the chips have a register for them. -/
def writePolarities (nest : Nest) (family : Family) (groups : List Nat) : Sim Bool :=
  match family.polarityReg with
  | some reg => writeGroups nest reg (·.invert.byte ·) groups
  | none => return true

/-- Writes the polarities and directions of all claimed groups, whose outputs then have to be written, too. -/
def syncConfig (nest : Nest) : Sim Bool := do
  let e ← extender
  let claimed := e.claims.groups
  let inverted ← writePolarities nest e.family claimed.groups
  let directed ← writeGroups nest e.family.configReg (·.direction.byte ·) claimed.groups
  modifyExtender fun e => { e with shadow := e.shadow.markDirty claimed }
  return inverted && directed

/-- Writes the outputs of all dirty groups that are claimed; no group is dirty any more. -/
def syncWrites (nest : Nest) : Sim Bool := do
  let e ← extender
  modifyExtender fun e => { e with shadow := e.shadow.clearDirty }
  writeGroups nest e.family.outputReg (·.outputByte ·) (e.shadow.dirty &&& e.claims.groups).groups

/-- What a read of a group has changed: the inputs before and after it. -/
structure Refresh where
  group : Nat
  was : Byte
  now : Byte
  deriving DecidableEq

/-- The inputs of a group after a read that found the inputs `was` in the memory. A group that cannot be read keeps them.
Chips without a polarity register leave the inversion to the reader. -/
def inputAfter (e : Extender) (group : Nat) (was : Byte) : Except BusKind Byte → Byte
  | .ok content => if e.family.polarityReg.isNone then content ^^^ e.shadow.invert.byte group else content
  | .error _ => was

/-- Reads the inputs of each of some groups into the memory; gives what each read has changed, and whether every read
succeeded. -/
def readGroups (nest : Nest) : List Nat → Sim (List Refresh × Bool)
  | [] => return ([], true)
  | group :: groups => do
    let e ← extender
    let place ← checked (e.reach group e.family.inputReg)
    let was := e.shadow.input.byte group
    let result ← transfer nest (.read place)
    let now := inputAfter (← extender) group was result
    modifyExtender fun e => { e with shadow := e.shadow.setInput group now }
    let (refreshes, rest) ← readGroups nest groups
    return ({ group, was, now } :: refreshes, succeeded result && rest)

/-- Calls the handler of a pin if its input has changed the way the handler waits for. A pin without a slot is passed
over. -/
def dispatchPin (nest : Nest) (pin : Nat) (was now : Bool) : Sim Unit := do
  let e ← extender
  if was != now && pin < e.claims.capacity then
    if let some h := (← checked (e.slot pin)) then
      if h.edge.matches was now then
        log (.edge pin)
        callHandler nest pin h

/-- Calls the handlers of some pins of one group. -/
def dispatchPins (nest : Nest) (r : Refresh) : List Nat → Sim Unit
  | [] => return
  | bit :: bits => do
    let mask ← checked (Byte.bit bit)
    dispatchPin nest (8 * r.group + bit) (r.was &&& mask != 0) (r.now &&& mask != 0)
    dispatchPins nest r bits

/-- Calls the handlers of all pins that were read, in ascending order. -/
def dispatch (nest : Nest) : List Refresh → Sim Unit
  | [] => return
  | r :: rs => do
    dispatchPins nest r (List.range 8)
    dispatch nest rs

/-- Reads the inputs of the claimed ones of some groups, and calls the handlers once all have been read. -/
def syncReads (nest : Nest) (groups : Byte) : Sim Bool := do
  let e ← extender
  let (refreshes, ok) ← readGroups nest (groups &&& e.claims.groups).groups
  dispatch nest refreshes
  return ok

/-- Reading the inputs lets the interrupt line go back to high. -/
def rearm : Sim Unit := modifyExtender fun e =>
  match e.engine with
  | .generic s => { e with engine := .generic { s with high := true } }
  | .queued _ => e

/-- Reads the inputs of some groups, after which the next interrupt is seen again. -/
def readInputs (nest : Nest) (groups : Byte) : Sim Bool := do
  let ok ← syncReads nest groups
  rearm
  return ok

/-- What a pass does: whether it writes the configuration, whether it writes outputs, and which groups it reads. -/
structure Plan where
  configure : Bool
  write : Bool
  groups : Byte
  deriving DecidableEq

/-- The plan for some requests and for groups that are to be read in any case. Whatever is configured is written and read
again. -/
def Plan.ofRequests (pending : Status) (groups : Byte) : Plan where
  configure := pending.contains Status.configDirty
  write := pending.contains Status.configDirty || pending.contains Status.writeDirty
  groups := if pending.contains Status.configDirty || pending.contains Status.readDirty then 255 else groups

/-- Looks at the interrupt line of the generic engine; tells whether it has fallen since it was last seen, which means that
the inputs have changed. A line that does not tell is taken to be as it was. -/
def sampleLine (s : Sampler) : Sim Bool := do
  let now := (← sample 0).isHigh?.getD s.high
  modifyExtender ({ · with engine := .generic { s with high := now } })
  return s.high && !now

/-- Makes the plan of a pass. The generic engine looks at its interrupt line if it has been told of an interrupt, the queued
engine empties its queue. -/
def gather (pending : Status) : Sim Plan := do
  let e ← extender
  match e.engine with
  | .generic s =>
    if pending.contains Status.isrPending && e.lines.has 0 then
      let fallen ← sampleLine s
      return .ofRequests (if fallen then pending ∪ Status.readDirty else pending) 0
    else
      return .ofRequests pending 0
  | .queued q =>
    let mask ← checked q.mask
    modifyExtender ({ · with engine := .queued q.emptied })
    return .ofRequests pending mask

/-- Makes a part of a pass if the plan asks for it. A part that is not made does not fail. -/
def ifAsked (asked : Bool) (part : Sim Bool) : Sim Bool := if asked then part else return true

/-- Ends a pass: forgets the failures if every transaction has succeeded, and asks for everything again if not. -/
def complete (clean : Bool) : Sim Unit := do
  if clean then
    modifyExtender fun e => { e with backoff := e.backoff.recordSuccess }
  else
    modifyExtender fun e => { e with shadow := e.shadow.markAllDirty }
    request .resync
  note (.passEnded clean)

/-- Does the work of a pass. -/
def service (nest : Nest) (pending : Status) : Sim Unit := do
  note (.passBegan pending)
  let plan ← gather pending
  let configured ← ifAsked plan.configure (syncConfig nest)
  let written ← ifAsked plan.write (syncWrites nest)
  let read ← ifAsked (plan.groups != 0) (readInputs nest plan.groups)
  complete (configured && written && read)

/-- Takes all work out of the status word and leaves `busy` in it. -/
def take : Sim Status := do
  let bits := (← extender).status.pending
  modifyExtender ({ · with status := .busy })
  note (.took bits)
  return bits

/-- Takes `busy` out of the status word. -/
def release : Sim Unit := modifyExtender fun e => { e with status := e.status.release }

/-- Halts the extender; nothing is asked for any more. -/
def halt : Sim Unit := do
  modifyExtender ({ · with status := ∅, halted := true })
  log (.halting (← extender).label)

/-- One pass, or the reason why there is none, when no other pass is at work. -/
def attempt (nest : Nest) : Sim Pass := do
  if (← extender).halted then
    return .stopped
  let taken ← take
  let e ← extender
  let pending := taken ∪ e.standing
  if pending.contains Status.stop then
    halt
    return .stopped
  if e.isIdleWith pending then
    release
    return .idle
  if let .generic _ := e.engine then
    log (.passStarted e.family.name pending)
  service nest pending
  release
  return .ran

/-- The state in which no pass is at work any more. -/
def letGo (s : State) : State := { s with extender := { s.extender with updating := false } }

/-- Lets the next pass begin when this one is over, also when a fault has cut it short, which is noted. -/
def lettingGo (m : Sim Pass) : Sim Pass := fun s =>
  match m s with
  | (.ok p, s) => (.ok p, letGo s)
  | (.error f, s) => (.error f, (letGo s).noting .passCut)

/-- One pass, unless another one is at work. -/
def update (nest : Nest) : Sim Pass := do
  if (← extender).updating then
    note (.updated .contended)
    return .contended
  modifyExtender ({ · with updating := true })
  let p ← lettingGo (attempt nest)
  note (.updated p)
  return p

end Engine

end PortExpander
