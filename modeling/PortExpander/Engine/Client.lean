import PortExpander.Engine.Pass

/-!
# Calls of clients

Clients take pins, set them up, write and read them and attach handlers. A call changes the memory and asks for work;
only flushing and reading make a pass at once, and not in interrupt context. An extender that is stopped, or is about to
be, refuses every call but giving back a pin and detaching a handler.
-/

namespace PortExpander

/-- How many milliseconds a call waits for a pass that is at work. -/
def syncWait : Nat := 15

/-- A call of the extender, which may be refused. -/
abbrev Attempt := ExceptT Error Sim

namespace Client

open Sim

/-- Goes on with the call only if what it looks up is there. -/
def ensure {α : Type} (r : Except Fault α) : Attempt α := liftM (checked r)

/-- Refuses the call if the extender is stopped. -/
def ensureRunning : Attempt Unit := do
  if (← extender).isStopped then throw .stopped

/-- Makes a pass if the context allows; if another pass is at work, gives it time to end. -/
def syncPass (nest : Nest) : Sim Unit := do
  if (← board).interruptContext then return
  if (← Engine.update nest) = .contended then delay nest syncWait

/-- Lets the engine poll what has a handler and no interrupt line. -/
def updatePolling : Sim Unit := do
  let e ← extender
  match e.engine with
  | .generic s =>
    let polling := !s.wired && e.hasHandler
    modifyExtender ({ · with engine := .generic { s with polling } })
    if polling != s.polling then log (.inputPolling e.label polling)
  | .queued q =>
    let polled := e.handledChips q.wired
    modifyExtender ({ · with engine := .queued { q with polled } })
    if polled != q.polled then log (.pollingChips e.label polled)

/-- Takes a pin. -/
def claim (pin : Nat) : Attempt Unit := do
  ensureRunning
  let c := (← extender).claims
  ofExcept (c.checkRange pin)
  ensure (checkPin pin)
  let claims ← ofExcept (c.claim pin)
  modifyExtender ({ · with claims })

/-- Takes away the handler of a pin, if it has one. -/
def removeHandler (pin : Nat) : Sim Unit := do
  modifyExtender fun e => { e with handlers := e.handlers.remove pin }
  updatePolling

/-- Gives a pin back, which leaves no handler behind. -/
def free (pin : Nat) : Sim Unit := do
  let e ← extender
  if pin < e.claims.capacity then
    let _ ← checked (e.slot pin)
    removeHandler pin
    checked (checkPin pin)
  modifyExtender fun e => { e with claims := e.claims.free pin }

/-- Sets up a claimed pin. -/
def setup (pin : Nat) (attrs : PinAttributes) : Attempt Unit := do
  ensureRunning
  ofExcept ((← extender).claims.checkClaimed pin)
  ensure (checkPin pin)
  modifyExtender fun e => { e with shadow := e.shadow.setup pin attrs }
  request .configDirty
  notify

/-- Gives an output a level, which a flush carries to the chip. -/
def write (pin : Nat) (high : Bool) : Attempt Unit := do
  ensureRunning
  ofExcept ((← extender).claims.checkRange pin)
  ensure (checkPin pin)
  let _ ← ensure (Byte.bit (pin / 8))
  modifyExtender fun e => { e with shadow := e.shadow.write pin high }

/-- Carries the levels written so far to the chips. -/
def flush (nest : Nest) : Attempt Unit := do
  ensureRunning
  modifyExtender fun e => { e with shadow := e.shadow.commit }
  request .writeDirty
  notify
  syncPass nest

/-- Remembers a chip that has interrupted; if it cannot, all chips are to be read. The generic engine looks at its line
instead. -/
def enqueue (chip : Nat) : Sim Unit := do
  match (← extender).engine with
  | .generic _ => return
  | .queued q =>
    if h : q.Admits chip then
      modifyExtender ({ · with engine := .queued (q.push chip h.served) })
    else
      request .readDirty

/-- Tells the extender that an interrupt line has reported a change. -/
def interrupt (line : Nat) : Sim Unit := do
  enqueue line
  request .isrPending
  notify

/-- Asks for what has to be read before a pin's input is known. -/
def requestInput (pin : Nat) : Sim Unit := do
  match (← extender).engine with
  | .generic _ =>
    request .readDirty
    notify
  | .queued _ => interrupt (pin / 8)

/-- Reads the chip of a pin if no interrupt line would have reported a change. -/
def refresh (nest : Nest) (pin : Nat) : Sim Unit := do
  if (← extender).readsThrough pin then
    requestInput pin
    syncPass nest

/-- Reads a pin. -/
def read (nest : Nest) (pin : Nat) : Attempt Bool := do
  ensureRunning
  let e ← extender
  ofExcept (e.claims.checkRange pin)
  ensure (e.checkChip pin)
  refresh nest pin
  ensure (checkPin pin)
  return (← extender).shadow.input.get pin

/-- Attaches a handler to a claimed pin. -/
def attach (pin : Nat) (handler : Handler) : Attempt Unit := do
  ensureRunning
  let e ← extender
  ofExcept (e.claims.checkClaimed pin)
  ensure (checkPin pin)
  let _ ← ensure (e.slot pin)
  let handlers ← ofExcept (e.handlers.install pin handler)
  modifyExtender ({ · with handlers })
  updatePolling
  request .readDirty
  notify

/-- Takes away the handler of a pin. -/
def detach (pin : Nat) : Attempt Unit := do
  let e ← extender
  ofExcept (e.claims.checkRange pin)
  let _ ← ensure (e.slot pin)
  removeHandler pin

/-- Gives an output a level through its handle, and carries it to the chip. -/
def set (nest : Nest) (pin : Nat) (high : Bool) : Attempt Unit := do
  write pin high
  flush nest

/-- Whether a pin reads as the level `high`, through its handle. -/
def get (nest : Nest) (pin : Nat) (high : Bool) : Attempt Bool := do
  return (← read nest pin) == high

/-- Another extender on the same board, which nobody has used. -/
def spare : Extender :=
  .fresh Device.pca9555.family Device.pca9555.family.baseAddress genericCapacity .none
    (.generic { wired := false, high := false, polling := false }) genericCapacity_le

/-- Makes a call of the spare extender. Its notes are not kept: they are about another memory. -/
def onSpare {α : Type} (m : Attempt α) : Attempt α := ExceptT.mk fun s =>
  let (r, s') := m.run { s with extender := spare, history := [] }
  (r, { s' with extender := s.extender, history := s'.history.filter (!·.isNote) ++ s.history })

/-- Writes the outputs of handles that have to belong to the same extender, which are the foreign ones or the others. -/
def writeEach (foreign : Bool) : List Target → Attempt Unit
  | [] => return
  | t :: ts => do
    if t.foreign != foreign then
      throwThe Fault .foreignPin
    write t.pin t.high
    writeEach foreign ts

/-- Gives several outputs a level, and carries all levels to the chips at once. The handles have to belong to the extender
of the first one. -/
def setMany (nest : Nest) (targets : List Target) : Attempt Unit :=
  match targets with
  | [] => return
  | first :: _ =>
    let calls : Attempt Unit := do
      writeEach first.foreign targets
      flush nest
    if first.foreign then onSpare calls else calls

end Client

end PortExpander
