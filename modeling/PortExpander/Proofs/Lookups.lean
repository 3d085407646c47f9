import PortExpander.Engine.Client
import PortExpander.Engine.Worker

/-!
# Lookups

Maps of pins have a bit for each of 64 pins and a byte for each of eight groups, a table of handlers has a slot for each pin of
its extender, and a byte has eight bits. Who looks beyond that meets a fault. The equations here say that nobody does: wherever
the code looks something up, a check before it, the way a loop counts or the type of what is kept has seen to it that it is there,
so what the code comes to can be told without the lookups.
-/

namespace PortExpander

open Sim Engine

variable {α β : Type}

/-- A lookup that finds its place has no other effect. -/
theorem Sim.checked_ok (a : α) : checked (.ok a) = pure a := rfl

/-- What comes after a check may rely on it. -/
theorem Attempt.ofExcept_bind_congr {r : Except Error α} {k k' : α → Attempt β} (h : ∀ a, r = .ok a → k a = k' a) :
    (ofExcept r >>= k) = (ofExcept r >>= k') := by
  cases r with
  | ok a => exact h a rfl
  | error e => rfl

/-! ## What is there -/

/-- The place of a register of one of the eight groups is found as if its index were not looked at. -/
theorem Extender.reach_of_lt (e : Extender) {group : Nat} (h : group < 8) (reg : Byte) : e.reach group reg = e.locate group reg := by
  unfold reach
  rw [checkIndex_of_lt h]
  cases e.locate group reg <;> rfl

/-- The slot of a pin that the extender has is the handler of the pin. -/
theorem Extender.slot_of_lt (e : Extender) {pin : Nat} (h : pin < e.claims.capacity) : e.slot pin = .ok (e.handlers pin) := by
  unfold slot
  rw [checkIndex_of_lt h]
  rfl

/-- A pin below 64 has a chip in the map of chips. -/
theorem Extender.checkChip_of_lt (e : Extender) {pin : Nat} (h : pin < 64) : e.checkChip pin = .ok () := by
  unfold checkChip
  split
  · rfl
  · rw [Byte.bit_of_lt (by omega)]
    rfl

/-- A pin that an extender has, has a bit in its maps. -/
theorem Claims.lt_of_checkRange {c : Claims} {pin : Nat} (h : c.checkRange pin = .ok ()) : pin < c.capacity ∧ pin < 64 := by
  unfold checkRange at h
  split at h
  · rename_i hp
    exact ⟨hp, Nat.lt_of_lt_of_le hp c.room⟩
  · cases h

/-- A claimed pin has a bit in the maps: the check for a claim makes the one for the range first. -/
theorem Claims.lt_of_checkClaimed {c : Claims} {pin : Nat} (h : c.checkClaimed pin = .ok ()) : pin < c.capacity ∧ pin < 64 := by
  unfold checkClaimed at h
  cases hr : c.checkRange pin with
  | ok => exact lt_of_checkRange hr
  | error e =>
    rw [hr] at h
    cases h

/-! ## Passes -/

namespace Engine

variable (nest : Nest)

/-- Writing a register of a group that there is, and then of the others. -/
theorem writeGroups_cons (reg : Byte) (value : Shadow → Nat → Byte) {group : Nat} (h : group < 8) (groups : List Nat) :
    writeGroups nest reg value (group :: groups) = (do
      let e ← extender
      let place ← ofExcept (e.locate group reg)
      let first := succeeded (← transfer nest (.write place (value e.shadow group)))
      let rest ← writeGroups nest reg value groups
      return first && rest) := by
  rw [writeGroups]
  refine bind_congr fun e => ?_
  rw [e.reach_of_lt h]
  rfl

/-- Reading a group that there is, and then the others. -/
theorem readGroups_cons {group : Nat} (h : group < 8) (groups : List Nat) :
    readGroups nest (group :: groups) = (do
      let e ← extender
      let place ← ofExcept (e.locate group e.family.inputReg)
      let was := e.shadow.input.byte group
      let result ← transfer nest (.read place)
      let now := inputAfter (← extender) group was result
      modifyExtender fun e => { e with shadow := e.shadow.setInput group now }
      let (refreshes, rest) ← readGroups nest groups
      return ({ group, was, now } :: refreshes, succeeded result && rest)) := by
  rw [readGroups]
  refine bind_congr fun e => ?_
  rw [e.reach_of_lt h]
  rfl

/-- The turn of a pin of the extender whose input has changed: its slot is in the table of handlers. -/
theorem dispatchPin_eq (pin : Nat) (was now : Bool) :
    dispatchPin nest pin was now = (do
      let e ← extender
      if was != now && pin < e.claims.capacity then
        if let some h := e.handlers pin then
          if h.edge.matches was now then
            log (.edge pin)
            callHandler nest pin h) := by
  unfold dispatchPin
  refine bind_congr fun e => ?_
  split
  · rename_i h
    rw [Bool.and_eq_true, decide_eq_true_eq] at h
    rw [e.slot_of_lt h.2]
    rfl
  · rfl

/-- The bits of a group's byte, one after the other. -/
theorem dispatchPins_cons (r : Refresh) {bit : Nat} (h : bit < 8) (bits : List Nat) :
    dispatchPins nest r (bit :: bits) = (do
      dispatchPin nest (8 * r.group + bit) (r.was.getLsbD bit) (r.now.getLsbD bit)
      dispatchPins nest r bits) := by
  rw [dispatchPins, Byte.bit_of_lt h, checked_ok, pure_bind, PinMap.and_twoPow_bne_zero, PinMap.and_twoPow_bne_zero]

/-- What there is to do: every chip number in the queue has its bit in the mask. -/
theorem gather_eq (pending : Status) : gather pending = (do
    let e ← extender
    match e.engine with
    | .generic s =>
      if pending.contains Status.isrPending && e.lines.has 0 then
        let fallen ← sampleLine s
        return .ofRequests (if fallen then pending ∪ Status.readDirty else pending) 0
      else
        return .ofRequests pending 0
    | .queued q =>
      modifyExtender ({ · with engine := .queued q.emptied })
      return .ofRequests pending (q.queue.foldl (fun mask chip => mask ||| BitVec.twoPow 8 chip) q.polled)) := by
  unfold gather
  refine bind_congr fun e => ?_
  cases e.engine with
  | generic s => rfl
  | queued q =>
    dsimp only
    rw [q.mask_eq, checked_ok, pure_bind]

end Engine

/-! ## Calls of clients -/

namespace Client

/-- A claim sets its bit without a fault. -/
theorem claim_eq (pin : Nat) : claim pin = (do
    ensureRunning
    let claims ← ofExcept ((← extender).claims.claim pin)
    modifyExtender ({ · with claims })) := by
  unfold claim
  refine bind_congr fun _ => bind_congr fun e => ?_
  dsimp only
  cases hr : e.claims.checkRange pin with
  | ok =>
    rw [checkPin_of_lt (Claims.lt_of_checkRange hr).2]
    rfl
  | error err =>
    unfold Claims.claim
    rw [hr]
    rfl

/-- A pin that is freed has its slot and its bit if it is in range. -/
theorem free_eq (pin : Nat) : free pin = (do
    if pin < (← extender).claims.capacity then removeHandler pin
    modifyExtender fun e => { e with claims := e.claims.free pin }) := by
  unfold free
  refine bind_congr fun e => ?_
  split
  · rename_i h
    rw [e.slot_of_lt h, checkPin_of_lt (Nat.lt_of_lt_of_le h e.claims.room)]
    rfl
  · rfl

/-- A setup finds the bytes of its pin. -/
theorem setup_eq (pin : Nat) (attrs : PinAttributes) : setup pin attrs = (do
    ensureRunning
    ofExcept ((← extender).claims.checkClaimed pin)
    modifyExtender fun e => { e with shadow := e.shadow.setup pin attrs }
    request .configDirty
    notify) := by
  refine bind_congr fun _ => bind_congr fun e => Attempt.ofExcept_bind_congr fun _ hr => ?_
  rw [checkPin_of_lt (Claims.lt_of_checkClaimed hr).2]
  rfl

/-- A write finds the byte of its pin. -/
theorem write_eq (pin : Nat) (high : Bool) : write pin high = (do
    ensureRunning
    ofExcept ((← extender).claims.checkRange pin)
    modifyExtender fun e => { e with shadow := e.shadow.write pin high }) := by
  refine bind_congr fun _ => bind_congr fun e => Attempt.ofExcept_bind_congr fun _ hr => ?_
  have hp := (Claims.lt_of_checkRange hr).2
  rw [checkPin_of_lt hp, Byte.bit_of_lt (by omega)]
  rfl

/-- A reading finds the byte and the chip of its pin. -/
theorem read_eq (nest : Nest) (pin : Nat) : read nest pin = (do
    ensureRunning
    ofExcept ((← extender).claims.checkRange pin)
    refresh nest pin
    return (← extender).shadow.input.get pin) := by
  refine bind_congr fun _ => bind_congr fun e => Attempt.ofExcept_bind_congr fun _ hr => ?_
  have hp := (Claims.lt_of_checkRange hr).2
  rw [e.checkChip_of_lt hp, checkPin_of_lt hp]
  rfl

/-- A handler that is attached finds its slot and the bits of its pin. -/
theorem attach_eq (pin : Nat) (handler : Handler) : attach pin handler = (do
    ensureRunning
    let e ← extender
    ofExcept (e.claims.checkClaimed pin)
    let handlers ← ofExcept (e.handlers.install pin handler)
    modifyExtender ({ · with handlers })
    updatePolling
    request .readDirty
    notify) := by
  refine bind_congr fun _ => bind_congr fun e => Attempt.ofExcept_bind_congr fun _ hr => ?_
  obtain ⟨hcapacity, hpin⟩ := Claims.lt_of_checkClaimed hr
  rw [checkPin_of_lt hpin, e.slot_of_lt hcapacity]
  rfl

/-- A handler that is detached finds its slot. -/
theorem detach_eq (pin : Nat) : detach pin = (do
    ofExcept ((← extender).claims.checkRange pin)
    removeHandler pin) := by
  refine bind_congr fun e => Attempt.ofExcept_bind_congr fun _ hr => ?_
  rw [e.slot_of_lt (Claims.lt_of_checkRange hr).1]
  rfl

end Client

end PortExpander
