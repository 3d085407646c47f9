import PortExpander.Proofs.Dues
import PortExpander.Proofs.Interrupts
import PortExpander.Proofs.PlainSteps

/-!
# Two engines for the same chips

The generic engine without a line and the queued engine without lines serve the same chips alike. They ask for reads in different ways
and read different groups, so what they remember of the inputs drifts apart. All else that they remember is the same after every step
(`Scene.Agree`), and that is enough for them to answer alike and to write alike.
-/

namespace PortExpander

open Sim Engine

/-- The memory of a queued engine, for the chips and clients of another engine. -/
def Extender.twin (e : Extender) (input : PinMap) (status : Status) (q : ChipQueue) : Extender :=
  { e with
    claims := { capacity := queuedCapacity, claimed := e.claims.claimed, room := queuedCapacity_le }
    shadow := { e.shadow with input }
    status
    engine := .queued q }

/-- What a queued engine keeps that has no lines and polls nothing. -/
structure ChipQueue.Lone (q : ChipQueue) : Prop where
  wired : q.wired = .none
  polled : q.polled = 0

/-- A new queue without lines polls nothing. -/
theorem ChipQueue.Lone.new : (ChipQueue.new .none).Lone := ⟨rfl, rfl⟩

/-- One more interrupt makes no line and polls nothing. -/
theorem ChipQueue.Lone.push {q : ChipQueue} (h : q.Lone) {chip : Nat} (hchip : chip < queuedChips) : (q.push chip hchip).Lone :=
  ⟨h.wired, h.polled⟩

/-- A queue that has neither lines nor chips to poll is new once it is emptied. -/
theorem ChipQueue.Lone.emptied_eq {q : ChipQueue} (h : q.Lone) : q.emptied = .new .none := by
  unfold emptied
  rw [h.wired, h.polled]
  rfl

/-- What a generic engine is like that may have a twin. -/
structure Extender.Lone (e : Extender) : Prop where
  family : e.family = Device.tca6408.family
  address : e.address = Device.tca6408.family.baseAddress
  capacity : e.claims.capacity = genericCapacity
  handlers : e.handlers = .none
  lines : e.lines = .none
  engine : ∃ high, e.engine = .generic { wired := false, high, polling := false }
  updating : e.updating = false

/-- Where no pin has a handler, none of a range has one. -/
theorem Handlers.anyIn_none (first count : Nat) : Handlers.none.anyIn first count = false := by
  simp [Handlers.anyIn, Handlers.none]

/-- An engine with no handlers polls what it has polled. -/
theorem Extender.Lone.repolled {e : Extender} (h : e.Lone) : e.repolled = e := by
  obtain ⟨high, he⟩ := h.engine
  unfold Extender.repolled hasHandler
  rw [he, h.handlers, Handlers.anyIn_none, ← h.handlers]
  dsimp only
  rw [Bool.and_false, ← he]

/-- So does its twin. -/
theorem Extender.Lone.repolled_twin {e : Extender} (h : e.Lone) (input : PinMap) (status : Status) {q : ChipQueue} (hq : q.Lone) :
    (e.twin input status q).repolled = e.twin input status q := by
  have hpolled : (e.twin input status q).handledChips q.wired = q.polled := by
    unfold handledChips
    rw [show (e.twin input status q).handlers = .none from h.handlers, hq.polled]
    simp only [Handlers.anyIn_none, Bool.and_false]
    decide
  show ({ e.twin input status q with
    engine := .queued { q with polled := (e.twin input status q).handledChips q.wired } } : Extender) = _
  rw [hpolled]
  rfl

/-- Setting up a pin is no matter of what has been read. -/
theorem Shadow.setup_input (s : Shadow) (input : PinMap) (pin : Nat) (attrs : PinAttributes) :
    ({ s with input } : Shadow).setup pin attrs = { s.setup pin attrs with input } := by
  unfold setup
  dsimp only
  split
  · split
    · rfl
    · split <;> rfl
  · split <;> rfl

namespace Scene

/-- The second scene is that of a twin which remembers these inputs, requests and interrupts. -/
structure Twin (input : PinMap) (status : Status) (q : ChipQueue) (c d : Scene) : Prop where
  lone : c.extender.Lone
  queue : q.Lone
  extender : d.extender = c.extender.twin input status q
  registers : d.registers = c.registers
  writes : d.writes = c.writes
  interruptContext : c.interruptContext = false ∧ d.interruptContext = false

/-- The second scene is that of a twin between two steps. -/
def Agree (c d : Scene) : Prop := ∃ input, Twin input c.extender.status (.new .none) c d

variable {c d : Scene} {input : PinMap} {status : Status} {q : ChipQueue}

/-! ## Passes of twins -/

/-- The generic engine without a line plans what is asked for and looks at nothing. -/
theorem gather_lone (h : c.extender.Lone) (work : Status) : c.gather work = (.ofRequests work 0, c) := by
  obtain ⟨high, he⟩ := h.engine
  refine gather_unheard he ?_
  rw [h.lines]
  exact Bool.and_false _

/-- Twins owe the same writes to their chips. -/
theorem dues_twin (e : Extender) {plan plan' : Plan} (hc : plan'.configure = plan.configure) (hw : plan'.write = plan.write) :
    (e.twin input status q).dues plan' = e.dues plan := by
  obtain ⟨configure, write, groups⟩ := plan
  obtain ⟨configure', write', groups'⟩ := plan'
  cases (show configure' = configure from hc)
  cases (show write' = write from hw)
  rw [Extender.dues_eq, Extender.dues_eq]
  rfl

/-- Passes of twins that have both something to do write alike. -/
theorem Twin.ran (h : Twin input status q c d) (hs : c.extender.isStopped = false)
    (hi : c.extender.isIdleWith c.extender.work = false) (hs' : d.extender.isStopped = false)
    (hi' : d.extender.isIdleWith d.extender.work = false)
    (hconf : status.contains Status.configDirty = c.extender.status.contains Status.configDirty)
    (hwrite : status.contains Status.writeDirty = c.extender.status.contains Status.writeDirty) :
    c.update.1 = .ran ∧ d.update.1 = .ran ∧ Twin (d.inputs d.nextPlan.groups) ∅ (.new .none) c.update.2 d.update.2 ∧
      c.update.2.extender.status = ∅ ∧ c.update.2.extender.shadow.input = c.inputs c.nextPlan.groups := by
  have hf : c.extender.family.Separate := by
    rw [h.lone.family]
    exact Device.tca6408.separate
  have hf' : d.extender.family.Separate := by
    rw [h.extender]
    exact hf
  have hstatus : d.extender.status = status := by rw [h.extender]; rfl
  have hconfigure : d.nextPlan.configure = c.nextPlan.configure := by
    rw [configure_nextPlan, configure_nextPlan, hstatus, hconf]
  have hwrites : d.nextPlan.write = c.nextPlan.write := by
    rw [write_nextPlan, write_nextPlan, hstatus, hconf, hwrite]
  -- the plans differ in what is to be read, and agree in what is to be written
  have hdues : d.extender.dues d.nextPlan = c.extender.dues c.nextPlan := by
    rw [h.extender]
    exact dues_twin _ hconfigure hwrites
  have hdirty : d.extender.dirtyAfter d.nextPlan = c.extender.dirtyAfter c.nextPlan := by
    unfold Extender.dirtyAfter
    rw [hconfigure, hwrites, h.extender]
    rfl
  have hputs : (d.puts (c.extender.dues c.nextPlan)).registers = (c.puts (c.extender.dues c.nextPlan)).registers :=
    registers_puts_congr h.registers _
  have hengine : d.nextEngine = .queued (.new .none) := by
    rw [nextEngine_queued (q := q) (by rw [h.extender]; rfl), h.queue.emptied_eq]
  have hengine' : ∃ high, c.nextEngine = .generic { wired := false, high, polling := false } := by
    obtain ⟨high, he⟩ := h.lone.engine
    unfold nextEngine Engine.reread
    rw [gather_lone h.lone, he]
    split
    · exact ⟨true, rfl⟩
    · exact ⟨high, rfl⟩
  rw [update_of_running hf hs hi, update_of_running hf' hs' hi', hdues]
  refine ⟨rfl, rfl, ⟨?_, .new, ?_, hputs, ?_, ?_⟩, rfl, rfl⟩
  · rw [extender_amend_puts]
    exact ⟨h.lone.family, h.lone.address, h.lone.capacity, h.lone.handlers, h.lone.lines, hengine', rfl⟩
  · rw [extender_amend_puts, extender_amend_puts, hengine, hdirty, h.extender]
    rfl
  · show (d.puts _).writes = (c.puts _).writes
    rw [writes_puts, writes_puts, h.writes]
  · show (c.puts _).interruptContext = false ∧ (d.puts _).interruptContext = false
    rw [(board_puts c _).2, (board_puts d _).2]
    exact h.interruptContext

namespace Agree

variable (h : c.Agree d)

include h

theorem extender : ∃ input, d.extender = c.extender.twin input c.extender.status (.new .none) :=
  h.imp fun _ h => h.extender

/-- Twins still agree after the same change of both memories. -/
theorem amend {f f' : Extender → Extender} (hl : c.extender.Lone → (f c.extender).Lone)
    (hf : ∀ input, f' (c.extender.twin input c.extender.status (.new .none)) = (f c.extender).twin input (f c.extender).status (.new .none)) :
    (c.amend f).Agree (d.amend f') := by
  obtain ⟨input, h⟩ := h
  refine ⟨input, hl h.lone, .new, ?_, h.registers, h.writes, h.interruptContext⟩
  show f' d.extender = _
  rw [h.extender]
  exact hf input

/-- Twins are stopped together. -/
theorem isStopped : d.extender.isStopped = c.extender.isStopped := by
  obtain ⟨input, h⟩ := h.extender
  rw [h]
  rfl

/-- Twins have the same work to do. -/
theorem work : d.extender.work = c.extender.work := by
  obtain ⟨input, h⟩ := h
  obtain ⟨high, he⟩ := h.lone.engine
  unfold Extender.work Extender.standing
  rw [h.extender, he]
  rfl

/-- An update of twins comes to the same. -/
theorem update : d.update.1 = c.update.1 ∧ c.update.2.Agree d.update.2 := by
  have hwork := h.work
  have hstopped := h.isStopped
  obtain ⟨input, htwin⟩ := id h
  have hhalted : d.extender.halted = c.extender.halted := by
    rw [htwin.extender]
    rfl
  have hidle : d.extender.isIdleWith d.extender.work = c.extender.isIdleWith c.extender.work := by
    obtain ⟨high, he⟩ := htwin.lone.engine
    unfold Extender.isIdleWith
    rw [hwork, htwin.extender, he]
    show (c.extender.work.isEmpty && true) = _
    rw [Bool.and_true]
  -- twins have the same work, so both halt, stop, idle or run
  cases hh : c.extender.halted with
  | true =>
    rw [update_of_halted hh, update_of_halted (hhalted.trans hh)]
    dsimp only
    exact ⟨rfl, h.amend (fun hl => { hl with updating := rfl }) fun _ => rfl⟩
  | false =>
    cases hs : c.extender.work.contains Status.stop with
    | true =>
      rw [update_of_stop hh hs, update_of_stop (hhalted.trans hh) (by rw [hwork, hs])]
      dsimp only
      exact ⟨rfl, h.amend (fun hl => { hl with updating := rfl }) fun _ => rfl⟩
    | false =>
      cases hi : c.extender.isIdleWith c.extender.work with
      | true =>
        rw [update_of_idle hh hs hi, update_of_idle (hhalted.trans hh) (by rw [hwork, hs]) (hidle.trans hi)]
        dsimp only
        exact ⟨rfl, h.amend (fun hl => { hl with updating := rfl }) fun _ => rfl⟩
      | false =>
        have hrunning : c.extender.isStopped = false := by
          unfold Extender.isStopped
          rw [hh, Bool.false_or]
          exact (Extender.contains_work (by decide) (by decide) (by decide)).symm.trans hs
        obtain ⟨hran, hran', htwin, hstatus, -⟩ := htwin.ran hrunning hi (hstopped.trans hrunning) (hidle.trans hi) rfl rfl
        rw [hran, hran']
        refine ⟨rfl, d.inputs d.nextPlan.groups, ?_⟩
        rw [hstatus]
        exact htwin

end Agree

/-! ## Calls of twins -/

/-- The second result is that of a twin: the answers are the same, and so is what is left behind. -/
def Matches {α : Type} (x y : α × Scene) : Prop := y.1 = x.1 ∧ x.2.Agree y.2

variable {α β : Type}

/-- Giving back a pin when there are no handlers and the engine polls nothing. -/
theorem free_of_unhandled {pin : Nat} (hp : pin < c.extender.claims.capacity) (hh : c.extender.handlers = .none)
    (hr : c.extender.repolled = c.extender) :
    c.free pin = c.amend fun e => { e with claims := { e.claims with claimed := c.extender.claims.claimed.set pin false } } := by
  have hremove : Handlers.none.remove pin = .none := by
    funext i
    show (if i = pin then _ else _) = _
    split <;> rfl
  have hsame : ({ c.extender with handlers := c.extender.handlers.remove pin } : Extender).repolled = c.extender := by
    rw [hh, hremove, ← hh]
    exact hr
  unfold Scene.free
  rw [if_pos hp]
  unfold amend
  dsimp only
  rw [hsame, Claims.free, if_pos hp]

namespace Agree

variable (h : c.Agree d)

include h

/-- Calls that need an extender which is not stopped match if they match when it is not. -/
theorem running {x y : Except Error α × Scene} (hxy : c.extender.isStopped = false → Matches x y) :
    Matches (c.running x) (d.running y) := by
  unfold Scene.running
  rw [h.isStopped]
  split
  · exact ⟨rfl, h⟩
  · exact hxy (Bool.eq_false_iff.2 ‹_›)

/-- Calls with a check match if what they do after it matches. -/
theorem checking {check : Except Error β} {x y : β → Except Error α × Scene} (hxy : ∀ b, Matches (x b) (y b)) :
    Matches (c.checking check x) (d.checking check y) := by
  unfold Scene.checking
  split
  · exact hxy _
  · exact ⟨rfl, h⟩

/-- The pins that both have are within the capacity of each. -/
theorem capacity {pin : Nat} (hp : pin < queuedCapacity) : pin < c.extender.claims.capacity ∧ pin < d.extender.claims.capacity := by
  obtain ⟨input, h⟩ := h
  rw [h.extender]
  refine ⟨?_, hp⟩
  rw [h.lone.capacity]
  exact Nat.lt_trans hp (by decide)

/-- Twins have the same claims. -/
theorem claimed : d.extender.claims.claimed = c.extender.claims.claimed := by
  obtain ⟨input, h⟩ := h.extender
  rw [h]
  rfl

/-- Twins find the same pins in range, as far as both have them. -/
theorem checkRange {pin : Nat} (hp : pin < queuedCapacity) :
    d.extender.claims.checkRange pin = c.extender.claims.checkRange pin := by
  obtain ⟨hc, hd⟩ := h.capacity hp
  unfold Claims.checkRange
  rw [if_pos hc, if_pos hd]

/-- Twins find the same pins claimed, as far as both have them. -/
theorem isClaimed {pin : Nat} (hp : pin < queuedCapacity) : d.extender.claims.isClaimed pin = c.extender.claims.isClaimed pin := by
  obtain ⟨hc, hd⟩ := h.capacity hp
  unfold Claims.isClaimed
  rw [h.claimed, decide_eq_true hc, decide_eq_true hd]

/-- Twins stay twins when their claims change alike. -/
theorem reclaim (claimed : PinMap) : (c.amend fun e => { e with claims := { e.claims with claimed } }).Agree
    (d.amend fun e => { e with claims := { e.claims with claimed } }) :=
  h.amend (fun hl => { hl with }) fun _ => rfl

/-- Twins claim alike. -/
theorem claim {pin : Nat} (hp : pin < queuedCapacity) : Matches (c.claim pin) (d.claim pin) := by
  refine h.running fun _ => ?_
  unfold Claims.claim
  rw [h.checkRange hp, h.isClaimed hp, h.claimed]
  cases c.extender.claims.checkRange pin with
  | error x => exact ⟨rfl, h⟩
  | ok _ =>
    cases c.extender.claims.isClaimed pin with
    | true => exact ⟨rfl, h⟩
    | false =>
      refine ⟨rfl, ?_⟩
      exact h.reclaim (c.extender.claims.claimed.set pin true)

/-- Twins set up alike. -/
theorem setup {pin : Nat} (hp : pin < queuedCapacity) (attrs : PinAttributes) : Matches (c.setup pin attrs) (d.setup pin attrs) := by
  have hcheck : d.extender.claims.checkClaimed pin = c.extender.claims.checkClaimed pin := by
    unfold Claims.checkClaimed
    rw [h.checkRange hp, h.isClaimed hp]
  refine h.running fun _ => ?_
  rw [hcheck]
  refine h.checking fun _ => ⟨rfl, ?_⟩
  dsimp only
  refine h.amend (fun hl => { hl with }) fun input => ?_
  show ({ c.extender.twin input c.extender.status (.new .none) with
    shadow := ({ c.extender.shadow with input } : Shadow).setup pin attrs } : Extender).request .configDirty = _
  rw [Shadow.setup_input]
  rfl

/-- A pass in a call of twins. -/
theorem syncPass : c.syncPass.Agree d.syncPass := by
  have hupdate := h.update.2
  obtain ⟨input, h⟩ := h
  unfold Scene.syncPass
  rw [h.interruptContext.1, h.interruptContext.2]
  exact hupdate

/-- Twins write alike. -/
theorem write {pin : Nat} (hp : pin < queuedCapacity) (high : Bool) : Matches (c.write pin high) (d.write pin high) := by
  refine h.running fun _ => ?_
  rw [h.checkRange hp]
  refine h.checking fun _ => ⟨rfl, ?_⟩
  dsimp only
  exact h.amend (fun hl => { hl with }) fun _ => rfl

/-- Twins flush alike. -/
theorem flush : Matches c.flush d.flush :=
  h.running fun _ => ⟨rfl, syncPass (h.amend (fun hl => { hl with }) fun _ => rfl)⟩

/-- Twins shut down alike. -/
theorem shutdown : c.shutdown.Agree d.shutdown := by
  have hasked : (c.amend (·.request .stop)).Agree (d.amend (·.request .stop)) := h.amend (fun hl => { hl with }) fun _ => rfl
  exact hasked.update.2.amend (fun hl => { hl with lines := rfl }) fun _ => rfl

/-- Twins free alike. -/
theorem free {pin : Nat} (hp : pin < queuedCapacity) : (c.free pin).Agree (d.free pin) := by
  obtain ⟨hc, hd⟩ := h.capacity hp
  have hc' : c.extender.handlers = .none ∧ c.extender.repolled = c.extender := by
    obtain ⟨input, h⟩ := h
    exact ⟨h.lone.handlers, h.lone.repolled⟩
  have hd' : d.extender.handlers = .none ∧ d.extender.repolled = d.extender := by
    obtain ⟨input, h⟩ := h
    rw [h.extender]
    exact ⟨h.lone.handlers, h.lone.repolled_twin _ _ .new⟩
  rw [free_of_unhandled hc hc'.1 hc'.2, free_of_unhandled hd hd'.1 hd'.2, h.claimed]
  exact h.reclaim _

end Agree

/-- Twins find the same levels at their chips. -/
theorem Twin.seen (h : Twin input status q c d) (g : Nat) : d.seen g = c.seen g :=
  seen_congr (by rw [h.extender]; rfl) (by rw [h.extender]; rfl) (by rw [h.extender]; rfl) h.registers g

/-- Twins that both have to read a chip with a claimed pin find the same, though the one may read other chips as well. -/
theorem Twin.inputs (h : Twin input status q c d) {pin : Nat} (hg : c.extender.claims.groups.getLsbD (pin / 8) = true)
    (hr : c.extender.work.contains Status.readDirty = true) (hq : pin / 8 ∈ q.queue) :
    (d.inputs d.nextPlan.groups).get pin = (c.inputs c.nextPlan.groups).get pin := by
  have hpin : pin / 8 < 8 := BitVec.lt_of_getLsbD hg
  have hread {e : Scene} (hclaims : e.extender.claims.groups.getLsbD (pin / 8) = true)
      (hplan : e.nextPlan.groups.getLsbD (pin / 8) = true) :
      (e.inputs e.nextPlan.groups).get pin = (e.seen (pin / 8)).getLsbD (pin % 8) := by
    rw [get_inputs, BitVec.getLsbD_and, hplan, hclaims]
    rfl
  have hplan : c.nextPlan.groups.getLsbD (pin / 8) = true := by
    unfold nextPlan
    rw [gather_lone h.lone, Plan.groups_of_asked (.inr hr)]
    exact Byte.getLsbD_255 hpin
  have hplan' : d.nextPlan.groups.getLsbD (pin / 8) = true := by
    unfold nextPlan
    rw [gather_queued (q := q) (by rw [h.extender]; rfl), Plan.getLsbD_groups hpin,
      getLsbD_foldl_queue _ _ _ hpin, decide_eq_true hq, Bool.or_true]
    exact .inr (.inr rfl)
  rw [hread hg hplan, hread (by rw [h.extender]; exact hg) hplan', h.seen]

/-- Reading a pin that no line reports makes a pass, after the engine has been asked for the pin. -/
theorem refreshed_eq {pin : Nat} (hr : c.extender.readsThrough pin = true) (hi : c.interruptContext = false) {f : Extender → Extender}
    (hf : f c.extender = match c.extender.engine with
      | .generic _ => c.extender.request .readDirty
      | .queued _ => c.extender.interrupted (pin / 8)) : c.refreshed pin = (c.amend f).update.2 := by
  unfold Scene.refreshed
  rw [if_pos hr, amend_congr hf.symm]
  exact if_neg (Bool.eq_false_iff.1 hi)

/-- What the generic engine does before it answers a reading. -/
theorem refreshed_lone (h : c.extender.Lone) (hi : c.interruptContext = false) (pin : Nat) :
    c.refreshed pin = (c.amend (·.request .readDirty)).update.2 := by
  obtain ⟨high, he⟩ := h.engine
  refine refreshed_eq ?_ hi ?_
  · unfold Extender.readsThrough
    rw [he]
    rfl
  · rw [he]

/-- What its twin does before it answers a reading. -/
theorem refreshed_twin (h : Twin input status q c d) (hi : d.interruptContext = false) (pin : Nat) :
    d.refreshed pin = (d.amend (·.interrupted (pin / 8))).update.2 := by
  refine refreshed_eq ?_ hi ?_
  · rw [h.extender]
    show (!q.wired.has (pin / 8)) = true
    rw [h.queue.wired]
    show (!(0#8).getLsbD (pin / 8)) = true
    rw [BitVec.getLsbD_zero, Bool.not_false]
  · rw [h.extender]
    rfl

/-- What twins ask for before a pin is read. -/
theorem Twin.asked (h : Twin input c.extender.status (.new .none) c d) {pin : Nat} (hp : pin < queuedCapacity) :
    Twin input (c.extender.status ∪ Status.isrPending) ((ChipQueue.new .none).push (pin / 8) (Nat.div_lt_of_lt_mul hp))
      (c.amend (·.request .readDirty)) (d.amend (·.interrupted (pin / 8))) := by
  have hchip : (ChipQueue.new .none).Admits (pin / 8) := ⟨Nat.div_lt_of_lt_mul hp, by decide⟩
  refine ⟨{ h.lone with }, .push .new _, ?_, h.registers, h.writes, h.interruptContext⟩
  show d.extender.interrupted (pin / 8) = _
  rw [h.extender]
  exact dif_pos hchip

/-- Twins read a pin alike, though the one reads all groups and the other one only that of the pin. -/
theorem Twin.refreshed (h : Twin input c.extender.status (.new .none) c d) (hs : c.extender.isStopped = false) {pin : Nat}
    (hp : pin < queuedCapacity) (hg : c.extender.claims.groups.getLsbD (pin / 8) = true) :
    (d.refreshed pin).extender.shadow.input.get pin = (c.refreshed pin).extender.shadow.input.get pin ∧
      (c.refreshed pin).Agree (d.refreshed pin) := by
  have hasked := h.asked hp
  rw [refreshed_lone h.lone h.interruptContext.1, refreshed_twin h h.interruptContext.2]
  have hother {bits : Status} {i : Nat} (hi : i < 8) (hb : bits.contains (.flag i) = false) :
      (c.extender.status ∪ bits).contains (.flag i) = c.extender.status.contains (.flag i) :=
    FlagSet.contains_union_other _ hi hb
  have hstopped (bits : Status) (hb : bits.contains (.flag 1) = false) {e : Extender} (hhalted : e.halted = c.extender.halted)
      (he : e.status = c.extender.status ∪ bits) : e.isStopped = false := by
    show (e.halted || e.status.contains (.flag 1)) = false
    rw [hhalted, he, hother (by decide) hb]
    exact hs
  have hread : (c.amend (·.request .readDirty)).extender.work.contains Status.readDirty = true :=
    FlagSet.contains_union_left _
      (Status.contains_pending (FlagSet.contains_union_right _ (FlagSet.contains_refl _)) (by decide) (by decide))
  have hisr : (d.amend (·.interrupted (pin / 8))).extender.work.contains Status.isrPending = true := by
    rw [hasked.extender]
    exact FlagSet.contains_union_left _
      (Status.contains_pending (FlagSet.contains_union_right _ (FlagSet.contains_refl _)) (by decide) (by decide))
  obtain ⟨-, -, htwin, hstatus, hinput⟩ := hasked.ran (hstopped .readDirty (by decide) rfl rfl)
    (Extender.isIdleWith_of_contains (by decide) hread)
    (hstopped .isrPending (by decide) (by rw [hasked.extender]; rfl) (by rw [hasked.extender]; rfl))
    (Extender.isIdleWith_of_contains (by decide) hisr)
    ((hother (by decide) (by decide)).trans (hother (by decide) (by decide)).symm)
    ((hother (by decide) (by decide)).trans (hother (by decide) (by decide)).symm)
  refine ⟨?_, (d.amend (·.interrupted (pin / 8))).inputs (d.amend (·.interrupted (pin / 8))).nextPlan.groups, ?_⟩
  · rw [hinput, htwin.extender]
    exact hasked.inputs hg hread List.mem_cons_self
  · rw [hstatus]
    exact htwin

namespace Agree

variable (h : c.Agree d)

include h

/-- Twins read alike while a pin of the group is claimed. -/
theorem read {pin : Nat} (hp : pin < queuedCapacity) (hg : c.extender.claims.groups.getLsbD (pin / 8) = true) :
    Matches (c.read pin) (d.read pin) := by
  refine h.running fun hs => ?_
  rw [h.checkRange hp]
  refine h.checking fun _ => ?_
  obtain ⟨input, h⟩ := h
  obtain ⟨hvalue, hagree⟩ := h.refreshed hs hp hg
  exact ⟨congrArg Except.ok hvalue, hagree⟩

end Agree

/-- Replies made alike of what matches match. -/
theorem Matches.replying {x y : Except Error α × Scene} (h : Matches x y) (f : α → Reply) :
    Matches (Scene.replying f x) (Scene.replying f y) := by
  obtain ⟨r, c⟩ := x
  obtain ⟨r', d⟩ := y
  obtain ⟨hr, hagree⟩ := h
  cases (show r' = r from hr)
  cases r with
  | ok a => exact ⟨rfl, hagree⟩
  | error e => exact ⟨rfl, hagree⟩

end Scene

/-! ## Steps of twins -/

/-- The steps that the engines take alike: they are about the first pins only, and a pin is read only while one of its group is
claimed. -/
def Step.Common (e : Extender) : Step → Prop
  | claim pin | free pin => pin < queuedCapacity
  | op (.call (.setup pin _)) | op (.call (.write pin _)) => pin < queuedCapacity
  | op (.call (.read pin)) => pin < queuedCapacity ∧ ¬e.Vacant (pin / 8)
  | op (.call .flush) | op .update | op .shutdown => True
  | op _ => False

/-- The steps of both engines are plain. -/
theorem Step.Common.isPlain {e : Extender} {step : Step} (h : step.Common e) : step.isPlain = true := by
  cases step with
  | claim pin => rfl
  | free pin => rfl
  | op o =>
    cases o with
    | call c => cases c <;> first | rfl | exact h.elim
    | _ => first | rfl | exact h.elim

/-- Twins take a step alike. -/
theorem Scene.Agree.perform {c d : Scene} (h : c.Agree d) {step : Step} (hs : step.Common c.extender) :
    Matches (c.perform step) (d.perform step) := by
  cases step with
  | claim pin => exact (h.claim hs).replying _
  | free pin => exact ⟨rfl, h.free hs⟩
  | op o =>
    cases o with
    | call call =>
      cases call with
      | setup pin attrs => exact (h.setup hs attrs).replying _
      | write pin high => exact (h.write hs high).replying _
      | read pin =>
        have hg : c.extender.claims.groups.getLsbD (pin / 8) = true := by
          refine Bool.of_not_eq_false fun hg => hs.2 (Extender.vacant_of_groups hg)
        exact (h.read hs.1 hg).replying _
      | flush => exact h.flush.replying _
      | _ => exact hs.elim
    | update => exact ⟨congrArg Reply.pass h.update.1, h.update.2⟩
    | shutdown => exact ⟨rfl, h.shutdown⟩
    | _ => exact hs.elim

variable {nest : Nest} {s t : State}

/-- Twins that agree before a step answer alike and agree after it. -/
theorem State.step_agree (hn : Disturbs nest) (h : s.scene.Agree t.scene) {step : Step} (hc : step.Common s.extender)
    (hs : s.Smooth (s.step nest step).2) (ht : t.Smooth (t.step nest step).2) :
    (t.step nest step).1 = (s.step nest step).1 ∧ (s.step nest step).2.scene.Agree (t.step nest step).2.scene := by
  obtain ⟨input, htwin⟩ := id h
  have hext : t.extender = s.extender.twin input s.extender.status (.new .none) := htwin.extender
  have hu' : t.extender.updating = false := by
    rw [hext]
    exact htwin.lone.updating
  have hl : s.extender.Located := Extender.located_tca6408 htwin.lone.family htwin.lone.address
  have hl' : t.extender.Located := by
    rw [hext]
    exact Extender.located_tca6408 htwin.lone.family htwin.lone.address
  obtain ⟨hreply, hagree⟩ := h.perform hc
  rw [← scene_step hn htwin.lone.updating hl hc.isPlain hs, ← scene_step hn hu' hl' hc.isPlain ht] at hreply hagree
  exact ⟨hreply, hagree⟩

/-- Twins that agree before some steps answer alike, and agree after each of them. -/
theorem State.play_agree (hp : Plays nest) (hn : Disturbs nest) (h : s.scene.Agree t.scene) (steps : List Step)
    (hc : ∀ earlier step later, steps = earlier ++ step :: later → step.Common (s.play nest earlier).2.extender)
    (hs : s.Smooth (s.play nest steps).2) (ht : t.Smooth (t.play nest steps).2) (earlier later : List Step)
    (hsteps : steps = earlier ++ later) :
    (t.play nest earlier).1.map (·.reply) = (s.play nest earlier).1.map (·.reply) ∧
      (s.play nest earlier).2.scene.Agree (t.play nest earlier).2.scene := by
  induction steps generalizing s t earlier with
  | nil =>
    obtain ⟨rfl, -⟩ := List.append_eq_nil_iff.1 hsteps.symm
    exact ⟨rfl, h⟩
  | cons step steps ih =>
    cases earlier with
    | nil => exact ⟨rfl, h⟩
    | cons first earlier =>
      obtain ⟨rfl, hrest⟩ := List.cons.inj hsteps
      have hu : s.extender.updating = false := h.elim fun _ h => h.lone.updating
      have hu' : t.extender.updating = false := by
        obtain ⟨input, h⟩ := h
        rw [show t.extender = s.extender.twin input s.extender.status (.new .none) from h.extender]
        exact hu
      obtain ⟨hs₁, hs₂⟩ := hs.of_cons hp hu
      obtain ⟨ht₁, ht₂⟩ := ht.of_cons hp hu'
      obtain ⟨hreply, hagree⟩ := step_agree hn h (hc [] step steps rfl) hs₁ ht₁
      obtain ⟨hreplies, hlast⟩ := ih hagree
        (fun earlier' step' later' heq => hc (step :: earlier') step' later' (by rw [heq, List.cons_append])) hs₂ ht₂ earlier hrest
      exact ⟨congrArg₂ List.cons hreply hreplies, hlast⟩

/-- What is common to each of some steps when its turn comes can be told step by step. -/
theorem State.common_cons {step : Step} {steps : List Step} (h : step.Common s.extender)
    (hc : ∀ earlier step' later, steps = earlier ++ step' :: later → step'.Common ((s.step nest step).2.play nest earlier).2.extender) :
    ∀ earlier step' later, step :: steps = earlier ++ step' :: later → step'.Common (s.play nest earlier).2.extender := by
  intro earlier step' later heq
  cases earlier with
  | nil =>
    obtain ⟨rfl, -⟩ := List.cons.inj heq
    exact h
  | cons first earlier =>
    obtain ⟨rfl, hrest⟩ := List.cons.inj heq
    exact hc earlier step' later hrest

/-- The generic engine without a line, for the chips of the queued one. -/
@[irreducible] def Extender.lone : Extender :=
  .fresh Device.tca6408.family 0x20 genericCapacity .none (.generic { wired := false, high := false, polling := false })
    genericCapacity_le

/-- The two engines agree. Take a generic engine without a line and a queued engine without lines, new, for the same family at the same
address, each on a board of its own; the chips on the boards are the same, and there is no interrupt context. Both take the same steps,
which are about the pins that both have, and read a pin only while one of its group is claimed. If no transaction fails and no operation
falls into the middle of another one, then up to any moment between two steps they have given the same answers and written the same bytes
to the same registers in the same order, and at that moment the same pins are claimed and the chips hold the same. -/
theorem engines_agree :
    ∀ (depth : Nat) (e : Extender) (b b' : Board) (steps : List Step), Extender.generic Device.tca6408.family 0 false = .ok e →
      b.chips = b'.chips → b.interruptContext = false → b'.interruptContext = false →
      let nest := Session.nestAt (depth + 1)
      let s : State := { extender := e, board := b, history := [] }
      let t : State := { extender := .queued fun _ => false, board := b', history := [] }
      (∀ earlier step later, steps = earlier ++ step :: later → step.Common (s.play nest earlier).2.extender) →
      s.Smooth (s.play nest steps).2 → t.Smooth (t.play nest steps).2 →
      ∀ earlier later, steps = earlier ++ later →
        (t.play nest earlier).1.map (·.reply) = (s.play nest earlier).1.map (·.reply) ∧
        (t.play nest earlier).2.extender.claims.claimed = (s.play nest earlier).2.extender.claims.claimed ∧
        (t.play nest earlier).2.history.writes = (s.play nest earlier).2.history.writes ∧
        ∀ place, (t.play nest earlier).2.board.peek place = (s.play nest earlier).2.board.peek place := by
  intro depth e b b' steps he hchips hi hi' nest s t hc hs ht earlier later hsteps
  have hstart : s.scene.Agree t.scene := by
    have hnew : Extender.generic Device.tca6408.family 0 false = .ok (.fresh Device.tca6408.family
        Device.tca6408.family.baseAddress genericCapacity .none (.generic { wired := false, high := false, polling := false })
        genericCapacity_le) := rfl
    obtain rfl := Except.ok.inj (hnew.symm.trans he)
    refine ⟨.empty, ⟨rfl, rfl, rfl, rfl, rfl, ⟨false, rfl⟩, rfl⟩, .new, rfl, ?_, rfl, hi, hi'⟩
    funext place
    show (b'.chips place.address).map _ = (b.chips place.address).map _
    rw [hchips]
  obtain ⟨hreplies, input, htwin⟩ := State.play_agree (Session.plays_nestAt _) (Session.disturbs_nestAt depth) hstart steps hc hs ht earlier
    later hsteps
  refine ⟨hreplies, ?_, htwin.writes, fun place => congrFun htwin.registers place⟩
  exact Scene.Agree.claimed ⟨input, htwin⟩

/-- A pin of one chip is set up and switched on, pins of the other chip are read in between, and both engines are shut down. -/
theorem engines_agree_of_two_chips :
    let steps : List Step := [.claim 0, .claim 9, .op (.call (.setup 0 PinAttributes.output)), .op (.call (.read 9)),
      .op (.call (.write 0 true)), .op (.call .flush), .op (.call (.read 8)), .free 0, .op .shutdown, .claim 3]
    let board := Board.withChips [0x20, 0x21] false
    let s : State := { extender := .lone, board, history := [] }
    let t : State := { extender := .queued fun _ => false, board, history := [] }
    s.Smooth (s.play (Session.nestAt 1) steps).2 ∧ t.Smooth (t.play (Session.nestAt 1) steps).2 ∧
      (t.play (Session.nestAt 1) steps).1.map (·.reply) = (s.play (Session.nestAt 1) steps).1.map (·.reply) ∧
      (t.play (Session.nestAt 1) steps).2.history.writes = (s.play (Session.nestAt 1) steps).2.history.writes ∧
      (s.play (Session.nestAt 1) steps).2.history.writes.length = 7 := by
  intro steps board s t
  have hs : s.Smooth (s.play (Session.nestAt 1) steps).2 := by decide +kernel
  have ht : t.Smooth (t.play (Session.nestAt 1) steps).2 := by decide +kernel
  have hcommon : ∀ earlier step later, steps = earlier ++ step :: later →
      step.Common (s.play (Session.nestAt 1) earlier).2.extender := by
    refine State.common_cons (by decide : 0 < queuedCapacity) ?_
    refine State.common_cons (by decide : 9 < queuedCapacity) ?_
    refine State.common_cons (by decide : 0 < queuedCapacity) ?_
    refine State.common_cons ⟨by decide, fun hv => absurd (hv 9 rfl) (by decide +kernel)⟩ ?_
    refine State.common_cons (by decide : 0 < queuedCapacity) ?_
    refine State.common_cons trivial ?_
    refine State.common_cons ⟨by decide, fun hv => absurd (hv 9 rfl) (by decide +kernel)⟩ ?_
    refine State.common_cons (by decide : 0 < queuedCapacity) ?_
    refine State.common_cons trivial ?_
    refine State.common_cons (by decide : 3 < queuedCapacity) ?_
    simp
  have he : Extender.generic Device.tca6408.family 0 false = .ok .lone := by
    unfold Extender.lone
    rfl
  obtain ⟨hreplies, -, hwrites, -⟩ := engines_agree 0 .lone board board steps he rfl rfl rfl hcommon hs ht steps [] (by simp)
  exact ⟨hs, ht, by rw [hreplies], by rw [hwrites], by decide +kernel⟩

end PortExpander
