import PortExpander.Proofs.Refusals

/-!
# Numbers within their bounds

The memory of an extender numbers pins, groups, chips and lines, and every number is used where there is room for so many of them only:
the pins of an engine have slots for handlers, groups and chips have bits in a mask, and lines have places. Numbers come from outside
with every call, so each call checks its own. What is kept in the memory is then within its bounds at every moment.
-/

namespace PortExpander

open Sim Engine

/-! ## What is kept -/

/-- Every line that is present has a place. -/
def Lines.Placed (l : Lines) : Prop := ∀ line, l.has line = true → line < maxLines

/-- An extender without lines has no line without a place. -/
theorem Lines.placed_none : Lines.none.Placed := by
  intro line h
  change (0#8).getLsbD line = true at h
  rw [BitVec.getLsbD_zero] at h
  cases h

/-- Lines by a predicate are among those that have places. -/
theorem Lines.placed_ofPredicate (p : Nat → Bool) : (Lines.ofPredicate p).Placed := by
  intro line h
  change (Byte.ofGroups _).getLsbD line = true at h
  rw [Byte.getLsbD_ofGroups, Bool.and_eq_true, Bool.and_eq_true, decide_eq_true_eq, decide_eq_true_eq] at h
  exact h.2.1

/-- The pins and lines that the memory of an extender numbers are there, and the queue has room for its chips. -/
structure Extender.Numbered (e : Extender) : Prop where
  claims : e.claims.Proper
  lines : e.lines.Placed
  wiring : e.wiring.Placed
  room : e.queue.length ≤ queueDepth

namespace Extender.Numbered

variable {e e' : Extender}

/-- The memory may change in everything that is not numbered. -/
theorem of_eq (h : e.Numbered) (hc : e'.claims = e.claims) (hl : e'.lines = e.lines) (hw : e'.wiring = e.wiring)
    (hq : e'.queue = e.queue) : e'.Numbered :=
  ⟨hc ▸ h.claims, hl ▸ h.lines, hw ▸ h.wiring, hq ▸ h.room⟩

/-- What an engine keeps beside its wiring and its queue does not matter. -/
theorem of_engine (h : e.Numbered) (hc : e'.claims = e.claims) (hl : e'.lines = e.lines) (he : e'.engine = e.engine) :
    e'.Numbered :=
  h.of_eq hc hl (by rw [Extender.wiring, Extender.wiring, he]) (by rw [Extender.queue, Extender.queue, he])

/-- To bring polling up to date numbers only chips of the engine. -/
theorem repolled (h : e.Numbered) (handlers : Handlers) : { e with handlers }.repolled.Numbered := by
  obtain ⟨_, _, _, _, _, _, _, _, _, _, engine⟩ := e
  cases engine <;> exact ⟨h.claims, h.lines, h.wiring, h.room⟩

end Extender.Numbered

/-- A touch keeps what the memory numbers within its bounds. -/
theorem Touch.numbered {s s' : State} (h : Touch s s') (hs : s.extender.Numbered) : s'.extender.Numbered := by
  cases h with
  | attach | detach => exact hs.repolled _
  | @enqueue q chip hchip he hroom =>
    refine ⟨hs.claims, hs.lines, ?_, ?_⟩
    · have hw := hs.wiring
      rw [Extender.wiring, he] at hw
      exact hw
    · show (q.queue ++ [chip]).length ≤ queueDepth
      rw [List.length_append]
      exact hroom
  | unwire => exact ⟨hs.claims, Lines.placed_none, hs.wiring, hs.room⟩
  | _ => exact hs.of_engine rfl rfl rfl

/-- What happens in a pass keeps what the memory numbers within its bounds. -/
theorem Work.numbered {s s' : State} (h : Work s s') (hs : s.extender.Numbered) : s'.extender.Numbered := by
  cases h with
  | touch h => exact h.numbered hs
  | record a r => cases r <;> exact hs.of_engine rfl rfl rfl
  | level high he => exact hs.of_eq rfl rfl (by rw [Extender.wiring, Extender.wiring, he]; rfl) (by rw [Extender.queue, Extender.queue, he]; rfl)
  | drain he =>
    refine ⟨hs.claims, hs.lines, ?_, Nat.zero_le _⟩
    have hw := hs.wiring
    rw [Extender.wiring, he] at hw
    exact hw
  | _ => exact hs.of_engine rfl rfl rfl

/-- Every move keeps what the memory numbers within its bounds. -/
theorem Move.numbered {s s' : State} (h : Move s s') (hs : s.extender.Numbered) : s'.extender.Numbered := by
  cases h with
  | touch h => exact h.numbered hs
  | work _ _ h => exact h.numbered hs
  | claim pin claims _ _ hc => exact ⟨hs.claims.claim hc, hs.lines, hs.wiring, hs.room⟩
  | free pin => exact ⟨hs.claims.free pin, hs.lines, hs.wiring, hs.room⟩
  | begin pending =>
    rw [State.extender_noting, State.extender_started]
    exact hs
  | complete clean => cases clean <;> exact hs.of_engine rfl rfl rfl
  | _ => exact hs.of_engine rfl rfl rfl

/-- An extender that has just been made numbers nothing but its lines. -/
theorem Made.numbered {e : Extender} (h : Made e) : e.Numbered := by
  rcases h.eq_fresh with ⟨family, address, wired, rfl⟩ | ⟨wired, rfl⟩
  all_goals exact ⟨Claims.proper_new _ _, Lines.placed_ofPredicate _, Lines.placed_ofPredicate _, Nat.zero_le _⟩

/-- What the memory numbers is within its bounds at every moment of every session. -/
theorem Reachable.numbered {s : State} (h : Reachable s) {e : Extender} (he : e = s.extender ∨ ∃ n, .noted n e ∈ s.history) :
    e.Numbered :=
  h.at_notes (fun _ hm => hm.numbered) (fun _ _ hm hs => hm.numbered hs) (fun _ _ hs => hs.of_engine rfl rfl rfl) he

/-! ## Bounds at every moment -/

/-- All that the memory of an extender numbers is within its bounds: claimed pins, pins with handlers and all pins of groups with
claimed pins are among the pins of the engine; lines have places; the chips in the queue, of which there are not too many, and those
that are polled are among the chips of the queued engine; and failures are counted up to the limit. -/
structure Extender.InBounds (e : Extender) : Prop where
  capacity : e.claims.capacity = e.engine.capacity
  claimed : ∀ pin, e.claims.claimed.get pin = true → pin < e.claims.capacity
  handled : ∀ pin, (e.handlers pin).isSome = true → pin < e.claims.capacity
  served : ∀ g, e.claims.groups.getLsbD g = true → ∀ bit < 8, 8 * g + bit < e.claims.capacity
  lines : ∀ line, e.lines.has line = true → line < maxLines
  wired : ∀ q, e.engine = .queued q → ∀ line, q.wired.has line = true → line < maxLines
  room : ∀ q, e.engine = .queued q → q.queue.length ≤ queueDepth
  queue : ∀ q, e.engine = .queued q → ∀ chip ∈ q.queue, chip < queuedChips
  polled : ∀ q, e.engine = .queued q → ∀ chip, q.polled.getLsbD chip = true → chip < queuedChips
  failures : e.backoff.count ≤ maxErrorCount

/-- An engine has all pins of a group or none. -/
theorem Engine.lt_capacity {engine : Engine} {pin g bit : Nat} (hg : pin / 8 = g) (hp : pin < engine.capacity) (hb : bit < 8) :
    8 * g + bit < engine.capacity := by
  have h8 : ∃ k, engine.capacity = 8 * k := by
    cases engine with
    | generic => exact ⟨8, rfl⟩
    | queued => exact ⟨4, rfl⟩
  omega

/-- All that the memory numbers, told by the numbers, is within its bounds. -/
theorem Reachable.inBounds {s : State} (h : Reachable s) {e : Extender} (he : e = s.extender ∨ ∃ n, .noted n e ∈ s.history) :
    e.InBounds := by
  have hnumbered := h.numbered he
  have hcapacity := h.capacity he
  obtain ⟨hsound, htended⟩ := h.tended he
  have hwiring {q : ChipQueue} (hq : e.engine = .queued q) : e.wiring = q.wired := by rw [Extender.wiring, hq]
  have hqueue {q : ChipQueue} (hq : e.engine = .queued q) : e.queue = q.queue := by rw [Extender.queue, hq]
  refine ⟨hcapacity, hnumbered.claims, fun pin hp => ?_, fun g hg bit hb => ?_, hnumbered.lines, fun q hq => ?_, fun q hq => ?_,
    fun q _ => q.served, fun q hq chip hc => ((hsound.polled_iff hq).1 hc).1, (h.regular he).count⟩
  · have hclaimed := htended.claimed pin hp
    rw [Claims.isClaimed, Bool.and_eq_true, decide_eq_true_eq] at hclaimed
    exact hclaimed.1
  · obtain ⟨pin, hpin, hget⟩ := PinMap.exists_get_of_groups hg
    have hlt := hnumbered.claims pin hget
    rw [hcapacity] at hlt ⊢
    exact Engine.lt_capacity hpin hlt hb
  · exact hwiring hq ▸ hnumbered.wiring
  · exact hqueue hq ▸ hnumbered.room

/-! ## Lines that are attached -/

/-- A line that has a place is added to the mask. -/
theorem Lines.attach_of_lt (l : Lines) {line : Nat} (h : line < maxLines) : l.attach line = .ok ⟨l.mask ||| BitVec.twoPow 8 line⟩ := by
  unfold attach
  rw [checkIndex_of_lt h, Byte.bit_of_lt (Nat.lt_trans h (by decide))]
  rfl

/-- Lines that have places are attached one after the other. -/
theorem Lines.attach_each (lines : List Nat) (l : Lines) (h : ∀ line ∈ lines, line < maxLines) :
    ∃ l', lines.foldlM attach l = .ok l' ∧ ∀ line, l'.has line = (l.has line || decide (line ∈ lines)) := by
  induction lines generalizing l with
  | nil => exact ⟨l, rfl, fun line => by simp⟩
  | cons first lines ih =>
    have hfirst := h first List.mem_cons_self
    obtain ⟨l', hl', hhas⟩ := ih ⟨l.mask ||| BitVec.twoPow 8 first⟩ fun line hm => h line (List.mem_cons_of_mem first hm)
    refine ⟨l', ?_, fun line => ?_⟩
    · rw [List.foldlM_cons, l.attach_of_lt hfirst]
      exact hl'
    · have hbit : (l.mask ||| BitVec.twoPow 8 first).getLsbD line = (l.mask.getLsbD line || decide (line = first)) := by
        have h8 : first < 8 := Nat.lt_trans hfirst (by decide)
        rw [BitVec.getLsbD_or, BitVec.getLsbD_twoPow, decide_eq_true h8, Bool.true_and]
        simp only [eq_comm]
      rw [hhas line]
      show ((l.mask ||| BitVec.twoPow 8 first).getLsbD line || _) = (l.mask.getLsbD line || _)
      rw [hbit]
      simp [Bool.or_assoc]

/-- An extender that is made with some lines has been given a place for each of them. -/
theorem Lines.attach_wired (wired : Nat → Bool) :
    ((List.range maxLines).filter wired).foldlM attach none = .ok (ofPredicate wired) := by
  obtain ⟨l, hl, hhas⟩ := attach_each ((List.range maxLines).filter wired) none
    fun line h => List.mem_range.1 (List.mem_of_mem_filter h)
  rw [hl]
  congr 1
  suffices hmask : l.mask = (ofPredicate wired).mask by
    cases l
    exact congrArg Lines.mk hmask
  refine BitVec.eq_of_getLsbD_eq fun line hline => ?_
  have hline' := hhas line
  change l.mask.getLsbD line = ((0#8).getLsbD line || _) at hline'
  rw [hline']
  show _ = (Byte.ofGroups _).getLsbD line
  rw [Byte.getLsbD_ofGroups, BitVec.getLsbD_zero, decide_eq_true hline]
  simp

/-! ## Numbers that come from outside -/

/-- The pin that a call names, if it names one. -/
def Call.pin? : Call → Option Nat
  | setup pin _ | write pin _ | read pin | attach pin _ | detach pin | set pin _ | get pin _ => some pin
  | flush | interrupt _ | setMany _ => none

/-- The pin that a step names, if it names one. -/
def Step.pin? : Step → Option Nat
  | claim pin | free pin => some pin
  | op (.call c) => c.pin?
  | op _ => none

/-- The answer to a step that names a pin which the extender does not have. Giving such a pin back is no error, and a handler may
also be taken away of an extender that is stopped. -/
def Step.outsideAnswer (e : Extender) (pin : Nat) : Step → Reply
  | free _ => .done
  | op (.call (.detach _)) => .error (.range pin e.claims.capacity)
  | _ => .error (if e.isStopped then .stopped else .range pin e.claims.capacity)

/-- A step but giving back a pin is refused if it names a pin that the extender does not have. -/
theorem Step.refusal?_of_outside {e : Extender} {step : Step} {pin : Nat} (hpin : step.pin? = some pin)
    (hfree : step ≠ .free pin) (hp : e.claims.capacity ≤ pin) :
    ∃ err, step.refusal? e = some err ∧ step.outsideAnswer e pin = .error err := by
  have hout : e.claims.outside? pin = some (.range pin e.claims.capacity) := if_neg (Nat.not_lt_of_le hp)
  have hstopped (o : Option Error) : e.stopped?.or ((e.claims.outside? pin).or o) =
      some (if e.isStopped then .stopped else .range pin e.claims.capacity) := by
    rw [hout, Extender.stopped?_eq]
    split <;> rfl
  have hnone := hstopped none
  rw [Option.or_none] at hnone
  cases step with
  | claim => cases hpin; exact ⟨_, hstopped _, rfl⟩
  | free => cases hpin; exact (hfree rfl).elim
  | op o =>
    cases o with
    | call c =>
      cases c with
      | setup | write | read | set | get => cases hpin; first | exact ⟨_, hstopped _, rfl⟩ | exact ⟨_, hnone, rfl⟩
      | attach pin =>
        cases hpin
        refine ⟨_, ?_, rfl⟩
        unfold refusal? Call.refusal?
        dsimp only
        rw [Option.or_assoc]
        exact hstopped _
      | detach => cases hpin; exact ⟨_, hout, rfl⟩
      | _ => cases hpin
    | _ => cases hpin

/-- Giving back a pin that the extender does not have changes nothing. -/
theorem Step.gives_free_of_outside (nest : Nest) {s : State} {pin : Nat} (hp : s.extender.claims.capacity ≤ pin) :
    ((Step.free pin).perform nest).Gives s (fun r s' => r = .done ∧ s' = s) (fun _ => False) := by
  have hfree : s.extender.claims.free pin = s.extender.claims := by rw [Claims.free, if_neg (Nat.not_lt_of_le hp)]
  show (do Client.free pin; return Reply.done : Sim Reply).Gives s _ _
  rw [Client.free_eq, gives_bind, gives_bind, gives_extender, if_neg (Nat.not_lt_of_le hp), gives_modifyExtender, gives_pure]
  exact ⟨rfl, congrArg (fun claims => s.amend ({ · with claims })) hfree⟩

/-- A step that names a pin which the extender does not have comes to its end and changes nothing. -/
theorem Step.perform_of_outside (nest : Nest) (s : State) {step : Step} {pin : Nat} (hpin : step.pin? = some pin)
    (hp : s.extender.claims.capacity ≤ pin) : step.perform nest s = (.ok (step.outsideAnswer s.extender pin), s) := by
  by_cases hfree : step = .free pin
  · subst hfree
    obtain ⟨_, _, h, rfl, rfl⟩ := (gives_free_of_outside nest hp).exists_ok
    exact h
  · obtain ⟨err, herr, hanswer⟩ := refusal?_of_outside (e := s.extender) hpin hfree hp
    have hrefuses : (step.perform nest).RefusesWith s (step.refusal? s.extender) := refusesWith nest s (by rintro targets rfl; cases hpin)
    rw [herr] at hrefuses
    rw [hanswer]
    exact hrefuses

end PortExpander
