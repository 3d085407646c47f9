import PortExpander.Proofs.Composed
import PortExpander.Proofs.Dues

/-!
# Clients that do not interfere

Setting up a pin, writing it, attaching a handler to it and detaching the handler change what the memory holds of one pin, and what it
holds of several pins together does not depend on the order of such changes. So clients of different pins get the answers that they would
get in any other order of their calls, and leave the same memory behind. As nothing depends on the past but through the memory and the
board, whatever is done later shows the same.
-/

namespace PortExpander

open Sim Engine

/-! ## Changes for one pin -/

/-- What a call changes for one pin: its direction, output bit and polarity, if it gives it new ones, the output bit that is staged if it
is a new one, and the pin's handler, if it replaces it; and what it asks for. -/
structure Deed where
  direction : Option Bool := none
  output : Option Bool := none
  invert : Option Bool := none
  level : Option Bool := none
  slot : Option (Option Handler) := none
  bits : Status := ∅

/-- The map with the bit of one pin replaced, if there is another one for it. -/
def PinMap.give (m : PinMap) (pin : Nat) (value : Option Bool) : PinMap := value.elim m (m.set pin)

/-- The group of a pin, if a new bit for it is another one than it has. -/
def PinMap.turned (m : PinMap) (pin : Nat) (value : Option Bool) : Byte :=
  value.elim 0 fun value => if m.get pin != value then BitVec.twoPow 8 (pin / 8) else 0

/-- The registers with a deed done to a pin. -/
def Shadow.undergo (s : Shadow) (pin : Nat) (d : Deed) : Shadow :=
  { s with
    direction := s.direction.give pin d.direction
    output := s.output.give pin d.output
    invert := s.invert.give pin d.invert
    staged := s.staged ||| s.output.turned pin d.level }

/-- The memory with a deed done to a pin. With new handlers the engine polls what has a handler and no line. -/
def Extender.undergo (e : Extender) (pin : Nat) (d : Deed) : Extender :=
  let e := { e with shadow := e.shadow.undergo pin d, status := e.status ∪ d.bits }
  d.slot.elim e fun slot => { e with handlers := e.handlers.set pin slot }.repolled

namespace PinMap

variable (m : PinMap) {pin pin' : Nat} (h : pin ≠ pin')

include h

theorem set_comm (value value' : Bool) : (m.set pin value).set pin' value' = (m.set pin' value').set pin value := by
  by_cases hp : pin < 64
  · by_cases hp' : pin' < 64
    · refine ext_get fun i => ?_
      rw [get_set _ _ _ _ hp', get_set _ _ _ _ hp, get_set _ _ _ _ hp, get_set _ _ _ _ hp']
      by_cases hi : i = pin
      · rw [if_pos hi, if_pos hi, if_neg (hi ▸ h)]
      · rw [if_neg hi, if_neg hi]
    · rw [set_of_ge _ (Nat.le_of_not_lt hp'), set_of_ge _ (Nat.le_of_not_lt hp')]
  · rw [set_of_ge _ (Nat.le_of_not_lt hp), set_of_ge _ (Nat.le_of_not_lt hp)]

theorem give_comm (value value' : Option Bool) : (m.give pin value).give pin' value' = (m.give pin' value').give pin value := by
  cases value with
  | none => rfl
  | some value =>
    cases value' with
    | none => rfl
    | some value' => exact m.set_comm h value value'

/-- Whether the bit of a pin is another one does not depend on what another pin is given. -/
theorem turned_give (value value' : Option Bool) : (m.give pin value).turned pin' value' = m.turned pin' value' := by
  cases value with
  | none => rfl
  | some value =>
    unfold turned
    rw [show (m.give pin (some value)).get pin' = m.get pin' from m.get_set_of_ne h.symm value]

end PinMap

section

variable {pin pin' : Nat} (h : pin ≠ pin') (d d' : Deed)

include h

/-- The order in which deeds are done to two pins does not matter to the registers. -/
theorem Shadow.undergo_comm (s : Shadow) : (s.undergo pin d).undergo pin' d' = (s.undergo pin' d').undergo pin d := by
  unfold undergo
  dsimp only
  rw [PinMap.give_comm _ h, PinMap.give_comm _ h, PinMap.give_comm _ h, PinMap.turned_give _ h, PinMap.turned_give _ h.symm,
    BitVec.or_assoc, BitVec.or_assoc, BitVec.or_comm (s.output.turned pin d.level)]

theorem Handlers.set_comm (handlers : Handlers) (slot slot' : Option Handler) :
    (handlers.set pin slot).set pin' slot' = (handlers.set pin' slot').set pin slot := by
  funext i
  unfold set
  by_cases hi : i = pin
  · rw [if_pos hi, if_pos hi, if_neg (hi ▸ h)]
  · rw [if_neg hi, if_neg hi]

/-- The order in which deeds are done to two pins does not matter. -/
theorem Extender.undergo_comm (e : Extender) : (e.undergo pin d).undergo pin' d' = (e.undergo pin' d').undergo pin d := by
  obtain ⟨_, _, _, shadow, handlers, status, _, _, _, _, engine⟩ := e
  have hshadow := shadow.undergo_comm h d d'
  have hstatus := FlagSet.union_right_comm status d.bits d'.bits
  have hslots (slot slot' : Option Handler) := handlers.set_comm h slot slot'
  unfold undergo
  generalize d.slot = slot
  generalize d'.slot = slot'
  cases slot <;> cases slot' <;> cases engine <;>
    simp only [Option.elim, repolled, hasHandler, handledChips, hshadow, hstatus, hslots]

end

/-! ## Calls about one pin -/

namespace Call

/-- The pin of a call that changes the memory for one pin only, and makes no pass. -/
def ownPin? : Call → Option Nat
  | setup pin _ | write pin _ | attach pin _ | detach pin => some pin
  | _ => none

/-- What such a call does to its pin, if it is not refused. -/
def deed : Call → Deed
  | setup _ attrs =>
    { direction :=
        if attrs.contains PinAttributes.input then some true
        else if attrs.contains PinAttributes.output then some false
        else none
      output :=
        if attrs.contains PinAttributes.input then
          if attrs.contains PinAttributes.pullUp then some true
          else if attrs.contains PinAttributes.pullDown then some false
          else none
        else if attrs.contains PinAttributes.output then some (attrs.contains PinAttributes.initialOn)
        else none
      invert := some (attrs.contains PinAttributes.activeLow)
      bits := .configDirty }
  | write _ high => { output := some high, level := some high }
  | attach _ handler => { slot := some (some handler), bits := .readDirty }
  | detach _ => { slot := some none }
  | _ => {}

/-- What a call about one pin comes to: its answer, and the memory after it. -/
def outcome (c : Call) (e : Extender) : Reply × Extender :=
  match c.refusal? e with
  | some err => (.error err, e)
  | none => (.done, c.ownPin?.elim e fun pin => e.undergo pin c.deed)

end Call

namespace Shadow

/-- A deed that does nothing to the registers. -/
theorem undergo_idle (s : Shadow) (pin : Nat) (slot : Option (Option Handler)) (bits : Status) :
    s.undergo pin { slot, bits } = s := by
  show { s with staged := s.staged ||| 0 } = s
  rw [BitVec.ofNat_eq_ofNat, BitVec.or_zero]

/-- A setup is what its deed does to the registers. -/
theorem setup_eq_undergo (s : Shadow) (pin : Nat) (attrs : PinAttributes) :
    s.setup pin attrs = s.undergo pin (Call.setup pin attrs).deed := by
  have hstaged : s.staged ||| s.output.turned pin (Call.setup pin attrs).deed.level = s.staged := BitVec.or_zero
  unfold undergo
  rw [hstaged]
  unfold setup Call.deed
  dsimp only
  split
  · split
    · rfl
    · split <;> rfl
  · split <;> rfl

/-- A write is what its deed does to the registers. -/
theorem write_eq_undergo (s : Shadow) (pin : Nat) (high : Bool) : s.write pin high = s.undergo pin (Call.write pin high).deed := by
  show _ = { s with
    output := s.output.set pin high
    staged := s.staged ||| if s.output.get pin != high then BitVec.twoPow 8 (pin / 8) else 0 }
  unfold write PinMap.assign
  dsimp only
  split
  · rfl
  · rw [BitVec.ofNat_eq_ofNat, BitVec.or_zero]

end Shadow

namespace Extender

variable (e : Extender) (pin : Nat)

/-- A deed changes the registers, the handlers, the status word and what the engine polls. -/
theorem steady_undergo (d : Deed) : Steady e (e.undergo pin d) := by
  unfold undergo
  have hrequest : Steady e { e with shadow := e.shadow.undergo pin d, status := e.status ∪ d.bits } :=
    ⟨rfl, rfl, rfl, rfl, rfl, rfl, fun _ => rfl, fun _ h => FlagSet.contains_union_left _ h⟩
  cases d.slot with
  | none => exact hrequest
  | some slot => exact hrequest.trans (Steady.repolled _ _)

/-- A deed leaves the handlers of other pins. -/
theorem handlers_undergo_of_ne {pin' : Nat} (h : pin' ≠ pin) (d : Deed) : (e.undergo pin d).handlers pin' = e.handlers pin' := by
  unfold undergo
  cases d.slot with
  | none => rfl
  | some slot => exact (congrFun (Extender.handlers_repolled _) pin').trans (if_neg h)

/-- A deed asks for what it asks for. -/
theorem status_undergo (d : Deed) : (e.undergo pin d).status = e.status ∪ d.bits := by
  unfold undergo
  cases d.slot with
  | none => rfl
  | some slot => exact Extender.status_repolled _

/-- A write is what its deed does to the memory. -/
theorem undergo_write (high : Bool) :
    e.undergo pin (Call.write pin high).deed = { e with shadow := e.shadow.write pin high } := by
  rw [Shadow.write_eq_undergo]
  show { e with shadow := _, status := e.status ∪ ∅ } = _
  rw [FlagSet.union_empty]

/-- An attachment is what its deed does to the memory. -/
theorem undergo_attach (handler : Handler) : e.undergo pin (Call.attach pin handler).deed =
    { e with handlers := e.handlers.set pin (some handler) }.repolled.request .readDirty := by
  unfold undergo
  rw [show e.shadow.undergo pin (Call.attach pin handler).deed = e.shadow from e.shadow.undergo_idle pin _ _]
  unfold repolled
  cases e.engine <;> rfl

/-- A detachment is what its deed does to the memory. -/
theorem undergo_detach : e.undergo pin (Call.detach pin).deed = { e with handlers := e.handlers.remove pin }.repolled := by
  unfold undergo
  rw [show e.shadow.undergo pin (Call.detach pin).deed = e.shadow from e.shadow.undergo_idle pin _ _,
    show e.status ∪ (Call.detach pin).deed.bits = e.status from FlagSet.union_empty _]
  rfl

end Extender

namespace Call

variable {c : Call} {pin : Nat}

/-- A call about one pin that is not refused does its deed, and leaves the board as it is. -/
theorem gives_answer_of_own (hc : c.ownPin? = some pin) (nest : Nest) (s : State) : (c.answer nest).Gives s
    (fun r s' => r = .done ∧ s'.extender = s.extender.undergo pin c.deed ∧ s'.board = s.board) (fun _ _ => True) (fun _ => False) := by
  unfold answer
  cases c with
  | setup pin' attrs =>
    cases hc
    simp only [Client.setup_eq, Attempt.gives_bind, Client.gives_ensureRunning, Attempt.gives_liftM, Attempt.gives_ofExcept, gives_extender,
      gives_modifyExtender, gives_request, gives_notify, Attempt.gives_pure]
    split
    · trivial
    · refine ⟨fun _ _ => ⟨trivial, ?_, rfl⟩, fun _ _ => trivial⟩
      show { s.extender with shadow := s.extender.shadow.setup pin attrs }.request .configDirty = _
      rw [Shadow.setup_eq_undergo]
      rfl
  | write pin' high =>
    cases hc
    rw [Attempt.gives_bind]
    refine (Client.gives_write s pin high).mono (fun _ s' h => ⟨rfl, ?_⟩) (fun _ _ _ => trivial) fun _ h => h
    rw [h.2.2, Extender.undergo_write]
    exact ⟨rfl, rfl⟩
  | attach pin' handler =>
    cases hc
    simp only [Client.attach_eq, Attempt.gives_bind, Client.gives_ensureRunning, Attempt.gives_liftM, Attempt.gives_ofExcept, gives_extender,
      gives_modifyExtender, gives_request, gives_notify, Attempt.gives_pure]
    split
    · trivial
    · refine ⟨fun _ _ => ⟨fun handlers hi => ?_, fun _ _ => trivial⟩, fun _ _ => trivial⟩
      -- the table that is installed is the one with the handler in it; what remains is the polling
      obtain rfl : s.extender.handlers.set pin (some handler) = handlers := by
        unfold Handlers.install at hi
        split at hi <;> cases hi
        rfl
      refine (Client.gives_updatePolling (s.amend fun e => { e with handlers := _ })).mono
        (fun _ s' h => ⟨trivial, ?_, h.2.2⟩) fun _ h => h
      rw [Extender.undergo_attach]
      exact congrArg (Extender.request · .readDirty) h.2.1
  | detach pin' =>
    cases hc
    simp only [Client.detach_eq, Client.removeHandler, Attempt.gives_bind, Attempt.gives_liftM, Attempt.gives_ofExcept, gives_extender, gives_bind,
      gives_modifyExtender, Attempt.gives_pure]
    refine ⟨fun _ _ => ?_, fun _ _ => trivial⟩
    refine (Client.gives_updatePolling (s.amend fun e => { e with handlers := _ })).mono
      (fun _ s' h => ⟨trivial, ?_, h.2.2⟩) fun _ h => h
    rw [Extender.undergo_detach]
    exact h.2.1
  | _ => cases hc

/-- A call about one pin that is refused changes nothing, and any other does its deed. -/
theorem perform_of_own (hc : c.ownPin? = some pin) (nest : Nest) (s : State) : (Session.perform nest (.call c)).Gives s
    (fun r s' => (r, s'.extender) = c.outcome s.extender ∧ s'.board = s.board) (fun _ => False) := by
  have hmany : ∀ targets, c ≠ .setMany targets := by
    rintro _ rfl
    cases hc
  have hrefusal := Call.refusesWith nest s hmany
  unfold outcome
  rw [hc]
  cases herr : c.refusal? s.extender with
  | some err =>
    rw [herr] at hrefusal
    unfold Gives
    rw [show Session.perform nest (.call c) s = (.ok (.error err), s) from hrefusal]
    exact ⟨rfl, rfl⟩
  | none =>
    rw [herr] at hrefusal
    have hgives : (Session.perform nest (.call c)).Gives s (fun r s' => (∃ err, r = .error err) ∨
        r = .done ∧ s'.extender = s.extender.undergo pin c.deed ∧ s'.board = s.board) (fun _ => False) :=
      Session.gives_answering.2 <|
        (gives_answer_of_own hc nest s).mono (fun _ _ h => .inr h) (fun err _ _ => .inl ⟨err, rfl⟩) fun _ h => h
    obtain ⟨r, s', hrun, h⟩ := hgives.exists_ok
    unfold Gives
    rw [hrun]
    rcases h with ⟨err, rfl⟩ | ⟨rfl, hmemory, hboard⟩
    · exact (hrefusal err s' hrun).elim
    · exact ⟨congrArg (Prod.mk _) hmemory, hboard⟩

/-- A step that makes a call about one pin. -/
theorem step_of_own (hc : c.ownPin? = some pin) (nest : Nest) (s : State) : ∃ past, s.step nest (.op (.call c)) =
    ((c.outcome s.extender).1, ⟨(c.outcome s.extender).2, { s.board with agenda := none }, past⟩) := by
  obtain ⟨r, s', hrun, heq, hboard⟩ := (perform_of_own hc nest (s.noting (.stepBegan (.op (.call c))))).exists_ok
  refine ⟨.noted (.stepEnded (.op (.call c)) r) s'.extender :: s'.history, ?_⟩
  have hperform : (Step.op (.call c)).perform nest (s.noting (.stepBegan (.op (.call c)))) = (.ok r, s') := hrun
  have hmemory : (r, s'.extender) = c.outcome s.extender := heq
  have hkept : s'.board = s.board := hboard
  unfold State.step
  rw [hperform, ← hmemory, ← hkept]
  rfl

/-- No call about one pin asks for a stop. -/
theorem deed_asks_no_stop (c : Call) : c.deed.bits.contains Status.stop = false := by
  cases c with
  | setup => exact (by decide : Status.configDirty.contains Status.stop = false)
  | attach => exact (by decide : Status.readDirty.contains Status.stop = false)
  | _ => exact (by decide : (∅ : Status).contains Status.stop = false)

/-- What is done to one pin does not make a call about another pin be refused, or not be refused. -/
theorem refusal?_undergo (hc : c.ownPin? = some pin) {pin' : Nat} (h : pin ≠ pin') (d : Deed)
    (hd : d.bits.contains Status.stop = false) (e : Extender) : c.refusal? (e.undergo pin' d) = c.refusal? e := by
  have hsteady := e.steady_undergo pin' d
  have hstop : (e.status ∪ d.bits).contains Status.stop = e.status.contains Status.stop :=
    FlagSet.contains_union_other e.status (by decide) hd
  have hstopped : (e.undergo pin' d).stopped? = e.stopped? := by
    unfold Extender.stopped?
    rw [hsteady.halted, Extender.status_undergo, hstop]
  have htaken : (e.undergo pin' d).handlers.taken? pin = e.handlers.taken? pin := by
    unfold Handlers.taken?
    rw [e.handlers_undergo_of_ne pin' h]
  cases c <;> cases hc <;> simp only [refusal?, hstopped, hsteady.claims, htaken]

/-- The order of two calls matters neither to their answers nor to the memory after both. -/
structure Exchanges (c c' : Call) : Prop where
  first (e : Extender) : (c.outcome (c'.outcome e).2).1 = (c.outcome e).1
  second (e : Extender) : (c'.outcome (c.outcome e).2).1 = (c'.outcome e).1
  memory (e : Extender) : (c.outcome (c'.outcome e).2).2 = (c'.outcome (c.outcome e).2).2

/-- Calls for different pins may be made in any order. -/
theorem exchanges_of_own {c' : Call} {pin' : Nat} (hc : c.ownPin? = some pin) (hc' : c'.ownPin? = some pin') (h : pin ≠ pin') :
    c.Exchanges c' := by
  have hafter (e : Extender) := refusal?_undergo hc h c'.deed c'.deed_asks_no_stop e
  have hafter' (e : Extender) := refusal?_undergo hc' h.symm c.deed c.deed_asks_no_stop e
  constructor <;> intro e <;> unfold outcome <;> rw [hc, hc'] <;> cases hr : c.refusal? e <;> cases hr' : c'.refusal? e <;>
    simp only [Option.elim, hr, hr', hafter, hafter']
  exact e.undergo_comm h.symm c'.deed c.deed

end Call

/-! ## Interleavings -/

section

variable {ι : Type} [DecidableEq ι]

section

variable {l l' : List (ι × Call)} (hsame : ∀ i, l.filter (·.1 = i) = l'.filter (·.1 = i))

include hsame

/-- Two lists in which each client makes the same calls have the same members. -/
theorem mem_of_interleaved {x : ι × Call} (h : x ∈ l') : x ∈ l :=
  (List.mem_filter.1 (hsame x.1 ▸ List.mem_filter.2 ⟨h, decide_eq_true rfl⟩)).1

/-- Only the empty row is an interleaving of nothing. -/
theorem eq_nil_of_interleaved (h : l = []) : l' = [] :=
  List.eq_nil_iff_forall_not_mem.2 fun _ hx => List.not_mem_nil (h ▸ mem_of_interleaved hsame hx)

end

/-- The answers to calls that are made one after the other, each with its client, and the memory after them. -/
def Extender.serve (e : Extender) : List (ι × Call) → List (ι × Reply) × Extender
  | [] => ([], e)
  | (i, c) :: l => ((i, (c.outcome e).1) :: ((c.outcome e).2.serve l).1, ((c.outcome e).2.serve l).2)

/-- Each client has got the same answers, and the memory is the same. -/
def SameServed (a b : List (ι × Reply) × Extender) : Prop :=
  (∀ i, a.1.filter (·.1 = i) = b.1.filter (·.1 = i)) ∧ a.2 = b.2

theorem SameServed.cons {a b : List (ι × Reply) × Extender} (h : SameServed a b) (x : ι × Reply) :
    SameServed (x :: a.1, a.2) (x :: b.1, b.2) :=
  ⟨fun i => by rw [List.filter_cons, List.filter_cons, h.1 i], h.2⟩

namespace Extender

/-- A call can be made before calls of other clients that it is exchanged with. -/
theorem serve_front {i : ι} {c : Call} {before : List (ι × Call)} (after : List (ι × Call)) (hother : ∀ x ∈ before, x.1 ≠ i)
    (hx : ∀ x ∈ before, c.Exchanges x.2) (e : Extender) :
    SameServed (e.serve (before ++ (i, c) :: after)) (e.serve ((i, c) :: (before ++ after))) := by
  induction before generalizing e with
  | nil => exact ⟨fun _ => rfl, rfl⟩
  | cons x before ih =>
    obtain ⟨j, d⟩ := x
    have hij : j ≠ i := hother (j, d) List.mem_cons_self
    have hcd : c.Exchanges d := hx (j, d) List.mem_cons_self
    have hlater := (ih (fun x h => hother x (List.mem_cons_of_mem _ h)) (fun x h => hx x (List.mem_cons_of_mem _ h))
      (d.outcome e).2).cons (j, (d.outcome e).1)
    refine ⟨fun k => (hlater.1 k).trans ?_, hlater.2.trans ?_⟩
    · simp only [List.cons_append, serve, hcd.first, hcd.second, hcd.memory, List.filter_cons, decide_eq_true_eq]
      by_cases hj : j = k
      · rw [if_pos hj, if_neg (fun h => hij (hj.trans h.symm)), if_neg (fun h => hij (hj.trans h.symm)), if_pos hj]
      · rw [if_neg hj, if_neg hj]
    · simp only [List.cons_append, serve, hcd.memory]

/-- Calls of several clients, each of whom makes the same calls in the same order, come to the same if calls of different clients can be
exchanged. -/
theorem serve_interleaved {l l' : List (ι × Call)} (hsame : ∀ i, l.filter (·.1 = i) = l'.filter (·.1 = i))
    (hx : ∀ x ∈ l, ∀ y ∈ l, x.1 ≠ y.1 → x.2.Exchanges y.2) (e : Extender) : SameServed (e.serve l) (e.serve l') := by
  induction l generalizing l' e with
  | nil =>
    obtain rfl := eq_nil_of_interleaved hsame rfl
    exact ⟨fun _ => rfl, rfl⟩
  | cons x l ih =>
    obtain ⟨i, c⟩ := x
    have hfirst := hsame i
    rw [List.filter_cons, if_pos (by simp)] at hfirst
    obtain ⟨before, after, rfl, hbefore, -, hafter⟩ := List.filter_eq_cons_iff.1 hfirst.symm
    have hother : ∀ x ∈ before, x.1 ≠ i := fun x h => by simpa using hbefore x h
    have hrest (k : ι) : l.filter (·.1 = k) = (before ++ after).filter (·.1 = k) := by
      have hk := hsame k
      rw [List.filter_append, List.filter_cons, List.filter_cons] at hk
      rw [List.filter_append]
      by_cases hik : i = k
      · subst hik
        have hnone : before.filter (·.1 = i) = [] := List.filter_eq_nil_iff.2 hbefore
        rw [hnone, hafter]
        rfl
      · rwa [if_neg (by simpa using hik), if_neg (by simpa using hik)] at hk
    have hfront := serve_front after hother (fun x h => hx (i, c) List.mem_cons_self x
      (mem_of_interleaved hsame (List.mem_append_left _ h)) (hother x h).symm) e
    have hlater := (ih hrest (fun x h y h' => hx x (List.mem_cons_of_mem _ h) y (List.mem_cons_of_mem _ h'))
      (c.outcome e).2).cons (i, (c.outcome e).1)
    exact ⟨fun k => (hlater.1 k).trans (hfront.1 k).symm, hlater.2.trans hfront.2.symm⟩

end Extender

/-- The steps that make the calls of several clients, one after the other. -/
def stepsOf (l : List (ι × Call)) : List Step := l.map fun x => .op (.call x.2)

/-- The answers that one of several clients gets to its calls. -/
def State.answersTo (s : State) (nest : Nest) (l : List (ι × Call)) (i : ι) : List Reply :=
  (((l.map (·.1)).zip ((s.play nest (stepsOf l)).1.map (·.reply))).filter (·.1 = i)).map (·.2)

omit [DecidableEq ι] in
/-- What steps that make calls about single pins come to. -/
theorem State.play_stepsOf (nest : Nest) {l : List (ι × Call)} (hown : ∀ x ∈ l, x.2.ownPin?.isSome = true) (s : State) :
    (l.map (·.1)).zip ((s.play nest (stepsOf l)).1.map (·.reply)) = (s.extender.serve l).1 ∧
      ∃ past, (s.play nest (stepsOf l)).2 =
        ⟨(s.extender.serve l).2, if l.isEmpty then s.board else { s.board with agenda := none }, past⟩ := by
  induction l generalizing s with
  | nil => exact ⟨rfl, s.history, rfl⟩
  | cons x l ih =>
    obtain ⟨i, c⟩ := x
    obtain ⟨pin, hpin⟩ := Option.isSome_iff_exists.1 (hown (i, c) List.mem_cons_self)
    obtain ⟨past, hstep⟩ := Call.step_of_own hpin nest s
    obtain ⟨hreplies, past', hlast⟩ := ih (fun x h => hown x (List.mem_cons_of_mem _ h))
      ⟨(c.outcome s.extender).2, { s.board with agenda := none }, past⟩
    have hcons : stepsOf ((i, c) :: l) = .op (.call c) :: stepsOf l := rfl
    simp only [hcons, State.play, hstep]
    refine ⟨congrArg (_ :: ·) hreplies, past', hlast.trans ?_⟩
    cases l <;> rfl

/-- Clients on different pins do not interfere. Let clients set up and write pins, and attach handlers to them and detach them, no pin
being in calls of two clients; the calls of each client come in the same order in two interleavings. Then each client gets the same
answers in both, refusals included, the memory and the board are the same after both, and so is all that is shown by whatever steps are
played after them. -/
theorem clients_do_not_interfere (s : State) (depth : Nat) {l l' : List (ι × Call)}
    (hsame : ∀ i, l.filter (·.1 = i) = l'.filter (·.1 = i)) (hown : ∀ x ∈ l, x.2.ownPin?.isSome = true)
    (hapart : ∀ x ∈ l, ∀ y ∈ l, x.1 ≠ y.1 → x.2.ownPin? ≠ y.2.ownPin?) :
    let t := (s.play (Session.nestAt depth) (stepsOf l)).2
    let t' := (s.play (Session.nestAt depth) (stepsOf l')).2
    (∀ i, s.answersTo (Session.nestAt depth) l i = s.answersTo (Session.nestAt depth) l' i) ∧
      t.extender = t'.extender ∧ t.board = t'.board ∧
      ∀ depth' steps, (t.play (Session.nestAt depth') steps).1 = (t'.play (Session.nestAt depth') steps).1 := by
  intro t t'
  have hexchange : ∀ x ∈ l, ∀ y ∈ l, x.1 ≠ y.1 → x.2.Exchanges y.2 := fun x hx y hy hne => by
    obtain ⟨pin, hpin⟩ := Option.isSome_iff_exists.1 (hown x hx)
    obtain ⟨pin', hpin'⟩ := Option.isSome_iff_exists.1 (hown y hy)
    exact Call.exchanges_of_own hpin hpin' fun heq => hapart x hx y hy hne (by rw [hpin, hpin', heq])
  obtain ⟨hserved, hmemory⟩ := s.extender.serve_interleaved hsame hexchange
  obtain ⟨hreplies, past, hlast⟩ := s.play_stepsOf (Session.nestAt depth) hown
  obtain ⟨hreplies', past', hlast'⟩ := s.play_stepsOf (Session.nestAt depth) fun x hx => hown x (mem_of_interleaved hsame hx)
  have hempty : l.isEmpty = l'.isEmpty := by
    rw [Bool.eq_iff_iff, List.isEmpty_iff, List.isEmpty_iff]
    exact ⟨eq_nil_of_interleaved hsame, eq_nil_of_interleaved fun i => (hsame i).symm⟩
  rw [← hempty, ← hmemory] at hlast'
  generalize (s.extender.serve l).2 = e at hlast hlast'
  generalize (if l.isEmpty then s.board else { s.board with agenda := none }) = board at hlast hlast'
  have ht : t = ⟨e, board, past⟩ := hlast
  have ht' : t' = ⟨e, board, past'⟩ := hlast'
  rw [ht, ht']
  refine ⟨fun i => ?_, rfl, rfl, fun depth' steps => ?_⟩
  · unfold State.answersTo
    rw [hreplies, hreplies', hserved i]
  · have hplay (past : History) := congrArg Prod.fst (State.play_after ⟨e, board, []⟩ depth' steps past)
    exact (hplay past).trans (hplay past').symm

end

/-- Two clients of one chip: the one sets up a pin and attaches a handler twice, the other writes its pin and one that the extender does
not have. Made in two orders the calls have the same answers, and the session goes on in the same way. -/
theorem clients_do_not_interfere_of_one_chip :
    let s := State.oneChip [.claim 0, .claim 1]
    let setup : Bool × Call := (true, .setup 0 PinAttributes.input)
    let attach : Bool × Call := (true, .attach 0 ⟨0, 7, .change⟩)
    let write : Bool × Call := (false, .write 1 true)
    let stray : Bool × Call := (false, .write 40 true)
    let l := [setup, attach, attach, write, stray]
    let l' := [write, setup, stray, attach, attach]
    let t := (s.play (Session.nestAt 1) (stepsOf l)).2
    let t' := (s.play (Session.nestAt 1) (stepsOf l')).2
    s.answersTo (Session.nestAt 1) l true = [.done, .done, .error (.duplicateInterrupt 0)] ∧
    s.answersTo (Session.nestAt 1) l' true = [.done, .done, .error (.duplicateInterrupt 0)] ∧
    s.answersTo (Session.nestAt 1) l' false = [.done, .error (.range 40 32)] ∧
    t.extender = t'.extender ∧ t.extender.shadow.staged = 1 ∧
    (t.play (Session.nestAt 1) [.op .update]).1 = (t'.play (Session.nestAt 1) [.op .update]).1 := by
  intro s setup attach write stray l l' t t'
  obtain ⟨hanswers, hmemory, -, hlater⟩ := clients_do_not_interfere s 1 (show ∀ i, l.filter (·.1 = i) = l'.filter (·.1 = i) by decide)
    (by decide) (by decide)
  have hfirst : s.answersTo (Session.nestAt 1) l true = [.done, .done, .error (.duplicateInterrupt 0)] := by decide +kernel
  have hsecond : s.answersTo (Session.nestAt 1) l false = [.done, .error (.range 40 32)] := by decide +kernel
  exact ⟨hfirst, (hanswers true).symm.trans hfirst, (hanswers false).symm.trans hsecond, hmemory, by decide +kernel, hlater 1 _⟩

end PortExpander
