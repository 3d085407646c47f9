import PortExpander.Proofs.Polling
import PortExpander.Proofs.Rounds
import PortExpander.Proofs.Together

/-!
# Refusals

A call that is refused has checked the same things in the same order as every other call that needs them: that the extender is not
stopped, that it has the pin, that the pin is claimed or is not, and that it has no handler. All checks come before anything is done, so
a call that is refused has done nothing. Giving several outputs their levels is a row of calls, of which those before the refused one
stay done.
-/

namespace PortExpander

open Sim Engine

/-! ## Checks -/

/-- The error of a call that needs an extender that is not stopped. -/
def Extender.stopped? (e : Extender) : Option Error :=
  if e.halted || e.status.contains Status.stop then some .stopped else none

namespace Claims

/-- The error of a call that needs the extender to have a pin. -/
def outside? (c : Claims) (pin : Nat) : Option Error := if pin < c.capacity then none else some (.range pin c.capacity)

/-- The error of a call that needs a pin to be claimed. -/
def unclaimed? (c : Claims) (pin : Nat) : Option Error := if c.claimed.get pin then none else some (.notClaimed pin)

/-- The error of a call that needs a pin to be free. -/
def taken? (c : Claims) (pin : Nat) : Option Error := if c.claimed.get pin then some (.alreadyClaimed pin) else none

end Claims

/-- The error of a call that needs a pin to have no handler. -/
def Handlers.taken? (h : Handlers) (pin : Nat) : Option Error := if (h pin).isSome then some (.duplicateInterrupt pin) else .none

/-- Why a call is refused, if it is: the first of its checks that fails. Several outputs are not among these calls. -/
def Call.refusal? (e : Extender) : Call → Option Error
  | setup pin _ => e.stopped?.or ((e.claims.outside? pin).or (e.claims.unclaimed? pin))
  | write pin _ | read pin | set pin _ | get pin _ => e.stopped?.or (e.claims.outside? pin)
  | flush => e.stopped?
  | attach pin _ => e.stopped?.or (((e.claims.outside? pin).or (e.claims.unclaimed? pin)).or (e.handlers.taken? pin))
  | detach pin => e.claims.outside? pin
  | interrupt _ | setMany _ => none

/-- Why a step is refused, if it is. -/
def Step.refusal? (e : Extender) : Step → Option Error
  | claim pin => e.stopped?.or ((e.claims.outside? pin).or (e.claims.taken? pin))
  | op (.call c) => c.refusal? e
  | _ => none

/-- The error of a result, if it is one. -/
def errorOf? {α : Type} : Except Error α → Option Error
  | .ok _ => none
  | .error e => some e

namespace Claims

/-- The check for the range refuses with the range. -/
theorem errorOf?_checkRange (c : Claims) (pin : Nat) : errorOf? (c.checkRange pin) = c.outside? pin := by
  unfold checkRange outside?
  split <;> rfl

/-- The check for a claim refuses with the range or because the pin is not claimed. -/
theorem errorOf?_checkClaimed (c : Claims) (pin : Nat) :
    errorOf? (c.checkClaimed pin) = (c.outside? pin).or (c.unclaimed? pin) := by
  unfold checkClaimed checkRange isClaimed outside? unclaimed?
  by_cases hp : pin < c.capacity
  · cases hc : c.claimed.get pin <;> simp [hp, errorOf?, bind, Except.bind]
  · simp [hp, errorOf?, bind, Except.bind]

/-- A claim is refused with the range or because the pin is claimed. -/
theorem errorOf?_claim (c : Claims) (pin : Nat) : errorOf? (c.claim pin) = (c.outside? pin).or (c.taken? pin) := by
  unfold claim checkRange isClaimed outside? taken?
  by_cases hp : pin < c.capacity
  · cases hc : c.claimed.get pin <;> simp [hp, errorOf?, bind, Except.bind]
  · simp [hp, errorOf?, bind, Except.bind]

end Claims

/-- A handler is refused where there is one. -/
theorem Handlers.errorOf?_install (h : Handlers) (pin : Nat) (handler : Handler) :
    errorOf? (h.install pin handler) = h.taken? pin := by
  unfold install taken?
  split <;> rfl

/-- A stopped extender refuses so. -/
theorem Extender.stopped?_eq (e : Extender) : e.stopped? = if e.isStopped = true then some .stopped else none := rfl

/-- An extender that is not stopped and has the pin refuses neither so. -/
theorem Extender.stopped_or_outside_eq_none {e : Extender} {pin : Nat} :
    e.stopped?.or (e.claims.outside? pin) = none ↔ e.isStopped = false ∧ pin < e.claims.capacity := by
  rw [stopped?_eq, Claims.outside?, Option.or_eq_none_iff]
  simp

/-! ## Attempts that are refused with one error -/

variable {α β : Type}

/-- The attempt is refused with the error, if there is one, and then changes nothing. If there is none, it is not refused. -/
def Attempt.Heeds (m : Attempt α) (s : State) (o : Option Error) : Prop :=
  m.Gives s (fun _ _ => o = none) (fun e s' => o = some e ∧ s' = s) (fun _ => o = none)

/-- The attempt is a check: it changes nothing in any case. -/
def Attempt.Checks (m : Attempt α) (s : State) (o : Option Error) : Prop :=
  m.Gives s (fun _ s' => o = none ∧ s' = s) (fun e s' => o = some e ∧ s' = s) (fun _ => False)

namespace Attempt

variable {s : State} {o o' : Option Error}

/-- What comes after a check is refused only if the check has not been. -/
theorem Checks.bind {g : Attempt β} {f : β → Attempt α} (hg : g.Checks s o) (hf : ∀ b, (f b).Heeds s o') :
    (g >>= f).Heeds s (o.or o') := by
  unfold Heeds
  rw [gives_bind]
  refine hg.mono (fun b s₁ h => ?_) (fun e s₁ h => ?_) fun _ h => h.elim
  · obtain ⟨rfl, rfl⟩ := h
    exact hf b
  · obtain ⟨rfl, rfl⟩ := h
    exact ⟨rfl, rfl⟩

/-- A result checks what it is the error of. -/
theorem checks_ofExcept (r : Except Error α) (s : State) : (ofExcept r : Attempt α).Checks s (errorOf? r) := by
  unfold Checks
  rw [gives_ofExcept]
  cases r with
  | ok a => exact ⟨fun _ _ => ⟨rfl, rfl⟩, nofun⟩
  | error e =>
    refine ⟨nofun, ?_⟩
    rintro _ ⟨⟩
    exact ⟨rfl, rfl⟩

/-- To ensure that the extender runs is a check. -/
theorem checks_ensureRunning (s : State) : Client.ensureRunning.Checks s s.extender.stopped? := by
  unfold Checks
  rw [Client.gives_ensureRunning, Extender.stopped?_eq]
  split <;> exact ⟨rfl, rfl⟩

/-- To look at the memory and go on by what was seen. -/
theorem heeds_extender {f : Extender → Attempt α} :
    ((liftM extender : Attempt Extender) >>= f).Heeds s o ↔ (f s.extender).Heeds s o := by
  unfold Heeds
  rw [gives_bind, gives_liftM, gives_extender]

/-- A value is never refused. -/
theorem heeds_pure (a : α) (s : State) : (Pure.pure a : Attempt α).Heeds s none := gives_pure.2 rfl

/-- What is done without asking is not refused. -/
theorem heeds_liftM (m : Sim α) (s : State) : (liftM m : Attempt α).Heeds s none :=
  gives_liftM.2 ((gives_true m s).mono (fun _ _ _ => rfl) fun _ _ => rfl)

/-- What follows on an attempt must not be refused any more. -/
theorem Heeds.bind {m : Attempt β} {f : β → Attempt α} (hm : m.Heeds s o) (hf : ∀ b s', (f b).Heeds s' none) :
    (m >>= f).Heeds s o := by
  unfold Heeds
  rw [gives_bind]
  refine hm.mono (fun b s₁ h => ?_) (fun _ _ h => h) fun _ h => h
  exact (hf b s₁).mono (fun _ _ _ => h) (fun _ _ h => nomatch h.1) fun _ _ => h

end Attempt

/-- The answer is a refusal with the error, if there is one, and then nothing has changed. If there is none, it is no refusal. -/
def Sim.RefusesWith (m : Sim Reply) (s : State) : Option Error → Prop
  | some e => m s = (.ok (.error e), s)
  | none => ∀ e s', m s ≠ (.ok (.error e), s')

namespace Sim

/-- An answer that is never an error is no refusal. -/
theorem refusesWith_none {m : Sim Reply} {s : State} (h : m.Gives s (fun r _ => ∀ e, r ≠ .error e) (fun _ => True)) :
    m.RefusesWith s none := by
  intro e s' hm
  exact h.of_ok hm e rfl

end Sim

/-- Answers that are no errors make what is heeded known. -/
theorem Attempt.Heeds.refusesWith {m : Attempt α} {s : State} {o : Option Error} (h : m.Heeds s o) (reply : α → Reply)
    (hr : ∀ a e, reply a ≠ .error e) : (Session.answering (do return reply (← m))).RefusesWith s o := by
  cases o with
  | none =>
    refine refusesWith_none (Session.gives_answering.2 ?_)
    rw [gives_bind]
    exact h.mono (fun a _ _ => hr a) (fun _ _ h => nomatch h.1) fun _ _ => trivial
  | some e =>
    have hm : m.Refuses s e := by
      unfold Heeds Gives Sim.Gives at h
      unfold Refuses
      revert h
      rcases m.run s with ⟨f | e' | a, s'⟩
      · nofun
      · rintro ⟨⟨⟩, rfl⟩
        rfl
      · nofun
    exact Session.answering_of_refuses (hm.bind _)

/-! ## Calls of clients -/

namespace Client

variable (nest : Nest) (s : State)

/-- A claim is refused if stopped, out of range or taken, in that order. -/
theorem heeds_claim (pin : Nat) :
    (claim pin).Heeds s (s.extender.stopped?.or ((s.extender.claims.outside? pin).or (s.extender.claims.taken? pin))) := by
  rw [← Claims.errorOf?_claim, claim_eq]
  refine (Attempt.checks_ensureRunning s).bind fun _ => Attempt.heeds_extender.2 ?_
  rw [← Option.or_none (o := errorOf? _)]
  exact (Attempt.checks_ofExcept _ s).bind fun _ => Attempt.heeds_liftM _ s

/-- A setup is refused if stopped, out of range or unclaimed, in that order. -/
theorem heeds_setup (pin : Nat) (attrs : PinAttributes) : (setup pin attrs).Heeds s
    (s.extender.stopped?.or ((s.extender.claims.outside? pin).or (s.extender.claims.unclaimed? pin))) := by
  rw [← Claims.errorOf?_checkClaimed, setup_eq]
  refine (Attempt.checks_ensureRunning s).bind fun _ => Attempt.heeds_extender.2 ?_
  rw [← Option.or_none (o := errorOf? _)]
  refine (Attempt.checks_ofExcept _ s).bind fun _ => ?_
  exact (Attempt.heeds_liftM _ s).bind fun _ s => (Attempt.heeds_liftM _ s).bind fun _ s => Attempt.heeds_liftM _ s

/-- A running extender gives each of its outputs the level that is written. -/
theorem gives_write (pin : Nat) (high : Bool) : (write pin high).Gives s
    (fun _ s' => s.extender.isStopped = false ∧ pin < s.extender.claims.capacity ∧
      s' = s.amend fun e => { e with shadow := e.shadow.write pin high })
    (fun err s' => s.extender.stopped?.or (s.extender.claims.outside? pin) = some err ∧ s' = s) (fun _ => False) := by
  rw [write_eq, Attempt.gives_bind, gives_ensureRunning, Extender.stopped?_eq]
  split
  · exact ⟨rfl, rfl⟩
  · have hs : s.extender.isStopped = false := Bool.eq_false_iff.2 ‹_›
    simp only [Attempt.gives_bind, Attempt.gives_liftM, Attempt.gives_ofExcept, gives_extender, gives_modifyExtender]
    unfold Claims.checkRange Claims.outside?
    by_cases hp : pin < s.extender.claims.capacity
    · simp [hp, hs]
    · simp [hp]

/-- A write is refused if stopped or out of range, in that order. -/
theorem heeds_write (pin : Nat) (high : Bool) : (write pin high).Heeds s (s.extender.stopped?.or (s.extender.claims.outside? pin)) := by
  refine (gives_write s pin high).mono (fun _ s' h => ?_) (fun _ _ h => h) fun _ h => h.elim
  exact Extender.stopped_or_outside_eq_none.2 ⟨h.1, h.2.1⟩

/-- A reading is refused if stopped or out of range, in that order. -/
theorem heeds_read (pin : Nat) : (read nest pin).Heeds s (s.extender.stopped?.or (s.extender.claims.outside? pin)) := by
  rw [← Claims.errorOf?_checkRange, read_eq]
  refine (Attempt.checks_ensureRunning s).bind fun _ => Attempt.heeds_extender.2 ?_
  rw [← Option.or_none (o := errorOf? _)]
  refine (Attempt.checks_ofExcept _ s).bind fun _ => ?_
  exact (Attempt.heeds_liftM _ s).bind fun _ s => (Attempt.heeds_liftM _ s).bind fun _ s => Attempt.heeds_pure _ s

/-- A flush is refused only if stopped. -/
theorem heeds_flush : (flush nest).Heeds s s.extender.stopped? := by
  rw [← Option.or_none (o := s.extender.stopped?)]
  refine (Attempt.checks_ensureRunning s).bind fun _ => ?_
  exact (Attempt.heeds_liftM _ s).bind fun _ s => (Attempt.heeds_liftM _ s).bind fun _ s =>
    (Attempt.heeds_liftM _ s).bind fun _ s => Attempt.heeds_liftM _ s

/-- A handler is refused if stopped, out of range, unclaimed or already there, in that order. -/
theorem heeds_attach (pin : Nat) (handler : Handler) : (attach pin handler).Heeds s (s.extender.stopped?.or
    (((s.extender.claims.outside? pin).or (s.extender.claims.unclaimed? pin)).or (s.extender.handlers.taken? pin))) := by
  rw [← Claims.errorOf?_checkClaimed, ← Handlers.errorOf?_install _ _ handler, attach_eq]
  refine (Attempt.checks_ensureRunning s).bind fun _ => Attempt.heeds_extender.2 ?_
  refine (Attempt.checks_ofExcept _ s).bind fun _ => ?_
  rw [← Option.or_none (o := errorOf? _)]
  refine (Attempt.checks_ofExcept _ s).bind fun _ => ?_
  exact (Attempt.heeds_liftM _ s).bind fun _ s => (Attempt.heeds_liftM _ s).bind fun _ s =>
    (Attempt.heeds_liftM _ s).bind fun _ s => Attempt.heeds_liftM _ s

/-- Detaching is refused only out of range. -/
theorem heeds_detach (pin : Nat) : (detach pin).Heeds s (s.extender.claims.outside? pin) := by
  rw [← Claims.errorOf?_checkRange, ← Option.or_none (o := errorOf? _), detach_eq]
  exact Attempt.heeds_extender.2 ((Attempt.checks_ofExcept _ s).bind fun _ => Attempt.heeds_liftM _ s)

/-- What runs still runs when an output has been written, so the flush after that is not refused. -/
theorem heeds_flush_of_running (hs : s.extender.isStopped = false) : (flush nest).Heeds s none := by
  have h := heeds_flush nest s
  rwa [Extender.stopped?_eq, hs] at h

/-- A write with its flush is refused as the write is. -/
theorem heeds_set (pin : Nat) (high : Bool) : (set nest pin high).Heeds s (s.extender.stopped?.or (s.extender.claims.outside? pin)) := by
  unfold set Attempt.Heeds
  rw [Attempt.gives_bind]
  refine (gives_write s pin high).mono (fun _ s₁ h => ?_) (fun _ _ h => h) fun _ h => h.elim
  obtain ⟨hs, hp, rfl⟩ := h
  rw [Extender.stopped_or_outside_eq_none.2 ⟨hs, hp⟩]
  have hs₁ : (s.amend fun e => { e with shadow := e.shadow.write pin high }).extender.isStopped = false := hs
  exact (heeds_flush_of_running nest _ hs₁).mono (fun _ _ h => h) (fun _ _ h => nomatch h.1) fun _ h => h

end Client

/-- A call but one of several outputs is refused with the first of its checks that fails. -/
theorem Call.refusesWith (nest : Nest) (s : State) {c : Call} (hc : ∀ targets, c ≠ .setMany targets) :
    (Session.perform nest (.call c)).RefusesWith s (c.refusal? s.extender) := by
  have hdone {m : Attempt Unit} {o : Option Error} (h : m.Heeds s o) :
      (Session.answering (do m; return .done)).RefusesWith s o :=
    h.refusesWith (fun _ => .done) nofun
  have hbit {m : Attempt Bool} {o : Option Error} (h : m.Heeds s o) :
      (Session.answering (do return .bit (← m))).RefusesWith s o :=
    h.refusesWith .bit nofun
  cases c with
  | setup pin attrs => exact hdone (Client.heeds_setup s pin attrs)
  | write pin high => exact hdone (Client.heeds_write s pin high)
  | read pin => exact hbit (Client.heeds_read nest s pin)
  | flush => exact hdone (Client.heeds_flush nest s)
  | attach pin handler => exact hdone (Client.heeds_attach s pin handler)
  | detach pin => exact hdone (Client.heeds_detach s pin)
  | interrupt line => exact hdone (Attempt.heeds_liftM (Client.interrupt line) s)
  | set pin high => exact hdone (Client.heeds_set nest s pin high)
  | get pin high =>
    refine hbit (m := Client.get nest pin high) ((Client.heeds_read nest s pin).bind fun _ s => Attempt.heeds_pure _ s)
  | setMany targets => exact (hc targets rfl).elim

/-! ## Several outputs -/

/-- The state after some outputs have been given their levels. -/
def State.wrote (s : State) (targets : List Target) : State := s.amend fun e => { e with shadow := e.shadow.writeAll targets }

/-- Between two states only the output bits of some pins may have changed, and the staged groups that they are in. -/
structure State.Wrote (s s' : State) (targets : List Target) : Prop where
  rest : s' = s.amend fun e => { e with
    shadow := { e.shadow with output := s'.extender.shadow.output, staged := s'.extender.shadow.staged } }
  output : ∀ pin, (∀ t ∈ targets, t.pin ≠ pin) → s'.extender.shadow.output.get pin = s.extender.shadow.output.get pin
  staged : ∀ g, (∀ t ∈ targets, t.pin / 8 ≠ g) → s'.extender.shadow.staged.getLsbD g = s.extender.shadow.staged.getLsbD g

/-- The level of a pin that is not among the targets stays. -/
theorem PinMap.get_setAll (m : PinMap) {targets : List Target} {pin : Nat} (h : ∀ t ∈ targets, t.pin ≠ pin) :
    (m.setAll targets).get pin = m.get pin := by
  induction targets generalizing m with
  | nil => rfl
  | cons t ts ih =>
    refine (ih (m.set t.pin t.high) fun t' ht' => h t' (List.mem_cons_of_mem t ht')).trans ?_
    exact m.get_set_of_ne (h t List.mem_cons_self).symm t.high

/-- A group without a target does not change. -/
theorem PinMap.getLsbD_changed (m : PinMap) {targets : List Target} {g : Nat} (h : ∀ t ∈ targets, t.pin / 8 ≠ g) :
    (m.changed targets).getLsbD g = false := by
  induction targets generalizing m with
  | nil => simp [changed]
  | cons t ts ih =>
    have hts := ih (m.set t.pin t.high) fun t' ht' => h t' (List.mem_cons_of_mem t ht')
    have ht : t.pin / 8 ≠ g := h t List.mem_cons_self
    rw [changed, BitVec.getLsbD_or, hts, Bool.or_false]
    split
    · simp [BitVec.getLsbD_twoPow, ht]
    · simp

/-- Giving the outputs their levels changes nothing but them. -/
theorem State.wrote_wrote (s : State) (targets : List Target) : s.Wrote (s.wrote targets) targets := by
  have hshadow : (s.wrote targets).extender.shadow = s.extender.shadow.writeAll targets := rfl
  refine ⟨?_, fun pin h => ?_, fun g h => ?_⟩
  · have hparts : s.extender.shadow.writeAll targets = { s.extender.shadow with
        output := (s.wrote targets).extender.shadow.output, staged := (s.wrote targets).extender.shadow.staged } := by
      rw [hshadow, Shadow.writeAll_eq]
    exact congrArg (fun shadow => s.amend ({ · with shadow })) hparts
  · rw [hshadow, Shadow.writeAll_eq]
    exact PinMap.get_setAll _ h
  · rw [hshadow, Shadow.writeAll_eq]
    show (_ ||| _ : Byte).getLsbD g = _
    rw [BitVec.getLsbD_or, PinMap.getLsbD_changed _ h, Bool.or_false]

theorem State.Wrote.refl (s : State) (targets : List Target) : s.Wrote s targets := ⟨rfl, fun _ _ => rfl, fun _ _ => rfl⟩

namespace Client

/-- A running extender gives outputs their levels up to the first one that it does not have, or whose handle does not belong
with the others. -/
theorem gives_writeEach (foreign : Bool) (targets : List Target) {s : State} (hs : s.extender.isStopped = false) :
    (writeEach foreign targets).Gives s
      (fun _ s' => (∀ t ∈ targets, t.foreign = foreign ∧ t.pin < s.extender.claims.capacity) ∧ s' = s.wrote targets)
      (fun err s' => ∃ earlier t later, targets = earlier ++ t :: later ∧ (∀ t' ∈ earlier, t'.pin < s.extender.claims.capacity) ∧
        t.foreign = foreign ∧ s.extender.claims.outside? t.pin = some err ∧ s' = s.wrote earlier)
      (fun _ => ∃ t ∈ targets, t.foreign ≠ foreign) := by
  induction targets generalizing s with
  | nil => exact ⟨fun _ h => absurd h List.not_mem_nil, rfl⟩
  | cons t ts ih =>
    unfold writeEach
    dsimp only
    by_cases hf : t.foreign = foreign
    · rw [hf, bne_self_eq_false, if_neg Bool.false_ne_true, Attempt.gives_bind]
      refine (gives_write s t.pin t.high).mono (fun _ s₁ h => ?_) (fun err s₁ h => ?_) fun _ h => h.elim
      · obtain ⟨-, hp, rfl⟩ := h
        refine (ih (s := s.wrote [t]) hs).mono (fun _ s' h => ⟨?_, h.2⟩) (fun err s' h => ?_) fun _ h => ?_
        · intro t' ht'
          rcases List.mem_cons.1 ht' with rfl | ht'
          · exact ⟨hf, hp⟩
          · exact h.1 t' ht'
        · obtain ⟨earlier, t', later, rfl, hearlier, hf', herr, rfl⟩ := h
          refine ⟨t :: earlier, t', later, rfl, fun t'' ht'' => ?_, hf', herr, rfl⟩
          rcases List.mem_cons.1 ht'' with rfl | ht''
          · exact hp
          · exact hearlier t'' ht''
        · obtain ⟨t', ht', hne⟩ := h
          exact ⟨t', List.mem_cons_of_mem t ht', hne⟩
      · obtain ⟨herr, rfl⟩ := h
        rw [Extender.stopped?_eq, hs] at herr
        exact ⟨[], t, ts, rfl, fun _ h => absurd h List.not_mem_nil, hf, herr, rfl⟩
    · rw [if_pos (bne_iff_ne.2 hf)]
      exact ⟨t, List.mem_cons_self, hf⟩

/-- What a call of the spare extender leaves behind of the state it has come to. -/
def backFrom (s s' : State) : State :=
  { s' with extender := s.extender, history := s'.history.filter (!·.isNote) ++ s.history }

/-- What a call of the spare extender gives, and what is kept of it. -/
theorem gives_onSpare {m : Attempt α} {s : State} {Q : α → State → Prop} {E : Error → State → Prop} {X : State → Prop} :
    (onSpare m).Gives s Q E X ↔ m.Gives { s with extender := spare, history := [] } (fun a s' => Q a (backFrom s s'))
      (fun e s' => E e (backFrom s s')) (fun s' => X (backFrom s s')) := by
  unfold Attempt.Gives Gives
  have hrun : (onSpare m).run s = ((m.run { s with extender := spare, history := [] }).1,
      backFrom s (m.run { s with extender := spare, history := [] }).2) := rfl
  rw [hrun]
  rcases m.run { s with extender := spare, history := [] } with ⟨_ | _ | _, s'⟩ <;> exact Iff.rfl

end Client

/-- How many pins the extender has to which a handle belongs. -/
def State.capacityOf (s : State) (t : Target) : Nat := if t.foreign then genericCapacity else s.extender.claims.capacity

/-- The call of several outputs is refused with an error at one of their handles, and leaves the state `s'`: the extender is stopped,
or it does not have the pin. Only the outputs before that one may have been given their levels. -/
def State.RefusesAt (s : State) (targets : List Target) (err : Error) (s' : State) : Prop :=
  ∃ earlier t later, targets = earlier ++ t :: later ∧ s.Wrote s' earlier ∧
    (err = .stopped ∧ s.extender.isStopped = true ∧ earlier = [] ∨
      err = .range t.pin (s.capacityOf t) ∧ s.capacityOf t ≤ t.pin ∧ ∀ t' ∈ earlier, t'.pin < s.capacityOf t)

/-- The error of a pin that is not there names the pin and the capacity. -/
theorem Claims.range_of_outside? {c : Claims} {pin : Nat} {err : Error} (h : c.outside? pin = some err) :
    err = .range pin c.capacity ∧ c.capacity ≤ pin := by
  unfold outside? at h
  split at h
  · cases h
  · cases h
    exact ⟨rfl, Nat.le_of_not_lt ‹_›⟩

namespace Client

variable (nest : Nest)

/-- Writing outputs of a running extender and flushing them is refused at an output only. -/
theorem gives_writeEach_flush (foreign : Bool) (targets : List Target) {s : State} (hs : s.extender.isStopped = false) :
    (do writeEach foreign targets
        flush nest : Attempt Unit).Gives s
      (fun _ _ => ∀ t ∈ targets, t.foreign = foreign ∧ t.pin < s.extender.claims.capacity)
      (fun err s' => ∃ earlier t later, targets = earlier ++ t :: later ∧ (∀ t' ∈ earlier, t'.pin < s.extender.claims.capacity) ∧
        t.foreign = foreign ∧ s.extender.claims.outside? t.pin = some err ∧ s' = s.wrote earlier)
      (fun _ => (∀ t ∈ targets, t.foreign = foreign ∧ t.pin < s.extender.claims.capacity) ∨ ∃ t ∈ targets, t.foreign ≠ foreign) := by
  rw [Attempt.gives_bind]
  refine (gives_writeEach foreign targets hs).mono (fun _ s₁ h => ?_) (fun _ _ h => h) fun _ h => .inr h
  obtain ⟨hall, rfl⟩ := h
  have hs₁ : (s.wrote targets).extender.isStopped = false := hs
  exact (heeds_flush_of_running nest _ hs₁).mono (fun _ _ _ => hall) (fun _ _ h => nomatch h.1) fun _ _ => .inl hall

/-- What giving several outputs their levels comes to: all of them, or those before the one that is refused. -/
theorem gives_setMany (targets : List Target) (s : State) :
    (setMany nest targets).Gives s (fun _ _ => True) (fun err s' => s.RefusesAt targets err s') (fun _ => True) := by
  cases targets with
  | nil => exact trivial
  | cons t ts =>
    have hwrites (s : State) (hs : s.extender.isStopped = false) := gives_writeEach_flush nest t.foreign (t :: ts) hs
    unfold setMany
    dsimp only
    by_cases hf : t.foreign = true
    · rw [if_pos hf]
      refine gives_onSpare.2 ((hwrites _ (isStopped_spareWith .empty)).mono (fun _ _ _ => trivial) (fun err s' h => ?_)
        fun _ _ => trivial)
      -- the handles belong to the spare extender, so this one has not been written to
      obtain ⟨earlier, t', later, hsplit, hearlier, hf', herr, rfl⟩ := h
      have hcapacity : s.capacityOf t' = spare.claims.capacity := if_pos (hf'.trans hf)
      obtain ⟨rfl, hp⟩ := Claims.range_of_outside? herr
      refine ⟨earlier, t', later, hsplit, .refl s earlier, .inr ?_⟩
      rw [hcapacity]
      exact ⟨rfl, hp, hearlier⟩
    · rw [if_neg hf]
      cases hs : s.extender.isStopped with
      | true =>
        have hrefuses := (refuses_writeEach hs (Bool.eq_false_iff.2 hf) ts).bind fun _ => flush nest
        rw [Bool.eq_false_iff.2 hf]
        unfold Attempt.Gives Gives
        rw [hrefuses]
        exact ⟨[], t, ts, rfl, .refl s [], .inl ⟨rfl, hs, rfl⟩⟩
      | false =>
        refine (hwrites s hs).mono (fun _ _ _ => trivial) (fun err s' h => ?_) fun _ _ => trivial
        obtain ⟨earlier, t', later, hsplit, hearlier, hf', herr, rfl⟩ := h
        have hcapacity : s.capacityOf t' = s.extender.claims.capacity := if_neg (by rw [hf']; exact hf)
        obtain ⟨rfl, hp⟩ := Claims.range_of_outside? herr
        refine ⟨earlier, t', later, hsplit, s.wrote_wrote earlier, .inr ?_⟩
        rw [hcapacity]
        exact ⟨rfl, hp, hearlier⟩

/-- Giving some of several outputs their levels that a running extender does not have is refused. -/
theorem gives_setMany_of_outside {targets : List Target} {s : State} (hf : ∀ t ∈ targets, t.foreign = false)
    (hs : s.extender.isStopped = false) (hout : ∃ t ∈ targets, s.extender.claims.capacity ≤ t.pin) :
    (setMany nest targets).Gives s (fun _ _ => False) (fun _ _ => True) (fun _ => False) := by
  obtain ⟨t, ht, hp⟩ := hout
  have hnot (h : ∀ t ∈ targets, t.foreign = false ∧ t.pin < s.extender.claims.capacity) : False :=
    Nat.not_lt_of_le hp (h t ht).2
  cases targets with
  | nil => exact absurd ht List.not_mem_nil
  | cons first rest =>
    have hfirst := hf first List.mem_cons_self
    unfold setMany
    dsimp only
    rw [if_neg (by rw [hfirst]; exact Bool.false_ne_true), hfirst]
    refine (gives_writeEach_flush nest false (first :: rest) hs).mono (fun _ _ h => hnot h) (fun _ _ _ => trivial) fun _ h => ?_
    rcases h with h | ⟨t', ht', hne⟩
    · exact hnot h
    · exact hne (hf t' ht')

end Client

/-! ## How many pins there are -/

/-- How many pins an engine serves. -/
def Engine.capacity : Engine → Nat
  | .generic _ => genericCapacity
  | .queued _ => queuedCapacity

/-- Engines of the same make serve as many pins. -/
theorem Extender.SameMake.capacity_engine {e e' : Extender} (h : e.SameMake e') : e'.engine.capacity = e.engine.capacity := by
  have hn := h.name
  unfold Extender.name at hn
  cases he : e.engine <;> cases he' : e'.engine
  case generic.queued =>
    rw [he, he'] at hn
    exact absurd (show "tca6408" = "i2c_extender" from hn) (by decide)
  case queued.generic =>
    rw [he, he'] at hn
    exact absurd (show "i2c_extender" = "tca6408" from hn) (by decide)
  all_goals rfl

/-- An extender has the pins of its engine. -/
theorem Reachable.capacity {s : State} (h : Reachable s) {e : Extender} (he : e = s.extender ∨ ∃ n, .noted n e ∈ s.history) :
    e.claims.capacity = e.engine.capacity := by
  refine h.at_notes (P := fun e => e.claims.capacity = e.engine.capacity) (fun e hm => ?_) (fun s s' hm hs => ?_) (fun _ _ hs => hs) he
  · rcases hm.eq_fresh with ⟨_, _, _, rfl⟩ | ⟨_, rfl⟩ <;> rfl
  · rw [hm.sameMake.capacity, hm.sameMake.capacity_engine, hs]

/-! ## Refusals are exact -/

/-- A step other than the call of several outputs is refused with the first of its checks that fails. -/
theorem Step.refusesWith (nest : Nest) (s : State) {step : Step} (hstep : ∀ targets, step ≠ .op (.call (.setMany targets))) :
    (step.perform nest).RefusesWith s (step.refusal? s.extender) := by
  have hnever {α : Type} {m : Sim α} (reply : α → Reply) (hr : ∀ a e, reply a ≠ .error e) :
      (do return reply (← m) : Sim Reply).RefusesWith s none := by
    refine Sim.refusesWith_none ?_
    rw [gives_bind]
    exact (gives_true m s).mono (fun a _ _ => hr a) fun _ _ => trivial
  cases step with
  | claim pin => exact (Client.heeds_claim s pin).refusesWith (fun _ => .done) fun _ _ => Reply.noConfusion
  | free pin => exact hnever (m := Client.free pin) (fun _ => .done) fun _ _ => Reply.noConfusion
  | op o =>
    cases o with
    | call c =>
      refine Call.refusesWith nest s fun targets hc => hstep targets ?_
      rw [hc]
    | update => exact hnever .pass fun _ _ => Reply.noConfusion
    | shutdown => exact hnever .bit fun _ _ => Reply.noConfusion
    | run ticks =>
      refine Sim.refusesWith_none ?_
      show (Session.runWorker nest ticks).Gives s _ _
      unfold Session.runWorker
      simp only [gives_bind, gives_board, gives_modifyBoard, gives_outcome]
      split <;> exact fun _ => Reply.noConfusion
    | info => exact hnever (m := extender) (fun e => .info e.info) fun _ _ => Reply.noConfusion
    | indexOf pin => exact hnever (m := pure ()) (fun _ => .index pin) fun _ _ => Reply.noConfusion
    | change c => exact hnever (m := modifyBoard (·.change c)) (fun _ => .done) fun _ _ => Reply.noConfusion
    | peek place => exact hnever (m := board) (fun b => .content (b.peek place)) fun _ _ => Reply.noConfusion
    | hook after ops => exact hnever (m := modifyBoard (·.hook after ops)) (fun _ => .done) fun _ _ => Reply.noConfusion
    | handler argument ops => exact hnever (m := modifyBoard (·.script argument ops)) (fun _ => .done) fun _ _ => Reply.noConfusion
    | panic => exact Sim.refusesWith_none trivial

namespace Session

variable {nest : Nest} {s : State} {targets : List Target}

/-- The call of several outputs is refused only at one of its handles. -/
theorem refusesAt_of_setMany {err : Error} {s' : State}
    (h : perform nest (.call (.setMany targets)) s = (.ok (.error err), s')) : s.RefusesAt targets err s' := by
  have hmany : (perform nest (.call (.setMany targets))).Gives s
      (fun r s' => ∀ err, r = .error err → s.RefusesAt targets err s') (fun _ => True) := by
    refine gives_answering.2 ?_
    unfold Call.answer
    rw [Attempt.gives_bind]
    refine (Client.gives_setMany nest targets s).mono (fun _ _ _ => nofun) (fun err s' h => ?_) fun _ h => h
    rintro _ ⟨⟩
    exact h
  exact hmany.of_ok h err rfl

/-- If the extender is stopped, the call of several outputs is refused before anything is written. -/
theorem refuses_setMany_of_stopped (hf : ∀ t ∈ targets, t.foreign = false) (hne : targets ≠ []) (hs : s.extender.isStopped = true) :
    perform nest (.call (.setMany targets)) s = (.ok (.error .stopped), s) := by
  obtain ⟨t, ts, rfl⟩ := List.exists_cons_of_ne_nil hne
  refine answering_of_refuses (Call.refuses nest ?_ hs)
  rw [Call.needsRunning, hf t List.mem_cons_self, Bool.not_false]

/-- If one of the handles is of a pin that is not there, the call of several outputs is refused. -/
theorem refuses_setMany_of_outside (hf : ∀ t ∈ targets, t.foreign = false) (hs : s.extender.isStopped = false)
    (hout : ∃ t ∈ targets, s.extender.claims.capacity ≤ t.pin) :
    ∃ err s', perform nest (.call (.setMany targets)) s = (.ok (.error err), s') := by
  have hrefused : (perform nest (.call (.setMany targets))).Gives s (fun r _ => ∃ err, r = .error err) (fun _ => False) := by
    refine gives_answering.2 ?_
    unfold Call.answer
    rw [Attempt.gives_bind]
    exact (Client.gives_setMany_of_outside nest hf hs hout).mono (fun _ _ h => h.elim) (fun err _ _ => ⟨err, rfl⟩) fun _ h => h
  obtain ⟨_, s', h, err, rfl⟩ := hrefused.exists_ok
  exact ⟨err, s', h⟩

end Session

/-- Refusals are exact, and a call that is refused has done nothing. In every state a step is refused just with the first of its checks
that fails: that the extender is not stopped, that it has the pin, of which there are 64 for the generic engine and 32 for the
queued one, that the pin is claimed or is not, and that it has no handler; nothing at all has changed then, and a step whose checks
pass is not refused. The call of several outputs is refused if and only if the extender is stopped or does not have one of the pins,
and may have given levels to the outputs before that one. -/
theorem refusals_are_exact :
    (∀ s, Reachable s → ∀ e, (e = s.extender ∨ ∃ n, .noted n e ∈ s.history) →
      e.claims.capacity = match e.engine with | .generic _ => 64 | .queued _ => 32) ∧
    ∀ (nest : Nest) (s : State),
      (∀ step : Step, (∀ targets, step ≠ .op (.call (.setMany targets))) →
        (step.perform nest).RefusesWith s (step.refusal? s.extender)) ∧
      ∀ targets,
        (∀ err s', Session.perform nest (.call (.setMany targets)) s = (.ok (.error err), s') → s.RefusesAt targets err s') ∧
        ((∀ t ∈ targets, t.foreign = false) →
          targets ≠ [] ∧ s.extender.isStopped = true ∨ (∃ t ∈ targets, s.extender.claims.capacity ≤ t.pin) →
          ∃ err s', Session.perform nest (.call (.setMany targets)) s = (.ok (.error err), s')) := by
  refine ⟨fun s hs e he => hs.capacity he, fun nest s => ⟨fun step hstep => Step.refusesWith nest s hstep, fun targets =>
    ⟨fun err s' h => Session.refusesAt_of_setMany h, fun hf hwhy => ?_⟩⟩⟩
  have hne : targets ≠ [] := by
    rcases hwhy with ⟨hne, -⟩ | ⟨t, ht, -⟩
    · exact hne
    · exact List.ne_nil_of_mem ht
  cases hs : s.extender.isStopped with
  | true => exact ⟨.stopped, s, Session.refuses_setMany_of_stopped hf hne hs⟩
  | false =>
    refine Session.refuses_setMany_of_outside hf hs (hwhy.resolve_left fun h => ?_)
    rw [hs] at h
    exact Bool.false_ne_true h.2

/-- A claimed pin is claimed again, a pin that does not exist is read, and outputs are given their levels of which the second does not
exist: the first one has got its level. -/
theorem refusals_are_exact_of_a_pin_too_far :
    let s := State.oneChip [.claim 0]
    let nest := Session.nestAt 1
    let targets : List Target := [⟨0, true, false⟩, ⟨32, true, false⟩]
    s.extender.claims.capacity = 32 ∧
    (Step.claim 0).perform nest s = (.ok (.error (.alreadyClaimed 0)), s) ∧
    Session.perform nest (.call (.read 32)) s = (.ok (.error (.range 32 32)), s) ∧
    ∃ err s', Session.perform nest (.call (.setMany targets)) s = (.ok (.error err), s') ∧ s.RefusesAt targets err s' := by
  intro s nest targets
  have hcapacity := refusals_are_exact.1 s (reachable_oneChip _) s.extender (.inl rfl)
  obtain ⟨hstep, hmany⟩ := refusals_are_exact.2 nest s
  have hclaim := hstep (.claim 0) nofun
  have hread := hstep (.op (.call (.read 32))) nofun
  rw [show Step.refusal? s.extender (.claim 0) = some (.alreadyClaimed 0) by decide +kernel] at hclaim
  rw [show Step.refusal? s.extender (.op (.call (.read 32))) = some (.range 32 32) by decide +kernel] at hread
  obtain ⟨hat, hfails⟩ := hmany targets
  obtain ⟨err, s', h⟩ := hfails (by decide) (.inr ⟨⟨32, true, false⟩, by decide, by decide +kernel⟩)
  exact ⟨hcapacity.trans (by decide +kernel), hclaim, hread, err, s', h, hat err s' h⟩

end PortExpander
