import PortExpander.Proofs.Interrupts

/-!
# Polling

What an engine reads in every pass is a summary of the handlers, kept beside them: the generic engine polls if it has no line and
any pin has a handler, the queued engine polls the chips that have no line and a pin with a handler. Attaching, detaching and
giving back a pin each bring the summary up to date, and only claimed pins have handlers. So while a handler waits for changes
that no line reports, no update finds nothing to do, and every pass reads the handler's group.
-/

namespace PortExpander

open Sim Engine

/-! ## Handlers and claims -/

/-- Only claimed pins have handlers, and the queued engine has the pins of its chips. -/
structure Extender.Tended (e : Extender) : Prop where
  claimed : ∀ pin, (e.handlers pin).isSome = true → e.claims.isClaimed pin = true
  capacity : e.name = "tca6408" → e.claims.capacity = queuedCapacity

namespace Extender.Tended

variable {e e' : Extender}

/-- Handlers are those of claimed pins while both stay the same. -/
theorem of_eq (h : e.Tended) (hs : e'.handlers = e.handlers) (hc : e'.claims = e.claims) (hn : e'.name = e.name) :
    e'.Tended where
  claimed pin hp := by
    rw [hs] at hp
    rw [hc]
    exact h.claimed pin hp
  capacity hname := by
    rw [hc]
    exact h.capacity (hn ▸ hname)

/-- New handlers, all of them of claimed pins. -/
theorem repolled (h : e.Tended) {handlers : Handlers}
    (hp : ∀ pin, (handlers pin).isSome = true → e.claims.isClaimed pin = true) : { e with handlers }.repolled.Tended := by
  have hs := Steady.repolled e handlers
  refine ⟨fun pin hpin => ?_, fun hname => ?_⟩
  · rw [handlers_repolled] at hpin
    rw [hs.claims]
    exact hp pin hpin
  · rw [hs.claims]
    exact h.capacity (hs.name ▸ hname)

/-- New claims, which a pin with a handler does not lose. -/
theorem reclaimed (h : e.Tended) {claims : Claims} (hc : claims.capacity = e.claims.capacity)
    (hp : ∀ pin, (e.handlers pin).isSome = true → claims.isClaimed pin = true) : { e with claims }.Tended where
  claimed := hp
  capacity hname := hc.trans (h.capacity hname)

end Extender.Tended

namespace Claims

/-- Changing the claim of one pin leaves the claims of the others. -/
theorem isClaimed_set (c : Claims) {pin pin' : Nat} (h : pin' ≠ pin) (value : Bool) :
    { c with claimed := c.claimed.set pin value }.isClaimed pin' = c.isClaimed pin' := by
  unfold isClaimed
  rw [PinMap.get_set_of_ne _ h]

/-- A claimed pin is not claimed again, so the claims of claimed pins stay when a pin is claimed. -/
theorem isClaimed_claim {c c' : Claims} {pin pin' : Nat} (h : c.claim pin = .ok c') (hp : c.isClaimed pin' = true) :
    c'.isClaimed pin' = true := by
  obtain ⟨-, hno, rfl⟩ := eq_of_claim h
  have hne : pin' ≠ pin := by
    rintro rfl
    exact Bool.false_ne_true (hno.symm.trans hp)
  rw [isClaimed_set c hne]
  exact hp

/-- To free a pin is no matter of the other pins. -/
theorem isClaimed_free (c : Claims) {pin pin' : Nat} (h : pin' ≠ pin) : (c.free pin).isClaimed pin' = c.isClaimed pin' := by
  unfold free
  split
  · exact c.isClaimed_set h false
  · rfl

end Claims

/-- A touch leaves handlers to claimed pins only. -/
theorem Touch.tended {s s' : State} (h : Touch s s') (hs : s.extender.Tended) : s'.extender.Tended := by
  have hf := h.frame
  cases h with
  | attach pin handler handlers _ hc hi =>
    refine hs.repolled fun pin' hp => ?_
    unfold Handlers.install at hi
    split at hi
    · cases hi
    · cases hi
      unfold Handlers.set at hp
      split at hp
      · rename_i heq
        exact heq ▸ Claims.isClaimed_of_checkClaimed hc
      · exact hs.claimed pin' hp
  | detach pin =>
    refine hs.repolled fun pin' hp => hs.claimed pin' ?_
    unfold Handlers.remove Handlers.set at hp
    split at hp
    · cases hp
    · exact hp
  | _ => exact hs.of_eq rfl hf.claims hf.name

/-- What happens in a pass leaves handlers to claimed pins only. -/
theorem Work.tended {s s' : State} (h : Work s s') (hs : s.extender.Tended) : s'.extender.Tended := by
  have hf := h.steady
  cases h with
  | touch h => exact h.tended hs
  | record a r => cases r <;> exact hs.of_eq rfl hf.claims hf.name
  | _ => exact hs.of_eq rfl hf.claims hf.name

/-- Every move leaves handlers to claimed pins only. -/
theorem Move.tended {s s' : State} (h : Move s s') (hs : s.extender.Tended) : s'.extender.Tended := by
  cases h with
  | touch h => exact h.tended hs
  | work _ _ h => exact h.tended hs
  | claim pin claims _ _ hc =>
    exact hs.reclaimed (Claims.capacity_claim hc) fun pin' hp => Claims.isClaimed_claim hc (hs.claimed pin' hp)
  | free pin _ hnone =>
    refine hs.reclaimed (Claims.capacity_free _ pin) fun pin' hp => ?_
    have hclaimed := hs.claimed pin' hp
    by_cases heq : pin' = pin
    · subst heq
      unfold Claims.isClaimed at hclaimed
      rw [Bool.and_eq_true, decide_eq_true_eq] at hclaimed
      rw [hnone hclaimed.1] at hp
      cases hp
    · rw [Claims.isClaimed_free _ heq]
      exact hclaimed
  | begin pending =>
    rw [State.extender_noting, State.extender_started]
    exact hs
  | complete clean => cases clean <;> exact hs.of_eq rfl rfl rfl
  | _ => exact hs.of_eq rfl rfl rfl

/-- An extender that has just been made has no handlers. -/
theorem Made.tended {e : Extender} (h : Made e) : e.Tended := by
  rcases h.eq_fresh with ⟨family, address, wired, rfl⟩ | ⟨wired, rfl⟩
  · refine ⟨nofun, fun h => ?_⟩
    change "i2c_extender" = _ at h
    exact absurd h (by decide)
  · exact ⟨nofun, fun _ => rfl⟩

/-- What is known of the memory at every moment: the engine polls what has a handler and no line, and only claimed pins have
handlers. -/
theorem Reachable.tended {s : State} (h : Reachable s) {e : Extender} (he : e = s.extender ∨ ∃ n, .noted n e ∈ s.history) :
    e.Sound ∧ e.Tended := by
  refine h.at_notes (P := fun e => e.Sound ∧ e.Tended) (fun e hm => ⟨hm.sound, hm.tended⟩)
    (fun s s' hm hs => ⟨hm.sound hs.1, hm.tended hs.2⟩) (fun s _ hs => ⟨?_, ?_⟩) he
  · exact hs.1.of_eq id rfl rfl rfl rfl
  · exact hs.2.of_eq rfl rfl rfl

/-! ## What is polled -/

/-- A line tells of the changes of a pin's input: the line of the generic engine, or that of the pin's chip. -/
def Engine.Reports : Engine → Nat → Prop
  | .generic m, _ => m.wired = true
  | .queued q, pin => q.wired.has (pin / 8) = true

instance : ∀ (engine : Engine) (pin : Nat), Decidable (engine.Reports pin)
  | .generic m, _ => inferInstanceAs (Decidable (m.wired = true))
  | .queued q, pin => inferInstanceAs (Decidable (q.wired.has (pin / 8) = true))

namespace Extender

/-- A pin is read through just if no line tells of its changes. -/
theorem readsThrough_iff {e : Extender} {pin : Nat} : e.readsThrough pin = true ↔ ¬e.engine.Reports pin := by
  unfold readsThrough
  cases e.engine <;> simp [Engine.Reports]

/-- A pin is not read through just if a line tells of its changes. -/
theorem readsThrough_eq_false_iff {e : Extender} {pin : Nat} : e.readsThrough pin = false ↔ e.engine.Reports pin := by
  rw [← Bool.not_eq_true, readsThrough_iff, Decidable.not_not]

/-- A pin has a handler, and no line tells of the changes of its input. -/
def Polls (e : Extender) (pin : Nat) : Prop := (e.handlers pin).isSome = true ∧ ¬e.engine.Reports pin

variable {e : Extender} (hs : e.Sound) (ht : e.Tended)

include hs ht

/-- The generic engine reads the inputs in every pass exactly if it has no line and some pin has a handler. -/
theorem polling_iff {m : Sampler} (he : e.engine = .generic m) :
    m.polling = true ↔ m.wired = false ∧ ∃ pin, (e.handlers pin).isSome = true := by
  rw [hs.sampler m he, hasHandler, Handlers.anyIn]
  simp only [Bool.and_eq_true, Bool.not_eq_true', List.any_eq_true, List.mem_range'_1]
  refine and_congr_right fun _ => exists_congr fun pin => and_iff_right_of_imp fun hp => ?_
  have hclaimed := ht.claimed pin hp
  unfold Claims.isClaimed at hclaimed
  rw [Bool.and_eq_true, decide_eq_true_eq] at hclaimed
  omega

/-- If a handler waits for changes that no line reports, the generic engine asks for the inputs in every pass. -/
theorem standing_of_polls {m : Sampler} (he : e.engine = .generic m) {pin : Nat} (hp : e.Polls pin) :
    e.standing = .readDirty := by
  have hwired : m.wired = false := by
    have := hp.2
    rw [he] at this
    exact Bool.eq_false_iff.2 this
  unfold standing
  rw [he]
  exact if_pos ((polling_iff hs ht he).2 ⟨hwired, pin, hp.1⟩)

/-- If a handler waits for changes that no line reports, the queued engine polls its chip. -/
theorem polled_of_polls {q : ChipQueue} (he : e.engine = .queued q) {pin : Nat} (hp : e.Polls pin) :
    q.polled.getLsbD (pin / 8) = true := by
  have hwired : q.wired.has (pin / 8) = false := by
    have := hp.2
    rw [he] at this
    exact Bool.eq_false_iff.2 this
  have hclaimed := ht.claimed pin hp.1
  unfold Claims.isClaimed at hclaimed
  rw [Bool.and_eq_true, decide_eq_true_eq, ht.capacity (name_eq_tca6408.2 ⟨q, he⟩)] at hclaimed
  have hchip : pin / 8 < queuedChips := Nat.div_lt_of_lt_mul hclaimed.1
  exact (hs.polled_iff he).2 ⟨hchip, hwired, pin, rfl, hp.1⟩

/-- An engine that has something to poll always has something to do. -/
theorem not_idle_of_polls {pin : Nat} (hp : e.Polls pin) : e.isIdleWith e.standing = false := by
  rw [Bool.eq_false_iff]
  intro hi
  unfold isIdleWith at hi
  split at hi
  · rename_i m he
    rw [standing_of_polls hs ht he hp] at hi
    exact absurd hi (by decide)
  · rename_i q he
    rw [Bool.and_eq_true, beq_iff_eq] at hi
    have hbit := polled_of_polls hs ht he hp
    rw [hi.2] at hbit
    simp at hbit

end Extender

/-- What is asked for in every pass is part of the work that a pass takes. -/
theorem State.Begins.standing {s t : State} {work : Status} {e : Extender} {older : History} (h : s.Begins t work e older)
    {f : Status} (hf : e.standing.contains f = true) : work.contains f = true := by
  rw [h.before] at hf
  rw [h.pending]
  exact FlagSet.contains_union_right _ hf

/-- A pass reads the group of every pin with a handler that waits for changes that no line reports. -/
theorem PassRecord.Stems.reads_polled {p : PassRecord} {s t t' : State} (h : p.Stems s t t') (hs : p.before.Sound)
    (ht : p.before.Tended) {pin : Nat} (hp : p.before.Polls pin) : p.before.ReadsOnce p.body (pin / 8) := by
  have hg := Claims.groups_of_isClaimed (ht.claimed pin hp.1)
  obtain ⟨plan, s₀, looked, hgather, -, -, hreads⟩ := h.gathers
  refine Extender.readsOnce hreads hg ?_
  have hlt : pin / 8 < 8 := BitVec.lt_of_getLsbD hg
  -- the generic engine finds the inputs among the requests, the queued engine finds the chip among those it polls
  have hasked (m : Sampler) (he : t.extender.engine = .generic m) : p.pending.contains Status.readDirty = true := by
    refine h.standing ?_
    rw [Extender.standing_of_polls hs ht (h.extender ▸ he) hp]
    exact FlagSet.contains_refl _
  cases hgather with
  | looked he =>
    refine (Plan.getLsbD_groups hlt).2 (.inr (.inl ?_))
    split
    · exact FlagSet.contains_union_left _ (hasked _ he)
    · exact hasked _ he
  | unlooked he => exact (Plan.getLsbD_groups hlt).2 (.inr (.inl (hasked _ he)))
  | drained he =>
    refine (Plan.getLsbD_groups hlt).2 (.inr (.inr ?_))
    rw [getLsbD_foldl_queue _ _ _ hlt, Extender.polled_of_polls hs ht (h.extender ▸ he) hp, Bool.true_or]

/-! ## Updates that find nothing to do -/

/-- An engine that has nothing to do has nothing to do in every pass. -/
theorem Extender.isIdleWith_standing {e : Extender} {pending : Status} (h : e.isIdleWith (pending ∪ e.standing) = true) :
    e.isIdleWith e.standing = true := by
  have hempty := e.isEmpty_of_isIdleWith h
  rw [FlagSet.isEmpty_union, Bool.and_eq_true] at hempty
  unfold isIdleWith at h ⊢
  split at h
  · exact hempty.2
  · rw [Bool.and_eq_true] at h ⊢
    exact ⟨hempty.2, h.2⟩

/-- An update that finds nothing to do is noted of an engine that asks for nothing in every pass. -/
theorem Happening.idles {s s' : State} (h : Happening s s') {e : Extender} (he : .noted (.updated .idle) e ∈ s'.history) :
    .noted (.updated .idle) e ∈ s.history ∨ e.isIdleWith e.standing = true := by
  have hold (new : History) (hnew : s'.history = new ++ s.history) (hidle : ∀ ev ∈ new, ev.isIdle = false) :
      .noted (.updated .idle) e ∈ s.history := by
    rw [hnew] at he
    rcases List.mem_append.1 he with hm | hm
    · cases hidle _ hm
    · exact hm
  cases h with
  | touch h =>
    obtain ⟨new, hnew, hplain⟩ := Works.history (.single (.touch h))
    exact .inl (hold _ hnew hplain.idles)
  | began | ended | claim | free => exact .inl (hold [_] rfl (by simp [Event.isIdle]))
  | cut _ h =>
    obtain ⟨s₁, _, _, hb, rfl⟩ := h
    obtain ⟨new, hnew, -, -, hidle⟩ := hb.works.unmarked
    refine .inl (hold (.noted .passCut _ :: new) (congrArg _ hnew) fun ev hm => ?_)
    rcases List.mem_cons.1 hm with rfl | hm
    · rfl
    · exact hidle ev hm
  | update p _ h =>
    obtain ⟨new, hnew, -, hidle⟩ := h.unmarked
    cases h with
    | idles _ _ hi =>
      rcases List.mem_cons.1 he with heq | hm
      · cases heq
        exact .inr (s.extender.isIdleWith_standing hi)
      · rcases List.mem_cons.1 hm with heq | hm
        · cases heq
        · exact .inl hm
    | _ => exact .inl (hold _ hnew (hidle (by decide)))

/-- Where an update has found nothing to do, nothing was asked for beyond what is read in every pass. -/
theorem Goes.idles {s₀ s : State} (h : Goes s₀ s) (h₀ : s₀.history = []) {e : Extender}
    (he : .noted (.updated .idle) e ∈ s.history) : e.isIdleWith e.standing = true := by
  induction h with
  | refl =>
    rw [h₀] at he
    cases he
  | tail _ h ih => exact (h.idles he).elim ih id

/-! ## Sessions -/

/-- Handlers and polling stay consistent at every moment of every session, whatever is nested in its passes and whichever of its
steps end in a fault. Every pin with a handler is claimed; the generic engine asks for the inputs in every pass if it has no line
and some pin has a handler, and for nothing otherwise; and the queued engine polls exactly the chips that have no line and a pin
with a handler. Hence no update finds nothing to do while a handler waits for changes that no line reports, and every pass that
is not cut short reads the group of each such handler exactly once. -/
theorem handlers_are_polled {s : State} (hs : Reachable s) :
    (∀ e, (e = s.extender ∨ ∃ n, .noted n e ∈ s.history) →
      (∀ pin, (e.handlers pin).isSome = true → e.claims.isClaimed pin = true) ∧
      (∀ m, e.engine = .generic m →
        ((m.wired = false ∧ ∃ pin, (e.handlers pin).isSome = true) → e.standing = .readDirty) ∧
        (¬(m.wired = false ∧ ∃ pin, (e.handlers pin).isSome = true) → e.standing = ∅)) ∧
      ∀ q, e.engine = .queued q → ∀ chip, q.polled.getLsbD chip = true ↔
        chip < queuedChips ∧ q.wired.has chip = false ∧ ∃ pin, pin / 8 = chip ∧ (e.handlers pin).isSome = true) ∧
    (∀ e pin, .noted (.updated .idle) e ∈ s.history → ¬e.Polls pin) ∧
    ∀ p pin, s.history.Records p → p.before.Polls pin → p.before.ReadsOnce p.body (pin / 8) := by
  obtain ⟨e₀, board, _, hgo, -⟩ := hs.goes
  refine ⟨fun e he => ?_, fun e pin hidle hp => ?_, fun p pin hp hpolls => ?_⟩
  · obtain ⟨hsound, htended⟩ := hs.tended he
    refine ⟨htended.claimed, fun m hm => ?_, fun q hq chip => hsound.polled_iff hq⟩
    unfold Extender.standing
    rw [hm, ← Extender.polling_iff hsound htended hm]
    exact ⟨fun h => if_pos h, fun h => if_neg h⟩
  · obtain ⟨hsound, htended⟩ := hs.tended (.inr ⟨_, hidle⟩)
    have hno := Extender.not_idle_of_polls hsound htended hp
    rw [hgo.idles rfl hidle] at hno
    cases hno
  · obtain ⟨s₁, t, t', _, hst⟩ := hgo.exists_stems rfl hp
    have hbegan : .noted (.passBegan p.pending) p.before ∈ s.history := by
      obtain ⟨⟨later, hh⟩, -⟩ := hp
      simp [hh]
    obtain ⟨hsound, htended⟩ := hs.tended (.inr ⟨_, hbegan⟩)
    exact hst.reads_polled hsound htended hpolls

/-- Two pins of a chip without a line have handlers, one of which detaches the other in a pass: the chip is polled before and
after that, and the pass reads it once. -/
theorem handlers_are_polled_of_a_detaching_handler :
    let s := State.oneChip [.claim 0, .claim 1, .op (.call (.attach 0 ⟨3, 7, .change⟩)),
      .op (.call (.attach 1 ⟨3, 8, .change⟩)), .op .update, .op (.handler 7 [.call (.detach 1)]),
      .op (.change (.poke ⟨0x20, 0⟩ 1)), .op .update]
    (∃ q, s.extender.engine = .queued q ∧ s.extender.handlers 1 = none ∧ s.extender.claims.isClaimed 0 = true ∧
      q.polled.getLsbD 0 = true) ∧
    ∃ p, s.history.Records p ∧ p.body.calls = [(0, ⟨3, 7, .change⟩)] ∧ p.before.ReadsOnce p.body 0 := by
  intro s
  have hr : Reachable s := reachable_oneChip _
  have hk : ((s.extender.handlers 0).isSome && s.extender.handlers 1 == none &&
      (match s.extender.engine with | .queued q => !q.wired.has 0 | .generic _ => false)) = true := by decide +kernel
  simp only [Bool.and_eq_true, beq_iff_eq] at hk
  obtain ⟨⟨hsome, hnone⟩, hwired⟩ := hk
  obtain ⟨hnow, -, hpass⟩ := handlers_are_polled hr
  obtain ⟨hclaimed, -, hpolled⟩ := hnow s.extender (.inl rfl)
  constructor
  · split at hwired
    · rename_i q he
      rw [Bool.not_eq_true'] at hwired
      exact ⟨q, he, hnone, hclaimed 0 hsome, (hpolled q he 0).2 ⟨by decide, hwired, 0, rfl, hsome⟩⟩
    · cases hwired
  · have hk : ((s.history.pass? 2).any fun p => (p.before.handlers 0).isSome && decide (¬p.before.engine.Reports 0) &&
        p.body.calls == [(0, ⟨3, 7, .change⟩)]) = true := by decide +kernel
    obtain ⟨p, hp, hq⟩ := (Option.any_eq_true _ _).1 hk
    simp only [Bool.and_eq_true, beq_iff_eq, decide_eq_true_eq] at hq
    have hp := History.records_of_pass? hp
    exact ⟨p, hp, hq.2, hpass p 0 hp hq.1⟩

end PortExpander
