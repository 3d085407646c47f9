import PortExpander.Proofs.Clients

/-!
# Sessions

The operations of a session, to whatever depth they lie within one another, come to happenings, and so does every step. A state
is `Reachable` if a session can be in it between two steps; what a session was like in the midst of a step is in the notes of
its history.
-/

namespace PortExpander

open Sim Engine

namespace Session

/-- What a client is answered gives what its attempt gives. -/
theorem gives_answering {m : Attempt Reply} {s : State} {Q : Reply → State → Prop} {X : State → Prop} :
    (answering m).Gives s Q X ↔ m.Gives s Q (fun e => Q (.error e)) X := by
  unfold answering Attempt.Gives
  rw [gives_bind]
  constructor
  · intro h
    refine h.mono (fun r s' h => ?_) fun _ h => h
    cases r <;> exact h
  · intro h
    refine h.mono (fun r s' h => ?_) fun _ h => h
    cases r <;> exact h

variable {nest : Nest}

section

variable (hp : Plays nest)

include hp

/-- The calls of clients lead on by happenings; a setup does so by its own lemma. -/
theorem leads_answer {c : Call} (hc : ∀ pin attrs, c ≠ .setup pin attrs) : (c.answer nest).Leads := by
  have hdone {α : Type} {m : Attempt α} (r : α → Reply) (h : m.Leads) : (m >>= fun a => Pure.pure (r a)).Leads :=
    h.bind fun _ _ => .refl
  cases c with
  | setup pin attrs => exact (hc pin attrs rfl).elim
  | write pin high => exact hdone (fun _ => .done) (Client.leads_write pin high)
  | read pin => exact hdone .bit (Client.leads_read hp pin)
  | flush => exact hdone (fun _ => .done) (Client.leads_flush hp)
  | attach pin handler => exact hdone (fun _ => .done) (Client.leads_attach pin handler)
  | detach pin => exact hdone (fun _ => .done) (Client.leads_detach pin)
  | interrupt line => exact hdone (fun _ => .done) (.lift (Client.leads_interrupt line))
  | set pin high => exact hdone (fun _ => .done) (Client.leads_set hp pin high)
  | get pin high => exact hdone .bit (Client.leads_get hp pin high)
  | setMany targets => exact hdone (fun _ => .done) (Client.leads_setMany hp targets)

/-- A run that returns leaves the extender halted; a fault ends the run without a return. -/
theorem gives_runWorker (ticks : List (List Op)) (s : State) :
    (runWorker nest ticks).Gives s (fun r s' => Goes s s' ∧ (r = .returned → s'.extender.halted = true)) (fun _ => False) := by
  unfold runWorker
  simp only [gives_bind, gives_board, gives_modifyBoard, gives_outcome]
  have hw : Goes s (s.onBoard ({ · with agenda := some (.new ticks) })) := Touch.goes (.board _)
  have hwork := gives_work hp (s.onBoard ({ · with agenda := some (.new ticks) }))
  unfold Gives at hwork
  revert hwork
  rcases work nest (s.onBoard ({ · with agenda := some (.new ticks) })) with ⟨f | _, s₁⟩
  · intro h
    refine ⟨(hw.trans h).trans (Touch.goes (.board _)), fun hr => ?_⟩
    cases hr
  · intro h
    exact ⟨(hw.trans h.1).trans (Touch.goes (.board _)), fun _ => h.2⟩

/-- What an operation of whose beginning there is a note comes to, and what its answer says about the memory at its end. -/
theorem gives_perform_memory {o : Op} {s : State} (hb : s.history.begun? = some (o, s.extender)) :
    (perform nest o).Gives s (fun r s' => Goes s s' ∧ s'.extender.Confirms o r) (fun s' => Goes s s') := by
  -- most answers say nothing about the memory
  have hfree {m : Sim Reply} (h : Leads m) (hc : ∀ r (e : Extender), e.Confirms o r) :
      m.Gives s (fun r s' => Goes s s' ∧ s'.extender.Confirms o r) (fun s' => Goes s s') :=
    (h s).mono (fun r s' h => ⟨h, hc r s'.extender⟩) fun _ h => h
  cases o with
  | call c =>
    refine gives_answering.2 ?_
    cases c with
    | setup pin attrs =>
      unfold Call.answer
      rw [Attempt.gives_bind]
      refine (Client.gives_setup hb).mono (fun _ _ h => h) (fun _ _ h => ?_) fun _ h => h.elim
      rw [h]
      exact ⟨.refl, trivial⟩
    | read pin =>
      unfold Call.answer
      rw [Attempt.gives_bind]
      exact (Client.gives_read hp pin s).mono (fun _ _ h => h) (fun _ _ h => ⟨h, trivial⟩) fun _ h => h
    | get pin high =>
      unfold Call.answer Client.get
      simp only [Attempt.gives_bind]
      exact (Client.gives_read hp pin s).mono (fun _ _ h => ⟨h.1, by rw [h.2]; rfl⟩) (fun _ _ h => ⟨h, trivial⟩) fun _ h => h
    | _ =>
      refine (leads_answer hp (by rintro _ _ ⟨⟩) s).mono (fun r s' h => ⟨h, ?_⟩) (fun e s' h => ⟨h, ?_⟩) fun _ h => h
      all_goals exact trivial
  | update =>
    unfold perform
    rw [gives_bind]
    refine (gives_update hp s).mono (fun p s' h => ⟨h.1, fun hu => ?_⟩) fun _ h => h
    by_cases hc : p = .contended
    · exact hc
    · rw [h.2.1 hc] at hu
      cases hu
  | shutdown =>
    unfold perform
    rw [gives_bind]
    exact (gives_shutdown hp s).mono (fun _ _ h => h) fun _ h => h
  | run ticks =>
    refine (gives_runWorker hp ticks s).mono (fun r s' h => ⟨h.1, ?_⟩) fun _ h => h.elim
    cases r <;> first | exact trivial | exact h.2 rfl
  | info => exact hfree (Leads.extender.bind fun _ => .pure _) fun _ _ => trivial
  | indexOf pin => exact hfree (.pure _) fun _ _ => trivial
  | change c => exact hfree ((Leads.modifyBoard _).bind fun _ => .pure _) fun _ _ => trivial
  | peek place => exact hfree (Leads.board.bind fun _ => .pure _) fun _ _ => trivial
  | hook after ops => exact hfree ((Leads.modifyBoard _).bind fun _ => .pure _) fun _ _ => trivial
  | handler argument ops => exact hfree ((Leads.modifyBoard _).bind fun _ => .pure _) fun _ _ => trivial
  | panic => exact hfree (.throw _) fun _ _ => trivial

/-- What an operation comes to, and what its answer says. -/
theorem gives_perform (o : Op) {s : State} (hb : s.history.begun? = some (o, s.extender)) :
    (perform nest o).Gives s (fun r s' => Goes s s' ∧ s'.Confirms o r) (fun s' => Goes s s') := by
  by_cases hi : ∃ line, o = .call (.interrupt line)
  · obtain ⟨line, rfl⟩ := hi
    refine gives_answering.2 ?_
    unfold Call.answer
    rw [Attempt.gives_bind, Attempt.gives_liftM]
    refine (Client.gives_interrupt line s).mono (fun _ s' h => ⟨h.1, trivial, ?_⟩) fun _ h => h.elim
    rintro line' ⟨⟩ _
    exact ⟨s.extender, h.2.2.trans hb, h.2.1⟩
  · refine (gives_perform_memory hp hb).mono (fun r s' h => ⟨h.1, h.2, fun line ho => ?_⟩) fun _ h => h
    exact (hi ⟨line, ho⟩).elim

/-- Operations that are played one after the other lead on. -/
theorem leads_playAll (ops : List Op) : Leads (playAll (perform nest) ops) := by
  induction ops with
  | nil => exact .pure ()
  | cons op ops ih =>
    intro s
    unfold playAll
    rw [gives_bind, gives_note, gives_bind]
    have hb : Goes s (s.noting (.opBegan op)) := Touch.goes (.note _ rfl trivial)
    refine (gives_perform hp op rfl).mono (fun r s₁ h₁ => ?_) fun _ h => hb.trans h
    rw [gives_bind, gives_note]
    have hw := (hb.trans h₁.1).trans (Touch.goes (.ended op r h₁.2))
    exact (ih _).mono (fun _ _ h => hw.trans h) fun _ h => hw.trans h

/-- Operations that begin while a pass is at work begin with a note. -/
theorem announced_playAll (op : Op) (ops : List Op) {s : State} (hu : s.extender.updating = true) :
    (playAll (perform nest) (op :: ops)).Gives s (fun _ s' => s.Announced s') (fun _ => True) := by
  unfold playAll
  rw [gives_bind, gives_note, gives_bind]
  refine (gives_perform hp op rfl).mono (fun r s₁ h₁ => ?_) fun _ _ => trivial
  rw [gives_bind, gives_note]
  have hw := h₁.1.trans (Touch.goes (.ended op r h₁.2))
  refine (leads_playAll hp ops _).mono (fun _ s' h => ?_) fun _ _ => trivial
  obtain ⟨later, hlater⟩ := (Goes.touched (hw.trans h) hu).grows
  exact .inr ⟨op, later, hlater⟩

end

/-- When operations have ended, the last note is of their end. -/
theorem told_playAll (play : Op → Sim Reply) (ops : List Op) {s : State} (hs : s.Told) :
    (playAll play ops).Gives s (fun _ s' => s'.Told) (fun _ => True) := by
  induction ops generalizing s with
  | nil => exact hs
  | cons op ops ih =>
    unfold playAll
    rw [gives_bind, gives_note, gives_bind]
    refine (gives_true _ _).mono (fun r s₁ _ => ?_) fun _ h => h
    rw [gives_bind, gives_note]
    exact ih ⟨s₁.extender, rfl, .refl _⟩

/-- All changes have been noted when nested operations have ended. -/
theorem told_nestAt (depth : Nat) (ops : List Op) {s : State} (hs : s.Told) :
    (nestAt depth ops).Gives s (fun _ s' => s'.Told) (fun _ => True) := by
  cases ops with
  | nil => cases depth <;> exact hs
  | cons op ops =>
    cases depth with
    | zero => exact trivial
    | succ depth =>
      unfold nestAt playInside
      simp only [gives_bind, gives_board, gives_modifyBoard]
      exact told_playAll _ _ hs

/-- Operations that lie within one another to any depth come to happenings. -/
theorem plays_nestAt (depth : Nat) : Plays (nestAt depth) := by
  induction depth with
  | zero =>
    refine ⟨fun ops => ?_, fun ops _ hs => told_nestAt 0 ops hs, fun ops s _ => ?_⟩
    · cases ops with
      | nil => exact .pure ()
      | cons op ops => exact .throw _
    · cases ops with
      | nil => exact .inl ⟨rfl, rfl⟩
      | cons op ops => exact trivial
  | succ depth ih =>
    refine ⟨fun ops => ?_, fun ops _ hs => told_nestAt (depth + 1) ops hs, fun ops s hu => ?_⟩
    · cases ops with
      | nil => exact .pure ()
      | cons op ops =>
        exact Leads.board.bind fun b => (Leads.modifyBoard _).bind fun _ =>
          (leads_playAll ih _).bind fun _ => .modifyBoard _
    · cases ops with
      | nil => exact .inl ⟨rfl, rfl⟩
      | cons op ops =>
        unfold nestAt playInside
        simp only [gives_bind, gives_board, gives_modifyBoard]
        exact announced_playAll ih op ops hu

end Session

/-! ## Steps -/

theorem Happening.updating {s s' : State} (h : Happening s s') : s'.extender.updating = s.extender.updating := by
  cases h with
  | touch h => exact h.frame.updating
  | update p hu h => exact h.updating.trans hu.symm
  | cut hu h =>
    obtain ⟨s₁, _, _, _, rfl⟩ := h
    exact hu.symm
  | began | ended | claim | free => rfl

theorem Goes.updating {s s' : State} (h : Goes s s') : s'.extender.updating = s.extender.updating := by
  induction h with
  | refl => rfl
  | tail _ h ih => exact h.updating.trans ih

/-- Claiming a pin is refused and changes nothing, or replaces the claims. -/
theorem Client.gives_claim (pin : Nat) (s : State) :
    (claim pin).Gives s
      (fun _ s' => ∃ claims, s.extender.isStopped = false ∧ s.extender.claims.claim pin = .ok claims ∧
        s' = s.amend ({ · with claims }))
      (fun _ s' => s' = s) (fun _ => False) := by
  rw [claim_eq]
  rw [Attempt.gives_bind, gives_ensureRunning]
  split
  · rfl
  · simp only [Attempt.gives_bind, Attempt.gives_liftM, Attempt.gives_ofExcept, gives_extender, gives_modifyExtender]
    exact ⟨fun claims hc => ⟨claims, Bool.eq_false_iff.2 ‹_›, hc, rfl⟩, fun _ _ => trivial⟩

/-- Giving back a pin takes away its handler and then its claim. -/
theorem Client.gives_free (pin : Nat) (s : State) :
    (free pin).Gives s
      (fun _ s' => ∃ s₁, Goes s s₁ ∧ (pin < s₁.extender.claims.capacity → s₁.extender.handlers pin = none) ∧
        s' = s₁.amend fun e => { e with claims := e.claims.free pin }) (fun _ => False) := by
  rw [free_eq, gives_bind, gives_extender]
  dsimp only
  split
  · rw [gives_bind]
    exact (gives_removeHandler pin s).mono (fun _ s₁ h₁ => ⟨s₁, h₁.1, fun _ => h₁.2, rfl⟩) fun _ h => h
  · exact ⟨s, .refl, fun h => absurd h ‹_›, rfl⟩

section

variable {nest : Nest} (hp : Plays nest)

include hp

/-- A step of whose beginning there is a note comes to happenings, the last of which is its end. -/
theorem Step.gives_perform (step : Step) {s : State} (hu : s.extender.updating = false)
    (hb : ∀ o, step = .op o → s.history.begun? = some (o, s.extender)) :
    (step.perform nest).Gives s (fun r s' => Goes s (s'.over step r)) (fun s' => Goes s s') := by
  have hend (s' : State) (r : Reply) (h : Goes s s') (hr : ∀ o, step = .op o → s'.Confirms o r) :
      Goes s (s'.over step r) :=
    h.tail (.ended step r (h.updating.trans hu) hr)
  cases step with
  | claim pin =>
    refine Session.gives_answering.2 ?_
    rw [Attempt.gives_bind]
    refine (Client.gives_claim pin s).mono (fun _ s' h => ?_) (fun e s' h => ?_) fun _ h => h.elim
    · obtain ⟨claims, hs, hc, rfl⟩ := h
      exact .single (.claim pin claims hu hs hc)
    · rw [h]
      exact hend s _ .refl nofun
  | free pin =>
    unfold perform
    rw [gives_bind]
    refine (Client.gives_free pin s).mono (fun _ s' h => ?_) fun _ h => h.elim
    obtain ⟨s₁, h₁, hnone, rfl⟩ := h
    exact h₁.tail (.free pin (Goes.updating h₁ |>.trans hu) hnone)
  | op o =>
    refine (Session.gives_perform hp o (hb o rfl)).mono (fun r s' h => hend s' r h.1 ?_) fun _ h => h
    rintro _ ⟨⟩
    exact h.2

/-- A step that begins while no pass is at work comes to happenings. -/
theorem State.goes_step (step : Step) {s : State} (hu : s.extender.updating = false) : Goes s (s.step nest step).2 := by
  have hb : Goes s (s.noting (.stepBegan step)) := .single (.began step hu)
  have hs := Step.gives_perform hp step (s := s.noting (.stepBegan step)) hu (by rintro o rfl; rfl)
  have hfault (o : Op) (f : Fault) (s : State) : s.Confirms o (.fault f) := by
    refine ⟨?_, fun _ _ => nofun⟩
    cases o with
    | call c => cases c <;> exact trivial
    | _ => exact trivial
  unfold Gives at hs
  unfold State.step
  generalize step.perform nest (s.noting (.stepBegan step)) = result at hs ⊢
  obtain ⟨f | r, s₁⟩ := result
  · exact (hb.trans hs).tail (.ended step _ ((Goes.updating (hb.trans hs)).trans hu) fun o _ => hfault o f _)
  · exact hb.trans hs

end

/-- What a step comes to is what its computation gives, or a fault. -/
theorem State.step_of_gives {nest : Nest} {step : Step} {s : State} {Q : Reply → State → Prop} {X : State → Prop}
    (h : (step.perform nest).Gives (s.noting (.stepBegan step)) Q X) :
    (∃ r s', s.step nest step = (r, s'.over step r) ∧ Q r s') ∨
      ∃ f s', s.step nest step = (.fault f, s'.over step (.fault f)) ∧ X s' := by
  unfold Gives at h
  unfold State.step
  generalize step.perform nest (s.noting (.stepBegan step)) = result at h ⊢
  obtain ⟨f | r, s'⟩ := result
  · exact .inr ⟨f, s', rfl, h⟩
  · exact .inl ⟨r, s', rfl, h⟩

/-! ## Reachable states -/

/-- A state in which a session can be between two steps, whatever its steps and the depth to which their operations are
played. -/
inductive Reachable : State → Prop where
  | start {origin : Origin} {e : Extender} {log : List LogRecord} (board : Board) :
      origin.create = (.created e, log) → Reachable { extender := e, board, history := [] }
  | step {s : State} (depth : Nat) (step : Step) : Reachable s → Reachable (s.step (Session.nestAt depth) step).2

/-- Every state of a session that is played is reachable. -/
theorem Reachable.play {s : State} (h : Reachable s) (depth : Nat) (steps : List Step) :
    Reachable (s.play (Session.nestAt depth) steps).2 := by
  induction steps generalizing s with
  | nil => exact h
  | cons step steps ih => exact ih (h.step depth step)

/-- An extender that has just been made. -/
inductive Made : Extender → Prop where
  | generic (family : Family) (deviceId : Byte) (wired : Bool) {e : Extender} :
      Extender.generic family deviceId wired = .ok e → Made e
  | queued (wired : Nat → Bool) : Made (.queued wired)

/-- What is created of a generic engine has just been made. -/
theorem made_of_ofExcept {family : Family} {deviceId : Byte} {wired : Bool} {e : Extender}
    (h : Creation.ofExcept (Extender.generic family deviceId wired) = .created e) : Made e := by
  refine .generic family deviceId wired ?_
  revert h
  cases Extender.generic family deviceId wired with
  | ok e => rintro ⟨⟩; rfl
  | error f => nofun

/-- A registered driver makes one of the two engines. -/
theorem Registry.made_of_defaults {name : String} {constructor : Constructor} {config : Config} {e : Extender}
    (hf : defaults.find? name = some constructor) (h : constructor config = .created e) : Made e := by
  unfold find? at hf
  rw [Option.map_eq_some_iff] at hf
  obtain ⟨d, hd, rfl⟩ := hf
  have hmem := List.mem_of_find?_eq_some hd
  unfold defaults at hmem
  rcases List.mem_cons.1 hmem with rfl | hmem
  · unfold Constructor.generic at h
    dsimp only at h
    split at h
    · cases h
    · exact made_of_ofExcept h
  · rw [List.mem_singleton.1 hmem] at h
    cases h
    exact .queued _

/-- Whatever is created has just been made. -/
theorem Origin.made_of_create {origin : Origin} {e : Extender} {log : List LogRecord}
    (h : origin.create = (.created e, log)) : Made e := by
  replace h := congrArg Prod.fst h
  cases origin with
  | generic family deviceId wired => exact made_of_ofExcept h
  | queued wired =>
    cases h
    exact .queued wired
  | driver name bus config =>
    change (Registry.defaults.create name bus config).1 = .created e at h
    unfold Registry.create at h
    split at h
    · cases h
    · rename_i constructor hf
      split at h
      · split at h
        · cases h
          exact Registry.made_of_defaults hf ‹_›
        · exact Registry.made_of_defaults hf h
      · cases h

/-- An extender that has just been made has not been used. The queued engine is made for one family at its base address. -/
theorem Made.fresh {e : Extender} (h : Made e) : ∃ family address capacity lines engine room,
    e = .fresh family address capacity lines engine room ∧
      ∀ q, engine = .queued q → family = Device.tca6408.family ∧ address = family.baseAddress := by
  cases h with
  | generic family deviceId wired h =>
    unfold Extender.generic at h
    cases ha : family.baseAddress.plus deviceId with
    | ok address =>
      rw [ha] at h
      cases h
      exact ⟨_, _, _, _, _, _, rfl, nofun⟩
    | error f =>
      rw [ha] at h
      cases h
  | queued wired => exact ⟨_, _, _, _, _, _, rfl, fun _ _ => ⟨rfl, rfl⟩⟩

/-- An extender that has just been made, engine by engine. -/
theorem Made.eq_fresh {e : Extender} (h : Made e) :
    (∃ family address wired, e = .fresh family address genericCapacity (.ofPredicate fun line => wired && line == 0)
      (.generic { wired, high := wired, polling := false }) genericCapacity_le) ∨ ∃ wired, e = .queued wired := by
  cases h with
  | generic family deviceId wired h =>
    unfold Extender.generic at h
    cases ha : family.baseAddress.plus deviceId with
    | error f =>
      rw [ha] at h
      cases h
    | ok address =>
      rw [ha] at h
      cases h
      exact .inl ⟨family, address, wired, rfl⟩
  | queued wired => exact .inr ⟨wired, rfl⟩

theorem Made.updating {e : Extender} (h : Made e) : e.updating = false := by
  obtain ⟨family, address, capacity, lines, engine, room, rfl, _⟩ := h.fresh
  rfl

/-- A session has come by happenings from an extender that had just been made. -/
theorem Reachable.goes {s : State} (h : Reachable s) :
    ∃ e board, Made e ∧ Goes { extender := e, board, history := [] } s ∧ s.extender.updating = false := by
  induction h with
  | start board hc =>
    have hm := Origin.made_of_create hc
    exact ⟨_, board, hm, .refl, hm.updating⟩
  | step depth step _ ih =>
    obtain ⟨e, board, hm, hgo, hu⟩ := ih
    have hs := State.goes_step (Session.plays_nestAt depth) step hu
    exact ⟨e, board, hm, hgo.trans hs, hs.updating.trans hu⟩

/-- The state after some steps of a session with the queued engine, of whose chips the first one is there and no one has a
line. -/
@[irreducible] def State.oneChip (steps : List Step) : State :=
  (({ extender := .queued fun _ => false, board := .withChips [0x20] false, history := [] } : State).play
    (Session.nestAt 1) steps).2

/-- Sessions of one chip are sessions. -/
theorem reachable_oneChip (steps : List Step) : Reachable (State.oneChip steps) := by
  unfold State.oneChip
  exact (@Reachable.start (.queued fun _ => false) _ _ _ rfl).play 1 steps

/-- The state after some steps of a session with the generic engine, which has a line and of whose chips the first one is there. -/
@[irreducible] def State.oneLine (steps : List Step) : State :=
  (({ extender := .fresh Device.pca9554.family 0x20 genericCapacity (.ofPredicate fun line => true && line == 0)
        (.generic { wired := true, high := true, polling := false }) genericCapacity_le,
      board := .withChips [0x20] false, history := [] } : State).play (Session.nestAt 1) steps).2

/-- Sessions of one chip with a line are sessions. -/
theorem reachable_oneLine (steps : List Step) : Reachable (State.oneLine steps) := by
  unfold State.oneLine
  exact (@Reachable.start (.generic Device.pca9554.family 0 true) _ _ _ rfl).play 1 steps

end PortExpander
