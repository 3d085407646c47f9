import PortExpander.Proofs.Scenes

/-!
# Steps without trouble

What the steps of clients come to without trouble, told by functions on scenes. A plain step claims or frees a pin, sets one up, writes,
reads or flushes, updates, or shuts the extender down. `State.scene_step` says that a plain step of a state comes to the step of its
scene, and `Scene.perform` is all that is left to be known about it.
-/

namespace PortExpander

open Sim Engine

variable {α β : Type}

namespace Scene

/-! ## Calls of scenes -/

/-- What comes of a call that a stopped extender refuses. -/
def running (c : Scene) (next : Except Error α × Scene) : Except Error α × Scene :=
  if c.extender.isStopped then (.error .stopped, c) else next

/-- What comes of a call that is refused if a check fails. -/
def checking (c : Scene) (check : Except Error β) (next : β → Except Error α × Scene) : Except Error α × Scene :=
  match check with
  | .ok b => next b
  | .error e => (.error e, c)

/-- The scene after the pass that a call makes if the context allows. -/
def syncPass (c : Scene) : Scene := if c.interruptContext then c else c.update.2

/-- While no other pass is at work, an update does not find another one. -/
theorem update_ne_contended (c : Scene) : c.update.1 ≠ .contended := by
  unfold update attempt
  split
  · exact nofun
  · split
    · exact nofun
    · split <;> exact nofun

/-- Claiming a pin. -/
def claim (c : Scene) (pin : Nat) : Except Error Unit × Scene :=
  c.running (c.checking (c.extender.claims.claim pin) fun claims => (.ok (), c.amend ({ · with claims })))

/-- Giving a pin back. -/
def free (c : Scene) (pin : Nat) : Scene :=
  (if pin < c.extender.claims.capacity then c.amend fun e => { e with handlers := e.handlers.remove pin }.repolled else c).amend
    fun e => { e with claims := e.claims.free pin }

/-- Setting up a pin. -/
def setup (c : Scene) (pin : Nat) (attrs : PinAttributes) : Except Error Unit × Scene :=
  c.running (c.checking (c.extender.claims.checkClaimed pin) fun _ =>
    (.ok (), c.amend fun e => { e with shadow := e.shadow.setup pin attrs }.request .configDirty))

/-- Writing a pin. -/
def write (c : Scene) (pin : Nat) (high : Bool) : Except Error Unit × Scene :=
  c.running (c.checking (c.extender.claims.checkRange pin) fun _ =>
    (.ok (), c.amend fun e => { e with shadow := e.shadow.write pin high }))

/-- What is left behind by a write that went through. -/
theorem of_write {c c' : Scene} {pin : Nat} {high : Bool} (h : (.ok (), c') = c.write pin high) :
    c' = c.amend fun e => { e with shadow := e.shadow.write pin high } := by
  unfold write running checking at h
  split at h
  · cases h
  · split at h
    · exact (Prod.mk.inj h).2
    · cases h

/-- The scene after what is staged has become dirty and has been flushed. -/
def flushed (c : Scene) : Scene := (c.amend fun e => { e with shadow := e.shadow.commit }.request .writeDirty).syncPass

/-- Flushing the outputs. -/
def flush (c : Scene) : Except Error Unit × Scene := c.running (.ok (), c.flushed)

/-- Writing a pin through its handle. -/
def set (c : Scene) (pin : Nat) (high : Bool) : Except Error Unit × Scene :=
  let written := c.write pin high
  written.2.checking written.1 fun _ => written.2.flush

/-- The scene after a pin's input has been read, if no line would report its changes. -/
def refreshed (c : Scene) (pin : Nat) : Scene :=
  if c.extender.readsThrough pin then
    (c.amend fun e =>
      match e.engine with
      | .generic _ => e.request .readDirty
      | .queued _ => e.interrupted (pin / 8)).syncPass
  else c

/-- Reading a pin. -/
def read (c : Scene) (pin : Nat) : Except Error Bool × Scene :=
  c.running (c.checking (c.extender.claims.checkRange pin) fun _ =>
    (.ok ((c.refreshed pin).extender.shadow.input.get pin), c.refreshed pin))

/-- The scene after the extender has been shut down. -/
def shutdown (c : Scene) : Scene := (c.amend (·.request .stop)).update.2.amend ({ · with lines := .none })

/-- The answer to a call of a client. -/
def replying (f : α → Reply) : Except Error α × Scene → Reply × Scene
  | (.ok a, c) => (f a, c)
  | (.error e, c) => (.error e, c)

/-- What comes of a plain step. -/
def perform (c : Scene) : Step → Reply × Scene
  | .claim pin => replying (fun _ => .done) (c.claim pin)
  | .free pin => (.done, c.free pin)
  | .op (.call (.setup pin attrs)) => replying (fun _ => .done) (c.setup pin attrs)
  | .op (.call (.write pin high)) => replying (fun _ => .done) (c.write pin high)
  | .op (.call (.read pin)) => replying .bit (c.read pin)
  | .op (.call .flush) => replying (fun _ => .done) c.flush
  | .op (.call (.set pin high)) => replying (fun _ => .done) (c.set pin high)
  | .op .update => (.pass c.update.1, c.update.2)
  | .op .shutdown => (.bit true, c.shutdown)
  | .op _ => (.done, c)

end Scene

/-- Whether a step claims or frees a pin, sets one up, writes, reads or flushes, updates or shuts down. -/
def Step.isPlain : Step → Bool
  | claim _ | free _ => true
  | op (.call (.setup ..)) | op (.call (.write ..)) | op (.call (.read _)) | op (.call .flush) | op (.call (.set ..)) => true
  | op .update | op .shutdown => true
  | op _ => false

/-- An interrupt leaves the chips and the claims as they are. -/
theorem Extender.abides_interrupted (e : Extender) (line : Nat) :
    e.Abides (e.interrupted line) ∧ (e.interrupted line).updating = e.updating := by
  unfold interrupted
  split
  · exact ⟨⟨rfl, rfl, rfl⟩, rfl⟩
  · split <;> exact ⟨⟨rfl, rfl, rfl⟩, rfl⟩

variable {nest : Nest} {P : Prop} {s : State}

/-! ## Calls of states -/

/-- A call that needs the extender to run, without trouble. -/
theorem calmly_running {f : Unit → Attempt α} {next : Except Error α × Scene}
    (h : (f ()).Calmly P s fun r s' => (r, s'.scene) = next) :
    (Client.ensureRunning >>= f).Calmly P s fun r s' => (r, s'.scene) = s.scene.running next := by
  unfold Scene.running
  refine Attempt.calmly_ensureRunning_bind (fun hs _ => ?_) fun hs => ?_
  · rw [if_pos (show s.scene.extender.isStopped = true from hs)]
  · rw [if_neg (show ¬s.scene.extender.isStopped = true from Bool.eq_false_iff.1 hs)]
    exact h

/-- A call with a check, without trouble. -/
theorem calmly_checking {check : Except Error β} {f : β → Attempt α} {next : β → Except Error α × Scene}
    (h : ∀ b, (f b).Calmly P s fun r s' => (r, s'.scene) = next b) :
    (ofExcept check >>= f).Calmly P s fun r s' => (r, s'.scene) = s.scene.checking check next := by
  refine Attempt.calmly_ofExcept_bind (fun e he _ => ?_) fun b hb => ?_
  · rw [he]
    rfl
  · rw [hb]
    exact h b

namespace Client

/-- Writing a pin without trouble. -/
theorem calmly_write (pin : Nat) (high : Bool) :
    (write pin high).Calmly P s fun r s' => (r, s'.scene) = s.scene.write pin high := by
  rw [write_eq]
  refine calmly_running ?_
  rw [Attempt.calmly_extender_bind]
  refine calmly_checking fun _ => ?_
  rw [Attempt.calmly_liftM]
  exact calmly_modifyExtender.2 fun _ => rfl

/-- Whoever waits in vain has not been promised anything. -/
theorem calmly_delay (hn : Disturbs nest) (ms : Nat) (hP : ¬P) {Q : Unit → State → Prop} : (delay nest ms).Calmly P s Q := by
  unfold delay pause
  refine Calmly.after (fun _ _ => gives_emit) (State.troubles_seeing rfl) ?_
  rw [calmly_board_bind]
  split
  · exact calmly_pure.2 fun hp => (hP hp).elim
  · split
    · exact ⟨Nat.le_refl _, fun hp => (hP hp).elim⟩
    · rw [calmly_modifyBoard_bind]
      exact (hn _ _ _).mono id fun _ _ hp => (hP hp).elim

/-- The pass that a client runs, without trouble. -/
theorem calmly_syncPass (hn : Disturbs nest) (hu : P → s.extender.updating = false) (hl : P → s.extender.Located) :
    (syncPass nest).Calmly P s fun _ s' => s'.scene = s.scene.syncPass := by
  unfold syncPass Scene.syncPass
  rw [calmly_board_bind]
  split
  · rename_i hc
    rw [if_pos (show s.scene.interruptContext = true from hc)]
    exact calmly_pure.2 fun _ => rfl
  · rename_i hc
    rw [if_neg (show ¬s.scene.interruptContext = true from hc)]
    refine (calmly_update hn hu hl).bind fun p s₁ => ?_
    split
    · rename_i hp
      refine calmly_delay hn _ fun h => s.scene.update_ne_contended ?_
      rw [← h.2.1, hp]
    · exact calmly_pure.2 fun h => h.2.2

/-- Flushing the outputs without trouble. -/
theorem calmly_flush (hn : Disturbs nest) (hu : P → s.extender.updating = false) (hl : P → s.extender.Located) :
    (flush nest).Calmly P s fun r s' => (r, s'.scene) = s.scene.flush := by
  refine calmly_running ?_
  rw [Attempt.calmly_modifyExtender_bind, Attempt.calmly_request_bind, Attempt.calmly_notify_bind, Attempt.calmly_liftM]
  refine (calmly_syncPass hn ?_ ?_).mono id fun _ s' hp h => ?_
  · exact hu
  · exact fun hp => (hl hp).abides ⟨rfl, rfl, rfl⟩
  · rw [h]
    rfl

/-- Writing a pin and flushing it, without trouble. -/
theorem calmly_set (hn : Disturbs nest) (hu : P → s.extender.updating = false) (hl : P → s.extender.Located) (pin : Nat) (high : Bool) :
    (set nest pin high).Calmly P s fun r s' => (r, s'.scene) = s.scene.set pin high := by
  unfold Scene.set
  refine (calmly_write pin high).bind (fun _ s₁ => ?_) fun e s₁ _ h => ?_
  · have hw (hp : P ∧ (Except.ok (), s₁.scene) = s.scene.write pin high) : s.extender.Abides s₁.extender ∧
        s₁.extender.updating = s.extender.updating := by
      have hext : s₁.extender = { s.extender with shadow := s.extender.shadow.write pin high } :=
        congrArg Scene.extender (Scene.of_write hp.2)
      rw [hext]
      exact ⟨⟨rfl, rfl, rfl⟩, rfl⟩
    refine (calmly_flush hn (fun hp => (hw hp).2.trans (hu hp.1)) fun hp => (hl hp.1).abides (hw hp).1).mono id
      fun r s' hp h => ?_
    rw [h, ← hp.2]
    rfl
  · rw [← h]
    rfl

/-- Claiming a pin without trouble. -/
theorem calmly_claim (pin : Nat) : (claim pin).Calmly P s fun r s' => (r, s'.scene) = s.scene.claim pin := by
  rw [claim_eq]
  refine calmly_running ?_
  rw [Attempt.calmly_extender_bind]
  refine calmly_checking fun claims => ?_
  rw [Attempt.calmly_liftM]
  exact calmly_modifyExtender.2 fun _ => rfl

/-- Setting up a pin without trouble. -/
theorem calmly_setup (pin : Nat) (attrs : PinAttributes) :
    (setup pin attrs).Calmly P s fun r s' => (r, s'.scene) = s.scene.setup pin attrs := by
  rw [setup_eq]
  refine calmly_running ?_
  rw [Attempt.calmly_extender_bind]
  refine calmly_checking fun _ => ?_
  rw [Attempt.calmly_modifyExtender_bind, Attempt.calmly_request_bind, Attempt.calmly_liftM]
  exact calmly_emit rfl fun _ => rfl

/-- Bringing polling up to date without trouble. -/
theorem calmly_updatePolling : updatePolling.Calmly P s fun _ s' => s'.scene = s.scene.amend (·.repolled) := by
  unfold updatePolling
  rw [calmly_extender_bind]
  split
  · rename_i m he
    rw [calmly_modifyExtender_bind]
    have hext : { s.extender with engine := .generic { m with polling := !m.wired && s.extender.hasHandler } } =
        s.extender.repolled := by
      unfold Extender.repolled
      rw [he]
    have hscene := congrArg (fun e => { s.scene with extender := e }) hext
    split
    · exact calmly_emit rfl fun _ => hscene
    · exact calmly_pure.2 fun _ => hscene
  · rename_i q he
    rw [calmly_modifyExtender_bind]
    have hext : { s.extender with engine := .queued { q with polled := s.extender.handledChips q.wired } } =
        s.extender.repolled := by
      unfold Extender.repolled
      rw [he]
    have hscene := congrArg (fun e => { s.scene with extender := e }) hext
    split
    · exact calmly_emit rfl fun _ => hscene
    · exact calmly_pure.2 fun _ => hscene

/-- Giving a pin back without trouble. -/
theorem calmly_free (pin : Nat) : (free pin).Calmly P s fun _ s' => s'.scene = s.scene.free pin := by
  rw [free_eq]
  unfold Scene.free
  rw [calmly_extender_bind]
  dsimp only
  split
  · rename_i hp
    rw [if_pos (show pin < s.scene.extender.claims.capacity from hp)]
    unfold removeHandler
    rw [bind_assoc, calmly_modifyExtender_bind]
    refine calmly_updatePolling.bind fun _ s₁ => calmly_modifyExtender.2 fun h => ?_
    rw [State.scene_amend, h.2]
    rfl
  · rename_i hp
    rw [if_neg (show ¬pin < s.scene.extender.claims.capacity from hp)]
    exact calmly_modifyExtender.2 fun _ => rfl

/-- An interrupt, and what follows from what it makes of the scene. -/
theorem calmly_interrupt_bind {line : Nat} {k : Unit → Sim α} {Q : α → State → Prop}
    (h : ∀ s', s'.scene = s.scene.amend (·.interrupted line) → (k ()).Calmly P s' Q) :
    (interrupt line >>= k).Calmly P s Q := by
  unfold interrupt enqueue
  simp only [bind_assoc, calmly_extender_bind]
  have hext (e : Extender) (he : e = s.extender.interrupted line) :
      ({ s.scene with extender := e } : Scene) = s.scene.amend (·.interrupted line) := by
    rw [he]
    rfl
  split
  · rename_i m he
    simp only [pure_bind, calmly_request_bind, calmly_notify_bind]
    refine h _ (hext _ ?_)
    unfold Extender.interrupted
    rw [he]
    rfl
  · rename_i q he
    split
    · rename_i hc
      simp only [calmly_modifyExtender_bind, calmly_request_bind, calmly_notify_bind]
      refine h _ (hext _ ?_)
      unfold Extender.interrupted
      rw [he]
      dsimp only
      rw [dif_pos hc]
      rfl
    · rename_i hc
      simp only [calmly_request_bind, calmly_notify_bind]
      refine h _ (hext _ ?_)
      unfold Extender.interrupted
      rw [he]
      dsimp only
      rw [dif_neg hc]
      rfl

/-- The pass that a reading may need, without trouble. -/
theorem calmly_refresh (hn : Disturbs nest) (hu : P → s.extender.updating = false) (hl : P → s.extender.Located) (pin : Nat) :
    (refresh nest pin).Calmly P s fun _ s' => s'.scene = s.scene.refreshed pin := by
  unfold refresh Scene.refreshed
  rw [calmly_extender_bind]
  split
  · rename_i hr
    rw [if_pos (show s.scene.extender.readsThrough pin = true from hr)]
    unfold requestInput
    rw [bind_assoc, calmly_extender_bind]
    split
    · rename_i m he
      simp only [bind_assoc, calmly_request_bind, calmly_notify_bind]
      refine (calmly_syncPass (s := (s.asking .readDirty).seeing .notified) hn hu fun hp =>
        (hl hp).abides ⟨rfl, rfl, rfl⟩).mono id fun _ s' _ h => ?_
      rw [h, show s.scene = { s.scene with extender := s.extender } from rfl]
      unfold Scene.amend
      dsimp only
      rw [he]
      rfl
    · rename_i q he
      refine calmly_interrupt_bind fun s' hs' => ?_
      have hext : s'.extender = s.extender.interrupted (pin / 8) := congrArg Scene.extender hs'
      have hw := Extender.abides_interrupted s.extender (pin / 8)
      rw [← hext] at hw
      refine (calmly_syncPass hn (fun hp => hw.2.trans (hu hp)) fun hp => (hl hp).abides hw.1).mono id fun _ s'' _ h => ?_
      rw [h, hs', show s.scene = { s.scene with extender := s.extender } from rfl]
      unfold Scene.amend
      dsimp only
      rw [he]
  · rename_i hr
    rw [if_neg (show ¬s.scene.extender.readsThrough pin = true from hr)]
    exact calmly_pure.2 fun _ => rfl

/-- Reading a pin without trouble. -/
theorem calmly_read (hn : Disturbs nest) (hu : P → s.extender.updating = false) (hl : P → s.extender.Located) (pin : Nat) :
    (read nest pin).Calmly P s fun r s' => (r, s'.scene) = s.scene.read pin := by
  rw [read_eq]
  refine calmly_running ?_
  rw [Attempt.calmly_extender_bind]
  refine calmly_checking fun _ => ?_
  refine Attempt.calmly_liftM_bind.2 ((calmly_refresh hn hu hl pin).bind fun _ s₁ => ?_)
  refine Attempt.calmly_extender_bind.2 (Attempt.calmly_pure.2 fun h => ?_)
  rw [h.2, show s₁.extender = (s.scene.refreshed pin).extender from congrArg Scene.extender h.2]

end Client

/-! ## Shutting down -/

/-- An update of an extender that is stopped, or is about to be, finds it halted. -/
theorem Scene.update_eq_stopped {c : Scene} (h : c.extender.isStopped = true) : c.update.1 = .stopped := by
  have hheld : c.held.extender.isStopped = true := h
  unfold update attempt
  split
  · rfl
  · rename_i hh
    unfold Extender.isStopped at hheld
    rw [Bool.eq_false_iff.2 hh, Bool.false_or] at hheld
    have hs : c.held.extender.work.contains Status.stop = true :=
      FlagSet.contains_union_left _ (Status.contains_pending hheld (by decide) (by decide))
    rw [if_pos hs]

/-- Releasing lines is not to be seen on the scene. -/
theorem calmly_releaseEach (lines : List Nat) :
    (lines.forM fun line => emit (.released line)).Calmly P s fun _ s' => s'.scene = s.scene := by
  induction lines generalizing P s with
  | nil => exact calmly_pure.2 fun _ => rfl
  | cons line lines ih =>
    change (emit (.released line) >>= fun _ => lines.forM fun line => emit (.released line)).Calmly _ _ _
    refine Calmly.after (fun _ _ => gives_emit) (State.troubles_seeing rfl) (ih.mono id fun _ _ _ h => ?_)
    rw [h, State.scene_seeing _ rfl]

/-- Nothing keeps the lines from being let go of while no pass is at work. -/
theorem calmly_releaseLines (hu : P → s.extender.updating = false) :
    releaseLines.Calmly P s fun _ s' => s'.scene = s.scene.amend ({ · with lines := .none }) := by
  unfold releaseLines
  rw [calmly_extender_bind]
  split
  · rename_i hheld
    exact ⟨Nat.le_refl _, fun hp => (Bool.false_ne_true ((hu hp).symm.trans hheld)).elim⟩
  · rw [calmly_modifyExtender_bind]
    exact calmly_releaseEach _

/-- An extender that has been asked to stop halts in the first update. -/
theorem calmly_awaitHalt (hn : Disturbs nest) (left : Nat) (hleft : P → left ≠ 0) (hs : P → s.extender.isStopped = true)
    (hu : P → s.extender.updating = false) (hl : P → s.extender.Located) :
    (awaitHalt nest left).Calmly P s fun b s' =>
      b = true ∧ s'.scene = s.scene.update.2.amend ({ · with lines := .none }) := by
  induction left generalizing P s with
  | zero =>
    unfold awaitHalt
    rw [calmly_extender_bind]
    refine Calmly.after (fun _ _ => gives_log) (State.troubles_seeing rfl) (calmly_pure.2 fun hp => ?_)
    exact (hleft hp rfl).elim
  | succ left ih =>
    unfold awaitHalt
    refine (calmly_update hn hu hl).bind fun p s₁ => ?_
    split
    · have hfree (h : P ∧ p = s.scene.update.1 ∧ s₁.scene = s.scene.update.2) : s₁.extender.updating = false :=
        congrArg (·.extender.updating) h.2.2
      refine (calmly_releaseLines hfree).bind fun _ s₂ => calmly_pure.2 fun h => ⟨rfl, ?_⟩
      rw [h.2, h.1.2.2]
    · rename_i hp
      have hno (h : P ∧ p = s.scene.update.1 ∧ s₁.scene = s.scene.update.2) : False :=
        hp (h.2.1.trans (Scene.update_eq_stopped (hs h.1)))
      refine Calmly.bind (R := fun _ _ => False) (Client.calmly_delay hn _ hno) fun _ s₂ => ?_
      exact (ih (P := False) False.elim False.elim False.elim False.elim).mono (·.2) fun _ _ h => h.2.elim

/-- Shutting down without trouble. -/
theorem calmly_shutdown (hn : Disturbs nest) (hu : P → s.extender.updating = false) (hl : P → s.extender.Located) :
    (shutdown nest).Calmly P s fun b s' => b = true ∧ s'.scene = s.scene.shutdown := by
  unfold shutdown
  rw [calmly_request_bind, calmly_notify_bind]
  refine calmly_awaitHalt hn _ (fun _ => by decide) (fun _ => ?_) hu fun hp => (hl hp).abides ⟨rfl, rfl, rfl⟩
  show (_ || (s.extender.status ∪ Status.stop).contains Status.stop) = true
  rw [FlagSet.contains_union_right _ (FlagSet.contains_refl _), Bool.or_true]

/-! ## Steps -/

/-- What a client is answered without trouble. -/
theorem calmly_answering {m : Attempt α} {f : α → Reply} {x : Except Error α × Scene}
    (h : m.Calmly P s fun r s' => (r, s'.scene) = x) :
    (Session.answering (do return f (← m))).Calmly P s fun r s' => (r, s'.scene) = Scene.replying f x := by
  unfold Session.answering
  rw [ExceptT.run_bind, bind_assoc]
  refine Calmly.bind h fun r s₁ => ?_
  cases r with
  | ok a =>
    refine calmly_pure.2 fun hp => ?_
    rw [← hp.2]
    rfl
  | error e =>
    refine calmly_pure.2 fun hp => ?_
    rw [← hp.2]
    rfl

/-- A plain step comes to the step of the scene. -/
theorem Step.calmly_perform (hn : Disturbs nest) (hu : P → s.extender.updating = false) (hl : P → s.extender.Located) (step : Step)
    (hs : step.isPlain = true) : (step.perform nest).Calmly P s fun r s' => (r, s'.scene) = s.scene.perform step := by
  cases step with
  | claim pin => exact calmly_answering (Client.calmly_claim pin)
  | free pin => exact (Client.calmly_free pin).bind fun _ s₁ => calmly_pure.2 fun h => by rw [h.2]; rfl
  | op o =>
    cases o with
    | call c =>
      cases c with
      | setup pin attrs => exact calmly_answering (Client.calmly_setup pin attrs)
      | write pin high => exact calmly_answering (Client.calmly_write pin high)
      | read pin => exact calmly_answering (Client.calmly_read hn hu hl pin)
      | flush => exact calmly_answering (Client.calmly_flush hn hu hl)
      | set pin high => exact calmly_answering (Client.calmly_set hn hu hl pin high)
      | _ => cases hs
    | update => exact (calmly_update hn hu hl).bind fun p s₁ => calmly_pure.2 fun h => by rw [h.2.1, h.2.2]; rfl
    | shutdown => exact (calmly_shutdown hn hu hl).bind fun b s₁ => calmly_pure.2 fun h => by rw [h.2.1, h.2.2]; rfl
    | _ => cases hs

/-- What a step without trouble is known to come to is what it comes to in a session. -/
theorem State.scene_of_calmly {step : Step} {x : Reply × Scene}
    (h : (step.perform nest).Calmly True (s.noting (.stepBegan step)) fun r s' => (r, s'.scene) = x)
    (hs : s.Smooth (s.step nest step).2) : ((s.step nest step).1, (s.step nest step).2.scene) = x := by
  have hbegan : (s.noting (.stepBegan step)).troubles = s.troubles := State.troubles_noting (by rintro _ ⟨⟩)
  unfold Calmly Gives State.Smooth at h
  unfold State.step State.Smooth at hs
  unfold State.step
  rw [hbegan] at h
  generalize step.perform nest (s.noting (.stepBegan step)) = result at hs h ⊢
  obtain ⟨f | r, s₁⟩ := result
  · exact (h.2 trivial ((s₁.troubles_over step (.fault f)).symm.trans hs)).elim
  · exact h.2 trivial ((s₁.troubles_over step r).symm.trans hs)

/-- A plain step of a state comes to the step of its scene. -/
theorem State.scene_step (hn : Disturbs nest) (hu : s.extender.updating = false) (hl : s.extender.Located) {step : Step}
    (hp : step.isPlain = true) (hs : s.Smooth (s.step nest step).2) :
    ((s.step nest step).1, (s.step nest step).2.scene) = s.scene.perform step :=
  State.scene_of_calmly (Step.calmly_perform (s := s.noting (.stepBegan step)) hn (fun _ => hu) (fun _ => hl) step hp) hs

/-- Steps that are played one after the other come to a row of happenings. -/
theorem State.goes_play (hp : Plays nest) (steps : List Step) {s : State} (hu : s.extender.updating = false) :
    Goes s (s.play nest steps).2 := by
  induction steps generalizing s with
  | nil => exact .refl
  | cons step steps ih =>
    have hstep := State.goes_step hp step hu
    exact hstep.trans (ih (hstep.updating.trans hu))

/-- If there is no trouble while steps are played, there is none in the first one nor in the others. -/
theorem State.Smooth.of_cons (hp : Plays nest) {step : Step} {steps : List Step} {s : State} (hu : s.extender.updating = false)
    (h : s.Smooth (s.play nest (step :: steps)).2) :
    s.Smooth (s.step nest step).2 ∧ (s.step nest step).2.Smooth ((s.step nest step).2.play nest steps).2 := by
  have hstep := State.goes_step hp step hu
  have hle := hstep.troubles_le
  have hle' := (State.goes_play hp steps (hstep.updating.trans hu)).troubles_le
  change ((s.step nest step).2.play nest steps).2.troubles = s.troubles at h
  unfold Smooth
  omega

end PortExpander
