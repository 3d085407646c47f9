import PortExpander.Proofs.Refusals

/-!
# What computations are composed of

Whatever an extender does is composed of a few computations: it looks at its memory and at the board, changes them, adds an event or a
note to the history, lets operations fall in, lets the next pass begin, runs the worker, or calls the spare extender. What is shown of
these few, and carries over from two computations to the one after the other, holds of every operation and every step.
-/

namespace PortExpander

open Sim Engine

/-- The line of whose release an event tells. -/
def Event.released? : Event → Option Nat
  | released line => some line
  | _ => none

/-- If a note tells that a shutdown begins: the note of its end, by its answer. -/
def Note.shutdown? : Note → Option (Bool → Note)
  | opBegan .shutdown => some fun b => .opEnded .shutdown (.bit b)
  | stepBegan (.op .shutdown) => some fun b => .stepEnded (.op .shutdown) (.bit b)
  | _ => none

/-- What the computations of a session are composed of, where operations that fall in are played by `nest`. Lines are let go of in one way
only, and only the run of a worker replaces the agenda of the board. -/
inductive Sim.Composed (nest : Nest) : {α : Type} → Sim α → Prop where
  | pure {α : Type} (a : α) : Composed nest (Pure.pure a : Sim α)
  | throw {α : Type} (f : Fault) : Composed nest (MonadExcept.throw f : Sim α)
  | bind {α β : Type} {m : Sim β} {k : β → Sim α} : Composed nest m → (∀ b, Composed nest (k b)) → Composed nest (m >>= k)
  | extender : Composed nest Sim.extender
  | board : Composed nest Sim.board
  | modifyExtender {f : Extender → Extender} : (∀ e, (f e).lines = e.lines) → Composed nest (Sim.modifyExtender f)
  | modifyBoard {f : Board → Board} : (∀ b, (f b).agenda = b.agenda) → Composed nest (Sim.modifyBoard f)
  | emit {ev : Event} : ev.isNote = false → ev.released? = none → Composed nest (Sim.emit ev)
  | note {n : Note} : n.shutdown? = none → Composed nest (Sim.note n)
  | nested (ops : List Op) : Composed nest (nest ops)
  | pause : Composed nest (Sim.pause nest)
  | lettingGo {m : Sim Pass} : Composed nest m → Composed nest (Engine.lettingGo m)
  | releaseLines : Composed nest Engine.releaseLines
  | runWorker (ticks : List (List Op)) : Composed nest (Engine.work nest) → Composed nest (Session.runWorker nest ticks)
  | spared (targets : List Target) : Composed nest (Client.onSpare (do Client.writeEach true targets; Client.flush nest)).run

variable {α β : Type} {nest : Nest}

namespace Sim.Composed

/-- A choice between two computations is composed if both are. -/
theorem ite {p : Prop} [Decidable p] {m m' : Sim α} (h : Composed nest m) (h' : Composed nest m') :
    Composed nest (if p then m else m') := by
  split
  · exact h
  · exact h'

/-- A result is composed: it is a value or a fault. -/
theorem ofExcept (r : Except Fault α) : Composed nest (MonadExcept.ofExcept r : Sim α) := by
  cases r with
  | ok a => exact .pure a
  | error f => exact .throw f

/-- A record of the log is an event that is no note and releases no line. -/
theorem log (r : LogRecord) : Composed nest (Sim.log r) := .emit rfl rfl

/-- A notification of the worker is an event that is no note and releases no line. -/
theorem notify : Composed nest Sim.notify := .emit rfl rfl

/-- A request for work changes the memory and is noted. -/
theorem request (bits : Status) : Composed nest (Sim.request bits) := .bind (.modifyExtender fun _ => rfl) fun _ => .note rfl

end Sim.Composed

/-! ## Passes -/

namespace Engine

/-- A transaction, with what falls into it and the count of its failure. -/
theorem composed_transfer (a : Access) : Composed nest (transfer nest a) := by
  have hrecord (r : Except BusKind Byte) : Composed nest (record a r) := by
    cases r with
    | ok => exact .pure ()
    | error => exact .bind .extender fun _ => .bind (.modifyExtender fun _ => rfl) fun _ => .log _
  have hafter (b : Board) : (b.after a).agenda = b.agenda := by
    unfold Board.after
    dsimp only
    split
    · unfold Board.poke
      split <;> rfl
    · rfl
  have htransact : Composed nest (transact nest a) :=
    .bind .board fun _ => .bind (.modifyBoard fun _ => rfl) fun _ => .bind (.nested _) fun _ => .bind .board fun _ =>
      .bind (.modifyBoard hafter) fun _ => .bind (.emit rfl rfl) fun _ => .pure _
  exact .bind htransact fun r => .bind (hrecord r) fun _ => .pure r

/-- Writing a register of some groups is composed of their transactions. -/
theorem composed_writeGroups (reg : Byte) (value : Shadow → Nat → Byte) (groups : List Nat) :
    Composed nest (writeGroups nest reg value groups) := by
  induction groups with
  | nil => exact .pure true
  | cons g groups ih =>
    exact .bind .extender fun _ => .bind (.ofExcept _) fun _ => .bind (composed_transfer _) fun _ => .bind ih fun _ => .pure _

/-- Reading the inputs of some groups is composed of their transactions and of changes of the memory. -/
theorem composed_readGroups (groups : List Nat) : Composed nest (readGroups nest groups) := by
  induction groups with
  | nil => exact .pure _
  | cons g groups ih =>
    exact .bind .extender fun _ => .bind (.ofExcept _) fun _ => .bind (composed_transfer _) fun _ => .bind .extender fun _ =>
      .bind (.modifyExtender fun _ => rfl) fun _ => .bind ih fun _ => .pure _

/-- The part of a pass that writes the configuration. -/
theorem composed_syncConfig : Composed nest (syncConfig nest) := by
  have hpolarities (family : Family) (groups : List Nat) : Composed nest (writePolarities nest family groups) := by
    unfold writePolarities
    split
    · exact composed_writeGroups _ _ _
    · exact .pure true
  exact .bind .extender fun _ => .bind (hpolarities _ _) fun _ => .bind (composed_writeGroups _ _ _) fun _ =>
    .bind (.modifyExtender fun _ => rfl) fun _ => .pure _

/-- The part of a pass that writes the outputs. -/
theorem composed_syncWrites : Composed nest (syncWrites nest) :=
  .bind .extender fun _ => .bind (.modifyExtender fun _ => rfl) fun _ => composed_writeGroups _ _ _

/-- Calling the handlers is composed of what the handlers let fall in. -/
theorem composed_dispatch (refreshes : List Refresh) : Composed nest (dispatch nest refreshes) := by
  have hpin (pin : Nat) (was now : Bool) : Composed nest (dispatchPin nest pin was now) := by
    refine .bind .extender fun e => .ite (.bind (.ofExcept _) fun h => ?_) (.pure ())
    split
    · exact .ite (.bind (.log _) fun _ => .bind (.emit rfl rfl) fun _ => .bind .board fun _ => .nested _) (.pure ())
    · exact .pure ()
  have hpins (r : Refresh) (bits : List Nat) : Composed nest (dispatchPins nest r bits) := by
    induction bits with
    | nil => exact .pure ()
    | cons bit bits ih => exact .bind (.ofExcept _) fun _ => .bind (hpin _ _ _) fun _ => ih
  induction refreshes with
  | nil => exact .pure ()
  | cons r rs ih => exact .bind (hpins r _) fun _ => ih

/-- The part of a pass that reads the inputs and calls the handlers. -/
theorem composed_readInputs (groups : Byte) : Composed nest (readInputs nest groups) := by
  have hrearm : Composed nest rearm := .modifyExtender fun e => by cases e.engine <;> rfl
  have hreads : Composed nest (syncReads nest groups) :=
    .bind .extender fun _ => .bind (composed_readGroups _) fun _ => .bind (composed_dispatch _) fun _ => .pure _
  exact .bind hreads fun _ => .bind hrearm fun _ => .pure _

/-- Looking for what a pass has to do: at the line or at the queue. -/
theorem composed_gather (pending : Status) : Composed nest (gather pending) := by
  have hlook (m : Sampler) : Composed nest (sampleLine m) := by
    have hsample : Composed nest (sample 0) := .bind .board fun _ => .bind (.emit rfl rfl) fun _ => .pure _
    exact .bind hsample fun _ => .bind (.modifyExtender fun _ => rfl) fun _ => .pure _
  refine .bind .extender fun e => ?_
  split
  · exact .ite (.bind (hlook _) fun _ => .pure _) (.pure _)
  · exact .bind (.ofExcept _) fun _ => .bind (.modifyExtender fun _ => rfl) fun _ => .pure _

/-- A whole pass over what is pending. -/
theorem composed_service (pending : Status) : Composed nest (service nest pending) := by
  have hasked {asked : Bool} {part : Sim Bool} (h : Composed nest part) : Composed nest (ifAsked asked part) :=
    .ite h (.pure true)
  have hcomplete (clean : Bool) : Composed nest (complete clean) := by
    cases clean with
    | true => exact .bind (.modifyExtender fun _ => rfl) fun _ => .note rfl
    | false => exact .bind (.modifyExtender fun _ => rfl) fun _ => .bind (.request _) fun _ => .note rfl
  exact .bind (.note rfl) fun _ => .bind (composed_gather pending) fun _ => .bind (hasked composed_syncConfig) fun _ =>
    .bind (hasked composed_syncWrites) fun _ => .bind (hasked (composed_readInputs _)) fun _ => hcomplete _

/-- A pass together with its guard. -/
theorem composed_update : Composed nest (update nest) := by
  have htake : Composed nest take :=
    .bind .extender fun _ => .bind (.modifyExtender fun _ => rfl) fun _ => .bind (.note rfl) fun _ => .pure _
  have hhalt : Composed nest halt := .bind (.modifyExtender fun _ => rfl) fun _ => .bind .extender fun _ => .log _
  have hrelease : Composed nest release := .modifyExtender fun _ => rfl
  have hserve (pending : Status) : Composed nest (do service nest pending; release; return .ran : Sim Pass) :=
    .bind (composed_service _) fun _ => .bind hrelease fun _ => .pure _
  have hattempt : Composed nest (attempt nest) := by
    refine .bind .extender fun _ => .ite (.pure _) (.bind htake fun taken => .bind .extender fun e => ?_)
    refine .ite (.bind hhalt fun _ => .pure _) (.ite (.bind hrelease fun _ => .pure _) ?_)
    dsimp only
    split
    · exact .bind (.log _) fun _ => hserve _
    · exact hserve _
  refine .bind .extender fun _ => .ite (.bind (.note rfl) fun _ => .pure _) ?_
  exact .bind (.modifyExtender fun _ => rfl) fun _ => .bind (.lettingGo hattempt) fun _ => .bind (.note rfl) fun _ => .pure _

/-! ## The worker -/

/-- The time between two attempts is a pause. -/
theorem composed_delay (ms : Nat) : Composed nest (delay nest ms) := .bind (.emit rfl rfl) fun _ => .pause

/-- Waiting for work is an event and a pause. -/
theorem composed_awaitWork : Composed nest (awaitWork nest) := by
  refine .bind (.note rfl) fun _ => .bind .board fun b => .bind (.emit ?_ ?_) fun _ => .pause <;> split <;> rfl

/-- The worker: rounds of passes and of pauses. -/
theorem composed_work : Composed nest (work nest) := by
  have hrest : Composed nest (rest nest) := by
    have hback : Composed nest (backOff nest) :=
      .bind .extender fun _ => .ite (.bind (.note rfl) fun _ => composed_delay _) (.pure ())
    exact .bind hback fun _ => .bind .extender fun _ => .ite composed_awaitWork (.pure ())
  have hrounds (left : Nat) : Composed nest (rounds nest left) := by
    induction left with
    | zero => exact .throw _
    | succ left ih =>
      refine .bind composed_update fun p => ?_
      cases p with
      | stopped => exact .pure ()
      | contended => exact .bind composed_awaitWork fun _ => ih
      | idle | ran => exact .bind hrest fun _ => ih
  have hstart : Composed nest workerStarted := .bind .board fun _ => .ite (.emit rfl rfl) (.pure ())
  exact .bind hstart fun _ => .bind .extender fun _ => .bind (.log _) fun _ => .bind (.request _) fun _ =>
    .bind .board fun _ => hrounds _

/-- A shutdown is composed of its flag, one pass under the guard, and the release of the lines. -/
theorem composed_shutdown : Composed nest (shutdown nest) := by
  have hhalt (left : Nat) : Composed nest (awaitHalt nest left) := by
    induction left with
    | zero => exact .bind .extender fun _ => .bind (.log _) fun _ => .pure _
    | succ left ih =>
      refine .bind composed_update fun p => .ite (.bind .releaseLines fun _ => .pure _) ?_
      exact .bind (composed_delay _) fun _ => ih
  exact .bind (.request _) fun _ => .bind .notify fun _ => hhalt _

end Engine

/-! ## Calls of clients -/

/-- What an attempt is composed of, whether or not it is refused. -/
def Attempt.Composed (nest : Nest) (m : Attempt α) : Prop := Sim.Composed nest m.run

namespace Attempt.Composed

/-- A computation that cannot be refused, as an attempt. -/
theorem lift {m : Sim α} (hm : Sim.Composed nest m) : Composed nest (liftM m : Attempt α) := by
  unfold Composed
  rw [show ExceptT.run (liftM m : Attempt α) = m >>= fun a => Pure.pure (.ok a) from (ExceptT.run_lift m).trans (map_eq_pure_bind _ _)]
  exact hm.bind fun _ => .pure _

/-- Two attempts in a row are composed if both are. -/
theorem bind {m : Attempt β} {k : β → Attempt α} (hm : Composed nest m) (hk : ∀ b, Composed nest (k b)) :
    Composed nest (m >>= k) := by
  unfold Composed
  rw [ExceptT.run_bind]
  refine Sim.Composed.bind hm fun r => ?_
  cases r with
  | ok b => exact hk b
  | error e => exact .pure _

theorem pure (a : α) : Composed nest (Pure.pure a : Attempt α) := Sim.Composed.pure _

/-- A check is composed, whether it passes or refuses. -/
theorem check (r : Except Error α) : Composed nest (ofExcept r : Attempt α) := by
  cases r <;> exact Sim.Composed.pure _

/-- A lookup is composed, whether it finds its place or faults. -/
theorem lookup (r : Except Fault α) : Composed nest (Client.ensure r) := lift (.ofExcept r)

theorem extender : Composed nest (liftM Sim.extender : Attempt Extender) := lift .extender

/-- A change of the memory that leaves the lines, as an attempt. -/
theorem amend {f : Extender → Extender} (hf : ∀ e, (f e).lines = e.lines) :
    Composed nest (liftM (Sim.modifyExtender f) : Attempt Unit) := lift (.modifyExtender hf)

end Attempt.Composed

namespace Client

open Attempt.Composed

/-- The check that the extender has not been stopped. -/
theorem composed_ensureRunning : Attempt.Composed nest ensureRunning := by
  refine extender.bind fun e => ?_
  split <;> exact Sim.Composed.pure _

/-- Handlers bring polling about without a line's being touched. -/
theorem composed_updatePolling : Sim.Composed nest updatePolling := by
  refine .bind .extender fun e => ?_
  split <;> exact .bind (.modifyExtender fun _ => rfl) fun _ => .ite (.log _) (.pure ())

/-- Removing a handler. -/
theorem composed_removeHandler (pin : Nat) : Sim.Composed nest (removeHandler pin) :=
  .bind (.modifyExtender fun _ => rfl) fun _ => composed_updatePolling

/-- A claim, whether or not it is refused. -/
theorem composed_claim (pin : Nat) : Attempt.Composed nest (claim pin) :=
  composed_ensureRunning.bind fun _ => extender.bind fun _ => (check _).bind fun _ => (lookup _).bind fun _ =>
    (check _).bind fun _ => amend fun _ => rfl

/-- Freeing a pin, also one that was never claimed. -/
theorem composed_free (pin : Nat) : Sim.Composed nest (free pin) := by
  have hclaims : Sim.Composed nest (modifyExtender fun e => { e with claims := e.claims.free pin }) := .modifyExtender fun _ => rfl
  refine .bind .extender fun _ => .ite (.bind (.ofExcept _) fun _ => ?_) hclaims
  exact .bind (composed_removeHandler pin) fun _ => .bind (.ofExcept _) fun _ => hclaims

/-- A setup, whether or not it is refused. -/
theorem composed_setup (pin : Nat) (attrs : PinAttributes) : Attempt.Composed nest (setup pin attrs) :=
  composed_ensureRunning.bind fun _ => extender.bind fun _ => (check _).bind fun _ => (lookup _).bind fun _ =>
    Attempt.Composed.bind (amend fun _ => rfl) fun _ => (lift (.request _)).bind fun _ => lift .notify

/-- A write, whether or not it is refused. -/
theorem composed_write (pin : Nat) (high : Bool) : Attempt.Composed nest (write pin high) :=
  composed_ensureRunning.bind fun _ => extender.bind fun _ => (check _).bind fun _ => (lookup _).bind fun _ =>
    (lookup _).bind fun _ => amend fun _ => rfl

/-- Attaching a handler, whether or not it is refused. -/
theorem composed_attach (pin : Nat) (handler : Handler) : Attempt.Composed nest (attach pin handler) :=
  composed_ensureRunning.bind fun _ => extender.bind fun _ => (check _).bind fun _ => (lookup _).bind fun _ => (lookup _).bind fun _ =>
    (check _).bind fun _ => Attempt.Composed.bind (amend fun _ => rfl) fun _ => (lift composed_updatePolling).bind fun _ =>
      (lift (.request _)).bind fun _ => lift .notify

/-- Detaching a handler, whether or not it is refused. -/
theorem composed_detach (pin : Nat) : Attempt.Composed nest (detach pin) :=
  extender.bind fun _ => (check _).bind fun _ => (lookup _).bind fun _ => lift (composed_removeHandler pin)

/-- An interrupt, however little it may do. -/
theorem composed_interrupt (line : Nat) : Sim.Composed nest (interrupt line) := by
  have hqueue : Sim.Composed nest (enqueue line) := by
    refine .bind .extender fun e => ?_
    split
    · exact .pure ()
    · split
      · exact .modifyExtender fun _ => rfl
      · exact .request _
  exact .bind hqueue fun _ => .bind (.request _) fun _ => .notify

/-- A pass that a client runs. -/
theorem composed_syncPass : Sim.Composed nest (syncPass nest) :=
  .bind .board fun _ => .ite (.pure ()) (.bind composed_update fun _ => .ite (composed_delay _) (.pure ()))

/-- A flush is a pass of the client's own unless it is refused. -/
theorem composed_flush : Attempt.Composed nest (flush nest) :=
  composed_ensureRunning.bind fun _ => Attempt.Composed.bind (amend fun _ => rfl) fun _ => (lift (.request _)).bind fun _ =>
    (lift .notify).bind fun _ => lift composed_syncPass

/-- A reading, with the pass that it may need. -/
theorem composed_read (pin : Nat) : Attempt.Composed nest (read nest pin) := by
  have hrequest : Sim.Composed nest (requestInput pin) := by
    refine .bind .extender fun e => ?_
    split
    · exact .bind (.request _) fun _ => .notify
    · exact composed_interrupt _
  have hrefresh : Sim.Composed nest (refresh nest pin) :=
    .bind .extender fun _ => .ite (.bind hrequest fun _ => composed_syncPass) (.pure ())
  exact composed_ensureRunning.bind fun _ => extender.bind fun _ => (check _).bind fun _ => (lookup _).bind fun _ =>
    (lift hrefresh).bind fun _ => (lookup _).bind fun _ => extender.bind fun _ => pure _

/-- Writing many pins at once: the writes up to the first refusal, and the flush if there is none. -/
theorem composed_setMany (targets : List Target) : Attempt.Composed nest (setMany nest targets) := by
  have hwrites (foreign : Bool) (targets : List Target) : Attempt.Composed nest (writeEach foreign targets) := by
    induction targets with
    | nil => exact pure ()
    | cons t ts ih =>
      unfold writeEach
      dsimp only
      split
      · exact .throw _
      · exact (composed_write _ _).bind fun _ => ih
  cases targets with
  | nil => exact pure ()
  | cons first rest =>
    unfold setMany
    dsimp only
    split
    · rename_i hforeign
      rw [hforeign]
      exact .spared _
    · exact (hwrites _ _).bind fun _ => composed_flush

end Client

/-! ## Operations -/

namespace Session

/-- What an attempt answers, refused or not. -/
theorem composed_answering {m : Attempt Reply} (h : Attempt.Composed nest m) : Composed nest (answering m) := by
  refine .bind h fun r => ?_
  cases r <;> exact .pure _

/-- Every call of a client is composed. -/
theorem composed_answer (c : Call) : Attempt.Composed nest (c.answer nest) := by
  have hdone {α : Type} {m : Attempt α} (reply : α → Reply) (h : Attempt.Composed nest m) :
      Attempt.Composed nest (m >>= fun a => Pure.pure (reply a)) := h.bind fun _ => .pure _
  cases c with
  | setup pin attrs => exact hdone _ (Client.composed_setup pin attrs)
  | write pin high => exact hdone _ (Client.composed_write pin high)
  | read pin => exact hdone _ (Client.composed_read pin)
  | flush => exact hdone _ Client.composed_flush
  | attach pin handler => exact hdone _ (Client.composed_attach pin handler)
  | detach pin => exact hdone _ (Client.composed_detach pin)
  | interrupt line => exact hdone _ (.lift (Client.composed_interrupt line))
  | set pin high => exact hdone _ ((Client.composed_write pin high).bind fun _ => Client.composed_flush)
  | get pin high => exact hdone _ ((Client.composed_read pin).bind fun _ => .pure _)
  | setMany targets => exact hdone _ (Client.composed_setMany targets)

/-- Every operation is composed. -/
theorem composed_perform (o : Op) : Composed nest (perform nest o) := by
  cases o with
  | call c => exact composed_answering (composed_answer c)
  | update => exact .bind composed_update fun _ => .pure _
  | shutdown => exact .bind composed_shutdown fun _ => .pure _
  | run ticks => exact .runWorker ticks composed_work
  | info => exact .bind .extender fun _ => .pure _
  | indexOf pin => exact .pure _
  | change c =>
    have hchange (b : Board) : (b.change c).agenda = b.agenda := by
      cases c with
      | poke place value =>
        unfold Board.change Board.poke
        dsimp only
        split <;> rfl
      | _ => rfl
    exact .bind (.modifyBoard hchange) fun _ => .pure _
  | peek place => exact .bind .board fun _ => .pure _
  | hook after ops => exact .bind (.modifyBoard fun _ => rfl) fun _ => .pure _
  | handler argument ops => exact .bind (.modifyBoard fun _ => rfl) fun _ => .pure _
  | panic => exact .throw _

end Session

/-- Every step of a session is composed. -/
theorem Step.composed_perform (step : Step) : Composed nest (step.perform nest) := by
  cases step with
  | claim pin => exact Session.composed_answering ((Client.composed_claim pin).bind fun _ => .pure _)
  | free pin => exact .bind (Client.composed_free pin) fun _ => .pure _
  | op o => exact Session.composed_perform o

/-! ## The past makes no difference -/

/-- The state with a longer past. -/
def State.after (s : State) (past : History) : State := { s with history := s.history ++ past }

/-- What a computation does and comes to does not depend on what has happened before. -/
def Sim.Blind (m : Sim α) : Prop := ∀ (s : State) (past : History), m (s.after past) = ((m s).1, (m s).2.after past)

namespace Sim

namespace Blind

theorem pure (a : α) : Blind (Pure.pure a : Sim α) := fun _ _ => rfl

theorem throw (f : Fault) : Blind (MonadExcept.throw f : Sim α) := fun _ _ => rfl

/-- Two computations in a row do not ask for the past if neither does. -/
theorem bind {m : Sim β} {k : β → Sim α} (hm : Blind m) (hk : ∀ b, Blind (k b)) : Blind (m >>= k) := by
  intro s past
  rw [bind_apply, bind_apply, hm s past]
  rcases m s with ⟨f | b, s'⟩
  · rfl
  · exact hk b s' past

theorem extender : Blind Sim.extender := fun _ _ => rfl

theorem board : Blind Sim.board := fun _ _ => rfl

/-- A change of the memory does not ask for the past. -/
theorem modifyExtender (f : Extender → Extender) : Blind (Sim.modifyExtender f) := fun _ _ => rfl

/-- A change of the board does not ask for the past. -/
theorem modifyBoard (f : Board → Board) : Blind (Sim.modifyBoard f) := fun _ _ => rfl

/-- An event is put before the past, whatever it is. -/
theorem emit (ev : Event) : Blind (Sim.emit ev) := fun _ _ => rfl

/-- A note is put before the past, whatever it is. -/
theorem note (n : Note) : Blind (Sim.note n) := fun _ _ => rfl

/-- How a computation ends does not depend on the past either. -/
theorem outcome {m : Sim α} (hm : Blind m) : Blind (Sim.outcome m) := by
  intro s past
  unfold Sim.outcome
  rw [hm s past]
  rcases m s with ⟨_, s'⟩
  rfl

/-- A pass that lets the next one begin afterwards asks for the past no more than the pass itself. -/
theorem lettingGo {m : Sim Pass} (hm : Blind m) : Blind (Engine.lettingGo m) := by
  intro s past
  unfold Engine.lettingGo
  rw [hm s past]
  rcases m s with ⟨_ | _, s'⟩ <;> rfl

/-- Releasing the lines does not ask for the past. -/
theorem releaseLines : Blind Engine.releaseLines := by
  have heach (lines : List Nat) : Blind (lines.forM fun line => Sim.emit (.released line)) := by
    induction lines with
    | nil => exact pure ()
    | cons line lines ih => exact (emit _).bind fun _ => ih
  refine extender.bind fun e => ?_
  split
  · exact throw _
  · exact (modifyExtender _).bind fun _ => heach _

/-- What is done on the spare extender does not ask for the past. -/
theorem onSpare (m : Attempt α) : Blind (Client.onSpare m).run := by
  intro s past
  show ((m.run { s with extender := Client.spare, history := [] }).1, Client.backFrom (s.after past) _) =
    ((m.run { s with extender := Client.spare, history := [] }).1, (Client.backFrom s _).after past)
  unfold Client.backFrom State.after
  rw [List.append_assoc]

end Blind

/-- No computation depends on what has happened before, unless what plays the operations that fall in does. -/
theorem Composed.blind {m : Sim α} (h : Composed nest m) (hn : ∀ ops, Blind (nest ops)) : Blind m := by
  induction h with
  | pure a => exact .pure a
  | throw f => exact .throw f
  | bind _ _ hm hk => exact hm.bind hk
  | extender => exact .extender
  | board => exact .board
  | modifyExtender => exact .modifyExtender _
  | modifyBoard => exact .modifyBoard _
  | emit => exact .emit _
  | note => exact .note _
  | nested ops => exact hn ops
  | pause =>
    refine Blind.board.bind fun b => ?_
    split
    · exact .pure ()
    · split
      · exact .throw _
      · exact (Blind.modifyBoard _).bind fun _ => hn _
  | lettingGo _ hm => exact hm.lettingGo
  | releaseLines => exact .releaseLines
  | runWorker ticks _ hm =>
    refine Blind.board.bind fun _ => (Blind.modifyBoard _).bind fun _ => hm.outcome.bind fun r => (Blind.modifyBoard _).bind fun _ => ?_
    cases r <;> exact .pure _
  | spared => exact .onSpare _

end Sim

/-- Operations that fall in, to any depth, do not ask for the past. -/
theorem Session.blind_nestAt (depth : Nat) (ops : List Op) : Blind (nestAt depth ops) := by
  induction depth generalizing ops with
  | zero => cases ops <;> first | exact .pure () | exact .throw _
  | succ depth ih =>
    have hplay (ops : List Op) : Blind (playAll (perform (nestAt depth)) ops) := by
      induction ops with
      | nil => exact .pure ()
      | cons op ops hplay =>
        exact (Blind.note _).bind fun _ => ((composed_perform op).blind ih).bind fun _ => (Blind.note _).bind fun _ => hplay
    cases ops with
    | nil => exact .pure ()
    | cons op ops => exact Blind.board.bind fun _ => (Blind.modifyBoard _).bind fun _ => (hplay _).bind fun _ => .modifyBoard _

/-- What a step comes to does not depend on what has happened before. -/
theorem State.step_after (s : State) (depth : Nat) (step : Step) (past : History) : (s.after past).step (Session.nestAt depth) step =
    ((s.step (Session.nestAt depth) step).1, (s.step (Session.nestAt depth) step).2.after past) := by
  have h := (Step.composed_perform step).blind (Session.blind_nestAt depth) (s.noting (.stepBegan step)) past
  have hbegan : (s.after past).noting (.stepBegan step) = (s.noting (.stepBegan step)).after past := rfl
  unfold State.step
  rw [hbegan, h]
  rcases step.perform (Session.nestAt depth) (s.noting (.stepBegan step)) with ⟨_ | _, s'⟩ <;> rfl

/-- What a session shows of steps does not depend on what has happened before. -/
theorem State.play_after (s : State) (depth : Nat) (steps : List Step) (past : History) :
    (s.after past).play (Session.nestAt depth) steps =
      ((s.play (Session.nestAt depth) steps).1, (s.play (Session.nestAt depth) steps).2.after past) := by
  induction steps generalizing s with
  | nil => rfl
  | cons step steps ih =>
    unfold State.play
    rw [step_after]
    generalize s.step (Session.nestAt depth) step = result
    obtain ⟨reply, t⟩ := result
    have hevents : (t.after past).history.take ((t.after past).history.length - (s.after past).history.length) =
        t.history.take (t.history.length - s.history.length) := by
      unfold State.after
      rw [List.length_append, List.length_append, Nat.add_sub_add_right, List.take_append_of_le_length (Nat.sub_le _ _)]
    dsimp only
    rw [hevents, ih t]
    rfl

end PortExpander
