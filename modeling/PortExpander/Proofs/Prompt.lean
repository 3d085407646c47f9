import PortExpander.Proofs.Refusals

/-!
# Calls that do not wait

Calls come from interrupts, too, where nobody may wait and the bus is not to be used. Most calls only change the memory and ask for
work. Flushing and reading make a pass at once, but not in interrupt context. So a call in interrupt context, and a call of the other
kind in any context, does nothing but ask, and what it asks for stays asked for.
-/

namespace PortExpander

open Sim Engine

/-! ## What asking leaves as it was -/

/-- Whether an event is a signal, a record that tells nothing of the work of a pass, or the note of a request. No transaction, delay
or wait, no look at a line and no call of a handler is among them, and no stage of a pass. -/
def Event.isPrompt : Event → Bool
  | notified => true
  | logged r => r.isQuiet
  | noted (.requested _) _ => true
  | _ => false

/-- What leads from one state to the other is done at once. It has left the board as it was; all that has been asked for is
pending, and what was pending before still is: in the status word, among the dirty groups and in the queue; and the inputs are as
they were. -/
structure Prompt (s s' : State) : Prop where
  board : s'.board = s.board
  input : s'.extender.shadow.input = s.extender.shadow.input
  status : ∀ f, s.extender.status.contains f = true → s'.extender.status.contains f = true
  dirty : ∀ g, s.extender.shadow.dirty.getLsbD g = true → s'.extender.shadow.dirty.getLsbD g = true
  queue : ∀ q, s.extender.engine = .queued q → ∃ q', s'.extender.engine = .queued q' ∧ q.queue <+: q'.queue
  events : ∃ new, s'.history = new ++ s.history ∧ (∀ ev ∈ new, ev.isPrompt = true) ∧
    ∀ bits e, .noted (.requested bits) e ∈ new → s'.extender.status.contains bits = true

namespace Prompt

variable {s s' s'' : State}

theorem trans (h : Prompt s s') (h' : Prompt s' s'') : Prompt s s'' where
  board := h'.board.trans h.board
  input := h'.input.trans h.input
  status f hf := h'.status f (h.status f hf)
  dirty g hg := h'.dirty g (h.dirty g hg)
  queue q hq := by
    obtain ⟨q', hq', hp⟩ := h.queue q hq
    obtain ⟨q'', hq'', hp'⟩ := h'.queue q' hq'
    exact ⟨q'', hq'', hp.trans hp'⟩
  events := by
    obtain ⟨new, hnew, hprompt, hasked⟩ := h.events
    obtain ⟨new', hnew', hprompt', hasked'⟩ := h'.events
    refine ⟨new' ++ new, by rw [hnew', hnew, List.append_assoc], fun ev hm => ?_, fun bits e hm => ?_⟩
    · rcases List.mem_append.1 hm with hm | hm
      · exact hprompt' ev hm
      · exact hprompt ev hm
    · rcases List.mem_append.1 hm with hm | hm
      · exact hasked' bits e hm
      · exact h'.status bits (hasked bits e hm)

/-- A change of the memory alone that takes nothing back that is pending. -/
theorem amend (s : State) (f : Extender → Extender) (hi : (f s.extender).shadow.input = s.extender.shadow.input)
    (hs : (f s.extender).status = s.extender.status)
    (hd : ∀ g, s.extender.shadow.dirty.getLsbD g = true → (f s.extender).shadow.dirty.getLsbD g = true)
    (hq : ∀ q, s.extender.engine = .queued q → ∃ q', (f s.extender).engine = .queued q' ∧ q.queue <+: q'.queue) :
    Prompt s (s.amend f) where
  board := rfl
  input := hi
  status _ h := hs ▸ h
  dirty := hd
  queue := hq
  events := ⟨[], rfl, fun _ h => absurd h List.not_mem_nil, fun _ _ h => absurd h List.not_mem_nil⟩

/-- A change of the memory that is neither about what is pending nor about the inputs. -/
theorem of_eq (s : State) (f : Extender → Extender) (hs : (f s.extender).status = s.extender.status)
    (hshadow : (f s.extender).shadow = s.extender.shadow) (he : (f s.extender).engine = s.extender.engine) :
    Prompt s (s.amend f) :=
  amend s f (by rw [hshadow]) hs (fun _ h => by rw [hshadow]; exact h) fun q hq => ⟨q, he.trans hq, List.prefix_refl _⟩

/-- New registers of the shadow. -/
theorem shadow (s : State) (f : Shadow → Shadow) (hi : (f s.extender.shadow).input = s.extender.shadow.input)
    (hd : ∀ g, s.extender.shadow.dirty.getLsbD g = true → (f s.extender.shadow).dirty.getLsbD g = true) :
    Prompt s (s.amend fun e => { e with shadow := f e.shadow }) :=
  amend s _ hi rfl hd fun q hq => ⟨q, hq, List.prefix_refl _⟩

theorem refl (s : State) : Prompt s s := of_eq s id rfl rfl rfl

theorem seeing (s : State) {ev : Event} (hp : ev.isPrompt = true) (hn : ev.isNote = false) : Prompt s (s.seeing ev) where
  board := rfl
  input := rfl
  status _ h := h
  dirty _ h := h
  queue q hq := ⟨q, hq, List.prefix_refl _⟩
  events := by
    refine ⟨[ev], rfl, fun ev' hm => ?_, fun bits e hm => ?_⟩
    · rw [List.mem_singleton.1 hm]
      exact hp
    · rw [← List.mem_singleton.1 hm] at hn
      cases hn

/-- A request for work is prompt, and nothing that was pending is taken back. -/
theorem asking (s : State) (bits : Status) : Prompt s (s.asking bits) where
  board := rfl
  input := rfl
  status _ h := FlagSet.contains_union_left bits h
  dirty _ h := h
  queue q hq := ⟨q, hq, List.prefix_refl _⟩
  events := by
    refine ⟨[.noted (.requested bits) (s.asking bits).extender], rfl, fun ev hm => ?_, fun bits' e hm => ?_⟩
    · rw [List.mem_singleton.1 hm]
      rfl
    · cases List.mem_singleton.1 hm
      exact FlagSet.contains_union_right _ (FlagSet.contains_refl _)

/-- Work is asked for, and the worker is woken. -/
theorem asked (h : Prompt s s') (bits : Status) : Prompt s ((s'.asking bits).seeing .notified) ∧
    ((s'.asking bits).seeing .notified).extender.status.contains bits = true :=
  ⟨h.trans ((asking s' bits).trans (seeing _ rfl rfl)), FlagSet.contains_union_right _ (FlagSet.contains_refl _)⟩

end Prompt

/-! ## Calls of clients -/

namespace Client

variable {nest : Nest} {s : State}

/-- Polling is brought up to date at once. -/
theorem promptly_updatePolling (s : State) : updatePolling.Gives s (fun _ s' => Prompt s s') (fun _ => False) := by
  unfold updatePolling
  rw [gives_bind, gives_extender]
  split
  · rename_i m he
    simp only [gives_bind, gives_modifyExtender]
    have hp (polling : Bool) : Prompt s (s.amend ({ · with engine := .generic { m with polling } })) := by
      refine .amend s _ rfl rfl (fun _ h => h) fun q hq => ?_
      cases he.symm.trans hq
    split
    · exact (hp _).trans (.seeing _ rfl rfl)
    · exact hp _
  · rename_i q he
    simp only [gives_bind, gives_modifyExtender]
    have hp (polled : Byte) : Prompt s (s.amend ({ · with engine := .queued { q with polled } })) := by
      refine .amend s _ rfl rfl (fun _ h => h) fun q' hq => ?_
      cases he.symm.trans hq
      exact ⟨_, rfl, List.prefix_refl _⟩
    split
    · exact (hp _).trans (.seeing _ rfl rfl)
    · exact hp _

/-- A handler is removed at once. -/
theorem promptly_removeHandler (pin : Nat) (s : State) :
    (removeHandler pin).Gives s (fun _ s' => Prompt s s') (fun _ => False) := by
  unfold removeHandler
  rw [gives_bind, gives_modifyExtender]
  refine (promptly_updatePolling _).mono (fun _ s' h => ?_) fun _ h => h
  exact (Prompt.of_eq s (fun e => { e with handlers := e.handlers.remove pin }) rfl rfl rfl).trans h

/-- A claim is promptly made or promptly refused. -/
theorem promptly_claim (pin : Nat) (s : State) :
    (claim pin).Gives s (fun _ s' => Prompt s s') (fun _ s' => Prompt s s') (fun _ => False) := by
  refine (gives_claim pin s).mono (fun _ s' h => ?_) (fun _ s' h => ?_) fun _ h => h
  · obtain ⟨claims, -, -, rfl⟩ := h
    exact .of_eq s _ rfl rfl rfl
  · rw [h]
    exact .refl s

/-- A pin is freed at once. -/
theorem promptly_free (pin : Nat) (s : State) : (free pin).Gives s (fun _ s' => Prompt s s') (fun _ => False) := by
  have hfree (s' : State) (h : Prompt s s') : Prompt s (s'.amend fun e => { e with claims := e.claims.free pin }) :=
    h.trans (.of_eq s' _ rfl rfl rfl)
  rw [free_eq, gives_bind, gives_extender]
  dsimp only
  split
  · rw [gives_bind]
    exact (promptly_removeHandler pin s).mono (fun _ s' h => hfree s' h) fun _ h => h
  · exact hfree s (.refl s)

/-- A setup asks for the configuration to be written, or is refused and changes nothing. -/
theorem promptly_setup (pin : Nat) (attrs : PinAttributes) (s : State) : (setup pin attrs).Gives s
    (fun _ s' => Prompt s s' ∧ s'.extender.status.contains Status.configDirty = true) (fun _ s' => s' = s) (fun _ => False) := by
  rw [setup_eq, Attempt.gives_bind, gives_ensureRunning]
  split
  · rfl
  · simp only [Attempt.gives_bind, Attempt.gives_liftM, Attempt.gives_ofExcept, gives_extender, gives_modifyExtender,
      gives_request, gives_notify]
    refine ⟨fun _ _ => Prompt.asked (.shadow s (·.setup pin attrs) ?_ fun g hg => ?_) _, fun _ _ => trivial⟩
    · exact Shadow.input_setup _ pin attrs
    · rw [Shadow.dirty_setup]
      exact hg

/-- A write changes the output in the memory, or is refused and changes nothing. -/
theorem promptly_write (pin : Nat) (high : Bool) (s : State) :
    (write pin high).Gives s (fun _ s' => Prompt s s') (fun _ s' => s' = s) (fun _ => False) := by
  refine (gives_write s pin high).mono (fun _ s' h => ?_) (fun _ _ h => h.2) fun _ h => h
  obtain ⟨-, -, rfl⟩ := h
  exact .shadow s (·.write pin high) rfl fun _ h => h

/-- A handler is attached and a reading asked for, or the call is refused and changes nothing. -/
theorem promptly_attach (pin : Nat) (handler : Handler) (s : State) : (attach pin handler).Gives s
    (fun _ s' => Prompt s s' ∧ s'.extender.status.contains Status.readDirty = true) (fun _ s' => s' = s) (fun _ => False) := by
  rw [attach_eq, Attempt.gives_bind, gives_ensureRunning]
  split
  · rfl
  · simp only [Attempt.gives_bind, Attempt.gives_liftM, Attempt.gives_ofExcept, gives_extender, gives_modifyExtender,
      gives_request, gives_notify]
    refine ⟨fun _ _ => ⟨fun handlers _ => ?_, fun _ _ => trivial⟩, fun _ _ => trivial⟩
    refine (promptly_updatePolling (s.amend ({ · with handlers }))).mono (fun _ s' h => ?_) fun _ h => h
    exact Prompt.asked ((Prompt.of_eq s _ rfl rfl rfl).trans h) _

/-- A handler is detached at once, or the call is refused and changes nothing. -/
theorem promptly_detach (pin : Nat) (s : State) :
    (detach pin).Gives s (fun _ s' => Prompt s s') (fun _ s' => s' = s) (fun _ => False) := by
  rw [detach_eq]
  simp only [Attempt.gives_bind, Attempt.gives_liftM, Attempt.gives_ofExcept, gives_extender]
  exact ⟨fun _ _ => promptly_removeHandler pin s, fun _ _ => trivial⟩

/-- An interrupt asks for a look at the line or the queue. -/
theorem promptly_interrupt (line : Nat) (s : State) : (interrupt line).Gives s
    (fun _ s' => Prompt s s' ∧ s'.extender.status.contains Status.isrPending = true) (fun _ => False) := by
  unfold interrupt enqueue
  simp only [gives_bind, gives_extender, gives_request, gives_notify]
  split
  · exact Prompt.asked (.refl s) _
  · rename_i q he
    split
    · rename_i h
      have hq : Prompt s (s.amend ({ · with engine := .queued (q.push line h.served) })) := by
        refine .amend s _ rfl rfl (fun _ h => h) fun q' hq => ?_
        cases he.symm.trans hq
        exact ⟨_, rfl, List.prefix_append _ _⟩
      exact Prompt.asked hq _
    · exact Prompt.asked (.asking s .readDirty) _

/-! ### In interrupt context -/

/-- In interrupt context no client runs a pass. -/
theorem gives_syncPass (hc : s.board.interruptContext = true) {Q : Unit → State → Prop} {X : State → Prop} :
    (syncPass nest).Gives s Q X ↔ Q () s := by
  unfold syncPass
  rw [gives_bind, gives_board, if_pos hc]
  exact Iff.rfl

/-- In interrupt context a flush only asks for the outputs to be written. -/
theorem promptly_flush (hc : s.board.interruptContext = true) : (flush nest).Gives s
    (fun _ s' => Prompt s s' ∧ s'.extender.status.contains Status.writeDirty = true) (fun _ s' => s' = s) (fun _ => False) := by
  unfold flush
  rw [Attempt.gives_bind, gives_ensureRunning]
  split
  · rfl
  · simp only [Attempt.gives_bind, Attempt.gives_liftM, gives_modifyExtender, gives_request, gives_notify]
    refine (gives_syncPass (by exact hc)).2 (Prompt.asked (.shadow s Shadow.commit rfl fun g hg => ?_) _)
    rw [Shadow.getLsbD_dirty_commit, hg, Bool.true_or]

/-- In interrupt context a write with its flush only asks for the outputs to be written. -/
theorem promptly_set (hc : s.board.interruptContext = true) (pin : Nat) (high : Bool) : (set nest pin high).Gives s
    (fun _ s' => Prompt s s' ∧ s'.extender.status.contains Status.writeDirty = true) (fun _ s' => Prompt s s') (fun _ => False) := by
  unfold set
  rw [Attempt.gives_bind]
  refine (promptly_write pin high s).mono (fun _ s₁ h => ?_) (fun _ s' h => ?_) fun _ h => h
  · refine (promptly_flush (h.board.symm ▸ hc)).mono (fun _ s' h' => ⟨h.trans h'.1, h'.2⟩) (fun _ s' h' => ?_) fun _ h => h
    rw [h']
    exact h
  · rw [h]
    exact .refl s

end Client

/-- What is asked for before the input of a pin is known that no interrupt line would have reported. -/
def Extender.inputWork (e : Extender) : Status :=
  match e.engine with
  | .generic _ => .readDirty
  | .queued _ => .isrPending

/-- What is asked for to read a pin: nothing, if a line tells of its changes. -/
def Extender.readWork (e : Extender) (pin : Nat) : Status := if e.engine.Reports pin then ∅ else e.inputWork

namespace Client

variable {nest : Nest} {s : State}

/-- To ask for an input is prompt, and what serves it stays asked for. -/
theorem promptly_requestInput (pin : Nat) (s : State) : (requestInput pin).Gives s
    (fun _ s' => Prompt s s' ∧ s'.extender.status.contains s.extender.inputWork = true) (fun _ => False) := by
  unfold requestInput Extender.inputWork
  rw [gives_bind, gives_extender]
  cases s.extender.engine with
  | generic m =>
    simp only [gives_bind, gives_request, gives_notify]
    exact Prompt.asked (.refl s) _
  | queued q => exact promptly_interrupt _ s

/-- In interrupt context no reading waits for its pass. -/
theorem promptly_refresh (hc : s.board.interruptContext = true) (pin : Nat) : (refresh nest pin).Gives s
    (fun _ s' => Prompt s s' ∧ s'.extender.status.contains (s.extender.readWork pin) = true) (fun _ => False) := by
  unfold refresh Extender.readWork
  rw [gives_bind, gives_extender]
  split
  · rename_i hr
    rw [if_neg (Extender.readsThrough_iff.1 hr), gives_bind]
    refine (promptly_requestInput pin s).mono (fun _ s₁ h => (gives_syncPass ?_).2 h) fun _ h => h
    rw [h.1.board]
    exact hc
  · rename_i hr
    rw [if_pos (Extender.readsThrough_eq_false_iff.1 (Bool.eq_false_iff.2 hr))]
    exact ⟨.refl s, FlagSet.contains_empty _⟩

/-- In interrupt context a reading answers from the memory, and asks for the pass that it would have made. -/
theorem promptly_read (hc : s.board.interruptContext = true) (pin : Nat) : (read nest pin).Gives s
    (fun _ s' => Prompt s s' ∧ s'.extender.status.contains (s.extender.readWork pin) = true) (fun _ s' => s' = s)
    (fun _ => False) := by
  rw [read_eq, Attempt.gives_bind, gives_ensureRunning]
  split
  · rfl
  · simp only [Attempt.gives_bind, Attempt.gives_liftM, Attempt.gives_ofExcept, gives_extender, Attempt.gives_pure]
    exact ⟨fun _ _ => promptly_refresh hc pin, fun _ _ => trivial⟩

/-- Writes to several pins are prompt up to the first that is refused, or faults. -/
theorem promptly_writeEach (foreign : Bool) (targets : List Target) (s : State) :
    (writeEach foreign targets).Gives s (fun _ s' => Prompt s s') (fun _ s' => Prompt s s') (fun s' => Prompt s s') := by
  induction targets generalizing s with
  | nil => exact .refl s
  | cons t ts ih =>
    unfold writeEach
    dsimp only
    split
    · exact .refl s
    · rw [Attempt.gives_bind]
      refine (promptly_write t.pin t.high s).mono (fun _ s₁ h => ?_) (fun _ s' h => ?_) fun _ h => h.elim
      · exact (ih s₁).mono (fun _ _ h' => h.trans h') (fun _ _ h' => h.trans h') fun _ h' => h.trans h'
      · rw [h]
        exact .refl s

/-- Writing outputs and flushing them. -/
theorem promptly_writeEach_flush (hc : s.board.interruptContext = true) (foreign : Bool) (targets : List Target) :
    (do writeEach foreign targets
        flush nest : Attempt Unit).Gives s
      (fun _ s' => Prompt s s' ∧ s'.extender.status.contains Status.writeDirty = true) (fun _ s' => Prompt s s')
      (fun s' => Prompt s s') := by
  rw [Attempt.gives_bind]
  refine (promptly_writeEach foreign targets s).mono (fun _ s₁ h => ?_) (fun _ _ h => h) fun _ h => h
  refine (promptly_flush (h.board.symm ▸ hc)).mono (fun _ s' h' => ⟨h.trans h'.1, h'.2⟩) (fun _ s' h' => ?_) fun _ h => h.elim
  rw [h']
  exact h

/-- A prompt call of the spare extender is a prompt call that asks this one for nothing. -/
theorem prompt_backFrom {s' : State} (h : Prompt { s with extender := spare, history := [] } s') : Prompt s (backFrom s s') where
  board := h.board
  input := rfl
  status _ h := h
  dirty _ h := h
  queue q hq := ⟨q, hq, List.prefix_refl _⟩
  events := by
    obtain ⟨new, hnew, hprompt, -⟩ := h.events
    rw [List.append_nil] at hnew
    refine ⟨s'.history.filter (!·.isNote), rfl, fun ev hm => ?_, fun bits e hm => ?_⟩
    · rw [hnew] at hm
      exact hprompt ev (List.mem_filter.1 hm).1
    · exact absurd (List.mem_filter.1 hm).2 Bool.false_ne_true

end Client

/-- Whether a call makes a pass at once if the context allows. -/
def Call.makesPass : Call → Bool
  | read _ | flush | set .. | get .. | setMany _ => true
  | _ => false

/-- What a call asks for when it is not refused. -/
def Call.asks (e : Extender) : Call → Status
  | setup .. => .configDirty
  | flush | set .. => .writeDirty
  | attach .. => .readDirty
  | interrupt _ => .isrPending
  | read pin | get pin _ => e.readWork pin
  | setMany (first :: _) => if first.foreign then ∅ else .writeDirty
  | setMany [] | write .. | detach _ => ∅

/-- The computation is prompt, also when a fault ends it, and what its answer has asked for is pending if the answer is not an error. -/
def Sim.Promptly (m : Sim Reply) (s : State) (bits : Status) : Prop :=
  m.Gives s (fun r s' => Prompt s s' ∧ ((∀ err, r ≠ .error err) → s'.extender.status.contains bits = true)) (fun s' => Prompt s s')

/-- What a prompt attempt answers, it answers promptly. -/
theorem Session.promptly_answering {α : Type} {m : Attempt α} {s : State} {bits : Status} (reply : α → Reply)
    (h : m.Gives s (fun _ s' => Prompt s s' ∧ s'.extender.status.contains bits = true) (fun _ s' => Prompt s s')
      (fun s' => Prompt s s')) : (answering (do return reply (← m))).Promptly s bits := by
  refine gives_answering.2 ?_
  rw [Attempt.gives_bind]
  exact h.mono (fun _ _ h => ⟨h.1, fun _ => h.2⟩) (fun err _ h => ⟨h, fun hr => (hr err rfl).elim⟩) fun _ h => h

/-- In interrupt context writing many pins at once only asks for the outputs to be written. -/
theorem Client.promptly_setMany {nest : Nest} {s : State} (hc : s.board.interruptContext = true) (targets : List Target) :
    (setMany nest targets).Gives s
      (fun _ s' => Prompt s s' ∧ s'.extender.status.contains ((Call.setMany targets).asks s.extender) = true)
      (fun _ s' => Prompt s s') (fun s' => Prompt s s') := by
  cases targets with
  | nil => exact ⟨.refl s, FlagSet.contains_empty _⟩
  | cons first rest =>
    unfold setMany Call.asks
    dsimp only
    split
    · refine gives_onSpare.2 ((promptly_writeEach_flush (by exact hc) first.foreign (first :: rest)).mono (fun _ _ h => ?_)
        (fun _ _ h => prompt_backFrom h) fun _ h => prompt_backFrom h)
      exact ⟨prompt_backFrom h.1, FlagSet.contains_empty _⟩
    · exact promptly_writeEach_flush hc first.foreign (first :: rest)

/-- Every call is prompt, in interrupt context or if it is of the kind that makes no pass. -/
theorem Session.promptly_call {nest : Nest} {s : State} {c : Call} (hc : c.makesPass = true → s.board.interruptContext = true) :
    (perform nest (.call c)).Promptly s (c.asks s.extender) := by
  have hrefl {α : Type} {m : Attempt α} {bits : Status}
      (h : m.Gives s (fun _ s' => Prompt s s' ∧ s'.extender.status.contains bits = true) (fun _ s' => s' = s) (fun _ => False)) :
      m.Gives s (fun _ s' => Prompt s s' ∧ s'.extender.status.contains bits = true) (fun _ s' => Prompt s s')
        (fun s' => Prompt s s') :=
    h.mono (fun _ _ h => h) (fun _ _ h => by rw [h]; exact .refl s) fun _ h => h.elim
  have hnothing {m : Attempt Unit} (h : m.Gives s (fun _ s' => Prompt s s') (fun _ s' => s' = s) (fun _ => False)) :
      m.Gives s (fun _ s' => Prompt s s' ∧ s'.extender.status.contains ∅ = true) (fun _ s' => s' = s) (fun _ => False) :=
    h.mono (fun _ _ h => ⟨h, FlagSet.contains_empty _⟩) (fun _ _ h => h) fun _ h => h
  cases c with
  | setup pin attrs => exact promptly_answering (fun _ => .done) (hrefl (Client.promptly_setup pin attrs s))
  | write pin high => exact promptly_answering (fun _ => .done) (hrefl (hnothing (Client.promptly_write pin high s)))
  | read pin => exact promptly_answering .bit (hrefl (Client.promptly_read (hc rfl) pin))
  | flush => exact promptly_answering (fun _ => .done) (hrefl (Client.promptly_flush (hc rfl)))
  | attach pin handler => exact promptly_answering (fun _ => .done) (hrefl (Client.promptly_attach pin handler s))
  | detach pin => exact promptly_answering (fun _ => .done) (hrefl (hnothing (Client.promptly_detach pin s)))
  | interrupt line =>
    refine promptly_answering (m := liftM (Client.interrupt line)) (fun _ => .done) (Attempt.gives_liftM.2 ?_)
    exact (Client.promptly_interrupt line s).mono (fun _ _ h => h) fun _ h => h.elim
  | set pin high =>
    refine promptly_answering (fun _ => .done) ((Client.promptly_set (hc rfl) pin high).mono (fun _ _ h => h) (fun _ _ h => h) ?_)
    exact fun _ h => h.elim
  | get pin high =>
    refine promptly_answering .bit (hrefl ?_)
    unfold Client.get
    rw [Attempt.gives_bind]
    exact Client.promptly_read (hc rfl) pin
  | setMany targets => exact promptly_answering (fun _ => .done) (Client.promptly_setMany (hc rfl) targets)

/-- Calls in interrupt context do no work and do not wait. In every state, claiming and giving back a pin, and calls that make no
pass, and in interrupt context all calls, are prompt: they make no transaction, look at no line, call no handler and do not delay or
wait, also when they are refused or end in a fault; the board and the inputs are as they were, and nothing that is pending is
taken back. What a call that is not refused asks for is pending when it ends. -/
theorem calls_in_interrupt_context_are_prompt (nest : Nest) (s : State) :
    (∀ pin, ((Step.claim pin).perform nest).Promptly s ∅) ∧ (∀ pin, ((Step.free pin).perform nest).Promptly s ∅) ∧
    ∀ c : Call, (c.makesPass = true → s.board.interruptContext = true) →
      (Session.perform nest (.call c)).Promptly s (c.asks s.extender) := by
  refine ⟨fun pin => ?_, fun pin => ?_, fun c hc => Session.promptly_call hc⟩
  · refine Session.promptly_answering (fun _ => .done) ?_
    exact (Client.promptly_claim pin s).mono (fun _ _ h => ⟨h, FlagSet.contains_empty _⟩) (fun _ _ h => h) fun _ h => h.elim
  · unfold Step.perform Sim.Promptly
    rw [gives_bind]
    exact (Client.promptly_free pin s).mono (fun _ _ h => ⟨h, fun _ => FlagSet.contains_empty _⟩) fun _ h => h.elim

/-- The extender is told of an interrupt and its outputs are flushed in interrupt context: nothing is done on the bus, and both stay
pending. -/
theorem calls_in_interrupt_context_are_prompt_of_flush :
    let s := State.oneChip [.claim 0, .op (.call (.setup 0 PinAttributes.output)), .op (.change (.interruptContext true))]
    let nest := Session.nestAt 1
    s.board.interruptContext = true ∧
    (Session.perform nest (.call (.interrupt 0))).Promptly s .isrPending ∧
    (Session.perform nest (.call .flush)).Promptly s .writeDirty := by
  intro s nest
  have hc : s.board.interruptContext = true := by decide +kernel
  obtain ⟨-, -, hcall⟩ := calls_in_interrupt_context_are_prompt nest s
  exact ⟨hc, hcall (.interrupt 0) nofun, hcall .flush fun _ => hc⟩

end PortExpander
