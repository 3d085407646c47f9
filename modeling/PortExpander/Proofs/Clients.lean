import PortExpander.Proofs.Calls

/-!
# What calls of clients come to

Each call of a client leads by touches, and by the update that a flush or a read may make. A call to an extender that belongs to
somebody else changes nothing but the trace: that extender holds no pin, so its pass makes no transaction.
-/

namespace PortExpander

open Sim Engine

variable {α β : Type}

/-- From every state, the attempt comes to a row of happenings, whether or not it is refused. -/
def Attempt.Leads (m : Attempt α) : Prop :=
  ∀ s, m.Gives s (fun _ s' => Goes s s') (fun _ s' => Goes s s') (fun s' => Goes s s')

namespace Attempt

/-- Two attempts in a row lead on if both do. -/
theorem Leads.bind {m : Attempt α} {f : α → Attempt β} (hm : m.Leads) (hf : ∀ a, (f a).Leads) : (m >>= f).Leads := by
  intro s
  rw [gives_bind]
  refine (hm s).mono (fun a s₁ h₁ => ?_) (fun _ _ h => h) fun _ h => h
  exact (hf a s₁).mono (fun _ _ h => h₁.trans h) (fun _ _ h => h₁.trans h) fun _ h => h₁.trans h

/-- A computation leads on as an attempt if it does by itself. -/
theorem Leads.lift {m : Sim α} (hm : PortExpander.Leads m) : Attempt.Leads (liftM m) :=
  fun s => gives_liftM.2 (hm s)

end Attempt

/-- A pin that passes the check for a claim is claimed. -/
theorem Claims.isClaimed_of_checkClaimed {c : Claims} {pin : Nat} (h : c.checkClaimed pin = .ok ()) :
    c.isClaimed pin = true := by
  unfold checkClaimed checkRange at h
  split at h
  · cases hc : c.isClaimed pin with
    | true => rfl
    | false => rw [hc] at h; cases h
  · cases h

namespace Client

/-- The check that the extender has not been stopped refuses if it has been, and does nothing else. -/
theorem gives_ensureRunning {s : State} {Q : Unit → State → Prop} {E : Error → State → Prop} {X : State → Prop} :
    ensureRunning.Gives s Q E X ↔ if s.extender.isStopped = true then E .stopped s else Q () s := by
  unfold ensureRunning
  rw [Attempt.gives_bind, Attempt.gives_liftM, gives_extender]
  split <;> exact Iff.rfl

/-- A pin that has been set up is claimed, and its configuration is asked for. -/
theorem gives_setup {pin : Nat} {attrs : PinAttributes} {s : State} {e : Extender}
    (hb : s.history.begun? = some (.call (.setup pin attrs), e)) : (setup pin attrs).Gives s (fun _ s' => Goes s s' ∧ s'.extender.Confirms (.call (.setup pin attrs)) .done)
      (fun _ s' => s' = s) (fun _ => False) := by
  rw [setup_eq]
  rw [Attempt.gives_bind, gives_ensureRunning]
  split
  · rfl
  · have hs : s.extender.isStopped = false := Bool.eq_false_iff.2 ‹_›
    simp only [Attempt.gives_bind, Attempt.gives_liftM, Attempt.gives_ofExcept, gives_extender, gives_modifyExtender,
      gives_request, gives_notify]
    refine ⟨fun _ hc => ⟨?_, Claims.isClaimed_of_checkClaimed hc, ?_⟩, fun _ _ => trivial⟩
    · exact (Touch.goes (.setUp pin attrs hs hc hb)).trans (Touch.goes (.see _ rfl))
    · exact FlagSet.contains_union_right _ (FlagSet.contains_refl _)

/-- A write leads on by a change of the output of its pin. -/
theorem leads_write (pin : Nat) (high : Bool) : (write pin high).Leads := by
  intro s
  rw [write_eq]
  rw [Attempt.gives_bind, gives_ensureRunning]
  split
  · exact .refl
  · have hs : s.extender.isStopped = false := Bool.eq_false_iff.2 ‹_›
    simp only [Attempt.gives_bind, Attempt.gives_liftM, Attempt.gives_ofExcept, gives_extender, gives_modifyExtender]
    exact ⟨fun _ hc => (Touch.write pin high hs hc).goes, fun _ _ => .refl⟩

/-- The engine polls what has a handler and no line, and makes a record of a change. -/
theorem gives_updatePolling (s : State) :
    updatePolling.Gives s
      (fun _ s' => Touched (s.amend (·.repolled)) s' ∧ s'.extender = s.extender.repolled ∧ s'.board = s.board)
      (fun _ => False) := by
  unfold updatePolling
  rw [gives_bind, gives_extender]
  unfold Extender.repolled
  split
  · rename_i m he
    simp only [gives_bind, gives_modifyExtender, State.amend, he]
    split
    · exact ⟨.single (.see _ rfl), rfl, rfl⟩
    · exact ⟨.refl, rfl, rfl⟩
  · rename_i q he
    simp only [gives_bind, gives_modifyExtender, State.amend, he]
    split
    · exact ⟨.single (.see _ rfl), rfl, rfl⟩
    · exact ⟨.refl, rfl, rfl⟩

/-- Attaching a handler leads on. -/
theorem leads_attach (pin : Nat) (handler : Handler) : (attach pin handler).Leads := by
  intro s
  rw [attach_eq]
  rw [Attempt.gives_bind, gives_ensureRunning]
  split
  · exact .refl
  · have hs : s.extender.isStopped = false := Bool.eq_false_iff.2 ‹_›
    simp only [Attempt.gives_bind, Attempt.gives_liftM, Attempt.gives_ofExcept, gives_extender, gives_modifyExtender,
      gives_request, gives_notify]
    refine ⟨fun _ hc => ⟨fun handlers hi => ?_, fun _ _ => .refl⟩, fun _ _ => .refl⟩
    refine (gives_updatePolling (s.amend ({ · with handlers }))).mono (fun _ s' h => ?_) fun _ h => h.elim
    have hw : Goes s s' := (Touch.goes (.attach pin handler handlers hs hc hi)).trans h.1.goes
    exact (hw.trans (Touch.goes (.ask _ (by decide)))).trans (Touch.goes (.see _ rfl))

/-- A handler that has been taken away is gone. -/
theorem gives_removeHandler (pin : Nat) (s : State) :
    (removeHandler pin).Gives s (fun _ s' => Goes s s' ∧ s'.extender.handlers pin = none) (fun _ => False) := by
  unfold removeHandler
  rw [gives_bind, gives_modifyExtender]
  refine (gives_updatePolling (s.amend fun e => { e with handlers := e.handlers.remove pin })).mono (fun _ s' h => ?_)
    fun _ h => h
  refine ⟨(Touch.goes (.detach pin)).trans h.1.goes, ?_⟩
  rw [h.2.1, Extender.handlers_repolled]
  exact if_pos rfl

/-- Removing a handler leads on. -/
theorem leads_removeHandler (pin : Nat) : Leads (removeHandler pin) :=
  fun s => (gives_removeHandler pin s).mono (fun _ _ h => h.1) fun _ h => h.elim

/-- Detaching a handler leads on. -/
theorem leads_detach (pin : Nat) : (detach pin).Leads := by
  intro s
  rw [detach_eq]
  simp only [Attempt.gives_bind, Attempt.gives_liftM, Attempt.gives_ofExcept, gives_extender]
  exact ⟨fun _ _ => leads_removeHandler pin s, fun _ _ => .refl⟩

/-- What an interrupt makes of the memory; no operation begins meanwhile. -/
theorem gives_interrupt (line : Nat) (s : State) :
    (interrupt line).Gives s (fun _ s' => Goes s s' ∧ s'.extender = s.extender.interrupted line ∧
      s'.history.begun? = s.history.begun?) (fun _ => False) := by
  unfold interrupt enqueue
  simp only [gives_bind, gives_extender, gives_request, gives_notify]
  have hask (s₁ : State) (h : Goes s s₁) : Goes s ((s₁.asking .isrPending).seeing .notified) :=
    (h.trans (Touch.goes (.ask _ (by decide)))).trans (Touch.goes (.see _ rfl))
  split
  · rename_i m he
    refine ⟨hask s .refl, ?_, rfl⟩
    simp only [Extender.interrupted, he]
    rfl
  · rename_i q he
    split
    · rename_i hc
      refine ⟨(Touch.goes (.enqueue line hc.served he hc.room)).trans (Touch.goes (.see _ rfl)), ?_, rfl⟩
      simp only [Extender.interrupted, he, dif_pos hc]
      rfl
    · rename_i hc
      refine ⟨hask _ (Touch.goes (.ask _ (by decide))), ?_, rfl⟩
      simp only [Extender.interrupted, he, dif_neg hc]
      rfl

/-- An interrupt leads on: it is kept in the status word, and in the queue if there is one. -/
theorem leads_interrupt (line : Nat) : Leads (interrupt line) :=
  fun s => (gives_interrupt line s).mono (fun _ _ h => h.1) fun _ h => h.elim

section

variable {nest : Nest} (hp : Plays nest)

include hp

/-- A pass that a client runs leads on. -/
theorem leads_syncPass : Leads (syncPass nest) := by
  refine Leads.board.bind fun b => .ite (.pure ()) ?_
  exact (leads_update hp).bind fun p => .ite (leads_delay hp _) (.pure ())

/-- A flush leads on by a request and a pass. -/
theorem leads_flush : (flush nest).Leads := by
  intro s
  unfold flush
  rw [Attempt.gives_bind, gives_ensureRunning]
  split
  · exact .refl
  · have hs : s.extender.isStopped = false := Bool.eq_false_iff.2 ‹_›
    simp only [Attempt.gives_bind, Attempt.gives_liftM, gives_modifyExtender, gives_request, gives_notify]
    have hw : Goes s (((s.amend fun e => { e with shadow := e.shadow.commit }).asking .writeDirty).seeing .notified) :=
      (Touch.goes (.commit hs)).trans (Touch.goes (.see _ rfl))
    exact (leads_syncPass hp _).mono (fun _ _ h => hw.trans h) fun _ h => hw.trans h

/-- The pass that a reading may need leads on. -/
theorem leads_refresh (pin : Nat) : Leads (refresh nest pin) := by
  have hr : Leads (requestInput pin) := by
    refine Leads.extender.bind fun e => ?_
    split
    · exact (Leads.request (by decide)).bind fun _ => .notify
    · exact leads_interrupt _
  exact Leads.extender.bind fun e => .ite (hr.bind fun _ => leads_syncPass hp) (.pure ())

/-- A pin reads as its input in the memory when the call is over. -/
theorem gives_read (pin : Nat) (s : State) :
    (read nest pin).Gives s (fun v s' => Goes s s' ∧ v = s'.extender.shadow.input.get pin) (fun _ s' => Goes s s')
      (fun s' => Goes s s') := by
  rw [read_eq]
  rw [Attempt.gives_bind, gives_ensureRunning]
  split
  · exact .refl
  · simp only [Attempt.gives_bind, Attempt.gives_liftM, Attempt.gives_ofExcept, gives_extender, Attempt.gives_pure]
    exact ⟨fun _ _ => (leads_refresh hp pin s).mono (fun _ _ h => ⟨h, trivial⟩) fun _ h => h, fun _ _ => .refl⟩

/-- A reading leads on. -/
theorem leads_read (pin : Nat) : (read nest pin).Leads :=
  fun s => (gives_read hp pin s).mono (fun _ _ h => h.1) (fun _ _ h => h) fun _ h => h

/-- A write with its flush leads on. -/
theorem leads_set (pin : Nat) (high : Bool) : (set nest pin high).Leads :=
  (leads_write pin high).bind fun _ => leads_flush hp

/-- A reading that inverts its answer leads on. -/
theorem leads_get (pin : Nat) (high : Bool) : (get nest pin high).Leads :=
  (leads_read hp pin).bind fun _ _ => .refl

end

/-! ## Calls of another extender -/

section

variable {nest : Nest}

/-- The board is as it was, and nothing has been added to the history but notes and quiet events. -/
def Idled (b : Board) (h : History) (s : State) : Prop :=
  s.board = b ∧ ∃ evs, s.history = evs ++ h ∧ ∀ ev ∈ evs, ev.isNote = true ∨ ev.isQuiet = true

theorem Idled.refl (e : Extender) (b : Board) (h : History) : Idled b h ⟨e, b, h⟩ :=
  ⟨rfl, [], rfl, fun _ h => absurd h List.not_mem_nil⟩

theorem Idled.seeing {b : Board} {h : History} {s : State} {ev : Event} (hi : Idled b h s)
    (he : ev.isNote = true ∨ ev.isQuiet = true) : Idled b h (s.seeing ev) := by
  obtain ⟨hb, evs, hh, hq⟩ := hi
  refine ⟨hb, ev :: evs, by rw [State.history_seeing, hh, List.cons_append], fun ev' h' => ?_⟩
  rcases List.mem_cons.1 h' with rfl | h'
  · exact he
  · exact hq ev' h'

theorem Idled.noting {b : Board} {h : History} {s : State} (n : Note) (hi : Idled b h s) : Idled b h (s.noting n) :=
  hi.seeing (.inl rfl)

/-- The spare extender after some writes, which change its shadow registers only. -/
def spareWith (sh : Shadow) : Extender := { spare with shadow := sh }

/-- The spare extender has not been stopped. -/
theorem isStopped_spareWith (sh : Shadow) : (spareWith sh).isStopped = false := by
  show (false || (∅ : Status).contains Status.stop) = false
  decide

/-- A pass that has only outputs to write makes no transaction if no pin is claimed. -/
theorem gives_service_unclaimed {b : Board} {h : History} {s : State} (hi : Idled b h s)
    (hc : s.extender.claims.groups = 0) {m : Sampler} (he : s.extender.engine = .generic m) :
    (service nest .writeDirty).Gives s (fun _ s' => Idled b h s') (fun _ => False) := by
  have hg : (s.extender.shadow.dirty &&& s.extender.claims.groups).groups = [] := by
    rw [hc]
    show Byte.groups (_ &&& 0#8) = []
    rw [BitVec.and_zero]
    rfl
  have hplan : Plan.ofRequests .writeDirty 0 = ⟨false, true, 0⟩ := by decide
  unfold service
  simp only [gather_eq, gives_bind, gives_note, gives_extender]
  split
  · rw [if_neg (by rw [Bool.and_eq_true]; exact fun hl => absurd hl.1 (by decide)), gives_pure, hplan]
    unfold ifAsked syncWrites
    simp only [Bool.false_eq_true, if_false, if_true, gives_pure, gives_bind, gives_extender, gives_modifyExtender,
      State.extender_noting, hg, writeGroups]
    rw [if_neg (by decide), gives_pure, gives_complete]
    exact Idled.noting (s := (s.noting _).amend _ |>.amend _) _ (hi.noting _)
  · rename_i q hq
    cases he.symm.trans hq

/-- An update of the spare extender of which outputs are asked for makes a pass that does nothing. -/
theorem gives_update_spare {sh : Shadow} {s : State} {b : Board} {h : History} (hi : Idled b h s)
    (he : s.extender = { spareWith sh with status := .writeDirty }) :
    (update nest).Gives s (fun p s' => p = .ran ∧ Idled b h s') (fun _ => False) := by
  have hw : s.extender.work = .writeDirty := by
    rw [he]
    show Status.writeDirty.pending ∪ ∅ = _
    decide
  refine gives_update_of_work (by rw [he]; rfl) (by rw [he]; rfl) (by rw [hw]; decide) (by rw [hw, he]; rfl) ?_
  rw [hw]
  have hst : s.held.taken.started .writeDirty =
      s.held.taken.seeing (.logged (.passStarted s.extender.family.name .writeDirty)) := by
    unfold State.started
    rw [show s.held.taken.extender.engine = spare.engine by show s.extender.engine = _; rw [he]; rfl]
    rfl
  rw [hst]
  have hi' : Idled b h (s.held.taken.seeing (.logged (.passStarted s.extender.family.name .writeDirty))) :=
    (Idled.noting (s := s.held.amend ({ · with status := .busy })) _ hi).seeing (.inr rfl)
  refine (gives_service_unclaimed hi' ?_ (m := { wired := false, high := false, polling := false }) ?_).mono
    (fun _ s' h => ⟨rfl, ?_⟩) fun _ h => h.elim
  · show s.extender.claims.groups = 0
    rw [he]
    show (PinMap.groups ⟨0⟩) = 0
    decide
  · show s.extender.engine = _
    rw [he]
    rfl
  · exact Idled.noting (s := letGo s'.released) _ h

/-- A flush of the spare extender makes no transaction. -/
theorem gives_flush_spare (sh : Shadow) (b : Board) (h : History) :
    (flush nest).Gives ⟨spareWith sh, b, h⟩ (fun _ s' => Idled b h s') (fun _ _ => False) (fun _ => False) := by
  unfold flush
  rw [Attempt.gives_bind, gives_ensureRunning, if_neg (Bool.eq_false_iff.1 (isStopped_spareWith sh))]
  simp only [Attempt.gives_bind, Attempt.gives_liftM, gives_modifyExtender, gives_request, gives_notify]
  generalize hs : State.seeing _ .notified = s
  have hi : Idled b h s := by
    rw [← hs]
    exact ⟨rfl, [.notified, .noted (.requested .writeDirty) _], rfl, by simp [Event.isNote, Event.isQuiet]⟩
  have he : s.extender = { spareWith sh.commit with status := .writeDirty } := by
    rw [← hs]
    show { spareWith sh.commit with status := ∅ ∪ Status.writeDirty } = _
    rw [show (∅ ∪ Status.writeDirty : Status) = .writeDirty by decide]
  have hrun : (update nest).Gives s (fun p s' => p = .ran ∧ Idled b h s') (fun _ => False) := gives_update_spare hi he
  unfold syncPass
  simp only [gives_bind, gives_board]
  split
  · exact hi
  · rw [gives_bind]
    refine hrun.mono (fun p s' h => ?_) fun _ h => h
    have hne : p ≠ .contended := by
      intro hc
      cases h.1.symm.trans hc
    rw [if_neg hne]
    exact h.2

/-- Writing through handles of the spare extender changes its shadow registers only. -/
theorem gives_writeEach_spare (targets : List Target) (sh : Shadow) (b : Board) (h : History) :
    (writeEach true targets).Gives ⟨spareWith sh, b, h⟩
      (fun _ s' => ∃ sh', s' = ⟨spareWith sh', b, h⟩) (fun _ s' => Idled b h s') (fun s' => Idled b h s') := by
  induction targets generalizing sh with
  | nil => exact ⟨sh, rfl⟩
  | cons t ts ih =>
    unfold writeEach
    dsimp only
    split
    · exact Idled.refl _ b h
    · simp only [write_eq, Attempt.gives_bind, gives_ensureRunning]
      rw [if_neg (Bool.eq_false_iff.1 (isStopped_spareWith sh))]
      simp only [Attempt.gives_liftM, Attempt.gives_ofExcept, gives_extender, gives_modifyExtender]
      exact ⟨fun _ _ => ih (sh.write t.pin t.high), fun _ _ => Idled.refl _ b h⟩

/-- The state has gone on by signals and records alone. -/
def Overheard (s s' : State) : Prop :=
  ∃ evs : History, s' = { s with history := evs ++ s.history } ∧ ∀ ev ∈ evs, ev.isQuiet = true

/-- A call of the spare extender leaves nothing behind but signals and records. -/
theorem overheard_onSpare {m : Attempt Unit} {s : State}
    (h : m.Gives { s with extender := spare, history := [] } (fun _ s' => Idled s.board [] s')
      (fun _ s' => Idled s.board [] s') (fun s' => Idled s.board [] s')) :
    (onSpare m).Gives s (fun _ s' => Overheard s s') (fun _ s' => Overheard s s') (fun s' => Overheard s s') := by
  have key (s' : State) (hi : Idled s.board [] s') :
      Overheard s { s' with extender := s.extender, history := s'.history.filter (!·.isNote) ++ s.history } := by
    obtain ⟨hb, evs, hh, hq⟩ := hi
    rw [List.append_nil] at hh
    refine ⟨s'.history.filter (!·.isNote), by rw [hb], fun ev hev => ?_⟩
    rw [List.mem_filter, Bool.not_eq_true', hh] at hev
    exact (hq ev hev.1).resolve_left (by rw [hev.2]; exact Bool.false_ne_true)
  unfold Attempt.Gives Gives at h ⊢
  have hrun : (onSpare m).run s = match m.run { s with extender := spare, history := [] } with
      | (r, s') => (r, { s' with
          extender := s.extender, history := s'.history.filter (fun ev : Event => !ev.isNote) ++ s.history }) := rfl
  rw [hrun]
  revert h
  rcases m.run { s with extender := spare, history := [] } with ⟨_ | _ | _, s'⟩ <;> exact key s'

/-- Outputs of the spare extender are written and flushed. -/
theorem gives_spared (nest : Nest) (targets : List Target) (s : State) :
    (onSpare (do writeEach true targets; flush nest)).Gives s (fun _ s' => Overheard s s') (fun _ s' => Overheard s s')
      (fun s' => Overheard s s') := by
  refine overheard_onSpare (Attempt.gives_bind.2 ?_)
  refine (gives_writeEach_spare _ .empty _ _).mono (fun _ s₁ h₁ => ?_) (fun _ _ h => h) fun _ h => h
  obtain ⟨sh, rfl⟩ := h₁
  exact (gives_flush_spare sh _ _).mono (fun _ _ h => h) (fun _ _ h => h.elim) fun _ h => h.elim

end

/-- Writes to several pins lead on one by one. -/
theorem leads_writeEach (foreign : Bool) (targets : List Target) : (writeEach foreign targets).Leads := by
  induction targets with
  | nil => exact fun _ => .refl
  | cons t ts ih =>
    unfold writeEach
    dsimp only
    split
    · exact fun _ => .refl
    · exact (leads_write t.pin t.high).bind fun _ => ih

/-- Writing many pins at once leads on, also when a handle is of another extender. -/
theorem leads_setMany {nest : Nest} (hp : Plays nest) (targets : List Target) : (setMany nest targets).Leads := by
  unfold setMany
  split
  · exact fun _ => .refl
  · rename_i first rest
    split
    · rename_i hf
      rw [hf]
      intro s
      have hgoes {s' : State} (h : Overheard s s') : Goes s s' := by
        obtain ⟨evs, rfl, hq⟩ := h
        exact (touched_of_quiet s evs hq).goes
      exact (gives_spared nest _ s).mono (fun _ _ => hgoes) (fun _ _ => hgoes) fun _ => hgoes
    · exact (leads_writeEach _ _).bind fun _ => leads_flush hp

end Client

end PortExpander
