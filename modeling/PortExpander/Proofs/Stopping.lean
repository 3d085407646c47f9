import PortExpander.Proofs.Moments

/-!
# Stopping for good

A stop that has been requested stays pending until a pass takes it, and the pass that takes it halts the extender. From the
request on no pass begins any more, and calls of clients are refused. An extender that has been shut down does nothing at all.
-/

namespace PortExpander

open Sim Engine

/-- Whether the extender is stopped at the moment of a note: it has halted, or the stop is pending, or has just been taken by the
pass that is about to halt. -/
def Note.Stopping (n : Note) (e : Extender) : Prop :=
  e.isStopped = true ∨ ∃ bits, n = .took bits ∧ bits.contains Status.stop = true

/-- Stopped is who has halted or has been asked to. -/
theorem Extender.isStopped_iff {e : Extender} :
    e.isStopped = true ↔ e.halted = true ∨ e.status.contains Status.stop = true := by
  rw [isStopped, Bool.or_eq_true]

/-- Nothing that is done between updates, nor the work of a pass, makes a stop go away. -/
theorem Steady.isStopped {e e' : Extender} (h : Steady e e') (hs : e.isStopped = true) : e'.isStopped = true := by
  rw [Extender.isStopped_iff] at hs ⊢
  rcases hs with hs | hs
  · exact .inl (h.halted.trans hs)
  · exact .inr (h.status _ hs)

/-- An extender that is not halted and has no stop among its work is not stopped. -/
theorem Extender.not_isStopped {e : Extender} (hh : e.halted = false) (hw : e.work.contains Status.stop = false) :
    e.isStopped = false := by
  cases hs : e.isStopped with
  | false => rfl
  | true =>
    rcases Extender.isStopped_iff.1 hs with h | h
    · rw [hh] at h
      cases h
    · have hp := Status.contains_pending h (by decide) (by decide)
      rw [work, FlagSet.contains_union_left _ hp] at hw
      cases hw

/-- What is added to the history by one move from a state in which the extender is stopped. -/
structure StoppedMove (s s' : State) (new : History) : Prop where
  history : s'.history = new ++ s.history
  stopped : s'.extender.isStopped = true
  notes : ∀ n e, .noted n e ∈ new → n.Stopping e ∧ (∀ p, n ≠ .passBegan p) ∧
    (s'.extender.updating = true → e.updating = true)
  work : ∀ ev ∈ new, ev.isWork = true → s.extender.updating = true ∧ new = [ev]
  busy : s'.extender.updating = true → s.extender.updating = true

/-- A move that adds one note of the memory after it, which is no stage at which work begins. -/
theorem StoppedMove.of_note {s s' : State} {n : Note} (hh : s'.history = .noted n s'.extender :: s.history)
    (hs : s'.extender.isStopped = true) (hp : ∀ p, n ≠ .passBegan p)
    (hu : s'.extender.updating = true → s.extender.updating = true) : StoppedMove s s' [.noted n s'.extender] where
  history := hh
  stopped := hs
  notes m e hm := by
    cases List.mem_singleton.1 hm
    exact ⟨.inl hs, hp, id⟩
  work ev hm hw := by
    cases List.mem_singleton.1 hm
    cases hw
  busy := hu

/-- A move that adds nothing to the history. -/
theorem StoppedMove.of_nothing {s s' : State} (hh : s'.history = s.history) (hs : s'.extender.isStopped = true)
    (hu : s'.extender.updating = s.extender.updating) : StoppedMove s s' [] where
  history := hh
  stopped := hs
  notes _ _ h := absurd h List.not_mem_nil
  work _ h := absurd h List.not_mem_nil
  busy h := hu ▸ h

/-- A move that adds one event to the history. -/
theorem StoppedMove.of_event {s s' : State} {ev : Event} (hh : s'.history = ev :: s.history)
    (hn : ∀ n e, ev = .noted n e → n.isStage = false ∧ e = s'.extender) (hs : s'.extender.isStopped = true)
    (hu : s'.extender.updating = s.extender.updating) (hw : ev.isWork = true → s.extender.updating = true) :
    StoppedMove s s' [ev] where
  history := hh
  stopped := hs
  notes n e hm := by
    obtain ⟨hg, rfl⟩ := hn n e (List.mem_singleton.1 hm).symm
    refine ⟨.inl hs, ?_, id⟩
    rintro p rfl
    cases hg
  work ev' hm h := by
    rw [List.mem_singleton.1 hm] at h ⊢
    exact ⟨hw h, rfl⟩
  busy h := hu ▸ h

/-- The update that takes the stop halts. -/
theorem StoppedMove.stops {s : State} (hh : s.extender.halted = false) (hs : s.extender.isStopped = true) :
    StoppedMove s ((letGo s.held.taken.stopped).noting (.updated .stopped)) [.noted (.updated .stopped)
      (letGo s.held.taken.stopped).extender, .logged (.halting s.extender.label),
      .noted (.took s.extender.status.pending) s.held.taken.extender] where
  history := rfl
  stopped := rfl
  notes n e hm := by
    have htaken : s.extender.status.pending.contains Status.stop = true := by
      rcases Extender.isStopped_iff.1 hs with h | h
      · rw [hh] at h
        cases h
      · exact Status.contains_pending h (by decide) (by decide)
    rcases List.mem_cons.1 hm with heq | hm
    · cases heq
      exact ⟨.inl rfl, nofun, nofun⟩
    · rcases List.mem_cons.1 hm with heq | hm
      · cases heq
      · cases List.mem_singleton.1 hm
        exact ⟨.inr ⟨_, rfl, htaken⟩, nofun, nofun⟩
  work ev hm hw := by
    rcases List.mem_cons.1 hm with rfl | hm
    · cases hw
    · rcases List.mem_cons.1 hm with rfl | hm
      · cases hw
      · cases List.mem_singleton.1 hm
        cases hw
  busy := nofun

/-- A pass that has failed asks for everything before it ends. -/
theorem StoppedMove.fails {s : State} (hs : s.extender.isStopped = true) :
    StoppedMove s (s.completed false) [.noted (.passEnded false) (s.completed false).extender,
      .noted (.requested .resync) (s.completed false).extender] where
  history := rfl
  stopped := ((Steady.update _ _ _ _).trans (Steady.request _ _)).isStopped hs
  notes n e hm := by
    have hs' : (s.completed false).extender.isStopped = true :=
      ((Steady.update _ _ _ _).trans (Steady.request _ _)).isStopped hs
    rcases List.mem_cons.1 hm with heq | hm
    · cases heq
      exact ⟨.inl hs', nofun, id⟩
    · cases List.mem_singleton.1 hm
      exact ⟨.inl hs', nofun, id⟩
  work ev hm hw := by
    rcases List.mem_cons.1 hm with rfl | hm
    · cases hw
    · cases List.mem_singleton.1 hm
      cases hw
  busy h := h

/-- Every move from a stopped state leaves it stopped and begins no pass. -/
theorem Move.of_stopped {s s' : State} (h : Move s s') (hs : s.extender.isStopped = true) :
    ∃ new, StoppedMove s s' new := by
  have hrel {e : Extender} (h : e.isStopped = true) : { e with status := e.status.release, updating := false }.isStopped = true := by
    rw [Extender.isStopped_iff] at h ⊢
    exact h.imp id fun h => Status.contains_release h (by decide)
  cases h with
  | touch h =>
    have hf := h.frame
    rcases h.history with he | ⟨ev, he, hev, hn⟩
    · exact ⟨_, .of_nothing he (hf.isStopped hs) hf.updating⟩
    · refine ⟨_, .of_event he (fun n e heq => ?_) (hf.isStopped hs) hf.updating fun h => ?_⟩
      · exact ⟨(hn n e heq).1, (hn n e heq).2.1⟩
      · rw [hev] at h
        cases h
  | began step hu => exact ⟨_, .of_note rfl hs nofun id⟩
  | ended step r hu => exact ⟨_, .of_note rfl hs nofun id⟩
  | claim pin claims hu hr =>
    rw [hs] at hr
    cases hr
  | free pin hu => exact ⟨_, .of_note rfl hs nofun id⟩
  | refuse hu hh => exact ⟨_, .of_note rfl hs nofun nofun⟩
  | stop hu hh hw => exact ⟨_, .stops hh hs⟩
  | take hu hh hw =>
    rw [Extender.not_isStopped hh hw] at hs
    cases hs
  | idle hu hg => exact ⟨_, .of_note rfl (hrel hs) nofun nofun⟩
  | begin pending hu hg hr =>
    rw [hs] at hr
    cases hr
  | work hu hg h =>
    have hf := h.steady
    rcases h.history with he | ⟨ev, he, hn⟩
    · exact ⟨_, .of_nothing he (hf.isStopped hs) hf.updating⟩
    · refine ⟨_, .of_event he (fun n e heq => ?_) (hf.isStopped hs) hf.updating fun _ => hu⟩
      exact ⟨(hn n e heq).1, (hn n e heq).2.1⟩
  | complete clean hu hg =>
    cases clean with
    | true => exact ⟨_, .of_note rfl hs nofun id⟩
    | false => exact ⟨_, .fails hs⟩
  | finish hu hg => exact ⟨_, .of_note rfl (hrel hs) nofun nofun⟩
  | cut hu hg => exact ⟨_, .of_note rfl hs nofun nofun⟩

/-- What follows from a moment on at which the extender is stopped, its memory then being `e`. It stays stopped, no pass begins,
and work on the chips comes only while the pass that was at work then still is. -/
structure Aftermath (e : Extender) (s' : State) (later : History) : Prop where
  stopped : s'.extender.isStopped = true
  notes : ∀ n e', .noted n e' ∈ later → n.Stopping e' ∧ ∀ p, n ≠ .passBegan p
  work : ∀ newer ev older, later = newer ++ ev :: older → ev.isWork = true →
    e.updating = true ∧ ∀ n e', .noted n e' ∈ older → e'.updating = true

/-- What follows from a state in which the extender is stopped. -/
theorem Moves.of_stopped {s s' : State} (h : Moves s s') (hs : s.extender.isStopped = true) :
    ∃ later, s'.history = later ++ s.history ∧ Aftermath s.extender s' later ∧
      (s'.extender.updating = true → s.extender.updating = true ∧ ∀ n e, .noted n e ∈ later → e.updating = true) := by
  induction h with
  | refl =>
    refine ⟨[], rfl, ⟨hs, fun _ _ h => absurd h List.not_mem_nil, fun newer ev older h => ?_⟩,
      fun h => ⟨h, fun _ _ h => absurd h List.not_mem_nil⟩⟩
    cases newer <;> cases h
  | @tail s₁ s₂ hto h ih =>
    obtain ⟨later, hl, ha, hb⟩ := ih
    obtain ⟨new, hm⟩ := h.of_stopped ha.stopped
    refine ⟨new ++ later, by rw [hm.history, hl, List.append_assoc], ⟨hm.stopped, fun n e hmem => ?_,
      fun newer ev older heq hw => ?_⟩, fun hu => ⟨(hb (hm.busy hu)).1, fun n e hmem => ?_⟩⟩
    · rcases List.mem_append.1 hmem with hmem | hmem
      · exact ⟨(hm.notes n e hmem).1, (hm.notes n e hmem).2.1⟩
      · exact ha.notes n e hmem
    · rcases List.append_eq_append_iff.1 heq with ⟨newer', _, hl'⟩ | ⟨rest, hnew, hr⟩
      · exact ha.work newer' ev older hl' hw
      · rcases List.cons_eq_append_iff.1 hr with ⟨_, hl'⟩ | ⟨older', hrest, holder⟩
        · exact ha.work [] ev older hl' hw
        · obtain ⟨hu, hone⟩ := hm.work ev (by rw [hnew, hrest]; exact List.mem_append_right _ List.mem_cons_self) hw
          have hnil : older' = [] := by
            rw [hone, hrest] at hnew
            cases newer with
            | nil => exact (List.cons.inj hnew).2.symm
            | cons a as =>
              have := congrArg List.length hnew
              simp at this
          rw [hnil, List.nil_append] at holder
          rw [holder]
          exact hb hu
    · rcases List.mem_append.1 hmem with hmem | hmem
      · exact (hm.notes n e hmem).2.2 hu
      · exact (hb (hm.busy hu)).2 n e hmem

/-- What is known of the state that a move leads to, if the extender is stopped at the moment of one of the notes that the move
adds, and of the events that it adds after the note. -/
structure StoppedMoment (s' : State) (e : Extender) (newer : History) : Prop where
  stopped : s'.extender.isStopped = true
  notes : ∀ n e', .noted n e' ∈ newer → n.Stopping e' ∧ (∀ p, n ≠ .passBegan p) ∧
    (s'.extender.updating = true → e'.updating = true)
  work : ∀ ev ∈ newer, ev.isWork = false
  busy : s'.extender.updating = true → e.updating = true

/-- A note of the memory that a move leads to comes last. -/
theorem StoppedMoment.of_last {s' : State} {n : Note} (hs : n.Stopping s'.extender) (hn : ∀ bits, n ≠ .took bits) :
    StoppedMoment s' s'.extender [] where
  stopped := by
    rcases hs with hs | ⟨bits, rfl, _⟩
    · exact hs
    · exact (hn bits rfl).elim
  notes _ _ h := absurd h List.not_mem_nil
  work _ h := absurd h List.not_mem_nil
  busy h := h

/-- A note in a list is its first event, or is among the rest. -/
theorem note_of_cons {ev : Event} {new newer older : History} {n : Note} {e : Extender}
    (h : ev :: new = newer ++ .noted n e :: older) :
    newer = [] ∧ ev = .noted n e ∨ ∃ newer', newer = ev :: newer' ∧ new = newer' ++ .noted n e :: older := by
  rcases List.cons_eq_append_iff.1 h with ⟨hnil, heq⟩ | hrest
  · exact .inl ⟨hnil, (List.cons.inj heq).1.symm⟩
  · exact .inr hrest

/-- The state that new events lead to is a stopped moment for each note among them at which the extender is stopped. -/
def State.Remembers (s' : State) (new : History) : Prop :=
  ∀ newer n e older, new = newer ++ .noted n e :: older → n.Stopping e → StoppedMoment s' e newer

namespace State.Remembers

theorem nil (s' : State) : s'.Remembers [] := by
  intro newer n e older h
  cases newer <;> cases h

/-- One more event; work and the beginning of a pass do not come after notes. -/
theorem cons {s' : State} {new : History} {ev : Event} (h : s'.Remembers new)
    (hw : (∀ n e, .noted n e ∉ new) ∨ ev.isWork = false)
    (hn : ∀ n e, ev = .noted n e →
      (∀ bits, n ≠ .took bits) ∧ ((∀ n e, .noted n e ∉ new) ∨ ∀ p, n ≠ .passBegan p) ∧ e = s'.extender) :
    s'.Remembers (ev :: new) := by
  intro newer n e older heq hs
  rcases note_of_cons heq with ⟨rfl, he⟩ | ⟨newer', rfl, hnew⟩
  · obtain ⟨ht, _, rfl⟩ := hn n e he
    exact .of_last hs ht
  · have hne : ¬∀ n e, .noted n e ∉ new := by
      intro hno
      exact hno n e (hnew ▸ List.mem_append_right _ List.mem_cons_self)
    have hm := h newer' n e older hnew hs
    refine ⟨hm.stopped, fun n' e' hmem => ?_, fun ev' hmem => ?_, hm.busy⟩
    · rcases List.mem_cons.1 hmem with he | hmem
      · obtain ⟨_, hp, rfl⟩ := hn n' e' he.symm
        exact ⟨.inl hm.stopped, hp.resolve_left hne, id⟩
      · exact hm.notes n' e' hmem
    · rcases List.mem_cons.1 hmem with rfl | hmem
      · exact hw.resolve_left hne
      · exact hm.work ev' hmem

theorem note {s' : State} {new : History} (h : s'.Remembers new) {n : Note} (ht : ∀ bits, n ≠ .took bits)
    (hp : ∀ p, n ≠ .passBegan p) : s'.Remembers (.noted n s'.extender :: new) := by
  refine h.cons (.inr rfl) ?_
  rintro _ _ ⟨⟩
  exact ⟨ht, .inr hp, rfl⟩

theorem log {s' : State} {new : History} {r : LogRecord} (h : s'.Remembers new) (hr : (Event.logged r).isWork = false) :
    s'.Remembers (.logged r :: new) := by
  refine h.cons (.inr hr) ?_
  rintro _ _ ⟨⟩

/-- The one event of work, or of a touch. -/
theorem work {s s' : State} (h : Work s s') : ∃ new, s'.history = new ++ s.history ∧ s'.Remembers new := by
  rcases h.history with he | ⟨ev, he, hn⟩
  · exact ⟨[], he, nil s'⟩
  · have hempty (n : Note) (e : Extender) : Event.noted n e ∉ ([] : History) := List.not_mem_nil
    refine ⟨[ev], he, (nil s').cons (.inl hempty) fun n e heq => ⟨?_, .inl hempty, (hn n e heq).2.1⟩⟩
    rintro bits rfl
    cases (hn _ e heq).1

end State.Remembers

/-- A pass that does not halt takes no stop. -/
theorem Note.not_stopping_took {s : State} (hh : s.extender.halted = false)
    (hw : s.extender.work.contains Status.stop = false) :
    ¬(Note.took s.extender.status.pending).Stopping s.held.taken.extender := by
  rintro (hs | ⟨bits, heq, hs⟩)
  · change (s.extender.halted || Status.busy.contains Status.stop) = true at hs
    rw [hh] at hs
    exact absurd hs (by decide)
  · cases heq
    rw [Extender.work, FlagSet.contains_union_left _ hs] at hw
    cases hw

/-- Every move remembers the notes that it adds. -/
theorem Move.moment {s s' : State} (h : Move s s') : ∃ new, s'.history = new ++ s.history ∧ s'.Remembers new := by
  cases h with
  | touch h => exact State.Remembers.work (.touch h)
  | began | ended | claim | free | refuse | idle | finish | cut =>
    exact ⟨[.noted _ _], rfl, (State.Remembers.nil _).note nofun nofun⟩
  | stop hu hh hw =>
    have htook : ((letGo s.held.taken.stopped).noting (.updated .stopped)).Remembers
        [.noted (.took s.extender.status.pending) s.held.taken.extender] := by
      intro newer n e older heq hs
      rcases note_of_cons heq with ⟨rfl, _⟩ | ⟨newer', _, h⟩
      · exact ⟨rfl, fun _ _ h => absurd h List.not_mem_nil, fun _ h => absurd h List.not_mem_nil, nofun⟩
      · cases newer' <;> cases h
    exact ⟨[.noted (.updated .stopped) _, .logged (.halting _), .noted (.took _) _], rfl,
      (htook.log rfl).note nofun nofun⟩
  | take hu hh hw =>
    -- a pass goes on only if it has found no stop in its work, so this is no moment at which the extender is stopped
    refine ⟨[.noted (.took s.extender.status.pending) s.held.taken.extender], rfl, fun newer n e older heq hs => ?_⟩
    rcases note_of_cons heq with ⟨_, he⟩ | ⟨newer', _, h⟩
    · cases he
      exact absurd hs (Note.not_stopping_took hh hw)
    · cases newer' <;> cases h
  | begin pending hu hg hr =>
    have hbegan {new : History} (hh : (s.started pending).history = new ++ s.history) (hno : ∀ n e, .noted n e ∉ new) :
        ∃ new, ((s.started pending).noting (.passBegan pending)).history = new ++ s.history ∧
          ((s.started pending).noting (.passBegan pending)).Remembers new := by
      refine ⟨.noted (.passBegan pending) _ :: new, congrArg _ hh, State.Remembers.cons (fun newer n e older h => ?_)
        (.inr rfl) ?_⟩
      · exact absurd (h ▸ List.mem_append_right _ List.mem_cons_self) (hno n e)
      · rintro _ _ ⟨⟩
        exact ⟨nofun, .inl hno, rfl⟩
    rcases State.history_started s pending with hh | ⟨r, hh⟩
    · exact hbegan (show _ = [] ++ s.history from hh) fun _ _ => List.not_mem_nil
    · exact hbegan (show _ = [.logged r] ++ s.history from hh) fun _ _ h => by cases List.mem_singleton.1 h
  | work hu hg h => exact State.Remembers.work h
  | complete clean hu hg =>
    cases clean with
    | true => exact ⟨[.noted _ _], rfl, (State.Remembers.nil _).note nofun nofun⟩
    | false =>
      have hasked : (s.completed false).Remembers [.noted (.requested .resync) (s.completed false).extender] :=
        (State.Remembers.nil _).note nofun nofun
      exact ⟨[.noted (.passEnded false) _, .noted (.requested .resync) _], rfl, hasked.note nofun nofun⟩

/-- What follows from a moment on at which the extender is stopped. -/
theorem Moves.after_stop {s₀ s : State} (h : Moves s₀ s) (h₀ : s₀.history = []) {later past : History} {n : Note}
    {e : Extender} (hm : s.history = later ++ .noted n e :: past) (hs : n.Stopping e) : Aftermath e s later := by
  obtain ⟨s', newer, _, hgo, hh, hmoment⟩ := exists_moment (fun _ _ h => Move.moment h) h h₀ hm
  have hnow := hmoment hs
  obtain ⟨later', hl, ha, _⟩ := Moves.of_stopped hgo hnow.stopped
  have hlater : later = later' ++ newer := by
    rw [hm, hh, ← List.append_assoc] at hl
    exact List.append_cancel_right hl
  refine ⟨ha.stopped, fun m e' hmem => ?_, fun newer' ev older heq hw => ?_⟩
  · rw [hlater] at hmem
    rcases List.mem_append.1 hmem with hmem | hmem
    · exact ha.notes m e' hmem
    · exact ⟨(hnow.notes m e' hmem).1, (hnow.notes m e' hmem).2.1⟩
  · have hquiet (hmem : ev ∈ newer) : False := by
      rw [hnow.work ev hmem] at hw
      cases hw
    rw [hlater] at heq
    rcases List.append_eq_append_iff.1 heq with ⟨rest, _, hr⟩ | ⟨rest, hr, hr'⟩
    · exact (hquiet (hr ▸ List.mem_append_right _ List.mem_cons_self)).elim
    · rcases List.cons_eq_append_iff.1 hr' with ⟨_, hr'⟩ | ⟨older', rfl, rfl⟩
      · exact (hquiet (hr' ▸ List.mem_cons_self)).elim
      · obtain ⟨hu, hn⟩ := ha.work newer' ev older' hr hw
        refine ⟨hnow.busy hu, fun m e' hmem => ?_⟩
        rcases List.mem_append.1 hmem with hmem | hmem
        · exact hn m e' hmem
        · exact (hnow.notes m e' hmem).2.2 hu

/-! ## Notes that say the truth -/

/-- Every note of a history says the truth about the memory at its moment. -/
def History.Truthful (h : History) : Prop := ∀ n e, .noted n e ∈ h → n.Confirmed e

namespace History.Truthful

theorem cons {ev : Event} {past : History} (h : Truthful past) (hn : ∀ n e, ev = .noted n e → n.Confirmed e) :
    Truthful (ev :: past) := by
  intro n e hm
  rcases List.mem_cons.1 hm with heq | hm
  · exact hn n e heq.symm
  · exact h n e hm

theorem note {n : Note} {e : Extender} {past : History} (h : Truthful past) (hn : n.Confirmed e) :
    Truthful (.noted n e :: past) := by
  refine h.cons ?_
  rintro _ _ ⟨⟩
  exact hn

theorem log {r : LogRecord} {past : History} (h : Truthful past) : Truthful (.logged r :: past) := by
  refine h.cons ?_
  rintro _ _ ⟨⟩

end History.Truthful

/-- What happens in a pass says the truth. -/
theorem Work.truthful {s s' : State} (h : Work s s') (hs : s.history.Truthful) : s'.history.Truthful := by
  rcases h.history with he | ⟨ev, he, hn⟩
  · rw [he]
    exact hs
  · rw [he]
    exact hs.cons fun n e heq => (hn n e heq).2.2

/-- Every move says the truth. -/
theorem Move.truthful {s s' : State} (h : Move s s') (hs : s.history.Truthful) : s'.history.Truthful := by
  cases h with
  | touch h => exact Work.truthful (.touch h) hs
  | began | claim | free | refuse | take | idle | finish | cut => exact hs.note trivial
  | ended step r hu hr => exact hs.note (Note.confirmed_stepEnded fun o ho => (hr o ho).memory)
  | stop =>
    have htaken : s.held.taken.history.Truthful := hs.note trivial
    exact htaken.log.note trivial
  | begin pending =>
    have hstarted : (s.started pending).history.Truthful := by
      rcases State.history_started s pending with hh | ⟨r, hh⟩
      · rw [hh]
        exact hs
      · rw [hh]
        exact hs.log
    exact hstarted.note trivial
  | work _ _ h => exact h.truthful hs
  | complete clean =>
    cases clean with
    | true => exact hs.note trivial
    | false =>
      have hasked : ((s.amend fun e => { e with shadow := e.shadow.markAllDirty }).asking .resync).history.Truthful :=
        hs.note fun _ h => FlagSet.contains_union_right _ h
      exact hasked.note trivial

/-- Every session says the truth. -/
theorem Moves.truthful {s₀ s : State} (h : Moves s₀ s) (h₀ : s₀.history = []) : s.history.Truthful := by
  induction h with
  | refl =>
    rw [h₀]
    exact fun _ _ h => absurd h List.not_mem_nil
  | tail _ h ih => exact h.truthful ih

/-! ## After a shutdown -/

/-- The extender has been shut down. -/
structure Extender.IsShut (e : Extender) : Prop where
  halted : e.halted = true
  updating : e.updating = false
  lines : e.lines = .none

/-- What happens to an extender that has been shut down changes nothing about that, and is no work. -/
theorem Happening.of_shut {s s' : State} (h : Happening s s') (hs : s.extender.IsShut) : s'.extender.IsShut ∧
    ∃ new, s'.history = new ++ s.history ∧ (∀ ev ∈ new, ev.isWork = false) ∧ ∀ n e, .noted n e ∈ new → e = s'.extender := by
  have hnote {n : Note} (hh : s'.history = .noted n s'.extender :: s.history) : ∃ new, s'.history = new ++ s.history ∧
      (∀ ev ∈ new, ev.isWork = false) ∧ ∀ n e, .noted n e ∈ new → e = s'.extender := by
    refine ⟨[.noted n s'.extender], hh, fun ev hm => ?_, fun n e hm => ?_⟩
    · cases List.mem_singleton.1 hm
      rfl
    · cases List.mem_singleton.1 hm
      rfl
  have hnothing (hh : s'.history = s.history) : ∃ new, s'.history = new ++ s.history ∧
      (∀ ev ∈ new, ev.isWork = false) ∧ ∀ n e, .noted n e ∈ new → e = s'.extender :=
    ⟨[], hh, fun _ h => absurd h List.not_mem_nil, fun _ _ h => absurd h List.not_mem_nil⟩
  cases h with
  | touch h =>
    have hf := h.frame
    refine ⟨⟨hf.halted.trans hs.halted, hf.updating.trans hs.updating, h.lines.elim (·.trans hs.lines) id⟩, ?_⟩
    rcases h.history with he | ⟨ev, he, hev, hn⟩
    · exact hnothing he
    · refine ⟨[ev], he, fun ev' hm => ?_, fun n e hm => ?_⟩
      · rw [List.mem_singleton.1 hm]
        exact hev
      · exact (hn n e (List.mem_singleton.1 hm).symm).2.1
  | update p hu h =>
    cases h with
    | halted => exact ⟨⟨hs.halted, rfl, hs.lines⟩, hnote rfl⟩
    | stops hh | idles hh | ran hh =>
      rw [hs.halted] at hh
      cases hh
  | cut hu h =>
    obtain ⟨_, hh, _⟩ := h
    rw [hs.halted] at hh
    cases hh
  | began | ended => exact ⟨hs, hnote rfl⟩
  | claim | free => exact ⟨⟨hs.halted, hs.updating, hs.lines⟩, hnote rfl⟩

/-- Once the extender has been shut down, there is no work on the chips any more, and no line is held. -/
theorem Goes.of_shut {s s' : State} (h : Goes s s') (hs : s.extender.IsShut) : s'.extender.IsShut ∧
    ∃ later, s'.history = later ++ s.history ∧ (∀ ev ∈ later, ev.isWork = false) ∧ ∀ n e, .noted n e ∈ later → e.IsShut := by
  induction h with
  | refl => exact ⟨hs, [], rfl, fun _ h => absurd h List.not_mem_nil, fun _ _ h => absurd h List.not_mem_nil⟩
  | tail _ h ih =>
    obtain ⟨hs₁, later, hl, hw, hn⟩ := ih
    obtain ⟨hs₂, new, hnew, hw', hn'⟩ := h.of_shut hs₁
    refine ⟨hs₂, new ++ later, by rw [hnew, hl, List.append_assoc], fun ev hm => ?_, fun n e hm => ?_⟩
    · rcases List.mem_append.1 hm with hm | hm
      · exact hw' ev hm
      · exact hw ev hm
    · rcases List.mem_append.1 hm with hm | hm
      · rw [hn' n e hm]
        exact hs₂
      · exact hn n e hm

/-! ## Refusals -/

/-- The attempt is refused with an error in a state, and leaves it as it is. -/
def Attempt.Refuses {α : Type} (m : Attempt α) (s : State) (e : Error) : Prop := m.run s = (.ok (.error e), s)

namespace Attempt

/-- What is refused at first is refused as a whole. -/
theorem Refuses.bind {α β : Type} {m : Attempt α} {s : State} {e : Error} (h : m.Refuses s e) (f : α → Attempt β) :
    (m >>= f).Refuses s e := by
  unfold Refuses at h ⊢
  rw [ExceptT.run_bind]
  show (ExceptT.bind m.run _) s = _
  unfold ExceptT.bind ExceptT.mk
  show (StateT.bind m.run _) s = _
  unfold StateT.bind
  rw [h]
  rfl

end Attempt

/-- A refused attempt answers with its error and leaves the state as it is. -/
theorem Session.answering_of_refuses {m : Attempt Reply} {s : State} {e : Error} (h : m.Refuses s e) :
    Session.answering m s = (.ok (.error e), s) := by
  unfold Attempt.Refuses at h
  unfold answering
  show (ExceptT.bind m.run _) s = _
  unfold ExceptT.bind ExceptT.mk
  show (StateT.bind m.run _) s = _
  unfold StateT.bind
  rw [h]
  rfl

namespace Client

variable {s : State}

/-- A stopped extender refuses whatever needs it to run. -/
theorem refuses_ensureRunning (hs : s.extender.isStopped = true) : ensureRunning.Refuses s .stopped := by
  unfold Attempt.Refuses ensureRunning
  show (if s.extender.isStopped = true then (throw Error.stopped : Attempt Unit) else pure ()).run s = _
  rw [if_pos hs]
  rfl

/-- A stopped extender refuses to write. -/
theorem refuses_write (hs : s.extender.isStopped = true) (pin : Nat) (high : Bool) : (write pin high).Refuses s .stopped :=
  (refuses_ensureRunning hs).bind _

/-- A stopped extender refuses to write several pins, unless there are none. -/
theorem refuses_writeEach (hs : s.extender.isStopped = true) {t : Target} (hf : t.foreign = false) (ts : List Target) :
    (writeEach false (t :: ts)).Refuses s .stopped := by
  unfold writeEach
  dsimp only
  rw [hf, if_neg (by decide)]
  exact (refuses_write hs t.pin t.high).bind _

end Client

/-- Whether a call is refused once the extender is stopped. Giving back a pin's handler and telling of an interrupt are not, nor
is a call through no handles, or through handles that belong to another extender. -/
def Call.needsRunning : Call → Bool
  | detach _ => false
  | interrupt _ => false
  | setMany [] => false
  | setMany (t :: _) => !t.foreign
  | _ => true

/-- A stopped extender refuses the calls that need it to run. -/
theorem Call.refuses {c : Call} {s : State} (nest : Nest) (hc : c.needsRunning = true) (hs : s.extender.isStopped = true) :
    (c.answer nest).Refuses s .stopped := by
  have hrun := Client.refuses_ensureRunning hs
  cases c with
  | setup | write | read | flush | attach => exact (hrun.bind _).bind _
  | set pin high => exact ((Client.refuses_write hs pin high).bind _).bind _
  | get pin high => exact ((hrun.bind _).bind _).bind _
  | detach | interrupt => cases hc
  | setMany targets =>
    cases targets with
    | nil => cases hc
    | cons t ts =>
      have hf : t.foreign = false := by
        cases ht : t.foreign with
        | false => rfl
        | true =>
          rw [needsRunning, ht] at hc
          cases hc
      unfold answer Client.setMany
      dsimp only
      rw [hf, if_neg Bool.false_ne_true]
      exact ((Client.refuses_writeEach hs hf ts).bind _).bind _

/-- A stopped extender refuses a claim. -/
theorem Step.refuses_claim {s : State} (nest : Nest) (hs : s.extender.isStopped = true) (pin : Nat) :
    (Step.claim pin).perform nest s = (.ok (.error .stopped), s) :=
  Session.answering_of_refuses (((Client.refuses_ensureRunning hs).bind _).bind _)

/-! ## A stop is terminal -/

/-- Whether a note tells that a shutdown has stopped the extender for good. -/
def Note.Shuts (n : Note) : Prop := n = .opEnded .shutdown (.bit true) ∨ n = .stepEnded (.op .shutdown) (.bit true)

/-- Whether a note is one of those. -/
def Note.isShutdown : Note → Bool
  | opEnded .shutdown (.bit true) | stepEnded (.op .shutdown) (.bit true) => true
  | _ => false

/-- The note of a shutdown that has been made tells of it. -/
theorem Note.shuts_of_isShutdown {n : Note} (h : n.isShutdown = true) : n.Shuts := by
  unfold isShutdown at h
  split at h
  · exact .inl rfl
  · exact .inr rfl
  · cases h

/-- A stop is terminal. From the moment on at which it is requested, the stop is pending or the extender has halted, no pass
begins, and work on the chips comes only while the pass that was at work then still is. Once a shutdown has told that the
extender has halted, there is no work on the chips at all and no line is held. And in every state in which the extender is
stopped, whatever falls into the middle of things, claiming a pin and all calls but those that give something back or tell of an
interrupt are refused, and change nothing. -/
theorem stop_is_terminal :
    (∀ s later n e past, Reachable s → s.history = later ++ .noted n e :: past →
      (∃ bits, n = .requested bits ∧ bits.contains Status.stop = true) ∨ n.Stopping e → Aftermath e s later) ∧
    (∀ s later n e past, Reachable s → s.history = later ++ .noted n e :: past → n.Shuts →
      (∀ ev ∈ later, ev.isWork = false) ∧ e.IsShut ∧ s.extender.IsShut ∧ ∀ n' e', .noted n' e' ∈ later → e'.IsShut) ∧
    ∀ nest s, s.extender.isStopped = true →
      (∀ pin, (Step.claim pin).perform nest s = (.ok (.error .stopped), s)) ∧
      ∀ c : Call, c.needsRunning = true → Session.perform nest (.call c) s = (.ok (.error .stopped), s) := by
  refine ⟨fun s later n e past hs hm hstop => ?_, fun s later n e past hs hm hshut => ?_, fun nest s hs => ⟨fun pin => ?_,
    fun c hc => ?_⟩⟩
  · obtain ⟨e₀, board, _, hgo, _⟩ := hs.goes
    refine hgo.moves.after_stop rfl hm ?_
    rcases hstop with ⟨bits, rfl, hb⟩ | hstop
    · have hc := hgo.moves.truthful rfl (.requested bits) e (hm ▸ List.mem_append_right _ List.mem_cons_self)
      exact .inl (Extender.isStopped_iff.2 (.inr (hc _ hb)))
    · exact hstop
  · obtain ⟨e₀, board, _, hgo, _⟩ := hs.goes
    have hc := hgo.moves.truthful rfl n e (hm ▸ List.mem_append_right _ List.mem_cons_self)
    have he : e.IsShut := by
      rcases hshut with rfl | rfl
      · exact ⟨hc.1, hc.2.1, hc.2.2⟩
      · exact ⟨hc.1, hc.2.1, hc.2.2⟩
    obtain ⟨s', _, hgo', hh, rfl⟩ := hgo.moment rfl hm he.updating
    obtain ⟨hs', later', hl, hw, hn⟩ := hgo'.of_shut he
    have hlater : later = later' := by
      rw [hm, hh] at hl
      exact List.append_cancel_right hl
    rw [hlater]
    exact ⟨hw, he, hs', hn⟩
  · exact Step.refuses_claim nest hs pin
  · exact Session.answering_of_refuses (Call.refuses nest hc hs)

/-- A shutdown, after which an update and a flush are tried: nothing comes of them. -/
theorem stop_is_terminal_of_shutdown :
    let s := State.oneChip [.claim 0, .op .shutdown, .op .update, .op (.call .flush)]
    (∃ later n e past, s.history = later ++ .noted n e :: past ∧ n.Shuts ∧ Aftermath e s later ∧
      (∀ ev ∈ later, ev.isWork = false) ∧ e.lines = .none ∧ s.extender.lines = .none) ∧
    s.extender.isStopped = true ∧ Session.perform (Session.nestAt 1) (.call .flush) s = (.ok (.error .stopped), s) := by
  intro s
  have hr : Reachable s := reachable_oneChip _
  have hs : s.extender.isStopped = true := by decide +kernel
  refine ⟨?_, hs, (stop_is_terminal.2.2 (Session.nestAt 1) s hs).2 .flush rfl⟩
  obtain ⟨later, n, e, past, hm, hp⟩ := History.moment_of_drop (h := s.history) 5
    (p := fun n e _ => n.isShutdown && e.isStopped) (by decide +kernel)
  rw [Bool.and_eq_true] at hp
  have hn := Note.shuts_of_isShutdown hp.1
  have hshut := stop_is_terminal.2.1 s later n e past hr hm hn
  have hafter := stop_is_terminal.1 s later n e past hr hm (.inr (.inl hp.2))
  exact ⟨later, n, e, past, hm, hn, hafter, hshut.1, hshut.2.1.lines, hshut.2.2.1.lines⟩

end PortExpander
