import PortExpander.Proofs.Attempts
import PortExpander.Proofs.Rests

/-!
# Rounds of the worker

A worker asks for everything when it starts, so its first update that finds no other pass at work tries to write and read all that is
claimed, unless the extender stops there. From then on it rests between its updates, and it returns when the extender has halted.
-/

namespace PortExpander

open Sim Engine

/-! ## The start -/

/-- The state in which a worker that starts comes to its first update: it has told the platform, made a record, and asked for
everything. -/
def State.greeted (s : State) : State :=
  ((if s.board.reportsWaits = true then s.seeing .started else s).seeing (.logged s.extender.greeting)).asking .resync

/-- A worker that starts in the state `s` comes to its next update in another one, so many rounds before it stalls; in every round so
far it has found another pass at work and has waited. -/
inductive Engine.Blocked (nest : Nest) (s : State) : Nat → State → Prop where
  | start : Blocked nest s (s.board.roundLimit + 1) s.greeted
  | wait {left : Nat} {s₁ s₂ s₃ : State} : Blocked nest s (left + 1) s₁ → update nest s₁ = (.ok .contended, s₂) →
      awaitWork nest s₂ = (.ok (), s₃) → Blocked nest s left s₃

variable {nest : Nest}

/-- The worker greets and makes its rounds. -/
theorem Engine.work_eq (s : State) : work nest s = rounds nest (s.board.roundLimit + 1) s.greeted := by
  unfold work State.greeted
  have hstart : workerStarted s = (.ok (), if s.board.reportsWaits = true then s.seeing .started else s) := by
    show (if s.board.reportsWaits = true then emit .started else pure () : Sim Unit) s = _
    split <;> rfl
  rw [Sim.bind_of_ok hstart]
  split <;> rfl

/-- A worker that has been blocked goes on with its rounds. -/
theorem Engine.Blocked.work_eq {s s' : State} {left : Nat} (h : Blocked nest s left s') : work nest s = rounds nest left s' := by
  induction h with
  | start => exact Engine.work_eq s
  | wait _ hu hw ih =>
    rw [ih, rounds, Sim.bind_of_ok hu]
    exact Sim.bind_of_ok hw

section

variable (hp : Plays nest)

include hp

/-- An update that is contended has found another pass at work. -/
theorem update_of_contended {s s' : State} (h : update nest s = (.ok .contended, s')) :
    s.extender.updating = true ∧ s' = s.noting (.updated .contended) := by
  cases hu : s.extender.updating with
  | true =>
    rw [update_of_held hu] at h
    cases h
    exact ⟨rfl, rfl⟩
  | false => cases (gives_update_of_free hp.guest hu).of_ok h

/-- As long as the worker finds another pass at work, everything is still asked for. -/
theorem Engine.Blocked.asked {s s' : State} {left : Nat} (h : Blocked nest s left s') :
    s'.extender.status.contains Status.resync = true := by
  induction h with
  | start => exact FlagSet.contains_union_right _ (FlagSet.contains_refl _)
  | wait _ hu hw ih =>
    obtain ⟨hup, rfl⟩ := update_of_contended hp hu
    have hgo := (leads_awaitWork hp (.inr ⟨_, rfl⟩)).of_ok hw
    exact (hgo.touched hup).frame.status _ ih

omit hp in
/-- A pass that has been asked for the configuration tries to write and read all that is claimed. -/
theorem Updates.tried {s s' : State} (h : Updates s .ran s') (hc : s.extender.work.contains Status.configDirty = true) :
    ∃ new, s'.history = new ++ s.history ∧
      ∀ g, s.extender.claims.groups.getLsbD g = true → s.extender.Tried new g := by
  cases h with
  | @ran s₀ s₁ clean _ _ _ h₀ hcarries _ =>
    obtain ⟨body, hbody, htried⟩ := hcarries.tried hc
    obtain ⟨ready, hready, -⟩ := s.history_ready s.extender.work
    obtain ⟨before, hbefore⟩ : ∃ before, s₀.history = before ++ s.history := by
      rw [h₀]
      exact ⟨_ :: ready, congrArg (List.cons _) hready⟩
    obtain ⟨after, hafter⟩ : ∃ after,
        ((letGo (s₁.completed clean).released).noting (.updated .ran)).history = after ++ s₁.history := by
      cases clean
      · exact ⟨[_, _, _], rfl⟩
      · exact ⟨[_, _], rfl⟩
    rw [h₀, State.extender_begun] at htried
    refine ⟨after ++ (body ++ before), by rw [hafter, hbody.history, hbefore]; simp, fun g hg => ?_⟩
    have hall : s.held.taken.extender.Tried (after ++ (body ++ before)) g :=
      (htried g hg).mono fun _ hm => List.mem_append_right _ (List.mem_append_left _ hm)
    exact ⟨hall.written, hall.read⟩

/-- The first update of a worker that finds no other pass at work stops, or tries to write and read all that is claimed. -/
theorem Engine.Blocked.gives_update {s s₁ : State} {left : Nat} (h : Blocked nest s left s₁) :
    (update nest).Gives s₁ (fun p s' => p = .contended ∨ p = .stopped ∨
      (p = .ran ∧ ∃ new, s'.history = new ++ s₁.history ∧
        ∀ g, s₁.extender.claims.groups.getLsbD g = true → s₁.extender.Tried new g)) (fun _ => True) := by
  -- The worker has asked for everything when it started, and no pass has taken that since.
  have hconfig : s₁.extender.work.contains Status.configDirty = true := by
    refine Extender.work_contains (by decide) (FlagSet.contains_iff.2 fun i hi => ?_)
    exact FlagSet.contains_iff.1 (h.asked hp) i (FlagSet.contains_iff.1 (by decide) i hi)
  cases hu : s₁.extender.updating with
  | true =>
    unfold Gives
    rw [update_of_held hu]
    exact .inl rfl
  | false =>
    refine (gives_update_of_free hp.guest hu).mono (fun p s' h' => .inr ?_) fun _ _ => trivial
    cases p with
    | stopped => exact .inl rfl
    | ran => exact .inr ⟨rfl, h'.tried hconfig⟩
    | contended => cases h'
    | idle =>
      cases h' with
      | idles _ _ hi =>
        have hne := FlagSet.not_isEmpty_of_contains_flag (by decide) hconfig
        rw [Extender.isEmpty_of_isIdleWith hi] at hne
        cases hne

end

/-! ## A halted extender -/

/-- Whether an event is a delay or a wait. -/
def Event.isPause : Event → Bool
  | delayed _ | waited _ => true
  | _ => false

/-- A worker that starts does no work on the chips before its first update, and does not pause. -/
theorem State.history_greeted (s : State) :
    ∃ new, s.greeted.history = new ++ s.history ∧ ∀ ev ∈ new, ev.isWork = false ∧ ev.isPause = false := by
  have hgreeting : (Event.logged s.extender.greeting).isWork = false := by
    unfold Extender.greeting
    split <;> rfl
  obtain ⟨new, hnew, hstarted⟩ : ∃ new, (if s.board.reportsWaits = true then s.seeing .started else s).history = new ++ s.history ∧
      ∀ ev ∈ new, ev = .started := by
    split
    · exact ⟨[.started], rfl, fun ev hm => List.mem_singleton.1 hm⟩
    · exact ⟨[], rfl, fun ev hm => absurd hm List.not_mem_nil⟩
  refine ⟨.noted (.requested .resync) _ :: .logged s.extender.greeting :: new, congrArg _ (congrArg _ hnew), fun ev hm => ?_⟩
  rcases List.mem_cons.1 hm with rfl | hm
  · exact ⟨rfl, rfl⟩
  · rcases List.mem_cons.1 hm with rfl | hm
    · exact ⟨hgreeting, rfl⟩
    · rw [hstarted ev hm]
      exact ⟨rfl, rfl⟩

/-- A greeting halts nobody. -/
theorem State.halted_greeted (s : State) : s.greeted.extender.halted = s.extender.halted := by
  unfold greeted
  split <;> rfl

/-- A greeting takes no guard. -/
theorem State.updating_greeted (s : State) : s.greeted.extender.updating = s.extender.updating := by
  unfold greeted
  split <;> rfl

/-- An update of a halted extender stops at once. -/
theorem Engine.update_halted {s : State} (hh : s.extender.halted = true) (hu : s.extender.updating = false) :
    update nest s = (.ok .stopped, (letGo s.held).noting (.updated .stopped)) := by
  have ha : attempt nest s.held = (.ok .stopped, s.held) := by
    unfold attempt
    show (if s.extender.halted = true then _ else _ : Sim Pass) s.held = _
    rw [if_pos hh]
    rfl
  have hl : lettingGo (attempt nest) s.held = (.ok .stopped, letGo s.held) := by
    unfold lettingGo
    rw [ha]
  unfold update
  show (if s.extender.updating = true then _ else _ : Sim Pass) s = _
  rw [hu, if_neg Bool.false_ne_true]
  exact Sim.bind_of_ok hl

/-- The worker of a halted extender returns after its first update. -/
theorem Engine.work_halted {s : State} (hh : s.extender.halted = true) (hu : s.extender.updating = false) :
    work nest s = (.ok (), (letGo s.greeted.held).noting (.updated .stopped)) := by
  rw [Engine.work_eq]
  exact Sim.bind_of_ok (Engine.update_halted (s.halted_greeted.trans hh) (s.updating_greeted.trans hu))

/-- Running the worker of a halted extender makes no transaction and does not pause. -/
theorem Session.gives_run_of_halted (ticks : List (List Op)) {s : State} (hh : s.extender.halted = true)
    (hu : s.extender.updating = false) :
    (Session.perform nest (.run ticks)).Gives s (fun r s' => r = .returned ∧ ∃ new, s'.history = new ++ s.history ∧
      ∀ ev ∈ new, ev.isWork = false ∧ ev.isPause = false) (fun _ => False) := by
  show (Session.runWorker nest ticks).Gives s _ _
  unfold Session.runWorker
  simp only [gives_bind, gives_board, gives_modifyBoard, gives_outcome]
  obtain ⟨new, hnew, hquiet⟩ := State.history_greeted (s.onBoard ({ · with agenda := some (.new ticks) }))
  rw [Engine.work_halted (s := s.onBoard ({ · with agenda := some (.new ticks) })) hh hu]
  refine ⟨rfl, .noted (.updated .stopped) _ :: new, congrArg (List.cons _) hnew, fun ev hm => ?_⟩
  rcases List.mem_cons.1 hm with rfl | hm
  · exact ⟨rfl, rfl⟩
  · exact hquiet ev hm

/-! ## Sessions -/

/-- The worker notes that it backs off right before it delays. -/
theorem Engine.backOff_eq (s : State) : backOff nest s = if s.extender.backoff.count = 0 then (.ok (), s) else
    delay nest (10 * s.extender.backoff.count) (s.noting (.backsOff (10 * s.extender.backoff.count))) := by
  have hdelay : s.extender.backoff.delay = 10 * s.extender.backoff.count := (Backoff.delay_eq _).trans (Nat.mul_comm _ _)
  rw [← hdelay]
  show (if (s.extender.backoff.delay != 0) = true then _ else _ : Sim Unit) s = _
  by_cases hz : s.extender.backoff.count = 0
  · rw [if_pos hz, hdelay, hz]
    rfl
  · have hne : s.extender.backoff.delay ≠ 0 := hdelay ▸ Nat.mul_ne_zero (by decide) hz
    rw [if_neg hz, if_pos (bne_iff_ne.2 hne)]
    rfl

/-- Wherever the worker backs off, it does so for ten milliseconds for each counted failure, and for no less than before unless a pass
has ended without a failure meanwhile. -/
theorem Reachable.backs_off {s : State} (h : Reachable s) {later past : History} {ms : Nat} {e : Extender}
    (hm : s.history = later ++ .noted (.backsOff ms) e :: past) :
    ms = 10 * e.backoff.count ∧ 0 < e.backoff.count ∧ e.backoff.count ≤ 50 ∧ ∀ ms', past.BackedOff ms' → ms' ≤ ms := by
  obtain ⟨e₀, board, hmade, hgo, -⟩ := h.goes
  obtain ⟨⟨rfl, hne⟩, hlongest⟩ := ((hgo.moves.paced hmade rfl).2.history).at_moment hm
  have hregular : e.Regular := h.regular (.inr ⟨_, hm ▸ List.mem_append_right _ List.mem_cons_self⟩)
  have hlast := hlongest _ rfl
  rw [Backoff.delay_eq] at hne hlast ⊢
  exact ⟨Nat.mul_comm _ _, Nat.pos_of_mul_pos_right (Nat.pos_of_ne_zero hne), hregular.count,
    fun ms' hb => hb.le_longestBackOff.trans hlast⟩

/-- Wherever the worker waits for work, unless a pass has been cut short before, it has just found another pass at work or there is
nothing to do. -/
theorem Reachable.waits {s : State} (h : Reachable s) {later past : History} {e : Extender}
    (hm : s.history = later ++ .noted .waits e :: past) (hu : past.Uncut) :
    (∃ e', past.head? = some (.noted (.updated .contended) e')) ∨ (e.status.isEmpty = true ∧ (e.halted = false →
      e.backoff.count = 0 ∧ e.shadow.dirty = 0 ∧ e.queue = [])) := by
  obtain ⟨e₀, board, hmade, hgo, -⟩ := h.goes
  obtain ⟨hrests, -⟩ := ((hgo.moves.paced hmade rfl).2.history).at_moment hm
  refine hrests.symm.imp id fun he => ⟨he, fun hh => ?_⟩
  have hregular : e.Regular := h.regular (.inr ⟨_, hm ▸ List.mem_append_right _ List.mem_cons_self⟩)
  -- The word is busy while a pass is at work, so the worker has come to this moment between two happenings.
  have hup : e.updating = false := by
    by_contra hup
    have hbusy := hregular.busy (Bool.not_eq_false _ ▸ hup)
    rw [FlagSet.not_isEmpty_of_contains_flag (by decide) hbusy] at he
    cases he
  obtain ⟨s', hgo', -, hh', rfl⟩ := hgo.moment rfl hm hup
  refine hgo'.nothing_left hmade rfl (fun ev hev => ?_) hh he
  rw [hh'] at hev
  rcases List.mem_cons.1 hev with rfl | hev
  · rfl
  · exact hu ev hev

/-- The worker starts over, rests in measure, and returns when the extender has halted, whatever is nested in its transactions, delays
and waits.
- A run that returns leaves the extender halted. A run of a halted extender, of which no pass is at work at any moment of a session,
  returns with no work on the chips, no delay and no wait.
- Its first update that is not contended stops, or tries to write all registers and to read the inputs of every claimed group.
- Its delays and waits are noted. Each delay is ten milliseconds for each of the counted failures, of which there are between one and
  fifty, and is no shorter than the delays before it unless a pass has ended without a failure in between.
- Unless a fault has cut a pass short, each wait directly follows a contended update, or nothing is asked for; in that case no failure
  is counted, no group is dirty and no chip is in the queue, unless the extender has halted. -/
theorem worker_starts_rests_and_returns :
    ((∀ depth ticks s, (Session.perform (Session.nestAt depth) (.run ticks)).Gives s
        (fun r s' => r = .returned → s'.extender.halted = true) (fun _ => False)) ∧
      (∀ nest ticks s, s.extender.halted = true → s.extender.updating = false →
        (Session.perform nest (.run ticks)).Gives s (fun r s' => r = .returned ∧ ∃ new, s'.history = new ++ s.history ∧
          ∀ ev ∈ new, ev.isWork = false ∧ ev.isPause = false) (fun _ => False)) ∧
      ∀ s e, Reachable s → (e = s.extender ∨ ∃ n, .noted n e ∈ s.history) → e.halted = true → e.updating = false) ∧
    (∀ depth s left s₁, Blocked (Session.nestAt depth) s left s₁ →
      work (Session.nestAt depth) s = rounds (Session.nestAt depth) left s₁ ∧
      (update (Session.nestAt depth)).Gives s₁ (fun p s' => p = .contended ∨ p = .stopped ∨
        (p = .ran ∧ ∃ new, s'.history = new ++ s₁.history ∧
          ∀ g, s₁.extender.claims.groups.getLsbD g = true → s₁.extender.Tried new g)) (fun _ => True)) ∧
    (∀ nest s, backOff nest s = if s.extender.backoff.count = 0 then (.ok (), s) else
      delay nest (10 * s.extender.backoff.count) (s.noting (.backsOff (10 * s.extender.backoff.count)))) ∧
    (∀ nest s, awaitWork nest s = wait nest 10 (s.noting .waits)) ∧
    (∀ s later ms e past, Reachable s → s.history = later ++ .noted (.backsOff ms) e :: past →
      ms = 10 * e.backoff.count ∧ 0 < e.backoff.count ∧ e.backoff.count ≤ 50 ∧
      ∀ ms', History.BackedOff past ms' → ms' ≤ ms) ∧
    ∀ s later e past, Reachable s → s.history = later ++ .noted .waits e :: past → History.Uncut past →
      (∃ e', past.head? = some (.noted (.updated .contended) e')) ∨ (e.status.isEmpty = true ∧ (e.halted = false →
        e.backoff.count = 0 ∧ e.shadow.dirty = 0 ∧ e.queue = [])) := by
  refine ⟨⟨fun depth ticks s => ?_, fun nest ticks s hh hu => Session.gives_run_of_halted ticks hh hu,
    fun s e hs he => (hs.regular he).halted⟩, fun depth s left s₁ h => ⟨h.work_eq, ?_⟩, fun nest s => Engine.backOff_eq s,
    fun nest s => rfl, fun s later ms e past hs hm => hs.backs_off hm, fun s later e past hs hm hu => hs.waits hm hu⟩
  · exact (Session.gives_runWorker (Session.plays_nestAt depth) ticks s).mono (fun _ _ h => h.2) fun _ h => h
  · exact h.gives_update (Session.plays_nestAt depth)

/-- For how long the worker backs off where a note tells that it does. -/
def Note.backOff? : Note → Option Nat
  | backsOff ms => some ms
  | _ => none

/-- The note of a time for which the worker backs off. -/
theorem Note.of_backOff? {n : Note} {ms : Nat} (h : n.backOff? = some ms) : n = .backsOff ms := by
  cases n with
  | backsOff => exact congrArg _ (Option.some.inj h)
  | _ => cases h

/-- Whether a note tells that the worker waits. -/
def Note.isWait : Note → Bool
  | waits => true
  | _ => false

/-- The note of a wait. -/
theorem Note.of_isWait {n : Note} (h : n.isWait = true) : n = .waits := by
  cases n with
  | waits => rfl
  | _ => cases h

/-- A worker meets a failure in each of its first two passes and backs off after each, the second time for longer. Then it waits with
nothing left to do, and returns at the shutdown. No later run of it does anything. -/
theorem worker_starts_rests_and_returns_of_failures :
    let nest := Session.nestAt 1
    let s := State.oneChip [.claim 0, .op (.call (.setup 0 PinAttributes.output))]
    let s' := State.oneChip [.claim 0, .op (.call (.setup 0 PinAttributes.output)),
      .op (.change (.failNext [some .bus, none, none, none, some .bus])), .op (.run [[], [], [.call (.set 0 true)], [.shutdown]])]
    (∃ s₁, Session.perform nest (.run [[.shutdown]]) s = (.ok .returned, s₁) ∧ s₁.extender.halted = true) ∧
    (∃ s₁ new, update nest s.greeted = (.ok .ran, s₁) ∧ s₁.history = new ++ s.greeted.history ∧
      s.greeted.extender.Tried new 0) ∧
    (∃ later e past, s'.history = later ++ .noted (.backsOff 20) e :: past ∧ e.backoff.count = 2 ∧ History.BackedOff past 10 ∧
      ∀ ms, History.BackedOff past ms → ms ≤ 20) ∧
    (∃ later e past, s'.history = later ++ .noted .waits e :: past ∧
      e.backoff.count = 0 ∧ e.shadow.dirty = 0 ∧ e.queue = []) ∧
    ∃ s₁ new, Session.perform nest (.run []) s' = (.ok .returned, s₁) ∧ s₁.history = new ++ s'.history ∧
      ∀ ev ∈ new, ev.isWork = false ∧ ev.isPause = false := by
  intro nest s s'
  have hr : Reachable s' := reachable_oneChip _
  obtain ⟨⟨hreturns, hhalted, hfree⟩, hstarts, -, -, hback, hwait⟩ := worker_starts_rests_and_returns
  refine ⟨?_, ?_, ?_, ?_, ?_⟩
  · have hk : (Session.perform nest (.run [[.shutdown]]) s).1 = .ok .returned := by decide +kernel
    have hm : Session.perform nest (.run [[.shutdown]]) s = (.ok .returned, _) := Prod.ext hk rfl
    exact ⟨_, hm, (hreturns 1 _ s).of_ok hm rfl⟩
  · have hk : (update nest s.greeted).1 = .ok .ran := by decide +kernel
    have hm : update nest s.greeted = (.ok .ran, _) := Prod.ext hk rfl
    rcases ((hstarts 1 s _ _ .start).2).of_ok hm with h | h | ⟨-, new, hnew, htried⟩
    · cases h
    · cases h
    · exact ⟨_, new, hm, hnew, htried 0 (by decide +kernel)⟩
  · obtain ⟨later, n, e, past, hm, hp⟩ := History.moment_of_drop (h := s'.history) 33
      (p := fun n _ past => n.backOff? == some 20 && past.longestBackOff == 10) (by decide +kernel)
    rw [Bool.and_eq_true, beq_iff_eq, beq_iff_eq] at hp
    obtain rfl := Note.of_backOff? hp.1
    obtain ⟨hms, -, -, hgrow⟩ := hback s' later 20 e past hr hm
    have hten := History.backedOff_longestBackOff past (by rw [hp.2]; decide)
    exact ⟨later, e, past, hm, by omega, hp.2 ▸ hten, hgrow⟩
  · obtain ⟨later, n, e, past, hm, hp⟩ := History.moment_of_drop (h := s'.history) 23
      (p := fun n e past => n.isWait && !e.halted && decide past.Uncut &&
        (past.head?.bind (·.note?)).all (·.1.pass? == some .ran)) (by decide +kernel)
    simp only [Bool.and_eq_true, Bool.not_eq_true', decide_eq_true_eq] at hp
    obtain ⟨⟨⟨hn, hh⟩, hu⟩, hran⟩ := hp
    obtain rfl := Note.of_isWait hn
    rcases hwait s' later e past hr hm hu with ⟨e', he'⟩ | ⟨-, hleft⟩
    · rw [he'] at hran
      cases hran
    · exact ⟨later, e, past, hm, hleft hh⟩
  · have hh : s'.extender.halted = true := by decide +kernel
    have hrun := hhalted nest [] s' hh (hfree s' _ hr (.inl rfl) hh)
    have hk : (Session.perform nest (.run []) s').1 = .ok .returned := by decide +kernel
    have hm : Session.perform nest (.run []) s' = (.ok .returned, _) := Prod.ext hk rfl
    obtain ⟨-, new, hnew, hquiet⟩ := hrun.of_ok hm
    exact ⟨_, new, hm, hnew, hquiet⟩

end PortExpander
