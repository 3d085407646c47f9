import PortExpander.Proofs.Moments

/-!
# One pass at a time

Operations that fall into the middle of a pass find it at work: their updates are contended, and what they do to the chips, to
the work that is asked for and to the inputs comes down to asking for more. So the stages of passes follow one another in every
history, and all work on the chips lies between the beginning and the end of one pass.
-/

namespace PortExpander

open Sim Engine

/-! ## Orderly histories -/

/-- Whether a note may be taken at a stage. -/
def Note.Follows : Note → Stage → Prop
  | took _, g => g = .rest
  | passBegan _, g => g = .taken
  | passEnded _, g => g = .working
  | passCut, g => g = .working
  | updated .contended, g => g ≠ .rest
  | updated .idle, g => g = .taken
  | updated .ran, g => g = .ended
  | updated .stopped, g => g = .rest ∨ g = .taken
  | stepBegan _, g => g = .rest
  | stepEnded _ _, g => g = .rest
  | _, _ => True

/-- Whether an event may come after a history. Work on the chips is part of a pass that has begun, and the extender is updating
from the moment a pass takes its work to the moment it is over. -/
def Event.Fits (past : History) : Event → Prop
  | noted n e => n.Follows past.stage ∧ (e.updating = true ↔ History.stage (.noted n e :: past) ≠ .rest)
  | ev => ev.isWork = true → past.stage = .working

/-- Every event of a history may come after those before it. -/
def History.Orderly : History → Prop
  | [] => True
  | ev :: past => ev.Fits past ∧ Orderly past

/-- A quiet event may come at any time. -/
theorem Event.fits_of_quiet {ev : Event} {past : History} (h : ev.isQuiet = true) : ev.Fits past := by
  cases ev with
  | logged r =>
    cases r with
    | transactionFailed => cases h
    | _ => exact fun h => Bool.noConfusion h
  | noted | transaction | sampled | called => cases h
  | _ => exact fun h => Bool.noConfusion h

/-- A touch adds what may come. -/
theorem Touch.orderly {s s' : State} (h : Touch s s') (hs : s.Staged) (ho : s.history.Orderly) : s'.history.Orderly := by
  have hs' := (Move.touch h).staged hs
  cases h with
  | write | attach | detach | board | unwire => exact ho
  | setUp | commit | enqueue | ask | ended => exact ⟨⟨trivial, hs'⟩, ho⟩
  | see ev hq => exact ⟨Event.fits_of_quiet hq, ho⟩
  | note n hn =>
    refine ⟨⟨?_, hs'⟩, ho⟩
    cases n <;> first | exact trivial | cases hn
  | contend hu => exact ⟨⟨hs.1 hu, hs'⟩, ho⟩
  | released => exact ⟨fun h => Bool.noConfusion h, ho⟩

/-- Every move adds what may come. -/
theorem Move.orderly {s s' : State} (h : Move s s') (hs : s.Staged) (ho : s.history.Orderly) : s'.history.Orderly := by
  have hs' := h.staged hs
  -- while no pass is at work the history is between passes
  have hrest (hu : s.extender.updating = false) : s.history.stage = .rest := by
    by_cases hg : s.history.stage = .rest
    · exact hg
    · rw [hs.2 hg] at hu
      cases hu
  cases h with
  | touch h => exact h.orderly hs ho
  | began _ hu | ended _ _ hu | claim _ _ hu | free _ hu => exact ⟨⟨hrest hu, hs'⟩, ho⟩
  | refuse hu => exact ⟨⟨.inl (hrest hu), hs'⟩, ho⟩
  | stop hu =>
    have htook : History.Orderly (.noted (.took s.extender.status.pending) s.held.taken.extender :: s.history) :=
      ⟨⟨hrest hu, fun _ => nofun, fun _ => rfl⟩, ho⟩
    exact ⟨⟨.inr rfl, hs'⟩, fun h => Bool.noConfusion h, htook⟩
  | take hu => exact ⟨⟨hrest hu, hs'⟩, ho⟩
  | idle hu hg => exact ⟨⟨hg, hs'⟩, ho⟩
  | begin pending hu hg =>
    have hst : (s.started pending).history.stage = .taken ∧ (s.started pending).history.Orderly := by
      unfold State.started
      split
      · exact ⟨hg, fun h => Bool.noConfusion h, ho⟩
      · exact ⟨hg, ho⟩
    exact ⟨⟨hst.1, hs'⟩, hst.2⟩
  | work hu hg h =>
    cases h with
    | touch h => exact h.orderly hs ho
    | answer | look | call => exact ⟨fun _ => hg, ho⟩
    | record a r =>
      cases r with
      | ok => exact ho
      | error => exact ⟨fun _ => hg, ho⟩
    | edge => exact ⟨fun h => Bool.noConfusion h, ho⟩
    | keep | mark | clear | level | drain => exact ho
  | complete clean hu hg =>
    cases clean with
    | true => exact ⟨⟨hg, hs'⟩, ho⟩
    | false =>
      have hw : s.history.stage ≠ .rest := by
        rw [hg]
        nofun
      exact ⟨⟨hg, hs'⟩, ⟨trivial, fun _ => hw, fun _ => hu⟩, ho⟩
  | finish hu hg => exact ⟨⟨hg, hs'⟩, ho⟩
  | cut hu hg => exact ⟨⟨hg, hs'⟩, ho⟩

/-- Every session is orderly. -/
theorem Moves.orderly {s₀ s : State} (h : Moves s₀ s) (h₀ : s₀.history = []) (hu : s₀.extender.updating = false) :
    s.Staged ∧ s.history.Orderly := by
  induction h with
  | refl =>
    unfold State.Staged
    rw [h₀, hu]
    exact ⟨⟨nofun, fun h => (h rfl).elim⟩, trivial⟩
  | tail _ h ih => exact ⟨h.staged ih.1, h.orderly ih.1 ih.2⟩

/-! ## Operations in the middle of a pass -/

/-- What operations leave as it was while a pass is at work, with the events that they add to the history. -/
structure Undisturbed (s s' : State) (new : History) : Prop where
  history : s'.history = new ++ s.history
  work : ∀ ev ∈ new, ev.isWork = false
  updates : ∀ p e, .noted (.updated p) e ∈ new → p = .contended
  answers : ∀ p e, .noted (.opEnded .update (.pass p)) e ∈ new → p = .contended
  updating : s'.extender.updating = true
  status : ∀ f, s.extender.status.contains f = true → s'.extender.status.contains f = true
  dirty : ∀ g, s.extender.shadow.dirty.getLsbD g = true → s'.extender.shadow.dirty.getLsbD g = true
  input : s'.extender.shadow.input = s.extender.shadow.input

/-- While a pass is at work, the events that operations add are no work, and their notes are no stages of passes. -/
theorem Touched.history {s s' : State} (h : Touched s s') (hu : s.extender.updating = true) :
    ∃ new, s'.history = new ++ s.history ∧ (∀ ev ∈ new, ev.isWork = false) ∧
      ∀ n e, .noted n e ∈ new → n.isStage = false ∧ e.updating = true ∧ n.Confirmed e := by
  induction h with
  | refl => exact ⟨[], rfl, fun _ h => absurd h List.not_mem_nil, fun _ _ h => absurd h List.not_mem_nil⟩
  | @tail s₁ s₂ h₁ h ih =>
    obtain ⟨new, hh, hw, hn⟩ := ih
    rcases h.history with he | ⟨ev, he, hev, hnote⟩
    · exact ⟨new, he.trans hh, hw, hn⟩
    · refine ⟨ev :: new, by rw [he, hh, List.cons_append], fun ev' hm => ?_, fun n e hm => ?_⟩
      · rcases List.mem_cons.1 hm with rfl | hm
        · exact hev
        · exact hw ev' hm
      · rcases List.mem_cons.1 hm with heq | hm
        · obtain ⟨hs, rfl, hc⟩ := hnote n e heq.symm
          exact ⟨hs, (Touched.frame (h₁.tail h)).updating.trans hu, hc⟩
        · exact hn n e hm

/-- Touches leave a pass at work undisturbed. -/
theorem Touched.undisturbed {s s' : State} (h : Touched s s') (hu : s.extender.updating = true) :
    ∃ new, Undisturbed s s' new := by
  have hf := h.frame
  obtain ⟨new, hh, hw, hn⟩ := h.history hu
  refine ⟨new, hh, hw, fun p e hm => ?_, fun p e hm => ?_, hf.updating.trans hu, hf.status, hf.dirty, hf.input⟩
  · have hs := (hn _ e hm).1
    cases p <;> first | rfl | cases hs
  · obtain ⟨_, he, hc⟩ := hn _ e hm
    exact hc he

/-- At most one pass is at work at a time. Operations that fall into the middle of a pass, to whatever depth they lie within one
another, make no transaction, look at no line and call no handler; an update among them is contended; and they take nothing out
of the status word, make no dirty group clean and leave the inputs as they are. So in every history of a session the stages of
passes follow one another, and all work on the chips lies between the beginning and the end of one pass. -/
theorem one_pass_at_a_time :
    (∀ depth ops s, s.extender.updating = true → ∃ new, Undisturbed s (Session.nestAt depth ops s).2 new) ∧
    (∀ nest s, s.extender.updating = true →
      update nest s = (.ok .contended, s.noting (.updated .contended))) ∧
    ∀ s, Reachable s → s.history.Orderly := by
  refine ⟨fun depth ops s hu => ?_, fun _ _ => update_of_held, fun s hs => ?_⟩
  · have hp := Session.plays_nestAt depth
    exact Touched.undisturbed (hp.onlyTouches ops s hu) hu
  · obtain ⟨e, board, hm, hgo, _⟩ := hs.goes
    exact (Moves.orderly hgo.moves rfl hm.updating).2

/-- An update in the middle of a pass's first transaction: it is contended, and the stages of the pass are in order. -/
theorem one_pass_at_a_time_of_update_in_transaction :
    let busy := (State.oneChip [.claim 0]).held
    let s := State.oneChip [.claim 0, .op (.call (.setup 0 PinAttributes.output)), .op (.hook 0 [.update]), .op .update]
    (∃ new, Undisturbed busy (Session.nestAt 1 [.update] busy).2 new) ∧
    update (Session.nestAt 1) busy = (.ok .contended, busy.noting (.updated .contended)) ∧
    s.history.Orderly ∧ (s.history.any fun ev => ev.note?.any (·.1.pass? == some .contended)) = true := by
  intro busy s
  have hu : busy.extender.updating = true := rfl
  refine ⟨one_pass_at_a_time.1 1 [.update] busy hu, one_pass_at_a_time.2.1 (Session.nestAt 1) busy hu, ?_, ?_⟩
  · exact one_pass_at_a_time.2.2 s (reachable_oneChip _)
  · decide +kernel

end PortExpander
