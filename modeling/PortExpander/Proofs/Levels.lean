import PortExpander.Proofs.Registers

/-!
# Levels that have been flushed

A setup gives an output its level for good; a write gives it a level that counts from the next flush on, and stages the group of
the output if it changes the level. So the memory has the level that an output was set up with or that was flushed last, unless
the output's group is staged.
-/

namespace PortExpander

open Sim Engine

/-! ## Levels in the shadow -/

namespace Shadow

variable (s : Shadow) (pin : Nat)

/-- Setting up a pin stages nothing. -/
theorem staged_setup (attrs : PinAttributes) : (s.setup pin attrs).staged = s.staged := by
  unfold setup
  dsimp only
  split
  · split
    · rfl
    · split <;> rfl
  · split <;> rfl

/-- A setup leaves the levels of other pins alone. -/
theorem output_setup_of_ne (attrs : PinAttributes) {i : Nat} (h : i ≠ pin) :
    (s.setup pin attrs).output.get i = s.output.get i := by
  have hset (value : Bool) : (s.output.set pin value).get i = s.output.get i := s.output.get_set_of_ne h value
  unfold setup
  dsimp only
  split
  · split
    · exact hset true
    · split
      · exact hset false
      · rfl
  · split
    · exact hset _
    · rfl

/-- A write leaves the levels of a group alone that it does not stage. -/
theorem output_write_of_unstaged {high : Bool} {i : Nat} (hi : i / 8 < 8)
    (h : (s.write pin high).staged.getLsbD (i / 8) = false) : (s.write pin high).output.get i = s.output.get i := by
  show (s.output.set pin high).get i = s.output.get i
  by_cases hip : i = pin
  · subst hip
    by_cases hv : s.output.get i = high
    · rw [← hv, PinMap.set_get]
    · rw [s.staged_write_of_ne hv hi] at h
      cases h
  · exact s.output.get_set_of_ne hip high

end Shadow

/-! ## Levels in a history -/

/-- The pin that an operation sets up. -/
def Op.setsUp? : Op → Option Nat
  | .call (.setup pin _) => some pin
  | _ => none

/-- Whether a note tells, after what has happened, that the level of an output counts from then on: that the outputs are flushed,
or that the pin is set up. -/
def Note.settles (n : Note) (past : History) (pin : Nat) : Bool :=
  match n with
  | requested bits => bits == .writeDirty || (bits == .configDirty && past.begun?.any (·.1.setsUp? == some pin))
  | _ => false

/-- The level that an output was last given by a setup, or by a write that has been flushed. -/
def History.flushed (pin : Nat) : History → Bool
  | [] => false
  | .noted n e :: past => if n.settles past pin then e.shadow.output.get pin else flushed pin past
  | _ :: past => flushed pin past

/-- In groups that are not staged, the memory has the levels that have been flushed. -/
def Extender.Settled (e : Extender) (h : History) : Prop :=
  ∀ pin, pin / 8 < 8 → e.shadow.staged.getLsbD (pin / 8) = false → e.shadow.output.get pin = h.flushed pin

/-- At all moments, the memory had the levels that had been flushed in the groups that were not staged. -/
def History.Settled : History → Prop
  | [] => True
  | .noted n e :: past => e.Settled (.noted n e :: past) ∧ Settled past
  | _ :: past => Settled past

theorem History.Settled.of_append (new : History) {h : History} (hl : Settled (new ++ h)) : h.Settled := by
  induction new with
  | nil => exact hl
  | cons ev new ih =>
    cases ev with
    | noted => exact ih hl.2
    | _ => exact ih hl

/-- What has happened since the latest note has settled no level. -/
theorem History.Settled.latest {h : History} (hl : h.Settled) {e : Extender} (he : h.latest? = some e) : e.Settled h := by
  induction h with
  | nil => cases he
  | cons ev h ih =>
    cases ev with
    | noted n e' =>
      cases he
      exact hl.1
    | _ => exact ih hl he

/-- The memory has the levels that have been flushed in the groups that are not staged, and has always had them. -/
structure State.Settled (s : State) : Prop where
  now : s.extender.Settled s.history
  past : s.history.Settled

namespace State.Settled

variable {s s' : State}

/-- Nothing has been added to the history, and neither the levels nor what is staged have changed. -/
theorem silent (hs : s.Settled) (hh : s'.history = s.history) (ho : s'.extender.shadow.output = s.extender.shadow.output)
    (hst : s'.extender.shadow.staged = s.extender.shadow.staged) : s'.Settled := by
  refine ⟨fun pin hp hno => ?_, hh ▸ hs.past⟩
  rw [ho, hh]
  exact hs.now pin hp (hst ▸ hno)

/-- An event that is no note adds nothing to the levels. -/
theorem seeing (hs : s.Settled) (ev : Event) (hn : ev.isNote = false) : (s.seeing ev).Settled := by
  cases ev with
  | noted => cases hn
  | _ => exact ⟨hs.now, hs.past⟩

/-- A note settles the memory if it makes all levels count that have not been flushed, of groups that are not staged. -/
theorem settle {n : Note} (hs : s.history.Settled) (h : ∀ pin, pin / 8 < 8 →
    s.extender.shadow.staged.getLsbD (pin / 8) = false → n.settles s.history pin = false →
    s.extender.shadow.output.get pin = s.history.flushed pin) : (s.noting n).Settled := by
  have hnow : s.extender.Settled (.noted n s.extender :: s.history) := by
    intro pin hp hno
    unfold History.flushed
    split
    · rfl
    · exact h pin hp hno (Bool.eq_false_iff.2 ‹_›)
  exact ⟨hnow, hnow, hs⟩

theorem noting (hs : s.Settled) (n : Note) : (s.noting n).Settled := settle hs.past fun pin hp hno _ => hs.now pin hp hno

/-- A request keeps the levels settled. -/
theorem asking (hs : s.Settled) (bits : Status) : (s.asking bits).Settled :=
  noting (s := s.amend (·.request bits)) (hs.silent rfl rfl rfl) _

/-- The end of a step keeps the levels settled. -/
theorem ended (hs : s.Settled) (step : Step) (r : Reply) : (s.over step r).Settled :=
  noting (s := s.onBoard ({ · with agenda := none })) (hs.silent rfl rfl rfl) _

end State.Settled

/-! ## Moves -/

@[simp] theorem Extender.shadow_repolled (e : Extender) : e.repolled.shadow = e.shadow := by
  obtain ⟨_, _, _, _, _, _, _, _, _, _, engine⟩ := e
  cases engine <;> rfl

/-- A setup settles the level of its pin and leaves the others alone, and a flush settles all levels. A write that changes a level
stages the group. -/
theorem Touch.settled {s s' : State} (h : Touch s s') (hs : s.Settled) : s'.Settled := by
  cases h with
  | @setUp e pin attrs _ _ hb =>
    refine State.Settled.settle hs.past fun i hi hno hset => ?_
    -- the note of the request comes within the operation, so it settles the level of the pin that is set up
    have hne : i ≠ pin := by
      rintro rfl
      simp [Note.settles, State.amend, hb, Op.setsUp?] at hset
    change (s.extender.shadow.setup pin attrs).staged.getLsbD (i / 8) = false at hno
    rw [Shadow.staged_setup] at hno
    exact (Shadow.output_setup_of_ne _ _ _ hne).trans (hs.now i hi hno)
  | write pin high =>
    refine ⟨fun i hi hno => ?_, hs.past⟩
    have hstaged : s.extender.shadow.staged.getLsbD (i / 8) = false := by
      rw [← Bool.not_eq_true]
      exact fun h => Bool.false_ne_true (hno.symm.trans (Shadow.staged_write _ pin high h))
    exact (Shadow.output_write_of_unstaged _ _ hi hno).trans (hs.now i hi hstaged)
  | commit => exact State.Settled.settle hs.past fun _ _ _ hset => by simp [Note.settles] at hset
  | attach | detach =>
    have hsame := Extender.shadow_repolled
    exact hs.silent rfl (congrArg Shadow.output (hsame _)) (congrArg Shadow.staged (hsame _))
  | @enqueue q chip hchip =>
    exact State.Settled.asking (s := s.amend ({ · with engine := .queued (q.push chip hchip) }))
      (hs.silent rfl rfl rfl) _
  | ask bits => exact hs.asking bits
  | see ev hq => exact hs.seeing ev (by cases ev <;> first | rfl | cases hq)
  | released line => exact hs.seeing _ rfl
  | note | contend | ended => exact hs.noting _
  | board | unwire => exact hs.silent rfl rfl rfl

/-- What happens in a pass keeps the levels settled. -/
theorem Work.settled {s s' : State} (h : Work s s') (hs : s.Settled) : s'.Settled := by
  cases h with
  | touch h => exact h.settled hs
  | answer | look | edge | call => exact ⟨hs.now, hs.past⟩
  | record a r =>
    cases r with
    | ok => exact hs
    | error => exact ⟨hs.now, hs.past⟩
  | _ => exact hs.silent rfl rfl rfl

/-- Every move keeps the levels settled. -/
theorem Move.settled {s s' : State} (h : Move s s') (hs : s.Settled) : s'.Settled := by
  have htaken : s.held.taken.Settled :=
    State.Settled.noting (s := s.held.amend ({ · with status := .busy })) (hs.silent rfl rfl rfl) _
  cases h with
  | touch h => exact h.settled hs
  | work _ _ h => exact h.settled hs
  | began step => exact hs.noting _
  | ended step r => exact hs.ended step r
  | claim pin claims => exact State.Settled.ended (s := s.amend ({ · with claims })) (hs.silent rfl rfl rfl) _ _
  | free pin =>
    exact State.Settled.ended (s := s.amend fun e => { e with claims := e.claims.free pin }) (hs.silent rfl rfl rfl) _ _
  | refuse => exact State.Settled.noting (s := letGo s.held) (hs.silent rfl rfl rfl) _
  | stop => exact State.Settled.noting (s := letGo s.held.taken.stopped) ⟨htaken.now, htaken.past⟩ _
  | take => exact htaken
  | idle | finish => exact State.Settled.noting (s := letGo s.released) (hs.silent rfl rfl rfl) _
  | begin pending =>
    refine State.Settled.noting ?_ _
    unfold State.started
    split
    · exact ⟨hs.now, hs.past⟩
    · exact hs
  | complete clean =>
    cases clean with
    | true =>
      exact State.Settled.noting (s := s.amend fun e => { e with backoff := e.backoff.recordSuccess })
        (hs.silent rfl rfl rfl) _
    | false =>
      have hmark : (s.amend fun e => { e with shadow := e.shadow.markAllDirty }).Settled := hs.silent rfl rfl rfl
      exact (hmark.asking .resync).noting _
  | cut => exact State.Settled.noting (s := letGo s) (hs.silent rfl rfl rfl) _

/-- Between all moves of a session, the memory has the levels that have been flushed in the groups that are not staged. -/
theorem Moves.settled {s₀ s : State} (h : Moves s₀ s) (hm : Made s₀.extender) (h₀ : s₀.history = []) : s.Settled := by
  induction h with
  | refl =>
    refine ⟨fun pin _ _ => ?_, h₀ ▸ trivial⟩
    obtain ⟨family, address, capacity, lines, engine, room, he, -⟩ := hm.fresh
    rw [h₀, he]
    show (0#64).getLsbD pin = false
    exact BitVec.getLsbD_zero
  | tail _ h ih => exact h.settled ih

end PortExpander
