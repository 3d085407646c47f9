import PortExpander.Proofs.Cuts
import PortExpander.Proofs.Interrupts

/-!
# Passes that have lost their line

The generic engine reads the inputs when it sees its line fall, and remembers the line as high again once it has read them. A fault
in a handler comes between the two: the pass has seen the line fall and has read the inputs, but the line stays remembered as low,
and the engine is deaf to the next fall. Whether it is, the history tells: it has gone deaf when a pass that has found the line low
was cut short, and it hears again when a pass finds the line high or reads the inputs because it was asked to.
-/

namespace PortExpander

open Sim Engine

/-! ## Going deaf -/

/-- Whether the work of a pass asks for all inputs, whatever the interrupt line does. -/
def Status.asksInputs (work : Status) : Bool := work.contains configDirty || work.contains readDirty

namespace History

/-- The work of the latest pass that has begun. -/
def work? : History → Option Status
  | [] => none
  | .noted (.passBegan work) _ :: _ => some work
  | _ :: past => work? past

/-- Whether an interrupt line was found at a level. -/
def found (h : History) (level : Level) : Bool := h.looks.any (·.2 == level)

/-- Whether the generic engine has gone deaf to its line: a pass that had found the line low was cut short, and since then no pass
has found it high or come to its end with all inputs asked for. -/
def deaf : History → Bool
  | [] => false
  | .sampled _ .high :: _ => false
  | .noted .passCut _ :: past => found (recent past) .low || deaf past
  | .noted (.passEnded _) _ :: past => !(work? past).any (·.asksInputs) && deaf past
  | _ :: past => deaf past

/-- A pass has the work with which it began. -/
theorem work?_append {h : History} (hb : ∀ ev ∈ h, ev.isBegin = false) (work : Status) (e : Extender) (past : History) :
    work? (h ++ .noted (.passBegan work) e :: past) = some work := by
  induction h with
  | nil => rfl
  | cons ev h ih =>
    have ih := ih fun ev hm => hb ev (List.mem_cons_of_mem _ hm)
    have hev := hb ev List.mem_cons_self
    cases ev with
    | noted n e => cases n <;> first | exact ih | cases hev
    | _ => exact ih

/-- An event that is neither a look at a line nor the note of the end or the cut of a pass makes no difference. -/
theorem deaf_cons {ev : Event} (hl : ev.look? = none) (hc : ev.isCut = false) (he : ev.isEnd = false) (past : History) :
    deaf (ev :: past) = deaf past := by
  cases ev with
  | noted n e =>
    cases n with
    | passCut => cases hc
    | passEnded => cases he
    | _ => rfl
  | sampled => cases hl
  | _ => rfl

/-- Within a pass, finding the line high is all that makes a difference. -/
theorem deaf_append {new : History} (hc : new.Uncut) (he : ∀ ev ∈ new, ev.isEnd = false) (past : History) :
    deaf (new ++ past) = (!new.found .high && deaf past) := by
  induction new with
  | nil => rfl
  | cons ev new ih =>
    have ih := ih (fun ev hm => hc ev (List.mem_cons_of_mem _ hm)) fun ev hm => he ev (List.mem_cons_of_mem _ hm)
    cases hl : ev.look? with
    | none =>
      have hnew : found (ev :: new) .high = found new .high := by
        unfold found looks
        rw [List.filterMap_cons_none hl]
      rw [List.cons_append, deaf_cons hl (hc ev List.mem_cons_self) (he ev List.mem_cons_self), ih, hnew]
    | some look =>
      cases ev with
      | sampled line level =>
        cases hl
        have hnew : found (.sampled line level :: new) .high = (level == .high || found new .high) := rfl
        rw [hnew, List.cons_append]
        cases level <;> first | rfl | exact ih
      | _ => cases hl

end History

/-! ## Looking at the line -/

theorem History.found_append (h h' : History) (level : Level) :
    found (h ++ h') level = (h.found level || h'.found level) := by
  unfold found
  rw [looks_append, List.any_append]

/-- Without a look nothing is found. -/
theorem History.found_of_no_looks {h : History} (hl : h.looks = []) (level : Level) : h.found level = false := by
  unfold found
  rw [hl]
  rfl

/-- What a pass hears when it makes its plan. It finds the line at most at one level. If it sees the line fall it reads all inputs,
and it reads nothing on account of the line otherwise. It remembers a level that the line tells. -/
structure Hears (work : Status) (s : State) (plan : Plan) (s₁ : State) (looked : History) : Prop where
  history : s₁.history = looked ++ s.history
  silent : looked.reads = [] ∧ looked.calls = []
  line : looked.found .low = true → s.extender.lines.has 0 = true
  once : looked.found .high = true → looked.found .low = false
  listens : s₁.extender.Listens ↔ looked.found .high = true ∨ (looked.found .low = false ∧ s.extender.Listens)
  asked : work.asksInputs = true → plan.groups = 255
  fallen : looked.found .low = true → s.extender.Listens → plan.groups = 255
  unasked : plan.groups ≠ 0 → work.asksInputs = true ∨ s.extender.Listens
  deafened : looked.found .low = true → ¬s.extender.Listens → work.asksInputs = false → plan.groups = 0

/-- The inputs are asked for by themselves or with the configuration. -/
theorem Status.asksInputs_iff {work : Status} :
    work.asksInputs = true ↔ work.contains configDirty = true ∨ work.contains readDirty = true := by
  unfold asksInputs
  exact Bool.or_eq_true_iff

/-- Where neither the configuration nor the inputs are asked for, a plan reads what is to be read in any case. -/
theorem Plan.groups_of_not_asksInputs {work : Status} (h : work.asksInputs = false) (groups : Byte) :
    (Plan.ofRequests work groups).groups = groups := by
  unfold Status.asksInputs at h
  rw [Bool.or_eq_false_iff] at h
  exact Plan.groups_of_unasked h.1 h.2 groups

/-- A pass that does not look at the line listens as before. -/
theorem Hears.unlooked {work : Status} {s s₁ : State} {plan : Plan} (hh : s₁.history = s.history)
    (hl : s₁.extender.Listens ↔ s.extender.Listens) (ha : work.asksInputs = true → plan.groups = 255)
    (hz : plan.groups ≠ 0 → work.asksInputs = true ∨ s.extender.Listens) : Hears work s plan s₁ [] := by
  have hunfound (level : Level) : ¬History.found [] level = true := Bool.false_ne_true
  refine ⟨hh, ⟨rfl, rfl⟩, fun h => ?_, fun h => ?_, hl.trans ?_, ha, fun h => ?_, hz, fun h => ?_⟩
  · exact absurd h (hunfound _)
  · exact absurd h (hunfound _)
  · exact ⟨fun h => .inr ⟨rfl, h⟩, fun h => (h.resolve_left (hunfound _)).2⟩
  · exact absurd h (hunfound _)
  · exact absurd h (hunfound _)

/-- What a plan says of the line it has looked at. -/
theorem Gathers.hears {work : Status} {s s₁ : State} {plan : Plan} (h : Gathers work s plan s₁) :
    ∃ looked, Hears work s plan s₁ looked := by
  have hasked {work' : Status} (groups : Byte) (hw : ∀ f, work.contains f = true → work'.contains f = true)
      (ha : work.asksInputs = true) : (Plan.ofRequests work' groups).groups = 255 :=
    Plan.groups_of_asked ((Status.asksInputs_iff.1 ha).imp (hw _) (hw _)) groups
  cases h with
  | @looked m now he hisr hl hnow =>
    have hlistens : s.extender.Listens ↔ m.high = true :=
      ⟨fun h => h m he, fun h m' he' => by cases he.symm.trans he'; exact h⟩
    have hfound (level : Level) : History.found [.sampled 0 (s.board.lines 0)] level = (s.board.lines 0 == level) :=
      Bool.or_false _
    have hkept {groups : Byte} (hstays : (m.high && !now) = false) (ha : work.asksInputs = false) :
        (Plan.ofRequests (if (m.high && !now) = true then work ∪ Status.readDirty else work) groups).groups = groups := by
      rw [hstays, if_neg Bool.false_ne_true]
      exact Plan.groups_of_not_asksInputs ha groups
    -- the plan adds a request for the inputs just when the level has fallen since it was remembered
    refine ⟨[.sampled 0 (s.board.lines 0)], ⟨rfl, ⟨rfl, rfl⟩, fun _ => hl, fun h => ?_, ?_, fun ha => ?_, fun h hs => ?_,
      fun hz => ?_, fun h hs ha => ?_⟩⟩
    · rw [hfound, beq_iff_eq] at h
      rw [hfound, h]
      rfl
    · have hnow' : Extender.Listens { s.extender with engine := .generic { m with high := now } } ↔ now = true :=
        ⟨fun h => h _ rfl, fun h => by rintro _ ⟨⟩; exact h⟩
      rw [hlistens, hfound, hfound]
      refine hnow'.trans ?_
      rw [hnow]
      cases s.board.lines 0 <;> simp [Level.isHigh?]
    · refine hasked 0 (fun f hf => ?_) ha
      split
      · exact FlagSet.contains_union_left _ hf
      · exact hf
    · rw [hfound, beq_iff_eq] at h
      rw [h] at hnow
      have hfell : (m.high && !now) = true := by simp [hlistens.1 hs, hnow, Level.isHigh?]
      rw [hfell, if_pos rfl]
      exact Plan.groups_of_fallen work 0
    · by_contra hno
      rw [not_or, Bool.not_eq_true, hlistens, Bool.not_eq_true] at hno
      exact hz (hkept (by rw [hno.2, Bool.false_and]) hno.1)
    · rw [hlistens, Bool.not_eq_true] at hs
      exact hkept (by rw [hs, Bool.false_and]) ha
  | @unlooked m he hno =>
    refine ⟨[], .unlooked rfl Iff.rfl (hasked 0 fun _ h => h) fun hz => .inl ?_⟩
    by_contra ha
    rw [Bool.not_eq_true] at ha
    exact hz (Plan.groups_of_not_asksInputs ha 0)
  | @drained q he =>
    have hlistens : s.extender.Listens := fun m hm => by cases he.symm.trans hm
    have hlistens' : Extender.Listens { s.extender with engine := .queued q.emptied } := by rintro _ ⟨⟩
    exact ⟨[], .unlooked rfl (iff_of_true hlistens' hlistens) (hasked _ fun _ h => h) fun _ => .inr hlistens⟩

/-! ## After the plan has been made -/

/-- The events `new` have led from one state to another one in a pass that is cut short, after its plan has been made. They are no
looks at the line, and do not change whether the engine sees it fall. -/
structure Still (s s' : State) (new : History) : Prop where
  history : s'.history = new ++ s.history
  looks : new.looks = []
  listens : s'.extender.Listens ↔ s.extender.Listens

namespace Still

theorem refl (s : State) : Still s s [] := ⟨rfl, rfl, Iff.rfl⟩

theorem trans {s s' s'' : State} {new new' : History} (h : Still s s' new) (h' : Still s' s'' new') :
    Still s s'' (new' ++ new) where
  history := by rw [h'.history, h.history, List.append_assoc]
  looks := by rw [History.looks_append, h'.looks, h.looks]; rfl
  listens := h'.listens.trans h.listens

end Still

/-- A touch is still and calls no handler. -/
theorem Touch.still {s s' : State} (h : Touch s s') : ∃ new, Still s s' new ∧ new.calls = [] := by
  obtain ⟨new, hm⟩ := h.mute
  exact ⟨new, ⟨hm.history, hm.looks, h.listens⟩, hm.calls⟩

/-- Making transactions calls no handler. -/
theorem BusSteps.still {s s' : State} (h : BusSteps s s') : ∃ new, Still s s' new ∧ new.calls = [] := by
  induction h with
  | refl => exact ⟨[], .refl s, rfl⟩
  | @tail s₁ s₂ _ h ih =>
    obtain ⟨new, hs, hc⟩ := ih
    have hnext : ∃ new, Still s₁ s₂ new ∧ new.calls = [] := by
      cases h with
      | touch h => exact h.still
      | transfer a =>
        cases s₁.board.outcome a with
        | ok => exact ⟨[_], ⟨rfl, rfl, Iff.rfl⟩, rfl⟩
        | error => exact ⟨[_, _], ⟨rfl, rfl, Iff.rfl⟩, rfl⟩
      | keep | mark | clear => exact ⟨[], ⟨rfl, rfl, Iff.rfl⟩, rfl⟩
    obtain ⟨new', hs', hc'⟩ := hnext
    exact ⟨_, hs.trans hs', by rw [History.calls_append, hc', hc]; rfl⟩

/-- Calling handlers is still. -/
theorem Calls.still {s s' : State} (h : Calls s s') : ∃ new, Still s s' new := by
  induction h with
  | refl => exact ⟨[], .refl s⟩
  | @tail s₁ s₂ _ h ih =>
    obtain ⟨new, hs⟩ := ih
    have hnext : ∃ new, Still s₁ s₂ new := by
      cases h with
      | touch h => exact h.still.imp fun _ h => h.1
      | edge | call => exact ⟨[_], ⟨rfl, rfl, Iff.rfl⟩⟩
    obtain ⟨new', hs'⟩ := hnext
    exact ⟨_, hs.trans hs'⟩

/-- If handlers have been called when a fault breaks off the reading of some groups, all of those that are claimed have been read. -/
theorem Falters.still {groups : Byte} {s s' : State} (h : Falters groups s s') : ∃ new, Still s s' new ∧
    (new.calls ≠ [] → ∀ g, s.extender.claims.groups.getLsbD g = true → groups.getLsbD g = true → s.extender.Reads new g) := by
  cases h with
  | early h =>
    obtain ⟨new, hs, hc⟩ := h.still
    exact ⟨new, hs, fun h => absurd hc h⟩
  | @late s₁ result hread hsteps hcalls =>
    obtain ⟨done, hl, -, hplaces⟩ := hread.passPart
    obtain ⟨new, hs, -⟩ := hsteps.still
    obtain rfl : new = done := State.new_unique hs.history hl.history
    obtain ⟨new', hs'⟩ := hcalls.still
    refine ⟨_, hs.trans hs', fun _ g hc hg => ?_⟩
    obtain ⟨place, hp, hone⟩ := Extender.readsOnce hplaces hc hg
    refine ⟨place, hp, ?_⟩
    rw [History.reads_append]
    exact List.mem_append_right _ (List.count_pos_iff.1 (by omega))

/-! ## What an engine hears -/

/-- While the engine holds its line, it sees the line fall exactly if it has not gone deaf. -/
def State.Heard (s : State) : Prop :=
  s.extender.lines.has 0 = true → (s.extender.Listens ↔ s.history.deaf = false)

/-- Taking its work does not make a pass deaf. -/
theorem State.Begins.deaf {s t : State} {work : Status} {e : Extender} {older : History} (h : s.Begins t work e older) :
    older.deaf = s.history.deaf := by
  rw [h.past]
  rcases s.held.taken.history_started s.extender.work with hh | ⟨r, hh⟩ <;> rw [hh] <;> rfl

/-- When a pass begins, the engine hears its line exactly if it is not deaf to it. -/
theorem State.Begins.heard {s t : State} {work : Status} {e : Extender} {older : History} (h : s.Begins t work e older)
    (hs : s.Heard) (hl : t.extender.lines.has 0 = true) : t.extender.Listens ↔ older.deaf = false := by
  rw [h.deaf, h.extender, h.before]
  rw [h.extender, h.before] at hl
  exact hs hl

/-- The line is held in a pass as it was at its beginning. -/
theorem State.Begins.lines {s t t' : State} {work : Status} {e : Extender} {older : History} (h : s.Begins t work e older)
    (hw : Works t t') : t'.extender.lines = t.extender.lines := by
  refine hw.steady.lines (.inr ?_)
  rw [h.extender, h.before]
  rfl

/-- While a pass is at work, its history tells what it has found and what it had to do. -/
theorem State.Begins.deaf_working {s t t' : State} {work : Status} {e : Extender} {older done : History}
    (h : s.Begins t work e older) (hdone : t'.history = done ++ t.history) (hplain : done.Plain) :
    t'.history.deaf = (!done.found .high && older.deaf) ∧ t'.history.work? = some work ∧ t'.history.recent = done := by
  rw [hdone, h.history]
  refine ⟨?_, History.work?_append hplain.begins _ _ _, ?_⟩
  · rw [History.deaf_append hplain.uncut hplain.ends]
    rfl
  · rw [History.recent_append hplain.begins, History.recent_begin, List.append_nil]

/-- A pass that is not cut short sees the next fall of the line if it has read the inputs or if it saw this one, or has found the line
high. -/
theorem Carries.heard {work : Status} {s s₁ t : State} {e : Extender} {older : History} {clean : Bool}
    (h : s.Begins t work e older) (hc : Carries work t clean s₁) (hw : Works t s₁) (hs : s.Heard)
    (hl : s₁.extender.lines.has 0 = true) :
    s₁.extender.Listens ↔ (!work.asksInputs && s₁.history.deaf) = false := by
  obtain ⟨plan, s₀, new, hg, hpart, hread, hkept, -⟩ := hc.passPart
  obtain ⟨looked, hears⟩ := hg.hears
  obtain ⟨done, hdone, hplain⟩ := hw.history
  obtain rfl : done = new ++ looked := State.new_unique hdone (by rw [hpart.history, hears.history, List.append_assoc])
  rw [(h.deaf_working hdone hplain).1, History.found_append, History.found_of_no_looks hpart.looks, Bool.false_or]
  rw [h.lines hw] at hl
  have hbefore := h.heard hs hl
  by_cases hz : plan.groups = 0
  · -- nothing has been read, so the engine hears what it has heard when it made its plan
    have hasks : work.asksInputs = false := by
      rw [Bool.eq_false_iff]
      intro ha
      exact absurd (hz.symm.trans (hears.asked ha)) (by decide)
    have hfell : looked.found .low = true → ¬t.extender.Listens := fun hlow hlisten =>
      absurd (hz.symm.trans (hears.fallen hlow hlisten)) (by decide)
    have hlisten : s₁.extender.Listens ↔ s₀.extender.Listens := ⟨hkept hz, hpart.listens⟩
    rw [hlisten, hears.listens, hasks, Bool.not_false, Bool.true_and, Bool.and_eq_false_iff, Bool.not_eq_false', ← hbefore]
    refine or_congr_right ⟨fun h => h.2, fun h => ⟨?_, h⟩⟩
    rw [Bool.eq_false_iff]
    exact fun hlow => hfell hlow h
  · refine iff_of_true (hread hz) ?_
    rcases hears.unasked hz with ha | ha
    · rw [ha]
      rfl
    · rw [hbefore.1 ha, Bool.and_false, Bool.and_false]

/-- A pass that is cut short goes deaf if it has found the line low. -/
theorem Breaks.heard {work : Status} {s s₁ t : State} {e : Extender} {older : History} (h : s.Begins t work e older)
    (hb : Breaks work t s₁) (hs : s.Heard) (hl : s₁.extender.lines.has 0 = true) :
    s₁.extender.Listens ↔ (s₁.history.recent.found .low || s₁.history.deaf) = false := by
  have hw := hb.works
  obtain ⟨plan, s₂, s₃, hg, -, hsteps, hfalters⟩ := hb
  obtain ⟨looked, hears⟩ := hg.hears
  obtain ⟨new, hstill, -⟩ := hsteps.still
  obtain ⟨new', hstill', -⟩ := hfalters.still
  obtain ⟨rest, hrest⟩ : ∃ rest, Still s₂ s₁ rest := ⟨_, hstill.trans hstill'⟩
  obtain ⟨done, hdone, hplain⟩ := hw.history
  obtain rfl : done = rest ++ looked := State.new_unique hdone (by rw [hrest.history, hears.history, List.append_assoc])
  obtain ⟨hdeaf, -, hrecent⟩ := h.deaf_working hdone hplain
  rw [h.lines hw] at hl
  simp only [hdeaf, hrecent, History.found_append, History.found_of_no_looks hrest.looks, Bool.false_or]
  rw [hrest.listens, hears.listens, h.heard hs hl, Bool.or_eq_false_iff, Bool.and_eq_false_iff, Bool.not_eq_false']
  refine ⟨?_, fun h => h.2.imp id fun hno => ⟨h.1, hno⟩⟩
  rintro (hhigh | ⟨hlow, hno⟩)
  · exact ⟨hears.once hhigh, .inl hhigh⟩
  · exact ⟨hlow, .inr hno⟩

/-- A happening leaves the engine as deaf as its history says. -/
theorem Happening.heard {s s' : State} (h : Happening s s') (hs : s.Heard) : s'.Heard := by
  intro hline
  cases h with
  | touch h =>
    have hline' : s.extender.lines.has 0 = true := by
      rcases h.lines with he | he <;> rw [he] at hline
      · exact hline
      · cases hline
    obtain ⟨new, hnew, hplain⟩ := Works.history (.single (.touch h))
    obtain ⟨new', hm⟩ := h.mute
    -- a touch neither looks at the line nor ends a pass
    obtain rfl := State.new_unique hnew hm.history
    rw [h.listens, hs hline', hnew, History.deaf_append hplain.uncut hplain.ends,
      History.found_of_no_looks hm.looks, Bool.not_false, Bool.true_and]
  | began | ended | claim | free => exact hs hline
  | update p hu h =>
    cases h with
    | halted | stops | idles => exact hs hline
    | @ran s₀ s₁ clean hh _ _ h₀ hc hw =>
      have hst : s.Begins s₀ s.extender.work s.held.taken.extender _ := ⟨hu, hh, rfl, rfl, rfl, h₀⟩
      obtain ⟨done, hdone, hplain⟩ := hw.history
      obtain ⟨-, hwork, -⟩ := hst.deaf_working hdone hplain
      have hdeaf : (s₁.completed clean).history.deaf = (!s.extender.work.asksInputs && s₁.history.deaf) := by
        have hasks : (!s₁.history.work?.any (·.asksInputs)) = !s.extender.work.asksInputs := by rw [hwork]; rfl
        rw [← hasks]
        cases clean <;> rfl
      have heard := hc.heard hst hw hs (by cases clean <;> exact hline)
      refine Iff.trans ?_ (heard.trans (by rw [← hdeaf]; rfl))
      cases clean <;> exact Iff.rfl
  | cut hu h =>
    obtain ⟨s₁, hh, _, hb, rfl⟩ := h
    have hst : s.Begins _ s.extender.work s.held.taken.extender _ := ⟨hu, hh, rfl, rfl, rfl, rfl⟩
    exact hb.heard hst hs hline

/-- In every state of a session between happenings, the engine sees its line fall exactly if it has not gone deaf. -/
theorem Goes.heard {s₀ s : State} (h : Goes s₀ s) (hm : Made s₀.extender) (h₀ : s₀.history = []) : s.Heard := by
  induction h with
  | refl =>
    intro hl
    rw [h₀]
    exact iff_of_true (hm.armed hl) rfl
  | tail _ h ih => exact h.heard ih

/-! ## Sessions -/

/-- Unless a fault has cut a pass short, the engine has not gone deaf. -/
theorem History.Uncut.not_deaf {h : History} (hu : h.Uncut) : h.deaf = false := by
  induction h with
  | nil => rfl
  | cons ev past ih =>
    have ih := ih fun ev hm => hu ev (List.mem_cons_of_mem _ hm)
    have hev := hu ev List.mem_cons_self
    cases ev with
    | noted n e =>
      cases n with
      | passCut => cases hev
      | passEnded =>
        unfold deaf
        rw [ih, Bool.and_false]
      | _ => exact ih
    | sampled line level => cases level <;> first | rfl | exact ih
    | _ => exact ih

/-- A pass that finds the line low reads all inputs if it is asked to or the engine has not gone deaf, and nothing otherwise. -/
theorem PassRecord.Stems.found_low {p : PassRecord} {s t t' : State} (h : p.Stems s t t') (hs : s.Heard)
    (hlow : p.body.found .low = true) :
    (p.past.deaf = false ∨ p.pending.asksInputs = true →
      ∀ g, p.before.claims.groups.getLsbD g = true → p.before.ReadsOnce p.body g) ∧
    (p.past.deaf = true → p.pending.asksInputs = false → p.body.reads = []) := by
  obtain ⟨plan, s₀, looked, hg, hlooked, hlooks, hreads⟩ := h.gathers
  obtain ⟨looked', hears⟩ := hg.hears
  obtain rfl := State.new_unique hlooked hears.history
  rw [History.found, hlooks] at hlow
  have heard := h.heard hs (hears.line hlow)
  refine ⟨fun hd g hg => Extender.readsOnce hreads hg ?_, fun hd ha => ?_⟩
  · have hall : plan.groups = 255 := hd.elim (fun hd => hears.fallen hlow (heard.2 hd)) hears.asked
    rw [hall]
    exact Byte.getLsbD_255 (BitVec.lt_of_getLsbD hg)
  · have hnone : plan.groups = 0 := hears.deafened hlow (fun hl => by rw [heard.1 hl] at hd; cases hd) ha
    rw [hnone] at hreads
    have hempty : ((0 : Byte) &&& p.before.claims.groups).groups = [] := by
      show Byte.groups (0#8 &&& _) = []
      rw [BitVec.zero_and]
      rfl
    rw [hempty] at hreads
    exact List.map_eq_nil_iff.1 hreads

/-- Also a pass that is cut short by a handler has read all inputs before, if it has found the line low and it is asked to or the engine
has not gone deaf. -/
theorem CutRecord.Stems.found_low {c : CutRecord} {s t t' : State} (h : c.Stems s t t') (hs : s.Heard)
    (hlow : c.body.found .low = true) (hcalls : c.body.calls ≠ []) (hd : c.past.deaf = false ∨ c.pending.asksInputs = true)
    {g : Nat} (hg : c.before.claims.groups.getLsbD g = true) : c.before.Reads c.body g := by
  obtain ⟨plan, s₁, s₂, hgather, -, hsteps, hfalters⟩ := h.breaks
  obtain ⟨looked, hears⟩ := hgather.hears
  obtain ⟨new, hstill, hquiet⟩ := hsteps.still
  obtain ⟨new', hstill', hread⟩ := hfalters.still
  have hbody : c.body = new' ++ (new ++ looked) := by
    refine State.new_unique h.body ?_
    rw [hstill'.history, hstill.history, hears.history, List.append_assoc, List.append_assoc]
  rw [hbody, History.found_append, History.found_append, History.found_of_no_looks hstill'.looks,
    History.found_of_no_looks hstill.looks, Bool.false_or, Bool.false_or] at hlow
  rw [hbody, History.calls_append, History.calls_append, hquiet, hears.silent.2, List.append_nil, List.append_nil] at hcalls
  have heard := h.heard hs (hears.line hlow)
  have hall : plan.groups = 255 := hd.elim (fun hd => hears.fallen hlow (heard.2 hd)) hears.asked
  have hsteady : Steady c.before s₂.extender := h.extender ▸ hgather.steady.trans hsteps.steady
  obtain ⟨place, hp, hm⟩ := hread hcalls g (by rw [hsteady.claims]; exact hg)
    (by rw [hall]; exact Byte.getLsbD_255 (BitVec.lt_of_getLsbD hg))
  rw [hsteady.inputPlace] at hp
  refine ⟨place, hp, ?_⟩
  rw [hbody, History.reads_append]
  exact List.mem_append_left _ hm

/-- The generic engine sees its line fall as long as it has not gone deaf. A pass of a session that finds the line low reads the inputs
of every claimed group, whatever it follows, if the history before it is not deaf or if it is asked for the inputs; so does a pass that
calls a handler which then cuts it short. But after a deaf history, and without being asked, a pass that finds the line low reads
nothing. As long as no fault cuts a pass short, no history is deaf. -/
theorem falls_are_seen_unless_deaf {s : State} (hs : Reachable s) :
    (∀ p, s.history.Records p → p.body.found .low = true →
      (p.past.deaf = false ∨ p.pending.asksInputs = true →
        ∀ g, p.before.claims.groups.getLsbD g = true → p.before.ReadsOnce p.body g) ∧
      (p.past.deaf = true → p.pending.asksInputs = false → p.body.reads = [])) ∧
    (∀ c, s.history.CutShort c → c.body.found .low = true → c.body.calls ≠ [] →
      (c.past.deaf = false ∨ c.pending.asksInputs = true) →
        ∀ g, c.before.claims.groups.getLsbD g = true → c.before.Reads c.body g) ∧
    ∀ h : History, h.Uncut → h.deaf = false := by
  obtain ⟨e₀, board, hmade, hgo, -⟩ := hs.goes
  refine ⟨fun p hp hlow => ?_, fun c hc hlow hcalls hd g hg => ?_, fun h hu => hu.not_deaf⟩
  · obtain ⟨s₁, t, t', hgo₁, hst⟩ := hgo.exists_stems rfl hp
    exact hst.found_low (hgo₁.heard hmade rfl) hlow
  · obtain ⟨s₁, t, t', hgo₁, hst⟩ := hgo.exists_cut rfl hc
    exact hst.found_low (hgo₁.heard hmade rfl) hlow hcalls hd hg

/-- A handler cuts a pass short, after which the engine is deaf until a pass finds the line high. The pass that then finds it low reads
the inputs. -/
theorem falls_are_seen_unless_deaf_of_a_rise :
    let s := State.oneLine [.claim 0, .op (.call (.setup 0 PinAttributes.input)), .op (.call (.attach 0 ⟨0, 7, .change⟩)),
      .op .update, .op (.handler 7 [.panic]), .op (.change (.poke ⟨0x20, 0⟩ 1)), .op (.change (.line 0 .low)),
      .op (.call (.interrupt 0)), .op .update, .op (.change (.line 0 .high)), .op (.call (.interrupt 0)), .op .update,
      .op (.change (.line 0 .low)), .op (.call (.interrupt 0)), .op .update]
    (∃ c, s.history.CutShort c ∧ c.body.found .low = true ∧ c.before.Reads c.body 0) ∧
    ∃ p, s.history.Records p ∧ ¬p.past.Uncut ∧ p.body.found .low = true ∧ p.before.ReadsOnce p.body 0 := by
  intro s
  have hr : Reachable s := reachable_oneLine _
  obtain ⟨hpass, hcut, -⟩ := falls_are_seen_unless_deaf hr
  constructor
  · obtain ⟨c, hc, hq⟩ := (Option.any_eq_true _ _).1
      (by decide +kernel : ((s.history.cut? 30).any fun c => c.body.found .low && c.body.calls.length == 1 && !c.past.deaf &&
        c.before.claims.groups.getLsbD 0) = true)
    simp only [Bool.and_eq_true, beq_iff_eq, Bool.not_eq_true'] at hq
    obtain ⟨⟨⟨hlow, hcalls⟩, hdeaf⟩, hg⟩ := hq
    have hc := History.cutShort_of_cut? hc
    exact ⟨c, hc, hlow, hcut c hc hlow (List.ne_nil_of_length_eq_add_one hcalls) (.inl hdeaf) 0 hg⟩
  · obtain ⟨p, hp, hq⟩ := (Option.any_eq_true _ _).1
      (by decide +kernel : ((s.history.pass? 2).any fun p => !decide p.past.Uncut && p.body.found .low && !p.past.deaf &&
        p.before.claims.groups.getLsbD 0) = true)
    simp only [Bool.and_eq_true, Bool.not_eq_true', decide_eq_false_iff_not] at hq
    obtain ⟨⟨⟨hcut, hlow⟩, hdeaf⟩, hg⟩ := hq
    have hp := History.records_of_pass? hp
    exact ⟨p, hp, hcut, hlow, (hpass p hp hlow).1 (.inl hdeaf) 0 hg⟩

/-- A handler cuts a pass short that has found the line low and has read the inputs. The line rises and falls again before the next
interrupt, and the first pass after that finds it low, but reads nothing of the change. -/
theorem falls_are_missed_after_a_cut :
    let s := State.oneLine [.claim 0, .op (.call (.setup 0 PinAttributes.input)), .op (.call (.attach 0 ⟨0, 7, .change⟩)),
      .op .update, .op (.handler 7 [.panic]), .op (.change (.poke ⟨0x20, 0⟩ 1)), .op (.change (.line 0 .low)),
      .op (.call (.interrupt 0)), .op .update, .op (.handler 7 []), .op (.change (.line 0 .high)),
      .op (.change (.poke ⟨0x20, 0⟩ 0)), .op (.change (.line 0 .low)), .op (.call (.interrupt 0)), .op .update]
    ∃ c p since e older, s.history.CutShort c ∧ c.body.calls = [(0, ⟨0, 7, .change⟩)] ∧ s.history.Records p ∧
      p.past.CutShort c ∧ p.Follows 0 since e older ∧ e.isStopped = false ∧ p.body.found .low = true ∧
      p.before.claims.groups.getLsbD 0 = true ∧ p.body.reads = [] := by
  intro s
  obtain ⟨p, hp, hq⟩ := (Option.any_eq_true _ _).1
    (by decide +kernel : ((s.history.pass? 2).any fun p => p.body.found .low && p.before.claims.groups.getLsbD 0 &&
      p.body.reads == [] && p.past.all (fun ev => ev.note?.all (!·.2.isStopped)) &&
      p.followsAt 0 3 && (p.past.cut? 16).any fun c => c.body.calls == [(0, ⟨0, 7, .change⟩)]) = true)
  rw [Bool.and_eq_true, Bool.and_eq_true, Bool.and_eq_true, Bool.and_eq_true, Bool.and_eq_true, beq_iff_eq,
    List.all_eq_true] at hq
  obtain ⟨⟨⟨⟨⟨hlow, hg⟩, hreads⟩, hrunning⟩, hfollows⟩, hcut⟩ := hq
  obtain ⟨c, hc, hcalls⟩ := (Option.any_eq_true _ _).1 hcut
  have hp := History.records_of_pass? hp
  have hc := History.cutShort_of_cut? hc
  obtain ⟨since, e, older, hf⟩ := PassRecord.follows_of_followsAt hfollows
  have hstopped : e.isStopped = false := by
    obtain ⟨n, hpast, -⟩ := hf.past
    have he : (!e.isStopped) = true := hrunning (.noted n e) (by simp [hpast])
    rwa [Bool.not_eq_true'] at he
  exact ⟨c, p, since, e, older, hp.cutShort hc, eq_of_beq hcalls, hp, hc, hf, hstopped, hlow, hg, hreads⟩

end PortExpander
