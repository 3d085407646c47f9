import PortExpander.Proofs.Update
import PortExpander.Session

/-!
# What operations come to

Whatever is done to an extender is a row of happenings: touches, updates that find no other pass at work, and what a step does
on its own, which is to begin, to end, and to claim and free pins. A computation `Leads` if it comes to such a row from every
state, whether or not a fault ends it. While a pass is at work the happenings are touches.
-/

namespace PortExpander

open Sim Engine

/-- The state at the end of a step, which leaves no agenda behind. -/
def State.over (s : State) (step : Step) (r : Reply) : State :=
  (s.onBoard ({ · with agenda := none })).noting (.stepEnded step r)

/-- One thing that happens to an extender. -/
inductive Happening : State → State → Prop where
  | touch {s s' : State} : Touch s s' → Happening s s'
  | update {s s' : State} (p : Pass) : s.extender.updating = false → Updates s p s' → Happening s s'
  | cut {s s' : State} : s.extender.updating = false → Cuts s s' → Happening s s'
  | began {s : State} (step : Step) : s.extender.updating = false → Happening s (s.noting (.stepBegan step))
  | ended {s : State} (step : Step) (r : Reply) : s.extender.updating = false →
      (∀ o, step = .op o → s.Confirms o r) → Happening s (s.over step r)
  | claim {s : State} (pin : Nat) (claims : Claims) : s.extender.updating = false → s.extender.isStopped = false →
      s.extender.claims.claim pin = .ok claims → Happening s ((s.amend ({ · with claims })).over (.claim pin) .done)
  | free {s : State} (pin : Nat) : s.extender.updating = false →
      (pin < s.extender.claims.capacity → s.extender.handlers pin = none) →
      Happening s ((s.amend fun e => { e with claims := e.claims.free pin }).over (.free pin) .done)

/-- Any number of happenings. -/
abbrev Goes : State → State → Prop := Relation.ReflTransGen Happening

/-- A touch is a happening by itself. -/
theorem Touch.goes {s s' : State} (h : Touch s s') : Goes s s' := .single (.touch h)

/-- Touches are happenings. -/
theorem Touched.goes {s s' : State} (h : Touched s s') : Goes s s' :=
  Relation.ReflTransGen.mono (fun _ _ => Happening.touch) _ _ h

/-- While a pass is at work nothing happens but touches. -/
theorem Goes.touched {s s' : State} (h : Goes s s') (hu : s.extender.updating = true) : Touched s s' := by
  induction h with
  | refl => exact .refl
  | tail _ h ih =>
    have hb := ih.frame.updating.trans hu
    cases h with
    | touch h => exact ih.tail h
    | update _ hf | cut hf | began _ hf | ended _ _ hf | claim _ _ hf | free _ hf _ => rw [hb] at hf; cases hf

/-- Some quiet events are a row of touches. -/
theorem touched_of_quiet (s : State) (evs : List Event) (h : ∀ ev ∈ evs, ev.isQuiet = true) :
    Touched s { s with history := evs ++ s.history } := by
  induction evs with
  | nil => exact .refl
  | cons ev evs ih =>
    exact (ih fun ev' h' => h ev' (List.mem_cons_of_mem _ h')).tail (.see ev (h ev List.mem_cons_self))

variable {α β : Type}

/-- From every state, the computation comes to a row of happenings. -/
def Leads (m : Sim α) : Prop := ∀ s, m.Gives s (fun _ s' => Goes s s') (fun s' => Goes s s')

namespace Leads

theorem pure (a : α) : Leads (Pure.pure a : Sim α) := fun _ => .refl

theorem throw (f : Fault) : Leads (MonadExcept.throw f : Sim α) := fun _ => .refl

/-- Two computations in a row lead on if both do. -/
theorem bind {m : Sim α} {f : α → Sim β} (hm : Leads m) (hf : ∀ a, Leads (f a)) : Leads (m >>= f) := by
  intro s
  rw [gives_bind]
  refine (hm s).mono (fun a s₁ h₁ => ?_) fun _ h => h
  exact (hf a s₁).mono (fun _ _ h => h₁.trans h) fun _ h => h₁.trans h

/-- A choice between two computations leads on if both do. -/
theorem ite {c : Prop} [Decidable c] {m m' : Sim α} (h : Leads m) (h' : Leads m') : Leads (if c then m else m') := by
  split
  · exact h
  · exact h'

theorem extender : Leads Sim.extender := fun _ => .refl

theorem board : Leads Sim.board := fun _ => .refl

theorem modifyBoard (f : Board → Board) : Leads (Sim.modifyBoard f) := fun _ => (Touch.board f).goes

/-- A request for work, other than that of a setup, is a touch. -/
theorem request {bits : Status} (h : bits.pending = bits ∧ bits ≠ Status.configDirty) : Leads (Sim.request bits) :=
  fun _ => (Touch.ask bits h).goes

theorem emit {ev : Event} (h : ev.isQuiet = true) : Leads (Sim.emit ev) := fun _ => (Touch.see ev h).goes

theorem notify : Leads Sim.notify := emit rfl

end Leads

/-- Whatever operations fall into the middle of something, they come to happenings, and when they have ended there is a note of
what they have changed. While a pass is at work they do not begin without a note. -/
structure Plays (nest : Nest) : Prop where
  leads : ∀ ops, Leads (nest ops)
  told : ∀ ops s, s.Told → (nest ops).Gives s (fun _ s' => s'.Told) (fun _ => True)
  announced : ∀ ops s, s.extender.updating = true → (nest ops).Gives s (fun _ s' => s.Announced s') (fun _ => True)

/-- Whoever plays operations so only touches the extender while a pass is at work. -/
theorem Plays.onlyTouches {nest : Nest} (hp : Plays nest) : OnlyTouches nest :=
  fun ops s hu => Goes.touched (gives_iff.1 (hp.leads ops s)) hu

/-- Whoever plays operations so is a guest of passes. -/
theorem Plays.guest {nest : Nest} (hp : Plays nest) : Guest nest := ⟨hp.onlyTouches, hp.told, hp.announced⟩

section

variable {nest : Nest} (hp : Plays nest)

include hp

/-- An update comes to one of its cases, or finds another pass at work, of which there is a note. Unless it does, no pass is at
work when it is over, and one that finds the extender halted leaves it so. -/
theorem gives_update (s : State) :
    (update nest).Gives s
      (fun p s' => Goes s s' ∧ (p ≠ .contended → s'.extender.updating = false) ∧
        (p = .stopped → s'.extender.halted = true) ∧
        (p = .contended → ∃ e, s'.history.head? = some (.noted (.updated .contended) e)))
      (fun s' => Goes s s') := by
  cases hu : s.extender.updating with
  | false =>
    refine (gives_update_of_free hp.guest hu).mono (fun p s' h => ?_) fun _ h => .single (.cut hu h)
    refine ⟨.single (.update p hu h), fun _ => h.updating, ?_, ?_⟩
    · rintro rfl
      cases h with
      | halted hh => exact hh
      | stops => rfl
    · rintro rfl
      cases h
  | true =>
    unfold Gives
    rw [update_of_held hu]
    exact ⟨(Touch.contend hu).goes, fun h => (h rfl).elim, nofun, fun _ => ⟨_, rfl⟩⟩

/-- An update leads on: it finds another pass at work, or it is the update of the extender. -/
theorem leads_update : Leads (update nest) :=
  fun s => (gives_update hp s).mono (fun _ _ h => h.1) fun _ h => h

/-- A pause leads on by what falls into it. -/
theorem leads_pause : Leads (pause nest) := by
  refine Leads.board.bind fun b => ?_
  split
  · exact .pure ()
  · split
    · exact .throw _
    · exact (Leads.modifyBoard _).bind fun _ => hp.leads _

/-- The time between two attempts leads on. -/
theorem leads_delay (ms : Nat) : Leads (delay nest ms) :=
  (Leads.emit rfl).bind fun _ => leads_pause hp

/-- Waiting for some time leads on. -/
theorem leads_wait (ms : Nat) : Leads (wait nest ms) := by
  refine Leads.board.bind fun b => Leads.bind (Leads.emit ?_) fun _ => leads_pause hp
  split <;> rfl

/-! ## The worker -/

/-- The worker waits for work when it has reason to rest. -/
theorem leads_awaitWork {s : State} (hr : Note.waits.Rests s.extender s.history) :
    (awaitWork nest).Gives s (fun _ s' => Goes s s') (fun s' => Goes s s') := by
  unfold awaitWork
  rw [gives_bind, gives_note]
  have hw := Touch.goes (.note .waits rfl hr)
  exact (leads_wait hp _ _).mono (fun _ _ h => hw.trans h) fun _ h => hw.trans h

/-- After a failure the worker waits and tries again. -/
theorem leads_backOff : Leads (backOff nest) := by
  intro s
  unfold backOff
  simp only [gives_bind, gives_extender]
  split
  · rename_i hms
    rw [gives_bind, gives_note]
    have hw := Touch.goes (.note (.backsOff s.extender.backoff.delay) rfl ⟨rfl, bne_iff_ne.1 hms⟩)
    exact (leads_delay hp _ _).mono (fun _ _ h => hw.trans h) fun _ h => hw.trans h
  · exact .refl

/-- When there is nothing to do, the worker rests. -/
theorem leads_rest : Leads (rest nest) := by
  intro s
  unfold rest
  rw [gives_bind]
  refine (leads_backOff hp s).mono (fun _ s₁ h₁ => ?_) fun _ h => h
  rw [gives_bind, gives_extender]
  split
  · rename_i he
    exact (leads_awaitWork hp (.inl he)).mono (fun _ _ h => h₁.trans h) fun _ h => h₁.trans h
  · exact h₁

/-- The worker makes its rounds until the extender has halted. -/
theorem gives_rounds (left : Nat) (s : State) :
    (rounds nest left).Gives s (fun _ s' => Goes s s' ∧ s'.extender.halted = true) (fun s' => Goes s s') := by
  induction left generalizing s with
  | zero => exact .refl
  | succ left ih =>
    have hround {s₁ : State} {m : Sim Unit} (h₁ : Goes s s₁)
        (hm : m.Gives s₁ (fun _ s' => Goes s₁ s') (fun s' => Goes s₁ s')) : (m >>= fun _ => rounds nest left).Gives s₁
        (fun _ s' => Goes s s' ∧ s'.extender.halted = true) (fun s' => Goes s s') := by
      rw [gives_bind]
      refine hm.mono (fun _ s₂ h₂ => ?_) fun _ h => h₁.trans h
      exact (ih s₂).mono (fun _ _ h => ⟨(h₁.trans h₂).trans h.1, h.2⟩) fun _ h => (h₁.trans h₂).trans h
    unfold rounds
    rw [gives_bind]
    refine (gives_update hp s).mono (fun p s₁ h₁ => ?_) fun _ h => h
    cases p with
    | stopped => exact ⟨h₁.1, h₁.2.2.1 rfl⟩
    | contended => exact hround h₁.1 (leads_awaitWork hp (.inr (h₁.2.2.2 rfl)))
    | idle | ran => exact hround h₁.1 (leads_rest hp s₁)

/-- A worker that returns leaves the extender halted. -/
theorem gives_work (s : State) :
    (work nest).Gives s (fun _ s' => Goes s s' ∧ s'.extender.halted = true) (fun s' => Goes s s') := by
  have hgreeting (e : Extender) : e.greeting.isQuiet = true := by
    unfold Extender.greeting
    split <;> rfl
  have hstart : Leads workerStarted := Leads.board.bind fun b => .ite (.emit rfl) (.pure ())
  unfold work
  rw [gives_bind]
  refine (hstart s).mono (fun _ s₁ h₁ => ?_) fun _ h => h
  simp only [gives_bind, gives_extender, gives_log, gives_request, gives_board]
  have hw := (h₁.trans (Touch.goes (.see (.logged s₁.extender.greeting) (hgreeting _)))).trans
    (Touch.goes (.ask .resync (by decide)))
  exact (gives_rounds hp _ _).mono (fun _ _ h => ⟨hw.trans h.1, h.2⟩) fun _ h => hw.trans h

omit hp in
/-- The lines are released one after the other, and only the history tells of it. -/
theorem gives_releaseEach (lines : List Nat) {s : State} (hh : s.extender.halted = true)
    (hu : s.extender.updating = false) :
    (lines.forM fun line => emit (.released line)).Gives s (fun _ s' => Goes s s' ∧ s'.extender = s.extender)
      (fun _ => False) := by
  induction lines generalizing s with
  | nil => exact ⟨.refl, rfl⟩
  | cons line lines ih =>
    change (emit (.released line) >>= fun _ => lines.forM fun line => emit (.released line)).Gives _ _ _
    rw [gives_bind, gives_emit]
    refine (ih (s := s.seeing (.released line)) hh hu).mono (fun _ s' h => ⟨?_, h.2⟩) fun _ h => h
    exact (Touch.goes (.released line hh hu)).trans h.1

omit hp in
/-- A halted extender lets go of its lines. -/
theorem gives_releaseLines {s : State} (hh : s.extender.halted = true) (hu : s.extender.updating = false) :
    releaseLines.Gives s (fun _ s' => Goes s s' ∧ s'.extender = { s.extender with lines := .none }) (fun _ => False) := by
  unfold releaseLines
  rw [gives_bind, gives_extender, if_neg (Bool.eq_false_iff.1 hu)]
  simp only [gives_bind, gives_modifyExtender]
  refine (gives_releaseEach _ (s := s.amend ({ · with lines := .none })) hh hu).mono (fun _ s' h => ⟨?_, h.2⟩) fun _ h => h
  exact (Touch.goes (.unwire hh hu)).trans h.1

/-- Who is told that the extender has halted may rely on it. -/
theorem gives_awaitHalt (left : Nat) (s : State) :
    (awaitHalt nest left).Gives s
      (fun b s' => Goes s s' ∧ (b = true → s'.extender.halted = true ∧ s'.extender.updating = false ∧ s'.extender.lines = .none))
      (fun s' => Goes s s') := by
  induction left generalizing s with
  | zero => exact ⟨(Touch.see _ rfl).goes, nofun⟩
  | succ left ih =>
    unfold awaitHalt
    rw [gives_bind]
    refine (gives_update hp s).mono (fun p s₁ h₁ => ?_) fun _ h => h
    split
    · rename_i hs
      have hh := h₁.2.2.1 hs
      have hu := h₁.2.1 (by rw [hs]; nofun)
      rw [gives_bind]
      refine (gives_releaseLines hh hu).mono (fun _ s' h => ⟨h₁.1.trans h.1, fun _ => ?_⟩) fun _ h => h.elim
      rw [h.2]
      exact ⟨hh, hu, rfl⟩
    · rw [gives_bind]
      refine (leads_delay hp _ s₁).mono (fun _ s₂ h₂ => ?_) fun _ h => h₁.1.trans h
      have hw := h₁.1.trans h₂
      exact (ih s₂).mono (fun _ _ h => ⟨hw.trans h.1, h.2⟩) fun _ h => hw.trans h

/-- A shutdown leads on, and its answer tells what has become of the extender. -/
theorem gives_shutdown (s : State) :
    (shutdown nest).Gives s (fun b s' => Goes s s' ∧ s'.extender.Confirms .shutdown (.bit b)) (fun s' => Goes s s') := by
  unfold shutdown
  simp only [gives_bind, gives_request, gives_notify]
  have hw : Goes s ((s.asking .stop).seeing .notified) :=
    (Touch.goes (.ask _ (by decide))).trans (Touch.goes (.see _ rfl))
  refine (gives_awaitHalt hp _ _).mono (fun b s' h => ⟨hw.trans h.1, ?_⟩) fun _ h => hw.trans h
  cases b with
  | false => exact trivial
  | true => exact h.2 rfl

end

end PortExpander
