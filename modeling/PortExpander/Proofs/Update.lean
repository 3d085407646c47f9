import PortExpander.Proofs.Transfers

/-!
# Updates

What an update comes to when no other pass is at work is one of five things, the cases of `Updates`: the extender has halted
before, it halts now, there is nothing to do, a pass is made, or a pass is cut short by a fault. What a pass that is not cut
short does is put together in `Carries` from its phases.
-/

namespace PortExpander

open Sim Engine

/-! ## Phases of a pass -/

/-- Writing the polarities of some groups, if there is a register for them. -/
def Inverts (groups : List Nat) (s : State) (ok : Bool) (s' : State) : Prop :=
  match s.extender.family.polarityReg with
  | some reg => Writes reg (·.invert.byte ·) groups s ok s'
  | none => ok = true ∧ s' = s

/-- Writing the polarities and the directions of all claimed groups. -/
def Configures (s : State) (ok : Bool) (s' : State) : Prop :=
  ∃ s₁ s₂ inverted directed, Inverts s.extender.claims.groups.groups s inverted s₁ ∧
    Writes s.extender.family.configReg (·.direction.byte ·) s.extender.claims.groups.groups s₁ directed s₂ ∧
    ok = (inverted && directed) ∧
    s' = s₂.amend fun e => { e with shadow := e.shadow.markDirty s.extender.claims.groups }

/-- Writing the outputs of the dirty groups that are claimed. -/
def Flushes (s : State) (ok : Bool) (s' : State) : Prop :=
  Writes s.extender.family.outputReg (·.outputByte ·) (s.extender.shadow.dirty &&& s.extender.claims.groups).groups
    (s.amend fun e => { e with shadow := e.shadow.clearDirty }) ok s'

/-- The state in which the interrupt line is remembered as high. -/
def State.rearmed (s : State) : State :=
  s.amend fun e =>
    match e.engine with
    | .generic m => { e with engine := .generic { m with high := true } }
    | .queued _ => e

/-- Reading the inputs of the claimed ones of some groups and calling the handlers. -/
def Refreshes (groups : Byte) (s : State) (ok : Bool) (s' : State) : Prop :=
  ∃ s₁ s₂ refreshes, Reads (groups &&& s.extender.claims.groups).groups s (refreshes, ok) s₁ ∧
    Turns (Refresh.turns refreshes) s₁ s₂ ∧ s' = s₂.rearmed

/-- Making the plan of a pass: the generic engine may look at its interrupt line, the queued engine empties its queue. -/
inductive Gathers (pending : Status) : State → Plan → State → Prop where
  | looked {s : State} {m : Sampler} {now : Bool} : s.extender.engine = .generic m →
      pending.contains Status.isrPending = true → s.extender.lines.has 0 = true →
      now = (s.board.lines 0).isHigh?.getD m.high →
      Gathers pending s (.ofRequests (if m.high && !now then pending ∪ Status.readDirty else pending) 0)
        ((s.seeing (.sampled 0 (s.board.lines 0))).amend ({ · with engine := .generic { m with high := now } }))
  | unlooked {s : State} {m : Sampler} : s.extender.engine = .generic m →
      (pending.contains Status.isrPending && s.extender.lines.has 0) = false → Gathers pending s (.ofRequests pending 0) s
  | drained {s : State} {q : ChipQueue} : s.extender.engine = .queued q →
      Gathers pending s (.ofRequests pending (q.queue.foldl (fun mask chip => mask ||| BitVec.twoPow 8 chip) q.polled))
        (s.amend ({ · with engine := .queued q.emptied }))

/-- A phase that is made if the plan asks for it. -/
def Asked (asked : Bool) (phase : State → Bool → State → Prop) (s : State) (ok : Bool) (s' : State) : Prop :=
  if asked = true then phase s ok s' else ok = true ∧ s' = s

/-- All phases of a pass, in order. -/
def Carries (pending : Status) (s : State) (clean : Bool) (s' : State) : Prop :=
  ∃ plan s₁ s₂ s₃ configured written read, Gathers pending s plan s₁ ∧ Asked plan.configure Configures s₁ configured s₂ ∧
    Asked plan.write Flushes s₂ written s₃ ∧ Asked (plan.groups != 0) (Refreshes plan.groups) s₃ read s' ∧
    clean = (configured && written && read)

/-- The register for polarities is one of those that are written to. -/
theorem Family.polarity_mem {f : Family} {reg : Byte} (h : f.polarityReg = some reg) : reg ∈ f.writtenRegs := by
  rw [writtenRegs, h]
  exact List.mem_cons_self

/-- The register for directions is one of those that are written to. -/
theorem Family.config_mem (f : Family) : f.configReg ∈ f.writtenRegs :=
  List.mem_append_right _ List.mem_cons_self

/-- The register for outputs is one of those that are written to. -/
theorem Family.output_mem (f : Family) : f.outputReg ∈ f.writtenRegs :=
  List.mem_append_right _ (List.mem_cons_of_mem _ List.mem_cons_self)

variable {nest : Nest}

/-- The groups with claimed pins have claimed pins. -/
theorem Extender.holds_groups (e : Extender) : e.Holds e.claims.groups.groups := fun _ hg => Byte.mem_groups.1 hg

/-- The claimed ones of some groups are claimed. -/
theorem Extender.holds_and (e : Extender) (mask : Byte) : e.Holds (mask &&& e.claims.groups).groups := by
  intro g hg
  have h := Byte.mem_groups.1 hg
  rw [BitVec.getLsbD_and, Bool.and_eq_true] at h
  exact h.2

/-- In a pass the claims stay as they are. -/
theorem Extender.holds_of_steady {e e' : Extender} (h : Steady e e') {groups : List Nat} (hg : e.Holds groups) :
    e'.Holds groups := by
  intro g hgg
  rw [h.claims]
  exact hg g hgg

/-- Writing the polarities: what `writePolarities` gives. -/
theorem gives_writePolarities (hn : Guest nest) {groups : List Nat} {s : State} (hu : s.extender.updating = true)
    (hg : s.extender.Holds groups) :
    (writePolarities nest s.extender.family groups).Gives s (fun ok s' => Inverts groups s ok s' ∧ BusSteps s s')
      (fun s' => BusSteps s s') := by
  unfold writePolarities Inverts
  cases hreg : s.extender.family.polarityReg with
  | some reg => exact gives_writeGroups hn _ hu hg (Family.polarity_mem hreg)
  | none => exact ⟨⟨rfl, rfl⟩, .refl⟩

/-- Writing the configuration: what `syncConfig` gives. -/
theorem gives_syncConfig (hn : Guest nest) {s : State} (hu : s.extender.updating = true) :
    (syncConfig nest).Gives s (fun ok s' => Configures s ok s' ∧ BusSteps s s') (fun s' => BusSteps s s') := by
  unfold syncConfig
  simp only [gives_bind, gives_extender, gives_modifyExtender, gives_pure]
  refine (gives_writePolarities hn hu s.extender.holds_groups).mono (fun inverted s₁ h₁ => ?_) fun _ h => h
  have hs := h₁.2.steady
  refine (gives_writeGroups hn _ (hs.updating.trans hu) (Extender.holds_of_steady hs s.extender.holds_groups)
    (hs.family ▸ Family.config_mem _)).mono (fun directed s₂ h₂ => ?_) fun _ h => h₁.2.trans h
  exact ⟨⟨s₁, s₂, inverted, directed, h₁.1, h₂.1, rfl, rfl⟩, (h₁.2.trans h₂.2).tail (.mark _)⟩

/-- Writing the outputs: what `syncWrites` gives. -/
theorem gives_syncWrites (hn : Guest nest) {s : State} (hu : s.extender.updating = true) :
    (syncWrites nest).Gives s (fun ok s' => Flushes s ok s' ∧ BusSteps s s') (fun s' => BusSteps s s') := by
  unfold syncWrites
  simp only [gives_bind, gives_extender, gives_modifyExtender]
  have hc : BusSteps s (s.amend fun e => { e with shadow := e.shadow.clearDirty }) := .single .clear
  generalize hs : (s.amend fun e => { e with shadow := e.shadow.clearDirty }) = s₁ at hc ⊢
  refine (gives_writeGroups hn _ (hc.steady.updating.trans hu) (Extender.holds_of_steady hc.steady (s.extender.holds_and _))
    (hc.steady.family ▸ Family.output_mem _)).mono (fun ok s' h => ⟨?_, hc.trans h.2⟩) fun _ h => hc.trans h
  rw [Flushes, hs]
  exact h.1

theorem State.works_rearmed (s : State) : Works s s.rearmed := by
  unfold rearmed
  cases he : s.extender.engine with
  | generic m =>
    have h := Work.level true he
    simp only [amend, he] at h ⊢
    exact .single h
  | queued q =>
    simp only [amend, he]
    exact .refl

/-- How a fault cuts the reading of some groups short: between two transactions, or when all inputs have been read and handlers
are called. -/
inductive Falters (groups : Byte) (s s' : State) : Prop where
  | early : BusSteps s s' → Falters groups s s'
  | late {s₁ : State} {result : List Refresh × Bool} : Reads (groups &&& s.extender.claims.groups).groups s result s₁ →
      BusSteps s s₁ → Calls s₁ s' → Falters groups s s'

/-- Reading the inputs and calling the handlers: what `readInputs` gives, and where a fault may cut it short. -/
theorem gives_readInputs (hn : Guest nest) (groups : Byte) {s : State} (hu : s.extender.updating = true) :
    (readInputs nest groups).Gives s (fun ok s' => Refreshes groups s ok s' ∧ Works s s') (Falters groups s) := by
  unfold readInputs syncReads rearm
  simp only [gives_bind, gives_extender, gives_modifyExtender, gives_pure]
  refine (gives_readGroups hn _ hu (s.extender.holds_and _)).mono (fun result s₁ h₁ => ?_) fun _ h => .early h
  obtain ⟨refreshes, ok⟩ := result
  refine (gives_dispatch hn refreshes (h₁.2.steady.updating.trans hu)).mono (fun _ s₂ h₂ => ?_)
    fun _ h => .late h₁.1 h₁.2 h
  exact ⟨⟨s₁, s₂, refreshes, h₁.1, h₂, rfl⟩, (h₁.2.works.trans h₂.calls.works).trans s₂.works_rearmed⟩

/-- Making the plan is work of a pass. -/
theorem Gathers.works {pending : Status} {plan : Plan} {s s' : State} (h : Gathers pending s plan s') : Works s s' := by
  cases h with
  | looked he _ hl => exact (Relation.ReflTransGen.single (.look 0 _ hl)).tail (Work.level _ he)
  | unlooked => exact .refl
  | drained he => exact .single (.drain he)

/-- Making the plan: what `gather` gives. It cannot fail. -/
theorem gives_gather (pending : Status) (s : State) :
    (gather pending).Gives s (fun plan s' => Gathers pending s plan s') (fun _ => False) := by
  rw [gather_eq]
  simp only [gives_bind, gives_extender]
  split
  · rename_i m he
    split
    · rename_i hl
      rw [Bool.and_eq_true] at hl
      unfold sampleLine sample
      simp only [gives_bind, gives_board, gives_emit, gives_modifyExtender, gives_pure]
      exact .looked he hl.1 hl.2 rfl
    · rename_i hl
      exact .unlooked he (Bool.eq_false_iff.2 hl)
  · rename_i q he
    simp only [gives_bind, gives_modifyExtender, gives_pure]
    exact .drained he

/-- A phase that is not asked for gives nothing. -/
theorem gives_ifAsked {asked : Bool} {part : Sim Bool} {phase : State → Bool → State → Prop} {R : State → State → Prop}
    {X : State → Prop} {s : State} (hr : R s s) (h : part.Gives s (fun ok s' => phase s ok s' ∧ R s s') X) :
    (ifAsked asked part).Gives s (fun ok s' => Asked asked phase s ok s' ∧ R s s') X := by
  unfold ifAsked Asked
  cases asked
  · exact ⟨⟨rfl, rfl⟩, hr⟩
  · exact h

/-- What a pass may have done before it reads: it has written the configuration or not, and then outputs or not. -/
def Prepares (s s' : State) : Prop :=
  ∃ configure write configured written s₁, Asked configure Configures s configured s₁ ∧ Asked write Flushes s₁ written s'

/-- How a fault cuts the work of a pass short: after the plan has been made, and not before transactions have been made that the
plan asks for. -/
def Breaks (pending : Status) (s s' : State) : Prop :=
  ∃ plan s₁ s₂, Gathers pending s plan s₁ ∧ Prepares s₁ s₂ ∧ BusSteps s₁ s₂ ∧ Falters plan.groups s₂ s'

/-- A reading that is cut short is work of a pass. -/
theorem Falters.works {groups : Byte} {s s' : State} (h : Falters groups s s') : Works s s' := by
  cases h with
  | early h => exact h.works
  | late _ h h' => exact h.works.trans h'.works

/-- A pass that is cut short has worked up to there. -/
theorem Breaks.works {pending : Status} {s s' : State} (h : Breaks pending s s') : Works s s' := by
  obtain ⟨_, _, _, hg, -, ht, hf⟩ := h
  exact (hg.works.trans ht.works).trans hf.works

/-- The state at the end of a pass, when its failures have been forgotten or everything has been asked for again. -/
def State.completed (s : State) (clean : Bool) : State :=
  (if clean = true then s.amend fun e => { e with backoff := e.backoff.recordSuccess }
    else (s.amend fun e => { e with shadow := e.shadow.markAllDirty }).asking .resync).noting (.passEnded clean)

/-- The end of a pass gives what it says. -/
theorem gives_complete (clean : Bool) (s : State) {Q : Unit → State → Prop} {X : State → Prop} :
    (complete clean).Gives s Q X ↔ Q () (s.completed clean) := by
  cases clean <;> exact Iff.rfl

/-- A pass that has taken its work: what `service` gives, and where a fault may cut it short. -/
theorem gives_service (hn : Guest nest) (pending : Status) {s : State} (hu : s.extender.updating = true) :
    (service nest pending).Gives s
      (fun _ s' => ∃ clean s₁, Carries pending (s.noting (.passBegan pending)) clean s₁ ∧
        Works (s.noting (.passBegan pending)) s₁ ∧ s' = s₁.completed clean)
      (Breaks pending (s.noting (.passBegan pending))) := by
  unfold service
  simp only [gives_bind, gives_note, gives_complete]
  refine (gives_gather pending _).mono (fun plan s₁ hg => ?_) fun _ h => h.elim
  have hu₁ := hg.works.steady.updating.trans hu
  refine (gives_ifAsked .refl (gives_syncConfig hn hu₁)).mono (fun configured s₂ h₂ => ?_)
    fun _ h => ⟨plan, s₁, s₁, hg, ⟨false, false, true, true, s₁, ⟨rfl, rfl⟩, ⟨rfl, rfl⟩⟩, .refl, .early h⟩
  have hu₂ := h₂.2.steady.updating.trans hu₁
  refine (gives_ifAsked .refl (gives_syncWrites hn hu₂)).mono (fun written s₃ h₃ => ?_)
    fun _ h => ⟨plan, s₁, s₂, hg, ⟨_, false, _, true, s₂, h₂.1, ⟨rfl, rfl⟩⟩, h₂.2, .early h⟩
  have ht₃ : BusSteps s₁ s₃ := h₂.2.trans h₃.2
  refine (gives_ifAsked .refl (gives_readInputs hn plan.groups (h₃.2.steady.updating.trans hu₂))).mono
    (fun read s' h' => ?_) fun _ h => ⟨plan, s₁, s₃, hg, ⟨_, _, _, _, s₂, h₂.1, h₃.1⟩, ht₃, h⟩
  exact ⟨_, s', ⟨plan, s₁, s₂, s₃, configured, written, read, hg, h₂.1, h₃.1, h'.1, rfl⟩,
    (hg.works.trans ht₃.works).trans h'.2, rfl⟩

/-! ## Updates when no pass is at work -/

/-- The work that is asked for, together with what the engine asks for in every pass. -/
def Extender.work (e : Extender) : Status := e.status.pending ∪ e.standing

/-- Who finds nothing to do has nothing asked of them. -/
theorem Extender.isEmpty_of_isIdleWith {e : Extender} {pending : Status} (h : e.isIdleWith pending = true) :
    pending.isEmpty = true := by
  unfold isIdleWith at h
  split at h
  · exact h
  · exact (Bool.and_eq_true_iff.1 h).1

namespace State

/-- The state in which a pass keeps others from being made. -/
def held (s : State) : State := s.amend ({ · with updating := true })

/-- The state after a pass has taken the work out of the status word. -/
def taken (s : State) : State := (s.amend ({ · with status := .busy })).noting (.took s.extender.status.pending)

/-- The state after the extender has halted. -/
def stopped (s : State) : State :=
  (s.amend ({ · with status := ∅, halted := true })).seeing (.logged (.halting s.extender.label))

/-- The state after a pass has released the status word. -/
def released (s : State) : State := s.amend fun e => { e with status := e.status.release }

/-- The state in which a pass has its work and is about to begin; the generic engine makes a record of it. -/
def started (s : State) (pending : Status) : State :=
  match s.extender.engine with
  | .generic _ => s.seeing (.logged (.passStarted s.extender.family.name pending))
  | .queued _ => s

/-- The beginning of a pass leaves the memory as it is. -/
@[simp] theorem extender_started (s : State) (pending : Status) : (s.started pending).extender = s.extender := by
  unfold started
  split <;> rfl

/-- A pass begins with the memory from which it has taken its work. -/
theorem extender_begun (s : State) (pending : Status) :
    ((s.held.taken.started pending).noting (.passBegan pending)).extender = s.held.taken.extender := by
  rw [extender_noting, extender_started]

end State

/-- What an update that is not cut short comes to, when no other pass is at work. -/
inductive Updates (s : State) : Pass → State → Prop where
  | halted : s.extender.halted = true → Updates s .stopped ((letGo s.held).noting (.updated .stopped))
  | stops : s.extender.halted = false → s.extender.work.contains Status.stop = true →
      Updates s .stopped ((letGo s.held.taken.stopped).noting (.updated .stopped))
  | idles : s.extender.halted = false → s.extender.work.contains Status.stop = false →
      s.extender.isIdleWith s.extender.work = true → Updates s .idle ((letGo s.held.taken.released).noting (.updated .idle))
  | ran {s₀ s₁ : State} {clean : Bool} : s.extender.halted = false → s.extender.work.contains Status.stop = false →
      s.extender.isIdleWith s.extender.work = false →
      s₀ = (s.held.taken.started s.extender.work).noting (.passBegan s.extender.work) →
      Carries s.extender.work s₀ clean s₁ → Works s₀ s₁ →
      Updates s .ran ((letGo (s₁.completed clean).released).noting (.updated .ran))

/-- An update that is over leaves no pass at work. -/
theorem Updates.updating {s s' : State} {p : Pass} (h : Updates s p s') : s'.extender.updating = false := by
  cases h <;> rfl

/-- What an update comes to when a fault cuts its pass short. -/
def Cuts (s s' : State) : Prop :=
  ∃ s₁, s.extender.halted = false ∧ s.extender.work.contains Status.stop = false ∧
    Breaks s.extender.work ((s.held.taken.started s.extender.work).noting (.passBegan s.extender.work)) s₁ ∧
    s' = (letGo s₁).noting .passCut

/-- What a pass gives under the guard: the guard is let go of in any case, and a cut is noted. -/
theorem gives_lettingGo {m : Sim Pass} {s : State} {Q : Pass → State → Prop} {X : State → Prop} :
    (lettingGo m).Gives s Q X ↔ m.Gives s (fun p s' => Q p (letGo s')) (fun s' => X ((letGo s').noting .passCut)) := by
  unfold Gives lettingGo
  rcases m s with ⟨_ | p, s'⟩ <;> exact Iff.rfl

/-- To take the work empties the status word. -/
theorem gives_take (s : State) {Q : Status → State → Prop} {X : State → Prop} :
    take.Gives s Q X ↔ Q s.extender.status.pending s.taken := Iff.rfl

/-- An update of an extender that has work to do makes a pass. -/
theorem gives_update_of_work {s : State} (hu : s.extender.updating = false) (hh : s.extender.halted = false)
    (hs : s.extender.work.contains Status.stop = false) (hi : s.extender.isIdleWith s.extender.work = false)
    {Q : Pass → State → Prop} {X : State → Prop}
    (h : (service nest s.extender.work).Gives (s.held.taken.started s.extender.work)
      (fun _ s' => Q .ran ((letGo s'.released).noting (.updated .ran))) (fun s' => X ((letGo s').noting .passCut))) :
    (update nest).Gives s Q X := by
  unfold update
  simp only [gives_bind, gives_extender, hu, Bool.false_eq_true, if_false, gives_modifyExtender, gives_lettingGo,
    gives_note, gives_pure]
  change (attempt nest).Gives s.held _ _
  unfold attempt
  simp only [gives_bind, gives_extender]
  split
  · exact absurd ‹_› (Bool.eq_false_iff.1 hh)
  · simp only [gives_bind, gives_take, gives_extender]
    split
    · exact absurd ‹_› (Bool.eq_false_iff.1 hs)
    · split
      · exact absurd ‹_› (Bool.eq_false_iff.1 hi)
      · unfold State.started at h
        split
        · rename_i m he
          rw [he] at h
          rw [gives_bind, gives_log, gives_bind]
          exact h
        · rename_i hq
          cases he : s.held.taken.extender.engine with
          | generic m => exact (hq m he).elim
          | queued q =>
            rw [he] at h
            rw [gives_bind]
            exact h

/-- An update that finds no other pass at work comes to one of its cases. -/
theorem gives_update_of_free (hn : Guest nest) {s : State} (hu : s.extender.updating = false) :
    (update nest).Gives s (Updates s) (Cuts s) := by
  by_cases hgo : s.extender.halted = false ∧ s.extender.work.contains Status.stop = false ∧
      s.extender.isIdleWith s.extender.work = false
  · obtain ⟨hh, hs, hi⟩ := hgo
    refine gives_update_of_work hu hh hs hi ?_
    have hu' : (s.held.taken.started s.extender.work).extender.updating = true := by
      rw [State.extender_started]
      rfl
    refine (gives_service hn s.extender.work hu').mono (fun _ s' h => ?_) fun s' h => ⟨s', hh, hs, h, rfl⟩
    obtain ⟨clean, s₁, hc, hw, rfl⟩ := h
    exact .ran hh hs hi rfl hc hw
  · unfold update
    simp only [gives_bind, gives_extender, hu, Bool.false_eq_true, if_false, gives_modifyExtender, gives_lettingGo,
      gives_note, gives_pure]
    change (attempt nest).Gives s.held _ _
    unfold attempt
    simp only [gives_bind, gives_extender]
    split
    · exact .halted ‹_›
    · have hh : s.extender.halted = false := Bool.eq_false_iff.2 ‹_›
      simp only [gives_bind, gives_take, gives_extender]
      split
      · exact .stops hh ‹_›
      · have hs : s.extender.work.contains Status.stop = false := Bool.eq_false_iff.2 ‹_›
        split
        · exact .idles hh hs ‹_›
        · exact (hgo ⟨hh, hs, Bool.eq_false_iff.2 ‹_›⟩).elim

/-- An update that finds another pass at work is contended and does nothing else. -/
theorem update_of_held {s : State} (hu : s.extender.updating = true) :
    update nest s = (.ok .contended, s.noting (.updated .contended)) := by
  unfold update
  show (if s.extender.updating = true then _ else _ : Sim Pass) s = _
  rw [if_pos hu]
  rfl

end PortExpander
