import PortExpander.Proofs.Passes

/-!
# Requests between passes

What has been asked for since the latest pass began waits for the next one: requests stay in the status word, interrupted chips
stay in the queue, and the generic engine sees its line fall. Unless a fault cuts a pass short, this holds between all
happenings of a session, and no update finds nothing to do meanwhile.
-/

namespace PortExpander

open Sim Engine

/-! ## Interrupts -/

/-- The line of the interrupt of whose end a note tells. -/
def Note.interrupt? : Note → Option Nat
  | opEnded (.call (.interrupt line)) .done => some line
  | stepEnded (.op (.call (.interrupt line))) .done => some line
  | _ => none

/-- Wherever an interrupt has ended, the memory is what it has made of the memory at its beginning. -/
def History.Answered : History → Prop
  | [] => True
  | .noted n e :: past => (∀ line, n.interrupt? = some line →
      ∃ e₀, begun? past = some (.call (.interrupt line), e₀) ∧ e = e₀.interrupted line) ∧ Answered past
  | _ :: past => Answered past

/-- The note tells of the end of an operation that is an interrupt. -/
theorem Note.interrupt?_opEnded {o : Op} {r : Reply} {line : Nat} (h : (opEnded o r).interrupt? = some line) :
    o = .call (.interrupt line) ∧ r = .done := by
  unfold interrupt? at h
  split at h <;> simp_all

/-- The note tells of the end of a step that is an interrupt. -/
theorem Note.interrupt?_stepEnded {o : Op} {r : Reply} {line : Nat} (h : (stepEnded (.op o) r).interrupt? = some line) :
    o = .call (.interrupt line) ∧ r = .done := by
  unfold interrupt? at h
  split at h <;> simp_all

/-- A touch answers interrupts as they are to be answered. -/
theorem Touch.answered {s s' : State} (h : Touch s s') (hs : s.history.Answered) : s'.history.Answered := by
  cases h with
  | write | attach | detach | board | unwire | released => exact hs
  | setUp | commit | enqueue | ask | contend => exact ⟨nofun, hs⟩
  | see ev hq => cases ev <;> first | exact hs | cases hq
  | note n hn =>
    cases n with
    | opBegan | backsOff | waits => exact ⟨nofun, hs⟩
    | _ => cases hn
  | ended o r hr =>
    refine ⟨fun line hn => ?_, hs⟩
    obtain ⟨rfl, rfl⟩ := Note.interrupt?_opEnded hn
    exact hr.interrupt line rfl rfl

/-- What happens in a pass ends no interrupt. -/
theorem Work.answered {s s' : State} (h : Work s s') (hs : s.history.Answered) : s'.history.Answered := by
  cases h with
  | touch h => exact h.answered hs
  | record a r => cases r <;> exact hs
  | _ => exact hs

/-- Every move answers interrupts as they are to be answered. -/
theorem Move.answered {s s' : State} (h : Move s s') (hs : s.history.Answered) : s'.history.Answered := by
  cases h with
  | touch h => exact h.answered hs
  | began | claim | free | refuse | take | idle | finish | cut => exact ⟨nofun, hs⟩
  | ended step r _ hr =>
    refine ⟨fun line hn => ?_, hs⟩
    cases step with
    | op o =>
      obtain ⟨rfl, rfl⟩ := Note.interrupt?_stepEnded hn
      exact (hr _ rfl).interrupt line rfl rfl
    | _ => cases hn
  | stop => exact ⟨nofun, nofun, hs⟩
  | begin pending =>
    refine ⟨nofun, ?_⟩
    rcases s.history_started pending with hh | ⟨r, hh⟩ <;> rw [hh] <;> exact hs
  | work _ _ h => exact h.answered hs
  | complete clean =>
    cases clean with
    | true => exact ⟨nofun, hs⟩
    | false => exact ⟨nofun, nofun, hs⟩

/-- Every session answers interrupts as they are to be answered. -/
theorem Moves.answered {s₀ s : State} (h : Moves s₀ s) (h₀ : s₀.history = []) : s.history.Answered := by
  induction h with
  | refl =>
    rw [h₀]
    exact trivial
  | tail _ h ih => exact h.answered ih

/-- What an interrupt has made of the memory when its end is noted. -/
theorem History.Answered.at_moment {h later past : History} {n : Note} {e : Extender} (ha : h.Answered)
    (hm : h = later ++ .noted n e :: past) {line : Nat} (hn : n.interrupt? = some line) :
    ∃ e₀, past.begun? = some (.call (.interrupt line), e₀) ∧ e = e₀.interrupted line := by
  subst hm
  induction later with
  | nil => exact ha.1 line hn
  | cons ev later ih =>
    cases ev with
    | noted => exact ih ha.2
    | _ => exact ih ha

namespace Extender

variable (e : Extender) (line : Nat)

/-- An interrupt leaves the engine what it is. -/
theorem name_interrupted : (e.interrupted line).name = e.name := by
  obtain ⟨_, _, _, _, _, _, _, _, _, _, engine⟩ := e
  unfold interrupted
  cases engine with
  | generic => rfl
  | queued q =>
    dsimp only
    split <;> rfl

/-- An interrupt asks for a pass. -/
theorem interrupted_isrPending : (e.interrupted line).status.contains Status.isrPending = true := by
  unfold interrupted
  split
  · exact FlagSet.contains_union_right _ (FlagSet.contains_refl _)
  · split <;> exact FlagSet.contains_union_right _ (FlagSet.contains_refl _)

variable {e line} {q : ChipQueue} (he : e.engine = .queued q)

include he

/-- An interrupt of a chip for which there is room puts the chip in the queue. -/
theorem mem_queue_interrupted (hl : line < queuedChips) (hq : q.queue.length < queueDepth) :
    line ∈ (e.interrupted line).queue := by
  unfold interrupted
  simp only [he, dif_pos (ChipQueue.Admits.mk hl hq)]
  exact List.mem_append_right _ List.mem_cons_self

/-- If there is no chip of that number, or no room, an interrupt asks for all inputs. -/
theorem interrupted_readDirty (h : queuedChips ≤ line ∨ queueDepth ≤ q.queue.length) :
    (e.interrupted line).status.contains Status.readDirty = true := by
  have hno : ¬q.Admits line := fun hadmits => by
    have hroom := hadmits.room
    have hserved := hadmits.served
    omega
  unfold interrupted
  simp only [he, dif_neg hno]
  exact FlagSet.contains_union_left _ (FlagSet.contains_union_right _ (FlagSet.contains_refl _))

end Extender

/-! ## What an engine keeps -/

/-- The interrupt lines with which an engine was made. -/
def Extender.wiring (e : Extender) : Lines :=
  match e.engine with
  | .generic m => .ofPredicate fun line => m.wired && line == 0
  | .queued q => q.wired

/-- An extender holds the lines it was made with until it halts, and its engine polls what has a handler and no line. -/
structure Extender.Sound (e : Extender) : Prop where
  lines : e.halted = false → e.lines = e.wiring
  sampler : ∀ m, e.engine = .generic m → m.polling = (!m.wired && e.hasHandler)
  queue : ∀ q, e.engine = .queued q → q.polled = e.handledChips q.wired

namespace Extender.Sound

variable {e e' : Extender}

/-- A memory with the same engine, handlers and pins, and the same lines, stays sound. -/
theorem of_eq (h : e.Sound) (hh : e'.halted = false → e.halted = false) (hl : e'.lines = e.lines)
    (he : e'.engine = e.engine) (hs : e'.handlers = e.handlers) (hc : e'.claims.capacity = e.claims.capacity) : e'.Sound where
  lines hu := by
    rw [hl, h.lines (hh hu), wiring, wiring, he]
  sampler m hm := by
    rw [hasHandler, hs, hc]
    exact h.sampler m (he ▸ hm)
  queue q hq := by
    have := h.queue q (he ▸ hq)
    rw [handledChips] at this ⊢
    rw [hs]
    exact this

/-- Polling that is brought up to date is sound, whatever the handlers are. -/
theorem repolled (h : e.Sound) (handlers : Handlers) : { e with handlers }.repolled.Sound := by
  obtain ⟨_, _, _, _, _, _, _, _, _, _, engine⟩ := e
  cases engine <;> refine ⟨h.lines, ?_, ?_⟩ <;> rintro _ ⟨⟩ <;> rfl

end Extender.Sound

/-- A touch keeps the memory sound. -/
theorem Touch.sound {s s' : State} (h : Touch s s') (hs : s.extender.Sound) : s'.extender.Sound := by
  cases h with
  | attach | detach => exact hs.repolled _
  | @enqueue q chip _ he =>
    refine ⟨fun hh => (hs.lines hh).trans ?_, nofun, ?_⟩
    · rw [Extender.wiring, he]
      rfl
    · rintro _ ⟨⟩
      exact hs.queue q he
  | unwire hh =>
    refine ⟨fun hu => ?_, hs.sampler, hs.queue⟩
    cases hh.symm.trans hu
  | _ => exact hs.of_eq id rfl rfl rfl rfl

/-- What happens in a pass keeps the memory sound. -/
theorem Work.sound {s s' : State} (h : Work s s') (hs : s.extender.Sound) : s'.extender.Sound := by
  cases h with
  | touch h => exact h.sound hs
  | record a r => cases r <;> exact hs.of_eq id rfl rfl rfl rfl
  | @level m high he =>
    refine ⟨fun hh => (hs.lines hh).trans ?_, ?_, nofun⟩
    · rw [Extender.wiring, he]
      rfl
    · rintro _ ⟨⟩
      exact hs.sampler m he
  | @drain q he =>
    refine ⟨fun hh => (hs.lines hh).trans ?_, nofun, ?_⟩
    · rw [Extender.wiring, he]
      rfl
    · rintro _ ⟨⟩
      exact hs.queue q he
  | _ => exact hs.of_eq id rfl rfl rfl rfl

/-- Every move keeps the memory sound. -/
theorem Move.sound {s s' : State} (h : Move s s') (hs : s.extender.Sound) : s'.extender.Sound := by
  cases h with
  | touch h => exact h.sound hs
  | work _ _ h => exact h.sound hs
  | claim pin claims _ _ hc => exact hs.of_eq id rfl rfl rfl (Claims.capacity_claim hc)
  | free pin => exact hs.of_eq id rfl rfl rfl (Claims.capacity_free _ pin)
  | stop => exact hs.of_eq nofun rfl rfl rfl rfl
  | begin pending =>
    rw [State.extender_noting, State.extender_started]
    exact hs
  | complete clean => cases clean <;> exact hs.of_eq id rfl rfl rfl rfl
  | _ => exact hs.of_eq id rfl rfl rfl rfl

/-- Moves keep the memory sound. -/
theorem Moves.sound {s s' : State} (h : Moves s s') (hs : s.extender.Sound) : s'.extender.Sound := by
  induction h with
  | refl => exact hs
  | tail _ h ih => exact h.sound ih

/-! ## Waiting for the next pass -/

/-- What has been asked for since the latest pass began is still asked for, and every chip in the queue has been put there since. -/
structure State.Held (s : State) : Prop where
  within : ∀ n e, .noted n e ∈ s.history.recent → e.Within s.extender
  queued : ∀ chip ∈ s.extender.queue, s.history.recent.Queued chip

/-- The generic engine remembers its line as high while it holds it. -/
def Extender.Armed (e : Extender) : Prop := e.lines.has 0 = true → e.Listens

/-- What an empty set of flags contains, every set contains. -/
theorem Status.contains_of_isEmpty {word f : Status} (h : word.isEmpty = true) (hf : word.contains f = true) (word' : Status) :
    word'.contains f = true := by
  refine FlagSet.contains_iff.2 fun i hi => ?_
  have := FlagSet.contains_iff.1 hf i hi
  rw [FlagSet.isEmpty, beq_iff_eq] at h
  rw [h] at this
  simp at this

/-- What is asked for is part of the work that a pass takes. -/
theorem Extender.work_contains {e : Extender} {f : Status} (hf : f.Asks) (h : e.status.contains f = true) :
    e.work.contains f = true :=
  FlagSet.contains_union_left _ (Status.contains_pending h hf.1 hf.2)

/-- Since before a pass began nothing has been forgotten but what it has taken. -/
theorem State.Held.of_append {s s' : State} (new : History) (hs : s.Held) (hh : s'.history = new ++ s.history)
    (hb : ∀ ev ∈ new, ev.isBegin = false) (hw : s.extender.Within s'.extender)
    (hn : ∀ n e, .noted n e ∈ new → e.Within s'.extender)
    (hq : ∀ chip ∈ s'.extender.queue, chip ∈ s.extender.queue ∨ new.Queued chip) : s'.Held := by
  have hr : s'.history.recent = new ++ s.history.recent := by rw [hh, History.recent_append hb]
  refine ⟨fun n e hm => ?_, fun chip hc => ?_⟩
  · rw [hr] at hm
    rcases List.mem_append.1 hm with hm | hm
    · exact hn n e hm
    · exact (hs.within n e hm).trans hw
  · rw [hr]
    rcases hq chip hc with hc | hc
    · exact (hs.queued chip hc).mono fun _ => List.mem_append_right _
    · exact hc.mono fun _ => List.mem_append_left _

/-- One more note of the memory as it then is. -/
theorem State.Held.note {s s' : State} {n : Note} (hs : s.Held) (hh : s'.history = .noted n s'.extender :: s.history)
    (hb : Event.isBegin (.noted n s'.extender) = false) (hst : s'.extender.status = s.extender.status)
    (he : s'.extender.engine = s.extender.engine) : s'.Held := by
  have hqueue : s'.extender.queue = s.extender.queue := by rw [Extender.queue, Extender.queue, he]
  have hname : s'.extender.name = s.extender.name := by rw [Extender.name, Extender.name, he]
  exact hs.of_append [.noted n s'.extender] hh (by simpa using hb) ⟨hname, fun f _ h => hst ▸ h, fun chip h => hqueue ▸ h⟩
    (by simp [Extender.Within.refl]) fun chip h => .inl (hqueue ▸ h)

/-- What has been asked for during the work of a pass is still asked for when the work is done. -/
theorem Carries.held {pending : Status} {s s₁ : State} {clean : Bool} (h : Carries pending s clean s₁) (hw : Works s s₁)
    (hr : s.history.recent = []) : s₁.Held := by
  obtain ⟨plan, s₀, new, hg, hl, -, -⟩ := h.passPart
  obtain ⟨looked, hlooked, hnote, -, -⟩ := hg.history
  obtain ⟨done, hdone, hplain⟩ := hw.history
  have hsplit : done = new ++ looked := State.new_unique hdone (by rw [hl.history, hlooked, List.append_assoc])
  have hbegin : ∀ ev ∈ new ++ looked, ev.isBegin = false := hsplit ▸ hplain.begins
  have hs₀ : s₀.Held := by
    refine ⟨fun n e hm => ?_, fun chip hc => ?_⟩
    · rw [hlooked, History.recent_append fun ev hm => hbegin ev (List.mem_append_right _ hm), hr, List.append_nil] at hm
      cases hnote _ hm
    · rw [hg.queue] at hc
      cases hc
  exact hs₀.of_append new hl.history (fun ev hm => hbegin ev (List.mem_append_left _ hm)) hl.within hl.notes hl.queued

/-- The end of a pass takes back nothing that has been asked for. -/
theorem State.Held.completed {s : State} (hs : s.Held) (clean : Bool) : (s.completed clean).Held := by
  cases clean with
  | true => exact hs.note rfl rfl rfl rfl
  | false =>
    have hasked : ((s.amend fun e => { e with shadow := e.shadow.markAllDirty }).asking .resync).Held := by
      exact hs.of_append [_] rfl (by simp [Event.isBegin])
        ⟨rfl, fun f _ h => FlagSet.contains_union_left _ h, fun _ h => h⟩ (by simpa using .refl _) fun _ h => .inl h
    exact hasked.note rfl rfl rfl rfl

/-- Releasing the status word takes nothing out of it that has been asked for. -/
theorem State.Held.released {s : State} (hs : s.Held) (p : Pass) : ((letGo s.released).noting (.updated p)).Held := by
  exact hs.of_append [_] rfl (by simp [Event.isBegin])
    ⟨rfl, fun f hf h => Status.contains_release h hf.2, fun _ h => h⟩ (by simp [Extender.Within.refl]) fun _ h => .inl h

/-- Between happenings, what has been asked for waits for the next pass. -/
theorem Happening.waits {s s' : State} (h : Happening s s') (hs : s.extender.halted = false → s.Held) (hu : s'.history.Uncut)
    (hh : s'.extender.halted = false) : s'.Held := by
  cases h with
  | touch h =>
    obtain ⟨new, hm⟩ := h.mute
    obtain ⟨new', hnew, hplain⟩ := Works.history (.single (.touch h))
    obtain rfl := State.new_unique hnew hm.history
    exact (hs (h.frame.halted ▸ hh)).of_append _ hm.history hplain.begins hm.within hm.notes hm.queued
  | update p _ h =>
    cases h with
    | halted hhalt => cases hhalt.symm.trans hh
    | stops => cases hh
    | idles hhalt _ hi =>
      have hempty := Extender.isEmpty_of_isIdleWith hi
      refine State.Held.released (s := s.held.taken) ?_ _
      exact (hs hhalt).of_append [_] rfl (by simp [Event.isBegin])
        ⟨rfl, fun f hf h => Status.contains_of_isEmpty hempty (Extender.work_contains hf h) _, fun _ h => h⟩
        (by simpa using .refl _) fun _ h => .inl h
    | @ran s₀ s₁ clean _ _ _ h₀ hc hw =>
      exact ((hc.held hw (h₀ ▸ rfl)).completed clean).released _
  | cut _ h =>
    obtain ⟨s₁, _, _, _, rfl⟩ := h
    cases hu _ List.mem_cons_self
  | began | ended | claim | free => exact (hs hh).note rfl rfl rfl rfl

/-- A plan reads nothing but what is to be read in any case, unless the inputs or the configuration are asked for. -/
theorem Plan.groups_of_unasked {pending : Status} (hc : pending.contains Status.configDirty = false)
    (hr : pending.contains Status.readDirty = false) (groups : Byte) : (Plan.ofRequests pending groups).groups = groups := by
  simp [Plan.ofRequests, hc, hr]

/-- A plan reads everything if the inputs or the configuration are asked for. -/
theorem Plan.groups_of_asked {pending : Status}
    (h : pending.contains Status.configDirty = true ∨ pending.contains Status.readDirty = true) (groups : Byte) :
    (Plan.ofRequests pending groups).groups = 255 := by
  rcases h with h | h <;> simp [Plan.ofRequests, h]

/-- A pass that has seen its line fall is to read all inputs. -/
theorem Plan.groups_of_fallen (pending : Status) (groups : Byte) :
    (Plan.ofRequests (pending ∪ Status.readDirty) groups).groups = 255 :=
  Plan.groups_of_asked (.inr (FlagSet.contains_union_right _ (FlagSet.contains_refl _))) groups

/-- A pass that has seen the line fall reads inputs, after which the line is remembered as high again. -/
theorem Carries.armed {pending : Status} {s s₁ : State} {clean : Bool} (h : Carries pending s clean s₁)
    (hu : s.extender.updating = true) (hs : s.extender.Armed) : s₁.extender.Armed := by
  obtain ⟨plan, s₀, new, hg, hl, hlisten, -⟩ := h.passPart
  intro hline
  rw [(hg.steady.trans hl.steady).lines (.inr hu)] at hline
  by_cases hz : plan.groups = 0
  · refine hl.listens ?_
    cases hg with
    | @looked m now he =>
      have hhigh := hs hline m he
      rintro _ ⟨⟩
      show now = true
      by_contra hnow
      rw [Bool.not_eq_true] at hnow
      rw [hhigh, hnow, Bool.not_false, Bool.and_self, if_pos rfl, Plan.groups_of_fallen] at hz
      exact absurd hz (by decide)
    | unlooked => exact hs hline
    | drained => rintro _ ⟨⟩
  · exact hlisten hz

/-- Between happenings, the generic engine sees its line fall. -/
theorem Happening.armed {s s' : State} (h : Happening s s') (hs : s.extender.Armed) (hu : s'.history.Uncut) :
    s'.extender.Armed := by
  cases h with
  | touch h =>
    intro hl
    rcases h.lines with he | he <;> rw [he] at hl
    · exact h.listens.2 (hs hl)
    · cases hl
  | update p _ h =>
    cases h with
    | @ran s₀ s₁ clean _ _ _ h₀ hc hw =>
      have he : s₀.extender = s.held.taken.extender := by rw [h₀, State.extender_begun]
      have hs₁ : s₁.extender.Armed := hc.armed (by rw [he]; rfl) (by rw [he]; exact hs)
      cases clean <;> exact hs₁
    | _ => exact hs
  | cut _ h =>
    obtain ⟨s₁, _, _, _, rfl⟩ := h
    cases hu _ List.mem_cons_self
  | began | ended | claim | free => exact hs

/-! ## Updates that find nothing to do -/

/-- Wherever an update has found nothing to do, no pass had been asked for by an interrupt since the latest one began, unless a
pass had been cut short by a fault. -/
def History.Prompt : History → Prop
  | [] => True
  | .noted (.updated .idle) _ :: past =>
      (Uncut past → ∀ n e, .noted n e ∈ recent past → e.status.contains Status.isrPending = false) ∧ Prompt past
  | _ :: past => Prompt past

theorem History.Prompt.append {new h : History} (hp : h.Prompt) (hn : ∀ ev ∈ new, ev.isIdle = false) : Prompt (new ++ h) := by
  induction new with
  | nil => exact hp
  | cons ev new ih =>
    have ih := ih fun ev hm => hn ev (List.mem_cons_of_mem _ hm)
    have hev := hn ev List.mem_cons_self
    cases ev with
    | noted n e =>
      cases n with
      | updated p => cases p <;> first | exact ih | cases hev
      | _ => exact ih
    | _ => exact ih

/-- After a happening, updates have found nothing to do only where nothing had been asked for. -/
theorem Happening.prompt {s s' : State} (h : Happening s s') (hs : s.history.Uncut → s.extender.halted = false → s.Held)
    (hp : s.history.Prompt) : s'.history.Prompt := by
  have hbegun {s₁ : State} (hw : Works ((s.held.taken.started s.extender.work).noting (.passBegan s.extender.work)) s₁) :
      s₁.history.Prompt := by
    obtain ⟨new, hnew, -, -, hidle⟩ := hw.unmarked
    rw [hnew]
    exact hp.append hidle
  cases h with
  | touch h =>
    obtain ⟨new, hnew, hplain⟩ := Works.history (.single (.touch h))
    rw [hnew]
    exact hp.append hplain.idles
  | update p _ h =>
    cases h with
    | halted | stops => exact hp
    | idles hhalt _ hi =>
      refine ⟨fun hu n e hm => ?_, hp⟩
      rcases List.mem_cons.1 hm with hm | hm
      · cases hm
        show Status.busy.contains Status.isrPending = false
        decide
      · have hheld := hs (fun ev hm => hu ev (List.mem_cons_of_mem _ hm)) hhalt
        -- what an interrupt has asked for is still pending, so there would have been something to do
        by_contra hc
        rw [Bool.not_eq_false] at hc
        have hw := Extender.work_contains (by decide) ((hheld.within n e hm).status _ (by decide) hc)
        have hne := FlagSet.not_isEmpty_of_contains_flag (by decide) hw
        rw [Extender.isEmpty_of_isIdleWith hi] at hne
        cases hne
    | @ran s₀ s₁ clean _ _ _ h₀ _ hw =>
      have hend := hbegun (h₀ ▸ hw)
      cases clean <;> exact hend
  | cut _ h =>
    obtain ⟨s₁, _, _, hb, rfl⟩ := h
    have hw := hb.works
    have hend := hbegun hw
    exact hend
  | began | ended | claim | free => exact hp

/-- An extender that has just been made has no chip in its queue. -/
theorem Made.queue {e : Extender} (h : Made e) : e.queue = [] := by
  rcases h.eq_fresh with ⟨_, _, _, rfl⟩ | ⟨_, rfl⟩ <;> rfl

/-- An extender that has just been made remembers the line it was made with as high. -/
theorem Made.armed {e : Extender} (h : Made e) : e.Armed := by
  rcases h.eq_fresh with ⟨family, address, wired, rfl⟩ | ⟨wired, rfl⟩
  · intro hl
    rintro _ ⟨⟩
    cases wired with
    | true => rfl
    | false =>
      change (Lines.ofPredicate fun line => false && line == 0).has 0 = true at hl
      exact absurd hl (by decide)
  · exact fun _ => nofun

/-- An extender that has just been made has no handler to poll for. -/
theorem Made.sound {e : Extender} (h : Made e) : e.Sound := by
  have hnone (first count : Nat) : Handlers.none.anyIn first count = false := by
    unfold Handlers.anyIn
    rw [List.any_eq_false]
    exact fun _ _ => Bool.false_ne_true
  rcases h.eq_fresh with ⟨family, address, wired, rfl⟩ | ⟨wired, rfl⟩
  · refine ⟨fun _ => rfl, ?_, nofun⟩
    rintro _ ⟨⟩
    show false = (!wired && Handlers.none.anyIn 0 genericCapacity)
    rw [hnone, Bool.and_false]
  · refine ⟨fun _ => rfl, nofun, ?_⟩
    rintro _ ⟨⟩
    apply BitVec.eq_of_getLsbD_eq
    intro g _
    show (0#8).getLsbD g = (Byte.ofGroups fun chip => _).getLsbD g
    rw [Byte.getLsbD_ofGroups]
    show _ = (_ && (_ && Handlers.none.anyIn (8 * g) 8))
    rw [hnone]
    simp

/-- What is known of the states of a session between happenings. -/
structure State.Waiting (s : State) : Prop where
  sound : s.extender.Sound
  armed : s.history.Uncut → s.extender.Armed
  held : s.history.Uncut → s.extender.halted = false → s.Held
  prompt : s.history.Prompt

/-- What is known of every state of a session. -/
theorem Goes.waiting {s₀ s : State} (h : Goes s₀ s) (hm : Made s₀.extender) (h₀ : s₀.history = []) : s.Waiting := by
  induction h with
  | refl =>
    refine ⟨hm.sound, fun _ => hm.armed, fun _ _ => ⟨fun n e hmem => ?_, fun chip hc => ?_⟩, ?_⟩
    · rw [h₀] at hmem
      cases hmem
    · rw [hm.queue] at hc
      cases hc
    · rw [h₀]
      exact trivial
  | tail _ h ih =>
    exact ⟨h.moves.sound ih.sound, fun hu => h.armed (ih.armed (h.uncut hu)) hu, fun hu hh => h.waits (ih.held (h.uncut hu)) hu hh,
      h.prompt ih.held ih.prompt⟩

end PortExpander
