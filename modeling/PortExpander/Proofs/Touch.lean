import Mathlib.Logic.Relation
import PortExpander.Proofs.Flags
import PortExpander.Proofs.Gives

/-!
# What calls do to a shared extender

Calls of clients, interrupts and the worker's housekeeping change the memory of an extender by a few kinds of steps, the
touches, which are listed here once. Operations that fall into the middle of a pass consist of touches alone. What a touch
leaves as it was is in its `Frame`; statements about single parts of the memory are case analyses over the touches.
-/

namespace PortExpander

/-- Whether an event is the record of a transaction that has failed. -/
def Event.isFailure : Event → Bool
  | logged (.transactionFailed ..) => true
  | _ => false

/-- Whether an event is work on the chips: a transaction, the record of its failure, a look at the interrupt line, or the call
of a handler. -/
def Event.isWork (ev : Event) : Bool :=
  match ev with
  | transaction .. | sampled .. | called .. => true
  | _ => ev.isFailure

/-- Whether a note marks a stage of a pass. -/
def Note.isStage : Note → Bool
  | took _ | passBegan _ | passEnded _ | passCut => true
  | updated p => p != .contended
  | _ => false

/-- Whether a note may be taken at any time. -/
def Note.isFree : Note → Bool
  | opBegan _ | backsOff _ | waits => true
  | _ => false

/-- Whether a record tells nothing of the work of a pass. -/
def LogRecord.isQuiet : LogRecord → Bool
  | transactionFailed .. | edge _ | halting _ => false
  | _ => true

/-- Whether an event is a signal, a wait or a record that tells nothing of the work of a pass. -/
def Event.isQuiet : Event → Bool
  | notified | delayed _ | waited _ | started => true
  | logged r => r.isQuiet
  | _ => false

/-- The memory with the engine polling what has a handler and no interrupt line. -/
def Extender.repolled (e : Extender) : Extender :=
  match e.engine with
  | .generic s => { e with engine := .generic { s with polling := !s.wired && e.hasHandler } }
  | .queued q => { e with engine := .queued { q with polled := e.handledChips q.wired } }

/-- What the answer to an operation says about the memory at its end: a pin that has been set up is claimed and has its
configuration asked for, a pin that has been read reads as its input, an update that ends while a pass is at work was contended, an
extender that has been shut down has halted and holds no line, and one whose worker has returned has halted. -/
def Extender.Confirms (e : Extender) : Op → Reply → Prop
  | .call (.setup pin _), .done => e.claims.isClaimed pin = true ∧ e.status.contains Status.configDirty = true
  | .call (.read pin), .bit v => v = e.shadow.input.get pin
  | .call (.get pin high), .bit v => v = (e.shadow.input.get pin == high)
  | .update, .pass p => e.updating = true → p = .contended
  | .shutdown, .bit true => e.halted = true ∧ e.updating = false ∧ e.lines = .none
  | .run _, .returned => e.halted = true
  | _, _ => True

/-- The operation of whose beginning there is the latest note, and the memory at its beginning. -/
def History.begun? : History → Option (Op × Extender)
  | [] => none
  | .noted (.opBegan o) e :: _ => some (o, e)
  | .noted (.stepBegan (.op o)) e :: _ => some (o, e)
  | _ :: past => begun? past

/-- What an interrupt of a line makes of the memory. -/
def Extender.interrupted (e : Extender) (line : Nat) : Extender :=
  match e.engine with
  | .generic _ => e.request .isrPending
  | .queued q =>
    if h : q.Admits line then
      { e with engine := .queued (q.push line h.served) }.request .isrPending
    else (e.request .readDirty).request .isrPending

/-- What the answer to an operation says about the memory at its end; of an interrupt it also says what the memory was at its
beginning. -/
structure State.Confirms (s : State) (o : Op) (r : Reply) : Prop where
  memory : s.extender.Confirms o r
  interrupt : ∀ line, o = .call (.interrupt line) → r = .done →
    ∃ e, s.history.begun? = some (o, e) ∧ s.extender = e.interrupted line

/-- What a note says about the memory then: what is asked for is pending, and answers are confirmed. -/
def Note.Confirmed (e : Extender) : Note → Prop
  | requested bits => ∀ f, bits.contains f = true → e.status.contains f = true
  | opEnded o r => e.Confirms o r
  | stepEnded (.op o) r => e.Confirms o r
  | _ => True

/-- The answer to a step is confirmed if the answer to its operation is. -/
theorem Note.confirmed_stepEnded {e : Extender} {step : Step} {r : Reply} (h : ∀ o, step = .op o → e.Confirms o r) :
    (Note.stepEnded step r).Confirmed e := by
  cases step with
  | op o => exact h o rfl
  | _ => exact trivial

/-- When the worker rests. It backs off for as long as the counted failures ask for, and waits for work right after an update that
has found another pass at work, or when nothing is asked for. -/
def Note.Rests (n : Note) (e : Extender) (past : History) : Prop :=
  match n with
  | backsOff ms => ms = e.backoff.delay ∧ ms ≠ 0
  | waits => e.status.isEmpty = true ∨ ∃ e', past.head? = some (.noted (.updated .contended) e')
  | _ => True

/-- One thing that a call does to an extender it shares with others, or to the board. -/
inductive Touch : State → State → Prop where
  | setUp {s : State} {e : Extender} (pin : Nat) (attrs : PinAttributes) : s.extender.isStopped = false →
      s.extender.claims.checkClaimed pin = .ok () → s.history.begun? = some (.call (.setup pin attrs), e) →
      Touch s ((s.amend fun e => { e with shadow := e.shadow.setup pin attrs }).asking .configDirty)
  | write {s : State} (pin : Nat) (high : Bool) : s.extender.isStopped = false →
      s.extender.claims.checkRange pin = .ok () →
      Touch s (s.amend fun e => { e with shadow := e.shadow.write pin high })
  | commit {s : State} : s.extender.isStopped = false →
      Touch s ((s.amend fun e => { e with shadow := e.shadow.commit }).asking .writeDirty)
  | attach {s : State} (pin : Nat) (handler : Handler) (handlers : Handlers) : s.extender.isStopped = false →
      s.extender.claims.checkClaimed pin = .ok () → s.extender.handlers.install pin handler = .ok handlers →
      Touch s (s.amend fun e => { e with handlers }.repolled)
  | detach {s : State} (pin : Nat) :
      Touch s (s.amend fun e => { e with handlers := e.handlers.remove pin }.repolled)
  | enqueue {s : State} {q : ChipQueue} (chip : Nat) (h : chip < queuedChips) : s.extender.engine = .queued q →
      q.queue.length < queueDepth →
      Touch s ((s.amend fun e => { e with engine := .queued (q.push chip h) }).asking .isrPending)
  | ask {s : State} (bits : Status) : bits.pending = bits ∧ bits ≠ Status.configDirty → Touch s (s.asking bits)
  | see {s : State} (ev : Event) : ev.isQuiet = true → Touch s (s.seeing ev)
  | note {s : State} (n : Note) : n.isFree = true → n.Rests s.extender s.history → Touch s (s.noting n)
  | contend {s : State} : s.extender.updating = true → Touch s (s.noting (.updated .contended))
  | ended {s : State} (o : Op) (r : Reply) : s.Confirms o r → Touch s (s.noting (.opEnded o r))
  | board {s : State} (f : Board → Board) : Touch s (s.onBoard f)
  | unwire {s : State} : s.extender.halted = true → s.extender.updating = false →
      Touch s (s.amend ({ · with lines := .none }))
  | released {s : State} (line : Nat) : s.extender.halted = true → s.extender.updating = false →
      Touch s (s.seeing (.released line))

/-- Any number of touches. -/
abbrev Touched : State → State → Prop := Relation.ReflTransGen Touch

/-- What neither calls nor the work of a pass change in the memory. They take nothing out of the status word, and let go of
lines only once the extender has halted. -/
structure Steady (e e' : Extender) : Prop where
  family : e'.family = e.family
  address : e'.address = e.address
  claims : e'.claims = e.claims
  halted : e'.halted = e.halted
  updating : e'.updating = e.updating
  name : e'.name = e.name
  lines : e.halted = false ∨ e.updating = true → e'.lines = e.lines
  status : ∀ f, e.status.contains f = true → e'.status.contains f = true

/-- What calls leave as it was besides: the inputs and the count of failures. They make no dirty group clean. -/
structure Frame (e e' : Extender) : Prop extends Steady e e' where
  input : e'.shadow.input = e.shadow.input
  backoff : e'.backoff = e.backoff
  dirty : ∀ g, e.shadow.dirty.getLsbD g = true → e'.shadow.dirty.getLsbD g = true

namespace Steady

theorem refl (e : Extender) : Steady e e := ⟨rfl, rfl, rfl, rfl, rfl, rfl, fun _ => rfl, fun _ h => h⟩

theorem trans {e e' e'' : Extender} (h : Steady e e') (h' : Steady e' e'') : Steady e e'' where
  family := h'.family.trans h.family
  address := h'.address.trans h.address
  claims := h'.claims.trans h.claims
  halted := h'.halted.trans h.halted
  updating := h'.updating.trans h.updating
  name := h'.name.trans h.name
  lines hu := (h'.lines (by rw [h.halted, h.updating]; exact hu)).trans (h.lines hu)
  status f hf := h'.status f (h.status f hf)

/-- A request adds to the status word and changes nothing else. -/
theorem request (e : Extender) (bits : Status) : Steady e (e.request bits) :=
  ⟨rfl, rfl, rfl, rfl, rfl, rfl, fun _ => rfl, fun _ h => FlagSet.contains_union_left bits h⟩

/-- The registers of the shadow, the handlers and the count of failures may change. -/
theorem update (e : Extender) (shadow : Shadow) (handlers : Handlers) (backoff : Backoff) :
    Steady e { e with shadow, handlers, backoff } :=
  ⟨rfl, rfl, rfl, rfl, rfl, rfl, fun _ => rfl, fun _ h => h⟩

/-- The engine may keep other things for itself. -/
theorem engine (e : Extender) {engine : Engine} (h : { e with engine }.name = e.name) : Steady e { e with engine } :=
  ⟨rfl, rfl, rfl, rfl, rfl, h, fun _ => rfl, fun _ h => h⟩

/-- To bring polling up to date is steady, whatever the handlers are. -/
theorem repolled (e : Extender) (handlers : Handlers) : Steady e { e with handlers }.repolled := by
  obtain ⟨_, _, _, _, _, _, _, _, _, _, engine⟩ := e
  cases engine <;> exact ⟨rfl, rfl, rfl, rfl, rfl, rfl, fun _ => rfl, fun _ h => h⟩

end Steady

namespace Frame

theorem refl (e : Extender) : Frame e e := ⟨Steady.refl e, rfl, rfl, fun _ h => h⟩

theorem trans {e e' e'' : Extender} (h : Frame e e') (h' : Frame e' e'') : Frame e e'' where
  toSteady := h.toSteady.trans h'.toSteady
  input := h'.input.trans h.input
  backoff := h'.backoff.trans h.backoff
  dirty g hg := h'.dirty g (h.dirty g hg)

/-- A request takes nothing out of the status word. -/
theorem request (e : Extender) (bits : Status) : Frame e (e.request bits) :=
  ⟨Steady.request e bits, rfl, rfl, fun _ h => h⟩

/-- A change of the shadow that keeps the inputs and makes no dirty group clean. -/
theorem shadow (e : Extender) (s : Shadow) (hi : s.input = e.shadow.input)
    (hd : ∀ g, e.shadow.dirty.getLsbD g = true → s.dirty.getLsbD g = true) : Frame e { e with shadow := s } :=
  ⟨Steady.update e s e.handlers e.backoff, hi, rfl, hd⟩

/-- New handlers, with the engine's polling to match. -/
theorem repolled (e : Extender) (handlers : Handlers) : Frame e { e with handlers }.repolled := by
  refine ⟨Steady.repolled e handlers, ?_, ?_, fun g h => ?_⟩ <;> obtain ⟨_, _, _, _, _, _, _, _, _, _, engine⟩ := e <;>
    cases engine
  all_goals first | rfl | exact h

end Frame

namespace Shadow

/-- Setting up a pin is no matter of what has been read. -/
theorem input_setup (s : Shadow) (pin : Nat) (attrs : PinAttributes) : (s.setup pin attrs).input = s.input := by
  unfold setup
  dsimp only
  split
  · split
    · rfl
    · split <;> rfl
  · split <;> rfl

/-- Setting up a pin makes no group dirty, and none clean. -/
theorem dirty_setup (s : Shadow) (pin : Nat) (attrs : PinAttributes) : (s.setup pin attrs).dirty = s.dirty := by
  unfold setup
  dsimp only
  split
  · split
    · rfl
    · split <;> rfl
  · split <;> rfl

/-- What has been staged is dirty once it is committed. -/
theorem getLsbD_dirty_commit (s : Shadow) (g : Nat) :
    s.commit.dirty.getLsbD g = (s.dirty.getLsbD g || s.staged.getLsbD g) :=
  BitVec.getLsbD_or

end Shadow

theorem Touch.frame {s s' : State} (h : Touch s s') : Frame s.extender s'.extender := by
  cases h with
  | setUp pin attrs =>
    have hs := Frame.shadow s.extender _ (Shadow.input_setup s.extender.shadow pin attrs)
      fun g hg => by rw [Shadow.dirty_setup]; exact hg
    exact hs.trans (Frame.request _ _)
  | write pin high => exact Frame.shadow _ _ rfl fun _ h => h
  | commit =>
    have hs := Frame.shadow s.extender s.extender.shadow.commit rfl
      fun g hg => by rw [Shadow.getLsbD_dirty_commit, hg, Bool.true_or]
    exact hs.trans (Frame.request _ _)
  | attach pin handler handlers => exact Frame.repolled _ _
  | detach pin => exact Frame.repolled _ _
  | @enqueue q chip hchip hq =>
    have hs : Frame s.extender { s.extender with engine := .queued (q.push chip hchip) } :=
      ⟨Steady.engine _ (by rw [Extender.name, Extender.name, hq]), rfl, rfl, fun _ h => h⟩
    exact hs.trans (Frame.request _ _)
  | ask bits => exact Frame.request _ _
  | see | note | contend | ended | board | released => exact Frame.refl _
  | unwire hh hu =>
    refine ⟨⟨rfl, rfl, rfl, rfl, rfl, rfl, fun h => ?_, fun _ h => h⟩, rfl, rfl, fun _ h => h⟩
    rw [hh, hu] at h
    simp at h

@[simp] theorem Extender.handlers_repolled (e : Extender) : e.repolled.handlers = e.handlers := by
  obtain ⟨_, _, _, _, _, _, _, _, _, _, engine⟩ := e
  cases engine <;> rfl

@[simp] theorem Extender.lines_repolled (e : Extender) : e.repolled.lines = e.lines := by
  obtain ⟨_, _, _, _, _, _, _, _, _, _, engine⟩ := e
  cases engine <;> rfl

/-- Lines are let go of all at once. -/
theorem Touch.lines {s s' : State} (h : Touch s s') :
    s'.extender.lines = s.extender.lines ∨ s'.extender.lines = .none := by
  cases h with
  | attach => exact .inl (Extender.lines_repolled _)
  | detach => exact .inl (Extender.lines_repolled _)
  | unwire => exact .inr rfl
  | _ => exact .inl rfl

/-- A touch adds at most one event, which is no work; if it is a note, it is one of the memory as it then is, of which it says
the truth. -/
theorem Touch.history {s s' : State} (h : Touch s s') : s'.history = s.history ∨
    ∃ ev, s'.history = ev :: s.history ∧ ev.isWork = false ∧
      ∀ n e, ev = .noted n e → n.isStage = false ∧ e = s'.extender ∧ n.Confirmed e := by
  cases h with
  | write | attach | detach | board | unwire => exact .inl rfl
  | setUp | commit | enqueue | ask =>
    refine .inr ⟨_, rfl, rfl, ?_⟩
    rintro n e ⟨⟩
    exact ⟨rfl, rfl, fun _ h => FlagSet.contains_union_right _ h⟩
  | see ev hq =>
    refine .inr ⟨ev, rfl, ?_, ?_⟩
    · cases ev with
      | logged r => cases r <;> first | rfl | cases hq
      | _ => first | rfl | cases hq
    · rintro n e rfl
      cases hq
  | note n hn =>
    refine .inr ⟨_, rfl, rfl, ?_⟩
    rintro n e ⟨⟩
    refine ⟨?_, rfl, ?_⟩ <;> cases n <;> first | rfl | exact trivial | cases hn
  | contend =>
    refine .inr ⟨_, rfl, rfl, ?_⟩
    rintro n e ⟨⟩
    exact ⟨rfl, rfl, trivial⟩
  | ended o r hr =>
    refine .inr ⟨_, rfl, rfl, ?_⟩
    rintro n e ⟨⟩
    exact ⟨rfl, rfl, hr.memory⟩
  | released line =>
    refine .inr ⟨_, rfl, rfl, ?_⟩
    rintro n e ⟨⟩

/-- Touches only add to the history. -/
theorem Touched.grows {s s' : State} (h : Touched s s') : ∃ new, s'.history = new ++ s.history := by
  induction h with
  | refl => exact ⟨[], rfl⟩
  | tail _ h ih =>
    obtain ⟨new, hnew⟩ := ih
    rcases h.history with hh | ⟨ev, hh, -⟩
    · exact ⟨new, hh.trans hnew⟩
    · exact ⟨ev :: new, by rw [hh, hnew, List.cons_append]⟩

theorem Touched.frame {s s' : State} (h : Touched s s') : Frame s.extender s'.extender := by
  induction h with
  | refl => exact Frame.refl _
  | tail _ h ih => exact ih.trans h.frame

end PortExpander
