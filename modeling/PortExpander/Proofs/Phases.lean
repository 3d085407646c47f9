import Mathlib.Data.List.Count
import Mathlib.Data.List.Nodup
import PortExpander.Proofs.Registers

/-!
# The events of a pass

What each phase of a pass adds to the history: which registers it reads, whether it looks at the line, which handlers it calls.
Operations that fall into a phase only add to what is asked for; `PassPart` says so of any part of a pass that comes after its
plan has been made, and `Mute` of a part that reads nothing and calls no handler.
-/

namespace PortExpander

open Sim Engine

/-! ## Reads, looks and calls -/

/-- The place that an event reads. -/
def Event.read? : Event → Option Place
  | transaction (.read place) _ => some place
  | _ => none

/-- The level that an event finds on the interrupt line of the generic engine. -/
def Event.look? : Event → Option (Nat × Level)
  | sampled line level => some (line, level)
  | _ => none

/-- The pin and the handler that an event calls. -/
def Event.call? : Event → Option (Nat × Handler)
  | called pin h => some (pin, h)
  | _ => none

namespace History

/-- The places that have been read, the latest first. -/
def reads (h : History) : List Place := h.filterMap (·.read?)

/-- What has been found on interrupt lines, the latest first. -/
def looks (h : History) : List (Nat × Level) := h.filterMap (·.look?)

/-- The handlers that have been called and their pins, the latest first. -/
def calls (h : History) : List (Nat × Handler) := h.filterMap (·.call?)

variable (h h' : History)

@[simp] theorem reads_append : (h ++ h').reads = h.reads ++ h'.reads := List.filterMap_append
@[simp] theorem looks_append : (h ++ h').looks = h.looks ++ h'.looks := List.filterMap_append
@[simp] theorem calls_append : (h ++ h').calls = h.calls ++ h'.calls := List.filterMap_append

/-- Where there has been no work on the chips, nothing has been read, looked at or called. -/
theorem quiet_of_no_work {h : History} (hw : ∀ ev ∈ h, ev.isWork = false) : h.reads = [] ∧ h.looks = [] ∧ h.calls = [] := by
  simp only [reads, looks, calls, List.filterMap_eq_nil_iff]
  refine ⟨fun ev hm => ?_, fun ev hm => ?_, fun ev hm => ?_⟩ <;> have hev := hw ev hm <;>
    cases ev <;> first | rfl | cases hev

end History

/-! ## What stays asked for -/

/-- Whether flags are requests, which outlast a pass that has not taken them. -/
def Status.Asks (f : Status) : Prop := vocabulary.all.contains f = true ∧ busy.bits &&& f.bits = 0

instance (f : Status) : Decidable f.Asks := inferInstanceAs (Decidable (_ ∧ _))

/-- The chips that have interrupted, oldest first; only the queued engine keeps them. -/
def Extender.queue (e : Extender) : List Nat :=
  match e.engine with
  | .generic _ => []
  | .queued q => q.queue

/-- Whether the generic engine remembers its line as high, so that it sees the line fall. -/
def Extender.Listens (e : Extender) : Prop := ∀ m, e.engine = .generic m → m.high = true

/-- What is asked for in one memory is still asked for in another of the same extender: its requests are pending and its chips
are in the queue. -/
structure Extender.Within (e e' : Extender) : Prop where
  name : e'.name = e.name
  status : ∀ f : Status, f.Asks → e.status.contains f = true → e'.status.contains f = true
  queue : ∀ chip ∈ e.queue, chip ∈ e'.queue

theorem Extender.Within.refl (e : Extender) : e.Within e := ⟨rfl, fun _ _ h => h, fun _ h => h⟩

theorem Extender.Within.trans {e e' e'' : Extender} (h : e.Within e') (h' : e'.Within e'') : e.Within e'' :=
  ⟨h'.name.trans h.name, fun f hf hs => h'.status f hf (h.status f hf hs), fun c hc => h'.queue c (h.queue c hc)⟩

/-- A chip has been put in the queue, and a pass has been asked for. -/
def History.Queued (h : History) (chip : Nat) : Prop :=
  ∃ e, .noted (.requested .isrPending) e ∈ h ∧ e.queue.getLast? = some chip

theorem History.Queued.mono {h h' : History} {chip : Nat} (hq : h.Queued chip) (hs : ∀ ev ∈ h, ev ∈ h') : h'.Queued chip := by
  obtain ⟨e, hm, hl⟩ := hq
  exact ⟨e, hs _ hm, hl⟩

@[simp] theorem Extender.queue_repolled (e : Extender) : e.repolled.queue = e.queue := by
  obtain ⟨_, _, _, _, _, _, _, _, _, _, engine⟩ := e
  cases engine <;> rfl

@[simp] theorem Extender.listens_repolled (e : Extender) : e.repolled.Listens ↔ e.Listens := by
  obtain ⟨_, _, _, _, _, _, _, _, _, _, engine⟩ := e
  cases engine with
  | generic m =>
    refine ⟨fun h => ?_, fun h => ?_⟩ <;> rintro _ ⟨⟩
    · have hm := h _ rfl
      exact hm
    · exact h m rfl
  | queued => exact ⟨fun _ => nofun, fun _ => nofun⟩

/-- The queue after a touch: a chip joins it with a request for a pass, or it is as it was. -/
theorem Touch.queue {s s' : State} (h : Touch s s') : s'.extender.queue = s.extender.queue ∨
    ∃ chip, s'.extender.queue = s.extender.queue ++ [chip] ∧
      s'.history = .noted (.requested .isrPending) s'.extender :: s.history := by
  cases h with
  | attach => exact .inl (Extender.queue_repolled _)
  | detach => exact .inl (Extender.queue_repolled _)
  | @enqueue q chip _ he =>
    refine .inr ⟨chip, ?_, rfl⟩
    show q.queue ++ [chip] = _
    rw [Extender.queue, he]
  | _ => exact .inl rfl

/-- A touch does not change whether the engine sees its line fall. -/
theorem Touch.listens {s s' : State} (h : Touch s s') : s'.extender.Listens ↔ s.extender.Listens := by
  cases h with
  | attach | detach => exact Extender.listens_repolled _
  | enqueue chip _ he =>
    refine ⟨fun _ m hm => ?_, fun _ => nofun⟩
    cases he.symm.trans hm
  | _ => exact Iff.rfl

/-! ## Parts of a pass -/

/-- The events `new` have led from one state to another one in a pass, after its plan has been made. What has been asked for by
the end of the part is still asked for, and the chips in the queue at the end have been there before or have been put there. -/
structure PassPart (s s' : State) (new : History) : Prop where
  history : s'.history = new ++ s.history
  steady : Steady s.extender s'.extender
  looks : new.looks = []
  queue : ∀ chip ∈ s.extender.queue, chip ∈ s'.extender.queue
  notes : ∀ n e, .noted n e ∈ new → e.Within s'.extender
  queued : ∀ chip ∈ s'.extender.queue, chip ∈ s.extender.queue ∨ new.Queued chip
  listens : s.extender.Listens → s'.extender.Listens

/-- A part of a pass that reads nothing and calls no handler; the engine sees its line fall no better than before. -/
structure Mute (s s' : State) (new : History) : Prop extends PassPart s s' new where
  reads : new.reads = []
  calls : new.calls = []
  input : s'.extender.shadow.input = s.extender.shadow.input
  hears : s'.extender.Listens → s.extender.Listens

namespace PassPart

/-- What was asked for before a part of a pass is asked for after it. -/
theorem within {s s' : State} {new : History} (h : PassPart s s' new) : s.extender.Within s'.extender :=
  ⟨h.steady.name, fun f _ hs => h.steady.status f hs, h.queue⟩

theorem trans {s s' s'' : State} {new new' : History} (h : PassPart s s' new) (h' : PassPart s' s'' new') :
    PassPart s s'' (new' ++ new) where
  history := by rw [h'.history, h.history, List.append_assoc]
  steady := h.steady.trans h'.steady
  looks := by rw [History.looks_append, h'.looks, h.looks]; rfl
  queue chip hc := h'.queue chip (h.queue chip hc)
  notes n e hm := by
    rcases List.mem_append.1 hm with hm | hm
    · exact h'.notes n e hm
    · exact (h.notes n e hm).trans h'.within
  queued chip hc := by
    rcases h'.queued chip hc with hc | hq
    · exact (h.queued chip hc).imp id fun hq => hq.mono fun _ => List.mem_append_right _
    · exact .inr (hq.mono fun _ => List.mem_append_left _)
  listens hl := h'.listens (h.listens hl)

/-- An event that is neither a look at a line nor a note; the engine is as it was. -/
theorem event {s s' : State} {new : History} (hh : s'.history = new ++ s.history) (hs : Steady s.extender s'.extender)
    (hev : ∀ ev ∈ new, ev.look? = none ∧ ev.isNote = false) (he : s'.extender.engine = s.extender.engine) :
    PassPart s s' new where
  history := hh
  steady := hs
  looks := List.filterMap_eq_nil_iff.2 fun ev hm => (hev ev hm).1
  queue chip hc := by rw [Extender.queue, he]; exact hc
  notes n e hm := nomatch (hev _ hm).2
  queued chip hc := by rw [Extender.queue, he] at hc; exact .inl hc
  listens hl m hm := hl m (he ▸ hm)

end PassPart

namespace Mute

theorem trans {s s' s'' : State} {new new' : History} (h : Mute s s' new) (h' : Mute s' s'' new') :
    Mute s s'' (new' ++ new) where
  toPassPart := h.toPassPart.trans h'.toPassPart
  reads := by rw [History.reads_append, h'.reads, h.reads]; rfl
  calls := by rw [History.calls_append, h'.calls, h.calls]; rfl
  input := h'.input.trans h.input
  hears hl := h.hears (h'.hears hl)

/-- The memory has changed beside the inputs and the engine, and nothing has been added to the history. -/
theorem silent {s s' : State} (hh : s'.history = s.history) (hs : Steady s.extender s'.extender)
    (he : s'.extender.engine = s.extender.engine) (hi : s'.extender.shadow.input = s.extender.shadow.input) :
    Mute s s' [] where
  toPassPart := .event hh hs (fun _ h => absurd h List.not_mem_nil) he
  reads := rfl
  calls := rfl
  input := hi
  hears hl m hm := hl m (he.trans hm)

theorem refl (s : State) : Mute s s [] := silent rfl (.refl _) rfl rfl

end Mute

/-- A touch is mute. -/
theorem Touch.mute {s s' : State} (h : Touch s s') : ∃ new, Mute s s' new := by
  have hf := h.frame
  have key (new : History) (hh : s'.history = new ++ s.history) (hw : ∀ ev ∈ new, ev.isWork = false)
      (hn : ∀ n e, .noted n e ∈ new → e = s'.extender) : Mute s s' new := by
    obtain ⟨hr, hl, hc⟩ := History.quiet_of_no_work hw
    refine ⟨⟨hh, hf.toSteady, hl, fun chip hm => ?_, fun n e hm => ?_, fun chip hm => ?_, h.listens.2⟩, hr, hc, hf.input, h.listens.1⟩
    · rcases h.queue with hq | ⟨_, hq, _⟩ <;> rw [hq]
      · exact hm
      · exact List.mem_append_left _ hm
    · rw [hn n e hm]
      exact .refl _
    · rcases h.queue with hq | ⟨chip', hq, hnote⟩ <;> rw [hq] at hm
      · exact .inl hm
      · refine (List.mem_append.1 hm).imp id fun hm => ⟨s'.extender, ?_, ?_⟩
        · rw [hnote] at hh
          rw [List.append_cancel_right (hh.symm.trans (List.singleton_append.symm))]
          exact List.mem_cons_self
        · rw [hq, List.mem_singleton.1 hm, List.getLast?_concat]
  rcases h.history with he | ⟨ev, he, hev, hn⟩
  · exact ⟨[], key [] he (fun _ h => absurd h List.not_mem_nil) fun _ _ h => absurd h List.not_mem_nil⟩
  · refine ⟨[ev], key [ev] he (fun ev' hm => ?_) fun n e hm => ?_⟩
    · rw [List.mem_singleton.1 hm]
      exact hev
    · exact (hn n e (List.mem_singleton.1 hm).symm).2.1

/-- Operations that fall into a pass are mute. -/
theorem Touched.mute {s s' : State} (h : Touched s s') : ∃ new, Mute s s' new := by
  induction h with
  | refl => exact ⟨[], .refl s⟩
  | tail _ h ih =>
    obtain ⟨new, hm⟩ := ih
    obtain ⟨new', hm'⟩ := h.mute
    exact ⟨_, hm.trans hm'⟩

/-- A transaction, with what falls into its middle, looks at no line and calls no handler. It reads what it is to read. -/
theorem Transfers.passPart {s s' : State} {a : Access} {r : Except BusKind Byte} (h : Transfers s a r s') :
    ∃ new, PassPart s s' new ∧ new.calls = [] ∧ new.reads = (Event.transaction a r).read?.toList ∧
      s'.extender.shadow.input = s.extender.shadow.input ∧ (s'.extender.Listens → s.extender.Listens) := by
  obtain ⟨s₁, hn, rfl, rfl⟩ := h
  obtain ⟨new, hm⟩ := hn.touched.mute
  have hd : PassPart s₁ (s₁.answered a) [.transaction a (s₁.board.outcome a)] := by
    refine .event rfl (.refl _) (fun ev hev => ?_) rfl
    rw [List.mem_singleton.1 hev]
    exact ⟨rfl, rfl⟩
  have hreads : History.reads [.transaction a (s₁.board.outcome a)] = (Event.transaction a (s₁.board.outcome a)).read?.toList := by
    cases a <;> rfl
  have hrec (r : Except BusKind Byte) : ∃ new, Mute (s₁.answered a) ((s₁.answered a).recorded a r) new := by
    cases r with
    | ok => exact ⟨[], .refl _⟩
    | error kind =>
      refine ⟨[_], .event rfl (.update _ _ _ _) (fun ev hev => ?_) rfl, rfl, rfl, rfl, fun hl => hl⟩
      rw [List.mem_singleton.1 hev]
      exact ⟨rfl, rfl⟩
  obtain ⟨new', hm'⟩ := hrec (s₁.board.outcome a)
  refine ⟨_, (hm.toPassPart.trans hd).trans hm'.toPassPart, ?_, ?_, hm'.input.trans hm.input, fun hl => hm.hears (hm'.hears hl)⟩
  · rw [History.calls_append, History.calls_append, hm'.calls, hm.calls]
    rfl
  · rw [History.reads_append, History.reads_append, hm'.reads, hm.reads, hreads]
    simp

/-! ## Phases -/

/-- Writing a register of some groups is mute. -/
theorem Writes.mute {reg : Byte} {value : Shadow → Nat → Byte} {groups : List Nat} {s s' : State} {ok : Bool}
    (h : Writes reg value groups s ok s') : ∃ new, Mute s s' new := by
  induction h with
  | nil => exact ⟨[], .refl _⟩
  | cons _ ht _ ih =>
    obtain ⟨new, hl, hc, hr, hi, hh⟩ := ht.passPart
    obtain ⟨new', hm⟩ := ih
    exact ⟨_, Mute.trans ⟨hl, hr, hc, hi, hh⟩ hm⟩

/-- Where the inputs of a group are, if they can be located. -/
def Extender.inputPlace (e : Extender) (group : Nat) : Option Place := (e.locate group e.family.inputReg).toOption

/-- A group whose inputs have a place has its input register there. -/
theorem Extender.locate_of_inputPlace {e : Extender} {group : Nat} {place : Place} (h : e.inputPlace group = some place) :
    e.locate group e.family.inputReg = .ok place := by
  unfold inputPlace at h
  cases hl : e.locate group e.family.inputReg with
  | error => rw [hl] at h; cases h
  | ok => rw [hl] at h; cases h; rfl

/-- What a read makes of the inputs of a group depends on the family and the inversions only. -/
theorem Engine.inputAfter_eq {e e' : Extender} (hf : e'.family = e.family) (hi : e'.shadow.invert = e.shadow.invert) (g : Nat)
    (was : Byte) (r : Except BusKind Byte) : inputAfter e' g was r = inputAfter e g was r := by
  cases r with
  | error => rfl
  | ok content => rw [inputAfter, inputAfter, hf, hi]

/-- In a pass the inputs stay where they are. -/
theorem Steady.inputPlace {e e' : Extender} (h : Steady e e') : e'.inputPlace = e.inputPlace := by
  funext group
  rw [Extender.inputPlace, Extender.inputPlace, h.locate, h.family]

/-- Reading the inputs of some groups reads each of them once, in order. -/
theorem Reads.passPart {groups : List Nat} {s s' : State} {result : List Refresh × Bool} (h : Reads groups s result s') :
    ∃ new, PassPart s s' new ∧ new.calls = [] ∧ new.reads.map some = (groups.map s.extender.inputPlace).reverse := by
  induction h with
  | nil => exact ⟨[], (Mute.refl _).toPassPart, rfl, rfl⟩
  | @cons s s₁ s' group groups place r now refreshes ok hp ht _ _ ih =>
    obtain ⟨new, hl, hc, hr, _⟩ := ht.passPart
    obtain ⟨new', hl', hc', hr'⟩ := ih
    have hset : PassPart s₁ (s₁.amend fun e => { e with shadow := e.shadow.setInput group now }) [] :=
      .event rfl (.update _ _ _ _) (fun _ h => absurd h List.not_mem_nil) rfl
    have hkeep : PassPart s _ new := hl.trans hset
    refine ⟨_, hkeep.trans hl', ?_, ?_⟩
    · rw [History.calls_append, hc', hc]
      rfl
    · rw [History.reads_append, List.map_append, hr', hkeep.steady.inputPlace, hr, List.map_cons, List.reverse_cons,
        show s.extender.inputPlace group = some place by rw [Extender.inputPlace, hp]; rfl]
      rfl

/-- The turns of pins read nothing. -/
theorem Turns.passPart {turns : List (Nat × Bool × Bool)} {s s' : State} (h : Turns turns s s') :
    ∃ new, PassPart s s' new ∧ new.reads = [] ∧ s'.extender.shadow.input = s.extender.shadow.input := by
  induction h with
  | nil => exact ⟨[], (Mute.refl _).toPassPart, rfl, rfl⟩
  | skip _ _ ih => exact ih
  | @call s s₁ s' pin was now h turns hh hm hn _ ih =>
    obtain ⟨new, hmute⟩ := hn.touched.mute
    obtain ⟨new', hl', hr', hi'⟩ := ih
    have hcall : PassPart s ((s.seeing (.logged (.edge pin))).seeing (.called pin h)) [.called pin h, .logged (.edge pin)] := by
      refine .event rfl (.refl _) (fun ev hev => ?_) rfl
      rcases List.mem_cons.1 hev with rfl | hev
      · exact ⟨rfl, rfl⟩
      · rw [List.mem_singleton.1 hev]
        exact ⟨rfl, rfl⟩
    refine ⟨_, (hcall.trans hmute.toPassPart).trans hl', ?_, hi'.trans hmute.input⟩
    rw [History.reads_append, History.reads_append, hr', hmute.reads]
    rfl

/-- Writing the polarities is mute. -/
theorem Inverts.mute {groups : List Nat} {s s' : State} {ok : Bool} (h : Inverts groups s ok s') : ∃ new, Mute s s' new := by
  unfold Inverts at h
  split at h
  · exact h.mute
  · rw [h.2]
    exact ⟨[], .refl s⟩

/-- Writing the configuration is mute. -/
theorem Configures.mute {s s' : State} {ok : Bool} (h : Configures s ok s') : ∃ new, Mute s s' new := by
  obtain ⟨s₁, s₂, _, _, hi, hd, _, rfl⟩ := h
  obtain ⟨new, hm⟩ := hi.mute
  obtain ⟨new', hm'⟩ := hd.mute
  exact ⟨_, (hm.trans hm').trans (.silent rfl (.update _ _ _ _) rfl rfl)⟩

/-- Writing the outputs is mute. -/
theorem Flushes.mute {s s' : State} {ok : Bool} (h : Flushes s ok s') : ∃ new, Mute s s' new := by
  obtain ⟨new, hm⟩ := Writes.mute h
  have hc : Mute s (s.amend fun e => { e with shadow := e.shadow.clearDirty }) [] := .silent rfl (.update _ _ _ _) rfl rfl
  exact ⟨_, hc.trans hm⟩

/-- A phase is mute, whether or not the plan asks for it. -/
theorem Asked.mute {asked : Bool} {phase : State → Bool → State → Prop} {s s' : State} {ok : Bool}
    (h : Asked asked phase s ok s') (hp : phase s ok s' → ∃ new, Mute s s' new) : ∃ new, Mute s s' new := by
  unfold Asked at h
  split at h
  · exact hp h
  · rw [h.2]
    exact ⟨[], .refl s⟩

theorem State.listens_rearmed (s : State) : s.rearmed.extender.Listens := by
  unfold rearmed
  rw [extender_amend]
  split
  · rintro _ ⟨⟩
    rfl
  · rename_i q he
    intro m hm
    cases he.symm.trans hm

@[simp] theorem State.queue_rearmed (s : State) : s.rearmed.extender.queue = s.extender.queue := by
  obtain ⟨⟨_, _, _, _, _, _, _, _, _, _, engine⟩, _, _⟩ := s
  cases engine <;> rfl

@[simp] theorem State.shadow_rearmed (s : State) : s.rearmed.extender.shadow = s.extender.shadow := by
  unfold rearmed
  rw [extender_amend]
  split <;> rfl

/-- The line's being remembered as high is part of a pass. -/
theorem PassPart.rearmed (s : State) : PassPart s s.rearmed [] where
  history := rfl
  steady := s.works_rearmed.steady
  looks := rfl
  queue chip hc := by rwa [State.queue_rearmed]
  notes _ _ hm := absurd hm List.not_mem_nil
  queued chip hc := .inl (by rwa [State.queue_rearmed] at hc)
  listens _ := s.listens_rearmed

/-- A refresh of some groups reads each of those that are claimed once, in order. After it the next fall of the line is seen. -/
theorem Refreshes.passPart {groups : Byte} {s s' : State} {ok : Bool} (h : Refreshes groups s ok s') :
    ∃ new, PassPart s s' new ∧ s'.extender.Listens ∧
      new.reads.map some = ((groups &&& s.extender.claims.groups).groups.map s.extender.inputPlace).reverse := by
  obtain ⟨s₁, s₂, refreshes, hr, ht, rfl⟩ := h
  obtain ⟨new, hl, _, hread⟩ := hr.passPart
  obtain ⟨new', hl', hread', _⟩ := ht.passPart
  refine ⟨_, (hl.trans hl').trans (.rearmed s₂), s₂.listens_rearmed, ?_⟩
  rw [List.nil_append, History.reads_append, hread', List.nil_append, hread]

/-! ## A whole pass -/

/-- Making the plan of a pass keeps what a pass must not change. -/
theorem Gathers.steady {pending : Status} {plan : Plan} {s s' : State} (h : Gathers pending s plan s') :
    Steady s.extender s'.extender := by
  cases h with
  | looked he | drained he => exact .engine _ (by rw [Extender.name, Extender.name, he])
  | unlooked => exact .refl _

/-- A pass begins its work with an empty queue. -/
theorem Gathers.queue {pending : Status} {plan : Plan} {s s' : State} (h : Gathers pending s plan s') :
    s'.extender.queue = [] := by
  cases h with
  | looked | drained => rfl
  | unlooked he =>
    unfold Extender.queue
    rw [he]

/-- Making a plan adds at most a look at the line to the history. -/
theorem Gathers.history {pending : Status} {plan : Plan} {s s' : State} (h : Gathers pending s plan s') :
    ∃ new : History, s'.history = new ++ s.history ∧ (∀ ev ∈ new, ev.isNote = false) ∧ new.reads = [] ∧ new.calls = [] := by
  cases h with
  | looked =>
    refine ⟨[_], rfl, fun ev hm => ?_, rfl, rfl⟩
    rw [List.mem_singleton.1 hm]
    rfl
  | unlooked | drained => exact ⟨[], rfl, fun _ h => absurd h List.not_mem_nil, rfl, rfl⟩

/-- After its plan has been made, a pass reads the groups of the plan that are claimed. If the plan has groups, the engine sees the
next fall of its line; if not, it sees it no better than before. -/
theorem Carries.passPart {pending : Status} {s s' : State} {clean : Bool} (h : Carries pending s clean s') :
    ∃ plan s₁ new, Gathers pending s plan s₁ ∧ PassPart s₁ s' new ∧ (plan.groups ≠ 0 → s'.extender.Listens) ∧
      (plan.groups = 0 → s'.extender.Listens → s₁.extender.Listens) ∧
      new.reads.map some = ((plan.groups &&& s.extender.claims.groups).groups.map s.extender.inputPlace).reverse := by
  obtain ⟨plan, s₁, s₂, s₃, configured, written, read, hg, hc, hw, hr, _⟩ := h
  obtain ⟨new₁, hm₁⟩ := hc.mute fun h => h.mute
  obtain ⟨new₂, hm₂⟩ := hw.mute fun h => h.mute
  have hm := hm₁.trans hm₂
  have hst := hg.steady.trans hm.steady
  refine ⟨plan, s₁, ?_⟩
  unfold Asked at hr
  split at hr
  · obtain ⟨new₃, hl, hlisten, hread⟩ := hr.passPart
    rename_i hz
    rw [bne_iff_ne] at hz
    refine ⟨_, hg, hm.toPassPart.trans hl, fun _ => hlisten, fun h => absurd h hz, ?_⟩
    rw [History.reads_append, hm.reads, List.append_nil, hread, hst.claims, hst.inputPlace]
  · rename_i hz
    rw [Bool.not_eq_true, bne_eq_false_iff_eq] at hz
    obtain ⟨-, rfl⟩ := hr
    refine ⟨_, hg, hm.toPassPart, fun hne => (hne hz).elim, fun _ => hm.hears, ?_⟩
    rw [hm.reads, hz]
    show _ = ((Byte.groups (0#8 &&& s.extender.claims.groups)).map _).reverse
    rw [BitVec.zero_and]
    rfl

/-! ## What is told -/

/-- What leaves handlers and registers as they are, and adds no note, does not have to be told. -/
theorem State.Told.keep {s s' : State} (h : s.Told) (hh : s'.history.latest? = s.history.latest?)
    (ha : s.extender.Agrees s'.extender) : s'.Told := by
  obtain ⟨e, he, hag⟩ := h
  exact ⟨e, hh.trans he, hag.trans ha⟩

/-- A transaction leaves a note of what falls into its middle. -/
theorem Transfers.told {s s' : State} {a : Access} {r : Except BusKind Byte} (h : Transfers s a r s') (hs : s.Told) :
    s'.Told := by
  obtain ⟨s₁, hn, rfl, rfl⟩ := h
  have hd : (s₁.answered a).Told := (hn.told hs).keep rfl (.refl _)
  cases s₁.board.outcome a with
  | ok => exact hd
  | error => exact hd.keep rfl ⟨rfl, rfl, rfl, rfl⟩

/-- Writing a register leaves no change of the clients' without a note. -/
theorem Writes.told {reg : Byte} {value : Shadow → Nat → Byte} {groups : List Nat} {s s' : State} {ok : Bool}
    (h : Writes reg value groups s ok s') (hs : s.Told) : s'.Told := by
  induction h with
  | nil => exact hs
  | cons _ ht _ ih => exact ih (ht.told hs)

/-- Writing the configuration leaves no change of the clients' without a note. -/
theorem Configures.told {s s' : State} {ok : Bool} (h : Configures s ok s') (hs : s.Told) : s'.Told := by
  obtain ⟨s₁, s₂, _, _, hi, hd, _, rfl⟩ := h
  have hs₁ : s₁.Told := by
    unfold Inverts at hi
    split at hi
    · exact hi.told hs
    · exact hi.2 ▸ hs
  exact (hd.told hs₁).keep rfl ⟨rfl, rfl, rfl, rfl⟩

/-- Writing the outputs leaves no change of the clients' without a note. -/
theorem Flushes.told {s s' : State} {ok : Bool} (h : Flushes s ok s') (hs : s.Told) : s'.Told :=
  Writes.told h (hs.keep rfl ⟨rfl, rfl, rfl, rfl⟩)

/-- A phase leaves no change of the clients' without a note, whether or not the plan asks for it. -/
theorem Asked.told {asked : Bool} {phase : State → Bool → State → Prop} {s s' : State} {ok : Bool}
    (h : Asked asked phase s ok s') (hp : phase s ok s' → s'.Told) (hs : s.Told) : s'.Told := by
  unfold Asked at h
  split at h
  · exact hp h
  · exact h.2 ▸ hs

/-- Making the plan of a pass changes nothing that clients change. -/
theorem Gathers.told {pending : Status} {plan : Plan} {s s' : State} (h : Gathers pending s plan s') (hs : s.Told) :
    s'.Told := by
  cases h with
  | looked | drained => exact hs.keep rfl ⟨rfl, rfl, rfl, rfl⟩
  | unlooked => exact hs

/-- Reading the inputs leaves no change of the clients' without a note. -/
theorem Reads.told {groups : List Nat} {s s' : State} {result : List Refresh × Bool} (h : Reads groups s result s')
    (hs : s.Told) : s'.Told := by
  induction h with
  | nil => exact hs
  | cons _ ht _ _ ih => exact ih ((ht.told hs).keep rfl ⟨rfl, rfl, rfl, rfl⟩)

/-! ## How often a group is read -/

/-- The inputs of a group have been read exactly once. -/
def Extender.ReadsOnce (e : Extender) (h : History) (g : Nat) : Prop :=
  ∃ place, e.inputPlace g = some place ∧ h.reads.count place = 1

/-- The inputs of a group have been read. -/
def Extender.Reads (e : Extender) (h : History) (g : Nat) : Prop :=
  ∃ place, e.inputPlace g = some place ∧ place ∈ h.reads

section

variable {e : Extender} {h : History} {groups : Byte}
  (hr : h.reads.map some = ((groups &&& e.claims.groups).groups.map e.inputPlace).reverse)

include hr

/-- The inputs of a claimed group that is read have a place. -/
theorem Extender.exists_inputPlace {g : Nat} (hc : e.claims.groups.getLsbD g = true) (hg : groups.getLsbD g = true) :
    ∃ place, e.inputPlace g = some place := by
  have hm : e.inputPlace g ∈ h.reads.map some := by
    rw [hr, List.mem_reverse]
    refine List.mem_map_of_mem (Byte.mem_groups.2 ?_)
    rw [BitVec.getLsbD_and, hg, hc, Bool.and_self]
  obtain ⟨place, _, hp⟩ := List.mem_map.1 hm
  exact ⟨place, hp.symm⟩

/-- Of the groups with claimed pins, those that are to be read are read once and the others are not read. -/
theorem Extender.count_reads {g : Nat} {place : Place} (hc : e.claims.groups.getLsbD g = true)
    (hp : e.inputPlace g = some place) : h.reads.count place = if groups.getLsbD g = true then 1 else 0 := by
  have hsame {g' : Nat} (hg' : g' ∈ (groups &&& e.claims.groups).groups) :
      (e.inputPlace g' == some place) = (g' == g) := by
    rw [Bool.eq_iff_iff, beq_iff_eq, beq_iff_eq]
    refine ⟨fun hp' => ?_, fun h => h ▸ hp⟩
    exact Family.locate_inj (BitVec.lt_of_getLsbD (Byte.mem_groups.1 hg')) (BitVec.lt_of_getLsbD hc)
      (locate_of_inputPlace hp') (locate_of_inputPlace hp)
  have hnodup : (groups &&& e.claims.groups).groups.Nodup := List.Nodup.filter _ List.nodup_range
  calc h.reads.count place
      = (h.reads.map some).count (some place) := (List.count_map_of_injective _ _ (fun _ _ => Option.some.inj) _).symm
    _ = ((groups &&& e.claims.groups).groups.map e.inputPlace).count (some place) := by rw [hr, List.count_reverse]
    _ = (groups &&& e.claims.groups).groups.countP fun g' => e.inputPlace g' == some place := List.countP_map
    _ = (groups &&& e.claims.groups).groups.count g := List.countP_congr fun g' hg' => by
        rw [hsame hg']
    _ = if groups.getLsbD g = true then 1 else 0 := by
        rw [hnodup.count]
        simp [hc]

/-- A claimed group that is planned to be read is read once. -/
theorem Extender.readsOnce {g : Nat} (hc : e.claims.groups.getLsbD g = true) (hg : groups.getLsbD g = true) :
    e.ReadsOnce h g := by
  obtain ⟨place, hp⟩ := exists_inputPlace hr hc hg
  exact ⟨place, hp, by rw [count_reads hr hc hp, if_pos hg]⟩

/-- A claimed group that is read was planned to be read. -/
theorem Extender.Reads.planned {g : Nat} (hread : e.Reads h g) (hc : e.claims.groups.getLsbD g = true) :
    groups.getLsbD g = true := by
  obtain ⟨place, hp, hm⟩ := hread
  have hpos := List.count_pos_iff.2 hm
  rw [Extender.count_reads hr hc hp] at hpos
  split at hpos
  · assumption
  · exact absurd hpos (Nat.lt_irrefl 0)

end

end PortExpander
