import PortExpander.Proofs.Touch

/-!
# The work of a pass

A pass is made of a few kinds of moves besides the touches of operations that fall into its middle. `Work` lists them; it holds
of all that is done in a pass, also of one that a fault cuts short. `BusStep` lists those that come after the plan of the pass has
been made and before its handlers are called. What the loops of a pass come to when no fault cuts them short is said more closely
by `Writes`, `Reads` and `Turns`, which follow the loops group by group and pin by pin.
-/

namespace PortExpander

open Sim Engine

namespace State

/-- The state after the bus has answered a transaction. -/
def answered (s : State) (a : Access) : State :=
  { s with board := s.board.after a, history := .transaction a (s.board.outcome a) :: s.history }

/-- The state after a transaction that has failed has been counted. -/
def recorded (s : State) (a : Access) : Except BusKind Byte → State
  | .ok _ => s
  | .error kind => (s.amend fun e => { e with backoff := e.backoff.recordFailure }).seeing
      (.logged (.transactionFailed { place := a.place, kind } s.extender.backoff.recordFailure.count))

end State

/-- The registers of a group that are written to. -/
def Family.writtenRegs (f : Family) : List Byte := f.polarityReg.toList ++ [f.configReg, f.outputReg]

/-- Whether a transaction is a read or a write that a pass may make: of a register of a group with a claimed pin. -/
def Extender.Reaches (e : Extender) (a : Access) : Prop :=
  ∃ g, e.claims.groups.getLsbD g = true ∧
    match a with
    | .read place => e.locate g e.family.inputReg = .ok place
    | .write place _ => ∃ reg ∈ e.family.writtenRegs, e.locate g reg = .ok place

/-- One thing that happens in a pass. -/
inductive Work : State → State → Prop where
  | touch {s s' : State} : Touch s s' → Work s s'
  | answer {s : State} (a : Access) : s.extender.Reaches a → Work s (s.answered a)
  | record {s : State} (a : Access) (r : Except BusKind Byte) : Work s (s.recorded a r)
  | keep {s : State} (group : Nat) (value : Byte) :
      Work s (s.amend fun e => { e with shadow := e.shadow.setInput group value })
  | mark {s : State} (groups : Byte) : Work s (s.amend fun e => { e with shadow := e.shadow.markDirty groups })
  | clear {s : State} : Work s (s.amend fun e => { e with shadow := e.shadow.clearDirty })
  | look {s : State} (line : Nat) (level : Level) : s.extender.lines.has line = true → Work s (s.seeing (.sampled line level))
  | level {s : State} {m : Sampler} (high : Bool) : s.extender.engine = .generic m →
      Work s (s.amend ({ · with engine := .generic { m with high } }))
  | drain {s : State} {q : ChipQueue} : s.extender.engine = .queued q →
      Work s (s.amend ({ · with engine := .queued q.emptied }))
  | edge {s : State} (pin : Nat) : Work s (s.seeing (.logged (.edge pin)))
  | call {s : State} (pin : Nat) (h : Handler) : s.extender.handlers pin = some h → Work s (s.seeing (.called pin h))

/-- Any amount of work. -/
abbrev Works : State → State → Prop := Relation.ReflTransGen Work

/-- What passes do keeps what a pass must not change. -/
theorem Work.steady {s s' : State} (h : Work s s') : Steady s.extender s'.extender := by
  cases h with
  | touch h => exact h.frame.toSteady
  | answer | look | edge | call => exact Steady.refl _
  | record a r =>
    cases r with
    | ok => exact Steady.refl _
    | error kind => exact Steady.update s.extender s.extender.shadow s.extender.handlers _
  | keep | mark | clear => exact Steady.update s.extender _ s.extender.handlers s.extender.backoff
  | level high he => exact Steady.engine _ (by rw [Extender.name, Extender.name, he])
  | drain he => exact Steady.engine _ (by rw [Extender.name, Extender.name, he])

/-- However much is done in a pass, what a pass must not change is kept. -/
theorem Works.steady {s s' : State} (h : Works s s') : Steady s.extender s'.extender := by
  induction h with
  | refl => exact Steady.refl _
  | tail _ h ih => exact ih.trans h.steady

/-- Operations that fall into a pass are part of its work. -/
theorem Touched.works {s s' : State} (h : Touched s s') : Works s s' :=
  Relation.ReflTransGen.mono (fun _ _ => Work.touch) _ _ h

/-- One thing that happens in a pass while it makes its transactions. A transaction is counted at once if it fails. -/
inductive BusStep : State → State → Prop where
  | touch {s s' : State} : Touch s s' → BusStep s s'
  | transfer {s : State} (a : Access) : s.extender.Reaches a → BusStep s ((s.answered a).recorded a (s.board.outcome a))
  | keep {s : State} (group : Nat) (value : Byte) :
      BusStep s (s.amend fun e => { e with shadow := e.shadow.setInput group value })
  | mark {s : State} (groups : Byte) : BusStep s (s.amend fun e => { e with shadow := e.shadow.markDirty groups })
  | clear {s : State} : BusStep s (s.amend fun e => { e with shadow := e.shadow.clearDirty })

/-- Any number of such things, one after the other. -/
abbrev BusSteps : State → State → Prop := Relation.ReflTransGen BusStep

/-- What a pass does at the bus is part of its work: a transaction that has failed is counted right after its answer. -/
theorem BusStep.works {s s' : State} (h : BusStep s s') : Works s s' := by
  cases h with
  | touch h => exact .single (.touch h)
  | transfer a ha => exact (Relation.ReflTransGen.single (.answer a ha)).tail (.record a _)
  | keep group value => exact .single (.keep group value)
  | mark groups => exact .single (.mark groups)
  | clear => exact .single .clear

/-- All that a pass does at the bus is part of its work. -/
theorem BusSteps.works {s s' : State} (h : BusSteps s s') : Works s s' := by
  induction h with
  | refl => exact .refl
  | tail _ h ih => exact ih.trans h.works

/-- What a pass does at the bus keeps what a pass must not change. -/
theorem BusSteps.steady {s s' : State} (h : BusSteps s s') : Steady s.extender s'.extender := h.works.steady

/-- Operations that fall into the middle of transactions count as what happens meanwhile. -/
theorem Touched.busSteps {s s' : State} (h : Touched s s') : BusSteps s s' :=
  Relation.ReflTransGen.mono (fun _ _ => BusStep.touch) _ _ h

/-! ## Operations that fall into a pass -/

/-- The memory that the latest note of a history is of. -/
def History.latest? : History → Option Extender
  | [] => none
  | .noted _ e :: _ => some e
  | _ :: past => latest? past

/-- The latest note of a history carried on is the latest one of what was added, if there is one. -/
theorem History.latest?_append (h h' : History) : (h ++ h').latest? = h.latest?.or h'.latest? := by
  induction h with
  | nil => rfl
  | cons ev h ih => cases ev <;> first | exact ih | rfl

/-- Two memories agree on what clients change and passes do not: the handlers and what the chips are meant to hold. -/
structure Extender.Agrees (e e' : Extender) : Prop where
  handlers : e'.handlers = e.handlers
  direction : e'.shadow.direction = e.shadow.direction
  invert : e'.shadow.invert = e.shadow.invert
  output : e'.shadow.output = e.shadow.output

theorem Extender.Agrees.refl (e : Extender) : e.Agrees e := ⟨rfl, rfl, rfl, rfl⟩

theorem Extender.Agrees.trans {e e' e'' : Extender} (h : e.Agrees e') (h' : e'.Agrees e'') : e.Agrees e'' :=
  ⟨h'.handlers.trans h.handlers, h'.direction.trans h.direction, h'.invert.trans h.invert, h'.output.trans h.output⟩

/-- Clients have changed nothing since the latest note. -/
def State.Told (s : State) : Prop := ∃ e, s.history.latest? = some e ∧ e.Agrees s.extender

/-- Nothing has happened to the extender from one state to another, or the first thing was the beginning of an operation, of which
there is a note. -/
def State.Announced (s s' : State) : Prop :=
  (s'.extender = s.extender ∧ s'.history = s.history) ∨
    ∃ o later, s'.history = later ++ .noted (.opBegan o) s.extender :: s.history

/-- One state leads to another by operations that fall into a pass and have all ended. -/
structure Nested (s s' : State) : Prop where
  touched : Touched s s'
  told : s.Told → s'.Told
  announced : s.Announced s'

/-- Operations that fall into a pass only touch the extender. -/
def OnlyTouches (nest : Nest) : Prop := ∀ ops s, s.extender.updating = true → Touched s (nest ops s).2

/-- Operations that fall into a pass are its guests: they only touch the extender, leave a note of what they have changed, and do
not begin without a note. -/
structure Guest (nest : Nest) : Prop where
  onlyTouches : OnlyTouches nest
  told : ∀ ops s, s.Told → (nest ops).Gives s (fun _ s' => s'.Told) (fun _ => True)
  announced : ∀ ops s, s.extender.updating = true → (nest ops).Gives s (fun _ s' => s.Announced s') (fun _ => True)

/-- What operations of guests give: they are nested, or a fault has cut them short and they have only touched the extender. -/
theorem Guest.gives {nest : Nest} (hn : Guest nest) (ops : List Op) {s : State} (hu : s.extender.updating = true) :
    (nest ops).Gives s (fun _ s' => Nested s s') (fun s' => Touched s s') := by
  have ht := hn.onlyTouches ops s hu
  have hd := hn.told ops s
  have ha := hn.announced ops s hu
  unfold Gives at hd ha ⊢
  revert ht hd ha
  rcases nest ops s with ⟨_ | _, s'⟩
  · exact fun ht _ _ => ht
  · exact fun ht hd ha => ⟨ht, hd, ha⟩

/-! ## Transactions -/

/-- A transaction and what falls into its middle. -/
def Transfers (s : State) (a : Access) (r : Except BusKind Byte) (s' : State) : Prop :=
  ∃ s₁, Nested s s₁ ∧ r = s₁.board.outcome a ∧ s' = (s₁.answered a).recorded a r

/-- To record the answer of a transaction counts it if it has failed, and cannot itself fail. -/
theorem gives_record (a : Access) (r : Except BusKind Byte) (s : State) {Q : Unit → State → Prop} {X : State → Prop} :
    (record a r).Gives s Q X ↔ Q () (s.recorded a r) := by
  cases r <;> exact Iff.rfl

variable {nest : Nest}

/-- What a transaction gives: the answer of the chip after what falls into its middle. -/
theorem gives_transfer (hn : Guest nest) {s : State} (hu : s.extender.updating = true) (a : Access) :
    (transfer nest a).Gives s (fun r s' => Transfers s a r s') (fun s' => Touched s s') := by
  unfold transfer transact
  simp only [gives_bind, gives_board, gives_modifyBoard, gives_emit, gives_pure, gives_record]
  have hb : Touched s (s.onBoard (·.passHooks)) := .single (.board _)
  refine (hn.gives s.board.dueHooks (s := s.onBoard (·.passHooks)) hu).mono (fun _ s' h => ?_) fun _ h => hb.trans h
  exact ⟨s', ⟨hb.trans h.touched, h.told, h.announced⟩, rfl, rfl⟩

/-- A transaction on a register of a claimed group is one of the things that a pass does at the bus. -/
theorem Transfers.busSteps {s s' : State} {a : Access} {r : Except BusKind Byte} (h : Transfers s a r s')
    (ha : s.extender.Reaches a) : BusSteps s s' := by
  obtain ⟨s₁, ⟨h₁, _, _⟩, rfl, rfl⟩ := h
  have hs := h₁.frame
  have ha' : s₁.extender.Reaches a := by
    unfold Extender.Reaches Extender.locate at ha ⊢
    rw [hs.family, hs.address, hs.claims]
    exact ha
  exact h₁.busSteps.tail (.transfer a ha')

/-! ## Loops over groups -/

/-- Writing a register of some groups: each byte is taken from the memory when the group's turn comes. -/
inductive Writes (reg : Byte) (value : Shadow → Nat → Byte) : List Nat → State → Bool → State → Prop where
  | nil {s : State} : Writes reg value [] s true s
  | cons {s s₁ s' : State} {group : Nat} {groups : List Nat} {place : Place} {r : Except BusKind Byte} {ok : Bool} :
      s.extender.locate group reg = .ok place → Transfers s (.write place (value s.extender.shadow group)) r s₁ →
      Writes reg value groups s₁ ok s' → Writes reg value (group :: groups) s (succeeded r && ok) s'

/-- Reading the inputs of some groups into the memory. -/
inductive Reads : List Nat → State → List Refresh × Bool → State → Prop where
  | nil {s : State} : Reads [] s ([], true) s
  | cons {s s₁ s' : State} {group : Nat} {groups : List Nat} {place : Place} {r : Except BusKind Byte} {now : Byte}
      {refreshes : List Refresh} {ok : Bool} :
      s.extender.locate group s.extender.family.inputReg = .ok place → Transfers s (.read place) r s₁ →
      now = inputAfter s₁.extender group (s.extender.shadow.input.byte group) r →
      Reads groups (s₁.amend fun e => { e with shadow := e.shadow.setInput group now }) (refreshes, ok) s' →
      Reads (group :: groups) s
        ({ group, was := s.extender.shadow.input.byte group, now } :: refreshes, succeeded r && ok) s'

/-- One thing that happens while handlers are called. -/
inductive Calling : State → State → Prop where
  | touch {s s' : State} : Touch s s' → Calling s s'
  | edge {s : State} (pin : Nat) : Calling s (s.seeing (.logged (.edge pin)))
  | call {s : State} (pin : Nat) (h : Handler) : s.extender.handlers pin = some h → Calling s (s.seeing (.called pin h))

/-- Calling handlers. -/
abbrev Calls : State → State → Prop := Relation.ReflTransGen Calling

/-- To call handlers is part of the work of a pass. -/
theorem Calls.works {s s' : State} (h : Calls s s') : Works s s' := by
  refine Relation.ReflTransGen.mono (fun _ _ h => ?_) _ _ h
  cases h with
  | touch h => exact .touch h
  | edge pin => exact .edge pin
  | call pin h hp => exact .call pin h hp

/-- Operations that fall in while handlers are called count as calling them. -/
theorem Touched.calls {s s' : State} (h : Touched s s') : Calls s s' :=
  Relation.ReflTransGen.mono (fun _ _ => Calling.touch) _ _ h

/-- The groups of a list have claimed pins. -/
def Extender.Holds (e : Extender) (groups : List Nat) : Prop := ∀ g ∈ groups, e.claims.groups.getLsbD g = true

/-- Writing a register of claimed groups follows the groups one by one, and all it does is done at the bus. -/
theorem gives_writeGroups (hn : Guest nest) {reg : Byte} {value : Shadow → Nat → Byte} (groups : List Nat) {s : State}
    (hu : s.extender.updating = true) (hg : s.extender.Holds groups) (hr : reg ∈ s.extender.family.writtenRegs) :
    (writeGroups nest reg value groups).Gives s (fun ok s' => Writes reg value groups s ok s' ∧ BusSteps s s')
      (fun s' => BusSteps s s') := by
  induction groups generalizing s with
  | nil => exact ⟨.nil, .refl⟩
  | cons group groups ih =>
    rw [writeGroups_cons _ _ _ (BitVec.lt_of_getLsbD (hg group List.mem_cons_self))]
    simp only [gives_bind, gives_extender, gives_ofExcept, gives_pure]
    refine ⟨fun place hp => ?_, fun _ _ => .refl⟩
    refine (gives_transfer hn hu _).mono (fun r s₁ h₁ => ?_) fun _ h => h.busSteps
    have hw := h₁.busSteps ⟨group, hg group List.mem_cons_self, reg, hr, hp⟩
    have hs := hw.steady
    refine (ih (hs.updating.trans hu) ?_ (by rw [hs.family]; exact hr)).mono (fun ok s' h => ?_) fun _ h => hw.trans h
    · intro g hgg
      rw [hs.claims]
      exact hg g (List.mem_cons_of_mem _ hgg)
    · exact ⟨.cons hp h₁ h.1, hw.trans h.2⟩

/-- Reading the inputs of claimed groups follows the groups one by one, and all it does is done at the bus. -/
theorem gives_readGroups (hn : Guest nest) (groups : List Nat) {s : State} (hu : s.extender.updating = true)
    (hg : s.extender.Holds groups) :
    (readGroups nest groups).Gives s (fun result s' => Reads groups s result s' ∧ BusSteps s s') (fun s' => BusSteps s s') := by
  induction groups generalizing s with
  | nil => exact ⟨.nil, .refl⟩
  | cons group groups ih =>
    rw [readGroups_cons _ (BitVec.lt_of_getLsbD (hg group List.mem_cons_self))]
    simp only [gives_bind, gives_extender, gives_ofExcept, gives_modifyExtender, gives_pure]
    refine ⟨fun place hp => ?_, fun _ _ => .refl⟩
    refine (gives_transfer hn hu _).mono (fun r s₁ h₁ => ?_) fun _ h => h.busSteps
    have hw : BusSteps s _ := (h₁.busSteps ⟨group, hg group List.mem_cons_self, hp⟩).tail
      (.keep group (inputAfter s₁.extender group (s.extender.shadow.input.byte group) r))
    have hs := hw.steady
    refine (ih (hs.updating.trans hu) fun g hgg => ?_).mono (fun result s' h => ?_) fun _ h => hw.trans h
    · rw [hs.claims]
      exact hg g (List.mem_cons_of_mem _ hgg)
    · exact ⟨.cons hp h₁ rfl h.1, hw.trans h.2⟩

/-! ## Handlers -/

/-- The turns of some pins: each pin with its input before and after the pass. At a pin's turn its handler is called if it has
one then that waits for the change. A pin that the extender does not have is passed over. -/
inductive Turns : List (Nat × Bool × Bool) → State → State → Prop where
  | nil {s : State} : Turns [] s s
  | skip {s s' : State} {pin : Nat} {was now : Bool} {turns : List (Nat × Bool × Bool)} :
      (pin < s.extender.claims.capacity → ∀ h, s.extender.handlers pin = some h → h.edge.matches was now = false) →
      Turns turns s s' → Turns ((pin, was, now) :: turns) s s'
  | call {s s₁ s' : State} {pin : Nat} {was now : Bool} {h : Handler} {turns : List (Nat × Bool × Bool)} :
      s.extender.handlers pin = some h → h.edge.matches was now = true →
      Nested ((s.seeing (.logged (.edge pin))).seeing (.called pin h)) s₁ → Turns turns s₁ s' →
      Turns ((pin, was, now) :: turns) s s'

/-- The turns of some pins of a group that has been read. -/
def Engine.Refresh.turnsOf (r : Refresh) (bits : List Nat) : List (Nat × Bool × Bool) :=
  bits.map fun bit => (8 * r.group + bit, r.was.getLsbD bit, r.now.getLsbD bit)

/-- The turns of all pins that have been read. -/
def Engine.Refresh.turns (rs : List Refresh) : List (Nat × Bool × Bool) := rs.flatMap (·.turnsOf (List.range 8))

/-- Turns of some pins and then of some more are turns of them all. -/
theorem Turns.append {turns turns' : List (Nat × Bool × Bool)} {s s₁ s' : State} (h : Turns turns s s₁)
    (h' : Turns turns' s₁ s') : Turns (turns ++ turns') s s' := by
  induction h with
  | nil => exact h'
  | skip hm _ ih => exact .skip hm (ih h')
  | call hh hm hn _ ih => exact .call hh hm hn (ih h')

/-- What happens in the turns of pins is that handlers are called. -/
theorem Turns.calls {turns : List (Nat × Bool × Bool)} {s s' : State} (h : Turns turns s s') : Calls s s' := by
  induction h with
  | nil => exact .refl
  | skip _ _ ih => exact ih
  | @call s s₁ s' pin _ _ h _ hh _ hn _ ih =>
    have hc : Calls s ((s.seeing (.logged (.edge pin))).seeing (.called pin h)) :=
      (Relation.ReflTransGen.single (.edge pin)).tail (.call pin h hh)
    exact (hc.trans hn.touched.calls).trans ih

/-- The turn of one pin: what `dispatchPin` gives. -/
theorem gives_dispatchPin (hn : Guest nest) (pin : Nat) (was now : Bool) {s : State} (hu : s.extender.updating = true) :
    (dispatchPin nest pin was now).Gives s (fun _ s' => Turns [(pin, was, now)] s s') (fun s' => Calls s s') := by
  rw [dispatchPin_eq]
  simp only [gives_bind, gives_extender]
  split
  · split
    · rename_i h hh
      split
      · rename_i hm
        unfold callHandler
        simp only [gives_bind, gives_log, gives_emit, gives_board]
        have hc : Calls s ((s.seeing (.logged (.edge pin))).seeing (.called pin h)) :=
          (Relation.ReflTransGen.single (.edge pin)).tail (.call pin h hh)
        refine (hn.gives _ ?_).mono (fun _ s₁ h₁ => .call hh hm h₁ .nil) fun _ h => hc.trans h.calls
        exact hu
      · rename_i hm
        refine .skip (fun _ h' hh' => ?_) .nil
        rw [hh] at hh'
        cases hh'
        exact Bool.eq_false_iff.2 hm
    · rename_i hnone
      exact .skip (fun _ h hh => (hnone h hh).elim) .nil
  · rename_i hno
    refine .skip (fun hpin h _ => ?_) .nil
    rw [Bool.and_eq_true, decide_eq_true_eq, not_and, bne_iff_ne] at hno
    obtain rfl : was = now := Decidable.not_not.1 fun hne => hno hne hpin
    exact h.edge.matches_self was

/-- The turns of the pins of one group: what `dispatchPins` gives. -/
theorem gives_dispatchPins (hn : Guest nest) (r : Refresh) {bits : List Nat} (hb : ∀ bit ∈ bits, bit < 8) {s : State}
    (hu : s.extender.updating = true) :
    (dispatchPins nest r bits).Gives s (fun _ s' => Turns (r.turnsOf bits) s s') (fun s' => Calls s s') := by
  induction bits generalizing s with
  | nil => exact .nil
  | cons bit bits ih =>
    rw [dispatchPins_cons _ _ (hb bit List.mem_cons_self), gives_bind]
    refine (gives_dispatchPin hn _ _ _ hu).mono (fun _ s₁ h₁ => ?_) fun _ h => h
    have hc := h₁.calls
    refine (ih (fun b h => hb b (List.mem_cons_of_mem bit h)) (hc.works.steady.updating.trans hu)).mono ?_ fun _ h => hc.trans h
    exact fun _ _ h => h₁.append h

/-- The turns of all pins that have been read: what `dispatch` gives. -/
theorem gives_dispatch (hn : Guest nest) (rs : List Refresh) {s : State} (hu : s.extender.updating = true) :
    (dispatch nest rs).Gives s (fun _ s' => Turns (Refresh.turns rs) s s') (fun s' => Calls s s') := by
  induction rs generalizing s with
  | nil => exact .nil
  | cons r rs ih =>
    unfold dispatch
    rw [gives_bind]
    refine (gives_dispatchPins hn _ (fun _ h => List.mem_range.1 h) hu).mono (fun _ s₁ h₁ => ?_) fun _ h => h
    have hc := h₁.calls
    exact (ih (hc.works.steady.updating.trans hu)).mono (fun _ _ h => h₁.append h) fun _ h => hc.trans h

end PortExpander
