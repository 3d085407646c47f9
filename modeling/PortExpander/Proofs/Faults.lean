import PortExpander.Proofs.Bounds
import PortExpander.Proofs.Recovery

/-!
# Where faults come from

A fault ends the step or the run of the worker that meets it, and the note of that end names it. Most faults would be the
extender's own: a sum or a shifted bit leaves its byte, something is divided by zero, an index is beyond the end of a table or
of a map, the lines are let go of while a pass holds them. What is looked up is there, as `Lookups` says, and the lines are let
go of only after the update before has been left. It remains that the place of a register is computed from bytes: if the
registers of all groups have places, no such fault happens, since the work of a pass looks for no others. The other faults are
provoked from outside, and the history says by what: an operation that panics has begun, handles of different extenders have been
given together, a run has been aborted, or more has been played than is provided for.

A computation is `Sturdy` if it meets no fault but such ones. It is so part by part, and the operations that fall into its middle are,
because what they do is sturdy, too.
-/

namespace PortExpander

open Sim Engine

/-! ## Places of registers -/

namespace Family

/-- Every register of each of the eight groups has a place. -/
def Spans (f : Family) (address : Byte) : Prop := ∀ g < 8, ∀ reg ∈ f.registers, ∃ place, f.locate address g reg = .ok place

/-- A chip has at least one bank, the last chip has an address, and the last bank of a chip has registers. -/
def Fits (f : Family) (address : Byte) : Prop :=
  8 ≤ f.pinsPerDevice ∧ address.toNat + 7 / f.registersPerDevice ≤ 255 ∧
    ∀ reg ∈ f.registers, reg.toNat + min f.registersPerDevice 8 - 1 ≤ 255

instance (f : Family) (address : Byte) : Decidable (f.Fits address) := inferInstanceAs (Decidable (_ ∧ _ ∧ _))

end Family

/-- A chip that fits has a place for every register of every group. -/
theorem Family.Fits.spans {f : Family} {address : Byte} (h : f.Fits address) : f.Spans address := by
  obtain ⟨hpins, haddress, hregisters⟩ := h
  have hpos : 0 < f.registersPerDevice := Nat.div_pos hpins (by decide)
  intro g hg reg hreg
  have hchip : g / f.registersPerDevice ≤ 7 / f.registersPerDevice := Nat.div_le_div_right (by omega)
  have hbank : g % f.registersPerDevice < min f.registersPerDevice 8 :=
    Nat.lt_min.2 ⟨Nat.mod_lt g hpos, Nat.lt_of_le_of_lt (Nat.mod_le g _) hg⟩
  have hregister := hregisters reg hreg
  rcases locate_cases hpos address g reg with ⟨place, hplace, -⟩ | ⟨hover, -⟩
  · exact ⟨place, hplace⟩
  · have hchip' := Nat.mod_le (g / f.registersPerDevice) 256
    have hbank' := Nat.mod_le (g % f.registersPerDevice) 256
    omega

/-! ## What provokes a fault -/

/-- Handles that are given together belong to different extenders. -/
def Op.Mixes : Op → Prop
  | .call (.setMany targets) => ∃ t ∈ targets, ∃ t' ∈ targets, t'.foreign ≠ t.foreign
  | _ => False

namespace History

/-- An operation has begun, on its own or in the middle of something. -/
def Began (h : History) (o : Op) : Prop := ∃ e, .noted (.opBegan o) e ∈ h ∨ .noted (.stepBegan (.op o)) e ∈ h

/-- By what has happened a fault is provoked from outside. -/
def Provokes (h : History) : Fault → Prop
  | .handlerPanic => h.Began .panic
  | .foreignPin => ∃ o, h.Began o ∧ o.Mixes
  | .runAborted | .stalled => True
  | .addOverflow | .shiftOverflow | .divideByZero | .indexOutOfBounds .. | .pinOutOfMap | .portLocked => False

/-- Every fault that is noted is provoked from outside. -/
def Blameless (h : History) : Prop := ∀ n e x, .noted n e ∈ h → n.fault? = some x → h.Provokes x

theorem Began.mono {h h' : History} {o : Op} (hb : h.Began o) (hs : h <:+ h') : h'.Began o := by
  obtain ⟨e, he⟩ := hb
  exact ⟨e, he.imp (hs.subset ·) (hs.subset ·)⟩

theorem Provokes.mono {h h' : History} {x : Fault} (hx : h.Provokes x) (hs : h <:+ h') : h'.Provokes x := by
  cases x with
  | handlerPanic => exact Began.mono hx hs
  | foreignPin =>
    obtain ⟨o, ho, hmix⟩ := hx
    exact ⟨o, ho.mono hs, hmix⟩
  | runAborted | stalled => exact trivial
  | _ => exact hx.elim

/-- One more event keeps a history blameless if the fault that it may note is provoked. -/
theorem Blameless.cons {h : History} (hb : h.Blameless) {ev : Event}
    (hev : ∀ n e x, ev = .noted n e → n.fault? = some x → History.Provokes (ev :: h) x) : Blameless (ev :: h) := by
  intro n e x hm hx
  rcases List.mem_cons.1 hm with heq | hm
  · exact hev n e x heq.symm hx
  · exact (hb n e x hm hx).mono (List.suffix_cons ev h)

end History

/-! ## Sturdy computations -/

variable {α β : Type}

namespace Sim

variable {s : State} {Q : α → State → Prop} {X : Fault → State → Prop}

/-- From a state, a computation gives a value and a state with `Q`, or ends in a fault and a state with `X` of that fault. -/
def Yields (m : Sim α) (s : State) (Q : α → State → Prop) (X : Fault → State → Prop) : Prop :=
  (∀ a, (m s).1 = .ok a → Q a (m s).2) ∧ ∀ x, (m s).1 = .error x → X x (m s).2

/-- Two computations in a row: what the first one yields the second one starts from, and its fault is the fault of both. -/
theorem yields_bind {m : Sim β} {k : β → Sim α} :
    (m >>= k).Yields s Q X ↔ m.Yields s (fun b s' => (k b).Yields s' Q X) X := by
  have hbind : (m >>= k) s = ExceptT.bind m k s := rfl
  unfold Yields
  rw [hbind]
  simp only [ExceptT.bind, ExceptT.mk, bind, StateT.bind]
  rcases m s with ⟨x | b, s'⟩
  · refine ⟨fun h => ⟨nofun, ?_⟩, fun h => ⟨nofun, ?_⟩⟩ <;> rintro _ ⟨⟩ <;> exact h.2 x rfl
  · refine ⟨fun h => ⟨?_, nofun⟩, fun h => h.1 b rfl⟩
    rintro _ ⟨⟩
    exact h

theorem Yields.mono {m : Sim α} {Q' : α → State → Prop} {X' : Fault → State → Prop} (h : m.Yields s Q' X')
    (hQ : ∀ a s', Q' a s' → Q a s') (hX : ∀ x s', X' x s' → X x s') : m.Yields s Q X :=
  ⟨fun a ha => hQ a _ (h.1 a ha), fun x hx => hX x _ (h.2 x hx)⟩

/-- A computation that ends in no fault. -/
theorem Gives.yields {m : Sim α} (h : m.Gives s Q fun _ => False) : m.Yields s Q X := by
  obtain ⟨a, s', hm, ha⟩ := h.exists_ok
  unfold Yields
  rw [hm]
  refine ⟨?_, nofun⟩
  rintro _ ⟨⟩
  exact ha

/-- What is known of the values and states that a computation gives may be added. -/
theorem Yields.and_gives {m : Sim α} {R : α → State → Prop} (h : m.Yields s Q X) (hr : m.Gives s R fun _ => True) :
    m.Yields s (fun a s' => Q a s' ∧ R a s') X := by
  refine ⟨fun a ha => ⟨h.1 a ha, ?_⟩, h.2⟩
  exact hr.of_ok (Prod.ext ha rfl)

/-- A value is no fault. -/
theorem yields_pure {a : α} (h : Q a s) : (pure a : Sim α).Yields s Q X := Gives.yields (gives_pure.2 h)

end Sim

/-- What a computation builds on: the family of the chips and their address, and what has happened before. -/
structure Footing where
  family : Family
  address : Byte
  past : History

/-- The extender is the one of a footing, what has happened goes on from it, and every fault so far has been provoked. -/
structure State.On (s : State) (c : Footing) : Prop where
  family : s.extender.family = c.family
  address : s.extender.address = c.address
  past : c.past <:+ s.history
  blameless : s.history.Blameless

namespace State.On

variable {s : State} {c : Footing}

/-- A change of the memory that leaves the chips as they are keeps the footing. -/
theorem amend (h : s.On c) {f : Extender → Extender} (hf : ∀ e, (f e).family = e.family ∧ (f e).address = e.address) :
    (s.amend f).On c :=
  ⟨(hf _).1.trans h.family, (hf _).2.trans h.address, h.past, h.blameless⟩

/-- No change of the board takes the footing away. -/
theorem onBoard (h : s.On c) (f : Board → Board) : (s.onBoard f).On c := ⟨h.family, h.address, h.past, h.blameless⟩

/-- An event keeps the footing if the fault that it may note is provoked. -/
theorem event (h : s.On c) {ev : Event} (hev : ∀ n e x, ev = .noted n e → n.fault? = some x → History.Provokes (ev :: s.history) x) :
    (s.seeing ev).On c :=
  ⟨h.family, h.address, h.past.trans (List.suffix_cons ev _), h.blameless.cons hev⟩

/-- An event that is no note keeps the footing. -/
theorem seeing (h : s.On c) {ev : Event} (hev : ev.isNote = false) : (s.seeing ev).On c := by
  refine h.event ?_
  rintro n e x rfl
  cases hev

/-- A note keeps the footing if its fault is provoked. -/
theorem noting (h : s.On c) {n : Note} (hn : ∀ x, n.fault? = some x → s.history.Provokes x) : (s.noting n).On c := by
  show (s.seeing (.noted n s.extender)).On c
  refine h.event ?_
  rintro _ _ x ⟨⟩ hx
  exact (hn x hx).mono (List.suffix_cons _ _)

/-- What comes after a state on a footing may build on all that has happened until then. -/
theorem here (h : s.On c) : s.On { c with past := s.history } := ⟨h.family, h.address, List.suffix_refl _, h.blameless⟩

/-- Who stands on a longer past stands on a shorter one. -/
theorem back {past : History} (h : s.On { c with past := past }) (hp : c.past <:+ past) : s.On c :=
  ⟨h.family, h.address, hp.trans h.past, h.blameless⟩

end State.On

/-- On a footing, a computation meets no fault that is not provoked from outside. -/
def Sim.Sturdy (c : Footing) (m : Sim α) : Prop :=
  ∀ s, s.On c → m.Yields s (fun _ s' => s'.On c) fun x s' => s'.On c ∧ s'.history.Provokes x

namespace Sim.Sturdy

variable {c : Footing}

/-- A computation that cannot fault and keeps the footing is sturdy. -/
theorem of_gives {m : Sim α} (h : ∀ s, s.On c → m.Gives s (fun _ s' => s'.On c) fun _ => False) : m.Sturdy c :=
  fun s hs => (h s hs).yields

theorem pure (a : α) : Sturdy c (Pure.pure a : Sim α) := of_gives fun _ hs => hs

theorem throw {x : Fault} (hx : c.past.Provokes x) : Sturdy c (MonadExcept.throw x : Sim α) := by
  intro s hs
  refine ⟨nofun, ?_⟩
  rintro _ ⟨⟩
  exact ⟨hs, hx.mono hs.past⟩

/-- Two computations in a row are sturdy if both are: the past of the first is the past of the second. -/
theorem bind {m : Sim β} {k : β → Sim α} (hm : Sturdy c m) (hk : ∀ b, Sturdy c (k b)) : Sturdy c (m >>= k) :=
  fun s hs => yields_bind.2 ((hm s hs).mono (fun b s' h => hk b s' h) fun _ _ h => h)

/-- A choice between two sturdy computations is sturdy. -/
theorem ite {p : Prop} [Decidable p] {m m' : Sim α} (h : Sturdy c m) (h' : Sturdy c m') : Sturdy c (if p then m else m') := by
  split
  · exact h
  · exact h'

/-- The extender is the one of the footing whenever its memory is looked at. -/
theorem extender_bind {k : Extender → Sim α}
    (hk : ∀ e : Extender, e.family = c.family → e.address = c.address → Sturdy c (k e)) : Sturdy c (Sim.extender >>= k) :=
  fun s hs => yields_bind.2 ((gives_extender (Q := fun e s' => (k e).Yields s' _ _) (X := fun _ => False)).2
    (hk s.extender hs.family hs.address s hs)).yields

theorem extender : Sturdy c Sim.extender := of_gives fun _ hs => hs

theorem board : Sturdy c Sim.board := of_gives fun _ hs => hs

/-- A change of the memory that leaves the chips as they are is sturdy. -/
theorem modifyExtender {f : Extender → Extender} (hf : ∀ e, (f e).family = e.family ∧ (f e).address = e.address) :
    Sturdy c (Sim.modifyExtender f) := of_gives fun _ hs => hs.amend hf

/-- A change of the board is sturdy. -/
theorem modifyBoard (f : Board → Board) : Sturdy c (Sim.modifyBoard f) := of_gives fun _ hs => hs.onBoard f

/-- An event that is no note is sturdy. -/
theorem emit {ev : Event} (h : ev.isNote = false) : Sturdy c (Sim.emit ev) := of_gives fun _ hs => hs.seeing h

/-- A record of the log is sturdy. -/
theorem log (r : LogRecord) : Sturdy c (Sim.log r) := emit rfl

/-- A notification of the worker is sturdy. -/
theorem notify : Sturdy c Sim.notify := emit rfl

/-- A note that names no fault is sturdy. -/
theorem note {n : Note} (hn : n.fault? = none) : Sturdy c (Sim.note n) := by
  refine of_gives fun _ hs => hs.noting fun x hx => ?_
  rw [hn] at hx
  cases hx

/-- A request for work is sturdy. -/
theorem request (bits : Status) : Sturdy c (Sim.request bits) :=
  Sturdy.bind (modifyExtender fun _ => ⟨rfl, rfl⟩) fun _ => note rfl

end Sim.Sturdy

/-! ## Passes -/

section

variable {c : Footing} {nest : Nest} (hc : c.family.Spans c.address) (hn : ∀ ops, (nest ops).Sturdy c)

namespace Engine

include hn

/-- A transaction is sturdy: its failure is an answer of the bus and not a fault. -/
theorem sturdy_transfer (a : Access) : (transfer nest a).Sturdy c := by
  have hrecord (r : Except BusKind Byte) : (record a r).Sturdy c := by
    cases r with
    | ok => exact .pure ()
    | error => exact Sturdy.extender.bind fun _ => Sturdy.bind (.modifyExtender fun _ => ⟨rfl, rfl⟩) fun _ => .log _
  have htransact : (transact nest a).Sturdy c :=
    Sturdy.board.bind fun _ => (Sturdy.modifyBoard _).bind fun _ => (hn _).bind fun _ => Sturdy.board.bind fun _ =>
      (Sturdy.modifyBoard _).bind fun _ => (Sturdy.emit rfl).bind fun _ => .pure _
  exact htransact.bind fun r => (hrecord r).bind fun _ => .pure r

include hc

omit hn in
/-- The place of a register of a group that there is exists. -/
theorem sturdy_locate {e : Extender} (hf : e.family = c.family) (ha : e.address = c.address) {g : Nat} {reg : Byte} (hg : g < 8)
    (hreg : reg ∈ c.family.registers) : (ofExcept (e.locate g reg) : Sim Place).Sturdy c := by
  obtain ⟨place, hplace⟩ := hc g hg reg hreg
  unfold Extender.locate
  rw [hf, ha, hplace]
  exact .pure place

/-- Writing a register of groups that there are. -/
theorem sturdy_writeGroups {reg : Byte} (hreg : reg ∈ c.family.registers) (value : Shadow → Nat → Byte) {groups : List Nat}
    (hg : ∀ g ∈ groups, g < 8) : (writeGroups nest reg value groups).Sturdy c := by
  induction groups with
  | nil => exact .pure true
  | cons g groups ih =>
    rw [writeGroups_cons _ _ _ (hg g List.mem_cons_self)]
    refine .extender_bind fun e hf ha => (sturdy_locate hc hf ha (hg g List.mem_cons_self) hreg).bind fun place => ?_
    exact (sturdy_transfer hn _).bind fun _ => (ih fun g' h => hg g' (List.mem_cons_of_mem g h)).bind fun _ => .pure _

/-- Reading the inputs of groups that there are. -/
theorem sturdy_readGroups {groups : List Nat} (hg : ∀ g ∈ groups, g < 8) : (readGroups nest groups).Sturdy c := by
  induction groups with
  | nil => exact .pure _
  | cons g groups ih =>
    rw [readGroups_cons _ (hg g List.mem_cons_self)]
    refine .extender_bind fun e hf ha => ?_
    have hreg : e.family.inputReg ∈ c.family.registers := hf ▸ List.mem_cons_self
    refine (sturdy_locate hc hf ha (hg g List.mem_cons_self) hreg).bind fun place => (sturdy_transfer hn _).bind fun _ => ?_
    refine Sturdy.extender.bind fun _ => Sturdy.bind (.modifyExtender fun _ => ⟨rfl, rfl⟩) fun _ => ?_
    exact (ih fun g' h => hg g' (List.mem_cons_of_mem g h)).bind fun _ => .pure _

/-- The part of a pass that writes the configuration: the groups with claimed pins are among the eight. -/
theorem sturdy_syncConfig : (syncConfig nest).Sturdy c := by
  have hgroups (mask : Byte) : ∀ g ∈ mask.groups, g < 8 := fun g hg => Byte.lt_of_mem_groups hg
  have hpolarities (mask : Byte) : (writePolarities nest c.family mask.groups).Sturdy c := by
    unfold writePolarities
    split
    · rename_i reg hreg
      exact sturdy_writeGroups hc hn (List.mem_cons_of_mem _ (Family.polarity_mem hreg)) _ (hgroups mask)
    · exact .pure true
  refine .extender_bind fun e hf _ => Sturdy.bind (hf ▸ hpolarities _) fun _ => ?_
  have hreg : e.family.configReg ∈ c.family.registers := hf ▸ List.mem_cons_of_mem _ (Family.config_mem _)
  exact (sturdy_writeGroups hc hn hreg _ (hgroups _)).bind fun _ =>
    Sturdy.bind (.modifyExtender fun _ => ⟨rfl, rfl⟩) fun _ => .pure _

/-- The part of a pass that writes the outputs: the dirty groups are among the eight. -/
theorem sturdy_syncWrites : (syncWrites nest).Sturdy c := by
  refine .extender_bind fun e hf _ => Sturdy.bind (.modifyExtender fun _ => ⟨rfl, rfl⟩) fun _ => ?_
  have hreg : e.family.outputReg ∈ c.family.registers := hf ▸ List.mem_cons_of_mem _ (Family.output_mem _)
  exact sturdy_writeGroups hc hn hreg _ fun g hg => Byte.lt_of_mem_groups hg

omit hc in
/-- Calling handlers is sturdy: a handler may fault only by what it lets fall in. -/
theorem sturdy_dispatch (refreshes : List Refresh) : (dispatch nest refreshes).Sturdy c := by
  have hpin (pin : Nat) (was now : Bool) : (dispatchPin nest pin was now).Sturdy c := by
    rw [dispatchPin_eq]
    refine Sturdy.extender.bind fun e => .ite ?_ (.pure ())
    split
    · refine .ite ((Sturdy.log _).bind fun _ => (Sturdy.emit rfl).bind fun _ => Sturdy.board.bind fun _ => hn _) (.pure ())
    · exact .pure ()
  have hpins (r : Refresh) {bits : List Nat} (hb : ∀ bit ∈ bits, bit < 8) : (dispatchPins nest r bits).Sturdy c := by
    induction bits with
    | nil => exact .pure ()
    | cons bit bits ih =>
      rw [dispatchPins_cons _ _ (hb bit List.mem_cons_self)]
      exact (hpin _ _ _).bind fun _ => ih fun b h => hb b (List.mem_cons_of_mem bit h)
  induction refreshes with
  | nil => exact .pure ()
  | cons r rs ih => exact (hpins r fun _ => List.mem_range.1).bind fun _ => ih

/-- The part of a pass that reads the inputs and calls the handlers. -/
theorem sturdy_readInputs (groups : Byte) : (readInputs nest groups).Sturdy c := by
  have hrearm : rearm.Sturdy c := by
    refine .modifyExtender fun e => ?_
    cases e.engine <;> exact ⟨rfl, rfl⟩
  have hreads : (syncReads nest groups).Sturdy c := by
    refine .extender_bind fun e _ _ => ?_
    exact (sturdy_readGroups hc hn fun g hg => Byte.lt_of_mem_groups hg).bind fun _ =>
      (sturdy_dispatch hn _).bind fun _ => .pure _
  exact hreads.bind fun _ => hrearm.bind fun _ => .pure _

omit hc hn in
/-- Looking for what a pass has to do: every chip number in the queue has its bit. -/
theorem sturdy_gather (pending : Status) : (gather pending).Sturdy c := by
  have hlook (m : Sampler) : (sampleLine m).Sturdy c := by
    have hsample : (sample 0).Sturdy c := Sturdy.board.bind fun _ => (Sturdy.emit rfl).bind fun _ => .pure _
    exact hsample.bind fun _ => Sturdy.bind (.modifyExtender fun _ => ⟨rfl, rfl⟩) fun _ => .pure _
  rw [gather_eq]
  refine .extender_bind fun e _ _ => ?_
  split
  · exact .ite ((hlook _).bind fun _ => .pure _) (.pure _)
  · exact Sturdy.bind (.modifyExtender fun _ => ⟨rfl, rfl⟩) fun _ => .pure _

/-- A whole pass over what is pending. -/
theorem sturdy_service (pending : Status) : (service nest pending).Sturdy c := by
  have hasked {asked : Bool} {part : Sim Bool} (h : part.Sturdy c) : (ifAsked asked part).Sturdy c := .ite h (.pure true)
  have hcomplete (clean : Bool) : (complete clean).Sturdy c := by
    cases clean with
    | true => exact Sturdy.bind (.modifyExtender fun _ => ⟨rfl, rfl⟩) fun _ => .note rfl
    | false =>
      exact Sturdy.bind (.modifyExtender fun _ => ⟨rfl, rfl⟩) fun _ => (Sturdy.request _).bind fun _ => .note rfl
  exact (Sturdy.note rfl).bind fun _ => (sturdy_gather pending).bind fun _ => (hasked (sturdy_syncConfig hc hn)).bind fun _ =>
    (hasked (sturdy_syncWrites hc hn)).bind fun _ => (hasked (sturdy_readInputs hc hn _)).bind fun _ => hcomplete _

/-- What an update does once it has the guard. -/
theorem sturdy_attempt : (attempt nest).Sturdy c := by
  have htake : take.Sturdy c :=
    Sturdy.extender.bind fun _ => Sturdy.bind (.modifyExtender fun _ => ⟨rfl, rfl⟩) fun _ => (Sturdy.note rfl).bind fun _ => .pure _
  have hhalt : halt.Sturdy c :=
    Sturdy.bind (.modifyExtender fun _ => ⟨rfl, rfl⟩) fun _ => Sturdy.extender.bind fun _ => .log _
  have hrelease : release.Sturdy c := .modifyExtender fun _ => ⟨rfl, rfl⟩
  refine Sturdy.extender.bind fun _ => .ite (.pure _) (htake.bind fun taken => Sturdy.extender.bind fun e => ?_)
  refine .ite (hhalt.bind fun _ => .pure _) (.ite (hrelease.bind fun _ => .pure _) ?_)
  have hserve : (do service nest (taken ∪ e.standing); release; return .ran : Sim Pass).Sturdy c :=
    (sturdy_service hc hn _).bind fun _ => hrelease.bind fun _ => .pure _
  dsimp only
  split
  · exact (Sturdy.log _).bind fun _ => hserve
  · exact hserve

/-- A fault that cuts a pass short has been provoked already when the next pass is let begin. -/
theorem sturdy_update : (update nest).Sturdy c := by
  have hlet : (lettingGo (attempt nest)).Sturdy c := by
    intro s hs
    have h := sturdy_attempt hc hn s hs
    have hgo {s' : State} (h' : s'.On c) : (letGo s').On c := h'.amend (f := ({ · with updating := false })) fun _ => ⟨rfl, rfl⟩
    unfold Yields at h ⊢
    unfold lettingGo
    revert h
    rcases attempt nest s with ⟨x | p, s'⟩
    · refine fun h => ⟨nofun, ?_⟩
      rintro _ ⟨⟩
      obtain ⟨hon, hx⟩ := h.2 x rfl
      exact ⟨(hgo hon).noting nofun, hx.mono (List.suffix_cons _ _)⟩
    · refine fun h => ⟨?_, nofun⟩
      rintro _ ⟨⟩
      exact hgo (h.1 p rfl)
  refine Sturdy.extender.bind fun _ => .ite ((Sturdy.note rfl).bind fun _ => .pure _) ?_
  exact Sturdy.bind (.modifyExtender fun _ => ⟨rfl, rfl⟩) fun _ => hlet.bind fun _ => (Sturdy.note rfl).bind fun _ => .pure _

omit hc hn in
/-- Whatever operations fall into an update that finds no other pass at work, it leaves none at work. -/
theorem gives_update_frees (nest : Nest) (s : State) :
    (update nest).Gives s (fun p s' => p = .contended ∨ s'.extender.updating = false) fun _ => True := by
  unfold update
  rw [gives_bind, gives_extender]
  split
  · rw [gives_bind, gives_note]
    exact gives_pure.2 (.inl rfl)
  · simp only [gives_bind, gives_modifyExtender, gives_lettingGo, gives_note, gives_pure]
    exact (gives_true _ _).mono (fun _ _ _ => .inr rfl) fun _ h => h

/-! ## The worker -/

omit hc in
/-- A pause lets fall in what is due, and a run that is aborted there is aborted from outside. -/
theorem sturdy_pause : (pause nest).Sturdy c := by
  refine Sturdy.board.bind fun b => ?_
  split
  · exact .pure ()
  · split
    · exact .throw trivial
    · exact (Sturdy.modifyBoard _).bind fun _ => hn _

omit hc in
/-- The time between two attempts is a pause. -/
theorem sturdy_delay (ms : Nat) : (delay nest ms).Sturdy c := (Sturdy.emit rfl).bind fun _ => sturdy_pause hn

omit hc in
/-- Waiting for work is a pause. -/
theorem sturdy_awaitWork : (awaitWork nest).Sturdy c := by
  refine (Sturdy.note rfl).bind fun _ => Sturdy.board.bind fun b => Sturdy.bind (.emit ?_) fun _ => sturdy_pause hn
  split <;> rfl

/-- The worker is sturdy: a run that makes more rounds than are provided for stalls. -/
theorem sturdy_work : (work nest).Sturdy c := by
  have hrest : (rest nest).Sturdy c := by
    have hback : (backOff nest).Sturdy c :=
      Sturdy.extender.bind fun _ => .ite ((Sturdy.note rfl).bind fun _ => sturdy_delay hn _) (.pure ())
    exact hback.bind fun _ => Sturdy.extender.bind fun _ => .ite (sturdy_awaitWork hn) (.pure ())
  have hrounds (left : Nat) : (rounds nest left).Sturdy c := by
    induction left with
    | zero => exact .throw trivial
    | succ left ih =>
      refine (sturdy_update hc hn).bind fun p => ?_
      cases p with
      | stopped => exact .pure ()
      | contended => exact (sturdy_awaitWork hn).bind fun _ => ih
      | idle | ran => exact hrest.bind fun _ => ih
  have hstart : workerStarted.Sturdy c := Sturdy.board.bind fun _ => .ite (.emit rfl) (.pure ())
  exact hstart.bind fun _ => Sturdy.extender.bind fun _ => (Sturdy.log _).bind fun _ => (Sturdy.request _).bind fun _ =>
    Sturdy.board.bind fun _ => hrounds _

/-- A shutdown lets go of the lines when no pass holds them, so they are not locked. -/
theorem sturdy_shutdown : (shutdown nest).Sturdy c := by
  have hlines (lines : List Nat) : Sturdy c (lines.forM fun line => emit (.released line)) := by
    induction lines with
    | nil => exact .pure ()
    | cons line lines ih => exact (Sturdy.emit rfl).bind fun _ => ih
  -- the lines are behind a lock, so it matters that the update before has let go of it
  have hrelease {s : State} (hs : s.On c) (hu : s.extender.updating = false) :
      (do releaseLines; return true : Sim Bool).Yields s (fun _ s' => s'.On c) fun x s' => s'.On c ∧ s'.history.Provokes x := by
    unfold releaseLines
    rw [bind_assoc, yields_bind]
    refine Gives.yields (gives_extender.2 ?_)
    rw [if_neg (Bool.eq_false_iff.1 hu)]
    have hnone : Sturdy c (modifyExtender ({ · with lines := .none })) := .modifyExtender fun _ => ⟨rfl, rfl⟩
    exact ((hnone.bind fun _ => hlines s.extender.lines.toList).bind fun _ => .pure true) s hs
  have hhalt (left : Nat) : (awaitHalt nest left).Sturdy c := by
    induction left with
    | zero => exact Sturdy.extender.bind fun _ => (Sturdy.log _).bind fun _ => .pure _
    | succ left ih =>
      intro s hs
      unfold awaitHalt
      refine yields_bind.2 (((sturdy_update hc hn s hs).and_gives (gives_update_frees nest s)).mono (fun p s₁ h => ?_) fun _ _ h => h)
      split
      · rename_i hp
        exact hrelease h.1 (h.2.resolve_left (by rw [hp]; exact Pass.noConfusion))
      · exact ((sturdy_delay hn _).bind fun _ => ih) s₁ h.1
  exact (Sturdy.request _).bind fun _ => Sturdy.notify.bind fun _ => hhalt _

end Engine

end

/-! ## Calls of clients -/

/-- On a footing, an attempt meets no fault that is not provoked from outside. It may be refused. -/
def Attempt.Sturdy (c : Footing) (m : Attempt α) : Prop := Sim.Sturdy c m.run

namespace Attempt.Sturdy

variable {c : Footing}

/-- A sturdy computation, as an attempt. -/
theorem lift {m : Sim α} (hm : m.Sturdy c) : Sturdy c (liftM m : Attempt α) := by
  unfold Sturdy
  rw [show ExceptT.run (liftM m : Attempt α) = m >>= fun a => Pure.pure (.ok a) from (ExceptT.run_lift m).trans (map_eq_pure_bind _ _)]
  exact hm.bind fun _ => .pure _

/-- Two attempts in a row are sturdy if both are. -/
theorem bind {m : Attempt β} {k : β → Attempt α} (hm : Sturdy c m) (hk : ∀ b, Sturdy c (k b)) : Sturdy c (m >>= k) := by
  unfold Sturdy
  rw [ExceptT.run_bind]
  refine Sim.Sturdy.bind hm fun r => ?_
  cases r with
  | ok b => exact hk b
  | error e => exact .pure _

theorem pure (a : α) : Sturdy c (Pure.pure a : Attempt α) := Sim.Sturdy.pure _

/-- A check is sturdy: a refusal is not a fault. -/
theorem check (r : Except Error α) : Sturdy c (ofExcept r : Attempt α) := by
  cases r <;> exact Sim.Sturdy.pure _

/-- To look at the memory and go on by what was seen. -/
theorem extender_bind {k : Extender → Attempt α} (hk : ∀ e, Sturdy c (k e)) :
    Sturdy c ((liftM Sim.extender : Attempt Extender) >>= k) := (lift .extender).bind hk

end Attempt.Sturdy

section

variable {c : Footing} {nest : Nest}

namespace Client

/-- The check that the extender has not been stopped. -/
theorem sturdy_ensureRunning : ensureRunning.Sturdy c := by
  refine .extender_bind fun e => ?_
  split <;> exact Sim.Sturdy.pure _

/-- Polling is brought up to date without a fault. -/
theorem sturdy_updatePolling : updatePolling.Sturdy c := by
  refine Sim.Sturdy.extender.bind fun e => ?_
  split <;> exact Sim.Sturdy.bind (.modifyExtender fun _ => ⟨rfl, rfl⟩) fun _ => .ite (.log _) (.pure ())

/-- Removing a handler: its pin has a slot. -/
theorem sturdy_removeHandler (pin : Nat) : (removeHandler pin).Sturdy c :=
  Sim.Sturdy.bind (.modifyExtender fun _ => ⟨rfl, rfl⟩) fun _ => sturdy_updatePolling

/-- Freeing a pin: one beyond the capacity is passed over before its slot is looked for. -/
theorem sturdy_free (pin : Nat) : (free pin).Sturdy c := by
  have hclaims : Sim.Sturdy c (modifyExtender fun e => { e with claims := e.claims.free pin }) :=
    .modifyExtender fun _ => ⟨rfl, rfl⟩
  rw [free_eq]
  exact Sim.Sturdy.extender.bind fun e => .ite ((sturdy_removeHandler pin).bind fun _ => hclaims) hclaims

/-- A claim: its bit is in the map, for the capacity is. -/
theorem sturdy_claim (pin : Nat) : (claim pin).Sturdy c := by
  rw [claim_eq]
  exact sturdy_ensureRunning.bind fun _ => .extender_bind fun _ => (Attempt.Sturdy.check _).bind fun _ =>
    .lift (.modifyExtender fun _ => ⟨rfl, rfl⟩)

/-- A write: the bit of its pin is in the map. -/
theorem sturdy_write (pin : Nat) (high : Bool) : (write pin high).Sturdy c := by
  rw [write_eq]
  exact sturdy_ensureRunning.bind fun _ => .extender_bind fun _ => (Attempt.Sturdy.check _).bind fun _ =>
    .lift (.modifyExtender fun _ => ⟨rfl, rfl⟩)

/-- A setup: the bits of its pin are in the maps. -/
theorem sturdy_setup (pin : Nat) (attrs : PinAttributes) : (setup pin attrs).Sturdy c := by
  rw [setup_eq]
  exact sturdy_ensureRunning.bind fun _ => .extender_bind fun _ => (Attempt.Sturdy.check _).bind fun _ =>
    Attempt.Sturdy.bind (.lift (.modifyExtender fun _ => ⟨rfl, rfl⟩)) fun _ =>
      (Attempt.Sturdy.lift (.request _)).bind fun _ => .lift .notify

/-- Attaching a handler: its pin has a slot and bits in the maps. -/
theorem sturdy_attach (pin : Nat) (handler : Handler) : (attach pin handler).Sturdy c := by
  rw [attach_eq]
  exact sturdy_ensureRunning.bind fun _ => .extender_bind fun _ => (Attempt.Sturdy.check _).bind fun _ =>
    (Attempt.Sturdy.check _).bind fun _ => Attempt.Sturdy.bind (.lift (.modifyExtender fun _ => ⟨rfl, rfl⟩)) fun _ =>
      (Attempt.Sturdy.lift sturdy_updatePolling).bind fun _ => (Attempt.Sturdy.lift (.request _)).bind fun _ => .lift .notify

/-- Detaching a handler: its pin has a slot. -/
theorem sturdy_detach (pin : Nat) : (detach pin).Sturdy c := by
  rw [detach_eq]
  exact .extender_bind fun _ => (Attempt.Sturdy.check _).bind fun _ => .lift (sturdy_removeHandler pin)

/-- An interrupt: one of a chip that there is not, or of a full queue, is told to all chips. -/
theorem sturdy_interrupt (line : Nat) : (interrupt line).Sturdy c := by
  have hqueue : (enqueue line).Sturdy c := by
    refine Sim.Sturdy.extender.bind fun e => ?_
    split
    · exact .pure ()
    · split
      · exact .modifyExtender fun _ => ⟨rfl, rfl⟩
      · exact .request _
  exact hqueue.bind fun _ => (Sim.Sturdy.request _).bind fun _ => .notify

variable (hc : c.family.Spans c.address) (hn : ∀ ops, (nest ops).Sturdy c)

include hc hn

/-- A pass that a client runs. -/
theorem sturdy_syncPass : (syncPass nest).Sturdy c := by
  refine Sim.Sturdy.board.bind fun _ => .ite (.pure ()) ((sturdy_update hc hn).bind fun p => ?_)
  exact .ite (sturdy_delay hn _) (.pure ())

/-- A flush is a request and a pass. -/
theorem sturdy_flush : (flush nest).Sturdy c :=
  sturdy_ensureRunning.bind fun _ => Attempt.Sturdy.bind (.lift (.modifyExtender fun _ => ⟨rfl, rfl⟩)) fun _ =>
    (Attempt.Sturdy.lift (.request _)).bind fun _ => (Attempt.Sturdy.lift .notify).bind fun _ => .lift (sturdy_syncPass hc hn)

/-- A reading finds the chip and the bit of its pin. -/
theorem sturdy_read (pin : Nat) : (read nest pin).Sturdy c := by
  have hrequest : (requestInput pin).Sturdy c := by
    refine Sim.Sturdy.extender.bind fun e => ?_
    split
    · exact (Sim.Sturdy.request _).bind fun _ => .notify
    · exact sturdy_interrupt _
  have hrefresh : (refresh nest pin).Sturdy c :=
    Sim.Sturdy.extender.bind fun _ => .ite (hrequest.bind fun _ => sturdy_syncPass hc hn) (.pure ())
  rw [read_eq]
  exact sturdy_ensureRunning.bind fun _ => .extender_bind fun _ => (Attempt.Sturdy.check _).bind fun _ =>
    (Attempt.Sturdy.lift hrefresh).bind fun _ => .extender_bind fun _ => .pure _

/-! ### Several outputs -/

omit hc hn in
/-- Writing several outputs meets a fault only where a handle does not belong with the others, and keeps what every single write
keeps. -/
theorem yields_writeEach {P : State → Prop}
    (hP : ∀ s pin high, P s → P (s.amend fun e => { e with shadow := e.shadow.write pin high })) (foreign : Bool)
    (targets : List Target) {s : State} (hs : P s) : (writeEach foreign targets).run.Yields s (fun _ s' => P s')
      fun x s' => P s' ∧ x = .foreignPin ∧ ∃ t ∈ targets, t.foreign ≠ foreign := by
  induction targets generalizing s with
  | nil => exact Gives.yields (gives_pure.2 hs)
  | cons t ts ih =>
    unfold writeEach
    dsimp only
    split
    · refine ⟨?_, ?_⟩ <;> rintro _ ⟨⟩
      exact ⟨hs, rfl, t, List.mem_cons_self, bne_iff_ne.1 ‹_›⟩
    · have hwrite : (write t.pin t.high).run.Gives s (fun _ s' => P s') fun _ => False := by
        refine Sim.Gives.mono (gives_write s t.pin t.high) (fun r s' h => ?_) fun _ h => h
        cases r with
        | ok =>
          obtain ⟨-, -, rfl⟩ := h
          exact hP s t.pin t.high hs
        | error e =>
          obtain ⟨-, rfl⟩ := h
          exact hs
      rw [ExceptT.run_bind, yields_bind]
      refine (hwrite.yields (X := fun _ _ => False)).mono (fun r s₁ h₁ => ?_) fun _ _ h => h.elim
      cases r with
      | ok =>
        refine (ih h₁).mono (fun _ _ h => h) fun x s' h => ?_
        obtain ⟨hs', hx, t', ht', hne⟩ := h
        exact ⟨hs', hx, t', List.mem_cons_of_mem t ht', hne⟩
      | error e => exact Gives.yields (gives_pure.2 h₁)

omit hc hn in
/-- The history goes on from a call of the spare extender with no note of it. -/
theorem on_backFrom {s : State} (hs : s.On c) (s' : State) : (backFrom s s').On c := by
  have hsuffix : s.history <:+ (backFrom s s').history := List.suffix_append _ _
  refine ⟨hs.family, hs.address, hs.past.trans hsuffix, fun n e x hm hx => ?_⟩
  rcases List.mem_append.1 hm with hm | hm
  · exact absurd (List.mem_filter.1 hm).2 Bool.false_ne_true
  · exact (hs.blameless n e x hm hx).mono hsuffix

/-- Giving several outputs their levels meets no fault if their handles belong to one extender. -/
theorem sturdy_setMany {targets : List Target} (ho : c.past.Began (.call (.setMany targets))) : (setMany nest targets).Sturdy c := by
  cases targets with
  | nil => exact Attempt.Sturdy.pure ()
  | cons first rest =>
    have hmixed (h : ∃ t ∈ first :: rest, t.foreign ≠ first.foreign) : c.past.Provokes .foreignPin := by
      obtain ⟨t, ht, hne⟩ := h
      exact ⟨_, ho, first, List.mem_cons_self, t, ht, hne⟩
    unfold setMany
    dsimp only
    split
    · intro s hs
      -- the spare extender has no claimed pins, so flushing it meets no fault
      have hspare : (do writeEach first.foreign (first :: rest)
                        flush nest : Attempt Unit).run.Yields { s with extender := spare, history := [] } (fun _ _ => True)
          fun x _ => x = .foreignPin ∧ ∃ t ∈ first :: rest, t.foreign ≠ first.foreign := by
        rw [ExceptT.run_bind, yields_bind]
        refine (yields_writeEach (P := fun s' => ∃ sh, s' = ⟨spareWith sh, s.board, []⟩) ?_ first.foreign (first :: rest)
          ⟨.empty, rfl⟩).mono (fun r s₁ h₁ => ?_) fun _ _ h => h.2
        · rintro _ pin high ⟨sh, rfl⟩
          exact ⟨sh.write pin high, rfl⟩
        · obtain ⟨sh, rfl⟩ := h₁
          cases r with
          | ok => exact Gives.yields (Sim.Gives.mono (gives_flush_spare sh _ _) (fun _ _ _ => trivial) fun _ h => h)
          | error e => exact Gives.yields (gives_pure.2 trivial)
      refine ⟨fun _ _ => on_backFrom hs _, fun x hx => ⟨on_backFrom hs _, ?_⟩⟩
      obtain ⟨rfl, hmix⟩ := hspare.2 x hx
      exact (hmixed hmix).mono (on_backFrom hs _).past
    · refine Attempt.Sturdy.bind (fun s hs => ?_) fun _ => sturdy_flush hc hn
      refine (yields_writeEach (fun _ _ _ h => h.amend fun _ => ⟨rfl, rfl⟩) first.foreign (first :: rest) hs).mono
        (fun _ _ h => h) fun x s' h => ⟨h.1, ?_⟩
      rw [h.2.1]
      exact (hmixed h.2.2).mono h.1.past

end Client

end

/-! ## Operations and steps -/

/-- On a footing, a computation meets no fault that is not provoked from outside, and answers with no other. -/
def Sim.Answers (c : Footing) (m : Sim Reply) : Prop :=
  ∀ s, s.On c → m.Yields s (fun r s' => s'.On c ∧ ∀ x, r = .fault x → s'.history.Provokes x)
    fun x s' => s'.On c ∧ s'.history.Provokes x

section

variable {c : Footing}

/-- An answer that is never a fault. -/
theorem Sim.Sturdy.answers {m : Sim α} (hm : m.Sturdy c) (reply : α → Reply) (hr : ∀ a x, reply a ≠ .fault x) :
    Sim.Answers c (do return reply (← m)) :=
  fun s hs => yields_bind.2 ((hm s hs).mono (fun a _ h => Gives.yields (gives_pure.2 ⟨h, fun x hx => (hr a x hx).elim⟩)) fun _ _ h => h)

/-- What a sturdy attempt answers names a fault only if the fault is provoked. -/
theorem Attempt.Sturdy.answers {m : Attempt α} (hm : m.Sturdy c) (reply : α → Reply) (hr : ∀ a x, reply a ≠ .fault x) :
    (Session.answering (do return reply (← m))).Answers c := by
  intro s hs
  unfold Session.answering
  rw [ExceptT.run_bind, yields_bind, yields_bind]
  refine (hm s hs).mono (fun r s' h => ?_) fun _ _ h => h
  cases r with
  | ok a =>
    show (Pure.pure (Except.ok (reply a)) : Sim (Except Error Reply)).Yields _ _ _
    refine yields_pure ?_
    exact yields_pure ⟨h, fun x hx => (hr a x hx).elim⟩
  | error e =>
    show (Pure.pure (Except.error e) : Sim (Except Error Reply)).Yields _ _ _
    refine yields_pure ?_
    exact yields_pure ⟨h, nofun⟩

end

namespace Session

variable {c : Footing} {nest : Nest} (hc : c.family.Spans c.address) (hn : ∀ ops, (nest ops).Sturdy c)

include hc hn

/-- Every call of a client answers so, once it has begun. -/
theorem answers_call {call : Call} (ho : c.past.Began (.call call)) : (perform nest (.call call)).Answers c := by
  have hdone {m : Attempt Unit} (h : m.Sturdy c) : (answering (do m; return .done)).Answers c := h.answers (fun _ => .done) nofun
  have hbit {m : Attempt Bool} (h : m.Sturdy c) : (answering (do return .bit (← m))).Answers c := h.answers .bit nofun
  have hflush := Client.sturdy_flush hc hn
  cases call with
  | setup pin attrs => exact hdone (Client.sturdy_setup pin attrs)
  | write pin high => exact hdone (Client.sturdy_write pin high)
  | read pin => exact hbit (Client.sturdy_read hc hn pin)
  | flush => exact hdone hflush
  | attach pin handler => exact hdone (Client.sturdy_attach pin handler)
  | detach pin => exact hdone (Client.sturdy_detach pin)
  | interrupt line => exact hdone (.lift (Client.sturdy_interrupt line))
  | set pin high => exact hdone ((Client.sturdy_write pin high).bind fun _ => hflush)
  | get pin high => exact hbit ((Client.sturdy_read hc hn pin).bind fun _ => .pure _)
  | setMany targets => exact hdone (Client.sturdy_setMany hc hn ho)

/-- A fault that ends a run of the worker is its answer. -/
theorem answers_runWorker (ticks : List (List Op)) : (runWorker nest ticks).Answers c := by
  refine fun s hs => Gives.yields ?_
  unfold runWorker
  simp only [gives_bind, gives_board, gives_modifyBoard, gives_outcome]
  have hwork := sturdy_work hc hn _ (hs.onBoard ({ · with agenda := some (.new ticks) }))
  unfold Yields at hwork
  revert hwork
  rcases work nest (s.onBoard ({ · with agenda := some (.new ticks) })) with ⟨f | _, s₁⟩
  · intro h
    obtain ⟨hon, hf⟩ := h.2 f rfl
    refine gives_pure.2 ⟨hon.onBoard _, ?_⟩
    rintro _ ⟨⟩
    exact hf
  · exact fun h => gives_pure.2 ⟨(h.1 () rfl).onBoard _, fun _ => Reply.noConfusion⟩

/-- Every operation answers so, once it has begun. -/
theorem answers_perform {o : Op} (ho : c.past.Began o) : (perform nest o).Answers c := by
  cases o with
  | call => exact answers_call hc hn ho
  | update => exact (sturdy_update hc hn).answers .pass nofun
  | shutdown => exact (sturdy_shutdown hc hn).answers .bit nofun
  | run ticks => exact answers_runWorker hc hn ticks
  | info => exact Sturdy.extender.answers (fun e => .info e.info) nofun
  | indexOf pin => exact (Sturdy.pure ()).answers (fun _ => .index pin) nofun
  | change ch => exact (Sturdy.modifyBoard (·.change ch)).answers (fun _ => .done) nofun
  | peek place => exact Sturdy.board.answers (fun b => .content (b.peek place)) nofun
  | hook after ops => exact (Sturdy.modifyBoard (·.hook after ops)).answers (fun _ => .done) nofun
  | handler argument ops => exact (Sturdy.modifyBoard (·.script argument ops)).answers (fun _ => .done) nofun
  | panic =>
    refine fun s hs => ⟨nofun, ?_⟩
    rintro _ ⟨⟩
    exact ⟨hs, ho.mono hs.past⟩

omit hc hn in
/-- Operations that are played one by one are sturdy if each of them, once begun, answers so. -/
theorem sturdy_playAll {play : Op → Sim Reply} (hplay : ∀ past o, History.Began past o → (play o).Answers { c with past })
    (ops : List Op) : (playAll play ops).Sturdy c := by
  induction ops with
  | nil => exact .pure ()
  | cons op ops ih =>
    intro s hs
    have hbegan : (s.noting (.opBegan op)).On c := hs.noting nofun
    unfold playAll
    rw [yields_bind]
    refine Gives.yields (gives_note.2 (yields_bind.2 ?_))
    refine (hplay _ op ⟨s.extender, .inl List.mem_cons_self⟩ _ hbegan.here).mono (fun r s₁ h => yields_bind.2 ?_)
      fun _ _ h => ⟨h.1.back hbegan.past, h.2⟩
    refine Gives.yields (gives_note.2 (ih _ ((h.1.back hbegan.past).noting fun x hx => h.2 x ?_)))
    cases r <;> cases hx
    rfl

omit hn in
/-- Operations that lie within one another to any depth are sturdy. -/
theorem sturdy_nestAt (depth : Nat) (ops : List Op) : (nestAt depth ops).Sturdy c := by
  induction depth generalizing c ops with
  | zero =>
    cases ops with
    | nil => exact .pure ()
    | cons op ops => exact .throw trivial
  | succ depth ih =>
    cases ops with
    | nil => exact .pure ()
    | cons op ops =>
      refine Sturdy.board.bind fun b => (Sturdy.modifyBoard _).bind fun _ => Sturdy.bind (sturdy_playAll ?_ _) fun _ => .modifyBoard _
      exact fun past o ho => answers_perform (c := { c with past }) hc (fun ops => ih (c := { c with past }) hc ops) ho

end Session

/-- A step that a session plays ends in no fault that is not provoked from outside. -/
theorem State.on_step {c : Footing} (hc : c.family.Spans c.address) {s : State} (hs : s.On c) (depth : Nat) (step : Step) :
    (s.step (Session.nestAt depth) step).2.On c := by
  have hbegan : (s.noting (.stepBegan step)).On c := hs.noting nofun
  have hn (past : History) (ops : List Op) : (Session.nestAt depth ops).Sturdy { c with past } :=
    Session.sturdy_nestAt (c := { c with past }) hc depth ops
  have hperform : (step.perform (Session.nestAt depth)).Answers { c with past := (s.noting (.stepBegan step)).history } := by
    cases step with
    | claim pin => exact (Client.sturdy_claim pin).answers (fun _ => .done) nofun
    | free pin => exact (Client.sturdy_free pin).answers (fun _ => .done) nofun
    | op o =>
      have ho : History.Began (s.noting (.stepBegan (.op o))).history o := ⟨s.extender, .inr List.mem_cons_self⟩
      exact Session.answers_perform (c := { c with past := (s.noting (.stepBegan (.op o))).history }) hc (hn _) ho
  have hend (s₁ : State) (r : Reply) (h : s₁.On { c with past := (s.noting (.stepBegan step)).history })
      (hr : ∀ x, r = .fault x → s₁.history.Provokes x) : (s₁.over step r).On c := by
    refine ((h.back hbegan.past).onBoard _).noting fun x hx => hr x ?_
    cases r <;> cases hx
    rfl
  have h := hperform _ hbegan.here
  unfold Yields at h
  unfold State.step
  revert h
  rcases step.perform (Session.nestAt depth) (s.noting (.stepBegan step)) with ⟨f | r, s₁⟩
  · intro h
    obtain ⟨hon, hf⟩ := h.2 f rfl
    refine hend s₁ (.fault f) hon ?_
    rintro _ ⟨⟩
    exact hf
  · intro h
    obtain ⟨hon, hr⟩ := h.1 r rfl
    exact hend s₁ r hon hr

/-! ## Sessions -/

/-- If every register of every group has a place, all faults of a session are provoked from outside. -/
theorem Reachable.blameless {s : State} (h : Reachable s) (hspans : s.extender.family.Spans s.extender.address) :
    s.history.Blameless := by
  suffices hon : s.On ⟨s.extender.family, s.extender.address, []⟩ from hon.blameless
  induction h with
  | start => exact ⟨rfl, rfl, List.suffix_refl _, fun _ _ _ hm => absurd hm List.not_mem_nil⟩
  | @step s depth step hs ih =>
    obtain ⟨_, _, _, _, hu⟩ := hs.goes
    have hsame : s.extender.SameMake _ := (State.goes_step (Session.plays_nestAt depth) step hu).moves.sameMake
    rw [hsame.family, hsame.address] at hspans ⊢
    exact State.on_step hspans (ih hspans) depth step

/-- The registers of the chips that the queued engine is made for have places. -/
theorem Reachable.fits_of_queued {s : State} (h : Reachable s) (hname : s.extender.name = "tca6408") :
    s.extender.family.Fits s.extender.address := by
  obtain ⟨e₀, board, hmade, hgo, -⟩ := h.goes
  have hsame := hgo.moves.sameMake
  rw [hsame.family, hsame.address]
  rw [hsame.name] at hname
  rcases hmade.eq_fresh with ⟨family, address, wired, rfl⟩ | ⟨wired, rfl⟩
  · exact absurd (show "i2c_extender" = "tca6408" from hname) (by decide)
  · show Device.tca6408.family.Fits Device.tca6408.family.baseAddress
    decide

/-! ## Sessions that provoke no fault -/

/-- Whether an operation provokes no fault: it does not panic, and handles that it gives together belong to one extender. -/
def Op.isHarmless : Op → Bool
  | .panic => false
  | .call (.setMany targets) => targets.all fun t => targets.all fun t' => t'.foreign == t.foreign
  | _ => true

/-- Whether a note tells of nothing that provokes a fault: of no operation that does, and of no run that has been aborted. -/
def Note.isHarmless : Note → Bool
  | opBegan o | stepBegan (.op o) => o.isHarmless
  | n => n.fault? != some .runAborted

/-- Whether an event tells of nothing that provokes a fault. -/
def Event.isHarmless : Event → Bool
  | noted n _ => n.isHarmless
  | _ => true

/-- Nothing has provoked a fault. -/
def History.Harmless (h : History) : Prop := ∀ ev ∈ h, ev.isHarmless = true

instance (h : History) : Decidable h.Harmless := inferInstanceAs (Decidable (∀ ev ∈ h, _))

/-- What has begun in a harmless history is harmless. -/
theorem History.Harmless.began {h : History} (hm : h.Harmless) {o : Op} (ho : h.Began o) : o.isHarmless = true := by
  obtain ⟨e, he | he⟩ := ho
  · exact hm _ he
  · exact hm _ he

/-- If nothing has provoked a fault, none but a stall has ended anything. -/
theorem History.Harmless.stalled {h : History} (hm : h.Harmless) (hb : h.Blameless) {n : Note} {e : Extender} {x : Fault}
    (hn : .noted n e ∈ h) (hx : n.fault? = some x) : x = .stalled := by
  have hprovoked := hb n e x hn hx
  cases x with
  | stalled => rfl
  | runAborted =>
    have hno : (n.fault? != some .runAborted) = true := by
      have := hm _ hn
      cases n <;> first | exact this | cases hx
    rw [hx] at hno
    exact absurd hno (by decide)
  | handlerPanic => exact absurd (hm.began hprovoked) Bool.false_ne_true
  | foreignPin =>
    obtain ⟨o, ho, hmix⟩ := hprovoked
    have hharmless := hm.began ho
    unfold Op.Mixes at hmix
    split at hmix
    · obtain ⟨t, ht, t', ht', hne⟩ := hmix
      have hall := List.all_eq_true.1 (List.all_eq_true.1 hharmless t ht) t' ht'
      exact absurd (beq_iff_eq.1 hall) hne
    · exact hmix.elim
  | _ => exact hprovoked.elim

/-- The extender does not fault of itself, and no number leaves its bounds. Let the engine be the queued one, or a generic one for which a
chip has at least one bank, the last chip an address and the last bank of a chip registers. Then, in every session, every fault that
has ended a step, an operation or a run of the worker was provoked from outside: no sum of bytes overflows and nothing is divided by
zero, no bit is shifted out of a byte or looked for beyond the end of a map, no slot of a handler, byte of a map or place of a line is
missing, and the lines are never let go of while a pass holds them. So if no operation that panics has begun, on its own, in a handler,
in a transaction or in a wait, if no run was aborted, and if handles that were given together belonged to one extender, nothing has
ended in a fault, unless more was played than is provided for. With any engine, all that the memory numbers is within its bounds at
every moment, and an extender that is made with some lines has a place for each of them. In every state a step that names a pin which
the extender does not have changes nothing: giving back such a pin is done, taking its handler away is refused with the range, and
every other step is refused with the range or because the extender is stopped. -/
theorem faults_come_from_outside :
    (∀ s, Reachable s →
      (s.extender.name = "tca6408" ∨ s.extender.family.Fits s.extender.address →
        s.history.Blameless ∧
        (s.history.Harmless → ∀ n e x, .noted n e ∈ s.history → n.fault? = some x → x = .stalled)) ∧
      ∀ e, (e = s.extender ∨ ∃ n, .noted n e ∈ s.history) → e.InBounds) ∧
    (∀ wired, ((List.range maxLines).filter wired).foldlM Lines.attach Lines.none = .ok (.ofPredicate wired)) ∧
    ∀ (nest : Nest) (s : State) (step : Step) (pin : Nat), step.pin? = some pin → s.extender.claims.capacity ≤ pin →
      step.perform nest s = (.ok (step.outsideAnswer s.extender pin), s) := by
  refine ⟨fun s hs => ⟨fun hfits => ?_, fun e he => hs.inBounds he⟩, Lines.attach_wired,
    fun nest s step pin hpin hp => step.perform_of_outside nest s hpin hp⟩
  have hspans : s.extender.family.Spans s.extender.address := by
    rcases hfits with hname | hfits
    · exact (hs.fits_of_queued hname).spans
    · exact hfits.spans
  have hblameless := hs.blameless hspans
  exact ⟨hblameless, fun hharmless n e x hn hx => hharmless.stalled hblameless hn hx⟩

/-- A change of pin 0 calls its handler, which gives an output its level that does not exist, and tells of an interrupt of a line that does
not: nothing ends in a fault. Claiming pin 64 and taking away its handler are refused with the range, and giving it back is done. -/
theorem faults_come_from_outside_of_numbers_too_large :
    let s := State.oneLine [.claim 0, .op (.call (.setup 0 PinAttributes.input)), .op (.call (.attach 0 ⟨7, 1, .change⟩)),
      .op (.handler 1 [.call (.write 200 true), .call (.interrupt 255)]), .op (.change (.poke ⟨0x20, 0⟩ 1)), .op .update]
    s.extender.family.Fits s.extender.address ∧ s.history.Harmless ∧ s.troubles = 2 ∧
    (∀ n e x, .noted n e ∈ s.history → n.fault? = some x → x = .stalled) ∧ s.extender.InBounds ∧
    (Step.claim 64).perform (Session.nestAt 1) s = (.ok (.error (.range 64 64)), s) ∧
    (Step.op (.call (.detach 64))).perform (Session.nestAt 1) s = (.ok (.error (.range 64 64)), s) ∧
    (Step.free 64).perform (Session.nestAt 1) s = (.ok .done, s) := by
  intro s
  have hfits : s.extender.family.Fits s.extender.address := by decide +kernel
  have hharmless : s.history.Harmless := by decide +kernel
  have hcapacity : s.extender.claims.capacity = 64 := by decide +kernel
  have hrunning : s.extender.isStopped = false := by decide +kernel
  obtain ⟨hreached, -, houtside⟩ := faults_come_from_outside
  obtain ⟨hfaults, hbounds⟩ := hreached s (reachable_oneLine _)
  have hanswer (step : Step) (hpin : step.pin? = some 64) := houtside (Session.nestAt 1) s step 64 hpin hcapacity.le
  have hclaim : Step.outsideAnswer s.extender 64 (.claim 64) = .error (.range 64 64) := by
    show Reply.error (if s.extender.isStopped = true then .stopped else .range 64 s.extender.claims.capacity) = _
    rw [hrunning, hcapacity, if_neg Bool.false_ne_true]
  have hdetach : Step.outsideAnswer s.extender 64 (.op (.call (.detach 64))) = .error (.range 64 64) := by
    show Reply.error (.range 64 s.extender.claims.capacity) = _
    rw [hcapacity]
  refine ⟨hfits, hharmless, by decide +kernel, (hfaults (.inr hfits)).2 hharmless, hbounds _ (.inl rfl), ?_, ?_, hanswer _ rfl⟩
  · rw [hanswer _ rfl, hclaim]
  · rw [hanswer _ rfl, hdetach]

end PortExpander
