import PortExpander.Proofs.Accesses
import PortExpander.Proofs.Dispatch
import PortExpander.Proofs.Levels

/-!
# Inversions

An input that is active low is inverted once on its way from the chip to the memory: by the chip, if its family has polarity
registers, and otherwise by the pass that reads it. A setup changes the inversions in the memory at once, but those in the chips not
before the next pass. So a polarity register may be behind the memory, but only while the configuration is asked for, and a pass that
is asked for the configuration writes the polarities before it reads.
-/

namespace PortExpander

open Sim Engine

/-! ## Setups in histories -/

/-- The pin that a note tells to be set up, after what has happened, with its attributes. A setup that is not refused asks for the
configuration, and nothing else asks for that alone. -/
def Note.setup? (n : Note) (past : History) : Option (Nat × PinAttributes) :=
  match n, past.begun? with
  | requested bits, some (.call (.setup pin attrs), _) => if bits = Status.configDirty then some (pin, attrs) else none
  | _, _ => none

/-- Whether an event is the note of the beginning of an operation while a pass is at work. -/
def Event.isMisplaced : Event → Bool
  | noted (.opBegan _) e => e.updating
  | _ => false

/-- Whether an event is the note of the end of a step that gives a pin back. -/
def Event.isFree : Event → Bool
  | noted (.stepEnded (.free _) _) _ => true
  | _ => false

namespace History

/-- Whether a pin is active low by its latest setup. -/
def activeLow (pin : Nat) : History → Bool
  | [] => false
  | .noted n _ :: past =>
    match n.setup? past with
    | some (pin', attrs) => if pin' = pin then attrs.contains PinAttributes.activeLow else activeLow pin past
    | none => activeLow pin past
  | _ :: past => activeLow pin past

/-- The pins of a group that are active low by their latest setups. -/
def inverted (h : History) (g : Nat) : Byte := .ofGroups fun i => h.activeLow (8 * g + i)

/-- The byte that was last written to a register, zero if none was. -/
def content (h : History) (place : Place) : Byte := ((h.lastWrite place).map Prod.fst).getD 0

/-- Operations have begun only while no pass was at work. -/
def Unnested (h : History) : Prop := ∀ ev ∈ h, ev.isMisplaced = false

/-- No pin has been given back. -/
def Unfreed (h : History) : Prop := ∀ ev ∈ h, ev.isFree = false

instance (h : History) : Decidable h.Unnested := inferInstanceAs (Decidable (∀ ev ∈ h, ev.isMisplaced = false))

instance (h : History) : Decidable h.Unfreed := inferInstanceAs (Decidable (∀ ev ∈ h, ev.isFree = false))

/-- Neither transactions nor setups have happened. -/
def Inert (h : History) : Prop := ∀ ev ∈ h, ev.access? = none ∧ ∀ e, ev ≠ .noted (.requested .configDirty) e

theorem activeLow_append {new : History} (hn : ∀ e, .noted (.requested .configDirty) e ∉ new) (h : History) (pin : Nat) :
    (new ++ h).activeLow pin = h.activeLow pin := by
  induction new with
  | nil => rfl
  | cons ev new ih =>
    have hrest := ih fun e hm => hn e (List.mem_cons_of_mem _ hm)
    cases ev with
    | noted n e =>
      have hnone : n.setup? (new ++ h) = none := by
        unfold Note.setup?
        split
        · refine if_neg ?_
          rintro rfl
          exact hn e List.mem_cons_self
        · rfl
      rw [List.cons_append, activeLow, hnone]
      exact hrest
    | _ => exact hrest

theorem inverted_append {new : History} (hn : ∀ e, .noted (.requested .configDirty) e ∉ new) (h : History) (g : Nat) :
    (new ++ h).inverted g = h.inverted g := by
  unfold inverted
  simp only [activeLow_append hn]

/-- A setup says of its own pin whether it is active low. -/
theorem activeLow_of_setup {n : Note} {past : History} {pin : Nat} {attrs : PinAttributes} (h : n.setup? past = some (pin, attrs))
    (e : Extender) (i : Nat) : activeLow i (.noted n e :: past) =
      if pin = i then attrs.contains PinAttributes.activeLow else activeLow i past := by
  rw [activeLow, h]

theorem Inert.nil : Inert [] := fun _ hm => (List.not_mem_nil hm).elim

theorem Inert.single {ev : Event} (ha : ev.access? = none) (hn : ∀ n e, ev = .noted n e → n ≠ .requested .configDirty) :
    Inert [ev] := by
  intro ev' hm
  obtain rfl := List.mem_singleton.1 hm
  exact ⟨ha, fun e he => hn _ e he rfl⟩

theorem Inert.append {h h' : History} (hi : h.Inert) (hi' : h'.Inert) : Inert (h ++ h') := List.forall_mem_append.2 ⟨hi, hi'⟩

theorem Inert.note {n : Note} (hn : n ≠ .requested .configDirty) (e : Extender) : Inert [.noted n e] := by
  refine .single rfl ?_
  rintro _ _ ⟨⟩
  exact hn

theorem Inert.logged (r : LogRecord) : Inert [.logged r] := .single rfl (by rintro _ _ ⟨⟩)

/-- A request for anything but the configuration. -/
theorem Inert.request {bits : Status} (hb : bits ≠ .configDirty) (e : Extender) : Inert [.noted (.requested bits) e] :=
  .note (fun h => hb (Note.requested.inj h)) e

/-! ## Writes in histories -/

theorem accesses_cons (ev : Event) (h : History) : accesses (ev :: h) = h.accesses ++ ev.access?.toList := by
  have hone : accesses [ev] = ev.access?.toList := by
    unfold accesses
    cases hev : ev.access? <;> simp [hev]
  rw [← hone]
  exact accesses_append [ev] h

/-- A register keeps what it was last written with, until it is written. -/
theorem content_append_of_notMem (new : History) (place : Place) (hn : ∀ value, .write place value ∉ new.accesses) (h : History) :
    (new ++ h).content place = h.content place := by
  induction new with
  | nil => rfl
  | cons ev new ih =>
    simp only [accesses_cons, List.mem_append, not_or] at hn
    have hrest := ih fun value => (hn value).1
    rw [← hrest]
    unfold content
    cases ev with
    | transaction a r =>
      cases a with
      | read => rfl
      | write place' value =>
        rw [List.cons_append, lastWrite_write, if_neg]
        rintro rfl
        exact (hn value).2 (List.mem_singleton.2 rfl)
    | _ => rfl

/-- A register that is always written with the same byte was last written with it. -/
theorem content_append_of_mem {new : History} {place : Place} {value : Byte} (hm : .write place value ∈ new.accesses)
    (hv : ∀ value', .write place value' ∈ new.accesses → value' = value) (h : History) : (new ++ h).content place = value := by
  induction new with
  | nil => cases hm
  | cons ev new ih =>
    simp only [accesses_cons, List.mem_append] at hm hv
    by_cases hlast : ∃ value', ev.access? = some (.write place value')
    · obtain ⟨value', hev⟩ := hlast
      obtain rfl : value' = value := hv _ (.inr (by rw [hev]; exact List.mem_singleton.2 rfl))
      cases ev with
      | transaction a r =>
        cases hev
        unfold content
        rw [List.cons_append, lastWrite_write, if_pos rfl]
        rfl
      | _ => cases hev
    · have hkept := content_append_of_notMem [ev] place (fun value' hm' => hlast ⟨value', ?_⟩) (new ++ h)
      · refine hkept.trans (ih ?_ fun value' hm' => hv value' (.inl hm'))
        refine hm.resolve_right fun hm' => hlast ⟨value, ?_⟩
        exact Option.mem_toList.1 hm'
      · rw [accesses_cons] at hm'
        exact Option.mem_toList.1 hm'

theorem content_eq_zero {h : History} {place : Place} (hn : ∀ value r, .transaction (.write place value) r ∉ h) :
    h.content place = 0 := by
  have hempty := content_append_of_notMem h place (fun value hm => ?_) []
  · rw [List.append_nil] at hempty
    exact hempty
  · obtain ⟨ev, hev, ha⟩ := List.mem_filterMap.1 hm
    cases ev with
    | transaction a r =>
      cases ha
      exact hn value r (List.mem_reverse.1 hev)
    | _ => cases ha

end History

/-! ## Polarity registers -/

/-- The polarity registers of claimed groups were last written with the inversions of the memory, if they have any. -/
def Extender.Polarizes (e : Extender) (h : History) : Prop :=
  ∀ g reg place, e.claims.groups.getLsbD g = true → e.family.polarityReg = some reg → e.locate g reg = .ok place →
    h.content place = e.shadow.invert.byte g

/-- The polarity registers are behind the memory: the extender has halted, or the configuration is asked for. -/
def Extender.Lags (e : Extender) : Prop := e.halted = true ∨ e.status.contains Status.configDirty = true

/-- The memory has the inversions of the latest setups, and the polarity registers have them, too, unless they are `behind`. -/
structure State.Polarized (s : State) (behind : Prop) : Prop where
  inverted : ∀ pin < 64, s.extender.shadow.invert.get pin = s.history.activeLow pin
  unset : ∀ g, s.extender.claims.groups.getLsbD g = false → g < 8 → s.extender.shadow.invert.byte g = 0
  wrote : ∀ place value r, .transaction (.write place value) r ∈ s.history → s.extender.Reaches (.write place value)
  polarity : behind ∨ s.extender.Polarizes s.history

/-- The polarity registers are where and as they were. -/
theorem Extender.Polarizes.of_eq {e e' : Extender} {h h' : History} (hp : e.Polarizes h) (ha : e.Abides e')
    (hi : e'.shadow.invert = e.shadow.invert) (hh : ∀ place, h'.content place = h.content place) : e'.Polarizes h' := by
  intro g reg place hg hreg hplace
  rw [hh, hi]
  rw [ha.claims] at hg
  rw [ha.family] at hreg
  unfold locate at hplace
  rw [ha.family, ha.address] at hplace
  exact hp g reg place hg hreg hplace

namespace State.Polarized

variable {s s' : State} {behind behind' : Prop}

/-- What neither sets up pins nor makes transactions. -/
theorem idle (hs : s.Polarized behind) (new : History) (hh : s'.history = new ++ s.history) (hn : new.Inert)
    (ha : s.extender.Abides s'.extender) (hi : s'.extender.shadow.invert = s.extender.shadow.invert) (hb : behind → behind') :
    s'.Polarized behind' where
  inverted pin hp := by
    rw [hi, hh, History.activeLow_append fun e hm => (hn _ hm).2 e rfl]
    exact hs.inverted pin hp
  unset g hg hlt := by
    rw [hi]
    exact hs.unset g (ha.claims ▸ hg) hlt
  wrote place value r hm := by
    rw [hh] at hm
    have hreaches : s.extender.Reaches (.write place value) := by
      refine hs.wrote place value r ((List.mem_append.1 hm).resolve_left fun hm => ?_)
      cases (hn _ hm).1
    unfold Extender.Reaches Extender.locate at hreaches ⊢
    rw [ha.family, ha.address, ha.claims]
    exact hreaches
  polarity := hs.polarity.imp hb fun hp => hp.of_eq ha hi fun place => by
    rw [hh, History.content_append_of_notMem]
    rw [History.accesses_eq_nil fun ev hm => (hn ev hm).1]
    exact fun _ => List.not_mem_nil

/-- The inversions of a group in the memory are those of the latest setups of its pins. -/
theorem byte_invert (hs : s.Polarized behind) {g : Nat} (hg : g < 8) : s.extender.shadow.invert.byte g = s.history.inverted g := by
  refine BitVec.eq_of_getLsbD_eq fun i hi => ?_
  rw [PinMap.getLsbD_byte _ _ _ hi, hs.inverted _ (by omega), History.inverted, Byte.getLsbD_ofGroups, decide_eq_true hi,
    Bool.true_and]

end State.Polarized

/-- A setup inverts its pin if it is active low. -/
theorem Shadow.invert_setup (s : Shadow) (pin : Nat) (attrs : PinAttributes) :
    (s.setup pin attrs).invert = s.invert.set pin (attrs.contains PinAttributes.activeLow) := by
  unfold setup
  dsimp only
  split
  · split
    · rfl
    · split <;> rfl
  · split <;> rfl

/-- A claimed pin has its bit. -/
theorem Claims.get_of_isClaimed {c : Claims} {pin : Nat} (h : c.isClaimed pin = true) : c.claimed.get pin = true := by
  unfold isClaimed at h
  exact (Bool.and_eq_true_iff.1 h).2

/-- A setup gives its pin another inversion, which then lags behind. The other touches have nothing to do with inversions. -/
theorem Touch.polarized {s s' : State} (h : Touch s s') (hs : s.Polarized s.extender.Lags) : s'.Polarized s'.extender.Lags := by
  have hf := h.frame
  have hidle (new : History) (hh : s'.history = new ++ s.history) (hn : new.Inert)
      (hi : s'.extender.shadow.invert = s.extender.shadow.invert) : s'.Polarized s'.extender.Lags :=
    hs.idle new hh hn hf.toSteady.abides hi fun hlag => hlag.imp (hf.halted.trans ·) (hf.status _)
  cases h with
  | @setUp e pin attrs _ hc hb =>
    have hclaimed := Claims.isClaimed_of_checkClaimed hc
    have hpin := PinMap.lt_of_get (Claims.get_of_isClaimed hclaimed)
    have hinvert : ((s.amend fun e => { e with shadow := e.shadow.setup pin attrs }).asking .configDirty).extender.shadow.invert =
        s.extender.shadow.invert.set pin (attrs.contains PinAttributes.activeLow) := Shadow.invert_setup _ _ _
    -- the memory has the inversion that the setup asks for, and the registers may lag behind now
    refine ⟨fun i hi => ?_, fun g hg hlt => ?_, fun place value r hm => ?_, ?_⟩
    · have hsets : (Note.requested .configDirty).setup? s.history = some (pin, attrs) := by
        unfold Note.setup?
        rw [hb]
        exact if_pos rfl
      rw [hinvert, PinMap.get_set _ _ _ _ hpin, hs.inverted i hi]
      exact (if_congr eq_comm rfl rfl).trans (History.activeLow_of_setup hsets _ i).symm
    · rw [hinvert, PinMap.byte_set]
      · exact hs.unset g hg hlt
      · rintro rfl
        cases hg.symm.trans (Claims.groups_of_isClaimed hclaimed)
    · exact hs.wrote place value r ((List.mem_cons.1 hm).resolve_left nofun)
    · exact .inl (.inr (FlagSet.contains_union_right _ (FlagSet.contains_refl _)))
  | write | board | unwire => exact hidle [] rfl .nil rfl
  | attach | detach => exact hidle [] rfl .nil (congrArg Shadow.invert (Extender.shadow_repolled _))
  | commit => exact hidle [_] rfl (.request (by decide) _) rfl
  | enqueue => exact hidle [_] rfl (.request (by decide) _) rfl
  | ask bits hbits => exact hidle [_] rfl (.request hbits.2 _) rfl
  | see ev hq =>
    refine hidle [ev] rfl (.single ?_ ?_) rfl
    · cases ev <;> first | rfl | cases hq
    · rintro n e rfl
      cases hq
  | note n hn =>
    refine hidle [_] rfl (.note ?_ _) rfl
    rintro rfl
    cases hn
  | contend | ended => exact hidle [_] rfl (.note (by rintro ⟨⟩) _) rfl
  | released line =>
    refine hidle [_] rfl (.single rfl ?_) rfl
    rintro _ _ ⟨⟩

/-! ## Passes -/

/-- A pass plans to write the configuration if it is asked for it, and unless operations fall into it, it tries what it plans without
changing the inversions in the memory. -/
theorem Carries.tries {pending : Status} {s s' : State} {clean : Bool} (h : Carries pending s clean s') :
    ∃ (plan : Plan) (new : History), (pending.contains Status.configDirty = true → plan.configure = true) ∧
      s'.history = new ++ s.history ∧ (new.Alone → new.accesses = s.extender.accesses plan ∧ (∀ ev ∈ new, ev.isNote = false) ∧
        s'.extender.shadow.invert = s.extender.shadow.invert) := by
  obtain ⟨plan, s₁, hg, new, hnew, hmakes⟩ := h.makes
  refine ⟨plan, new, fun hc => by rw [hg.plan_of_config hc], hnew, fun ha => ?_⟩
  obtain ⟨hwanted, hquiet, b, i, he⟩ := hmakes ha
  exact ⟨(Extender.accesses_of_wanted hwanted).1, hquiet, by rw [he]; rfl⟩

/-- No operation has begun in the work of a pass if operations have begun only while no pass was at work. -/
theorem Works.alone {s s' : State} (h : Works s s') (hu : s.extender.updating = true) {new : History}
    (hh : s'.history = new ++ s.history) (ho : new.Unnested) : new.Alone := by
  obtain ⟨new', hnew', hkeeps⟩ := h.keeps hu (.refl s)
  obtain rfl := State.new_unique hh hnew'
  intro ev hm
  cases ev with
  | noted n e =>
    cases n with
    | opBegan o =>
      have hup := hkeeps _ e hm
      cases (ho _ hm).symm.trans hup
    | _ => rfl
  | _ => rfl

/-- A pass writes what is due before it reads anything. So when it reads, the polarity registers have the inversions of the memory:
those that are not due had them before. -/
theorem Carries.polarizes {pending : Status} {s s' : State} {clean : Bool} (h : Carries pending s clean s') (ha : s.extender.Apart)
    (hs : pending.contains Status.configDirty = true ∨ s.extender.Polarizes s.history) (rest : History) {done : History}
    (hh : s'.history = (rest ++ done) ++ s.history) (halone : History.Alone (rest ++ done))
    (hrest : ∀ place value, .write place value ∉ rest.accesses) : s.extender.Polarizes (done ++ s.history) := by
  obtain ⟨plan, new, hplan, hnew, htries⟩ := h.tries
  obtain rfl := State.new_unique hh hnew
  obtain ⟨htried, -, -⟩ := htries halone
  have hwrites (place : Place) (value : Byte) : .write place value ∈ done.accesses ↔ (place, value) ∈ s.extender.dues plan := by
    have hm : .write place value ∈ History.accesses (rest ++ done) ↔ .write place value ∈ s.extender.accesses plan := by rw [htried]
    rw [History.accesses_append, List.mem_append, or_iff_left (hrest place value)] at hm
    simpa [Extender.accesses] using hm
  intro g reg place hg hreg hplace
  by_cases hc : plan.configure = true
  · have hdue : s.extender.DueAt plan .polarity g place := ⟨by rw [Extender.due, if_pos hc]; exact hg, reg, hreg, hplace⟩
    refine History.content_append_of_mem ((hwrites _ _).2 (Extender.mem_dues.2 ⟨_, _, hdue, rfl⟩)) (fun value hm => ?_) _
    obtain ⟨k, g', hdue', rfl⟩ := Extender.mem_dues.1 ((hwrites _ _).1 hm)
    obtain ⟨rfl, rfl⟩ := ha.due_unique hdue hdue'
    rfl
  · rw [History.content_append_of_notMem _ _ fun value hm => ?_]
    · exact hs.resolve_left (fun hp => hc (hplan hp)) g reg place hg hreg hplace
    · obtain ⟨k, g', ⟨hdue, reg', hreg', hplace'⟩, -⟩ := Extender.mem_dues.1 ((hwrites _ _).1 hm)
      obtain ⟨rfl, rfl⟩ := ha g g' .polarity k reg reg' place hg (Extender.claimed_of_due hdue) hreg hreg' hplace hplace'
      rw [Extender.due, if_neg hc, BitVec.ofNat_eq_ofNat, BitVec.getLsbD_zero] at hdue
      cases hdue

/-- A pass into which no operation falls has made the polarity registers follow the memory. -/
theorem State.Polarized.carried {pending : Status} {s s' : State} {clean : Bool}
    (hs : s.Polarized (pending.contains Status.configDirty = true)) (h : Carries pending s clean s') (hw : Works s s')
    (ha : s.extender.Apart) {new : History} (hh : s'.history = new ++ s.history) (halone : new.Alone) : s'.Polarized False := by
  have hst := hw.steady.abides
  obtain ⟨plan, new', -, hnew', htries⟩ := h.tries
  obtain rfl := State.new_unique hh hnew'
  obtain ⟨htried, hquiet, hi⟩ := htries halone
  refine ⟨fun pin hp => ?_, fun g hg hlt => ?_, fun place value r hm => ?_, .inr ?_⟩
  · rw [hi, hh, History.activeLow_append fun e hm => Bool.false_ne_true (hquiet _ hm).symm]
    exact hs.inverted pin hp
  · rw [hi]
    exact hs.unset g (hst.claims ▸ hg) hlt
  · have hreaches : s.extender.Reaches (.write place value) := by
      rw [hh] at hm
      rcases List.mem_append.1 hm with hm | hm
      · have hmade : .write place value ∈ new.accesses :=
          List.mem_filterMap.2 ⟨_, List.mem_reverse.2 hm, rfl⟩
        have hdue : (place, value) ∈ s.extender.dues plan := by
          rw [htried] at hmade
          simpa [Extender.accesses] using hmade
        obtain ⟨k, g, ⟨hg, reg, hreg, hplace⟩, -⟩ := Extender.mem_dues.1 hdue
        exact ⟨g, Extender.claimed_of_due hg, reg, Family.written_of_number? hreg, hplace⟩
      · exact hs.wrote place value r hm
    unfold Extender.Reaches Extender.locate at hreaches ⊢
    rw [hst.family, hst.address, hst.claims]
    exact hreaches
  · have hpolarizes := h.polarizes ha hs.polarity [] hh halone fun _ _ => List.not_mem_nil
    exact hpolarizes.of_eq hst hi fun place => by rw [hh]

/-! ## Happenings -/

/-- Before a pass begins it takes its work, after which the polarity registers may be behind if the configuration was asked for. -/
theorem State.Polarized.begun {s t : State} {work : Status} {e : Extender} {older : History} (hs : s.Polarized s.extender.Lags)
    (h : s.Begins t work e older) : t.Polarized (work.contains Status.configDirty = true) := by
  have hready : ∃ ready : History, t.history = ready ++ s.history ∧ ready.Inert := by
    have htaken (pending : Status) : History.Inert [.noted (.took pending) s.held.taken.extender] := .note (by rintro ⟨⟩) _
    have hbegan : History.Inert [.noted (.passBegan work) e] := .note (by rintro ⟨⟩) _
    rw [h.history, h.past]
    rcases s.held.taken.history_started s.extender.work with hh | ⟨r, hh⟩ <;> rw [hh]
    · exact ⟨[_, _], rfl, hbegan.append (htaken _)⟩
    · exact ⟨[_, _, _], rfl, hbegan.append (.append (.logged r) (htaken _))⟩
  obtain ⟨ready, hh, hinert⟩ := hready
  have he : t.extender = s.held.taken.extender := h.extender.trans h.before
  refine hs.idle ready hh hinert ?_ (by rw [he]; rfl) fun hlag => ?_
  · rw [he]
    exact ⟨rfl, rfl, rfl⟩
  · rcases hlag with hlag | hlag
    · cases h.halted.symm.trans hlag
    · rw [h.pending, show s.extender.work.contains Status.configDirty = s.extender.status.contains Status.configDirty from
        Extender.contains_work (by decide) (by decide) (by decide)]
      exact hlag

/-- The groups of claimed pins stay claimed when a pin is claimed. -/
theorem Claims.groups_claim {c c' : Claims} {pin g : Nat} (h : c.claim pin = .ok c') (hg : c.groups.getLsbD g = true) :
    c'.groups.getLsbD g = true := by
  obtain ⟨-, -, rfl⟩ := eq_of_claim h
  obtain ⟨pin', rfl, hget⟩ := PinMap.exists_get_of_groups hg
  refine PinMap.groups_of_get (m := c.claimed.set pin true) ?_
  by_cases hp : pin' = pin
  · rw [hp, PinMap.get_set _ _ _ _ (hp ▸ PinMap.lt_of_get hget), if_pos rfl]
  · rw [PinMap.get_set_of_ne _ hp]
    exact hget

/-- A group that comes to be claimed has neither been set up nor been written to. -/
theorem State.Polarized.claimed {s : State} (hs : s.Polarized s.extender.Lags) {pin : Nat} {claims : Claims}
    (hc : s.extender.claims.claim pin = .ok claims) (ha : { s.extender with claims }.Apart) (step : Step) (r : Reply) :
    ((s.amend ({ · with claims })).over step r).Polarized { s.extender with claims }.Lags := by
  have hreaches {a : Access} (h : s.extender.Reaches a) : { s.extender with claims }.Reaches a := by
    obtain ⟨g, hg, h⟩ := h
    exact ⟨g, Claims.groups_claim hc hg, h⟩
  have hamended : (s.amend ({ · with claims })).Polarized { s.extender with claims }.Lags := by
    refine ⟨hs.inverted, fun g hg hlt => ?_, fun place value r hm => hreaches (hs.wrote place value r hm), ?_⟩
    · refine hs.unset g (Bool.eq_false_iff.2 fun hg' => ?_) hlt
      cases hg.symm.trans (Claims.groups_claim hc hg')
    · refine hs.polarity.imp id fun hp g reg place hg hreg hplace => ?_
      by_cases hold : s.extender.claims.groups.getLsbD g = true
      · exact hp g reg place hold hreg hplace
      · show s.history.content place = s.extender.shadow.invert.byte g
        rw [hs.unset g (Bool.eq_false_iff.2 hold) (BitVec.lt_of_getLsbD hg), History.content_eq_zero fun value r hm => ?_]
        obtain ⟨g', hg', reg', hreg', hplace'⟩ := hs.wrote place value r hm
        obtain ⟨k, hk⟩ := Family.exists_number?_of_written hreg'
        obtain ⟨rfl, -⟩ := ha g g' .polarity k reg reg' place hg (Claims.groups_claim hc hg') hreg hk hplace hplace'
        exact hold hg'
  exact hamended.idle [_] rfl (.note (by rintro ⟨⟩) _) ⟨rfl, rfl, rfl⟩ rfl id

/-- Between the happenings of a session the polarity registers follow the memory unless the configuration is asked for. -/
theorem Happening.polarized {s s' : State} (h : Happening s s') (hs : s.Polarized s.extender.Lags)
    (hapart : ∀ n past, s'.history = .noted n s'.extender :: past → s'.extender.Apart) (hu : s'.history.Uncut)
    (ho : s'.history.Unnested) (hf : s'.history.Unfreed) : s'.Polarized s'.extender.Lags := by
  cases h with
  | touch h => exact h.polarized hs
  | update p hup h =>
    cases h with
    | halted hh => exact hs.idle [_] rfl (.note (by rintro ⟨⟩) _) ⟨rfl, rfl, rfl⟩ rfl fun _ => .inl hh
    | stops =>
      exact hs.idle [_, _, _] rfl (.append (.note (by rintro ⟨⟩) _) (.append (.logged _) (.note (by rintro ⟨⟩) _)))
        ⟨rfl, rfl, rfl⟩ rfl fun _ => .inl rfl
    | idles hh _ hidle =>
      refine hs.idle [_, _] rfl (.append (.note (by rintro ⟨⟩) _) (.note (by rintro ⟨⟩) _)) ⟨rfl, rfl, rfl⟩ rfl fun hlag => ?_
      have hwork : s.extender.work.contains Status.configDirty = true :=
        (Extender.contains_work (by decide) (by decide) (by decide)).trans (hlag.resolve_left fun h => by cases hh.symm.trans h)
      cases hidle.symm.trans (Extender.isIdleWith_of_contains (by decide) hwork)
    | @ran t t' clean hh _ _ ht hc hw =>
      have hbegins : s.Begins t s.extender.work s.held.taken.extender (s.held.taken.started s.extender.work).history :=
        ⟨hup, hh, rfl, rfl, rfl, ht⟩
      have hst := hw.steady
      obtain ⟨new, hnew, -⟩ := hw.history
      -- nothing after the work of the pass writes to the chips or sets a pin up
      have hending : ∃ ending : History, ((letGo (t'.completed clean).released).noting (.updated .ran)).history =
          ending ++ t'.history ∧ ending.Inert := by
        have hended : History.Inert [.noted (.passEnded clean) (t'.completed clean).extender] := .note (by rintro ⟨⟩) _
        have hupdated (e : Extender) : History.Inert [.noted (.updated .ran) e] := .note (by rintro ⟨⟩) _
        cases clean with
        | true => exact ⟨[_, _], rfl, (hupdated _).append hended⟩
        | false => exact ⟨[_, _, _], rfl, (hupdated _).append (hended.append (.request (by decide) _))⟩
      obtain ⟨ending, hend, hinert⟩ := hending
      have halone : new.Alone := by
        refine hw.alone (by rw [hbegins.extender]; rfl) hnew fun ev hm => ho ev ?_
        rw [hend, hnew]
        exact List.mem_append_right _ (List.mem_append_left _ hm)
      have hapart₀ : t.extender.Apart :=
        (hapart _ _ rfl).of_eq (by cases clean <;> exact hst.family.symm) (by cases clean <;> exact hst.address.symm)
          (by cases clean <;> exact hst.claims.symm)
      refine ((hs.begun hbegins).carried hc hw hapart₀ hnew halone).idle _ hend hinert ?_ ?_ False.elim <;> cases clean
      · exact ⟨rfl, rfl, rfl⟩
      · exact ⟨rfl, rfl, rfl⟩
      · rfl
      · rfl
  | cut _ h =>
    obtain ⟨s₁, _, _, _, rfl⟩ := h
    cases hu _ List.mem_cons_self
  | began step => exact hs.idle [_] rfl (.note (by rintro ⟨⟩) _) ⟨rfl, rfl, rfl⟩ rfl id
  | ended step r => exact hs.idle [_] rfl (.note (by rintro ⟨⟩) _) ⟨rfl, rfl, rfl⟩ rfl id
  | claim pin claims _ _ hc => exact hs.claimed hc (hapart _ _ rfl) _ _
  | free pin => cases hf _ List.mem_cons_self

/-- In every state of a plain session the polarity registers follow the memory unless the configuration is asked for. -/
theorem Goes.polarized {e₀ : Extender} {board : Board} {s : State} (hm : Made e₀)
    (h : Goes { extender := e₀, board, history := [] } s) (hapart : s.history.Apart) (hu : s.history.Uncut) (ho : s.history.Unnested)
    (hf : s.history.Unfreed) : s.Polarized s.extender.Lags := by
  induction h with
  | refl =>
    obtain ⟨family, address, capacity, lines, engine, room, rfl, -⟩ := hm.fresh
    have hbyte (g : Nat) : PinMap.empty.byte g = 0 := BitVec.extractLsb'_zero
    exact ⟨fun pin _ => BitVec.getLsbD_zero, fun g _ _ => hbyte g, fun _ _ _ hm => (List.not_mem_nil hm).elim,
      .inr fun g _ _ _ _ _ => (hbyte g).symm⟩
  | @tail s₁ s₂ hgo h ih =>
    obtain ⟨new, hnew, -⟩ := h.adds
    have hbefore {ev : Event} (hev : ev ∈ s₁.history) : ev ∈ s₂.history := hnew ▸ List.mem_append_right _ hev
    refine h.polarized (ih (fun n e hev => hapart n e (hbefore hev)) (fun ev hev => hu ev (hbefore hev))
      (fun ev hev => ho ev (hbefore hev)) fun ev hev => hf ev (hbefore hev)) (fun n past hhead => ?_) hu ho hf
    rcases hapart n s₂.extender (hhead ▸ List.mem_cons_self) with hq | ha
    · have hsame := (Goes.moves (hgo.tail h)).sameMake
      exact hm.apart hsame.family hsame.name hq
    · exact ha

/-! ## Reads -/

/-- The memory has the inputs of a claimed group as they were read from a place, inverted here if the chips do not invert. -/
def Extender.Received (e : Extender) (place : Place) (content : Byte) : Prop :=
  ∃ g, e.claims.groups.getLsbD g = true ∧ e.locate g e.family.inputReg = .ok place ∧
    e.shadow.input.byte g = inputAfter e g 0 (.ok content)

/-- Unless operations fall in between, the memory has what has been read from one state to another. -/
def Receives (s s' : State) : Prop :=
  ∃ new : History, s'.history = new ++ s.history ∧ (new.Alone → ∀ place content,
    .transaction (.read place) (.ok content) ∈ new → s'.extender.Received place content)

/-- Memories that are alike agree on the chips and the claims. -/
theorem Extender.Alike.abides {e e' : Extender} (h : e.Alike e') : e.Abides e' := by
  obtain ⟨b, i, rfl⟩ := h
  exact ⟨rfl, rfl, rfl⟩

/-- Memories that are alike agree on the inversions. -/
theorem Extender.Alike.invert {e e' : Extender} (h : e.Alike e') : e'.shadow.invert = e.shadow.invert := by
  obtain ⟨b, i, rfl⟩ := h
  rfl

/-- Memories that agree on the chips find registers at the same places. -/
theorem Extender.Abides.locate {e e' : Extender} (h : e.Abides e') : e'.locate = e.locate := by
  funext g reg
  unfold Extender.locate
  rw [h.family, h.address]

/-- What is received stays so while the chips, the claims, the inversions and the inputs are the same. -/
theorem Extender.Received.of_eq {e e' : Extender} {place : Place} {content : Byte} (h : e.Received place content) (ha : e.Abides e')
    (hv : e'.shadow.invert = e.shadow.invert) (hi : e'.shadow.input = e.shadow.input) : e'.Received place content := by
  obtain ⟨g, hg, hp, hr⟩ := h
  refine ⟨g, ha.claims ▸ hg, ?_, ?_⟩
  · rw [ha.locate, ha.family]
    exact hp
  · rw [hi, hr, inputAfter_eq ha.family hv]

/-- A transaction into which no operation falls is the only one until it is over. -/
theorem Transfers.only {s s' : State} {a : Access} {r : Except BusKind Byte} (h : Transfers s a r s') :
    ∃ new : History, s'.history = new ++ s.history ∧ (new.Alone → ∀ a' r', .transaction a' r' ∈ new → a' = a ∧ r' = r) := by
  obtain ⟨s₁, hn, rfl, rfl⟩ := h
  have hmade (r : Except BusKind Byte) : ∃ new : History, ((s₁.answered a).recorded a r).history = new ++ s₁.history ∧
      ∀ a' r', .transaction a' r' ∈ new → a' = a ∧ r' = s₁.board.outcome a := by
    cases r with
    | ok => exact ⟨[_], rfl, fun a' r' hm => by simpa using hm⟩
    | error => exact ⟨[_, _], rfl, fun a' r' hm => by simpa using hm⟩
  obtain ⟨new, hnew, honly⟩ := hmade (s₁.board.outcome a)
  rcases hn.announced with ⟨-, hh⟩ | ⟨o, later, hh⟩
  · exact ⟨new, by rw [hnew, hh], fun _ => honly⟩
  · refine ⟨new ++ (later ++ [.noted (.opBegan o) s.extender]), by rw [hnew, hh]; simp, fun ha => ?_⟩
    cases ha _ (List.mem_append_right _ (List.mem_append_right _ List.mem_cons_self))

/-- Reading some groups leaves in the memory what has been read of each. -/
theorem Reads.received {groups : List Nat} {s s' : State} {result : List Refresh × Bool} (h : Reads groups s result s')
    (hn : groups.Nodup) (hlt : ∀ g ∈ groups, g < 8) (hg : s.extender.Holds groups) : Receives s s' := by
  induction h with
  | nil => exact ⟨[], rfl, fun _ _ _ hm => (List.not_mem_nil hm).elim⟩
  | @cons s s₁ s' group groups place r now refreshes ok hp ht hnow hrest ih =>
    obtain ⟨hnot, hn⟩ := List.nodup_cons.1 hn
    have hlt' : ∀ g ∈ groups, g < 8 := fun g hgg => hlt g (List.mem_cons_of_mem _ hgg)
    have hst := ht.steady
    obtain ⟨new, hnew, honly⟩ := ht.only
    obtain ⟨new', hnew', hreceived⟩ := ih hn hlt'
      (Extender.holds_of_steady hst fun g hm => hg g (List.mem_cons_of_mem _ hm))
    refine ⟨new' ++ new, by rw [hnew', List.append_assoc, ← hnew]; rfl, fun ha place' content hm => ?_⟩
    rcases List.mem_append.1 hm with hm | hm
    · exact hreceived ha.left place' content hm
    · obtain ⟨hplace, rfl⟩ := honly ha.right _ _ hm
      cases hplace
      obtain ⟨new'', hnew'', hmakes⟩ := hrest.makes
      obtain rfl := State.new_unique hnew' hnew''
      obtain ⟨-, -, hlike⟩ := hmakes ha.left
      have hkept : s'.extender.shadow.input.byte group = now := by
        rw [(hrest.changes hn hlt').2.2 group hnot]
        exact (PinMap.byte_setByte _ _ _ _ (hlt group List.mem_cons_self)).trans (if_pos rfl)
      have habides := hst.abides
      refine ⟨group, ?_, ?_, ?_⟩
      · rw [hlike.abides.claims]
        exact habides.claims ▸ hg group List.mem_cons_self
      · rw [hlike.abides.locate, hlike.abides.family]
        show s₁.extender.locate group s₁.extender.family.inputReg = _
        rw [habides.locate, habides.family]
        exact hp
      · rw [hkept, hnow, inputAfter_eq (e := s₁.extender) hlike.abides.family hlike.invert]
        rfl

/-- Where nothing has been read, nothing has been read from a place. -/
theorem History.not_read {h : History} (hn : h.reads = []) (place : Place) (r : Except BusKind Byte) :
    .transaction (.read place) r ∉ h := by
  intro hm
  have hnone := List.filterMap_eq_nil_iff.1 hn _ hm
  cases hnone

/-- Reading the inputs leaves in the memory what has been read. -/
theorem Refreshes.received {groups : Byte} {s s' : State} {ok : Bool} (h : Refreshes groups s ok s') : Receives s s' := by
  obtain ⟨s₁, s₂, refreshes, hr, ht, rfl⟩ := h
  have hord := Byte.pairwise_groups (groups &&& s.extender.claims.groups)
  obtain ⟨new, hnew, hreceived⟩ := hr.received (hord.imp Nat.ne_of_lt) (fun g hg => Byte.lt_of_mem_groups hg)
    (s.extender.holds_and groups)
  obtain ⟨new', hl, hnone, hinput⟩ := ht.passPart
  obtain ⟨new'', hnew'', hmakes⟩ := ht.makes
  obtain rfl := State.new_unique hl.history hnew''
  refine ⟨new' ++ new, by rw [List.append_assoc, ← hnew, ← hl.history]; rfl, fun ha place content hm => ?_⟩
  rcases List.mem_append.1 hm with hm | hm
  · exact (History.not_read hnone place _ hm).elim
  · obtain ⟨-, -, hlike⟩ := hmakes ha.left
    have hst := s₂.works_rearmed.steady
    exact ((hreceived ha.right place content hm).of_eq hlike.abides hlike.invert hinput).of_eq hst.abides
      (by rw [State.shadow_rearmed]) (by rw [State.shadow_rearmed])

/-- When a pass is over, the memory has what the pass has read. -/
theorem Carries.received {pending : Status} {s s' : State} {clean : Bool} (h : Carries pending s clean s') : Receives s s' := by
  obtain ⟨plan, s₁, s₂, s₃, configured, written, read, hg, hc, hw, hr, -⟩ := h
  obtain ⟨looked, hlooked, -, hnone, -⟩ := hg.history
  obtain ⟨new₁, hm₁⟩ := hc.mute fun h => h.mute
  obtain ⟨new₂, hm₂⟩ := hw.mute fun h => h.mute
  have hm := hm₁.trans hm₂
  have hlast : Receives s₃ s' := by
    unfold Asked at hr
    split at hr
    · exact hr.received
    · rw [hr.2]
      exact ⟨[], rfl, fun _ _ _ hm => (List.not_mem_nil hm).elim⟩
  obtain ⟨new₃, hnew₃, hreceived⟩ := hlast
  refine ⟨new₃ ++ ((new₂ ++ new₁) ++ looked), by rw [hnew₃, hm.history, hlooked]; simp, fun ha place content hmem => ?_⟩
  rcases List.mem_append.1 hmem with hmem | hmem
  · exact hreceived ha.left place content hmem
  · refine (History.not_read ?_ place _ hmem).elim
    rw [History.reads_append, hm.reads, hnone]
    rfl

/-- A planned pass writes nothing any more when it has begun to read. -/
theorem Extender.not_write_after_read {e : Extender} {plan : Plan} {rest older : History} {place : Place} {r : Except BusKind Byte}
    (h : History.accesses (rest ++ .transaction (.read place) r :: older) = e.accesses plan) :
    ∀ p value, .write p value ∉ History.accesses (rest ++ [.transaction (.read place) r]) := by
  have hreads (p : Place) (value : Byte) : .write p value ∉ (e.looks plan).map Access.read := by simp
  rw [List.append_cons, History.accesses_append] at h
  rcases List.append_eq_append_iff.1 h.symm with ⟨reads, -, hr⟩ | ⟨writes, hw, hr⟩
  · intro p value hm
    exact hreads p value (hr ▸ List.mem_append_right _ hm)
  · cases writes with
    | nil =>
      rw [List.nil_append] at hr
      exact hr ▸ hreads
    | cons a writes =>
      -- then the read would be among the writes
      rw [History.accesses_append] at hr
      have hwrite : Access.read place ∈ (e.dues plan).map fun w => .write w.1 w.2 := by
        rw [hw, ← (List.cons.inj hr).1]
        exact List.mem_append_right _ List.mem_cons_self
      obtain ⟨w, -, ⟨⟩⟩ := List.mem_map.1 hwrite

/-- What has happened when a pass begins its work. -/
def PassRecord.opening (p : PassRecord) : History := .noted (.passBegan p.pending) p.before :: p.past

/-- What a pass that stems from a state has found and left when it has read a register. -/
theorem PassRecord.Stems.reads {p : PassRecord} {s t t' : State} (h : p.Stems s t t') (hs : s.Polarized s.extender.Lags)
    (ha : p.before.Apart) (ho : p.body.Unnested) {newer older : History} {place : Place} {content : Byte}
    (hb : p.body = newer ++ .transaction (.read place) (.ok content) :: older) :
    ∃ g, p.before.claims.groups.getLsbD g = true ∧ p.before.locate g p.before.family.inputReg = .ok place ∧
      p.before.Polarizes (older ++ p.opening) ∧ p.before.shadow.invert.byte g = History.inverted (older ++ p.opening) g ∧
      p.after.shadow.input.byte g = inputAfter p.before g 0 (.ok content) := by
  obtain ⟨ending, done, hbody, hdone, hend⟩ := h.body
  obtain ⟨rest, hsplit⟩ : ∃ rest, done = rest ++ .transaction (.read place) (.ok content) :: older := by
    refine History.split_of_append (hbody.symm.trans hb) fun hm => ?_
    obtain ⟨bits, ⟨⟩⟩ := hend _ hm
  -- operations that fall in would begin while the pass is at work
  have halone : done.Alone := h.works.alone (by rw [h.extender, h.before]; rfl) hdone fun ev hm =>
    ho ev (hbody ▸ List.mem_append_right _ hm)
  obtain ⟨plan, new, -, hnew, htries⟩ := h.carries.tries
  obtain rfl := State.new_unique hdone hnew
  obtain ⟨htried, hquiet, hinvert⟩ := htries halone
  obtain ⟨new, hnew', hreceived⟩ := h.carries.received
  obtain rfl := State.new_unique hdone hnew'
  obtain ⟨g, hg, hplace, hinput⟩ := hreceived halone place content (hsplit ▸ List.mem_append_right _ List.mem_cons_self)
  have hbegun := hs.begun h.toBegins
  have hsteady := h.works.steady.abides
  have hopening : t.history = p.opening := h.history
  rw [h.extender] at hsteady hinvert htried
  refine ⟨g, hsteady.claims ▸ hg, ?_, ?_, ?_, ?_⟩
  · rw [← hplace, hsteady.locate, hsteady.family]
  · rw [hsplit] at htried hdone halone
    have hdone' : t'.history = ((rest ++ [.transaction (.read place) (.ok content)]) ++ older) ++ t.history := by
      rw [hdone, List.append_cons]
    have hpolarizes := h.carries.polarizes (h.extender ▸ ha) hbegun.polarity _ hdone'
      (List.append_cons _ _ _ ▸ halone) (Extender.not_write_after_read htried)
    rw [hopening, h.extender] at hpolarizes
    exact hpolarizes
  · rw [← h.extender, hbegun.byte_invert (BitVec.lt_of_getLsbD hg), hopening, History.inverted_append fun e hm => ?_]
    cases hquiet _ (hsplit ▸ List.mem_append_right _ (List.mem_cons_of_mem _ hm))
  · have hafter : p.after.shadow.input = t'.extender.shadow.input := by
      rw [h.after]
      cases p.clean <;> rfl
    rw [hafter, hinput, inputAfter_eq hsteady.family hinvert]

/-! ## Sessions -/

/-- A pass whose body after some events begins with a read that has succeeded has read that content. -/
theorem PassRecord.read_of_drop {p : PassRecord} (k : Nat) {q : Place → Byte → History → Bool}
    (hk : (match p.body.drop k with
      | .transaction (.read place) (.ok content) :: older => q place content older
      | _ => false) = true) :
    ∃ newer place content older, p.body = newer ++ .transaction (.read place) (.ok content) :: older ∧
      q place content older = true := by
  split at hk
  · rename_i place content older hd
    exact ⟨p.body.take k, place, content, older, by rw [← hd, List.take_append_drop], hk⟩
  · cases hk

/-- The chips of a family that has no polarity registers. -/
def Family.plain : Family := { Device.pca9554.family with name := "plain", polarityReg := none }

/-- The registers of the plain family do not share their places. -/
theorem Family.spaced_plain : plain.Spaced := by
  intro k k' reg reg' i i' hk hk' hi hi' heq
  obtain rfl : i = 0 := Nat.lt_one_iff.1 hi
  obtain rfl : i' = 0 := Nat.lt_one_iff.1 hi'
  cases k <;> cases k' <;> cases hk <;> cases hk' <;> first | rfl | cases heq

/-- The state after some steps of a session with the generic engine, which has no line, and a chip without a polarity register. -/
@[irreducible] def State.onePlain (steps : List Step) : State :=
  (({ extender := .fresh Family.plain 0x20 genericCapacity (.ofPredicate fun line => false && line == 0)
        (.generic { wired := false, high := false, polling := false }) genericCapacity_le,
      board := .withChips [0x20] false, history := [] } : State).play (Session.nestAt 1) steps).2

/-- Sessions of a plain chip are sessions. -/
theorem reachable_onePlain (steps : List Step) : Reachable (State.onePlain steps) := by
  unfold State.onePlain
  exact (@Reachable.start (.generic Family.plain 0 false) _ _ _ rfl).play 1 steps

/-- Input inversion is applied once. Take a session in which no pass is cut short by a fault, no operation begins while a pass is at
work, no pin is given back, and registers that are written to do not share their places. When a pass has read the inputs of a group,
which has a claimed pin, and the family has polarity registers, then the group's was last written with the inversions that the latest
setups of its pins ask for, or never if they ask for none, and the memory keeps the byte as it was read. If the family has no polarity
registers, the memory keeps the byte with these inversions applied, and nothing is ever written but directions and outputs of groups
with claimed pins. Whether transactions fail makes no difference: a write that fails was tried with the same byte. -/
theorem inputs_are_inverted_once {s : State} (hs : Reachable s) (hapart : s.history.Apart) (hu : s.history.Uncut)
    (ho : s.history.Unnested) (hf : s.history.Unfreed) :
    (∀ p, s.history.Records p → ∀ newer older place content,
      p.body = newer ++ .transaction (.read place) (.ok content) :: older →
      ∃ g, p.before.claims.groups.getLsbD g = true ∧ p.before.locate g p.before.family.inputReg = .ok place ∧
        match p.before.family.polarityReg with
        | some reg => (∀ polarity, p.before.locate g reg = .ok polarity →
            History.content (older ++ p.opening) polarity = History.inverted (older ++ p.opening) g) ∧
            p.after.shadow.input.byte g = content
        | none => p.after.shadow.input.byte g = content ^^^ History.inverted (older ++ p.opening) g) ∧
    (s.extender.family.polarityReg = none → ∀ place value r, .transaction (.write place value) r ∈ s.history →
      ∃ g, s.extender.claims.groups.getLsbD g = true ∧ (s.extender.locate g s.extender.family.configReg = .ok place ∨
        s.extender.locate g s.extender.family.outputReg = .ok place)) := by
  obtain ⟨e₀, board, hmade, hgo, -⟩ := hs.goes
  constructor
  · intro p hp newer older place content hbody
    obtain ⟨s₁, t, t', hgo₁, hst⟩ := hgo.exists_stems rfl hp
    obtain ⟨⟨later, hlater⟩, -⟩ := hp
    obtain ⟨ready, hready, -⟩ := hst.ready
    have hpast {ev : Event} (hm : ev ∈ s₁.history) : ev ∈ s.history := by
      rw [hlater, hready]
      simp [hm]
    have hbefore : .noted (.passBegan p.pending) p.before ∈ s.history := by
      rw [hlater]
      simp
    -- the state from which the pass stems lies in the past of the session, and so do its conditions
    have hpolarized := hgo₁.polarized hmade (fun n e hm => hapart n e (hpast hm)) (fun ev hm => hu ev (hpast hm))
      (fun ev hm => ho ev (hpast hm)) fun ev hm => hf ev (hpast hm)
    have happart : p.before.Apart := by
      rcases hapart _ _ hbefore with hq | ha
      · have hsame := (Goes.moves hgo₁).sameMake
        have hsame : p.before.family = e₀.family ∧ p.before.name = e₀.name := by
          rw [hst.before]
          exact ⟨hsame.family, hsame.name⟩
        exact hmade.apart hsame.1 hsame.2 hq
      · exact ha
    obtain ⟨g, hg, hplace, hpolarizes, hinverted, hinput⟩ := hst.reads hpolarized happart (fun ev hm => ho ev (by
      rw [hlater]
      simp [hm])) hbody
    refine ⟨g, hg, hplace, ?_⟩
    unfold inputAfter at hinput
    cases hreg : p.before.family.polarityReg with
    | some reg =>
      rw [hreg] at hinput
      exact ⟨fun polarity hpolarity => (hpolarizes g reg polarity hg hreg hpolarity).trans hinverted, hinput⟩
    | none =>
      rw [hreg, hinverted] at hinput
      exact hinput
  · intro hnone place value r hm
    obtain ⟨g, hg, reg, hreg, hplace⟩ := (hgo.polarized hmade hapart hu ho hf).wrote place value r hm
    unfold Family.writtenRegs at hreg
    rw [hnone] at hreg
    rcases List.mem_cons.1 hreg with rfl | hreg
    · exact ⟨g, hg, .inl hplace⟩
    · rw [List.mem_singleton.1 hreg] at hplace
      exact ⟨g, hg, .inr hplace⟩

/-- Pin 0 is set up as an active-low input, and its group reads as zero. A chip with a polarity register is told to invert the pin, and
what it sends is kept; what one without a polarity register sends is inverted. -/
theorem inputs_are_inverted_once_of_setup :
    let steps : List Step := [.claim 0, .op (.call (.setup 0 (PinAttributes.input ∪ PinAttributes.activeLow))), .op .update]
    (∃ p newer older, (State.oneLine steps).history.Records p ∧
      p.body = newer ++ .transaction (.read ⟨0x20, 0⟩) (.ok 0) :: older ∧
      History.content (older ++ p.opening) ⟨0x20, 2⟩ = 1 ∧ p.after.shadow.input.byte 0 = 0) ∧
    ∃ p newer older, (State.onePlain steps).history.Records p ∧
      p.body = newer ++ .transaction (.read ⟨0x20, 0⟩) (.ok 0) :: older ∧ p.after.shadow.input.byte 0 = 1 := by
  intro steps
  have hone {g : Nat} (hg : (1 : Byte).getLsbD g = true) : g = 0 := by
    simpa using hg
  have hapart {f : Family} (hf : f.Spaced) {h : History} (hall : h.all (fun ev => ev.note?.all (·.2.family == f)) = true) :
      h.Apart := by
    intro n e hm
    have he : (e.family == f) = true := List.all_eq_true.1 hall _ hm
    exact .inr (Family.Spaced.apart (eq_of_beq he ▸ hf))
  constructor
  · obtain ⟨p, hp, hq⟩ := (Option.any_eq_true _ _).1
      (by decide +kernel : (((State.oneLine steps).history.pass? 2).any fun p => p.before.claims.groups == 1 &&
        p.before.family == Device.pca9554.family && p.before.address == 0x20 && match p.body.drop 0 with
        | .transaction (.read place) (.ok content) :: older =>
          place == ⟨0x20, 0⟩ && content == 0 && History.inverted (older ++ p.opening) 0 == 1
        | _ => false) = true)
    simp only [Bool.and_eq_true, beq_iff_eq] at hq
    obtain ⟨⟨⟨hgroups, hfamily⟩, haddress⟩, hq⟩ := hq
    obtain ⟨newer, place, content, older, hbody, hq⟩ := PassRecord.read_of_drop 0
      (q := fun place content older => place == ⟨0x20, 0⟩ && content == 0 && History.inverted (older ++ p.opening) 0 == 1) hq
    simp only [Bool.and_eq_true, beq_iff_eq] at hq
    obtain ⟨⟨rfl, rfl⟩, hinverted⟩ := hq
    have hp := History.records_of_pass? hp
    obtain ⟨g, hg, -, hread⟩ := (inputs_are_inverted_once (reachable_oneLine steps)
      (hapart Device.pca9554.spaced (by decide +kernel)) (by decide +kernel) (by decide +kernel) (by decide +kernel)).1
      p hp newer older _ _ hbody
    obtain rfl := hone (hgroups ▸ hg)
    rw [show p.before.family.polarityReg = some 2 by rw [hfamily]; rfl] at hread
    obtain ⟨hpolarity, hkept⟩ := hread
    refine ⟨p, newer, older, hp, hbody, (hpolarity _ ?_).trans hinverted, hkept⟩
    unfold Extender.locate
    rw [hfamily, haddress]
    rfl
  · obtain ⟨p, hp, hq⟩ := (Option.any_eq_true _ _).1
      (by decide +kernel : (((State.onePlain steps).history.pass? 2).any fun p => p.before.claims.groups == 1 &&
        p.before.family == Family.plain && match p.body.drop 0 with
        | .transaction (.read place) (.ok content) :: older =>
          place == ⟨0x20, 0⟩ && content == 0 && History.inverted (older ++ p.opening) 0 == 1
        | _ => false) = true)
    simp only [Bool.and_eq_true, beq_iff_eq] at hq
    obtain ⟨⟨hgroups, hfamily⟩, hq⟩ := hq
    obtain ⟨newer, place, content, older, hbody, hq⟩ := PassRecord.read_of_drop 0
      (q := fun place content older => place == ⟨0x20, 0⟩ && content == 0 && History.inverted (older ++ p.opening) 0 == 1) hq
    simp only [Bool.and_eq_true, beq_iff_eq] at hq
    obtain ⟨⟨rfl, rfl⟩, hinverted⟩ := hq
    have hp := History.records_of_pass? hp
    obtain ⟨g, hg, -, hread⟩ := (inputs_are_inverted_once (reachable_onePlain steps)
      (hapart Family.spaced_plain (by decide +kernel)) (by decide +kernel) (by decide +kernel) (by decide +kernel)).1
      p hp newer older _ _ hbody
    obtain rfl := hone (hgroups ▸ hg)
    rw [show p.before.family.polarityReg = none by rw [hfamily]; rfl] at hread
    exact ⟨p, newer, older, hp, hbody, hread.trans (by rw [hinverted]; rfl)⟩

end PortExpander
