import PortExpander.Proofs.Healing

/-!
# Registers that are owed

Of the three registers of a group that are written to, each is either `Owed`, which means that a pass still has to write it, or
it holds what the shadow means it to hold, as far as the history of writes tells. Whatever happens beside the writes of a pass
keeps this up: what changes the shadow makes the register owed.
-/

namespace PortExpander

open Sim Engine

/-! ## What a write of a pin changes -/

namespace PinMap

/-- Maps with the same bits are the same. -/
theorem ext_get {m m' : PinMap} (h : ∀ pin, m.get pin = m'.get pin) : m = m' :=
  congrArg PinMap.mk (BitVec.eq_of_getLsbD_eq fun i _ => h i)

/-- A pin that a map has no bit for cannot be changed. -/
theorem set_of_ge (m : PinMap) {pin : Nat} (hp : 64 ≤ pin) (value : Bool) : m.set pin value = m := by
  have hzero : BitVec.twoPow 64 pin = 0#64 := by
    apply BitVec.eq_of_getLsbD_eq
    intro i hi
    have hne : pin ≠ i := by omega
    simp [hne]
  unfold set
  rw [hzero]
  cases value with
  | false => rw [if_neg Bool.false_ne_true, BitVec.not_zero, BitVec.and_allOnes]
  | true => rw [if_pos rfl, BitVec.or_zero]

/-- Giving a pin a value changes no other pin. -/
theorem get_set_of_ne (m : PinMap) {pin i : Nat} (h : i ≠ pin) (value : Bool) : (m.set pin value).get i = m.get i := by
  by_cases hp : pin < 64
  · rw [get_set m pin value i hp, if_neg h]
  · rw [set_of_ge m (Nat.le_of_not_lt hp)]

/-- Giving a pin the value it has changes nothing. -/
theorem set_get (m : PinMap) (pin : Nat) : m.set pin (m.get pin) = m := by
  by_cases hp : pin < 64
  · have hbits : (m.set pin (m.get pin)).bits = m.bits := by
      apply BitVec.eq_of_getLsbD_eq
      intro i _
      have h := get_set m pin (m.get pin) i hp
      split at h
      · rename_i hip
        rw [hip] at h ⊢
        exact h
      · exact h
    cases m
    exact congrArg PinMap.mk hbits
  · exact set_of_ge m (Nat.le_of_not_lt hp) _

/-- A group's bits do not change with a pin of another group. -/
theorem byte_set (m : PinMap) (pin : Nat) (value : Bool) {g : Nat} (hg : g ≠ pin / 8) :
    (m.set pin value).byte g = m.byte g := by
  by_cases hp : pin < 64
  · apply BitVec.eq_of_getLsbD_eq
    intro i hi
    rw [getLsbD_byte _ _ _ hi, getLsbD_byte _ _ _ hi, get_set m pin value _ hp, if_neg]
    omega
  · rw [set_of_ge m (Nat.le_of_not_lt hp)]

end PinMap

namespace Shadow

/-- A write stages what is staged before. -/
theorem staged_write (s : Shadow) (pin : Nat) (high : Bool) {g : Nat} (h : s.staged.getLsbD g = true) :
    (s.write pin high).staged.getLsbD g = true := by
  show (if _ then s.staged ||| BitVec.twoPow 8 (pin / 8) else s.staged).getLsbD g = true
  split
  · rw [BitVec.getLsbD_or, h, Bool.true_or]
  · exact h

/-- A write that changes the level of an output stages its group. -/
theorem staged_write_of_ne (s : Shadow) {pin : Nat} {high : Bool} (hv : s.output.get pin ≠ high) (hp : pin / 8 < 8) :
    (s.write pin high).staged.getLsbD (pin / 8) = true := by
  show (if (s.output.get pin != high) = true then s.staged ||| BitVec.twoPow 8 (pin / 8) else s.staged).getLsbD _ = true
  rw [if_pos (bne_iff_ne.2 hv), BitVec.getLsbD_or, BitVec.getLsbD_twoPow]
  simp [hp]

/-- A write stages each group whose outputs it changes. -/
theorem outputByte_write (s : Shadow) (pin : Nat) (high : Bool) {g : Nat} (hg : g < 8) :
    (s.write pin high).outputByte g = s.outputByte g ∨ (s.write pin high).staged.getLsbD g = true := by
  have hbyte (h : (s.output.set pin high).byte g = s.output.byte g) :
      (s.write pin high).outputByte g = s.outputByte g := by
    show (s.output.set pin high).byte g ^^^ _ = s.output.byte g ^^^ _
    rw [h]
    rfl
  by_cases hv : s.output.get pin = high
  · left
    apply hbyte
    rw [← hv, PinMap.set_get]
  · by_cases hgp : g = pin / 8
    · rw [hgp] at hg ⊢
      exact .inr (s.staged_write_of_ne hv hg)
    · left
      exact hbyte (PinMap.byte_set s.output pin high hgp)

end Shadow

/-! ## Registers -/

/-- The registers of a group that are written to. -/
inductive Register where
  | polarity
  | config
  | output
  deriving DecidableEq

/-- The number of a register of a family's first bank, if the family has the register. -/
def Family.number? (f : Family) : Register → Option Byte
  | .polarity => f.polarityReg
  | .config => some f.configReg
  | .output => some f.outputReg

/-- What the shadow means a register of a group to hold. Outputs that are active low are inverted, inputs are not. -/
def Shadow.meant (s : Shadow) : Register → Nat → Byte
  | .polarity, g => s.invert.byte g
  | .config, g => s.direction.byte g
  | .output, g => s.output.byte g ^^^ (s.invert.byte g &&& ~~~s.direction.byte g)

/-- The byte of the last write to a place, and whether that write succeeded. -/
def History.lastWrite (place : Place) : History → Option (Byte × Bool)
  | [] => none
  | .transaction (.write place' value) result :: past =>
    if place' = place then some (value, succeeded result) else lastWrite place past
  | _ :: past => lastWrite place past

/-- The last write to a register of a group, if there is such a register, succeeded and carried what the shadow means the
register to hold. -/
def Extender.InSync (e : Extender) (h : History) (k : Register) (g : Nat) : Prop :=
  ∀ reg, e.family.number? k = some reg →
    ∃ place, e.locate g reg = .ok place ∧ h.lastWrite place = some (e.shadow.meant k g, true)

/-- A pass still has to write a register of a group: the configuration is asked for, or the register is an output and its group
is staged, or is dirty and the outputs are asked for. -/
def Extender.Owed (e : Extender) (k : Register) (g : Nat) : Prop :=
  e.status.contains Status.configDirty = true ∨ (k = .output ∧ (e.shadow.staged.getLsbD g = true ∨
    (e.shadow.dirty.getLsbD g = true ∧ e.status.contains Status.writeDirty = true)))

/-- The pin that a note tells to have been set up. -/
def Note.pinSetUp? : Note → Option Nat
  | opEnded (.call (.setup pin _)) .done => some pin
  | stepEnded (.op (.call (.setup pin _))) .done => some pin
  | _ => none

/-- Whether a pin of a group has been set up, and the group has had a claimed pin ever since. -/
def History.setUp (g : Nat) : History → Bool
  | [] => false
  | .noted n e :: past => n.pinSetUp?.any (· / 8 == g) || (setUp g past && e.claims.groups.getLsbD g)
  | _ :: past => setUp g past

/-- Every register of a claimed group that has been set up is exempt, owed or in sync. -/
def State.Synced (s : State) (exempt : Register → Nat → Prop) : Prop :=
  ∀ k g, s.history.setUp g = true → s.extender.claims.groups.getLsbD g = true →
    exempt k g ∨ s.extender.Owed k g ∨ s.extender.InSync s.history k g

/-! ## Places -/

/-- Registers of claimed groups that are written to do not share their places. -/
def Extender.Apart (e : Extender) : Prop :=
  ∀ g g' k k' reg reg' place, e.claims.groups.getLsbD g = true → e.claims.groups.getLsbD g' = true →
    e.family.number? k = some reg → e.family.number? k' = some reg' →
    e.locate g reg = .ok place → e.locate g' reg' = .ok place → g = g' ∧ k = k'

/-- A sum that is a byte is the sum of the numbers. -/
theorem Byte.toNat_of_plus {a b sum : Byte} (h : a.plus b = .ok sum) : sum.toNat = a.toNat + b.toNat := by
  unfold plus at h
  split at h
  · rename_i hlt
    rw [← Except.ok.inj h, BitVec.toNat_add, Nat.mod_eq_of_lt hlt]
  · cases h

/-- Two bytes have no sum if it is no byte. -/
theorem Byte.plus_eq_error {a b : Byte} {e : Fault} (h : a.plus b = .error e) : 255 < a.toNat + b.toNat ∧ e = .addOverflow := by
  unfold plus at h
  split at h
  · cases h
  · cases h
    exact ⟨by omega, rfl⟩

/-- Registers can be located only if a chip has a bank. -/
theorem Family.pos_of_locate {f : Family} {address reg : Byte} {group : Nat} {place : Place}
    (h : f.locate address group reg = .ok place) : 0 < f.registersPerDevice := by
  refine Nat.pos_of_ne_zero fun hz => ?_
  rw [locate, if_pos hz] at h
  cases h

/-- If a chip has a bank, a group has a place, which two sums of bytes tell, or one of the sums is no byte. -/
theorem Family.locate_cases {f : Family} (hpos : 0 < f.registersPerDevice) (address : Byte) (group : Nat) (reg : Byte) :
    (∃ place, f.locate address group reg = .ok place ∧
      place.address.toNat = address.toNat + group / f.registersPerDevice % 256 ∧
      place.register.toNat = reg.toNat + group % f.registersPerDevice % 256) ∨
    (255 < address.toNat + group / f.registersPerDevice % 256 ∨ 255 < reg.toNat + group % f.registersPerDevice % 256) ∧
      f.locate address group reg = .error .addOverflow := by
  have hnumber (n : Nat) : (BitVec.ofNat 8 n).toNat = n % 256 := BitVec.toNat_ofNat _ _
  rw [locate, if_neg (Nat.ne_of_gt hpos)]
  cases ha : address.plus (BitVec.ofNat 8 (group / f.registersPerDevice)) with
  | error e =>
    obtain ⟨hover, rfl⟩ := Byte.plus_eq_error ha
    exact .inr ⟨.inl (hnumber _ ▸ hover), rfl⟩
  | ok a =>
    cases hr : reg.plus (BitVec.ofNat 8 (group % f.registersPerDevice)) with
    | error e =>
      obtain ⟨hover, rfl⟩ := Byte.plus_eq_error hr
      exact .inr ⟨.inr (hnumber _ ▸ hover), rfl⟩
    | ok r => exact .inl ⟨⟨a, r⟩, rfl, hnumber _ ▸ Byte.toNat_of_plus ha, hnumber _ ▸ Byte.toNat_of_plus hr⟩

/-- Where a register of one of the eight groups is, as far as it can be located. -/
theorem Family.locate_eq_ok {f : Family} {address reg : Byte} {g : Nat} {place : Place} (hg : g < 8)
    (h : f.locate address g reg = .ok place) :
    place.address.toNat = address.toNat + g / f.registersPerDevice ∧
      place.register.toNat = reg.toNat + g % f.registersPerDevice := by
  have hdiv := Nat.div_le_self g f.registersPerDevice
  have hmod := Nat.mod_le g f.registersPerDevice
  rcases locate_cases (pos_of_locate h) address g reg with ⟨place', h', ha, hr⟩ | ⟨-, h'⟩
  · cases h.symm.trans h'
    rw [Nat.mod_eq_of_lt (by omega)] at ha hr
    exact ⟨ha, hr⟩
  · cases h.symm.trans h'

/-- Groups lie side by side on the chips: a register of one group has its place to itself among those of all groups. -/
theorem Family.locate_inj {f : Family} {address reg : Byte} {g g' : Nat} {place : Place} (hg : g < 8) (hg' : g' < 8)
    (h : f.locate address g reg = .ok place) (h' : f.locate address g' reg = .ok place) : g = g' := by
  obtain ⟨ha, hr⟩ := locate_eq_ok hg h
  obtain ⟨ha', hr'⟩ := locate_eq_ok hg' h'
  have hdiv : g / f.registersPerDevice = g' / f.registersPerDevice := by omega
  have hmod : g % f.registersPerDevice = g' % f.registersPerDevice := by omega
  rw [← Nat.div_add_mod g f.registersPerDevice, hdiv, hmod, Nat.div_add_mod]

/-- Registers that are written to do not overlap on the chips of a family. -/
def Family.Spaced (f : Family) : Prop :=
  ∀ k k' reg reg' i i', f.number? k = some reg → f.number? k' = some reg' → i < f.registersPerDevice →
    i' < f.registersPerDevice → reg.toNat + i = reg'.toNat + i' → k = k'

/-- Groups lie side by side on the chips, so if a chip's registers do not overlap, no two registers share a place. -/
theorem Family.Spaced.apart {e : Extender} (h : e.family.Spaced) : e.Apart := by
  intro g g' k k' reg reg' place hg hg' hk hk' hp hp'
  obtain ⟨_, hr⟩ := Family.locate_eq_ok (BitVec.lt_of_getLsbD hg) hp
  obtain ⟨_, hr'⟩ := Family.locate_eq_ok (BitVec.lt_of_getLsbD hg') hp'
  have hpos : 0 < e.family.registersPerDevice := Family.pos_of_locate hp
  have hkk : k = k' := h k k' reg reg' _ _ hk hk' (Nat.mod_lt g hpos) (Nat.mod_lt g' hpos) (hr.symm.trans hr')
  subst hkk
  rw [hk] at hk'
  cases hk'
  exact ⟨Family.locate_inj (BitVec.lt_of_getLsbD hg) (BitVec.lt_of_getLsbD hg') hp hp', rfl⟩

/-- The row of a register among those of a chip: each row has a register for every bank. -/
def Register.row : Register → Nat
  | .output => 1
  | .polarity => 2
  | .config => 3

/-- The registers of the built-in families do not overlap. -/
theorem Device.spaced (d : Device) : d.family.Spaced := by
  have hrow {k : Register} {reg : Byte} (hk : d.family.number? k = some reg) :
      reg.toNat = d.family.registersPerDevice * k.row := by
    cases d <;> cases k <;> cases hk <;> rfl
  have hdiv {r m i : Nat} (hi : i < r) : (r * m + i) / r = m := by
    rw [Nat.mul_add_div (by omega), Nat.div_eq_of_lt hi, Nat.add_zero]
  intro k k' reg reg' i i' hk hk' hi hi' heq
  rw [hrow hk, hrow hk'] at heq
  have hrows : k.row = k'.row :=
    calc k.row = (d.family.registersPerDevice * k.row + i) / d.family.registersPerDevice := (hdiv hi).symm
      _ = (d.family.registersPerDevice * k'.row + i') / d.family.registersPerDevice := by rw [heq]
      _ = k'.row := hdiv hi'
  cases k <;> cases k' <;> first | rfl | cases hrows

/-! ## What happens beside writes -/

/-- One state leads to another without a write: what changes the shadow makes registers owed, and what is owed stays so. -/
structure NoWrite (s s' : State) : Prop where
  family : s'.extender.family = s.extender.family
  address : s'.extender.address = s.extender.address
  claims : s'.extender.claims = s.extender.claims
  lastWrite : ∀ place, s'.history.lastWrite place = s.history.lastWrite place
  setUp : ∀ g, s'.history.setUp g = true → s.history.setUp g = true ∨ s'.extender.Owed .config g
  owed : ∀ k g, s.extender.Owed k g → s'.extender.Owed k g
  meant : ∀ k g, g < 8 → s'.extender.shadow.meant k g = s.extender.shadow.meant k g ∨ s'.extender.Owed k g

/-- An owed configuration has all registers of its group written. -/
theorem Extender.Owed.of_config {e : Extender} {g : Nat} (h : e.Owed .config g) (k : Register) (g' : Nat) : e.Owed k g' := by
  rcases h with h | ⟨h, _⟩
  · exact .inl h
  · cases h

namespace NoWrite

theorem refl (s : State) : NoWrite s s where
  family := rfl
  address := rfl
  claims := rfl
  lastWrite _ := rfl
  setUp _ h := .inl h
  owed _ _ h := h
  meant _ _ _ := .inl rfl

theorem trans {s s' s'' : State} (h : NoWrite s s') (h' : NoWrite s' s'') : NoWrite s s'' where
  family := h'.family.trans h.family
  address := h'.address.trans h.address
  claims := h'.claims.trans h.claims
  lastWrite place := (h'.lastWrite place).trans (h.lastWrite place)
  setUp g hg := by
    rcases h'.setUp g hg with hg | hg
    · exact (h.setUp g hg).imp id (h'.owed .config g)
    · exact .inr hg
  owed k g hg := h'.owed k g (h.owed k g hg)
  meant k g hg := by
    rcases h'.meant k g hg with hm | hm
    · rw [hm]
      exact (h.meant k g hg).imp id (h'.owed k g)
    · exact .inr hm

end NoWrite

/-- What happens beside writes keeps registers in sync or makes them owed. -/
theorem State.Synced.noWrite {s s' : State} {exempt : Register → Nat → Prop} (hs : s.Synced exempt) (h : NoWrite s s') :
    s'.Synced exempt := by
  intro k g hup hcl
  rcases h.setUp g hup with hup | ho
  · rw [h.claims] at hcl
    rcases hs k g hup hcl with he | ho | hi
    · exact .inl he
    · exact .inr (.inl (h.owed k g ho))
    · rcases h.meant k g (BitVec.lt_of_getLsbD hcl) with hm | ho
      · right
        right
        intro reg hreg
        rw [h.family] at hreg
        obtain ⟨place, hp, hw⟩ := hi reg hreg
        refine ⟨place, ?_, ?_⟩
        · rw [Extender.locate, h.family, h.address]
          exact hp
        · rw [h.lastWrite, hm]
          exact hw
      · exact .inr (.inl ho)
  · exact .inr (.inl (ho.of_config k g))

/-- Whether an event is a write. -/
def Event.isWrite : Event → Bool
  | transaction (.write ..) _ => true
  | _ => false

theorem History.lastWrite_cons {ev : Event} (h : ev.isWrite = false) (place : Place) (past : History) :
    lastWrite place (ev :: past) = lastWrite place past := by
  cases ev with
  | transaction a r => cases a <;> first | rfl | cases h
  | _ => rfl

/-- The last write to a register is the latest one to its place. -/
theorem History.lastWrite_write (place place' : Place) (value : Byte) (r : Except BusKind Byte) (past : History) :
    lastWrite place (.transaction (.write place' value) r :: past) =
      if place' = place then some (value, succeeded r) else lastWrite place past := rfl

/-- A note of the memory as it is, of which it says the truth, adds no group that has been set up unless configuration is owed. -/
theorem History.setUp_cons {ev : Event} {past : History} {e : Extender}
    (hn : ∀ n e', ev = .noted n e' → e' = e ∧ n.Confirmed e') {g : Nat} (h : setUp g (ev :: past) = true) :
    setUp g past = true ∨ e.Owed .config g := by
  cases ev with
  | noted n e' =>
    obtain ⟨rfl, hc⟩ := hn n e' rfl
    change (n.pinSetUp?.any (· / 8 == g) || (setUp g past && e'.claims.groups.getLsbD g)) = true at h
    rw [Bool.or_eq_true, Bool.and_eq_true] at h
    rcases h with h | h
    · right
      left
      unfold Note.pinSetUp? at h
      split at h
      · exact hc.2
      · exact hc.2
      · cases h
    · exact .inl h.1
  | _ => exact .inl h

namespace NoWrite

/-- One event that is no write; nothing in the memory changes that bears on writes. -/
theorem event {s s' : State} {ev : Event} (hh : s'.history = ev :: s.history) (hw : ev.isWrite = false)
    (hn : ∀ n e, ev = .noted n e → e = s'.extender ∧ n.Confirmed e) (hf : s'.extender.family = s.extender.family)
    (ha : s'.extender.address = s.extender.address) (hc : s'.extender.claims = s.extender.claims)
    (ho : ∀ k g, s.extender.Owed k g → s'.extender.Owed k g)
    (hm : ∀ k g, g < 8 → s'.extender.shadow.meant k g = s.extender.shadow.meant k g ∨ s'.extender.Owed k g) :
    NoWrite s s' where
  family := hf
  address := ha
  claims := hc
  lastWrite place := by rw [hh, History.lastWrite_cons hw]
  setUp g hg := History.setUp_cons hn (hh ▸ hg)
  owed := ho
  meant := hm

/-- Nothing is added to the history; nothing in the memory changes that bears on writes. -/
theorem silent {s s' : State} (hh : s'.history = s.history) (hf : s'.extender.family = s.extender.family)
    (ha : s'.extender.address = s.extender.address) (hc : s'.extender.claims = s.extender.claims)
    (ho : ∀ k g, s.extender.Owed k g → s'.extender.Owed k g)
    (hm : ∀ k g, g < 8 → s'.extender.shadow.meant k g = s.extender.shadow.meant k g ∨ s'.extender.Owed k g) :
    NoWrite s s' where
  family := hf
  address := ha
  claims := hc
  lastWrite place := by rw [hh]
  setUp g hg := .inl (hh ▸ hg)
  owed := ho
  meant := hm

end NoWrite

/-- What is owed stays so when the status word and the masks only grow. -/
theorem Extender.Owed.mono {e e' : Extender} {k : Register} {g : Nat} (h : e.Owed k g)
    (hs : ∀ f, e.status.contains f = true → e'.status.contains f = true)
    (hst : e.shadow.staged.getLsbD g = true → e'.shadow.staged.getLsbD g = true)
    (hd : e.shadow.dirty.getLsbD g = true → e'.shadow.dirty.getLsbD g = true) : e'.Owed k g := by
  rcases h with h | ⟨hk, h | ⟨h, hw⟩⟩
  · exact .inl (hs _ h)
  · exact .inr ⟨hk, .inl (hst h)⟩
  · exact .inr ⟨hk, .inr ⟨hd h, hs _ hw⟩⟩

/-- What is owed after a touch, and what the shadow means registers to hold then. -/
theorem Touch.owed {s s' : State} (h : Touch s s') :
    (∀ k g, s.extender.Owed k g → s'.extender.Owed k g) ∧
      ∀ k g, g < 8 → s'.extender.shadow.meant k g = s.extender.shadow.meant k g ∨ s'.extender.Owed k g := by
  have hsame (hsh : s'.extender.shadow = s.extender.shadow) :
      (∀ k g, s.extender.Owed k g → s'.extender.Owed k g) ∧
        ∀ k g, g < 8 → s'.extender.shadow.meant k g = s.extender.shadow.meant k g ∨ s'.extender.Owed k g := by
    refine ⟨fun k g ho => ?_, fun k g _ => ?_⟩
    · exact ho.mono h.frame.status (fun h => hsh ▸ h) (fun h => hsh ▸ h)
    · rw [hsh]
      exact .inl rfl
  have hrepolled (e : Extender) (handlers : Handlers) : { e with handlers }.repolled.shadow = e.shadow := by
    unfold Extender.repolled
    split <;> rfl
  cases h with
  | setUp pin attrs =>
    have hc (k : Register) (g : Nat) : ((s.amend fun e => { e with shadow := e.shadow.setup pin attrs }).asking
        .configDirty).extender.Owed k g := .inl (FlagSet.contains_union_right _ (FlagSet.contains_refl _))
    exact ⟨fun k g _ => hc k g, fun k g _ => .inr (hc k g)⟩
  | write pin high =>
    refine ⟨fun k g ho => ho.mono (fun _ h => h) (Shadow.staged_write _ pin high) id, fun k g hg => ?_⟩
    cases k with
    | polarity | config => exact .inl rfl
    | output =>
      rcases Shadow.outputByte_write s.extender.shadow pin high hg with hb | hst
      · exact .inl hb
      · exact .inr (.inr ⟨rfl, .inl hst⟩)
  | commit =>
    refine ⟨fun k g ho => ?_, fun k g _ => .inl ?_⟩
    · rcases ho with ho | ⟨rfl, ho | ⟨ho, hw⟩⟩
      · exact .inl (FlagSet.contains_union_left _ ho)
      -- what was staged is dirty now, and its output is asked for
      · refine .inr ⟨rfl, .inr ⟨?_, FlagSet.contains_union_right _ (FlagSet.contains_refl _)⟩⟩
        show s.extender.shadow.commit.dirty.getLsbD g = true
        rw [Shadow.getLsbD_dirty_commit, ho, Bool.or_true]
      · refine .inr ⟨rfl, .inr ⟨?_, FlagSet.contains_union_left _ hw⟩⟩
        show s.extender.shadow.commit.dirty.getLsbD g = true
        rw [Shadow.getLsbD_dirty_commit, ho, Bool.true_or]
    · cases k <;> rfl
  | attach pin handler handlers => exact hsame (hrepolled _ _)
  | detach pin => exact hsame (hrepolled _ _)
  | _ => exact hsame rfl

/-- A touch writes nothing. -/
theorem Touch.noWrite {s s' : State} (h : Touch s s') : NoWrite s s' := by
  have hf := h.frame
  obtain ⟨ho, hm⟩ := h.owed
  rcases h.history with he | ⟨ev, he, hev, hn⟩
  · exact .silent he hf.family hf.address hf.claims ho hm
  · refine .event he ?_ (fun n e heq => (hn n e heq).2) hf.family hf.address hf.claims ho hm
    cases ev <;> first | rfl | cases hev

/-- Operations that fall into a pass write nothing. -/
theorem Touched.noWrite {s s' : State} (h : Touched s s') : NoWrite s s' := by
  induction h with
  | refl => exact .refl s
  | tail _ h ih => exact ih.trans h.noWrite

end PortExpander
