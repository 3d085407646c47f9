import Mathlib.Tactic.ByContra
import PortExpander.Proofs.InSync

/-!
# The footprint on the bus

Every transaction is addressed to a register of a group that has a claimed pin at that moment. Pins are claimed and given back
between passes, and the end of a step that does so is noted, so the latest note before a transaction has the claims of its moment.
What is asked for, dirty, queued or polled names groups without regard to claims; `Charted` follows the history note by note and
says that none of it gets past them.
-/

namespace PortExpander

open Sim Engine

/-! ## Groups without claimed pins -/

/-- No pin of a group is claimed. -/
def Extender.Vacant (e : Extender) (g : Nat) : Prop := ∀ pin, pin / 8 = g → e.claims.isClaimed pin = false

/-- At no moment of a history a pin of a group was claimed. -/
def History.Vacant (h : History) (g : Nat) : Prop := ∀ n e, .noted n e ∈ h → e.Vacant g

/-- Only pins that the extender has are claimed. -/
def Claims.Proper (c : Claims) : Prop := ∀ pin, c.claimed.get pin = true → pin < c.capacity

/-- A bit that is set is one of the map. -/
theorem PinMap.lt_of_get {m : PinMap} {pin : Nat} (h : m.get pin = true) : pin < 64 := BitVec.lt_of_getLsbD h

/-- A map's group with a bit has a pin with it. -/
theorem PinMap.exists_get_of_groups {m : PinMap} {g : Nat} (h : m.groups.getLsbD g = true) :
    ∃ pin, pin / 8 = g ∧ m.get pin = true := by
  rw [groups, Byte.getLsbD_ofGroups, Bool.and_eq_true, decide_eq_true_eq, bne_iff_ne] at h
  obtain ⟨-, hne⟩ := h
  by_contra hno
  refine hne (BitVec.eq_of_getLsbD_eq fun bit hb => ?_)
  rw [getLsbD_byte _ _ _ hb, BitVec.ofNat_eq_ofNat, BitVec.getLsbD_zero]
  refine Bool.eq_false_iff.2 fun hget => hno ⟨8 * g + bit, ?_, hget⟩
  omega

/-- A group with a claimed pin is not vacant. -/
theorem Claims.Proper.not_vacant {e : Extender} (hp : e.claims.Proper) {g : Nat} (h : e.claims.groups.getLsbD g = true) :
    ¬e.Vacant g := by
  obtain ⟨pin, hg, hget⟩ := PinMap.exists_get_of_groups h
  intro hv
  have hno := hv pin hg
  rw [Claims.isClaimed, hget, decide_eq_true (hp pin hget)] at hno
  cases hno

/-- A group of which no bit is set has no claimed pin. -/
theorem Extender.vacant_of_groups {e : Extender} {g : Nat} (h : e.claims.groups.getLsbD g = false) : e.Vacant g := by
  rintro pin rfl
  refine Bool.eq_false_iff.2 fun hc => ?_
  rw [Claims.groups_of_isClaimed hc] at h
  cases h

/-- A group with a claimed pin is one of the eight. -/
theorem Extender.lt_of_not_vacant {e : Extender} {g : Nat} (h : ¬e.Vacant g) : g < 8 := by
  by_contra hg
  refine h fun pin hpin => Bool.eq_false_iff.2 fun hc => ?_
  rw [Claims.isClaimed, Bool.and_eq_true] at hc
  have hp := PinMap.lt_of_get hc.2
  omega

/-- At first no pin is claimed. -/
theorem Claims.proper_new (capacity : Nat) (room : capacity ≤ 64) : (Claims.new capacity room).Proper := by
  intro pin h
  change (0#64).getLsbD pin = true at h
  rw [BitVec.getLsbD_zero] at h
  cases h

/-- A claim sets the bit of a pin that is there. -/
theorem Claims.Proper.claim {c c' : Claims} {pin : Nat} (hp : c.Proper) (h : c.claim pin = .ok c') : c'.Proper := by
  obtain ⟨hpin, -, rfl⟩ := Claims.eq_of_claim h
  intro i hi
  by_cases heq : i = pin
  · exact heq ▸ hpin
  · change (c.claimed.set pin true).get i = true at hi
    rw [PinMap.get_set_of_ne _ heq] at hi
    exact hp i hi

/-- To free a pin sets no bit. -/
theorem Claims.Proper.free {c : Claims} (hp : c.Proper) (pin : Nat) : (c.free pin).Proper := by
  unfold Claims.free
  split
  · intro i hi
    change (c.claimed.set pin false).get i = true at hi
    by_cases h64 : pin < 64
    · rw [PinMap.get_set _ _ _ _ h64] at hi
      split at hi
      · cases hi
      · exact hp i hi
    · rw [PinMap.set_of_ge _ (Nat.le_of_not_lt h64)] at hi
      exact hp i hi
  · exact hp

/-! ## Transactions and groups -/

/-- A transaction serves a group: it reads the group's inputs, or writes its polarities, if the family has a register for them, its
directions or its outputs. -/
def Extender.Serves (e : Extender) (g : Nat) : Access → Prop
  | .read place => e.locate g e.family.inputReg = .ok place
  | .write place _ => ∃ k reg, e.family.number? k = some reg ∧ e.locate g reg = .ok place

/-- A register that is written to has a number. -/
theorem Family.exists_number?_of_written {f : Family} {reg : Byte} (h : reg ∈ f.writtenRegs) : ∃ k, f.number? k = some reg := by
  rw [writtenRegs, List.mem_append, Option.mem_toList, List.mem_cons, List.mem_singleton] at h
  rcases h with h | rfl | rfl
  · exact ⟨.polarity, h⟩
  · exact ⟨.config, rfl⟩
  · exact ⟨.output, rfl⟩

/-- A register with a number is one that is written to. -/
theorem Family.written_of_number? {f : Family} {k : Register} {reg : Byte} (h : f.number? k = some reg) : reg ∈ f.writtenRegs := by
  cases k with
  | polarity => exact f.polarity_mem h
  | config =>
    cases h
    exact f.config_mem
  | output =>
    cases h
    exact f.output_mem

/-- The transactions of a pass serve groups with claimed pins. -/
theorem Extender.Reaches.serves {e : Extender} {a : Access} (h : e.Reaches a) (hp : e.claims.Proper) :
    ∃ g, ¬e.Vacant g ∧ e.Serves g a := by
  obtain ⟨g, hg, ha⟩ := h
  refine ⟨g, hp.not_vacant hg, ?_⟩
  cases a with
  | read place => exact ha
  | write place value =>
    obtain ⟨reg, hreg, hplace⟩ := ha
    obtain ⟨k, hk⟩ := Family.exists_number?_of_written hreg
    exact ⟨k, reg, hk, hplace⟩

/-! ## Charted histories -/

/-- What a note tells about the claims before and at its moment: they are the same, unless it is of the end of a step that has claimed
a pin or given it back. -/
def Note.Reclaims (n : Note) (before now : Claims) : Prop :=
  now = before ∨ ∃ pin, (n = .stepEnded (.claim pin) .done ∧ before.claim pin = .ok now) ∨
    (n = .stepEnded (.free pin) .done ∧ now = before.free pin)

/-- The notes of a history tell how the claims have changed, and every transaction served a group of which a pin was claimed at the
latest note before it. -/
def History.Charted : History → Prop
  | [] => True
  | .transaction a _ :: past => (∃ e g, latest? past = some e ∧ ¬e.Vacant g ∧ e.Serves g a) ∧ Charted past
  | .noted n e :: past => (∀ before, latest? past = some before → n.Reclaims before.claims e.claims) ∧ Charted past
  | _ :: past => Charted past

theorem History.Charted.of_append (new : History) {h : History} (hc : Charted (new ++ h)) : h.Charted := by
  induction new with
  | nil => exact hc
  | cons ev new ih =>
    cases ev with
    | transaction | noted => exact ih hc.2
    | _ => exact ih hc

/-- The latest note is one of the notes. -/
theorem History.mem_of_latest? {h : History} {e : Extender} (he : h.latest? = some e) : ∃ n, .noted n e ∈ h := by
  induction h with
  | nil => cases he
  | cons ev h ih =>
    cases ev with
    | noted n e' =>
      cases he
      exact ⟨n, List.mem_cons_self⟩
    | _ =>
      obtain ⟨n, hm⟩ := ih he
      exact ⟨n, List.mem_cons_of_mem _ hm⟩

/-- Two memories agree on where the chips are and on the claims. -/
structure Extender.Abides (e e' : Extender) : Prop where
  family : e'.family = e.family
  address : e'.address = e.address
  claims : e'.claims = e.claims

/-- In a pass the chips and the claims stay as they are. -/
theorem Steady.abides {e e' : Extender} (h : Steady e e') : e.Abides e' := ⟨h.family, h.address, h.claims⟩

/-- The history of a state is charted, its notes are of an extender at the same place, and the latest one has the claims. -/
structure State.Charted (s : State) : Prop where
  latest : ∀ e, s.history.latest? = some e → e.claims = s.extender.claims
  notes : ∀ n e, .noted n e ∈ s.history → e.family = s.extender.family ∧ e.address = s.extender.address
  proper : s.extender.claims.Proper
  history : s.history.Charted

namespace State.Charted

variable {s s' : State}

/-- Nothing is added to the history. -/
theorem silent (hs : s.Charted) (hh : s'.history = s.history) (hf : s.extender.Abides s'.extender) : s'.Charted where
  latest e he := by
    rw [hf.claims]
    exact hs.latest e (hh ▸ he)
  notes n e hm := by
    rw [hf.family, hf.address]
    exact hs.notes n e (hh ▸ hm)
  proper := hf.claims ▸ hs.proper
  history := hh ▸ hs.history

/-- A note makes the memory the latest one. -/
theorem note (hs : s.Charted) {n : Note} (hh : s'.history = .noted n s'.extender :: s.history)
    (hf : s'.extender.family = s.extender.family) (ha : s'.extender.address = s.extender.address)
    (hc : n.Reclaims s.extender.claims s'.extender.claims) (hp : s'.extender.claims.Proper) : s'.Charted where
  latest e he := by
    rw [hh] at he
    cases he
    rfl
  notes n' e hm := by
    rw [hh] at hm
    rcases List.mem_cons.1 hm with heq | hm
    · cases heq
      exact ⟨rfl, rfl⟩
    · rw [hf, ha]
      exact hs.notes n' e hm
  proper := hp
  history := by
    rw [hh]
    exact ⟨fun before hb => hs.latest before hb ▸ hc, hs.history⟩

/-- A note of a memory that has the same claims. -/
theorem noting (hs : s.Charted) {n : Note} (hh : s'.history = .noted n s'.extender :: s.history)
    (hf : s.extender.Abides s'.extender) : s'.Charted :=
  hs.note hh hf.family hf.address (.inl hf.claims) (hf.claims ▸ hs.proper)

/-- An event that is neither a transaction nor a note. -/
theorem seeing (hs : s.Charted) {ev : Event} (ht : ∀ a r, ev ≠ .transaction a r) (hn : ev.isNote = false) :
    (s.seeing ev).Charted := by
  have hnotes : ∀ n e, .noted n e ∈ ev :: s.history → e.family = s.extender.family ∧ e.address = s.extender.address := by
    intro n e hm
    rcases List.mem_cons.1 hm with rfl | hm
    · cases hn
    · exact hs.notes n e hm
  cases ev with
  | transaction a r => exact (ht a r rfl).elim
  | noted n e => cases hn
  | _ => exact ⟨hs.latest, hnotes, hs.proper, hs.history⟩

/-- A transaction of a pass serves a group that is claimed; the latest note has the same claims. -/
theorem answered (hs : s.Charted) {a : Access} (ha : s.extender.Reaches a) (hl : s.history.latest?.isSome = true) :
    (s.answered a).Charted := by
  obtain ⟨e, he⟩ := Option.isSome_iff_exists.1 hl
  have hclaims := hs.latest e he
  obtain ⟨n, hm⟩ := History.mem_of_latest? he
  obtain ⟨hfamily, haddress⟩ := hs.notes n e hm
  have hreach : e.Reaches a := by
    unfold Extender.Reaches Extender.locate at ha ⊢
    rw [hclaims, hfamily, haddress]
    exact ha
  obtain ⟨g, hg, hserve⟩ := hreach.serves (hclaims ▸ hs.proper)
  refine ⟨hs.latest, fun n' e' hm' => ?_, hs.proper, ⟨e, g, he, hg, hserve⟩, hs.history⟩
  exact hs.notes n' e' ((List.mem_cons.1 hm').resolve_left nofun)

end State.Charted

/-- A touch keeps the history charted. -/
theorem Touch.charted {s s' : State} (h : Touch s s') (hs : s.Charted) : s'.Charted := by
  have hf := h.frame.toSteady.abides
  rcases h.history with hh | ⟨ev, hh, hw, hn⟩
  · exact hs.silent hh hf
  · cases ev with
    | transaction => cases hw
    | noted n e =>
      obtain ⟨_, rfl, _⟩ := hn n e rfl
      exact hs.noting hh hf
    | _ =>
      refine (hs.seeing ?_ rfl).silent hh hf
      rintro _ _ ⟨⟩

/-- What happens in a pass serves groups with claimed pins. -/
theorem Work.charted {s s' : State} (h : Work s s') (hs : s.Charted) (hl : s.history.latest?.isSome = true) :
    s'.Charted := by
  have hf := h.steady.abides
  cases h with
  | touch h => exact h.charted hs
  | answer a ha => exact hs.answered ha hl
  | look | edge | call =>
    refine hs.seeing ?_ rfl
    rintro _ _ ⟨⟩
  | record a r =>
    cases r with
    | ok => exact hs
    | error =>
      refine (hs.seeing ?_ rfl).silent rfl hf
      rintro _ _ ⟨⟩
  | _ => exact hs.silent rfl hf

/-- A pass that does its work has been noted. -/
theorem History.latest?_of_stage {h : History} (hg : h.stage ≠ .rest) : h.latest?.isSome = true := by
  induction h with
  | nil => exact (hg rfl).elim
  | cons ev h ih =>
    cases ev with
    | noted => rfl
    | _ => exact ih hg

/-- Every move keeps the history charted. -/
theorem Move.charted {s s' : State} (h : Move s s') (hs : s.Charted) : s'.Charted := by
  have htaken : s.held.taken.Charted := hs.noting rfl ⟨rfl, rfl, rfl⟩
  have hlog {s₁ : State} (h₁ : s₁.Charted) (r : LogRecord) : (s₁.seeing (.logged r)).Charted := by
    refine h₁.seeing ?_ rfl
    rintro _ _ ⟨⟩
  cases h with
  | touch h => exact h.charted hs
  | work _ hg h => exact h.charted hs (History.latest?_of_stage (hg ▸ nofun))
  | began | ended | refuse | idle | finish | cut => exact hs.noting rfl ⟨rfl, rfl, rfl⟩
  | claim pin claims _ _ hc => exact hs.note rfl rfl rfl (.inr ⟨pin, .inl ⟨rfl, hc⟩⟩) (hs.proper.claim hc)
  | free pin => exact hs.note rfl rfl rfl (.inr ⟨pin, .inr ⟨rfl, rfl⟩⟩) (hs.proper.free pin)
  | stop => exact (hlog htaken (.halting s.extender.label)).noting rfl ⟨rfl, rfl, rfl⟩
  | take => exact htaken
  | begin pending =>
    have hstarted : (s.started pending).Charted := by
      unfold State.started
      split
      · exact hlog hs _
      · exact hs
    exact hstarted.noting rfl ⟨rfl, rfl, rfl⟩
  | complete clean =>
    cases clean with
    | true => exact hs.noting rfl ⟨rfl, rfl, rfl⟩
    | false =>
      have hasked : ((s.amend fun e => { e with shadow := e.shadow.markAllDirty }).asking .resync).Charted :=
        hs.noting rfl ⟨rfl, rfl, rfl⟩
      exact hasked.noting rfl ⟨rfl, rfl, rfl⟩

/-- Every session is charted. -/
theorem Moves.charted {s₀ s : State} (h : Moves s₀ s) (hm : Made s₀.extender) (h₀ : s₀.history = []) : s.Charted := by
  induction h with
  | refl =>
    obtain ⟨family, address, capacity, lines, engine, room, he, -⟩ := hm.fresh
    refine ⟨fun e h => ?_, fun n e h => ?_, he ▸ Claims.proper_new capacity room, h₀ ▸ trivial⟩
    · rw [h₀] at h
      cases h
    · rw [h₀] at h
      cases h
  | tail _ h ih => exact h.charted ih

/-! ## Chips and banks -/

/-- The registers of a chip's first bank. -/
def Family.registers (f : Family) : List Byte := f.inputReg :: f.writtenRegs

/-- The registers of different banks of a chip, and different registers of one bank, have different numbers. -/
def Family.Disjoint (f : Family) : Prop :=
  ∀ reg ∈ f.registers, ∀ reg' ∈ f.registers, ∀ i i', i < f.registersPerDevice → i' < f.registersPerDevice →
    reg.toNat + i = reg'.toNat + i' → i = i'

/-- The registers of a built-in family have different numbers. -/
theorem Device.disjoint (d : Device) : d.family.Disjoint := by
  have hrow {reg : Byte} (hreg : reg ∈ d.family.registers) : d.family.registersPerDevice ∣ reg.toNat := by
    revert reg
    cases d <;> decide
  intro reg hreg reg' hreg' i i' hi hi' heq
  obtain ⟨m, hm⟩ := hrow hreg
  obtain ⟨m', hm'⟩ := hrow hreg'
  calc i = (d.family.registersPerDevice * m + i) % d.family.registersPerDevice := by
        rw [Nat.mul_add_mod, Nat.mod_eq_of_lt hi]
    _ = (d.family.registersPerDevice * m' + i') % d.family.registersPerDevice := by rw [← hm, ← hm', heq]
    _ = i' := by rw [Nat.mul_add_mod, Nat.mod_eq_of_lt hi']

/-- A transaction that serves a group goes to a register of the group. -/
theorem Extender.Serves.exists_register {e : Extender} {g : Nat} {a : Access} (h : e.Serves g a) :
    ∃ reg ∈ e.family.registers, e.locate g reg = .ok a.place := by
  cases a with
  | read place => exact ⟨_, List.mem_cons_self, h⟩
  | write place value =>
    obtain ⟨k, reg, hk, hplace⟩ := h
    refine ⟨reg, List.mem_cons_of_mem _ ?_, hplace⟩
    cases k with
    | polarity => exact Family.polarity_mem hk
    | config => cases hk; exact Family.config_mem _
    | output => cases hk; exact Family.output_mem _

/-- Banks whose registers have different numbers have no place in common. -/
theorem Family.Disjoint.locate_inj {f : Family} (hf : f.Disjoint) {address reg reg' : Byte} {g g' : Nat} {place : Place}
    (hg : g < 8) (hg' : g' < 8) (hreg : reg ∈ f.registers) (hreg' : reg' ∈ f.registers)
    (h : f.locate address g reg = .ok place) (h' : f.locate address g' reg' = .ok place) : g = g' := by
  have hpos : 0 < f.registersPerDevice := Family.pos_of_locate h
  obtain ⟨ha, hr⟩ := Family.locate_eq_ok hg h
  obtain ⟨ha', hr'⟩ := Family.locate_eq_ok hg' h'
  have hdiv : g / f.registersPerDevice = g' / f.registersPerDevice := by omega
  have hmod := hf reg hreg reg' hreg' _ _ (Nat.mod_lt g hpos) (Nat.mod_lt g' hpos) (hr.symm.trans hr')
  rw [← Nat.div_add_mod g f.registersPerDevice, hdiv, hmod, Nat.div_add_mod]

/-- While no pin of a group is claimed, transactions serve other groups. -/
theorem History.Charted.at_vacant {stretch past : History} {n : Note} {e : Extender} {a : Access} {r : Except BusKind Byte}
    (h : Charted (stretch ++ .noted n e :: past)) (hm : .transaction a r ∈ stretch) :
    ∃ n' e' g, .noted n' e' ∈ stretch ++ [.noted n e] ∧ ¬e'.Vacant g ∧ e'.Serves g a := by
  obtain ⟨newer, older, rfl⟩ := List.append_of_mem hm
  rw [List.append_assoc, List.cons_append] at h
  obtain ⟨e', g, he', hg, hs⟩ := (h.of_append newer).1
  have hlatest : History.latest? (older ++ [Event.noted n e]) = some e' := by
    rw [show older ++ Event.noted n e :: past = (older ++ [.noted n e]) ++ past by simp, latest?_append] at he'
    cases hl : History.latest? (older ++ [.noted n e]) with
    | some e'' =>
      rw [hl] at he'
      exact he'
    | none =>
      rw [latest?_append, Option.or_eq_none_iff] at hl
      cases hl.2
  obtain ⟨n', hm'⟩ := mem_of_latest? hlatest
  refine ⟨n', e', g, ?_, hg, hs⟩
  rw [List.append_assoc, List.cons_append]
  exact List.mem_append_right _ (List.mem_cons_of_mem _ hm')

/-- Every transaction goes to a register of a group that has a claimed pin at that moment: a write to its configuration register,
its output register or, if the family has one, its polarity register, and a read to its input register. The moment is that of the
latest note, since the claims change only where a note tells the end of a step that has claimed a pin or given one back. So while no
pin of a chip is claimed there is no transaction with the chip, and while no pin of a bank is claimed there is none with a register
of the bank, if the banks of a chip do not overlap, as those of the built-in families do not. -/
theorem transactions_serve_claimed_groups :
    (∀ (s : State) (later : History) a r (past : History), Reachable s → s.history = later ++ .transaction a r :: past →
      ∃ e g, past.latest? = some e ∧ ¬e.Vacant g ∧ e.Serves g a) ∧
    (∀ (s : State) (later : History) n e (past : History) before, Reachable s → s.history = later ++ .noted n e :: past → past.latest? = some before →
      n.Reclaims before.claims e.claims) ∧
    (∀ s later stretch n e past a r, Reachable s → s.history = later ++ (stretch ++ .noted n e :: past) →
      .transaction a r ∈ stretch →
      (∀ chip, (∀ g, g / e.family.registersPerDevice = chip → History.Vacant (stretch ++ [.noted n e]) g) →
        a.place.address.toNat ≠ e.address.toNat + chip) ∧
      (e.family.Disjoint → ∀ g < 8, History.Vacant (stretch ++ [.noted n e]) g → ∀ reg ∈ e.family.registers,
        e.locate g reg ≠ .ok a.place)) ∧
    ∀ d : Device, d.family.Disjoint := by
  have hcharted {s : State} (hs : Reachable s) : s.Charted := by
    obtain ⟨e₀, board, hmade, hgo, _⟩ := hs.goes
    exact hgo.moves.charted hmade rfl
  refine ⟨fun s later a r past hs hm => ?_, fun s later n e past before hs hm hb => ?_,
    fun s later stretch n e past a r hs hm ha => ?_, Device.disjoint⟩
  · have hc := (hcharted hs).history
    rw [hm] at hc
    exact (hc.of_append later).1
  · have hc := (hcharted hs).history
    rw [hm] at hc
    exact (hc.of_append later).1 before hb
  · have hc := hcharted hs
    have hhistory := hc.history
    rw [hm] at hhistory
    obtain ⟨n', e', g', hm', hg', hserve⟩ := (hhistory.of_append later).at_vacant ha
    -- all memories of the session are of chips of the same family at the same addresses
    have hnotes {n₁ : Note} {e₁ : Extender} (h₁ : .noted n₁ e₁ ∈ stretch ++ [.noted n e]) :
        e₁.family = s.extender.family ∧ e₁.address = s.extender.address := by
      refine hc.notes n₁ e₁ ?_
      rw [hm, show stretch ++ Event.noted n e :: past = (stretch ++ [.noted n e]) ++ past by simp]
      exact List.mem_append_right _ (List.mem_append_left _ h₁)
    obtain ⟨hfamily', haddress'⟩ := hnotes hm'
    obtain ⟨hfamily, haddress⟩ := hnotes (List.mem_append_right stretch List.mem_cons_self)
    obtain ⟨reg', hreg', hplace⟩ := hserve.exists_register
    unfold Extender.locate at hplace ⊢
    rw [hfamily', haddress', ← hfamily, ← haddress] at hplace
    rw [hfamily', ← hfamily] at hreg'
    have h8 := Extender.lt_of_not_vacant hg'
    refine ⟨fun chip hv heq => ?_, fun hdisjoint g hg hv reg hreg hplace' => ?_⟩
    · obtain ⟨hplaced, -⟩ := Family.locate_eq_ok h8 hplace
      exact hg' (hv g' (by omega) n' e' hm')
    · obtain rfl := hdisjoint.locate_inj hg h8 hreg hreg' hplace' hplace
      exact hg' (hv n' e' hm')

/-- A pin of the first chip is given back and one of the second chip claimed: from then on there are transactions with the second
chip only. -/
theorem transactions_serve_claimed_groups_of_free :
    let s := State.oneChip [.claim 0, .op (.call (.setup 0 PinAttributes.output)), .op .update, .free 0, .claim 8,
      .op (.call (.setup 8 PinAttributes.output)), .op .update]
    ∃ (stretch : History) (n : Note) (e before : Extender) (past : History) (a : Access) (r : Except BusKind Byte),
      s.history = stretch ++ .noted n e :: past ∧ past.latest? = some before ∧ n.Reclaims before.claims e.claims ∧
      .transaction a r ∈ stretch ∧ a.place.address.toNat ≠ e.address.toNat + 0 ∧ e.locate 0 e.family.outputReg ≠ .ok a.place ∧
      ∃ later older e' g, s.history = later ++ .transaction a r :: older ∧ History.latest? older = some e' ∧ ¬e'.Vacant g ∧
        e'.Serves g a := by
  intro s
  have hr : Reachable s := reachable_oneChip _
  have hh : s.history = s.history.take 21 ++ s.history.drop 21 := (List.take_append_drop 21 _).symm
  have hk : (((s.history.drop 21).head?.bind (·.note?)).any (·.2.family == Device.tca6408.family) &&
      (History.latest? (s.history.drop 21).tail).isSome && (s.history.take 21).any (·.isWrite) &&
      (s.history.take (21 + 1)).all fun ev => ev.note?.all fun m => !m.2.claims.groups.getLsbD 0) = true := by decide +kernel
  have htake : s.history.take (21 + 1) = s.history.take 21 ++ (s.history.drop 21).take 1 := List.take_add
  simp only [Bool.and_eq_true, Option.any_eq_true, Option.bind_eq_some_iff, Prod.exists] at hk
  obtain ⟨⟨⟨⟨n, e, ⟨ev, hev, hnote⟩, hfamily⟩, hbefore⟩, hwrite⟩, hvacant⟩ := hk
  cases ev with
  | noted =>
    cases hnote
    obtain ⟨past, hd⟩ := List.head?_eq_some_iff.1 hev
    rw [hd] at hh hbefore htake
    obtain ⟨before, hbefore⟩ := Option.isSome_iff_exists.1 hbefore
    have hv : History.Vacant (s.history.take 21 ++ [.noted n e]) 0 := by
      intro n' e' hm
      have h := List.all_eq_true.1 hvacant _ (htake ▸ hm)
      exact Extender.vacant_of_groups (by simpa [Event.note?] using h)
    obtain ⟨ev, hev, hwrite⟩ := List.any_eq_true.1 hwrite
    cases ev with
    | transaction a r =>
      obtain ⟨newer, older, hsplit⟩ := List.append_of_mem hev
      have hclean : s.history = newer ++ .transaction a r :: (older ++ .noted n e :: past) := by
        rw [hh, hsplit, List.append_assoc, List.cons_append]
      obtain ⟨e', g, he', hg, hs⟩ := transactions_serve_claimed_groups.1 s newer a r _ hr hclean
      have hnote := transactions_serve_claimed_groups.2.1 s _ n e past before hr hh hbefore
      obtain ⟨hchip, hbank⟩ := transactions_serve_claimed_groups.2.2.1 s [] (s.history.take 21) n e past a r hr hh hev
      refine ⟨_, n, e, before, past, a, r, hh, hbefore, hnote, hev, hchip 0 ?_, hbank ?_ 0 (by decide) hv _ ?_, newer, _, e', g,
        hclean, he', hg, hs⟩
      · intro g' hg'
        rw [eq_of_beq hfamily, show Device.tca6408.family.registersPerDevice = 1 from rfl, Nat.div_one] at hg'
        rw [hg']
        exact hv
      · rw [eq_of_beq hfamily]
        exact Device.tca6408.disjoint
      · exact List.mem_cons_of_mem _ (Family.output_mem _)
    | _ => cases hwrite
  | _ => cases hnote

end PortExpander
