import PortExpander.Proofs.Levels
import PortExpander.Proofs.Passes

/-!
# What passes write

Every byte that a pass writes is what the memory means the register to hold when the turn of the group comes, and a pass writes
only what it has been asked for. The memory has one level for each output, so a pass that writes an output register carries all
levels to the chip. They are the levels that have been flushed, unless the group is staged: then a level that has been written and
not flushed goes to the chip, too.
-/

namespace PortExpander

open Sim Engine

/-- Whether an event is a transaction. -/
def Event.isTransaction : Event → Bool
  | transaction .. => true
  | _ => false

/-- What had happened by the latest transaction. -/
def History.atTurn (h : History) : History := h.dropWhile (!·.isTransaction)

/-- The memory when `h` has happened in a pass that began with the memory `e` and the turn of the next group comes, which is right
after the latest transaction. What falls into the next transaction comes too late for it. -/
def History.memory (h : History) (e : Extender) : Extender := h.atTurn.latest?.getD e

theorem History.atTurn_append {new h : History} (hn : ∀ ev ∈ new, ev.isTransaction = false) :
    (new ++ h).atTurn = h.atTurn := List.dropWhile_append_of_pos (by simpa using hn)

/-- All writes of a part of a pass that began with the memory `e` are of registers that may be written then, and each of them
carries what the memory means the register to hold. -/
def Extender.Carried (e : Extender) (may : Register → Prop) : History → Prop
  | [] => True
  | .transaction (.write place value) _ :: older => (∃ k g reg, may k ∧ e.claims.groups.getLsbD g = true ∧
      e.family.number? k = some reg ∧ e.locate g reg = .ok place ∧ value = (History.memory older e).shadow.meant k g) ∧
      Carried e may older
  | _ :: older => Carried e may older

namespace Extender.Carried

variable {e : Extender} {may : Register → Prop} {new h : History}

theorem append (hw : e.Carried may h) (hn : ∀ ev ∈ new, ev.isTransaction = false) : e.Carried may (new ++ h) := by
  induction new with
  | nil => exact hw
  | cons ev new ih =>
    have ih := ih fun ev hm => hn ev (List.mem_cons_of_mem _ hm)
    cases ev with
    | transaction => cases hn _ List.mem_cons_self
    | _ => exact ih

/-- A write of such a part of a pass carries what the memory meant at its turn. -/
theorem at_write {newer older : History} {place : Place} {value : Byte} {r : Except BusKind Byte} (hw : e.Carried may h)
    (hh : h = newer ++ .transaction (.write place value) r :: older) : ∃ k g reg, may k ∧
      e.claims.groups.getLsbD g = true ∧ e.family.number? k = some reg ∧ e.locate g reg = .ok place ∧
      value = (older.memory e).shadow.meant k g := by
  subst hh
  induction newer with
  | nil => exact hw.1
  | cons ev newer ih =>
    cases ev with
    | transaction a => cases a with
      | write => exact ih hw.2
      | read => exact ih hw
    | _ => exact ih hw

end Extender.Carried

/-- Touches make no transaction. -/
theorem Touched.silent {s s' : State} (h : Touched s s') :
    ∃ new, s'.history = new ++ s.history ∧ ∀ ev ∈ new, ev.isTransaction = false := by
  induction h with
  | refl => exact ⟨[], rfl, by simp⟩
  | tail _ h ih =>
    obtain ⟨new, hh, hn⟩ := ih
    rcases h.history with he | ⟨ev, he, hw, -⟩
    · exact ⟨new, he.trans hh, hn⟩
    · refine ⟨ev :: new, by rw [he, hh, List.cons_append], fun ev' hm => ?_⟩
      rcases List.mem_cons.1 hm with rfl | hm
      · cases ev' <;> first | rfl | cases hw
      · exact hn ev' hm

/-- Memories that agree on what clients change mean the registers to hold the same. -/
theorem Extender.Agrees.meant {e e' : Extender} (h : e.Agrees e') (k : Register) (g : Nat) :
    e'.shadow.meant k g = e.shadow.meant k g := by
  cases k
  · show e'.shadow.invert.byte g = e.shadow.invert.byte g
    rw [h.invert]
  · show e'.shadow.direction.byte g = e.shadow.direction.byte g
    rw [h.direction]
  · show e'.shadow.output.byte g ^^^ (e'.shadow.invert.byte g &&& ~~~e'.shadow.direction.byte g) = _
    rw [h.output, h.invert, h.direction]
    rfl

/-! ## Parts of a pass that write -/

/-- A pass that began with the state `t` has come to the state `s` by the events `old`, and the turn of the next group may come:
all that has been changed has been noted before the latest transaction. -/
structure Writing (may : Register → Prop) (t s : State) (old : History) : Prop where
  history : s.history = old ++ t.history
  steady : Steady t.extender s.extender
  told : s.Told
  noted : old.atTurn.latest? = old.latest?
  carried : t.extender.Carried may old

namespace Writing

variable {may : Register → Prop} {t s s' : State} {old : History}

theorem begin (ht : t.history.latest? = some t.extender) : Writing may t t [] :=
  ⟨rfl, .refl _, ⟨_, ht, .refl _⟩, rfl, trivial⟩

/-- When the turn of a group comes, the notes show what the memory means its registers to hold. -/
theorem meant (h : Writing may t s old) (ht : t.history.latest? = some t.extender) (k : Register) (g : Nat) :
    s.extender.shadow.meant k g = (old.memory t.extender).shadow.meant k g := by
  obtain ⟨e, he, hag⟩ := h.told
  have hmem : old.memory t.extender = e := by
    rw [h.history, History.latest?_append, ht, Option.or_some] at he
    rw [History.memory, h.noted]
    exact Option.some.inj he
  rw [hmem, hag.meant]

/-- A part that neither makes a transaction nor adds a note, and changes nothing of what is to be written. -/
theorem keep (h : Writing may t s old) {new : History} (hh : s'.history = new ++ s.history)
    (hn : ∀ ev ∈ new, ev.isTransaction = false ∧ ev.isNote = false) (hs : Steady s.extender s'.extender)
    (ha : s.extender.Agrees s'.extender) : Writing may t s' (new ++ old) := by
  have hlatest (h : History) : (new ++ h).latest? = h.latest? := by
    rw [History.latest?_append]
    have hnone : new.latest? = none := by
      clear hh
      induction new with
      | nil => rfl
      | cons ev new ih =>
        have ih := ih fun ev hm => hn ev (List.mem_cons_of_mem _ hm)
        cases ev with
        | noted => cases (hn _ List.mem_cons_self).2
        | _ => exact ih
    rw [hnone, Option.none_or]
  refine ⟨by rw [hh, h.history, List.append_assoc], h.steady.trans hs, h.told.keep (by rw [hh, hlatest]) ha, ?_,
    h.carried.append fun ev hm => (hn ev hm).1⟩
  rw [History.atTurn_append fun ev hm => (hn ev hm).1, hlatest, h.noted]

/-- A transaction, with what falls into its middle. If it is a write, it carries what the memory means the register to hold. -/
theorem transfers (h : Writing may t s old) (ht : t.history.latest? = some t.extender) {a : Access}
    {r : Except BusKind Byte} (htr : Transfers s a r s') (ha : ∀ place value, a = .write place value → ∃ k g reg, may k ∧
      t.extender.claims.groups.getLsbD g = true ∧ t.extender.family.number? k = some reg ∧
      t.extender.locate g reg = .ok place ∧ value = s.extender.shadow.meant k g) : ∃ old, Writing may t s' old := by
  have htold := htr.told h.told
  obtain ⟨_, hl, -, -, -⟩ := htr.passPart
  obtain ⟨s₁, hn, rfl, rfl⟩ := htr
  obtain ⟨mid, hmid, hno⟩ := hn.touched.silent
  have hold : t.extender.Carried may (.transaction a (s₁.board.outcome a) :: (mid ++ old)) := by
    have hw := h.carried.append hno
    cases a with
    | read => exact hw
    | write place value =>
      obtain ⟨k, g, reg, hk, hg, hreg, hp, rfl⟩ := ha place value rfl
      refine ⟨⟨k, g, reg, hk, hg, hreg, hp, ?_⟩, hw⟩
      rw [h.meant ht, History.memory, History.memory, ← History.atTurn_append hno]
  have hhist : (s₁.answered a).history = .transaction a (s₁.board.outcome a) :: (mid ++ old) ++ t.history := by
    show .transaction a _ :: s₁.history = _
    rw [hmid, h.history]
    simp
  cases hr : s₁.board.outcome a with
  | ok =>
    rw [hr] at htold hl hold hhist
    exact ⟨_, hhist, h.steady.trans hl.steady, htold, rfl, hold⟩
  | error kind =>
    rw [hr] at htold hl hold hhist
    exact ⟨.logged _ :: _, congrArg (List.cons _) hhist, h.steady.trans hl.steady, htold, rfl, hold⟩

end Writing

/-! ## Phases -/

section

variable {may : Register → Prop} {t s s' : State} {old : History} {ok : Bool}
  (hw : Writing may t s old) (ht : t.history.latest? = some t.extender)

include hw ht

/-- Writing a register of some groups carries what is meant. -/
theorem Writes.writing {reg : Byte} {value : Shadow → Nat → Byte} {groups : List Nat} (h : Writes reg value groups s ok s')
    {k : Register} (hk : may k) (hreg : t.extender.family.number? k = some reg) (hv : ∀ sh g, value sh g = Shadow.meant sh k g)
    (hg : t.extender.Holds groups) : ∃ old, Writing may t s' old := by
  induction h generalizing old with
  | nil => exact ⟨old, hw⟩
  | @cons s _ _ group groups _ _ _ hp htr _ ih =>
    obtain ⟨old, hw'⟩ := hw.transfers ht htr (by
      rintro _ _ ⟨⟩
      exact ⟨k, group, reg, hk, hg group List.mem_cons_self, hreg, (hw.steady.locate _ _).symm.trans hp, hv _ _⟩)
    exact ih hw' fun g hm => hg g (List.mem_cons_of_mem _ hm)

/-- Writing the configuration carries what is meant. -/
theorem Configures.writing (h : Configures s ok s') (hmay : ∀ k, may k) : ∃ old, Writing may t s' old := by
  obtain ⟨s₁, s₂, _, _, hi, hd, _, rfl⟩ := h
  have hgroups : t.extender.Holds s.extender.claims.groups.groups := by
    rw [hw.steady.claims]
    exact t.extender.holds_groups
  have hs₁ : ∃ old, Writing may t s₁ old := by
    unfold Inverts at hi
    split at hi
    · rename_i reg hreg
      exact hi.writing hw ht (hmay .polarity) (by rwa [hw.steady.family] at hreg) (fun _ _ => rfl) hgroups
    · exact ⟨old, hi.2 ▸ hw⟩
  obtain ⟨old₁, hw₁⟩ := hs₁
  obtain ⟨old₂, hw₂⟩ := hd.writing hw₁ ht (hmay .config) (by rw [hw.steady.family]; rfl) (fun _ _ => rfl) hgroups
  have hmark : Writing may t (s₂.amend fun e => { e with shadow := e.shadow.markDirty s.extender.claims.groups }) ([] ++ old₂) :=
    hw₂.keep rfl (by simp) (.update _ _ _ _) ⟨rfl, rfl, rfl, rfl⟩
  exact ⟨_, hmark⟩

/-- Writing the outputs carries what is meant. -/
theorem Flushes.writing (h : Flushes s ok s') (hmay : may .output) : ∃ old, Writing may t s' old := by
  have hclear : Writing may t (s.amend fun e => { e with shadow := e.shadow.clearDirty }) ([] ++ old) :=
    hw.keep rfl (by simp) (.update _ _ _ _) ⟨rfl, rfl, rfl, rfl⟩
  refine Writes.writing hclear ht h hmay (by rw [hw.steady.family]; rfl) (fun _ _ => rfl) fun g hm => ?_
  rw [← hw.steady.claims]
  exact s.extender.holds_and _ g hm

/-- Reading the inputs writes nothing. -/
theorem Reads.writing {groups : List Nat} {result : List Refresh × Bool} (h : Reads groups s result s') :
    ∃ old, Writing may t s' old := by
  induction h generalizing old with
  | nil => exact ⟨old, hw⟩
  | @cons s s₁ _ group _ _ _ now _ _ _ htr _ _ ih =>
    obtain ⟨old, hw'⟩ := hw.transfers ht htr nofun
    have hset : Writing may t (s₁.amend fun e => { e with shadow := e.shadow.setInput group now }) ([] ++ old) :=
      hw'.keep rfl (by simp) (.update _ _ _ _) ⟨rfl, rfl, rfl, rfl⟩
    exact ih hset

omit ht in
/-- A phase carries what is meant, whether or not the plan asks for it. -/
theorem Asked.writing {asked : Bool} {phase : State → Bool → State → Prop} (h : Asked asked phase s ok s')
    (hp : asked = true → phase s ok s' → ∃ old, Writing may t s' old) : ∃ old, Writing may t s' old := by
  unfold Asked at h
  split at h
  · exact hp ‹_› h
  · exact ⟨old, h.2 ▸ hw⟩

omit ht in
/-- Making the plan of a pass writes nothing. -/
theorem Gathers.writing {pending : Status} {plan : Plan} (h : Gathers pending s plan s') : ∃ old, Writing may t s' old := by
  have hag : s.extender.Agrees s'.extender := by cases h <;> exact ⟨rfl, rfl, rfl, rfl⟩
  have hnew : ∃ new, s'.history = new ++ s.history ∧ ∀ ev ∈ new, ev.isTransaction = false ∧ ev.isNote = false := by
    cases h with
    | looked => exact ⟨[_], rfl, by simp [Event.isTransaction, Event.isNote]⟩
    | unlooked | drained => exact ⟨[], rfl, by simp⟩
  obtain ⟨new, hh, hn⟩ := hnew
  exact ⟨_, hw.keep hh hn h.steady hag⟩

end

/-- The turns of pins make no transaction. -/
theorem Turns.silent {turns : List (Nat × Bool × Bool)} {s s' : State} (h : Turns turns s s') :
    ∃ new, s'.history = new ++ s.history ∧ ∀ ev ∈ new, ev.isTransaction = false := by
  induction h with
  | nil => exact ⟨[], rfl, by simp⟩
  | skip _ _ ih => exact ih
  | @call s s₁ s' pin was now h turns hh hm hn _ ih =>
    obtain ⟨mid, hmid, hno⟩ := hn.touched.silent
    obtain ⟨new, hnew, hno'⟩ := ih
    refine ⟨new ++ (mid ++ [.called pin h, .logged (.edge pin)]), ?_, fun ev hm => ?_⟩
    · rw [hnew, hmid]
      simp
    · simp only [List.mem_append, List.mem_cons, List.not_mem_nil, or_false] at hm
      rcases hm with hm | hm | rfl | rfl
      · exact hno' ev hm
      · exact hno ev hm
      · rfl
      · rfl

/-- What a pass is asked to write: everything if the configuration is asked for, or the outputs. -/
def Status.Writes (pending : Status) (k : Register) : Prop :=
  pending.contains configDirty = true ∨ (k = .output ∧ pending.contains writeDirty = true)

/-- A pass writes what it has been asked to write, whatever its engine finds. -/
theorem Gathers.plan {pending : Status} {plan : Plan} {s s' : State} (h : Gathers pending s plan s') :
    plan.configure = pending.contains Status.configDirty ∧
      plan.write = (pending.contains Status.configDirty || pending.contains Status.writeDirty) := by
  have hplan (fallen : Bool) (f : Status) (i : Nat) (hi : i < 8) (hf : f = .flag i) (hno : Status.readDirty.contains f = false) :
      (if fallen = true then pending ∪ Status.readDirty else pending).contains f = pending.contains f := by
    subst hf
    split
    · rw [FlagSet.contains_union_flag _ _ hi, hno, Bool.or_false]
    · rfl
  cases h with
  | looked =>
    simp only [Plan.ofRequests]
    rw [hplan _ Status.configDirty 0 (by decide) rfl (by decide), hplan _ Status.writeDirty 2 (by decide) rfl (by decide)]
    exact ⟨rfl, rfl⟩
  | unlooked | drained => exact ⟨rfl, rfl⟩

/-- A pass writes nothing but what the memory means the registers to hold. -/
theorem Carries.carried {pending : Status} {t t' : State} {clean : Bool} (h : Carries pending t clean t')
    (ht : t.history.latest? = some t.extender) :
    ∃ done, t'.history = done ++ t.history ∧ t.extender.Carried pending.Writes done := by
  obtain ⟨plan, s₁, s₂, s₃, configured, written, read, hg, hc, hw, hr, _⟩ := h
  obtain ⟨hconf, hwrite⟩ := hg.plan
  have hall (hask : plan.configure = true) (k : Register) : pending.Writes k := .inl (hconf ▸ hask)
  have hout (hask : plan.write = true) : pending.Writes .output := by
    rw [hwrite, Bool.or_eq_true] at hask
    exact hask.imp id fun h => ⟨rfl, h⟩
  have hbegin : Writing pending.Writes t t [] := .begin ht
  obtain ⟨_, hw₁⟩ := hg.writing hbegin
  obtain ⟨_, hw₂⟩ := hc.writing hw₁ fun hask h => h.writing hw₁ ht (hall hask)
  obtain ⟨old, hw₃⟩ := hw.writing hw₂ fun hask h => h.writing hw₂ ht (hout hask)
  unfold Asked at hr
  split at hr
  · obtain ⟨s₄, s₅, _, hread, hturns, rfl⟩ := hr
    obtain ⟨old, hw₄⟩ := hread.writing hw₃ ht
    obtain ⟨new, hnew, hno⟩ := hturns.silent
    exact ⟨new ++ old, by rw [List.append_assoc, ← hw₄.history, ← hnew]; rfl, hw₄.carried.append hno⟩
  · exact ⟨old, hr.2 ▸ hw₃.history, hw₃.carried⟩

/-! ## Levels of outputs -/

/-- An output's bit is its level, inverted if the output is active low. -/
theorem Shadow.getLsbD_outputByte (s : Shadow) (pin : Nat) (hd : s.direction.get pin = false) :
    (s.outputByte (pin / 8)).getLsbD (pin % 8) = (s.output.get pin ^^ s.invert.get pin) := by
  have hbit : pin % 8 < 8 := Nat.mod_lt _ (by decide)
  rw [outputByte, BitVec.getLsbD_xor, BitVec.getLsbD_and, BitVec.getLsbD_not, ← PinMap.get_eq_getLsbD_byte,
    ← PinMap.get_eq_getLsbD_byte, ← PinMap.get_eq_getLsbD_byte, hd]
  simp [hbit]

/-- What a recorded pass has written is what the memory meant. -/
theorem PassRecord.Stems.carried {p : PassRecord} {s t t' : State} (h : p.Stems s t t') :
    p.before.Carried p.pending.Writes p.body := by
  have ht : t.history.latest? = some t.extender := by
    rw [h.history, h.extender]
    rfl
  obtain ⟨done, hdone, hcarried⟩ := h.carries.carried ht
  obtain ⟨ending, done', hbody, hdone', hend⟩ := h.body
  obtain rfl := State.new_unique hdone hdone'
  rw [hbody, ← h.extender]
  refine hcarried.append fun ev hm => ?_
  obtain ⟨bits, rfl⟩ := hend ev hm
  rfl

/-- All that has happened when the turn of the next group comes in a pass in which `older` has happened. -/
def PassRecord.turn (p : PassRecord) (older : History) : History :=
  older.atTurn ++ .noted (.passBegan p.pending) p.before :: p.past

/-- The latest note at a turn is of the memory then. -/
theorem PassRecord.latest?_turn (p : PassRecord) (older : History) :
    (p.turn older).latest? = some (History.memory older p.before) := by
  rw [turn, History.latest?_append, History.memory]
  cases older.atTurn.latest? <;> rfl

/-- The turns of groups lie in the history. -/
theorem History.Records.turn {h newer older : History} {p : PassRecord} {ev : Event} (hp : h.Records p)
    (hbody : p.body = newer ++ ev :: older) : ∃ later, h = later ++ p.turn older := by
  obtain ⟨⟨later, hh⟩, -⟩ := hp
  refine ⟨later ++ .noted (.passEnded p.clean) p.after :: (newer ++ ev :: older.takeWhile (!·.isTransaction)), ?_⟩
  have hsplit : older.takeWhile (!·.isTransaction) ++ older.atTurn = older := List.takeWhile_append_dropWhile
  rw [hh, hbody, PassRecord.turn]
  conv_lhs => rw [← hsplit]
  simp

/-- What passes write. Every byte that is written in a pass that a session records goes to a register of a group with a claimed
pin, which the pass has been asked to write, and is what the memory `e` means the register to hold when the turn of the group
comes. So the bit of an output is the level that the memory has for it, inverted if the output is active low. If nothing in the
group is staged, that is the level which the output was last given by a setup or by a write that has been flushed; but if a level
in the group has been written and not flushed, it is the one that the output was last given, flushed or not. -/
theorem written_bytes_are_current :
    ∀ s p newer place value r older, Reachable s → s.history.Records p →
      p.body = newer ++ .transaction (.write place value) r :: older → ∃ k g reg e, p.pending.Writes k ∧
        p.before.claims.groups.getLsbD g = true ∧ p.before.family.number? k = some reg ∧
        p.before.locate g reg = .ok place ∧ (p.turn older).latest? = some e ∧ value = e.shadow.meant k g ∧
        (k = .output → ∀ pin, pin / 8 = g → e.shadow.direction.get pin = false →
          value.getLsbD (pin % 8) = (e.shadow.output.get pin ^^ e.shadow.invert.get pin) ∧
          (e.shadow.staged.getLsbD g = false → e.shadow.output.get pin = (p.turn older).flushed pin)) := by
  intro s p newer place value r older hs hp hbody
  obtain ⟨e₀, board, hmade, hgo, _⟩ := hs.goes
  obtain ⟨s₁, t, t', _, hst⟩ := hgo.exists_stems rfl hp
  obtain ⟨k, g, reg, hk, hg, hreg, hplace, rfl⟩ := hst.carried.at_write hbody
  refine ⟨k, g, reg, _, hk, hg, hreg, hplace, p.latest?_turn older, rfl, ?_⟩
  rintro rfl pin rfl hd
  obtain ⟨later, hh⟩ := hp.turn hbody
  have hsettled : (p.turn older).Settled := .of_append later (hh ▸ (hgo.moves.settled hmade rfl).past)
  exact ⟨Shadow.getLsbD_outputByte _ pin hd, hsettled.latest (p.latest?_turn older) pin (BitVec.lt_of_getLsbD hg)⟩

/-- A pass whose body after some events begins with a write has made the write. -/
theorem PassRecord.write_of_drop {p : PassRecord} (k : Nat) {q : Place → Byte → History → Bool}
    (hk : (match p.body.drop k with
      | .transaction (.write place value) _ :: older => q place value older
      | _ => false) = true) :
    ∃ newer place value r older, p.body = newer ++ .transaction (.write place value) r :: older ∧ q place value older = true := by
  split at hk
  · rename_i place value r older hd
    exact ⟨p.body.take k, place, value, r, older, by rw [← hd, List.take_append_drop], hk⟩
  · cases hk

/-- An output is written and flushed: the pass that the flush makes writes the level, which is the one that has been flushed. -/
theorem written_bytes_are_current_of_flush :
    let s := State.oneChip [.claim 0, .op (.call (.setup 0 PinAttributes.output)), .op (.call (.write 0 true)),
      .op (.call .flush)]
    ∃ p newer r older, s.history.Records p ∧ p.body = newer ++ .transaction (.write ⟨0x20, 1⟩ 1) r :: older ∧
      (p.turn older).flushed 0 = true := by
  intro s
  have hr : Reachable s := reachable_oneChip _
  -- no other register that a pass writes is at this place, and there is only one group with a claimed pin
  have hk : ((s.history.pass? 2).any fun p => p.before.claims.groups == 1 &&
      ([.polarity, .config].all fun k => (p.before.family.number? k).all fun reg => p.before.locate 0 reg != .ok ⟨0x20, 1⟩) &&
      match p.body.drop 1 with
      | .transaction (.write place value) _ :: older => place == ⟨0x20, 1⟩ && value == 1 && (p.turn older).latest?.any fun e =>
          !e.shadow.direction.get 0 && !e.shadow.invert.get 0 && !e.shadow.staged.getLsbD 0
      | _ => false) = true := by decide +kernel
  obtain ⟨p, hp, hq⟩ := (Option.any_eq_true _ _).1 hk
  rw [Bool.and_eq_true, Bool.and_eq_true, beq_iff_eq] at hq
  obtain ⟨⟨hgroups, hother⟩, hq⟩ := hq
  have hp := History.records_of_pass? hp
  obtain ⟨newer, place, value, r, older, hbody, hq⟩ := PassRecord.write_of_drop 1
    (q := fun place value older => place == ⟨0x20, 1⟩ && value == 1 && (p.turn older).latest?.any fun e =>
      !e.shadow.direction.get 0 && !e.shadow.invert.get 0 && !e.shadow.staged.getLsbD 0) hq
  rw [Bool.and_eq_true, Bool.and_eq_true, beq_iff_eq, beq_iff_eq] at hq
  obtain ⟨⟨rfl, rfl⟩, hturn⟩ := hq
  obtain ⟨k, g, reg, e, -, hg, hreg, hplace, he, -, hout⟩ := written_bytes_are_current s p newer _ _ r older hr hp hbody
  obtain rfl : g = 0 := by
    have hone : ∀ g < 8, (1 : Byte).getLsbD g = true → g = 0 := by decide
    exact hone g (BitVec.lt_of_getLsbD hg) (hgroups ▸ hg)
  obtain rfl : k = .output := by
    cases k with
    | output => rfl
    | _ =>
      simp only [List.all_cons, hreg, Option.all_some, hplace, bne_self_eq_false, Bool.false_and, Bool.and_false,
        Bool.false_eq_true] at hother
  rw [he, Option.any_some] at hturn
  simp only [Bool.and_eq_true, Bool.not_eq_true'] at hturn
  obtain ⟨⟨hd, hi⟩, hst⟩ := hturn
  obtain ⟨hbit, hlevel⟩ := hout rfl 0 rfl hd
  refine ⟨p, newer, r, older, hp, hbody, ?_⟩
  rw [← hlevel hst]
  rw [hi, Bool.xor_false] at hbit
  rw [← hbit]
  rfl

/-- A level that has been written and not flushed reaches the chip when another pin of the group is set up: the bit of the output
is not the level that was last flushed. -/
theorem unflushed_levels_are_written :
    let s := State.oneChip [.claim 0, .claim 1, .op (.call (.setup 0 PinAttributes.output)), .op .update,
      .op (.call (.write 0 true)), .op (.call (.setup 1 PinAttributes.output)), .op .update]
    Reachable s ∧ ∃ p newer place value r older e, s.history.Records p ∧
      p.body = newer ++ .transaction (.write place value) r :: older ∧
      p.before.locate 0 p.before.family.outputReg = .ok place ∧ (p.turn older).latest? = some e ∧
      e.shadow.direction.get 0 = false ∧ e.shadow.invert.get 0 = false ∧ value.getLsbD 0 ≠ (p.turn older).flushed 0 := by
  intro s
  refine ⟨reachable_oneChip _, ?_⟩
  have hk : ((s.history.pass? 2).any fun p => match p.body.drop 1 with
      | .transaction (.write place value) _ :: older =>
        p.before.locate 0 p.before.family.outputReg == .ok place && value.getLsbD 0 != (p.turn older).flushed 0 &&
        (p.turn older).latest?.any fun e => !e.shadow.direction.get 0 && !e.shadow.invert.get 0
      | _ => false) = true := by decide +kernel
  obtain ⟨p, hp, hq⟩ := (Option.any_eq_true _ _).1 hk
  obtain ⟨newer, place, value, r, older, hbody, hq⟩ := PassRecord.write_of_drop 1 (q := fun place value older =>
    p.before.locate 0 p.before.family.outputReg == .ok place && value.getLsbD 0 != (p.turn older).flushed 0 &&
    (p.turn older).latest?.any fun e => !e.shadow.direction.get 0 && !e.shadow.invert.get 0) hq
  rw [Bool.and_eq_true, Bool.and_eq_true, beq_iff_eq, bne_iff_ne, Option.any_eq_true] at hq
  obtain ⟨⟨hplace, hne⟩, e, he, hturn⟩ := hq
  rw [Bool.and_eq_true, Bool.not_eq_true', Bool.not_eq_true'] at hturn
  exact ⟨p, newer, place, value, r, older, e, History.records_of_pass? hp, hbody, hplace, he, hturn.1, hturn.2, hne⟩

end PortExpander
