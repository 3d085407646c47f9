import PortExpander.Proofs.Stopping

/-!
# The status word

Four acts change the status word: requests add to it, a pass takes all of it and leaves `busy` behind, releases it at its end, and
clears it when the extender halts. What a take finds after any row of acts is what was requested since the word was last emptied. The
history of a session tells of such a row, in whatever order requests fall into passes, also when passes are cut short and never
release the word; the memory at every note has the word that the acts before it make.
-/

namespace PortExpander

open Sim Engine

namespace Status

/-! ## Rows of acts -/

/-- One thing that is done to a status word. -/
inductive Act where
  | request (bits : Status)
  | take
  | release
  | clear
  deriving DecidableEq

/-- What an act makes of a word. -/
def Act.apply : Act → Status → Status
  | request bits, w => w ∪ bits
  | take, _ => busy
  | release, w => w.release
  | clear, _ => ∅

/-- The word after a row of acts, the latest first. -/
def word : List Act → Status
  | [] => ∅
  | a :: acts => a.apply (word acts)

/-- Whether an act is a request. -/
def Act.isRequest : Act → Bool
  | request _ => true
  | _ => false

/-- Whether an act takes all requests out of the word. -/
def Act.empties : Act → Bool
  | take | clear => true
  | _ => false

/-- Whether some act of a row requests the flag at bit `i`. -/
def Requested (i : Nat) (acts : List Act) : Prop := ∃ bits, .request bits ∈ acts ∧ bits.bits.getLsbD i = true

variable {acts : List Act} {i : Nat}

theorem not_requested_nil : ¬Requested i [] := fun ⟨_, h, _⟩ => absurd h List.not_mem_nil

theorem requested_cons {bits : Status} : Requested i (.request bits :: acts) ↔ bits.bits.getLsbD i = true ∨ Requested i acts := by
  constructor
  · rintro ⟨bits', hm, hi⟩
    rcases List.mem_cons.1 hm with heq | hm
    · cases heq
      exact .inl hi
    · exact .inr ⟨bits', hm, hi⟩
  · rintro (hi | ⟨bits', hm, hi⟩)
    · exact ⟨bits, List.mem_cons_self, hi⟩
    · exact ⟨bits', List.mem_cons_of_mem _ hm, hi⟩

/-- What is no request requests nothing. -/
theorem requested_cons_of_ne {a : Act} (ha : a.isRequest = false) : Requested i (a :: acts) ↔ Requested i acts := by
  constructor
  · rintro ⟨bits, hm, hi⟩
    rcases List.mem_cons.1 hm with rfl | hm
    · cases ha
    · exact ⟨bits, hm, hi⟩
  · rintro ⟨bits, hm, hi⟩
    exact ⟨bits, List.mem_cons_of_mem _ hm, hi⟩

/-- A bit is in a union if it is on one of its sides. -/
theorem getLsbD_union (a b : Status) : (a ∪ b).bits.getLsbD i = (a.bits.getLsbD i || b.bits.getLsbD i) := BitVec.getLsbD_or

/-- Of the busy word only the bit of `busy` is set. -/
theorem getLsbD_busy : busy.bits.getLsbD i = decide (i = 4) := by
  show (BitVec.twoPow 8 4).getLsbD i = _
  rw [BitVec.getLsbD_twoPow]
  by_cases hi : i = 4
  · subst hi
    rfl
  · simp [hi, Ne.symm hi]

/-- A release takes nothing but `busy` out of the word. -/
theorem getLsbD_release (w : Status) : w.release.bits.getLsbD i = (w.bits.getLsbD i && i != 4) := by
  show (w.bits &&& ~~~busy.bits).getLsbD i = _
  rw [BitVec.getLsbD_and, BitVec.getLsbD_not, getLsbD_busy]
  by_cases h8 : i < 8
  · by_cases hi : i = 4 <;> simp [h8, hi]
  · simp [BitVec.getLsbD_of_ge _ _ (Nat.le_of_not_lt h8)]

/-- A take finds the named flags of the word but `busy`. -/
theorem getLsbD_pending (w : Status) : w.pending.bits.getLsbD i = (w.bits.getLsbD i && decide (i < 6) && i != 4) := by
  have hall : vocabulary.all.bits.getLsbD i = decide (i < 6) := by
    rw [show vocabulary.all.bits = BitVec.ofNat 8 (2 ^ 6 - 1) by decide, BitVec.getLsbD_ofNat, Nat.testBit_two_pow_sub_one]
    by_cases h6 : i < 6
    · simp [h6, Nat.lt_trans h6 (by decide : 6 < 8)]
    · simp [h6]
  have hpending : w.pending = release (w ∩ vocabulary.all) := rfl
  rw [hpending, getLsbD_release]
  show ((w.bits &&& vocabulary.all.bits).getLsbD i && i != 4) = _
  rw [BitVec.getLsbD_and, hall]

/-- Apart from `busy`, a word holds what was requested since it was last emptied. -/
theorem getLsbD_word (hi : i ≠ 4) : (word acts).bits.getLsbD i = true ↔ Requested i (acts.takeWhile (!·.empties)) := by
  induction acts with
  | nil =>
    refine ⟨fun h => ?_, fun h => (not_requested_nil h).elim⟩
    change (0#8).getLsbD i = true at h
    simp at h
  | cons a acts ih =>
    cases a with
    | request bits =>
      rw [List.takeWhile_cons_of_pos rfl, requested_cons, ← ih, word, Act.apply, getLsbD_union, Bool.or_eq_true, or_comm]
    | take =>
      rw [List.takeWhile_cons_of_neg (by decide), word, Act.apply, getLsbD_busy, decide_eq_false hi]
      exact ⟨nofun, fun h => (not_requested_nil h).elim⟩
    | release =>
      rw [List.takeWhile_cons_of_pos rfl, requested_cons_of_ne rfl, ← ih, word, Act.apply, getLsbD_release,
        bne_iff_ne.2 hi, Bool.and_true]
    | clear =>
      rw [List.takeWhile_cons_of_neg (by decide), word, Act.apply]
      refine ⟨fun h => ?_, fun h => (not_requested_nil h).elim⟩
      change (0#8).getLsbD i = true at h
      simp at h

/-- While a word that has been taken is neither released nor cleared, it holds `busy` and what has been requested since. -/
theorem getLsbD_word_taken {reqs : List Act} (hr : ∀ a ∈ reqs, a.isRequest = true) :
    (word (reqs ++ .take :: acts)).bits.getLsbD i = true ↔ i = 4 ∨ Requested i reqs := by
  induction reqs with
  | nil =>
    rw [List.nil_append, word, Act.apply, getLsbD_busy, decide_eq_true_eq]
    exact ⟨.inl, fun h => h.resolve_right not_requested_nil⟩
  | cons a reqs ih =>
    have ih := ih fun a ha => hr a (List.mem_cons_of_mem _ ha)
    cases a with
    | request bits =>
      rw [List.cons_append, word, Act.apply, getLsbD_union, Bool.or_eq_true, ih, requested_cons]
      exact or_assoc.trans (or_congr_right or_comm)
    | _ => cases hr _ List.mem_cons_self

/-- What a take finds: of the flags that have names, other than `busy`, those that were requested since the word was last emptied. -/
theorem getLsbD_pending_word (h6 : i < 6) (hi : i ≠ 4) :
    (pending (word acts)).bits.getLsbD i = true ↔ Requested i (acts.takeWhile (!·.empties)) := by
  rw [getLsbD_pending, decide_eq_true h6, bne_iff_ne.2 hi, Bool.and_true, Bool.and_true, getLsbD_word hi]

end Status

/-! ## The acts of a session -/

/-- What an event tells to have been done to the status word. A pass takes it when it begins, releases it before its end is noted, and
clears it when it halts the extender. -/
def Event.act? : Event → Option Status.Act
  | noted (.requested bits) _ => some (.request bits)
  | noted (.took _) _ => some .take
  | noted (.updated .idle) _ | noted (.updated .ran) _ => some .release
  | logged (.halting _) => some .clear
  | _ => none

/-- What has been done to the status word, the latest first. -/
def History.acts (h : History) : List Status.Act := h.filterMap (·.act?)

theorem History.acts_cons (ev : Event) (past : History) : acts (ev :: past) = ev.act?.toList ++ acts past := by
  unfold acts
  cases h : ev.act? with
  | none => rw [List.filterMap_cons_none h]; rfl
  | some a => rw [List.filterMap_cons_some h]; rfl

/-- The memory at every note has the word that the acts make, which has been cleared if the extender has halted; and what a pass takes
is what the word asked for. -/
def History.Worded : History → Prop
  | [] => True
  | .noted n e :: past => e.status = Status.word (acts (.noted n e :: past)) ∧
      (.clear ∈ acts (.noted n e :: past) ↔ e.halted = true) ∧
      (∀ bits, n = .took bits → bits = (Status.word (acts past)).pending ∧ e.halted = false) ∧ Worded past
  | _ :: past => Worded past

theorem History.Worded.of_append (new : History) {h : History} (hw : Worded (new ++ h)) : h.Worded := by
  induction new with
  | nil => exact hw
  | cons ev new ih =>
    cases ev with
    | noted => exact ih hw.2.2.2
    | _ => exact ih hw

/-- The memory of a state has the word that the acts make; only named flags other than `busy` are requested, and the word is cleared
just when the extender halts. -/
structure State.Worded (s : State) : Prop where
  now : s.extender.status = Status.word s.history.acts
  clear : .clear ∈ s.history.acts ↔ s.extender.halted = true
  named : ∀ bits, .request bits ∈ s.history.acts → bits.pending = bits
  history : s.history.Worded

namespace State.Worded

variable {s s' : State}

/-- Nothing is added to the history, and the word stays as it is. -/
theorem silent (hs : s.Worded) (hh : s'.history = s.history) (hst : s'.extender.status = s.extender.status)
    (hhalted : s'.extender.halted = s.extender.halted) : s'.Worded where
  now := by rw [hst, hh, hs.now]
  clear := by rw [hh, hhalted, hs.clear]
  named := hh ▸ hs.named
  history := hh ▸ hs.history

/-- An event that tells of no act, and is no note. -/
theorem seeing (hs : s.Worded) {ev : Event} (ha : ev.act? = none) (hn : ev.isNote = false) : (s.seeing ev).Worded := by
  have hacts : (s.seeing ev).history.acts = s.history.acts := List.filterMap_cons_none ha
  refine ⟨by rw [hacts]; exact hs.now, by rw [hacts]; exact hs.clear, hacts ▸ hs.named, ?_⟩
  cases ev with
  | noted => cases hn
  | _ => exact hs.history

/-- A note that tells of an act has the word that the act makes. -/
theorem note (hs : s.Worded) {n : Note} (hh : s'.history = .noted n s'.extender :: s.history)
    (hst : s'.extender.status = (Event.noted n s'.extender).act?.elim s.extender.status (·.apply s.extender.status))
    (hnamed : ∀ bits, n = .requested bits → bits.pending = bits)
    (htook : ∀ bits, n = .took bits → bits = s.extender.status.pending ∧ s.extender.halted = false)
    (hhalted : s'.extender.halted = s.extender.halted) : s'.Worded := by
  have hacts : s'.history.acts = (Event.noted n s'.extender).act?.toList ++ s.history.acts := by
    rw [hh, History.acts_cons]
  have hnow : s'.extender.status = Status.word s'.history.acts := by
    rw [hst, hacts, hs.now]
    cases (Event.noted n s'.extender).act? <;> rfl
  -- no note tells that the word has been cleared: that is told by the record of the halt
  have hclear : .clear ∈ s'.history.acts ↔ s'.extender.halted = true := by
    rw [hacts, List.mem_append, Option.mem_toList, hhalted, ← hs.clear, or_iff_right_iff_imp]
    intro h
    cases n with
    | updated p => cases p <;> cases h
    | _ => cases h
  refine ⟨hnow, hclear, fun bits h => ?_, ?_⟩
  · rw [hacts] at h
    rcases List.mem_append.1 h with h | h
    · rw [Option.mem_toList] at h
      cases n with
      | requested bits' =>
        cases h
        exact hnamed bits rfl
      | updated p => cases p <;> cases h
      | _ => cases h
    · exact hs.named bits h
  · rw [hh]
    refine ⟨hh ▸ hnow, hh ▸ hclear, fun bits hn => ?_, hs.history⟩
    obtain ⟨hbits, hrunning⟩ := htook bits hn
    exact ⟨hs.now ▸ hbits, hhalted.trans hrunning⟩

/-- A note that tells of no act, of a memory with the same word. -/
theorem noting (hs : s.Worded) {n : Note} (hh : s'.history = .noted n s'.extender :: s.history)
    (ha : (Event.noted n s'.extender).act? = none) (hst : s'.extender.status = s.extender.status)
    (hhalted : s'.extender.halted = s.extender.halted) : s'.Worded := by
  refine hs.note hh (by rw [ha]; exact hst) ?_ ?_ hhalted
  · rintro bits rfl
    cases ha
  · rintro bits rfl
    cases ha

/-- A request of named flags. -/
theorem asking (hs : s.Worded) {bits : Status} (hb : bits.pending = bits) : (s.asking bits).Worded := by
  refine hs.note rfl rfl ?_ nofun rfl
  rintro _ ⟨⟩
  exact hb

/-- A pass takes the word. -/
theorem taken (hs : s.Worded) (hh : s.extender.halted = false) : s.held.taken.Worded := by
  have hh' : s.held.taken.history = .noted (.took s.extender.status.pending) s.held.taken.extender :: s.history := rfl
  refine hs.note hh' rfl nofun ?_ rfl
  rintro _ ⟨⟩
  exact ⟨rfl, hh⟩

/-- The word is released before the end of a pass is noted. -/
theorem released (hs : s.Worded) {p : Pass} (hp : p = .idle ∨ p = .ran) : ((letGo s.released).noting (.updated p)).Worded := by
  rcases hp with rfl | rfl <;> exact hs.note rfl rfl nofun nofun rfl

/-- The word is cleared when the extender halts. -/
theorem stopped (hs : s.Worded) : s.stopped.Worded := by
  have hacts : s.stopped.history.acts = .clear :: s.history.acts := rfl
  refine ⟨rfl, by rw [hacts]; exact ⟨fun _ => rfl, fun _ => List.mem_cons_self⟩, fun bits h => ?_, hs.history⟩
  rw [hacts] at h
  exact hs.named bits ((List.mem_cons.1 h).resolve_left nofun)

end State.Worded

@[simp] theorem Extender.status_repolled (e : Extender) : e.repolled.status = e.status := by
  obtain ⟨_, _, _, _, _, _, _, _, _, _, engine⟩ := e
  cases engine <;> rfl

/-- A touch keeps the word what the acts say. -/
theorem Touch.worded {s s' : State} (h : Touch s s') (hs : s.Worded) : s'.Worded := by
  have hhalted := h.frame.halted
  cases h with
  | setUp pin attrs =>
    exact State.Worded.asking (s := s.amend fun e => { e with shadow := e.shadow.setup pin attrs }) (hs.silent rfl rfl rfl)
      (by decide)
  | commit =>
    exact State.Worded.asking (s := s.amend fun e => { e with shadow := e.shadow.commit }) (hs.silent rfl rfl rfl) (by decide)
  | @enqueue q chip hchip =>
    exact State.Worded.asking (s := s.amend ({ · with engine := .queued (q.push chip hchip) }))
      (hs.silent rfl rfl rfl) (by decide)
  | ask bits hb => exact hs.asking hb.1
  | attach | detach => exact hs.silent rfl (Extender.status_repolled _) hhalted
  | write | board | unwire => exact hs.silent rfl rfl hhalted
  | see ev hq =>
    cases ev with
    | logged r => cases r <;> first | exact hs.seeing rfl rfl | cases hq
    | _ => first | exact hs.seeing rfl rfl | cases hq
  | note n hn => exact hs.noting rfl (by cases n <;> first | rfl | cases hn) rfl rfl
  | contend | ended => exact hs.noting rfl rfl rfl rfl
  | released => exact hs.seeing rfl rfl

/-- What happens in a pass keeps the word what the acts say. -/
theorem Work.worded {s s' : State} (h : Work s s') (hs : s.Worded) : s'.Worded := by
  cases h with
  | touch h => exact h.worded hs
  | answer a => exact (hs.seeing rfl rfl : (s.seeing (.transaction a (s.board.outcome a))).Worded).silent rfl rfl rfl
  | look | edge | call => exact hs.seeing rfl rfl
  | record a r =>
    cases r with
    | ok => exact hs
    | error kind =>
      exact State.Worded.seeing (s := s.amend fun e => { e with backoff := e.backoff.recordFailure }) (hs.silent rfl rfl rfl)
        rfl rfl
  | _ => exact hs.silent rfl rfl rfl

/-- Every move keeps the word what the acts say. -/
theorem Move.worded {s s' : State} (h : Move s s') (hs : s.Worded) : s'.Worded := by
  cases h with
  | touch h => exact h.worded hs
  | work _ _ h => exact h.worded hs
  | began | ended | claim | free | refuse | cut => exact hs.noting rfl rfl rfl rfl
  | stop _ hh => exact (hs.taken hh).stopped.noting rfl rfl rfl rfl
  | take _ hh => exact hs.taken hh
  | idle => exact hs.released (.inl rfl)
  | finish => exact hs.released (.inr rfl)
  | begin pending =>
    have hstarted : (s.started pending).Worded := by
      unfold State.started
      split
      · exact hs.seeing rfl rfl
      · exact hs
    exact hstarted.noting rfl rfl rfl rfl
  | complete clean =>
    cases clean with
    | true => exact hs.noting rfl rfl rfl rfl
    | false =>
      have hasked : ((s.amend fun e => { e with shadow := e.shadow.markAllDirty }).asking .resync).Worded :=
        State.Worded.asking (s := s.amend fun e => { e with shadow := e.shadow.markAllDirty }) (hs.silent rfl rfl rfl)
          (by decide)
      exact hasked.noting rfl rfl rfl rfl

/-- In every session the word is what the acts say. -/
theorem Moves.worded {s₀ s : State} (h : Moves s₀ s) (hm : Made s₀.extender) (h₀ : s₀.history = []) : s.Worded := by
  induction h with
  | refl =>
    obtain ⟨family, address, capacity, lines, engine, room, he, -⟩ := hm.fresh
    refine ⟨?_, ?_, fun bits h => ?_, ?_⟩
    · rw [h₀, he]
      rfl
    · rw [h₀, he]
      exact ⟨nofun, nofun⟩
    · rw [h₀] at h
      cases h
    · rw [h₀]
      exact trivial
  | tail _ h ih => exact h.worded ih

/-! ## Requests -/

/-- Where no clear empties the word, it is emptied by takes only. -/
theorem Status.takeWhile_empties {acts : List Status.Act} (hc : .clear ∉ acts) :
    acts.takeWhile (!·.empties) = acts.takeWhile (· ≠ .take) := by
  induction acts with
  | nil => rfl
  | cons a acts ih =>
    have ih := ih fun h => hc (List.mem_cons_of_mem _ h)
    cases a with
    | request | release => rw [List.takeWhile_cons_of_pos rfl, List.takeWhile_cons_of_pos (by simp), ih]
    | take => rw [List.takeWhile_cons_of_neg (by decide), List.takeWhile_cons_of_neg (by decide)]
    | clear => exact absurd List.mem_cons_self hc

/-- Flags that have no name are not requested. -/
theorem State.Worded.not_requested {s : State} (hs : s.Worded) {i : Nat} (hi : 6 ≤ i) {acts : List Status.Act}
    (ha : ∀ a ∈ acts, a ∈ s.history.acts) : ¬Status.Requested i acts := by
  rintro ⟨bits, hm, hbit⟩
  rw [← hs.named bits (ha _ hm), Status.getLsbD_pending, decide_eq_false (by omega), Bool.and_false, Bool.false_and] at hbit
  cases hbit

/-- Requests are neither lost nor invented. After any row of requests, takes, releases and clears, a take finds a flag other than
`busy` if and only if the flag was requested since the word was last emptied, and never `busy`; a release removes `busy` and nothing
else; and between a take and the next release or clear the word holds `busy` and what has been requested since. Every session makes
such a row, whatever operations fall into the middle of others and wherever faults cut passes short: the memory at every note has the
word that the acts before it make, a pass takes just what was requested since the pass before took the word, and the word has been
cleared if and only if the extender has halted. -/
theorem requests_are_neither_lost_nor_invented :
    (∀ acts : List Status.Act,
      (∀ i < 6, i ≠ 4 → ((Status.word acts).pending.bits.getLsbD i = true ↔
        Status.Requested i (acts.takeWhile (!·.empties)))) ∧
      (Status.word acts).pending.bits.getLsbD 4 = false ∧
      (∀ i, (Status.word (.release :: acts)).bits.getLsbD i = ((Status.word acts).bits.getLsbD i && i != 4)) ∧
      ∀ reqs : List Status.Act, (∀ a ∈ reqs, a.isRequest = true) →
        ∀ i, (Status.word (reqs ++ .take :: acts)).bits.getLsbD i = true ↔ i = 4 ∨ Status.Requested i reqs) ∧
    ∀ (s : State) (later : History) n e (past : History), Reachable s → s.history = later ++ .noted n e :: past →
      e.status = Status.word (History.acts (.noted n e :: past)) ∧
      (.clear ∈ History.acts (.noted n e :: past) ↔ e.halted = true) ∧
      (∀ bits, n = .took bits → bits.bits.getLsbD 4 = false ∧
        ∀ i ≠ 4, bits.bits.getLsbD i = true ↔ Status.Requested i (past.acts.takeWhile (· ≠ .take))) ∧
      ∀ reqs older, History.acts (.noted n e :: past) = reqs ++ .take :: older → (∀ a ∈ reqs, a.isRequest = true) →
        ∀ i, e.status.bits.getLsbD i = true ↔ i = 4 ∨ Status.Requested i reqs := by
  have hbusy (w : Status) : w.pending.bits.getLsbD 4 = false := by rw [Status.getLsbD_pending, bne_self_eq_false, Bool.and_false]
  refine ⟨fun acts => ⟨fun i h6 hi => Status.getLsbD_pending_word h6 hi, hbusy _, fun i => Status.getLsbD_release _,
    fun reqs hr i => Status.getLsbD_word_taken hr⟩, fun s later n e past hs hm => ?_⟩
  obtain ⟨e₀, board, hmade, hgo, _⟩ := hs.goes
  have hworded := hgo.moves.worded hmade rfl
  have hhistory := hworded.history
  rw [hm] at hhistory
  obtain ⟨hword, hclear, htook, -⟩ := hhistory.of_append later
  refine ⟨hword, hclear, ?_, fun reqs older hacts hr i => ?_⟩
  · rintro bits rfl
    obtain ⟨rfl, hrunning⟩ := htook bits rfl
    refine ⟨hbusy _, fun i hi => ?_⟩
    have hsub : ∀ a ∈ past.acts, a ∈ s.history.acts := by
      intro a ha
      rw [hm, History.acts, List.filterMap_append]
      exact List.mem_append_right _ (by rw [← History.acts, History.acts_cons]; exact List.mem_append_right _ ha)
    -- before the extender has halted the word has never been cleared, so it was last emptied by a take
    have hnever : .clear ∉ past.acts := by
      intro hc
      rw [hclear.1 (by rw [History.acts_cons]; exact List.mem_append_right _ hc)] at hrunning
      cases hrunning
    rw [← Status.takeWhile_empties hnever]
    by_cases h6 : i < 6
    · exact Status.getLsbD_pending_word h6 hi
    · rw [Status.getLsbD_pending, decide_eq_false h6, Bool.and_false, Bool.false_and]
      refine ⟨nofun, fun h => (hworded.not_requested (Nat.le_of_not_lt h6) (fun a ha => ?_) h).elim⟩
      exact hsub a (List.takeWhile_subset _ ha)
  · rw [hword, hacts]
    exact Status.getLsbD_word_taken hr

/-- The work that a note tells a pass to have taken. -/
def Note.taken? : Note → Option Status
  | took bits => some bits
  | _ => none

/-- A pass is interrupted and then cut short in its first transaction. The next one takes what was requested meanwhile, and nothing
of what the pass before had taken. -/
theorem requests_are_neither_lost_nor_invented_of_cut :
    let s := State.oneChip [.claim 0, .op (.call (.setup 0 PinAttributes.output)),
      .op (.hook 0 [.call (.interrupt 0), .panic]), .op .update, .op .update]
    ∃ (later : History) (bits : Status) (e : Extender) (past : History), s.history = later ++ .noted (.took bits) e :: past ∧
      bits = .isrPending ∧ Status.Requested 5 (past.acts.takeWhile (· ≠ .take)) ∧
      ¬Status.Requested 0 (past.acts.takeWhile (· ≠ .take)) ∧ e.status.bits.getLsbD 4 = true := by
  intro s
  have hr : Reachable s := reachable_oneChip _
  obtain ⟨later, n, e, past, hm, hn⟩ := History.moment_of_drop (h := s.history) 5
    (p := fun n _ _ => n.taken? == some .isrPending) (by decide +kernel)
  cases n with
  | took bits =>
    obtain rfl := Option.some.inj (eq_of_beq hn)
    obtain ⟨-, -, htook, hheld⟩ := requests_are_neither_lost_nor_invented.2 s later _ e past hr hm
    obtain ⟨-, hbits⟩ := htook _ rfl
    refine ⟨later, _, e, past, hm, rfl, (hbits 5 (by decide)).1 (by decide), fun h => ?_, (hheld [] _ rfl (by simp) 4).2 (.inl rfl)⟩
    have h0 := (hbits 0 (by decide)).2 h
    revert h0
    decide
  | _ => cases hn

end PortExpander
