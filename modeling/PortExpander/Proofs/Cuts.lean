import PortExpander.Proofs.Passes
import PortExpander.Proofs.Word

/-!
# Passes that are cut short

A fault in a handler or in an operation that falls into a transaction cuts a pass short. The pass lets the next one begin, but it
has no end: the work that it took out of the status word is not put back, and failures of its transactions are counted without
everything being asked for again. A history tells of such passes by the note of the cut, and every one of them stems from a state
between happenings, as passes with an end do.
-/

namespace PortExpander

open Sim Engine

/-! ## Recorded cuts -/

/-- A pass in a history that a fault has cut short: the work it had to do, the memory at its beginning, what happened in it, the
memory after the fault, and what happened before it. -/
structure CutRecord where
  pending : Status
  before : Extender
  body : History
  after : Extender
  past : History

/-- A history tells of a pass that has been cut short. -/
def History.CutShort (h : History) (c : CutRecord) : Prop :=
  (∃ later, h = later ++ .noted .passCut c.after :: (c.body ++ .noted (.passBegan c.pending) c.before :: c.past)) ∧
    ∀ ev ∈ c.body, ev.isBegin = false

/-- The pass of whose cut there is the note in a history after some events. -/
def History.cut? (h : History) (k : Nat) : Option CutRecord :=
  match h.drop k with
  | .noted .passCut after :: rest =>
    match rest.dropWhile (!·.isBegin) with
    | .noted (.passBegan pending) before :: past => some { pending, before, body := recent rest, after, past }
    | _ => none
  | _ => none

/-- The pass that is found to be cut short is cut short. -/
theorem History.cutShort_of_cut? {h : History} {k : Nat} {c : CutRecord} (hk : h.cut? k = some c) : h.CutShort c := by
  unfold cut? at hk
  split at hk
  · rename_i after rest hd
    split at hk
    · rename_i pending before past hw
      cases hk
      refine ⟨⟨h.take k, ?_⟩, fun ev hm => ?_⟩
      · dsimp only
        rw [← hw, recent, List.takeWhile_append_dropWhile, ← hd, List.take_append_drop]
      · simpa using List.mem_takeWhile_imp hm
    · cases hk
  · cases hk

/-- Events that are no cuts have cut no pass short. -/
theorem History.CutShort.of_append (new : History) {h : History} {c : CutRecord} (hc : History.CutShort (new ++ h) c)
    (hn : new.Uncut) : h.CutShort c := by
  obtain ⟨⟨later, hh⟩, hb⟩ := hc
  exact ⟨split_of_append hh fun hm => absurd (hn _ hm) (by simp [Event.isCut]), hb⟩

/-- A pass that was cut short before another pass began was cut short in the whole history. -/
theorem History.Records.cutShort {h : History} {p : PassRecord} (hp : h.Records p) {c : CutRecord} (hc : p.past.CutShort c) :
    h.CutShort c := by
  obtain ⟨⟨later, hh⟩, -⟩ := hp
  obtain ⟨⟨since, hpast⟩, hb⟩ := hc
  exact ⟨⟨later ++ .noted (.passEnded p.clean) p.after :: (p.body ++ .noted (.passBegan p.pending) p.before :: since),
    by simp [hh, hpast]⟩, hb⟩

/-- How a pass that was cut short has come about: an update of the state `s` has begun it with the state `t`, and a fault has broken
off its work in the state `t'`. -/
structure CutRecord.Stems (c : CutRecord) (s t t' : State) : Prop extends s.Begins t c.pending c.before c.past where
  breaks : Breaks c.pending t t'
  body : t'.history = c.body ++ t.history
  after : c.after = (letGo t').extender

/-- A pass that a happening cuts short stems from the state before it. -/
theorem Happening.cutShort {s s' : State} (h : Happening s s') {c : CutRecord} (hc : s'.history.CutShort c) :
    s.history.CutShort c ∨ ∃ t t', c.Stems s t t' := by
  have hold (new : History) (hnew : s'.history = new ++ s.history) (hu : new.Uncut) : s.history.CutShort c := by
    rw [hnew] at hc
    exact hc.of_append new hu
  cases h with
  | touch h =>
    obtain ⟨new, hnew, hplain⟩ := Works.history (.single (.touch h))
    exact .inl (hold _ hnew hplain.uncut)
  | began | ended | claim | free => exact .inl (hold [_] rfl (by simp [History.Uncut, Event.isCut]))
  | cut hu h =>
    obtain ⟨s₁, hh, hs, hb, rfl⟩ := h
    obtain ⟨done, hdone, hplain⟩ := hb.works.history
    obtain ⟨⟨later, hl⟩, hbegin⟩ := hc
    cases later with
    | nil =>
      -- the cut is the one that this happening notes, so the pass is the one that it has begun
      right
      obtain ⟨hhead, hrest⟩ := List.cons.inj hl
      have hst : s.Begins _ s.extender.work s.held.taken.extender (s.held.taken.started s.extender.work).history :=
        ⟨hu, hh, rfl, rfl, rfl, rfl⟩
      change s₁.history = _ at hrest
      rw [hdone, hst.history] at hrest
      obtain ⟨hbody, hpending, hbefore, hpast⟩ := History.begin_unique hplain.begins hbegin hrest
      refine ⟨_, s₁, ⟨hu, hh, hpending.symm, hbefore.symm, hpast.symm, rfl⟩, ?_, hbody ▸ hdone, ?_⟩
      · rw [← hpending]
        exact hb
      · exact ((Event.noted.inj hhead).2).symm
    | cons ev later =>
      left
      have hc' : s₁.history.CutShort c := ⟨⟨later, (List.cons.inj hl).2⟩, hbegin⟩
      obtain ⟨new, hnew, -, huncut, -⟩ := hb.works.unmarked
      rw [hnew] at hc'
      exact hc'.of_append new huncut
  | update p _ h =>
    obtain ⟨new, hnew, huncut, -⟩ := h.unmarked
    exact .inl (hold _ hnew huncut)

/-- Every pass that a fault has cut short stems from a state on the way of the session. -/
theorem Goes.exists_cut {s₀ s : State} (h : Goes s₀ s) (h₀ : s₀.history = []) {c : CutRecord} (hc : s.history.CutShort c) :
    ∃ s₁ t t', Goes s₀ s₁ ∧ c.Stems s₁ t t' := by
  induction h with
  | refl =>
    obtain ⟨⟨later, hl⟩, _⟩ := hc
    rw [h₀] at hl
    cases later <;> cases hl
  | @tail s₁ s₂ hgo h ih =>
    rcases h.cutShort hc with hc | ⟨t, t', hst⟩
    · exact ih hc
    · exact ⟨s₁, t, t', hgo, hst⟩

/-! ## Failures -/

/-- Whether an event is a transaction that has failed. -/
def Event.failed : Event → Bool
  | transaction _ (.error _) => true
  | _ => false

/-- What has failed is a transaction. -/
theorem Event.exists_failed {h : History} (hf : h.any (·.failed) = true) : ∃ a kind, .transaction a (.error kind) ∈ h := by
  obtain ⟨ev, hm, hev⟩ := List.any_eq_true.1 hf
  unfold failed at hev
  split at hev
  · exact ⟨_, _, hm⟩
  · cases hev

/-- The events `new` have led from one state to another one. Where failures have been counted before, or a transaction among the
events has failed, failures are counted. -/
structure Counts (s s' : State) (new : History) : Prop where
  history : s'.history = new ++ s.history
  limit : s'.extender.backoff.limit = s.extender.backoff.limit
  counted : 0 < s.extender.backoff.limit →
    (0 < s.extender.backoff.count ∨ ∃ a kind, .transaction a (.error kind) ∈ new) → 0 < s'.extender.backoff.count

theorem Counts.trans {s s' s'' : State} {new new' : History} (h : Counts s s' new) (h' : Counts s' s'' new') :
    Counts s s'' (new' ++ new) where
  history := by rw [h'.history, h.history, List.append_assoc]
  limit := h'.limit.trans h.limit
  counted hl hc := by
    refine h'.counted (h.limit ▸ hl) ?_
    rcases hc with hc | ⟨a, kind, hm⟩
    · exact .inl (h.counted hl (.inl hc))
    · rcases List.mem_append.1 hm with hm | hm
      · exact .inr ⟨a, kind, hm⟩
      · exact .inl (h.counted hl (.inr ⟨a, kind, hm⟩))

/-- Where no transaction fails, the count stays what it is. -/
theorem Clean.counts {s s' : State} {new : History} (h : Clean s s' new) : Counts s s' new where
  history := h.history
  limit := by rw [h.backoff]
  counted _ hc := by
    rcases hc with hc | ⟨a, kind, hm⟩
    · rw [h.backoff]
      exact hc
    · cases h.ok a _ hm

/-- A transaction is counted at once if it fails. -/
theorem Counts.transfer (s : State) (a : Access) :
    ∃ new, Counts s ((s.answered a).recorded a (s.board.outcome a)) new := by
  cases ho : s.board.outcome a with
  | ok moved =>
    refine ⟨[.transaction a (.ok moved)], congrArg (· :: s.history) (congrArg _ ho), rfl, fun _ hc => ?_⟩
    rcases hc with hc | ⟨a', kind, hm⟩
    · exact hc
    · cases List.mem_singleton.1 hm
  | error kind =>
    refine ⟨[.logged (.transactionFailed { place := a.place, kind } s.extender.backoff.recordFailure.count),
      .transaction a (.error kind)], ?_, rfl, fun hl _ => ?_⟩
    · show _ :: (Event.transaction a (s.board.outcome a) :: s.history) = _
      rw [ho]
      rfl
    · show 0 < s.extender.backoff.recordFailure.count
      rw [Backoff.count_recordFailure]
      omega

/-- Every failure at the bus is counted. -/
theorem BusSteps.counts {s s' : State} (h : BusSteps s s') : ∃ new, Counts s s' new := by
  induction h with
  | refl => exact ⟨[], (Clean.refl s).counts⟩
  | @tail s₁ s₂ _ h ih =>
    obtain ⟨new, hc⟩ := ih
    have hnext : ∃ new, Counts s₁ s₂ new := by
      cases h with
      | touch h => exact (Touched.clean (.single h)).imp fun _ h => h.counts
      | transfer a => exact Counts.transfer s₁ a
      | keep | mark | clear =>
        refine ⟨[], Clean.counts ?_⟩
        exact .silent rfl rfl (.update _ _ _ _)
    obtain ⟨new', hc'⟩ := hnext
    exact ⟨_, hc.trans hc'⟩

/-- A reading that is cut short has counted every failure. -/
theorem Falters.counts {groups : Byte} {s s' : State} (h : Falters groups s s') : ∃ new, Counts s s' new := by
  cases h with
  | early h => exact h.counts
  | late _ h h' =>
    obtain ⟨new, hc⟩ := h.counts
    obtain ⟨new', hc'⟩ := h'.clean
    exact ⟨_, hc.trans hc'.counts⟩

/-- Every failure in a pass that has been cut short is counted. -/
theorem Breaks.counts {pending : Status} {s s' : State} (h : Breaks pending s s') : ∃ new, Counts s s' new := by
  obtain ⟨plan, s₁, s₂, hg, -, ht, hf⟩ := h
  obtain ⟨new, hc⟩ := hg.clean
  obtain ⟨new', hc'⟩ := ht.counts
  obtain ⟨new'', hc''⟩ := hf.counts
  exact ⟨_, (hc.counts.trans hc').trans hc''⟩

/-! ## What a cut leaves asked for -/

/-- A touch does nothing to the word but ask. -/
theorem Touch.acts {s s' : State} (h : Touch s s') :
    ∃ new : History, s'.history = new ++ s.history ∧ ∀ a ∈ new.acts, a.isRequest = true := by
  have hone {ev : Event} (he : s'.history = ev :: s.history) (ha : ∀ a, ev.act? = some a → a.isRequest = true) :
      ∃ new : History, s'.history = new ++ s.history ∧ ∀ a ∈ new.acts, a.isRequest = true := by
    refine ⟨[ev], he, fun a hm => ?_⟩
    rw [History.acts_cons, List.mem_append, Option.mem_toList] at hm
    rcases hm with hm | hm
    · exact ha a hm
    · cases hm
  cases h with
  | write | attach | detach | board | unwire => exact ⟨[], rfl, fun _ h => absurd h List.not_mem_nil⟩
  | setUp | commit | enqueue | ask =>
    refine hone rfl ?_
    rintro _ ⟨⟩
    rfl
  | see ev hq =>
    have hnone : ev.act? = none := by
      cases ev with
      | logged r => cases r <;> first | rfl | cases hq
      | _ => first | rfl | cases hq
    exact hone rfl fun a ha => nomatch hnone.symm.trans ha
  | note n hn =>
    have hnone : (Event.noted n s.extender).act? = none := by cases n <;> first | rfl | cases hn
    exact hone rfl fun a ha => nomatch hnone.symm.trans ha
  | contend | ended | released => exact hone rfl nofun

/-- The work of a pass does nothing to the status word but add requests. -/
theorem Works.acts {s s' : State} (h : Works s s') :
    ∃ new : History, s'.history = new ++ s.history ∧ ∀ a ∈ new.acts, a.isRequest = true := by
  induction h with
  | refl => exact ⟨[], rfl, fun _ h => absurd h List.not_mem_nil⟩
  | @tail s₁ s₂ _ h ih =>
    obtain ⟨new, hnew, ha⟩ := ih
    have hnext : ∃ new : History, s₂.history = new ++ s₁.history ∧ ∀ a ∈ new.acts, a.isRequest = true := by
      cases h with
      | touch h => exact h.acts
      | answer | look | edge | call => exact ⟨[_], rfl, nofun⟩
      | record a r =>
        cases r with
        | ok => exact ⟨[], rfl, nofun⟩
        | error => exact ⟨[_], rfl, nofun⟩
      | keep | mark | clear | level | drain => exact ⟨[], rfl, nofun⟩
    obtain ⟨new', hnew', ha'⟩ := hnext
    refine ⟨new' ++ new, by rw [hnew', hnew, List.append_assoc], fun a hm => ?_⟩
    rw [History.acts, List.filterMap_append] at hm
    exact (List.mem_append.1 hm).elim (ha' a) (ha a)

/-- The last act on the status word before a pass begins is the take of its work. -/
theorem State.Begins.acts {s t : State} {work : Status} {e : Extender} {older : History} (h : s.Begins t work e older) :
    older.acts = .take :: s.history.acts := by
  rw [h.past]
  rcases s.held.taken.history_started s.extender.work with hh | ⟨r, hh⟩
  · rw [hh]
    rfl
  · unfold State.started
    split <;> rfl

/-! ## Sessions -/

namespace PassRecord.Stems

variable {p : PassRecord} {s t t' : State}

/-- A pass in which a transaction fails asks for everything at its end. -/
theorem owes (h : p.Stems s t t') {a : Access} {kind : BusKind} (hm : .transaction a (.error kind) ∈ p.body) :
    p.clean = false ∧ p.after.Owes := by
  have hclean : p.clean = false := by
    cases hc : p.clean with
    | false => rfl
    | true =>
      obtain ⟨new, hnew⟩ := (hc ▸ h.carries).clean
      obtain ⟨ending, done, hbody, hdone, hend⟩ := h.body
      obtain rfl : done = new := State.new_unique hdone hnew.history
      rw [hbody] at hm
      rcases List.mem_append.1 hm with hm | hm
      · obtain ⟨bits, heq⟩ := hend _ hm
        cases heq
      · cases hnew.ok a _ hm
  refine ⟨hclean, ?_⟩
  rw [h.after, hclean]
  exact t'.owes_completed

end PassRecord.Stems

namespace CutRecord.Stems

variable {c : CutRecord} {s t t' : State}

/-- A failure in a pass that is cut short is counted. -/
theorem counted (h : c.Stems s t t') (hl : 0 < s.extender.backoff.limit) {a : Access} {kind : BusKind}
    (hm : .transaction a (.error kind) ∈ c.body) : 0 < c.after.backoff.count := by
  obtain ⟨new, hc⟩ := h.breaks.counts
  obtain rfl : new = c.body := State.new_unique hc.history h.body
  have hlimit : 0 < t.extender.backoff.limit := by
    rw [h.extender, h.before]
    exact hl
  rw [h.after]
  exact hc.counted hlimit (.inr ⟨a, kind, hm⟩)

/-- After a pass has been cut short, the word holds `busy` and what was requested in the pass. -/
theorem asked (h : c.Stems s t t') {later : History} (hw : History.Worded (later ++ .noted .passCut c.after ::
    (c.body ++ .noted (.passBegan c.pending) c.before :: c.past))) (i : Nat) :
    c.after.status.bits.getLsbD i = true ↔ i = 4 ∨ Status.Requested i c.body.acts := by
  obtain ⟨new, hnew, hreq⟩ := h.breaks.works.acts
  obtain rfl : new = c.body := State.new_unique hnew h.body
  have hacts : History.acts (.noted .passCut c.after :: (c.body ++ .noted (.passBegan c.pending) c.before :: c.past)) =
      c.body.acts ++ .take :: s.history.acts := by
    rw [← h.acts]
    exact List.filterMap_append
  rw [(hw.of_append later).1, hacts]
  exact Status.getLsbD_word_taken hreq

end CutRecord.Stems

/-- What a failed transaction leaves behind in a session. If its pass comes to its end, everything is asked for then and every group
is dirty. If a fault cuts its pass short, the failure has been counted; but apart from `busy` the status word then holds what was
requested while the pass was at work and nothing else, so neither what failed nor the rest of the work that the pass had taken is
asked for again. -/
theorem failures_outlast_whole_passes {s : State} (hs : Reachable s) :
    (∀ p a kind, s.history.Records p → .transaction a (.error kind) ∈ p.body → p.clean = false ∧ p.after.Owes) ∧
    ∀ c, s.history.CutShort c →
      (∀ a kind, .transaction a (.error kind) ∈ c.body → 0 < c.after.backoff.count) ∧
      ∀ i, c.after.status.bits.getLsbD i = true ↔ i = 4 ∨ Status.Requested i c.body.acts := by
  obtain ⟨e₀, board, hmade, hgo, -⟩ := hs.goes
  refine ⟨fun p a kind hp hm => ?_, fun c hc => ?_⟩
  · obtain ⟨s₁, t, t', -, hst⟩ := hgo.exists_stems rfl hp
    exact hst.owes hm
  · obtain ⟨s₁, t, t', hgo₁, hst⟩ := hgo.exists_cut rfl hc
    obtain ⟨⟨later, hh⟩, -⟩ := hc
    have hw := (hgo.moves.worded hmade rfl).history
    exact ⟨fun a kind hm => hst.counted (hgo₁.healing hmade rfl).2.limit hm, hst.asked (hh ▸ hw)⟩

/-- A write fails in a pass that comes to its end, which asks for everything. The pass after that is interrupted by its handler, which
then ends in a fault: the next pass is asked for, but the configuration, which was to be written again, is not. -/
theorem failures_outlast_whole_passes_of_a_cut :
    let s := State.oneChip [.claim 0, .op (.call (.setup 0 PinAttributes.input)), .op (.call (.attach 0 ⟨0, 7, .change⟩)),
      .op (.change (.failNext [some .bus])), .op .update, .op (.handler 7 [.call (.interrupt 0), .panic]),
      .op (.change (.poke ⟨0x20, 0⟩ 1)), .op (.change (.failNext [some .bus])), .op .update]
    (∃ p, s.history.Records p ∧ p.past.Uncut ∧ p.after.Owes) ∧
    ∃ c, s.history.CutShort c ∧ c.pending.contains Status.configDirty = true ∧ 0 < c.after.backoff.count ∧
      c.after.status.bits.getLsbD 5 = true ∧ Status.Requested 5 c.body.acts ∧ ¬Status.Requested 0 c.body.acts := by
  intro s
  have hr : Reachable s := reachable_oneChip _
  obtain ⟨hwhole, hcut⟩ := failures_outlast_whole_passes hr
  constructor
  · obtain ⟨p, hp, hq⟩ := (Option.any_eq_true _ _).1
      (by decide +kernel : ((s.history.pass? 25).any fun p => decide p.past.Uncut && p.body.any (·.failed)) = true)
    rw [Bool.and_eq_true, decide_eq_true_eq] at hq
    have hp := History.records_of_pass? hp
    obtain ⟨a, kind, hm⟩ := Event.exists_failed hq.2
    exact ⟨p, hp, hq.1, (hwhole p a kind hp hm).2⟩
  · obtain ⟨c, hc, hq⟩ := (Option.any_eq_true _ _).1
      (by decide +kernel : ((s.history.cut? 1).any fun c => c.pending.contains Status.configDirty &&
        c.after.status.bits.getLsbD 5 && !c.after.status.bits.getLsbD 0 && c.body.any (·.failed)) = true)
    simp only [Bool.and_eq_true, Bool.not_eq_true'] at hq
    obtain ⟨⟨⟨hconfig, hisr⟩, hnone⟩, hfailed⟩ := hq
    have hc := History.cutShort_of_cut? hc
    obtain ⟨a, kind, hm⟩ := Event.exists_failed hfailed
    obtain ⟨hcount, hbits⟩ := hcut c hc
    refine ⟨c, hc, hconfig, hcount a kind hm, hisr, ((hbits 5).1 hisr).resolve_left (by decide), fun h => ?_⟩
    rw [(hbits 0).2 (.inr h)] at hnone
    cases hnone

/-- A pass in which a write has failed is cut short by its handler. Nothing is asked for afterwards and no group is dirty, so that the
next pass writes nothing; and since nothing fails in that one, the failure is forgotten. -/
theorem failed_writes_are_forgotten_after_a_cut :
    let s := State.oneChip [.claim 0, .op (.call (.setup 0 PinAttributes.input)), .op (.call (.attach 0 ⟨0, 7, .change⟩)),
      .op .update, .op (.handler 7 [.panic]), .op (.change (.poke ⟨0x20, 0⟩ 1)),
      .op (.call (.setup 0 PinAttributes.input)), .op (.change (.failNext [some .bus])), .op .update, .op .update]
    ∃ c p, s.history.CutShort c ∧ (∃ a kind, .transaction a (.error kind) ∈ c.body) ∧
      c.body.calls = [(0, ⟨0, 7, .change⟩)] ∧ c.after.halted = false ∧ c.after.status = .busy ∧ c.after.shadow.dirty = 0 ∧
      s.history.Records p ∧ p.past.CutShort c ∧ (∀ ev ∈ p.body, ev.isWrite = false) ∧ p.after.backoff.count = 0 := by
  intro s
  obtain ⟨p, hp, hq⟩ := (Option.any_eq_true _ _).1
    (by decide +kernel : ((s.history.pass? 2).any fun p => p.body.all (!·.isWrite) && p.after.backoff.count == 0 &&
      (p.past.cut? 3).any fun c => c.body.any (·.failed) && c.body.calls == [(0, ⟨0, 7, .change⟩)] && !c.after.halted &&
        c.after.status == .busy && c.after.shadow.dirty == 0) = true)
  rw [Bool.and_eq_true, Bool.and_eq_true, List.all_eq_true, beq_iff_eq] at hq
  obtain ⟨⟨hwrites, hcount⟩, hcut⟩ := hq
  obtain ⟨c, hc, hq⟩ := (Option.any_eq_true _ _).1 hcut
  simp only [Bool.and_eq_true, Bool.not_eq_true', beq_iff_eq] at hq
  obtain ⟨⟨⟨⟨hfailed, hcalls⟩, hhalted⟩, hstatus⟩, hdirty⟩ := hq
  have hp := History.records_of_pass? hp
  have hc := History.cutShort_of_cut? hc
  exact ⟨c, p, hp.cutShort hc, Event.exists_failed hfailed, hcalls, hhalted, hstatus, hdirty, hp, hc,
    fun ev hm => by simpa using hwrites ev hm, hcount⟩

end PortExpander
