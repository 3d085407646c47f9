import PortExpander.Proofs.Interrupts
import PortExpander.Proofs.Levels

/-!
# When the worker rests

The worker backs off for as long as the counted failures ask for, and waits where it has found another pass at work or nothing that
is asked for. The count of failures stays within its limit and only a pass without a failure makes it fall, so the times for which
the worker backs off do not decrease before such a pass. When nothing is asked for, nothing is left to do: no failure is counted, no
group is dirty, and no chip is in the queue.
-/

namespace PortExpander

open Sim Engine

/-! ## At every moment -/

/-- What holds at every moment: failures are counted up to the limit, the word is busy while a pass is at work, and no pass is at work
once the extender has halted. -/
structure Extender.Regular (e : Extender) : Prop where
  limit : e.backoff.limit = maxErrorCount
  count : e.backoff.count ≤ maxErrorCount
  busy : e.updating = true → e.status.contains Status.busy = true
  halted : e.halted = true → e.updating = false

namespace Extender.Regular

variable {e e' : Extender}

/-- Neither calls nor the work of a pass change anything about it, but for the count of failures. -/
theorem steady (h : e.Regular) (hs : Steady e e') (hl : e'.backoff.limit = maxErrorCount)
    (hc : e'.backoff.count ≤ maxErrorCount) : e'.Regular where
  limit := hl
  count := hc
  busy hu := hs.status _ (h.busy (hs.updating.symm.trans hu))
  halted hh := hs.updating.trans (h.halted (hs.halted.symm.trans hh))

/-- What a touch leaves keeps the memory regular. -/
theorem frame (h : e.Regular) (hf : Frame e e') : e'.Regular :=
  h.steady hf.toSteady (hf.backoff ▸ h.limit) (hf.backoff ▸ h.count)

/-- No pass is at work any more. -/
theorem ended (h : e.Regular) (hb : e'.backoff = e.backoff) (hu : e'.updating = false) : e'.Regular where
  limit := hb ▸ h.limit
  count := hb ▸ h.count
  busy hu' := by cases hu.symm.trans hu'
  halted _ := hu

/-- One more failure stays within the limit. -/
theorem recordFailure (h : e.Regular) : { e with backoff := e.backoff.recordFailure }.Regular := by
  refine h.steady (.update e e.shadow e.handlers _) h.limit ?_
  show e.backoff.recordFailure.count ≤ maxErrorCount
  rw [Backoff.count_recordFailure, h.limit]
  exact Nat.min_le_right _ _

end Extender.Regular

/-- What happens in a pass keeps the memory regular. -/
theorem Work.regular {s s' : State} (h : Work s s') (hs : s.extender.Regular) : s'.extender.Regular := by
  have hst := h.steady
  cases h with
  | touch h => exact hs.frame h.frame
  | record a r =>
    cases r with
    | ok => exact hs
    | error => exact hs.recordFailure
  | _ => exact hs.steady hst hs.limit hs.count

/-- Every move keeps the memory regular. -/
theorem Move.regular {s s' : State} (h : Move s s') (hs : s.extender.Regular) : s'.extender.Regular := by
  cases h with
  | touch h => exact hs.frame h.frame
  | began | ended => exact hs
  | claim | free => exact ⟨hs.limit, hs.count, hs.busy, hs.halted⟩
  | refuse | stop | idle | finish | cut => exact hs.ended rfl rfl
  | take _ hh =>
    refine ⟨hs.limit, hs.count, fun _ => FlagSet.contains_refl _, fun hh' => ?_⟩
    cases hh.symm.trans hh'
  | begin pending =>
    rw [State.extender_noting, State.extender_started]
    exact hs
  | work _ _ h => exact h.regular hs
  | complete clean =>
    cases clean with
    | true => exact hs.steady (.update _ _ _ _) hs.limit (Nat.zero_le _)
    | false => exact hs.steady ((Steady.update _ _ _ _).trans (.request _ _)) hs.limit hs.count

/-- An extender that has just been made is regular. -/
theorem Made.regular {e : Extender} (h : Made e) : e.Regular := by
  obtain ⟨_, _, _, _, _, _, rfl, _⟩ := h.fresh
  exact ⟨rfl, Nat.zero_le _, nofun, nofun⟩

/-- The memory is regular at every moment of every session. -/
theorem Reachable.regular {s : State} (h : Reachable s) {e : Extender} (he : e = s.extender ∨ ∃ n, .noted n e ∈ s.history) :
    e.Regular := by
  refine h.at_notes (fun e hm => hm.regular) (fun s s' hm hs => hm.regular hs) (fun s hh hs => ?_) he
  refine ⟨hs.limit, hs.count, fun _ => FlagSet.contains_refl _, fun hh' => ?_⟩
  cases hh.symm.trans hh'

/-! ## Pacing -/

/-- For how long the worker has backed off at most since a pass has last ended without a failure. -/
def History.longestBackOff : History → Nat
  | [] => 0
  | .noted (.passEnded true) _ :: _ => 0
  | .noted (.backsOff ms) _ :: past => max ms (longestBackOff past)
  | _ :: past => longestBackOff past

/-- Wherever the worker rests in a history it has a reason, and it backs off for no less time than it has since a pass has last ended
without a failure. -/
def History.Paced : History → Prop
  | [] => True
  | .noted n e :: past => (n.Rests e past ∧ ∀ ms, n = .backsOff ms → longestBackOff past ≤ ms) ∧ Paced past
  | _ :: past => Paced past

/-- Whether a note tells that the worker rests. -/
def Note.isRest : Note → Bool
  | backsOff _ | waits => true
  | _ => false

/-- The worker has backed off for this long since a pass has last ended without a failure. -/
def History.BackedOff (h : History) (ms : Nat) : Prop :=
  ∃ mid e older, h = mid ++ .noted (.backsOff ms) e :: older ∧ ∀ e', .noted (.passEnded true) e' ∉ mid

theorem History.BackedOff.cons {h : History} {ms : Nat} (hb : h.BackedOff ms) {ev : Event}
    (hev : ∀ e, ev ≠ .noted (.passEnded true) e) : BackedOff (ev :: h) ms := by
  obtain ⟨mid, e, older, rfl, hno⟩ := hb
  refine ⟨ev :: mid, e, older, rfl, fun e' hm => ?_⟩
  rcases List.mem_cons.1 hm with heq | hm
  · exact hev e' heq.symm
  · exact hno e' hm

/-- The longest time is the longest. -/
theorem History.BackedOff.le_longestBackOff {h : History} {ms : Nat} (hb : h.BackedOff ms) : ms ≤ h.longestBackOff := by
  obtain ⟨mid, e, older, rfl, hno⟩ := hb
  induction mid with
  | nil => exact Nat.le_max_left _ _
  | cons ev mid ih =>
    have ih := ih fun e hm => hno e (List.mem_cons_of_mem _ hm)
    cases ev with
    | noted n e =>
      cases n with
      | passEnded clean =>
        cases clean with
        | true => exact absurd List.mem_cons_self (hno e)
        | false => exact ih
      | backsOff ms => exact ih.trans (Nat.le_max_right _ _)
      | _ => exact ih
    | _ => exact ih

/-- The longest time is one for which the worker has backed off. -/
theorem History.backedOff_longestBackOff (h : History) (hne : h.longestBackOff ≠ 0) : h.BackedOff h.longestBackOff := by
  induction h with
  | nil => exact absurd rfl hne
  | cons ev past ih =>
    cases ev with
    | noted n e =>
      cases n with
      | passEnded clean =>
        cases clean with
        | true => exact absurd rfl hne
        | false => exact (ih hne).cons fun _ h => by cases h
      | backsOff ms =>
        rcases Nat.le_total (longestBackOff past) ms with hle | hle
        · refine ⟨[], e, past, ?_, fun _ => List.not_mem_nil⟩
          rw [longestBackOff, Nat.max_eq_left hle, List.nil_append]
        · have hl : longestBackOff (.noted (.backsOff ms) e :: past) = longestBackOff past := Nat.max_eq_right hle
          rw [hl] at hne ⊢
          exact (ih hne).cons fun _ h => by cases h
      | _ => exact (ih hne).cons fun _ h => by cases h
    | _ => exact (ih hne).cons fun _ h => by cases h

/-- A note that tells of no rest makes the longest time no longer. -/
theorem History.longestBackOff_noted {n : Note} (hn : n.isRest = false) (e : Extender) (past : History) :
    longestBackOff (.noted n e :: past) ≤ longestBackOff past := by
  cases n with
  | passEnded clean =>
    cases clean with
    | true => exact Nat.zero_le _
    | false => exact Nat.le_refl _
  | backsOff => cases hn
  | _ => exact Nat.le_refl _

/-- What is paced is paced at every moment at which the worker rests. -/
theorem History.Paced.at_moment {h later past : History} {n : Note} {e : Extender} (hp : h.Paced)
    (hm : h = later ++ .noted n e :: past) : n.Rests e past ∧ ∀ ms, n = .backsOff ms → past.longestBackOff ≤ ms := by
  subst hm
  induction later with
  | nil => exact hp.1
  | cons ev later ih =>
    cases ev with
    | noted => exact ih hp.2
    | _ => exact ih hp

/-- The history is paced, and the counted failures ask for no less time than the worker has backed off for. -/
structure State.Paced (s : State) : Prop where
  history : s.history.Paced
  growing : s.history.longestBackOff ≤ s.extender.backoff.delay

namespace State.Paced

variable {s s' : State}

/-- Nothing is added to the history. -/
theorem silent (h : s.Paced) (hh : s'.history = s.history) (hb : s'.extender.backoff = s.extender.backoff) : s'.Paced where
  history := hh ▸ h.history
  growing := by rw [hh, hb]; exact h.growing

/-- One more event, which is no note. -/
theorem event (h : s.Paced) {ev : Event} (hh : s'.history = ev :: s.history) (hn : ev.isNote = false)
    (hd : s.extender.backoff.delay ≤ s'.extender.backoff.delay) : s'.Paced := by
  constructor <;> rw [hh]
  · cases ev with
    | noted => cases hn
    | _ => exact h.history
  · cases ev with
    | noted => cases hn
    | _ => exact h.growing.trans hd

/-- One more note, which tells of no rest. -/
theorem note (h : s.Paced) {n : Note} {e : Extender} (hh : s'.history = .noted n e :: s.history) (hn : n.isRest = false)
    (hb : s'.extender.backoff = s.extender.backoff) : s'.Paced := by
  constructor <;> rw [hh]
  · refine ⟨⟨?_, ?_⟩, h.history⟩
    · cases n <;> first | exact trivial | cases hn
    · rintro ms rfl
      cases hn
  · rw [hb]
    exact (History.longestBackOff_noted hn e _).trans h.growing

end State.Paced

/-- A touch keeps the pace. -/
theorem Touch.paced {s s' : State} (h : Touch s s') (hs : s.Paced) : s'.Paced := by
  have hb := h.frame.backoff
  cases h with
  | write | attach | detach | board | unwire => exact hs.silent rfl hb
  | setUp | commit | enqueue | ask | contend | ended => exact hs.note rfl rfl hb
  | see ev hq =>
    refine hs.event rfl ?_ (Nat.le_refl _)
    cases ev with
    | noted => cases hq
    | _ => rfl
  | released => exact hs.event rfl rfl (Nat.le_refl _)
  | note n hn hr =>
    cases n with
    | opBegan => exact hs.note rfl rfl hb
    | backsOff ms =>
      obtain rfl := hr.1
      refine ⟨⟨⟨hr, fun ms' h => ?_⟩, hs.history⟩, Nat.max_le.2 ⟨Nat.le_refl _, hs.growing⟩⟩
      cases h
      exact hs.growing
    | waits => exact ⟨⟨⟨hr, nofun⟩, hs.history⟩, hs.growing⟩
    | _ => cases hn

/-- What happens in a pass keeps the pace. -/
theorem Work.paced {s s' : State} (h : Work s s') (hr : s.extender.Regular) (hs : s.Paced) : s'.Paced := by
  cases h with
  | touch h => exact h.paced hs
  | answer | look | edge | call => exact hs.event rfl rfl (Nat.le_refl _)
  | record a r =>
    cases r with
    | ok => exact hs
    | error =>
      have hc := hr.count
      rw [← hr.limit] at hc
      exact hs.event rfl rfl (Backoff.delay_le_delay_recordFailure hc)
  | keep | mark | clear | level | drain => exact hs.silent rfl rfl

/-- Every move keeps the pace. -/
theorem Move.paced {s s' : State} (h : Move s s') (hr : s.extender.Regular) (hs : s.Paced) : s'.Paced := by
  cases h with
  | touch h => exact h.paced hs
  | began | ended | claim | free | refuse | take | idle | finish | cut => exact hs.note rfl rfl rfl
  | stop =>
    have htaken : s.held.taken.Paced := hs.note rfl rfl rfl
    have hstopped : s.held.taken.stopped.Paced := htaken.event rfl rfl (Nat.le_refl _)
    exact hstopped.note rfl rfl rfl
  | begin pending =>
    have hstarted : (s.started pending).Paced := by
      rcases s.history_started pending with hh | ⟨r, hh⟩
      · exact hs.silent hh (by rw [State.extender_started])
      · exact hs.event hh rfl (by rw [State.extender_started])
    exact hstarted.note rfl rfl rfl
  | work _ _ h => exact h.paced hr hs
  | complete clean =>
    cases clean with
    | true => exact ⟨⟨⟨trivial, nofun⟩, hs.history⟩, Nat.zero_le _⟩
    | false =>
      have hasked : ((s.amend fun e => { e with shadow := e.shadow.markAllDirty }).asking .resync).Paced := hs.note rfl rfl rfl
      exact hasked.note rfl rfl rfl

/-- Every row of moves of an extender that has just been made keeps the pace. -/
theorem Moves.paced {s₀ s : State} (h : Moves s₀ s) (hm : Made s₀.extender) (h₀ : s₀.history = []) :
    s.extender.Regular ∧ s.Paced := by
  induction h with
  | refl =>
    refine ⟨hm.regular, ?_, ?_⟩ <;> rw [h₀]
    · exact trivial
    · exact Nat.zero_le _
  | tail _ h ih => exact ⟨h.regular ih.1, h.paced ih.1 ih.2⟩

/-! ## Dirty groups -/

/-- Groups are dirty only while their outputs are asked for. -/
def Extender.Flagged (e : Extender) : Prop := e.shadow.dirty ≠ 0 → e.status.contains Status.writeDirty = true

/-- The dirty groups stay as they are, and nothing is taken out of the status word. -/
theorem Extender.Flagged.keep {e e' : Extender} (h : e.Flagged) (hd : e'.shadow.dirty = e.shadow.dirty)
    (hs : ∀ f, e.status.contains f = true → e'.status.contains f = true) : e'.Flagged :=
  fun hne => hs _ (h (hd ▸ hne))

/-- A touch leaves no dirty group whose output is not asked for. -/
theorem Touch.flagged {s s' : State} (h : Touch s s') (hs : s.extender.Flagged) : s'.extender.Flagged := by
  have hst := h.frame.status
  cases h with
  | setUp pin attrs => exact hs.keep (Shadow.dirty_setup _ pin attrs) hst
  | commit => exact fun _ => FlagSet.contains_union_right _ (FlagSet.contains_refl _)
  | attach | detach => exact hs.keep (by rw [State.extender_amend, Extender.shadow_repolled]) hst
  | _ => exact hs.keep rfl hst

/-- Touches leave no such group. -/
theorem Touched.flagged {s s' : State} (h : Touched s s') (hs : s.extender.Flagged) : s'.extender.Flagged := by
  induction h with
  | refl => exact hs
  | tail _ h ih => exact h.flagged ih

/-- A transaction leaves no such group. -/
theorem Transfers.flagged {s s' : State} {a : Access} {r : Except BusKind Byte} (h : Transfers s a r s')
    (hs : s.extender.Flagged) : s'.extender.Flagged := by
  obtain ⟨s₁, hn, rfl, rfl⟩ := h
  have hs₁ := hn.touched.flagged hs
  cases s₁.board.outcome a <;> exact hs₁

/-- Writing a register of some groups leaves no such group. -/
theorem Writes.flagged {reg : Byte} {value : Shadow → Nat → Byte} {groups : List Nat} {s s' : State} {ok : Bool}
    (h : Writes reg value groups s ok s') (hs : s.extender.Flagged) : s'.extender.Flagged := by
  induction h with
  | nil => exact hs
  | cons _ ht _ ih => exact ih (ht.flagged hs)

/-- Reading the inputs of some groups leaves no such group. -/
theorem Reads.flagged {groups : List Nat} {s s' : State} {result : List Refresh × Bool} (h : Reads groups s result s')
    (hs : s.extender.Flagged) : s'.extender.Flagged := by
  induction h with
  | nil => exact hs
  | cons _ ht _ _ ih => exact ih (ht.flagged hs)

/-- Calling handlers leaves no such group. -/
theorem Calls.flagged {s s' : State} (h : Calls s s') (hs : s.extender.Flagged) : s'.extender.Flagged := by
  induction h with
  | refl => exact hs
  | tail _ h ih =>
    cases h with
    | touch h => exact h.flagged ih
    | edge | call => exact ih

/-- After a flush, groups are dirty only if a client has made them so meanwhile. -/
theorem Flushes.flagged {s s' : State} {ok : Bool} (h : Flushes s ok s') : s'.extender.Flagged :=
  Writes.flagged h fun hne => absurd rfl hne

/-- Reading the inputs and calling the handlers leaves no such group. -/
theorem Refreshes.flagged {groups : Byte} {s s' : State} {ok : Bool} (h : Refreshes groups s ok s') (hs : s.extender.Flagged) :
    s'.extender.Flagged := by
  obtain ⟨s₁, s₂, _, hr, ht, rfl⟩ := h
  refine (ht.calls.flagged (hr.flagged hs)).keep ?_ s₂.works_rearmed.steady.status
  rw [State.shadow_rearmed]

/-- A pass that leaves dirty groups alone has not been asked for outputs; one that has makes no group dirty by itself. -/
theorem Carries.flagged {pending : Status} {s s' : State} {clean : Bool} (h : Carries pending s clean s')
    (hs : s.extender.shadow.dirty ≠ 0 → pending.contains Status.writeDirty = true) : s'.extender.Flagged := by
  obtain ⟨plan, s₁, s₂, s₃, _, _, _, hg, hconf, hwrite, hread, -⟩ := h
  -- A pass that does not flush does not configure either, and so leaves the dirty groups as they were when it took the requests.
  have hs₃ : s₃.extender.Flagged := by
    obtain ⟨-, hshadow⟩ := hg.noWrite
    obtain ⟨pending', groups, rfl, hp⟩ := hg.requests
    unfold Asked at hconf hwrite
    split at hwrite
    · exact hwrite.flagged
    · rename_i hno
      change ¬(_ || _) = true at hno
      rw [Bool.or_eq_true, not_or] at hno
      have hleft : ¬(Plan.ofRequests pending' groups).configure = true := hno.1
      rw [if_neg hleft] at hconf
      obtain ⟨-, rfl⟩ := hwrite
      obtain ⟨-, rfl⟩ := hconf
      intro hne
      rw [hshadow] at hne
      exact absurd (hp _ (hs hne)) hno.2
  unfold Asked at hread
  split at hread
  · exact hread.flagged hs₃
  · rw [hread.2]
    exact hs₃

/-- Unless a fault cuts a pass short, groups are dirty between happenings only while their outputs are asked for. -/
theorem Happening.flagged {s s' : State} (h : Happening s s') (hs : s.extender.halted = false → s.extender.Flagged)
    (hu : s'.history.Uncut) (hh : s'.extender.halted = false) : s'.extender.Flagged := by
  cases h with
  | touch h => exact h.flagged (hs (h.frame.halted ▸ hh))
  | update p _ h =>
    cases h with
    | halted hhalt => cases hhalt.symm.trans hh
    | stops => cases hh
    | idles hhalt _ hi =>
      intro hne
      have hasked := FlagSet.not_isEmpty_of_contains_flag (by decide) (Extender.work_contains (by decide) (hs hhalt hne))
      rw [Extender.isEmpty_of_isIdleWith hi] at hasked
      cases hasked
    | @ran s₀ s₁ clean hhalt _ _ h₀ hc _ =>
      have he : s₀.extender = s.held.taken.extender := by rw [h₀, State.extender_begun]
      have hs₁ : s₁.extender.Flagged := hc.flagged fun hne => by
        rw [he] at hne
        exact Extender.work_contains (by decide) (hs hhalt hne)
      cases clean with
      | true => exact fun hne => Status.contains_release (hs₁ hne) (by decide)
      | false => exact fun _ => s₁.owes_completed.release.write
  | cut _ h =>
    obtain ⟨s₁, _, _, _, rfl⟩ := h
    cases hu _ List.mem_cons_self
  | began | ended | claim | free => exact hs hh

/-- Before the extender halts, and if no pass has been cut short, no group is dirty whose output is not asked for. -/
theorem Goes.flagged {s₀ s : State} (h : Goes s₀ s) (hm : Made s₀.extender) (hu : s.history.Uncut)
    (hh : s.extender.halted = false) : s.extender.Flagged := by
  induction h with
  | refl =>
    obtain ⟨_, _, _, _, _, _, he, _⟩ := hm.fresh
    rw [he]
    exact fun hne => absurd rfl hne
  | tail _ h ih => exact h.flagged (ih (h.uncut hu)) hu hh

/-! ## Nothing is left to do -/

/-- Between happenings, when nothing is asked for and the extender has not halted, no failure is counted, no group is dirty, and no
chip is in the queue. -/
theorem Goes.nothing_left {s₀ s : State} (h : Goes s₀ s) (hm : Made s₀.extender) (h₀ : s₀.history = [])
    (hu : s.history.Uncut) (hh : s.extender.halted = false) (he : s.extender.status.isEmpty = true) :
    s.extender.backoff.count = 0 ∧ s.extender.shadow.dirty = 0 ∧ s.extender.queue = [] := by
  have hnone {i : Nat} (hi : i < 8) : ¬s.extender.status.contains (.flag i) = true := by
    intro hc
    rw [FlagSet.not_isEmpty_of_contains_flag hi hc] at he
    cases he
  refine ⟨?_, ?_, ?_⟩
  · by_contra hne
    exact hnone (by decide) ((h.healing hm h₀).1 hu hh (Nat.pos_of_ne_zero hne)).write
  · by_contra hne
    exact hnone (by decide) (h.flagged hm hu hh hne)
  · by_contra hne
    exact hnone (by decide) (h.isrPending hm h₀ hu hh hne)

end PortExpander
