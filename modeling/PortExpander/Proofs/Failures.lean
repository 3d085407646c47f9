import PortExpander.Proofs.Cuts

/-!
# The count of failures

Every failed transaction is counted and recorded at once, and the count is taken back only where a pass comes to its end in which
nothing has failed. So the count is that of the failures since then, as far as failures are counted; passes that find nothing to
do, that find another one at work or that a fault cuts short do not lower it, and neither do transactions that succeed.
-/

namespace PortExpander

open Sim Engine

/-! ## Failures in histories -/

/-- How many transactions have failed since the latest pass that came to its end without a failure, or since the beginning. -/
def History.failures : History → Nat
  | [] => 0
  | .transaction _ (.error _) :: past => failures past + 1
  | .noted (.passEnded _) _ :: past => if (recent past).any (·.failed) then failures past else 0
  | _ :: past => failures past

/-- Every event of a history, with what happened before it, has a property. -/
def History.Each (P : Event → History → Prop) : History → Prop
  | [] => True
  | ev :: past => P ev past ∧ Each P past

/-- What an event says of the count of failures is true: at a note the count is that of the failures so far, up to the most that are
counted, and a failed transaction is followed by the one record of it, with the count as it is then. -/
structure Event.Tells (ev : Event) (past : History) : Prop where
  counted : ∀ n e, ev = .noted n e → e.backoff.count = min maxErrorCount (History.failures (ev :: past))
  recorded : ∀ a kind older, past = .transaction a (.error kind) :: older →
    ev = .logged (.transactionFailed { place := a.place, kind } (min maxErrorCount past.failures))
  caused : ev.isFailure = true → ∃ a kind older, past = .transaction a (.error kind) :: older

namespace History

/-- What holds of each event of a history holds where the event stands in it. -/
theorem Each.at_event {P : Event → History → Prop} {h later past : History} {ev : Event} (hh : h.Each P)
    (hm : h = later ++ ev :: past) : P ev past := by
  subst hm
  induction later with
  | nil => exact hh.1
  | cons _ later ih => exact ih hh.2

/-- Only failed transactions and ends of passes change how many failures there are. -/
theorem failures_cons {ev : Event} {past : History} (hf : ev.failed = false) (he : ev.isEnd = false) :
    failures (ev :: past) = failures past := by
  cases ev with
  | transaction a r =>
    cases r with
    | ok => rfl
    | error => cases hf
  | noted n e => cases n <;> first | rfl | cases he
  | _ => rfl

/-- The end of a pass of whose transactions it is told whether all have succeeded. -/
theorem failures_ended {h : History} {clean : Bool} (hc : h.recent.any (·.failed) = !clean) (e : Extender) :
    failures (.noted (.passEnded clean) e :: h) = if clean = true then 0 else failures h := by
  change (if h.recent.any (·.failed) then failures h else 0) = _
  rw [hc]
  cases clean <;> rfl

/-- Where fewer failures are found than before, a pass has come to its end in which nothing has failed. -/
theorem exists_end_of_failures_lt (since : History) {past : History} (hlt : failures (since ++ past) < failures past) :
    ∃ later clean e body, since = later ++ .noted (.passEnded clean) e :: body ∧
      (recent (body ++ past)).any (·.failed) = false := by
  induction since with
  | nil => exact absurd hlt (Nat.lt_irrefl _)
  | cons ev since ih =>
    by_cases hless : failures (since ++ past) < failures past
    · obtain ⟨later, clean, e, body, rfl, hbody⟩ := ih hless
      exact ⟨ev :: later, clean, e, body, rfl, hbody⟩
    · -- the failures become fewer with the event itself, which only an end of a pass can do
      cases hend : ev.isEnd with
      | false =>
        cases hfailed : ev.failed with
        | false =>
          rw [List.cons_append, failures_cons hfailed hend] at hlt
          exact absurd hlt hless
        | true =>
          unfold Event.failed at hfailed
          split at hfailed
          · change failures (since ++ past) + 1 < failures past at hlt
            omega
          · cases hfailed
      | true =>
        unfold Event.isEnd at hend
        split at hend
        · rename_i clean e
          refine ⟨[], clean, e, since, rfl, ?_⟩
          change (if (recent (since ++ past)).any (·.failed) then failures (since ++ past) else 0) < failures past at hlt
          split at hlt
          · exact absurd hlt hless
          · exact Bool.eq_false_iff.2 ‹_›
        · cases hend

end History

/-! ## Keeping count -/

/-- The count of a state is that of the failures in its history, every failure has been recorded, and what the history says of the
count is true. -/
structure State.Reckoned (s : State) : Prop where
  limit : s.extender.backoff.limit = maxErrorCount
  count : s.extender.backoff.count = min maxErrorCount s.history.failures
  recorded : ∀ a kind older, s.history ≠ .transaction a (.error kind) :: older
  history : s.history.Each Event.Tells

namespace State.Reckoned

variable {s s' : State}

theorem silent (h : s.Reckoned) (hh : s'.history = s.history) (hb : s'.extender.backoff = s.extender.backoff) : s'.Reckoned where
  limit := by rw [hb, h.limit]
  count := by rw [hb, hh, h.count]
  recorded := by rw [hh]; exact h.recorded
  history := by rw [hh]; exact h.history

/-- One more event, which is neither a failure or its record nor the end of a pass; a note is one of the memory as it then is. -/
theorem event (h : s.Reckoned) {ev : Event} (hh : s'.history = ev :: s.history) (hf : ev.failed = false)
    (hr : ev.isFailure = false) (he : ev.isEnd = false) (hn : ∀ n e, ev = .noted n e → e = s'.extender)
    (hb : s'.extender.backoff = s.extender.backoff) : s'.Reckoned where
  limit := by rw [hb, h.limit]
  count := by rw [hb, hh, History.failures_cons hf he, h.count]
  recorded a kind older heq := by
    rw [hh] at heq
    rw [(List.cons.inj heq).1] at hf
    cases hf
  history := by
    rw [hh]
    refine ⟨⟨fun n e hev => ?_, fun a kind older heq => (h.recorded a kind older heq).elim, fun ht => ?_⟩, h.history⟩
    · rw [hn n e hev, hb, History.failures_cons hf he, h.count]
    · rw [ht] at hr
      cases hr

theorem note (h : s.Reckoned) {n : Note} (hh : s'.history = .noted n s'.extender :: s.history)
    (he : Event.isEnd (.noted n s'.extender) = false) (hb : s'.extender.backoff = s.extender.backoff) : s'.Reckoned := by
  refine h.event hh rfl rfl he ?_ hb
  rintro _ _ ⟨⟩
  rfl

/-- A touch leaves the count right. -/
theorem touch (h : s.Reckoned) (ht : Touch s s') : s'.Reckoned := by
  have hb := ht.frame.backoff
  rcases ht.history with hh | ⟨ev, hh, hev, hn⟩
  · exact h.silent hh hb
  · have hmark := Event.not_isMark fun n e heq => (hn n e heq).1
    simp only [Event.isMark, Bool.or_eq_false_iff] at hmark
    refine h.event hh ?_ ?_ hmark.1.1.2 (fun n e heq => (hn n e heq).2.1) hb
    · cases ev <;> first | rfl | cases hev
    · cases hr : ev.isFailure with
      | false => rfl
      | true =>
        rw [Event.isWork_of_isFailure hr] at hev
        cases hev

/-- Touches leave the count right. -/
theorem touched (h : s.Reckoned) (ht : Touched s s') : s'.Reckoned := by
  induction ht with
  | refl => exact h
  | tail _ ht ih => exact ih.touch ht

/-- A transaction that fails is counted and recorded at once. -/
theorem transfer (h : s.Reckoned) (a : Access) : ((s.answered a).recorded a (s.board.outcome a)).Reckoned := by
  cases ho : s.board.outcome a with
  | ok moved =>
    have hh : ((s.answered a).recorded a (.ok moved)).history = .transaction a (.ok moved) :: s.history := by
      show Event.transaction a (s.board.outcome a) :: s.history = _
      rw [ho]
    exact h.event hh rfl rfl rfl (by rintro _ _ ⟨⟩) rfl
  | error kind =>
    have hcount : s.extender.backoff.recordFailure.count =
        min maxErrorCount (History.failures (.transaction a (.error kind) :: s.history)) := by
      have hlimit := h.limit
      have hcount := h.count
      show s.extender.backoff.recordFailure.count = min maxErrorCount (s.history.failures + 1)
      rw [Backoff.count_recordFailure]
      omega
    have hh : ((s.answered a).recorded a (.error kind)).history =
        .logged (.transactionFailed { place := a.place, kind } s.extender.backoff.recordFailure.count) ::
          .transaction a (.error kind) :: s.history := by
      show _ :: Event.transaction a (s.board.outcome a) :: s.history = _
      rw [ho]
      rfl
    refine ⟨h.limit, ?_, ?_, ?_⟩
    · rw [hh, History.failures_cons rfl rfl]
      exact hcount
    · rw [hh]
      rintro _ _ _ ⟨⟩
    · rw [hh]
      refine ⟨⟨?_, ?_, fun _ => ⟨a, kind, _, rfl⟩⟩, ⟨?_, ?_, fun hr => Bool.noConfusion hr⟩, h.history⟩
      · rintro _ _ ⟨⟩
      · rintro _ _ _ ⟨⟩
        rw [hcount]
      · rintro _ _ ⟨⟩
      · exact fun a kind older heq => (h.recorded a kind older heq).elim

/-- What a pass does at the bus leaves the count right: a failure is counted as it happens. -/
theorem busStep (h : s.Reckoned) (ht : BusStep s s') : s'.Reckoned := by
  cases ht with
  | touch ht => exact h.touch ht
  | transfer a => exact h.transfer a
  | keep | mark | clear => exact h.silent rfl rfl

/-- All that a pass does at the bus leaves the count right. -/
theorem busSteps (h : s.Reckoned) (ht : BusSteps s s') : s'.Reckoned := by
  induction ht with
  | refl => exact h
  | tail _ ht ih => exact ih.busStep ht

/-- Calling handlers leaves the count right. -/
theorem calls (h : s.Reckoned) (hc : Calls s s') : s'.Reckoned := by
  induction hc with
  | refl => exact h
  | tail _ hc ih =>
    cases hc with
    | touch ht => exact ih.touch ht
    | edge | call => exact ih.event rfl rfl rfl rfl (by rintro _ _ ⟨⟩) rfl

/-- Looking for what a pass has to do leaves the count right. -/
theorem gathers (h : s.Reckoned) {pending : Status} {plan : Plan} (hg : Gathers pending s plan s') : s'.Reckoned := by
  cases hg with
  | looked =>
    have hlook : (s.seeing (.sampled 0 (s.board.lines 0))).Reckoned := h.event rfl rfl rfl rfl (by rintro _ _ ⟨⟩) rfl
    exact hlook.silent rfl rfl
  | unlooked => exact h
  | drained => exact h.silent rfl rfl

/-- A pass that a fault cuts short leaves the count right. -/
theorem breaks (h : s.Reckoned) {pending : Status} (hb : Breaks pending s s') : s'.Reckoned := by
  obtain ⟨plan, s₁, s₂, hg, -, ht, hf⟩ := hb
  have h₂ := (h.gathers hg).busSteps ht
  cases hf with
  | early ht => exact h₂.busSteps ht
  | late _ ht hc => exact (h₂.busSteps ht).calls hc

/-- The guard is taken without a change of the count. -/
theorem taken (h : s.Reckoned) : s.held.taken.Reckoned := h.note rfl rfl rfl

/-- A pass begins without a change of the count. -/
theorem begun (h : s.Reckoned) (pending : Status) : ((s.held.taken.started pending).noting (.passBegan pending)).Reckoned := by
  have hs : (s.held.taken.started pending).Reckoned := by
    unfold started
    split
    · exact h.taken.event rfl rfl rfl rfl (by rintro _ _ ⟨⟩) rfl
    · exact h.taken
  exact hs.note rfl rfl rfl

/-- A pass comes to its end, whose transactions have all succeeded just when the note of it says so. -/
theorem ended (h : s.Reckoned) {clean : Bool} (hc : s.history.recent.any (·.failed) = !clean)
    (hh : s'.history = .noted (.passEnded clean) s'.extender :: s.history)
    (hb : s'.extender.backoff = if clean = true then s.extender.backoff.recordSuccess else s.extender.backoff) : s'.Reckoned := by
  have hfailures := History.failures_ended hc s'.extender
  have hcount : s'.extender.backoff.count =
      min maxErrorCount (History.failures (.noted (.passEnded clean) s'.extender :: s.history)) := by
    rw [hfailures, hb]
    cases clean with
    | true => rfl
    | false => exact h.count
  refine ⟨?_, by rw [hh]; exact hcount, ?_, ?_⟩
  · rw [hb, ← h.limit]
    cases clean <;> rfl
  · rw [hh]
    rintro _ _ _ ⟨⟩
  · rw [hh]
    refine ⟨⟨?_, fun a kind older heq => (h.recorded a kind older heq).elim, fun hr => Bool.noConfusion hr⟩, h.history⟩
    rintro _ _ ⟨⟩
    exact hcount

/-- The end of a pass takes the count back if and only if nothing has failed in it. -/
theorem completed (h : s.Reckoned) {clean : Bool} (hc : s.history.recent.any (·.failed) = !clean) :
    (s.completed clean).Reckoned := by
  cases clean with
  | true => exact h.ended hc rfl rfl
  | false =>
    have ha : ((s.amend fun e => { e with shadow := e.shadow.markAllDirty }).asking .resync).Reckoned := h.note rfl rfl rfl
    exact ha.ended hc rfl rfl

end State.Reckoned

/-! ## Phases of a pass -/

/-- The way from one state to another one keeps count, and `ok` tells whether no transaction has failed on it. -/
structure Reckons (s : State) (ok : Bool) (s' : State) : Prop where
  reckoned : s.Reckoned → s'.Reckoned
  told : ∃ new : History, s'.history = new ++ s.history ∧ (∀ ev ∈ new, ev.isBegin = false) ∧ new.any (·.failed) = !ok

namespace Reckons

variable {s s₁ s' : State} {ok ok' : Bool}

theorem refl (s : State) : Reckons s true s := ⟨id, [], rfl, by simp, rfl⟩

theorem trans (h : Reckons s ok s₁) (h' : Reckons s₁ ok' s') : Reckons s (ok && ok') s' := by
  obtain ⟨new, hnew, hbegin, hfailed⟩ := h.told
  obtain ⟨new', hnew', hbegin', hfailed'⟩ := h'.told
  refine ⟨fun hs => h'.reckoned (h.reckoned hs), new' ++ new, by rw [hnew', hnew, List.append_assoc], fun ev hm => ?_, ?_⟩
  · exact (List.mem_append.1 hm).elim (hbegin' ev) (hbegin ev)
  · rw [List.any_append, hfailed, hfailed', Bool.not_and, Bool.or_comm]

/-- What keeps count and makes no transaction. -/
theorem of_quiet (hr : s.Reckoned → s'.Reckoned) (hh : ∃ new, Clean s s' new) : Reckons s true s' := by
  obtain ⟨new, hc⟩ := hh
  refine ⟨hr, new, hc.history, fun ev hm => ?_, List.any_eq_false.2 fun ev hm hev => ?_⟩
  · cases ev with
    | noted n e => cases n <;> first | rfl | cases hc.stages _ _ hm
    | _ => rfl
  · unfold Event.failed at hev
    split at hev
    · cases hc.ok _ _ hm
    · cases hev

theorem silent (hh : s'.history = s.history) (hb : s'.extender.backoff = s.extender.backoff) : Reckons s true s' :=
  ⟨fun h => h.silent hh hb, [], hh, by simp, rfl⟩

theorem then_silent (h : Reckons s ok s₁) (hh : s'.history = s₁.history) (hb : s'.extender.backoff = s₁.extender.backoff) :
    Reckons s ok s' :=
  Bool.and_true ok ▸ h.trans (silent hh hb)

end Reckons

/-- A transaction is counted if it has failed. -/
theorem Transfers.reckons {s s' : State} {a : Access} {r : Except BusKind Byte} (h : Transfers s a r s') :
    Reckons s (succeeded r) s' := by
  obtain ⟨s₁, ⟨ht, -⟩, rfl, rfl⟩ := h
  have hnest : Reckons s true s₁ := .of_quiet (fun h => h.touched ht) ht.clean
  have hmade : Reckons s₁ (succeeded (s₁.board.outcome a)) ((s₁.answered a).recorded a (s₁.board.outcome a)) := by
    refine ⟨fun h => h.transfer a, ?_⟩
    have hfirst : (s₁.answered a).history = .transaction a (s₁.board.outcome a) :: s₁.history := rfl
    cases ho : s₁.board.outcome a with
    | ok moved => 
      rw [ho] at hfirst
      exact ⟨[.transaction a (.ok moved)], hfirst, by simp [Event.isBegin], rfl⟩
    | error kind =>
      rw [ho] at hfirst
      exact ⟨[_, .transaction a (.error kind)], congrArg (_ :: ·) hfirst, by simp [Event.isBegin], rfl⟩
  exact hnest.trans hmade

/-- Writing a register of some groups succeeds if none of their transactions has failed. -/
theorem Writes.reckons {reg : Byte} {value : Shadow → Nat → Byte} {groups : List Nat} {s s' : State} {ok : Bool}
    (h : Writes reg value groups s ok s') : Reckons s ok s' := by
  induction h with
  | nil => exact .refl _
  | cons _ ht _ ih => exact ht.reckons.trans ih

/-- Reading the inputs of some groups succeeds if none of their transactions has failed. -/
theorem Reads.reckons {groups : List Nat} {s s' : State} {result : List Refresh × Bool} (h : Reads groups s result s') :
    Reckons s result.2 s' := by
  induction h with
  | nil => exact .refl _
  | @cons s s₁ s' group groups place r now refreshes ok _ ht _ _ ih =>
    have hkept : Reckons s (succeeded r) (s₁.amend fun e => { e with shadow := e.shadow.setInput group now }) :=
      ht.reckons.then_silent rfl rfl
    exact hkept.trans ih

/-- Writing the polarities succeeds if none of their transactions has failed. -/
theorem Inverts.reckons {groups : List Nat} {s s' : State} {ok : Bool} (h : Inverts groups s ok s') : Reckons s ok s' := by
  unfold Inverts at h
  split at h
  · exact h.reckons
  · obtain ⟨rfl, rfl⟩ := h
    exact .refl _

/-- Writing the configuration succeeds if none of its transactions has failed. -/
theorem Configures.reckons {s s' : State} {ok : Bool} (h : Configures s ok s') : Reckons s ok s' := by
  obtain ⟨s₁, s₂, inverted, directed, hi, hd, rfl, rfl⟩ := h
  exact (hi.reckons.trans hd.reckons).then_silent rfl rfl

/-- Writing the outputs succeeds if none of its transactions has failed. -/
theorem Flushes.reckons {s s' : State} {ok : Bool} (h : Flushes s ok s') : Reckons s ok s' := by
  have hcleared : Reckons s true (s.amend fun e => { e with shadow := e.shadow.clearDirty }) := .silent rfl rfl
  exact Bool.true_and ok ▸ hcleared.trans (Writes.reckons h)

/-- Reading the inputs and calling the handlers succeeds if none of the readings has failed. -/
theorem Refreshes.reckons {groups : Byte} {s s' : State} {ok : Bool} (h : Refreshes groups s ok s') : Reckons s ok s' := by
  obtain ⟨s₁, s₂, refreshes, hr, ht, rfl⟩ := h
  have hcalls : Reckons s₁ true s₂ := .of_quiet (fun h => h.calls ht.calls) ht.calls.clean
  have hboth : Reckons s ok s₂ := Bool.and_true ok ▸ hr.reckons.trans hcalls
  refine hboth.then_silent rfl ?_
  unfold State.rearmed
  rw [State.extender_amend]
  split <;> rfl

/-- A phase that was not asked for has succeeded. -/
theorem Asked.reckons {asked : Bool} {phase : State → Bool → State → Prop} {s s' : State} {ok : Bool}
    (h : Asked asked phase s ok s') (hp : phase s ok s' → Reckons s ok s') : Reckons s ok s' := by
  unfold Asked at h
  split at h
  · exact hp h
  · obtain ⟨rfl, rfl⟩ := h
    exact .refl _

/-- A pass tells whether none of its transactions has failed. -/
theorem Carries.reckons {pending : Status} {s s' : State} {clean : Bool} (h : Carries pending s clean s') :
    Reckons s clean s' := by
  obtain ⟨plan, s₁, s₂, s₃, configured, written, read, hg, hc, hw, hr, rfl⟩ := h
  have hgather : Reckons s true s₁ := .of_quiet (fun h => h.gathers hg) hg.clean
  exact ((hgather.trans (hc.reckons Configures.reckons)).trans (hw.reckons Flushes.reckons)).trans
    (hr.reckons Refreshes.reckons)

/-! ## Sessions -/

/-- Every happening leaves the count right. -/
theorem Happening.reckoned {s s' : State} (h : Happening s s') (hs : s.Reckoned) : s'.Reckoned := by
  cases h with
  | touch h => exact hs.touch h
  | began | ended | claim | free => exact hs.note rfl rfl rfl
  | update p _ h =>
    cases h with
    | halted => exact hs.note rfl rfl rfl
    | stops =>
      have hst : s.held.taken.stopped.Reckoned := hs.taken.event rfl rfl rfl rfl (by rintro _ _ ⟨⟩) rfl
      exact hst.note rfl rfl rfl
    | idles => exact hs.taken.note rfl rfl rfl
    | @ran s₀ s₁ clean _ _ _ h₀ hc _ =>
      subst h₀
      have hcarried := hc.reckons
      obtain ⟨new, hnew, hbegin, hfailed⟩ := hcarried.told
      have hrecent : s₁.history.recent = new := by
        rw [hnew, History.recent_append hbegin]
        exact List.append_nil new
      have hend := (hcarried.reckoned (hs.begun s.extender.work)).completed (hrecent ▸ hfailed)
      exact hend.note rfl rfl rfl
  | cut _ h =>
    obtain ⟨s₁, _, _, hb, rfl⟩ := h
    exact ((hs.begun s.extender.work).breaks hb).note rfl rfl rfl

/-- In every state of a session the count is that of the failures, and every failure has been recorded. -/
theorem Goes.reckoned {s₀ s : State} (h : Goes s₀ s) (hm : Made s₀.extender) (h₀ : s₀.history = []) : s.Reckoned := by
  induction h with
  | refl =>
    obtain ⟨_, _, _, _, _, _, he, _⟩ := hm.fresh
    have hb : s₀.extender.backoff = .new maxErrorCount := by
      rw [he]
      rfl
    refine ⟨by rw [hb]; rfl, by rw [hb, h₀]; rfl, ?_, ?_⟩
    · rw [h₀]
      exact nofun
    · rw [h₀]
      exact trivial
  | tail _ h ih => exact h.reckoned ih

/-- A history whose rest after some events begins with a transaction that has failed has the failure there. -/
theorem History.failure_of_drop {h : History} (k : Nat) {p : Access → BusKind → History → Bool}
    (hk : (match h.drop k with | .transaction a (.error kind) :: past => p a kind past | _ => false) = true) :
    ∃ later a kind past, h = later ++ .transaction a (.error kind) :: past ∧ p a kind past = true := by
  split at hk
  · rename_i a kind past hd
    exact ⟨h.take k, a, kind, past, by rw [← hd, List.take_append_drop], hk⟩
  · cases hk

/-- Failures are counted until a pass has come to its end without one. At every moment of a session the count is that of the
transactions that have failed since then, and `maxErrorCount` if more have; so wherever it has fallen from one moment to a later one,
a pass has come to its end in between in which nothing has failed. Every failed transaction is followed at once by a record of its
failure that tells the count as it is then, and nothing else makes such a record. -/
theorem failures_are_counted_until_a_clean_pass {s : State} (hs : Reachable s) :
    s.extender.backoff.count = min maxErrorCount s.history.failures ∧
    (∀ later n e past, s.history = later ++ .noted n e :: past →
      e.backoff.count = min maxErrorCount (History.failures (.noted n e :: past))) ∧
    (∀ later n' e' since n e past, s.history = later ++ .noted n' e' :: (since ++ .noted n e :: past) →
      e'.backoff.count < e.backoff.count →
      ∃ newer clean e₁ body, .noted n' e' :: since = newer ++ .noted (.passEnded clean) e₁ :: body ∧
        (History.recent (body ++ .noted n e :: past)).any (·.failed) = false) ∧
    (∀ later a kind past, s.history = later ++ .transaction a (.error kind) :: past →
      ∃ newer r, later = newer ++ [.logged r] ∧ r.level = "WARN" ∧
        r = .transactionFailed { place := a.place, kind } (min maxErrorCount (History.failures past + 1))) ∧
    ∀ later err count past, s.history = later ++ .logged (.transactionFailed err count) :: past →
      ∃ a kind older, past = .transaction a (.error kind) :: older := by
  obtain ⟨e₀, board, hmade, hgo, -⟩ := hs.goes
  have hr := hgo.reckoned hmade rfl
  have hcounted (later n e past) (hm : s.history = later ++ .noted n e :: past) :
      e.backoff.count = min maxErrorCount (History.failures (.noted n e :: past)) :=
    (hr.history.at_event hm).counted n e rfl
  refine ⟨hr.count, hcounted, fun later n' e' since n e past hm hlt => ?_, fun later a kind past hm => ?_,
    fun later err count past hm => (hr.history.at_event hm).caused rfl⟩
  · have hbefore := hcounted (later ++ .noted n' e' :: since) n e past (by simp [hm])
    have hafter := hcounted later n' e' _ hm
    refine History.exists_end_of_failures_lt (.noted n' e' :: since) ?_
    rw [List.cons_append]
    omega
  · rcases List.eq_nil_or_concat later with rfl | ⟨newer, ev, rfl⟩
    · exact (hr.recorded a kind past hm).elim
    · rw [List.concat_eq_append, List.append_assoc, List.singleton_append] at hm
      have hrecord := (hr.history.at_event hm).recorded a kind past rfl
      subst hrecord
      exact ⟨newer, _, List.concat_eq_append, rfl, rfl⟩

/-- Two writes fail, one in a pass that comes to its end and one in a pass that its handler cuts short; in the pass after these
nothing fails. -/
theorem failures_are_counted_until_a_clean_pass_of_two :
    let s := State.oneChip [.claim 0, .op (.call (.setup 0 PinAttributes.input)), .op (.call (.attach 0 ⟨0, 7, .change⟩)),
      .op (.change (.failNext [some .bus])), .op .update, .op (.handler 7 [.panic]), .op (.change (.poke ⟨0x20, 0⟩ 1)),
      .op (.change (.failNext [some .bus])), .op .update, .op .update]
    (∃ later n' e' since e past, s.history = later ++ .noted n' e' :: (since ++ .noted .passCut e :: past) ∧
      e.backoff.count = 2 ∧ e'.backoff.count = 0 ∧ ∃ newer clean e₁ body,
        .noted n' e' :: since = newer ++ .noted (.passEnded clean) e₁ :: body ∧
        (History.recent (body ++ .noted .passCut e :: past)).any (·.failed) = false) ∧
    ∃ newer r a kind past, s.history = newer ++ .logged r :: .transaction a (.error kind) :: past ∧ r.level = "WARN" ∧
      r = .transactionFailed { place := a.place, kind } 2 := by
  intro s
  have hr : Reachable s := reachable_oneChip _
  obtain ⟨-, -, hfallen, hrecorded, -⟩ := failures_are_counted_until_a_clean_pass hr
  constructor
  · obtain ⟨later, n', e', past', hm, hp⟩ := History.moment_of_drop (h := s.history) 0
      (p := fun _ e' past' => e'.backoff.count == 0 && (History.cut? past' 7).any (·.after.backoff.count == 2)) (by decide +kernel)
    rw [Bool.and_eq_true, beq_iff_eq, Option.any_eq_true] at hp
    obtain ⟨hafter, c, hc, hq⟩ := hp
    rw [beq_iff_eq] at hq
    obtain ⟨⟨since, rfl⟩, -⟩ := History.cutShort_of_cut? hc
    exact ⟨later, n', e', since, c.after, _, hm, hq, hafter, hfallen later n' e' since _ c.after _ hm (by omega)⟩
  · obtain ⟨newer, a, kind, past, hm, hp⟩ := History.failure_of_drop (h := s.history) 16
      (p := fun _ _ past => History.failures past == 1) (by decide +kernel)
    obtain ⟨newer', r, rfl, hlevel, hrec⟩ := hrecorded newer a kind past hm
    refine ⟨newer', r, a, kind, past, ?_, hlevel, ?_⟩
    · rw [hm, List.append_assoc]
      rfl
    · rw [hrec, eq_of_beq hp]
      rfl

end PortExpander
