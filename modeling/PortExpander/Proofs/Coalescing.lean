import Mathlib.Data.List.Induction
import PortExpander.Proofs.Accesses
import PortExpander.Proofs.Refusals
import PortExpander.Proofs.Rests

/-!
# Writes before a flush

Writing an output makes no transaction: it changes the level of the pin in the memory and, if that was another one before, stages its
group. When nothing else has been asked for, the pass of a flush has no writes but those of the groups that were staged. So outputs can
be written any number of times before they are flushed, and each output register is written once, with the levels that have been given
last.
-/

namespace PortExpander

open Sim Engine

/-! ## The last levels -/

namespace Target

/-- The step that gives an output its level. -/
def write (t : Target) : Step := .op (.call (.write t.pin t.high))

/-- The level of a pin once some outputs have been given theirs: the last one that it has been given, or the one that it had. -/
def lastLevel (targets : List Target) (pin : Nat) (was : Bool) : Bool := (targets.reverse.find? (·.pin == pin)).elim was (·.high)

theorem lastLevel_concat (targets : List Target) (t : Target) (pin : Nat) (was : Bool) :
    lastLevel (targets ++ [t]) pin was = if pin = t.pin then t.high else lastLevel targets pin was := by
  unfold lastLevel
  rw [List.reverse_concat, List.find?_cons]
  by_cases hp : pin = t.pin
  · rw [if_pos hp, beq_iff_eq.2 hp.symm]
    rfl
  · rw [if_neg hp, beq_eq_false_iff_ne.2 (Ne.symm hp)]

end Target

namespace PinMap

/-- While some pins' bits are replaced, one of a group's pins gets another bit than it has then. -/
def Toggles (m : PinMap) (targets : List Target) (g : Nat) : Prop :=
  ∃ earlier t later, targets = earlier ++ t :: later ∧ t.pin / 8 = g ∧ Target.lastLevel earlier t.pin (m.get t.pin) ≠ t.high

/-- Every pin has the bit that it has been given last. -/
theorem get_setAll_eq_lastLevel (m : PinMap) {targets : List Target} (h : ∀ t ∈ targets, t.pin < 64) (pin : Nat) :
    (m.setAll targets).get pin = Target.lastLevel targets pin (m.get pin) := by
  induction targets using List.reverseRecOn with
  | nil => rfl
  | append_singleton targets t ih =>
    have hlast : m.setAll (targets ++ [t]) = (m.setAll targets).set t.pin t.high := List.foldl_concat _ _ _ _
    rw [hlast, get_set _ _ _ _ (h t (List.mem_append_right _ List.mem_cons_self)), Target.lastLevel_concat,
      ih fun t' ht' => h t' (List.mem_append_left _ ht')]

theorem changed_concat (m : PinMap) (targets : List Target) (t : Target) : m.changed (targets ++ [t]) =
    m.changed targets ||| (if (m.setAll targets).get t.pin != t.high then BitVec.twoPow 8 (t.pin / 8) else 0) := by
  induction targets generalizing m with
  | nil =>
    show (_ ||| (0 : Byte)) = (0 : Byte) ||| _
    rw [BitVec.ofNat_eq_ofNat, BitVec.or_zero, BitVec.zero_or]
    rfl
  | cons t' targets ih =>
    show (_ ||| (m.set t'.pin t'.high).changed (targets ++ [t])) = (_ ||| (m.set t'.pin t'.high).changed targets) ||| _
    rw [ih, BitVec.or_assoc]
    rfl

/-- The groups of pins whose bits are different for a while or for good are those in which some bit is replaced by another one. -/
theorem getLsbD_changed_iff (m : PinMap) {targets : List Target} (h : ∀ t ∈ targets, t.pin < 64) (g : Nat) :
    (m.changed targets).getLsbD g = true ↔ m.Toggles targets g := by
  induction targets using List.reverseRecOn with
  | nil =>
    unfold Toggles
    simp [changed]
  | append_singleton targets t ih =>
    have hearlier : ∀ t' ∈ targets, t'.pin < 64 := fun t' ht' => h t' (List.mem_append_left _ ht')
    have ht : t.pin < 64 := h t (List.mem_append_right _ List.mem_cons_self)
    -- the last write changes the group of its pin just if the writes before have left another level
    have hlast : (if (m.setAll targets).get t.pin != t.high then BitVec.twoPow 8 (t.pin / 8) else 0 : Byte).getLsbD g = true ↔
        t.pin / 8 = g ∧ Target.lastLevel targets t.pin (m.get t.pin) ≠ t.high := by
      rw [get_setAll_eq_lastLevel m hearlier]
      split
      · rename_i hne
        rw [BitVec.getLsbD_twoPow]
        simp only [bne_iff_ne, ne_eq] at hne
        simp [hne]
        omega
      · rename_i heq
        simp only [bne_iff_ne, ne_eq, Decidable.not_not] at heq
        simp [heq]
    rw [changed_concat, BitVec.getLsbD_or, Bool.or_eq_true, ih hearlier, hlast]
    constructor
    · rintro (⟨earlier, t', later, rfl, hg, hne⟩ | ⟨hg, hne⟩)
      · exact ⟨earlier, t', later ++ [t], by simp, hg, hne⟩
      · exact ⟨targets, t, [], rfl, hg, hne⟩
    · rintro ⟨earlier, t', later, heq, hg, hne⟩
      rcases List.eq_nil_or_concat later with rfl | ⟨later, t'', rfl⟩
      · obtain ⟨rfl, hlast⟩ := List.append_inj' heq rfl
        obtain rfl := List.singleton_inj.1 hlast
        exact .inr ⟨hg, hne⟩
      · rw [List.concat_eq_append, ← List.cons_append, ← List.append_assoc] at heq
        exact .inl ⟨earlier, t', later, (List.append_inj' heq rfl).1, hg, hne⟩

end PinMap

/-! ## Writes -/

/-- Between two states, outputs have been given their levels in the memory, and nothing has been tried. -/
structure State.Stages (s s' : State) (targets : List Target) : Prop where
  extender : s'.extender = (s.wrote targets).extender
  context : s'.board.interruptContext = s.board.interruptContext
  accesses : s'.history.accesses = s.history.accesses

section

variable (nest : Nest) {s : State} (hs : s.extender.isStopped = false)

include hs

/-- A write to a pin that is there is done, and staged. -/
theorem State.step_write {t : Target} (ht : t.pin < s.extender.claims.capacity) :
    (s.step nest t.write).1 = .done ∧ s.Stages (s.step nest t.write).2 [t] := by
  have hgives : (t.write.perform nest).Gives (s.noting (.stepBegan t.write))
      (fun r s' => r = .done ∧ s' = (s.noting (.stepBegan t.write)).wrote [t]) fun _ => False := by
    refine Session.gives_answering.2 (Attempt.gives_bind.2 ?_)
    refine (Client.gives_write _ t.pin t.high).mono (fun _ s' h => ⟨rfl, h.2.2⟩) (fun err s' h => ?_) fun _ h => h
    cases (Extender.stopped_or_outside_eq_none.2 ⟨hs, ht⟩).symm.trans h.1
  rcases State.step_of_gives hgives with ⟨r, s', hstep, rfl, rfl⟩ | ⟨_, _, _, hno⟩
  · rw [hstep]
    exact ⟨rfl, rfl, rfl, (State.accesses_noting _ _).trans (State.accesses_noting s _)⟩
  · exact hno.elim

/-- Outputs are given their levels one after the other, and none of them is refused. -/
theorem State.play_writes {targets : List Target} (ht : ∀ t ∈ targets, t.pin < s.extender.claims.capacity) :
    (∀ r ∈ (s.play nest (targets.map Target.write)).1, r.reply = .done) ∧
      s.Stages (s.play nest (targets.map Target.write)).2 targets := by
  induction targets generalizing s with
  | nil => exact ⟨fun r hr => absurd hr List.not_mem_nil, rfl, rfl, rfl⟩
  | cons t targets ih =>
    obtain ⟨hreply, hstages⟩ := State.step_write nest hs (ht t List.mem_cons_self)
    have hrest := hstages.extender
    obtain ⟨hreplies, hlater⟩ := ih (s := (s.step nest t.write).2) (by rw [hrest]; exact hs)
      fun t' ht' => by rw [hrest]; exact ht t' (List.mem_cons_of_mem t ht')
    refine ⟨fun r hr => ?_, hlater.extender.trans ?_, hlater.context.trans hstages.context, hlater.accesses.trans hstages.accesses⟩
    · rcases List.mem_cons.1 hr with rfl | hr
      · exact hreply
      · exact hreplies r hr
    · unfold State.wrote at hrest ⊢
      rw [State.extender_amend, hrest]
      rfl

end

/-! ## Passes without trouble -/

/-- Where there is no trouble, no operation has begun in between and no transaction has failed. -/
theorem History.alone_of_untroubled {h : History} (hn : h.countP (·.isTrouble) = 0) : h.Alone ∧ h.any (·.failed) = false := by
  have hnone := List.countP_eq_zero.1 hn
  refine ⟨fun ev hm => ?_, List.any_eq_false.2 fun ev hm hf => hnone ev hm ?_⟩
  · refine Bool.eq_false_iff.2 fun hi => hnone ev hm ?_
    unfold Event.isIntrusion at hi
    split at hi
    · rfl
    · cases hi
  · unfold Event.failed at hf
    split at hf
    · rfl
    · cases hf

/-- When a pass begins, nothing has been tried in the update so far. -/
theorem State.begun_quietly (s : State) (pending : Status) :
    ((s.held.taken.started pending).noting (.passBegan pending)).troubles = s.troubles ∧
      ((s.held.taken.started pending).noting (.passBegan pending)).history.accesses = s.history.accesses := by
  have htaken : s.held.taken.troubles = s.troubles := State.troubles_noting (n := .took _) (by rintro _ ⟨⟩)
  rw [State.troubles_noting (by rintro _ ⟨⟩), State.accesses_noting]
  unfold State.started
  split
  · rw [State.troubles_seeing rfl, State.accesses_seeing _ rfl]
    exact ⟨htaken, State.accesses_noting _ _⟩
  · exact ⟨htaken, State.accesses_noting _ _⟩

/-- An update that has work to do makes a plan. If there is no trouble in it, it tries what is planned, and leaves nothing asked
for. -/
theorem Updates.of_smooth {s s' : State} {p : Pass} (h : Updates s p s') (hh : s.extender.halted = false)
    (hstop : s.extender.work.contains Status.stop = false) (hi : s.extender.isIdleWith s.extender.work = false) (hq : s.Smooth s') :
    ∃ plan t new, Gathers s.extender.work ((s.held.taken.started s.extender.work).noting (.passBegan s.extender.work)) plan t ∧
      s'.history.accesses = s.history.accesses ++ new ∧ new.map some = s.extender.wanted plan ∧
      s'.extender.queue = [] ∧ s'.extender.backoff.count = 0 ∧
      s'.extender = { s.extender with
        shadow := { s.extender.shadow with dirty := s.extender.dirtyAfter plan, input := s'.extender.shadow.input }
        engine := s'.extender.engine
        backoff := s'.extender.backoff
        status := ∅
        updating := false } := by
  cases h with
  | halted hhalt => cases hhalt.symm.trans hh
  | stops _ hstop' => cases hstop'.symm.trans hstop
  | idles _ _ hidle => cases hidle.symm.trans hi
  | @ran s₀ s₁ clean _ _ _ h₀ hc _ =>
    obtain ⟨plan, t, hg, new, hnew, hmakes⟩ := hc.makes
    obtain ⟨done, hdone, -, hfailed⟩ := hc.reckons.told
    obtain rfl : new = done := State.new_unique hnew hdone
    have he : s₀.extender = s.held.taken.extender := by rw [h₀, State.extender_begun]
    obtain ⟨htroubles, haccesses⟩ := s.begun_quietly s.extender.work
    rw [← h₀] at htroubles haccesses
    have hended : ((letGo (s₁.completed clean).released).noting (.updated .ran)).troubles = s₁.troubles :=
      (State.troubles_noting (s := letGo (s₁.completed clean).released) (by rintro _ ⟨⟩)).trans (s₁.troubles_completed clean)
    -- no trouble has been added, so no transaction has failed and nothing has fallen in
    have hnone : new.countP (·.isTrouble) = 0 := by
      have hcount : s₁.troubles = new.countP (·.isTrouble) + s₀.troubles := by
        unfold State.troubles
        rw [hnew, List.countP_append]
      unfold State.Smooth at hq
      omega
    obtain ⟨halone, hok⟩ := History.alone_of_untroubled hnone
    obtain ⟨has, -, b, i, hlike⟩ := hmakes halone
    obtain rfl : clean = true := by
      rw [hok] at hfailed
      simpa using hfailed
    rw [he] at has hlike
    have hrelease : Status.busy.release = ∅ := by decide
    have hqueue := Extender.queue_carried s.held.taken.extender plan t.extender.engine
    obtain ⟨e₁, board, history⟩ := s₁
    obtain rfl : e₁ = _ := hlike
    refine ⟨plan, t, new.accesses, h₀ ▸ hg, ?_, has, hqueue.trans hg.queue, rfl, ?_⟩
    · rw [State.accesses_noting]
      show (({ extender := _, board, history } : State).noting (.passEnded true)).history.accesses = _
      rw [State.accesses_noting, ← haccesses, ← History.accesses_append]
      exact congrArg History.accesses hnew
    · show ({ s.extender with
        shadow := _, engine := _, backoff := _, status := Status.busy.release, updating := false } : Extender) = _
      rw [hrelease]
      rfl

/-! ## Flushes -/

/-- The state in which a flush makes its pass. -/
def State.flushing (s : State) : State :=
  ((s.amend fun e => { e with shadow := e.shadow.commit }).asking .writeDirty).seeing .notified

/-- A flush makes one update if no pass is at work and the context allows it. -/
theorem Client.gives_flush_of_free {nest : Nest} (hn : Guest nest) {s : State} (hs : s.extender.isStopped = false)
    (hu : s.extender.updating = false) (hi : s.board.interruptContext = false) :
    (Client.flush nest).Gives s (fun _ s' => ∃ p, Updates s.flushing p s') (fun _ _ => False) (Cuts s.flushing) := by
  have hcontext : ¬s.flushing.board.interruptContext = true := Bool.eq_false_iff.1 hi
  unfold Client.flush
  rw [Attempt.gives_bind, gives_ensureRunning, if_neg (Bool.eq_false_iff.1 hs)]
  simp only [Attempt.gives_bind, Attempt.gives_liftM, gives_modifyExtender, gives_request, gives_notify]
  change (Client.syncPass nest).Gives s.flushing _ _
  unfold Client.syncPass
  rw [gives_bind, gives_board, if_neg hcontext, gives_bind]
  refine (gives_update_of_free (s := s.flushing) hn hu).mono (fun p s' h => ?_) fun _ h => h
  split
  · rename_i hp
    subst hp
    cases h
  · exact ⟨p, h⟩

namespace Extender

/-- The groups that an engine reads in every pass. -/
def polls (e : Extender) : Byte :=
  match e.engine with
  | .generic m => if m.polling then 255 else 0
  | .queued q => q.polled

/-- What is read in every pass are the inputs of handlers that wait for changes that no line reports: of all groups, if the engine is
the generic one, and of their chips, if it is the queued one. -/
theorem getLsbD_polls {e : Extender} (hs : e.Sound) (ht : e.Tended) {g : Nat} (hg : g < 8) :
    e.polls.getLsbD g = true ↔ ∃ pin, e.Polls pin ∧ ∀ q, e.engine = .queued q → pin / 8 = g := by
  unfold polls
  cases he : e.engine with
  | generic m =>
    have hpolling : m.polling = true ↔ ∃ pin, e.Polls pin := by
      rw [polling_iff hs ht he]
      unfold Polls
      rw [he]
      simp [Engine.Reports, and_comm]
    dsimp only
    split
    · rename_i hp
      obtain ⟨pin, hpin⟩ := hpolling.1 hp
      exact ⟨fun _ => ⟨pin, hpin, by rintro _ ⟨⟩⟩, fun _ => Byte.getLsbD_255 hg⟩
    · rename_i hp
      rw [BitVec.ofNat_eq_ofNat, BitVec.getLsbD_zero]
      refine ⟨fun h => Bool.noConfusion h, ?_⟩
      rintro ⟨pin, hpin, -⟩
      exact absurd (hpolling.2 ⟨pin, hpin⟩) hp
  | queued q =>
    constructor
    · intro hp
      obtain ⟨-, hwired, pin, rfl, hsome⟩ := (hs.polled_iff he).1 hp
      refine ⟨pin, ⟨hsome, ?_⟩, fun _ _ => rfl⟩
      rw [he]
      exact Bool.eq_false_iff.1 hwired
    · rintro ⟨pin, hpin, hg'⟩
      exact hg' q rfl ▸ polled_of_polls hs ht he hpin

end Extender

/-- If only outputs are asked for and no chip is in the queue, a pass writes outputs, and reads what is read in every pass. -/
theorem Gathers.plan_of_flush {e : Extender} {plan : Plan} {s s' : State} (h : Gathers e.work s plan s')
    (he : s.extender.engine = e.engine) (hw : e.status = Status.writeDirty) (hq : e.queue = []) : plan = ⟨false, true, e.polls⟩ := by
  obtain ⟨hconfig, hisr, hread⟩ := Scene.contains_work_flush hw
  have hwrite : e.work.contains Status.writeDirty = true := by
    rw [show Status.writeDirty = .flag 2 from rfl, Extender.contains_work (by decide) (by decide) (by decide), hw]
    decide
  have hplan (groups : Byte) : Plan.ofRequests e.work groups =
      ⟨false, true, if e.standing.contains Status.readDirty = true then 255 else groups⟩ := by
    unfold Plan.ofRequests
    rw [hconfig, hwrite, hread, Bool.false_or, Bool.false_or]
  cases h with
  | looked _ hisr' => cases hisr.symm.trans hisr'
  | unlooked hm =>
    rw [hplan, Scene.standing_generic (he.symm.trans hm), Extender.polls, ← he, hm]
  | @drained q hm =>
    have hnone : q.queue = [] := by
      unfold Extender.queue at hq
      rw [← he, hm] at hq
      exact hq
    have hstanding : e.standing.contains Status.readDirty = false := by
      unfold Extender.standing
      rw [← he, hm]
      exact (by decide : FlagSet.contains ∅ Status.readDirty = false)
    rw [hplan, hstanding, hnone, Extender.polls, ← he, hm]
    rfl

/-- What a pass wants that only flushes: the dirty outputs, and the inputs that it is to read. -/
theorem Extender.wanted_of_flush (e : Extender) (groups : Byte) : e.wanted ⟨false, true, groups⟩ =
    e.writesAt .output (e.shadow.dirty &&& e.claims.groups).groups ++ e.readsAt (groups &&& e.claims.groups).groups := by
  have hnone (k : Register) : e.writesAt k (Byte.groups 0) = [] := e.writesAt_nil k
  rw [wanted_eq]
  show e.writesAt .polarity (Byte.groups 0) ++ (e.writesAt .config (Byte.groups 0) ++ _) = _
  rw [hnone, hnone, List.nil_append, List.nil_append]
  rfl

/-- Registers of different groups are at different places. -/
theorem Extender.nodup_of_writesAt {e : Extender} {k : Register} {groups : Byte} {as : List Access}
    (h : as.map some = e.writesAt k groups.groups) : (as.map (·.place)).Nodup := by
  have hrows : as = (e.rows k groups).map fun w => .write w.1 w.2 := by
    rw [← reduceOption_writesAt, ← h, List.reduceOption, List.filterMap_map]
    exact List.filterMap_some.symm
  rw [hrows, List.map_map]
  exact nodup_rows groups

/-- When nothing has been asked for, the pass of a flush has outputs to write. -/
theorem State.work_flushing {s : State} (hs : s.extender.isStopped = false) (hnone : s.extender.status = ∅) :
    s.flushing.extender.status = Status.writeDirty ∧ s.flushing.extender.halted = false ∧
      s.flushing.extender.work.contains Status.stop = false ∧
      s.flushing.extender.isIdleWith s.flushing.extender.work = false := by
  have hstatus : s.flushing.extender.status = Status.writeDirty := by
    show s.extender.status ∪ Status.writeDirty = _
    rw [hnone]
    decide
  have hcontains {i : Nat} (hi : i < 6) (h3 : i ≠ 3) (h4 : i ≠ 4) :
      s.flushing.extender.work.contains (.flag i) = Status.writeDirty.contains (.flag i) := by
    rw [Extender.contains_work hi h3 h4, hstatus]
  refine ⟨hstatus, (Bool.or_eq_false_iff.1 hs).1, ?_, ?_⟩
  · exact (hcontains (i := 1) (by decide) (by decide) (by decide)).trans (by decide)
  · exact Extender.isIdleWith_of_contains (i := 2) (by decide) ((hcontains (by decide) (by decide) (by decide)).trans (by decide))

/-- A flush adds no trouble before its pass. -/
theorem State.troubles_flushing (s : State) : s.flushing.troubles = s.troubles := by
  have hnotified : s.flushing.troubles = ((s.amend fun e => { e with shadow := e.shadow.commit }).asking .writeDirty).troubles :=
    State.troubles_seeing rfl
  exact hnotified.trans (State.troubles_noting (n := .requested .writeDirty) (by rintro _ ⟨⟩))

/-- A flush makes no transaction before its pass. -/
theorem State.accesses_flushing (s : State) : s.flushing.history.accesses = s.history.accesses := by
  have hnotified : s.flushing.history.accesses =
      ((s.amend fun e => { e with shadow := e.shadow.commit }).asking .writeDirty).history.accesses :=
    State.accesses_seeing _ rfl
  exact hnotified.trans (State.accesses_noting _ _)

/-- The update of a flush that is made when nothing has been asked for: if there is no trouble in it, it writes the outputs of the
staged groups and reads what is read in every pass. -/
theorem Updates.of_flush {s s' : State} {p : Pass} (h : Updates s.flushing p s') (hs : s.extender.isStopped = false)
    (hnone : s.extender.status = ∅) (hdirty : s.extender.shadow.dirty = 0) (hqueue : s.extender.queue = [])
    (hq : s.flushing.Smooth s') :
    (∃ new, s'.history.accesses = s.history.accesses ++ new ∧ new.map some =
      s'.extender.writesAt .output (s.extender.shadow.staged &&& s.extender.claims.groups).groups ++
        s'.extender.readsAt (s.extender.polls &&& s.extender.claims.groups).groups) ∧
    s'.extender.queue = [] ∧ s'.extender.backoff.count = 0 ∧
    s'.extender = { s.extender with
      shadow := { s.extender.shadow with staged := 0, dirty := 0, input := s'.extender.shadow.input }
      engine := s'.extender.engine
      backoff := s'.extender.backoff
      status := ∅
      updating := false } := by
  obtain ⟨hw, hh, hstop, hidle⟩ := State.work_flushing hs hnone
  obtain ⟨plan, t, new, hg, haccesses, hmade, hempty, hcount, hafter⟩ := h.of_smooth hh hstop hidle hq
  obtain rfl := hg.plan_of_flush (by rw [State.extender_begun]; rfl) hw hqueue
  have hstaged : s.flushing.extender.shadow.dirty = s.extender.shadow.staged := by
    show s.extender.shadow.dirty ||| _ = _
    rw [hdirty, BitVec.ofNat_eq_ofNat, BitVec.zero_or]
  rw [State.accesses_flushing] at haccesses
  refine ⟨⟨new, haccesses, ?_⟩, hempty, hcount, hafter⟩
  rw [hmade, Extender.wanted_of_flush, hafter, hstaged]
  rfl

section

variable {nest : Nest} (hn : Guest nest) {s s' : State} {r : Reply} (hstep : s.step nest (.op (.call .flush)) = (r, s'))
  (hs : s.extender.isStopped = false) (hu : s.extender.updating = false) (hi : s.board.interruptContext = false)
  (hcut : s'.history.Uncut)

include hn hstep hs hu hi hcut

/-- A step that flushes makes the update of the flush, and is not refused. -/
theorem State.updates_of_flush : r = .done ∧
    ∃ s₁ p, s' = s₁.over (.op (.call .flush)) .done ∧ Updates (s.noting (.stepBegan (.op (.call .flush)))).flushing p s₁ := by
  have hgives : ((Step.op (.call .flush)).perform nest).Gives (s.noting (.stepBegan (.op (.call .flush))))
      (fun r s' => r = .done ∧ ∃ p, Updates (s.noting (.stepBegan (.op (.call .flush)))).flushing p s')
      (Cuts (s.noting (.stepBegan (.op (.call .flush)))).flushing) := by
    refine Session.gives_answering.2 (Attempt.gives_bind.2 ?_)
    have hflush := Client.gives_flush_of_free hn (s := s.noting (.stepBegan (.op (.call .flush)))) hs hu hi
    exact hflush.mono (fun _ s' h => ⟨rfl, h⟩) (fun _ _ h => h.elim) fun _ h => h
  rcases State.step_of_gives hgives with ⟨_, s₁, heq, rfl, p, hupdates⟩ | ⟨f, _, heq, s₁, -, -, -, rfl⟩
  · obtain ⟨rfl, rfl⟩ := Prod.mk.inj (hstep.symm.trans heq)
    exact ⟨rfl, s₁, p, rfl, hupdates⟩
  · obtain ⟨-, rfl⟩ := Prod.mk.inj (hstep.symm.trans heq)
    cases hcut (.noted .passCut (letGo s₁).extender) (List.mem_cons_of_mem _ List.mem_cons_self)

/-- A step that flushes when nothing has been asked for, and in which there is no trouble, writes the outputs of the staged groups and
reads what is read in every pass. -/
theorem State.step_flush (hnone : s.extender.status = ∅) (hdirty : s.extender.shadow.dirty = 0) (hqueue : s.extender.queue = [])
    (hq : s.Smooth s') : r = .done ∧
    (∃ new, s'.history.accesses = s.history.accesses ++ new ∧ new.map some =
      s'.extender.writesAt .output (s.extender.shadow.staged &&& s.extender.claims.groups).groups ++
        s'.extender.readsAt (s.extender.polls &&& s.extender.claims.groups).groups) ∧
    s'.extender.queue = [] ∧ s'.extender.backoff.count = 0 ∧
    s'.extender = { s.extender with
      shadow := { s.extender.shadow with staged := 0, dirty := 0, input := s'.extender.shadow.input }
      engine := s'.extender.engine
      backoff := s'.extender.backoff
      status := ∅
      updating := false } := by
  obtain ⟨rfl, s₁, p, rfl, hupdates⟩ := State.updates_of_flush hn hstep hs hu hi hcut
  have hbegan : (s.noting (.stepBegan (.op (.call .flush)))).troubles = s.troubles := State.troubles_noting (by rintro _ ⟨⟩)
  have hsmooth : (s.noting (.stepBegan (.op (.call .flush)))).flushing.Smooth s₁ := by
    unfold State.Smooth at hq ⊢
    rw [State.troubles_flushing, hbegan, ← hq, State.troubles_over]
  obtain ⟨⟨new, haccesses, hmade⟩, hleft⟩ := hupdates.of_flush hs hnone hdirty hqueue hsmooth
  rw [State.accesses_noting] at haccesses
  exact ⟨rfl, ⟨new, (State.accesses_noting _ _).trans haccesses, hmade⟩, hleft⟩

end

/-! ## Sessions -/

/-- No engine serves more pins than a map has bits. -/
theorem Engine.capacity_le (engine : Engine) : engine.capacity ≤ 64 := by
  unfold capacity
  split <;> decide

/-- Writes are sent by the next flush, all at once. Take any state between two steps of a session in which the extender is not stopped,
nothing is asked for and no interrupt is being served, and let outputs be written in any number and order, and then flushed. If no pass
has been cut short by then, no transaction fails and no operation falls into the middle of another one, nothing is refused, and the
writes make no transaction. The flush writes the output registers of the claimed groups that were staged before or of which a pin has
been given another level than it had then, each register once and in the order of the groups, with the levels that were given last. Then
it reads the inputs of claimed groups for which handlers wait without a line, and it does nothing else. In the end nothing is staged,
dirty or asked for, no chip is in the queue and no failure is counted. -/
theorem writes_are_sent_by_the_next_flush :
    ∀ (s : State) (targets : List Target) (depth : Nat), Reachable s → s.extender.isStopped = false → s.extender.status = ∅ →
      s.board.interruptContext = false → (∀ t ∈ targets, t.pin < s.extender.claims.capacity) →
      let written := s.play (Session.nestAt depth) (targets.map Target.write)
      let flushed := written.2.step (Session.nestAt depth) (.op (.call .flush))
      let after := flushed.2.extender
      flushed.2.history.Uncut → s.Smooth flushed.2 →
        (∀ r ∈ written.1, r.reply = .done) ∧ flushed.1 = .done ∧ written.2.history.accesses = s.history.accesses ∧
        (∃ writes reads sent looked, flushed.2.history.accesses = s.history.accesses ++ (writes ++ reads) ∧
          writes.map some = after.writesAt .output (Byte.groups sent) ∧ (writes.map (·.place)).Nodup ∧
          reads.map some = after.readsAt (Byte.groups looked) ∧
          (∀ g, sent.getLsbD g = true ↔ s.extender.claims.groups.getLsbD g = true ∧
            (s.extender.shadow.staged.getLsbD g = true ∨ s.extender.shadow.output.Toggles targets g)) ∧
          ∀ g, looked.getLsbD g = true ↔ s.extender.claims.groups.getLsbD g = true ∧
            ∃ pin, s.extender.Polls pin ∧ ∀ q, s.extender.engine = .queued q → pin / 8 = g) ∧
        (∀ pin, after.shadow.output.get pin = Target.lastLevel targets pin (s.extender.shadow.output.get pin)) ∧
        after.queue = [] ∧ after.backoff.count = 0 ∧
        after = { s.extender with
          shadow := { s.extender.shadow with
            output := after.shadow.output
            input := after.shadow.input
            staged := 0
            dirty := 0 }
          engine := after.engine
          backoff := after.backoff
          status := ∅
          updating := false } := by
  intro s targets depth hreach hs hnone hi ht written flushed after hcut hq
  obtain ⟨e₀, board, hmade, hgo, hu⟩ := hreach.goes
  have hp := Session.plays_nestAt depth
  have hpins : ∀ t ∈ targets, t.pin < 64 := fun t h =>
    Nat.lt_of_lt_of_le (ht t h) ((hreach.capacity (.inl rfl)).trans_le s.extender.engine.capacity_le)
  have hwrites : Goes s written.2 := State.goes_play hp _ hu
  have hflush : Goes written.2 flushed.2 := State.goes_step hp _ (hwrites.updating.trans hu)
  have hempty : s.extender.status.isEmpty = true := by rw [hnone]; decide
  obtain ⟨hcount, hdirty, hqueue⟩ := hgo.nothing_left hmade rfl (Goes.uncut (hwrites.trans hflush) hcut)
    (Bool.or_eq_false_iff.1 hs).1 hempty
  obtain ⟨hreplies, hstages⟩ := State.play_writes (Session.nestAt depth) hs ht
  -- the writes have changed the outputs in the memory and nothing else
  have hext : written.2.extender = { s.extender with shadow := { s.extender.shadow with
      output := s.extender.shadow.output.setAll targets
      staged := s.extender.shadow.staged ||| s.extender.shadow.output.changed targets } } :=
    hstages.extender.trans (congrArg (fun shadow => ({ s.extender with shadow } : Extender)) (Shadow.writeAll_eq _ targets))
  have hsmooth : written.2.Smooth flushed.2 := by
    have hle := hwrites.troubles_le
    have hle' := hflush.troubles_le
    unfold State.Smooth at hq ⊢
    omega
  have hstep : written.2.step (Session.nestAt depth) (.op (.call .flush)) = (flushed.1, flushed.2) := rfl
  obtain ⟨hdone, ⟨new, haccesses, hnew⟩, hleft, hforgotten, hafter⟩ := State.step_flush hp.guest hstep
    (by rw [hext]; exact hs) (hwrites.updating.trans hu) (hstages.context.trans hi) hcut (by rw [hext]; exact hnone)
    (by rw [hext]; exact hdirty) (by rw [hext]; exact hqueue) hsmooth
  rw [hext] at hnew hafter
  have houtput : after.shadow.output = s.extender.shadow.output.setAll targets := by
    show flushed.2.extender.shadow.output = _
    rw [hafter]
  obtain ⟨writes, reads, rfl, hwritten, hread⟩ := List.map_eq_append_iff.1 hnew
  obtain ⟨hsound, htended⟩ := hreach.tended (.inl rfl)
  refine ⟨hreplies, hdone, hstages.accesses, ⟨writes, reads, _, _, ?_, hwritten, Extender.nodup_of_writesAt hwritten, hread,
    fun g => ?_, fun g => ?_⟩, fun pin => ?_, hleft, hforgotten, ?_⟩
  · exact haccesses.trans (congrArg (· ++ _) hstages.accesses)
  · show ((s.extender.shadow.staged ||| s.extender.shadow.output.changed targets) &&& s.extender.claims.groups).getLsbD g = true ↔ _
    rw [BitVec.getLsbD_and, BitVec.getLsbD_or, Bool.and_eq_true, Bool.or_eq_true, PinMap.getLsbD_changed_iff _ hpins, and_comm]
  · show (s.extender.polls &&& s.extender.claims.groups).getLsbD g = true ↔ _
    rw [BitVec.getLsbD_and, Bool.and_eq_true, and_comm]
    exact and_congr_right fun hg => Extender.getLsbD_polls hsound htended (BitVec.lt_of_getLsbD hg)
  · rw [houtput, PinMap.get_setAll_eq_lastLevel _ hpins]
  · rw [houtput]
    exact hafter

/-- A pin that is switched on, off and on again while another one of its chip is staged, and a third one that is active low is off: the
flush writes the output register once, with a one for each of them, and reads the inputs because of a handler. -/
theorem writes_are_sent_by_the_next_flush_of_three :
    let s := State.oneChip [.claim 0, .claim 3, .claim 5, .op (.call (.setup 0 PinAttributes.output)),
      .op (.call (.setup 5 (PinAttributes.output ∪ PinAttributes.activeLow))), .op (.call (.attach 3 ⟨0, 7, .change⟩)),
      .op .update, .op (.call (.write 3 true))]
    let targets : List Target := [⟨0, true, false⟩, ⟨0, false, false⟩, ⟨0, true, false⟩]
    let written := s.play (Session.nestAt 1) (targets.map Target.write)
    let flushed := written.2.step (Session.nestAt 1) (.op (.call .flush))
    s.extender.shadow.staged = 1 ∧ s.extender.shadow.dirty = 0 ∧ (∀ r ∈ written.1, r.reply = .done) ∧ flushed.1 = .done ∧
      written.2.history.accesses = s.history.accesses ∧
      flushed.2.history.accesses = s.history.accesses ++ [.write ⟨0x20, 1⟩ 0x29, .read ⟨0x20, 0⟩] ∧
      (∀ pin, flushed.2.extender.shadow.output.get pin = Target.lastLevel targets pin (s.extender.shadow.output.get pin)) ∧
      flushed.2.extender.queue = [] ∧ flushed.2.extender.backoff.count = 0 := by
  intro s targets written flushed
  obtain ⟨hreplies, hdone, hnone, -, hlast, hqueue, hcount, -⟩ := writes_are_sent_by_the_next_flush s targets 1 (reachable_oneChip _)
    (by decide +kernel) (by decide +kernel) (by decide +kernel) (by decide +kernel) (by decide +kernel) (by decide +kernel)
  exact ⟨by decide +kernel, by decide +kernel, hreplies, hdone, hnone, by decide +kernel, hlast, hqueue, hcount⟩

end PortExpander
