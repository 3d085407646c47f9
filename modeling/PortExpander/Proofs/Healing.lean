import PortExpander.Proofs.Attempts

/-!
# Healing after failures

When a transaction fails, the pass that made it asks for everything again and makes every group dirty, and nothing but a pass
takes such a request away. So the failures that are counted are forgotten only by a pass that has written and read everything
without a failure.
-/

namespace PortExpander

open Sim Engine

/-! ## The debt of a failure -/

/-- Everything is asked for, and every group is dirty. -/
structure Extender.Owes (e : Extender) : Prop where
  config : e.status.contains Status.configDirty = true
  write : e.status.contains Status.writeDirty = true
  read : e.status.contains Status.readDirty = true
  dirty : ∀ g < 8, e.shadow.dirty.getLsbD g = true

/-- What a touch leaves keeps the debt. -/
theorem Extender.Owes.frame {e e' : Extender} (h : e.Owes) (hf : Frame e e') : e'.Owes where
  config := hf.status _ h.config
  write := hf.status _ h.write
  read := hf.status _ h.read
  dirty g hg := hf.dirty g (h.dirty g hg)

/-- Whether an event is the note of a pass that a fault has cut short. -/
def Event.isCut : Event → Bool
  | noted .passCut _ => true
  | _ => false

/-- No pass has been cut short by a fault. -/
def History.Uncut (h : History) : Prop := ∀ ev ∈ h, ev.isCut = false

instance (h : History) : Decidable h.Uncut := inferInstanceAs (Decidable (∀ ev ∈ h, ev.isCut = false))

/-- Unless a pass has been cut short, everything is owed while failures are counted and the extender has not halted. -/
def State.Healing (s : State) : Prop :=
  s.history.Uncut → s.extender.halted = false → 0 < s.extender.backoff.count → s.extender.Owes

theorem History.Uncut.of_append {new h : History} (hu : (new ++ h).Uncut) : h.Uncut :=
  fun ev hm => hu ev (List.mem_append_right _ hm)

/-- A happening takes no cut back. -/
theorem Happening.uncut {s s' : State} (h : Happening s s') (hu : s'.history.Uncut) : s.history.Uncut := by
  obtain ⟨new, hnew, _⟩ := h.adds
  rw [hnew] at hu
  exact hu.of_append

/-- Happenings take no cut back. -/
theorem Goes.uncut {s s' : State} (h : Goes s s') (hu : s'.history.Uncut) : s.history.Uncut := by
  induction h with
  | refl => exact hu
  | tail _ h ih => exact ih (h.uncut hu)

/-- What is asked for is part of the work that a pass takes. -/
theorem Extender.Owes.work {e : Extender} (h : e.Owes) : e.work.contains Status.configDirty = true ∧
    e.work.contains Status.writeDirty = true ∧ e.work.contains Status.readDirty = true := by
  have hp {f : Status} (hs : e.status.contains f = true) (hf : Status.vocabulary.all.contains f = true)
      (hb : Status.busy.bits &&& f.bits = 0) : e.work.contains f = true :=
    FlagSet.contains_union_left _ (Status.contains_pending hs hf hb)
  exact ⟨hp h.config (by decide) (by decide), hp h.write (by decide) (by decide), hp h.read (by decide) (by decide)⟩

/-- A pass in which something has failed asks for everything again. -/
theorem State.owes_completed (s : State) : (s.completed false).extender.Owes where
  config := FlagSet.contains_union_right _ (by decide)
  write := FlagSet.contains_union_right _ (by decide)
  read := FlagSet.contains_union_right _ (by decide)
  dirty _ hg := Byte.getLsbD_255 hg

/-- The debt outlasts the release of the guard. -/
theorem Extender.Owes.release {e : Extender} (h : e.Owes) :
    { e with status := e.status.release, updating := false }.Owes where
  config := Status.contains_release h.config (by decide)
  write := Status.contains_release h.write (by decide)
  read := Status.contains_release h.read (by decide)
  dirty := h.dirty

/-- A debt that a failure has left outlasts everything but a pass without a failure. -/
theorem Happening.healing {s s' : State} (h : Happening s s') (hs : s.Healing) : s'.Healing := by
  intro hu hh hc
  replace hs := hs (h.uncut hu)
  cases h with
  | touch h =>
    have hf := h.frame
    rw [hf.backoff] at hc
    exact (hs (hf.halted.symm.trans hh) hc).frame hf
  | update p _ h =>
    cases h with
    | halted hhalt =>
      cases hhalt.symm.trans hh
    | stops => cases hh
    | idles _ _ hi =>
      have hne := FlagSet.not_isEmpty_of_contains_flag (by decide) (hs hh hc).work.1
      rw [Extender.isEmpty_of_isIdleWith hi] at hne
      cases hne
    | @ran s₀ s₁ clean =>
      cases clean with
      | true => cases hc
      | false => exact s₁.owes_completed.release
  | cut _ h =>
    obtain ⟨s₁, _, _, _, rfl⟩ := h
    cases hu _ List.mem_cons_self
  | began | ended => exact hs hh hc
  | claim | free =>
    have ho := hs hh hc
    exact ⟨ho.config, ho.write, ho.read, ho.dirty⟩

/-! ## Work without a failure -/

/-- The events `new` have led from one state to another one; no transaction among them has failed, none of them is a stage of a
pass, and no failure has been counted or forgotten. -/
structure Clean (s s' : State) (new : History) : Prop where
  history : s'.history = new ++ s.history
  ok : ∀ a r, .transaction a r ∈ new → succeeded r = true
  stages : ∀ n e, .noted n e ∈ new → n.isStage = false
  backoff : s'.extender.backoff = s.extender.backoff
  steady : Steady s.extender s'.extender

namespace Clean

theorem refl (s : State) : Clean s s [] where
  history := rfl
  ok _ _ h := absurd h List.not_mem_nil
  stages _ _ h := absurd h List.not_mem_nil
  backoff := rfl
  steady := .refl _

theorem trans {s s' s'' : State} {new new' : History} (h : Clean s s' new) (h' : Clean s' s'' new') :
    Clean s s'' (new' ++ new) where
  history := by rw [h'.history, h.history, List.append_assoc]
  ok a r hm := (List.mem_append.1 hm).elim (h'.ok a r) (h.ok a r)
  stages n e hm := (List.mem_append.1 hm).elim (h'.stages n e) (h.stages n e)
  backoff := h'.backoff.trans h.backoff
  steady := h.steady.trans h'.steady

/-- The memory has changed, and nothing has been added to the history. -/
theorem silent {s s' : State} (hh : s'.history = s.history) (hb : s'.extender.backoff = s.extender.backoff)
    (hs : Steady s.extender s'.extender) : Clean s s' [] where
  history := hh
  ok _ _ h := absurd h List.not_mem_nil
  stages _ _ h := absurd h List.not_mem_nil
  backoff := hb
  steady := hs

theorem then_silent {s s' s'' : State} {new : History} (h : Clean s s' new) (hh : s''.history = s'.history)
    (hb : s''.extender.backoff = s'.extender.backoff) (hs : Steady s'.extender s''.extender) : Clean s s'' new :=
  h.trans (silent hh hb hs)

/-- One event that is no transaction. -/
theorem event {s s' : State} {ev : Event} (hh : s'.history = ev :: s.history) (ht : ∀ a r, ev ≠ .transaction a r)
    (hn : ∀ n e, ev = .noted n e → n.isStage = false) (hb : s'.extender.backoff = s.extender.backoff)
    (hs : Steady s.extender s'.extender) : Clean s s' [ev] where
  history := hh
  ok a r hm := absurd (List.mem_singleton.1 hm).symm (ht a r)
  stages n e hm := hn n e (List.mem_singleton.1 hm).symm
  backoff := hb
  steady := hs

end Clean

/-- Operations that fall into a pass are clean: they make no transaction. -/
theorem Touched.clean {s s' : State} (h : Touched s s') : ∃ new, Clean s s' new := by
  induction h with
  | refl => exact ⟨[], .refl s⟩
  | tail _ h ih =>
    obtain ⟨new, hc⟩ := ih
    have hf := h.frame
    rcases h.history with he | ⟨ev, he, hev, hn⟩
    · exact ⟨_, hc.trans (.silent he hf.backoff hf.toSteady)⟩
    · refine ⟨_, hc.trans (.event he ?_ (fun n e heq => (hn n e heq).1) hf.backoff hf.toSteady)⟩
      rintro a r rfl
      cases hev

/-- Calling handlers is clean. -/
theorem Calls.clean {s s' : State} (h : Calls s s') : ∃ new, Clean s s' new := by
  induction h with
  | refl => exact ⟨[], .refl s⟩
  | tail _ h ih =>
    obtain ⟨new, hc⟩ := ih
    cases h with
    | touch h =>
      obtain ⟨new', hc'⟩ := Touched.clean (.single h)
      exact ⟨_, hc.trans hc'⟩
    | edge | call =>
      refine ⟨_, hc.trans (.event rfl ?_ ?_ rfl (.refl _))⟩
      · rintro a r ⟨⟩
      · rintro n e ⟨⟩

/-- A transaction that succeeds counts no failure. -/
theorem Transfers.clean {s s' : State} {a : Access} {r : Except BusKind Byte} (h : Transfers s a r s')
    (hr : succeeded r = true) : ∃ new, Clean s s' new := by
  obtain ⟨s₁, ht, hout, rfl⟩ := h
  obtain ⟨new, hc⟩ := ht.touched.clean
  cases r with
  | error => cases hr
  | ok moved =>
    have ha : Clean s₁ (s₁.answered a) [.transaction a (s₁.board.outcome a)] := by
      refine ⟨rfl, fun a' r' hm => ?_, fun n e hm => ?_, rfl, .refl _⟩
      · cases List.mem_singleton.1 hm
        rw [← hout]
        rfl
      · cases List.mem_singleton.1 hm
    exact ⟨_, hc.trans ha⟩

/-- Writing a register without a failure is clean. -/
theorem Writes.clean {reg : Byte} {value : Shadow → Nat → Byte} {groups : List Nat} {s s' : State} {ok : Bool}
    (h : Writes reg value groups s ok s') (hok : ok = true) : ∃ new, Clean s s' new := by
  induction h with
  | nil => exact ⟨[], .refl _⟩
  | cons _ ht _ ih =>
    rw [Bool.and_eq_true] at hok
    obtain ⟨new, hc⟩ := ht.clean hok.1
    obtain ⟨rest, hc'⟩ := ih hok.2
    exact ⟨_, hc.trans hc'⟩

/-- Reading the inputs without a failure is clean. -/
theorem Reads.clean {groups : List Nat} {s s' : State} {result : List Refresh × Bool} (h : Reads groups s result s')
    (hok : result.2 = true) : ∃ new, Clean s s' new := by
  induction h with
  | nil => exact ⟨[], .refl _⟩
  | @cons s s₁ s' group groups place r now refreshes ok hp ht _ _ ih =>
    rw [Bool.and_eq_true] at hok
    obtain ⟨new, hc⟩ := ht.clean hok.1
    obtain ⟨rest, hc'⟩ := ih hok.2
    have hkeep : Clean s (s₁.amend fun e => { e with shadow := e.shadow.setInput group now }) new :=
      hc.then_silent rfl rfl (.update _ _ _ _)
    exact ⟨_, hkeep.trans hc'⟩

/-- Making the plan of a pass is clean. -/
theorem Gathers.clean {pending : Status} {plan : Plan} {s s' : State} (h : Gathers pending s plan s') :
    ∃ new, Clean s s' new := by
  have hs := h.works.steady
  cases h with
  | looked =>
    have hlook : Clean s (s.seeing (.sampled 0 (s.board.lines 0))) [.sampled 0 (s.board.lines 0)] := by
      refine .event rfl ?_ ?_ rfl (.refl _)
      · rintro a r ⟨⟩
      · rintro n e ⟨⟩
    exact ⟨_, hlook.then_silent rfl rfl hs⟩
  | unlooked => exact ⟨[], .refl s⟩
  | drained => exact ⟨[], .silent rfl rfl hs⟩

/-- Writing the polarities without a failure is clean. -/
theorem Inverts.clean {groups : List Nat} {s s' : State} (h : Inverts groups s true s') : ∃ new, Clean s s' new := by
  unfold Inverts at h
  split at h
  · exact h.clean rfl
  · obtain ⟨_, rfl⟩ := h
    exact ⟨[], .refl _⟩

/-- The line's being remembered as high changes nothing of that. -/
theorem Clean.rearmed {s s' : State} {new : History} (h : Clean s s' new) : Clean s s'.rearmed new := by
  refine h.then_silent rfl ?_ s'.works_rearmed.steady
  unfold State.rearmed
  rw [State.extender_amend]
  split <;> rfl

/-- Writing the configuration without a failure is clean. -/
theorem Configures.clean {s s' : State} (h : Configures s true s') : ∃ new, Clean s s' new := by
  obtain ⟨s₁, s₂, inverted, directed, hi, hd, hok, rfl⟩ := h
  have hall := Bool.and_eq_true .. ▸ hok.symm
  obtain ⟨rfl, rfl⟩ := hall
  obtain ⟨new₁, hc₁⟩ := hi.clean
  obtain ⟨new₂, hc₂⟩ := hd.clean rfl
  exact ⟨_, (hc₁.trans hc₂).then_silent rfl rfl (.update _ _ _ _)⟩

/-- Writing the outputs without a failure is clean. -/
theorem Flushes.clean {s s' : State} (h : Flushes s true s') : ∃ new, Clean s s' new := by
  have hclear : Clean s (s.amend fun e => { e with shadow := e.shadow.clearDirty }) [] :=
    .silent rfl rfl (.update _ _ _ _)
  obtain ⟨new, hc⟩ := Writes.clean h rfl
  exact ⟨_, hclear.trans hc⟩

/-- Reading the inputs and calling the handlers without a failure is clean. -/
theorem Refreshes.clean {groups : Byte} {s s' : State} (h : Refreshes groups s true s') : ∃ new, Clean s s' new := by
  obtain ⟨s₁, s₂, refreshes, hr, hturns, rfl⟩ := h
  obtain ⟨new₁, hc₁⟩ := hr.clean rfl
  obtain ⟨new₂, hc₂⟩ := hturns.calls.clean
  exact ⟨_, (hc₁.trans hc₂).rearmed⟩

/-- A phase is clean, whether or not the plan asks for it. -/
theorem Asked.clean {asked : Bool} {phase : State → Bool → State → Prop} {s s' : State} (h : Asked asked phase s true s')
    (hp : phase s true s' → ∃ new, Clean s s' new) : ∃ new, Clean s s' new := by
  unfold Asked at h
  split at h
  · exact hp h
  · rw [h.2]
    exact ⟨[], .refl s⟩

/-- The phases of a pass without a failure. -/
theorem Carries.phases {pending : Status} {s s' : State} (h : Carries pending s true s') :
    ∃ plan s₁ s₂ s₃, Gathers pending s plan s₁ ∧ Asked plan.configure Configures s₁ true s₂ ∧
      Asked plan.write Flushes s₂ true s₃ ∧ Asked (plan.groups != 0) (Refreshes plan.groups) s₃ true s' := by
  obtain ⟨plan, s₁, s₂, s₃, configured, written, read, hg, hc, hw, hr, hok⟩ := h
  cases configured <;> cases written <;> cases read <;> first | exact ⟨plan, s₁, s₂, s₃, hg, hc, hw, hr⟩ | cases hok

/-- A pass without a failure is clean up to its end. -/
theorem Carries.clean {pending : Status} {s s' : State} (h : Carries pending s true s') : ∃ new, Clean s s' new := by
  obtain ⟨plan, s₁, s₂, s₃, hg, hconf, hwrite, hread⟩ := h.phases
  obtain ⟨new₁, hc₁⟩ := hg.clean
  obtain ⟨new₂, hc₂⟩ := hconf.clean fun h => h.clean
  obtain ⟨new₃, hc₃⟩ := hwrite.clean fun h => h.clean
  obtain ⟨new₄, hc₄⟩ := hread.clean fun h => h.clean
  exact ⟨_, ((hc₁.trans hc₂).trans hc₃).trans hc₄⟩

/-! ## What is written and read without a failure -/

/-- A register of a group has been written without a failure. -/
def Extender.Wrote (e : Extender) (body : History) (g : Nat) (reg : Byte) : Prop :=
  ∃ place value moved, e.locate g reg = .ok place ∧ .transaction (.write place value) (.ok moved) ∈ body

/-- The inputs of a group have been read without a failure. -/
def Extender.Read (e : Extender) (body : History) (g : Nat) : Prop :=
  ∃ place moved, e.locate g e.family.inputReg = .ok place ∧ .transaction (.read place) (.ok moved) ∈ body

/-- The registers of a group have been written and its inputs have been read, without a failure. -/
structure Extender.Attempted (e : Extender) (body : History) (g : Nat) : Prop where
  written : ∀ reg ∈ e.family.writtenRegs, e.Wrote body g reg
  read : e.Read body g

/-- Where the registers of a group are depends on the family and the address only. -/
theorem Extender.Attempted.moved {e e' : Extender} {body : History} {g : Nat} (h : e.Attempted body g)
    (hf : e'.family = e.family) (ha : e'.address = e.address) : e'.Attempted body g := by
  have hl (reg : Byte) : e'.locate g reg = e.locate g reg := by rw [locate, locate, hf, ha]
  refine ⟨fun reg hreg => ?_, ?_⟩
  · rw [hf] at hreg
    obtain ⟨place, value, moved, hp, hm⟩ := h.written reg hreg
    exact ⟨place, value, moved, (hl reg).trans hp, hm⟩
  · obtain ⟨place, moved, hp, hm⟩ := h.read
    refine ⟨place, moved, ?_, hm⟩
    rw [hl, hf]
    exact hp

/-- Where no transaction has failed, what has been tried has been done. -/
theorem Extender.Tried.attempted {e : Extender} {body : History} {g : Nat} (h : e.Tried body g)
    (hok : ∀ a r, .transaction a r ∈ body → succeeded r = true) : e.Attempted body g := by
  refine ⟨fun reg hreg => ?_, ?_⟩
  · obtain ⟨place, value, r, hp, hm⟩ := h.written reg hreg
    cases r with
    | ok moved => exact ⟨place, value, moved, hp, hm⟩
    | error => cases hok _ _ hm
  · obtain ⟨place, r, hp, hm⟩ := h.read
    cases r with
    | ok moved => exact ⟨place, moved, hp, hm⟩
    | error => cases hok _ _ hm

/-- A pass that has been asked for everything, and in which nothing fails, writes and reads all that is claimed. -/
theorem Carries.attempted {pending : Status} {s s' : State} (h : Carries pending s true s')
    (hc : pending.contains Status.configDirty = true) :
    ∃ new, Clean s s' new ∧ ∀ g, s.extender.claims.groups.getLsbD g = true → s.extender.Attempted new g := by
  obtain ⟨new, hclean⟩ := h.clean
  obtain ⟨new', hpassage, htried⟩ := h.tried hc
  obtain rfl := State.new_unique hclean.history hpassage.history
  exact ⟨new, hclean, fun g hg => (htried g hg).attempted hclean.ok⟩

/-! ## Forgetting failures -/

/-- How many failures were counted at the latest note or have been recorded since. -/
def History.errors : History → Nat
  | [] => 0
  | .noted _ e :: _ => e.backoff.count
  | .logged (.transactionFailed ..) :: past => errors past + 1
  | _ :: past => errors past

/-- A note ends a pass that has written and read all that is claimed, and no transaction of which has failed. -/
def Note.Heals (n : Note) (e : Extender) (past : History) : Prop :=
  n = .passEnded true ∧ ∃ body pending e₀ before, past = body ++ .noted (.passBegan pending) e₀ :: before ∧
    (∀ n e, .noted n e ∈ body → n.isStage = false) ∧ (∀ a r, .transaction a r ∈ body → succeeded r = true) ∧
    ∀ g, e.claims.groups.getLsbD g = true → e.Attempted body g

/-- Wherever in a history the count of failures falls to zero, unless a pass has been cut short before, there is the end of a
pass that heals. -/
def History.Healed : History → Prop
  | [] => True
  | .noted n e :: past => (Uncut past → e.backoff.count = 0 → 0 < errors past → n.Heals e past) ∧ Healed past
  | _ :: past => Healed past

/-- The record of a failure is work on the chips. -/
theorem Event.isWork_of_isFailure {ev : Event} (h : ev.isFailure = true) : ev.isWork = true := by
  cases ev <;> first | exact h | cases h

/-- The count of failures has not fallen since the latest note, and wherever it has fallen before, that was healing. -/
structure State.Tallied (s : State) : Prop where
  healed : s.history.Healed
  errors : 0 < s.history.errors → 0 < s.extender.backoff.count
  limit : 0 < s.extender.backoff.limit

namespace State.Tallied

variable {s s' : State}

theorem silent (h : s.Tallied) (hh : s'.history = s.history)
    (hc : 0 < s.extender.backoff.count → 0 < s'.extender.backoff.count)
    (hl : s'.extender.backoff.limit = s.extender.backoff.limit) : s'.Tallied where
  healed := hh ▸ h.healed
  errors he := hc (h.errors (hh ▸ he))
  limit := hl ▸ h.limit

/-- One more event, which is no note or one of the memory as it then is. The count does not fall. -/
theorem event (h : s.Tallied) {ev : Event} (hh : s'.history = ev :: s.history) (hn : ∀ n e, ev = .noted n e → e = s'.extender)
    (hf : ev.isFailure = true → 0 < s'.extender.backoff.count)
    (hc : 0 < s.extender.backoff.count → 0 < s'.extender.backoff.count)
    (hl : s'.extender.backoff.limit = s.extender.backoff.limit) : s'.Tallied := by
  refine ⟨?_, ?_, hl ▸ h.limit⟩
  · rw [hh]
    cases ev with
    | noted n e =>
      refine ⟨fun _ hz he => ?_, h.healed⟩
      rw [hn n e rfl] at hz
      have := hc (h.errors he)
      omega
    | _ => exact h.healed
  · rw [hh]
    intro he
    cases ev with
    | noted n e =>
      rw [← hn n e rfl]
      exact he
    | logged r =>
      cases r with
      | transactionFailed => exact hf rfl
      | _ => exact hc (h.errors he)
    | _ => exact hc (h.errors he)

theorem note (h : s.Tallied) {n : Note} (hh : s'.history = .noted n s'.extender :: s.history)
    (hb : s'.extender.backoff = s.extender.backoff) : s'.Tallied := by
  refine h.event hh ?_ nofun (fun hc => hb ▸ hc) (by rw [hb])
  rintro _ _ ⟨⟩
  rfl

/-- A touch keeps the tally. -/
theorem touch (h : s.Tallied) (ht : Touch s s') : s'.Tallied := by
  have hb := ht.frame.backoff
  rcases ht.history with he | ⟨ev, he, hev, hn⟩
  · exact h.silent he (fun hc => hb ▸ hc) (by rw [hb])
  · refine h.event he (fun n e heq => (hn n e heq).2.1) (fun hf => ?_) (fun hc => hb ▸ hc) (by rw [hb])
    rw [Event.isWork_of_isFailure hf] at hev
    cases hev

/-- What happens in a pass keeps the tally. -/
theorem work (h : s.Tallied) (hw : Work s s') : s'.Tallied := by
  cases hw with
  | touch ht => exact h.touch ht
  | answer | look | edge | call => exact h.event rfl (by rintro _ _ ⟨⟩) nofun id rfl
  | record a r =>
    cases r with
    | ok => exact h
    | error =>
      have hpos : 0 < s.extender.backoff.recordFailure.count := by
        have := h.limit
        rw [Backoff.count_recordFailure]
        omega
      exact h.event rfl (by rintro _ _ ⟨⟩) (fun _ => hpos) (fun _ => hpos) rfl
  | keep | mark | clear | level | drain => exact h.silent rfl id rfl

/-- However much happens in a pass keeps the tally. -/
theorem works (h : s.Tallied) (hw : Works s s') : s'.Tallied := by
  induction hw with
  | refl => exact h
  | tail _ hw ih => exact ih.work hw

/-- The guard is taken without a change of the tally. -/
theorem taken (h : s.Tallied) : s.held.taken.Tallied := h.note rfl rfl

/-- A pass begins without a change of the tally. -/
theorem begun (h : s.Tallied) (pending : Status) :
    ((s.held.taken.started pending).noting (.passBegan pending)).Tallied := by
  have hs : (s.held.taken.started pending).Tallied := by
    unfold started
    split
    · exact h.taken.event rfl (by rintro _ _ ⟨⟩) nofun id rfl
    · exact h.taken
  exact hs.note rfl rfl

/-- A pass in which something has failed forgets no failure. -/
theorem completed_false (h : s.Tallied) : (s.completed false).Tallied := by
  have ha : ((s.amend fun e => { e with shadow := e.shadow.markAllDirty }).asking .resync).Tallied := h.note rfl rfl
  exact ha.note rfl rfl

end State.Tallied

/-- A pass that is owed everything and in which nothing fails heals. -/
theorem Carries.heals {s s₀ s₁ : State} (hc : Carries s.extender.work s₀ true s₁)
    (h₀ : s₀ = (s.held.taken.started s.extender.work).noting (.passBegan s.extender.work))
    (ho : 0 < s.extender.backoff.count → s.extender.Owes) (hcount : 0 < s₁.extender.backoff.count) :
    (Note.passEnded true).Heals (s₁.completed true).extender s₁.history := by
  have he : s₀.extender = s.held.taken.extender := by rw [h₀, State.extender_begun]
  have howes : s.extender.Owes := by
    obtain ⟨_, hclean⟩ := hc.clean
    rw [hclean.backoff, he] at hcount
    exact ho hcount
  obtain ⟨body, hclean, hall⟩ := hc.attempted howes.work.1
  have hsteady := hclean.steady
  have hh : s₁.history = body ++ .noted (.passBegan s.extender.work) s₀.extender ::
      (s.held.taken.started s.extender.work).history := by
    rw [hclean.history, h₀]
    rfl
  refine ⟨rfl, body, _, _, _, hh, hclean.stages, hclean.ok, fun g hg => ?_⟩
  have hatt := hall g (by rw [← hsteady.claims]; exact hg)
  exact hatt.moved hsteady.family hsteady.address

/-- Failures are forgotten only where a pass heals. -/
theorem Happening.tallied {s s' : State} (h : Happening s s') (hs : s.Healing) (ht : s.Tallied) : s'.Tallied := by
  cases h with
  | touch h => exact ht.touch h
  | began | ended | claim | free => exact ht.note rfl rfl
  | update p _ h =>
    cases h with
    | halted => exact ht.note rfl rfl
    | stops =>
      have hst : s.held.taken.stopped.Tallied := ht.taken.event rfl (by rintro _ _ ⟨⟩) nofun id rfl
      exact hst.note rfl rfl
    | idles => exact ht.taken.note rfl rfl
    | @ran s₀ s₁ clean hh _ _ h₀ hc hw =>
      have hb := (ht.begun s.extender.work).works (h₀ ▸ hw)
      cases clean with
      | false => exact hb.completed_false.note rfl rfl
      | true =>
        have hend : (s₁.completed true).Tallied := by
          refine ⟨⟨fun hu _ he => ?_, hb.healed⟩, fun he => absurd he (Nat.lt_irrefl 0), hb.limit⟩
          -- no pass has been cut short before this one, so what its failures ask for has been asked for
          have hu₀ : s.history.Uncut := by
            obtain ⟨new, hnew, _⟩ := (Works.keeps_begun (h₀ ▸ hw)).1
            replace hu : s₁.history.Uncut := hu
            rw [hnew] at hu
            exact hu.of_append
          exact hc.heals h₀ (hs hu₀ hh) (hb.errors he)
        exact hend.note rfl rfl
  | cut _ h =>
    obtain ⟨s₁, _, _, hb, rfl⟩ := h
    have hw := hb.works
    exact ((ht.begun s.extender.work).works hw).note rfl rfl

/-- In every state of a session a counted failure leaves a debt, and the count has fallen only where a pass heals. -/
theorem Goes.healing {s₀ s : State} (h : Goes s₀ s) (hm : Made s₀.extender) (h₀ : s₀.history = []) :
    s.Healing ∧ s.Tallied := by
  induction h with
  | refl =>
    obtain ⟨_, _, _, _, _, _, he, _⟩ := hm.fresh
    have hb : s₀.extender.backoff = .new maxErrorCount := by
      rw [he]
      rfl
    refine ⟨fun _ _ hc => ?_, ⟨?_, ?_, ?_⟩⟩
    · rw [hb] at hc
      exact absurd hc (Nat.lt_irrefl 0)
    · rw [h₀]
      exact trivial
    · rw [h₀]
      exact fun h => absurd h (Nat.lt_irrefl 0)
    · rw [hb]
      decide
  | tail _ h ih => exact ⟨h.healing ih.1, h.tallied ih.1 ih.2⟩

/-- What is healed is healed at every moment at which the count falls to zero. -/
theorem History.Healed.at_moment {h later past : History} {n : Note} {e : Extender} (hh : h.Healed)
    (hm : h = later ++ .noted n e :: past) : Uncut past → e.backoff.count = 0 → 0 < errors past → n.Heals e past := by
  subst hm
  induction later with
  | nil => exact hh.1
  | cons ev later ih =>
    cases ev with
    | noted => exact ih hh.2
    | _ => exact ih hh

/-- Failures are healed. In every moment of a session of which no pass has been cut short by a fault: while no pass is at work and
the extender has not halted, a counted failure means that the configuration, the outputs and the inputs are all asked for and
every group is dirty; and the count falls to zero only where a pass ends that has written all registers and read the inputs of
every claimed group, with no failure among its transactions. -/
theorem failures_are_healed :
    ∀ s later n e past, Reachable s → s.history = later ++ .noted n e :: past → History.Uncut (.noted n e :: past) →
      (e.updating = false → e.halted = false → 0 < e.backoff.count → e.Owes) ∧
      (e.backoff.count = 0 → 0 < History.errors past → n.Heals e past) := by
  intro s later n e past hs hm hu
  obtain ⟨e₀, board, hmade, hgo, _⟩ := hs.goes
  refine ⟨fun hup hh hc => ?_, ?_⟩
  · obtain ⟨s', hgo', _, hh', rfl⟩ := hgo.moment rfl hm hup
    exact (hgo'.healing hmade rfl).1 (hh' ▸ hu) hh hc
  · have ht := (hgo.healing hmade rfl).2
    exact ht.healed.at_moment hm fun ev hmem => hu ev (List.mem_cons_of_mem _ hmem)

/-- One write fails: all is owed after its pass, and the pass after that heals. -/
theorem failures_are_healed_of_one_failure :
    let s := State.oneChip [.claim 0, .op (.call (.setup 0 PinAttributes.output)),
      .op (.change (.failNext [some .bus])), .op .update, .op .update]
    (∃ later n e past, s.history = later ++ .noted n e :: past ∧ e.backoff.count = 1 ∧ e.Owes) ∧
    ∃ later n e past, s.history = later ++ .noted n e :: past ∧ 0 < History.errors past ∧ e.backoff.count = 0 ∧
      n.Heals e past := by
  intro s
  have hr : Reachable s := reachable_oneChip _
  constructor
  · obtain ⟨later, n, e, past, hm, hp⟩ := History.moment_of_drop (h := s.history) 10
      (p := fun n e past => !e.updating && !e.halted && e.backoff.count == 1 && decide (History.Uncut (.noted n e :: past)))
      (by decide +kernel)
    simp only [Bool.and_eq_true, Bool.not_eq_true', beq_iff_eq, decide_eq_true_eq] at hp
    obtain ⟨⟨⟨hu, hh⟩, hc⟩, hcut⟩ := hp
    exact ⟨later, n, e, past, hm, hc, (failures_are_healed s later n e past hr hm hcut).1 hu hh (by omega)⟩
  · obtain ⟨later, n, e, past, hm, hp⟩ := History.moment_of_drop (h := s.history) 2
      (p := fun n e past => decide (0 < History.errors past) && e.backoff.count == 0 &&
        decide (History.Uncut (.noted n e :: past))) (by decide +kernel)
    simp only [Bool.and_eq_true, beq_iff_eq, decide_eq_true_eq] at hp
    obtain ⟨⟨he, hc⟩, hcut⟩ := hp
    exact ⟨later, n, e, past, hm, he, hc, (failures_are_healed s later n e past hr hm hcut).2 hc he⟩

end PortExpander
