import PortExpander.Proofs.Coalescing
import PortExpander.Proofs.Inversion
import PortExpander.Proofs.Prompt
import PortExpander.Proofs.Snapshots

/-!
# Fresh and cached readings

A pin whose changes no line reports is read through to its chip: the call asks for the chip, makes a pass and answers with what the
pass has read. A pin that has a line is answered from the memory, and so is every pin in interrupt context, where no pass is made. What
else is asked for, what the pass does besides, and what falls into it makes no difference to the answer.
-/

namespace PortExpander

open Sim Engine

/-! ## Asking for a pin -/

/-- The memory after the chip of a pin has been asked for. -/
def Extender.awaiting (e : Extender) (pin : Nat) : Extender :=
  match e.engine with
  | .generic _ => e.request .readDirty
  | .queued _ => e.interrupted (pin / 8)

/-- The next pass of an extender reads a group, if it has a claimed pin: all inputs are asked for, or the group's chip is in the queue of
those that have interrupted. -/
def Extender.Demands (e : Extender) (g : Nat) : Prop :=
  e.status.contains Status.readDirty = true ∨ (e.status.contains Status.isrPending = true ∧ g ∈ e.queue)

/-- Asking for a pin changes the status word and the queue only, asks for no stop, and makes the next pass read the pin's group. The
generic engine reads all groups. -/
structure Extender.Awaits (e e' : Extender) (g : Nat) : Prop where
  same : e' = { e with status := e'.status, engine := e'.engine }
  stop : e'.status.contains Status.stop = e.status.contains Status.stop
  demands : e'.Demands g
  all : ∀ m, e.engine = .generic m → e'.status.contains Status.readDirty = true

/-- What a reading asks for before its pass is waited for. -/
theorem Extender.awaits_awaiting (e : Extender) {pin : Nat} (hp : ∀ q, e.engine = .queued q → pin / 8 < queuedChips) :
    e.Awaits (e.awaiting pin) (pin / 8) := by
  have hno {a b : Status} (hb : b.contains Status.stop = false) : (a ∪ b).contains Status.stop = a.contains Status.stop :=
    FlagSet.contains_union_other a (by decide) hb
  unfold awaiting
  split
  · have hread : (e.request .readDirty).status.contains Status.readDirty = true :=
      FlagSet.contains_union_right _ (FlagSet.contains_refl _)
    exact ⟨rfl, hno (by decide), .inl hread, fun _ _ => hread⟩
  · rename_i q he
    have hall (m : Sampler) : e.engine ≠ .generic m := fun h => by cases he.symm.trans h
    by_cases hroom : q.queue.length < queueDepth
    · refine ⟨?_, ?_, .inr ⟨interrupted_isrPending e _, mem_queue_interrupted he (hp q he) hroom⟩,
        fun m hm => absurd hm (hall m)⟩ <;>
        simp only [interrupted, he, dif_pos (ChipQueue.Admits.mk (hp q he) hroom)]
      · rfl
      · exact hno (by decide)
    · have hfull : ¬q.Admits (pin / 8) := fun h => hroom h.room
      refine ⟨?_, ?_, .inl (interrupted_readDirty he (.inr (by omega))), fun m hm => absurd hm (hall m)⟩ <;>
        simp only [interrupted, he, dif_neg hfull]
      · rfl
      · exact (hno (by decide)).trans (hno (by decide))

namespace Client

variable {nest : Nest} {s : State} {pin : Nat}

/-- To ask for an input is prompt, and makes of the memory what the reading waits for. -/
theorem gives_requestInput (pin : Nat) (s : State) : (requestInput pin).Gives s
    (fun _ s' => Prompt s s' ∧ s'.extender = s.extender.awaiting pin) (fun _ => False) := by
  have hprompt := promptly_requestInput pin s
  have hmemory : (requestInput pin).Gives s (fun _ s' => s'.extender = s.extender.awaiting pin) (fun _ => False) := by
    unfold requestInput Extender.awaiting
    rw [gives_bind, gives_extender]
    cases s.extender.engine with
    | generic m =>
      simp only [gives_bind, gives_request, gives_notify]
      rfl
    | queued q => exact (gives_interrupt _ s).mono (fun _ _ h => h.2.1) fun _ h => h
  unfold Gives at *
  revert hprompt hmemory
  rcases requestInput pin s with ⟨_ | _, s'⟩
  · exact fun h _ => h
  · exact fun h h' => ⟨h.1, h'⟩

variable (hs : s.extender.isStopped = false) (hp : pin < s.extender.claims.capacity)

include hs hp

/-- A call that is not refused answers with the pin's input after the chip has been read, if it is to be read. -/
theorem gives_read_of_running {Q : Bool → State → Prop} {X : State → Prop}
    (h : (refresh nest pin).Gives s (fun _ s' => Q (s'.extender.shadow.input.get pin) s') X) :
    (read nest pin).Gives s Q (fun _ _ => False) X := by
  rw [read_eq, Attempt.gives_bind, gives_ensureRunning, if_neg (Bool.eq_false_iff.1 hs)]
  simp only [Attempt.gives_bind, Attempt.gives_liftM, Attempt.gives_ofExcept, gives_extender, Attempt.gives_pure]
  refine ⟨fun _ _ => h, fun _ hc => ?_⟩
  rw [Claims.checkRange, if_pos hp] at hc
  cases hc

/-- A pin that has a line, and every pin in interrupt context, reads as it is in the memory. -/
theorem gives_read_of_cached (hc : s.extender.engine.Reports pin ∨ s.board.interruptContext = true) :
    (read nest pin).Gives s (fun v s' => v = s.extender.shadow.input.get pin ∧ Prompt s s') (fun _ _ => False)
      (fun _ => False) := by
  refine gives_read_of_running hs hp ?_
  have hkeep {s' : State} (h : Prompt s s') : s'.extender.shadow.input.get pin = s.extender.shadow.input.get pin ∧ Prompt s s' :=
    ⟨by rw [h.input], h⟩
  rcases hc with hc | hc
  · unfold refresh
    rw [gives_bind, gives_extender, if_neg (Bool.eq_false_iff.1 (Extender.readsThrough_eq_false_iff.2 hc))]
    exact hkeep (.refl s)
  · exact (promptly_refresh hc pin).mono (fun _ _ h => hkeep h.1) fun _ h => h

/-- A pin that has no line reads as it is in the memory after the next update. -/
theorem gives_read_of_through (hn : Guest nest) (hu : s.extender.updating = false) (hi : s.board.interruptContext = false)
    (hr : ¬s.extender.engine.Reports pin) :
    (read nest pin).Gives s (fun v s' => v = s'.extender.shadow.input.get pin ∧
      ∃ s₁ p, Prompt s s₁ ∧ s₁.extender = s.extender.awaiting pin ∧ Updates s₁ p s') (fun _ _ => False) (fun _ => True) := by
  refine gives_read_of_running hs hp ?_
  unfold refresh
  rw [gives_bind, gives_extender, if_pos (Extender.readsThrough_iff.2 hr), gives_bind]
  refine (gives_requestInput pin s).mono (fun _ s₁ h₁ => ?_) fun _ h => h.elim
  obtain ⟨hprompt, hmemory⟩ := h₁
  have hu₁ : s₁.extender.updating = false := by
    rw [hmemory, Extender.awaiting]
    split
    · exact hu
    · unfold Extender.interrupted
      split
      · exact hu
      · split <;> exact hu
  unfold syncPass
  rw [gives_bind, gives_board, if_neg (by rw [hprompt.board, hi]; decide), gives_bind]
  refine (gives_update_of_free hn hu₁).mono (fun p s' h => ?_) fun _ _ => trivial
  split
  · rename_i hcontended
    subst hcontended
    cases h
  · exact ⟨rfl, s₁, p, hprompt, hmemory, h⟩

end Client

/-! ## The pass that is made for a pin -/

namespace Extender.Awaits

variable {e e' : Extender} {g : Nat} (h : e.Awaits e' g) (hs : e.isStopped = false)

include h

/-- What is waited for is work: all inputs are asked for, or the group is in the queue. -/
theorem work_demands : e'.work.contains Status.readDirty = true ∨ g ∈ e'.queue :=
  h.demands.imp (work_contains (by decide)) And.right

/-- There is something to do. -/
theorem not_idle : e'.isIdleWith e'.work = false := by
  rcases h.demands with hread | ⟨hpending, -⟩
  · exact isIdleWith_of_contains (i := 3) (by decide) (work_contains (by decide) hread)
  · exact isIdleWith_of_contains (i := 5) (by decide) (work_contains (by decide) hpending)

include hs

/-- The extender that is waited for still runs. -/
theorem running : e'.halted = false ∧ e'.work.contains Status.stop = false := by
  have hrunning : ¬(e.halted = true ∨ e.status.contains Status.stop = true) := fun hor => by
    rw [isStopped_iff.2 hor] at hs
    cases hs
  obtain ⟨hhalted, hstop⟩ := not_or.1 hrunning
  refine ⟨by rw [h.same]; exact Bool.eq_false_iff.2 hhalted, ?_⟩
  exact (contains_work (by decide) (by decide) (by decide)).trans (h.stop.trans (Bool.eq_false_iff.2 hstop))

end Extender.Awaits

/-- A pass that is asked for the inputs of a group plans to read it. -/
theorem Gathers.getLsbD_groups {pending : Status} {plan : Plan} {s s' : State} (h : Gathers pending s plan s') {g : Nat} (hg : g < 8)
    (hd : pending.contains Status.readDirty = true ∨ g ∈ s.extender.queue) : plan.groups.getLsbD g = true := by
  have hgeneric {m : Sampler} (he : s.extender.engine = .generic m) : pending.contains Status.readDirty = true := by
    refine hd.resolve_right fun hq => ?_
    rw [Extender.queue, he] at hq
    cases hq
  cases h with
  | looked he =>
    refine (Plan.getLsbD_groups hg).2 (.inr (.inl ?_))
    split
    · exact FlagSet.contains_union_left _ (hgeneric he)
    · exact hgeneric he
  | unlooked he => exact (Plan.getLsbD_groups hg).2 (.inr (.inl (hgeneric he)))
  | @drained q he =>
    refine (Plan.getLsbD_groups hg).2 (.inr (hd.imp id fun hq => ?_))
    rw [Extender.queue, he] at hq
    rw [getLsbD_foldl_queue _ _ _ hg, decide_eq_true hq, Bool.or_true]

namespace History

/-- The one read of a place among some events: what came after it and before it, the latest first, and what it has come to. -/
structure OneRead (h newer older : History) (place : Place) (r : Except BusKind Byte) : Prop where
  split : h = newer ++ .transaction (.read place) r :: older
  newer : place ∉ newer.reads
  older : place ∉ older.reads

section

variable {h : History} (later earlier : History) (hl : later.reads = []) (he : earlier.reads = [])

include hl he

/-- What comes before and after reads nothing. -/
theorem reads_around : (later ++ h ++ earlier).reads = h.reads := by
  rw [reads_append, reads_append, hl, he, List.append_nil, List.nil_append]

/-- Events that are no reads may come before and after. -/
theorem OneRead.around {newer older : History} {place : Place} {r : Except BusKind Byte} (hr : h.OneRead newer older place r) :
    (later ++ h ++ earlier).OneRead (later ++ newer) (older ++ earlier) place r where
  split := by simp [hr.split]
  newer := by rw [reads_append, hl, List.nil_append]; exact hr.newer
  older := by rw [reads_append, he, List.append_nil]; exact hr.older

end

/-- Where a place is read once, there is one event that reads it. -/
theorem exists_oneRead {h : History} {place : Place} (hc : h.reads.count place = 1) : ∃ newer older r, h.OneRead newer older place r := by
  have hm : place ∈ h.reads := List.count_pos_iff.1 (by omega)
  obtain ⟨ev, hev, hread⟩ := List.mem_filterMap.1 hm
  obtain ⟨newer, older, rfl⟩ := List.append_of_mem hev
  have hevent : ∃ r, ev = .transaction (.read place) r := by
    cases ev with
    | transaction a r =>
      cases a with
      | read => cases hread; exact ⟨r, rfl⟩
      | write => cases hread
    | _ => cases hread
  obtain ⟨r, rfl⟩ := hevent
  have hone : History.reads [.transaction (.read place) r] = [place] := rfl
  rw [← List.singleton_append, reads_append, reads_append, hone, List.count_append, List.count_append,
    List.count_singleton_self] at hc
  refine ⟨newer, older, r, rfl, ?_, ?_⟩ <;> rw [← List.count_eq_zero] <;> omega

end History

/-- A pass that is asked for the inputs of a group with a claimed pin reads the group once, and that read makes the inputs of the group
what they are at the end of the pass. If all inputs are asked for, every group with a claimed pin is read once. -/
theorem Carries.read_of_demand {pending : Status} {s s' : State} {clean : Bool} (h : Carries pending s clean s')
    (hs : s.history.latest? = some s.extender) {g : Nat} (hg : s.extender.claims.groups.getLsbD g = true)
    (hd : pending.contains Status.readDirty = true ∨ g ∈ s.extender.queue) :
    ∃ new newer older place r, s'.history = new ++ s.history ∧ s.extender.inputPlace g = some place ∧
      new.OneRead newer older place r ∧
      (pending.contains Status.readDirty = true → ∀ g', s.extender.claims.groups.getLsbD g' = true → s.extender.ReadsOnce new g') ∧
      s'.extender.shadow.input.byte g = inputAfter { s.extender with shadow := ((History.latest? older).getD s.extender).shadow } g
        (s.extender.shadow.input.byte g) r := by
  obtain ⟨rest, done, hdone⟩ := h.dispatching hs
  obtain ⟨plan, s₁, new, hgather, hpart, -, -, hreads⟩ := h.passPart
  obtain ⟨looked, hlooked, -, hquiet, -⟩ := hgather.history
  have hhistory : s'.history = (rest ++ done) ++ s.history := by rw [hdone.history, List.append_assoc]
  have hall : new ++ looked = rest ++ done :=
    State.new_unique (by rw [hpart.history, hlooked, List.append_assoc]) hhistory
  have hnew : new.reads = (rest ++ done).reads := by
    rw [← hall, History.reads_append, hquiet, List.append_nil]
  have honce {g : Nat} (hg : s.extender.claims.groups.getLsbD g = true)
      (hd : pending.contains Status.readDirty = true ∨ g ∈ s.extender.queue) : s.extender.ReadsOnce (rest ++ done) g := by
    obtain ⟨place, hplace, hcount⟩ := Extender.readsOnce hreads hg (hgather.getLsbD_groups (BitVec.lt_of_getLsbD hg) hd)
    exact ⟨place, hplace, hnew ▸ hcount⟩
  obtain ⟨place, hplace, hcount⟩ := honce hg hd
  rw [History.reads_append, hdone.reads, List.nil_append] at hcount
  obtain ⟨newer, older, r, hread⟩ := History.exists_oneRead hcount
  have haround := hread.around rest [] hdone.reads rfl
  rw [List.append_nil, List.append_nil] at haround
  refine ⟨rest ++ done, rest ++ newer, older, place, r, hhistory, hplace, haround, fun hasked g' hg' => honce hg' (.inl hasked), ?_⟩
  rw [hdone.input, hread.split]
  exact Extender.byte_replayed_of_read (BitVec.lt_of_getLsbD hg) hplace hread.newer hread.older

/-! ## Setups in the middle of a pass -/

/-- No setup of a pin has begun in a part of a history. -/
def History.Unset (h : History) (pin : Nat) : Prop := ∀ attrs e, .noted (.opBegan (.call (.setup pin attrs))) e ∉ h

/-- The latest operation that has begun in a history is no setup of a pin. -/
def History.Clear (h : History) (pin : Nat) : Prop := ∀ attrs e, h.begun? ≠ some (.call (.setup pin attrs), e)

/-- Operations that fall into a pass begin with a note, and with no other than that one. -/
theorem Work.begun? {s s' : State} (h : Work s s') :
    s'.history.begun? = s.history.begun? ∨ ∃ o, s'.history = .noted (.opBegan o) s.extender :: s.history := by
  cases h with
  | touch h =>
    cases h with
    | see ev hq => cases ev <;> first | exact .inl rfl | cases hq
    | note n hn =>
      cases n with
      | opBegan o => exact .inr ⟨o, rfl⟩
      | backsOff | waits => exact .inl rfl
      | _ => cases hn
    | _ => exact .inl rfl
  | record a r => cases r <;> exact .inl rfl
  | _ => exact .inl rfl

/-- Nothing but a setup of a pin changes whether the pin is inverted. -/
theorem Work.invert {s s' : State} (h : Work s s') {pin : Nat} (hc : s.history.Clear pin) :
    s'.extender.shadow.invert.get pin = s.extender.shadow.invert.get pin := by
  cases h with
  | touch h =>
    cases h with
    | setUp pin' attrs _ _ hb =>
      have hne : pin ≠ pin' := fun heq => hc attrs _ (heq ▸ hb)
      show (s.extender.shadow.setup pin' attrs).invert.get pin = _
      rw [Shadow.invert_setup, PinMap.get_set_of_ne _ hne]
    | attach | detach =>
      rw [State.extender_amend, Extender.shadow_repolled]
    | _ => rfl
  | record a r => cases r <;> rfl
  | _ => rfl

theorem History.Unset.of_cons {ev : Event} {h : History} {pin : Nat} (hu : History.Unset (ev :: h) pin) : h.Unset pin :=
  fun attrs e hm => hu attrs e (List.mem_cons_of_mem ev hm)

/-- As long as no setup of a pin begins, all notes of a pass agree on whether the pin is inverted. -/
theorem Works.invert {s s' : State} (h : Works s s') {pin : Nat} (hc : s.history.Clear pin) :
    ∃ new : History, s'.history = new ++ s.history ∧
      (new.Unset pin → s'.history.Clear pin ∧ s'.extender.shadow.invert.get pin = s.extender.shadow.invert.get pin) ∧
      ∀ newer older, new = newer ++ older → History.Unset older pin →
        ((History.latest? older).getD s.extender).shadow.invert.get pin = s.extender.shadow.invert.get pin := by
  induction h with
  | refl =>
    refine ⟨[], rfl, fun _ => ⟨hc, rfl⟩, fun newer older heq _ => ?_⟩
    obtain ⟨-, rfl⟩ := List.append_eq_nil_iff.1 heq.symm
    rfl
  | @tail s₁ s₂ _ h ih =>
    obtain ⟨new, hnew, hkeeps, htold⟩ := ih
    rcases h.history with hh | ⟨ev, hh, hn⟩
    · refine ⟨new, hh.trans hnew, fun hu => ?_, htold⟩
      obtain ⟨hclear, hinvert⟩ := hkeeps hu
      exact ⟨hh ▸ hclear, (h.invert hclear).trans hinvert⟩
    -- only the beginning of a setup of the pin could change its inversion
    · have hkeeps' (hu : History.Unset (ev :: new) pin) :
          s₂.history.Clear pin ∧ s₂.extender.shadow.invert.get pin = s.extender.shadow.invert.get pin := by
        obtain ⟨hclear, hinvert⟩ := hkeeps hu.of_cons
        refine ⟨fun attrs e hb => ?_, (h.invert hclear).trans hinvert⟩
        rcases h.begun? with hsame | ⟨o, ho⟩
        · exact hclear attrs e (hsame ▸ hb)
        · rw [ho] at hb
          obtain ⟨rfl, -⟩ := Prod.mk.inj (Option.some.inj hb)
          obtain ⟨rfl, -⟩ := List.cons.inj (hh.symm.trans ho)
          exact hu attrs _ List.mem_cons_self
      refine ⟨ev :: new, by rw [hh, hnew, List.cons_append], hkeeps', fun newer older heq hu => ?_⟩
      cases newer with
      | nil =>
        rw [List.nil_append] at heq
        subst heq
        cases ev with
        | noted n e =>
          obtain ⟨-, rfl, -⟩ := hn n e rfl
          exact (hkeeps' hu).2
        | _ => exact htold [] new rfl hu.of_cons
      | cons ev' newer => exact htold newer older (List.cons.inj heq).2 hu

/-- Notes of the worker and of passes are no beginnings of operations. -/
def Event.begins : Event → Bool
  | noted (.opBegan _) _ | noted (.stepBegan _) _ => true
  | _ => false

theorem History.begun?_append {new : History} (h : ∀ ev ∈ new, ev.begins = false) (past : History) :
    begun? (new ++ past) = past.begun? := by
  induction new with
  | nil => rfl
  | cons ev new ih =>
    have hev := h ev List.mem_cons_self
    rw [List.cons_append, ← ih fun ev' hm => h ev' (List.mem_cons_of_mem ev hm)]
    cases ev with
    | noted n e => cases n <;> first | rfl | cases hev
    | _ => rfl

/-- Prompt events begin no operation and are no transactions. -/
theorem Event.of_isPrompt {ev : Event} (h : ev.isPrompt = true) : ev.begins = false ∧ ∀ a r, ev ≠ .transaction a r := by
  cases ev with
  | noted n => cases n <;> first | exact ⟨rfl, nofun⟩ | cases h
  | transaction | sampled | called => cases h
  | _ => exact ⟨rfl, nofun⟩

/-- Nothing is read by prompt events. -/
theorem History.reads_of_prompt {h : History} (hq : ∀ ev ∈ h, ev.isPrompt = true) : h.reads = [] :=
  List.filterMap_eq_nil_iff.2 fun ev hm => by
    cases ev with
    | transaction a r => exact absurd rfl ((Event.of_isPrompt (hq _ hm)).2 a r)
    | _ => rfl

/-! ## Updates that are asked for a group -/

/-- Before its pass begins an update reads nothing, and no operation begins; the latest note is of the memory in which it begins. -/
theorem State.exists_opened (s : State) : let t := (s.held.taken.started s.extender.work).noting (.passBegan s.extender.work)
    ∃ opened : History, t.history = opened ++ s.history ∧ opened.reads = [] ∧ (∀ ev ∈ opened, ev.begins = false) ∧
      opened.latest? = some t.extender := by
  intro t
  let took : Event := .noted (.took s.extender.status.pending) s.held.taken.extender
  let began : Event := .noted (.passBegan s.extender.work) t.extender
  rcases s.held.taken.history_started s.extender.work with hh | ⟨r, hh⟩
  · exact ⟨[began, took], congrArg (began :: ·) hh, rfl, by simp [began, took, Event.begins], rfl⟩
  · exact ⟨[began, .logged r, took], congrArg (began :: ·) hh, rfl, by simp [began, took, Event.begins], rfl⟩

/-- After the work of its pass an update reads nothing. -/
theorem State.exists_ended (s : State) (clean : Bool) : ∃ ended : History,
    ((letGo (s.completed clean).released).noting (.updated .ran)).history = ended ++ s.history ∧ ended.reads = [] := by
  cases clean with
  | true => exact ⟨[_, _], rfl, rfl⟩
  | false => exact ⟨[_, _, _], rfl, rfl⟩

/-- An update that is asked for the inputs of a group with a claimed pin, and does not find the extender stopped, makes a pass that reads
the group once, and that read makes the inputs of the group what they are when the update is over. -/
theorem Updates.read_of_demand {s s' : State} {p : Pass} (h : Updates s p s') (hh : s.extender.halted = false)
    (hs : s.extender.work.contains Status.stop = false) (hi : s.extender.isIdleWith s.extender.work = false) {g : Nat}
    (hg : s.extender.claims.groups.getLsbD g = true)
    (hd : s.extender.work.contains Status.readDirty = true ∨ g ∈ s.extender.queue) :
    ∃ new newer older place r told, s'.history = new ++ s.history ∧ s.extender.inputPlace g = some place ∧
      new.OneRead newer older place r ∧
      (s.extender.work.contains Status.readDirty = true → ∀ g', s.extender.claims.groups.getLsbD g' = true →
        s.extender.ReadsOnce new g') ∧
      older.latest? = some told ∧
      s'.extender.shadow.input.byte g = inputAfter { s.extender with shadow := told.shadow } g (s.extender.shadow.input.byte g) r ∧
      ∀ pin, s.history.Clear pin → older.Unset pin → told.shadow.invert.get pin = s.extender.shadow.invert.get pin := by
  cases h with
  | halted hhalted => cases hh.symm.trans hhalted
  | stops _ hstop => cases hs.symm.trans hstop
  | idles _ _ hidle => cases hi.symm.trans hidle
  | @ran t t' clean _ _ _ ht hc hw =>
    have hbefore : t.extender = s.held.taken.extender := by rw [ht, State.extender_begun]
    obtain ⟨opened, hpast, hopened, hbegins, hlatest⟩ := s.exists_opened
    rw [← ht] at hpast hlatest
    obtain ⟨new, newer, older, place, r, hdone, hplace, hread, hall, hinput⟩ :=
      hc.read_of_demand (by rw [hpast, History.latest?_append, hlatest]; rfl) (by rw [hbefore]; exact hg) (by rw [hbefore]; exact hd)
    obtain ⟨ended, hlast, hended⟩ := t'.exists_ended clean
    -- taking the work and letting go of the guard are no matter of the chips
    have hplaces : t.extender.inputPlace = s.extender.inputPlace := by
      rw [hbefore]
      rfl
    have hafter : (letGo (t'.completed clean).released).extender.shadow.input = t'.extender.shadow.input := by
      cases clean <;> rfl
    refine ⟨ended ++ new ++ opened, ended ++ newer, older ++ opened, place, r, (History.latest? older).getD t.extender, ?_,
      hplaces ▸ hplace, hread.around ended opened hended hopened, fun hasked g' hg' => ?_, ?_, ?_, fun pin hclear hunset => ?_⟩
    · rw [hlast, hdone, hpast]
      simp
    · obtain ⟨place', hplace', hcount⟩ := hall hasked g' (by rw [hbefore]; exact hg')
      exact ⟨place', hplaces ▸ hplace', by rwa [History.reads_around ended opened hended hopened]⟩
    · rw [History.latest?_append, hlatest]
      cases History.latest? older <;> rfl
    · show (letGo (t'.completed clean).released).extender.shadow.input.byte g = _
      rw [hafter, hinput, hbefore]
      exact inputAfter_eq (e := { s.extender with shadow := _ }) rfl rfl g _ r
    · have hclear' : t.history.Clear pin := fun attrs e h =>
        hclear attrs e (by rwa [hpast, History.begun?_append hbegins] at h)
      obtain ⟨worked, hworked, -, htold⟩ := hw.invert hclear'
      have hsplit : worked = (newer ++ [.transaction (.read place) r]) ++ older := by
        rw [State.new_unique hworked hdone, hread.split]
        simp
      rw [htold _ older hsplit fun attrs e hm => hunset attrs e (List.mem_append_left _ hm), hbefore]
      rfl

/-! ## Reading a pin -/

/-- What a read of a pin's group makes of the pin: the level that the chip has sent, inverted if the pin is active low in the memory
`told` and the chip does not invert it, or, if the read has failed, the level from before the read, when the memory was `e`. -/
def Extender.reading (e told : Extender) (pin : Nat) : Except BusKind Byte → Bool
  | .ok content => content.getLsbD (pin % 8) ^^ (e.family.polarityReg.isNone && told.shadow.invert.get pin)
  | .error _ => e.shadow.input.get pin

/-- The bit of a pin's input after the answer of a read. -/
theorem Extender.getLsbD_inputAfter (e told : Extender) (pin : Nat) (r : Except BusKind Byte) :
    (inputAfter { e with shadow := told.shadow } (pin / 8) (e.shadow.input.byte (pin / 8)) r).getLsbD (pin % 8) =
      e.reading told pin r := by
  rw [Engine.getLsbD_inputAfter _ _ _ _ (Nat.mod_lt _ (by decide)), Nat.div_add_mod]
  cases r with
  | error => exact (PinMap.get_eq_getLsbD_byte _ _).symm
  | ok content => rfl

/-- A step that reads a pin and is not refused answers with what the call gives, unless a fault ends it. -/
theorem State.step_read {nest : Nest} {s : State} {pin : Nat} {Q : Bool → State → Prop} {X : State → Prop}
    (h : (Client.read nest pin).Gives (s.noting (.stepBegan (.op (.call (.read pin))))) Q (fun _ _ => False) X) :
    (∃ v s', (s.step nest (.op (.call (.read pin)))).1 = .bit v ∧ Q v s' ∧
      ∃ n e, (s.step nest (.op (.call (.read pin)))).2.history = .noted n e :: s'.history) ∨
    ∃ f s', (s.step nest (.op (.call (.read pin)))).1 = .fault f ∧ X s' := by
  have hgives : (Step.perform nest (.op (.call (.read pin)))).Gives (s.noting (.stepBegan (.op (.call (.read pin)))))
      (fun r s' => ∃ v, r = .bit v ∧ Q v s') X := by
    refine Session.gives_answering.2 (Attempt.gives_bind.2 ?_)
    exact h.mono (fun v _ h => ⟨v, rfl, h⟩) (fun _ _ h => h.elim) fun _ h => h
  rcases State.step_of_gives hgives with ⟨_, s', hstep, v, rfl, hq⟩ | ⟨f, s', hstep, hx⟩
  · rw [hstep]
    exact .inl ⟨v, s', rfl, hq, _, _, rfl⟩
  · rw [hstep]
    exact .inr ⟨f, s', rfl, hx⟩

/-- Readings are fresh or cached. Take a pin of an extender that is not stopped, and a call that reads it. If the pin has a line, or in
interrupt context, the call makes no transaction and answers with the input in the memory. If no line reports the pin's changes, it is not
interrupt context, the pin's group has a claimed pin, and no fault ends the call, then the call reads the register of the group exactly
once; the generic engine reads the registers of all groups with claimed pins once. The answer is what that read makes of the pin: the
level that the chip has sent, with the inversion applied that the latest note before the read tells if the family has no polarity
registers, and the input from before the call if the read has failed. The inversion is that from before the call unless a setup of the
pin has begun before the read. Whatever else is pending, fails or falls into the call makes no difference. -/
theorem readings_are_fresh_or_cached {s : State} (hs : Reachable s) (depth : Nat) {pin : Nat}
    (hp : pin < s.extender.claims.capacity) (hrunning : s.extender.isStopped = false) :
    let t := s.step (Session.nestAt depth) (.op (.call (.read pin)))
    (s.extender.engine.Reports pin ∨ s.board.interruptContext = true →
      t.1 = .bit (s.extender.shadow.input.get pin) ∧ ∃ new, t.2.history = new ++ s.history ∧ ∀ a r, .transaction a r ∉ new) ∧
    (¬s.extender.engine.Reports pin → s.board.interruptContext = false →
      s.extender.claims.groups.getLsbD (pin / 8) = true → (∀ f, t.1 ≠ .fault f) →
      ∃ (newer older : History) (place : Place) (r : Except BusKind Byte) (told : Extender),
        t.2.history = (newer ++ .transaction (.read place) r :: older) ++ s.history ∧
        s.extender.inputPlace (pin / 8) = some place ∧ place ∉ newer.reads ∧ place ∉ older.reads ∧
        (∀ m, s.extender.engine = .generic m → ∀ g, s.extender.claims.groups.getLsbD g = true →
          s.extender.ReadsOnce (newer ++ .transaction (.read place) r :: older) g) ∧
        older.latest? = some told ∧ t.1 = .bit (s.extender.reading told pin r) ∧
        (older.Unset pin → told.shadow.invert.get pin = s.extender.shadow.invert.get pin)) := by
  obtain ⟨e₀, board, hmade, hgo, hu⟩ := hs.goes
  intro t
  generalize hs₀ : s.noting (.stepBegan (.op (.call (.read pin)))) = s₀
  have hmemory : s₀.extender = s.extender := hs₀ ▸ rfl
  have hpast : s₀.history = [.noted (.stepBegan (.op (.call (.read pin)))) s.extender] ++ s.history := hs₀ ▸ rfl
  have hboard : s₀.board = s.board := hs₀ ▸ rfl
  rw [← hmemory] at hp hrunning hu
  rw [← hmemory, ← hboard]
  constructor
  · intro hcached
    have hread : (Client.read (Session.nestAt depth) pin).Gives _ _ _ _ := Client.gives_read_of_cached hrunning hp hcached
    rcases State.step_read (hs₀ ▸ hread) with ⟨v, s', hreply, ⟨rfl, hprompt⟩, n, e, hhistory⟩ | ⟨_, _, _, hno⟩
    · obtain ⟨new, hnew, hquiet, -⟩ := hprompt.events
      refine ⟨hreply.trans (by rw [hs₀]), .noted n e :: (new ++ [.noted (.stepBegan (.op (.call (.read pin)))) s.extender]), ?_,
        fun a r hm => ?_⟩
      · rw [hhistory, hnew, hs₀, hpast]
        simp
      · simp only [List.mem_cons, List.mem_append, List.not_mem_nil, or_false, reduceCtorEq, false_or] at hm
        exact (Event.of_isPrompt (hquiet _ hm)).2 a r rfl
    · exact hno.elim
  · intro hthrough hcontext hclaimed hfault
    have hread := Client.gives_read_of_through hrunning hp (Session.plays_nestAt depth).guest hu hcontext hthrough
    rcases State.step_read (hs₀ ▸ hread) with ⟨v, s', hreply, ⟨rfl, s₁, p, hstart⟩, n, e, hhistory⟩ | ⟨f, _, hreply, _⟩
    · rw [hs₀] at hstart
      obtain ⟨hprompt, hasked, hupdates⟩ := hstart
      have hchip : ∀ q, s₀.extender.engine = .queued q → pin / 8 < queuedChips := fun q hq => by
        have hcapacity := hs.capacity (.inl rfl)
        rw [← hmemory, hq] at hcapacity
        rw [hcapacity] at hp
        exact Nat.div_lt_of_lt_mul hp
      have hawaits := s₀.extender.awaits_awaiting hchip
      rw [← hasked] at hawaits
      obtain ⟨hhalted, hstop⟩ := hawaits.running hrunning
      obtain ⟨new, newer, older, place, r, told, hpass, hplace, hone, hall, htold, hinput, hinvert⟩ :=
        hupdates.read_of_demand hhalted hstop hawaits.not_idle (by rw [hawaits.same]; exact hclaimed) hawaits.work_demands
      obtain ⟨asked, hasks, hquiet, -⟩ := hprompt.events
      have hplaces : s₁.extender.inputPlace = s₀.extender.inputPlace := by
        rw [hawaits.same]
        rfl
      -- before the pass the call has only been announced and asked for the pin
      let opened : History := asked ++ [.noted (.stepBegan (.op (.call (.read pin)))) s.extender]
      have hopened : s₁.history = opened ++ s.history := by
        rw [hasks, hpast, List.append_assoc]
      have hunread : opened.reads = [] := by
        rw [History.reads_append, History.reads_of_prompt hquiet]
        rfl
      have hclear : s₁.history.Clear pin := fun attrs e hb => by
        rw [hasks, History.begun?_append (fun ev hm => (Event.of_isPrompt (hquiet ev hm)).1), hpast] at hb
        cases hb
      have haround := hone.around [.noted n e] opened rfl hunread
      refine ⟨[.noted n e] ++ newer, older ++ opened, place, r, told, ?_, hplaces ▸ hplace, haround.newer, haround.older,
        fun m hm g hg => ?_, ?_, ?_, fun hunset => ?_⟩
      · rw [hhistory, hpass, hopened, ← haround.split]
        simp
      · have hgroups : s₁.extender.claims.groups.getLsbD g = true := by rwa [hawaits.same]
        obtain ⟨place', hplace', hcount⟩ := hall (Extender.work_contains (by decide) (hawaits.all m hm)) g hgroups
        refine ⟨place', hplaces ▸ hplace', ?_⟩
        rwa [← haround.split, History.reads_around [.noted n e] opened rfl hunread]
      · rw [History.latest?_append, htold]
        rfl
      · rw [hreply, PinMap.get_eq_getLsbD_byte, hinput, Extender.getLsbD_inputAfter, hawaits.same]
        rfl
      · rw [hinvert pin hclear (fun attrs e hm => hunset attrs e (List.mem_append_left _ hm)), hawaits.same]
    · exact (hfault f hreply).elim

/-- The state after some steps of a session with the queued engine, of whose chips the first two are there and the second one has a
line. -/
@[irreducible] def State.twoChips (steps : List Step) : State :=
  (({ extender := .queued fun chip => chip == 1, board := .withChips [0x20, 0x21] false, history := [] } : State).play
    (Session.nestAt 1) steps).2

/-- Sessions of two chips are sessions. -/
theorem reachable_twoChips (steps : List Step) : Reachable (State.twoChips steps) := by
  unfold State.twoChips
  exact (@Reachable.start (.queued fun chip => chip == 1) _ _ _ rfl).play 1 steps

/-- A pin without a line that is active low: its level has gone up since it was last read, so it is read as off, although the handler
that the pass calls reads the pin, flushes and tries to shut the extender down before the call has been answered. And the inputs of two
chips have changed, of which the second one has a line: the pin of the first chip is read anew, that of the second one as it was. -/
theorem readings_are_fresh_or_cached_of_shutdown :
    (let s := State.onePlain [.claim 0, .op (.call (.setup 0 (PinAttributes.input ∪ PinAttributes.activeLow))),
        .op (.call (.attach 0 ⟨0, 7, .change⟩)), .op .update, .op (.change (.poke ⟨0x20, 0⟩ 1)),
        .op (.handler 7 [.call (.read 0), .call .flush, .shutdown])]
      let t := s.step (Session.nestAt 1) (.op (.call (.read 0)))
      s.extender.shadow.input.get 0 = true ∧ t.1 = .bit false ∧ t.2.extender.status.contains Status.stop = true ∧
      ∃ (newer older : History) (place : Place) (r : Except BusKind Byte) (told : Extender),
        t.2.history = (newer ++ .transaction (.read place) r :: older) ++ s.history ∧ place ∉ newer.reads ∧ place ∉ older.reads ∧
        s.extender.reading told 0 r = false) ∧
    let s := State.twoChips [.claim 0, .claim 8, .op (.call (.setup 0 PinAttributes.input)),
      .op (.call (.setup 8 PinAttributes.input)), .op .update, .op (.change (.poke ⟨0x20, 0⟩ 1)), .op (.change (.poke ⟨0x21, 0⟩ 1))]
    let t := s.step (Session.nestAt 1) (.op (.call (.read 0)))
    let t' := s.step (Session.nestAt 1) (.op (.call (.read 8)))
    (s.extender.shadow.input.get 0 = false ∧ t.1 = .bit true ∧
      ∃ (newer older : History) (place : Place) (r : Except BusKind Byte) (told : Extender),
        t.2.history = (newer ++ .transaction (.read place) r :: older) ++ s.history ∧ place ∉ newer.reads ∧ place ∉ older.reads ∧
        s.extender.inputPlace 0 = some place ∧ s.extender.reading told 0 r = true) ∧
    s.board.peek ⟨0x21, 0⟩ = some 1 ∧ t'.1 = .bit false ∧ ∃ new, t'.2.history = new ++ s.history ∧ ∀ a r, .transaction a r ∉ new := by
  constructor
  · intro s t
    have hreply : t.1 = .bit false := by decide +kernel
    obtain ⟨newer, older, place, r, told, hhistory, -, hnewer, holder, -, -, hreading, -⟩ :=
      (readings_are_fresh_or_cached (show Reachable s from reachable_onePlain _) 1
        (show 0 < s.extender.claims.capacity by decide +kernel) (by decide +kernel)).2
        (by decide +kernel) (by decide +kernel) (by decide +kernel) (fun f hf => by cases hreply.symm.trans hf)
    exact ⟨by decide +kernel, hreply, by decide +kernel, newer, older, place, r, told, hhistory, hnewer, holder,
      Reply.bit.inj (hreading.symm.trans hreply)⟩
  · intro s t t'
    have hs : Reachable s := reachable_twoChips _
    have hrunning : s.extender.isStopped = false := by decide +kernel
    have hreply : t.1 = .bit true := by decide +kernel
    obtain ⟨newer, older, place, r, told, hhistory, hplace, hnewer, holder, -, -, hreading, -⟩ :=
      (readings_are_fresh_or_cached hs 1 (show 0 < s.extender.claims.capacity by decide +kernel) hrunning).2
        (by decide +kernel) (by decide +kernel) (by decide +kernel) (fun f hf => by cases hreply.symm.trans hf)
    obtain ⟨hcached, hquiet⟩ := (readings_are_fresh_or_cached hs 1 (show 8 < s.extender.claims.capacity by decide +kernel) hrunning).1
      (.inl (by decide +kernel))
    have hbefore : s.extender.shadow.input.get 8 = false := by decide +kernel
    rw [hbefore] at hcached
    exact ⟨⟨by decide +kernel, hreply, newer, older, place, r, told, hhistory, hnewer, holder, hplace,
      Reply.bit.inj (hreading.symm.trans hreply)⟩, by decide +kernel, hcached, hquiet⟩

end PortExpander
