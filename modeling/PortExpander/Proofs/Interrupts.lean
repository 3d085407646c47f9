import PortExpander.Proofs.Requests
import PortExpander.Proofs.InSync
import PortExpander.Proofs.Stopping

/-!
# Interrupts are not lost

The first pass that begins after an interrupt takes care of it, whatever else the pass has to do and whatever was going on when
the interrupt came. The queued engine reads the chip that has interrupted, or all chips if there was no room in the queue; the
generic engine looks at its line, and reads all inputs if it finds the line low.
-/

namespace PortExpander

open Sim Engine

/-! ## The first pass after an interrupt -/

/-- A pass is the first to begin after an interrupt of a line: the interrupt ended when `older` had happened, `e` was the memory
then, and no pass has begun `since`. -/
structure PassRecord.Follows (p : PassRecord) (line : Nat) (since : History) (e : Extender) (older : History) : Prop where
  past : ∃ n, p.past = since ++ .noted n e :: older ∧ n.interrupt? = some line
  first : ∀ ev ∈ since, ev.isBegin = false

/-- Whether a pass begins so many events after the end of an interrupt of a line, with no other pass begun meanwhile. -/
def PassRecord.followsAt (p : PassRecord) (line k : Nat) : Bool :=
  (match p.past.drop k with | .noted n _ :: _ => n.interrupt? == some line | _ => false) && (p.past.take k).all (!·.isBegin)

/-- A pass that is found to follow an interrupt follows it. -/
theorem PassRecord.follows_of_followsAt {p : PassRecord} {line k : Nat} (hk : p.followsAt line k = true) :
    ∃ since e older, p.Follows line since e older := by
  unfold followsAt at hk
  rw [Bool.and_eq_true] at hk
  obtain ⟨hn, hb⟩ := hk
  split at hn
  · rename_i n e older hd
    refine ⟨p.past.take k, e, older, ⟨n, by rw [← hd, List.take_append_drop], eq_of_beq hn⟩, fun ev hm => ?_⟩
    simpa using List.all_eq_true.1 hb ev hm
  · cases hn

/-- The work that the latest pass to take any has taken out of the status word. -/
def History.took? : History → Option Status
  | [] => none
  | .noted (.took bits) _ :: _ => some bits
  | _ :: past => took? past

/-- What is known where an update has found nothing to do. -/
theorem History.Prompt.at_moment {h later past : History} {e : Extender} (hp : h.Prompt)
    (hm : h = later ++ .noted (.updated .idle) e :: past) :
    Uncut past → ∀ n e, .noted n e ∈ past.recent → e.status.contains Status.isrPending = false := by
  subst hm
  induction later with
  | nil => exact hp.1
  | cons ev later ih =>
    cases ev with
    | noted n e =>
      cases n with
      | updated p => cases p <;> first | exact ih hp | exact ih hp.2
      | _ => exact ih hp
    | _ => exact ih hp

/-- A pass before which no fault has cut a pass short, with the state from which it stems and what has waited for it there. -/
structure PassRecord.Comes (p : PassRecord) (s t t' : State) : Prop extends p.Stems s t t' where
  sound : s.extender.Sound
  armed : s.extender.Armed
  held : s.Held
  prompt : p.past.Prompt
  uncut : p.past.Uncut

namespace State.Begins

variable {s t : State} {work : Status} {e : Extender} {older : History}

/-- The work that a pass has taken is what was pending. -/
theorem took (h : s.Begins t work e older) : older.took? = some s.extender.status.pending := by
  rw [h.past]
  rcases s.held.taken.history_started s.extender.work with hh | ⟨r, hh⟩ <;> rw [hh] <;> rfl

/-- A pass begins with an engine as sound as the one of the state in which its update began. -/
theorem sound (h : s.Begins t work e older) (hs : s.extender.Sound) : e.Sound := by
  rw [h.before]
  exact hs.of_eq id rfl rfl rfl rfl

end State.Begins

namespace PassRecord.Stems

variable {p : PassRecord} {s t t' : State}

/-- What a pass looks at, and what it reads, by its plan. -/
theorem gathers (h : p.Stems s t t') : ∃ plan s₀ looked, Gathers p.pending t plan s₀ ∧ s₀.history = looked ++ t.history ∧
    p.body.looks = looked.looks ∧
    p.body.reads.map some = ((plan.groups &&& p.before.claims.groups).groups.map p.before.inputPlace).reverse := by
  obtain ⟨plan, s₀, new, hg, hl, -, -, hread⟩ := h.carries.passPart
  obtain ⟨looked, hlooked, -, hnone, -⟩ := hg.history
  obtain ⟨ending, done, hbody, hdone, hend⟩ := h.body
  obtain rfl : done = new ++ looked := State.new_unique hdone (by rw [hl.history, hlooked, List.append_assoc])
  have hquiet := History.quiet_of_no_work (h := ending) fun ev hm => by
    obtain ⟨bits, rfl⟩ := hend ev hm
    rfl
  refine ⟨plan, s₀, looked, hg, hlooked, ?_, ?_⟩
  · simp [hbody, hquiet.2.1, hl.looks]
  · simp [hbody, hquiet.1, hnone, hread, h.extender]

end PassRecord.Stems

/-- How a recorded pass has come about, if no pass has been cut short before it. -/
theorem Reachable.exists_comes {s : State} (hs : Reachable s) {p : PassRecord} (hp : s.history.Records p) (hu : p.past.Uncut) :
    ∃ s₁ t t', p.Comes s₁ t t' := by
  obtain ⟨e, board, hmade, hgo, _⟩ := hs.goes
  obtain ⟨s₁, t, t', hgo₁, hst⟩ := hgo.exists_stems rfl hp
  obtain ⟨ready, hpast, hplain, -, -⟩ := hst.ready
  have hw := hgo₁.waiting hmade rfl
  have hu₁ : s₁.history.Uncut := History.Uncut.of_append (hpast ▸ hu)
  exact ⟨s₁, t, t', hst, hw.sound, hw.armed hu₁, hw.held hu₁ hst.halted, hpast ▸ hw.prompt.append hplain.idles, hu⟩

/-- Until a pass begins, an interrupt has happened since the latest pass began. -/
theorem History.mem_recent {since older : History} {n : Note} {e : Extender} {line : Nat}
    (hb : ∀ ev ∈ since, ev.isBegin = false) (hn : n.interrupt? = some line) :
    .noted n e ∈ recent (since ++ .noted n e :: older) := by
  rw [recent_append hb]
  refine List.mem_append_right _ ?_
  cases n <;> first | exact List.mem_cons_self | cases hn

namespace PassRecord.Follows

variable {p : PassRecord} {line : Nat} {since older : History} {e : Extender}

/-- The memory after an interrupt is what the interrupt has made of the memory before it. -/
theorem answered (h : p.Follows line since e older) {s : State} (hs : Reachable s) (hp : s.history.Records p) :
    ∃ e₀, older.begun? = some (.call (.interrupt line), e₀) ∧ e = e₀.interrupted line := by
  obtain ⟨e₁, board, hmade, hgo, _⟩ := hs.goes
  obtain ⟨n, hpast, hn⟩ := h.past
  obtain ⟨⟨later, hh⟩, -⟩ := hp
  have hm : s.history = (later ++ .noted (.passEnded p.clean) p.after ::
      (p.body ++ .noted (.passBegan p.pending) p.before :: since)) ++ .noted n e :: older := by
    simp [hh, hpast]
  exact (hgo.moves.answered rfl).at_moment hm hn

/-- What an interrupt has asked for waits for the first pass after it. -/
theorem within (h : p.Follows line since e older) {s t t' : State} (hc : p.Comes s t t') : e.Within s.extender := by
  obtain ⟨n, hpast, hn⟩ := h.past
  obtain ⟨ready, hready, hplain, -, hnotes⟩ := hc.ready
  have hm : .noted n e ∈ p.past.recent := hpast ▸ History.mem_recent h.first hn
  rw [hready, History.recent_append hplain.begins] at hm
  rcases List.mem_append.1 hm with hm | hm
  · rw [(hnotes n e hm).1] at hn
    cases hn
  · exact hc.held.within n e hm

/-- No update has found nothing to do between an interrupt and the first pass after it. -/
theorem not_idle (h : p.Follows line since e older) {s t t' : State} (hc : p.Comes s t t')
    (hi : e.status.contains Status.isrPending = true) (e' : Extender) : .noted (.updated .idle) e' ∉ since := by
  obtain ⟨n, hpast, hn⟩ := h.past
  intro hm
  obtain ⟨newer, earlier, rfl⟩ := List.append_of_mem hm
  have hsplit : p.past = newer ++ .noted (.updated .idle) e' :: (earlier ++ .noted n e :: older) := by simp [hpast]
  have hu : p.past.Uncut := hc.uncut
  rw [hsplit] at hu
  have hrecent : .noted n e ∈ History.recent (earlier ++ .noted n e :: older) :=
    History.mem_recent (fun ev hev => h.first ev (by simp [hev])) hn
  have hno := hc.prompt.at_moment hsplit (fun ev hev => hu ev (by simp [hev])) n e hrecent
  rw [hi] at hno
  cases hno

end PassRecord.Follows

/-! ## The generic engine -/

/-- An engine that was made with a line holds it as long as the extender has not halted. -/
theorem Extender.Sound.has_line {e : Extender} (h : e.Sound) (hh : e.halted = false) {m : Sampler}
    (he : e.engine = .generic m) (hw : m.wired = true) : e.lines.has 0 = true := by
  simp only [h.lines hh, Extender.wiring, he, hw]
  decide

/-- The pass after an interrupt looks once at the line that the engine was made with. If the line is low it reads all inputs; if
not, and neither the inputs nor the configuration are asked for, it reads nothing. -/
theorem PassRecord.Comes.looks {p : PassRecord} {s t t' : State} (hc : p.Comes s t t') {m : Sampler}
    (he : p.before.engine = .generic m) (hw : m.wired = true) (hi : s.extender.status.contains Status.isrPending = true) :
    ∃ level, p.body.looks = [(0, level)] ∧
      (level = .low → ∀ g, p.before.claims.groups.getLsbD g = true → p.before.ReadsOnce p.body g) ∧
      (level ≠ .low → s.extender.status.pending.contains Status.readDirty = false →
        s.extender.status.pending.contains Status.configDirty = false → p.body.reads = []) := by
  have hbefore : s.extender.engine = .generic m := by
    rw [hc.before] at he
    exact he
  have hline : s.extender.lines.has 0 = true := hc.sound.has_line hc.halted hbefore hw
  -- a line that is held is remembered as high, so a low level is a fall
  have hhigh : m.high = true := hc.armed hline m hbefore
  have hpending : p.pending.contains Status.isrPending = true := by
    rw [hc.pending]
    exact Extender.work_contains (by decide) hi
  obtain ⟨plan, s₀, looked, hg, hlooked, hlooks, hreads⟩ := hc.gathers
  have hte : t.extender.engine = .generic m := by rw [hc.extender, he]
  have htl : t.extender.lines.has 0 = true := by
    rw [hc.extender, hc.before]
    exact hline
  cases hg with
  | unlooked _ hno =>
    rw [hpending, htl] at hno
    cases hno
  | drained hq => cases hte.symm.trans hq
  | @looked m' now he' _ _ hnow =>
    cases hte.symm.trans he'
    have hlook : looked = [.sampled 0 (t.board.lines 0)] := State.new_unique hlooked rfl
    refine ⟨t.board.lines 0, by rw [hlooks, hlook]; rfl, fun hlow g hg => ?_, fun hlow hr hconf => ?_⟩
    · refine Extender.readsOnce hreads hg ?_
      have hfell : (m.high && !now) = true := by simp [hnow, hlow, hhigh, Level.isHigh?]
      rw [hfell, if_pos rfl, Plan.groups_of_fallen]
      exact Byte.getLsbD_255 (BitVec.lt_of_getLsbD hg)
    · have hstays : now = true := by
        rw [hnow]
        cases hl : t.board.lines 0 with
        | high => rfl
        | low => exact (hlow hl).elim
        | error => exact hhigh
      have hwork : p.pending = s.extender.status.pending := by
        have hpolling := hc.sound.sampler m hbefore
        simp only [hc.pending, Extender.work, Extender.standing, hbefore, hpolling, hw]
        exact FlagSet.union_empty _
      rw [hstays, Bool.not_true, Bool.and_false, if_neg Bool.false_ne_true, hwork, Plan.groups_of_unasked hconf hr] at hreads
      have hnone : ((0 : Byte) &&& p.before.claims.groups).groups = [] := by
        show Byte.groups (0#8 &&& _) = []
        rw [BitVec.zero_and]
        rfl
      rw [hnone] at hreads
      exact List.map_eq_nil_iff.1 hreads

/-- No interrupt is lost by a generic engine that was made with a line. Take a pass that a session records, before which no fault
has cut a pass short, and that is the first to begin after an interrupt has ended. No update has found nothing to do in between;
the pass looks at the line exactly once; if the line is low it reads the inputs of every claimed group exactly once; and if the
line is high or does not tell, and the pass has taken a request neither for the inputs nor for the configuration, it reads
nothing. This is because the line is remembered as high whenever no pass is at work. -/
theorem line_interrupts_are_not_lost :
    (∀ s p m line since e older, Reachable s → s.history.Records p → p.past.Uncut → p.before.engine = .generic m →
      m.wired = true → p.Follows line since e older →
      (∀ e', .noted (.updated .idle) e' ∉ since) ∧ ∃ level bits, p.body.looks = [(0, level)] ∧ p.past.took? = some bits ∧
        (level = .low → ∀ g, p.before.claims.groups.getLsbD g = true → p.before.ReadsOnce p.body g) ∧
        (level ≠ .low → bits.contains Status.readDirty = false → bits.contains Status.configDirty = false →
          p.body.reads = [])) ∧
    ∀ s later n e past m, Reachable s → s.history = later ++ .noted n e :: past → History.Uncut (.noted n e :: past) →
      e.updating = false → e.engine = .generic m → e.lines.has 0 = true → m.high = true := by
  constructor
  · intro s p m line since e older hs hp hu he hw hf
    obtain ⟨s₁, t, t', hc⟩ := hs.exists_comes hp hu
    obtain ⟨e₀, -, rfl⟩ := hf.answered hs hp
    have hasked := e₀.interrupted_isrPending line
    obtain ⟨level, hlook, hlow, hnot⟩ := hc.looks he hw ((hf.within hc).status _ (by decide) hasked)
    exact ⟨hf.not_idle hc hasked, level, _, hlook, hc.took, hlow, hnot⟩
  · intro s later n e past m hs hm hu hup he hl
    obtain ⟨e₀, board, hmade, hgo, _⟩ := hs.goes
    obtain ⟨s', hgo', _, hh', rfl⟩ := hgo.moment rfl hm hup
    exact (hgo'.waiting hmade rfl).armed (hh' ▸ hu) hl m he

/-- A line interrupts before each of two updates: the first one finds it low and reads, and the second one, which finds it high,
reads nothing. -/
theorem line_interrupts_are_not_lost_of_two_interrupts :
    let s := State.oneLine [.claim 0, .op (.call (.setup 0 PinAttributes.input)), .op .update, .op (.change (.line 0 .low)),
      .op (.call (.interrupt 0)), .op .update, .op (.change (.line 0 .high)), .op (.call (.interrupt 0)), .op .update]
    (∃ p since e older, s.history.Records p ∧ p.Follows 0 since e older ∧ p.body.looks = [(0, .low)] ∧
      p.before.ReadsOnce p.body 0) ∧
    (∃ p since e older, s.history.Records p ∧ p.Follows 0 since e older ∧ p.body.looks = [(0, .high)] ∧ p.body.reads = []) ∧
    ∃ later n e past m, s.history = later ++ .noted n e :: past ∧ e.engine = .generic m ∧ m.high = true := by
  intro s
  have hr : Reachable s := reachable_oneLine _
  -- each of the two passes begins three events after the end of the interrupt that it follows
  have hpass (k : Nat) (level : Level) (hk : ((s.history.pass? k).any fun p =>
      p.before.engine == .generic { wired := true, high := true, polling := false } && decide p.past.Uncut &&
      p.body.looks == [(0, level)] && p.past.took? == some .isrPending && p.before.claims.groups.getLsbD 0 &&
      p.followsAt 0 3) = true) :
      ∃ p since e older, s.history.Records p ∧ p.Follows 0 since e older ∧ p.body.looks = [(0, level)] ∧
        (level = .low → p.before.ReadsOnce p.body 0) ∧ (level ≠ .low → p.body.reads = []) := by
    obtain ⟨p, hp, hq⟩ := (Option.any_eq_true _ _).1 hk
    rw [Bool.and_eq_true, Bool.and_eq_true, Bool.and_eq_true, Bool.and_eq_true, Bool.and_eq_true, decide_eq_true_eq,
      beq_iff_eq, beq_iff_eq, beq_iff_eq] at hq
    obtain ⟨⟨⟨⟨⟨he, hu⟩, hlook⟩, htook⟩, hg⟩, hf⟩ := hq
    have hp := History.records_of_pass? hp
    obtain ⟨since, e, older, hf⟩ := PassRecord.follows_of_followsAt hf
    obtain ⟨-, level', bits, hlook', htook', hlow, hnot⟩ :=
      line_interrupts_are_not_lost.1 s p _ 0 since e older hr hp hu he rfl hf
    cases hlook.symm.trans hlook'
    cases htook.symm.trans htook'
    exact ⟨p, since, e, older, hp, hf, hlook, fun h => hlow h 0 hg, fun h => hnot h (by decide) (by decide)⟩
  refine ⟨?_, ?_, ?_⟩
  · obtain ⟨p, since, e, older, hp, hf, hlook, hread, -⟩ := hpass 16 .low (by decide +kernel)
    exact ⟨p, since, e, older, hp, hf, hlook, hread rfl⟩
  · obtain ⟨p, since, e, older, hp, hf, hlook, -, hno⟩ := hpass 2 .high (by decide +kernel)
    exact ⟨p, since, e, older, hp, hf, hlook, hno (by decide)⟩
  · obtain ⟨later, n, e, past, hm, hp⟩ := History.moment_of_drop (h := s.history) 0
      (p := fun n e past => !e.updating && e.lines.has 0 &&
        e.engine == .generic { wired := true, high := true, polling := false } && decide (History.Uncut (.noted n e :: past)))
      (by decide +kernel)
    simp only [Bool.and_eq_true, Bool.not_eq_true', beq_iff_eq, decide_eq_true_eq] at hp
    obtain ⟨⟨⟨hup, hl⟩, he⟩, hu⟩ := hp
    exact ⟨later, n, e, past, _, hm, he, line_interrupts_are_not_lost.2 s later n e past _ hr hm hu hup he hl⟩

/-! ## The queued engine -/

/-- Between happenings, a chip in the queue waits with a pass asked for. -/
theorem Goes.isrPending {s₀ s : State} (h : Goes s₀ s) (hm : Made s₀.extender) (h₀ : s₀.history = []) (hu : s.history.Uncut)
    (hh : s.extender.halted = false) (hq : s.extender.queue ≠ []) : s.extender.status.contains Status.isrPending = true := by
  have hheld := (h.waiting hm h₀).held hu hh
  obtain ⟨chip, hchip⟩ := List.exists_mem_of_ne_nil _ hq
  obtain ⟨e, hnote, -⟩ := hheld.queued chip hchip
  have hasked : e.status.contains Status.isrPending = true :=
    h.moves.truthful h₀ _ e ((List.takeWhile_prefix _).subset hnote) _ (FlagSet.contains_refl _)
  exact (hheld.within _ _ hnote).status _ (by decide) hasked

/-- The chips of a queue are added to a mask. -/
theorem getLsbD_foldl_queue (queue : List Nat) (mask : Byte) (g : Nat) (hg : g < 8) :
    (queue.foldl (fun mask chip => mask ||| BitVec.twoPow 8 chip) mask).getLsbD g = (mask.getLsbD g || decide (g ∈ queue)) := by
  induction queue generalizing mask with
  | nil => simp
  | cons chip queue ih =>
    rw [List.foldl_cons, ih]
    by_cases h : g = chip
    · simp [h, h ▸ hg]
    · simp [h, Ne.symm h]

/-- A plan reads a group if the inputs or the configuration are asked for, or the group is to be read in any case. -/
theorem Plan.getLsbD_groups {pending : Status} {groups : Byte} {g : Nat} (hg : g < 8) :
    (Plan.ofRequests pending groups).groups.getLsbD g = true ↔
      pending.contains Status.configDirty = true ∨ pending.contains Status.readDirty = true ∨ groups.getLsbD g = true := by
  by_cases h : pending.contains Status.configDirty = true ∨ pending.contains Status.readDirty = true
  · rw [Plan.groups_of_asked h]
    exact iff_of_true (Byte.getLsbD_255 hg) (h.elim .inl fun h => .inr (.inl h))
  · simp only [not_or, Bool.not_eq_true] at h
    simp [Plan.groups_of_unasked h.1 h.2, h.1, h.2]

/-- The pass of the queued engine reads what has interrupted, what it polls, and all inputs if they are asked for. -/
theorem PassRecord.Stems.drains {p : PassRecord} {s t t' : State} (hc : p.Stems s t t') {q : ChipQueue}
    (he : p.before.engine = .queued q) : ∃ groups : Byte,
    p.body.reads.map some = ((groups &&& p.before.claims.groups).groups.map p.before.inputPlace).reverse ∧
    ∀ g < 8, groups.getLsbD g = true ↔ s.extender.status.pending.contains Status.configDirty = true ∨
      s.extender.status.pending.contains Status.readDirty = true ∨ q.polled.getLsbD g = true ∨ g ∈ q.queue := by
  obtain ⟨plan, s₀, looked, hg, -, -, hreads⟩ := hc.gathers
  have hte : t.extender.engine = .queued q := by rw [hc.extender, he]
  refine ⟨plan.groups, hreads, fun g hlt => ?_⟩
  cases hg with
  | looked he' | unlooked he' => cases hte.symm.trans he'
  | drained he' =>
    cases hte.symm.trans he'
    have hwork : p.pending = s.extender.status.pending := by
      have hbefore : s.extender.engine = .queued q := by
        rw [hc.before] at he
        exact he
      simp only [hc.pending, Extender.work, Extender.standing, hbefore]
      exact FlagSet.union_empty _
    rw [Plan.getLsbD_groups hlt, getLsbD_foldl_queue _ _ _ hlt, hwork]
    simp

/-- The queue with which a pass begins is what has waited for it. -/
theorem PassRecord.Comes.queue {p : PassRecord} {s t t' : State} (hc : p.Comes s t t') {q : ChipQueue}
    (he : p.before.engine = .queued q) : s.extender.queue = q.queue := by
  rw [hc.before] at he
  change s.extender.engine = .queued q at he
  simp [Extender.queue, he]

/-- The queued engine polls the chips that have no line and a pin with a handler. -/
theorem Extender.Sound.polled_iff {e : Extender} (h : e.Sound) {q : ChipQueue} (he : e.engine = .queued q) {g : Nat} :
    q.polled.getLsbD g = true ↔
      g < queuedChips ∧ q.wired.has g = false ∧ ∃ pin, pin / 8 = g ∧ (e.handlers pin).isSome = true := by
  rw [h.queue q he, Extender.handledChips, Byte.getLsbD_ofGroups]
  simp only [Bool.and_eq_true, Bool.not_eq_true', Handlers.anyIn, List.any_eq_true, List.mem_range'_1, decide_eq_true_eq]
  constructor
  · rintro ⟨-, ⟨hg, hwired⟩, pin, hpin, hsome⟩
    exact ⟨hg, hwired, pin, by omega, hsome⟩
  · rintro ⟨hg, hwired, pin, hpin, hsome⟩
    have hlt : g < 8 := Nat.lt_of_lt_of_le hg (by decide)
    exact ⟨hlt, ⟨hg, hwired⟩, pin, by omega, hsome⟩

/-- The queue of the pass after an interrupt has the chip that interrupted, or all inputs are asked for. -/
theorem PassRecord.Follows.planned {p : PassRecord} {line : Nat} {since older : History} {e₀ : Extender} {s t t' : State}
    (hf : p.Follows line since (e₀.interrupted line) older) (hc : p.Comes s t t') {q : ChipQueue}
    (he : p.before.engine = .queued q) :
    s.extender.status.pending.contains Status.readDirty = true ∨
      (line < queuedChips ∧ e₀.queue.length < queueDepth ∧ line ∈ q.queue) := by
  have hw := hf.within hc
  obtain ⟨q₀, hq₀⟩ : ∃ q₀, e₀.engine = .queued q₀ := by
    have hname : s.extender.name = "tca6408" := by
      refine Extender.name_eq_tca6408.2 ⟨q, ?_⟩
      rw [hc.before] at he
      exact he
    refine Extender.name_eq_tca6408.1 ?_
    rw [← e₀.name_interrupted line, ← hw.name, hname]
  have hqueue₀ : e₀.queue = q₀.queue := by simp [Extender.queue, hq₀]
  by_cases hroom : line < queuedChips ∧ q₀.queue.length < queueDepth
  · refine .inr ⟨hroom.1, hqueue₀ ▸ hroom.2, ?_⟩
    rw [← hc.queue he]
    exact hw.queue _ (Extender.mem_queue_interrupted hq₀ hroom.1 hroom.2)
  · have hread : (e₀.interrupted line).status.contains Status.readDirty = true :=
      Extender.interrupted_readDirty hq₀ (by omega)
    exact .inl (Status.contains_pending (hw.status _ (by decide) hread) (by decide) (by decide))

/-- No interrupt is lost by the queued engine. Take a pass that a session records, before which no fault has cut a pass short. If
it is the first to begin after an interrupt of a line has ended, no update has found nothing to do in between, and the pass reads
the inputs of the chip of that number exactly once if it has a claimed pin; if there is no such chip, or the queue was full when
the interrupt came, it reads the inputs of every chip with a claimed pin exactly once. And whenever it reads a chip with a
claimed pin, the chip has been put in the queue since the pass before it began, or has no line and a pin with a handler, or the
pass has taken a request for the inputs or for the configuration. This is because a pass is asked for whenever no pass is at work
and the queue is not empty. -/
theorem queued_interrupts_are_not_lost :
    (∀ s p q, Reachable s → s.history.Records p → p.past.Uncut → p.before.engine = .queued q →
      (∀ line since e older, p.Follows line since e older → (∀ e', .noted (.updated .idle) e' ∉ since) ∧
        (line < queuedChips → p.before.claims.groups.getLsbD line = true → p.before.ReadsOnce p.body line) ∧
        ∃ e₀, older.begun? = some (.call (.interrupt line), e₀) ∧ (queuedChips ≤ line ∨ queueDepth ≤ e₀.queue.length →
          ∀ g, p.before.claims.groups.getLsbD g = true → p.before.ReadsOnce p.body g)) ∧
      ∃ bits, p.past.took? = some bits ∧ ∀ g, p.before.claims.groups.getLsbD g = true → p.before.Reads p.body g →
        p.past.recent.Queued g ∨ (q.wired.has g = false ∧ ∃ pin, pin / 8 = g ∧ (p.before.handlers pin).isSome = true) ∨
          bits.contains Status.readDirty = true ∨ bits.contains Status.configDirty = true) ∧
    ∀ s later n e past, Reachable s → s.history = later ++ .noted n e :: past → History.Uncut (.noted n e :: past) →
      e.updating = false → e.halted = false → e.queue ≠ [] → e.status.contains Status.isrPending = true := by
  constructor
  · intro s p q hs hp hu he
    obtain ⟨s₁, t, t', hc⟩ := hs.exists_comes hp hu
    obtain ⟨groups, hreads, hgroups⟩ := hc.drains he
    refine ⟨fun line since e older hf => ?_, _, hc.took, fun g hg hread => ?_⟩
    · obtain ⟨e₀, hbegun, rfl⟩ := hf.answered hs hp
      have hplan := hf.planned hc he
      refine ⟨hf.not_idle hc (e₀.interrupted_isrPending line), fun hline hg => ?_, e₀, hbegun, fun hfull g hg => ?_⟩
      · refine Extender.readsOnce hreads hg ((hgroups line (BitVec.lt_of_getLsbD hg)).2 ?_)
        rcases hplan with h | h
        · exact .inr (.inl h)
        · exact .inr (.inr (.inr h.2.2))
      · refine Extender.readsOnce hreads hg ((hgroups g (BitVec.lt_of_getLsbD hg)).2 ?_)
        rcases hplan with h | h
        · exact .inr (.inl h)
        · omega
    · rcases (hgroups g (BitVec.lt_of_getLsbD hg)).1 (hread.planned hreads hg) with h | h | h | h
      · exact .inr (.inr (.inr h))
      · exact .inr (.inr (.inl h))
      · exact .inr (.inl (((hc.toBegins.sound hc.sound).polled_iff he).1 h).2)
      · refine .inl ?_
        obtain ⟨ready, hready, hplain, -⟩ := hc.ready
        rw [hready, History.recent_append hplain.begins]
        exact (hc.held.queued g (hc.queue he ▸ h)).mono fun _ => List.mem_append_right _
  · intro s later n e past hs hm hu hup hh hq
    obtain ⟨e₀, board, hmade, hgo, _⟩ := hs.goes
    obtain ⟨s', hgo', _, hh', rfl⟩ := hgo.moment rfl hm hup
    exact hgo'.isrPending hmade rfl (hh' ▸ hu) hh hq

/-- A chip interrupts between two updates: it waits in the queue with a pass asked for, and the second update reads it once. -/
theorem queued_interrupts_are_not_lost_of_one_interrupt :
    let s := State.oneChip [.claim 0, .op (.call (.setup 0 PinAttributes.input)), .op .update, .op (.call (.interrupt 0)),
      .op .update]
    (∃ p q since e older, s.history.Records p ∧ p.before.engine = .queued q ∧ p.Follows 0 since e older ∧
      (∀ e', .noted (.updated .idle) e' ∉ since) ∧ p.before.ReadsOnce p.body 0) ∧
    ∃ later n e past, s.history = later ++ .noted n e :: past ∧ e.queue = [0] ∧
      e.status.contains Status.isrPending = true := by
  intro s
  have hr : Reachable s := reachable_oneChip _
  constructor
  · have hk : ((s.history.pass? 2).any fun p =>
        p.before.name == "tca6408" && decide p.past.Uncut && p.before.claims.groups.getLsbD 0 && p.followsAt 0 2) = true := by
      decide +kernel
    obtain ⟨p, hp, hq⟩ := (Option.any_eq_true _ _).1 hk
    rw [Bool.and_eq_true, Bool.and_eq_true, Bool.and_eq_true, decide_eq_true_eq] at hq
    obtain ⟨⟨⟨hname, hu⟩, hg⟩, hf⟩ := hq
    have hp := History.records_of_pass? hp
    obtain ⟨q, he⟩ := Extender.name_eq_tca6408.1 (eq_of_beq hname)
    obtain ⟨since, e, older, hf⟩ := PassRecord.follows_of_followsAt hf
    obtain ⟨hidle, hread, -⟩ := (queued_interrupts_are_not_lost.1 s p q hr hp hu he).1 0 since e older hf
    exact ⟨p, q, since, e, older, hp, he, hf, hidle, hread (by decide) hg⟩
  · obtain ⟨later, n, e, past, hm, hp⟩ := History.moment_of_drop (h := s.history) 9
      (p := fun n e past => !e.updating && !e.halted && e.queue == [0] && decide (History.Uncut (.noted n e :: past)))
      (by decide +kernel)
    simp only [Bool.and_eq_true, Bool.not_eq_true', beq_iff_eq, decide_eq_true_eq] at hp
    obtain ⟨⟨⟨hup, hh⟩, hq⟩, hu⟩ := hp
    exact ⟨later, n, e, past, hm, hq, queued_interrupts_are_not_lost.2 s later n e past hr hm hu hup hh (by simp [hq])⟩

end PortExpander
