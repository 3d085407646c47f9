import PortExpander.Proofs.Deafness

/-!
# One snapshot for all handlers

A pass reads all its groups before it calls the first handler, and nothing but a pass reads. `Extender.replayed` replays the reads of
a pass from its history; what the memory holds of the inputs when the first handler is called is that, and stays that until the pass
is over. So the answers that handlers get about inputs are all from one snapshot, in whatever groups their pins are.
-/

namespace PortExpander

open Sim Engine

/-! ## Replaying reads -/

/-- The group whose inputs are at a place. -/
def Extender.groupAt? (e : Extender) (place : Place) : Option Nat :=
  (List.range 8).find? fun g => e.inputPlace g == some place

/-- The inputs after some events of a pass that began with the memory `e`. Each read makes of the inputs of its group what `inputAfter`
says, with the inversions that the latest note before it tells. -/
def Extender.replayed (e : Extender) : History → PinMap
  | [] => e.shadow.input
  | .transaction (.read place) r :: past =>
    match e.groupAt? place with
    | some g =>
      let told := { e with shadow := ((History.latest? past).getD e).shadow }
      (e.replayed past).setByte g (inputAfter told g ((e.replayed past).byte g) r)
    | none => e.replayed past
  | _ :: past => e.replayed past

/-- A read that succeeds makes of an input the level that the chip has sent, inverted if the pin is active low and the family has no
polarity registers. A read that fails leaves it as it was. -/
theorem Engine.getLsbD_inputAfter (e : Extender) (g : Nat) (was : Byte) (r : Except BusKind Byte) {bit : Nat} (h : bit < 8) :
    (inputAfter e g was r).getLsbD bit = match r with
      | .ok content => content.getLsbD bit ^^ (e.family.polarityReg.isNone && e.shadow.invert.get (8 * g + bit))
      | .error _ => was.getLsbD bit := by
  cases r with
  | error => rfl
  | ok content =>
    unfold inputAfter
    cases e.family.polarityReg.isNone with
    | false => simp
    | true => simp [PinMap.getLsbD_byte _ _ _ h]

namespace Extender

variable {e : Extender} {g : Nat} {place : Place}

/-- The group of a place has its inputs there. -/
theorem of_groupAt? (h : e.groupAt? place = some g) : g < 8 ∧ e.inputPlace g = some place := by
  unfold groupAt? at h
  have hfound := List.find?_some h
  exact ⟨List.mem_range.1 (List.mem_of_find?_eq_some h), eq_of_beq hfound⟩

/-- The group of the place of its inputs is found. -/
theorem groupAt?_of_inputPlace (hg : g < 8) (hp : e.inputPlace g = some place) : e.groupAt? place = some g := by
  cases hfound : e.groupAt? place with
  | none =>
    have hno := List.find?_eq_none.1 hfound g (List.mem_range.2 hg)
    simp [hp] at hno
  | some g' =>
    obtain ⟨hg', hp'⟩ := of_groupAt? hfound
    rw [Family.locate_inj hg' hg (locate_of_inputPlace hp') (locate_of_inputPlace hp)]

theorem replayed_cons {ev : Event} (h : ev.read? = none) (past : History) : e.replayed (ev :: past) = e.replayed past := by
  cases ev with
  | transaction a r =>
    cases a with
    | read place => cases h
    | write => rfl
  | _ => rfl

theorem replayed_append {new : History} (h : new.reads = []) (past : History) : e.replayed (new ++ past) = e.replayed past := by
  induction new with
  | nil => rfl
  | cons ev new ih =>
    have hev := List.filterMap_eq_nil_iff.1 h ev List.mem_cons_self
    rw [List.cons_append, replayed_cons hev]
    exact ih (List.filterMap_eq_nil_iff.2 fun ev' hm => List.filterMap_eq_nil_iff.1 h ev' (List.mem_cons_of_mem _ hm))

/-- A read of a group replaces the inputs of the group. -/
theorem replayed_read (hg : g < 8) (hp : e.inputPlace g = some place) (r : Except BusKind Byte) (past : History) :
    e.replayed (.transaction (.read place) r :: past) = (e.replayed past).setByte g
      (inputAfter { e with shadow := ((History.latest? past).getD e).shadow } g ((e.replayed past).byte g) r) := by
  rw [replayed, groupAt?_of_inputPlace hg hp]

/-- The inputs of a group stay as they are where the group is not read. -/
theorem byte_replayed_append {new : History} (h : ∀ place, e.inputPlace g = some place → place ∉ new.reads)
    (past : History) : (e.replayed (new ++ past)).byte g = (e.replayed past).byte g := by
  induction new with
  | nil => rfl
  | cons ev new ih =>
    have ih := ih fun place hp hm => h place hp <| by
      rw [← List.singleton_append, History.reads_append]
      exact List.mem_append_right _ hm
    rw [List.cons_append, ← ih]
    cases hread : ev.read? with
    | none => rw [replayed_cons hread]
    | some place =>
      have hne : e.inputPlace g ≠ some place := fun hp => h place hp (List.mem_filterMap.2 ⟨ev, List.mem_cons_self, hread⟩)
      cases ev with
      | transaction a r =>
        cases a with
        | write => cases hread
        | read place' =>
          cases hread
          rw [replayed]
          split
          · rename_i g' hfound
            obtain ⟨hg', hp'⟩ := of_groupAt? hfound
            rw [PinMap.byte_setByte _ _ _ _ hg', if_neg]
            rintro rfl
            exact hne hp'
          · rfl
      | _ => cases hread

/-- The inputs of a group that is read once are what that read makes of them. -/
theorem byte_replayed_of_read (hg : g < 8) (hp : e.inputPlace g = some place) {r : Except BusKind Byte} {newer older : History}
    (hn : place ∉ newer.reads) (ho : place ∉ older.reads) :
    (e.replayed (newer ++ .transaction (.read place) r :: older)).byte g =
      inputAfter { e with shadow := ((History.latest? older).getD e).shadow } g (e.shadow.input.byte g) r := by
  have hno {h : History} (hm : place ∉ h.reads) (place' : Place) (hp' : e.inputPlace g = some place') : place' ∉ h.reads := by
    cases hp.symm.trans hp'
    exact hm
  have holder : (e.replayed older).byte g = e.shadow.input.byte g := by
    have h := byte_replayed_append (hno ho) []
    rwa [List.append_nil] at h
  rw [byte_replayed_append (hno hn), replayed_read hg hp, PinMap.byte_setByte _ _ _ _ hg, if_pos rfl, holder]

end Extender

/-! ## The inputs in the course of a pass -/

/-- The events `done` have led to a state since a pass began with the memory `e` and the history `base`, and the inputs are what the
reads among them have made of them. -/
structure State.Replays (s : State) (e : Extender) (base done : History) : Prop where
  history : s.history = done ++ base
  steady : Steady e s.extender
  told : s.Told
  input : s.extender.shadow.input = e.replayed done

namespace State.Replays

variable {s s' : State} {e : Extender} {base done new : History}

/-- The beginning of a pass. -/
theorem refl (hs : s.Told) : s.Replays s.extender s.history [] := ⟨rfl, .refl _, hs, rfl⟩

/-- A part of a pass that reads nothing and leaves the inputs as they are. -/
theorem unread (h : s.Replays e base done) (hh : s'.history = new ++ s.history) (hr : new.reads = [])
    (hs : Steady s.extender s'.extender) (hi : s'.extender.shadow.input = s.extender.shadow.input) (ht : s'.Told) :
    s'.Replays e base (new ++ done) where
  history := by rw [hh, h.history, List.append_assoc]
  steady := h.steady.trans hs
  told := ht
  input := by rw [hi, h.input, Extender.replayed_append hr]

/-- A mute part of a pass keeps the memory what the reads say. -/
theorem mute (h : s.Replays e base done) (hm : Mute s s' new) (ht : s'.Told) : s'.Replays e base (new ++ done) :=
  h.unread hm.history hm.reads hm.steady hm.input ht

/-- The latest note tells the inversions. -/
theorem invert (h : s.Replays e base done) (hb : base.latest? = some e) :
    s.extender.shadow.invert = ((History.latest? done).getD e).shadow.invert := by
  obtain ⟨e', he, hag⟩ := h.told
  rw [h.history, History.latest?_append, hb] at he
  rw [hag.invert]
  cases hd : History.latest? done with
  | none => rw [hd] at he; cases he; rfl
  | some => rw [hd] at he; cases he; rfl

/-- A read puts what it has found into the memory. -/
theorem read (h : s.Replays e base done) (hb : base.latest? = some e) {g : Nat} (hg : g < 8) {place : Place}
    (hp : s.extender.inputPlace g = some place) {r : Except BusKind Byte} (hr : r = s.board.outcome (.read place))
    (hs' : s' = ((s.answered (.read place)).recorded (.read place) r).amend fun e =>
      { e with shadow := e.shadow.setInput g (inputAfter e g (s.extender.shadow.input.byte g) r) }) :
    ∃ new, s'.Replays e base (new ++ done) := by
  have hinput : s.extender.shadow.input.setByte g (inputAfter s.extender g (s.extender.shadow.input.byte g) r) =
      e.replayed (.transaction (.read place) r :: done) := by
    rw [Extender.replayed_read hg (h.steady.inputPlace ▸ hp), ← h.input]
    exact congrArg _ (inputAfter_eq (e := { e with shadow := ((History.latest? done).getD e).shadow }) h.steady.family
      (h.invert hb) g _ r)
  have hanswered : (s.answered (.read place)).history = (.transaction (.read place) r :: done) ++ base := by
    rw [hr, List.cons_append, ← h.history]
    rfl
  subst hs'
  cases r with
  | ok content => exact ⟨[_], hanswered, h.steady.trans (.update _ _ _ _), h.told.keep rfl ⟨rfl, rfl, rfl, rfl⟩, hinput⟩
  | error kind =>
    exact ⟨[_, _], congrArg (_ :: ·) hanswered, h.steady.trans (.update _ _ _ _), h.told.keep rfl ⟨rfl, rfl, rfl, rfl⟩, hinput⟩

end State.Replays

/-- Reading the inputs of some groups. -/
theorem Reads.replays {groups : List Nat} {s s' : State} {result : List Refresh × Bool} (h : Reads groups s result s')
    {e : Extender} {base done : History} (hs : s.Replays e base done) (hb : base.latest? = some e) (hg : ∀ g ∈ groups, g < 8) :
    ∃ new, s'.Replays e base (new ++ done) := by
  induction h generalizing done with
  | nil => exact ⟨[], hs⟩
  | @cons s s₁ s' group groups place r now refreshes ok hp ht hnow _ ih =>
    obtain ⟨s₂, hn, hr, rfl⟩ := ht
    obtain ⟨new, hm⟩ := hn.touched.mute
    have h₂ := hs.mute hm (hn.told hs.told)
    have hplace : s₂.extender.inputPlace group = some place := by
      rw [hm.steady.inputPlace, Extender.inputPlace, hp]
      rfl
    have hafter : inputAfter ((s₂.answered (.read place)).recorded (.read place) r).extender group
        (s.extender.shadow.input.byte group) r = inputAfter s₂.extender group (s₂.extender.shadow.input.byte group) r := by
      rw [hm.input]
      cases r <;> rfl
    obtain ⟨new', h₃⟩ := h₂.read hb (hg group List.mem_cons_self) hplace hr rfl
    obtain ⟨new'', h'⟩ := @ih (new' ++ (new ++ done)) (by
      rw [hnow, hafter]
      cases r <;> exact h₃) fun g hgg => hg g (List.mem_cons_of_mem _ hgg)
    exact ⟨new'' ++ (new' ++ new), by rwa [List.append_assoc, List.append_assoc]⟩

/-! ## What happens while handlers are called -/

/-- The events `new` have led from one state to another one without a read, and all along the inputs have been what they were. -/
structure Unread (s s' : State) (new : History) : Prop where
  history : s'.history = new ++ s.history
  reads : new.reads = []
  input : s'.extender.shadow.input = s.extender.shadow.input
  notes : ∀ n e, .noted n e ∈ new → e.shadow.input = s.extender.shadow.input

theorem Unread.refl (s : State) : Unread s s [] := ⟨rfl, rfl, rfl, fun _ _ h => absurd h List.not_mem_nil⟩

theorem Unread.trans {s s' s'' : State} {new new' : History} (h : Unread s s' new) (h' : Unread s' s'' new') :
    Unread s s'' (new' ++ new) where
  history := by rw [h'.history, h.history, List.append_assoc]
  reads := by rw [History.reads_append, h'.reads, h.reads]; rfl
  input := h'.input.trans h.input
  notes n e hm := (List.mem_append.1 hm).elim (fun hm => (h'.notes n e hm).trans h.input) (h.notes n e)

/-- One more event, which is no read. -/
theorem Unread.single {s s' : State} {ev : Event} (hh : s'.history = ev :: s.history)
    (hi : s'.extender.shadow.input = s.extender.shadow.input) (hr : ev.read? = none)
    (hn : ∀ n e, ev = .noted n e → e.shadow.input = s.extender.shadow.input) : Unread s s' [ev] where
  history := hh
  reads := List.filterMap_eq_nil_iff.2 fun ev' hm => by rwa [List.mem_singleton.1 hm]
  input := hi
  notes n e hm := hn n e (List.mem_singleton.1 hm).symm

/-- A touch reads nothing. -/
theorem Touch.unread {s s' : State} (h : Touch s s') : ∃ new, Unread s s' new := by
  have hi := h.frame.input
  rcases h.history with hh | ⟨ev, hh, hw, hn⟩
  · exact ⟨[], hh, rfl, hi, fun _ _ h => absurd h List.not_mem_nil⟩
  · refine ⟨[ev], .single hh hi ?_ fun n e heq => ?_⟩
    · cases ev <;> first | rfl | cases hw
    · rw [(hn n e heq).2.1, hi]

/-- Handlers, and what they do, leave the inputs as they are. -/
theorem Calls.unread {s s' : State} (h : Calls s s') : ∃ new, Unread s s' new := by
  induction h with
  | refl => exact ⟨[], .refl s⟩
  | @tail s₁ s₂ _ h ih =>
    obtain ⟨new, hs⟩ := ih
    have hnext : ∃ new, Unread s₁ s₂ new := by
      cases h with
      | touch h => exact h.unread
      | edge pin => exact ⟨[.logged (.edge pin)], .single rfl rfl rfl (by rintro _ _ ⟨⟩)⟩
      | call pin h => exact ⟨[.called pin h], .single rfl rfl rfl (by rintro _ _ ⟨⟩)⟩
    obtain ⟨new', hs'⟩ := hnext
    exact ⟨_, hs.trans hs'⟩

/-! ## Whole passes -/

/-- How a pass that began with the memory `e` and the history `base` has come to a state. It has done `done`, in which it read and no
handler was called, and then `rest`, in which nothing was read and the inputs were those that had been read. -/
structure State.Dispatching (s : State) (e : Extender) (base rest done : History) : Prop where
  history : s.history = rest ++ (done ++ base)
  quiet : done.calls = []
  once : ∀ place, done.reads.count place ≤ 1
  reads : rest.reads = []
  input : s.extender.shadow.input = e.replayed done
  notes : ∀ n e', .noted n e' ∈ rest → e'.shadow.input = e.replayed done

/-- Reading some groups reads no place twice. -/
theorem Extender.count_reads_le {e : Extender} {h : History} {groups : Byte}
    (hr : h.reads.map some = ((groups &&& e.claims.groups).groups.map e.inputPlace).reverse) (place : Place) :
    h.reads.count place ≤ 1 := by
  by_cases hm : place ∈ h.reads
  · have hmap : some place ∈ h.reads.map some := List.mem_map_of_mem hm
    rw [hr, List.mem_reverse] at hmap
    obtain ⟨g, hg, hp⟩ := List.mem_map.1 hmap
    rw [count_reads hr (e.holds_and groups g hg) hp]
    split <;> decide
  · rw [List.count_eq_zero.2 hm]
    exact Nat.zero_le 1

/-- Making the plan is no matter of the chips. -/
theorem Gathers.shadow {pending : Status} {plan : Plan} {s s' : State} (h : Gathers pending s plan s') :
    s'.extender.shadow = s.extender.shadow := by
  cases h <;> rfl

section

variable {s s' : State} {e : Extender} {base done : History}

/-- Making the plan keeps the memory what the reads say. -/
theorem Gathers.replays {pending : Status} {plan : Plan} (h : Gathers pending s plan s') (hs : s.Replays e base done) :
    ∃ new, s'.Replays e base (new ++ done) ∧ new.calls = [] ∧ new.reads = [] := by
  obtain ⟨new, hh, -, hr, hc⟩ := h.history
  exact ⟨new, hs.unread hh hr h.steady (by rw [h.shadow]) (h.told hs.told), hc, hr⟩

/-- What a pass does before it reads calls no handler. -/
theorem Prepares.replays (h : Prepares s s') (hs : s.Replays e base done) :
    ∃ new, s'.Replays e base (new ++ done) ∧ new.calls = [] ∧ new.reads = [] := by
  obtain ⟨_, _, _, _, s₁, hc, hw⟩ := h
  obtain ⟨new, hm⟩ := hc.mute fun h => h.mute
  obtain ⟨new', hm'⟩ := hw.mute fun h => h.mute
  have ht : s'.Told := hw.told (fun h => h.told (hc.told (fun h => h.told hs.told) hs.told)) (hc.told (fun h => h.told hs.told) hs.told)
  exact ⟨_, hs.mute (hm.trans hm') ht, (hm.trans hm').calls, (hm.trans hm').reads⟩

/-- Reading some groups and then calling handlers. -/
theorem Reads.dispatching {groups : Byte} {s₁ : State} {result : List Refresh × Bool}
    (h : Reads (groups &&& s.extender.claims.groups).groups s result s₁) (hc : Calls s₁ s') (hs : s.Replays e base done)
    (hb : base.latest? = some e) (hq : done.calls = []) (hr : done.reads = []) :
    ∃ rest done', s'.Dispatching e base rest done' := by
  obtain ⟨new, hl, hcalls, hreads⟩ := h.passPart
  obtain ⟨new', h₁⟩ := h.replays hs hb fun g hg => Byte.lt_of_mem_groups hg
  obtain rfl : new' = new := State.new_unique (by rw [h₁.history, List.append_assoc, hs.history]) hl.history
  obtain ⟨rest, hrest⟩ := hc.unread
  refine ⟨rest, new' ++ done, by rw [hrest.history, h₁.history], ?_, fun place => ?_, hrest.reads, ?_, fun n e' hm => ?_⟩
  · rw [History.calls_append, hcalls, hq]
    rfl
  · rw [History.reads_append, hr, List.append_nil]
    exact Extender.count_reads_le hreads place
  · rw [hrest.input, h₁.input]
  · rw [hrest.notes n e' hm, h₁.input]

end

/-- What has happened when a pass is about to read: no handler has been called and nothing has been read. -/
theorem Gathers.opening {pending : Status} {plan : Plan} {s s₁ s₂ : State} (h : Gathers pending s plan s₁) (hp : Prepares s₁ s₂)
    (hs : s.Told) : ∃ done : History, s₂.Replays s.extender s.history done ∧ done.calls = [] ∧ done.reads = [] := by
  obtain ⟨new, h₁, hcalls, hreads⟩ := h.replays (.refl hs)
  obtain ⟨new', h₂, hcalls', hreads'⟩ := hp.replays h₁
  refine ⟨_, h₂, ?_, ?_⟩
  · rw [History.calls_append, History.calls_append, hcalls', hcalls]
    rfl
  · rw [History.reads_append, History.reads_append, hreads', hreads]
    rfl

/-- When a pass calls handlers, all its inputs have been read. -/
theorem Carries.dispatching {pending : Status} {clean : Bool} {s s' : State} (h : Carries pending s clean s')
    (hs : s.history.latest? = some s.extender) : ∃ rest done, s'.Dispatching s.extender s.history rest done := by
  obtain ⟨plan, s₁, s₂, s₃, configured, written, read, hg, hc, hw, hr, -⟩ := h
  obtain ⟨done, h₃, hcalls, hreads⟩ := hg.opening ⟨_, _, _, _, s₂, hc, hw⟩ ⟨s.extender, hs, .refl _⟩
  unfold Asked at hr
  split at hr
  · obtain ⟨s₄, s₅, refreshes, hread, hturns, rfl⟩ := hr
    obtain ⟨rest, done', hd⟩ := hread.dispatching hturns.calls h₃ hs hcalls hreads
    refine ⟨rest, done', hd.history, hd.quiet, hd.once, hd.reads, ?_, hd.notes⟩
    rw [State.shadow_rearmed]
    exact hd.input
  · obtain ⟨-, rfl⟩ := hr
    refine ⟨[], done, h₃.history, hcalls, fun place => ?_, rfl, h₃.input, fun _ _ h => absurd h List.not_mem_nil⟩
    rw [hreads]
    exact Nat.zero_le 1

/-- A pass that is cut short has called no handler, or it has read before. -/
theorem Breaks.dispatching {pending : Status} {s s' : State} (h : Breaks pending s s')
    (hs : s.history.latest? = some s.extender) : (∃ done : History, s'.history = done ++ s.history ∧ done.calls = []) ∨
      ∃ rest done, s'.Dispatching s.extender s.history rest done := by
  obtain ⟨plan, s₁, s₂, hg, hp, -, hf⟩ := h
  obtain ⟨done, h₂, hcalls, hreads⟩ := hg.opening hp ⟨s.extender, hs, .refl _⟩
  cases hf with
  | early ht =>
    obtain ⟨new, hstill, hcalls'⟩ := ht.still
    refine .inl ⟨new ++ done, ?_, ?_⟩
    · rw [hstill.history, h₂.history, List.append_assoc]
    · rw [History.calls_append, hcalls', hcalls]
      rfl
  | late hread _ hc => exact .inr (hread.dispatching hc h₂ hs hcalls hreads)

/-- From the call of a handler on, every note of a pass is of a memory with the inputs that have been read before. -/
theorem State.Dispatching.at_note {s : State} {e e' : Extender} {base rest done ending later since older : History} {n : Note}
    {pin : Nat} {hd : Handler} (h : s.Dispatching e base rest done)
    (hend : ∀ ev ∈ ending, ∃ n e', ev = .noted n e' ∧ e'.shadow.input = s.extender.shadow.input)
    (heq : ending ++ (rest ++ done) = later ++ .noted n e' :: (since ++ .called pin hd :: older)) :
    e'.shadow.input = e.replayed older ∧ ∀ place, older.reads.count place ≤ 1 := by
  have hdone : Event.called pin hd ∉ done := fun hm => by
    have hcalls : (pin, hd) ∈ History.calls done := List.mem_filterMap.2 ⟨_, hm, rfl⟩
    rw [h.quiet] at hcalls
    cases hcalls
  rw [← List.append_assoc, ← List.cons_append, ← List.append_assoc] at heq
  rcases List.append_eq_append_iff.1 heq with ⟨x, -, hx⟩ | ⟨x, hleft, hx⟩
  · exact absurd (hx ▸ List.mem_append_right _ List.mem_cons_self) hdone
  · cases x with
    | nil =>
      rw [List.nil_append] at hx
      exact absurd (hx ▸ List.mem_cons_self) hdone
    | cons ev x =>
      -- the handler is called after `done`, and nothing is read from then on
      obtain ⟨rfl, rfl⟩ := List.cons.inj hx
      have hreads : History.reads (ending ++ rest) = [] := by
        rw [History.reads_append, h.reads, List.append_nil]
        refine List.filterMap_eq_nil_iff.2 fun ev hm => ?_
        obtain ⟨n, e', rfl, -⟩ := hend ev hm
        rfl
      rw [hleft, History.reads_append] at hreads
      have hx : History.reads x = [] := (List.append_eq_nil_iff.1 hreads).2
      rw [List.append_eq, Extender.replayed_append hx, History.reads_append, hx, List.nil_append]
      refine ⟨?_, h.once⟩
      rcases List.mem_append.1 (hleft ▸ List.mem_append_left _ (List.mem_append_right _ List.mem_cons_self) :
        Event.noted n e' ∈ ending ++ rest) with hm | hm
      · obtain ⟨_, _, ⟨⟩, hi⟩ := hend _ hm
        exact hi.trans h.input
      · exact h.notes n e' hm

/-! ## Sessions -/

/-- A history tells of a pass, of the memory at its beginning and of what has happened in it up to its end or to the fault that has cut
it short, of which there is the last note. -/
inductive History.Spans (h : History) : Extender → History → Prop where
  | ended {p : PassRecord} : h.Records p → Spans h p.before (.noted (.passEnded p.clean) p.after :: p.body)
  | cut {c : CutRecord} : h.CutShort c → Spans h c.before (.noted .passCut c.after :: c.body)

/-- What a part of a history spans is in the history. -/
theorem History.Spans.mem {h events : History} {before : Extender} (hp : h.Spans before events) {ev : Event} (hm : ev ∈ events) :
    ev ∈ h := by
  cases hp with
  | ended hp =>
    obtain ⟨⟨later, rfl⟩, -⟩ := hp
    refine List.mem_append_right _ ?_
    rw [← List.cons_append]
    exact List.mem_append_left _ hm
  | cut hc =>
    obtain ⟨⟨later, rfl⟩, -⟩ := hc
    refine List.mem_append_right _ ?_
    rw [← List.cons_append]
    exact List.mem_append_left _ hm

/-- A pass of a session that has called a handler has read before. -/
theorem History.Spans.dispatching {s₀ s : State} {before : Extender} {events : History} (hp : s.history.Spans before events)
    (hgo : Goes s₀ s) (h₀ : s₀.history = []) (hcalls : events.calls ≠ []) : ∃ (t : State) (base rest done ending : History),
      t.Dispatching before base rest done ∧ events = ending ++ (rest ++ done) ∧
      ∀ ev ∈ ending, ∃ n e, ev = .noted n e ∧ e.shadow.input = t.extender.shadow.input := by
  cases hp with
  | @ended p hp =>
    obtain ⟨s₁, t, t', -, hst⟩ := hgo.exists_stems h₀ hp
    obtain ⟨rest, done, hd⟩ := hst.carries.dispatching (by rw [hst.history, hst.extender]; rfl)
    obtain ⟨ending, done', hbody, hdone, hend⟩ := hst.body
    obtain rfl : done' = rest ++ done := State.new_unique hdone (by rw [hd.history, List.append_assoc])
    have hafter : p.after.shadow.input = t'.extender.shadow.input := by
      rw [hst.after]
      cases p.clean <;> rfl
    rw [hst.extender] at hd
    refine ⟨t', _, rest, done, .noted (.passEnded p.clean) p.after :: ending, hd, by rw [hbody, List.cons_append],
      fun ev hm => ?_⟩
    rcases List.mem_cons.1 hm with rfl | hm
    · exact ⟨_, _, rfl, hafter⟩
    · obtain ⟨bits, rfl⟩ := hend ev hm
      exact ⟨_, _, rfl, hafter⟩
  | @cut c hc =>
    obtain ⟨s₁, t, t', -, hst⟩ := hgo.exists_cut h₀ hc
    rcases hst.breaks.dispatching (by rw [hst.history, hst.extender]; rfl) with ⟨done, hdone, hquiet⟩ | ⟨rest, done, hd⟩
    · obtain rfl : c.body = done := State.new_unique hst.body hdone
      exact absurd hquiet hcalls
    · have hbody : c.body = rest ++ done := State.new_unique hst.body (by rw [hd.history, List.append_assoc])
      rw [hst.extender] at hd
      refine ⟨t', _, rest, done, [.noted .passCut c.after], hd, by rw [hbody]; rfl, fun ev hm => ?_⟩
      refine ⟨_, _, List.mem_singleton.1 hm, ?_⟩
      rw [hst.after]
      rfl

/-- All handlers of a pass see one snapshot of the inputs. From the call of a handler to the end of the pass, or to the fault that cuts
it short, the inputs in the memory are those of the moment of the call; and whatever pin a handler, or an operation to any depth within
it, reads or compares, is answered from them. Of a group that the pass has read they are what this read makes of the inputs from before
the pass, which a read that fails leaves as they were; of other groups they are the inputs from before the pass. -/
theorem handlers_see_one_snapshot {s : State} (hs : Reachable s) {before : Extender} {events : History}
    (hp : s.history.Spans before events) {later since older : History} {n : Note} {e : Extender} {pin : Nat} {h : Handler}
    (heq : events = later ++ .noted n e :: (since ++ .called pin h :: older)) :
    e.shadow.input = before.replayed older ∧
    (∀ i v, n = .opEnded (.call (.read i)) (.bit v) → v = (before.replayed older).get i) ∧
    (∀ i high v, n = .opEnded (.call (.get i high)) (.bit v) → v = ((before.replayed older).get i == high)) ∧
    ∀ g < 8,
      ((∀ place, before.inputPlace g = some place → place ∉ older.reads) →
        (before.replayed older).byte g = before.shadow.input.byte g) ∧
      ∀ place r newer earlier, before.inputPlace g = some place → older = newer ++ .transaction (.read place) r :: earlier →
        (before.replayed older).byte g = inputAfter { before with shadow := ((History.latest? earlier).getD before).shadow } g
          (before.shadow.input.byte g) r := by
  obtain ⟨e₀, board, hmade, hgo, -⟩ := hs.goes
  have hcalled : (pin, h) ∈ History.calls events := by
    refine List.mem_filterMap.2 ⟨.called pin h, ?_, rfl⟩
    simp [heq]
  obtain ⟨t, base, rest, done, ending, hd, hevents, hend⟩ := hp.dispatching hgo rfl (List.ne_nil_of_mem hcalled)
  obtain ⟨hinput, honce⟩ := hd.at_note hend (hevents.symm.trans heq)
  have hsays : n.Confirmed e := by
    refine hgo.moves.truthful rfl n e (hp.mem ?_)
    rw [heq]
    exact List.mem_append_right _ List.mem_cons_self
  refine ⟨hinput, ?_, ?_, fun g hg => ⟨fun hno => ?_, fun place r newer earlier hplace holder => ?_⟩⟩
  · rintro i v rfl
    rw [← hinput]
    exact hsays
  · rintro i high v rfl
    rw [← hinput]
    exact hsays
  · have hbyte := Extender.byte_replayed_append hno []
    rwa [List.append_nil] at hbyte
  · have hcount := honce place
    rw [holder, ← List.singleton_append, History.reads_append, History.reads_append, List.count_append, List.count_append] at hcount
    have hone : (History.reads [.transaction (.read place) r]).count place = 1 := List.count_singleton_self
    rw [holder]
    refine Extender.byte_replayed_of_read hg hplace ?_ ?_ <;> rw [← List.count_eq_zero] <;> omega

/-- The pin and the value of a read that has ended when a history still lacks its `k` latest events, if a handler was called `j` events
before that. -/
def History.readSinceCall? (h : History) (k j : Nat) : Option (Nat × Bool) :=
  match h.drop k with
  | .noted (.opEnded (.call (.read pin)) (.bit value)) _ :: past => match past.drop j with
    | .called _ _ :: _ => some (pin, value)
    | _ => none
  | _ => none

/-- Where a read since a call is found, there has been one. -/
theorem History.exists_read_since_call {h : History} {k j pin : Nat} {value : Bool} (hk : h.readSinceCall? k j = some (pin, value)) :
    ∃ later since older e pin' hd,
      h = later ++ .noted (.opEnded (.call (.read pin)) (.bit value)) e :: (since ++ .called pin' hd :: older) := by
  unfold readSinceCall? at hk
  split at hk
  · rename_i e past hpast
    split at hk
    · rename_i pin' hd older holder
      cases hk
      refine ⟨h.take k, past.take j, older, e, pin', hd, ?_⟩
      rw [← holder, List.take_append_drop, ← hpast, List.take_append_drop]
    · cases hk
  · cases hk

/-- A handler changes the chip's input register and then reads the pin, whose chip has no line: it is answered with the byte that the
pass has read, not with what was there before and not with what is there now. -/
theorem handlers_see_one_snapshot_of_read :
    let s := State.oneChip [.claim 0, .op (.call (.setup 0 PinAttributes.input)), .op (.call (.attach 0 ⟨0, 7, .change⟩)),
      .op .update, .op (.handler 7 [.change (.poke ⟨0x20, 0⟩ 0), .call (.read 0)]), .op (.change (.poke ⟨0x20, 0⟩ 1)), .op .update]
    ∃ before events later since older e pin h, s.history.Spans before events ∧
      events = later ++ .noted (.opEnded (.call (.read 0)) (.bit true)) e :: (since ++ .called pin h :: older) ∧
      before.shadow.input.get 0 = false ∧ (before.replayed older).get 0 = true ∧ e.shadow.input.get 0 = true ∧
      s.board.peek ⟨0x20, 0⟩ = some 0 := by
  intro s
  obtain ⟨p, hp, hq⟩ := (Option.any_eq_true _ _).1
    (by decide +kernel :
      ((s.history.pass? 2).any fun p => !p.before.shadow.input.get 0 && p.body.readSinceCall? 0 7 == some (0, true)) = true)
  rw [Bool.and_eq_true, Bool.not_eq_true', beq_iff_eq] at hq
  obtain ⟨hbefore, hread⟩ := hq
  obtain ⟨later, since, older, e, pin, h, hbody⟩ := History.exists_read_since_call hread
  have hspan : s.history.Spans p.before (.noted (.passEnded p.clean) p.after :: p.body) := .ended (History.records_of_pass? hp)
  have heq : .noted (.passEnded p.clean) p.after :: p.body = (.noted (.passEnded p.clean) p.after :: later) ++
      .noted (.opEnded (.call (.read 0)) (.bit true)) e :: (since ++ .called pin h :: older) := by rw [hbody, List.cons_append]
  obtain ⟨hinput, hvalue, -⟩ := handlers_see_one_snapshot (reachable_oneChip _) hspan heq
  have hone := (hvalue 0 true rfl).symm
  exact ⟨p.before, _, _, since, older, e, pin, h, hspan, heq, hbefore, hone, hinput ▸ hone, by decide +kernel⟩

end PortExpander
