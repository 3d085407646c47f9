import Mathlib.Data.List.DropRight
import PortExpander.Proofs.Footprint
import PortExpander.Proofs.Passes

/-!
# The turns of pins

Once a pass has read the inputs, the pins that it has read have their turns, one after the other in ascending order. At its turn
the handler that a pin has then is called, if the input has changed the way the handler waits for. What the handlers are at a
pin's turn, the notes of a history tell: `Dispatched` says which calls the turns of some pins come to, in terms of the notes
alone.
-/

namespace PortExpander

open Sim Engine

/-! ## Slots -/

/-- Whether an event is not the call of a handler of a pin or of a later one. -/
def Event.precedes (ev : Event) (pin : Nat) : Bool := ev.call?.all (·.1 < pin)

namespace History

/-- The handlers of a pin that have been called, the latest first. -/
def callsOf (h : History) (pin : Nat) : List Handler := (h.calls.filter (·.1 == pin)).map (·.2)

/-- The handler of a pin at the time of the latest note. -/
def slot (h : History) (pin : Nat) : Option Handler := h.latest?.bind (·.handlers pin)

/-- What happened before a handler of the pin or of a later one was called. -/
def beforeTurn (h : History) (pin : Nat) : History := h.rtakeWhile (·.precedes pin)

@[simp] theorem callsOf_append (h h' : History) (pin : Nat) : (h ++ h').callsOf pin = h.callsOf pin ++ h'.callsOf pin := by
  simp [callsOf]

/-- Where only handlers of other pins are called, none of the pin is. -/
theorem callsOf_of_calls {h : History} {pin : Nat} (hc : ∀ c ∈ h.calls, c.1 ≠ pin) : h.callsOf pin = [] := by
  simp only [callsOf, List.map_eq_nil_iff, List.filter_eq_nil_iff, beq_iff_eq]
  exact hc

/-- Calls of handlers of earlier pins come before the turn of a pin. -/
theorem beforeTurn_append {h h' : History} {pin : Nat} (hc : ∀ c ∈ h'.calls, c.1 < pin) :
    (h ++ h').beforeTurn pin = h.beforeTurn pin ++ h' := by
  have hall : ∀ ev ∈ h'.reverse, ev.precedes pin = true := by
    intro ev hm
    unfold Event.precedes
    cases hcall : ev.call? with
    | none => rfl
    | some c => simpa using hc c (List.mem_filterMap.2 ⟨ev, List.mem_reverse.1 hm, hcall⟩)
  rw [beforeTurn, List.rtakeWhile, List.reverse_append, List.takeWhile_append_of_pos hall, List.reverse_append,
    List.reverse_reverse]
  rfl

/-- What comes after the call of a handler of a later pin does not come before the turn of a pin. -/
theorem beforeTurn_append_call {h h' : History} {pin pin' : Nat} {hd : Handler} (hp : pin ≤ pin')
    (hc : ∀ c ∈ h'.calls, c.1 < pin) : (h ++ .called pin' hd :: h').beforeTurn pin = h' := by
  have hno : ¬Event.precedes (.called pin' hd) pin = true := by simpa [Event.precedes, Event.call?] using hp
  rw [← List.singleton_append, ← List.append_assoc, beforeTurn_append hc, beforeTurn,
    List.rtakeWhile_concat_neg (fun ev : Event => ev.precedes pin) _ _ hno, List.nil_append]

/-- Nothing that comes after the call of a handler of the pin or of a later one matters before the turn of a pin. -/
theorem beforeTurn_append_of_call (h : History) {h' : History} {pin : Nat} (hc : ∃ c ∈ h'.calls, pin ≤ c.1) :
    (h ++ h').beforeTurn pin = h'.beforeTurn pin := by
  obtain ⟨c, hc, hle⟩ := hc
  obtain ⟨ev, hm, hcall⟩ := List.mem_filterMap.1 hc
  have hno : h'.reverse.takeWhile (·.precedes pin) ≠ h'.reverse := by
    intro heq
    have hev := List.takeWhile_eq_self_iff.1 heq ev (List.mem_reverse.2 hm)
    simp only [Event.precedes, hcall, Option.all_some, decide_eq_true_eq] at hev
    omega
  have hlen : (h'.reverse.takeWhile (·.precedes pin)).length ≠ h'.reverse.length := fun heq =>
    hno ((List.takeWhile_prefix _).eq_of_length heq)
  rw [beforeTurn, List.rtakeWhile, List.reverse_append, List.takeWhile_append, if_neg hlen]
  rfl

/-- Where all notes show a handler of a pin, the latest one does. -/
theorem slot_of_notes {h past : History} {n : Note} {e : Extender} {pin : Nat} {hd : Handler}
    (hh : ∀ n e, .noted n e ∈ h → e.handlers pin = some hd) (he : e.handlers pin = some hd) :
    slot (h ++ .noted n e :: past) pin = some hd := by
  induction h with
  | nil => exact he
  | cons ev h ih =>
    have ih := ih fun n e hm => hh n e (List.mem_cons_of_mem _ hm)
    cases ev with
    | noted n e => exact hh n e List.mem_cons_self
    | _ => exact ih

end History

/-- The handler that a pin had at its turn in a pass. -/
def PassRecord.slot (p : PassRecord) (pin : Nat) : Option Handler :=
  History.slot (p.body.beforeTurn pin ++ .noted (.passBegan p.pending) p.before :: p.past) pin

/-- If all changes have been noted, the latest note has the handler of a pin. -/
theorem State.Told.slot {s : State} (h : s.Told) (pin : Nat) : s.history.slot pin = s.extender.handlers pin := by
  obtain ⟨e, he, hag⟩ := h
  rw [History.slot, he, hag.handlers]
  rfl

/-! ## Turns -/

/-- What the turns of some pins add to a history: the handlers that are called, the latest first, are those of pins in descending
order, and each pin's handler is called if it waits for the change that the pin's input has made. -/
structure Dispatched (turns : List (Nat × Bool × Bool)) (s s' : State) (new : History) : Prop where
  history : s'.history = new ++ s.history
  told : s'.Told
  within : ∀ c ∈ new.calls, c.1 ∈ turns.map Prod.fst
  ordered : (new.calls.map Prod.fst).Pairwise (· > ·)
  start : ∀ pin, (∀ turn ∈ turns, pin ≤ turn.1) → (new.beforeTurn pin ++ s.history).slot pin = s.extender.handlers pin
  called : ∀ pin was now, (pin, was, now) ∈ turns → new.callsOf pin =
    ((new.beforeTurn pin ++ s.history).slot pin).toList.filter fun h => h.edge.matches was now

namespace Dispatched

variable {turns : List (Nat × Bool × Bool)} {s s₁ s' : State} {new mid : History} {pin : Nat} {was now : Bool} {h : Handler}

theorem nil (hs : s.Told) : Dispatched [] s s [] where
  history := rfl
  told := hs
  within _ hm := absurd hm List.not_mem_nil
  ordered := .nil
  start pin _ := hs.slot pin
  called _ _ _ hm := absurd hm List.not_mem_nil

/-- A pin whose handlers are not called at the turns of later pins. -/
theorem callsOf_of_lt (d : Dispatched turns s s' new) (hlt : ∀ turn ∈ turns, pin < turn.1) : new.callsOf pin = [] := by
  refine History.callsOf_of_calls fun c hc heq => ?_
  obtain ⟨turn, hm, ht⟩ := List.mem_map.1 (d.within c hc)
  have := hlt turn hm
  omega

/-- A turn at which no handler waits for the change calls none. -/
theorem skip (d : Dispatched turns s s' new) (hlt : ∀ turn ∈ turns, pin < turn.1)
    (hno : ∀ h, s.extender.handlers pin = some h → h.edge.matches was now = false) :
    Dispatched ((pin, was, now) :: turns) s s' new where
  history := d.history
  told := d.told
  within c hc := List.mem_cons_of_mem _ (d.within c hc)
  ordered := d.ordered
  start pin' hle := d.start pin' fun turn hm => hle turn (List.mem_cons_of_mem _ hm)
  called pin' was' now' hm := by
    rcases List.mem_cons.1 hm with heq | hm
    · cases heq
      rw [d.callsOf_of_lt hlt, d.start pin fun turn hm => (hlt turn hm).le]
      symm
      simpa [List.filter_eq_nil_iff] using hno
    · exact d.called pin' was' now' hm

/-- A handler is called, what it does adds `mid`, and then the later pins have their turns. -/
theorem call (d : Dispatched turns s₁ s' new) (hs : s.Told) (hlt : ∀ turn ∈ turns, pin < turn.1)
    (hh : s.extender.handlers pin = some h) (hm : h.edge.matches was now = true)
    (hmid : s₁.history = mid ++ .called pin h :: .logged (.edge pin) :: s.history) (hcalls : mid.calls = []) :
    Dispatched ((pin, was, now) :: turns) s s' (new ++ (mid ++ .called pin h :: [.logged (.edge pin)])) := by
  have hseg : History.calls (mid ++ .called pin h :: [.logged (.edge pin)]) = [(pin, h)] := by
    rw [History.calls_append, hcalls]
    rfl
  have hold : s₁.history = (mid ++ .called pin h :: [.logged (.edge pin)]) ++ s.history := by
    rw [hmid, List.append_assoc]
    rfl
  have hstart (pin' : Nat) (hle : pin' ≤ pin) :
      History.slot (History.beforeTurn (new ++ (mid ++ .called pin h :: [.logged (.edge pin)])) pin' ++ s.history) pin' =
        s.extender.handlers pin' := by
    rw [← List.append_assoc, History.beforeTurn_append_call hle (by simp [History.calls, Event.call?])]
    have hedge : (s.seeing (.logged (.edge pin))).Told := hs.keep rfl (.refl _)
    exact hedge.slot pin'
  refine ⟨by rw [d.history, hold, ← List.append_assoc], d.told, fun c hc => ?_, ?_, fun pin' hle => ?_, ?_⟩
  · rw [History.calls_append, hseg] at hc
    rcases List.mem_append.1 hc with hc | hc
    · exact List.mem_cons_of_mem _ (d.within c hc)
    · rw [List.mem_singleton.1 hc]
      exact List.mem_cons_self
  · rw [History.calls_append, hseg, List.map_append, List.pairwise_append]
    refine ⟨d.ordered, List.pairwise_singleton _ _, fun pin' hp' pin'' hp'' => ?_⟩
    obtain ⟨c, hc, rfl⟩ := List.mem_map.1 hp'
    obtain ⟨turn, hturn, heq⟩ := List.mem_map.1 (d.within c hc)
    rw [List.mem_singleton.1 hp'', ← heq]
    exact hlt turn hturn
  · exact hstart pin' (hle _ List.mem_cons_self)
  · intro pin' was' now' hm'
    rw [History.callsOf_append]
    rcases List.mem_cons.1 hm' with heq | hm'
    · cases heq
      rw [d.callsOf_of_lt hlt, hstart pin le_rfl, hh]
      simp [History.callsOf, hseg, hm]
    · have hpin : pin < pin' := hlt _ hm'
      have hnone : History.callsOf (mid ++ .called pin h :: [.logged (.edge pin)]) pin' = [] :=
        History.callsOf_of_calls (by simp [hseg, hpin.ne])
      rw [hnone, List.append_nil, d.called pin' was' now' hm', History.beforeTurn_append (by simp [hseg, hpin]),
        List.append_assoc, ← hold]

end Dispatched

/-- No turn is passed over if the extender has all the pins. -/
theorem Turns.dispatched {turns : List (Nat × Bool × Bool)} {s s' : State} (h : Turns turns s s') (hs : s.Told)
    (hroom : ∀ turn ∈ turns, turn.1 < s.extender.claims.capacity) (hp : turns.Pairwise (·.1 < ·.1)) :
    ∃ new, Dispatched turns s s' new := by
  induction h with
  | nil => exact ⟨[], .nil hs⟩
  | skip hno _ ih =>
    obtain ⟨hlt, hp⟩ := List.pairwise_cons.1 hp
    obtain ⟨hpin, hroom⟩ := List.forall_mem_cons.1 hroom
    obtain ⟨new, d⟩ := ih hs hroom hp
    exact ⟨new, d.skip hlt (hno hpin)⟩
  | @call s s₁ s' pin was now h turns hh hm hn _ ih =>
    obtain ⟨hlt, hp⟩ := List.pairwise_cons.1 hp
    obtain ⟨mid, hmute⟩ := hn.touched.mute
    have hclaims : s₁.extender.claims = s.extender.claims := hn.touched.frame.claims
    obtain ⟨new, d⟩ := ih (hn.told (hs.keep rfl (.refl _)))
      (fun turn ht => hclaims ▸ hroom turn (List.mem_cons_of_mem _ ht)) hp
    exact ⟨_, d.call hs hlt hh hm hmute.history hmute.calls⟩

/-! ## Pins of claimed groups -/

/-- Only pins that are there are claimed, and the pins that are there make up groups. -/
structure Claims.Whole (c : Claims) : Prop where
  proper : c.Proper
  groups : 8 ∣ c.capacity

/-- Every pin of a group with a claimed pin is there. -/
theorem Claims.Whole.lt_capacity {c : Claims} (h : c.Whole) {group bit : Nat} (hg : c.groups.getLsbD group = true) (hb : bit < 8) :
    8 * group + bit < c.capacity := by
  obtain ⟨pin, hpin, hget⟩ := PinMap.exists_get_of_groups hg
  have hlt := h.proper pin hget
  have hgroups := h.groups
  omega

/-- Every move keeps claimed pins among those that are there. -/
theorem Move.whole {s s' : State} (h : Move s s') (hs : s.extender.claims.Whole) : s'.extender.claims.Whole := by
  cases h with
  | touch h => exact h.frame.claims ▸ hs
  | work _ _ h => exact h.steady.claims ▸ hs
  | claim pin claims _ _ hc => exact ⟨hs.proper.claim hc, (Claims.capacity_claim hc).symm ▸ hs.groups⟩
  | free pin => exact ⟨hs.proper.free pin, (Claims.capacity_free _ pin).symm ▸ hs.groups⟩
  | begin pending =>
    rw [State.extender_noting, State.extender_started]
    exact hs
  | complete clean => cases clean <;> exact hs
  | _ => exact hs

/-- Moves keep claimed pins among those that are there. -/
theorem Moves.whole {s s' : State} (h : Moves s s') (hs : s.extender.claims.Whole) : s'.extender.claims.Whole := by
  induction h with
  | refl => exact hs
  | tail _ h ih => exact h.whole ih

/-- An extender that has just been made has no pin claimed, and its pins make up groups. -/
theorem Made.whole {e : Extender} (h : Made e) : e.claims.Whole := by
  rcases h.eq_fresh with ⟨_, _, _, rfl⟩ | ⟨_, rfl⟩
  · exact ⟨Claims.proper_new _ _, show 8 ∣ genericCapacity by decide⟩
  · exact ⟨Claims.proper_new _ _, show 8 ∣ queuedCapacity by decide⟩

/-! ## What has been read -/

/-- Each read finds the inputs of its group as they were before, and keeps what it has read. The inputs of groups that are not
read stay as they were. -/
theorem Reads.changes {groups : List Nat} {s s' : State} {result : List Refresh × Bool} (h : Reads groups s result s')
    (hn : groups.Nodup) (hlt : ∀ g ∈ groups, g < 8) :
    result.1.map (·.group) = groups ∧
    (∀ r ∈ result.1, r.was = s.extender.shadow.input.byte r.group ∧ r.now = s'.extender.shadow.input.byte r.group) ∧
    ∀ g, g ∉ groups → s'.extender.shadow.input.byte g = s.extender.shadow.input.byte g := by
  induction h with
  | nil => exact ⟨rfl, by simp, fun _ _ => rfl⟩
  | @cons s s₁ s' group groups place r now refreshes ok _ ht _ _ ih =>
    obtain ⟨hnot, hn⟩ := List.nodup_cons.1 hn
    obtain ⟨hgroups, hreads, hrest⟩ := ih hn fun g hg => hlt g (List.mem_cons_of_mem _ hg)
    obtain ⟨_, _, _, _, hinput, _⟩ := ht.passPart
    -- the transaction and what falls into it leave the inputs alone, so only this group's have been replaced
    have hset (g : Nat) : (s₁.extender.shadow.input.setByte group now).byte g =
        if g = group then now else s.extender.shadow.input.byte g := by
      rw [PinMap.byte_setByte _ _ _ _ (hlt group List.mem_cons_self), hinput]
    refine ⟨by rw [← hgroups]; rfl, fun r' hr => ?_, fun g hg => ?_⟩
    · rcases List.mem_cons.1 hr with rfl | hr
      · refine ⟨rfl, ?_⟩
        rw [hrest group hnot]
        exact ((hset group).trans (if_pos rfl)).symm
      · have hne : r'.group ≠ group := fun heq => hnot (heq ▸ hgroups ▸ List.mem_map_of_mem hr)
        obtain ⟨hwas, hnow⟩ := hreads r' hr
        exact ⟨hwas.trans ((hset _).trans (if_neg hne)), hnow⟩
    · obtain ⟨hne, hg⟩ := not_or.1 (List.mem_cons.not.1 hg)
      exact (hrest g hg).trans ((hset g).trans (if_neg hne))

namespace Engine.Refresh

/-- A turn is that of a pin of a group that was read. -/
theorem mem_turns {rs : List Refresh} {pin : Nat} {was now : Bool} (h : (pin, was, now) ∈ turns rs) :
    ∃ r ∈ rs, r.group = pin / 8 ∧ was = r.was.getLsbD (pin % 8) ∧ now = r.now.getLsbD (pin % 8) := by
  simp only [turns, turnsOf, List.mem_flatMap, List.mem_map, List.mem_range] at h
  obtain ⟨r, hr, bit, hb, heq⟩ := h
  cases heq
  have hmod : (8 * r.group + bit) % 8 = bit := by omega
  exact ⟨r, hr, by omega, by rw [hmod], by rw [hmod]⟩

/-- Every pin of a group that was read has its turn. -/
theorem mem_turns_of_mem {rs : List Refresh} {r : Refresh} (hr : r ∈ rs) {pin : Nat} (hp : r.group = pin / 8) :
    ∃ was now, (pin, was, now) ∈ turns rs := by
  refine ⟨r.was.getLsbD (pin % 8), r.now.getLsbD (pin % 8), ?_⟩
  simp only [turns, turnsOf, List.mem_flatMap, List.mem_map, List.mem_range]
  refine ⟨r, hr, pin % 8, Nat.mod_lt _ (by decide), ?_⟩
  rw [show 8 * r.group + pin % 8 = pin by omega]

/-- Pins have their turns in ascending order if groups have been read in ascending order. -/
theorem pairwise_turns {rs : List Refresh} (h : (rs.map (·.group)).Pairwise (· < ·)) : (turns rs).Pairwise (·.1 < ·.1) := by
  rw [List.pairwise_map] at h
  refine List.pairwise_flatMap.2 ⟨fun r _ => ?_, h.imp fun {r r'} hlt turn ht turn' ht' => ?_⟩
  · refine List.pairwise_map.2 (List.pairwise_lt_range.imp fun hlt => ?_)
    exact Nat.add_lt_add_left hlt _
  · simp only [turnsOf, List.mem_map, List.mem_range] at ht ht'
    obtain ⟨bit, hb, rfl⟩ := ht
    obtain ⟨bit', hb', rfl⟩ := ht'
    show 8 * r.group + bit < 8 * r'.group + bit'
    omega

end Engine.Refresh

/-! ## A whole pass -/

/-- The groups of a mask come in ascending order. -/
theorem Byte.pairwise_groups (mask : Byte) : mask.groups.Pairwise (· < ·) := List.pairwise_lt_range.filter _

theorem State.handlers_rearmed (s : State) : s.rearmed.extender.handlers = s.extender.handlers := by
  unfold rearmed
  rw [extender_amend]
  split <;> rfl

/-- A part of a pass from `s` to `s'` calls handlers between `s₁` and `s₂`, when it has done its other work: the pins whose inputs
it has read have their turns, each with its input as it was in `s` and as it is in `s'`. -/
structure Dispatches (s s₁ s₂ s' : State) (turns : List (Nat × Bool × Bool)) (old : History) : Prop where
  before : s₁.history = old ++ s.history
  quiet : old.calls = []
  told : s₁.Told
  taken : Turns turns s₁ s₂
  room : ∀ turn ∈ turns, turn.1 < s₁.extender.claims.capacity
  ascending : turns.Pairwise (·.1 < ·.1)
  read : ∀ pin was now, (pin, was, now) ∈ turns →
    was = s.extender.shadow.input.get pin ∧ now = s'.extender.shadow.input.get pin
  unread : ∀ pin, (∀ turn ∈ turns, turn.1 ≠ pin) → s'.extender.shadow.input.get pin = s.extender.shadow.input.get pin
  history : s'.history = s₂.history
  handlers : s'.extender.handlers = s₂.extender.handlers

theorem Dispatches.refl {s : State} (hs : s.Told) : Dispatches s s s s [] [] :=
  ⟨rfl, rfl, hs, .nil, by simp, .nil, by simp, fun _ _ => rfl, rfl, rfl⟩

/-- A part that calls no handler may come before. -/
theorem Dispatches.prepend {s₀ s s₁ s₂ s' : State} {turns : List (Nat × Bool × Bool)} {old mid : History}
    (d : Dispatches s s₁ s₂ s' turns old) (hmid : s.history = mid ++ s₀.history) (hc : mid.calls = [])
    (hi : s.extender.shadow.input = s₀.extender.shadow.input) : Dispatches s₀ s₁ s₂ s' turns (old ++ mid) where
  before := by rw [d.before, hmid, List.append_assoc]
  quiet := by rw [History.calls_append, d.quiet, hc]; rfl
  told := d.told
  taken := d.taken
  room := d.room
  ascending := d.ascending
  read := hi ▸ d.read
  unread := hi ▸ d.unread
  history := d.history
  handlers := d.handlers

/-- Reading the inputs calls the handlers of the pins that were read. -/
theorem Refreshes.dispatches {groups : Byte} {s s' : State} {ok : Bool} (h : Refreshes groups s ok s') (hs : s.Told)
    (hwhole : s.extender.claims.Whole) : ∃ s₁ s₂ turns old, Dispatches s s₁ s₂ s' turns old := by
  obtain ⟨s₁, s₂, rs, hr, ht, rfl⟩ := h
  obtain ⟨old, hl, hc, -⟩ := hr.passPart
  obtain ⟨_, _, _, hinput⟩ := ht.passPart
  have hord := Byte.pairwise_groups (groups &&& s.extender.claims.groups)
  obtain ⟨hgroups, hreads, hrest⟩ := hr.changes (hord.imp Nat.ne_of_lt) fun g hg => Byte.lt_of_mem_groups hg
  have hnow (pin : Nat) : s₂.rearmed.extender.shadow.input.get pin = s₁.extender.shadow.input.get pin := by
    rw [State.shadow_rearmed, hinput]
  refine ⟨s₁, s₂, Refresh.turns rs, old, hl.history, hc, hr.told hs, ht, ?_, ?_, ?_, ?_, rfl, s₂.handlers_rearmed⟩
  · rintro ⟨pin, was, now⟩ hm
    obtain ⟨r, hr, hg, -⟩ := Refresh.mem_turns hm
    have hgroup : r.group ∈ (groups &&& s.extender.claims.groups).groups := hgroups ▸ List.mem_map_of_mem hr
    have hlt := hwhole.lt_capacity (s.extender.holds_and groups _ hgroup) (Nat.mod_lt pin (by decide))
    rw [hg, Nat.div_add_mod] at hlt
    exact hl.steady.claims ▸ hlt
  · exact Refresh.pairwise_turns (hgroups ▸ hord)
  · intro pin was now hm
    obtain ⟨r, hr, hg, rfl, rfl⟩ := Refresh.mem_turns hm
    obtain ⟨hwas, hnow'⟩ := hreads r hr
    rw [hnow, PinMap.get_eq_getLsbD_byte, PinMap.get_eq_getLsbD_byte, ← hg, hwas, hnow']
    exact ⟨rfl, rfl⟩
  · intro pin hno
    rw [hnow, PinMap.get_eq_getLsbD_byte, PinMap.get_eq_getLsbD_byte, hrest]
    intro hg
    rw [← hgroups, List.mem_map] at hg
    obtain ⟨r, hr, hg⟩ := hg
    obtain ⟨was, now, hm⟩ := Refresh.mem_turns_of_mem hr hg
    exact hno _ hm rfl

/-- A pass calls the handlers of the pins that it has read. -/
theorem Carries.dispatches {pending : Status} {s s' : State} {clean : Bool} (h : Carries pending s clean s') (hs : s.Told)
    (hwhole : s.extender.claims.Whole) : ∃ s₁ s₂ turns old, Dispatches s s₁ s₂ s' turns old := by
  obtain ⟨plan, s₁, s₂, s₃, configured, written, read, hg, hc, hw, hr, _⟩ := h
  obtain ⟨looked, hlooked, -, -, hcalls⟩ := hg.history
  have hlook : s₁.extender.shadow = s.extender.shadow := by cases hg <;> rfl
  obtain ⟨new₁, hm₁⟩ := hc.mute fun h => h.mute
  obtain ⟨new₂, hm₂⟩ := hw.mute fun h => h.mute
  have hm := hm₁.trans hm₂
  have hs₂ : s₂.Told := hc.told (fun h => h.told (hg.told hs)) (hg.told hs)
  have hs₃ : s₃.Told := hw.told (fun h => h.told hs₂) hs₂
  have hlast : ∃ s₄ s₅ turns old, Dispatches s₃ s₄ s₅ s' turns old := by
    unfold Asked at hr
    split at hr
    · have hclaims := hm.steady.claims.trans hg.works.steady.claims
      exact hr.dispatches hs₃ (hclaims.symm ▸ hwhole)
    · rw [hr.2]
      exact ⟨_, _, _, _, .refl hs₃⟩
  obtain ⟨s₄, s₅, turns, old, d⟩ := hlast
  exact ⟨s₄, s₅, turns, _, (d.prepend hm.history hm.calls hm.input).prepend hlooked hcalls (congrArg Shadow.input hlook)⟩

/-- Notes at the end of a part of which all has been told tell nothing new of the handlers. -/
theorem State.Told.slot_append {s : State} (hs : s.Told) {new old ending : History} (hh : s.history = new ++ old)
    (hend : ∀ ev ∈ ending, ∃ n e, ev = .noted n e ∧ e.handlers = s.extender.handlers) (pin : Nat) :
    History.slot (History.beforeTurn (ending ++ new) pin ++ old) pin = (new.beforeTurn pin ++ old).slot pin := by
  have hnone : ending.calls = [] := by
    refine List.filterMap_eq_nil_iff.2 fun ev hm => ?_
    obtain ⟨n, e, rfl, -⟩ := hend ev hm
    rfl
  by_cases hcall : ∃ c ∈ new.calls, pin ≤ c.1
  · rw [History.beforeTurn_append_of_call _ hcall]
  · simp only [not_exists, not_and, not_le] at hcall
    have hnew : new.beforeTurn pin = new := History.beforeTurn_append (h := []) hcall
    have hending : ending.beforeTurn pin = ending := History.beforeTurn_append (h := []) (by simp [hnone])
    rw [History.beforeTurn_append hcall, hnew, hending, List.append_assoc, ← hh, hs.slot]
    cases ending with
    | nil => exact hs.slot pin
    | cons ev ending =>
      obtain ⟨n, e, rfl, he⟩ := hend ev List.mem_cons_self
      exact congrFun he pin

/-- A pass calls the handlers that its turns call. Before its turns it calls none, and after them it only asks for work. -/
theorem PassRecord.Stems.turns {p : PassRecord} {s t t' : State} (h : p.Stems s t t') (hwhole : s.extender.claims.Whole) :
    ∃ s₁ s₂ turns old new, Dispatches t s₁ s₂ t' turns old ∧ Dispatched turns s₁ s₂ new ∧ p.body.calls = new.calls ∧
      ∀ pin, p.slot pin = (new.beforeTurn pin ++ s₁.history).slot pin := by
  have hclaims : t.extender.claims = s.held.taken.extender.claims := congrArg Extender.claims (h.extender.trans h.before)
  obtain ⟨s₁, s₂, turns, old, d⟩ := h.carries.dispatches h.told (hclaims.symm ▸ hwhole)
  obtain ⟨new, hnew⟩ := d.taken.dispatched d.told d.room d.ascending
  obtain ⟨ending, done, hbody, hdone, hend⟩ := h.body
  obtain rfl : done = new ++ old := State.new_unique hdone (by rw [d.history, hnew.history, d.before, List.append_assoc])
  have hafter : p.after.handlers = t'.extender.handlers := by
    rw [h.after]
    cases p.clean <;> rfl
  have hnotes : ∀ ev ∈ ending, ∃ n e, ev = .noted n e ∧ e.handlers = s₂.extender.handlers := by
    intro ev hm
    obtain ⟨bits, rfl⟩ := hend ev hm
    exact ⟨_, _, rfl, hafter.trans d.handlers⟩
  have hnone : ending.calls = [] := (History.quiet_of_no_work fun ev hm => by
    obtain ⟨bits, rfl⟩ := hend ev hm
    rfl).2.2
  refine ⟨s₁, s₂, turns, old, new, d, hnew, by simp [hbody, hnone, d.quiet], fun pin => ?_⟩
  rw [← hnew.told.slot_append hnew.history hnotes, d.before, h.history, PassRecord.slot, hbody, ← List.append_assoc ending,
    History.beforeTurn_append (by simp [d.quiet]), List.append_assoc]

/-- Which handlers a pass has called. They are those of pins in descending order, as the latest one comes first. A pin's handler
is called if the pin had one at its turn that waits for the change that the pin's input has made in the pass. -/
theorem PassRecord.Stems.dispatches {p : PassRecord} {s t t' : State} (h : p.Stems s t t') (hwhole : s.extender.claims.Whole) :
    (p.body.calls.map Prod.fst).Pairwise (· > ·) ∧ ∀ pin, p.body.callsOf pin = (p.slot pin).toList.filter fun h =>
      h.edge.matches (p.before.shadow.input.get pin) (p.after.shadow.input.get pin) := by
  obtain ⟨s₁, s₂, turns, old, new, d, hnew, hcalls, hslot⟩ := h.turns hwhole
  have hafter : p.after.shadow.input = t'.extender.shadow.input := by
    rw [h.after]
    cases p.clean <;> rfl
  refine ⟨hcalls ▸ hnew.ordered, fun pin => ?_⟩
  rw [show p.body.callsOf pin = new.callsOf pin by rw [History.callsOf, History.callsOf, hcalls], hslot, hafter, ← h.extender]
  by_cases hturn : ∃ was now, (pin, was, now) ∈ turns
  · obtain ⟨was, now, hm⟩ := hturn
    obtain ⟨rfl, rfl⟩ := d.read pin was now hm
    exact hnew.called pin _ _ hm
  -- the pass has not read the pin, so its input is as it was and nobody waits for that
  · have hno : ∀ turn ∈ turns, turn.1 ≠ pin := fun turn hm heq => hturn ⟨turn.2.1, turn.2.2, heq ▸ hm⟩
    rw [d.unread pin hno, History.callsOf_of_calls fun c hc heq => ?_]
    · symm
      simp [Edge.matches_self]
    · obtain ⟨turn, hm, ht⟩ := List.mem_map.1 (hnew.within c hc)
      exact hno turn hm (ht.trans heq)

end PortExpander
