import PortExpander.Proofs.Registers

/-!
# Not pending means in sync

A pass writes every register that is owed, or asks for everything again. So between passes each register of a group that has been
set up is in sync unless it is owed, which the status word and the masks of the shadow tell.
-/

namespace PortExpander

open Sim Engine

/-! ## The phases of a pass -/

/-- The memory is the same for all that bears on writes, and one more event is no write. -/
theorem NoWrite.seeing {s s' : State} {ev : Event} (hh : s'.history = ev :: s.history) (hw : ev.isWrite = false)
    (hn : ∀ n e, ev ≠ .noted n e) (hs : Steady s.extender s'.extender) (hsh : s'.extender.shadow = s.extender.shadow) :
    NoWrite s s' := by
  refine .event hh hw (fun n e h => absurd h (hn n e)) hs.family hs.address hs.claims (fun k g ho => ?_) fun k g _ => ?_
  · exact ho.mono hs.status (fun h => hsh ▸ h) fun h => hsh ▸ h
  · rw [hsh]
    exact .inl rfl

/-- A read, and the counting of a failure. -/
theorem Transfers.noWrite {s s' : State} {place : Place} {r : Except BusKind Byte} (h : Transfers s (.read place) r s') :
    NoWrite s s' := by
  obtain ⟨s₁, ht, _, rfl⟩ := h
  have ha : NoWrite s₁ (s₁.answered (.read place)) := by
    refine .seeing rfl rfl ?_ (.refl _) rfl
    rintro n e ⟨⟩
  cases r with
  | ok => exact ht.touched.noWrite.trans ha
  | error kind =>
    refine (ht.touched.noWrite.trans ha).trans (.seeing rfl rfl ?_ (.update _ _ _ _) rfl)
    rintro n e ⟨⟩

/-- Calling handlers writes nothing. -/
theorem Calls.noWrite {s s' : State} (h : Calls s s') : NoWrite s s' := by
  induction h with
  | refl => exact .refl s
  | tail _ h ih =>
    refine ih.trans ?_
    cases h with
    | touch h => exact h.noWrite
    | edge | call =>
      refine .seeing rfl rfl ?_ (.refl _) rfl
      rintro n e ⟨⟩

/-- A change of the memory that leaves the registers' shadow and all that is owed. -/
theorem NoWrite.amend {s s' : State} (hh : s'.history = s.history) (hs : Steady s.extender s'.extender)
    (hm : ∀ k g, s'.extender.shadow.meant k g = s.extender.shadow.meant k g)
    (hst : s'.extender.shadow.staged = s.extender.shadow.staged)
    (hd : ∀ g, s.extender.shadow.dirty.getLsbD g = true → s'.extender.shadow.dirty.getLsbD g = true) : NoWrite s s' := by
  refine .silent hh hs.family hs.address hs.claims (fun k g ho => ?_) fun k g _ => .inl (hm k g)
  exact ho.mono hs.status (fun h => hst ▸ h) (hd g)

/-- Reading the inputs writes nothing. -/
theorem Reads.noWrite {groups : List Nat} {s s' : State} {result : List Refresh × Bool} (h : Reads groups s result s') :
    NoWrite s s' := by
  induction h with
  | nil => exact .refl _
  | @cons s s₁ s' group groups place r now refreshes ok hp ht _ _ ih =>
    refine (ht.noWrite.trans ?_).trans ih
    exact .amend rfl (.update _ _ _ _) (fun k g => by cases k <;> rfl) rfl fun _ h => h

/-- To remember the line as high writes nothing. -/
theorem NoWrite.rearmed (s : State) : NoWrite s s.rearmed := by
  have hsh : s.rearmed.extender.shadow = s.extender.shadow := by
    unfold State.rearmed
    rw [State.extender_amend]
    split <;> rfl
  exact .amend rfl s.works_rearmed.steady (fun k g => by rw [hsh]) (by rw [hsh]) fun g h => hsh ▸ h

/-- Reading the inputs and calling the handlers writes nothing. -/
theorem Refreshes.noWrite {groups : Byte} {ok : Bool} {s s' : State} (h : Refreshes groups s ok s') : NoWrite s s' := by
  obtain ⟨s₁, s₂, _, hr, ht, rfl⟩ := h
  exact (hr.noWrite.trans ht.calls.noWrite).trans (.rearmed s₂)

/-- Making the plan of a pass writes nothing. -/
theorem Gathers.noWrite {pending : Status} {plan : Plan} {s s' : State} (h : Gathers pending s plan s') :
    NoWrite s s' ∧ s'.extender.shadow = s.extender.shadow := by
  cases h with
  | looked he =>
    refine ⟨.seeing rfl rfl ?_ (.engine _ ?_) rfl, rfl⟩
    · rintro n e ⟨⟩
    · rw [Extender.name, Extender.name, he]
  | unlooked => exact ⟨.refl s, rfl⟩
  | drained he =>
    refine ⟨.amend rfl (.engine _ ?_) (fun _ _ => rfl) rfl fun _ h => h, rfl⟩
    rw [Extender.name, Extender.name, he]

/-- A register need not be excused that is owed or in sync. -/
theorem State.Synced.weaken {s : State} {exempt exempt' : Register → Nat → Prop} (h : s.Synced exempt)
    (he : ∀ k g, s.extender.claims.groups.getLsbD g = true → exempt k g →
      exempt' k g ∨ s.extender.Owed k g ∨ s.extender.InSync s.history k g) : s.Synced exempt' := by
  intro k g hup hcl
  rcases h k g hup hcl with hx | h
  · exact he k g hcl hx
  · exact .inr h

/-- Registers of different groups stay apart while the chips and the claims are the same. -/
theorem Extender.Apart.of_eq {e e' : Extender} (h : e.Apart) (hf : e'.family = e.family) (ha : e'.address = e.address)
    (hc : e'.claims = e.claims) : e'.Apart := by
  unfold Extender.Apart Extender.locate at h ⊢
  rw [hf, ha, hc]
  exact h

/-- A write that succeeds and carries what the shadow means a register to hold brings the register in sync. -/
theorem Extender.InSync.written {e : Extender} {h : History} {k : Register} {g : Nat} {reg : Byte} {place : Place}
    {r : Except BusKind Byte} (hreg : e.family.number? k = some reg) (hp : e.locate g reg = .ok place)
    (hr : succeeded r = true) : e.InSync (.transaction (.write place (e.shadow.meant k g)) r :: h) k g := by
  intro reg' hreg'
  rw [hreg] at hreg'
  cases hreg'
  refine ⟨place, hp, ?_⟩
  rw [History.lastWrite_write, if_pos rfl, hr]

/-- Registers of claimed groups keep their places to themselves, so a write to one of them leaves the others in sync. -/
theorem Extender.InSync.write_other {e : Extender} {h : History} {k k' : Register} {g g' : Nat} {reg value : Byte}
    {place : Place} (hi : e.InSync h k' g') (r : Except BusKind Byte) (hapart : e.Apart)
    (hreg : e.family.number? k = some reg) (hp : e.locate g reg = .ok place) (hcl : e.claims.groups.getLsbD g = true)
    (hcl' : e.claims.groups.getLsbD g' = true) (hne : ¬(k' = k ∧ g' = g)) :
    e.InSync (.transaction (.write place value) r :: h) k' g' := by
  intro reg' hreg'
  obtain ⟨place', hp', hw⟩ := hi reg' hreg'
  refine ⟨place', hp', ?_⟩
  rw [History.lastWrite_write, if_neg]
  · exact hw
  · rintro rfl
    exact hne (hapart g' g k' k reg' reg place hcl' hcl hreg' hreg hp' hp).symm

/-- A write that succeeds brings its register in sync, or what falls into its middle makes the register owed. The others keep
their places to themselves. -/
theorem State.Synced.transfer {s s' : State} {exempt : Register → Nat → Prop} (hs : s.Synced exempt)
    (hapart : s.extender.Apart) {k : Register} {reg : Byte} {group : Nat} {place : Place} {r : Except BusKind Byte}
    (hreg : s.extender.family.number? k = some reg) (hcl : s.extender.claims.groups.getLsbD group = true)
    (hp : s.extender.locate group reg = .ok place)
    (h : Transfers s (.write place (s.extender.shadow.meant k group)) r s') (hr : succeeded r = true) :
    s'.Synced fun k' g => exempt k' g ∧ ¬(k' = k ∧ g = group) := by
  obtain ⟨s₁, ht, hout, rfl⟩ := h
  have hb := ht.touched.noWrite
  have hreg₁ : s₁.extender.family.number? k = some reg := by rw [hb.family, hreg]
  have hp₁ : s₁.extender.locate group reg = .ok place := by
    rw [Extender.locate, hb.family, hb.address]
    exact hp
  have hcl₁ : s₁.extender.claims.groups.getLsbD group = true := by rw [hb.claims, hcl]
  cases r with
  | error => cases hr
  | ok moved =>
    intro k' g hup hclg
    change s₁.history.setUp g = true at hup
    change s₁.extender.claims.groups.getLsbD g = true at hclg
    change _ ∨ s₁.extender.Owed k' g ∨ s₁.extender.InSync (.transaction (.write place _) (s₁.board.outcome _) :: s₁.history) k' g
    by_cases hkg : k' = k ∧ g = group
    · obtain ⟨rfl, rfl⟩ := hkg
      right
      rcases hb.meant k' g (BitVec.lt_of_getLsbD hcl) with hm | ho
      · right
        rw [← hm]
        exact .written hreg₁ hp₁ (hm ▸ hout ▸ hr)
      · exact .inl ho
    · rcases hs.noWrite hb k' g hup hclg with hx | ho | hi
      · exact .inl ⟨hx, hkg⟩
      · exact .inr (.inl ho)
      · right
        right
        exact hi.write_other _ (hapart.of_eq hb.family hb.address hb.claims) hreg₁ hp₁ hcl₁ hclg hkg

/-- A transaction keeps what a pass must not change. -/
theorem Transfers.steady {s s' : State} {a : Access} {r : Except BusKind Byte} (h : Transfers s a r s') :
    Steady s.extender s'.extender := by
  obtain ⟨s₁, ht, _, rfl⟩ := h
  cases r with
  | ok => exact ht.touched.frame.toSteady
  | error => exact ht.touched.frame.toSteady.trans (.update _ _ _ _)

/-- Writes that succeed bring their registers in sync. -/
theorem State.Synced.writes {s s' : State} {exempt : Register → Nat → Prop} {k : Register} {reg : Byte} {groups : List Nat}
    {ok : Bool} (h : Writes reg (·.meant k ·) groups s ok s') (hok : ok = true) (hs : s.Synced exempt)
    (hapart : s.extender.Apart) (hreg : s.extender.family.number? k = some reg) (hg : s.extender.Holds groups) :
    (s'.Synced fun k' g => exempt k' g ∧ ¬(k' = k ∧ g ∈ groups)) ∧ Steady s.extender s'.extender := by
  induction h generalizing exempt with
  | nil => exact ⟨hs.weaken fun k' g _ hx => .inl ⟨hx, fun h => absurd h.2 List.not_mem_nil⟩, .refl _⟩
  | @cons s s₁ s' group groups place r ok hp ht _ ih =>
    rw [Bool.and_eq_true] at hok
    have hst := ht.steady
    have hs₁ := hs.transfer hapart hreg (hg group List.mem_cons_self) hp ht hok.1
    obtain ⟨hs', hst'⟩ := ih hok.2 hs₁ (hapart.of_eq hst.family hst.address hst.claims) (by rw [hst.family]; exact hreg)
      (Extender.holds_of_steady hst fun g hm => hg g (List.mem_cons_of_mem _ hm))
    refine ⟨hs'.weaken fun k' g _ hx => .inl ⟨hx.1.1, fun h => ?_⟩, hst.trans hst'⟩
    rcases List.mem_cons.1 h.2 with hgg | hgg
    · exact hx.1.2 ⟨h.1, hgg⟩
    · exact hx.2 ⟨h.1, hgg⟩

/-- Writing the inversions brings the polarity registers in sync, if there are any. -/
theorem State.Synced.inverts {s s' : State} {exempt : Register → Nat → Prop}
    (h : Inverts s.extender.claims.groups.groups s true s') (hs : s.Synced exempt) (hapart : s.extender.Apart) :
    (s'.Synced fun k g => exempt k g ∧ ¬(k = .polarity ∧ g ∈ s.extender.claims.groups.groups)) ∧
      Steady s.extender s'.extender := by
  unfold Inverts at h
  cases hreg : s.extender.family.polarityReg with
  | some reg =>
    rw [hreg] at h
    exact hs.writes (k := .polarity) h rfl hapart hreg s.extender.holds_groups
  | none =>
    rw [hreg] at h
    obtain ⟨_, rfl⟩ := h
    refine ⟨hs.weaken fun k g _ hx => ?_, .refl _⟩
    cases k with
    | polarity =>
      right
      right
      intro reg hreg'
      rw [Family.number?, hreg] at hreg'
      cases hreg'
    | config | output => exact .inl ⟨hx, fun h => by cases h.1⟩

/-- After a configuration that succeeds, at most outputs are left to write, all of them dirty. -/
theorem State.Synced.configures {s s' : State} {exempt : Register → Nat → Prop} (h : Configures s true s')
    (hs : s.Synced exempt) (hapart : s.extender.Apart) :
    (s'.Synced fun k g => k = .output ∧ s'.extender.shadow.dirty.getLsbD g = true) ∧ Steady s.extender s'.extender := by
  obtain ⟨s₁, s₂, inverted, directed, hi, hd, hok, rfl⟩ := h
  rw [eq_comm, Bool.and_eq_true] at hok
  obtain ⟨rfl, rfl⟩ := hok
  obtain ⟨hs₁, hst₁⟩ := hs.inverts hi hapart
  have hdir := hs₁.writes (k := .config) hd rfl (hapart.of_eq hst₁.family hst₁.address hst₁.claims)
    (by rw [← hst₁.family]; rfl) (Extender.holds_of_steady hst₁ s.extender.holds_groups)
  obtain ⟨hs₂, hst₂⟩ := hdir
  have hmarked (g : Nat) : (s₂.extender.shadow.markDirty s.extender.claims.groups).dirty.getLsbD g =
      (s₂.extender.shadow.dirty.getLsbD g || s.extender.claims.groups.getLsbD g) := BitVec.getLsbD_or
  have hmark : NoWrite s₂ (s₂.amend fun e => { e with shadow := e.shadow.markDirty s.extender.claims.groups }) := by
    refine .amend rfl (.update _ _ _ _) (fun k g => by cases k <;> rfl) rfl fun g hg => (hmarked g).trans ?_
    rw [hg, Bool.true_or]
  refine ⟨(hs₂.noWrite hmark).weaken fun k g hcl hx => .inl ?_, (hst₁.trans hst₂).trans (.update _ _ _ _)⟩
  have hclaimed : s.extender.claims.groups.getLsbD g = true := by
    rw [← hst₁.claims, ← hst₂.claims]
    exact hcl
  have hmem := Byte.mem_groups.2 hclaimed
  cases k with
  | polarity => exact absurd ⟨rfl, hmem⟩ hx.1.2
  | config => exact absurd ⟨rfl, hmem⟩ hx.2
  | output =>
    refine ⟨rfl, (hmarked g).trans ?_⟩
    rw [hclaimed, Bool.or_true]

/-- After a flush that succeeds, nothing is left to write, if at most dirty outputs were. -/
theorem State.Synced.flushes {s s' : State} {exempt : Register → Nat → Prop} (h : Flushes s true s')
    (hs : s.Synced exempt) (hapart : s.extender.Apart)
    (hx : ∀ k g, exempt k g → k = .output ∧ s.extender.shadow.dirty.getLsbD g = true) :
    s'.Synced fun _ _ => False := by
  have hclear : (s.amend fun e => { e with shadow := e.shadow.clearDirty }).Synced fun k g =>
      k = .output ∧ s.extender.shadow.dirty.getLsbD g = true := by
    intro k g hup hcl
    rcases hs k g hup hcl with he | ho | hi
    · exact .inl (hx k g he)
    · rcases ho with ho | ⟨hk, ho | ⟨ho, _⟩⟩
      · exact .inr (.inl (.inl ho))
      · exact .inr (.inl (.inr ⟨hk, .inl ho⟩))
      · exact .inl ⟨hk, ho⟩
    · refine .inr (.inr fun reg hreg => ?_)
      obtain ⟨place, hp, hw⟩ := hi reg hreg
      refine ⟨place, hp, hw.trans ?_⟩
      cases k <;> rfl
  have hout := hclear.writes (k := .output) h rfl hapart rfl
    (Extender.holds_of_steady (.update _ _ _ _) (s.extender.holds_and _))
  refine hout.1.weaken fun k g hcl hx => .inl (hx.2 ⟨hx.1.1, Byte.mem_groups.2 ?_⟩)
  rw [hout.2.claims] at hcl
  change s.extender.claims.groups.getLsbD g = true at hcl
  rw [BitVec.getLsbD_and, hx.1.2, hcl, Bool.and_self]

/-- The phases that write, if they succeed, write all that is asked for. -/
theorem State.Synced.written {s s₁ s₂ : State} {pending : Status} {groups : Byte}
    (hconf : Asked (Plan.ofRequests pending groups).configure Configures s true s₁)
    (hwrite : Asked (Plan.ofRequests pending groups).write Flushes s₁ true s₂) (hapart : s.extender.Apart)
    (hs : s.Synced fun k g => pending.contains Status.configDirty = true ∨
      (k = .output ∧ pending.contains Status.writeDirty = true ∧ s.extender.shadow.dirty.getLsbD g = true)) :
    s₂.Synced fun _ _ => False := by
  have hplan : (Plan.ofRequests pending groups).configure = pending.contains Status.configDirty ∧
      (Plan.ofRequests pending groups).write =
        (pending.contains Status.configDirty || pending.contains Status.writeDirty) := ⟨rfl, rfl⟩
  unfold Asked at hconf hwrite
  rw [hplan.1] at hconf
  rw [hplan.2] at hwrite
  by_cases hc : pending.contains Status.configDirty = true
  · rw [if_pos hc] at hconf
    rw [hc, Bool.true_or, if_pos rfl] at hwrite
    obtain ⟨hs₁, hst⟩ := hs.configures hconf hapart
    exact hs₁.flushes hwrite (hapart.of_eq hst.family hst.address hst.claims) fun _ _ hx => hx
  · rw [if_neg hc] at hconf
    obtain ⟨_, rfl⟩ := hconf
    rw [Bool.eq_false_iff.2 hc, Bool.false_or] at hwrite
    by_cases hw : pending.contains Status.writeDirty = true
    · rw [if_pos hw] at hwrite
      refine hs.flushes hwrite hapart fun k g hx => ?_
      rcases hx with hx | ⟨hk, _, hd⟩
      · exact absurd hx hc
      · exact ⟨hk, hd⟩
    · rw [if_neg hw] at hwrite
      obtain ⟨_, rfl⟩ := hwrite
      refine hs.weaken fun k g _ hx => .inl ?_
      rcases hx with hx | ⟨_, hx, _⟩
      · exact hc hx
      · exact hw hx

/-- A pass in which nothing fails writes all that was owed when it took its work. -/
theorem Carries.synced {pending : Status} {s s' : State} (h : Carries pending s true s') (hapart : s.extender.Apart)
    (hs : s.Synced fun k g => pending.contains Status.configDirty = true ∨
      (k = .output ∧ pending.contains Status.writeDirty = true ∧ s.extender.shadow.dirty.getLsbD g = true)) :
    s'.Synced fun _ _ => False := by
  obtain ⟨plan, s₁, s₂, s₃, hg, hconf, hwrite, hread⟩ := h.phases
  obtain ⟨hb, hsh⟩ := hg.noWrite
  obtain ⟨pending', groups, rfl, hp⟩ := hg.requests
  have hs₁ : s₁.Synced fun k g => pending'.contains Status.configDirty = true ∨
      (k = .output ∧ pending'.contains Status.writeDirty = true ∧ s₁.extender.shadow.dirty.getLsbD g = true) := by
    refine (hs.noWrite hb).weaken fun k g _ hx => .inl ?_
    rw [hsh]
    exact hx.imp (hp _) fun h => ⟨h.1, hp _ h.2.1, h.2.2⟩
  have hs₃ := hs₁.written hconf hwrite (hapart.of_eq hb.family hb.address hb.claims)
  unfold Asked at hread
  split at hread
  · exact hs₃.noWrite hread.noWrite
  · rw [hread.2]
    exact hs₃

/-! ## Updates -/

/-- A note of no setup sets up nothing. -/
theorem History.setUp_of_noted {n : Note} {e : Extender} {past : History} {g : Nat} (hn : n.pinSetUp? = none)
    (h : setUp g (.noted n e :: past) = true) : setUp g past = true := by
  change (n.pinSetUp?.any (· / 8 == g) || (setUp g past && e.claims.groups.getLsbD g)) = true at h
  rw [hn, Bool.or_eq_true, Bool.and_eq_true] at h
  exact h.resolve_left (by nofun) |>.1

/-- Registers stay in sync when neither the shadow nor the writes have changed. -/
theorem Extender.InSync.of_eq {e e' : Extender} {h h' : History} {k : Register} {g : Nat} (hi : e.InSync h k g)
    (hf : e'.family = e.family) (ha : e'.address = e.address) (hsh : e'.shadow = e.shadow)
    (hw : ∀ place, h'.lastWrite place = h.lastWrite place) : e'.InSync h' k g := by
  intro reg hreg
  rw [hf] at hreg
  obtain ⟨place, hp, hl⟩ := hi reg hreg
  refine ⟨place, ?_, ?_⟩
  · rw [locate, hf, ha]
    exact hp
  · rw [hw, hsh]
    exact hl

/-- A pass that takes its work leaves exempt what it has taken upon itself. -/
theorem State.Synced.begun {s s₀ : State} (hs : s.Synced fun _ _ => False)
    (h₀ : s₀ = (s.held.taken.started s.extender.work).noting (.passBegan s.extender.work)) :
    s₀.Synced fun k g => s.extender.work.contains Status.configDirty = true ∨
      (k = .output ∧ s.extender.work.contains Status.writeDirty = true ∧ s₀.extender.shadow.dirty.getLsbD g = true) := by
  have he : s₀.extender = s.held.taken.extender := by rw [h₀, extender_begun]
  have hwork {f : Status} (h : s.extender.status.contains f = true) (hf : Status.vocabulary.all.contains f = true)
      (hb : Status.busy.bits &&& f.bits = 0) : s.extender.work.contains f = true :=
    FlagSet.contains_union_left _ (Status.contains_pending h hf hb)
  have hstarted : (∀ g, (s.held.taken.started s.extender.work).history.setUp g = s.held.taken.history.setUp g) ∧
      ∀ place, (s.held.taken.started s.extender.work).history.lastWrite place = s.held.taken.history.lastWrite place := by
    rcases State.history_started s.held.taken s.extender.work with hh | ⟨r, hh⟩ <;> rw [hh] <;>
      exact ⟨fun _ => rfl, fun _ => rfl⟩
  intro k g hup hcl
  rw [h₀] at hup
  have hup' := History.setUp_of_noted rfl hup
  rw [hstarted.1] at hup'
  rw [he] at hcl
  rcases hs k g (History.setUp_of_noted rfl hup') hcl with hx | ho | hi
  · exact hx.elim
  · rcases ho with ho | ⟨hk, ho | ⟨hd, ho⟩⟩
    · exact .inl (.inl (hwork ho (by decide) (by decide)))
    · refine .inr (.inl (.inr ⟨hk, .inl ?_⟩))
      rw [he]
      exact ho
    · refine .inl (.inr ⟨hk, hwork ho (by decide) (by decide), ?_⟩)
      rw [he]
      exact hd
  · right
    right
    rw [he, h₀]
    exact hi.of_eq rfl rfl rfl hstarted.2

/-- Nothing is left to write when there is nothing to do. -/
theorem State.Synced.idled {s : State} (hs : s.Synced fun _ _ => False)
    (hi : s.extender.isIdleWith s.extender.work = true) :
    ((letGo s.held.taken.released).noting (.updated .idle)).Synced fun _ _ => False := by
  have hempty := Extender.isEmpty_of_isIdleWith hi
  have hnone {i : Nat} (hlt : i < 8) (h : s.extender.status.contains (.flag i) = true)
      (hf : Status.vocabulary.all.contains (.flag i) = true) (hb : Status.busy.bits &&& (FlagSet.flag i).bits = 0) : False := by
    have hw : s.extender.work.contains (.flag i) = true :=
      FlagSet.contains_union_left _ (Status.contains_pending h hf hb)
    rw [FlagSet.not_isEmpty_of_contains_flag hlt hw] at hempty
    cases hempty
  intro k g hup hcl
  rcases hs k g (History.setUp_of_noted rfl (History.setUp_of_noted rfl hup)) hcl with hx | ho | hi
  · exact hx.elim
  · rcases ho with ho | ⟨hk, ho | ⟨_, ho⟩⟩
    · exact (hnone (by decide) ho (by decide) (by decide)).elim
    · exact .inr (.inl (.inr ⟨hk, .inl ho⟩))
    · exact (hnone (by decide) ho (by decide) (by decide)).elim
  · exact .inr (.inr (hi.of_eq rfl rfl rfl fun _ => rfl))

/-- A pass that is over keeps what is in sync, and what has been asked for meanwhile stays owed. -/
theorem State.Synced.finished {s : State} (hs : s.Synced fun _ _ => False) :
    ((letGo (s.completed true).released).noting (.updated .ran)).Synced fun _ _ => False := by
  intro k g hup hcl
  rcases hs k g (History.setUp_of_noted rfl (History.setUp_of_noted rfl hup)) hcl with hx | ho | hi
  · exact hx.elim
  · right
    left
    rcases ho with ho | ⟨hk, ho | ⟨hd, ho⟩⟩
    · exact .inl (Status.contains_release ho (by decide))
    · exact .inr ⟨hk, .inl ho⟩
    · exact .inr ⟨hk, .inr ⟨hd, Status.contains_release ho (by decide)⟩⟩
  · exact .inr (.inr (hi.of_eq rfl rfl rfl fun _ => rfl))

/-- Claiming and freeing pins leaves the groups that have been set up and are still claimed as they are. -/
theorem State.Synced.reclaimed {s : State} (hs : s.Synced fun _ _ => False)
    (hclaimed : ∀ g, s.history.setUp g = true → s.extender.claims.groups.getLsbD g = true) (claims : Claims) {step : Step}
    {r : Reply} (hn : (Note.stepEnded step r).pinSetUp? = none) :
    ((s.amend ({ · with claims })).over step r).Synced fun _ _ => False := by
  intro k g hup _
  have hup' := History.setUp_of_noted hn hup
  rcases hs k g hup' (hclaimed g hup') with hx | ho | hi
  · exact hx.elim
  · exact .inr (.inl (ho.mono (fun _ h => h) id id))
  · exact .inr (.inr (hi.of_eq rfl rfl rfl fun _ => rfl))

/-- The groups that have been set up and have been claimed ever since are claimed. -/
def State.Covered (s : State) : Prop := ∀ g, s.history.setUp g = true → s.extender.claims.groups.getLsbD g = true

/-- Between the happenings of a session every register that is not owed is in sync, unless the extender has halted. -/
theorem Happening.synced {s s' : State} (h : Happening s s') (hs : s.extender.halted = false → s.Synced fun _ _ => False)
    (hapart : ∀ n past, s'.history = .noted n s'.extender :: past → s'.extender.Apart) (hclaimed : s.Covered) (hu : s'.history.Uncut)
    (hh : s'.extender.halted = false) : s'.Synced fun _ _ => False := by
  have hnote {n : Note} (hs : s.Synced fun _ _ => False) (hn : n.Confirmed s.extender) :
      (s.noting n).Synced fun _ _ => False := by
    refine hs.noWrite (.event rfl rfl ?_ rfl rfl rfl (fun _ _ h => h) fun _ _ _ => .inl rfl)
    rintro _ _ ⟨⟩
    exact ⟨rfl, hn⟩
  cases h with
  | touch h => exact (hs (h.frame.halted.symm.trans hh)).noWrite h.noWrite
  | update p _ h =>
    cases h with
    | halted hhalt => cases hhalt.symm.trans hh
    | stops => cases hh
    | idles hhalt _ hi => exact (hs hhalt).idled hi
    | @ran s₀ s₁ clean hhalt _ _ h₀ hc hw =>
      cases clean with
      | false =>
        intro k g _ _
        -- after a failure the configuration is asked for again, so every register is owed
        exact .inr (.inl (.inl s₁.owes_completed.release.config))
      | true =>
        have hst := hw.steady
        have hapart₁ := hapart _ _ rfl
        have hapart₀ : s₀.extender.Apart := hapart₁.of_eq hst.family.symm hst.address.symm hst.claims.symm
        exact (hc.synced hapart₀ ((hs hhalt).begun h₀)).finished
  | cut _ h =>
    obtain ⟨s₁, _, _, _, rfl⟩ := h
    cases hu _ List.mem_cons_self
  | began step => exact hnote (hs hh) trivial
  | ended step r _ hr => exact hnote (hs hh) (Note.confirmed_stepEnded fun o ho => (hr o ho).memory)
  | claim pin claims => exact (hs hh).reclaimed hclaimed claims rfl
  | free pin => exact (hs hh).reclaimed hclaimed _ rfl

/-! ## Sessions -/

/-- A map's group of a pin with a bit has one. -/
theorem PinMap.groups_of_get {m : PinMap} {pin : Nat} (h : m.get pin = true) : m.groups.getLsbD (pin / 8) = true := by
  have hlt : pin < 64 := BitVec.lt_of_getLsbD h
  have hne : m.byte (pin / 8) ≠ 0 := by
    intro hz
    rw [get_eq_getLsbD_byte, hz] at h
    simp at h
  unfold groups
  rw [Byte.getLsbD_ofGroups, Bool.and_eq_true]
  exact ⟨decide_eq_true (by omega), bne_iff_ne.2 hne⟩

/-- The group of a claimed pin is a claimed group. -/
theorem Claims.groups_of_isClaimed {c : Claims} {pin : Nat} (h : c.isClaimed pin = true) :
    c.groups.getLsbD (pin / 8) = true := by
  unfold isClaimed at h
  rw [Bool.and_eq_true] at h
  exact PinMap.groups_of_get h.2

/-- A state whose last event is a note that says the truth about its memory. -/
theorem State.Covered.of_note {s : State} {n : Note} {past : History} (hh : s.history = .noted n s.extender :: past)
    (hn : n.Confirmed s.extender) : s.Covered := by
  intro g hg
  rw [hh] at hg
  change (n.pinSetUp?.any (· / 8 == g) || (History.setUp g past && s.extender.claims.groups.getLsbD g)) = true at hg
  rw [Bool.or_eq_true, Bool.and_eq_true] at hg
  rcases hg with hg | hg
  · unfold Note.pinSetUp? at hg
    split at hg
    · rw [← eq_of_beq hg]
      exact Claims.groups_of_isClaimed hn.1
    · rw [← eq_of_beq hg]
      exact Claims.groups_of_isClaimed hn.1
    · cases hg
  · exact hg.2

/-- A happening keeps all registers covered. -/
theorem Happening.covered {s s' : State} (h : Happening s s') (hs : s.Covered) : s'.Covered := by
  cases h with
  | touch h =>
    rcases h.history with he | ⟨ev, he, _, hn⟩
    · intro g hg
      rw [he] at hg
      rw [h.frame.claims]
      exact hs g hg
    · cases ev with
      | noted n e =>
        obtain ⟨_, rfl, hc⟩ := hn n e rfl
        exact .of_note he hc
      | _ =>
        intro g hg
        rw [he] at hg
        rw [h.frame.claims]
        exact hs g hg
  | update p _ h => cases h <;> exact .of_note rfl trivial
  | cut _ h =>
    obtain ⟨s₁, _, _, _, rfl⟩ := h
    exact .of_note rfl trivial
  | ended step r _ hr => exact .of_note rfl (Note.confirmed_stepEnded fun o ho => (hr o ho).memory)
  | began | claim | free => exact .of_note rfl trivial

/-- In every note of a history the engine is the queued one, or registers that are written to do not share their places. -/
def History.Apart (h : History) : Prop := ∀ n e, .noted n e ∈ h → (∃ q, e.engine = .queued q) ∨ e.Apart

/-- The queued engine is known by its name. -/
theorem Extender.name_eq_tca6408 {e : Extender} : e.name = "tca6408" ↔ ∃ q, e.engine = .queued q := by
  unfold name
  cases e.engine with
  | generic =>
    constructor
    · intro h
      exact absurd (show "i2c_extender" = "tca6408" from h) (by decide)
    · rintro ⟨_, ⟨⟩⟩
  | queued q => exact ⟨fun _ => ⟨q, rfl⟩, fun _ => rfl⟩

/-- A queued engine has been one from the beginning, and its registers are apart. -/
theorem Made.apart {e₀ e : Extender} (hm : Made e₀) (hf : e.family = e₀.family) (hn : e.name = e₀.name)
    (hq : ∃ q, e.engine = .queued q) : e.Apart := by
  obtain ⟨q, hq₀⟩ := Extender.name_eq_tca6408.1 (hn.symm.trans (Extender.name_eq_tca6408.2 hq))
  obtain ⟨family, address, capacity, lines, engine, room, rfl, hfresh⟩ := hm.fresh
  refine Family.Spaced.apart ?_
  rw [hf.trans (hfresh q hq₀).1]
  exact Device.tca6408.spaced

/-- In every state of a session in which registers are apart, those that are not owed are in sync. -/
theorem Goes.synced {e₀ : Extender} {board : Board} {s : State} (hm : Made e₀)
    (h : Goes { extender := e₀, board, history := [] } s) :
    s.Covered ∧ (s.history.Apart → s.history.Uncut → s.extender.halted = false → s.Synced fun _ _ => False) := by
  induction h with
  | refl => exact ⟨fun _ h => (Bool.false_ne_true h).elim, fun _ _ _ _ _ h => (Bool.false_ne_true h).elim⟩
  | @tail s₁ s₂ hgo h ih =>
    refine ⟨h.covered ih.1, fun hapart hu hh => ?_⟩
    obtain ⟨new, hnew, _⟩ := h.adds
    have hbefore {ev : Event} (hev : ev ∈ s₁.history) : ev ∈ s₂.history := hnew ▸ List.mem_append_right _ hev
    refine h.synced (ih.2 (fun n e hev => hapart n e (hbefore hev)) fun ev hev => hu ev (hbefore hev)) ?_ ih.1 hu hh
    intro n past hhead
    rcases hapart n s₂.extender (hhead ▸ List.mem_cons_self) with hq | ha
    · have hsame := (Goes.moves (hgo.tail h)).sameMake
      exact hm.apart hsame.family hsame.name hq
    · exact ha

/-- Not pending means in sync. Take a moment of a session, of which no pass has been cut short by a fault and in which registers
that are written to do not share their places, at which no pass is at work and the extender has not halted, and a group of which
a pin has been set up and that has had a claimed pin ever since. If the configuration is not asked for, the last writes to the
group's configuration and polarity registers succeeded and carried the directions and the inversions of its pins; if the outputs
are not asked for either and the group is not staged, the last write to its output register succeeded and carried the levels of
its outputs. -/
theorem settled_registers_are_in_sync :
    ∀ s later n e past, Reachable s → s.history = later ++ .noted n e :: past → History.Apart (.noted n e :: past) →
      History.Uncut (.noted n e :: past) → e.updating = false → e.halted = false →
      ∀ g, History.setUp g (.noted n e :: past) = true → e.status.contains Status.configDirty = false →
        e.InSync (.noted n e :: past) .config g ∧ e.InSync (.noted n e :: past) .polarity g ∧
        (e.status.contains Status.writeDirty = false → e.shadow.staged.getLsbD g = false →
          e.InSync (.noted n e :: past) .output g) := by
  intro s later n e past hs hm hapart hu hup hh g hset hconf
  obtain ⟨e₀, board, hmade, hgo, _⟩ := hs.goes
  obtain ⟨s', hgo', _, hh', rfl⟩ := hgo.moment rfl hm hup
  obtain ⟨hcovered, hsync⟩ := hgo'.synced hmade
  rw [← hh'] at hapart hu hset ⊢
  have hcl := hcovered g hset
  have hin (k : Register) (ho : ¬s'.extender.Owed k g) : s'.extender.InSync s'.history k g := by
    rcases hsync hapart hu hh k g hset hcl with h | h | h
    · exact h.elim
    · exact absurd h ho
    · exact h
  have hnot {k : Register} (hk : k ≠ .output) : ¬s'.extender.Owed k g := by
    rintro (h | ⟨h, _⟩)
    · exact Bool.false_ne_true (hconf.symm.trans h)
    · exact hk h
  refine ⟨hin .config (hnot nofun), hin .polarity (hnot nofun), fun hw hst => hin .output ?_⟩
  rintro (h | ⟨_, h | ⟨_, h⟩⟩)
  · exact Bool.false_ne_true (hconf.symm.trans h)
  · exact Bool.false_ne_true (hst.symm.trans h)
  · exact Bool.false_ne_true (hw.symm.trans h)

/-- A pin is set up and written to, and an update writes it all. -/
theorem settled_registers_are_in_sync_of_update :
    let s := State.oneChip [.claim 0, .op (.call (.setup 0 PinAttributes.output)), .op (.call (.write 0 true)),
      .op (.call .flush), .op .update]
    ∃ later n e past, s.history = later ++ .noted n e :: past ∧ e.InSync (.noted n e :: past) .config 0 ∧
      e.InSync (.noted n e :: past) .polarity 0 ∧ e.InSync (.noted n e :: past) .output 0 := by
  intro s
  have hr : Reachable s := reachable_oneChip _
  obtain ⟨later, n, e, past, hm, hp⟩ := History.moment_of_drop (h := s.history) 0
    (p := fun n e past => !e.updating && !e.halted && History.setUp 0 (.noted n e :: past) &&
      !e.status.contains Status.configDirty && !e.status.contains Status.writeDirty && !e.shadow.staged.getLsbD 0 &&
      decide (History.Uncut (.noted n e :: past)) &&
      List.all (.noted n e :: past) fun ev => ev.note?.all (·.2.name == "tca6408")) (by decide +kernel)
  simp only [Bool.and_eq_true, Bool.not_eq_true', decide_eq_true_eq, List.all_eq_true] at hp
  obtain ⟨⟨⟨⟨⟨⟨⟨hup, hh⟩, hset⟩, hconf⟩, hw⟩, hst⟩, hcut⟩, hname⟩ := hp
  have hapart : History.Apart (.noted n e :: past) := by
    intro n' e' hm'
    have h : (e'.name == "tca6408") = true := hname _ hm'
    exact .inl (Extender.name_eq_tca6408.1 (eq_of_beq h))
  obtain ⟨hc, hp, ho⟩ := settled_registers_are_in_sync s later n e past hr hm hapart hcut hup hh 0 hset hconf
  exact ⟨later, n, e, past, hm, hc, hp, ho hw hst⟩

end PortExpander
