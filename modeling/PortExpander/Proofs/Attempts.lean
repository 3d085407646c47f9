import PortExpander.Proofs.Moments

/-!
# Attempts

A pass that has been asked for the configuration tries everything: it writes all registers of every group that is claimed and reads
the inputs of every such group, whether or not its transactions succeed.
-/

namespace PortExpander

open Sim Engine

/-! ## Parts of a pass -/

/-- The events `new` have led from one state to another one in a pass. -/
structure Passage (s s' : State) (new : History) : Prop where
  history : s'.history = new ++ s.history
  steady : Steady s.extender s'.extender

namespace Passage

theorem refl (s : State) : Passage s s [] := ⟨rfl, .refl _⟩

theorem trans {s s' s'' : State} {new new' : History} (h : Passage s s' new) (h' : Passage s' s'' new') :
    Passage s s'' (new' ++ new) where
  history := by rw [h'.history, h.history, List.append_assoc]
  steady := h.steady.trans h'.steady

/-- The memory has changed, and nothing has been added to the history. -/
theorem then_silent {s s' s'' : State} {new : History} (h : Passage s s' new) (hh : s''.history = s'.history)
    (hs : Steady s'.extender s''.extender) : Passage s s'' new := ⟨hh.trans h.history, h.steady.trans hs⟩

end Passage

/-- All work of a pass is a passage. -/
theorem Works.passage {s s' : State} (h : Works s s') : ∃ new, Passage s s' new := by
  induction h with
  | refl => exact ⟨[], .refl s⟩
  | @tail s₁ s₂ _ h ih =>
    obtain ⟨new, hnew⟩ := ih
    rcases h.history with he | ⟨ev, he, -⟩
    · exact ⟨new, hnew.then_silent he h.steady⟩
    · exact ⟨ev :: new, by rw [he, hnew.history, List.cons_append], hnew.steady.trans h.steady⟩

/-- Two states whose histories are the same in the end have the same events between them and an earlier one. -/
theorem State.new_unique {s s' : State} {new new' : History} (h : s'.history = new ++ s.history)
    (h' : s'.history = new' ++ s.history) : new = new' :=
  List.append_cancel_right (h.symm.trans h')

/-- In a pass the registers of a group stay where they are. -/
theorem Steady.locate {e e' : Extender} (h : Steady e e') (g : Nat) (reg : Byte) : e'.locate g reg = e.locate g reg := by
  rw [Extender.locate, Extender.locate, h.family, h.address]

/-! ## What is tried -/

namespace Extender

/-- A write of a register of a group has been tried. -/
def TriedWrite (e : Extender) (body : History) (g : Nat) (reg : Byte) : Prop :=
  ∃ place value r, e.locate g reg = .ok place ∧ .transaction (.write place value) r ∈ body

/-- A read of the inputs of a group has been tried. -/
def TriedRead (e : Extender) (body : History) (g : Nat) : Prop :=
  ∃ place r, e.locate g e.family.inputReg = .ok place ∧ .transaction (.read place) r ∈ body

/-- Writes of all registers of a group and a read of its inputs have been tried. -/
structure Tried (e : Extender) (body : History) (g : Nat) : Prop where
  written : ∀ reg ∈ e.family.writtenRegs, e.TriedWrite body g reg
  read : e.TriedRead body g

variable {e e' : Extender} {body body' : History} {g : Nat} {reg : Byte}

theorem TriedWrite.mono (h : e.TriedWrite body g reg) (hsub : ∀ ev ∈ body, ev ∈ body') : e.TriedWrite body' g reg := by
  obtain ⟨place, value, r, hl, hm⟩ := h
  exact ⟨place, value, r, hl, hsub _ hm⟩

/-- A write is found at the same place in an earlier memory of the pass. -/
theorem TriedWrite.steady (h : e'.TriedWrite body g reg) (hs : Steady e e') : e.TriedWrite body g reg := by
  obtain ⟨place, value, r, hl, hm⟩ := h
  exact ⟨place, value, r, (hs.locate g reg).symm.trans hl, hm⟩

theorem TriedRead.mono (h : e.TriedRead body g) (hsub : ∀ ev ∈ body, ev ∈ body') : e.TriedRead body' g := by
  obtain ⟨place, r, hl, hm⟩ := h
  exact ⟨place, r, hl, hsub _ hm⟩

/-- A read is found at the same place in an earlier memory of the pass. -/
theorem TriedRead.steady (h : e'.TriedRead body g) (hs : Steady e e') : e.TriedRead body g := by
  obtain ⟨place, r, hl, hm⟩ := h
  rw [hs.locate, hs.family] at hl
  exact ⟨place, r, hl, hm⟩

theorem Tried.mono (h : e.Tried body g) (hsub : ∀ ev ∈ body, ev ∈ body') : e.Tried body' g :=
  ⟨fun reg hreg => (h.written reg hreg).mono hsub, h.read.mono hsub⟩

end Extender

/-! ## Phases -/

/-- A transaction is tried, whatever comes of it. -/
theorem Transfers.tried {s s' : State} {a : Access} {r : Except BusKind Byte} (h : Transfers s a r s') :
    ∃ new, Passage s s' new ∧ .transaction a r ∈ new := by
  obtain ⟨s₁, hn, rfl, rfl⟩ := h
  obtain ⟨new, hnew⟩ := hn.touched.works.passage
  have ha : Passage s₁ (s₁.answered a) [.transaction a (s₁.board.outcome a)] := ⟨rfl, .refl _⟩
  obtain ⟨rest, hrest⟩ := Works.passage (.single (.record (s := s₁.answered a) a (s₁.board.outcome a)))
  exact ⟨_, (hnew.trans ha).trans hrest, List.mem_append_right _ (List.mem_append_left _ List.mem_cons_self)⟩

/-- Writing a register of some groups tries each of them, also after a failure. -/
theorem Writes.tried {reg : Byte} {value : Shadow → Nat → Byte} {groups : List Nat} {s s' : State} {ok : Bool}
    (h : Writes reg value groups s ok s') : ∃ new, Passage s s' new ∧ ∀ g ∈ groups, s.extender.TriedWrite new g reg := by
  induction h with
  | nil => exact ⟨[], .refl _, fun _ h => absurd h List.not_mem_nil⟩
  | @cons s s₁ s' group groups place r ok hp ht _ ih =>
    obtain ⟨new, hnew, hm⟩ := ht.tried
    obtain ⟨rest, hrest, hw⟩ := ih
    refine ⟨rest ++ new, hnew.trans hrest, fun g hg => ?_⟩
    rcases List.mem_cons.1 hg with rfl | hg
    · exact ⟨place, _, r, hp, List.mem_append_right _ hm⟩
    · exact ((hw g hg).steady hnew.steady).mono fun _ hm => List.mem_append_left _ hm

/-- Reading the inputs of some groups tries each of them, also after a failure. -/
theorem Reads.tried {groups : List Nat} {s s' : State} {result : List Refresh × Bool} (h : Reads groups s result s') :
    ∃ new, Passage s s' new ∧ ∀ g ∈ groups, s.extender.TriedRead new g := by
  induction h with
  | nil => exact ⟨[], .refl _, fun _ h => absurd h List.not_mem_nil⟩
  | @cons s s₁ s' group groups place r now refreshes ok hp ht _ _ ih =>
    obtain ⟨new, hnew, hm⟩ := ht.tried
    obtain ⟨rest, hrest, hw⟩ := ih
    have hkeep : Passage s (s₁.amend fun e => { e with shadow := e.shadow.setInput group now }) new :=
      hnew.then_silent rfl (.update _ _ _ _)
    refine ⟨_, hkeep.trans hrest, fun g hg => ?_⟩
    rcases List.mem_cons.1 hg with rfl | hg
    · exact ⟨place, r, hp, List.mem_append_right _ hm⟩
    · exact ((hw g hg).steady hkeep.steady).mono fun _ hm => List.mem_append_left _ hm

/-- Writing the polarities tries each group, if the family has a register for them. -/
theorem Inverts.tried {groups : List Nat} {s s' : State} {ok : Bool} (h : Inverts groups s ok s') :
    ∃ new, Passage s s' new ∧ ∀ g ∈ groups, ∀ reg ∈ s.extender.family.polarityReg, s.extender.TriedWrite new g reg := by
  unfold Inverts at h
  cases hreg : s.extender.family.polarityReg with
  | some reg =>
    rw [hreg] at h
    obtain ⟨new, hnew, hw⟩ := h.tried
    refine ⟨new, hnew, fun g hg reg' hm => ?_⟩
    cases hm
    exact hw g hg
  | none =>
    rw [hreg] at h
    obtain ⟨_, rfl⟩ := h
    exact ⟨[], .refl _, fun _ _ _ hm => by cases hm⟩

/-- The configuration writes the polarities and directions of all claimed groups, and makes them dirty. -/
theorem Configures.tried {s s' : State} {ok : Bool} (h : Configures s ok s') :
    ∃ new, Passage s s' new ∧ ∀ g, s.extender.claims.groups.getLsbD g = true →
      (∀ reg ∈ s.extender.family.polarityReg, s.extender.TriedWrite new g reg) ∧
      s.extender.TriedWrite new g s.extender.family.configReg ∧ s'.extender.shadow.dirty.getLsbD g = true := by
  obtain ⟨s₁, s₂, inverted, directed, hi, hd, _, rfl⟩ := h
  obtain ⟨new₁, hp₁, hw₁⟩ := hi.tried
  obtain ⟨new₂, hp₂, hw₂⟩ := hd.tried
  refine ⟨_, (hp₁.trans hp₂).then_silent rfl (.update _ _ _ _), fun g hg => ⟨fun reg hreg => ?_, ?_, ?_⟩⟩
  · exact (hw₁ g (Byte.mem_groups.2 hg) reg hreg).mono fun _ hm => List.mem_append_right _ hm
  · exact ((hw₂ g (Byte.mem_groups.2 hg)).steady hp₁.steady).mono fun _ hm => List.mem_append_left _ hm
  · show (s₂.extender.shadow.dirty ||| s.extender.claims.groups).getLsbD g = true
    rw [BitVec.getLsbD_or, hg, Bool.or_true]

/-- A flush writes the outputs of all dirty groups that are claimed. -/
theorem Flushes.tried {s s' : State} {ok : Bool} (h : Flushes s ok s') :
    ∃ new, Passage s s' new ∧ ∀ g, s.extender.claims.groups.getLsbD g = true → s.extender.shadow.dirty.getLsbD g = true →
      s.extender.TriedWrite new g s.extender.family.outputReg := by
  have hclear : Passage s (s.amend fun e => { e with shadow := e.shadow.clearDirty }) [] := ⟨rfl, .update _ _ _ _⟩
  obtain ⟨new, hnew, hw⟩ := Writes.tried h
  refine ⟨_, hclear.trans hnew, fun g hg hd => ?_⟩
  rw [List.append_nil]
  refine hw g (Byte.mem_groups.2 ?_)
  rw [BitVec.getLsbD_and, hd, hg, Bool.and_self]

/-- A refresh of some groups reads the inputs of those that are claimed. -/
theorem Refreshes.tried {groups : Byte} {s s' : State} {ok : Bool} (h : Refreshes groups s ok s') :
    ∃ new, Passage s s' new ∧ ∀ g, s.extender.claims.groups.getLsbD g = true → groups.getLsbD g = true →
      s.extender.TriedRead new g := by
  obtain ⟨s₁, s₂, refreshes, hr, hturns, rfl⟩ := h
  obtain ⟨new₁, hp₁, hw₁⟩ := hr.tried
  obtain ⟨new₂, hp₂⟩ := hturns.calls.works.passage
  refine ⟨_, (hp₁.trans hp₂).then_silent rfl s₂.works_rearmed.steady, fun g hg hgroups => ?_⟩
  refine (hw₁ g (Byte.mem_groups.2 ?_)).mono fun _ hm => List.mem_append_right _ hm
  rw [BitVec.getLsbD_and, hg, hgroups, Bool.and_self]

/-! ## A whole pass -/

/-- Whatever has been asked for is in the plan of a pass. -/
theorem Gathers.requests {pending : Status} {plan : Plan} {s s' : State} (h : Gathers pending s plan s') :
    ∃ pending' groups, plan = .ofRequests pending' groups ∧ ∀ f, pending.contains f = true → pending'.contains f = true := by
  cases h with
  | looked =>
    refine ⟨_, 0, rfl, fun f hf => ?_⟩
    split
    · exact FlagSet.contains_union_left _ hf
    · exact hf
  | unlooked => exact ⟨_, 0, rfl, fun _ h => h⟩
  | drained => exact ⟨_, _, rfl, fun _ h => h⟩

/-- When the configuration has been asked for, all parts of a pass are made. -/
theorem Gathers.plan_of_config {pending : Status} {plan : Plan} {s s' : State} (h : Gathers pending s plan s')
    (hc : pending.contains Status.configDirty = true) : plan = ⟨true, true, 255⟩ := by
  obtain ⟨pending', groups, rfl, hp⟩ := h.requests
  unfold Plan.ofRequests
  rw [hp _ hc]
  rfl

/-- A pass that has been asked for the configuration tries to write and read all that is claimed. -/
theorem Carries.tried {pending : Status} {s s' : State} {clean : Bool} (h : Carries pending s clean s')
    (hc : pending.contains Status.configDirty = true) :
    ∃ new, Passage s s' new ∧ ∀ g, s.extender.claims.groups.getLsbD g = true → s.extender.Tried new g := by
  obtain ⟨plan, s₁, s₂, s₃, configured, written, read, hg, hconf, hwrite, hread, _⟩ := h
  obtain ⟨new₁, hp₁⟩ := hg.works.passage
  rw [hg.plan_of_config hc] at hconf hwrite hread
  obtain ⟨new₂, hp₂, hw₂⟩ := Configures.tried hconf
  obtain ⟨new₃, hp₃, hw₃⟩ := Flushes.tried hwrite
  obtain ⟨new₄, hp₄, hr₄⟩ := Refreshes.tried hread
  have hs₁ := hp₁.steady
  have hs₂ := hs₁.trans hp₂.steady
  have hs₃ := hs₂.trans hp₃.steady
  refine ⟨_, ((hp₁.trans hp₂).trans hp₃).trans hp₄, fun g hcl => ?_⟩
  -- The configuration makes every claimed group dirty, which is why the flush after it writes the outputs of this one.
  obtain ⟨hpol, hdir, hdirty⟩ := hw₂ g (by rw [hs₁.claims]; exact hcl)
  have hout := (hw₃ g (by rw [hs₂.claims]; exact hcl) hdirty).steady hs₂
  have hin := (hr₄ g (by rw [hs₃.claims]; exact hcl) (Byte.getLsbD_255 (BitVec.lt_of_getLsbD hcl))).steady hs₃
  have hsub₂ : ∀ ev ∈ new₂, ev ∈ new₄ ++ (new₃ ++ (new₂ ++ new₁)) := fun _ hm =>
    List.mem_append_right _ (List.mem_append_right _ (List.mem_append_left _ hm))
  rw [hs₁.family] at hpol hdir
  rw [hs₂.family] at hout
  refine ⟨fun reg hreg => ?_, hin.mono fun _ hm => List.mem_append_left _ hm⟩
  rcases List.mem_append.1 hreg with hreg | hreg
  · exact ((hpol reg (Option.mem_toList.1 hreg)).steady hs₁).mono hsub₂
  · rcases List.mem_cons.1 hreg with rfl | hreg
    · exact (hdir.steady hs₁).mono hsub₂
    · rw [List.mem_singleton.1 hreg]
      exact hout.mono fun _ hm => List.mem_append_right _ (List.mem_append_left _ hm)

end PortExpander
