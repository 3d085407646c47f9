import PortExpander.Proofs.Dues
import PortExpander.Proofs.Interrupts
import PortExpander.Proofs.PlainSteps

/-!
# Several outputs at once

Giving several outputs their levels at once comes to the same as giving them one after the other, but for what is written on the way.
The reason is that a flush can be left out if the outputs are flushed again after more of them have been written: the last pass writes
what both passes would have written (`registers_merge`), and the pass before it has changed nothing that it does not change itself.
-/

namespace PortExpander

open Sim Engine

/-! ## Levels of several pins -/

namespace PinMap

/-- The map with the bits of some pins replaced, one after the other. -/
def setAll (m : PinMap) (targets : List Target) : PinMap := targets.foldl (fun m t => m.set t.pin t.high) m

/-- The groups of the pins whose bits are different for a while or for good when some pins' bits are replaced. -/
def changed (m : PinMap) : List Target → Byte
  | [] => 0
  | t :: ts => (if m.get t.pin != t.high then BitVec.twoPow 8 (t.pin / 8) else 0) ||| (m.set t.pin t.high).changed ts

/-- A byte no bit of which is replaced by another one is what it was. -/
theorem byte_setAll {m : PinMap} {targets : List Target} {g : Nat} (hg : g < 8) (h : (m.changed targets).getLsbD g = false) :
    (m.setAll targets).byte g = m.byte g := by
  induction targets generalizing m with
  | nil => rfl
  | cons t ts ih =>
    change (_ ||| (m.set t.pin t.high).changed ts).getLsbD g = false at h
    rw [BitVec.getLsbD_or, Bool.or_eq_false_iff] at h
    change ((m.set t.pin t.high).setAll ts).byte g = _
    rw [ih h.2]
    by_cases hgp : g = t.pin / 8
    · have hv : m.get t.pin = t.high := by
        refine Decidable.byContradiction fun hv => ?_
        have hbit := h.1
        rw [if_pos (bne_iff_ne.2 hv), ← hgp, BitVec.getLsbD_twoPow] at hbit
        simp [hg] at hbit
      rw [← hv, set_get]
    · exact byte_set m t.pin t.high hgp

end PinMap

namespace Shadow

/-- Gives outputs their levels, one after the other. -/
def writeAll (s : Shadow) (targets : List Target) : Shadow := targets.foldl (fun s t => s.write t.pin t.high) s

/-- Giving outputs their levels changes the bits of the map, and stages the groups whose bits have changed. -/
theorem writeAll_eq (s : Shadow) (targets : List Target) : s.writeAll targets =
    { s with output := s.output.setAll targets, staged := s.staged ||| s.output.changed targets } := by
  induction targets generalizing s with
  | nil =>
    show s = { s with staged := s.staged ||| 0#8 }
    rw [BitVec.or_zero]
  | cons t ts ih =>
    change (s.write t.pin t.high).writeAll ts = _
    rw [ih]
    have hstaged : (s.write t.pin t.high).staged ||| (s.output.set t.pin t.high).changed ts =
        s.staged ||| s.output.changed (t :: ts) := by
      show (if _ then _ else _) ||| _ = s.staged ||| ((if _ then _ else _) ||| _)
      split
      · rw [BitVec.or_assoc]
      · rw [BitVec.ofNat_eq_ofNat, BitVec.zero_or]
    show ({ s with output := _, staged := (s.write t.pin t.high).staged ||| (s.output.set t.pin t.high).changed ts } : Shadow) = _
    rw [hstaged]
    rfl

end Shadow

/-! ## Passes that can be left out -/

/-- Whether registers of different groups are apart is a matter of the family and the address. -/
theorem Extender.Apart.abides {e e' : Extender} (h : e.Apart) (ha : e.Abides e') : e'.Apart := by
  unfold Apart locate
  rw [ha.family, ha.address, ha.claims]
  exact h

namespace Scene

/-- If a pass writes all that two passes have written, and means what was meant last, the registers are the same in the end. -/
theorem registers_merge {c c₁ c₂ : Scene} {plan plan₁ plan₂ : Plan}
    (hr₁ : c₁.registers = (c.puts (c.extender.dues plan)).registers) (hr₂ : c₂.registers = c.registers)
    (ha : c.extender.Apart) (ha₁ : c.extender.Abides c₁.extender) (ha₂ : c.extender.Abides c₂.extender)
    (hdue : ∀ k g, (c₂.extender.due plan₂ k).getLsbD g = true ↔
      (c.extender.due plan k).getLsbD g = true ∨ (c₁.extender.due plan₁ k).getLsbD g = true)
    (hlast : ∀ k g, (c₁.extender.due plan₁ k).getLsbD g = true → c₁.extender.shadow.meant k g = c₂.extender.shadow.meant k g)
    (hfirst : ∀ k g, (c.extender.due plan k).getLsbD g = true → ¬(c₁.extender.due plan₁ k).getLsbD g = true →
      c.extender.shadow.meant k g = c₂.extender.shadow.meant k g) :
    (c₁.puts (c₁.extender.dues plan₁)).registers = (c₂.puts (c₂.extender.dues plan₂)).registers := by
  have hat {e e' : Extender} (h : c.extender.Abides e) (h' : c.extender.Abides e') {plan plan' : Plan} {k : Register} {g : Nat}
      {p : Place} (hd : e.DueAt plan k g p) (hd' : (e'.due plan' k).getLsbD g = true) : e'.DueAt plan' k g p := by
    refine ⟨hd', ?_⟩
    obtain ⟨-, hw⟩ := hd
    unfold Extender.locate at hw ⊢
    rw [h.family, h.address] at hw
    rw [h'.family, h'.address]
    exact hw
  have hrefl : c.extender.Abides c.extender := ⟨rfl, rfl, rfl⟩
  funext p
  by_cases h₁ : ∃ k g, c₁.extender.DueAt plan₁ k g p
  · obtain ⟨k, g, hd⟩ := h₁
    have hd₂ : c₂.extender.DueAt plan₂ k g p := hat ha₁ ha₂ hd ((hdue k g).2 (.inr hd.1))
    rw [registers_of_due (ha.abides ha₁) hd, registers_of_due (ha.abides ha₂) hd₂, hlast k g hd.1]
  · have hno₁ (k : Register) (g : Nat) (hd : c₁.extender.DueAt plan₁ k g p) : False := h₁ ⟨k, g, hd⟩
    rw [registers_of_not_due hno₁, hr₁]
    by_cases h : ∃ k g, c.extender.DueAt plan k g p
    · obtain ⟨k, g, hd⟩ := h
      have hd₂ : c₂.extender.DueAt plan₂ k g p := hat hrefl ha₂ hd ((hdue k g).2 (.inl hd.1))
      have hnot : ¬(c₁.extender.due plan₁ k).getLsbD g = true := fun hd₁ => hno₁ k g (hat hrefl ha₁ hd hd₁)
      rw [registers_of_due ha hd, registers_of_due (ha.abides ha₂) hd₂, hfirst k g hd.1 hnot]
    · have hno (k : Register) (g : Nat) (hd : c.extender.DueAt plan k g p) : False := h ⟨k, g, hd⟩
      have hno₂ (k : Register) (g : Nat) (hd : c₂.extender.DueAt plan₂ k g p) : False := by
        rcases (hdue k g).1 hd.1 with hd' | hd'
        · exact hno k g (hat ha₂ hrefl hd hd')
        · exact hno₁ k g (hat ha₂ ha₁ hd hd')
      rw [registers_of_not_due hno, registers_of_not_due hno₂, hr₂]

end Scene

/-! ## Flushes -/

namespace Scene

/-- The scene after outputs have been given their levels. -/
def writeAll (c : Scene) (targets : List Target) : Scene :=
  c.amend fun e => { e with shadow := e.shadow.writeAll targets }

/-- The scene once what is staged is dirty and is to be flushed. -/
def committed (c : Scene) : Scene := c.amend fun e => { e with shadow := e.shadow.commit }.request .writeDirty

variable {c d : Scene}

/-- A flush asks for the outputs. -/
theorem contains_status_committed : c.committed.extender.status.contains Status.writeDirty = true :=
  FlagSet.contains_union_right _ (FlagSet.contains_refl _)

/-- The pass of a flush writes the outputs. -/
theorem write_nextPlan_committed : c.committed.nextPlan.write = true := by
  rw [write_nextPlan, contains_status_committed, Bool.or_true]

/-- A flush stops nothing. -/
theorem isStopped_committed : c.committed.extender.isStopped = c.extender.isStopped := by
  show (c.extender.halted || (c.extender.status ∪ Status.writeDirty).contains (.flag 1)) = _
  rw [FlagSet.contains_union_other _ (by decide) (by decide)]
  rfl

/-- The second scene is what a flush of the first one comes to in which a pass is made. -/
structure Flushed (c a : Scene) : Prop where
  extender : a.extender = { c.extender with
    shadow := { c.extender.shadow with staged := 0, dirty := 0, input := c.inputs c.committed.nextPlan.groups }
    status := ∅
    updating := false
    backoff := c.extender.backoff.recordSuccess
    engine := c.committed.nextEngine }
  registers : a.registers = (c.committed.puts (c.committed.extender.dues c.committed.nextPlan)).registers
  lines : a.lines = c.lines
  interruptContext : a.interruptContext = c.interruptContext
  writes : a.writes = (c.committed.extender.dues c.committed.nextPlan).reverse ++ c.writes

/-- Whatever it comes to, a flush that makes a pass is one. -/
theorem flushed_flushed (hf : c.extender.family.Separate) (hs : c.extender.isStopped = false) (hi : c.interruptContext = false) :
    c.Flushed c.flushed := by
  have hstopped : c.committed.extender.isStopped = false := isStopped_committed.trans hs
  have hidle : c.committed.extender.isIdleWith c.committed.extender.work = false :=
    Extender.isIdleWith_of_contains (by decide)
      ((Extender.contains_work (by decide) (by decide) (by decide)).trans contains_status_committed)
  have hclean : c.committed.extender.dirtyAfter c.committed.nextPlan = 0 := by
    unfold Extender.dirtyAfter
    rw [write_nextPlan_committed, if_pos rfl]
  have hflushed : c.flushed = c.committed.update.2 := by
    show (if c.interruptContext = true then _ else _) = _
    rw [if_neg (Bool.eq_false_iff.1 hi)]
    rfl
  obtain ⟨hlines, hcontext⟩ := board_puts c.committed (c.committed.extender.dues c.committed.nextPlan)
  rw [hflushed, update_of_running (c := c.committed) hf hstopped hidle]
  refine ⟨?_, rfl, hlines, hcontext, writes_puts _⟩
  rw [extender_amend_puts, hclean]
  rfl

/-- The next pass depends on the requests, the engine and its lines only. -/
theorem next_congr (he : c.extender.engine = d.extender.engine) (hs : c.extender.status = d.extender.status)
    (hl : c.extender.lines = d.extender.lines) (hb : c.lines = d.lines) :
    c.nextPlan = d.nextPlan ∧ c.nextEngine = d.nextEngine := by
  have hwork : c.extender.work = d.extender.work := by
    unfold Extender.work Extender.standing
    rw [he, hs]
  have hgather : (c.gather c.extender.work).1 = (d.gather d.extender.work).1 ∧
      (c.gather c.extender.work).2.extender.engine = (d.gather d.extender.work).2.extender.engine := by
    unfold gather
    rw [hwork, he, hl, hb]
    split
    · split
      · exact ⟨rfl, rfl⟩
      · exact ⟨rfl, he⟩
    · exact ⟨rfl, rfl⟩
  refine ⟨hgather.1, ?_⟩
  unfold nextEngine nextPlan
  rw [hgather.1, hgather.2]

/-- What the generic engine makes of some work. -/
theorem gather_generic {m : Sampler} (he : c.extender.engine = .generic m) (work : Status) : ∃ pending high,
    c.gather work = (.ofRequests pending 0, c.amend ({ · with engine := .generic { m with high } })) ∧
      (work.contains Status.readDirty = true → pending.contains Status.readDirty = true) := by
  unfold gather
  rw [he]
  dsimp only
  split
  · refine ⟨_, _, rfl, fun h => ?_⟩
    split
    · exact FlagSet.contains_union_left _ h
    · exact h
  · refine ⟨work, m.high, Prod.ext rfl ?_, id⟩
    show c = { c with extender := { c.extender with engine := .generic m } }
    rw [← he]

/-- The work of a flush asks for inputs only if the engine does so in every pass. -/
theorem contains_work_flush {e : Extender} (hw : e.status = Status.writeDirty) :
    e.work.contains Status.configDirty = false ∧ e.work.contains Status.isrPending = false ∧
      e.work.contains Status.readDirty = e.standing.contains Status.readDirty := by
  have hcontains {i : Nat} (hi : i < 6) (h3 : i ≠ 3) (h4 : i ≠ 4) :
      e.work.contains (.flag i) = Status.writeDirty.contains (.flag i) := by
    rw [Extender.contains_work hi h3 h4, hw]
  refine ⟨hcontains (by decide) (by decide) (by decide), hcontains (by decide) (by decide) (by decide), ?_⟩
  show (e.status.pending ∪ e.standing).contains (.flag 3) = _
  rw [hw, FlagSet.contains_union_flag _ _ (by decide)]
  rfl

/-- What the generic engine asks for in every pass is what it polls. -/
theorem standing_generic {e : Extender} {m : Sampler} (he : e.engine = .generic m) :
    e.standing.contains Status.readDirty = m.polling := by
  unfold Extender.standing
  rw [he]
  dsimp only
  cases m.polling <;> decide

section

variable (he : d.extender.engine = c.nextEngine) (hw : d.extender.status = Status.writeDirty)

include he hw

/-- A flush soon after another one reads no more than what is read in every pass. -/
theorem next_again_generic {m : Sampler} (hc : c.extender.engine = .generic m) :
    (∀ g, d.nextPlan.groups.getLsbD g = true → c.nextPlan.groups.getLsbD g = true) ∧ d.nextEngine = c.nextEngine := by
  obtain ⟨pending, high, hgather, hpending⟩ := gather_generic hc c.extender.work
  have hplan : c.nextPlan = .ofRequests pending 0 := congrArg Prod.fst hgather
  have hengine : c.nextEngine = Engine.reread (.generic { m with high }) c.nextPlan.groups := by
    unfold nextEngine
    rw [hgather]
    rfl
  obtain ⟨hconfig, hisr, hread⟩ := contains_work_flush hw
  have hunheard : (d.extender.work.contains Status.isrPending && d.extender.lines.has 0) = false := by
    rw [hisr, Bool.false_and]
  -- an engine that polls reads everything in both passes, one that does not reads nothing in the second
  cases hp : m.polling with
  | true =>
    have hasked : c.extender.work.contains Status.readDirty = true :=
      FlagSet.contains_union_right _ ((standing_generic hc).trans hp)
    have hall : c.nextPlan.groups = 255 := by rw [hplan, Plan.groups_of_asked (.inr (hpending hasked))]
    rw [hall] at hengine
    have hd : d.extender.engine = .generic { m with high := true } := he.trans hengine
    refine ⟨fun g hg => ?_, ?_⟩
    · rw [hall]
      exact Byte.getLsbD_255 (BitVec.lt_of_getLsbD hg)
    · have hasked' : d.extender.work.contains Status.readDirty = true := hread.trans ((standing_generic hd).trans hp)
      unfold nextEngine nextPlan
      rw [gather_unheard hd hunheard, Plan.groups_of_asked (.inr hasked'), hd]
      exact hengine.symm
  | false =>
    have hd : ∃ high, d.extender.engine = .generic { m with high } := by
      rw [he, hengine]
      unfold Engine.reread
      split
      · exact ⟨true, rfl⟩
      · exact ⟨high, rfl⟩
    obtain ⟨high', hd⟩ := hd
    have hunasked : d.extender.work.contains Status.readDirty = false := hread.trans ((standing_generic hd).trans hp)
    have hnone : d.nextPlan.groups = 0 := by
      unfold nextPlan
      rw [gather_unheard hd hunheard, Plan.groups_of_unasked hconfig hunasked]
    refine ⟨fun g hg => ?_, ?_⟩
    · rw [hnone, BitVec.ofNat_eq_ofNat, BitVec.getLsbD_zero] at hg
      cases hg
    · unfold nextEngine
      rw [hnone, gather_unheard hd hunheard, he]
      rfl

/-- The queued engine reads no more in a pass right after another one, and its queue is empty in both. -/
theorem next_again_queued {q : ChipQueue} (hc : c.extender.engine = .queued q) :
    (∀ g, d.nextPlan.groups.getLsbD g = true → c.nextPlan.groups.getLsbD g = true) ∧ d.nextEngine = c.nextEngine := by
  have hd : d.extender.engine = .queued q.emptied := he.trans (nextEngine_queued hc)
  obtain ⟨hconfig, -, hread⟩ := contains_work_flush hw
  have hunasked : d.extender.work.contains Status.readDirty = false := by
    rw [hread]
    unfold Extender.standing
    rw [hd]
    show FlagSet.contains ∅ Status.readDirty = false
    decide
  refine ⟨fun g hg => ?_, (nextEngine_queued hd).trans (nextEngine_queued hc).symm⟩
  have hg8 := BitVec.lt_of_getLsbD hg
  unfold nextPlan at hg ⊢
  rw [gather_queued hd, Plan.groups_of_unasked hconfig hunasked] at hg
  rw [gather_queued hc, Plan.getLsbD_groups hg8, getLsbD_foldl_queue _ _ _ hg8]
  exact .inr (.inr (Bool.or_eq_true_iff.2 (.inl hg)))

/-- Either engine reads no more in a pass right after another one, and then keeps the same. -/
theorem next_again : (∀ g, d.nextPlan.groups.getLsbD g = true → c.nextPlan.groups.getLsbD g = true) ∧
    d.nextEngine = c.nextEngine := by
  cases hc : c.extender.engine with
  | generic m => exact next_again_generic he hw hc
  | queued q => exact next_again_queued he hw hc

end

end Scene

/-- Committing in between makes no difference to what is dirty in the end. -/
theorem Shadow.commit_writeAll_commit (s : Shadow) (targets : List Target) :
    (s.commit.writeAll targets).commit = (s.writeAll targets).commit := by
  have hdirty : (s.dirty ||| s.staged) ||| (0#8 ||| s.output.changed targets) = s.dirty ||| (s.staged ||| s.output.changed targets) := by
    rw [BitVec.zero_or, BitVec.or_assoc]
  rw [writeAll_eq, writeAll_eq]
  exact congrArg (fun dirty => { s with output := s.output.setAll targets, staged := 0, dirty }) hdirty

/-- To ask for the same twice is to ask for it once. -/
theorem Status.union_self (w : Status) (bits : Status) : w ∪ bits ∪ bits = w ∪ bits := by
  show (⟨(w.bits ||| bits.bits) ||| bits.bits⟩ : Status) = _
  rw [BitVec.or_assoc, BitVec.or_self]
  rfl

namespace Scene

/-- Scenes that show the same, whatever has been written in the past. -/
structure Alike (c c' : Scene) : Prop where
  extender : c.extender = c'.extender
  registers : c.registers = c'.registers
  lines : c.lines = c'.lines
  interruptContext : c.interruptContext = c'.interruptContext

theorem Alike.trans {c c' c'' : Scene} (h : c.Alike c') (h' : c'.Alike c'') : c.Alike c'' where
  extender := h.extender.trans h'.extender
  registers := h.registers.trans h'.registers
  lines := h.lines.trans h'.lines
  interruptContext := h.interruptContext.trans h'.interruptContext

variable {c : Scene}

/-- What giving outputs their levels makes of the memory. -/
theorem extender_writeAll (c : Scene) (targets : List Target) : (c.writeAll targets).extender =
    { c.extender with
      shadow := { c.extender.shadow with
        output := c.extender.shadow.output.setAll targets
        staged := c.extender.shadow.staged ||| c.extender.shadow.output.changed targets } } := by
  unfold writeAll
  rw [← Shadow.writeAll_eq]
  rfl

/-- What giving outputs their levels and committing them makes of the memory. -/
theorem committed_writeAll (c : Scene) (targets : List Target) : (c.writeAll targets).committed.extender =
    { c.extender with
      shadow := { c.extender.shadow with
        output := c.extender.shadow.output.setAll targets
        staged := 0
        dirty := c.extender.shadow.dirty ||| (c.extender.shadow.staged ||| c.extender.shadow.output.changed targets) }
      status := c.extender.status ∪ Status.writeDirty } := by
  show ({ (c.writeAll targets).extender with shadow := (c.writeAll targets).extender.shadow.commit } : Extender).request .writeDirty = _
  rw [extender_writeAll]
  rfl

/-- Writing outputs does not change what the next pass does. -/
theorem next_writeAll (c : Scene) (targets : List Target) : (c.writeAll targets).committed.nextPlan = c.committed.nextPlan ∧
    (c.writeAll targets).committed.nextEngine = c.committed.nextEngine :=
  next_congr rfl rfl rfl rfl

namespace Flushed

variable {a : Scene} (h : c.Flushed a) (targets : List Target)

include h

/-- A flush leaves the chips and the claims as they are. -/
theorem abides : c.extender.Abides a.extender := by
  rw [h.extender]
  exact ⟨rfl, rfl, rfl⟩

/-- A flush soon after another one has less to do. -/
theorem next : (a.writeAll targets).committed.nextPlan.configure = false ∧
    (∀ g, (a.writeAll targets).committed.nextPlan.groups.getLsbD g = true → c.committed.nextPlan.groups.getLsbD g = true) ∧
    (a.writeAll targets).committed.nextEngine = c.committed.nextEngine := by
  have hstatus : (a.writeAll targets).committed.extender.status = Status.writeDirty := by
    show a.extender.status ∪ Status.writeDirty = _
    rw [h.extender]
    show ∅ ∪ Status.writeDirty = Status.writeDirty
    decide
  have hengine : (a.writeAll targets).committed.extender.engine = c.committed.nextEngine := by
    show a.extender.engine = _
    rw [h.extender]
  obtain ⟨hgroups, hnext⟩ := next_again hengine hstatus
  refine ⟨?_, hgroups, hnext⟩
  rw [configure_nextPlan, hstatus]
  decide

/-- What is read soon after a flush has been read in it. -/
theorem inputs (hf : c.extender.family.Separate) : (a.writeAll targets).inputs (a.writeAll targets).committed.nextPlan.groups =
    (c.writeAll targets).inputs c.committed.nextPlan.groups := by
  have hinvert (d : Scene) (g : Nat) : (d.writeAll targets).seen g = d.seen g := by
    refine seen_congr (c := d) (d := d.writeAll targets) rfl rfl ?_ rfl g
    show (d.extender.shadow.writeAll targets).invert = _
    rw [Shadow.writeAll_eq]
  have hinput (d : Scene) : (d.writeAll targets).extender.shadow.input = d.extender.shadow.input := by
    show (d.extender.shadow.writeAll targets).input = _
    rw [Shadow.writeAll_eq]
  have hinputs : (c.writeAll targets).inputs c.committed.nextPlan.groups = c.inputs c.committed.nextPlan.groups :=
    inputs_congr (fun g _ => hinvert c g) (hinput c) rfl _
  refine inputs_again (fun g hg => ?_) ?_ h.abides.claims (h.next targets).2.1
  · have hseen : a.seen g = (c.committed.puts (c.committed.extender.dues c.committed.nextPlan)).seen g := by
      refine seen_congr ?_ ?_ ?_ h.registers g <;> rw [extender_puts, h.extender] <;> rfl
    rw [hinvert, hinvert, hseen, seen_puts (c := c.committed) hf hg]
    rfl
  · rw [hinputs, hinput, h.extender]

/-- Soon after a flush, the output registers that are due are those of the claimed groups whose outputs have changed. -/
theorem getLsbD_due_output (g : Nat) :
    ((a.writeAll targets).committed.extender.due (a.writeAll targets).committed.nextPlan .output).getLsbD g =
      (c.extender.claims.groups.getLsbD g && (c.extender.shadow.output.changed targets).getLsbD g) := by
  have hclaims : (a.writeAll targets).committed.extender.claims = c.extender.claims := h.abides.claims
  have hdirty : (a.writeAll targets).committed.extender.shadow.dirty = c.extender.shadow.output.changed targets := by
    rw [committed_writeAll, h.extender]
    show 0#8 ||| (0#8 ||| _) = _
    rw [BitVec.zero_or, BitVec.zero_or]
  rw [Extender.getLsbD_due_output write_nextPlan_committed, hclaims, (h.next targets).1, hdirty, Bool.false_or]

/-- Soon after a flush, no other registers are due. -/
theorem not_due {k : Register} (hk : k ≠ .output) (g : Nat) :
    ¬((a.writeAll targets).committed.extender.due (a.writeAll targets).committed.nextPlan k).getLsbD g = true := by
  have hzero : (a.writeAll targets).committed.extender.due (a.writeAll targets).committed.nextPlan k = 0#8 := by
    cases k with
    | output => exact (hk rfl).elim
    | _ => exact if_neg (Bool.eq_false_iff.1 (h.next targets).1)
  rw [hzero, BitVec.getLsbD_zero]
  exact Bool.false_ne_true

/-- A flush does not change what the registers are meant to hold. -/
theorem meant (k : Register) (g : Nat) : (a.writeAll targets).committed.extender.shadow.meant k g =
    (c.writeAll targets).committed.extender.shadow.meant k g := by
  rw [committed_writeAll, committed_writeAll, h.extender]
  cases k <;> rfl

omit h in
/-- What is due if the flush is left out is what is due in it or soon after it. -/
theorem getLsbD_due_output_left_out (g : Nat) :
    ((c.writeAll targets).committed.extender.due c.committed.nextPlan .output).getLsbD g =
      ((c.committed.extender.due c.committed.nextPlan .output).getLsbD g ||
        (c.extender.claims.groups.getLsbD g && (c.extender.shadow.output.changed targets).getLsbD g)) := by
  have hdirty : (c.writeAll targets).committed.extender.shadow.dirty =
      c.committed.extender.shadow.dirty ||| c.extender.shadow.output.changed targets := by
    rw [committed_writeAll]
    exact (BitVec.or_assoc _ _ _).symm
  rw [Extender.getLsbD_due_output write_nextPlan_committed, Extender.getLsbD_due_output write_nextPlan_committed, hdirty,
    BitVec.getLsbD_or, ← Bool.or_assoc, Bool.and_or_distrib_left]
  rfl

/-- What is written soon after a flush could have been written in it. -/
theorem registers_writeAll (ha : c.extender.Apart) :
    ((a.writeAll targets).committed.puts
      ((a.writeAll targets).committed.extender.dues (a.writeAll targets).committed.nextPlan)).registers =
    ((c.writeAll targets).committed.puts ((c.writeAll targets).committed.extender.dues c.committed.nextPlan)).registers := by
  refine registers_merge (c := c.committed) h.registers rfl (ha.abides ⟨rfl, rfl, rfl⟩)
    ⟨h.abides.family, h.abides.address, h.abides.claims⟩ ⟨rfl, rfl, rfl⟩ (fun k g => ?_) (fun k g _ => h.meant targets k g)
    fun k g hd hno => ?_
  · cases k with
    | output => rw [h.getLsbD_due_output, getLsbD_due_output_left_out, Bool.or_eq_true]
    | _ => exact ⟨.inl, fun hd => hd.resolve_right (h.not_due targets (by decide) g)⟩
  · rw [committed_writeAll]
    cases k with
    | output =>
      have hclaimed : c.extender.claims.groups.getLsbD g = true := Extender.claimed_of_due (e := c.committed.extender) hd
      rw [h.getLsbD_due_output, hclaimed, Bool.true_and, Bool.not_eq_true] at hno
      show _ ^^^ _ = (c.extender.shadow.output.setAll targets).byte g ^^^ _
      rw [PinMap.byte_setAll (BitVec.lt_of_getLsbD hclaimed) hno]
      rfl
    | _ => rfl

/-- A flush can be left out if more outputs are written and flushed after it. -/
theorem alike {b d : Scene} (hb : (a.writeAll targets).Flushed b) (hd : (c.writeAll targets).Flushed d)
    (hf : c.extender.family.Separate) (ha : c.extender.Apart) : b.Alike d := by
  obtain ⟨hplan, hengine⟩ := next_writeAll c targets
  refine ⟨?_, ?_, ?_, ?_⟩
  · rw [hb.extender, hd.extender, h.inputs targets hf, (h.next targets).2.2, hplan, hengine]
    rw [extender_writeAll, extender_writeAll, h.extender]
    rfl
  · rw [hb.registers, hd.registers, h.registers_writeAll targets ha, hplan]
  · exact (hb.lines.trans h.lines).trans hd.lines.symm
  · exact (hb.interruptContext.trans h.interruptContext).trans hd.interruptContext.symm

end Flushed

/-- A flush can be left out if more outputs are written and flushed after it, in interrupt context. -/
theorem committed_writeAll_committed (targets : List Target) :
    (c.committed.writeAll targets).committed.Alike (c.writeAll targets).committed :=
  ⟨congrArg₂ (fun shadow status => { c.extender with shadow, status })
    (Shadow.commit_writeAll_commit _ targets) (Status.union_self _ _), rfl, rfl, rfl⟩

/-- What a running extender of a built-in family is like. -/
structure Ready (d : Device) (e : Extender) : Prop where
  family : e.family = d.family
  located : e.Located
  running : e.isStopped = false

/-- A running extender of a built-in family stays one while it is not stopped. -/
theorem Ready.abides {d : Device} {e e' : Extender} (h : Ready d e) (ha : e.Abides e') (hs : e'.isStopped = false) : Ready d e' where
  family := ha.family.trans h.family
  located := h.located.abides ha
  running := hs

/-- The registers of a built-in family do not overlap. -/
theorem Ready.separate {d : Device} {e : Extender} (h : Ready d e) : e.family.Separate := by
  rw [h.family]
  exact d.separate

/-- The registers of different groups of a built-in family are apart. -/
theorem Ready.apart {d : Device} {e : Extender} (h : Ready d e) : e.Apart := by
  refine Family.Spaced.apart ?_
  rw [h.family]
  exact d.spaced

/-- In interrupt context a flush commits and makes no pass. -/
theorem flushed_of_interruptContext (hi : c.interruptContext = true) : c.flushed = c.committed := if_pos hi

/-- A flush of a running extender leaves the chips and the claims as they are. -/
theorem Ready.abides_flushed {d : Device} (h : Ready d c.extender) : c.extender.Abides c.flushed.extender := by
  cases hi : c.interruptContext with
  | true =>
    rw [flushed_of_interruptContext hi]
    exact ⟨rfl, rfl, rfl⟩
  | false => exact (flushed_flushed h.separate h.running hi).abides

/-- After a flush a running extender still runs. -/
theorem Ready.flushed {d : Device} (h : Ready d c.extender) : Ready d c.flushed.extender := by
  refine h.abides h.abides_flushed ?_
  cases hi : c.interruptContext with
  | true =>
    rw [flushed_of_interruptContext hi]
    exact isStopped_committed.trans h.running
  | false =>
    rw [(flushed_flushed h.separate h.running hi).extender]
    have hempty : FlagSet.contains ∅ Status.stop = false := by decide
    show (c.extender.halted || FlagSet.contains ∅ Status.stop) = false
    rw [hempty, Bool.or_false]
    exact (Bool.or_eq_false_iff.1 h.running).1

/-- A flush writes to no register more than once. -/
theorem Ready.writes_flushed {d : Device} (h : Ready d c.extender) :
    ∃ new, c.flushed.writes = new ++ c.writes ∧ (new.map Prod.fst).Nodup := by
  cases hi : c.interruptContext with
  | true =>
    rw [flushed_of_interruptContext hi]
    exact ⟨[], rfl, List.nodup_nil⟩
  | false =>
    refine ⟨_, (flushed_flushed h.separate h.running hi).writes, ?_⟩
    rw [List.map_reverse, List.nodup_reverse]
    exact Extender.Apart.nodup_dues (e := c.committed.extender) (h.apart.abides ⟨rfl, rfl, rfl⟩)

/-- A flush can be left out if more outputs are written and flushed after it. -/
theorem flushed_writeAll_flushed {d : Device} (h : Ready d c.extender) (targets : List Target) :
    (c.flushed.writeAll targets).flushed.Alike (c.writeAll targets).flushed := by
  cases hi : c.interruptContext with
  | true =>
    rw [flushed_of_interruptContext hi, flushed_of_interruptContext (c := c.committed.writeAll targets) hi,
      flushed_of_interruptContext (c := c.writeAll targets) hi]
    exact committed_writeAll_committed targets
  | false =>
    have hfl := flushed_flushed h.separate h.running hi
    have hagain : Ready d (c.flushed.writeAll targets).extender := h.flushed.abides ⟨rfl, rfl, rfl⟩ h.flushed.running
    have honce : Ready d (c.writeAll targets).extender := h.abides ⟨rfl, rfl, rfl⟩ h.running
    exact hfl.alike targets (flushed_flushed hagain.separate hagain.running (hfl.interruptContext.trans hi))
      (flushed_flushed honce.separate honce.running hi) h.separate h.apart

/-- A call goes on if the extender is not stopped. -/
theorem running_of_not_stopped {α : Type} (hs : c.extender.isStopped = false) (next : Except Error α × Scene) : c.running next = next :=
  if_neg (Bool.eq_false_iff.1 hs)

/-- A write goes through if the extender runs and has the pin. -/
theorem write_of_running (hs : c.extender.isStopped = false) {pin : Nat} (hp : pin < c.extender.claims.capacity) (high : Bool) :
    c.write pin high = (.ok (), c.amend fun e => { e with shadow := e.shadow.write pin high }) := by
  unfold write
  rw [running_of_not_stopped hs, Claims.checkRange, if_pos hp]
  rfl

end Scene

/-! ## Steps -/

variable {nest : Nest} {P : Prop} {s : State}

namespace Client

/-- Outputs whose handles belong together are written one after the other. -/
theorem calmly_writeEach {foreign : Bool} (targets : List Target) (hf : ∀ t ∈ targets, t.foreign = foreign)
    (hs : P → s.extender.isStopped = false) (hr : P → ∀ t ∈ targets, t.pin < s.extender.claims.capacity) :
    (writeEach foreign targets).Calmly P s fun r s' => (r, s'.scene) = (.ok (), s.scene.writeAll targets) := by
  induction targets generalizing P s with
  | nil => exact Attempt.calmly_pure.2 fun _ => rfl
  | cons t ts ih =>
    have hwritten (hp : P) : s.scene.write t.pin t.high = _ :=
      Scene.write_of_running (c := s.scene) (hs hp) (hr hp t List.mem_cons_self) t.high
    unfold writeEach
    rw [hf t List.mem_cons_self, if_neg (by simp)]
    refine (calmly_write t.pin t.high).bind (fun _ s₁ => ?_) fun e s₁ hp h => ?_
    · have hs₁ (hp : P ∧ (Except.ok (), s₁.scene) = s.scene.write t.pin t.high) : s₁.scene = s.scene.writeAll [t] := by
        have h := hp.2
        rw [hwritten hp.1] at h
        exact (Prod.mk.inj h).2
      refine (ih (fun t' ht' => hf t' (List.mem_cons_of_mem t ht')) (fun hp => ?_) fun hp t' ht' => ?_).mono id fun r s' hp h => ?_
      · show s₁.scene.extender.isStopped = false
        rw [hs₁ hp]
        exact hs hp.1
      · show t'.pin < s₁.scene.extender.claims.capacity
        rw [hs₁ hp]
        exact hr hp.1 t' (List.mem_cons_of_mem t ht')
      · rw [h, hs₁ hp]
        rfl
    · rw [hwritten hp] at h
      cases h

/-- Writing many pins at once writes them one after the other and then flushes. -/
theorem calmly_setMany (hn : Disturbs nest) {t : Target} {ts : List Target} (hf : ∀ t' ∈ t :: ts, t'.foreign = false)
    (hu : P → s.extender.updating = false) (hl : P → s.extender.Located) (hs : P → s.extender.isStopped = false)
    (hr : P → ∀ t' ∈ t :: ts, t'.pin < s.extender.claims.capacity) :
    (setMany nest (t :: ts)).Calmly P s fun r s' => (r, s'.scene) = (.ok (), (s.scene.writeAll (t :: ts)).flushed) := by
  unfold setMany
  dsimp only
  rw [hf t List.mem_cons_self, if_neg Bool.false_ne_true]
  refine (calmly_writeEach (t :: ts) hf hs hr).bind (fun _ s₁ => ?_) fun e s₁ _ h => ?_
  · refine (calmly_flush hn (fun hp => ?_) fun hp => ?_).mono id fun r s' hp h => ?_
    · show s₁.scene.extender.updating = false
      rw [(Prod.mk.inj hp.2).2]
      exact hu hp.1
    · show s₁.scene.extender.Located
      rw [(Prod.mk.inj hp.2).2]
      exact (hl hp.1).abides ⟨rfl, rfl, rfl⟩
    · rw [h, (Prod.mk.inj hp.2).2]
      exact Scene.running_of_not_stopped (c := s.scene.writeAll (t :: ts)) (hs hp.1) _
  · cases h

end Client

/-- The step that gives one output its level and flushes the outputs. -/
def Target.step (t : Target) : Step := .op (.call (.set t.pin t.high))

namespace State

/-- Writing one pin by its own call writes it and flushes. -/
theorem scene_step_set (hn : Disturbs nest) {d : Device} (hu : s.extender.updating = false) (h : Scene.Ready d s.extender) {t : Target}
    (hr : t.pin < s.extender.claims.capacity) (hs : s.Smooth (s.step nest t.step).2) :
    (s.step nest t.step).1 = .done ∧ (s.step nest t.step).2.scene = (s.scene.writeAll [t]).flushed := by
  have hstep : ((s.step nest t.step).1, (s.step nest t.step).2.scene) = s.scene.perform t.step :=
    scene_step hn hu h.located rfl hs
  have hset : s.scene.set t.pin t.high = (.ok (), (s.scene.writeAll [t]).flushed) := by
    unfold Scene.set
    rw [Scene.write_of_running (c := s.scene) h.running hr]
    exact Scene.running_of_not_stopped (c := s.scene.writeAll [t]) h.running _
  have hperform : s.scene.perform t.step = (.done, (s.scene.writeAll [t]).flushed) := by
    show Scene.replying _ (s.scene.set t.pin t.high) = _
    rw [hset]
    rfl
  rw [hperform] at hstep
  exact Prod.mk.inj hstep

/-- Giving outputs their levels one after the other comes to the same as giving all of them their levels and then flushing. -/
theorem play_sets (hp : Plays nest) (hn : Disturbs nest) {d : Device} (hu : s.extender.updating = false) (h : Scene.Ready d s.extender)
    (t : Target) (ts : List Target) (hr : ∀ t' ∈ t :: ts, t'.pin < s.extender.claims.capacity)
    (hs : s.Smooth (s.play nest ((t :: ts).map Target.step)).2) :
    (∀ r ∈ (s.play nest ((t :: ts).map Target.step)).1, r.reply = .done) ∧
      (s.play nest ((t :: ts).map Target.step)).2.scene.Alike (s.scene.writeAll (t :: ts)).flushed := by
  induction ts generalizing s t with
  | nil =>
    obtain ⟨hreply, hscene⟩ := scene_step_set hn hu h (hr t List.mem_cons_self) hs
    refine ⟨fun r hr => ?_, ?_⟩
    · cases List.mem_singleton.1 hr
      exact hreply
    · show (s.step nest t.step).2.scene.Alike _
      rw [hscene]
      exact ⟨rfl, rfl, rfl, rfl⟩
  | cons t' ts ih =>
    obtain ⟨hfirst, hrest⟩ := hs.of_cons hp hu
    obtain ⟨hreply, hscene⟩ := scene_step_set hn hu h (hr t List.mem_cons_self) hfirst
    have hstep := goes_step hp t.step hu
    have hwritten : Scene.Ready d (s.scene.writeAll [t]).extender := h.abides ⟨rfl, rfl, rfl⟩ h.running
    have hext : (s.step nest t.step).2.extender = (s.scene.writeAll [t]).flushed.extender := congrArg Scene.extender hscene
    have hclaims : (s.step nest t.step).2.extender.claims = s.extender.claims := by
      rw [hext]
      exact hwritten.abides_flushed.claims
    obtain ⟨hreplies, halike⟩ := ih (hstep.updating.trans hu) (by rw [hext]; exact hwritten.flushed) t'
      (fun t'' ht'' => by rw [hclaims]; exact hr t'' (List.mem_cons_of_mem t ht'')) hrest
    refine ⟨fun r hr => ?_, ?_⟩
    · rcases List.mem_cons.1 hr with rfl | hr
      · exact hreply
      · exact hreplies r hr
    · rw [hscene] at halike
      exact halike.trans (Scene.flushed_writeAll_flushed hwritten (t' :: ts))

/-- What is known of a single step that is played. -/
theorem play_of_calmly {step : Step} {x : Reply × Scene}
    (h : (step.perform nest).Calmly True (s.noting (.stepBegan step)) fun r s' => (r, s'.scene) = x)
    (hs : s.Smooth (s.play nest [step]).2) : (∀ r ∈ (s.play nest [step]).1, r.reply = x.1) ∧ (s.play nest [step]).2.scene = x.2 := by
  have hstep := scene_of_calmly h hs
  refine ⟨fun r hr => ?_, congrArg Prod.snd hstep⟩
  cases List.mem_singleton.1 hr
  exact congrArg Prod.fst hstep

/-- Giving several outputs their levels at once comes to giving all of them their levels and then flushing. -/
theorem play_setMany (hn : Disturbs nest) {d : Device} (hu : s.extender.updating = false) (h : Scene.Ready d s.extender)
    (t : Target) (ts : List Target) (hf : ∀ t' ∈ t :: ts, t'.foreign = false)
    (hr : ∀ t' ∈ t :: ts, t'.pin < s.extender.claims.capacity)
    (hs : s.Smooth (s.play nest [.op (.call (.setMany (t :: ts)))]).2) :
    (∀ r ∈ (s.play nest [.op (.call (.setMany (t :: ts)))]).1, r.reply = .done) ∧
      (s.play nest [.op (.call (.setMany (t :: ts)))]).2.scene = (s.scene.writeAll (t :: ts)).flushed := by
  have hcalls {s : State} (hu : s.extender.updating = false) (h : Scene.Ready d s.extender)
      (hr : ∀ t' ∈ t :: ts, t'.pin < s.extender.claims.capacity) :
      (Step.perform nest (.op (.call (.setMany (t :: ts))))).Calmly True s fun r s' =>
        (r, s'.scene) = (.done, (s.scene.writeAll (t :: ts)).flushed) :=
    calmly_answering (f := fun _ => .done)
      (Client.calmly_setMany hn hf (fun _ => hu) (fun _ => h.located) (fun _ => h.running) fun _ => hr)
  exact play_of_calmly (hcalls (s := s.noting (.stepBegan (.op (.call (.setMany (t :: ts)))))) hu h hr) hs

theorem play_setMany_nil (hs : s.Smooth (s.play nest [.op (.call (.setMany []))]).2) :
    (∀ r ∈ (s.play nest [.op (.call (.setMany []))]).1, r.reply = .done) ∧
      (s.play nest [.op (.call (.setMany []))]).2.scene = s.scene := by
  have hcalls (s : State) : (Step.perform nest (.op (.call (.setMany [])))).Calmly True s fun r s' => (r, s'.scene) = (.done, s.scene) :=
    calmly_answering (m := Client.setMany nest []) (f := fun _ => .done) (x := (.ok (), s.scene)) (Attempt.calmly_pure.2 fun _ => rfl)
  exact play_of_calmly (hcalls _) hs

end State

/-- Giving several outputs their levels at once comes to the same as giving them one after the other. Take any state between two steps
of a session with a built-in family in which the extender is not stopped and the registers of all groups with claimed pins can be
located, and any handles of its own. If no transaction fails and no operation falls into the middle of another one, nothing is refused
in either way, the memory of the extender is the same in the end, and so are the registers of all chips; and if all levels are given at
once, no register is written more than once. -/
theorem outputs_at_once_as_one_by_one :
    ∀ (d : Device) (depth : Nat) (s : State) (targets : List Target), Reachable s → s.extender.family = d.family →
      s.extender.Located → s.extender.isStopped = false →
      (∀ t ∈ targets, t.foreign = false ∧ t.pin < s.extender.claims.capacity) →
      let one := s.play (Session.nestAt (depth + 1)) [.op (.call (.setMany targets))]
      let each := s.play (Session.nestAt (depth + 1)) (targets.map Target.step)
      s.Smooth one.2 → s.Smooth each.2 →
        (∀ r ∈ one.1 ++ each.1, r.reply = .done) ∧ one.2.extender = each.2.extender ∧
          (∀ place, one.2.board.peek place = each.2.board.peek place) ∧
          ∃ new, one.2.history.writes = new ++ s.history.writes ∧ (new.map Prod.fst).Nodup := by
  intro d depth s targets hreach hf hl hs ht one each hone heach
  obtain ⟨_, _, _, _, hu⟩ := hreach.goes
  have hready : Scene.Ready d s.extender := ⟨hf, hl, hs⟩
  have hp := Session.plays_nestAt (depth + 1)
  have hn := Session.disturbs_nestAt depth
  cases targets with
  | nil =>
    obtain ⟨hreply, hscene⟩ := State.play_setMany_nil hone
    refine ⟨fun r hr => (List.mem_append.1 hr).elim (hreply r) nofun, congrArg Scene.extender hscene, fun place => ?_, [],
      congrArg Scene.writes hscene, List.nodup_nil⟩
    exact congrFun (congrArg Scene.registers hscene) place
  | cons t ts =>
    obtain ⟨hreply, hscene⟩ := State.play_setMany hn hu hready t ts (fun t' ht' => (ht t' ht').1) (fun t' ht' => (ht t' ht').2) hone
    obtain ⟨hreplies, halike⟩ := State.play_sets hp hn hu hready t ts (fun t' ht' => (ht t' ht').2) heach
    have hwritten : Scene.Ready d (s.scene.writeAll (t :: ts)).extender := hready.abides ⟨rfl, rfl, rfl⟩ hs
    rw [← hscene] at halike
    refine ⟨fun r hr => (List.mem_append.1 hr).elim (hreply r) (hreplies r), halike.extender.symm, fun place => ?_, ?_⟩
    · exact (congrFun halike.registers place).symm
    · have hwrites := hwritten.writes_flushed
      rw [← hscene] at hwrites
      exact hwrites

/-- A pin that is not yet set up on its chip is switched on and off again while another one is staged: both ways leave the same, but
one by one the output register is written three times. -/
theorem outputs_at_once_as_one_by_one_of_repeated :
    let s := State.oneChip [.claim 0, .claim 3, .op (.call (.setup 0 PinAttributes.output)), .op (.call (.write 3 true))]
    let targets : List Target := [⟨0, true, false⟩, ⟨3, false, false⟩, ⟨0, false, false⟩]
    let one := s.play (Session.nestAt 1) [.op (.call (.setMany targets))]
    let each := s.play (Session.nestAt 1) (targets.map Target.step)
    s.extender.status.contains Status.configDirty = true ∧ s.extender.shadow.staged = 1 ∧ s.Smooth one.2 ∧ s.Smooth each.2 ∧
      ((∀ r ∈ one.1 ++ each.1, r.reply = .done) ∧ one.2.extender = each.2.extender ∧
        (∀ place, one.2.board.peek place = each.2.board.peek place) ∧
        ∃ new, one.2.history.writes = new ++ s.history.writes ∧ (new.map Prod.fst).Nodup) ∧
      one.2.history.writes.length = 3 ∧ each.2.history.writes.length = 5 := by
  intro s targets one each
  have hone : s.Smooth one.2 := by decide +kernel
  have heach : s.Smooth each.2 := by decide +kernel
  have hl : s.extender.Located := Extender.located_tca6408 (by decide +kernel) (by decide +kernel)
  have hsame := outputs_at_once_as_one_by_one .tca6408 0 s targets (reachable_oneChip _) (by decide +kernel) hl (by decide +kernel)
    (by decide +kernel) hone heach
  exact ⟨by decide +kernel, by decide +kernel, hone, heach, hsame, by decide +kernel, by decide +kernel⟩

end PortExpander
