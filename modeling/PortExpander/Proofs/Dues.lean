import Mathlib.Data.List.Nodup
import PortExpander.Proofs.Scenes
import PortExpander.Proofs.Word

/-!
# What a pass writes and reads

A planned pass writes registers of the groups that are due, each of them once, and writes nothing else; what it reads are the inputs
of the planned groups that have claimed pins. So every register and every input after a pass can be told from the scene before it.
-/

namespace PortExpander

open Sim Engine

variable {e : Extender} {plan : Plan} {p : Place} {v : Byte} {k : Register} {g : Nat} {reg : Byte}

/-! ## What is due -/

/-- What is in the row of a register. -/
theorem Extender.mem_row {value : Nat → Byte} {groups : List Nat} :
    (p, v) ∈ e.row reg value groups ↔ ∃ g ∈ groups, e.locate g reg = .ok p ∧ value g = v := by
  unfold row
  rw [List.mem_filterMap]
  refine exists_congr fun g => and_congr_right fun _ => ?_
  cases e.locate g reg with
  | ok place => simp [Except.toOption]
  | error f => simp [Except.toOption]

/-- What is in the rows of a register, group by group. -/
theorem Extender.mem_rows {mask : Byte} : (p, v) ∈ e.rows k mask ↔
    ∃ g reg, mask.getLsbD g = true ∧ e.family.number? k = some reg ∧ e.locate g reg = .ok p ∧ e.shadow.meant k g = v := by
  unfold rows
  cases e.family.number? k with
  | none => simp
  | some reg => simp [mem_row]

/-- A planned pass writes the register of a group that is at a place. -/
def Extender.DueAt (e : Extender) (plan : Plan) (k : Register) (g : Nat) (p : Place) : Prop :=
  (e.due plan k).getLsbD g = true ∧ ∃ reg, e.family.number? k = some reg ∧ e.locate g reg = .ok p

/-- What a planned pass writes are the registers of due groups, as the memory means them. -/
theorem Extender.mem_dues : (p, v) ∈ e.dues plan ↔ ∃ k g, e.DueAt plan k g p ∧ e.shadow.meant k g = v := by
  unfold dues DueAt
  simp only [List.mem_flatMap, mem_rows]
  constructor
  · rintro ⟨k, -, g, reg, hg, hk, hp, hv⟩
    exact ⟨k, g, ⟨hg, reg, hk, hp⟩, hv⟩
  · rintro ⟨k, g, ⟨hg, reg, hk, hp⟩, hv⟩
    exact ⟨k, by cases k <;> decide, g, reg, hg, hk, hp, hv⟩

/-- Only groups with claimed pins are due. -/
theorem Extender.claimed_of_due (h : (e.due plan k).getLsbD g = true) : e.claims.groups.getLsbD g = true := by
  have hzero : ¬(0 : Byte).getLsbD g = true := by
    rw [BitVec.ofNat_eq_ofNat, BitVec.getLsbD_zero]
    exact Bool.false_ne_true
  unfold due at h
  split at h
  · split at h
    · exact h
    · exact (hzero h).elim
  · split at h
    · exact h
    · exact (hzero h).elim
  · split at h
    · rw [BitVec.getLsbD_and, Bool.and_eq_true] at h
      exact h.2
    · exact (hzero h).elim

/-- Outputs are due that are dirty, and all of them after the configuration. -/
theorem Extender.getLsbD_due_output (hw : plan.write = true) : (e.due plan .output).getLsbD g =
    (e.claims.groups.getLsbD g && (plan.configure || e.shadow.dirty.getLsbD g)) := by
  unfold due
  rw [if_pos hw, BitVec.getLsbD_and]
  cases plan.configure with
  | false => rw [if_neg Bool.false_ne_true, Bool.and_comm, Bool.false_or]
  | true =>
    rw [if_pos rfl, BitVec.getLsbD_or]
    cases e.claims.groups.getLsbD g <;> simp

/-- No place is that of two due registers, if registers do not share their places. -/
theorem Extender.Apart.due_unique (ha : e.Apart) {k' : Register} {g' : Nat} (h : e.DueAt plan k g p)
    (h' : e.DueAt plan k' g' p) : g = g' ∧ k = k' := by
  obtain ⟨hd, reg, hk, hp⟩ := h
  obtain ⟨hd', reg', hk', hp'⟩ := h'
  exact ha g g' k k' reg reg' p (claimed_of_due hd) (claimed_of_due hd') hk hk' hp hp'

/-- No place is written to twice in the rows of a register. -/
theorem Extender.nodup_rows (mask : Byte) : ((e.rows k mask).map Prod.fst).Nodup := by
  unfold rows
  cases e.family.number? k with
  | none => exact List.nodup_nil
  | some reg =>
    have hgroups : mask.groups.Nodup := List.nodup_range.filter _
    unfold row List.Nodup
    rw [List.pairwise_map, List.pairwise_filterMap]
    refine hgroups.imp_of_mem fun {g g'} hg hg' hne => ?_
    cases hp : e.locate g reg with
    | error f => rintro _ ⟨⟩
    | ok place =>
      rintro _ ⟨⟩ w hw rfl
      cases hp' : e.locate g' reg with
      | error f => rw [hp'] at hw; cases hw
      | ok place' =>
        rw [hp'] at hw
        cases hw
        have hlt {g : Nat} (h : g ∈ mask.groups) : g < 8 := Byte.lt_of_mem_groups h
        exact hne (Family.locate_inj (hlt hg) (hlt hg') hp hp')

/-- No register is written twice in one pass. -/
theorem Extender.Apart.nodup_dues (ha : e.Apart) : ((e.dues plan).map Prod.fst).Nodup := by
  unfold dues
  rw [List.map_flatMap, List.nodup_flatMap]
  refine ⟨fun k _ => nodup_rows _, ?_⟩
  have hdistinct : [Register.polarity, .config, .output].Pairwise (· ≠ ·) := by decide
  refine hdistinct.imp fun {k k'} hne p hp hp' => ?_
  obtain ⟨w, hw, hwp⟩ := List.mem_map.1 hp
  obtain ⟨w', hw', hwp'⟩ := List.mem_map.1 hp'
  obtain ⟨g, reg, hg, hk, hl, -⟩ := mem_rows.1 hw
  obtain ⟨g', reg', hg', hk', hl', -⟩ := mem_rows.1 hw'
  rw [hwp] at hl
  rw [hwp'] at hl'
  exact hne (ha.due_unique ⟨hg, reg, hk, hl⟩ ⟨hg', reg', hk', hl'⟩).2

/-- The registers of eight chips with one bank can be located from the lowest address on. -/
theorem Extender.located_tca6408 (hf : e.family = Device.tca6408.family) (ha : e.address = Device.tca6408.family.baseAddress) :
    e.Located := by
  have hall : ∀ g < 8, ∀ reg ∈ Device.tca6408.family.registers,
      (Device.tca6408.family.locate Device.tca6408.family.baseAddress g reg).toBool = true := by decide
  intro g hg reg hreg
  rw [hf] at hreg
  have hok := hall g (BitVec.lt_of_getLsbD hg) reg hreg
  unfold locate
  rw [hf, ha]
  cases hl : Device.tca6408.family.locate Device.tca6408.family.baseAddress g reg with
  | ok place => exact ⟨place, rfl⟩
  | error x => rw [hl] at hok; cases hok

/-! ## Registers after a pass -/

namespace Scene

variable {c : Scene}

/-- Writes to the chips are no matter of the memory. -/
theorem extender_amend_puts (c : Scene) (ws : List (Place × Byte)) (f : Extender → Extender) :
    ((c.puts ws).amend f).extender = f c.extender := by
  unfold amend
  rw [extender_puts]

theorem registers_puts_congr {d : Scene} (hr : d.registers = c.registers) (ws : List (Place × Byte)) :
    (d.puts ws).registers = (c.puts ws).registers := by
  unfold puts
  induction ws generalizing c d with
  | nil => exact hr
  | cons w ws ih =>
    refine ih ?_
    show Board.override d.registers w.1 _ = _
    rw [hr]
    rfl

/-- The writes so far, the latest first. -/
theorem writes_puts (ws : List (Place × Byte)) : (c.puts ws).writes = ws.reverse ++ c.writes := by
  unfold puts
  induction ws generalizing c with
  | nil => rfl
  | cons w ws ih =>
    rw [List.foldl_cons, ih, List.reverse_cons, List.append_assoc]
    rfl

/-- A register that is not written to keeps its byte. -/
theorem registers_puts_of_notMem {ws : List (Place × Byte)} (h : ∀ v, (p, v) ∉ ws) : (c.puts ws).registers p = c.registers p := by
  unfold puts
  induction ws generalizing c with
  | nil => rfl
  | cons w ws ih =>
    have hne : p ≠ w.1 := fun hp => h w.2 (by rw [hp]; exact List.mem_cons_self)
    rw [List.foldl_cons, ih fun v hv => h v (List.mem_cons_of_mem w hv)]
    exact if_neg hne

/-- A register holds what is written to it, if that is always the same. -/
theorem registers_puts_of_mem {ws : List (Place × Byte)} (h : (p, v) ∈ ws) (hv : ∀ v', (p, v') ∈ ws → v' = v) :
    (c.puts ws).registers p = some v := by
  induction ws generalizing c with
  | nil => cases h
  | cons w ws ih =>
    show ((c.put w).puts ws).registers p = some v
    by_cases hm : (p, v) ∈ ws
    · exact ih hm fun v' hv' => hv v' (List.mem_cons_of_mem w hv')
    · have hw : w = (p, v) := ((List.mem_cons.1 h).resolve_right hm).symm
      rw [registers_puts_of_notMem fun v' hv' => hm (hv v' (List.mem_cons_of_mem w hv') ▸ hv'), hw]
      exact if_pos rfl

/-- A register that is due holds what the memory means it to hold. -/
theorem registers_of_due (ha : c.extender.Apart) (h : c.extender.DueAt plan k g p) :
    (c.puts (c.extender.dues plan)).registers p = some (c.extender.shadow.meant k g) := by
  refine registers_puts_of_mem (Extender.mem_dues.2 ⟨k, g, h, rfl⟩) fun v' hv' => ?_
  obtain ⟨k', g', h', rfl⟩ := Extender.mem_dues.1 hv'
  obtain ⟨rfl, rfl⟩ := ha.due_unique h h'
  rfl

/-- A register that is not due holds what it held. -/
theorem registers_of_not_due (h : ∀ k g, ¬c.extender.DueAt plan k g p) :
    (c.puts (c.extender.dues plan)).registers p = c.registers p := by
  refine registers_puts_of_notMem fun v hv => ?_
  obtain ⟨k, g, hd, -⟩ := Extender.mem_dues.1 hv
  exact h k g hd

end Scene

/-! ## Inputs after a pass -/

/-- Input registers do not overlap with registers that are written to, on the chips of a family. -/
def Family.Separate (f : Family) : Prop :=
  ∀ k reg i i', f.number? k = some reg → i < f.registersPerDevice → i' < f.registersPerDevice →
    f.inputReg.toNat + i ≠ reg.toNat + i'

/-- The input registers of the built-in families come before all others. -/
theorem Device.separate (d : Device) : d.family.Separate := by
  have hinput : d.family.inputReg.toNat = 0 := by cases d <;> rfl
  have hlow {k : Register} {reg : Byte} (hk : d.family.number? k = some reg) : d.family.registersPerDevice ≤ reg.toNat := by
    cases d <;> cases k <;> cases hk <;> decide
  intro k reg i i' hk hi hi' heq
  have := hlow hk
  omega

/-- A pass does not write to an input register. -/
theorem Family.Separate.not_due (hf : e.family.Separate) {g' : Nat} (hg : g < 8) (hp : e.locate g e.family.inputReg = .ok p) :
    ¬e.DueAt plan k g' p := by
  rintro ⟨h, reg, hk, hp'⟩
  have hpos : 0 < e.family.registersPerDevice := Family.pos_of_locate hp
  obtain ⟨-, hr⟩ := Family.locate_eq_ok hg hp
  obtain ⟨-, hr'⟩ := Family.locate_eq_ok (BitVec.lt_of_getLsbD h) hp'
  exact hf k reg _ _ hk (Nat.mod_lt g hpos) (Nat.mod_lt g' hpos) (hr.symm.trans hr')

namespace Scene

variable {c : Scene}

theorem seen_congr {d : Scene} (hf : d.extender.family = c.extender.family) (ha : d.extender.address = c.extender.address)
    (hi : d.extender.shadow.invert = c.extender.shadow.invert) (hr : d.registers = c.registers) (g : Nat) : d.seen g = c.seen g := by
  unfold seen inputAfter Extender.locate
  rw [hf, ha, hi, hr]

/-- What is read after a pass has written could have been read before. -/
theorem seen_puts (hf : c.extender.family.Separate) (hg : g < 8) : (c.puts (c.extender.dues plan)).seen g = c.seen g := by
  unfold seen
  rw [extender_puts]
  cases hp : c.extender.locate g c.extender.family.inputReg with
  | error f => rfl
  | ok place =>
    show inputAfter c.extender g 0 (.ok (((c.puts (c.extender.dues plan)).registers place).getD 0)) = _
    rw [registers_of_not_due fun _ _ => hf.not_due hg hp]
    rfl

theorem inputs_congr {d : Scene} (hs : ∀ g < 8, d.seen g = c.seen g) (hi : d.extender.shadow.input = c.extender.shadow.input)
    (hc : d.extender.claims = c.extender.claims) (groups : Byte) : d.inputs groups = c.inputs groups := by
  unfold inputs
  rw [hi, hc]
  exact List.foldl_ext _ _ _ fun m g hg => by rw [hs g (Byte.lt_of_mem_groups hg)]

/-- The writes of a pass do not change the inputs that it reads. -/
theorem inputs_puts (hf : c.extender.family.Separate) (groups : Byte) :
    (c.puts (c.extender.dues plan)).inputs groups = c.inputs groups :=
  inputs_congr (fun _ hg => seen_puts hf hg) (by rw [extender_puts]) (by rw [extender_puts]) groups

/-- The input of a pin is what has been read of its group, if that is one of those that are read. -/
theorem get_inputs (groups : Byte) (pin : Nat) : (c.inputs groups).get pin =
    if (groups &&& c.extender.claims.groups).getLsbD (pin / 8) then (c.seen (pin / 8)).getLsbD (pin % 8)
    else c.extender.shadow.input.get pin := by
  have hfold (l : List Nat) (m : PinMap) (hl : ∀ g ∈ l, g < 8) : (l.foldl (fun m g => m.setByte g (c.seen g)) m).get pin =
      if pin / 8 ∈ l then (c.seen (pin / 8)).getLsbD (pin % 8) else m.get pin := by
    induction l generalizing m with
    | nil => rfl
    | cons g l ih =>
      rw [List.foldl_cons, ih _ fun g' hg' => hl g' (List.mem_cons_of_mem g hg'), PinMap.get_setByte _ _ _ _ (hl g List.mem_cons_self)]
      by_cases hm : pin / 8 ∈ l
      · simp [hm]
      · by_cases hg : pin / 8 = g
        · simp [hg]
        · simp [hm, hg]
  unfold inputs
  rw [hfold _ _ fun g hg => Byte.lt_of_mem_groups hg]
  simp only [Byte.mem_groups]

/-- Reading some of the groups again that have been read changes nothing, if they still hold the same. -/
theorem inputs_again {d : Scene} {groups groups' : Byte} (hs : ∀ g < 8, d.seen g = c.seen g)
    (hi : d.extender.shadow.input = c.inputs groups) (hc : d.extender.claims = c.extender.claims)
    (hg : ∀ g, groups'.getLsbD g = true → groups.getLsbD g = true) : d.inputs groups' = c.inputs groups := by
  refine PinMap.ext_get fun pin => ?_
  rw [get_inputs, hi, hc]
  split
  · rename_i hread
    have hg8 := BitVec.lt_of_getLsbD hread
    rw [BitVec.getLsbD_and, Bool.and_eq_true] at hread
    rw [get_inputs, BitVec.getLsbD_and, hg _ hread.1, hread.2, hs _ hg8]
    rfl
  · rfl

end Scene

/-! ## Passes of running extenders -/

/-- The requests of an extender that a pass takes, apart from those that the engine makes by itself. -/
theorem Extender.contains_work {i : Nat} (hi : i < 6) (h3 : i ≠ 3) (h4 : i ≠ 4) :
    e.work.contains (.flag i) = e.status.contains (.flag i) := by
  have h8 : i < 8 := by omega
  have hempty : (∅ : Status).bits.getLsbD i = false := BitVec.getLsbD_zero
  have hread : Status.readDirty.bits.getLsbD i = false := by
    show (BitVec.twoPow 8 3).getLsbD i = false
    simp [Ne.symm h3]
  have hstanding : e.standing.bits.getLsbD i = false := by
    unfold standing
    split
    · split
      · exact hread
      · exact hempty
    · exact hempty
  rw [FlagSet.contains_flag h8, FlagSet.contains_flag h8]
  show (e.status.pending.bits ||| e.standing.bits).getLsbD i = _
  rw [BitVec.getLsbD_or, hstanding, Status.getLsbD_pending]
  simp [hi, h4]

/-- Who is asked for something has something to do. -/
theorem Extender.isIdleWith_of_contains {pending : Status} {i : Nat} (hi : i < 8) (h : pending.contains (.flag i) = true) :
    e.isIdleWith pending = false := by
  refine Bool.eq_false_iff.2 fun hidle => ?_
  have hempty := isEmpty_of_isIdleWith hidle
  rw [FlagSet.not_isEmpty_of_contains_flag hi h] at hempty
  cases hempty

namespace Scene

/-- The plan of the next pass. -/
def nextPlan (c : Scene) : Plan := (c.gather c.extender.work).1

/-- What the engine keeps after the next pass. -/
def nextEngine (c : Scene) : Engine := (c.gather c.extender.work).2.extender.engine.reread c.nextPlan.groups

variable {c : Scene}

/-- An engine that is not told of an interrupt, or has no line, looks at no line. -/
theorem gather_unheard {m : Sampler} (he : c.extender.engine = .generic m) {work : Status}
    (h : (work.contains Status.isrPending && c.extender.lines.has 0) = false) : c.gather work = (.ofRequests work 0, c) := by
  unfold gather
  rw [he]
  dsimp only
  rw [h, if_neg Bool.false_ne_true]

/-- The plan of the queued engine: the chips in its queue and those that it polls. -/
theorem gather_queued {q : ChipQueue} (he : c.extender.engine = .queued q) (work : Status) : c.gather work =
    (.ofRequests work (q.queue.foldl (fun mask chip => mask ||| BitVec.twoPow 8 chip) q.polled),
      c.amend ({ · with engine := .queued q.emptied })) := by
  unfold gather
  rw [he]

/-- After a pass the queue is empty. -/
theorem nextEngine_queued {q : ChipQueue} (he : c.extender.engine = .queued q) : c.nextEngine = .queued q.emptied := by
  unfold nextEngine Engine.reread
  rw [gather_queued he]
  split <;> rfl

/-- A plan follows the requests; besides, the inputs may be asked for because of a line. -/
theorem nextPlan_requests (c : Scene) : ∃ pending groups, c.nextPlan = .ofRequests pending groups ∧
    ∀ i, i < 6 → i ≠ 3 → i ≠ 4 → pending.contains (.flag i) = c.extender.status.contains (.flag i) := by
  have hwork (i : Nat) (hi : i < 6) (h3 : i ≠ 3) (h4 : i ≠ 4) :
      c.extender.work.contains (.flag i) = c.extender.status.contains (.flag i) := Extender.contains_work hi h3 h4
  unfold nextPlan gather
  split
  · split
    · refine ⟨_, _, rfl, fun i hi h3 h4 => ?_⟩
      split
      · have hread : Status.readDirty.contains (.flag i) = false := by
          rw [FlagSet.contains_flag (by omega)]
          show (BitVec.twoPow 8 3).getLsbD i = false
          simp [Ne.symm h3]
        rw [FlagSet.contains_union_other _ (by omega) hread, hwork i hi h3 h4]
      · exact hwork i hi h3 h4
    · exact ⟨_, _, rfl, hwork⟩
  · exact ⟨_, _, rfl, hwork⟩

/-- The next pass writes the configuration if that is asked for. -/
theorem configure_nextPlan (c : Scene) : c.nextPlan.configure = c.extender.status.contains Status.configDirty := by
  obtain ⟨pending, groups, hplan, h⟩ := c.nextPlan_requests
  rw [hplan]
  exact h 0 (by decide) (by decide) (by decide)

/-- The next pass writes outputs if they or the configuration are asked for. -/
theorem write_nextPlan (c : Scene) : c.nextPlan.write =
    (c.extender.status.contains Status.configDirty || c.extender.status.contains Status.writeDirty) := by
  obtain ⟨pending, groups, hplan, h⟩ := c.nextPlan_requests
  rw [hplan]
  show (pending.contains (.flag 0) || pending.contains (.flag 2)) = _
  rw [h 0 (by decide) (by decide) (by decide), h 2 (by decide) (by decide) (by decide)]
  rfl

/-- An update of an extender that has halted. -/
theorem update_of_halted (hh : c.extender.halted = true) : c.update = (.stopped, c.amend ({ · with updating := false })) := by
  unfold update attempt
  rw [if_pos (show c.held.extender.halted = true from hh)]
  rfl

/-- An update that takes a stop. -/
theorem update_of_stop (hh : c.extender.halted = false) (hs : c.extender.work.contains Status.stop = true) :
    c.update = (.stopped, c.amend fun e => { e with status := ∅, updating := false, halted := true }) := by
  have hh' : ¬c.held.extender.halted = true := Bool.eq_false_iff.1 hh
  have hs' : c.held.extender.work.contains Status.stop = true := hs
  unfold update attempt
  rw [if_neg hh', if_pos hs']
  rfl

/-- An update that finds nothing to do. -/
theorem update_of_idle (hh : c.extender.halted = false) (hs : c.extender.work.contains Status.stop = false)
    (hi : c.extender.isIdleWith c.extender.work = true) :
    c.update = (.idle, c.amend fun e => { e with status := ∅, updating := false }) := by
  have hh' : ¬c.held.extender.halted = true := Bool.eq_false_iff.1 hh
  have hs' : ¬c.held.extender.work.contains Status.stop = true := Bool.eq_false_iff.1 hs
  have hi' : c.held.extender.isIdleWith c.held.extender.work = true := hi
  have hrelease : Status.busy.release = ∅ := by decide
  unfold update attempt
  rw [if_neg hh', if_neg hs', if_pos hi']
  unfold release taken freed held amend
  dsimp only
  rw [hrelease]

/-- What an update comes to while the extender is running and has something to do. -/
theorem update_of_running (hf : c.extender.family.Separate) (hs : c.extender.isStopped = false)
    (hi : c.extender.isIdleWith c.extender.work = false) :
    c.update = (.ran, (c.puts (c.extender.dues c.nextPlan)).amend fun e => { e with
      shadow := { e.shadow with dirty := e.dirtyAfter c.nextPlan, input := c.inputs c.nextPlan.groups }
      status := ∅
      updating := false
      backoff := e.backoff.recordSuccess
      engine := c.nextEngine }) := by
  unfold Extender.isStopped at hs
  rw [Bool.or_eq_false_iff] at hs
  have hwork : c.extender.work.contains Status.stop = false := (Extender.contains_work (by decide) (by decide) (by decide)).trans hs.2
  rw [update_eq hs.1 hwork hi rfl, inputs_puts hf]
  refine congrArg (Prod.mk Pass.ran) (amend_congr ?_)
  rw [extender_puts]
  rfl

end Scene

end PortExpander
