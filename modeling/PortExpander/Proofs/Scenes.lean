import PortExpander.Proofs.Calm
import PortExpander.Proofs.Footprint

/-!
# Passes without trouble

A scene is what a pass needs to know of a state: the memory of the extender, the registers of the chips, the levels of the lines,
the context, and what has been written so far. Without trouble a pass leads from one scene to another one, which is told here by
functions that follow the pass part by part. `calmly_update` says that the update of a state comes to the update of its scene.
-/

namespace PortExpander

open Sim Engine

/-! ## Scenes -/

/-- The register and the byte of a write. -/
def Event.write? : Event → Option (Place × Byte)
  | transaction (.write place value) _ => some (place, value)
  | _ => none

/-- What has been written in a history, the latest first. -/
def History.writes (h : History) : List (Place × Byte) := h.filterMap (·.write?)

/-- The memory of the extender and what it can find out about the board, and all writes so far, the latest first. -/
structure Scene where
  extender : Extender
  registers : Place → Option Byte
  lines : Nat → Level
  interruptContext : Bool
  writes : List (Place × Byte)

/-- The scene of a state. -/
def State.scene (s : State) : Scene where
  extender := s.extender
  registers := s.board.peek
  lines := s.board.lines
  interruptContext := s.board.interruptContext
  writes := s.history.writes

theorem State.scene_seeing (s : State) {ev : Event} (h : ev.write? = none) : (s.seeing ev).scene = s.scene := by
  unfold scene History.writes
  rw [history_seeing, List.filterMap_cons_none h]
  rfl

namespace Scene

/-- The scene with the memory changed. -/
def amend (c : Scene) (f : Extender → Extender) : Scene := { c with extender := f c.extender }

theorem amend_congr {c : Scene} {f f' : Extender → Extender} (h : f c.extender = f' c.extender) : c.amend f = c.amend f' := by
  unfold amend
  rw [h]

/-- The scene after a write. -/
def put (c : Scene) (w : Place × Byte) : Scene :=
  { c with registers := Board.override c.registers w.1 (some w.2), writes := w :: c.writes }

/-- The scene after some writes. -/
def puts (c : Scene) (ws : List (Place × Byte)) : Scene := ws.foldl put c

/-- The byte that a transaction moves. -/
def answer (c : Scene) : Access → Byte
  | .read place => (c.registers place).getD 0
  | .write _ value => value

/-- The scene after a transaction. -/
def after (c : Scene) : Access → Scene
  | .read _ => c
  | .write place value => c.put (place, value)

end Scene

/-- A change of the memory is one of the scene. -/
theorem State.scene_amend (s : State) (f : Extender → Extender) : (s.amend f).scene = s.scene.amend f := rfl

variable {nest : Nest} {P : Prop} {s : State}

/-! ## Transactions -/

/-- What is found on the board after a byte has been poked into a register that is there. -/
theorem Board.peek_poke {b : Board} {place : Place} {old : Byte} (h : b.peek place = some old) (value : Byte) :
    (b.poke place value).peek = override b.peek place (some value) := by
  obtain ⟨regs, hregs, -⟩ := Option.map_eq_some_iff.1 h
  funext p
  unfold poke
  rw [hregs]
  unfold peek override
  dsimp only
  by_cases ha : p.address = place.address
  · rw [if_pos ha, Option.map_some, ha, hregs, Option.map_some]
    dsimp only
    by_cases hr : p.register = place.register
    · have hp : p = place := by
        cases p
        cases place
        rw [Place.mk.injEq]
        exact ⟨ha, hr⟩
      rw [if_pos hr, if_pos hp]
    · rw [if_neg hr, if_neg fun hp => hr (by rw [hp])]
  · rw [if_neg ha, if_neg fun hp => ha (by rw [hp])]

/-- A write that succeeds replaces one register and nothing else that a scene shows. -/
theorem Board.after_write {b : Board} {place : Place} {value old : Byte} (h : b.outcome (.write place value) = .ok value)
    (hp : b.peek place = some old) : (b.after (.write place value)).peek = override b.peek place (some value) ∧
      (b.after (.write place value)).lines = b.lines ∧
      (b.after (.write place value)).interruptContext = b.interruptContext := by
  have hpoke (b : Board) : (b.poke place value).lines = b.lines ∧ (b.poke place value).interruptContext = b.interruptContext := by
    unfold poke
    split <;> exact ⟨rfl, rfl⟩
  unfold after
  rw [h]
  exact ⟨peek_poke (b := { b with failNext := b.failNext.tail }) hp value, hpoke { b with failNext := b.failNext.tail }⟩

/-- A transaction that succeeds moves the byte that the register holds or is to hold. -/
theorem State.scene_answered {a : Access} {value : Byte} (h : s.board.outcome a = .ok value) :
    value = s.scene.answer a ∧ (s.answered a).scene = s.scene.after a := by
  have hout := h
  unfold Board.outcome at hout
  split at hout
  · cases hout
  · cases hout
  · cases hout
  · rename_i hpeek _ _
    cases a with
    | read place =>
      cases hout
      have hafter : s.board.after (.read place) = { s.board with failNext := s.board.failNext.tail } := by
        unfold Board.after
        rw [h]
      unfold scene answered
      rw [hafter, h]
      refine ⟨?_, rfl⟩
      show value = (s.board.peek place).getD 0
      rw [show s.board.peek place = some value from hpeek, Option.getD_some]
    | write place byte =>
      cases hout
      obtain ⟨hregs, hlines, hcontext⟩ := Board.after_write h hpeek
      unfold scene answered
      dsimp only
      rw [hregs, hlines, hcontext, h]
      exact ⟨rfl, rfl⟩

/-- Without trouble a transaction succeeds, and nothing falls into its middle. -/
theorem calmly_transfer (hn : Disturbs nest) (a : Access) :
    (transfer nest a).Calmly P s fun r s' => r = .ok (s.scene.answer a) ∧ s'.scene = s.scene.after a := by
  unfold transfer transact
  simp only [bind_assoc, calmly_board_bind, calmly_modifyBoard_bind]
  refine (hn _ _ _).bind fun _ s₁ => ?_
  unfold Calmly
  simp only [gives_bind, gives_board, gives_modifyBoard, gives_emit, gives_pure, gives_record]
  change s₁.troubles ≤ ((s₁.answered a).recorded a (s₁.board.outcome a)).troubles ∧
    (_ → s₁.Smooth ((s₁.answered a).recorded a (s₁.board.outcome a)) → _ ∧
      ((s₁.answered a).recorded a (s₁.board.outcome a)).scene = _)
  unfold State.Smooth
  cases hout : s₁.board.outcome a with
  | ok value =>
    have hquiet : (s₁.answered a).troubles = s₁.troubles := by
      unfold State.troubles State.answered
      rw [hout]
      exact List.countP_cons_of_neg Bool.false_ne_true
    refine ⟨Nat.le_of_eq hquiet.symm, ?_⟩
    rintro ⟨_, rfl⟩ _
    obtain ⟨hvalue, hscene⟩ := State.scene_answered hout
    exact ⟨congrArg Except.ok hvalue, hscene⟩
  | error kind =>
    have hmore : s₁.troubles < ((s₁.answered a).recorded a (.error kind)).troubles := by
      unfold State.recorded
      rw [State.troubles_seeing rfl]
      unfold State.troubles State.answered State.amend
      rw [hout]
      exact Nat.lt_of_lt_of_eq (Nat.lt_succ_self _) (List.countP_cons_of_pos rfl).symm
    exact ⟨Nat.le_of_lt hmore, fun _ h => (Nat.ne_of_gt hmore h).elim⟩

/-! ## Loops over groups -/

/-- What is to be written to a register of some groups. -/
def Extender.row (e : Extender) (reg : Byte) (value : Nat → Byte) (groups : List Nat) : List (Place × Byte) :=
  groups.filterMap fun g => (e.locate g reg).toOption.map (·, value g)

theorem Extender.row_cons {e : Extender} {reg : Byte} {g : Nat} {place : Place} (h : e.locate g reg = .ok place)
    (value : Nat → Byte) (groups : List Nat) : e.row reg value (g :: groups) = (place, value g) :: e.row reg value groups := by
  unfold row
  rw [List.filterMap_cons_some (b := (place, value g)) (by rw [h]; rfl)]

/-- Writes do not change the memory. -/
theorem Scene.extender_puts (c : Scene) (ws : List (Place × Byte)) : (c.puts ws).extender = c.extender := by
  unfold puts
  induction ws generalizing c with
  | nil => rfl
  | cons w ws ih => exact ih (c.put w)

/-- Writes change neither the lines nor the context. -/
theorem Scene.board_puts (c : Scene) (ws : List (Place × Byte)) :
    (c.puts ws).lines = c.lines ∧ (c.puts ws).interruptContext = c.interruptContext := by
  unfold puts
  induction ws generalizing c with
  | nil => exact ⟨rfl, rfl⟩
  | cons w ws ih => exact ih (c.put w)

/-- Writing a register of some groups without trouble puts its row on the board. -/
theorem calmly_writeGroups (hn : Disturbs nest) {reg : Byte} {value : Shadow → Nat → Byte} {groups : List Nat}
    (hg : ∀ g ∈ groups, g < 8) (hl : P → ∀ g ∈ groups, ∃ place, s.extender.locate g reg = .ok place) :
    (writeGroups nest reg value groups).Calmly P s fun ok s' =>
      ok = true ∧ s'.scene = s.scene.puts (s.extender.row reg (value s.extender.shadow) groups) := by
  induction groups generalizing P s with
  | nil => exact calmly_pure.2 fun _ => ⟨rfl, rfl⟩
  | cons g groups ih =>
    rw [writeGroups_cons _ _ _ (hg g List.mem_cons_self), calmly_extender_bind]
    refine calmly_ofExcept_bind (fun x hx hp => ?_) fun place hplace => ?_
    · obtain ⟨place, hplace⟩ := hl hp g List.mem_cons_self
      cases hx.symm.trans hplace
    refine (calmly_transfer hn _).bind fun r s₁ => ?_
    have hext (h : s₁.scene = s.scene.after (.write place (value s.extender.shadow g))) : s₁.extender = s.extender :=
      congrArg Scene.extender h
    refine (ih (fun g' hg' => hg g' (List.mem_cons_of_mem g hg')) fun hp g' hg' => ?_).bind fun rest s₂ => ?_
    · rw [hext hp.2.2]
      exact hl hp.1 g' (List.mem_cons_of_mem _ hg')
    · refine calmly_pure.2 ?_
      rintro ⟨⟨_, rfl, hs₁⟩, rfl, hs₂⟩
      refine ⟨rfl, ?_⟩
      rw [hs₂, hext hs₁, hs₁, Extender.row_cons hplace]
      rfl

namespace Scene

/-- The inputs of a group as they are read. -/
def seen (c : Scene) (g : Nat) : Byte :=
  inputAfter c.extender g 0 (.ok (((c.extender.locate g c.extender.family.inputReg).toOption.bind c.registers).getD 0))

/-- The scene after a group has been read. -/
def look (c : Scene) (g : Nat) : Scene := c.amend fun e => { e with shadow := e.shadow.setInput g (c.seen g) }

/-- The scene after some groups have been read. -/
def looks (c : Scene) (groups : List Nat) : Scene := groups.foldl look c

end Scene

/-- Reading the inputs of some groups without trouble looks at them one after the other. -/
theorem calmly_readGroups (hn : Disturbs nest) {groups : List Nat} (hg : ∀ g ∈ groups, g < 8)
    (hl : P → ∀ g ∈ groups, ∃ place, s.extender.locate g s.extender.family.inputReg = .ok place) :
    (readGroups nest groups).Calmly P s fun result s' => result.2 = true ∧ s'.scene = s.scene.looks groups := by
  induction groups generalizing P s with
  | nil => exact calmly_pure.2 fun _ => ⟨rfl, rfl⟩
  | cons g groups ih =>
    rw [readGroups_cons _ (hg g List.mem_cons_self), calmly_extender_bind]
    refine calmly_ofExcept_bind (fun x hx hp => ?_) fun place hplace => ?_
    · obtain ⟨place, hplace⟩ := hl hp g List.mem_cons_self
      cases hx.symm.trans hplace
    refine (calmly_transfer hn _).bind fun r s₁ => ?_
    simp only [calmly_extender_bind, calmly_modifyExtender_bind]
    have hext (h : s₁.scene = s.scene.after (.read place)) : s₁.extender = s.extender := congrArg Scene.extender h
    -- the byte that has been read is what the scene shows of the group
    have hlook (hr : r = .ok (s.scene.answer (.read place))) (h : s₁.scene = s.scene.after (.read place)) :
        (s₁.amend fun e => { e with
          shadow := e.shadow.setInput g (inputAfter s₁.extender g (s.extender.shadow.input.byte g) r) }).scene =
        s.scene.look g := by
      have hseen : inputAfter s₁.extender g (s.extender.shadow.input.byte g) r = s.scene.seen g := by
        unfold Scene.seen
        rw [hr, hext h, show s.scene.extender.locate g s.scene.extender.family.inputReg = .ok place from hplace]
        rfl
      rw [hseen, State.scene_amend, h]
      rfl
    refine (ih (fun g' hg' => hg g' (List.mem_cons_of_mem g hg')) fun hp g' hg' => ?_).bind fun result s₂ => ?_
    · show ∃ place, s₁.extender.locate g' s₁.extender.family.inputReg = .ok place
      rw [hext hp.2.2]
      exact hl hp.1 g' (List.mem_cons_of_mem _ hg')
    · refine calmly_pure.2 ?_
      rintro ⟨⟨_, hr, hs₁⟩, hok, hs₂⟩
      refine ⟨?_, ?_⟩
      · rw [hr, hok]
        rfl
      · rw [hs₂, hlook hr hs₁]
        rfl

/-! ## Handlers -/

/-- Without trouble a handler's call is heard by nobody. -/
theorem calmly_dispatchPin (hn : Disturbs nest) (pin : Nat) (was now : Bool) :
    (dispatchPin nest pin was now).Calmly P s fun _ s' => s'.scene = s.scene := by
  rw [dispatchPin_eq, calmly_extender_bind]
  split
  · split
    · split
      · unfold callHandler
        refine Calmly.after (fun _ _ => gives_log) (State.troubles_seeing rfl) ?_
        refine Calmly.after (fun _ _ => gives_emit) (State.troubles_seeing rfl) ?_
        rw [calmly_board_bind]
        refine (hn _ _ _).mono id fun _ s' _ hs' => ?_
        rw [hs', State.scene_seeing _ rfl, State.scene_seeing _ rfl]
      · exact calmly_pure.2 fun _ => rfl
    · exact calmly_pure.2 fun _ => rfl
  · exact calmly_pure.2 fun _ => rfl

/-- Calling the handlers of one group without trouble changes nothing. -/
theorem calmly_dispatchPins (hn : Disturbs nest) (r : Refresh) {bits : List Nat} (hb : ∀ bit ∈ bits, bit < 8) :
    (dispatchPins nest r bits).Calmly P s fun _ s' => s'.scene = s.scene := by
  induction bits generalizing P s with
  | nil => exact calmly_pure.2 fun _ => rfl
  | cons bit bits ih =>
    rw [dispatchPins_cons _ _ (hb bit List.mem_cons_self)]
    refine (calmly_dispatchPin hn _ _ _).bind fun _ s₁ => ?_
    exact (ih fun b h => hb b (List.mem_cons_of_mem bit h)).mono id fun _ _ hp h => h.trans hp.2

/-- Calling handlers without trouble changes nothing. -/
theorem calmly_dispatch (hn : Disturbs nest) (rs : List Refresh) : (dispatch nest rs).Calmly P s fun _ s' => s'.scene = s.scene := by
  induction rs generalizing P s with
  | nil => exact calmly_pure.2 fun _ => rfl
  | cons r rs ih =>
    unfold dispatch
    refine (calmly_dispatchPins hn _ fun _ => List.mem_range.1).bind fun _ s₁ => ?_
    exact ih.mono id fun _ _ hp h => h.trans hp.2

/-! ## The phases of a pass -/

/-- The registers of all groups with claimed pins can be located. -/
def Extender.Located (e : Extender) : Prop :=
  ∀ g, e.claims.groups.getLsbD g = true → ∀ reg ∈ e.family.registers, ∃ place, e.locate g reg = .ok place

/-- What is to be written to one register of each of some groups, if the family has the register. -/
def Extender.rows (e : Extender) (k : Register) (groups : Byte) : List (Place × Byte) :=
  match e.family.number? k with
  | some reg => e.row reg (e.shadow.meant k) groups.groups
  | none => []

/-- The engine with its interrupt line remembered as high, if it has one. -/
def Engine.rearmed : Engine → Engine
  | .generic m => .generic { m with high := true }
  | .queued q => .queued q

namespace Scene

/-- The scene after the configuration of all groups with claimed pins has been written. -/
def configure (c : Scene) : Scene :=
  ((c.puts (c.extender.rows .polarity c.extender.claims.groups)).puts (c.extender.rows .config c.extender.claims.groups)).amend
    fun e => { e with shadow := e.shadow.markDirty c.extender.claims.groups }

/-- The scene after the dirty outputs of groups with claimed pins have been written. -/
def carry (c : Scene) : Scene :=
  (c.amend fun e => { e with shadow := e.shadow.clearDirty }).puts
    (c.extender.rows .output (c.extender.shadow.dirty &&& c.extender.claims.groups))

/-- The scene after the interrupt line has been remembered as high. -/
def rearm (c : Scene) : Scene := c.amend fun e => { e with engine := e.engine.rearmed }

/-- The scene after the inputs of those of some groups that have claimed pins have been read. -/
def refresh (c : Scene) (groups : Byte) : Scene := (c.looks (groups &&& c.extender.claims.groups).groups).rearm

/-- The plan of a pass, and the scene after it has been made. -/
def gather (c : Scene) (pending : Status) : Plan × Scene :=
  match c.extender.engine with
  | .generic m =>
    if pending.contains Status.isrPending && c.extender.lines.has 0 then
      let now := (c.lines 0).isHigh?.getD m.high
      (.ofRequests (if m.high && !now then pending ∪ Status.readDirty else pending) 0,
        c.amend ({ · with engine := .generic { m with high := now } }))
    else (.ofRequests pending 0, c)
  | .queued q => (.ofRequests pending (q.queue.foldl (fun mask chip => mask ||| BitVec.twoPow 8 chip) q.polled),
      c.amend ({ · with engine := .queued q.emptied }))

/-- The scene after a pass has written what is planned. -/
def written (c : Scene) (plan : Plan) : Scene :=
  let c := if plan.configure then c.configure else c
  if plan.write then c.carry else c

/-- The scene after a planned pass. -/
def run (c : Scene) (plan : Plan) : Scene :=
  let c := c.written plan
  let c := if plan.groups != 0 then c.refresh plan.groups else c
  c.amend fun e => { e with backoff := e.backoff.recordSuccess }

/-- The scene after a pass. -/
def service (c : Scene) (pending : Status) : Scene := (c.gather pending).2.run (c.gather pending).1

/-- The scene after the work has been taken out of the status word. -/
def taken (c : Scene) : Scene := c.amend ({ · with status := .busy })

/-- The scene after the status word has been released. -/
def release (c : Scene) : Scene := c.amend fun e => { e with status := e.status.release }

/-- What comes of an update while no other pass is at work, but for the mark that keeps others from being made. -/
def attempt (c : Scene) : Pass × Scene :=
  if c.extender.halted then (.stopped, c)
  else if c.extender.work.contains Status.stop then (.stopped, c.taken.amend ({ · with status := ∅, halted := true }))
  else if c.extender.isIdleWith c.extender.work then (.idle, c.taken.release)
  else (.ran, (c.taken.service c.extender.work).release)

/-- The scene while a pass keeps others from being made. -/
def held (c : Scene) : Scene := c.amend ({ · with updating := true })

/-- The scene once the pass lets others be made. -/
def freed (c : Scene) : Scene := c.amend ({ · with updating := false })

/-- What comes of an update while no other pass is at work. -/
def update (c : Scene) : Pass × Scene := (c.held.attempt.1, c.held.attempt.2.freed)

end Scene

/-- The register of a claimed group among some groups can be located. -/
theorem Extender.Located.row {e : Extender} (h : e.Located) {reg : Byte} (hreg : reg ∈ e.family.registers) (mask : Byte) :
    ∀ g ∈ (mask &&& e.claims.groups).groups, ∃ place, e.locate g reg = .ok place :=
  fun g hg => h g (e.holds_and mask g hg) reg hreg

/-- The register of every claimed group can be located. -/
theorem Extender.Located.rows {e : Extender} (h : e.Located) {reg : Byte} (hreg : reg ∈ e.family.registers) :
    ∀ g ∈ e.claims.groups.groups, ∃ place, e.locate g reg = .ok place :=
  fun g hg => h g (Byte.mem_groups.1 hg) reg hreg

/-- Writing the polarities without trouble. -/
theorem calmly_writePolarities (hn : Disturbs nest) (hl : P → s.extender.Located) :
    (writePolarities nest s.extender.family s.extender.claims.groups.groups).Calmly P s fun ok s' =>
      ok = true ∧ s'.scene = s.scene.puts (s.extender.rows .polarity s.extender.claims.groups) := by
  unfold writePolarities Extender.rows Family.number?
  cases hreg : s.extender.family.polarityReg with
  | some reg =>
    exact calmly_writeGroups hn (fun _ => Byte.lt_of_mem_groups) fun hp => (hl hp).rows (List.mem_cons_of_mem _ (Family.polarity_mem hreg))
  | none => exact calmly_pure.2 fun _ => ⟨rfl, rfl⟩

/-- Writing the configuration without trouble. -/
theorem calmly_syncConfig (hn : Disturbs nest) (hl : P → s.extender.Located) :
    (syncConfig nest).Calmly P s fun ok s' => ok = true ∧ s'.scene = s.scene.configure := by
  unfold syncConfig
  rw [calmly_extender_bind]
  refine (calmly_writePolarities hn hl).bind fun inverted s₁ => ?_
  have hext (h : s₁.scene = s.scene.puts (s.extender.rows .polarity s.extender.claims.groups)) : s₁.extender = s.extender :=
    (congrArg Scene.extender h).trans (Scene.extender_puts _ _)
  refine (calmly_writeGroups hn (fun _ => Byte.lt_of_mem_groups) fun hp => ?_).bind fun directed s₂ => ?_
  · rw [hext hp.2.2]
    exact (hl hp.1).rows (List.mem_cons_of_mem _ (Family.config_mem _))
  · rw [calmly_modifyExtender_bind]
    refine calmly_pure.2 ?_
    rintro ⟨⟨_, rfl, h₁⟩, rfl, h₂⟩
    refine ⟨rfl, ?_⟩
    rw [State.scene_amend, h₂, h₁, hext h₁]
    rfl

/-- Writing the outputs without trouble. -/
theorem calmly_syncWrites (hn : Disturbs nest) (hl : P → s.extender.Located) :
    (syncWrites nest).Calmly P s fun ok s' => ok = true ∧ s'.scene = s.scene.carry := by
  unfold syncWrites
  rw [calmly_extender_bind, calmly_modifyExtender_bind]
  exact calmly_writeGroups hn (fun _ => Byte.lt_of_mem_groups) fun hp => (hl hp).row (List.mem_cons_of_mem _ (Family.output_mem _)) _

/-- Reading the inputs and calling the handlers without trouble. -/
theorem calmly_readInputs (hn : Disturbs nest) (groups : Byte) (hl : P → s.extender.Located) :
    (readInputs nest groups).Calmly P s fun ok s' => ok = true ∧ s'.scene = s.scene.refresh groups := by
  unfold readInputs syncReads rearm
  simp only [bind_assoc, calmly_extender_bind]
  refine (calmly_readGroups hn (fun _ => Byte.lt_of_mem_groups) fun hp => (hl hp).row List.mem_cons_self _).bind fun result s₁ => ?_
  refine (calmly_dispatch hn _).bind fun _ s₂ => ?_
  simp only [pure_bind, calmly_modifyExtender_bind]
  refine calmly_pure.2 ?_
  rintro ⟨⟨_, hok, h₁⟩, h₂⟩
  refine ⟨hok, ?_⟩
  rw [State.scene_amend, h₂, h₁]
  unfold Scene.refresh Scene.rearm
  refine Scene.amend_congr ?_
  cases (s.scene.looks (groups &&& s.extender.claims.groups).groups).extender with
  | mk _ _ _ _ _ _ _ _ _ _ engine => cases engine <;> rfl

/-- Making the plan of a pass. -/
theorem calmly_gather (pending : Status) :
    (gather pending).Calmly P s fun plan s' => plan = (s.scene.gather pending).1 ∧ s'.scene = (s.scene.gather pending).2 := by
  unfold Scene.gather
  rw [Engine.gather_eq, calmly_extender_bind]
  split
  · rename_i m he
    rw [show s.scene.extender.engine = .generic m from he]
    dsimp only
    split
    · rename_i hl
      have hl' : (pending.contains Status.isrPending && s.scene.extender.lines.has 0) = true := hl
      unfold sampleLine sample
      simp only [bind_assoc, calmly_board_bind]
      refine Calmly.after (fun _ _ => gives_emit) (State.troubles_seeing rfl) ?_
      simp only [pure_bind, calmly_modifyExtender_bind]
      refine calmly_pure.2 fun _ => ?_
      rw [if_pos hl', State.scene_amend, State.scene_seeing _ rfl]
      exact ⟨rfl, rfl⟩
    · rename_i hl
      have hl' : ¬(pending.contains Status.isrPending && s.scene.extender.lines.has 0) = true := hl
      rw [if_neg hl']
      exact calmly_pure.2 fun _ => ⟨rfl, rfl⟩
  · rename_i q he
    rw [show s.scene.extender.engine = .queued q from he, calmly_modifyExtender_bind]
    exact calmly_pure.2 fun _ => ⟨rfl, rfl⟩

/-- A phase without trouble, whether or not the plan asks for it. -/
theorem calmly_ifAsked {asked : Bool} {part : Sim Bool} {c : Scene}
    (h : part.Calmly P s fun ok s' => ok = true ∧ s'.scene = c) :
    (ifAsked asked part).Calmly P s fun ok s' => ok = true ∧ s'.scene = if asked then c else s.scene := by
  unfold ifAsked
  cases asked
  · exact calmly_pure.2 fun _ => ⟨rfl, rfl⟩
  · exact h

/-- The end of a clean pass. -/
theorem calmly_complete (clean : Bool) (hc : P → clean = true) :
    (complete clean).Calmly P s fun _ s' => s'.scene = s.scene.amend fun e => { e with backoff := e.backoff.recordSuccess } := by
  unfold Calmly
  rw [gives_complete]
  have hquiet : (s.completed clean).troubles = s.troubles := by
    cases clean with
    | true => exact State.troubles_noting (n := .passEnded true) (by rintro _ ⟨⟩)
    | false =>
      exact (State.troubles_noting (n := .passEnded false) (by rintro _ ⟨⟩)).trans
        (State.troubles_noting (n := .requested .resync) (by rintro _ ⟨⟩))
  refine ⟨Nat.le_of_eq hquiet.symm, fun hp _ => ?_⟩
  rw [hc hp]
  rfl

/-! ## What phases leave as it was -/

/-- Whether registers can be located is a matter of the chips and the claims. -/
theorem Extender.Located.abides {e e' : Extender} (h : e.Located) (ha : e.Abides e') : e'.Located := by
  unfold Located locate
  rw [ha.family, ha.address, ha.claims]
  exact h

namespace Scene

/-- What writing the configuration makes of the memory. -/
theorem extender_configure (c : Scene) : c.configure.extender =
    { c.extender with shadow := c.extender.shadow.markDirty c.extender.claims.groups } := by
  unfold configure amend
  dsimp only
  rw [extender_puts, extender_puts]

/-- What writing the outputs makes of the memory. -/
theorem extender_carry (c : Scene) : c.carry.extender = { c.extender with shadow := c.extender.shadow.clearDirty } :=
  extender_puts _ _

/-- Reading changes nothing but the inputs in the memory. -/
theorem looks_eq (c : Scene) (groups : List Nat) :
    c.looks groups = c.amend fun e => { e with shadow := { e.shadow with input := (c.looks groups).extender.shadow.input } } := by
  induction groups generalizing c with
  | nil => rfl
  | cons g groups ih => exact ih (c.look g)

/-- Writing the configuration leaves the chips and the claims as they are. -/
theorem abides_configure (c : Scene) : c.extender.Abides c.configure.extender := by
  rw [extender_configure]
  exact ⟨rfl, rfl, rfl⟩

/-- Writing the outputs leaves the chips and the claims as they are. -/
theorem abides_carry (c : Scene) : c.extender.Abides c.carry.extender := by
  rw [extender_carry]
  exact ⟨rfl, rfl, rfl⟩

/-- Making the plan leaves the chips and the claims as they are. -/
theorem abides_gather (c : Scene) (pending : Status) : c.extender.Abides (c.gather pending).2.extender := by
  unfold gather
  split
  · split <;> exact ⟨rfl, rfl, rfl⟩
  · exact ⟨rfl, rfl, rfl⟩

end Scene

/-- Registers can be located after a phase, whether or not the plan asks for it. -/
theorem Extender.Located.ite {b : Bool} {c c' : Scene} (h : c.extender.Located) (ha : c.extender.Abides c'.extender) :
    (if b then c' else c).extender.Located := by
  split
  · exact h.abides ha
  · exact h

/-! ## All phases together -/

/-- The groups of which a planned pass writes a register. -/
def Extender.due (e : Extender) (plan : Plan) : Register → Byte
  | .polarity | .config => if plan.configure then e.claims.groups else 0
  | .output =>
    if plan.write then (if plan.configure then e.shadow.dirty ||| e.claims.groups else e.shadow.dirty) &&& e.claims.groups else 0

/-- What a planned pass writes: polarities, then directions, then outputs. -/
def Extender.dues (e : Extender) (plan : Plan) : List (Place × Byte) :=
  [Register.polarity, .config, .output].flatMap fun k => e.rows k (e.due plan k)

theorem Extender.rows_zero (e : Extender) (k : Register) : e.rows k 0 = [] := by
  unfold rows
  split <;> rfl

/-- What a planned pass writes, register by register. -/
theorem Extender.dues_eq (e : Extender) (plan : Plan) : e.dues plan =
    e.rows .polarity (e.due plan .polarity) ++ (e.rows .config (e.due plan .config) ++ e.rows .output (e.due plan .output)) := by
  show _ ++ (_ ++ (_ ++ [])) = _
  rw [List.append_nil]

/-- The groups that are dirty after a planned pass. -/
def Extender.dirtyAfter (e : Extender) (plan : Plan) : Byte :=
  if plan.write then 0 else if plan.configure then e.shadow.dirty ||| e.claims.groups else e.shadow.dirty

/-- The engine after it has read some groups. -/
def Engine.reread (engine : Engine) (groups : Byte) : Engine := if groups != 0 then engine.rearmed else engine

namespace Scene

theorem puts_append (c : Scene) (ws ws' : List (Place × Byte)) : c.puts (ws ++ ws') = (c.puts ws).puts ws' :=
  List.foldl_append

/-- Writes do not depend on changes of the memory. -/
theorem amend_puts (c : Scene) (f : Extender → Extender) (ws : List (Place × Byte)) : (c.amend f).puts ws = (c.puts ws).amend f := by
  induction ws generalizing c with
  | nil => rfl
  | cons w ws ih => exact ih (c.put w)

/-- The inputs in the memory after the claimed ones of some groups have been read. -/
def inputs (c : Scene) (groups : Byte) : PinMap :=
  (groups &&& c.extender.claims.groups).groups.foldl (fun m g => m.setByte g (c.seen g)) c.extender.shadow.input

/-- What the memory knows of the inputs after some groups have been looked at. -/
theorem input_looks (c : Scene) (groups : List Nat) :
    (c.looks groups).extender.shadow.input = groups.foldl (fun m g => m.setByte g (c.seen g)) c.extender.shadow.input := by
  induction groups generalizing c with
  | nil => rfl
  | cons g groups ih => exact ih (c.look g)

/-- What a pass writes before it reads. -/
theorem written_eq (c : Scene) (plan : Plan) : c.written plan =
      (c.puts (c.extender.dues plan)).amend fun e => { e with shadow := { e.shadow with dirty := c.extender.dirtyAfter plan } } := by
  have hconfigure : c.configure =
      (c.puts (c.extender.rows .polarity c.extender.claims.groups ++ c.extender.rows .config c.extender.claims.groups)).amend
        fun e => { e with shadow := e.shadow.markDirty c.extender.claims.groups } := by
    rw [puts_append]
    rfl
  rw [Extender.dues_eq]
  obtain ⟨configure, write, groups⟩ := plan
  cases configure
  · have hpolarity : c.extender.rows .polarity (c.extender.due ⟨false, write, groups⟩ .polarity) = [] := Extender.rows_zero _ _
    have hconfig : c.extender.rows .config (c.extender.due ⟨false, write, groups⟩ .config) = [] := Extender.rows_zero _ _
    rw [hpolarity, hconfig]
    cases write
    · rw [show c.extender.rows .output (c.extender.due ⟨false, false, groups⟩ .output) = [] from Extender.rows_zero _ _]
      rfl
    · exact amend_puts c _ _
  · cases write
    · rw [show c.extender.rows .output (c.extender.due ⟨true, false, groups⟩ .output) = [] from Extender.rows_zero _ _,
        List.append_nil]
      refine hconfigure.trans (amend_congr ?_)
      rw [extender_puts]
      rfl
    · show c.configure.carry = _
      unfold carry
      rw [extender_configure, amend_puts, hconfigure, amend_puts, ← puts_append, ← List.append_assoc]
      rfl

/-- What a pass reads after it has written. -/
theorem refresh_eq (c : Scene) (groups : Byte) : (if groups != 0 then c.refresh groups else c) =
    c.amend fun e => { e with shadow := { e.shadow with input := c.inputs groups }, engine := e.engine.reread groups } := by
  split
  · rename_i hg
    have hengine : c.extender.engine.reread groups = c.extender.engine.rearmed := if_pos hg
    unfold refresh rearm
    rw [looks_eq, input_looks]
    unfold amend
    dsimp only
    rw [hengine]
    rfl
  · rename_i hg
    rw [bne_iff_ne, ne_eq, Decidable.not_not] at hg
    have hinputs : c.inputs groups = c.extender.shadow.input := by
      unfold inputs
      rw [hg, BitVec.ofNat_eq_ofNat, BitVec.zero_and]
      rfl
    have hengine : c.extender.engine.reread groups = c.extender.engine := by
      rw [hg]
      rfl
    unfold amend
    dsimp only
    rw [hinputs, hengine]

/-- What a pass comes to, all phases taken together. -/
theorem run_eq (c : Scene) (plan : Plan) : c.run plan = (c.puts (c.extender.dues plan)).amend fun e => { e with
    shadow := { e.shadow with
      dirty := c.extender.dirtyAfter plan
      input := (c.puts (c.extender.dues plan)).inputs plan.groups }
    backoff := e.backoff.recordSuccess
    engine := e.engine.reread plan.groups } := by
  unfold run
  dsimp only
  rw [refresh_eq, written_eq]
  rfl

/-- Making the plan changes nothing but what the engine keeps. -/
theorem gather_eq (c : Scene) (pending : Status) :
    (c.gather pending).2 = c.amend ({ · with engine := (c.gather pending).2.extender.engine }) := by
  unfold gather
  split
  · split <;> rfl
  · rfl

/-- The plan does not depend on what keeps other passes from being made. -/
theorem gather_taken (c : Scene) (pending : Status) :
    c.held.taken.gather pending = ((c.gather pending).1, (c.gather pending).2.held.taken) := by
  unfold gather
  rw [show c.held.taken.extender.engine = c.extender.engine from rfl]
  split
  · rw [show c.held.taken.extender.lines = c.extender.lines from rfl]
    split <;> rfl
  · rfl

/-- What an update comes to that makes a pass. -/
theorem update_eq {c : Scene} (hh : c.extender.halted = false) (hs : c.extender.work.contains Status.stop = false)
    (hi : c.extender.isIdleWith c.extender.work = false) {plan : Plan} {c' : Scene} (hg : c.gather c.extender.work = (plan, c')) :
    c.update = (.ran, (c.puts (c.extender.dues plan)).amend fun e => { e with
      shadow := { e.shadow with
        dirty := c.extender.dirtyAfter plan
        input := (c.puts (c.extender.dues plan)).inputs plan.groups }
      status := ∅
      updating := false
      backoff := e.backoff.recordSuccess
      engine := c'.extender.engine.reread plan.groups }) := by
  have hh' : ¬c.held.extender.halted = true := Bool.eq_false_iff.1 hh
  have hs' : ¬c.held.extender.work.contains Status.stop = true := Bool.eq_false_iff.1 hs
  have hi' : ¬c.held.extender.isIdleWith c.held.extender.work = true := Bool.eq_false_iff.1 hi
  unfold update attempt
  rw [if_neg hh', if_neg hs', if_neg hi']
  refine Prod.ext rfl ?_
  have hc' : c' = c.amend ({ · with engine := c'.extender.engine }) := by
    have h := c.gather_eq c.extender.work
    rw [hg] at h
    exact h
  have htaken : c'.held.taken =
      c.amend fun e => { e with engine := c'.extender.engine, updating := true, status := .busy } :=
    congrArg (fun c => c.held.taken) hc'
  unfold service
  rw [gather_taken, show c.gather c.held.extender.work = (plan, c') from hg, run_eq]
  dsimp only
  rw [htaken, amend_puts]
  have hrelease : Status.busy.release = ∅ := by decide
  unfold release freed amend
  dsimp only
  rw [hrelease]
  rfl

end Scene

/-! ## Passes -/

/-- A whole pass without trouble. -/
theorem calmly_service (hn : Disturbs nest) (pending : Status) (hl : P → s.extender.Located) :
    (service nest pending).Calmly P s fun _ s' => s'.scene = s.scene.service pending := by
  have hscene {s' : State} {c : Scene} (h : s'.scene = c) (hc : c.extender.Located) : s'.extender.Located := by
    rw [← h] at hc
    exact hc
  unfold service
  refine Calmly.after (fun _ _ => gives_note) (State.troubles_noting (by rintro _ ⟨⟩)) ?_
  refine (calmly_gather pending).bind fun plan s₁ => ?_
  have hl₁ (hp : P ∧ plan = (s.scene.gather pending).1 ∧ s₁.scene = (s.scene.gather pending).2) : s₁.extender.Located :=
    hscene hp.2.2 ((hl hp.1).abides (s.scene.abides_gather pending))
  refine (calmly_ifAsked (calmly_syncConfig hn hl₁)).bind fun configured s₂ => ?_
  have hl₂ (hp : P ∧ plan = (s.scene.gather pending).1 ∧ s₁.scene = (s.scene.gather pending).2)
      (h₂ : s₂.scene = if plan.configure then s₁.scene.configure else s₁.scene) : s₂.extender.Located :=
    hscene h₂ (Extender.Located.ite (hl₁ hp) s₁.scene.abides_configure)
  refine (calmly_ifAsked (calmly_syncWrites hn fun hp => hl₂ hp.1 hp.2.2)).bind fun written s₃ => ?_
  refine (calmly_ifAsked (calmly_readInputs hn plan.groups fun hp => ?_)).bind fun read s₄ => ?_
  · exact hscene hp.2.2 (Extender.Located.ite (hl₂ hp.1.1 hp.1.2.2) s₂.scene.abides_carry)
  refine (calmly_complete _ ?_).mono id ?_
  · rintro ⟨⟨⟨_, rfl, _⟩, rfl, _⟩, rfl, _⟩
    rfl
  · rintro _ s' ⟨⟨⟨⟨_, rfl, h₁⟩, _, h₂⟩, _, h₃⟩, _, h₄⟩ h'
    rw [h', h₄, h₃, h₂, h₁]
    rfl

/-- To let go of the guard adds no trouble. -/
theorem calmly_lettingGo {m : Sim Pass} {Q : Pass → State → Prop} (h : m.Calmly P s fun p s' => Q p (letGo s')) :
    (lettingGo m).Calmly P s Q := by
  unfold Calmly
  rw [gives_lettingGo]
  refine Gives.mono h (fun _ _ h => h) fun s' h => ?_
  have ht : ((letGo s').noting .passCut).troubles = s'.troubles := State.troubles_noting (by rintro _ ⟨⟩)
  unfold State.Smooth at h ⊢
  rw [ht]
  exact h

/-- What a pass does once it has found something to do. -/
theorem calmly_service_release (hn : Disturbs nest) (work : Status) {s₀ : State} (hl : P → s₀.extender.Located)
    (hs : s.scene = s₀.scene.taken) :
    (do service nest work; release; return Pass.ran : Sim Pass).Calmly P s fun p s' =>
      p = .ran ∧ s'.scene = (s₀.scene.taken.service work).release := by
  refine (calmly_service hn _ fun hp => ?_).bind fun _ s₁ => ?_
  · have hext : s.extender = s₀.scene.taken.extender := congrArg Scene.extender hs
    rw [hext]
    exact (hl hp).abides ⟨rfl, rfl, rfl⟩
  · unfold release
    rw [calmly_modifyExtender_bind]
    refine calmly_pure.2 fun hp => ⟨rfl, ?_⟩
    rw [State.scene_amend, hp.2, hs]
    rfl

/-- What an update does without trouble once it has the guard. -/
theorem calmly_attempt (hn : Disturbs nest) (hl : P → s.extender.Located) :
    (attempt nest).Calmly P s fun p s' => p = s.scene.attempt.1 ∧ s'.scene = s.scene.attempt.2 := by
  unfold attempt Scene.attempt
  rw [calmly_extender_bind]
  split
  · rename_i hh
    rw [if_pos (show s.scene.extender.halted = true from hh)]
    exact calmly_pure.2 fun _ => ⟨rfl, rfl⟩
  · rename_i hh
    rw [if_neg (show ¬s.scene.extender.halted = true from hh)]
    refine Calmly.after (fun _ _ => gives_take s) (State.troubles_noting (by rintro _ ⟨⟩)) ?_
    rw [calmly_extender_bind]
    dsimp only
    split
    · rename_i hs
      rw [if_pos (show s.scene.extender.work.contains Status.stop = true from hs)]
      unfold halt
      simp only [bind_assoc, calmly_modifyExtender_bind, calmly_extender_bind]
      refine Calmly.after (fun _ _ => gives_log) (State.troubles_seeing rfl) (calmly_pure.2 fun _ => ⟨rfl, ?_⟩)
      rw [State.scene_seeing _ rfl]
      rfl
    · rename_i hs
      rw [if_neg (show ¬s.scene.extender.work.contains Status.stop = true from hs)]
      have hquiet : s.taken.troubles = s.troubles := State.troubles_noting (n := .took s.extender.status.pending) (by rintro _ ⟨⟩)
      split
      · rename_i hi
        rw [if_pos (show s.scene.extender.isIdleWith s.scene.extender.work = true from hi)]
        unfold release
        rw [calmly_modifyExtender_bind]
        exact calmly_pure.2 fun _ => ⟨rfl, rfl⟩
      · rename_i hi
        rw [if_neg (show ¬s.scene.extender.isIdleWith s.scene.extender.work = true from hi)]
        split
        · refine Calmly.after (fun _ _ => gives_log) (State.troubles_seeing rfl) (calmly_service_release hn _ hl ?_)
          rw [State.scene_seeing _ rfl]
          rfl
        · exact calmly_service_release (s := s.taken) hn _ hl rfl

/-- An update of a state comes to the update of its scene. -/
theorem calmly_update (hn : Disturbs nest) (hu : P → s.extender.updating = false) (hl : P → s.extender.Located) :
    (update nest).Calmly P s fun p s' => p = s.scene.update.1 ∧ s'.scene = s.scene.update.2 := by
  unfold update Scene.update
  rw [calmly_extender_bind]
  split
  · rename_i hheld
    refine Calmly.after (fun _ _ => gives_note) (State.troubles_noting (by rintro _ ⟨⟩)) (calmly_pure.2 fun hp => ?_)
    cases (hu hp).symm.trans hheld
  · rw [calmly_modifyExtender_bind]
    have hl' (hp : P) : s.held.extender.Located := (hl hp).abides ⟨rfl, rfl, rfl⟩
    have hpass : (lettingGo (attempt nest)).Calmly P s.held fun p s' =>
        p = s.scene.held.attempt.1 ∧ s'.scene = s.scene.held.attempt.2.freed := by
      refine calmly_lettingGo ((calmly_attempt hn hl').mono id fun p s' _ h => ⟨h.1, ?_⟩)
      exact congrArg Scene.freed h.2
    refine hpass.bind fun p s₁ => ?_
    refine Calmly.after (fun _ _ => gives_note) (State.troubles_noting (by rintro _ ⟨⟩)) (calmly_pure.2 fun hp => ?_)
    exact hp.2

end PortExpander
