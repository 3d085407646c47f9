import PortExpander.Proofs.Composed
import PortExpander.Proofs.Dispatch
import PortExpander.Proofs.Recovery
import PortExpander.Proofs.Rounds

/-!
# Shutdowns

A shutdown that begins while no pass is at work halts the extender with its first update, without a transaction or a wait, and lets go of
the lines that the extender still holds. One that begins in the middle of a pass finds that pass at work ten times and gives up. The stop
stays pending then, and the next update that is made after the pass halts the extender. A line is held until it is let go of, so none is
let go of twice.
-/

namespace PortExpander

open Sim Engine

/-! ## What a shutdown does -/

/-- How the update ended of which an event tells the end. -/
def Event.attempt? : Event → Option Pass
  | noted (.updated p) _ => some p
  | _ => none

/-- If an event is the note that a shutdown begins: the note of its end, by its answer. -/
def Event.shutdown? : Event → Option (Bool → Note)
  | noted n _ => n.shutdown?
  | _ => none

namespace History

/-- The lines that have been let go of, the latest first. -/
def releases (h : History) : List Nat := h.filterMap (·.released?)

/-- How updates have ended, the latest first. -/
def attempts (h : History) : List Pass := h.filterMap (·.attempt?)

variable (h h' : History)

@[simp] theorem releases_append : (h ++ h').releases = h.releases ++ h'.releases := List.filterMap_append
@[simp] theorem attempts_append : (h ++ h').attempts = h.attempts ++ h'.attempts := List.filterMap_append

/-- No shutdown begins among some events. -/
def Unshut (h : History) : Prop := ∀ ev ∈ h, ev.shutdown? = none

/-- Some events are no work on the chips and no pauses, and no shutdown begins among them. -/
def Smooth (h : History) : Prop := ∀ ev ∈ h, ev.isWork = false ∧ ev.isPause = false ∧ ev.shutdown? = none

variable {h h'} in
theorem Smooth.append (hs : h.Smooth) (hs' : h'.Smooth) : (h ++ h').Smooth := List.forall_mem_append.2 ⟨hs, hs'⟩

variable {h} in
/-- In a smooth part no shutdown begins or ends. -/
theorem Smooth.unshut (hs : h.Smooth) : h.Unshut := fun ev hm => (hs ev hm).2.2

/-- What lets go of lines releases them and nothing else. -/
theorem mem_freeing {lines : List Nat} {ev : Event} (h : ev ∈ freeing lines) : ∃ line, ev = .released line := by
  obtain ⟨line, -, rfl⟩ := List.mem_map.1 (List.mem_reverse.1 h)
  exact ⟨line, rfl⟩

/-- The lines are released in their order. -/
theorem releases_freeing (lines : List Nat) : (freeing lines).releases = lines.reverse := by
  have hline : Event.released? ∘ Event.released = some := rfl
  rw [releases, freeing, List.filterMap_reverse, List.filterMap_map, hline, List.filterMap_some]

/-- To let go of lines is smooth. -/
theorem smooth_freeing (lines : List Nat) : (freeing lines).Smooth := fun ev hm => by
  obtain ⟨line, rfl⟩ := mem_freeing hm
  exact ⟨rfl, rfl, rfl⟩

/-- To let go of lines is no attempt. -/
theorem attempts_freeing (lines : List Nat) : (freeing lines).attempts = [] := by
  refine List.filterMap_eq_nil_iff.2 fun ev hm => ?_
  obtain ⟨line, rfl⟩ := mem_freeing hm
  rfl

end History

/-- A shutdown that halts the extender: the memory before and after it, and the events between. It tries one update, makes no
transaction and does not wait, and lets go of all lines that were held, each once and in their order. -/
structure Extender.Halts (e e' : Extender) (new : History) : Prop where
  attempts : new.attempts = [.stopped]
  smooth : new.Smooth
  releases : new.releases.reverse = e.lines.toList
  shut : e'.IsShut

/-- What a shutdown in the middle of a pass does: it asks for the stop, tries ten times to make an update and gives the pass ten
milliseconds each time, and then makes a record that the stop has not been acknowledged. -/
def Extender.contended (e : Extender) : History :=
  .logged (.stopUnacknowledged e.label) ::
    ((List.replicate 10 [.delayed 10, .noted (.updated .contended) (e.request .stop)]).flatten ++
      [.notified, .noted (.requested .stop) (e.request .stop)])

/-- What comes of a shutdown that begins with the memory `e`. -/
structure Extender.ShutsDown (e e' : Extender) (new : History) : Prop where
  free : e.updating = false → e.Halts e' new
  held : e.updating = true → e' = e.request .stop ∧ new = e.contended
  unshut : new.Unshut

/-- An update that finds or makes the extender halted is over at once. -/
theorem Updates.smooth {s s' : State} (h : Updates s .stopped s') :
    s'.extender.halted = true ∧ s'.extender.lines = s.extender.lines ∧ s'.board = s.board ∧
      ∃ new : History, s'.history = new ++ s.history ∧ new.attempts = [.stopped] ∧ new.releases = [] ∧ new.Smooth := by
  cases h with
  | halted hh =>
    refine ⟨hh, rfl, rfl, [_], rfl, rfl, rfl, ?_⟩
    simp [History.Smooth, Event.isWork, Event.isFailure, Event.isPause, Event.shutdown?, Note.shutdown?]
  | stops =>
    refine ⟨rfl, rfl, rfl, [_, _, _], rfl, rfl, rfl, ?_⟩
    simp [History.Smooth, Event.isWork, Event.isFailure, Event.isPause, Event.shutdown?, Note.shutdown?]

section

variable {nest : Nest} {s : State}

/-- A shutdown that begins while no pass is at work. -/
theorem gives_shutdown_at_rest (hp : Plays nest) (hu : s.extender.updating = false) : (shutdown nest).Gives s
    (fun b s' => b = true ∧ s'.board = s.board ∧ ∃ new, s'.history = new ++ s.history ∧ s.extender.Halts s'.extender new)
    (fun _ => False) := by
  refine (gives_shutdown_frees hp hu).mono (fun b s' h => ?_) fun _ h => h
  obtain ⟨rfl, s₁, hupdates, rfl⟩ := h
  obtain ⟨hhalted, hlines, hboard, new, hnew, hattempts, hreleases, hsmooth⟩ := hupdates.smooth
  -- the latest events come first: the lines are let go of after the update, and the update comes after the request
  let requested : History := [.notified, .noted (.requested .stop) (s.extender.request .stop)]
  have hrequested : requested.Smooth := by
    simp [requested, History.Smooth, Event.isWork, Event.isFailure, Event.isPause, Event.shutdown?, Note.shutdown?]
  have hheld : s₁.extender.lines = s.extender.lines := hlines
  refine ⟨rfl, hboard, .freeing s.extender.lines.toList ++ (new ++ requested), ?_, ?_, ?_, ?_, hhalted, hupdates.updating, rfl⟩
  · rw [List.append_assoc, List.append_assoc, ← hheld]
    exact congrArg _ hnew
  · rw [History.attempts_append, History.attempts_append, History.attempts_freeing, hattempts]
    rfl
  · exact (History.smooth_freeing _).append (hsmooth.append hrequested)
  · rw [History.releases_append, History.releases_append, History.releases_freeing, hreleases]
    exact (congrArg List.reverse (List.append_nil _)).trans (List.reverse_reverse _)

/-- What a shutdown does in the middle of a pass, until it gives up. -/
theorem gives_awaitHalt_in_pass (left : Nat) {s : State} (hu : s.extender.updating = true) (ha : s.board.agenda = none) :
    (awaitHalt nest left).Gives s (fun b s' => b = false ∧ s' = ⟨s.extender, s.board, .logged (.stopUnacknowledged s.extender.label) ::
      ((List.replicate left [.delayed 10, .noted (.updated .contended) s.extender]).flatten ++ s.history)⟩) (fun _ => False) := by
  induction left generalizing s with
  | zero => exact ⟨rfl, rfl⟩
  | succ left ih =>
    let tried : State := (s.noting (.updated .contended)).seeing (.delayed pollInterval)
    have hagenda : tried.board.agenda = none := ha
    unfold awaitHalt
    rw [gives_bind]
    unfold Gives
    rw [update_of_held hu]
    show Gives _ (s.noting (.updated .contended)) _ _
    rw [if_neg (by decide), gives_bind]
    unfold delay pause
    simp only [gives_bind, gives_emit, gives_board]
    rw [hagenda]
    refine (ih (s := tried) hu ha).mono (fun b s' h => ⟨h.1, h.2.trans ?_⟩) fun _ h => h
    rw [List.replicate_succ', List.flatten_append]
    simp [tried, State.seeing, State.noting, pollInterval]

/-- A shutdown that begins in the middle of a pass. -/
theorem gives_shutdown_in_pass (hu : s.extender.updating = true) (ha : s.board.agenda = none) : (shutdown nest).Gives s
    (fun b s' => b = false ∧ s' = ⟨s.extender.request .stop, s.board, s.extender.contended ++ s.history⟩) (fun _ => False) := by
  unfold shutdown
  simp only [gives_bind, gives_request, gives_notify]
  refine (gives_awaitHalt_in_pass 10 (s := (s.asking .stop).seeing .notified) hu ha).mono (fun b s' h => ⟨h.1, h.2.trans ?_⟩)
    fun _ h => h
  unfold Extender.contended
  rw [List.cons_append, List.append_assoc]
  rfl

/-- No shutdown begins among the attempts that find another pass at work. -/
theorem Extender.unshut_contended (e : Extender) : e.contended.Unshut := by
  simp [contended, History.Unshut, Event.shutdown?, Note.shutdown?, List.replicate_succ]

/-- What comes of a shutdown, wherever it begins. -/
theorem gives_perform_shutdown (hp : Plays nest) (ha : s.extender.updating = true → s.board.agenda = none) :
    (Session.perform nest .shutdown).Gives s (fun r s' => r = .bit (!s.extender.updating) ∧ s'.board = s.board ∧
      ∃ new, s'.history = new ++ s.history ∧ s.extender.ShutsDown s'.extender new) (fun _ => False) := by
  unfold Session.perform
  rw [gives_bind]
  cases hu : s.extender.updating with
  | false =>
    refine (gives_shutdown_at_rest hp hu).mono (fun b s' h => ?_) fun _ h => h
    obtain ⟨rfl, hboard, new, hnew, hhalts⟩ := h
    exact ⟨rfl, hboard, new, hnew, fun _ => hhalts, fun h => Bool.noConfusion (h.symm.trans hu), hhalts.smooth.unshut⟩
  | true =>
    refine (gives_shutdown_in_pass hu (ha hu)).mono (fun b s' h => ?_) fun _ h => h
    obtain ⟨rfl, rfl⟩ := h
    exact ⟨rfl, rfl, _, rfl, fun h => Bool.noConfusion (h.symm.trans hu), fun _ => ⟨rfl, rfl⟩, s.extender.unshut_contended⟩

end

/-! ## What a session knows of its shutdowns -/

namespace History

/-- Every shutdown that has begun has come to its end, and done what it does until then. -/
def Shutdowns (h : History) : Prop := ∀ (later : History) n e (past : History) ending, h = later ++ .noted n e :: past →
  n.shutdown? = some ending →
    ∃ (rest new : History) (e' : Extender), later = rest ++ .noted (ending (!e.updating)) e' :: new ∧ e.ShutsDown e' new

/-- The beginning of a shutdown is not among events in which none begins. -/
theorem Unshut.exists_later {new h later past : History} (hn : new.Unshut) {n : Note} {e : Extender} {ending : Bool → Note}
    (heq : new ++ h = later ++ .noted n e :: past) (hshut : n.shutdown? = some ending) :
    ∃ later', later = new ++ later' ∧ h = later' ++ .noted n e :: past := by
  rcases List.append_eq_append_iff.1 heq with hlater | ⟨new', rfl, hnew'⟩
  · exact hlater
  · cases new' with
    | nil => exact ⟨[], by simp, hnew'.symm⟩
    | cons ev new' =>
      obtain ⟨rfl, -⟩ := List.cons.inj hnew'
      cases hshut.symm.trans (hn _ (List.mem_append_right _ List.mem_cons_self))

variable {h : History}

/-- More events, among which no shutdown begins. -/
theorem Shutdowns.append (hs : h.Shutdowns) (new : History) (hn : new.Unshut) : Shutdowns (new ++ h) := by
  intro later n e past ending heq hshut
  obtain ⟨later', rfl, hlater⟩ := hn.exists_later heq hshut
  obtain ⟨rest, new', e', rfl, hdone⟩ := hs later' n e past ending hlater hshut
  exact ⟨new ++ rest, new', e', by rw [List.append_assoc], hdone⟩

/-- A shutdown from its beginning to its end. -/
theorem Shutdowns.shutdown (hs : h.Shutdowns) {n : Note} {ending : Bool → Note} (hn : n.shutdown? = some ending)
    (hend : ∀ b, (ending b).shutdown? = none) {e e' : Extender} {new : History} (hd : e.ShutsDown e' new) :
    Shutdowns (.noted (ending (!e.updating)) e' :: (new ++ .noted n e :: h)) := by
  have hnew : Unshut (.noted (ending (!e.updating)) e' :: new) := List.forall_mem_cons.2 ⟨hend _, hd.unshut⟩
  intro later n' e'' past ending' heq hshut
  obtain ⟨later', rfl, hlater⟩ := hnew.exists_later heq hshut
  cases later' with
  | nil =>
    obtain ⟨hfirst, rfl⟩ := List.cons.inj hlater
    cases hfirst
    cases hn.symm.trans hshut
    exact ⟨[], new, e', by simp, hd⟩
  | cons ev later' =>
    obtain ⟨-, rfl⟩ := List.cons.inj hlater
    obtain ⟨rest, new', e₁, rfl, hdone⟩ := hs later' n' e'' past ending' rfl hshut
    exact ⟨.noted (ending (!e.updating)) e' :: new ++ (ev :: rest), new', e₁, by simp, hdone⟩

end History

/-- Lines that have been held and are let go of now have not been let go of before. -/
theorem History.nodup_releases {released held : List Nat} (h : (released ++ held).Nodup) :
    ((held.reverse ++ released) ++ Lines.none.toList).Nodup := by
  rw [show Lines.none.toList = [] from rfl, List.append_nil]
  exact ((List.perm_append_comm.trans ((List.reverse_perm held).symm.append_right released)).nodup_iff).1 h

/-- Each line is held or has been let go of, once, and every shutdown that has begun has come to its end. -/
structure State.Tidy (s : State) : Prop where
  lines : (s.history.releases ++ s.extender.lines.toList).Nodup
  shutdowns : s.history.Shutdowns

namespace State.Tidy

variable {s : State}

/-- A change of the memory that leaves the lines keeps them tidy. -/
theorem amend (h : s.Tidy) {f : Extender → Extender} (hf : (f s.extender).lines = s.extender.lines) : (s.amend f).Tidy :=
  ⟨by rw [extender_amend, hf]; exact h.lines, h.shutdowns⟩

theorem onBoard (h : s.Tidy) (f : Board → Board) : (s.onBoard f).Tidy := ⟨h.lines, h.shutdowns⟩

/-- More events, among which no line is let go of and no shutdown begins. -/
theorem grow (h : s.Tidy) (new : History) (hr : new.releases = []) (hn : new.Unshut) :
    State.Tidy { s with history := new ++ s.history } :=
  ⟨by rw [History.releases_append, hr]; exact h.lines, h.shutdowns.append new hn⟩

theorem seeing (h : s.Tidy) {ev : Event} (hr : ev.released? = none) (hev : ev.shutdown? = none) : (s.seeing ev).Tidy := by
  refine h.grow [ev] ?_ fun _ hm => List.mem_singleton.1 hm ▸ hev
  rw [History.releases, List.filterMap_cons_none hr]
  rfl

theorem noting (h : s.Tidy) {n : Note} (hn : n.shutdown? = none) : (s.noting n).Tidy :=
  State.Tidy.seeing h (show (Event.noted n s.extender).released? = none from rfl) hn

/-- The lines that are held are let go of. -/
theorem freed (h : s.Tidy) : s.freed.Tidy := by
  refine ⟨?_, h.shutdowns.append _ (History.smooth_freeing _).unshut⟩
  have hreleases : s.freed.history.releases = s.extender.lines.toList.reverse ++ s.history.releases := by
    rw [State.freed, History.releases_append, History.releases_freeing]
  rw [hreleases]
  exact History.nodup_releases h.lines

/-- A shutdown from its beginning to its end. -/
theorem shutdown (h : s.Tidy) {n : Note} {ending : Bool → Note} (hn : n.shutdown? = some ending)
    (hend : ∀ b, (ending b).shutdown? = none) {e : Extender} {new : History} (hd : s.extender.ShutsDown e new) (board : Board) :
    State.Tidy ⟨e, board, .noted (ending (!s.extender.updating)) e :: (new ++ .noted n s.extender :: s.history)⟩ := by
  refine ⟨?_, h.shutdowns.shutdown hn hend hd⟩
  show ((new ++ .noted n s.extender :: s.history).releases ++ e.lines.toList).Nodup
  rw [History.releases_append]
  show ((new.releases ++ s.history.releases) ++ e.lines.toList).Nodup
  cases hu : s.extender.updating with
  | false =>
    have hhalts := hd.free hu
    rw [hhalts.shut.lines, List.reverse_eq_iff.1 hhalts.releases]
    exact History.nodup_releases h.lines
  | true =>
    obtain ⟨rfl, rfl⟩ := hd.held hu
    exact h.lines

end State.Tidy

/-! ## Tidy computations -/

/-- A computation keeps a session tidy, whether or not a fault ends it, and leaves no agenda on a board that has none. -/
def Sim.Tidies {α : Type} (m : Sim α) : Prop := ∀ s, s.Tidy →
  m.Gives s (fun _ s' => s'.Tidy ∧ (s.board.agenda = none → s'.board.agenda = none)) (fun s' => s'.Tidy)

namespace Sim

variable {α β : Type} {nest : Nest}

/-- Two computations in a row keep the lines tidy if both do. -/
theorem Tidies.bind {m : Sim β} {k : β → Sim α} (hm : Tidies m) (hk : ∀ b, Tidies (k b)) : Tidies (m >>= k) := by
  intro s hs
  rw [gives_bind]
  refine (hm s hs).mono (fun b s₁ h₁ => ?_) fun _ h => h
  exact (hk b s₁ h₁.1).mono (fun _ _ h => ⟨h.1, fun ha => h.2 (h₁.2 ha)⟩) fun _ h => h

/-- What is composed of such computations keeps the lines tidy. -/
theorem Composed.tidies {m : Sim α} (h : Composed nest m) (hn : ∀ ops, Tidies (nest ops)) : Tidies m := by
  induction h with
  | pure => exact fun _ hs => ⟨hs, id⟩
  | throw => exact fun _ hs => hs
  | bind _ _ hm hk => exact hm.bind hk
  | extender | board => exact fun _ hs => ⟨hs, id⟩
  | modifyExtender hf => exact fun s hs => ⟨hs.amend (hf s.extender), id⟩
  | modifyBoard hf => exact fun s hs => ⟨hs.onBoard _, (hf s.board).trans⟩
  | emit hnote hr =>
    refine fun s hs => ⟨hs.seeing hr ?_, id⟩
    rename_i ev
    cases ev <;> first | rfl | cases hnote
  | note hn => exact fun s hs => ⟨hs.noting hn, id⟩
  | nested ops => exact hn ops
  | pause =>
    intro s hs
    unfold Sim.pause
    rw [gives_bind, gives_board]
    cases ha : s.board.agenda with
    | none => exact ⟨hs, fun _ => ha⟩
    | some agenda =>
      dsimp only
      split
      · exact hs
      · rw [gives_bind, gives_modifyBoard]
        exact (hn _ _ (hs.onBoard _)).mono (fun _ _ h => ⟨h.1, nofun⟩) fun _ h => h
  | lettingGo _ hm =>
    intro s hs
    have hgo {s' : State} (h : s'.Tidy) : (letGo s').Tidy := h.amend (f := ({ · with updating := false })) rfl
    exact gives_lettingGo.2 ((hm s hs).mono (fun _ _ h => ⟨hgo h.1, h.2⟩) fun _ h => (hgo h).noting rfl)
  | releaseLines =>
    intro s hs
    unfold Gives
    cases hu : s.extender.updating with
    | true =>
      -- while a pass holds the lines they are locked, and the call has released none when it faults
      rw [releaseLines_of_held hu]
      exact hs
    | false =>
      rw [releaseLines_apply hu]
      exact ⟨hs.freed, id⟩
  | runWorker ticks _ hm =>
    intro s hs
    unfold Session.runWorker
    simp only [gives_bind, gives_board, gives_modifyBoard, gives_outcome]
    have hwork := hm _ (hs.onBoard ({ · with agenda := some (.new ticks) }))
    unfold Gives at hwork
    revert hwork
    rcases Engine.work nest (s.onBoard ({ · with agenda := some (.new ticks) })) with ⟨f | _, s₁⟩
    · exact fun h => ⟨h.onBoard _, id⟩
    · exact fun h => ⟨h.1.onBoard _, id⟩
  | spared targets =>
    intro s hs
    -- what is done on the spare extender leaves quiet events in the history and nothing else
    have hafter (s' : State) (h : Client.Overheard s s') : s'.Tidy ∧ (s.board.agenda = none → s'.board.agenda = none) := by
      obtain ⟨evs, rfl, hquiet⟩ := h
      refine ⟨hs.grow evs (List.filterMap_eq_nil_iff.2 fun ev hm => ?_) fun ev hm => ?_, id⟩
      all_goals
        have hq := hquiet ev hm
        cases ev <;> first | rfl | cases hq
    refine Gives.mono (Client.gives_spared nest targets s) (fun r s' h => ?_) fun s' h => (hafter s' h).1
    cases r <;> exact hafter s' h

end Sim

/-! ## Tidy sessions -/

/-- Operations that are played one after the other, on a board without an agenda. -/
theorem Session.tidies_playAll {nest : Nest} (hp : Plays nest) (hn : ∀ ops, Sim.Tidies (nest ops)) (ops : List Op) {s : State}
    (hs : s.Tidy) (ha : s.board.agenda = none) :
    (playAll (perform nest) ops).Gives s (fun _ s' => s'.Tidy) (fun s' => s'.Tidy) := by
  induction ops generalizing s with
  | nil => exact hs
  | cons op ops ih =>
    unfold playAll
    rw [gives_bind, gives_note, gives_bind]
    by_cases ho : op = .shutdown
    · subst ho
      refine (gives_perform_shutdown hp (s := s.noting (.opBegan .shutdown)) fun _ => ha).mono (fun r s₁ h => ?_) fun _ h => h.elim
      obtain ⟨rfl, hboard, new, hnew, hdone⟩ := h
      rw [gives_bind, gives_note]
      have htidy := hs.shutdown (n := .opBegan .shutdown) rfl (fun _ => rfl) hdone s₁.board
      refine ih (s := s₁.noting (.opEnded .shutdown _)) ?_ (hboard ▸ ha)
      have heq : s₁ = ⟨s₁.extender, s₁.board, new ++ .noted (.opBegan .shutdown) s.extender :: s.history⟩ := by
        rw [show Event.noted (.opBegan .shutdown) s.extender :: s.history = (s.noting (.opBegan .shutdown)).history from rfl, ← hnew]
      rw [heq]
      exact htidy
    · have hbegan : (Note.opBegan op).shutdown? = none := by
        cases op <;> first | rfl | exact absurd rfl ho
      refine ((composed_perform op).tidies hn _ (hs.noting hbegan)).mono (fun r s₁ h => ?_) fun _ h => h
      rw [gives_bind, gives_note]
      exact ih (h.1.noting rfl) (h.2 ha)

/-- Operations that fall in, whatever they are, keep a session tidy. -/
theorem Session.tidies_nestAt (depth : Nat) (ops : List Op) : Sim.Tidies (nestAt depth ops) := by
  induction depth generalizing ops with
  | zero =>
    cases ops with
    | nil => exact fun s hs => ⟨hs, id⟩
    | cons op ops => exact fun s hs => hs
  | succ depth ih =>
    cases ops with
    | nil => exact fun s hs => ⟨hs, id⟩
    | cons op ops =>
      intro s hs
      unfold nestAt playInside
      simp only [gives_bind, gives_board, gives_modifyBoard]
      have hplay := tidies_playAll (plays_nestAt depth) ih (op :: ops) (hs.onBoard ({ · with agenda := none })) rfl
      exact hplay.mono (fun _ s' h => ⟨h.onBoard _, id⟩) fun _ h => h

/-- A shutdown as a step of a session is answered, and says that it has halted the extender. -/
theorem State.step_shutdown {nest : Nest} (hp : Plays nest) {s : State} (hu : s.extender.updating = false) :
    (s.step nest (.op .shutdown)).1 = .bit true ∧ ∃ (s' : State) (new : History),
      (s.step nest (.op .shutdown)).2 = s'.over (.op .shutdown) (.bit true) ∧
      s'.history = new ++ .noted (.stepBegan (.op .shutdown)) s.extender :: s.history ∧
      s.extender.ShutsDown s'.extender new := by
  have hgives := gives_perform_shutdown hp (s := s.noting (.stepBegan (.op .shutdown))) fun h => Bool.noConfusion (h.symm.trans hu)
  replace hgives : (Step.perform nest (.op .shutdown)).Gives _ _ _ := hgives
  rcases State.step_of_gives hgives with ⟨r, s', hstep, rfl, -, new, hnew, hdone⟩ | ⟨_, _, _, h⟩
  · rw [hstep, State.extender_noting, hu]
    exact ⟨rfl, s', new, rfl, hnew, hdone⟩
  · exact h.elim

/-- A step keeps a session tidy. -/
theorem State.Tidy.step {s : State} (h : s.Tidy) (hu : s.extender.updating = false) (depth : Nat) (step : Step) :
    (s.step (Session.nestAt depth) step).2.Tidy := by
  by_cases hstep : step = .op .shutdown
  · subst hstep
    obtain ⟨-, s', new, heq, hnew, hdone⟩ := State.step_shutdown (Session.plays_nestAt depth) hu
    have htidy := h.shutdown (n := .stepBegan (.op .shutdown)) rfl (fun _ => rfl) hdone { s'.board with agenda := none }
    rw [heq]
    unfold State.over State.onBoard State.noting
    rw [hnew]
    rwa [hu] at htidy
  · have hbegan : (Note.stepBegan step).shutdown? = none := by
      cases step with
      | op o => cases o <;> first | rfl | exact absurd rfl hstep
      | _ => rfl
    have hover {s' : State} (r : Reply) (h' : s'.Tidy) : (s'.over step r).Tidy := (h'.onBoard _).noting rfl
    have htidies := (Step.composed_perform step).tidies (Session.tidies_nestAt depth) _ (h.noting hbegan)
    rcases State.step_of_gives htidies with ⟨r, s', heq, h'⟩ | ⟨f, s', heq, h'⟩
    · rw [heq]
      exact hover r h'.1
    · rw [heq]
      exact hover (.fault f) h'

/-- Sessions are tidy. -/
theorem Reachable.tidy {s : State} (hs : Reachable s) : s.Tidy := by
  induction hs with
  | start board _ => exact ⟨(Byte.pairwise_groups _).imp Nat.ne_of_lt, fun later n e past ending heq => by cases later <;> cases heq⟩
  | step depth step hs ih =>
    obtain ⟨_, _, _, _, hu⟩ := hs.goes
    exact ih.step hu depth step

/-! ## After a stop -/

/-- Updates of a stopped extender, while no pass is at work, find it halted or halt it. -/
theorem Goes.stopped {s s' : State} (h : Goes s s') (hs : s.extender.isStopped = true) (hu : s.extender.updating = false) :
    ∃ new : History, s'.history = new ++ s.history ∧ ∀ p ∈ new.attempts, p = .stopped := by
  induction h with
  | refl => exact ⟨[], rfl, nofun⟩
  | @tail s₁ s₂ hto h ih =>
    obtain ⟨new, hnew, hstop⟩ := ih
    have hs₁ : s₁.extender.isStopped = true := by
      obtain ⟨_, _, hafter, _⟩ := (Goes.moves hto).of_stopped hs
      exact hafter.stopped
    have hu₁ : s₁.extender.updating = false := (Goes.updating hto).trans hu
    -- one happening adds its attempts to those before
    suffices hone : ∃ more : History, s₂.history = more ++ s₁.history ∧ ∀ p ∈ more.attempts, p = .stopped by
      obtain ⟨more, hmore, hone⟩ := hone
      refine ⟨more ++ new, by rw [hmore, hnew, List.append_assoc], ?_⟩
      rw [History.attempts_append]
      exact List.forall_mem_append.2 ⟨hone, hstop⟩
    have hsingle {ev : Event} (heq : s₂.history = ev :: s₁.history) (hev : ev.attempt? = none) :
        ∃ more : History, s₂.history = more ++ s₁.history ∧ ∀ p ∈ more.attempts, p = .stopped := by
      refine ⟨[ev], heq, fun p hp => ?_⟩
      rw [History.attempts, List.filterMap_cons_none hev] at hp
      cases hp
    cases h with
    | touch h =>
      cases h with
      | contend hheld => cases hheld.symm.trans hu₁
      | write | attach | detach | board | unwire => exact ⟨[], rfl, nofun⟩
      | setUp | commit | enqueue | ask | ended | released => exact hsingle rfl rfl
      | see ev hq => exact hsingle rfl (by cases ev <;> first | rfl | cases hq)
      | note n hn => exact hsingle rfl (by cases n <;> first | rfl | cases hn)
    | update p _ h =>
      obtain rfl := h.stopped_of_isStopped hs₁
      obtain ⟨-, -, -, more, hmore, hattempts, -⟩ := h.smooth
      exact ⟨more, hmore, fun p hp => List.mem_singleton.1 (hattempts ▸ hp)⟩
    | cut _ h =>
      obtain ⟨_, hh, hw, -⟩ := h
      rw [Extender.halted_of_isStopped hs₁ hw] at hh
      cases hh
    | began | ended | claim | free => exact hsingle rfl rfl

/-- Updates that are made after a moment at which the extender is stopped and no pass is at work find it halted or halt it. -/
theorem Reachable.stopped_after {s : State} (hs : Reachable s) {later past : History} {n : Note} {e : Extender}
    (hm : s.history = later ++ .noted n e :: past) (he : n.Stopping e) (hu : e.updating = false) :
    ∀ p ∈ later.attempts, p = .stopped := by
  obtain ⟨e₀, board, hmade, hgo, -⟩ := hs.goes
  obtain ⟨s₁, hto, hfrom, hh, rfl⟩ := hgo.moment rfl hm hu
  have hstopped : s₁.extender.isStopped = true := by
    rcases he with he | ⟨bits, rfl, -⟩
    · exact he
    · -- a pass is at work once it has taken its work
      have hheld := ((Goes.moves hto).orderly rfl hmade.updating).1.2 (by rw [hh]; nofun)
      cases hheld.symm.trans hu
  obtain ⟨new, hnew, hall⟩ := hfrom.stopped hstopped hu
  have hlater : later = new := by
    rw [hm, hh] at hnew
    exact List.append_cancel_right hnew
  exact hlater ▸ hall

/-- An update that is a step of a session, once a stop has been requested. -/
theorem State.step_update_of_stopped {nest : Nest} (hp : Plays nest) {s : State} (hu : s.extender.updating = false)
    (hs : s.extender.isStopped = true) : (s.step nest (.op .update)).1 = .pass .stopped := by
  have hgives : (Step.perform nest (.op .update)).Gives (s.noting (.stepBegan (.op .update))) (fun r _ => r = .pass .stopped)
      fun _ => False := by
    show (Session.perform nest .update).Gives _ _ _
    unfold Session.perform
    rw [gives_bind]
    exact (gives_update_of_stopped (s := s.noting (.stepBegan (.op .update))) hp hu hs).mono
      (fun p s' h => congrArg Reply.pass h.1) fun _ h => h
  rcases State.step_of_gives hgives with ⟨r, s', heq, rfl⟩ | ⟨_, _, _, h⟩
  · rw [heq]
  · exact h.elim

/-! ## Shutdowns are bounded -/

/-- Shutdowns are bounded, and what they answer is right. A shutdown that is a step of a session answers that it has halted the
extender. No line is let go of twice in a session, and none that has been let go of is held. And each shutdown of a session, wherever it
begins, comes to its end. If no pass is at work when it begins, it answers that it has halted the extender, after one update, without
work on the chips and pauses, and has let go of the lines that the extender held. If a pass is at work, it finds that pass at work ten
times, gives it ten milliseconds each time, makes one record and answers that it has not halted the extender. It keeps the lines then and
leaves the stop pending: all updates that end after a moment at which no pass is at work are stopped, and so is an update that is the
next step. -/
theorem shutdowns_are_bounded {s : State} (hs : Reachable s) :
    (∀ depth, (s.step (Session.nestAt depth) (.op .shutdown)).1 = .bit true) ∧
    s.history.releases.Nodup ∧ (∀ line ∈ s.history.releases, s.extender.lines.has line = false) ∧
    ∀ (later past : History) n e ending, s.history = later ++ .noted n e :: past → n.shutdown? = some ending →
      ∃ (rest new : History) (e' : Extender), later = rest ++ .noted (ending (!e.updating)) e' :: new ∧
        (e.updating = false → e.Halts e' new) ∧
        (e.updating = true →
          new = e.contended ∧ e' = e.request .stop ∧ e'.lines = e.lines ∧ e'.status.contains Status.stop = true ∧
          (∀ (newer older : History) n₁ e₁, rest = newer ++ .noted n₁ e₁ :: older → e₁.updating = false →
            ∀ p ∈ newer.attempts, p = .stopped) ∧
          ∀ depth, (s.step (Session.nestAt depth) (.op .update)).1 = .pass .stopped) := by
  obtain ⟨e₀, board, hmade, hgo, hu⟩ := hs.goes
  obtain ⟨hlines, hshutdowns⟩ := hs.tidy
  obtain ⟨hreleased, -, hdisjoint⟩ := List.nodup_append.1 hlines
  refine ⟨fun depth => (State.step_shutdown (Session.plays_nestAt depth) hu).1, hreleased, fun line hline => ?_,
    fun later past n e ending hm hn => ?_⟩
  · refine Bool.eq_false_iff.2 fun hheld => ?_
    exact hdisjoint line hline line (Byte.mem_groups.2 hheld) rfl
  · obtain ⟨rest, new, e', rfl, hdone⟩ := hshutdowns later n e past ending hm hn
    refine ⟨rest, new, e', rfl, hdone.free, fun hheld => ?_⟩
    obtain ⟨rfl, rfl⟩ := hdone.held hheld
    have hpending : (e.request .stop).status.contains Status.stop = true := FlagSet.contains_union_right _ (FlagSet.contains_refl _)
    rw [List.append_assoc, List.cons_append] at hm
    have hafter := hgo.moves.after_stop rfl hm (.inl (Extender.isStopped_iff.2 (.inr hpending)))
    refine ⟨rfl, rfl, rfl, hpending, fun newer older n₁ e₁ hrest hu₁ => ?_, fun depth => ?_⟩
    · subst hrest
      have hstopping := (hafter.notes n₁ e₁ (List.mem_append_right _ List.mem_cons_self)).1
      rw [List.append_assoc, List.cons_append] at hm
      exact hs.stopped_after hm hstopping hu₁
    · exact State.step_update_of_stopped (Session.plays_nestAt depth) hu hafter.stopped

/-- A shutdown falls into the first transaction of a pass and gives up. The next update is stopped, and a shutdown after it succeeds. -/
theorem shutdowns_are_bounded_of_hook :
    let s := State.oneLine [.claim 0, .op (.call (.setup 0 PinAttributes.output)), .op (.hook 0 [.shutdown]), .op .update, .op .update,
      .op .shutdown]
    (s.step (Session.nestAt 1) (.op .shutdown)).1 = .bit true ∧ s.history.releases = [0] ∧ s.history.releases.Nodup ∧
    s.extender.lines.has 0 = false ∧
    (∃ (later past rest new : History) (n : Note) (e e' : Extender) (ending : Bool → Note),
      s.history = later ++ .noted n e :: past ∧ n.shutdown? = some ending ∧
      later = rest ++ .noted (ending true) e' :: new ∧ e.lines.toList = [0] ∧ e.Halts e' new) ∧
    ∃ (later past rest new : History) (n : Note) (e e' : Extender) (ending : Bool → Note),
      s.history = later ++ .noted n e :: past ∧ n.shutdown? = some ending ∧
      later = rest ++ .noted (ending false) e' :: new ∧ new = e.contended ∧ e'.lines.toList = [0] ∧
      (s.step (Session.nestAt 1) (.op .update)).1 = .pass .stopped := by
  intro s
  have hr : Reachable s := reachable_oneLine _
  obtain ⟨hreply, hnodup, hheld, hall⟩ := shutdowns_are_bounded hr
  have hreleases : s.history.releases = [0] := by decide +kernel
  refine ⟨hreply 1, hreleases, hnodup, hheld 0 (hreleases ▸ List.mem_singleton_self 0), ?_, ?_⟩
  · obtain ⟨later, n, e, past, hm, hp⟩ := History.moment_of_drop (h := s.history) 5
      (p := fun n e _ => n.shutdown?.isSome && (e.updating == false && e.lines.toList == [0])) (by decide +kernel)
    rw [Bool.and_eq_true, Bool.and_eq_true, Option.isSome_iff_exists, beq_iff_eq, beq_iff_eq] at hp
    obtain ⟨⟨ending, hn⟩, hu, hlines⟩ := hp
    obtain ⟨rest, new, e', hlater, hfree, -⟩ := hall later past n e ending hm hn
    rw [hu] at hlater
    exact ⟨later, past, rest, new, n, e, e', ending, hm, hn, hlater, hlines, hfree hu⟩
  · obtain ⟨later, n, e, past, hm, hp⟩ := History.moment_of_drop (h := s.history) 42
      (p := fun n e _ => n.shutdown?.isSome && (e.updating == true && e.lines.toList == [0])) (by decide +kernel)
    rw [Bool.and_eq_true, Bool.and_eq_true, Option.isSome_iff_exists, beq_iff_eq, beq_iff_eq] at hp
    obtain ⟨⟨ending, hn⟩, hu, hlines⟩ := hp
    obtain ⟨rest, new, e', hlater, -, hkeeps⟩ := hall later past n e ending hm hn
    obtain ⟨hnew, -, hkept, -, -, hupdate⟩ := hkeeps hu
    rw [hu] at hlater
    exact ⟨later, past, rest, new, n, e, e', ending, hm, hn, hlater, hnew, hkept ▸ hlines, hupdate 1⟩

end PortExpander
