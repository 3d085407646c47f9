import PortExpander.Proofs.OnePass
import PortExpander.Proofs.Word

/-!
# After a fault

A fault can end a step anywhere: in a handler, in the middle of a transaction, while registers are located, or in a wait of the
worker. It may leave `busy` in the status word, and the work that the pass had taken is gone. The pass is over all the same, so the
next one can begin, and whatever was requested after the pass had taken the word is still in it. The next pass that is made releases
`busy`.
-/

namespace PortExpander

open Sim Engine

/-! ## Halting -/

/-- What an event tells of a halt: the word is cleared right after a pass has taken it, and an update that is told to be stopped has
found the extender halted or has halted it. -/
def Event.Halts (past : History) : Event → Prop
  | logged (.halting _) => past.acts.head? = some .take
  | noted (.updated .stopped) e => e.halted = true
  | _ => True

/-- Every halt of which a history tells has come about like this. -/
def History.Halts : History → Prop
  | [] => True
  | ev :: past => ev.Halts past ∧ Halts past

namespace History.Halts

theorem of_append (new : History) {h : History} (hh : Halts (new ++ h)) : h.Halts := by
  induction new with
  | nil => exact hh
  | cons ev new ih => exact ih hh.2

/-- The word is cleared only right after it has been taken. -/
theorem cleared {ev : Event} {past : History} (hh : ev.Halts past) (ha : ev.act? = some .clear) :
    past.acts.head? = some .take := by
  cases ev with
  | logged r => cases r <;> first | exact hh | cases ha
  | noted n e =>
    cases n with
    | updated p => cases p <;> cases ha
    | _ => cases ha
  | _ => cases ha

/-- What has been requested and no pass has taken has not been cleared either. -/
theorem requested {h : History} (hh : h.Halts) {i : Nat} (hr : Status.Requested i (h.acts.takeWhile (· ≠ .take))) :
    Status.Requested i (h.acts.takeWhile (!·.empties)) := by
  induction h with
  | nil => exact hr
  | cons ev past ih =>
    have hpast := ih hh.2
    rw [acts_cons] at hr ⊢
    cases ha : ev.act? with
    | none =>
      rw [ha] at hr
      exact hpast hr
    | some a =>
      rw [ha, Option.toList_some, List.singleton_append] at hr
      rw [Option.toList_some, List.singleton_append]
      cases a with
      | request bits =>
        rw [List.takeWhile_cons_of_pos (by simp), Status.requested_cons] at hr
        rw [List.takeWhile_cons_of_pos rfl, Status.requested_cons]
        exact hr.imp id hpast
      | release =>
        rw [List.takeWhile_cons_of_pos (by simp), Status.requested_cons_of_ne rfl] at hr
        rw [List.takeWhile_cons_of_pos rfl, Status.requested_cons_of_ne rfl]
        exact hpast hr
      | take =>
        rw [List.takeWhile_cons_of_neg (by simp)] at hr
        exact (Status.not_requested_nil hr).elim
      | clear =>
        -- the pass that clears the word has just taken it, so nothing has been requested since
        obtain ⟨older, hacts⟩ := List.head?_eq_some_iff.1 (cleared hh.1 ha)
        rw [List.takeWhile_cons_of_pos (by simp), Status.requested_cons_of_ne rfl, hacts,
          List.takeWhile_cons_of_neg (by simp)] at hr
        exact (Status.not_requested_nil hr).elim

end History.Halts

/-- A touch halts nothing. -/
theorem Touch.halts {s s' : State} (h : Touch s s') (hs : s.history.Halts) : s'.history.Halts := by
  cases h with
  | see ev hq =>
    cases ev with
    | logged r => cases r <;> first | exact ⟨trivial, hs⟩ | cases hq
    | _ => first | exact ⟨trivial, hs⟩ | cases hq
  | note n hn => cases n <;> first | exact ⟨trivial, hs⟩ | cases hn
  | write | attach | detach | board | unwire => exact hs
  | _ => exact ⟨trivial, hs⟩

/-- What happens in a pass halts nothing. -/
theorem Work.halts {s s' : State} (h : Work s s') (hs : s.history.Halts) : s'.history.Halts := by
  cases h with
  | touch h => exact h.halts hs
  | record a r => cases r <;> first | exact hs | exact ⟨trivial, hs⟩
  | answer | look | edge | call => exact ⟨trivial, hs⟩
  | _ => exact hs

/-- Every halt comes about like this. -/
theorem Move.halts {s s' : State} (h : Move s s') (hs : s.history.Halts) : s'.history.Halts := by
  cases h with
  | touch h => exact h.halts hs
  | work _ _ h => exact h.halts hs
  | refuse _ hh => exact ⟨hh, hs⟩
  | stop => exact ⟨rfl, rfl, trivial, hs⟩
  | begin pending =>
    unfold State.started
    split
    · exact ⟨trivial, trivial, hs⟩
    · exact ⟨trivial, hs⟩
  | complete clean =>
    cases clean with
    | true => exact ⟨trivial, hs⟩
    | false => exact ⟨trivial, trivial, hs⟩
  | _ => exact ⟨trivial, hs⟩

/-- In every session halts come about like this. -/
theorem Moves.halts {s₀ s : State} (h : Moves s₀ s) (h₀ : s₀.history = []) : s.history.Halts := by
  induction h with
  | refl =>
    rw [h₀]
    exact trivial
  | tail _ h ih => exact h.halts ih

/-! ## What is still pending -/

theorem Status.Requested.mono {i : Nat} {acts acts' : List Act} (h : Requested i acts) (hs : ∀ a ∈ acts, a ∈ acts') :
    Requested i acts' := by
  obtain ⟨bits, hm, hi⟩ := h
  exact ⟨bits, hs _ hm, hi⟩

/-- `busy` is never requested. -/
theorem State.Worded.not_requested_busy {s : State} (hs : s.Worded) : ¬Status.Requested 4 s.history.acts := by
  rintro ⟨bits, hm, hi⟩
  rw [← hs.named bits hm, Status.getLsbD_pending, bne_self_eq_false, Bool.and_false] at hi
  cases hi

/-- Whatever has been requested and no pass has taken is in the word that the acts make. -/
theorem History.Halts.getLsbD_word {h : History} (hh : h.Halts) (hb : ¬Status.Requested 4 h.acts) {i : Nat}
    (hr : Status.Requested i (h.acts.takeWhile (· ≠ .take))) : (Status.word h.acts).bits.getLsbD i = true := by
  have hi : i ≠ 4 := by
    rintro rfl
    exact hb (hr.mono fun _ ha => List.takeWhile_subset _ ha)
  exact (Status.getLsbD_word hi).2 (hh.requested hr)

/-! ## Moments -/

/-- What the moment of a note knows, whatever has been cut short before it. The extender is held by a pass just as long as one is at
work, so an update is contended only in the middle of a pass. An update that comes to its end leaves the extender halted if it is
stopped, and `busy` cleared if not. What has been requested and no pass has taken is pending. -/
structure Note.Recovers (n : Note) (e : Extender) (past : History) : Prop where
  free : e.updating = false ↔ History.stage (.noted n e :: past) = .rest
  contended : n = .updated .contended → past.stage ≠ .rest
  stopped : n = .updated .stopped → e.halted = true
  released : n = .updated .idle ∨ n = .updated .ran → e.status.contains Status.busy = false
  pending : ∀ i, Status.Requested i ((History.acts (.noted n e :: past)).takeWhile (· ≠ .take)) → e.status.bits.getLsbD i = true

theorem History.Orderly.of_append (new : History) {h : History} (ho : Orderly (new ++ h)) : h.Orderly := by
  induction new with
  | nil => exact ho
  | cons ev new ih => exact ih ho.2

/-- A released word is not busy. -/
theorem Status.contains_busy_release (w : Status) : w.release.contains busy = false := by
  rw [← Bool.not_eq_true]
  intro h
  have hw : w.release.bits.getLsbD 4 = true := FlagSet.contains_iff.1 h 4 (by rw [getLsbD_busy]; rfl)
  rw [getLsbD_release, bne_self_eq_false, Bool.and_false] at hw
  cases hw

/-- Every moment of a session recovers from what came before it. -/
theorem Moves.recovers {s₀ s : State} (h : Moves s₀ s) (hmade : Made s₀.extender) (h₀ : s₀.history = []) {later past : History}
    {n : Note} {e : Extender} (hm : s.history = later ++ .noted n e :: past) : n.Recovers e past := by
  have hworded := h.worded hmade h₀
  obtain ⟨-, horderly⟩ := h.orderly h₀ hmade.updating
  obtain ⟨⟨hfollows, hstage⟩, -⟩ := (hm ▸ horderly).of_append later
  obtain ⟨hword, -, -, -⟩ := (hm ▸ hworded.history).of_append later
  have hhalts := (hm ▸ h.halts h₀).of_append later
  have hacts : ∀ a ∈ History.acts (.noted n e :: past), a ∈ s.history.acts := by
    intro a ha
    rw [hm, History.acts, List.filterMap_append]
    exact List.mem_append_right _ ha
  refine ⟨?_, ?_, ?_, ?_, fun i hr => ?_⟩
  · rw [← Bool.not_eq_true, hstage, Decidable.not_not]
  · rintro rfl
    exact hfollows
  · rintro rfl
    exact hhalts.1
  · rintro (rfl | rfl) <;> rw [hword] <;> exact Status.contains_busy_release _
  · rw [hword]
    exact hhalts.getLsbD_word (fun hb => hworded.not_requested_busy (hb.mono hacts)) hr

/-! ## The next update and the next shutdown -/

/-- An update that finds no other pass at work is not contended. -/
theorem Updates.ne_contended {s s' : State} {p : Pass} (h : Updates s p s') : p ≠ .contended := by
  cases h <;> nofun

/-- An update that is told to be stopped leaves the extender halted. -/
theorem Updates.halted_of_stopped {s s' : State} (h : Updates s .stopped s') : s'.extender.halted = true := by
  cases h with
  | halted hh => exact hh
  | stops => rfl

/-- An update that is not told to be stopped leaves the word released. -/
theorem Updates.released {s s' : State} {p : Pass} (h : Updates s p s') (hp : p ≠ .stopped) :
    s'.extender.status.contains Status.busy = false := by
  cases h with
  | halted | stops => exact (hp rfl).elim
  | idles => exact Status.contains_busy_release _
  | ran => exact Status.contains_busy_release _

/-- An extender that is stopped and has no stop among its work has halted. -/
theorem Extender.halted_of_isStopped {e : Extender} (hs : e.isStopped = true) (hw : e.work.contains Status.stop = false) :
    e.halted = true := by
  cases hh : e.halted with
  | true => rfl
  | false => rw [Extender.not_isStopped hh hw] at hs; cases hs

/-- An update of a stopped extender is told to be stopped. -/
theorem Updates.stopped_of_isStopped {s s' : State} {p : Pass} (h : Updates s p s') (hs : s.extender.isStopped = true) :
    p = .stopped := by
  cases h with
  | halted | stops => rfl
  | idles hh hw | ran hh hw =>
    rw [Extender.halted_of_isStopped hs hw] at hh
    cases hh

/-- Some lines are let go of, one after the other. -/
def History.freeing (lines : List Nat) : History := (lines.map .released).reverse

/-- The state after the lines that are held have been let go of. -/
def State.freed (s : State) : State :=
  ⟨{ s.extender with lines := .none }, s.board, .freeing s.extender.lines.toList ++ s.history⟩

/-- Letting go of lines is done at once while no pass is at work. -/
theorem releaseLines_apply {s : State} (hu : s.extender.updating = false) : releaseLines s = (.ok (), s.freed) := by
  have heach (lines : List Nat) (s : State) : (lines.forM fun line => emit (.released line)) s =
      (.ok (), ⟨s.extender, s.board, .freeing lines ++ s.history⟩) := by
    induction lines generalizing s with
    | nil => rfl
    | cons line lines ih =>
      have hemit : emit (.released line) s = (.ok (), s.seeing (.released line)) := rfl
      show ((emit (.released line)) >>= fun _ => lines.forM fun line => emit (.released line)) s = _
      rw [Sim.bind_of_ok hemit, ih]
      simp [State.seeing, History.freeing]
  unfold releaseLines
  show (if s.extender.updating = true then _ else _ : Sim Unit) s = _
  rw [hu, if_neg Bool.false_ne_true]
  exact heach _ _

/-- The lines cannot be let go of while a pass is at work. -/
theorem releaseLines_of_held {s : State} (hu : s.extender.updating = true) : releaseLines s = (.error .portLocked, s) := by
  unfold releaseLines
  show (if s.extender.updating = true then _ else _ : Sim Unit) s = _
  rw [if_pos hu]
  rfl

section

variable {nest : Nest} (hp : Plays nest) {s : State} (hu : s.extender.updating = false)

include hp hu

/-- No work is done on an extender that is stopped, so nothing can go wrong. -/
theorem gives_update_of_stopped (hs : s.extender.isStopped = true) :
    (update nest).Gives s (fun p s' => p = .stopped ∧ Updates s .stopped s') (fun _ => False) := by
  refine (gives_update_of_free hp.guest hu).mono (fun p s' h => ?_) fun s' h => ?_
  · obtain rfl := h.stopped_of_isStopped hs
    exact ⟨rfl, h⟩
  · obtain ⟨_, hh, hw, _⟩ := h
    rw [Extender.halted_of_isStopped hs hw] at hh
    cases hh

/-- A shutdown made while no pass is at work requests the stop, which its first update finds, and lets go of the lines. -/
theorem gives_shutdown_frees : (shutdown nest).Gives s
    (fun b s' => b = true ∧ ∃ s₁, Updates ((s.asking .stop).seeing .notified) .stopped s₁ ∧ s' = s₁.freed) (fun _ => False) := by
  let asked : State := (s.asking .stop).seeing .notified
  have hstopped : asked.extender.isStopped = true :=
    Extender.isStopped_iff.2 (.inr (FlagSet.contains_union_right _ (FlagSet.contains_refl _)))
  unfold shutdown
  simp only [gives_bind, gives_request, gives_notify]
  rw [teardownRetries, awaitHalt, gives_bind]
  refine (gives_update_of_stopped (s := asked) hp hu hstopped).mono (fun p s₁ h => ?_) fun _ h => h
  obtain ⟨rfl, hupdates⟩ := h
  rw [if_pos rfl, gives_bind]
  unfold Gives
  rw [releaseLines_apply hupdates.updating]
  exact ⟨rfl, s₁, hupdates, rfl⟩

/-- A shutdown made while no pass is at work succeeds. -/
theorem gives_shutdown_of_free :
    (shutdown nest).Gives s (fun b s' => b = true ∧ s'.extender.IsShut) (fun _ => False) := by
  refine (gives_shutdown_frees hp hu).mono (fun b s' h => ?_) fun _ h => h
  obtain ⟨hb, s₁, hupdates, rfl⟩ := h
  exact ⟨hb, hupdates.halted_of_stopped, hupdates.updating, rfl⟩

end

/-! ## Faults wedge nothing -/

/-- No fault wedges the extender. At every moment of every session, also after steps that faults have ended in the middle of passes,
the extender is held by a pass just as long as one is at work, and what has been requested and no pass has taken is pending; between two
steps no pass holds it. Operations that begin while no pass is at work leave none at work, whether or not a fault ends them. The next
update is not contended: it leaves the extender halted if it is stopped, and `busy` cleared if not. And a shutdown succeeds. -/
theorem faults_wedge_nothing :
    (∀ s, Reachable s → s.extender.updating = false ∧
      (∀ i, Status.Requested i (s.history.acts.takeWhile (· ≠ .take)) → s.extender.status.bits.getLsbD i = true) ∧
      ∀ (later : History) n e (past : History), s.history = later ++ .noted n e :: past → n.Recovers e past) ∧
    ∀ (s : State) (depth : Nat), s.extender.updating = false →
      (∀ ops, (Session.nestAt depth ops s).2.extender.updating = false) ∧
      (update (Session.nestAt depth)).Gives s
        (fun p s' => p ≠ .contended ∧ s'.extender.updating = false ∧ (p = .stopped → s'.extender.halted = true) ∧
          (p ≠ .stopped → s'.extender.status.contains Status.busy = false))
        (fun s' => s'.extender.updating = false) ∧
      (Session.perform (Session.nestAt depth) .shutdown).Gives s (fun r s' => r = .bit true ∧ s'.extender.IsShut) (fun _ => False) := by
  refine ⟨fun s hs => ?_, fun s depth hu => ?_⟩
  · obtain ⟨e₀, board, hmade, hgo, hu⟩ := hs.goes
    have hworded := hgo.moves.worded hmade rfl
    refine ⟨hu, fun i hr => ?_, fun later n e past hm => hgo.moves.recovers hmade rfl hm⟩
    rw [hworded.now]
    exact (hgo.moves.halts rfl).getLsbD_word hworded.not_requested_busy hr
  · have hp := Session.plays_nestAt depth
    refine ⟨fun ops => ?_, ?_, ?_⟩
    · exact Sim.gives_iff.1 ((hp.leads ops s).mono (fun _ _ h => h.updating.trans hu) fun _ h => h.updating.trans hu)
    · refine (gives_update_of_free hp.guest hu).mono (fun p s' h => ?_) fun s' h => ?_
      · refine ⟨h.ne_contended, h.updating, ?_, h.released⟩
        rintro rfl
        exact h.halted_of_stopped
      · obtain ⟨_, _, _, _, rfl⟩ := h
        rfl
    · unfold Session.perform
      rw [gives_bind]
      refine (gives_shutdown_of_free hp hu).mono (fun b s' h => ⟨?_, h.2⟩) fun _ h => h
      rw [h.1]

/-- The fault that a note tells to have ended a step or an operation. -/
def Note.fault? : Note → Option Fault
  | stepEnded _ (.fault f) | opEnded _ (.fault f) => some f
  | _ => none

/-- The pass of an update is interrupted and then cut short in its first transaction. The interrupt is still pending and `busy` is left
in the word, but the extender is free for the next update, which releases it, and can be shut down. -/
theorem faults_wedge_nothing_of_cut :
    let s := State.oneChip [.claim 0, .op (.call (.setup 0 PinAttributes.output)),
      .op (.hook 0 [.call (.interrupt 0), .panic]), .op .update]
    (s.history.any fun ev => ev.note?.any (·.1.fault? == some .handlerPanic)) = true ∧ s.extender.updating = false ∧
    s.extender.status.contains Status.busy = true ∧ s.extender.status.bits.getLsbD 5 = true ∧
    (update (Session.nestAt 1)).Gives s (fun p s' => p ≠ .contended ∧ s'.extender.updating = false ∧
      (p = .stopped → s'.extender.halted = true) ∧ (p ≠ .stopped → s'.extender.status.contains Status.busy = false))
      (fun s' => s'.extender.updating = false) ∧
    (Session.perform (Session.nestAt 1) .shutdown).Gives s (fun r s' => r = .bit true ∧ s'.extender.IsShut) (fun _ => False) := by
  intro s
  have hr : Reachable s := reachable_oneChip _
  obtain ⟨hu, hpending, -⟩ := faults_wedge_nothing.1 s hr
  obtain ⟨-, hupdate, hshutdown⟩ := faults_wedge_nothing.2 s 1 hu
  have hinterrupt : s.extender.status.bits.getLsbD 5 = true := hpending 5 ⟨.isrPending, by decide +kernel, by decide⟩
  exact ⟨by decide +kernel, hu, by decide +kernel, hinterrupt, hupdate, hshutdown⟩

end PortExpander
