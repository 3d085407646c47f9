import Mathlib.Data.List.TakeWhile
import PortExpander.Proofs.Phases

/-!
# Passes in histories

A history records each pass that no fault has cut short: the notes of its beginning and its end, and what lies between them.
Every pass that is recorded has been made by an update of a state between happenings, so what is known of such states and of the
phases of a pass is known of all passes of all sessions.
-/

namespace PortExpander

open Sim Engine

/-! ## Since the latest pass began -/

/-- Whether an event is the note of the beginning of a pass. -/
def Event.isBegin : Event → Bool
  | noted (.passBegan _) _ => true
  | _ => false

/-- Whether an event is the note of the end of a pass. -/
def Event.isEnd : Event → Bool
  | noted (.passEnded _) _ => true
  | _ => false

/-- Whether an event is the note of an update that found nothing to do. -/
def Event.isIdle : Event → Bool
  | noted (.updated .idle) _ => true
  | _ => false

/-- Whether an event is the note of the beginning or the end of a pass, of a pass that a fault has cut short, or of an update that
found nothing to do. -/
def Event.isMark (ev : Event) : Bool := ev.isBegin || ev.isEnd || ev.isCut || ev.isIdle

/-- A note that is of no stage of a pass is no mark. -/
theorem Event.not_isMark {ev : Event} (h : ∀ n e, ev = .noted n e → n.isStage = false) : ev.isMark = false := by
  cases ev with
  | noted n e =>
    have hn := h n e rfl
    cases n with
    | updated p => cases p <;> first | rfl | cases hn
    | _ => first | rfl | cases hn
  | _ => rfl

namespace History

/-- No pass has begun, ended or been cut short in a part of a history, and no update has found nothing to do. -/
def Plain (h : History) : Prop := ∀ ev ∈ h, ev.isMark = false

/-- What has happened since the latest pass began. -/
def recent (h : History) : History := h.takeWhile (!·.isBegin)

theorem Plain.nil : Plain [] := fun _ h => absurd h List.not_mem_nil

theorem Plain.cons {ev : Event} {h : History} (hev : ev.isMark = false) (hp : h.Plain) : Plain (ev :: h) := by
  intro ev' hm
  rcases List.mem_cons.1 hm with rfl | hm
  · exact hev
  · exact hp ev' hm

theorem Plain.append {h h' : History} (hp : h.Plain) (hp' : h'.Plain) : Plain (h ++ h') :=
  fun ev hm => (List.mem_append.1 hm).elim (hp ev) (hp' ev)

/-- In a part without marks no pass begins. -/
theorem Plain.begins {h : History} (hp : h.Plain) : ∀ ev ∈ h, ev.isBegin = false := by
  intro ev hm
  have := hp ev hm
  simp only [Event.isMark, Bool.or_eq_false_iff] at this
  exact this.1.1.1

/-- In a part without marks no pass ends. -/
theorem Plain.ends {h : History} (hp : h.Plain) : ∀ ev ∈ h, ev.isEnd = false := by
  intro ev hm
  have := hp ev hm
  simp only [Event.isMark, Bool.or_eq_false_iff] at this
  exact this.1.1.2

/-- In a part without marks no pass is cut short. -/
theorem Plain.uncut {h : History} (hp : h.Plain) : h.Uncut := by
  intro ev hm
  have := hp ev hm
  simp only [Event.isMark, Bool.or_eq_false_iff] at this
  exact this.1.2

/-- In a part without marks no update finds nothing to do. -/
theorem Plain.idles {h : History} (hp : h.Plain) : ∀ ev ∈ h, ev.isIdle = false := by
  intro ev hm
  have := hp ev hm
  simp only [Event.isMark, Bool.or_eq_false_iff] at this
  exact this.2

theorem recent_append {h h' : History} (hb : ∀ ev ∈ h, ev.isBegin = false) : recent (h ++ h') = h ++ h'.recent :=
  List.takeWhile_append_of_pos fun ev hm => by rw [hb ev hm]; rfl

theorem recent_begin (w : Status) (e : Extender) (h : History) : recent (.noted (.passBegan w) e :: h) = [] := rfl

/-- Where a pass has begun, a history has one last beginning. -/
theorem begin_unique {h h' past past' : History} {w w' : Status} {e e' : Extender} (hb : ∀ ev ∈ h, ev.isBegin = false)
    (hb' : ∀ ev ∈ h', ev.isBegin = false)
    (heq : h ++ .noted (.passBegan w) e :: past = h' ++ .noted (.passBegan w') e' :: past') :
    h = h' ∧ w = w' ∧ e = e' ∧ past = past' := by
  have hsame : h = h' := by
    have := congrArg recent heq
    rwa [recent_append hb, recent_append hb', recent_begin, recent_begin, List.append_nil, List.append_nil] at this
  subst hsame
  cases List.append_cancel_left heq
  exact ⟨rfl, rfl, rfl, rfl⟩

end History

/-! ## Recorded passes -/

/-- A pass in a history: the work it had to do, the memory at its beginning, what happened in it, whether all its transactions
succeeded, the memory at its end, and what happened before it. -/
structure PassRecord where
  pending : Status
  before : Extender
  body : History
  clean : Bool
  after : Extender
  past : History

/-- A history records a pass. -/
def History.Records (h : History) (p : PassRecord) : Prop :=
  (∃ later, h = later ++ .noted (.passEnded p.clean) p.after ::
    (p.body ++ .noted (.passBegan p.pending) p.before :: p.past)) ∧ ∀ ev ∈ p.body, ev.isBegin = false

/-- The pass of which the end comes in a history after some events. -/
def History.pass? (h : History) (k : Nat) : Option PassRecord :=
  match h.drop k with
  | .noted (.passEnded clean) after :: rest =>
    match rest.dropWhile (!·.isBegin) with
    | .noted (.passBegan pending) before :: past => some { pending, before, body := recent rest, clean, after, past }
    | _ => none
  | _ => none

/-- The pass that is found is recorded. -/
theorem History.records_of_pass? {h : History} {k : Nat} {p : PassRecord} (hk : h.pass? k = some p) : h.Records p := by
  unfold pass? at hk
  split at hk
  · rename_i clean after rest hd
    split at hk
    · rename_i pending before past hw
      cases hk
      refine ⟨⟨h.take k, ?_⟩, fun ev hm => ?_⟩
      · dsimp only
        rw [← hw, recent, List.takeWhile_append_dropWhile, ← hd, List.take_append_drop]
      · simpa using List.mem_takeWhile_imp hm
    · cases hk
  · cases hk

/-- An event that is not among the new ones of a history is among the old ones. -/
theorem History.split_of_append {new h later older : History} {ev : Event} (heq : new ++ h = later ++ ev :: older)
    (hno : ev ∉ new) : ∃ later', h = later' ++ ev :: older := by
  rcases List.append_eq_append_iff.1 heq with ⟨later', _, hh⟩ | ⟨rest, hnew, hh⟩
  · exact ⟨later', hh⟩
  · cases rest with
    | nil => exact ⟨[], hh.symm⟩
    | cons ev' rest =>
      rw [List.cons_append] at hh
      rw [hnew, (List.cons.inj hh).1] at hno
      exact absurd (List.mem_append_right _ List.mem_cons_self) hno

/-- Events that end no pass have not recorded one. -/
theorem History.Records.of_append (new : History) {h : History} {p : PassRecord} (hp : History.Records (new ++ h) p)
    (hn : ∀ ev ∈ new, ev.isEnd = false) : h.Records p := by
  obtain ⟨⟨later, hh⟩, hb⟩ := hp
  exact ⟨split_of_append hh fun hm => absurd (hn _ hm) (by simp [Event.isEnd]), hb⟩

/-- An update of the state `s` has begun a pass with the state `t`: it has taken the work, with the memory `e` then, when `older`
had happened. -/
structure State.Begins (s t : State) (work : Status) (e : Extender) (older : History) : Prop where
  updating : s.extender.updating = false
  halted : s.extender.halted = false
  pending : work = s.extender.work
  before : e = s.held.taken.extender
  past : older = (s.held.taken.started s.extender.work).history
  begun : t = (s.held.taken.started s.extender.work).noting (.passBegan s.extender.work)

/-- How a recorded pass has come about: an update of the state `s` has begun it with the state `t`, and it has done its work when it
came to the state `t'`. -/
structure PassRecord.Stems (p : PassRecord) (s t t' : State) : Prop extends s.Begins t p.pending p.before p.past where
  carries : Carries p.pending t p.clean t'
  works : Works t t'
  body : ∃ ending done : History, p.body = ending ++ done ∧ t'.history = done ++ t.history ∧
    ∀ ev ∈ ending, ∃ bits, ev = .noted (.requested bits) p.after
  after : p.after = (t'.completed p.clean).extender

/-- The work of a pass marks neither a beginning nor an end. -/
theorem Works.history {s s' : State} (h : Works s s') : ∃ new : History, s'.history = new ++ s.history ∧ new.Plain := by
  induction h with
  | refl => exact ⟨[], rfl, .nil⟩
  | tail _ h ih =>
    obtain ⟨new, hh, hp⟩ := ih
    rcases h.history with he | ⟨ev, he, hn⟩
    · exact ⟨new, he.trans hh, hp⟩
    · exact ⟨ev :: new, by rw [he, hh, List.cons_append], .cons (Event.not_isMark fun n e heq => (hn n e heq).1) hp⟩

/-- Before a pass begins its work is taken, which marks nothing and calls no handler. -/
theorem State.history_ready (s : State) (pending : Status) :
    ∃ new : History, (s.held.taken.started pending).history = new ++ s.history ∧ new.Plain ∧ new.calls = [] ∧
      ∀ n e, .noted n e ∈ new → n = .took s.extender.status.pending ∧ e = s.held.taken.extender := by
  rcases s.held.taken.history_started pending with hh | ⟨r, hh⟩
  · refine ⟨[.noted (.took s.extender.status.pending) s.held.taken.extender], hh, .cons rfl .nil, rfl, fun n e hm => ?_⟩
    cases List.mem_singleton.1 hm
    exact ⟨rfl, rfl⟩
  · refine ⟨[.logged r, .noted (.took s.extender.status.pending) s.held.taken.extender], hh, .cons rfl (.cons rfl .nil), rfl,
      fun n e hm => ?_⟩
    rcases List.mem_cons.1 hm with hm | hm
    · cases hm
    · cases List.mem_singleton.1 hm
      exact ⟨rfl, rfl⟩

/-- What a history tells from before a pass begins until its work is done: nothing marked but the beginning of the pass. -/
theorem Works.history_begun {s s₁ : State} {pending : Status}
    (h : Works ((s.held.taken.started pending).noting (.passBegan pending)) s₁) :
    ∃ done ready : History, s₁.history = (done ++ .noted (.passBegan pending) s.held.taken.extender :: ready) ++ s.history ∧
      done.Plain ∧ ready.Plain := by
  obtain ⟨done, hdone, hplain⟩ := h.history
  obtain ⟨ready, hready, hplain', _⟩ := s.history_ready pending
  refine ⟨done, ready, ?_, hplain, hplain'⟩
  rw [hdone, List.append_assoc, List.cons_append, ← hready, ← s.extender_begun pending]
  rfl

/-- From before a pass begins until its work is done, there is no end of a pass, no cut and no update that finds nothing to do. -/
theorem Works.unmarked {s s₁ : State} {pending : Status}
    (h : Works ((s.held.taken.started pending).noting (.passBegan pending)) s₁) :
    ∃ new : History, s₁.history = new ++ s.history ∧ (∀ ev ∈ new, ev.isEnd = false) ∧ new.Uncut ∧
      ∀ ev ∈ new, ev.isIdle = false := by
  obtain ⟨done, ready, hh, hdone, hready⟩ := h.history_begun
  refine ⟨_, hh, fun ev hm => ?_, fun ev hm => ?_, fun ev hm => ?_⟩ <;>
    rcases List.mem_append.1 hm with hm | hm
  · exact hdone.ends ev hm
  · rcases List.mem_cons.1 hm with rfl | hm
    · rfl
    · exact hready.ends ev hm
  · exact hdone.uncut ev hm
  · rcases List.mem_cons.1 hm with rfl | hm
    · rfl
    · exact hready.uncut ev hm
  · exact hdone.idles ev hm
  · rcases List.mem_cons.1 hm with rfl | hm
    · rfl
    · exact hready.idles ev hm

/-- At its end a pass may ask for everything, before the end is noted. -/
theorem State.history_completed (s : State) (clean : Bool) : ∃ ending : History,
    (s.completed clean).history = .noted (.passEnded clean) (s.completed clean).extender :: (ending ++ s.history) ∧
    ∀ ev ∈ ending, ∃ bits, ev = .noted (.requested bits) (s.completed clean).extender := by
  cases clean with
  | true => exact ⟨[], rfl, by simp⟩
  | false => exact ⟨[_], rfl, fun ev hm => ⟨_, List.mem_singleton.1 hm⟩⟩

/-- An update that is not cut short notes no cut, and that there was nothing to do only if it found so. -/
theorem Updates.unmarked {s s' : State} {p : Pass} (h : Updates s p s') :
    ∃ new : History, s'.history = new ++ s.history ∧ new.Uncut ∧ (p ≠ .idle → ∀ ev ∈ new, ev.isIdle = false) := by
  cases h with
  | halted => exact ⟨[_], rfl, by simp [History.Uncut, Event.isCut], fun _ => by simp [Event.isIdle]⟩
  | stops => exact ⟨[_, _, _], rfl, by simp [History.Uncut, Event.isCut], fun _ => by simp [Event.isIdle]⟩
  | idles => exact ⟨[_, _], rfl, by simp [History.Uncut, Event.isCut], fun h => absurd rfl h⟩
  | @ran s₀ s₁ clean _ _ _ h₀ _ hw =>
    obtain ⟨new, hnew, -, huncut, hidle⟩ := (h₀ ▸ hw).unmarked
    obtain ⟨ending, hending, hreq⟩ := s₁.history_completed clean
    have hh : ((letGo (s₁.completed clean).released).noting (.updated .ran)).history =
        (.noted (.updated .ran) (letGo (s₁.completed clean).released).extender ::
          .noted (.passEnded clean) (s₁.completed clean).extender :: (ending ++ new)) ++ s.history := by
      rw [List.cons_append, List.cons_append, List.append_assoc, ← hnew, ← hending]
      rfl
    have hmarks (ev : Event) (hm : ev ∈ ending) : ev.isCut = false ∧ ev.isIdle = false := by
      obtain ⟨bits, rfl⟩ := hreq ev hm
      exact ⟨rfl, rfl⟩
    refine ⟨_, hh, ?_, fun _ => ?_⟩ <;> simp only [History.Uncut, List.forall_mem_cons, List.forall_mem_append]
    · exact ⟨rfl, rfl, fun ev hm => (hmarks ev hm).1, huncut⟩
    · exact ⟨rfl, rfl, fun ev hm => (hmarks ev hm).2, hidle⟩

namespace State.Begins

variable {s t : State} {work : Status} {e : Extender} {older : History}

/-- The memory at the beginning of a pass. -/
theorem extender (h : s.Begins t work e older) : t.extender = e := by
  rw [h.begun, State.extender_begun, h.before]

/-- A pass begins with a note. -/
theorem history (h : s.Begins t work e older) : t.history = .noted (.passBegan work) e :: older := by
  rw [h.past, ← h.extender, h.pending, h.begun]
  rfl

/-- All changes have been noted when a pass begins. -/
theorem told (h : s.Begins t work e older) : t.Told := ⟨t.extender, by rw [h.history, h.extender]; rfl, .refl _⟩

/-- Between the state in which an update begins and the beginning of its pass there is one note, of its taking the work. -/
theorem ready (h : s.Begins t work e older) : ∃ ready : History, older = ready ++ s.history ∧ ready.Plain ∧ ready.calls = [] ∧
    ∀ n e, .noted n e ∈ ready → n = .took s.extender.status.pending ∧ e = s.held.taken.extender := by
  obtain ⟨ready, hready, hplain, hcalls, hnotes⟩ := s.history_ready s.extender.work
  exact ⟨ready, h.past.trans hready, hplain, hcalls, hnotes⟩

end State.Begins

namespace PassRecord.Stems

variable {p : PassRecord} {s t t' : State}

/-- What happens in a pass marks no beginning or end of another one. -/
theorem plain (h : p.Stems s t t') : p.body.Plain := by
  obtain ⟨ending, done, hbody, hdone, hend⟩ := h.body
  obtain ⟨new, hnew, hplain⟩ := h.works.history
  obtain rfl := State.new_unique hnew hdone
  rw [hbody]
  refine History.Plain.append (fun ev hm => ?_) hplain
  obtain ⟨bits, rfl⟩ := hend ev hm
  rfl

end PassRecord.Stems

/-- What a happening adds to a history, as far as passes go: no part of a pass, a pass that is cut short, or a whole pass. -/
inductive State.Adds (s s' : State) (new : History) : Prop where
  | none : (∀ ev ∈ new, ev.isBegin = false ∧ ev.isEnd = false) → new.calls = [] →
      s'.extender.shadow.input = s.extender.shadow.input → Adds s s' new
  | cut : (∀ ev ∈ new, ev.isEnd = false) → ¬new.Uncut → Adds s s' new
  | pass {p : PassRecord} {t t' : State} {ready : History} : p.Stems s t t' → p.past = ready ++ s.history → ready.Plain →
      ready.calls = [] → s'.extender.shadow.input = p.after.shadow.input →
      new = .noted (.updated .ran) s'.extender :: .noted (.passEnded p.clean) p.after ::
        (p.body ++ .noted (.passBegan p.pending) p.before :: ready) → Adds s s' new

/-- What a happening adds to a history, as far as passes go. -/
theorem Happening.passes {s s' : State} (h : Happening s s') : ∃ new, s'.history = new ++ s.history ∧ s.Adds s' new := by
  cases h with
  | touch h =>
    have hi := h.frame.input
    rcases h.history with hh | ⟨ev, hh, hw, hn⟩
    · exact ⟨[], hh, .none (by simp) rfl hi⟩
    · have hmark : History.Plain [ev] := .cons (Event.not_isMark fun n e he => (hn n e he).1) .nil
      have hquiet := History.quiet_of_no_work (h := [ev]) (by simp [hw])
      exact ⟨[ev], hh, .none (fun ev' hm => ⟨hmark.begins ev' hm, hmark.ends ev' hm⟩) hquiet.2.2 hi⟩
  | began | ended | claim | free => exact ⟨[_], rfl, .none (by simp [Event.isBegin, Event.isEnd]) rfl rfl⟩
  | cut _ h =>
    obtain ⟨s₁, _, _, hb, rfl⟩ := h
    have hw := hb.works
    obtain ⟨new, hnew, hends, _⟩ := hw.unmarked
    refine ⟨.noted .passCut (letGo s₁).extender :: new, by rw [List.cons_append, ← hnew]; rfl, .cut ?_ fun hu => ?_⟩
    · intro ev hm
      rcases List.mem_cons.1 hm with rfl | hm
      · rfl
      · exact hends ev hm
    · cases hu _ List.mem_cons_self
  | update q hu h =>
    cases h with
    | halted => exact ⟨[_], rfl, .none (by simp [Event.isBegin, Event.isEnd]) rfl rfl⟩
    | stops => exact ⟨[_, _, _], rfl, .none (by simp [Event.isBegin, Event.isEnd]) rfl rfl⟩
    | idles => exact ⟨[_, _], rfl, .none (by simp [Event.isBegin, Event.isEnd]) rfl rfl⟩
    | @ran s₀ s₁ clean hh _ _ h₀ hc hw =>
      obtain ⟨ready, hready, hplain, hcalls, -⟩ := s.history_ready s.extender.work
      obtain ⟨done, hdone, -⟩ := hw.history
      obtain ⟨ending, hending, hreq⟩ := s₁.history_completed clean
      -- the record of the pass is read off the history between the notes of its beginning and of its end
      let p : PassRecord :=
        { pending := s.extender.work, before := s.held.taken.extender, body := ending ++ done, clean,
          after := (s₁.completed clean).extender, past := (s.held.taken.started s.extender.work).history }
      have hst : p.Stems s s₀ s₁ := ⟨⟨hu, hh, rfl, rfl, rfl, h₀⟩, hc, hw, ⟨ending, done, rfl, hdone, hreq⟩, rfl⟩
      refine ⟨_, ?_, .pass hst hready hplain hcalls rfl rfl⟩
      have hpast : s₀.history = .noted (.passBegan s.extender.work) s.held.taken.extender :: (ready ++ s.history) := by
        rw [h₀, ← hready, ← State.extender_started s.held.taken s.extender.work]
        rfl
      show .noted (.updated .ran) _ :: (s₁.completed clean).history = _
      rw [hending, hdone, hpast]
      simp [p]

/-- The passes that a happening adds to those recorded before stem from the state before it. -/
theorem Happening.records {s s' : State} (h : Happening s s') {p : PassRecord} (hp : s'.history.Records p) :
    s.history.Records p ∨ ∃ t t', p.Stems s t t' := by
  obtain ⟨new, hnew, hadds⟩ := h.passes
  rw [hnew] at hp
  cases hadds with
  | none hmark => exact .inl (hp.of_append new fun ev hm => (hmark ev hm).2)
  | cut hends => exact .inl (hp.of_append new hends)
  | @pass p' t t' ready hst hpast hplain _ _ hpass =>
    obtain ⟨⟨later, hl⟩, hb⟩ := hp
    subst hpass
    match later with
    | [] => cases hl
    | [ev] =>
      have hrest := (List.cons.inj (List.cons.inj hl).2).2
      rw [List.append_eq, List.append_assoc, List.cons_append, ← hpast] at hrest
      obtain ⟨hbody, hpending, hbefore, hpast'⟩ := History.begin_unique hst.plain.begins hb hrest
      obtain ⟨hclean, hafter⟩ := Event.noted.inj (List.cons.inj (List.cons.inj hl).2).1
      have hsame : p' = p := by
        cases p'
        cases p
        simp_all
      exact .inr ⟨t, t', hsame ▸ hst⟩
    | ev :: ev' :: later =>
      have hends : ∀ ev ∈ p'.body ++ .noted (.passBegan p'.pending) p'.before :: ready, ev.isEnd = false := by
        intro ev hm
        rcases List.mem_append.1 hm with hm | hm
        · exact hst.plain.ends ev hm
        · rcases List.mem_cons.1 hm with rfl | hm
          · rfl
          · exact hplain.ends ev hm
      exact .inl (History.Records.of_append _ ⟨⟨later, (List.cons.inj (List.cons.inj hl).2).2⟩, hb⟩ hends)

/-- Every pass that a session has recorded stems from a state on its way. -/
theorem Goes.exists_stems {s₀ s : State} (h : Goes s₀ s) (h₀ : s₀.history = []) {p : PassRecord} (hp : s.history.Records p) :
    ∃ s₁ t t', Goes s₀ s₁ ∧ p.Stems s₁ t t' := by
  induction h with
  | refl =>
    obtain ⟨⟨later, hl⟩, _⟩ := hp
    rw [h₀] at hl
    cases later <;> cases hl
  | @tail s₁ s₂ hgo h ih =>
    rcases h.records hp with hp | ⟨t, t', hst⟩
    · exact ih hp
    · exact ⟨s₁, t, t', hgo, hst⟩

end PortExpander
