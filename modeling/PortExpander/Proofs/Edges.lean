import Mathlib.Data.Nat.Bits
import PortExpander.Proofs.Dispatch

/-!
# Edges over whole runs

While a handler stays attached to a pin, each pass that changes the pin's input in the direction the handler waits for calls it
once, and nothing else calls it. The inputs that the memory keeps change in passes only, so none of their edges is lost and none
is reported twice, whatever fails and whoever makes the passes.
-/

namespace PortExpander

open Sim Engine

/-! ## Edges -/

/-- What an edge is, told by the level before and the level after: a rising edge leads from low to high, a falling edge from high to
low, and a change from either level to the other one. -/
def Edge.Occurs : Edge → Bool → Bool → Prop
  | rising, was, now => was = false ∧ now = true
  | falling, was, now => was = true ∧ now = false
  | change, was, now => was ≠ now

instance : ∀ (edge : Edge) (was now : Bool), Decidable (edge.Occurs was now)
  | .rising, was, now => inferInstanceAs (Decidable (was = false ∧ now = true))
  | .falling, was, now => inferInstanceAs (Decidable (was = true ∧ now = false))
  | .change, was, now => inferInstanceAs (Decidable (was ≠ now))

/-- A handler waits for the edges that its direction names. -/
theorem Edge.matches_eq (edge : Edge) (was now : Bool) : edge.matches was now = decide (edge.Occurs was now) := by
  cases edge <;> cases was <;> cases now <;> rfl

namespace History

/-- The memory at the beginning of the latest pass. -/
def before? : History → Option Extender
  | [] => none
  | .noted (.passBegan _) e :: _ => some e
  | _ :: past => before? past

/-- The memories at the beginning and at the end of each pass, the latest first. -/
def passes : History → List (Extender × Extender)
  | [] => []
  | .noted (.passEnded _) after :: past => (before? past).toList.map (·, after) ++ passes past
  | _ :: past => passes past

/-- In how many passes the input of a pin has made an edge. -/
def edges (h : History) (pin : Nat) (edge : Edge) : Nat :=
  h.passes.countP fun (before, after) => edge.Occurs (before.shadow.input.get pin) (after.shadow.input.get pin)

/-- What ends no pass adds none. -/
theorem passes_append {new h : History} (hn : ∀ ev ∈ new, ev.isEnd = false) : passes (new ++ h) = h.passes := by
  induction new with
  | nil => rfl
  | cons ev new ih =>
    have ih := ih fun ev hm => hn ev (List.mem_cons_of_mem _ hm)
    have hev := hn ev List.mem_cons_self
    cases ev with
    | noted n e =>
      cases n with
      | passEnded => cases hev
      | _ => exact ih
    | _ => exact ih

theorem before?_append {body h : History} {w : Status} {e : Extender} (hb : ∀ ev ∈ body, ev.isBegin = false) :
    before? (body ++ .noted (.passBegan w) e :: h) = some e := by
  induction body with
  | nil => rfl
  | cons ev body ih =>
    have ih := ih fun ev hm => hb ev (List.mem_cons_of_mem _ hm)
    have hev := hb ev List.mem_cons_self
    cases ev with
    | noted n e =>
      cases n with
      | passBegan => cases hev
      | _ => exact ih
    | _ => exact ih

/-- A whole pass is one more. -/
theorem passes_pass {body h : History} {w : Status} {before after : Extender} {clean : Bool} (hb : body.Plain) :
    passes (.noted (.passEnded clean) after :: (body ++ .noted (.passBegan w) before :: h)) = (before, after) :: h.passes := by
  rw [passes, before?_append hb.begins, passes_append hb.ends]
  rfl

end History

/-- What a run from one state to another says of a pin to which a handler is attached: the handler is called once for each edge
that it waits for, and the input of the pin has changed as often as there are edges in either direction. -/
structure Edged (pin : Nat) (h : Handler) (s s' : State) (run : History) : Prop where
  calls : run.callsOf pin = List.replicate (run.edges pin h.edge) h
  parity : s'.extender.shadow.input.get pin = (s.extender.shadow.input.get pin ^^ (run.edges pin .change).bodd)

namespace Edged

variable {pin : Nat} {h : Handler} {s s₁ s' : State} {run new : History}

theorem refl (s : State) : Edged pin h s s [] := ⟨rfl, by simp [History.edges, History.passes]⟩

/-- A part of no pass calls no handler and leaves the inputs alone. -/
theorem append (hr : Edged pin h s s₁ run) (hends : ∀ ev ∈ new, ev.isEnd = false) (hc : new.calls = [])
    (hi : s'.extender.shadow.input = s₁.extender.shadow.input) : Edged pin h s s' (new ++ run) where
  calls := by
    rw [History.callsOf_append, History.edges, History.passes_append hends, ← History.edges, hr.calls]
    simp [History.callsOf, hc]
  parity := by rw [History.edges, History.passes_append hends, ← History.edges, hi, hr.parity]

/-- A pass calls the handler if it changes the input in the direction that the handler waits for. -/
theorem pass {p : PassRecord} {t t' : State} {ready : History} {e : Extender} (hr : Edged pin h s s₁ run)
    (hst : p.Stems s₁ t t') (hwhole : s₁.extender.claims.Whole) (hplain : ready.Plain) (hc : ready.calls = []) (hslot : p.slot pin = some h)
    (hi : s'.extender.shadow.input = p.after.shadow.input) :
    Edged pin h s s' (.noted (.updated .ran) e :: .noted (.passEnded p.clean) p.after ::
      (p.body ++ .noted (.passBegan p.pending) p.before :: ready) ++ run) := by
  have hpasses : History.passes (.noted (.updated .ran) e :: .noted (.passEnded p.clean) p.after ::
      (p.body ++ .noted (.passBegan p.pending) p.before :: ready) ++ run) = (p.before, p.after) :: run.passes := by
    rw [List.cons_append, List.cons_append, List.append_assoc, List.cons_append]
    show History.passes (.noted (.passEnded p.clean) p.after :: _) = _
    rw [History.passes_pass hst.plain, History.passes_append hplain.ends]
  have hcalls : History.callsOf (.noted (.updated .ran) e :: .noted (.passEnded p.clean) p.after ::
      (p.body ++ .noted (.passBegan p.pending) p.before :: ready) ++ run) pin = p.body.callsOf pin ++ run.callsOf pin := by
    rw [History.callsOf_append]
    refine congrArg (· ++ run.callsOf pin) ?_
    show History.callsOf (p.body ++ _) pin = _
    rw [History.callsOf_append, History.callsOf_of_calls (h := _ :: ready), List.append_nil]
    exact fun c hm => absurd (hc ▸ hm) List.not_mem_nil
  have hbefore : p.before.shadow.input = s₁.extender.shadow.input := congrArg (·.shadow.input) hst.before
  refine ⟨?_, ?_⟩
  · rw [hcalls, (hst.dispatches hwhole).2, hslot, hr.calls, History.edges, History.edges, hpasses, List.countP_cons]
    simp only [Edge.matches_eq]
    by_cases hm : h.edge.Occurs (p.before.shadow.input.get pin) (p.after.shadow.input.get pin)
    · simp [hm, List.replicate_succ]
    · simp [hm]
  · rw [History.edges, hpasses, List.countP_cons, ← History.edges, hi]
    have hp := hr.parity
    rw [← hbefore] at hp
    simp only [Edge.Occurs, Nat.bodd_add, hp]
    cases p.after.shadow.input.get pin <;> cases s.extender.shadow.input.get pin <;> cases (run.edges pin .change).bodd <;> rfl

end Edged

/-- Whatever happens while a pin keeps its handler, the handler is called once for each edge that it waits for. -/
theorem Goes.edged {s s' : State} (hgo : Goes s s') (hwhole : s.extender.claims.Whole) (pin : Nat) (h : Handler) : ∃ run, s'.history = run ++ s.history ∧
    (run.Uncut → (∀ n e, .noted n e ∈ run → e.handlers pin = some h) → Edged pin h s s' run) := by
  induction hgo with
  | refl => exact ⟨[], rfl, fun _ _ => .refl s⟩
  | @tail s₁ s₂ hgo₁ hhap ih =>
    obtain ⟨run, hrun, ih⟩ := ih
    obtain ⟨new, hnew, hadds⟩ := hhap.passes
    refine ⟨new ++ run, by rw [hnew, hrun, List.append_assoc], fun hu hn => ?_⟩
    have ih := ih (fun ev hm => hu ev (List.mem_append_right _ hm)) fun n e hm => hn n e (List.mem_append_right _ hm)
    cases hadds with
    | none hmark hc hi => exact ih.append (fun ev hm => (hmark ev hm).2) hc hi
    | cut _ hcut => exact (hcut fun ev hm => hu ev (List.mem_append_left _ hm)).elim
    | @pass p t t' ready hst _ hplain hc hi heq =>
      subst heq
      refine ih.pass hst ((Goes.moves hgo₁).whole hwhole) hplain hc ?_ hi
      refine History.slot_of_notes (fun n e hm => hn n e ?_) (hn (.passBegan p.pending) p.before (by simp))
      have hbody := (List.rtakeWhile_suffix _ _).subset hm
      simp [hbody]

/-! ## Stretches -/

/-- A stretch of a history: what happened after a moment of the memory `e` and up to a moment of the memory `e'`, at neither of
which a pass was at work. -/
structure History.Stretch (h : History) (e : Extender) (run : History) (e' : Extender) : Prop where
  split : ∃ later n past, h = later ++ (run ++ .noted n e :: past)
  last : ∃ n rest, run = .noted n e' :: rest
  resting : e.updating = false ∧ e'.updating = false

/-- The latest events of a history are a stretch if they begin and end at moments at which no pass was at work. -/
theorem History.stretch_of_drop {h : History} (k : Nat) {q : Extender → History → Extender → Bool}
    (hk : (match h, h.drop (k + 1) with
      | .noted _ e' :: _, .noted _ e :: _ => !e.updating && !e'.updating && q e (h.take (k + 1)) e'
      | _, _ => false) = true) : ∃ e run e', h.Stretch e run e' ∧ q e run e' = true := by
  split at hk
  · rename_i n' e' rest n e past hd
    simp only [Bool.and_eq_true, Bool.not_eq_true'] at hk
    refine ⟨e, _, e', ⟨⟨[], n, past, ?_⟩, ⟨n', rest.take k, rfl⟩, hk.1⟩, hk.2⟩
    rw [List.nil_append, ← hd]
    exact (List.take_append_drop (k + 1) _).symm
  · cases hk

/-- Edges are dispatched exactly once. In every pass that a session records, the handlers that are called are those of pins in
ascending order (here the latest call comes first), and a pin's handler is called, once and as it was attached, if and only if the
pin had one at its turn that waits for the edge which the pin's input has made in the pass: from low to high, from high to low, or
either. And in every stretch of a session that begins and ends while no pass is at work, of which no pass is cut short by a fault, and
during which a pin keeps its handler: each pass calls the handler if the pin's input makes the edge that the handler waits for; the
handler is called as often as there are such passes, so nothing else calls it; and if it waits for changes in both directions, the
input at the end is the one at the beginning, inverted as often as the handler has been called. -/
theorem edges_are_dispatched_once :
    (∀ s p, Reachable s → s.history.Records p → (p.body.calls.map Prod.fst).Pairwise (· > ·) ∧
      ∀ pin, p.body.callsOf pin = (p.slot pin).toList.filter fun h =>
        h.edge.Occurs (p.before.shadow.input.get pin) (p.after.shadow.input.get pin)) ∧
    ∀ s e run e' pin h, Reachable s → s.history.Stretch e run e' → run.Uncut →
      (∀ n e, .noted n e ∈ run → e.handlers pin = some h) →
      (∀ p, run.Records p → p.body.callsOf pin =
        if h.edge.Occurs (p.before.shadow.input.get pin) (p.after.shadow.input.get pin) then [h] else []) ∧
      run.callsOf pin = List.replicate (run.edges pin h.edge) h ∧
      (h.edge = .change → e'.shadow.input.get pin = (e.shadow.input.get pin ^^ (run.callsOf pin).length.bodd)) := by
  have hpass (s : State) (p : PassRecord) (hs : Reachable s) (hp : s.history.Records p) :
      (p.body.calls.map Prod.fst).Pairwise (· > ·) ∧ ∀ pin, p.body.callsOf pin = (p.slot pin).toList.filter fun h =>
        h.edge.Occurs (p.before.shadow.input.get pin) (p.after.shadow.input.get pin) := by
    obtain ⟨e₀, board, hmade, hgo, _⟩ := hs.goes
    obtain ⟨s₁, t, t', hgo₁, hst⟩ := hgo.exists_stems rfl hp
    have hdispatches := hst.dispatches (hgo₁.moves.whole hmade.whole)
    simp only [Edge.matches_eq] at hdispatches
    exact hdispatches
  refine ⟨hpass, fun s e run e' pin h hs hstretch hu hn => ⟨fun p hp => ?_, ?_⟩⟩
  · obtain ⟨later, n, past, hh⟩ := hstretch.split
    obtain ⟨⟨newer, hrun⟩, hb⟩ := hp
    -- the whole history records the pass, too, with a longer past
    have hcalls := (hpass s { p with past := p.past ++ .noted n e :: past } hs
      ⟨⟨later ++ newer, by simp [hh, hrun]⟩, hb⟩).2 pin
    have hslot : PassRecord.slot { p with past := p.past ++ .noted n e :: past } pin = some h := by
      refine History.slot_of_notes (fun n e hm => hn n e ?_) (hn (.passBegan p.pending) p.before (by simp [hrun]))
      have hbody := (List.rtakeWhile_suffix _ _).subset hm
      simp [hrun, hbody]
    rw [hcalls, hslot]
    simp [List.filter_cons]
  · obtain ⟨e₀, board, hmade, hgo, _⟩ := hs.goes
    obtain ⟨later, n, past, hh⟩ := hstretch.split
    obtain ⟨n', rest, rfl⟩ := hstretch.last
    obtain ⟨s₂, hgo₂, _, hh₂, rfl⟩ := hgo.moment rfl hh hstretch.resting.2
    have hh₂ : s₂.history = (.noted n' s₂.extender :: rest) ++ .noted n e :: past := hh₂
    obtain ⟨s₁, hgo₀, hgo₁, hh₁, rfl⟩ := hgo₂.moment rfl hh₂ hstretch.resting.1
    obtain ⟨run, hrun, hedged⟩ := hgo₁.edged (hgo₀.moves.whole hmade.whole) pin h
    obtain rfl : run = .noted n' s₂.extender :: rest := State.new_unique hrun (by rw [hh₂, hh₁])
    have hedged := hedged hu hn
    refine ⟨hedged.calls, fun hchange => ?_⟩
    rw [hedged.parity, hedged.calls, hchange, List.length_replicate]

/-- Three inputs rise while one falls, and the handler of the first one detaches that of the second one, which is not called then. The
third one waits for a rising edge, the last one for a falling edge; they are called for those and for none of the opposite edges that
come before and after. -/
theorem edges_are_dispatched_once_of_detach :
    let s := State.oneChip [.claim 0, .claim 1, .claim 2, .claim 3, .op (.call (.setup 0 PinAttributes.input)),
      .op (.call (.setup 1 PinAttributes.input)), .op (.call (.setup 2 PinAttributes.input)),
      .op (.call (.setup 3 PinAttributes.input)), .op (.call (.attach 0 ⟨3, 7, .change⟩)),
      .op (.call (.attach 1 ⟨3, 8, .change⟩)), .op (.call (.attach 2 ⟨3, 9, .rising⟩)),
      .op (.call (.attach 3 ⟨3, 10, .falling⟩)), .op (.handler 7 [.call (.detach 1)]), .op (.change (.poke ⟨0x20, 0⟩ 8)),
      .op .update, .op (.change (.poke ⟨0x20, 0⟩ 7)), .op .update, .op (.change (.poke ⟨0x20, 0⟩ 8)), .op .update]
    (∃ p, s.history.Records p ∧ p.before.handlers 1 = some ⟨3, 8, .change⟩ ∧ p.before.shadow.input.byte 0 = 8 ∧
      p.after.shadow.input.byte 0 = 7 ∧ p.body.callsOf 0 = [⟨3, 7, .change⟩] ∧ p.body.callsOf 1 = [] ∧
      p.body.callsOf 2 = [⟨3, 9, .rising⟩] ∧ p.body.callsOf 3 = [⟨3, 10, .falling⟩]) ∧
    ∃ e run e', s.history.Stretch e run e' ∧ run.passes.length = 3 ∧
      run.callsOf 0 = [⟨3, 7, .change⟩, ⟨3, 7, .change⟩] ∧ e'.shadow.input.get 0 = e.shadow.input.get 0 ∧
      run.callsOf 2 = [⟨3, 9, .rising⟩] ∧ run.callsOf 3 = [⟨3, 10, .falling⟩] := by
  intro s
  have hr : Reachable s := reachable_oneChip _
  constructor
  · have hk : ((s.history.pass? 15).any fun p => p.before.handlers 1 == some ⟨3, 8, .change⟩ &&
        p.before.shadow.input.byte 0 == 8 && p.after.shadow.input.byte 0 == 7 && p.slot 0 == some ⟨3, 7, .change⟩ &&
        p.slot 1 == none && p.slot 2 == some ⟨3, 9, .rising⟩ && p.slot 3 == some ⟨3, 10, .falling⟩) = true := by
      decide +kernel
    obtain ⟨p, hp, hq⟩ := (Option.any_eq_true _ _).1 hk
    simp only [Bool.and_eq_true, beq_iff_eq] at hq
    obtain ⟨⟨⟨⟨⟨⟨hhandler, hbefore⟩, hafter⟩, hslot₀⟩, hslot₁⟩, hslot₂⟩, hslot₃⟩ := hq
    have hp := History.records_of_pass? hp
    have hcalls := (edges_are_dispatched_once.1 s p hr hp).2
    have hinput (pin : Nat) (hpin : pin / 8 = 0) : p.before.shadow.input.get pin = (8#8).getLsbD (pin % 8) ∧
        p.after.shadow.input.get pin = (7#8).getLsbD (pin % 8) := by
      rw [PinMap.get_eq_getLsbD_byte, PinMap.get_eq_getLsbD_byte, hpin, hbefore, hafter]
      exact ⟨rfl, rfl⟩
    refine ⟨p, hp, hhandler, hbefore, hafter, ?_, ?_, ?_, ?_⟩
    · rw [hcalls, hslot₀, (hinput 0 rfl).1, (hinput 0 rfl).2]
      decide
    · rw [hcalls, hslot₁]
      rfl
    · rw [hcalls, hslot₂, (hinput 2 rfl).1, (hinput 2 rfl).2]
      decide
    · rw [hcalls, hslot₃, (hinput 3 rfl).1, (hinput 3 rfl).2]
      decide
  · let kept (run : History) (pin : Nat) (h : Handler) : Bool := run.all fun ev => ev.note?.all (·.2.handlers pin == some h)
    obtain ⟨e, run, e', hst, hq⟩ := History.stretch_of_drop (h := s.history) 39
      (q := fun e run e' => decide run.Uncut && kept run 0 ⟨3, 7, .change⟩ && kept run 2 ⟨3, 9, .rising⟩ &&
        kept run 3 ⟨3, 10, .falling⟩ && run.passes.length == 3 && run.edges 0 .change == 2 && run.edges 2 .rising == 1 &&
        run.edges 3 .falling == 1) (by decide +kernel)
    simp only [Bool.and_eq_true, decide_eq_true_eq, beq_iff_eq] at hq
    obtain ⟨⟨⟨⟨⟨⟨⟨hu, hkept₀⟩, hkept₂⟩, hkept₃⟩, hpasses⟩, hedges₀⟩, hedges₂⟩, hedges₃⟩ := hq
    have hnotes {pin : Nat} {h : Handler} (hkept : kept run pin h = true) (n : Note) (e : Extender) (hm : .noted n e ∈ run) :
        e.handlers pin = some h := by
      have hev : (e.handlers pin == some h) = true := List.all_eq_true.1 hkept _ hm
      exact eq_of_beq hev
    obtain ⟨-, hcalls₀, hparity⟩ := edges_are_dispatched_once.2 s e run e' 0 _ hr hst hu (hnotes hkept₀)
    obtain ⟨-, hcalls₂, -⟩ := edges_are_dispatched_once.2 s e run e' 2 _ hr hst hu (hnotes hkept₂)
    obtain ⟨-, hcalls₃, -⟩ := edges_are_dispatched_once.2 s e run e' 3 _ hr hst hu (hnotes hkept₃)
    rw [hedges₀] at hcalls₀
    rw [hedges₂] at hcalls₂
    rw [hedges₃] at hcalls₃
    refine ⟨e, run, e', hst, hpasses, hcalls₀, ?_, hcalls₂, hcalls₃⟩
    rw [hparity rfl, hcalls₀]
    exact Bool.xor_false _

end PortExpander
