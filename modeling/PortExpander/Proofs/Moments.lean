import PortExpander.Proofs.Sessions

/-!
# Moments

A session is a row of moves, each of which adds at most a few events to the history. Passes are made of several moves: one that
takes the work out of the status word, one that begins, the work itself, one that ends, and one that lets the next pass begin.
Where in a pass a history is, its latest stage tells.
-/

namespace PortExpander

open Sim Engine

/-! ## Stages -/

/-- Where a history is: between passes, after a pass has taken its work, while it does its work, and after that. -/
inductive Stage where
  | rest
  | taken
  | working
  | ended
  deriving DecidableEq

/-- Where a history is after a note, if the note tells. -/
def Note.stage? : Note → Option Stage
  | took _ => some .taken
  | passBegan _ => some .working
  | passEnded _ => some .ended
  | passCut => some .rest
  | updated p => if p = .contended then none else some .rest
  | _ => none

namespace History

/-- Where a history is. -/
def stage : History → Stage
  | [] => .rest
  | .noted n _ :: past => n.stage?.getD (stage past)
  | _ :: past => stage past

/-- Events that are no stage notes leave a history where it is. -/
theorem stage_cons {ev : Event} {past : History} (h : ∀ n e, ev = .noted n e → n.isStage = false) :
    stage (ev :: past) = stage past := by
  cases ev with
  | noted n e =>
    have hn := h n e rfl
    show n.stage?.getD (stage past) = _
    cases n with
    | updated p => cases p <;> first | rfl | cases hn
    | _ => first | rfl | cases hn
  | _ => rfl

end History

/-- A touch leaves the history at its stage. -/
theorem Touch.stage {s s' : State} (h : Touch s s') : s'.history.stage = s.history.stage := by
  rcases h.history with h | ⟨ev, h, _, hn⟩
  · rw [h]
  · rw [h]
    exact History.stage_cons fun n e he => (hn n e he).1

/-- Work adds at most one event; if it is a note, it is one of the memory as it then is, of which it says the truth. -/
theorem Work.history {s s' : State} (h : Work s s') : s'.history = s.history ∨
    ∃ ev, s'.history = ev :: s.history ∧
      ∀ n e, ev = .noted n e → n.isStage = false ∧ e = s'.extender ∧ n.Confirmed e := by
  cases h with
  | touch h =>
    rcases h.history with h | ⟨ev, h, _, hn⟩
    · exact .inl h
    · exact .inr ⟨ev, h, hn⟩
  | answer | look | edge | call =>
    refine .inr ⟨_, rfl, ?_⟩
    rintro n e ⟨⟩
  | record a r =>
    cases r with
    | ok => exact .inl rfl
    | error =>
      refine .inr ⟨_, rfl, ?_⟩
      rintro n e ⟨⟩
  | keep | mark | clear | level | drain => exact .inl rfl

/-- What happens in a pass leaves the history at its stage. -/
theorem Work.stage {s s' : State} (h : Work s s') : s'.history.stage = s.history.stage := by
  rcases h.history with h | ⟨ev, h, hn⟩
  · rw [h]
  · rw [h]
    exact History.stage_cons fun n e he => (hn n e he).1

/-- Before a pass begins there is at most one record more. -/
theorem State.history_started (s : State) (pending : Status) :
    (s.started pending).history = s.history ∨ ∃ r, (s.started pending).history = .logged r :: s.history := by
  unfold started
  split
  · exact .inr ⟨_, rfl⟩
  · exact .inl rfl

/-! ## Moves -/

/-- One move of a session. -/
inductive Move : State → State → Prop where
  | touch {s s' : State} : Touch s s' → Move s s'
  | began {s : State} (step : Step) : s.extender.updating = false → Move s (s.noting (.stepBegan step))
  | ended {s : State} (step : Step) (r : Reply) : s.extender.updating = false →
      (∀ o, step = .op o → s.Confirms o r) → Move s (s.over step r)
  | claim {s : State} (pin : Nat) (claims : Claims) : s.extender.updating = false → s.extender.isStopped = false →
      s.extender.claims.claim pin = .ok claims → Move s ((s.amend ({ · with claims })).over (.claim pin) .done)
  | free {s : State} (pin : Nat) : s.extender.updating = false →
      (pin < s.extender.claims.capacity → s.extender.handlers pin = none) →
      Move s ((s.amend fun e => { e with claims := e.claims.free pin }).over (.free pin) .done)
  | refuse {s : State} : s.extender.updating = false → s.extender.halted = true →
      Move s ((letGo s.held).noting (.updated .stopped))
  | stop {s : State} : s.extender.updating = false → s.extender.halted = false →
      s.extender.work.contains Status.stop = true → Move s ((letGo s.held.taken.stopped).noting (.updated .stopped))
  | take {s : State} : s.extender.updating = false → s.extender.halted = false →
      s.extender.work.contains Status.stop = false → Move s s.held.taken
  | idle {s : State} : s.extender.updating = true → s.history.stage = .taken →
      Move s ((letGo s.released).noting (.updated .idle))
  | begin {s : State} (pending : Status) : s.extender.updating = true → s.history.stage = .taken →
      s.extender.isStopped = false → Move s ((s.started pending).noting (.passBegan pending))
  | work {s s' : State} : s.extender.updating = true → s.history.stage = .working → Work s s' → Move s s'
  | complete {s : State} (clean : Bool) : s.extender.updating = true → s.history.stage = .working →
      Move s (s.completed clean)
  | finish {s : State} : s.extender.updating = true → s.history.stage = .ended →
      Move s ((letGo s.released).noting (.updated .ran))
  | cut {s : State} : s.extender.updating = true → s.history.stage = .working → Move s ((letGo s).noting .passCut)

/-- Any number of moves. -/
abbrev Moves : State → State → Prop := Relation.ReflTransGen Move

/-- The work of a pass is made of moves. -/
theorem Works.moves {s s' : State} (h : Works s s') (hu : s.extender.updating = true) (hs : s.history.stage = .working) :
    Moves s s' ∧ s'.extender.updating = true ∧ s'.history.stage = .working := by
  induction h with
  | refl => exact ⟨.refl, hu, hs⟩
  | tail _ h ih => exact ⟨ih.1.tail (.work ih.2.1 ih.2.2 h), h.steady.updating.trans ih.2.1, h.stage.trans ih.2.2⟩

/-- What happens to an extender consists of moves. -/
theorem Happening.moves {s s' : State} (h : Happening s s') : Moves s s' := by
  have hready (s : State) (hh : s.extender.halted = false) : s.held.taken.extender.isStopped = false := by
    show (s.extender.halted || Status.busy.contains Status.stop) = false
    rw [hh]
    decide
  -- a pass takes its work and begins before it works, whether or not it is cut short
  have hpass (s s₁ : State) (hu : s.extender.updating = false) (hh : s.extender.halted = false)
      (hs : s.extender.work.contains Status.stop = false)
      (hw : Works ((s.held.taken.started s.extender.work).noting (.passBegan s.extender.work)) s₁) :
      Moves s s₁ ∧ s₁.extender.updating = true ∧ s₁.history.stage = .working := by
    have hb : Moves s ((s.held.taken.started s.extender.work).noting (.passBegan s.extender.work)) :=
      (Relation.ReflTransGen.single (.take hu hh hs)).tail (.begin _ rfl rfl (hready s hh))
    obtain ⟨hm, hrest⟩ := hw.moves (congrArg Extender.updating (s.extender_begun _)) rfl
    exact ⟨hb.trans hm, hrest⟩
  cases h with
  | touch h => exact .single (.touch h)
  | began step hu => exact .single (.began step hu)
  | ended step r hu hr => exact .single (.ended step r hu hr)
  | claim pin claims hu hs hc => exact .single (.claim pin claims hu hs hc)
  | free pin hu hn => exact .single (.free pin hu hn)
  | update p hu h =>
    cases h with
    | halted hh => exact .single (.refuse hu hh)
    | stops hh hs => exact .single (.stop hu hh hs)
    | idles hh hs => exact (Relation.ReflTransGen.single (.take hu hh hs)).tail (.idle rfl rfl)
    | @ran s₀ s₁ clean hh hs _ h₀ _ hw =>
      subst h₀
      obtain ⟨hm, hu₁, hg⟩ := hpass s s₁ hu hh hs hw
      have hc : (s₁.completed clean).extender.updating = true := by cases clean <;> exact hu₁
      exact (hm.tail (.complete clean hu₁ hg)).tail (.finish hc rfl)
  | cut hu h =>
    obtain ⟨s₁, hh, hs, hb, rfl⟩ := h
    have hw := hb.works
    obtain ⟨hm, hu₁, hg⟩ := hpass s s₁ hu hh hs hw
    exact hm.tail (.cut hu₁ hg)

/-- Happenings are made of moves. -/
theorem Goes.moves {s s' : State} (h : Goes s s') : Moves s s' := by
  induction h with
  | refl => exact .refl
  | tail _ h ih => exact ih.trans h.moves

/-- A history of which no pass is at work is between passes, and one of a pass at work is not. -/
def State.Staged (s : State) : Prop := s.extender.updating = true ↔ s.history.stage ≠ .rest

/-- Every move keeps passes and stages in step. -/
theorem Move.staged {s s' : State} (h : Move s s') (hs : s.Staged) : s'.Staged := by
  unfold State.Staged at hs ⊢
  cases h with
  | touch h => rw [h.frame.updating, h.stage]; exact hs
  | began | ended | claim | free => exact hs
  | refuse | stop | idle | finish | cut => exact ⟨nofun, fun h => (h rfl).elim⟩
  | take => exact ⟨fun _ => nofun, fun _ => rfl⟩
  | work _ _ h => rw [h.steady.updating, h.stage]; exact hs
  | begin pending hu =>
    rw [State.extender_noting, State.extender_started]
    exact ⟨fun _ => nofun, fun _ => hu⟩
  | complete clean hu =>
    cases clean <;> exact ⟨fun _ => nofun, fun _ => hu⟩

/-! ## What moves keep -/

/-- A pin that is claimed is one that the extender has and that nobody holds, and only its claim changes. -/
theorem Claims.eq_of_claim {c c' : Claims} {pin : Nat} (h : c.claim pin = .ok c') :
    pin < c.capacity ∧ c.isClaimed pin = false ∧ c' = { c with claimed := c.claimed.set pin true } := by
  unfold claim checkRange at h
  split at h
  · rename_i hpin
    change (if c.isClaimed pin = true then _ else _) = _ at h
    split at h
    · cases h
    · rename_i hno
      cases h
      exact ⟨hpin, Bool.eq_false_iff.2 hno, rfl⟩
  · cases h

/-- A claim makes no more pins. -/
theorem Claims.capacity_claim {c c' : Claims} {pin : Nat} (h : c.claim pin = .ok c') : c'.capacity = c.capacity := by
  obtain ⟨-, -, rfl⟩ := eq_of_claim h
  rfl

/-- To free a pin makes no more pins. -/
@[simp] theorem Claims.capacity_free (c : Claims) (pin : Nat) : (c.free pin).capacity = c.capacity := by
  unfold free
  split <;> rfl

/-- What an extender keeps for as long as there is one: its family, its address, its engine and how many pins it has. -/
structure Extender.SameMake (e e' : Extender) : Prop where
  family : e'.family = e.family
  address : e'.address = e.address
  name : e'.name = e.name
  capacity : e'.claims.capacity = e.claims.capacity

/-- What is steady keeps the make. -/
theorem Steady.sameMake {e e' : Extender} (h : Steady e e') : e.SameMake e' :=
  ⟨h.family, h.address, h.name, congrArg Claims.capacity h.claims⟩

/-- Every move keeps the make. -/
theorem Move.sameMake {s s' : State} (h : Move s s') : s.extender.SameMake s'.extender := by
  cases h with
  | touch h => exact h.frame.sameMake
  | work _ _ h => exact h.steady.sameMake
  | claim pin claims _ _ hc => exact ⟨rfl, rfl, rfl, Claims.capacity_claim hc⟩
  | free pin => exact ⟨rfl, rfl, rfl, Claims.capacity_free _ pin⟩
  | begin pending =>
    rw [State.extender_noting, State.extender_started]
    exact ⟨rfl, rfl, rfl, rfl⟩
  | complete clean => cases clean <;> exact ⟨rfl, rfl, rfl, rfl⟩
  | _ => exact ⟨rfl, rfl, rfl, rfl⟩

theorem Extender.SameMake.trans {e e' e'' : Extender} (h : e.SameMake e') (h' : e'.SameMake e'') : e.SameMake e'' :=
  ⟨h'.family.trans h.family, h'.address.trans h.address, h'.name.trans h.name, h'.capacity.trans h.capacity⟩

/-- Moves keep the make. -/
theorem Moves.sameMake {s s' : State} (h : Moves s s') : s.extender.SameMake s'.extender := by
  induction h with
  | refl => exact ⟨rfl, rfl, rfl, rfl⟩
  | tail _ h ih => exact ih.trans h.sameMake

/-- The notes that a move adds are of the memory after it, or of the memory from which a pass has just taken its work. -/
theorem Move.notes {s s' : State} (h : Move s s') : ∃ new, s'.history = new ++ s.history ∧ ∀ n e, .noted n e ∈ new →
    e = s'.extender ∨ (s.extender.halted = false ∧ e = s.held.taken.extender) := by
  have hevent {ev : Event} (he : s'.history = ev :: s.history) (hn : ∀ n e, ev = .noted n e → e = s'.extender) :
      ∃ new, s'.history = new ++ s.history ∧ ∀ n e, .noted n e ∈ new →
        e = s'.extender ∨ (s.extender.halted = false ∧ e = s.held.taken.extender) :=
    ⟨[ev], he, fun n e hm => .inl (hn n e (List.mem_singleton.1 hm).symm)⟩
  have hnote {n : Note} (he : s'.history = .noted n s'.extender :: s.history) :
      ∃ new, s'.history = new ++ s.history ∧ ∀ n e, .noted n e ∈ new →
        e = s'.extender ∨ (s.extender.halted = false ∧ e = s.held.taken.extender) := by
    refine hevent he ?_
    rintro _ _ ⟨⟩
    rfl
  cases h with
  | touch h =>
    rcases h.history with he | ⟨ev, he, _, hn⟩
    · exact ⟨[], he, fun _ _ h => absurd h List.not_mem_nil⟩
    · exact hevent he fun n e heq => (hn n e heq).2.1
  | work _ _ h =>
    rcases h.history with he | ⟨ev, he, hn⟩
    · exact ⟨[], he, fun _ _ h => absurd h List.not_mem_nil⟩
    · exact hevent he fun n e heq => (hn n e heq).2.1
  | began | ended | claim | free | refuse | take | idle | finish | cut => exact hnote rfl
  | stop _ hh =>
    -- one move takes the work and halts, so the first of its notes is of the memory in between
    refine ⟨[_, _, _], rfl, fun n e hm => ?_⟩
    rcases List.mem_cons.1 hm with heq | hm
    · cases heq
      exact .inl rfl
    · rcases List.mem_cons.1 hm with heq | hm
      · cases heq
      · cases List.mem_singleton.1 hm
        exact .inr ⟨hh, rfl⟩
  | begin pending =>
    rcases s.history_started pending with he | ⟨r, he⟩
    · refine ⟨[.noted (.passBegan pending) (s.started pending).extender], congrArg _ he, fun n e hm => ?_⟩
      cases List.mem_singleton.1 hm
      exact .inl rfl
    · refine ⟨[.noted (.passBegan pending) (s.started pending).extender, .logged r], congrArg _ he, fun n e hm => ?_⟩
      rcases List.mem_cons.1 hm with heq | hm
      · cases heq
        exact .inl rfl
      · cases List.mem_singleton.1 hm
  | complete clean =>
    cases clean with
    | true => exact hnote rfl
    | false =>
      refine ⟨[_, _], rfl, fun n e hm => ?_⟩
      rcases List.mem_cons.1 hm with heq | hm
      · cases heq
        exact .inl rfl
      · cases List.mem_singleton.1 hm
        exact .inl rfl

/-- What every move keeps, and what taking the work keeps, holds at every note. -/
theorem Moves.at_notes {P : Extender → Prop} (hmove : ∀ s s', Move s s' → P s.extender → P s'.extender)
    (htake : ∀ s : State, s.extender.halted = false → P s.extender → P s.held.taken.extender) {s₀ s : State}
    (h : Moves s₀ s) (h₀ : s₀.history = []) (hs : P s₀.extender) : P s.extender ∧ ∀ n e, .noted n e ∈ s.history → P e := by
  induction h with
  | refl =>
    rw [h₀]
    exact ⟨hs, fun _ _ h => absurd h List.not_mem_nil⟩
  | @tail s₁ s₂ _ h ih =>
    obtain ⟨hs₁, hnotes⟩ := ih
    have hs₂ := hmove s₁ s₂ h hs₁
    obtain ⟨new, hnew, hn⟩ := h.notes
    refine ⟨hs₂, fun n e hm => ?_⟩
    rw [hnew] at hm
    rcases List.mem_append.1 hm with hm | hm
    · rcases hn n e hm with rfl | ⟨hh, rfl⟩
      · exact hs₂
      · exact htake s₁ hh hs₁
    · exact hnotes n e hm

/-- What holds of an extender that has just been made, and is kept, holds at every moment of a session. -/
theorem Reachable.at_notes {P : Extender → Prop} (hmade : ∀ e, Made e → P e)
    (hmove : ∀ s s', Move s s' → P s.extender → P s'.extender)
    (htake : ∀ s : State, s.extender.halted = false → P s.extender → P s.held.taken.extender) {s : State}
    (h : Reachable s) {e : Extender} (he : e = s.extender ∨ ∃ n, .noted n e ∈ s.history) : P e := by
  obtain ⟨e₀, board, hm, hgo, -⟩ := h.goes
  obtain ⟨hnow, hnotes⟩ := hgo.moves.at_notes hmove htake rfl (hmade e₀ hm)
  rcases he with rfl | ⟨n, hn⟩
  · exact hnow
  · exact hnotes n e hn

/-! ## Moments -/

/-- If a relation on states says what it adds to the history, every note of a history is one of a state on the way. -/
theorem exists_moment {R : State → State → Prop} {G : State → Note → Extender → History → Prop}
    (hadds : ∀ s s', R s s' → ∃ new, s'.history = new ++ s.history ∧
      ∀ newer n e older, new = newer ++ .noted n e :: older → G s' n e newer)
    {s₀ s : State} (h : Relation.ReflTransGen R s₀ s) (h₀ : s₀.history = []) {later past : History} {n : Note}
    {e : Extender} (hm : s.history = later ++ .noted n e :: past) :
    ∃ s' newer, Relation.ReflTransGen R s₀ s' ∧ Relation.ReflTransGen R s' s ∧
      s'.history = newer ++ .noted n e :: past ∧ G s' n e newer := by
  induction h generalizing later with
  | refl =>
    rw [h₀] at hm
    cases later <;> cases hm
  | @tail s₁ s₂ hto hR ih =>
    obtain ⟨new, hnew, hG⟩ := hadds s₁ s₂ hR
    have hearlier {later' : History} (h : s₁.history = later' ++ .noted n e :: past) : ∃ s' newer,
        Relation.ReflTransGen R s₀ s' ∧ Relation.ReflTransGen R s' s₂ ∧ s'.history = newer ++ .noted n e :: past ∧
          G s' n e newer := by
      obtain ⟨s', newer, ha, hb, hc⟩ := ih h
      exact ⟨s', newer, ha, hb.tail hR, hc⟩
    rw [hnew] at hm
    rcases List.append_eq_append_iff.1 hm with ⟨later', _, h⟩ | ⟨rest, hl, h⟩
    · exact hearlier h
    · rcases List.cons_eq_append_iff.1 h with ⟨rfl, h'⟩ | ⟨older, rfl, rfl⟩
      · rw [← List.nil_append (.noted n e :: past)] at h'
        exact hearlier h'
      · exact ⟨s₂, later, hto.tail hR, .refl, by rw [hnew, hm], hG later n e older hl⟩

/-- The history of a state goes on from that of another one, and in all notes since then a pass is at work. -/
def State.Keeps (s s' : State) : Prop :=
  ∃ new, s'.history = new ++ s.history ∧ ∀ n e, .noted n e ∈ new → e.updating = true

namespace State.Keeps

theorem refl (s : State) : s.Keeps s := ⟨[], rfl, fun _ _ h => absurd h List.not_mem_nil⟩

theorem cons {s s' s'' : State} (h : s.Keeps s') {ev : Event} (he : s''.history = ev :: s'.history)
    (hn : ∀ n e, ev = .noted n e → e.updating = true) : s.Keeps s'' := by
  obtain ⟨new, hnew, hb⟩ := h
  refine ⟨ev :: new, by rw [he, hnew, List.cons_append], fun n e hmem => ?_⟩
  rcases List.mem_cons.1 hmem with heq | hmem
  · exact hn n e heq.symm
  · exact hb n e hmem

theorem note {s s' s'' : State} (h : s.Keeps s') {n : Note} {e : Extender} (he : s''.history = .noted n e :: s'.history)
    (hu : e.updating = true) : s.Keeps s'' := by
  refine h.cons he ?_
  rintro _ _ ⟨⟩
  exact hu

end State.Keeps

/-- In all notes of the work of a pass, the pass is at work. -/
theorem Works.keeps {s s' s₀ : State} (h : Works s s') (hu : s.extender.updating = true) (h₀ : s₀.Keeps s) :
    s₀.Keeps s' := by
  induction h with
  | refl => exact h₀
  | @tail s₁ s₂ hto h ih =>
    rcases h.history with he | ⟨ev, he, hn⟩
    · obtain ⟨new, hnew, hb⟩ := ih
      exact ⟨new, he.trans hnew, hb⟩
    · refine ih.cons he fun n e heq => ?_
      rw [(hn n e heq).2.1]
      exact (Works.steady (hto.tail h)).updating.trans hu

/-- The pass is at work when it takes its work. -/
theorem State.keeps_taken (s : State) : s.Keeps s.held.taken :=
  (State.Keeps.refl s).note rfl rfl

/-- The pass is at work when it begins. -/
theorem State.keeps_begun (s : State) (pending : Status) :
    s.Keeps ((s.held.taken.started pending).noting (.passBegan pending)) := by
  have hs : s.Keeps (s.held.taken.started pending) := by
    unfold started
    split
    · refine s.keeps_taken.cons rfl ?_
      rintro _ _ ⟨⟩
    · exact s.keeps_taken
  refine hs.note rfl ?_
  rw [extender_started]
  rfl

/-- The work of a pass, from before the pass on. -/
theorem Works.keeps_begun {s s₁ : State} {pending : Status}
    (h : Works ((s.held.taken.started pending).noting (.passBegan pending)) s₁) :
    s.Keeps s₁ ∧ s₁.extender.updating = true := by
  have hu := congrArg Extender.updating (s.extender_begun pending)
  exact ⟨h.keeps hu (s.keeps_begun pending), h.steady.updating.trans hu⟩

/-- The pass is at work when it ends. -/
theorem State.Keeps.completed {s s₁ : State} (h : s.Keeps s₁) (hu : s₁.extender.updating = true) (clean : Bool) :
    s.Keeps (s₁.completed clean) := by
  cases clean with
  | true => exact h.note rfl hu
  | false =>
    have ha : s.Keeps ((s₁.amend fun e => { e with shadow := e.shadow.markAllDirty }).asking .resync) := h.note rfl hu
    exact ha.note rfl hu

/-- The last note of an update is of the memory after it; in those before it a pass is at work. -/
theorem Happening.adds {s s' : State} (h : Happening s s') : ∃ new, s'.history = new ++ s.history ∧
    ∀ newer n e older, new = newer ++ .noted n e :: older → e.updating = false → newer = [] ∧ s'.extender = e := by
  -- while the events before the last one happen the guard is taken
  have hlast {s₁ : State} {ev : Event} (h₁ : s.Keeps s₁) (he : s'.history = ev :: s₁.history)
      (hn : ∀ n e, ev = .noted n e → e = s'.extender) : ∃ new, s'.history = new ++ s.history ∧
      ∀ newer n e older, new = newer ++ .noted n e :: older → e.updating = false → newer = [] ∧ s'.extender = e := by
    obtain ⟨new, hnew, hb⟩ := h₁
    refine ⟨ev :: new, by rw [he, hnew, List.cons_append], fun newer n e older h hq => ?_⟩
    rcases List.cons_eq_append_iff.1 h with ⟨rfl, heq⟩ | ⟨newer', rfl, heq⟩
    · exact ⟨rfl, (hn n e (List.cons.inj heq).1.symm).symm⟩
    · have hm := hb n e (heq ▸ List.mem_append_right _ List.mem_cons_self)
      rw [hq] at hm
      cases hm
  have hnote {s₁ : State} {n : Note} (h₁ : s.Keeps s₁) (he : s'.history = .noted n s'.extender :: s₁.history) :
      ∃ new, s'.history = new ++ s.history ∧
      ∀ newer n e older, new = newer ++ .noted n e :: older → e.updating = false → newer = [] ∧ s'.extender = e := by
    refine hlast h₁ he ?_
    rintro _ _ ⟨⟩
    rfl
  cases h with
  | touch h =>
    rcases h.history with he | ⟨ev, he, _, hn⟩
    · exact ⟨[], he, fun newer n e older h => by cases newer <;> cases h⟩
    · exact hlast (.refl s) he fun n e heq => (hn n e heq).2.1
  | began | ended | claim | free => exact hnote (.refl s) rfl
  | update p hu h =>
    cases h with
    | halted => exact hnote (.refl s) rfl
    | stops =>
      have hk : s.Keeps s.held.taken.stopped := by
        refine s.keeps_taken.cons rfl ?_
        rintro _ _ ⟨⟩
      exact hnote hk rfl
    | idles => exact hnote s.keeps_taken rfl
    | @ran s₀ s₁ clean hh hs _ h₀ _ hw =>
      subst h₀
      exact hnote (hw.keeps_begun.1.completed hw.keeps_begun.2 clean) rfl
  | cut hu h =>
    obtain ⟨s₁, hh, hs, hb, rfl⟩ := h
    have hw := hb.works
    exact hnote hw.keeps_begun.1 rfl

/-- Every moment at which no pass is at work is one between happenings. -/
theorem Goes.moment {s₀ s : State} (h : Goes s₀ s) (h₀ : s₀.history = []) {later past : History} {n : Note} {e : Extender}
    (hm : s.history = later ++ .noted n e :: past) (hu : e.updating = false) :
    ∃ s', Goes s₀ s' ∧ Goes s' s ∧ s'.history = .noted n e :: past ∧ s'.extender = e := by
  obtain ⟨s', newer, ha, hb, hc, hd⟩ := exists_moment (fun _ _ h => Happening.adds h) h h₀ hm
  obtain ⟨rfl, he⟩ := hd hu
  exact ⟨s', ha, hb, hc, he⟩

/-- The note that an event is, and the memory it is of. -/
def Event.note? : Event → Option (Note × Extender)
  | noted n e => some (n, e)
  | _ => none

/-- How the update ended of which a note tells the end. -/
def Note.pass? : Note → Option Pass
  | updated p => some p
  | _ => none

/-- A history whose rest after some events begins with a note has a moment there. -/
theorem History.moment_of_drop {h : History} (k : Nat) {p : Note → Extender → History → Bool}
    (hk : (match h.drop k with | .noted n e :: past => p n e past | _ => false) = true) :
    ∃ later n e past, h = later ++ .noted n e :: past ∧ p n e past = true := by
  split at hk
  · rename_i n e past hd
    exact ⟨h.take k, n, e, past, by rw [← hd, List.take_append_drop], hk⟩
  · cases hk

end PortExpander
