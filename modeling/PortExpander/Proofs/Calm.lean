import PortExpander.Proofs.Moments

/-!
# Runs without trouble

There is trouble when a transaction fails or an operation begins in the middle of another one. What a computation comes to without
trouble can be told from the state in which it starts, so statements about such runs say what follows if there is as much trouble in
the history at the end as at the beginning. `Calmly` is such a statement about one computation; since no computation takes trouble
back, it can be proved part by part.
-/

namespace PortExpander

open Sim Engine

/-- Whether an event is trouble: a transaction that fails, or an operation that begins in the middle of another one. -/
def Event.isTrouble : Event → Bool
  | transaction _ (.error _) => true
  | noted (.opBegan _) _ => true
  | _ => false

/-- How much trouble there has been. -/
def State.troubles (s : State) : Nat := s.history.countP (·.isTrouble)

/-- There has been no trouble since an earlier state: no transaction has failed, and no operation has begun in the middle of another
one. -/
def State.Smooth (s s' : State) : Prop := s'.troubles = s.troubles

instance (s s' : State) : Decidable (s.Smooth s') := inferInstanceAs (Decidable (s'.troubles = s.troubles))

/-- What happens takes no trouble back. -/
theorem Goes.troubles_le {s s' : State} (h : Goes s s') : s.troubles ≤ s'.troubles := by
  induction h with
  | refl => exact Nat.le_refl _
  | tail _ h ih =>
    obtain ⟨new, hnew, -⟩ := h.adds
    refine Nat.le_trans ih ?_
    unfold State.troubles
    rw [hnew, List.countP_append]
    exact Nat.le_add_left _ _

theorem State.troubles_seeing {s : State} {ev : Event} (h : ev.isTrouble = false) : (s.seeing ev).troubles = s.troubles := by
  unfold troubles
  rw [history_seeing, List.countP_cons_of_neg (by rw [h]; exact Bool.false_ne_true)]

theorem State.troubles_noting {s : State} {n : Note} (h : ∀ o, n ≠ .opBegan o) : (s.noting n).troubles = s.troubles := by
  have hquiet : (Event.noted n s.extender).isTrouble = false := by
    cases n with
    | opBegan o => exact (h o rfl).elim
    | _ => rfl
  exact troubles_seeing (s := s) hquiet

theorem State.troubles_over (s : State) (step : Step) (r : Reply) : (s.over step r).troubles = s.troubles :=
  State.troubles_noting (s := s.onBoard ({ · with agenda := none })) (n := .stepEnded step r) (by rintro _ ⟨⟩)

/-- The end of a pass adds no trouble. -/
theorem State.troubles_completed (s : State) (clean : Bool) : (s.completed clean).troubles = s.troubles := by
  cases clean with
  | true => exact State.troubles_noting (n := .passEnded true) (by rintro _ ⟨⟩)
  | false =>
    refine (State.troubles_noting (n := .passEnded false) (by rintro _ ⟨⟩)).trans ?_
    exact State.troubles_noting (n := .requested .resync) (by rintro _ ⟨⟩)

variable {α β : Type}

namespace Sim

/-- If a computation starts in a state with `P` and there is no trouble, it gives a value and a state with `Q`. It takes no trouble
back in any case. -/
def Calmly (m : Sim α) (P : Prop) (s : State) (Q : α → State → Prop) : Prop :=
  m.Gives s (fun a s' => s.troubles ≤ s'.troubles ∧ (P → s.Smooth s' → Q a s'))
    fun s' => s.troubles ≤ s'.troubles ∧ (P → ¬s.Smooth s')

variable {P P' : Prop} {s : State} {Q : α → State → Prop}

namespace Calmly

theorem mono {m : Sim α} {Q' : α → State → Prop} (h : m.Calmly P s Q) (hP : P' → P) (hQ : ∀ a s', P' → Q a s' → Q' a s') :
    m.Calmly P' s Q' := by
  refine Gives.mono h (fun a s' h => ⟨h.1, fun hp hs => ?_⟩) fun s' h => ⟨h.1, fun hp => h.2 (hP hp)⟩
  exact hQ a s' hp (h.2 (hP hp) hs)

/-- What one part comes to is where the next one starts. -/
theorem bind {m : Sim β} {f : β → Sim α} {R : β → State → Prop} (h : m.Calmly P s R)
    (hf : ∀ b s₁, (f b).Calmly (P ∧ R b s₁) s₁ Q) : (m >>= f).Calmly P s Q := by
  unfold Calmly
  rw [gives_bind]
  refine Gives.mono h (fun b s₁ h₁ => ?_) fun _ h => h
  -- there has been no trouble on the whole way only if there has been none in either part
  have hparts {s' : State} (hle : s₁.troubles ≤ s'.troubles) (hs : s.Smooth s') : s.Smooth s₁ ∧ s₁.Smooth s' := by
    have hle₁ := h₁.1
    unfold State.Smooth at hs ⊢
    omega
  refine Gives.mono (hf b s₁) (fun a s' h' => ⟨Nat.le_trans h₁.1 h'.1, fun hp hs => ?_⟩)
    fun s' h' => ⟨Nat.le_trans h₁.1 h'.1, fun hp hs => ?_⟩
  · obtain ⟨hs₁, hs'⟩ := hparts h'.1 hs
    exact h'.2 ⟨hp, h₁.2 hp hs₁⟩ hs'
  · obtain ⟨hs₁, hs'⟩ := hparts h'.1 hs
    exact h'.2 ⟨hp, h₁.2 hp hs₁⟩ hs'

/-- A part that is no trouble leads to the next one. -/
theorem after {m : Sim β} {f : β → Sim α} {b : β} {s₁ : State} (hm : ∀ Q X, m.Gives s Q X ↔ Q b s₁)
    (ht : s₁.troubles = s.troubles) (h : (f b).Calmly P s₁ Q) : (m >>= f).Calmly P s Q := by
  unfold Calmly State.Smooth at h ⊢
  rw [gives_bind, hm, ← ht]
  exact h

/-- Where there is trouble nothing else has to be shown. -/
theorem of_trouble {m : Sim α} (h : m.Gives s (fun _ s' => s.troubles < s'.troubles) fun s' => s.troubles < s'.troubles) :
    m.Calmly P s Q := by
  refine Gives.mono h (fun a s' h => ⟨Nat.le_of_lt h, fun _ hs => ?_⟩) fun s' h => ⟨Nat.le_of_lt h, fun _ hs => ?_⟩
  all_goals exact (Nat.ne_of_gt h hs).elim

end Calmly

/-- A value adds no trouble. -/
@[simp] theorem calmly_pure {a : α} : (pure a : Sim α).Calmly P s Q ↔ (P → Q a s) :=
  ⟨fun h hp => h.2 hp rfl, fun h => ⟨Nat.le_refl _, fun hp _ => h hp⟩⟩

/-- To look at the memory and go on by what was seen. -/
@[simp] theorem calmly_extender_bind {f : Extender → Sim α} :
    (extender >>= f).Calmly P s Q ↔ (f s.extender).Calmly P s Q := by
  unfold Calmly
  rw [gives_bind, gives_extender]

/-- To look at the board and go on by what was seen. -/
@[simp] theorem calmly_board_bind {f : Board → Sim α} : (board >>= f).Calmly P s Q ↔ (f s.board).Calmly P s Q := by
  unfold Calmly
  rw [gives_bind, gives_board]

/-- A change of the memory adds no trouble. -/
@[simp] theorem calmly_modifyExtender {f : Extender → Extender} {Q : Unit → State → Prop} :
    (modifyExtender f).Calmly P s Q ↔ (P → Q () (s.amend f)) :=
  ⟨fun h hp => h.2 hp rfl, fun h => ⟨Nat.le_refl _, fun hp _ => h hp⟩⟩

/-- A change of the memory, and what follows from the changed state. -/
@[simp] theorem calmly_modifyExtender_bind {f : Extender → Extender} {k : Unit → Sim α} :
    (modifyExtender f >>= k).Calmly P s Q ↔ (k ()).Calmly P (s.amend f) Q := by
  unfold Calmly
  rw [gives_bind, gives_modifyExtender]
  exact Iff.rfl

/-- A change of the board, and what follows from the changed state. -/
@[simp] theorem calmly_modifyBoard_bind {f : Board → Board} {k : Unit → Sim α} :
    (modifyBoard f >>= k).Calmly P s Q ↔ (k ()).Calmly P (s.onBoard f) Q := by
  unfold Calmly
  rw [gives_bind, gives_modifyBoard]
  exact Iff.rfl

/-- A request for work, and what follows from the state that asks for it. -/
theorem calmly_request_bind {bits : Status} {k : Unit → Sim α} :
    (request bits >>= k).Calmly P s Q ↔ (k ()).Calmly P (s.asking bits) Q := by
  have ht : (s.asking bits).troubles = s.troubles := State.troubles_noting (n := .requested bits) (by rintro _ ⟨⟩)
  unfold Calmly State.Smooth
  rw [gives_bind, gives_request, ht]

/-- A notification of the worker, and what follows. -/
theorem calmly_notify_bind {k : Unit → Sim α} : (notify >>= k).Calmly P s Q ↔ (k ()).Calmly P (s.seeing .notified) Q := by
  have ht : (s.seeing .notified).troubles = s.troubles := State.troubles_seeing rfl
  unfold Calmly State.Smooth
  rw [gives_bind, gives_notify, ht]

theorem calmly_emit {ev : Event} (he : ev.isTrouble = false) {Q : Unit → State → Prop} (h : P → Q () (s.seeing ev)) :
    (emit ev).Calmly P s Q := by
  have ht := State.troubles_seeing (s := s) he
  exact ⟨Nat.le_of_eq ht.symm, fun hp _ => h hp⟩

/-- A result that is no fault under the condition, and what follows from its value. -/
theorem calmly_ofExcept_bind {r : Except Fault β} {f : β → Sim α} (he : ∀ x, r = .error x → ¬P)
    (hf : ∀ b, r = .ok b → (f b).Calmly P s Q) : (ofExcept r >>= f).Calmly P s Q := by
  unfold Calmly
  rw [gives_bind, gives_ofExcept]
  exact ⟨hf, fun x hx => ⟨Nat.le_refl _, fun hp _ => he x hx hp⟩⟩

end Sim

namespace Attempt

/-- The same of an attempt; a refusal is an outcome, too. -/
def Calmly (m : Attempt α) (P : Prop) (s : State) (Q : Except Error α → State → Prop) : Prop := Sim.Calmly m.run P s Q

variable {P : Prop} {s : State} {Q : Except Error α → State → Prop}

/-- A value, as an attempt. -/
theorem calmly_pure {a : α} : (pure a : Attempt α).Calmly P s Q ↔ (P → Q (.ok a) s) := Sim.calmly_pure

/-- What one part comes to is where the next one starts, unless it is refused. -/
theorem Calmly.bind {m : Attempt β} {f : β → Attempt α} {R : Except Error β → State → Prop} (h : m.Calmly P s R)
    (hf : ∀ b s₁, (f b).Calmly (P ∧ R (.ok b) s₁) s₁ Q) (he : ∀ e s₁, P → R (.error e) s₁ → Q (.error e) s₁) :
    (m >>= f).Calmly P s Q := by
  unfold Calmly
  rw [ExceptT.run_bind]
  refine Sim.Calmly.bind h fun r s₁ => ?_
  cases r with
  | ok b => exact hf b s₁
  | error e => exact Sim.calmly_pure.2 fun hp => he e s₁ hp.1 hp.2

/-- What is not refused is part of the attempt. -/
theorem calmly_liftM_bind {m : Sim β} {f : β → Attempt α} :
    (liftM m >>= f : Attempt α).Calmly P s Q ↔ (m >>= fun b => (f b).run).Calmly P s Q := by
  unfold Calmly
  rw [ExceptT.run_bind, show ExceptT.run (liftM m : Attempt β) = m >>= fun b => pure (.ok b) from
    (ExceptT.run_lift m).trans (map_eq_pure_bind _ _), bind_assoc]
  simp only [pure_bind]

/-- To look at the memory and go on by what was seen, as an attempt. -/
theorem calmly_extender_bind {f : Extender → Attempt α} :
    (liftM extender >>= f : Attempt α).Calmly P s Q ↔ (f s.extender).Calmly P s Q :=
  calmly_liftM_bind.trans Sim.calmly_extender_bind

/-- A change of the memory and what follows, as an attempt. -/
theorem calmly_modifyExtender_bind {g : Extender → Extender} {f : Unit → Attempt α} :
    (liftM (modifyExtender g) >>= f : Attempt α).Calmly P s Q ↔ (f ()).Calmly P (s.amend g) Q :=
  calmly_liftM_bind.trans Sim.calmly_modifyExtender_bind

/-- A request for work and what follows, as an attempt. -/
theorem calmly_request_bind {bits : Status} {f : Unit → Attempt α} :
    (liftM (request bits) >>= f : Attempt α).Calmly P s Q ↔ (f ()).Calmly P (s.asking bits) Q :=
  calmly_liftM_bind.trans Sim.calmly_request_bind

/-- A notification of the worker and what follows, as an attempt. -/
theorem calmly_notify_bind {f : Unit → Attempt α} :
    (liftM notify >>= f : Attempt α).Calmly P s Q ↔ (f ()).Calmly P (s.seeing .notified) Q :=
  calmly_liftM_bind.trans Sim.calmly_notify_bind

/-- A computation that cannot be refused, as an attempt. -/
theorem calmly_liftM {m : Sim α} : (liftM m : Attempt α).Calmly P s Q ↔ m.Calmly P s fun a s' => Q (.ok a) s' := by
  unfold Calmly Sim.Calmly
  rw [show ExceptT.run (liftM m : Attempt α) = m >>= fun a => pure (.ok a) from (ExceptT.run_lift m).trans (map_eq_pure_bind _ _),
    Sim.gives_bind]
  exact Iff.rfl

/-- A check, and what follows if it passes. -/
theorem calmly_ofExcept_bind {r : Except Error β} {f : β → Attempt α} (he : ∀ e, r = .error e → P → Q (.error e) s)
    (hf : ∀ b, r = .ok b → (f b).Calmly P s Q) : (ofExcept r >>= f).Calmly P s Q := by
  cases r with
  | ok b => exact hf b rfl
  | error e => exact Sim.calmly_pure.2 (he e rfl)

/-- The check that the extender has not been stopped, and what follows if it has not been. -/
theorem calmly_ensureRunning_bind {f : Unit → Attempt α} (he : s.extender.isStopped = true → P → Q (.error .stopped) s)
    (hf : s.extender.isStopped = false → (f ()).Calmly P s Q) : (Client.ensureRunning >>= f).Calmly P s Q := by
  unfold Client.ensureRunning
  rw [bind_assoc, calmly_liftM_bind, Sim.calmly_extender_bind]
  split
  · exact Sim.calmly_pure.2 (he ‹_›)
  · exact hf (Bool.eq_false_iff.2 ‹_›)

end Attempt

/-- Operations that fall into something are trouble. -/
def Disturbs (nest : Nest) : Prop := ∀ ops P s, (nest ops).Calmly P s fun _ s' => s' = s

/-- Operations that are played to some depth make a note when the first of them begins. -/
theorem Session.disturbs_nestAt (depth : Nat) : Disturbs (nestAt (depth + 1)) := by
  intro ops P s
  cases ops with
  | nil => exact calmly_pure.2 fun _ => rfl
  | cons op ops =>
    refine Calmly.of_trouble ?_
    have hp := plays_nestAt depth
    unfold nestAt playInside playAll
    simp only [gives_bind, gives_board, gives_modifyBoard, gives_note]
    generalize hs₁ : (s.onBoard _).noting (.opBegan op) = s₁
    have hmore : s.troubles < s₁.troubles := by
      rw [← hs₁]
      unfold State.troubles
      exact Nat.lt_of_lt_of_eq (Nat.lt_succ_self _) (List.countP_cons_of_pos rfl).symm
    have hlater {s' : State} (h : Goes s₁ s') : s.troubles < s'.troubles :=
      Nat.lt_of_lt_of_le hmore h.troubles_le
    refine (gives_perform hp op (s := s₁) (by rw [← hs₁]; rfl)).mono (fun r s₂ h₂ => ?_) fun _ h => hlater h
    have hend : Goes s₁ (s₂.noting (.opEnded op r)) := h₂.1.trans (Touch.goes (.ended op r h₂.2))
    exact (leads_playAll hp ops _).mono (fun _ s' h => (hlater (hend.trans h) : s.troubles < s'.troubles)) fun _ h => hlater (hend.trans h)

end PortExpander
