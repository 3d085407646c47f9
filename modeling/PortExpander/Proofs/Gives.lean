import PortExpander.Proofs.Lookups

/-!
# What a computation gives

`m.Gives s Q X` says what comes of a computation that starts in a state: a value and a state with `Q`, or a fault and a state
with `X`.
-/

namespace PortExpander

namespace State

/-- The state with the memory of the extender changed. -/
def amend (s : State) (f : Extender → Extender) : State := { s with extender := f s.extender }

/-- The state with the board changed. -/
def onBoard (s : State) (f : Board → Board) : State := { s with board := f s.board }

/-- The state with one more event in its history. -/
def seeing (s : State) (ev : Event) : State := { s with history := ev :: s.history }

/-- The state with more work asked for, of which there is a note. -/
def asking (s : State) (bits : Status) : State := (s.amend (·.request bits)).noting (.requested bits)

variable (s : State)

@[simp] theorem extender_amend (f) : (s.amend f).extender = f s.extender := rfl
@[simp] theorem extender_seeing (ev) : (s.seeing ev).extender = s.extender := rfl
@[simp] theorem history_seeing (ev) : (s.seeing ev).history = ev :: s.history := rfl
@[simp] theorem extender_noting (n) : (s.noting n).extender = s.extender := rfl

end State

variable {α β : Type}

namespace Sim

/-- From a state, a computation gives a value and a state with `Q`, or ends in a fault and a state with `X`. -/
def Gives (m : Sim α) (s : State) (Q : α → State → Prop) (X : State → Prop) : Prop :=
  match m s with
  | (.ok a, s') => Q a s'
  | (.error _, s') => X s'

variable {s : State} {Q : α → State → Prop} {X : State → Prop}

/-- What a computation gives may be told in weaker words. -/
theorem Gives.mono {m : Sim α} {Q' : α → State → Prop} {X' : State → Prop} (h : m.Gives s Q' X')
    (hQ : ∀ a s', Q' a s' → Q a s') (hX : ∀ s', X' s' → X s') : m.Gives s Q X := by
  unfold Gives at h ⊢
  revert h
  rcases m s with ⟨_ | a, s'⟩
  · exact hX s'
  · exact hQ a s'

/-- A computation that only returns a value leaves the state as it is. -/
@[simp] theorem gives_pure {a : α} : Gives (pure a) s Q X ↔ Q a s := Iff.rfl

/-- What comes of one computation after another one. -/
theorem bind_apply (m : Sim β) (f : β → Sim α) (s : State) : (m >>= f) s = match m s with
    | (.ok b, s') => f b s'
    | (.error e, s') => (.error e, s') := by
  show (ExceptT.bind m f) s = _
  unfold ExceptT.bind ExceptT.mk
  show (StateT.bind m _) s = _
  unfold StateT.bind
  rcases m s with ⟨_ | _, _⟩ <;> rfl

/-- After a computation that has come to a value, the next one goes on from there. -/
theorem bind_of_ok {m : Sim β} {f : β → Sim α} {s' : State} {b : β} (hm : m s = (.ok b, s')) : (m >>= f) s = f b s' := by
  rw [bind_apply, hm]

/-- Two computations in a row: the second starts where the first one has ended, and a fault of either one ends both. -/
@[simp] theorem gives_bind {m : Sim β} {f : β → Sim α} :
    Gives (m >>= f) s Q X ↔ Gives m s (fun b s' => Gives (f b) s' Q X) X := by
  unfold Gives
  rw [bind_apply]
  rcases m s with ⟨_ | _, _⟩ <;> exact Iff.rfl

/-- A computation that ends in a fault leaves the state as it is. -/
@[simp] theorem gives_throw {f : Fault} : Gives (throw f : Sim α) s Q X ↔ X s := Iff.rfl

/-- A result gives its value or its fault, and leaves the state as it is. -/
@[simp] theorem gives_ofExcept {r : Except Fault α} : Gives (ofExcept r : Sim α) s Q X ↔
    (∀ a, r = .ok a → Q a s) ∧ (∀ f, r = .error f → X s) := by
  cases r with
  | ok a => simp [ofExcept]
  | error f => simp [ofExcept]

/-- To look at the memory changes nothing. -/
@[simp] theorem gives_extender {Q : Extender → State → Prop} : extender.Gives s Q X ↔ Q s.extender s := Iff.rfl

/-- To look at the board changes nothing. -/
@[simp] theorem gives_board {Q : Board → State → Prop} : board.Gives s Q X ↔ Q s.board s := Iff.rfl

section

variable {Q : Unit → State → Prop}

/-- What the changes of a state give: of the memory, of the board, and of the history by an event, a note, a record, a request for
work or a notification of the worker. -/
@[simp] theorem gives_modifyExtender {f} : (modifyExtender f).Gives s Q X ↔ Q () (s.amend f) := Iff.rfl
@[simp] theorem gives_modifyBoard {f} : (modifyBoard f).Gives s Q X ↔ Q () (s.onBoard f) := Iff.rfl
@[simp] theorem gives_emit {ev} : (emit ev).Gives s Q X ↔ Q () (s.seeing ev) := Iff.rfl
@[simp] theorem gives_note {n} : (note n).Gives s Q X ↔ Q () (s.noting n) := Iff.rfl
@[simp] theorem gives_log {r} : (log r).Gives s Q X ↔ Q () (s.seeing (.logged r)) := Iff.rfl
@[simp] theorem gives_request {bits} : (request bits).Gives s Q X ↔ Q () (s.asking bits) := Iff.rfl
@[simp] theorem gives_notify : notify.Gives s Q X ↔ Q () (s.seeing .notified) := Iff.rfl

end

/-- Every computation comes to a value or to a fault. -/
theorem gives_true (m : Sim α) (s : State) : m.Gives s (fun _ _ => True) (fun _ => True) := by
  unfold Gives
  rcases m s with ⟨_ | a, s'⟩ <;> exact trivial

/-- A fault is an outcome, too. -/
@[simp] theorem gives_outcome {m : Sim α} {Q : Except Fault α → State → Prop} :
    (outcome m).Gives s Q X ↔ Q (m s).1 (m s).2 := Iff.rfl

/-- What holds of the state however a computation ends is a matter of the state alone. -/
theorem gives_iff {m : Sim α} {R : State → Prop} : m.Gives s (fun _ => R) R ↔ R (m s).2 := by
  unfold Gives
  rcases m s with ⟨_ | a, s'⟩ <;> exact Iff.rfl

/-- A computation that runs to a value has run as it is said to. -/
theorem Gives.of_ok {m : Sim α} {s' : State} {a : α} (h : m.Gives s Q X) (hm : m s = (.ok a, s')) : Q a s' := by
  unfold Gives at h
  rw [hm] at h
  exact h

/-- A computation that does not end in a fault runs to a value. -/
theorem Gives.exists_ok {m : Sim α} (h : m.Gives s Q fun _ => False) : ∃ a s', m s = (.ok a, s') ∧ Q a s' := by
  unfold Gives at h
  revert h
  rcases m s with ⟨_ | a, s'⟩
  · exact False.elim
  · exact fun h => ⟨a, s', rfl, h⟩

end Sim

namespace Attempt

/-- From a state, an attempt gives a value and a state with `Q`, is refused in a state with `E`, or ends in a fault and a
state with `X`. -/
def Gives (m : Attempt α) (s : State) (Q : α → State → Prop) (E : Error → State → Prop) (X : State → Prop) : Prop :=
  Sim.Gives m.run s (fun | .ok a => Q a | .error e => E e) X

variable {s : State} {Q : α → State → Prop} {E : Error → State → Prop} {X : State → Prop}

/-- What an attempt gives may be told in weaker words. -/
theorem Gives.mono {m : Attempt α} {Q' : α → State → Prop} {E' : Error → State → Prop} {X' : State → Prop}
    (h : m.Gives s Q' E' X') (hQ : ∀ a s', Q' a s' → Q a s') (hE : ∀ e s', E' e s' → E e s') (hX : ∀ s', X' s' → X s') :
    m.Gives s Q E X := by
  refine Sim.Gives.mono h (fun r s' => ?_) hX
  cases r with
  | ok a => exact hQ a s'
  | error e => exact hE e s'

/-- An attempt that only returns a value leaves the state as it is. -/
@[simp] theorem gives_pure {a : α} : Gives (pure a) s Q E X ↔ Q a s := Iff.rfl

/-- Two attempts in a row: a refusal of either one ends both, as a fault does. -/
@[simp] theorem gives_bind {m : Attempt β} {f : β → Attempt α} :
    Gives (m >>= f) s Q E X ↔ Gives m s (fun b s' => Gives (f b) s' Q E X) E X := by
  unfold Gives
  rw [ExceptT.run_bind, Sim.gives_bind]
  unfold Sim.Gives
  rcases m.run s with ⟨_ | _ | b, s'⟩ <;> exact Iff.rfl

/-- A refusal leaves the state as it is. -/
@[simp] theorem gives_throw {e : Error} : Gives (throw e : Attempt α) s Q E X ↔ E e s := Iff.rfl

/-- A computation that cannot be refused gives what it gives by itself. -/
@[simp] theorem gives_liftM {m : Sim α} : Gives (liftM m) s Q E X ↔ m.Gives s Q X := by
  unfold Gives
  show Sim.Gives (ExceptT.run (ExceptT.lift m)) s _ X ↔ _
  rw [ExceptT.run_lift, map_eq_pure_bind, Sim.gives_bind]
  exact Iff.rfl

/-- A check gives its value or its refusal, and leaves the state as it is. -/
@[simp] theorem gives_ofExcept {r : Except Error α} : Gives (ofExcept r : Attempt α) s Q E X ↔
    (∀ a, r = .ok a → Q a s) ∧ (∀ e, r = .error e → E e s) := by
  cases r with
  | ok a => simp [ofExcept]
  | error f => simp [ofExcept]

end Attempt

end PortExpander
