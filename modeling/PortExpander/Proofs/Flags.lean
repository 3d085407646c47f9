import PortExpander.Extender.Status

/-!
# Containment of flags

A set of flags contains another if it has all of its bits. What is asked for is added to the status word and taken out of it
as a whole, so most statements about the word follow from how containment behaves under unions and differences.
-/

namespace PortExpander

namespace FlagSet

variable {w : Nat} {a b c : FlagSet w}

/-- A set contains another if it has all of its bits. -/
theorem contains_iff : a.contains b = true ↔ ∀ i, b.bits.getLsbD i = true → a.bits.getLsbD i = true := by
  rw [contains, beq_iff_eq]
  constructor
  · intro h i hi
    rw [← h, BitVec.getLsbD_and, Bool.and_eq_true] at hi
    exact hi.1
  · intro h
    apply BitVec.eq_of_getLsbD_eq
    intro i _
    rw [BitVec.getLsbD_and]
    cases hb : b.bits.getLsbD i
    · rw [Bool.and_false]
    · rw [h i hb, Bool.and_self]

theorem contains_refl (a : FlagSet w) : a.contains a = true :=
  contains_iff.2 fun _ h => h

/-- Every set of flags contains the empty one. -/
theorem contains_empty (a : FlagSet w) : a.contains ∅ = true := by
  refine contains_iff.2 fun i hi => ?_
  change (0#w).getLsbD i = true at hi
  simp at hi

/-- A union contains what its parts contain. -/
theorem contains_union_left (b : FlagSet w) (h : a.contains c = true) : (a ∪ b).contains c = true := by
  refine contains_iff.2 fun i hi => ?_
  show (a.bits ||| b.bits).getLsbD i = true
  rw [BitVec.getLsbD_or, contains_iff.1 h i hi, Bool.true_or]

/-- A union contains what its right side contains. -/
theorem contains_union_right (a : FlagSet w) (h : b.contains c = true) : (a ∪ b).contains c = true := by
  refine contains_iff.2 fun i hi => ?_
  show (a.bits ||| b.bits).getLsbD i = true
  rw [BitVec.getLsbD_or, contains_iff.1 h i hi, Bool.or_true]

/-- A flag that is in a union is in one of its parts. -/
theorem contains_union_flag (a b : FlagSet w) {i : Nat} (hi : i < w) :
    (a ∪ b).contains (flag i) = (a.contains (flag i) || b.contains (flag i)) := by
  rw [contains_flag hi, contains_flag hi, contains_flag hi]
  exact BitVec.getLsbD_or

/-- Adding other bits does not change what a set contains of a flag. -/
theorem contains_union_other (a : FlagSet w) {i : Nat} (hi : i < w) (hb : b.contains (flag i) = false) :
    (a ∪ b).contains (flag i) = a.contains (flag i) := by
  rw [contains_union_flag a b hi, hb, Bool.or_false]

theorem union_right_comm (a b c : FlagSet w) : (a ∪ b) ∪ c = (a ∪ c) ∪ b := by
  have hbits : (a.bits ||| b.bits) ||| c.bits = (a.bits ||| c.bits) ||| b.bits := by
    rw [BitVec.or_assoc, BitVec.or_comm b.bits, ← BitVec.or_assoc]
  exact congrArg FlagSet.mk hbits

/-- Nothing is added by the empty set. -/
theorem union_empty (a : FlagSet w) : a ∪ ∅ = a := by
  show (⟨a.bits ||| 0#w⟩ : FlagSet w) = a
  rw [BitVec.or_zero]

/-- Taking other bits out of a set leaves it what it contains of the rest. -/
theorem contains_sdiff (h : a.contains c = true) (hbc : b.bits &&& c.bits = 0) : (a \ b).contains c = true := by
  refine contains_iff.2 fun i hi => ?_
  have hb : b.bits.getLsbD i = false := by
    have := congrArg (·.getLsbD i) hbc
    simpa [hi] using this
  show (a.bits &&& ~~~b.bits).getLsbD i = true
  have hw : i < w := BitVec.lt_of_getLsbD hi
  rw [BitVec.getLsbD_and, BitVec.getLsbD_not, contains_iff.1 h i hi, hb]
  simp [hw]

/-- A union is empty if both of its parts are. -/
@[simp] theorem isEmpty_union (a b : FlagSet w) : (a ∪ b).isEmpty = (a.isEmpty && b.isEmpty) := by
  unfold isEmpty
  rw [Bool.eq_iff_iff, Bool.and_eq_true, beq_iff_eq, beq_iff_eq, beq_iff_eq]
  exact BitVec.or_eq_zero_iff

/-- An empty set contains no flag. -/
theorem not_isEmpty_of_contains_flag {i : Nat} (hi : i < w) (h : a.contains (flag i) = true) : a.isEmpty = false := by
  rw [contains_flag hi] at h
  cases ha : a.isEmpty
  · rfl
  · rw [isEmpty, beq_iff_eq] at ha
    rw [ha] at h
    simp at h

end FlagSet

namespace Status

/-- A pass takes every flag out of the word but `busy`. -/
theorem contains_pending {word f : Status} (h : word.contains f = true) (hf : vocabulary.all.contains f = true)
    (hb : busy.bits &&& f.bits = 0) : (pending word).contains f = true := by
  refine FlagSet.contains_sdiff (FlagSet.contains_iff.2 fun i hi => ?_) hb
  show (word.bits &&& vocabulary.all.bits).getLsbD i = true
  rw [BitVec.getLsbD_and, FlagSet.contains_iff.1 h i hi, FlagSet.contains_iff.1 hf i hi, Bool.and_self]

/-- Releasing the word takes no request out of it. -/
theorem contains_release {word f : Status} (h : word.contains f = true) (hb : busy.bits &&& f.bits = 0) :
    (release word).contains f = true :=
  FlagSet.contains_sdiff h hb

end Status

end PortExpander
