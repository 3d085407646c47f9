import Mathlib.Data.List.DropRight
import PortExpander.Proofs.SharedMaps

/-!
# Failures in a row

A backoff is told of failures and of successes, and counts the failures in a row that it was told of last. `Backoff.Tallies` says that
the byte it keeps is that number, up to the limit; the count that a failure is answered with is worked out apart from it. Every outcome
keeps the two together, whatever the limit, and until the next success the wait does not get shorter.
-/

namespace PortExpander

namespace Backoff

/-! ## Rows of outcomes -/

/-- What a backoff is told of. -/
inductive Outcome where
  | failure
  | success
  deriving DecidableEq

/-- Records an outcome; a failure is answered with a count. -/
def perform (b : Backoff) : Outcome → Option Byte × Backoff
  | .failure => (some b.fail.1, b.fail.2)
  | .success => (none, b.recordSuccess)

/-- What a new backoff answers to some outcomes, the earliest first, and the backoff after them. -/
def play (most : Byte) (outcomes : List Outcome) : List (Option Byte) × Backoff := inTurn perform (.new most.toNat) outcomes

/-- How many failures there are since the last success, or since the beginning. -/
def streak (outcomes : List Outcome) : Nat := (outcomes.rtakeWhile (· = .failure)).length

/-- One more failure in a row. -/
theorem streak_failure (outcomes : List Outcome) : streak (outcomes ++ [.failure]) = streak outcomes + 1 := by
  rw [streak, List.rtakeWhile_concat_pos _ _ _ (by decide), List.length_append]
  rfl

/-- A success ends the row. -/
theorem streak_success (outcomes : List Outcome) : streak (outcomes ++ [.success]) = 0 := by
  rw [streak, List.rtakeWhile_concat_neg _ _ _ (by decide)]
  rfl

theorem play_append (most : Byte) (outcomes more : List Outcome) :
    (play most (outcomes ++ more)).2 = (inTurn perform (play most outcomes).2 more).2 := by
  rw [play, inTurn_append]
  rfl

/-! ## The count -/

variable {b : Backoff} {most : Byte} {n : Nat}

/-- The backoff has a given limit and has counted a number of failures, or as many as it counts. -/
structure Tallies (b : Backoff) (most : Byte) (n : Nat) : Prop where
  limit : b.limit = most.toNat
  count : b.count = min most.toNat n

namespace Tallies

/-- A new count has counted nothing. -/
theorem new (most : Byte) : (new most.toNat).Tallies most 0 where
  limit := by
    show (BitVec.ofNat 8 most.toNat).toNat = most.toNat
    rw [BitVec.ofNat_toNat, BitVec.setWidth_eq]
  count := (Nat.min_zero _).symm

/-- A failure is counted, up to the most that is counted. -/
theorem recordFailure (h : b.Tallies most n) : b.recordFailure.Tallies most (n + 1) where
  limit := h.limit
  count := by
    rw [count_recordFailure, h.limit, h.count]
    omega

/-- A success takes the count back. -/
theorem recordSuccess (h : b.Tallies most n) : b.recordSuccess.Tallies most 0 where
  limit := h.limit
  count := (Nat.min_zero _).symm

/-- The count has not gone past the limit. -/
theorem count_le (h : b.Tallies most n) : b.count ≤ b.limit := by
  rw [h.limit, h.count]
  exact Nat.min_le_left _ _

end Tallies

/-- After any outcomes the failures since the last success are counted. -/
theorem tallies_play (most : Byte) (outcomes : List Outcome) : (play most outcomes).2.Tallies most (streak outcomes) := by
  induction outcomes using List.reverseRecOn with
  | nil => exact .new most
  | append_singleton outcomes outcome ih =>
    rw [play_append]
    cases outcome with
    | failure =>
      rw [streak_failure]
      exact ih.recordFailure
    | success =>
      rw [streak_success]
      exact ih.recordSuccess

/-! ## The answers -/

/-- A failure is answered with the count that is kept after it. -/
theorem answer_of_failure (most : Byte) (before later : List Outcome) :
    (play most (before ++ .failure :: later)).1[before.length]? = some (some (play most (before ++ [.failure])).2.errors) := by
  rw [play_append, play, inTurn_append]
  show (_ ++ (inTurn perform (play most before).2 (.failure :: later)).1)[before.length]? = _
  rw [List.getElem?_append_right (Nat.le_of_eq (length_inTurn ..)), length_inTurn, Nat.sub_self]
  exact congrArg (fun answer => some (some answer)) (fail_fst _)

/-! ## The wait -/

/-- The wait gets no shorter while there is no success. -/
theorem delay_le_delay_inTurn (h : b.Tallies most n) {more : List Outcome} (hm : .success ∉ more) :
    b.delay ≤ (inTurn perform b more).2.delay := by
  induction more generalizing b n with
  | nil => exact Nat.le_refl _
  | cons outcome more ih =>
    cases outcome with
    | failure =>
      calc b.delay ≤ b.recordFailure.delay := delay_le_delay_recordFailure h.count_le
        _ ≤ (inTurn perform b.recordFailure more).2.delay := ih h.recordFailure fun hmem => hm (List.mem_cons_of_mem _ hmem)
    | success => exact absurd List.mem_cons_self hm

end Backoff

/-- A backoff counts failures in a row. After any outcomes, and for every limit that is a byte, its count is that of the failures since
the last success, or the limit if that is less; every failure has been answered with the count right after it; the wait is ten
milliseconds for each counted failure, and the product fits into its word; and until the next success the wait gets no shorter. -/
theorem backoff_counts_failures_in_a_row (most : Byte) (outcomes : List Backoff.Outcome) :
    let answers := (Backoff.play most outcomes).1
    let b := (Backoff.play most outcomes).2
    b.count = min most.toNat (Backoff.streak outcomes) ∧
    (∀ before later, outcomes = before ++ .failure :: later →
      answers[before.length]? = some (some (Backoff.play most (before ++ [.failure])).2.errors)) ∧
    b.delay = 10 * b.count ∧ BitVec.umulOverflow (b.errors.setWidth 32) (.ofNat 32 backoffStep) = false ∧
    ∀ more, .success ∉ more → b.delay ≤ (Backoff.play most (outcomes ++ more)).2.delay := by
  intro answers b
  have htallies : b.Tallies most (Backoff.streak outcomes) := Backoff.tallies_play most outcomes
  refine ⟨htallies.count, ?_, b.delay_eq.trans (Nat.mul_comm _ _), b.umulOverflow_errors, ?_⟩
  · rintro before later rfl
    exact Backoff.answer_of_failure most before later
  · intro more hm
    rw [Backoff.play_append]
    exact Backoff.delay_le_delay_inTurn htallies hm

/-- A failure, a success and three hundred failures, with the greatest byte for a limit: the count stays there, and the failure that
finds it there is answered with it. -/
theorem backoff_counts_failures_in_a_row_to_the_greatest_byte :
    let outcomes : List Backoff.Outcome := .failure :: .success :: List.replicate 300 .failure
    let before : List Backoff.Outcome := .failure :: .success :: List.replicate 255 .failure
    let answers := (Backoff.play 255 outcomes).1
    let b := (Backoff.play 255 outcomes).2
    b.count = 255 ∧ outcomes = before ++ .failure :: List.replicate 44 .failure ∧ answers[257]? = some (some 255) ∧ b.delay = 2550 ∧
      .success ∉ [Backoff.Outcome.failure] ∧ b.delay ≤ (Backoff.play 255 (outcomes ++ [.failure])).2.delay := by
  intro outcomes before answers b
  obtain ⟨hcount, hanswers, hdelay, -, hlonger⟩ := backoff_counts_failures_in_a_row 255 outcomes
  have hsplit : outcomes = before ++ .failure :: List.replicate 44 .failure := by decide +kernel
  have hstreak : Backoff.streak outcomes = 300 := by decide +kernel
  have hfull : (Backoff.play 255 (before ++ [.failure])).2.errors = 255 := by decide +kernel
  have hmost : b.count = 255 := by
    rw [hcount, hstreak]
    rfl
  have hlength : before.length = 257 := by decide +kernel
  have hanswer := hanswers before _ hsplit
  rw [hfull, hlength] at hanswer
  rw [hmost] at hdelay
  exact ⟨hmost, hsplit, hanswer, hdelay, by decide, hlonger _ (by decide)⟩

/-- A backoff with no room counts nothing. -/
example : (Backoff.play 0 [.failure, .failure, .success, .failure]).1 = [some 0, some 0, none, some 0] := by decide

end PortExpander
