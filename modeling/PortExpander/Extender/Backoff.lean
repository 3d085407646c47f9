import PortExpander.Word.Byte

/-!
# Backing off after failures

The worker waits between passes while transactions fail, the longer the more of them have failed since the last pass
without a failure. The count stops at a limit, so the wait is bounded.

The count and its limit are bytes, and the wait is a word of 32 bits. Whoever records a failure is told the new count, which
is worked out once more from the count that was found.
-/

namespace PortExpander

/-- The most failures a backoff counts unless it is told otherwise. -/
def maxErrorCount : Nat := 50

/-- How many milliseconds each counted failure adds to the wait. -/
def backoffStep : Nat := 10

/-- A count of failures and its limit. -/
structure Backoff where
  errors : Byte
  most : Byte
  deriving DecidableEq

namespace Backoff

/-- No failures so far. The limit is taken as a byte. -/
def new (limit : Nat) : Backoff := { errors := 0, most := .ofNat 8 limit }

instance : Inhabited Backoff := ⟨new maxErrorCount⟩

variable (b : Backoff)

/-- How many failures are counted. -/
def count : Nat := b.errors.toNat

/-- How many failures are counted at most. -/
def limit : Nat := b.most.toNat

/-- One more than a count that was found, up to the limit. -/
def oneMore (found : Byte) : Byte := (found.saturatingPlus 1).atMost b.most

/-- Changes the count to what `f` makes of it, unless that is nothing; gives the count that was found if it was changed. -/
def change (f : Byte → Option Byte) : Option Byte × Backoff :=
  match f b.errors with
  | some errors => (some b.errors, { b with errors })
  | none => (none, b)

/-- Counts one more failure, up to the limit, and tells the new count. -/
def fail : Byte × Backoff :=
  let (found, changed) := b.change fun errors => some (b.oneMore errors)
  (b.oneMore (found.getD b.most), changed)

/-- The backoff after one more failure. -/
def recordFailure : Backoff := b.fail.2

/-- All failures are forgotten. -/
def recordSuccess : Backoff := { b with errors := 0 }

/-- How long to wait, in milliseconds, as a word. -/
def delayWord : BitVec 32 := b.errors.setWidth 32 * .ofNat 32 backoffStep

/-- How long to wait, in milliseconds. -/
def delay : Nat := b.delayWord.toNat

/-- The limit is a byte, so the count gets there before there is no greater byte. -/
@[simp] theorem count_recordFailure : b.recordFailure.count = min (b.count + 1) b.limit := by
  show ((b.errors.saturatingPlus 1).atMost b.most).toNat = _
  have hlimit : b.limit < 256 := b.most.isLt
  rw [Byte.toNat_atMost, Byte.toNat_saturatingPlus, count, limit]
  show min (min (b.errors.toNat + 1) 255) b.limit = min (b.errors.toNat + 1) b.limit
  omega

/-- The count that is told is the one that is kept: the count is always changed, so there is one that was found. -/
theorem fail_fst : b.fail.1 = b.recordFailure.errors := rfl

/-- No count is so high that the wait would not fit into its word. -/
theorem umulOverflow_errors : BitVec.umulOverflow (b.errors.setWidth 32) (.ofNat 32 backoffStep) = false := by
  have hcount : b.errors.toNat < 256 := b.errors.isLt
  rw [BitVec.umulOverflow, decide_eq_false_iff_not, BitVec.toNat_setWidth, BitVec.toNat_ofNat]
  show ¬b.errors.toNat % 2 ^ 32 * (10 % 2 ^ 32) ≥ 2 ^ 32
  omega

/-- The delay grows by a step with each counted failure. -/
theorem delay_eq : b.delay = b.count * backoffStep := by
  have hfits := Bool.eq_false_iff.1 b.umulOverflow_errors
  rw [delay, delayWord, BitVec.toNat_mul_of_not_umulOverflow hfits, BitVec.toNat_setWidth_of_le (by decide)]
  rfl

/-- One more failure never makes the wait shorter. -/
theorem delay_le_delay_recordFailure {b : Backoff} (h : b.count ≤ b.limit) : b.delay ≤ b.recordFailure.delay := by
  rw [delay_eq, delay_eq, count_recordFailure]
  exact Nat.mul_le_mul_right _ (Nat.le_min.2 ⟨Nat.le_succ _, h⟩)

end Backoff

end PortExpander
