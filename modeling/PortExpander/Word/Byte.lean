/-!
# Bytes

Addresses, register numbers and register contents are bytes. A byte also serves as a mask of the eight register groups an
extender can have: bit `g` stands for group `g`, the pins `8 * g` to `8 * g + 7`.
-/

namespace PortExpander

/-- An address, a register number, the content of a register, or a mask of groups. -/
abbrev Byte := BitVec 8

/-- The lower-case hexadecimal digits of a number, without leading zeros. -/
def hexDigits (n : Nat) : String :=
  String.ofList (Nat.toDigits 16 n)

namespace Byte

/-- The two lower-case hexadecimal digits of a byte. -/
def hex (b : Byte) : String :=
  String.ofList [Nat.digitChar (b.toNat / 16), Nat.digitChar (b.toNat % 16)]

/-- The low four bits of a byte as binary digits, highest first. -/
def nibble (b : Byte) : String :=
  String.ofList ([3, 2, 1, 0].map fun i => if b.getLsbD i then '1' else '0')

/-- The mask of the groups for which `p` holds. -/
def ofGroups (p : Nat → Bool) : Byte :=
  (List.range 8).foldl (fun mask g => if p g then mask ||| BitVec.twoPow 8 g else mask) 0#8

/-- The groups of a mask, ascending. -/
def groups (mask : Byte) : List Nat :=
  (List.range 8).filter fun g => mask.getLsbD g

/-- The sum of two bytes, or the greatest byte if the sum is no byte. -/
def saturatingPlus (a b : Byte) : Byte := if a.toNat + b.toNat < 256 then a + b else 255

/-- A byte, but no more than a limit. -/
def atMost (b limit : Byte) : Byte := if b ≤ limit then b else limit

/-- The number of a sum that stops at the greatest byte. -/
@[simp] theorem toNat_saturatingPlus (a b : Byte) : (a.saturatingPlus b).toNat = min (a.toNat + b.toNat) 255 := by
  unfold saturatingPlus
  split
  · rw [BitVec.toNat_add]
    omega
  · show 255 = _
    omega

/-- The number of a byte that is held below a limit. -/
@[simp] theorem toNat_atMost (b limit : Byte) : (b.atMost limit).toNat = min b.toNat limit.toNat := by
  unfold atMost
  split <;> rename_i h <;> rw [BitVec.le_def] at h <;> omega

/-- The mask has the bits of the groups for which `p` holds. -/
@[simp] theorem getLsbD_ofGroups (p : Nat → Bool) (g : Nat) : (ofGroups p).getLsbD g = (decide (g < 8) && p g) := by
  have h : ∀ (l : List Nat) (m : Byte), (∀ i ∈ l, i < 8) →
      (l.foldl (fun mask g => if p g then mask ||| BitVec.twoPow 8 g else mask) m).getLsbD g =
        (m.getLsbD g || (decide (g ∈ l) && p g)) := by
    intro l
    induction l with
    | nil => intro m _; simp
    | cons i l ih =>
      intro m hl
      rw [List.foldl_cons, ih _ fun j hj => hl j (List.mem_cons_of_mem i hj)]
      have hi := hl i List.mem_cons_self
      by_cases hp : p i <;> by_cases hg : i = g
      · subst hg
        simp [hp, hi]
      · simp [hp, hg, Ne.symm hg]
      · subst hg
        simp [hp]
      · simp [hp, Ne.symm hg]
  rw [ofGroups, h _ _ fun i hi => List.mem_range.1 hi]
  simp

/-- The groups of a mask are those whose bit it has. -/
@[simp] theorem mem_groups {mask : Byte} {g : Nat} : g ∈ mask.groups ↔ mask.getLsbD g = true := by
  simp only [groups, List.mem_filter, List.mem_range, and_iff_right_iff_imp]
  exact BitVec.lt_of_getLsbD

/-- There are eight groups. -/
theorem lt_of_mem_groups {mask : Byte} {g : Nat} (h : g ∈ mask.groups) : g < 8 := BitVec.lt_of_getLsbD (mem_groups.1 h)

/-- The mask of all groups has every one of them. -/
theorem getLsbD_255 {g : Nat} (hg : g < 8) : (255 : Byte).getLsbD g = true := by
  have h : ∀ g < 8, (255 : Byte).getLsbD g = true := by decide
  exact h g hg

end Byte

end PortExpander
