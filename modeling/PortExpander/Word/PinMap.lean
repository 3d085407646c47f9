import PortExpander.Word.Byte

/-!
# Maps of pins

One bit per pin for up to 64 pins, in eight groups of eight. Clients address single pins, the bus moves whole groups.
The operations here are total; a running extender first makes sure that there is a bit for the pin, or a byte for the group.
-/

namespace PortExpander

/-- One bit for each of 64 pins. -/
structure PinMap where
  bits : BitVec 64
  deriving DecidableEq

namespace PinMap

/-- No pin's bit is set. -/
def empty : PinMap := ⟨0⟩

instance : Inhabited PinMap := ⟨empty⟩

/-- The bit of a pin. -/
def get (m : PinMap) (pin : Nat) : Bool := m.bits.getLsbD pin

/-- The map with the bit of one pin replaced. -/
def set (m : PinMap) (pin : Nat) (value : Bool) : PinMap :=
  if value then ⟨m.bits ||| BitVec.twoPow 64 pin⟩ else ⟨m.bits &&& ~~~BitVec.twoPow 64 pin⟩

/-- Replaces the bit of one pin, and tells whether it was different before. -/
def assign (m : PinMap) (pin : Nat) (value : Bool) : Bool × PinMap :=
  (m.get pin != value, m.set pin value)

/-- The eight bits of a group. -/
def byte (m : PinMap) (group : Nat) : Byte := m.bits.extractLsb' (8 * group) 8

/-- The map with the eight bits of one group replaced. -/
def setByte (m : PinMap) (group : Nat) (value : Byte) : PinMap :=
  ⟨(m.bits &&& ~~~(255#64 <<< (8 * group))) ||| (value.setWidth 64 <<< (8 * group))⟩

/-- Replaces the eight bits of one group, and gives the ones it held before. -/
def swapByte (m : PinMap) (group : Nat) (value : Byte) : Byte × PinMap :=
  (m.byte group, m.setByte group value)

/-- The groups in which some pin's bit is set. -/
def groups (m : PinMap) : Byte := Byte.ofGroups fun g => m.byte g != 0

/-- How many pins' bits are set. -/
def count (m : PinMap) : Nat := ((List.range 64).filter m.get).length

/-- A word, or a byte, has a bit in common with the mask of a pin if it has the pin's bit. -/
theorem and_twoPow_bne_zero {w : Nat} (b : BitVec w) (i : Nat) : (b &&& BitVec.twoPow w i != 0) = b.getLsbD i := by
  rw [BitVec.and_twoPow]
  cases h : b.getLsbD i with
  | false => simp
  | true =>
    have hi : i < w := BitVec.lt_of_getLsbD h
    have hne : BitVec.twoPow w i ≠ 0#w := by
      intro hzero
      have hbit := congrArg (·.getLsbD i) hzero
      simp [hi] at hbit
    simpa using hne

/-- Replacing a pin's bit leaves those of the other pins. -/
theorem get_set (m : PinMap) (pin : Nat) (value : Bool) (i : Nat) (h : pin < 64) :
    (m.set pin value).get i = if i = pin then value else m.get i := by
  unfold get set
  by_cases hi : i = pin
  · subst hi
    cases value <;> simp [h]
  · cases value
    · by_cases h64 : i < 64
      · simp [hi, h64]
      · simp [hi, BitVec.getLsbD_of_ge _ _ (Nat.le_of_not_lt h64)]
    · simp [hi, Ne.symm hi]

/-- A group's bits are those of its pins. -/
theorem getLsbD_byte (m : PinMap) (group bit : Nat) (h : bit < 8) :
    (m.byte group).getLsbD bit = m.get (8 * group + bit) := by
  simp [byte, get, h]

/-- A pin's bit is one of its group's. -/
theorem get_eq_getLsbD_byte (m : PinMap) (pin : Nat) : m.get pin = (m.byte (pin / 8)).getLsbD (pin % 8) := by
  rw [getLsbD_byte _ _ _ (Nat.mod_lt _ (by decide)), Nat.div_add_mod]

/-- Replacing a group's bits leaves those of the pins in other groups. -/
theorem get_setByte (m : PinMap) (group : Nat) (value : Byte) (i : Nat) (h : group < 8) :
    (m.setByte group value).get i = if i / 8 = group then value.getLsbD (i % 8) else m.get i := by
  have h255 (k : Nat) : (255#64).getLsbD k = decide (k < 8) := by
    rw [show (255#64) = BitVec.ofNat 64 (2 ^ 8 - 1) from rfl, BitVec.getLsbD_ofNat, Nat.testBit_two_pow_sub_one]
    by_cases hk : k < 8 <;> simp [hk]
    omega
  simp only [get, setByte, BitVec.getLsbD_or, BitVec.getLsbD_and, BitVec.getLsbD_not, BitVec.getLsbD_shiftLeft, h255,
    BitVec.getLsbD_setWidth]
  by_cases hi : i / 8 = group
  · have h64 : i < 64 := by omega
    have hlow : ¬i < 8 * group := by omega
    have hsub : i - 8 * group = i % 8 := by omega
    have hmod : i % 8 < 64 := by omega
    simp [hi, h64, hlow, hsub, hmod, Nat.mod_lt]
  · by_cases hlow : i < 8 * group
    · have h64 : i < 64 := by omega
      simp [hi, hlow, h64]
    · have hsub : ¬i - 8 * group < 8 := by omega
      have hv : value.getLsbD (i - 8 * group) = false := BitVec.getLsbD_of_ge _ _ (by omega)
      by_cases h64 : i < 64
      · simp [hi, hlow, h64, hsub, hv]
      · have hm : m.bits.getLsbD i = false := BitVec.getLsbD_of_ge _ _ (by omega)
        simp [hi, h64, hm]

/-- Replacing a group's bits leaves those of the other groups. -/
theorem byte_setByte (m : PinMap) (group : Nat) (value : Byte) (i : Nat) (h : group < 8) :
    (m.setByte group value).byte i = if i = group then value else m.byte i := by
  apply BitVec.eq_of_getLsbD_eq
  intro bit hb
  have hdiv : (8 * i + bit) / 8 = i := by omega
  have hmod : (8 * i + bit) % 8 = bit := by omega
  rw [getLsbD_byte _ _ _ hb, get_setByte _ _ _ _ h, hdiv, hmod]
  split
  · rfl
  · rw [getLsbD_byte _ _ _ hb]

end PinMap

end PortExpander
