import PortExpander.Proofs.Registers

/-!
# Places of groups

A register of a group is found by two sums of bytes: the address of the first chip and the number of the group's chip, the register of
the first bank and the number of the group's bank. The number of the chip is cut to a byte before it is added. What `locate` gives, and
when it fails, is read off these sums once, for a family with any number of banks; the group can then be recovered from its place, and
no place holds registers of two rows.
-/

namespace PortExpander

namespace Family

variable {f : Family} {address address' reg reg' : Byte} {group group' : Nat} {place place' : Place}

/-- A chip of the family has a bank, and a byte tells how many pins it has. -/
structure Banked (f : Family) : Prop where
  banks : 8 ≤ f.pinsPerDevice
  byte : f.pinsPerDevice < 256

/-- A chip of such a family has a bank. -/
theorem Banked.pos (hf : f.Banked) : 0 < f.registersPerDevice := Nat.div_pos hf.banks (by decide)

/-- A chip of such a family has fewer than 32 banks. -/
theorem Banked.lt (hf : f.Banked) : f.registersPerDevice < 32 := Nat.div_lt_of_lt_mul hf.byte

/-- With a bank on every chip, a group has a place, which the two sums tell, or one of the sums is no byte. -/
theorem Banked.locate_cases (hf : f.Banked) (address : Byte) (group : Nat) (reg : Byte) :
    (∃ place, f.locate address group reg = .ok place ∧
      place.address.toNat = address.toNat + group / f.registersPerDevice % 256 ∧
      place.register.toNat = reg.toNat + group % f.registersPerDevice) ∨
    (255 < address.toNat + group / f.registersPerDevice % 256 ∨ 255 < reg.toNat + group % f.registersPerDevice) ∧
      f.locate address group reg = .error .addOverflow := by
  have hmod := Nat.mod_lt group hf.pos
  have hlt := hf.lt
  have hbank : group % f.registersPerDevice % 256 = group % f.registersPerDevice := Nat.mod_eq_of_lt (by omega)
  have hcases := Family.locate_cases hf.pos address group reg
  rwa [hbank] at hcases

/-- The two sums are the place of a group that has one. -/
theorem Banked.sums_of_place (hf : f.Banked) (h : f.locate address group reg = .ok place) :
    place.address.toNat = address.toNat + group / f.registersPerDevice % 256 ∧
      place.register.toNat = reg.toNat + group % f.registersPerDevice := by
  rcases hf.locate_cases address group reg with ⟨place', h', hsums⟩ | ⟨-, h'⟩
  · rw [h] at h'
    cases h'
    exact hsums
  · rw [h] at h'
    cases h'

/-- A group has no place just if one of the sums is no byte. -/
theorem Banked.locate_eq_error_iff (hf : f.Banked) : f.locate address group reg = .error .addOverflow ↔
    255 < address.toNat + group / f.registersPerDevice % 256 ∨ 255 < reg.toNat + group % f.registersPerDevice := by
  rcases hf.locate_cases address group reg with ⟨place, h, ha, hr⟩ | ⟨hover, h⟩
  · have halt := place.address.isLt
    have hrlt := place.register.isLt
    rw [h]
    refine ⟨nofun, fun hover => ?_⟩
    omega
  · exact ⟨fun _ => hover, fun _ => h⟩

/-- The chip's number, cut to a byte, and the bank's number make the group's number, cut to 256 chips. -/
theorem group_of_chip_and_bank (group n : Nat) : group / n % 256 * n + group % n = group % (256 * n) := by
  rw [Nat.mul_comm 256 n, Nat.mod_mul, Nat.add_comm, Nat.mul_comm n]

/-- A group's number, cut to 256 chips, can be told from its place. -/
theorem Banked.group_of_place (hf : f.Banked) (h : f.locate address group reg = .ok place) :
    address.toNat ≤ place.address.toNat ∧ reg.toNat ≤ place.register.toNat ∧
      (place.address.toNat - address.toNat) * f.registersPerDevice + (place.register.toNat - reg.toNat) =
        group % (256 * f.registersPerDevice) := by
  obtain ⟨ha, hr⟩ := hf.sums_of_place h
  refine ⟨by omega, by omega, ?_⟩
  rw [ha, hr, Nat.add_sub_cancel_left, Nat.add_sub_cancel_left, group_of_chip_and_bank]

/-- Of the groups on the first 256 chips, a place is that of one. -/
theorem Banked.locate_inj (hf : f.Banked) (hg : group < 256 * f.registersPerDevice) (hg' : group' < 256 * f.registersPerDevice)
    (h : f.locate address group reg = .ok place) (h' : f.locate address group' reg = .ok place) : group = group' := by
  obtain ⟨-, -, heq⟩ := hf.group_of_place h
  obtain ⟨-, -, heq'⟩ := hf.group_of_place h'
  rw [Nat.mod_eq_of_lt hg] at heq
  rw [Nat.mod_eq_of_lt hg'] at heq'
  exact heq.symm.trans heq'

/-- Group 512 of chips with two banks would be on chip 256, and has the place of group 0. -/
example : Device.pca9555.family.locate 0x20 512 2 = Device.pca9555.family.locate 0x20 0 2 := by cbv

/-- Rows of registers that are as far apart as a chip has banks have no register in common, wherever the chips are. -/
theorem Banked.register_ne (hf : f.Banked)
    (hfar : reg.toNat + f.registersPerDevice ≤ reg'.toNat ∨ reg'.toNat + f.registersPerDevice ≤ reg.toNat)
    (h : f.locate address group reg = .ok place) (h' : f.locate address' group' reg' = .ok place') :
    place.register ≠ place'.register := by
  obtain ⟨-, hr⟩ := hf.sums_of_place h
  obtain ⟨-, hr'⟩ := hf.sums_of_place h'
  have hbank := Nat.mod_lt group hf.pos
  have hbank' := Nat.mod_lt group' hf.pos
  intro heq
  rw [heq] at hr
  omega

end Family

/-- Groups have places of their own. With `n` banks on a chip, `n` any number that the pins of a chip can make, a group fails to be
located just if the chip's number, cut to a byte, leaves the byte when it is added to the address, or the bank's number does so when it
is added to the register. Otherwise the place tells the group's number modulo `256 * n`: so no two groups below that number share a
place, and rows of registers that are `n` or more apart share none for any two groups. -/
theorem groups_have_places_of_their_own {f : Family} (hbanks : 8 ≤ f.pinsPerDevice) (hbyte : f.pinsPerDevice < 256)
    (address reg : Byte) :
    let n := f.pinsPerDevice / 8
    (∀ group,
      (f.locate address group reg = .error .addOverflow ↔
        255 < address.toNat + group / n % 256 ∨ 255 < reg.toNat + group % n) ∧
      (¬(255 < address.toNat + group / n % 256 ∨ 255 < reg.toNat + group % n) →
        ∃ place, f.locate address group reg = .ok place ∧ address.toNat ≤ place.address.toNat ∧ reg.toNat ≤ place.register.toNat ∧
          (place.address.toNat - address.toNat) * n + (place.register.toNat - reg.toNat) = group % (256 * n))) ∧
    (∀ group group' place, group < 256 * n → group' < 256 * n → f.locate address group reg = .ok place →
      f.locate address group' reg = .ok place → group = group') ∧
    ∀ address' reg' group group' place place', reg.toNat + n ≤ reg'.toNat ∨ reg'.toNat + n ≤ reg.toNat →
      f.locate address group reg = .ok place → f.locate address' group' reg' = .ok place' → place ≠ place' := by
  intro n
  have hf : f.Banked := ⟨hbanks, hbyte⟩
  refine ⟨fun group => ⟨?_, fun hfits => ?_⟩, fun group group' place hg hg' h h' => hf.locate_inj hg hg' h h', ?_⟩
  · exact hf.locate_eq_error_iff
  · rcases hf.locate_cases address group reg with ⟨place, h, -⟩ | ⟨hover, -⟩
    · exact ⟨place, h, hf.group_of_place h⟩
    · exact absurd hover hfits
  · intro address' reg' group group' place place' hfar h h' heq
    exact hf.register_ne hfar h h' (congrArg Place.register heq)

/-- Chips of 29 pins have three banks. Group 766 lies on chip 255, for which the sum is a byte behind address 0 and none behind address 1;
group 767 lies in the last bank, for which the sum is no byte behind register 0xfe. -/
theorem groups_have_places_of_their_own_of_three_banks :
    let f : Family := { Device.pca9555.family with pinsPerDevice := 29 }
    f.locate 1 766 0x10 = .error .addOverflow ∧ f.locate 0 767 0xfe = .error .addOverflow ∧
    f.locate 0 767 0x10 = .ok ⟨255, 0x12⟩ ∧ (∀ group < 768, f.locate 0 group 0x10 = .ok ⟨255, 0x12⟩ → group = 767) ∧
    ∀ group place, f.locate 0 group 0x0d = .ok place → place ≠ ⟨255, 0x12⟩ := by
  intro f
  obtain ⟨hsums, -, -⟩ := groups_have_places_of_their_own (f := f) (by decide) (by decide) 1 0x10
  obtain ⟨hsums', -, -⟩ := groups_have_places_of_their_own (f := f) (by decide) (by decide) 0 0xfe
  obtain ⟨-, hinj, hfar⟩ := groups_have_places_of_their_own (f := f) (by decide) (by decide) 0 0x10
  have hplace : f.locate 0 767 0x10 = .ok ⟨255, 0x12⟩ := by cbv
  refine ⟨(hsums 766).1.2 (by decide), (hsums' 767).1.2 (by decide), hplace, ?_, ?_⟩
  · intro group hg h
    exact hinj group 767 _ (Nat.lt_of_lt_of_le hg (by decide)) (by decide) h hplace
  · intro group place h heq
    exact hfar 0 0x0d 767 group _ place (by decide) hplace h heq.symm

end PortExpander
