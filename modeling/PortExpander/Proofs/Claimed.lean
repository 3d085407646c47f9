import Mathlib.Data.Finset.Card
import PortExpander.Proofs.Footprint
import PortExpander.Proofs.SharedMaps

/-!
# Claimed pins as a set

A table of claims is a capacity and a word; what clients see of it is a set of pins. Claims put pins into the set and are refused if the
pin does not exist or is in the set already, freeing a pin takes it out. `Claims.Means` says what of the word tells of the set: its bits
pin by pin, how many of its bits are set, and which of its bytes are not zero. Every request keeps it, so it holds after any row of them.
-/

namespace PortExpander

/-! ## Requests -/

/-- What is asked of a table of claims. -/
inductive Claims.Request where
  | claim (pin : Nat)
  | free (pin : Nat)

namespace Claims

/-- Does what is asked; a claim that is refused leaves the table as it is. -/
def perform (c : Claims) : Request → Except Error Unit × Claims
  | .claim pin =>
    match c.claim pin with
    | .ok c => (.ok (), c)
    | .error e => (.error e, c)
  | .free pin => (.ok (), c.free pin)

/-- What is asked, done to a set of pins below a capacity. -/
def Request.apply (capacity : Nat) (s : Finset Nat) : Request → Except Error Unit × Finset Nat
  | claim pin =>
    if capacity ≤ pin then (.error (.range pin capacity), s)
    else if pin ∈ s then (.error (.alreadyClaimed pin), s)
    else (.ok (), insert pin s)
  | free pin => (.ok (), s.erase pin)

end Claims

/-! ## What a word tells of a set -/

namespace PinMap

variable {m : PinMap} {s : Finset Nat}

/-- The count of a map is the population count of its word. -/
theorem cpop_eq_count (m : PinMap) : m.bits.cpop.toNat = m.count := by
  have h (n : Nat) : m.bits.cpopNatRec n 0 = ((List.range n).filter m.get).length := by
    induction n with
    | zero => rfl
    | succ n ih =>
      rw [BitVec.cpopNatRec_succ, BitVec.cpopNatRec_add, ih, List.range_succ, List.filter_append, List.length_append]
      cases hn : m.bits.getLsbD n <;> simp [get, hn]
  rw [BitVec.toNat_cpop]
  exact h 64

/-- A map of the pins of a set has as many bits. -/
theorem count_eq_card (h : ∀ pin, m.get pin = true ↔ pin ∈ s) : m.count = s.card := by
  have hs : ((List.range 64).filter m.get).toFinset = s := by
    ext pin
    rw [List.mem_toFinset, List.mem_filter, List.mem_range, h, and_iff_right_iff_imp]
    intro hpin
    exact lt_of_get ((h pin).2 hpin)
  rw [← hs, List.toFinset_card_of_nodup (List.nodup_range.filter _), count]

/-- A map of the pins of a set has the groups of these pins. -/
theorem getLsbD_groups_iff (h : ∀ pin, m.get pin = true ↔ pin ∈ s) (g : Nat) :
    m.groups.getLsbD g = true ↔ ∃ pin ∈ s, 8 * g ≤ pin ∧ pin ≤ 8 * g + 7 := by
  constructor
  · intro hg
    obtain ⟨pin, hpin, hget⟩ := exists_get_of_groups hg
    exact ⟨pin, (h pin).1 hget, by omega, by omega⟩
  · rintro ⟨pin, hpin, hlow, hhigh⟩
    have hgroup : pin / 8 = g := by omega
    exact hgroup ▸ groups_of_get ((h pin).2 hpin)

end PinMap

namespace Claims

variable {c : Claims} {s : Finset Nat} {pin : Nat}

/-- A pin that the table has no room for cannot be claimed. -/
theorem claim_of_outside (hpin : c.capacity ≤ pin) : c.claim pin = .error (.range pin c.capacity) := by
  unfold claim checkRange
  rw [if_neg (by omega)]
  rfl

/-- The table means a set of pins that it has room for: the word has their bits and no others, they are claimed, as many are counted as
there are, and their groups are those of the table. -/
structure Means (c : Claims) (s : Finset Nat) : Prop where
  inside : ∀ pin ∈ s, pin < c.capacity
  bits : ∀ pin, c.claimed.get pin = true ↔ pin ∈ s
  masks : ∀ pin, (c.claimed.bits &&& BitVec.twoPow 64 pin != 0) = true ↔ pin ∈ s
  isClaimed : ∀ pin, c.isClaimed pin = true ↔ pin ∈ s
  count : c.count = s.card
  population : c.claimed.bits.cpop.toNat = s.card
  groups : ∀ g, c.groups.getLsbD g = true ↔ ∃ pin ∈ s, 8 * g ≤ pin ∧ pin ≤ 8 * g + 7

namespace Means

/-- The bits of the word tell everything else. -/
theorem of_bits (hin : ∀ pin ∈ s, pin < c.capacity) (h : ∀ pin, c.claimed.get pin = true ↔ pin ∈ s) : c.Means s where
  inside := hin
  bits := h
  masks pin := by
    rw [PinMap.and_twoPow_bne_zero]
    exact h pin
  isClaimed pin := by
    rw [Claims.isClaimed, Bool.and_eq_true, decide_eq_true_eq, h, and_iff_right_iff_imp]
    exact hin pin
  count := PinMap.count_eq_card h
  population := (PinMap.cpop_eq_count _).trans (PinMap.count_eq_card h)
  groups := PinMap.getLsbD_groups_iff h

/-- A table is told by its capacity and the set that it means. -/
theorem unique {c' : Claims} (hm : c.Means s) (hm' : c'.Means s) (hcap : c.capacity = c'.capacity) : c = c' := by
  have hbits : c.claimed = c'.claimed := by
    apply PinMap.ext_get
    intro pin
    rw [Bool.eq_iff_iff, hm.bits, hm'.bits]
  cases c
  cases c'
  simp_all

/-- A new table means the empty set. -/
theorem new {capacity : Nat} (hcap : capacity ≤ 64) : (Claims.new capacity hcap).Means ∅ := by
  refine of_bits (by simp) ?_
  intro pin
  simp [Claims.new, PinMap.get, PinMap.empty]

/-! ## Requests and the set -/

/-- A pin of the set cannot be claimed. -/
theorem claim_of_mem (hm : c.Means s) (hpin : pin ∈ s) : c.claim pin = .error (.alreadyClaimed pin) := by
  unfold claim checkRange
  rw [if_pos (hm.inside pin hpin), if_pos ((hm.isClaimed pin).2 hpin)]
  rfl

/-- A pin that the table has room for and that is not in the set is put into it. -/
theorem claim_of_notMem (hm : c.Means s) (hpin : pin < c.capacity) (hno : pin ∉ s) :
    ∃ c', c.claim pin = .ok c' ∧ c'.capacity = c.capacity ∧ c'.Means (insert pin s) := by
  refine ⟨{ c with claimed := c.claimed.set pin true }, ?_, rfl, of_bits ?_ ?_⟩
  · have hfree : ¬c.isClaimed pin = true := fun h => hno ((hm.isClaimed pin).1 h)
    unfold claim checkRange
    rw [if_pos hpin, if_neg hfree]
    rfl
  · intro i hi
    rcases Finset.mem_insert.1 hi with rfl | hi
    · exact hpin
    · exact hm.inside i hi
  · intro i
    rw [PinMap.get_set _ _ _ _ (Nat.lt_of_lt_of_le hpin c.room), Finset.mem_insert, ← hm.bits]
    by_cases hi : i = pin <;> simp [hi]

/-- A pin that is freed is taken out of the set. -/
theorem free (hm : c.Means s) (pin : Nat) : (c.free pin).Means (s.erase pin) := by
  unfold Claims.free
  by_cases hpin : pin < c.capacity
  · rw [if_pos hpin]
    refine of_bits ?_ ?_
    · intro i hi
      exact hm.inside i (Finset.mem_of_mem_erase hi)
    · intro i
      rw [PinMap.get_set _ _ _ _ (Nat.lt_of_lt_of_le hpin c.room), Finset.mem_erase, ← hm.bits]
      by_cases hi : i = pin <;> simp [hi]
  · rw [if_neg hpin, Finset.erase_eq_of_notMem (fun h => hpin (hm.inside pin h))]
    exact hm

/-- A request does to the table what it does to the set. -/
theorem perform (hm : c.Means s) (r : Request) : (c.perform r).1 = (r.apply c.capacity s).1 ∧
    (c.perform r).2.capacity = c.capacity ∧ (c.perform r).2.Means (r.apply c.capacity s).2 := by
  cases r with
  | claim pin =>
    unfold Claims.perform Request.apply
    by_cases hpin : c.capacity ≤ pin
    · simpa [hpin, claim_of_outside hpin] using hm
    · by_cases hmem : pin ∈ s
      · simpa [hpin, hmem, hm.claim_of_mem hmem] using hm
      · obtain ⟨c', hc, hcapacity, hm'⟩ := hm.claim_of_notMem (by omega) hmem
        simpa [hpin, hmem, hc] using ⟨hcapacity, hm'⟩
  | free pin => exact ⟨rfl, c.capacity_free pin, hm.free pin⟩

/-- A row of requests does to the table what it does to the set. -/
theorem inTurn (hm : c.Means s) (requests : List Request) :
    let table := inTurn Claims.perform c requests
    let set := inTurn (fun s r => r.apply c.capacity s) s requests
    table.1 = set.1 ∧ table.2.capacity = c.capacity ∧ table.2.Means set.2 := by
  refine inTurn_congr (fun (c' : Claims) s => c'.capacity = c.capacity ∧ c'.Means s) ?_ ⟨rfl, hm⟩ requests
  rintro c' s r ⟨hc, hm'⟩
  have hstep := hm'.perform r
  rwa [hc] at hstep

end Means

end Claims

/-- Claimed pins are a set. After any row of requests the table means the set that comes of them, and has given the answers that the set
gives. A claim then succeeds just if the pin is below the capacity and not in the set, and puts it there; it is refused with the range if
there is no such pin, and as claimed already if it is in the set. Freeing a pin takes out that pin alone; to free it again, or to free a
pin that there is not, changes nothing. -/
theorem claimed_pins_are_a_set {capacity : Nat} (hcap : capacity ≤ 64) (requests : List Claims.Request) :
    let table := inTurn Claims.perform (.new capacity hcap) requests
    let set := inTurn (fun s r => r.apply capacity s) ∅ requests
    let c := table.2
    let s := set.2
    table.1 = set.1 ∧ c.Means s ∧ (∀ pin ∈ s, pin < capacity) ∧ ∀ pin,
      (capacity ≤ pin → c.claim pin = .error (.range pin capacity)) ∧
      (pin ∈ s → c.claim pin = .error (.alreadyClaimed pin)) ∧
      (pin < capacity → pin ∉ s → ∃ c', c.claim pin = .ok c' ∧ c'.Means (insert pin s)) ∧
      (c.free pin).Means (s.erase pin) ∧ (c.free pin).free pin = c.free pin ∧ (capacity ≤ pin → c.free pin = c) := by
  intro table set c s
  obtain ⟨hanswers, hroom, hm⟩ := (Claims.Means.new hcap).inTurn requests
  replace hroom : c.capacity = capacity := hroom
  replace hm : c.Means s := hm
  refine ⟨hanswers, hm, hroom ▸ hm.inside, fun pin => ⟨?_, hm.claim_of_mem, ?_, hm.free pin, ?_, ?_⟩⟩
  · intro hpin
    rw [Claims.claim_of_outside (by omega), hroom]
  · intro hpin hno
    obtain ⟨c', hc', -, hm'⟩ := hm.claim_of_notMem (by omega) hno
    exact ⟨c', hc', hm'⟩
  · have hfree := hm.free pin
    have hagain := hfree.free pin
    rw [Finset.erase_idem] at hagain
    exact hagain.unique hfree (Claims.capacity_free _ pin)
  · intro hpin
    rw [Claims.free, if_neg (by omega)]

/-- A table of twenty pins. Pin 19 is claimed twice, pin 17 is claimed and freed twice, pins 20 and 255 are not there. -/
theorem claimed_pins_are_a_set_of_twenty :
    let requests : List Claims.Request := [.claim 19, .claim 3, .claim 19, .claim 17, .claim 20, .free 17, .free 17, .free 255]
    let table := inTurn Claims.perform (.new 20 (by decide)) requests
    table.1 = [.ok (), .ok (), .error (.alreadyClaimed 19), .ok (), .error (.range 20 20), .ok (), .ok (), .ok ()] ∧
      table.2.Means {3, 19} ∧ table.2.count = 2 ∧ table.2.claim 64 = .error (.range 64 20) ∧
      ∃ c, table.2.claim 17 = .ok c ∧ c.Means {17, 3, 19} := by
  intro requests table
  have hset : inTurn (fun s r => r.apply 20 s) ∅ requests =
      ([.ok (), .ok (), .error (.alreadyClaimed 19), .ok (), .error (.range 20 20), .ok (), .ok (), .ok ()], {3, 19}) := rfl
  obtain ⟨hanswers, hm, -, hnext⟩ := @claimed_pins_are_a_set 20 (by decide) requests
  rw [hset] at hanswers hm hnext
  exact ⟨hanswers, hm, hm.count, (hnext 64).1 (by decide), (hnext 17).2.2.1 (by decide) (by decide)⟩

end PortExpander
