import LeanKube.BigEndian
import Mathlib.Data.Nat.BitIndices
import Mathlib.Data.Finset.Card

/-! Sets of natural numbers as the bits of a number: setting and clearing one bit, the number of set
bits, and both along a split of the number at a bit position or into bytes. -/

namespace LeanKube.BitSets
open List BigEndian

/-- `big.Int.SetBit`. -/
def setBit (n i : Nat) (b : Bool) : Nat := if b then n ||| 2 ^ i else n ^^^ (n &&& 2 ^ i)

/-- The number of bits that are set. -/
def popCount (n : Nat) : Nat := n.bitIndices.length

variable {n m i j k : Nat}

@[simp] theorem testBit_setBit (n i : Nat) (b : Bool) (j : Nat) :
    (setBit n i b).testBit j = if j = i then b else n.testBit j := by
  rw [setBit]
  cases b with
  | true | false =>
    by_cases h : j = i
    · simp [h]
    · simp [h, Ne.symm h]

/-- A number as the set of its bits. -/
def bits (n : Nat) : Finset Nat := n.bitIndices.toFinset

@[simp] theorem mem_bits : i ∈ bits n ↔ n.testBit i := by
  rw [bits, mem_toFinset, Nat.mem_bitIndices]

theorem card_bits (n : Nat) : (bits n).card = popCount n := toFinset_card_of_nodup Nat.bitIndices_nodup

theorem bits_setBit_true (n i : Nat) : bits (setBit n i true) = insert i (bits n) := by
  ext j
  by_cases h : j = i
  · simp [h]
  · simp [h]

theorem bits_setBit_false (n i : Nat) : bits (setBit n i false) = (bits n).erase i := by
  ext j
  by_cases h : j = i
  · simp [h]
  · simp [h]

theorem popCount_setBit_true (h : n.testBit i = false) : popCount (setBit n i true) = popCount n + 1 := by
  rw [← card_bits, ← card_bits, bits_setBit_true, Finset.card_insert_of_notMem]
  rw [mem_bits, h]
  exact Bool.false_ne_true

theorem popCount_setBit_false (h : n.testBit i = true) : popCount (setBit n i false) + 1 = popCount n := by
  rw [← card_bits, ← card_bits, bits_setBit_false, Finset.card_erase_add_one (mem_bits.mpr h)]

/-- Below `k` bits, one is free exactly if fewer than `k` are set. -/
theorem popCount_lt_iff (h : ∀ i, n.testBit i → i < k) : popCount n < k ↔ ∃ i < k, n.testBit i = false := by
  have hsub : bits n ⊆ Finset.range k := fun i hi => Finset.mem_range.mpr (h i (mem_bits.mp hi))
  constructor
  · intro hlt
    have hcard : (bits n).card < (Finset.range k).card := by rwa [card_bits, Finset.card_range]
    obtain ⟨i, hi, hclear⟩ := Finset.exists_mem_notMem_of_card_lt_card hcard
    exact ⟨i, Finset.mem_range.mp hi, by simpa using hclear⟩
  · rintro ⟨i, hi, hclear⟩
    have hss : bits n ⊂ Finset.range k := by
      refine ⟨hsub, fun hsup => ?_⟩
      have hmem := hsup (Finset.mem_range.mpr hi)
      rw [mem_bits, hclear] at hmem
      exact Bool.false_ne_true hmem
    have hcard := Finset.card_lt_card hss
    rwa [card_bits, Finset.card_range] at hcard

/-! ### Splitting a number -/

/-- The bits of a number are those of its low part, and those of its high part moved up. -/
theorem bitIndices_split (h : m < 2 ^ k) : (2 ^ k * n + m).bitIndices = m.bitIndices ++ n.bitIndices.map (· + k) := by
  have hbelow : ∀ i ∈ m.bitIndices, i < k := fun i hi =>
    (Nat.pow_lt_pow_iff_right (by decide)).mp ((Nat.two_pow_le_of_mem_bitIndices hi).trans_lt h)
  have hsorted : (m.bitIndices ++ n.bitIndices.map (· + k)).SortedLT := by
    apply List.Pairwise.sortedLT
    rw [pairwise_append]
    refine ⟨Nat.bitIndices_sorted.pairwise, ?_, ?_⟩
    · rw [pairwise_map]
      exact Nat.bitIndices_sorted.pairwise.imp fun hlt => Nat.add_lt_add_right hlt k
    · intro i hi j hj
      obtain ⟨l, -, rfl⟩ := mem_map.mp hj
      exact (hbelow i hi).trans_le (Nat.le_add_left k l)
  have hsum : ((m.bitIndices ++ n.bitIndices.map (· + k)).map (2 ^ ·)).sum = 2 ^ k * n + m := by
    have hshift : (n.bitIndices.map (· + k)).map (2 ^ ·) = (n.bitIndices.map (2 ^ ·)).map (2 ^ k * ·) := by
      rw [map_map, map_map]
      apply map_congr_left
      intro i _
      simp only [Function.comp_apply]
      rw [pow_add, Nat.mul_comm]
    rw [map_append, sum_append, Nat.sum_map_two_pow_bitIndices, hshift, sum_map_mul_left, map_id',
      Nat.sum_map_two_pow_bitIndices, Nat.add_comm]
  rw [← hsum, Nat.bitIndices_sum_map_two_pow hsorted]

theorem popCount_split (h : m < 2 ^ k) : popCount (2 ^ k * n + m) = popCount n + popCount m := by
  rw [popCount, bitIndices_split h, length_append, length_map, Nat.add_comm]
  rfl

/-- The bits of a number can be counted byte by byte. -/
theorem popCount_value (bs : List UInt8) : popCount (value bs) = (bs.map fun b => popCount b.toNat).sum := by
  induction bs with
  | nil => rfl
  | cons b bs ih =>
    have hlt : value bs < 2 ^ (8 * bs.length) := by
      rw [pow_mul]
      exact value_lt bs
    rw [value_cons, map_cons, sum_cons, ← ih, Nat.mul_comm,
      show (256 : Nat) = 2 ^ 8 from rfl, ← pow_mul, popCount_split hlt]

/-! ### Scans that wrap around -/

theorem mem_map_add_mod {start offset max : Nat} :
    offset ∈ (List.range max).map (fun i => (start + i) % max) ↔ offset < max := by
  rw [mem_map]
  constructor
  · rintro ⟨i, hi, rfl⟩
    exact Nat.mod_lt _ ((Nat.zero_le i).trans_lt (mem_range.mp hi))
  · -- `offset` is reached after its distance from the start.
    intro hoff
    have hstart : start % max < max := Nat.mod_lt _ ((Nat.zero_le _).trans_lt hoff)
    by_cases hle : start % max ≤ offset
    · refine ⟨offset - start % max, mem_range.mpr (by omega), ?_⟩
      rw [← Nat.mod_add_mod, Nat.add_sub_cancel' hle, Nat.mod_eq_of_lt hoff]
    · refine ⟨max - start % max + offset, mem_range.mpr (by omega), ?_⟩
      rw [← Nat.mod_add_mod, show start % max + (max - start % max + offset) = offset + max by omega,
        Nat.add_mod_right, Nat.mod_eq_of_lt hoff]

end LeanKube.BitSets
