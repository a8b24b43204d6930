import LeanKube.BitSets
import Mathlib.Data.Nat.Digits.Defs

/-! The allocation bitmap (`pkg/registry/core/service/allocator`): a set of allocated offsets, the count
of its elements, and a scan for a free offset. The count is the number of set bits in every bitmap that
the operations make. -/

namespace LeanKube.Allocator
open BitSets BigEndian List Bool Function

/-! ### Counting bits -/

def bitCounts : List Nat :=
  [0, 1, 1, 2, 1, 2, 2, 3, 1, 2, 2, 3, 2, 3, 3, 4, 1, 2, 2, 3, 2, 3, 3, 4, 2, 3, 3, 4, 3, 4, 4, 5,
   1, 2, 2, 3, 2, 3, 3, 4,
   2, 3, 3, 4, 3, 4, 4, 5,
   2, 3, 3, 4, 3, 4, 4, 5,
   3, 4, 4, 5, 4, 5, 5, 6,
   1, 2, 2, 3, 2, 3, 3, 4,
   2, 3, 3, 4, 3, 4, 4, 5,
   2, 3, 3, 4, 3, 4, 4, 5,
   3, 4, 4, 5, 4, 5, 5, 6,
   2, 3, 3, 4, 3, 4, 4, 5,
   3, 4, 4, 5, 4, 5, 5, 6,
   3, 4, 4, 5, 4, 5, 5, 6,
   4, 5, 5, 6, 5, 6, 6, 7,
   1, 2, 2, 3, 2, 3, 3, 4,
   2, 3, 3, 4, 3, 4, 4, 5,
   2, 3, 3, 4, 3, 4, 4, 5,
   3, 4, 4, 5, 4, 5, 5, 6,
   2, 3, 3, 4, 3, 4, 4, 5,
   3, 4, 4, 5, 4, 5, 5, 6,
   3, 4, 4, 5, 4, 5, 5, 6,
   4, 5, 5, 6, 5, 6, 6, 7,
   2, 3, 3, 4, 3, 4, 4, 5,
   3, 4, 4, 5, 4, 5, 5, 6,
   3, 4, 4, 5, 4, 5, 5, 6,
   4, 5, 5, 6, 5, 6, 6, 7,
   3, 4, 4, 5, 4, 5, 5, 6,
   4, 5, 5, 6, 5, 6, 6, 7,
   4, 5, 5, 6, 5, 6, 6, 7,
   5, 6, 6, 7, 6, 7, 7, 8]

def countBits (n : Nat) : Nat := ((bytes n).map fun b => bitCounts.getD b.toNat 0).sum

theorem bitCounts_eq : ∀ b < 256, bitCounts.getD b 0 = popCount b := by decide +kernel

theorem countBits_eq (n : Nat) : countBits n = popCount n := by
  have hmap : (bytes n).map (fun b => bitCounts.getD b.toNat 0) = (bytes n).map fun b => popCount b.toNat := by
    apply map_congr_left
    intro b _
    exact bitCounts_eq b.toNat b.toNat_lt
  rw [countBits, hmap, ← popCount_value, value_bytes]

/-! ### The bitmap -/

inductive Strategy where
  | randomScan
  | contiguousScan
  deriving DecidableEq, Repr

structure AllocationBitmap where
  strategy : Strategy
  max : Nat
  rangeSpec : String
  count : Int
  allocated : Nat
  deriving DecidableEq, Repr

/-- The offsets in the order of the scan. The random one starts at `rand.Intn(max)`, here `rand % max`. -/
def Strategy.scan (rand max : Nat) : Strategy → List Nat
  | .randomScan => (List.range max).map fun i => (rand % max + i) % max
  | .contiguousScan => List.range max

def Strategy.allocateBit (strategy : Strategy) (rand allocated max : Nat) (count : Int) : Option Nat :=
  if (max : Int) ≤ count then none
  else (strategy.scan rand max).find? fun offset => !allocated.testBit offset

namespace AllocationBitmap

def newAllocationMap (max : Nat) (rangeSpec : String) : AllocationBitmap where
  strategy := .randomScan
  max := max
  rangeSpec := rangeSpec
  count := 0
  allocated := 0

variable (r : AllocationBitmap) (offset : Nat)

def allocate : AllocationBitmap × Bool :=
  if r.allocated.testBit offset then (r, false)
  else ({ r with allocated := setBit r.allocated offset true, count := r.count + 1 }, true)

def allocateNext (rand : Nat) : AllocationBitmap × Option Nat :=
  match r.strategy.allocateBit rand r.allocated r.max r.count with
  | none => (r, none)
  | some next => ({ r with count := r.count + 1, allocated := setBit r.allocated next true }, some next)

def release : AllocationBitmap :=
  if !r.allocated.testBit offset then r
  else { r with allocated := setBit r.allocated offset false, count := r.count - 1 }

/-- The loop over the bits of a word in `ForEach`: the offsets it is called with, from `bit` on. -/
def wordOffsets (word bit : Nat) : List Nat :=
  if word = 0 then []
  else if word % 2 = 1 then bit :: wordOffsets (word / 2) (bit + 1)
  else wordOffsets (word / 2) (bit + 1)

def wordsOffsets : Nat → List Nat → List Nat
  | _, [] => []
  | wordIdx, word :: words => wordOffsets word (wordIdx * 64) ++ wordsOffsets (wordIdx + 1) words

def forEach : List Nat := wordsOffsets 0 (Nat.digits (2 ^ 64) r.allocated)

def has : Bool := r.allocated.testBit offset

def snapshot : String × List UInt8 := (r.rangeSpec, bytes r.allocated)

def restore (rangeSpec : String) (data : List UInt8) : Except String AllocationBitmap :=
  if r.rangeSpec ≠ rangeSpec then .error "the provided range does not match the current range"
  else .ok { r with allocated := value data, count := countBits (value data) }

/-! ### What the operations do to the set -/

variable {r} {offset rand : Nat} {max : Nat} {strategy : Strategy}

theorem mem_scan : offset ∈ strategy.scan rand max ↔ offset < max := by
  cases strategy with
  | contiguousScan => exact mem_range
  | randomScan => exact mem_map_add_mod

theorem allocateBit_lt {allocated : Nat} {count : Int}
    (h : strategy.allocateBit rand allocated max count = some offset) :
    offset < max ∧ allocated.testBit offset = false := by
  rw [Strategy.allocateBit] at h
  split_ifs at h with hfull
  exact ⟨mem_scan.mp (mem_of_find?_eq_some h), by simpa using List.find?_some h⟩

theorem allocateBit_isSome {allocated : Nat} {count : Int} (hcnt : count < max)
    (hoff : offset < max) (hfree : allocated.testBit offset = false) :
    (strategy.allocateBit rand allocated max count).isSome := by
  rw [Strategy.allocateBit, if_neg (not_le.mpr hcnt), List.find?_isSome]
  exact ⟨offset, mem_scan.mpr hoff, by rw [hfree]; rfl⟩

/-- The bitmap with one more offset. -/
def take (r : AllocationBitmap) (offset : Nat) : AllocationBitmap :=
  { r with allocated := setBit r.allocated offset true, count := r.count + 1 }

theorem bits_take (r : AllocationBitmap) (offset : Nat) :
    bits (r.take offset).allocated = insert offset (bits r.allocated) := bits_setBit_true r.allocated offset

theorem allocate_cases (r : AllocationBitmap) (offset : Nat) :
    r.allocate offset = (r, false) ∧ offset ∈ bits r.allocated ∨
      r.allocate offset = (r.take offset, true) ∧ offset ∉ bits r.allocated := by
  rw [allocate, mem_bits]
  split_ifs with hbit
  · exact .inl ⟨rfl, hbit⟩
  · exact .inr ⟨rfl, hbit⟩

theorem allocateNext_cases (r : AllocationBitmap) (rand : Nat) :
    r.allocateNext rand = (r, none) ∨
      ∃ next, r.allocateNext rand = (r.take next, some next) ∧ next < r.max ∧ next ∉ bits r.allocated := by
  rw [allocateNext]
  cases hnext : r.strategy.allocateBit rand r.allocated r.max r.count with
  | none => exact .inl rfl
  | some next =>
    obtain ⟨hlt, hfree⟩ := allocateBit_lt hnext
    exact .inr ⟨next, rfl, hlt, by simp [hfree]⟩

theorem restore_ok_iff {rangeSpec : String} {data : List UInt8} {after : AllocationBitmap} :
    r.restore rangeSpec data = .ok after ↔ r.rangeSpec = rangeSpec ∧
      after = { r with allocated := value data, count := popCount (value data) } := by
  rw [restore, countBits_eq]
  by_cases hspec : r.rangeSpec = rangeSpec
  · rw [if_neg (not_not.mpr hspec), Except.ok.injEq]
    exact ⟨fun h => ⟨hspec, h.symm⟩, fun h => h.2.symm⟩
  · rw [if_pos hspec]
    constructor
    · intro h
      cases h
    · exact fun h => absurd h.1 hspec

theorem bits_release (r : AllocationBitmap) (offset : Nat) :
    bits (r.release offset).allocated = (bits r.allocated).erase offset := by
  rw [release]
  split_ifs with hbit
  · rw [Finset.erase_eq_of_notMem]
    simpa using hbit
  · exact bits_setBit_false r.allocated offset

structure Valid (r : AllocationBitmap) : Prop where
  count_eq : r.count = popCount r.allocated
  lt_max : ∀ offset, r.allocated.testBit offset → offset < r.max

theorem Valid.new (max : Nat) (rangeSpec : String) : (newAllocationMap max rangeSpec).Valid where
  count_eq := rfl
  lt_max offset h := absurd h (by rw [newAllocationMap, Nat.zero_testBit]; exact false_ne_true)

/-- A valid bitmap of the same range. -/
structure ValidAs (after r : AllocationBitmap) : Prop where
  max_eq : after.max = r.max
  rangeSpec_eq : after.rangeSpec = r.rangeSpec
  valid : after.Valid

namespace Valid
variable (h : r.Valid)
include h

theorem take (hoff : offset < r.max) (hfree : offset ∉ bits r.allocated) : (r.take offset).ValidAs r := by
  refine ⟨rfl, rfl, ?_, fun i hi => ?_⟩
  · rw [AllocationBitmap.take, popCount_setBit_true (by simpa using hfree), h.count_eq]
    rfl
  · rw [AllocationBitmap.take, testBit_setBit] at hi
    split_ifs at hi with heq
    · rwa [heq]
    · exact h.lt_max i hi

theorem allocate (hoff : offset < r.max) : (r.allocate offset).1.ValidAs r := by
  rcases r.allocate_cases offset with ⟨heq, -⟩ | ⟨heq, hfree⟩ <;> rw [heq]
  · exact ⟨rfl, rfl, h⟩
  · exact h.take hoff hfree

theorem allocateNext (rand : Nat) : (r.allocateNext rand).1.ValidAs r := by
  rcases r.allocateNext_cases rand with heq | ⟨_, heq, hlt, hfree⟩ <;> rw [heq]
  · exact ⟨rfl, rfl, h⟩
  · exact h.take hlt hfree

theorem release (offset : Nat) : (r.release offset).ValidAs r := by
  rw [AllocationBitmap.release]
  split_ifs with hbit
  · exact ⟨rfl, rfl, h⟩
  · refine ⟨rfl, rfl, ?_, fun i hi => ?_⟩
    · have hcnt := popCount_setBit_false (by simpa using hbit)
      rw [h.count_eq, ← hcnt]
      simp
    · rw [testBit_setBit] at hi
      split_ifs at hi
      exact h.lt_max i hi

omit h in
theorem restore {other after : AllocationBitmap} (hother : other.Valid) (hmax : other.max = r.max)
    {rangeSpec : String} (hafter : r.restore rangeSpec other.snapshot.2 = .ok after) : after.ValidAs r := by
  obtain ⟨-, rfl⟩ := restore_ok_iff.mp hafter
  simp only [snapshot, value_bytes]
  exact ⟨rfl, rfl, rfl, fun i hi => hmax ▸ hother.lt_max i hi⟩

end Valid

theorem Valid.allocateNext_isSome_iff (h : r.Valid) (rand : Nat) :
    (r.allocateNext rand).2.isSome ↔ ∃ offset < r.max, offset ∉ bits r.allocated := by
  simp only [mem_bits, not_eq_true]
  rw [AllocationBitmap.allocateNext]
  cases hnext : r.strategy.allocateBit rand r.allocated r.max r.count with
  | some next => exact ⟨fun _ => ⟨next, allocateBit_lt hnext⟩, fun _ => rfl⟩
  | none =>
    refine ⟨fun hsome => absurd hsome false_ne_true, ?_⟩
    rintro ⟨offset, hoff, hfree⟩
    have hcnt : r.count < r.max := by
      rw [h.count_eq]
      exact_mod_cast (popCount_lt_iff h.lt_max).mpr ⟨offset, hoff, hfree⟩
    have hsome : (r.strategy.allocateBit rand r.allocated r.max r.count).isSome :=
      allocateBit_isSome hcnt hoff hfree
    rw [hnext] at hsome
    cases hsome

/-! ### The offsets that are visited -/

theorem wordOffsets_eq (word bit : Nat) : wordOffsets word bit = word.bitIndices.map (· + bit) := by
  induction word using Nat.strongRecOn generalizing bit with
  | ind word ih =>
    rw [wordOffsets]
    split_ifs with hzero hodd
    · rw [hzero, Nat.bitIndices_zero, map_nil]
    · have hword : 2 * (word / 2) + 1 = word := by omega
      rw [ih (word / 2) (by omega)]
      conv_rhs => rw [← hword, Nat.bitIndices_two_mul_add_one, map_cons, map_map, Nat.zero_add]
      simp [comp_def, Nat.add_assoc, Nat.add_comm 1]
    · have hword : 2 * (word / 2) = word := by omega
      rw [ih (word / 2) (by omega)]
      conv_rhs => rw [← hword, Nat.bitIndices_two_mul, map_map]
      simp [comp_def, Nat.add_assoc, Nat.add_comm 1]

theorem wordsOffsets_eq (wordIdx n : Nat) :
    wordsOffsets wordIdx (Nat.digits (2 ^ 64) n) = n.bitIndices.map (· + wordIdx * 64) := by
  induction n using Nat.strongRecOn generalizing wordIdx with
  | ind n ih =>
    by_cases hzero : n = 0
    · rw [hzero, Nat.digits_zero, Nat.bitIndices_zero]
      rfl
    · have hsplit : 2 ^ 64 * (n / 2 ^ 64) + n % 2 ^ 64 = n := Nat.div_add_mod n _
      have hpos : 0 < n := Nat.pos_of_ne_zero hzero
      rw [Nat.digits_def' (by decide) hpos, wordsOffsets, wordOffsets_eq,
        ih (n / 2 ^ 64) (Nat.div_lt_self hpos (by decide))]
      conv_rhs => rw [← hsplit, bitIndices_split (Nat.mod_lt n (by decide)), map_append, map_map]
      simp [comp_def, Nat.add_assoc, Nat.add_mul, Nat.add_comm 64]

theorem forEach_eq (r : AllocationBitmap) : r.forEach = r.allocated.bitIndices := by
  rw [forEach, wordsOffsets_eq]
  simp

end AllocationBitmap
end LeanKube.Allocator
