import Mathlib.Data.List.Basic
import Mathlib.Data.Nat.ModEq

/-! A cyclic buffer of fixed capacity with indices that only grow: index `i` stands for the cell
`i % capacity`. Read from `startIndex` to `endIndex`, the buffer is the list of the newest elements
pushed since it was last emptied. -/

namespace LeanKube
open Nat

def cellAt {α : Type} {capacity : Nat} (cache : Vector (Option α) capacity) (i : Nat) : Option α :=
  (cache[i % capacity]?).join

/-- A cyclic buffer whose cells from `startIndex` to `endIndex` are written. -/
structure CyclicBuffer (α : Type) (capacity : Nat) where
  cache : Vector (Option α) capacity
  startIndex : Nat
  endIndex : Nat
  pos : 0 < capacity
  start_le : startIndex ≤ endIndex
  end_le : endIndex ≤ startIndex + capacity
  written : ∀ i, startIndex ≤ i → i < endIndex → ∃ x, cellAt cache i = some x

theorem cellAt_set {α : Type} {capacity : Nat} (cache : Vector (Option α) capacity)
    (hpos : 0 < capacity) (i j : Nat) (x : α) :
    cellAt (cache.setIfInBounds (j % capacity) (some x)) i =
      if i % capacity = j % capacity then some x else cellAt cache i := by
  have hj : j % capacity < capacity := mod_lt j hpos
  unfold cellAt
  rw [Vector.getElem?_setIfInBounds]
  by_cases h : i % capacity = j % capacity
  · rw [if_pos h.symm, if_pos hj, if_pos h]
    rfl
  · rw [if_neg (Ne.symm h), if_neg h]

theorem eq_of_mod_eq {capacity i j : Nat} (hij : i ≤ j) (hlt : j < i + capacity)
    (h : i % capacity = j % capacity) : i = j := by
  have hsub : (j - i) % capacity = 0 := sub_mod_eq_zero_of_mod_eq h.symm
  rw [mod_eq_of_lt (by omega)] at hsub
  omega

theorem filterMap_drop {ι α : Type} {f : ι → Option α} {indices : List ι}
    (hf : ∀ i ∈ indices, ∃ x, f i = some x) (k : Nat) :
    (indices.drop k).filterMap f = (indices.filterMap f).drop k := by
  induction indices generalizing k with
  | nil => simp
  | cons i _ ih =>
    obtain ⟨x, hx⟩ := hf i List.mem_cons_self
    cases k with
    | zero => rfl
    | succ k =>
      rw [List.filterMap_cons_some hx, List.drop_succ_cons, List.drop_succ_cons]
      exact ih (fun j hj => hf j (List.mem_cons_of_mem i hj)) k

namespace CyclicBuffer
variable {α : Type} {capacity : Nat} (b : CyclicBuffer α capacity)

def empty (α : Type) (capacity : Nat) (pos : 0 < capacity) : CyclicBuffer α capacity where
  cache := Vector.replicate capacity none
  startIndex := 0
  endIndex := 0
  pos := pos
  start_le := le_rfl
  end_le := by omega
  written i _ h := absurd h (not_lt_zero i)

def clear : CyclicBuffer α capacity where
  cache := b.cache
  startIndex := 0
  endIndex := 0
  pos := b.pos
  start_le := le_rfl
  end_le := by omega
  written i _ h := absurd h (not_lt_zero i)

def push (x : α) : CyclicBuffer α capacity where
  cache := b.cache.setIfInBounds (b.endIndex % capacity) (some x)
  startIndex := if b.endIndex = b.startIndex + capacity then b.startIndex + 1 else b.startIndex
  endIndex := b.endIndex + 1
  pos := b.pos
  start_le := by
    have := b.start_le
    have := b.pos
    split_ifs <;> omega
  end_le := by
    have := b.end_le
    split_ifs <;> omega
  written i hi hlt := by
    rw [cellAt_set b.cache b.pos]
    split_ifs with h
    · exact ⟨x, rfl⟩
    · refine b.written i (by split_ifs at hi <;> omega) ?_
      have hne : i ≠ b.endIndex := fun heq => h (by rw [heq])
      omega

def size : Nat := b.endIndex - b.startIndex

def get? (i : Nat) : Option α := cellAt b.cache (b.startIndex + i)

def slice (first : Nat) : List α :=
  (List.range (b.size - first)).filterMap fun i => cellAt b.cache (b.startIndex + first + i)

def contents : List α := (List.range' b.startIndex b.size).filterMap (cellAt b.cache)

theorem cellAt_of_mem {i : Nat} (hi : i ∈ List.range' b.startIndex b.size) : ∃ x, cellAt b.cache i = some x := by
  rw [List.mem_range'_1, size] at hi
  exact b.written i hi.1 (by omega)

@[simp] theorem contents_empty (pos : 0 < capacity) : (empty α capacity pos).contents = [] := rfl

@[simp] theorem contents_clear : b.clear.contents = [] := rfl

theorem length_contents : b.contents.length = b.size := by
  have hmap : b.contents.map some = (List.range' b.startIndex b.size).map (cellAt b.cache) := by
    rw [contents, List.map_filterMap]
    rw [← List.filterMap_eq_map]
    refine List.filterMap_congr fun i hi => ?_
    obtain ⟨x, hx⟩ := b.cellAt_of_mem hi
    simp [hx]
  have := congrArg List.length hmap
  simpa using this

theorem slice_eq_drop (first : Nat) : b.slice first = b.contents.drop first := by
  rw [contents, ← filterMap_drop (fun i hi => b.cellAt_of_mem hi), List.drop_range', slice,
    List.range'_eq_map_range, List.filterMap_map]
  rw [mul_one]
  rfl

theorem contents_getElem? {i : Nat} (hi : i < b.size) : b.contents[i]? = b.get? i := by
  have hdrop := b.slice_eq_drop i
  obtain ⟨n, hn⟩ : ∃ n, b.size - i = n + 1 := ⟨b.size - i - 1, by omega⟩
  have hmem : b.startIndex + i ∈ List.range' b.startIndex b.size := by
    rw [List.mem_range'_1]
    omega
  obtain ⟨x, hx⟩ := b.cellAt_of_mem hmem
  rw [slice, hn, List.range_succ_eq_map,
    List.filterMap_cons_some (f := fun j => cellAt b.cache (b.startIndex + i + j)) hx] at hdrop
  rw [get?, hx, ← List.head?_drop, ← hdrop, List.head?_cons]

theorem contents_push (x : α) : (b.push x).contents = b.contents.drop (b.size + 1 - capacity) ++ [x] := by
  have hle := b.end_le
  have hstart := b.start_le
  have hpos := b.pos
  -- the indices of the new contents: those kept of the old ones, then `endIndex`
  have hrange : List.range' (b.push x).startIndex (b.push x).size =
      (List.range' b.startIndex b.size).drop (b.size + 1 - capacity) ++ [b.endIndex] := by
    rw [List.drop_range', mul_one]
    have hstart' : (b.push x).startIndex = b.startIndex + (b.size + 1 - capacity) := by
      show (if b.endIndex = b.startIndex + capacity then b.startIndex + 1 else b.startIndex) = _
      unfold size
      split_ifs <;> omega
    have hsize' : (b.push x).size = b.size - (b.size + 1 - capacity) + 1 := by
      show b.endIndex + 1 - (b.push x).startIndex = _
      rw [hstart']
      unfold size
      omega
    have hend : b.endIndex = b.startIndex + (b.size + 1 - capacity) + 1 * (b.size - (b.size + 1 - capacity)) := by
      unfold size
      omega
    rw [hstart', hsize', List.range'_concat]
    exact congrArg (fun i => _ ++ [i]) hend.symm
  have hcell : ∀ i, cellAt (b.push x).cache i =
      if i % capacity = b.endIndex % capacity then some x else cellAt b.cache i :=
    fun i => cellAt_set b.cache hpos i b.endIndex x
  rw [contents, hrange, List.filterMap_append, contents, ← filterMap_drop (fun i hi => b.cellAt_of_mem hi)]
  congr 1
  · refine List.filterMap_congr fun i hi => ?_
    rw [List.drop_range', List.mem_range'_1, size] at hi
    rw [hcell, if_neg]
    intro heq
    have := eq_of_mod_eq (by omega) (by omega) heq
    omega
  · rw [List.filterMap_cons_some (by rw [hcell, if_pos rfl]), List.filterMap_nil]

/-- The buffer holds the newest elements of `pushed`, as many as fit. -/
def Holds (pushed : List α) : Prop := b.contents = pushed.drop (pushed.length - capacity)

theorem holds_clear : b.clear.Holds [] := by rw [Holds, contents_clear, List.drop_nil]

theorem holds_empty (pos : 0 < capacity) : (empty α capacity pos).Holds [] := by
  rw [Holds, contents_empty, List.drop_nil]

theorem Holds.push {b : CyclicBuffer α capacity} {pushed : List α} (h : b.Holds pushed) (x : α) :
    (b.push x).Holds (pushed ++ [x]) := by
  have hsize : b.size = pushed.length - (pushed.length - capacity) := by
    rw [← b.length_contents, h, List.length_drop]
  have hpos := b.pos
  rw [Holds, b.contents_push, h, List.drop_drop, List.length_append, List.length_singleton,
    List.drop_append_of_le_length (by omega)]
  congr 2
  omega

end CyclicBuffer
end LeanKube
