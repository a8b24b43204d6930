import Mathlib.Data.List.Perm.Basic

/-! Deletion from an unordered slice: the deleted element is overwritten with the last one and the
slice is shortened by one. Up to the order of what is left this erases the element. -/

namespace LeanKube
open List Option
variable {α : Type}

def swapRemove (xs : List α) (i : Nat) : List α :=
  match xs.getLast? with
  | none => []
  | some last => (xs.set i last).dropLast

theorem set_last (front : List α) (last : α) {i : Nat} (hi : i < (front ++ [last]).length) :
    (front ++ [last]).set i last = swapRemove (front ++ [last]) i ++ [last] := by
  have hswap : swapRemove (front ++ [last]) i = ((front ++ [last]).set i last).dropLast := by
    rw [swapRemove, List.getLast?_concat]
  rw [hswap]
  by_cases hlast : i < front.length
  · rw [set_append_left i last hlast, dropLast_concat]
  · obtain rfl : i = front.length := by
      rw [length_append, length_singleton] at hi
      omega
    rw [set_append_right _ _ (Nat.le_refl _), Nat.sub_self, set_cons_zero, dropLast_concat]

theorem swapRemove_perm (xs : List α) {i : Nat} (hi : i < xs.length) : xs.Perm (xs[i] :: swapRemove xs i) := by
  obtain ⟨front, last, rfl⟩ := (eq_nil_or_concat' xs).resolve_left (ne_nil_of_length_pos (by omega))
  have hset := set_perm_cons_eraseIdx hi last
  rw [set_last front last hi] at hset
  have hrest := (perm_cons last).mp ((perm_append_singleton last _).symm.trans hset)
  exact (getElem_cons_eraseIdx_perm hi).symm.trans (hrest.symm.cons _)

/-- The deletion writes one cell of the array behind the slice, and the cells after the shortened slice keep what
they had. -/
theorem swapRemove_append_drop (xs tail : List α) {i : Nat} (hi : i < xs.length) :
    ∃ last, swapRemove xs i ++ (xs ++ tail).drop (swapRemove xs i).length = (xs ++ tail).set i last := by
  obtain ⟨front, last, rfl⟩ := (eq_nil_or_concat' xs).resolve_left (ne_nil_of_length_pos (by omega))
  have hset := set_last front last hi
  have hlength : (swapRemove (front ++ [last]) i).length = front.length := by
    simpa using (congrArg length hset).symm
  refine ⟨last, ?_⟩
  rw [set_append_left _ _ hi, hset, hlength]
  simp

/-- The loop that deletes the first element satisfying `p`: the element and what is left, if
there is one. -/
def removeFirst (p : α → Bool) (xs : List α) : Option (α × List α) :=
  match xs.findIdx? p with
  | none => none
  | some i => xs[i]?.map fun x => (x, swapRemove xs i)

variable {xs : List α} {p : α → Bool}

theorem removeFirst_eq_none : removeFirst p xs = none ↔ ∀ x ∈ xs, p x = false := by
  rw [removeFirst]
  cases hfind : xs.findIdx? p with
  | none => simpa using hfind
  | some i =>
    obtain ⟨hi, hp, _⟩ := List.findIdx?_eq_some_iff_getElem.mp hfind
    show xs[i]?.map _ = none ↔ _
    rw [List.getElem?_eq_getElem hi]
    constructor
    · intro h
      cases h
    · intro h
      exact absurd (h _ (getElem_mem hi)) (by simp [hp])

section
variable {rest : List α} {x : α} (h : removeFirst p xs = some (x, rest))
include h

theorem exists_of_removeFirst : ∃ i, ∃ hi : i < xs.length, p xs[i] = true ∧
    (∀ j, ∀ hj : j < i, ¬ p xs[j] = true) ∧ x = xs[i] ∧ rest = swapRemove xs i := by
  rw [removeFirst] at h
  cases hfind : xs.findIdx? p with
  | none => rw [hfind] at h; cases h
  | some i =>
    obtain ⟨hi, hp, hfirst⟩ := List.findIdx?_eq_some_iff_getElem.mp hfind
    rw [hfind] at h
    simp only [List.getElem?_eq_getElem hi, map_some, some.injEq, Prod.mk.injEq] at h
    exact ⟨i, hi, hp, fun j hj => hfirst j hj, h.1.symm, h.2.symm⟩

theorem removeFirst_eq_some : p x = true ∧ xs.Perm (x :: rest) := by
  obtain ⟨i, hi, hp, -, rfl, rfl⟩ := exists_of_removeFirst h
  exact ⟨hp, swapRemove_perm xs hi⟩

/-- The loop writes no cell after one that satisfies `p`. -/
theorem removeFirst_append_drop (tail : List α) {k : Nat} (hk : ∀ y ∈ xs[k]?, p y = true) :
    (rest ++ (xs ++ tail).drop rest.length).drop (k + 1) = (xs ++ tail).drop (k + 1) := by
  obtain ⟨i, hi, -, hfirst, -, rfl⟩ := exists_of_removeFirst h
  have hle : i ≤ k := by
    by_contra hlt
    have hklt : k < xs.length := by omega
    exact hfirst k (by omega) (hk _ (List.getElem?_eq_getElem hklt))
  obtain ⟨_, hset⟩ := swapRemove_append_drop xs tail hi
  rw [hset, drop_set_of_lt (by omega)]

theorem find?_of_removeFirst : xs.find? p = some x := by
  obtain ⟨i, hi, hp, hfirst, rfl, -⟩ := exists_of_removeFirst h
  rw [List.find?_eq_some_iff_getElem]
  exact ⟨hp, i, hi, rfl, fun j hj => by simpa using hfirst j hj⟩

end
end LeanKube
