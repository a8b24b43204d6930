import Mathlib.Data.List.Basic

/-! Binary search as in Go's `sort.Search`: the smallest index of `[0, n)` at which a predicate
holds that, once true, stays true. -/

namespace LeanKube.Sort
open List

/-- The loop of `Search` on the half-open interval `[i, j)`, with a bound on the iterations. -/
def searchLoop (f : Nat → Bool) : Nat → Nat → Nat → Nat
  | 0, i, _ => i
  | fuel + 1, i, j =>
    if i < j then
      let h := (i + j) / 2
      if !f h then searchLoop f fuel (h + 1) j else searchLoop f fuel i h
    else i

def search (n : Nat) (f : Nat → Bool) : Nat := searchLoop f n 0 n

structure Splits (f : Nat → Bool) (n k : Nat) : Prop where
  le : k ≤ n
  below : ∀ i, i < k → f i = false
  above : ∀ i, k ≤ i → i < n → f i = true

structure Bracket (f : Nat → Bool) (n i j : Nat) : Prop where
  le : i ≤ j
  bound : j ≤ n
  below : ∀ k, k < i → f k = false
  above : ∀ k, j ≤ k → k < n → f k = true

variable {f : Nat → Bool}

theorem Bracket.splits {n i : Nat} (h : Bracket f n i i) : Splits f n i :=
  ⟨h.bound, h.below, h.above⟩

variable {f : Nat → Bool} {n : Nat} (hmono : ∀ i j, i ≤ j → j < n → f i = true → f j = true)
include hmono

theorem searchLoop_splits {fuel i j : Nat} (h : Bracket f n i j) (hfuel : j - i ≤ fuel) :
    Splits f n (searchLoop f fuel i j) := by
  induction fuel generalizing i j with
  | zero =>
    obtain rfl : j = i := by have := h.le; omega
    exact h.splits
  | succ fuel ih =>
    rw [searchLoop]
    by_cases hij : i < j
    · have hbound := h.bound
      rw [if_pos hij]
      show Splits f n (if !f ((i + j) / 2) then searchLoop f fuel ((i + j) / 2 + 1) j
        else searchLoop f fuel i ((i + j) / 2))
      cases hf : f ((i + j) / 2) with
      | false =>
        -- nothing up to the midpoint can be true, or the midpoint would be
        refine ih ⟨by omega, hbound, fun k hk => ?_, h.above⟩ (by omega)
        by_contra hk'
        have := hmono k ((i + j) / 2) (by omega) (by omega) (by simpa using hk')
        rw [hf] at this
        cases this
      | true =>
        refine ih ⟨by omega, by omega, h.below, fun k hk hkn => ?_⟩ (by omega)
        exact hmono _ k hk hkn hf
    · obtain rfl : j = i := by have := h.le; omega
      rw [if_neg hij]
      exact h.splits

theorem search_splits : Splits f n (search n f) :=
  searchLoop_splits hmono
    ⟨Nat.zero_le n, Nat.le_refl n, fun _ hk => absurd hk (Nat.not_lt_zero _),
      fun _ hk hkn => absurd hkn (by omega)⟩ (by omega)

omit hmono

theorem filter_eq_drop {α : Type} {p : α → Bool} {xs : List α} {k : Nat}
    (hbelow : ∀ i x, xs[i]? = some x → i < k → p x = false)
    (habove : ∀ i x, xs[i]? = some x → k ≤ i → p x = true) : xs.filter p = xs.drop k := by
  have hsplit : xs.filter p = (xs.take k).filter p ++ (xs.drop k).filter p := by
    rw [← filter_append, take_append_drop]
  have htake : (xs.take k).filter p = [] := by
    rw [filter_eq_nil_iff]
    intro x hx
    obtain ⟨i, hi⟩ := mem_iff_getElem?.mp hx
    rw [List.getElem?_take] at hi
    split_ifs at hi with hik
    simp [hbelow i x hi hik]
  have hdrop : (xs.drop k).filter p = xs.drop k := by
    rw [filter_eq_self]
    intro x hx
    obtain ⟨i, hi⟩ := mem_iff_getElem?.mp hx
    rw [List.getElem?_drop] at hi
    exact habove (k + i) x hi (by omega)
  rw [hsplit, htake, hdrop, nil_append]

/-- **Binary search finds the suffix of the elements that satisfy `p`**, on a list along which `p`
never turns from true to false. -/
theorem filter_eq_drop_search {α : Type} {p : α → Bool} {xs : List α}
    (hf : ∀ i x, xs[i]? = some x → f i = p x) (hp : xs.Pairwise fun a b => p a = true → p b = true) :
    xs.filter p = xs.drop (search xs.length f) := by
  have hmono : ∀ i j, i ≤ j → j < xs.length → f i = true → f j = true := by
    intro i j hij hj hi
    rcases Nat.lt_or_eq_of_le hij with hlt | rfl
    · rw [hf i _ (List.getElem?_eq_getElem (by omega))] at hi
      rw [hf j _ (List.getElem?_eq_getElem hj)]
      exact pairwise_iff_getElem.mp hp i j (by omega) hj hlt hi
    · exact hi
  have hsplits := search_splits hmono
  refine filter_eq_drop (fun i x hi hk => ?_) (fun i x hi hk => ?_)
  · rw [← hf i x hi]
    exact hsplits.below i hk
  · rw [← hf i x hi]
    exact hsplits.above i hk (List.getElem?_eq_some_iff.mp hi).1

end LeanKube.Sort
