import LeanKube.GoMap
import Mathlib.Tactic.Linarith

/-! Resource lists (`pkg/quota/v1/resources.go`): maps from resource names to quantities, here exact
numbers. -/

namespace LeanKube.Quota
open Finmap GoMap Finset

abbrev ResourceName := String

abbrev ResourceList := GoMap ResourceName Int

def amount (list : ResourceList) (resource : ResourceName) : Int := (list.lookup resource).getD 0

variable (a b : ResourceList)

def equals : Bool :=
  decide (a.keys.card = b.keys.card ∧ ∀ key ∈ a.keys, b.lookup key = a.lookup key)

def exceeded : Finset ResourceName :=
  b.keys.filter fun key => key ∈ a ∧ amount b key < amount a key

def add : ResourceList := a.accumulate (· + ·) 0 b

def mask (resources : ResourceList) (names : Finset ResourceName) : ResourceList :=
  resources.filterKeys fun key => decide (key ∈ names)

def isZero : Bool := decide (∀ key ∈ a.keys, amount a key = 0)

def isNegative : Finset ResourceName := a.keys.filter fun key => amount a key < 0

instance subRightCommutative : RightCommutative (fun x y : Int => x - y) := ⟨sub_right_comm⟩

def subtractWithNonNegativeResult : ResourceList :=
  (((a.accumulate (fun x y : Int => x - y) 0 b).filterKeys fun key => decide (key ∈ a)).mapValues (max · 0)) ∪
    b.mapValues fun _ => 0

variable {a b : ResourceList} {names : Finset ResourceName} {key : ResourceName}

theorem lookup_of_notMem (h : key ∉ a) : a.lookup key = none := lookup_eq_none.mpr h

theorem amount_of_notMem (h : key ∉ a) : amount a key = 0 := by rw [amount, lookup_of_notMem h, Option.getD_none]

theorem equals_iff : equals a b = true ↔ a = b := by
  rw [equals, decide_eq_true_iff]
  constructor
  · rintro ⟨hcard, hlookup⟩
    have hsub : a.keys ⊆ b.keys := by
      intro k hk
      rw [mem_keys, mem_iff_lookup_ne_none, hlookup k hk]
      exact (mem_iff_lookup_ne_none a k).mp (mem_keys.mp hk)
    have hkeys : a.keys = b.keys := eq_of_subset_of_card_le hsub hcard.ge
    refine ext_lookup fun k => ?_
    by_cases hk : k ∈ a.keys
    · rw [hlookup k hk]
    · have hka : k ∉ a := fun hmem => hk (mem_keys.mpr hmem)
      have hkb : k ∉ b := fun hmem => hk (hkeys ▸ mem_keys.mpr hmem)
      rw [lookup_of_notMem hka, lookup_of_notMem hkb]
  · rintro rfl
    exact ⟨rfl, fun _ _ => rfl⟩

theorem lookup_mask : (mask a names).lookup key = if key ∈ names then a.lookup key else none := by
  rw [mask, lookup_filterKeys]
  simp only [decide_eq_true_eq]

theorem mem_mask : key ∈ mask a names ↔ key ∈ names ∧ key ∈ a := by
  rw [mem_iff_lookup_ne_none, lookup_mask, mem_iff_lookup_ne_none]
  split_ifs with h
  · exact ⟨fun hne => ⟨h, hne⟩, And.right⟩
  · exact ⟨fun hne => absurd rfl hne, fun hand => absurd hand.1 h⟩

theorem amount_mask : amount (mask a names) key = if key ∈ names then amount a key else 0 := by
  rw [amount, lookup_mask]
  split_ifs
  · rfl
  · rfl

theorem lookup_add : (add a b).lookup key = (b.lookup key).elim (a.lookup key) fun q => some (amount a key + q) := by
  rw [add, lookup_accumulate]
  cases b.lookup key with
  | none | some => rfl

theorem amount_add : amount (add a b) key = amount a key + amount b key := by
  have hlookup : (add a b).lookup key = _ := lookup_add
  rw [amount, hlookup]
  cases hb : b.lookup key with
  | none =>
    have hzero : amount b key = 0 := by rw [amount, hb, Option.getD_none]
    rw [hzero, add_zero]
    rfl
  | some q =>
    have hq : amount b key = q := by rw [amount, hb, Option.getD_some]
    rw [hq]
    rfl

theorem mem_add : key ∈ add a b ↔ key ∈ a ∨ key ∈ b := by
  rw [mem_iff_lookup_ne_none, lookup_add, mem_iff_lookup_ne_none, mem_iff_lookup_ne_none]
  cases b.lookup key with
  | none | some => simp

theorem amount_of_isZero (h : isZero a = true) (key : ResourceName) : amount a key = 0 := by
  by_cases hkey : key ∈ a
  · exact of_decide_eq_true h key (mem_keys.mpr hkey)
  · exact amount_of_notMem hkey

theorem amount_nonneg (h : isNegative a = ∅) (key : ResourceName) : 0 ≤ amount a key := by
  by_cases hkey : key ∈ a
  · exact not_lt.mp (filter_eq_empty_iff.mp h (mem_keys.mpr hkey))
  · exact (amount_of_notMem hkey).ge

theorem exceeded_eq_empty_iff : exceeded a b = ∅ ↔ ∀ key ∈ b, key ∈ a → amount a key ≤ amount b key := by
  simp only [exceeded, filter_eq_empty_iff, mem_keys, not_and, not_lt]

end LeanKube.Quota
