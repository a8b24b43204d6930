import Mathlib.Algebra.Order.BigOperators.Group.List
import Mathlib.Algebra.Order.Ring.Nat

/-! Lists with one element that is new, lists related element by element, and sums over lists of which one is part of
the other. -/

namespace LeanKube.ListRelations
open List
variable {α β γ : Type} {R : α → β → Prop} {S : β → γ → Prop} {T : α → γ → Prop}

theorem mem_concat_iff {l : List α} {a x : α} : x ∈ l ++ [a] ↔ x ∈ l ∨ x = a := by
  rw [mem_append, mem_singleton]

section
variable {as : List α} {bs : List β} (h : List.Forall₂ R as bs)
include h

theorem exists_of_mem_left {a : α} (ha : a ∈ as) : ∃ b ∈ bs, R a b := by
  induction h with
  | nil => cases ha
  | @cons a' b as bs hhead _ ih =>
    rcases mem_cons.mp ha with rfl | ha
    · exact ⟨b, mem_cons_self, hhead⟩
    · obtain ⟨b', hb', hR⟩ := ih ha
      exact ⟨b', mem_cons_of_mem b hb', hR⟩

theorem forall₂_comp {cs : List γ} (h' : List.Forall₂ S bs cs) (hRS : ∀ a b c, R a b → S b c → T a c) :
    List.Forall₂ T as cs := by
  induction h generalizing cs with
  | nil =>
    cases h'
    exact .nil
  | cons hhead _ ih =>
    cases h' with
    | cons hhead' htail' => exact .cons (hRS _ _ _ hhead hhead') (ih htail')

/-- If each element that has a partner for `R` has one for `S`, then so has the list. -/
theorem exists_forall₂ {S : α → γ → Prop} (hRS : ∀ a ∈ as, ∀ b, R a b → ∃ c, S a c) : ∃ cs, List.Forall₂ S as cs := by
  induction h with
  | nil => exact ⟨[], .nil⟩
  | cons hhead _ ih =>
    obtain ⟨c, hc⟩ := hRS _ mem_cons_self _ hhead
    obtain ⟨cs, hcs⟩ := ih fun a ha => hRS a (mem_cons_of_mem _ ha)
    exact ⟨c :: cs, .cons hc hcs⟩

end

theorem sum_map_le_of_mem {M : Type} [AddCommMonoid M] [PartialOrder M] [IsOrderedAddMonoid M] {f : α → M} {f' : β → M}
    {g : α → β} {l : List α} {l' : List β} (hnodup : (l.map g).Nodup) (hf : ∀ a ∈ l, f a = f' (g a))
    (hmem : ∀ a ∈ l, f a = 0 ∨ g a ∈ l') (hnn : ∀ b ∈ l', 0 ≤ f' b) : (l.map f).sum ≤ (l'.map f').sum := by
  classical
  induction l generalizing l' with
  | nil =>
    apply sum_nonneg
    intro x hx
    obtain ⟨b, hb, rfl⟩ := mem_map.mp hx
    exact hnn b hb
  | cons a l ih =>
    obtain ⟨hhead, htail⟩ := nodup_cons.mp hnodup
    have hf' : ∀ x ∈ l, f x = f' (g x) := fun x hx => hf x (mem_cons_of_mem a hx)
    rw [map_cons, sum_cons]
    rcases hmem a mem_cons_self with hzero | hin
    · rw [hzero, zero_add]
      exact ih htail hf' (fun x hx => hmem x (mem_cons_of_mem a hx)) hnn
    · rw [((perm_cons_erase hin).map f').sum_eq, map_cons, sum_cons, hf a mem_cons_self]
      refine add_le_add_right (ih htail hf' ?_ fun b hb => hnn b (mem_of_mem_erase hb)) _
      intro x hx
      have hne : g x ≠ g a := fun heq => hhead (heq ▸ mem_map_of_mem hx)
      exact (hmem x (mem_cons_of_mem a hx)).imp_right (mem_erase_of_ne hne).mpr

theorem sum_map_modify {f : α → α} (g : α → Nat) {l : List α} {i : Nat} {a : α} (h : l[i]? = some a) :
    ((l.modify i f).map g).sum + g a = (l.map g).sum + g (f a) := by
  induction l generalizing i with
  | nil => cases h
  | cons b l ih =>
    cases i with
    | zero =>
      obtain rfl : b = a := by simpa using h
      simp only [modify_zero_cons, map_cons, sum_cons]
      omega
    | succ i =>
      have hsum := ih (by simpa using h)
      simp only [modify_succ_cons, map_cons, sum_cons]
      omega

end LeanKube.ListRelations
