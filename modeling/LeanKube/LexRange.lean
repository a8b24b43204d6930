import Mathlib.Data.List.Lex
import Mathlib.Order.Lattice

/-! Ranges of lists in lexicographic order: the lists after one list, and the lists that start with
one list. -/

namespace LeanKube.LexRange
open List
variable {α : Type} [LinearOrder α]

theorem append_bot_le_iff {bot : α} (hbot : ∀ x, bot ≤ x) (l m : List α) : l ++ [bot] ≤ m ↔ l < m := by
  rw [← not_lt]
  induction l generalizing m with
  | nil =>
    cases m with
    | nil => simp
    | cons y =>
      have hy := hbot y
      simp only [nil_append, cons_lt_cons_iff, not_lt_nil, and_false, or_false, not_lt, nil_lt_cons, hy]
  | cons x l ih =>
    cases m with
    | nil => simp
    | cons =>
      rw [cons_append, cons_lt_cons_iff, cons_lt_cons_iff, not_or, not_and, ih, not_lt]
      apply Iff.intro
      · intro ⟨hle, hrest⟩
        exact hle.lt_or_eq.imp_right fun heq => ⟨heq, hrest heq.symm⟩
      · intro h
        rcases h with hlt | ⟨heq, hrest⟩
        · exact ⟨hlt.le, fun heq => absurd heq hlt.ne'⟩
        · exact ⟨heq.le, fun _ => hrest⟩

theorem range_iff_prefix {first next : α} (hlt : first < next) (hnext : ∀ x, first ≤ x → x < next → x = first)
    (l m : List α) : l ++ [first] ≤ m ∧ m < l ++ [next] ↔ l ++ [first] <+: m := by
  rw [← not_lt]
  induction l generalizing m with
  | nil =>
    cases m with
    | nil => simp
    | cons y =>
      simp only [nil_append, cons_lt_cons_iff, not_lt_nil, and_false, or_false, not_lt,
        cons_prefix_cons, nil_prefix, and_true]
      exact ⟨fun h => (hnext y h.1 h.2).symm, fun h => h ▸ ⟨le_rfl, hlt⟩⟩
  | cons x l ih =>
    cases m with
    | nil => simp
    | cons =>
      rw [cons_append, cons_append, cons_lt_cons_iff, cons_lt_cons_iff, cons_prefix_cons, ← ih, not_or, not_and, not_lt]
      apply Iff.intro
      · intro ⟨⟨hle, hrest⟩, hupper⟩
        rcases hupper with hyx | ⟨heq, hupper⟩
        · exact absurd hle hyx.not_ge
        · exact ⟨heq.symm, hrest heq, hupper⟩
      · intro ⟨heq, hrest, hupper⟩
        exact ⟨⟨heq.le, fun _ => hrest⟩, .inr ⟨heq.symm, hupper⟩⟩

end LeanKube.LexRange
