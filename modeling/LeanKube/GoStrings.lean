import Mathlib.Data.List.DropRight

/-! Functions of the Go package `strings`, on the characters of a string. -/

namespace LeanKube.GoStrings
open List

/-- `strings.HasPrefix`. -/
def hasPrefix (s start : String) : Bool := start.toList.isPrefixOf s.toList

/-- `strings.HasSuffix`. -/
def hasSuffix (s ending : String) : Bool := ending.toList.isSuffixOf s.toList

variable (s : String)

/-- `strings.Contains`, for one character. -/
def contains (c : Char) : Bool := s.toList.contains c

/-- `strings.TrimRight`, for one character. -/
def trimRight (c : Char) : String := String.ofList (s.toList.rdropWhile (· = c))

/-- `strings.TrimPrefix`. -/
def trimPrefix (s start : String) : String :=
  if hasPrefix s start then String.ofList (s.toList.drop start.length) else s

/-- What comes after the first separator. -/
def afterFirst (sep : Char) : String := String.ofList ((s.toList.dropWhile (· ≠ sep)).drop 1)

variable {s t u : String} {c : Char}

theorem hasPrefix_iff : hasPrefix s t ↔ t.toList <+: s.toList := isPrefixOf_iff_prefix

theorem hasSuffix_iff : hasSuffix s t ↔ t.toList <:+ s.toList := isSuffixOf_iff_suffix

theorem contains_iff : contains s c ↔ c ∈ s.toList := contains_iff_mem

theorem toList_trimRight (s : String) (c : Char) : (trimRight s c).toList = s.toList.rdropWhile (· = c) :=
  String.toList_ofList

theorem prefix_rdropWhile {α : Type} {p : α → Bool} {a l : List α} (ha : ∀ h, ¬ p (a.getLast h)) (h : a <+: l) :
    a <+: l.rdropWhile p := by
  induction l using List.reverseRecOn with
  | nil => rwa [rdropWhile_nil]
  | append_singleton l x ih =>
    by_cases hx : p x
    · rw [rdropWhile_concat_pos p l x hx]
      rcases prefix_concat_iff.mp h with rfl | hl
      · exact absurd (by simpa using hx) (ha (append_ne_nil_of_right_ne_nil l (cons_ne_nil x [])))
      · exact ih hl
    · rwa [rdropWhile_concat_neg p l x hx]

/-- A prefix that does not end in the character stays one when the character is trimmed. -/
theorem hasPrefix_trimRight (h : hasPrefix s (trimRight t c)) : hasPrefix (trimRight s c) (trimRight t c) := by
  rw [hasPrefix_iff, toList_trimRight] at h ⊢
  rw [toList_trimRight]
  exact prefix_rdropWhile (rdropWhile_last_not _ _) h

theorem hasPrefix_trans (h : hasPrefix s t) (h' : hasPrefix t u) : hasPrefix s u :=
  hasPrefix_iff.mpr ((hasPrefix_iff.mp h').trans (hasPrefix_iff.mp h))

theorem hasPrefix_append (s t : String) : hasPrefix (s ++ t) s := by
  rw [hasPrefix_iff, String.toList_append]
  exact prefix_append _ _

theorem trimPrefix_append (s t : String) : trimPrefix (s ++ t) s = t := by
  rw [trimPrefix, if_pos (hasPrefix_append s t), String.toList_append, ← String.length_toList, drop_left,
    String.ofList_toList]

theorem afterFirst_append (hs : c ∉ s.toList) : afterFirst (s ++ String.singleton c ++ t) c = t := by
  have hdrop : (s.toList ++ c :: t.toList).dropWhile (· ≠ c) = c :: t.toList := by
    rw [dropWhile_append_of_pos fun b hb => by simpa using ne_of_mem_of_not_mem hb hs]
    simp
  rw [afterFirst, String.toList_append, String.toList_append, String.toList_singleton, append_assoc,
    singleton_append, hdrop, drop_one, tail_cons, String.ofList_toList]

end LeanKube.GoStrings
