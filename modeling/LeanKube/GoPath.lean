import Mathlib.Data.List.Basic

/-! The functions `Clean` and `Join` of the Go package `path`, and the form of the rooted paths that
`Clean` leaves as they are. -/

namespace LeanKube.GoPath
open List

def IsName (element : List Char) : Prop := element ≠ [] ∧ element ≠ ['.'] ∧ element ≠ ['.', '.']

instance (element : List Char) : Decidable (IsName element) := inferInstanceAs (Decidable (_ ∧ _ ∧ _))

/-- One more element after the elements `out`, the last of which comes first: an empty element and `.` are
dropped, and `..` takes the last element away. -/
def push (rooted : Bool) (out : List (List Char)) (element : List Char) : List (List Char) :=
  if element = [] ∨ element = ['.'] then out
  else if element = ['.', '.'] then
    match out with
    | [] => if rooted then [] else [element]
    | last :: front => if last = ['.', '.'] then element :: out else front
  else element :: out

def resolve (rooted : Bool) (elements : List (List Char)) : List (List Char) :=
  (elements.foldl (push rooted) []).reverse

def cleanChars (p : List Char) : List Char :=
  let rooted := p.head? = some '/'
  let out := ['/'].intercalate (resolve rooted (p.splitOn '/'))
  if rooted then '/' :: out else if out = [] then ['.'] else out

def clean (p : String) : String := String.ofList (cleanChars p.toList)

def join (a b : String) : String := if a ≠ "" then clean (a ++ "/" ++ b) else if b ≠ "" then clean b else ""

/-! ### The elements of a path -/

theorem sep_not_mem_of_mem_splitOn {sep : Char} {p element : List Char} (h : element ∈ p.splitOn sep) :
    sep ∉ element := by
  induction p generalizing element with
  | nil => simp_all
  | cons x p ih =>
    rw [splitOn_cons_eq_if_modifyHead] at h
    obtain ⟨_, _, hsplit⟩ := exists_cons_of_ne_nil (splitOn_ne_nil sep p)
    rw [hsplit] at h ih
    split_ifs at h with hx
    · rcases mem_cons.mp h with rfl | h
      · exact not_mem_nil
      · exact ih h
    · rcases mem_cons.mp h with rfl | h
      · rw [beq_iff_eq] at hx
        exact not_mem_cons_of_ne_of_not_mem (fun h => hx h.symm) (ih mem_cons_self)
      · exact ih (mem_cons_of_mem _ h)

theorem intercalate_concat_append (front : List (List Char)) (last rest sep : List Char) :
    sep.intercalate (front ++ [last ++ rest]) = sep.intercalate (front ++ [last]) ++ rest := by
  induction front with
  | nil => simp
  | cons _ _ ih =>
    rw [cons_append, cons_append, intercalate_cons_of_ne_nil (by simp),
      intercalate_cons_of_ne_nil (by simp), ih, append_assoc, append_assoc, append_assoc]

theorem push_of_isName {rooted : Bool} {element : List Char} (h : IsName element) (out : List (List Char)) :
    push rooted out element = element :: out := by
  rw [push.eq_def, if_neg (not_or.mpr ⟨h.1, h.2.1⟩), if_neg h.2.2]

variable {elements : List (List Char)}

theorem resolve_of_isName {rooted : Bool} (h : ∀ e ∈ elements, IsName e) : resolve rooted elements = elements := by
  have hfold (out : List (List Char)) : elements.foldl (push rooted) out = elements.reverse ++ out := by
    induction elements generalizing out with
    | nil => rfl
    | cons _ _ ih =>
      obtain ⟨helement, hrest⟩ := forall_mem_cons.mp h
      rw [foldl_cons, push_of_isName helement, ih hrest, reverse_cons, append_assoc, singleton_append]
  rw [resolve, hfold, append_nil, reverse_reverse]

theorem push_rooted {out : List (List Char)} (hout : ∀ e ∈ out, IsName e) (element : List Char) :
    ∀ e ∈ push true out element, IsName e ∧ (e ∈ out ∨ e = element) := by
  intro e he
  rw [push.eq_def] at he
  by_cases hskip : element = [] ∨ element = ['.']
  · rw [if_pos hskip] at he
    exact ⟨hout e he, .inl he⟩
  rw [if_neg hskip] at he
  by_cases hdots : element = ['.', '.']
  · rw [if_pos hdots] at he
    cases out with
    | nil => exact absurd he not_mem_nil
    | cons last =>
      simp only [(hout last mem_cons_self).2.2, if_false] at he
      exact ⟨hout e (mem_cons_of_mem _ he), .inl (mem_cons_of_mem _ he)⟩
  · rw [if_neg hdots] at he
    rcases mem_cons.mp he with rfl | he
    · exact ⟨⟨fun h => hskip (.inl h), fun h => hskip (.inr h), hdots⟩, .inr rfl⟩
    · exact ⟨hout e he, .inl he⟩

theorem resolve_rooted {e : List Char} (h : e ∈ resolve true elements) : IsName e ∧ e ∈ elements := by
  have hfold : ∀ (elements out : List (List Char)), (∀ e ∈ out, IsName e) →
      ∀ e ∈ elements.foldl (push true) out, IsName e ∧ (e ∈ out ∨ e ∈ elements) := by
    intro elements
    induction elements with
    | nil => exact fun out hout e he => ⟨hout e he, .inl he⟩
    | cons element _ ih =>
      intro out hout e he
      obtain ⟨hname, hmem⟩ := ih (push true out element) (fun e he => (push_rooted hout element e he).1) e he
      refine ⟨hname, ?_⟩
      rcases hmem with hmem | hmem
      · rcases (push_rooted hout element e hmem).2 with hout | heq
        · exact .inl hout
        · exact .inr (heq ▸ mem_cons_self)
      · exact .inr (mem_cons_of_mem _ hmem)
  obtain ⟨hname, hmem⟩ := hfold elements [] (fun e he => absurd he not_mem_nil) e (mem_reverse.mp h)
  exact ⟨hname, hmem.resolve_left not_mem_nil⟩

/-! ### Clean rooted paths -/

variable (rest : List Char)

def IsNames : Prop := rest = [] ∨ ∀ e ∈ rest.splitOn '/', IsName e

theorem cleanChars_cons : cleanChars ('/' :: rest) = '/' :: ['/'].intercalate (resolve true (rest.splitOn '/')) := by
  rw [cleanChars, splitOn_cons_eq_if_modifyHead]
  simp [resolve, push]

theorem isNames_resolve : IsNames (['/'].intercalate (resolve true (rest.splitOn '/'))) := by
  by_cases hnil : resolve true (rest.splitOn '/') = []
  · rw [hnil]
    exact .inl rfl
  · right
    rw [splitOn_intercalate '/' (fun e he => sep_not_mem_of_mem_splitOn (resolve_rooted he).2) hnil]
    exact fun e he => (resolve_rooted he).1

variable {rest : List Char}

theorem cleanChars_cons_eq_iff : cleanChars ('/' :: rest) = '/' :: rest ↔ IsNames rest := by
  rw [cleanChars_cons, cons_inj_right]
  apply Iff.intro
  · intro h
    exact h ▸ isNames_resolve rest
  · intro h
    rcases h with rfl | hnames
    · rfl
    · rw [resolve_of_isName hnames, intercalate_splitOn]

theorem IsNames.right {front rest : List Char} (h : IsNames (front ++ '/' :: rest)) : IsNames rest := by
  right
  intro e he
  refine h.resolve_left (by simp) e ?_
  rw [splitOn_append_cons_self]
  exact mem_append_right _ he

theorem IsNames.append_singleton {c : Char} (h : IsNames rest) (hsep : c ≠ '/') (hdot : c ≠ '.') :
    IsNames (rest ++ [c]) := by
  right
  have hlast (last : List Char) : IsName (last ++ [c]) := by
    refine ⟨by simp, ?_, ?_⟩ <;> intro heq
    · cases last <;> simp_all
    · rcases last with _ | ⟨x, _ | ⟨y, last⟩⟩ <;> simp_all
  rcases h with rfl | hnames
  · rw [nil_append, splitOn_eq_singleton (by simpa using hsep.symm)]
    exact fun e he => mem_singleton.mp he ▸ hlast []
  · obtain ⟨front, last, hsplit⟩ := eq_nil_or_concat (rest.splitOn '/') |>.resolve_left (splitOn_ne_nil _ _)
    have hsepFree (e : List Char) (he : e ∈ front ++ [last]) : '/' ∉ e :=
      sep_not_mem_of_mem_splitOn (by rw [hsplit, concat_eq_append]; exact he)
    have hrest : rest ++ [c] = ['/'].intercalate (front ++ [last ++ [c]]) := by
      rw [concat_eq_append] at hsplit
      rw [intercalate_concat_append, ← hsplit, intercalate_splitOn]
    rw [hrest, splitOn_intercalate '/' _ (by simp)]
    · intro e he
      rcases mem_append.mp he with hmem | hmem
      · exact hnames e (by rw [hsplit, concat_eq_append]; exact mem_append_left _ hmem)
      · exact mem_singleton.mp hmem ▸ hlast last
    · intro e he
      rcases mem_append.mp he with hmem | hmem
      · exact hsepFree e (mem_append_left _ hmem)
      · rw [mem_singleton.mp hmem, mem_append, mem_singleton, not_or]
        exact ⟨hsepFree last (mem_append_right _ (mem_singleton_self _)), hsep.symm⟩

end LeanKube.GoPath
