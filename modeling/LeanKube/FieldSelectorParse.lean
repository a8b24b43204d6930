import LeanKube.StorageSelection
import Mathlib.Data.List.Sort

/-! The text of a field selector: how a selector is written, and the three scanners that read it back (the split into
terms at commas, the split of a term at its operator, the unescaping of a value). A string of the source is valid UTF-8
here: its runes are the characters of a Lean string, and its byte order is theirs. -/

namespace LeanKube.Storage.FieldSelector
open List FieldSelector

def isSpecial (c : Char) : Bool := c = '\\' || c = ',' || c = '='

def escapeRunes (s : List Char) : List Char := s.flatMap fun c => if isSpecial c then ['\\', c] else [c]

def escapeValue (s : String) : String := .ofList (escapeRunes s.toList)

def invalidEscapeSequence (sequence : List Char) : String :=
  "invalid field selector: invalid escape sequence: " ++ .ofList sequence

def unescapedRune (r : Char) : String :=
  "invalid field selector: unescaped character in value: " ++ toString r.toNat

def unescapeRunes : Bool → List Char → Except String (List Char)
  | false, [] => .ok []
  | true, [] => .error (invalidEscapeSequence ['\\'])
  | true, c :: s =>
    if isSpecial c then (c :: ·) <$> unescapeRunes false s else .error (invalidEscapeSequence ['\\', c])
  | false, c :: s =>
    if c = '\\' then unescapeRunes true s
    else if c = ',' || c = '=' then .error (unescapedRune c)
    else (c :: ·) <$> unescapeRunes false s

def unescapeValue (s : String) : Except String String :=
  if !s.toList.any isSpecial then .ok s else .ofList <$> unescapeRunes false s.toList

/-- The loop of `splitTerms`; `term` is the slice from `startIndex` to the current rune. -/
def splitRunes : Bool → List Char → List Char → List String
  | _, term, [] => [.ofList term]
  | true, term, c :: rest => splitRunes false (term ++ [c]) rest
  | false, term, c :: rest =>
    if c = '\\' then splitRunes true (term ++ [c]) rest
    else if c = ',' then .ofList term :: splitRunes false [] rest
    else splitRunes false (term ++ [c]) rest

def splitTerms (fieldSelector : String) : List String :=
  if fieldSelector.length = 0 then [] else splitRunes false [] fieldSelector.toList

inductive TermOperator where
  | notEqual
  | doubleEqual
  | equal

def TermOperator.text : TermOperator → List Char
  | notEqual => ['!', '=']
  | doubleEqual => ['=', '=']
  | equal => ['=']

def termOperators : List TermOperator := [.notEqual, .doubleEqual, .equal]

def splitTermAt (lhs : List Char) : List Char → Option (String × TermOperator × String)
  | [] => none
  | c :: rest =>
    match termOperators.find? fun op => op.text.isPrefixOf (c :: rest) with
    | some op => some (.ofList lhs, op, .ofList ((c :: rest).drop op.text.length))
    | none => splitTermAt (lhs ++ [c]) rest

def splitTerm (term : String) : Option (String × TermOperator × String) := splitTermAt [] term.toList

abbrev TransformFunc := String → String → Except String (String × String)

def transformTerm (fn : TransformFunc) (term : String → String → FieldSelector) (field value : String) :
    Except String FieldSelector := do
  let (field, value) ← fn field value
  return if field.length = 0 ∧ value.length = 0 then everything else term field value

mutual

def transform (fn : TransformFunc) : FieldSelector → Except String FieldSelector
  | nothingSelector => .ok nothingSelector
  | hasTerm field value => transformTerm fn hasTerm field value
  | notHasTerm field value => transformTerm fn notHasTerm field value
  | andTerm terms => andTerm <$> transformTerms fn terms

def transformTerms (fn : TransformFunc) : List FieldSelector → Except String (List FieldSelector)
  | [] => .ok []
  | s :: rest => do
    let n ← s.transform fn
    let next ← transformTerms fn rest
    return if !n.isEmpty then n :: next else next

end

/-- The body of the loop of `parseSelector`. Its `default` branch is for an operator that `splitTerm` never returns. -/
def parseTerm (selector part : String) : Except String FieldSelector :=
  match splitTerm part with
  | none => .error ("invalid selector: '" ++ selector ++ "'; can't understand '" ++ part ++ "'")
  | some (lhs, op, rhs) => do
    let unescapedRHS ← unescapeValue rhs
    match op with
    | .notEqual => return notHasTerm lhs unescapedRHS
    | .doubleEqual | .equal => return hasTerm lhs unescapedRHS

/-- One term stands for itself, and the conjunction is made of any other number of them. -/
def ofItems : List FieldSelector → FieldSelector
  | [item] => item
  | items => andTerm items

variable (selector : String)

def parseAndTransformSelector (fn : TransformFunc) : Except String FieldSelector := do
  let parts := (splitTerms selector).insertionSort (· ≤ ·)
  let items ← (parts.filter (· ≠ "")).mapM (parseTerm selector)
  (ofItems items).transform fn

def parseSelector : Except String FieldSelector :=
  parseAndTransformSelector selector fun lhs rhs => .ok (lhs, rhs)

mutual

def string : FieldSelector → String
  | nothingSelector => ""
  | hasTerm field value => field ++ "=" ++ escapeValue value
  | notHasTerm field value => field ++ "!=" ++ escapeValue value
  | andTerm terms => ",".intercalate (strings terms)

def strings : List FieldSelector → List String
  | [] => []
  | q :: rest => q.string :: strings rest

end

/-! ### Conjunctions of plain terms -/

/-- No character that the scanners act on. -/
def Plain (text : List Char) : Prop := ∀ c ∈ text, isSpecial c = false ∧ c ≠ '!'

/-- A term on a field that has a name, and one that the scanners read back. -/
inductive PlainTerm : FieldSelector → Prop
  | has {field : String} (value : String) : field ≠ "" → Plain field.toList → PlainTerm (hasTerm field value)
  | notHas {field : String} (value : String) : field ≠ "" → Plain field.toList → PlainTerm (notHasTerm field value)

def conjuncts : FieldSelector → List FieldSelector
  | andTerm terms => terms
  | s => [s]

/-! ### Values -/

variable {c : Char} {s text text' : List Char} {t q : FieldSelector} {terms : List FieldSelector}

theorem isSpecial_eq_false : isSpecial c = false ↔ c ≠ '\\' ∧ c ≠ ',' ∧ c ≠ '=' := by
  simp [isSpecial, and_assoc]

theorem unescapeRunes_plain : ∀ {s : List Char}, s.any isSpecial = false → unescapeRunes false s = .ok s
  | [], _ => rfl
  | c :: s, h => by
    rw [any_cons, Bool.or_eq_false_iff] at h
    simp [unescapeRunes, isSpecial_eq_false.mp h.1, unescapeRunes_plain h.2]

theorem unescapeValue_eq (s : String) : unescapeValue s = .ofList <$> unescapeRunes false s.toList := by
  unfold unescapeValue
  cases h : s.toList.any isSpecial with
  | true => rfl
  | false => simp [unescapeRunes_plain h]

variable (s)

theorem unescapeRunes_escapeRunes : unescapeRunes false (escapeRunes s) = .ok s := by
  induction s with
  | nil => rfl
  | cons c s ih =>
    rw [escapeRunes] at ih ⊢
    cases hc : isSpecial c with
    | true => simp [hc, unescapeRunes, ih]
    | false => simp [hc, unescapeRunes, isSpecial_eq_false.mp hc, ih]

theorem unescapeValue_escapeValue (v : String) : unescapeValue (escapeValue v) = .ok v := by
  rw [unescapeValue_eq, escapeValue, String.toList_ofList, unescapeRunes_escapeRunes]
  simp

/-! ### Terms -/

/-- The scanner for commas passes over the text: all its commas are escaped, and no escape is left open. -/
def Closed (text : List Char) : Prop :=
  ∀ term rest, splitRunes false term (text ++ rest) = splitRunes false (term ++ text) rest

theorem Closed.append (h : Closed text) (h' : Closed text') : Closed (text ++ text') := fun _ _ => by
  rw [append_assoc, h, h', append_assoc]

theorem closed_nil : Closed [] := fun _ _ => by simp

theorem closed_rune (h : c ≠ '\\') (h' : c ≠ ',') : Closed [c] := fun _ _ => by simp [splitRunes, h, h']

theorem closed_escapeRunes : Closed (escapeRunes s) := by
  induction s with
  | nil => exact closed_nil
  | cons c s ih =>
    rw [escapeRunes, flatMap_cons]
    refine Closed.append ?_ ih
    cases hc : isSpecial c with
    | true => exact fun _ _ => by simp [splitRunes]
    | false => exact closed_rune (isSpecial_eq_false.mp hc).1 (isSpecial_eq_false.mp hc).2.1

theorem Plain.closed (h : Plain text) : Closed text := by
  induction text with
  | nil => exact closed_nil
  | cons _ _ ih =>
    obtain ⟨⟨hc, -⟩, htext⟩ := forall_mem_cons.mp h
    exact (closed_rune (isSpecial_eq_false.mp hc).1 (isSpecial_eq_false.mp hc).2.1).append (ih htext)

theorem PlainTerm.closed (h : PlainTerm t) : Closed t.string.toList := by
  cases h with
  | has value _ h | notHas value _ h =>
    simp only [string, String.toList_append, escapeValue, String.toList_ofList]
    refine (h.closed.append ?_).append (closed_escapeRunes _)
    first
      | exact closed_rune (by decide) (by decide)
      | exact (closed_rune (c := '!') (by decide) (by decide)).append (closed_rune (by decide) (by decide))

theorem PlainTerm.string_ne (h : PlainTerm t) : t.string ≠ "" := by
  cases h <;> simp [string, String.append_eq_empty_iff]

/-- The field of a term is scanned up to the operator. -/
theorem splitTermAt_field (h : Plain text) (lhs rest : List Char) :
    splitTermAt lhs (text ++ rest) = splitTermAt (lhs ++ text) rest := by
  induction text generalizing lhs with
  | nil => simp
  | cons _ _ ih =>
    obtain ⟨⟨hc, hbang⟩, htext⟩ := forall_mem_cons.mp h
    rw [cons_append, splitTermAt]
    simp [termOperators, TermOperator.text, hbang.symm, (isSpecial_eq_false.mp hc).2.2.symm, ih htext]

theorem escapeRunes_head : (escapeRunes s).head? ≠ some '=' := by
  cases s with
  | nil => simp [escapeRunes]
  | cons c =>
    cases hc : isSpecial c with
    | true => simp [escapeRunes, hc]
    | false => simp [escapeRunes, hc, (isSpecial_eq_false.mp hc).2.2]

variable {s}

theorem PlainTerm.parseTerm (h : PlainTerm t) (selector : String) : parseTerm selector t.string = .ok t := by
  cases h with
  | @has field value _ h =>
    have hsplit : splitTerm (hasTerm field value).string = some (field, .equal, escapeValue value) := by
      have hhead := escapeRunes_head value.toList
      simp only [splitTerm, string, String.toList_append, escapeValue, String.toList_ofList, append_assoc]
      rw [splitTermAt_field h]
      -- an escaped value does not begin with an equals sign, so the operator is not read as "=="
      cases he : escapeRunes value.toList with
      | nil => simp [splitTermAt, termOperators, TermOperator.text]
      | cons c =>
        have hc : '=' ≠ c := fun hc => hhead (by simp [he, hc.symm])
        simp [splitTermAt, termOperators, TermOperator.text, hc]
    simp [parseTerm, hsplit, unescapeValue_escapeValue]
  | @notHas field value _ h =>
    have hsplit : splitTerm (notHasTerm field value).string = some (field, .notEqual, escapeValue value) := by
      simp only [splitTerm, string, String.toList_append, escapeValue, String.toList_ofList, append_assoc]
      rw [splitTermAt_field h]
      simp [splitTermAt, termOperators, TermOperator.text]
    simp [parseTerm, hsplit, unescapeValue_escapeValue]

/-! ### Selectors -/

theorem string_eq (s : FieldSelector) : s.string = ",".intercalate (s.conjuncts.map string) := by
  have hstrings (terms : List FieldSelector) : strings terms = terms.map string := by
    induction terms with
    | nil => rfl
    | cons _ _ ih => rw [strings, ih, map_cons]
  cases s <;> simp [conjuncts, string, hstrings]

theorem splitRunes_string (h : ∀ q ∈ t :: terms, PlainTerm q) :
    splitRunes false [] (",".intercalate ((t :: terms).map string)).toList = (t :: terms).map string := by
  induction terms generalizing t with
  | nil => simpa [splitRunes] using (h t mem_cons_self).closed [] []
  | cons _ _ ih =>
    obtain ⟨ht, hterms⟩ := forall_mem_cons.mp h
    rw [map_cons, String.intercalate_cons_of_ne_nil (by simp), String.toList_append, String.toList_append,
      append_assoc, ht.closed]
    simpa [splitRunes] using ih hterms

theorem splitTerms_string (h : ∀ t ∈ terms, PlainTerm t) :
    splitTerms (",".intercalate (terms.map string)) = terms.map string := by
  cases terms with
  | nil => rfl
  | cons t rest =>
    have ht := (h t mem_cons_self).string_ne
    rw [splitTerms, if_neg, splitRunes_string h]
    cases rest <;> simp_all [String.intercalate_cons_of_ne_nil]

theorem PlainTerm.transform (h : PlainTerm t) :
    t.transform (fun lhs rhs => .ok (lhs, rhs)) = .ok t ∧ t.isEmpty = false ∧ t.conjuncts = [t] := by
  cases h with
  | has value h | notHas value h =>
    simp [transform, transformTerm, h, isEmpty, conjuncts, bind, Except.bind, pure, Except.pure]

theorem transformTerms_plain (h : ∀ t ∈ terms, PlainTerm t) :
    transformTerms (fun lhs rhs => .ok (lhs, rhs)) terms = .ok terms := by
  induction terms with
  | nil => rfl
  | cons _ _ ih =>
    obtain ⟨ht, hrest⟩ := forall_mem_cons.mp h
    obtain ⟨htransform, hempty, -⟩ := ht.transform
    rw [transformTerms, htransform, ih hrest]
    simp [hempty, bind, Except.bind, pure, Except.pure]

theorem ofItems_plain (h : ∀ t ∈ terms, PlainTerm t) :
    (ofItems terms).transform (fun lhs rhs => .ok (lhs, rhs)) = .ok (ofItems terms) ∧
      (ofItems terms).conjuncts = terms := by
  have hterms := transformTerms_plain h
  cases terms with
  | nil => exact ⟨by simp [ofItems, transform, hterms], rfl⟩
  | cons t rest =>
    cases rest with
    | nil =>
      obtain ⟨htransform, -, hconj⟩ := (h t mem_cons_self).transform
      exact ⟨htransform, hconj⟩
    | cons => exact ⟨by simp [ofItems, transform, hterms], rfl⟩

variable (terms)

/-- The terms in the order of their texts. -/
def inOrder : List FieldSelector := terms.insertionSort fun a b => a.string ≤ b.string

theorem inOrder_perm : (inOrder terms).Perm terms := perm_insertionSort _ _

variable {terms}

theorem mapM_parseTerm (h : ∀ t ∈ terms, PlainTerm t) (selector : String) :
    (terms.map string).mapM (parseTerm selector) = .ok terms := by
  induction terms with
  | nil => rfl
  | cons _ _ ih =>
    obtain ⟨ht, hrest⟩ := forall_mem_cons.mp h
    rw [map_cons, mapM_cons, ht.parseTerm, ih hrest]
    rfl

variable {s : FieldSelector}

theorem parseSelector_eq (h : ∀ t ∈ s.conjuncts, PlainTerm t) :
    parseSelector s.string = .ok (ofItems (inOrder s.conjuncts)) := by
  have hplain : ∀ t ∈ inOrder s.conjuncts, PlainTerm t := fun t ht => h t ((inOrder_perm _).mem_iff.mp ht)
  have hparts : (s.conjuncts.map string).insertionSort (· ≤ ·) = (inOrder s.conjuncts).map string :=
    (map_insertionSort _ _ string _ fun _ _ _ _ => Iff.rfl).symm
  have hfilter : ((inOrder s.conjuncts).map string).filter (· ≠ "") = (inOrder s.conjuncts).map string :=
    filter_eq_self.mpr fun _ ht => by
      obtain ⟨t, hmem, rfl⟩ := mem_map.mp ht
      simpa using (hplain t hmem).string_ne
  rw [parseSelector, parseAndTransformSelector, string_eq s, splitTerms_string h, hparts, hfilter,
    mapM_parseTerm hplain]
  exact (ofItems_plain hplain).1

variable (s)

theorem matchesFields_eq (ls : AttrSet) : s.matchesFields ls = s.conjuncts.all fun t => t.matchesFields ls := by
  have hall (terms : List FieldSelector) : allMatch terms ls = terms.all fun t => t.matchesFields ls := by
    induction terms with
    | nil => rw [allMatch, all_nil]
    | cons q _ ih =>
      rw [allMatch, ih, all_cons]
      cases q.matchesFields ls <;> rfl
  cases s <;> simp [conjuncts, matchesFields, hall]

theorem requiresExactMatch_eq (name : String) :
    s.requiresExactMatch name = s.conjuncts.findSome? fun t => t.requiresExactMatch name := by
  have hfirst (terms : List FieldSelector) :
      firstExactMatch terms name = terms.findSome? fun t => t.requiresExactMatch name := by
    induction terms with
    | nil => rw [firstExactMatch, findSome?_nil]
    | cons q _ ih => cases hq : q.requiresExactMatch name <;> simp [firstExactMatch, hq, ih]
  cases s with
  | andTerm => rw [requiresExactMatch, hfirst, conjuncts]
  | _ => simp [conjuncts]

variable {s}

theorem mem_of_requiresExactMatch {name value : String} (h : ∀ t ∈ s.conjuncts, PlainTerm t)
    (hvalue : s.requiresExactMatch name = some value) : hasTerm name value ∈ s.conjuncts := by
  rw [requiresExactMatch_eq] at hvalue
  obtain ⟨t, ht, hvalue⟩ := exists_of_findSome?_eq_some hvalue
  cases h t ht with
  | has =>
    rw [requiresExactMatch] at hvalue
    split at hvalue <;> simp_all
  | notHas => simp [requiresExactMatch] at hvalue

/-- **What is written is read back**: escaping loses nothing, and the text of a conjunction of plain terms parses to a
selector of the same field sets that requires values of the same fields. A value required is the same too, unless the
conjunction gives the field two of them: the terms are read in the order of their texts. -/
theorem parseSelector_string (h : ∀ t ∈ s.conjuncts, PlainTerm t) :
    (∀ v, unescapeValue (escapeValue v) = .ok v) ∧ ∃ s', parseSelector s.string = .ok s' ∧
      (∀ ls, s'.matchesFields ls = s.matchesFields ls) ∧
      ∀ name, (s'.requiresExactMatch name).isSome = (s.requiresExactMatch name).isSome ∧
        ((∀ value value', hasTerm name value ∈ s.conjuncts → hasTerm name value' ∈ s.conjuncts → value = value') →
          s'.requiresExactMatch name = s.requiresExactMatch name) := by
  have hperm : (ofItems (inOrder s.conjuncts)).conjuncts.Perm s.conjuncts := by
    rw [(ofItems_plain fun t ht => h t ((inOrder_perm _).mem_iff.mp ht)).2]
    exact inOrder_perm _
  refine ⟨unescapeValue_escapeValue, _, parseSelector_eq h, fun _ => ?_, fun name => ?_⟩
  · rw [matchesFields_eq, matchesFields_eq, hperm.all_eq]
  · have hsome : ((ofItems (inOrder s.conjuncts)).requiresExactMatch name).isSome =
        (s.requiresExactMatch name).isSome := by
      rw [requiresExactMatch_eq, requiresExactMatch_eq, Bool.eq_iff_iff]
      simp only [findSome?_isSome_iff, hperm.mem_iff]
    refine ⟨hsome, fun hone => ?_⟩
    cases hs : s.requiresExactMatch name with
    | none => simpa [hs] using hsome
    | some value =>
      obtain ⟨value', hs'⟩ := Option.isSome_iff_exists.mp (hsome.trans (by rw [hs]; rfl))
      have hmem' := mem_of_requiresExactMatch (fun t ht => h t (hperm.mem_iff.mp ht)) hs'
      rw [hs', hone value' value (hperm.mem_iff.mp hmem') (mem_of_requiresExactMatch h hs)]

/-- Two terms, of values with special characters. -/
theorem parseSelector_string_node :
    let s := andTerm [hasTerm "spec.nodeName" "a,b=\\", notHasTerm "status.phase" "x=,"]
    ∃ s', parseSelector s.string = .ok s' ∧ s'.requiresExactMatch "spec.nodeName" = some "a,b=\\" ∧
      ∀ ls, s'.matchesFields ls = s.matchesFields ls := by
  intro s
  have hplain : ∀ t ∈ s.conjuncts, PlainTerm t := by
    have hnode : PlainTerm (hasTerm "spec.nodeName" "a,b=\\") := .has _ (by decide) (by simp [Plain, isSpecial])
    have hphase : PlainTerm (notHasTerm "status.phase" "x=,") := .notHas _ (by decide) (by simp [Plain, isSpecial])
    simp [s, conjuncts, hnode, hphase]
  obtain ⟨-, s', hparse, hmatches, hexact⟩ := parseSelector_string hplain
  refine ⟨s', hparse, ((hexact _).2 ?_).trans ?_, hmatches⟩
  · simp [s, conjuncts]
  · simp [s, requiresExactMatch, firstExactMatch]

/-- Two values of one field come back in the order of their texts, and the first of them is the one required. -/
theorem parseSelector_reorders : (andTerm [hasTerm "a" "2", hasTerm "a" "1"]).requiresExactMatch "a" = some "2" ∧
      ∃ s', parseSelector (andTerm [hasTerm "a" "2", hasTerm "a" "1"]).string = .ok s' ∧
        s'.requiresExactMatch "a" = some "1" := by
  have hplain (value) : PlainTerm (hasTerm "a" value) := .has value (by decide) (by simp [Plain, isSpecial])
  have horder : inOrder [hasTerm "a" "2", hasTerm "a" "1"] = [hasTerm "a" "1", hasTerm "a" "2"] := by
    have hle : ¬ (hasTerm "a" "2").string ≤ (hasTerm "a" "1").string := by
      decide
    simp [inOrder, hle]
  refine ⟨by simp [requiresExactMatch, firstExactMatch], _, parseSelector_eq (by simp [conjuncts, hplain]), ?_⟩
  simp [conjuncts, horder, ofItems, requiresExactMatch, firstExactMatch]

end LeanKube.Storage.FieldSelector
