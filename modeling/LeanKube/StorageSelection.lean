import LeanKube.StorageObject

/-! Selecting objects of the API storage: label selectors, field selectors, the predicate of a list
or watch request, and the path test that a cached watch adds to it. -/

namespace LeanKube.Storage
open Strconv

/-! ### Label selectors -/

inductive Operator where
  | doesNotExist
  | equals
  | doubleEquals
  | in_
  | notEquals
  | notIn
  | exists_
  | greaterThan
  | lessThan
  deriving DecidableEq, Repr

structure Requirement where
  key : String
  operator : Operator
  strValues : List String
  deriving DecidableEq

variable (r : Requirement)

def Requirement.hasValue (value : String) : Bool := r.strValues.contains value

/-- The comparison of `Gt` and `Lt`: both sides have to be integers, and there has to be exactly
one value to compare with. -/
def Requirement.compare (value : String) (holds : Int → Int → Bool) : Bool :=
  match parseInt value, r.strValues with
  | .ok lsValue, [strValue] =>
    match parseInt strValue with
    | .ok rValue => holds lsValue rValue
    | .error _ => false
  | _, _ => false

def Requirement.matchesLabels (ls : AttrSet) : Bool :=
  match r.operator with
  | .in_ | .equals | .doubleEquals => if !ls.has r.key then false else r.hasValue (ls.get r.key)
  | .notIn | .notEquals => if !ls.has r.key then true else !r.hasValue (ls.get r.key)
  | .exists_ => ls.has r.key
  | .doesNotExist => !ls.has r.key
  | .greaterThan =>
    if !ls.has r.key then false else r.compare (ls.get r.key) fun lsValue rValue => lsValue > rValue
  | .lessThan =>
    if !ls.has r.key then false else r.compare (ls.get r.key) fun lsValue rValue => lsValue < rValue

inductive LabelSelector where
  | internalSelector (requirements : List Requirement)
  | nothingSelector
  deriving DecidableEq

namespace LabelSelector

def matchesLabels : LabelSelector → AttrSet → Bool
  | internalSelector requirements, ls => requirements.all fun r => r.matchesLabels ls
  | nothingSelector, _ => false

def isEmpty : LabelSelector → Bool
  | internalSelector requirements => requirements.length = 0
  | nothingSelector => false

def everything : LabelSelector := internalSelector []

theorem matchesLabels_of_isEmpty {s : LabelSelector} (h : s.isEmpty = true) (ls : AttrSet) :
    s.matchesLabels ls = true := by
  cases s with
  | internalSelector requirements =>
    obtain rfl : requirements = [] := List.length_eq_zero_iff.mp (of_decide_eq_true h)
    rfl
  | nothingSelector => cases h

end LabelSelector

/-! ### Field selectors -/

inductive FieldSelector where
  | nothingSelector
  | hasTerm (field value : String)
  | notHasTerm (field value : String)
  | andTerm (terms : List FieldSelector)

namespace FieldSelector

mutual

def matchesFields : FieldSelector → AttrSet → Bool
  | nothingSelector, _ => false
  | hasTerm field value, ls => ls.get field == value
  | notHasTerm field value, ls => ls.get field != value
  | andTerm terms, ls => allMatch terms ls

def allMatch : List FieldSelector → AttrSet → Bool
  | [], _ => true
  | q :: rest, ls => if !q.matchesFields ls then false else allMatch rest ls

end

mutual

def isEmpty : FieldSelector → Bool
  | nothingSelector => false
  | hasTerm _ _ => false
  | notHasTerm _ _ => false
  | andTerm terms => allEmpty terms

def allEmpty : List FieldSelector → Bool
  | [] => true
  | q :: rest => if !q.isEmpty then false else allEmpty rest

end

mutual

def requiresExactMatch : FieldSelector → String → Option String
  | nothingSelector, _ => none
  | hasTerm field value, name => if field = name then some value else none
  | notHasTerm _ _, _ => none
  | andTerm terms, name => firstExactMatch terms name

def firstExactMatch : List FieldSelector → String → Option String
  | [], _ => none
  | q :: rest, name =>
    match q.requiresExactMatch name with
    | some value => some value
    | none => firstExactMatch rest name

end

def everything : FieldSelector := andTerm []

mutual

theorem matchesFields_of_isEmpty : ∀ (s : FieldSelector) (ls : AttrSet), s.isEmpty = true → s.matchesFields ls = true
  | nothingSelector, _, h => by simp [isEmpty] at h
  | hasTerm _ _, _, h => by simp [isEmpty] at h
  | notHasTerm _ _, _, h => by simp [isEmpty] at h
  | andTerm terms, ls, h => by
    exact allMatch_of_allEmpty terms ls (by rwa [isEmpty] at h)

theorem allMatch_of_allEmpty : ∀ (terms : List FieldSelector) (ls : AttrSet),
    allEmpty terms = true → allMatch terms ls = true
  | [], _, _ => by rw [allMatch]
  | q :: rest, ls, h => by
    rw [allEmpty] at h
    cases hq : q.isEmpty with
    | false => simp [hq] at h
    | true =>
      rw [allMatch, matchesFields_of_isEmpty q ls hq]
      exact allMatch_of_allEmpty rest ls (by simpa [hq] using h)

end
end FieldSelector

/-! ### The predicate of a request -/

structure SelectionPredicate (α : Type) where
  label : LabelSelector
  field : FieldSelector
  includeUninitialized : Bool
  getAttrs : α → Except String (AttrSet × AttrSet × Bool)
  indexFields : List String

namespace SelectionPredicate
variable {α : Type} (s : SelectionPredicate α)

def isEmpty : Bool := s.label.isEmpty && s.field.isEmpty && s.includeUninitialized

def matchesObject (obj : Object α) : Except String Bool :=
  if s.isEmpty then .ok true
  else do
    let (labels, fields, uninitialized) ← s.getAttrs obj.content
    if !s.includeUninitialized && uninitialized then return false
    return s.label.matchesLabels labels && s.field.matchesFields fields

def matchesObjectAttributes (l f : AttrSet) (uninitialized : Bool) : Bool :=
  if !s.includeUninitialized && uninitialized then false
  else if s.label.isEmpty && s.field.isEmpty then true
  else s.label.matchesLabels l && s.field.matchesFields f

def matcherIndex : List MatchValue :=
  s.indexFields.filterMap fun field => (s.field.requiresExactMatch field).map (⟨field, ·⟩)

variable (getAttrs : α → Except String (AttrSet × AttrSet × Bool))

def everything : SelectionPredicate α where
  label := .everything
  field := .everything
  includeUninitialized := true
  getAttrs := getAttrs
  indexFields := []

theorem isEmpty_everything : (everything getAttrs).isEmpty = true := by
  simp [isEmpty, everything, LabelSelector.everything, LabelSelector.isEmpty,
    FieldSelector.everything, FieldSelector.isEmpty, FieldSelector.allEmpty]

theorem matchesObjectAttributes_eq (l f : AttrSet) (uninitialized : Bool) :
    s.matchesObjectAttributes l f uninitialized = ((s.includeUninitialized || !uninitialized) &&
        (s.label.matchesLabels l && s.field.matchesFields f)) := by
  unfold matchesObjectAttributes
  by_cases hempty : (s.label.isEmpty && s.field.isEmpty) = true
  · rw [Bool.and_eq_true] at hempty
    rw [LabelSelector.matchesLabels_of_isEmpty hempty.1, FieldSelector.matchesFields_of_isEmpty _ f hempty.2]
    cases s.includeUninitialized <;> cases uninitialized <;> simp [hempty.1, hempty.2]
  · rw [if_neg hempty]
    cases s.includeUninitialized <;> cases uninitialized <;> simp

/-- **The two evaluators of a predicate agree** on an object whose attributes can be computed. -/
theorem matchesObject_eq {obj : Object α} {l f : AttrSet} {uninitialized : Bool}
    (hattrs : s.getAttrs obj.content = .ok (l, f, uninitialized)) :
    s.matchesObject obj = .ok (s.matchesObjectAttributes l f uninitialized) := by
  rw [matchesObjectAttributes_eq, matchesObject]
  by_cases hempty : s.isEmpty = true
  · rw [if_pos hempty]
    rw [isEmpty, Bool.and_eq_true, Bool.and_eq_true] at hempty
    rw [LabelSelector.matchesLabels_of_isEmpty hempty.1.1,
      FieldSelector.matchesFields_of_isEmpty _ f hempty.1.2, hempty.2]
    rfl
  · rw [if_neg hempty, hattrs]
    cases s.includeUninitialized <;> cases uninitialized <;>
      simp [bind, Except.bind, pure, Except.pure]

end SelectionPredicate

/-! ### Paths -/

def hasPathPrefix (s pathPrefix : String) : Bool :=
  if !pathPrefix.toList.isPrefixOf s.toList then false
  else if s.length = pathPrefix.length then true
  else if pathPrefix.toList.getLast? = some '/' then true
  else s.toList[pathPrefix.length]? = some '/'

def filterWithAttrsFunction {α : Type} (key : String) (p : SelectionPredicate α)
    (objKey : String) (label field : AttrSet) (uninitialized : Bool) : Bool :=
  if !hasPathPrefix objKey key then false
  else p.matchesObjectAttributes label field uninitialized

end LeanKube.Storage
