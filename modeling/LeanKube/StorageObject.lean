import LeanKube.GoMap
import LeanKube.Strconv

/-! The objects that the storage layer of the API server handles. The layer reads and writes an
object's resource version and is otherwise told by the resource how to compute an object's key and
attributes; neither of these two functions looks at the resource version. -/

namespace LeanKube.Storage
open Strconv

structure Object (α : Type) where
  content : α
  resourceVersion : String
  deriving DecidableEq

inductive EventType where
  | added
  | modified
  | deleted
  | error
  deriving DecidableEq, Repr

structure WatchEvent (α : Type) where
  type : EventType
  object : Object α
  deriving DecidableEq

abbrev AttrSet := GoMap String String

def AttrSet.get (ls : AttrSet) (key : String) : String := (ls.lookup key).getD ""

def AttrSet.has (ls : AttrSet) (key : String) : Bool := (ls.lookup key).isSome

structure MatchValue where
  indexName : String
  value : String
  deriving DecidableEq

/-- `TriggerPublisherFunc`, if there is one: the index values of an object. -/
abbrev TriggerFunc (α : Type) := Option (Object α → List MatchValue)

/-- What a resource provides to its storage: `KeyFunc`, `GetAttrsFunc`, which returns the labels, the fields and whether
the object is uninitialized, and `TriggerPublisherFunc`. -/
structure Resource (α : Type) where
  keyFunc : α → Except String String
  getAttrs : α → Except String (AttrSet × AttrSet × Bool)
  triggerFunc : TriggerFunc α := none

variable {α : Type}

/-! ### `APIObjectVersioner` -/

variable (obj : Object α) (resourceVersion : UInt64)

def updateObject : Object α :=
  { obj with
    resourceVersion := if resourceVersion ≠ 0 then formatUint resourceVersion else "" }

def objectResourceVersion : Except String UInt64 :=
  if obj.resourceVersion.length = 0 then .ok 0
  else (parseUint obj.resourceVersion).mapError NumError.text

def parseResourceVersion (resourceVersion : String) : Except String UInt64 :=
  if resourceVersion = "" ∨ resourceVersion = "0" then .ok 0
  else
    (parseUint resourceVersion).mapError fun err =>
      "resourceVersion: Invalid value: \"" ++ resourceVersion ++ "\": " ++ err.text

theorem objectResourceVersion_updateObject :
    objectResourceVersion (updateObject obj resourceVersion) = .ok resourceVersion := by
  by_cases hzero : resourceVersion = 0
  · subst hzero
    rfl
  · have hver : (updateObject obj resourceVersion).resourceVersion = formatUint resourceVersion := if_pos hzero
    have hlen : (formatUint resourceVersion).length ≠ 0 := by
      intro h
      exact formatUint_ne_empty resourceVersion (String.length_eq_zero_iff.mp h)
    rw [objectResourceVersion, hver, if_neg hlen, parseUint_formatUint]
    rfl

def pods : Resource (String × String) where
  keyFunc pod := .ok ("/pods/" ++ pod.1)
  getAttrs pod := .ok (Finmap.singleton "app" pod.2, Finmap.singleton "metadata.name" pod.1, false)

end LeanKube.Storage
