import LeanKube.GoMap

/-! What a controller waits for (`pkg/controller/controller_utils.go`): the counts of creations and deletions that it
expects to observe, and the keys of the deletions, so that a pod whose deletion is reported twice is counted once. Both
stores hold a record under its controller's key. -/

namespace LeanKube.Controllers
open Finmap List

/-- The counters are `int64` in the source, which no number of calls wraps. -/
structure ControlleeExpectations where
  add : Int
  del : Int
  timestamp : Int
deriving DecidableEq

/-- Five minutes, in nanoseconds. -/
def expectationsTimeout : Int := 5 * 60 * 1000000000

namespace ControlleeExpectations
variable (exp : ControlleeExpectations)

def raise (add del : Int) : ControlleeExpectations := { exp with add := exp.add + add, del := exp.del + del }

def fulfilled : Bool := exp.add ≤ 0 && exp.del ≤ 0

def isExpired (now : Int) : Bool := now - exp.timestamp > expectationsTimeout

end ControlleeExpectations

structure UIDTrackingControllerExpectations where
  expectations : GoMap String ControlleeExpectations
  uidStore : GoMap String (Finset String)

namespace UIDTrackingControllerExpectations

def new : UIDTrackingControllerExpectations := ⟨∅, ∅⟩

variable (u : UIDTrackingControllerExpectations) (controllerKey : String)

def getExpectations : Option ControlleeExpectations := u.expectations.lookup controllerKey

def satisfiedExpectations (now : Int) : Bool :=
  match u.getExpectations controllerKey with
  | some exp => if exp.fulfilled then true else exp.isExpired now
  | none => true

def setExpectations (add del now : Int) : UIDTrackingControllerExpectations :=
  { u with expectations := u.expectations.insert controllerKey ⟨add, del, now⟩ }

def expectCreations (adds now : Int) : UIDTrackingControllerExpectations :=
  u.setExpectations controllerKey adds 0 now

def lowerExpectations (add del : Int) : UIDTrackingControllerExpectations :=
  match u.getExpectations controllerKey with
  | some exp => { u with expectations := u.expectations.insert controllerKey (exp.raise (-add) (-del)) }
  | none => u

def creationObserved : UIDTrackingControllerExpectations :=
  u.lowerExpectations controllerKey 1 0

def getUIDs : Option (Finset String) := u.uidStore.lookup controllerKey

def expectDeletions (rcKey : String) (deletedKeys : List String) (now : Int) : UIDTrackingControllerExpectations :=
  let expectedUIDs := deletedKeys.toFinset
  { u with uidStore := u.uidStore.insert rcKey expectedUIDs }.setExpectations rcKey 0 expectedUIDs.card now

def deletionObserved (rcKey deleteKey : String) : UIDTrackingControllerExpectations :=
  match u.getUIDs rcKey with
  | some uids =>
    if deleteKey ∈ uids then
      { u.lowerExpectations rcKey 0 1 with uidStore := u.uidStore.insert rcKey (uids.erase deleteKey) }
    else u
  | none => u

def deleteExpectations (rcKey : String) : UIDTrackingControllerExpectations :=
  ⟨u.expectations.erase rcKey, u.uidStore.erase rcKey⟩

end UIDTrackingControllerExpectations

/-! ### Calls -/

inductive Call where
  | expectDeletions (rcKey : String) (deletedKeys : List String) (now : Int)
  | deletionObserved (rcKey deleteKey : String)
  | expectCreations (controllerKey : String) (adds now : Int)
  | creationObserved (controllerKey : String)
  | deleteExpectations (rcKey : String)

namespace Call

def controller : Call → String
  | expectDeletions rcKey _ _ | deletionObserved rcKey _ | expectCreations rcKey _ _ | creationObserved rcKey
  | deleteExpectations rcKey => rcKey

/-- Whether the call sets or deletes what its controller expects. -/
def resets : Call → Bool
  | expectDeletions .. | expectCreations .. | deleteExpectations _ => true
  | deletionObserved .. | creationObserved _ => false

/-- The keys that are waited for after the call, of those waited for before. -/
def unobserved (key : String) (uids : Finset String) : Call → Finset String
  | deletionObserved rcKey deleteKey => if rcKey = key then uids.erase deleteKey else uids
  | _ => uids

end Call

namespace UIDTrackingControllerExpectations

def next (u : UIDTrackingControllerExpectations) : Call → UIDTrackingControllerExpectations
  | .expectDeletions rcKey deletedKeys now => u.expectDeletions rcKey deletedKeys now
  | .deletionObserved rcKey deleteKey => u.deletionObserved rcKey deleteKey
  | .expectCreations controllerKey adds now => u.expectCreations controllerKey adds now
  | .creationObserved controllerKey => u.creationObserved controllerKey
  | .deleteExpectations rcKey => u.deleteExpectations rcKey

def run (calls : List Call) : UIDTrackingControllerExpectations := calls.foldl next new

variable {u : UIDTrackingControllerExpectations} {key controllerKey : String} {uids : Finset String}
  {timestamp add del : Int} {call : Call} {calls : List Call}

/-- The two stores agree on the deletions that the controller waits for, and it waits for no creation. -/
structure Tracks (u : UIDTrackingControllerExpectations) (key : String) (uids : Finset String) (timestamp : Int) :
    Prop where
  uidStore : u.getUIDs key = some uids
  expectations : ∃ add ≤ 0, u.getExpectations key = some ⟨add, uids.card, timestamp⟩

theorem tracks_expectDeletions {deletedKeys : List String} :
    (u.expectDeletions key deletedKeys timestamp).Tracks key deletedKeys.toFinset timestamp where
  uidStore := lookup_insert u.uidStore
  expectations := ⟨0, le_rfl, lookup_insert u.expectations⟩

theorem getExpectations_lowerExpectations : (u.lowerExpectations controllerKey add del).getExpectations key =
    if key = controllerKey then (u.getExpectations key).map fun exp => exp.raise (-add) (-del)
    else u.getExpectations key := by
  rw [lowerExpectations]
  split_ifs with hkey
  · subst hkey
    cases hexp : u.getExpectations key with
    | none => exact hexp
    | some exp => exact lookup_insert u.expectations
  · cases u.getExpectations controllerKey with
    | none => rfl
    | some exp => exact lookup_insert_of_ne u.expectations hkey

theorem getUIDs_lowerExpectations : (u.lowerExpectations controllerKey add del).getUIDs key = u.getUIDs key := by
  rw [lowerExpectations]
  split <;> rfl

/-- A call leaves what is stored of the other controllers. -/
theorem next_of_ne (hne : key ≠ call.controller) :
    (u.next call).getUIDs key = u.getUIDs key ∧ (u.next call).getExpectations key = u.getExpectations key := by
  cases call with
  | expectDeletions => exact ⟨lookup_insert_of_ne u.uidStore hne, lookup_insert_of_ne u.expectations hne⟩
  | deletionObserved =>
    rw [next, deletionObserved]
    split
    · split_ifs
      · exact ⟨lookup_insert_of_ne u.uidStore hne, getExpectations_lowerExpectations.trans (if_neg hne)⟩
      · exact ⟨rfl, rfl⟩
    · exact ⟨rfl, rfl⟩
  | expectCreations => exact ⟨rfl, lookup_insert_of_ne u.expectations hne⟩
  | creationObserved => exact ⟨getUIDs_lowerExpectations, getExpectations_lowerExpectations.trans (if_neg hne)⟩
  | deleteExpectations => exact ⟨lookup_erase_ne hne, lookup_erase_ne hne⟩

section
variable (h : u.Tracks key uids timestamp)
include h

theorem Tracks.deletionObserved (deleteKey : String) :
    (u.deletionObserved key deleteKey).Tracks key (uids.erase deleteKey) timestamp := by
  rw [UIDTrackingControllerExpectations.deletionObserved, h.uidStore]
  by_cases hmem : deleteKey ∈ uids
  · obtain ⟨add, hadd, hexp⟩ := h.expectations
    simp only [if_pos hmem]
    refine ⟨lookup_insert u.uidStore, add, hadd, ?_⟩
    refine getExpectations_lowerExpectations.trans ?_
    have hcard := Finset.card_erase_add_one hmem
    rw [if_pos rfl, hexp, Option.map_some, ControlleeExpectations.raise]
    congr 2 <;> simp; omega
  · simp only [if_neg hmem, Finset.erase_eq_of_notMem hmem]
    exact h

theorem Tracks.creationObserved : (u.creationObserved key).Tracks key uids timestamp := by
  obtain ⟨add, hadd, hexp⟩ := h.expectations
  refine ⟨getUIDs_lowerExpectations.trans h.uidStore, add - 1, by omega, ?_⟩
  refine getExpectations_lowerExpectations.trans ?_
  rw [if_pos rfl, hexp, Option.map_some, ControlleeExpectations.raise]
  simp [Int.sub_eq_add_neg]

/-- One call keeps the two stores together, unless it resets the controller. -/
theorem Tracks.step (hcall : call.controller = key → call.resets = false) :
    (u.next call).Tracks key (call.unobserved key uids) timestamp := by
  by_cases hkey : call.controller = key
  · subst hkey
    cases call with
    | expectDeletions | expectCreations | deleteExpectations => exact nomatch hcall rfl
    | deletionObserved rcKey deleteKey =>
      simp only [Call.unobserved, Call.controller, if_pos]
      exact h.deletionObserved deleteKey
    | creationObserved => exact h.creationObserved
  · obtain ⟨huids, hexp⟩ := next_of_ne (u := u) (Ne.symm hkey)
    have hsame : call.unobserved key uids = uids := by
      cases call with
      | deletionObserved rcKey => exact if_neg hkey
      | _ => rfl
    rw [hsame]
    exact ⟨huids.trans h.uidStore, hexp ▸ h.expectations⟩

theorem Tracks.run (hcalls : ∀ call ∈ calls, call.controller = key → call.resets = false) :
    (calls.foldl next u).Tracks key (calls.foldl (Call.unobserved key) uids) timestamp := by
  induction calls generalizing u uids with
  | nil => exact h
  | cons call calls ih =>
    obtain ⟨hcall, hrest⟩ := forall_mem_cons.mp hcalls
    exact ih (h.step hcall) hrest

end

theorem mem_foldl_unobserved {uid : String} : uid ∈ calls.foldl (Call.unobserved key) uids ↔
    uid ∈ uids ∧ .deletionObserved key uid ∉ calls := by
  induction calls generalizing uids with
  | nil => simp
  | cons call calls ih =>
    rw [foldl_cons, ih, mem_cons, not_or, ← and_assoc]
    cases call with
    | deletionObserved rcKey deleteKey =>
      by_cases hkey : rcKey = key
      · simp [Call.unobserved, hkey, and_comm]
      · simp [Call.unobserved, hkey, Ne.symm hkey]
    | _ => simp [Call.unobserved]

/-- **Each deletion is counted once.** When no call after the controller's last `ExpectDeletions` resets it, the count
is the number of the keys given there that have not been observed since; until the timeout the expectations are
satisfied if and only if there is none. -/
theorem deletions_counted_once (before after : List Call) (key : String) (deletedKeys : List String)
    (timestamp : Int) (hafter : ∀ call ∈ after, call.controller = key → call.resets = false) :
    ∃ uids : Finset String, (∀ uid, uid ∈ uids ↔ uid ∈ deletedKeys ∧ .deletionObserved key uid ∉ after) ∧
      ((run (before ++ .expectDeletions key deletedKeys timestamp :: after)).getExpectations key).map
        ControlleeExpectations.del = some (uids.card : Int) ∧
      ∀ now, now - timestamp ≤ expectationsTimeout →
        ((run (before ++ .expectDeletions key deletedKeys timestamp :: after)).satisfiedExpectations key now ↔
          uids.card = 0) := by
  obtain ⟨-, add, hadd, hexp⟩ := (tracks_expectDeletions (u := run before)).run hafter
  rw [run, foldl_append, foldl_cons]
  refine ⟨after.foldl (Call.unobserved key) deletedKeys.toFinset, fun uid => ?_, ?_, fun now hnow => ?_⟩
  · rw [mem_foldl_unobserved, mem_toFinset]
  · exact congrArg (Option.map ControlleeExpectations.del) hexp
  · have hexpired : ¬ now - timestamp > expectationsTimeout := not_lt.mpr hnow
    change satisfiedExpectations (after.foldl next ((run before).expectDeletions key deletedKeys timestamp)) key now ↔ _
    simp [satisfiedExpectations, hexp, ControlleeExpectations.fulfilled, ControlleeExpectations.isExpired, hadd,
      hexpired]

theorem deletions_counted_once_twice : ((run [.expectDeletions "rc" ["a", "b"] 0, .deletionObserved "rc" "a",
    .deletionObserved "rc" "a"]).getExpectations "rc").map ControlleeExpectations.del = some 1 := by
  obtain ⟨uids, hmem, hdel, -⟩ := deletions_counted_once []
    [.deletionObserved "rc" "a", .deletionObserved "rc" "a"] "rc" ["a", "b"] 0 (by simp [Call.resets])
  have huids : uids = {"b"} := by
    grind
  rwa [huids] at hdel

end UIDTrackingControllerExpectations
end LeanKube.Controllers
