import LeanKube.CacherDelivery

/-! Watchers that are filed under an index value (`storage/cacher/cacher.go`). An event is handed to the watchers of its
trigger values and to those without a value; the clients see the same as if it were handed to all watchers. -/

namespace LeanKube.Caching
open List Storage IndexedWatchers Option Function Bool MatchValue SelectionPredicate
variable {α : Type}

namespace IndexedWatchers

def terminateAll (_ : IndexedWatchers) : IndexedWatchers := ⟨∅, ∅⟩

def dispatchEvent (i : IndexedWatchers) (triggerFunc : TriggerFunc α) (event : WatchCacheEvent α) : Multiset Nat :=
  let trigger := triggerValues triggerFunc event
  i.allWatchers.val +
    (if trigger.2 then (trigger.1 : Multiset String) else i.valueWatchers.keys.val).bind fun value =>
      (i.values value).val

end IndexedWatchers

/-- A client of `Watch`: the events that its watcher was handed, and all dispatched since it was registered. -/
structure Client (α : Type) where
  key : String
  pred : SelectionPredicate α
  given : List (WatchCacheEvent α)
  since : List (WatchCacheEvent α)

namespace Client
variable (client : Client α)

def filter : FilterFunc := filterWithAttrsFunction client.key client.pred

def triggerValue? : Option String := client.pred.matcherIndex.head?.map MatchValue.value

/-- The event is one for the watcher: the watcher or the event has no index value, or the event has the watcher's. -/
def addressed (triggerFunc : TriggerFunc α) (event : WatchCacheEvent α) : Bool :=
  !(triggerValues triggerFunc event).2 || client.triggerValue?.all (triggerValues triggerFunc event).1.contains

def passes (event : WatchCacheEvent α) : Bool :=
  client.filter event.key event.objLabels event.objFields event.objUninitialized || event.prevObject.isSome &&
    client.filter event.key event.prevObjLabels event.prevObjFields event.prevObjUninitialized

end Client

structure Registry (α : Type) where
  watchers : IndexedWatchers
  watcherIdx : Nat
  clients : Nat → Option (Client α)

inductive RegistryStep (α : Type) where
  | addWatcher (key : String) (pred : SelectionPredicate α)
  | deleteWatcher (number : Nat)
  | terminateAll
  | dispatchEvent (event : WatchCacheEvent α)

namespace Registry
variable (triggerFunc : TriggerFunc α) (getAttrs : α → Except String (AttrSet × AttrSet × Bool))

def initial : Registry α := ⟨⟨∅, ∅⟩, 0, fun _ => none⟩

def next (s : Registry α) : RegistryStep α → Registry α
  | .addWatcher key pred =>
    let client : Client α := ⟨key, pred, [], []⟩
    { watchers := s.watchers.addWatcher s.watcherIdx (client.triggerValue?.getD "") client.triggerValue?.isSome
      watcherIdx := s.watcherIdx + 1
      clients := Function.update s.clients s.watcherIdx (some client) }
  | .deleteWatcher number =>
    match s.clients number with
    | none => s
    | some client =>
      { s with
        watchers := s.watchers.deleteWatcher number (client.triggerValue?.getD "") client.triggerValue?.isSome
        clients := Function.update s.clients number none }
  | .terminateAll => { s with watchers := s.watchers.terminateAll, clients := fun _ => none }
  | .dispatchEvent event =>
    { s with
      clients := fun number => (s.clients number).map fun client =>
        { client with
          given := client.given ++ replicate ((s.watchers.dispatchEvent triggerFunc event).count number) event
          since := client.since ++ [event] } }

/-- The trigger value of an object that the predicate matches is the one of `MatcherIndex`. -/
def Aligned (pred : SelectionPredicate α) : Prop :=
  ∀ publish ∈ triggerFunc, ∀ (obj : Object α) labels fields uninitialized,
    getAttrs obj.content = .ok (labels, fields, uninitialized) →
    pred.matchesObjectAttributes labels fields uninitialized → ∀ index ∈ pred.matcherIndex.head?,
      (publish obj).head?.map MatchValue.value = some index.value

/-- The watchers have such predicates, and the events have the attributes of their objects. -/
def Enabled : RegistryStep α → Prop
  | .addWatcher _ pred => Aligned triggerFunc getAttrs pred
  | .dispatchEvent event =>
    getAttrs event.object.content = .ok (event.objLabels, event.objFields, event.objUninitialized) ∧
      ∀ prev ∈ event.prevObject, getAttrs prev.content =
        .ok (event.prevObjLabels, event.prevObjFields, event.prevObjUninitialized)
  | _ => True

end Registry

def registrySystem (triggerFunc : TriggerFunc α) (getAttrs : α → Except String (AttrSet × AttrSet × Bool)) :
    System (Registry α) (RegistryStep α) :=
  .ofFun (fun _ step => Registry.Enabled triggerFunc getAttrs step) (Registry.next triggerFunc)

variable {triggerFunc : TriggerFunc α} {getAttrs : α → Except String (AttrSet × AttrSet × Bool)} {s : Registry α}
  {client : Client α} {event : WatchCacheEvent α} {number : Nat}

theorem nodup_triggerValues (triggerFunc : TriggerFunc α) (event : WatchCacheEvent α) :
    (triggerValues triggerFunc event).1.Nodup := by
  cases triggerFunc with
  | none => exact nodup_nil
  | some publish =>
    simp only [triggerValues]
    generalize (publish event.object).head?.map value = current
    generalize (event.prevObject.bind fun prev => (publish prev).head?.map value) = previous
    rcases current with _ | value <;> rcases previous with _ | value' <;> simp [filter_cons]
    split_ifs <;> simp

theorem mem_triggerValues {publish : Object α → List MatchValue} {value : String} :
    value ∈ (triggerValues (some publish) event).1 ↔ (publish event.object).head?.map MatchValue.value = some value ∨
      ∃ prev ∈ event.prevObject, (publish prev).head?.map MatchValue.value = some value := by
  have hprev : (∃ prev ∈ event.prevObject, (publish prev).head?.map MatchValue.value = some value) ↔
      (event.prevObject.bind fun prev => (publish prev).head?.map MatchValue.value) = some value := by
    rw [bind_eq_some_iff]
    rfl
  rw [hprev]
  simp only [triggerValues]
  grind

/-- An event that passes the filter of a client is addressed to its watcher: the trigger value of the object that passes
is the index value of the watcher. -/
theorem addressed_of_passes (haligned : Registry.Aligned triggerFunc getAttrs client.pred)
    (hevent : Registry.Enabled triggerFunc getAttrs (.dispatchEvent event)) (h : client.passes event) :
    client.addressed triggerFunc event := by
  cases triggerFunc with
  | none => rfl
  | some publish =>
    have hmatch {objKey : String} {labels fields : AttrSet} {uninitialized : Bool} {obj : Object α}
        (hattrs : getAttrs obj.content = .ok (labels, fields, uninitialized))
        (hfilter : client.filter objKey labels fields uninitialized) : ∀ index ∈ client.pred.matcherIndex.head?,
          (publish obj).head?.map value = some index.value := by
      refine haligned publish rfl obj labels fields uninitialized hattrs ?_
      rw [Client.filter, filterWithAttrsFunction] at hfilter
      split_ifs at hfilter
      exact hfilter
    have hvalue : ∀ index ∈ client.pred.matcherIndex.head?, index.value ∈ (triggerValues (some publish) event).1 := by
      intro index hindex
      rw [mem_triggerValues]
      rw [Client.passes, or_eq_true, and_eq_true] at h
      rcases h with hcurrent | ⟨hprev, hfilter⟩
      · exact .inl (hmatch hevent.1 hcurrent index hindex)
      · obtain ⟨prev, hprev⟩ := isSome_iff_exists.mp hprev
        exact .inr ⟨prev, hprev, hmatch (hevent.2 prev hprev) hfilter index hindex⟩
    rw [Client.addressed, Client.triggerValue?, or_eq_true]
    cases hindex : client.pred.matcherIndex.head? with
    | none => exact .inr rfl
    | some index => exact .inr (contains_iff_mem.mpr (hvalue index hindex))

/-! ### The index -/

structure Registry.Filed (s : Registry α) : Prop where
  mem : ∀ number value?, number ∈ s.watchers.watchersAt value? ↔
    (s.clients number).map Client.triggerValue? = some value?
  fresh : ∀ number, s.watcherIdx ≤ number → s.clients number = none

section
variable (h : s.Filed)
include h

theorem Registry.Filed.eq_of_mem (value? value?' : Option String)
    (hvalue : number ∈ s.watchers.watchersAt value?) (hvalue' : number ∈ s.watchers.watchersAt value?') :
    value? = value?' :=
  some.inj (((h.mem number value?).mp hvalue).symm.trans ((h.mem number value?').mp hvalue'))

theorem Registry.Filed.nodup (triggerFunc : TriggerFunc α) (event : WatchCacheEvent α) :
    (s.watchers.dispatchEvent triggerFunc event).Nodup := by
  have hvalues : (if (triggerValues triggerFunc event).2 then ((triggerValues triggerFunc event).1 : Multiset String)
      else s.watchers.valueWatchers.keys.val).Nodup := by
    split_ifs
    · exact nodup_triggerValues triggerFunc event
    · exact Finset.nodup _
  rw [dispatchEvent, Multiset.nodup_add]
  refine ⟨Finset.nodup _, Multiset.nodup_bind.mpr ⟨fun value _ => Finset.nodup _, ?_⟩, ?_⟩
  · refine hvalues.pairwise fun value _ value' _ hne => Multiset.disjoint_left.mpr fun hvalue hvalue' => hne ?_
    exact some.inj (h.eq_of_mem (some value) (some value') hvalue hvalue')
  · refine Multiset.disjoint_left.mpr fun hall hbind => ?_
    obtain ⟨value, -, hvalue⟩ := Multiset.mem_bind.mp hbind
    cases h.eq_of_mem none (some value) hall hvalue

theorem Registry.Filed.mem_dispatchEvent (hclient : s.clients number = some client) :
    number ∈ s.watchers.dispatchEvent triggerFunc event ↔ client.addressed triggerFunc event := by
  have hall : number ∈ s.watchers.allWatchers ↔ client.triggerValue? = none :=
    (h.mem number none).trans (by rw [hclient, map_some, some_inj])
  have hvalue (value : String) : number ∈ s.watchers.values value ↔ client.triggerValue? = some value :=
    (h.mem number (some value)).trans (by rw [hclient, map_some, some_inj])
  rw [dispatchEvent, Multiset.mem_add, Multiset.mem_bind, Client.addressed]
  simp only [Finset.mem_val, hall, hvalue]
  split_ifs with hsupported
  · cases hindex : client.triggerValue? <;> simp [hsupported]
  · have hkeys := s.watchers.mem_biUnion_keys number
    simp only [Finset.mem_biUnion, hvalue] at hkeys
    simp only [hsupported, Finset.mem_val, hkeys]
    cases client.triggerValue? <;> simp

theorem Registry.Filed.next (step : RegistryStep α) : (s.next triggerFunc step).Filed := by
  cases step with
  | addWatcher =>
    refine ⟨fun number value? => ?_, fun number hnumber => ?_⟩
    · simp only [Registry.next, mem_watchersAt_addWatcher, h.mem, update_apply]
      split_ifs with hnumber
      · simp [hnumber, h.fresh s.watcherIdx le_rfl, eq_comm]
      · simp [hnumber]
    · exact (update_of_ne (Nat.ne_of_gt hnumber) _ _).trans (h.fresh number (Nat.le_of_lt hnumber))
  | deleteWatcher =>
    simp only [Registry.next]
    split
    · exact h
    next client hclient =>
    refine ⟨fun number value? => ?_, fun number hnumber => ?_⟩
    · simp only [mem_watchersAt_deleteWatcher, h.mem, update_apply]
      split_ifs with hdel
      · simp [hdel, hclient, eq_comm]
      · simp [hdel]
    · simp only [update_apply, h.fresh number hnumber, ite_self]
  | terminateAll =>
    refine ⟨fun number value? => ?_, fun _ _ => rfl⟩
    cases value? <;> simp [Registry.next, terminateAll, watchersAt, values]
  | dispatchEvent =>
    refine ⟨fun number value? => ?_, fun number hnumber => congrArg (Option.map _) (h.fresh number hnumber)⟩
    simp only [Registry.next, Option.map_map]
    exact h.mem number value?

/-! ### Runs -/

/-- Of the events since it was registered, the watcher was handed those addressed to it, among them all that pass. -/
structure Client.Served (triggerFunc : TriggerFunc α) (getAttrs : α → Except String (AttrSet × AttrSet × Bool))
    (client : Client α) : Prop where
  aligned : Registry.Aligned triggerFunc getAttrs client.pred
  given : client.given = client.since.filter (client.addressed triggerFunc)
  passes : ∀ event ∈ client.since, client.passes event → client.addressed triggerFunc event

theorem Registry.served_next {step : RegistryStep α} (henabled : Registry.Enabled triggerFunc getAttrs step)
    (hs : ∀ number, ∀ client ∈ s.clients number, client.Served triggerFunc getAttrs) :
    ∀ number, ∀ client ∈ (s.next triggerFunc step).clients number, client.Served triggerFunc getAttrs := by
  intro number client hclient
  cases step with
  | addWatcher =>
    simp only [Registry.next, update_apply] at hclient
    split_ifs at hclient
    · cases hclient
      exact ⟨henabled, rfl, fun _ h => absurd h not_mem_nil⟩
    · exact hs number client hclient
  | deleteWatcher =>
    simp only [Registry.next] at hclient
    split at hclient
    · exact hs number client hclient
    · simp only [update_apply] at hclient
      split_ifs at hclient
      · cases hclient
      · exact hs number client hclient
  | terminateAll => cases hclient
  | dispatchEvent event =>
    obtain ⟨before, hbefore, rfl⟩ := map_eq_some_iff.mp hclient
    obtain ⟨haligned, hgiven, hpasses⟩ := hs number before hbefore
    refine ⟨haligned, ?_, fun event' hevent' => ?_⟩
    · show before.given ++ _ = filter (before.addressed triggerFunc) (before.since ++ [event])
      rw [Multiset.count_eq_of_nodup (h.nodup triggerFunc event), filter_append, hgiven, filter_singleton]
      simp only [h.mem_dispatchEvent hbefore]
      cases before.addressed triggerFunc event <;> rfl
    · rcases mem_append.mp hevent' with hold | hnew
      · exact hpasses event' hold
      · cases mem_singleton.mp hnew
        exact addressed_of_passes haligned henabled

end

theorem sendWatchCacheEvent_of_not_passes (h : client.passes event = false) :
    sendWatchCacheEvent client.filter event = none := by
  rw [Client.passes, or_eq_false_iff] at h
  rw [sendWatchCacheEvent]
  cases hprev : event.prevObject <;> simp_all

/-- **Dispatch by trigger values equals broadcast**: in every state of any interleaving, no watcher is handed an event
twice; a client that is registered has been handed some of the events since then, once each and in order, among them all
that pass its filter; and it sees the same events as if it had been handed all of them. -/
theorem dispatch_equals_broadcast {steps : List (RegistryStep α)}
    (h : (registrySystem triggerFunc getAttrs).Run Registry.initial steps s) :
    (∀ event, (s.watchers.dispatchEvent triggerFunc event).Nodup) ∧ ∀ number, ∀ client ∈ s.clients number,
      (∃ handed : WatchCacheEvent α → Bool, client.given = client.since.filter handed ∧
        ∀ event ∈ client.since, client.passes event → handed event) ∧
      client.given.filterMap (sendWatchCacheEvent client.filter) =
        client.since.filterMap (sendWatchCacheEvent client.filter) := by
  obtain ⟨hfiled, hserved⟩ := h.invariant
    (fun s => s.Filed ∧ ∀ number, ∀ client ∈ s.clients number, client.Served triggerFunc getAttrs)
    (fun _ step _ hstep hs => hstep.2 ▸ ⟨hs.1.next step, Registry.served_next hs.1 hstep.1 hs.2⟩)
    ⟨⟨fun _ value? => by cases value? <;> simp [Registry.initial, watchersAt, values],
      fun _ _ => rfl⟩, fun _ _ hclient => by cases hclient⟩
  refine ⟨hfiled.nodup triggerFunc, fun number client hclient => ?_⟩
  obtain ⟨-, hgiven, hpasses⟩ := hserved number client hclient
  refine ⟨⟨_, hgiven, hpasses⟩, ?_⟩
  rw [hgiven, filterMap_filter]
  refine filterMap_congr fun event hevent => ?_
  split_ifs with haddressed
  · rfl
  · refine (sendWatchCacheEvent_of_not_passes (eq_false_iff.mpr fun hpass => ?_)).symm
    exact haddressed (hpasses event hevent hpass)

variable (node : String)

def nodeAttrs : Except String (AttrSet × AttrSet × Bool) :=
  .ok (∅, (∅ : AttrSet).insert "spec.nodeName" node, false)

def nodeTrigger : TriggerFunc String := some fun obj => [⟨"spec.nodeName", obj.content⟩]

def onNode : SelectionPredicate String :=
  ⟨.everything, .hasTerm "spec.nodeName" node, true, nodeAttrs, ["spec.nodeName"]⟩

def runningOn : WatchCacheEvent String :=
  ⟨.added, ⟨node, "1"⟩, ∅, (∅ : AttrSet).insert "spec.nodeName" node, false, none, ∅, ∅, false, "/pods/a", 1⟩

theorem aligned_onNode : Registry.Aligned nodeTrigger nodeAttrs (onNode node) := by
  intro publish hpublish obj labels fields uninitialized hattrs hmatch index hindex
  cases hpublish
  cases hattrs
  simp [onNode, matcherIndex, FieldSelector.requiresExactMatch] at hindex
  simp [onNode, matchesObjectAttributes, LabelSelector.everything, LabelSelector.isEmpty,
    LabelSelector.matchesLabels, FieldSelector.isEmpty, FieldSelector.matchesFields, AttrSet.get] at hmatch
  simp [← hindex, hmatch]

theorem dispatch_equals_broadcast_pods : ∃ s, (registrySystem nodeTrigger nodeAttrs).Run Registry.initial
      [.addWatcher "/pods" (onNode "n1"), .dispatchEvent (runningOn "n1"), .dispatchEvent (runningOn "n2")] s ∧
    (s.clients 0).map Client.given = some [runningOn "n1"] ∧ ∀ client ∈ s.clients 0,
      client.given.filterMap (sendWatchCacheEvent client.filter) =
        client.since.filterMap (sendWatchCacheEvent client.filter) := by
  have hallowed : System.Allowed (fun _ step => Registry.Enabled nodeTrigger nodeAttrs step) (Registry.next nodeTrigger)
      Registry.initial
      [.addWatcher "/pods" (onNode "n1"), .dispatchEvent (runningOn "n1"), .dispatchEvent (runningOn "n2")] :=
    ⟨aligned_onNode "n1", ⟨rfl, by simp [runningOn]⟩, ⟨rfl, by simp [runningOn]⟩, trivial⟩
  have hrun := System.run_foldl hallowed
  exact ⟨_, hrun, by decide +kernel, fun client hclient => ((dispatch_equals_broadcast hrun).2 0 client hclient).2⟩

end LeanKube.Caching
