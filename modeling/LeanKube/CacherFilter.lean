import LeanKube.Transition
import LeanKube.WatchCache

/-! The filter of a cached watch (`cacheWatcher.sendWatchCacheEvent`): an event of the watch cache
becomes an event on the objects that pass the filter. A client that follows these events holds the
filtered store. -/

namespace LeanKube.Caching
open Storage Option
variable {α : Type}

abbrev FilterFunc := String → AttrSet → AttrSet → Bool → Bool

variable (filter : FilterFunc)

def sendWatchCacheEvent (event : WatchCacheEvent α) : Option (WatchEvent α) :=
  let curObjPasses := event.type ≠ .deleted &&
    filter event.key event.objLabels event.objFields event.objUninitialized
  match event.prevObject with
  | none => if curObjPasses then some ⟨.added, event.object⟩ else none
  | some prevObject =>
    let oldObjPasses := filter event.key event.prevObjLabels event.prevObjFields event.prevObjUninitialized
    if !curObjPasses && !oldObjPasses then none
    else if curObjPasses && !oldObjPasses then some ⟨.added, event.object⟩
    else if curObjPasses && oldObjPasses then some ⟨.modified, event.object⟩
    -- the previous content, but with the version of the event
    else some ⟨.deleted, updateObject prevObject event.resourceVersion⟩

variable {R : Resource α} {capacity : Nat}

def StoreElement.passes (elem : StoreElement R) (filter : FilterFunc) : Bool :=
  filter elem.key elem.labels elem.fields elem.uninitialized

def visible (elem? : Option (StoreElement R)) : Option (Object α) :=
  (elem?.filter fun elem => elem.passes filter).map StoreElement.object

variable (w : WatchCache R capacity)

def WatchCache.filtered (key : String) : Option (Object α) :=
  visible filter (w.store.getByKey key)

/-- What a client does with an event: `Added` inserts, `Modified` replaces, `Deleted` removes. -/
def clientApply (R : Resource α) (client : String → Option (Object α)) (event : WatchEvent α) :
    String → Option (Object α) :=
  match R.keyFunc event.object.content with
  | .error _ => client
  | .ok key =>
    match event.type with
    | .added | .modified => Function.update client key (some event.object)
    | .deleted => Function.update client key none
    | .error => client

/-- The client can make sense of the event: it does not hold the key of an `Added`, and it holds
the key of a `Modified` or `Deleted`. -/
def Expected (R : Resource α) (client : String → Option (Object α)) (event : WatchEvent α) : Prop :=
  ∃ key, R.keyFunc event.object.content = .ok key ∧
    match event.type with
    | .added => client key = none
    | .modified | .deleted => client key ≠ none
    | .error => False

def WatchCache.sent (op : Op α) : List (WatchEvent α) :=
  (w.apply op).events.filterMap (sendWatchCacheEvent filter)

structure Watched (R : Resource α) (capacity : Nat) where
  cache : WatchCache R capacity
  client : String → Option (Object α)

def Watched.next (s : Watched R capacity) (op : Op α) : Watched R capacity :=
  ⟨(s.cache.apply op).cache, (s.cache.sent filter op).foldl (clientApply R) s.client⟩

def Op.IsEvent (op : Op α) : Prop := op.event? ≠ none

instance (op : Op α) : Decidable op.IsEvent :=
  decidable_of_iff (op.event?.isSome = true) (by rw [Op.IsEvent, isSome_iff_ne_none])

def watchedSystem (R : Resource α) (capacity : Nat) (filter : FilterFunc) : System (Watched R capacity) (Op α) :=
  System.ofFun (fun _ op => op.IsEvent) (Watched.next filter)

/-! ### One event -/

/-- The event that tells a client how a key changed, from the object it could see before to the one
it can see after. -/
def changeEvent : Option (Object α) → Option (Object α) → Option (WatchEvent α)
  | none, none => none
  | none, some object => some ⟨.added, object⟩
  | some _, some object => some ⟨.modified, object⟩
  | some prevObject, none => some ⟨.deleted, prevObject⟩

variable (w : WatchCache R capacity) (filter : FilterFunc) (type : EventType)
  (elem : StoreElement R) (version : UInt64)

theorem sendWatchCacheEvent_eventFor : sendWatchCacheEvent filter (w.eventFor type elem version) =
      changeEvent ((visible filter (w.store.getByKey elem.key)).map (updateObject · version))
        (visible filter (if type = .deleted then none else some elem)) := by
  have hkey : ∀ previous, w.store.getByKey elem.key = some previous → previous.key = elem.key :=
    fun previous h => Except.ok.inj (w.store.keyed elem.key previous h)
  unfold sendWatchCacheEvent WatchCache.eventFor newWatchCacheEvent visible StoreElement.passes
  cases hprevious : w.store.getByKey elem.key with
  | none =>
    by_cases htype : type = .deleted
    · simp [htype, changeEvent]
    · cases hcur : filter elem.key elem.labels elem.fields elem.uninitialized <;>
        simp [htype, hcur, Option.filter, changeEvent]
  | some previous =>
    have hpkey := hkey previous hprevious
    cases hold : filter elem.key previous.labels previous.fields previous.uninitialized <;>
      by_cases htype : type = .deleted <;>
      cases hcur : filter elem.key elem.labels elem.fields elem.uninitialized <;>
      simp [htype, hcur, hold, Option.filter, hpkey, changeEvent]

theorem keyFunc_of_visible {filter : FilterFunc} {elem? : Option (StoreElement R)} {key : String}
    {object : Object α} (hkey : ∀ elem ∈ elem?, elem.key = key)
    (h : visible filter elem? = some object) : R.keyFunc object.content = .ok key := by
  obtain ⟨elem, helem, rfl⟩ := map_eq_some_iff.mp h
  obtain ⟨hmem, -⟩ := filter_eq_some_iff.mp helem
  rw [elem.keyed, hkey elem hmem]

theorem filtered_record : (w.record type elem version).filtered filter = Function.update (w.filtered filter) elem.key
        (visible filter (if type = .deleted then none else some elem)) := by
  ext key : 1
  rw [Function.update_apply]
  show visible filter ((w.storeAfter type elem).getByKey key) = _
  rw [w.getByKey_storeAfter]
  split_ifs <;> rfl

theorem follows_record :
    (∀ event ∈ sendWatchCacheEvent filter (w.eventFor type elem version), Expected R (w.filtered filter) event) ∧
    (sendWatchCacheEvent filter (w.eventFor type elem version)).elim (w.filtered filter)
      (clientApply R (w.filtered filter)) = (w.record type elem version).filtered filter := by
  have hold : ∀ object, visible filter (w.store.getByKey elem.key) = some object →
      R.keyFunc object.content = .ok elem.key :=
    fun object h => keyFunc_of_visible
      (fun previous hp => Except.ok.inj (w.store.keyed elem.key previous hp)) h
  have hnew : ∀ object, visible filter (if type = .deleted then none else some elem) = some object →
      R.keyFunc object.content = .ok elem.key :=
    fun object h => keyFunc_of_visible (fun e he => by split_ifs at he <;> cases he; rfl) h
  have hheld : w.filtered filter elem.key = visible filter (w.store.getByKey elem.key) := rfl
  rw [sendWatchCacheEvent_eventFor, filtered_record]
  -- the four cases of the decision
  cases hvold : visible filter (w.store.getByKey elem.key) with
  | none =>
    cases hvnew : visible filter (if type = .deleted then none else some elem) with
    | none =>
      refine ⟨fun event h => absurd h (not_mem_none event), ?_⟩
      show w.filtered filter = _
      rw [← hvold, ← hheld, Function.update_eq_self]
    | some object =>
      refine ⟨fun event h => ?_, ?_⟩
      · obtain rfl := mem_some_iff.mp h
        exact ⟨elem.key, hnew object hvnew, hheld.trans hvold⟩
      · simp only [map_none, changeEvent, elim_some, clientApply, hnew object hvnew]
  | some prevObject =>
    have hne : w.filtered filter elem.key ≠ none := by rw [hheld, hvold]; exact some_ne_none _
    cases hvnew : visible filter (if type = .deleted then none else some elem) with
    | none =>
      refine ⟨fun event h => ?_, ?_⟩
      · obtain rfl := mem_some_iff.mp h
        exact ⟨elem.key, hold prevObject hvold, hne⟩
      · simp only [map_some, changeEvent, elim_some, clientApply, updateObject, hold prevObject hvold]
    | some object =>
      refine ⟨fun event h => ?_, ?_⟩
      · obtain rfl := mem_some_iff.mp h
        exact ⟨elem.key, hnew object hvnew, hne⟩
      · simp only [map_some, changeEvent, elim_some, clientApply, hnew object hvnew]

/-! ### Runs -/

theorem follows_apply {op : Op α} (hop : op.IsEvent) :
    (∀ event ∈ w.sent filter op, Expected R (w.filtered filter) event) ∧
    (w.sent filter op).foldl (clientApply R) (w.filtered filter) = (w.apply op).cache.filtered filter := by
  have heff := w.effect_apply op
  unfold WatchCache.sent
  generalize w.apply op = outcome at heff
  cases heff with
  | failed => exact ⟨fun event h => absurd h List.not_mem_nil, rfl⟩
  | recorded _ type elem version =>
    obtain ⟨hexpected, hfollows⟩ := follows_record w filter type elem version
    rw [← hfollows]
    cases hsent : sendWatchCacheEvent filter (w.eventFor type elem version) with
    | none => simp [hsent]
    | some event => simpa [hsent] using hexpected event hsent
  | relisted => exact absurd rfl hop

/-- **A filtered watch simulates the filtered store.** A client that starts with the objects that
pass the filter of a watch on `key` with predicate `pred` and follows the events it is sent holds
the objects of the current store that pass the filter, after every sequence of events; and of the
next event it is sent `Added` only for a key that it does not hold, and `Modified` or `Deleted`
only for one that it holds. -/
theorem client_eq_filtered (key : String) (pred : SelectionPredicate α) (w : WatchCache R capacity)
    {ops : List (Op α)} {s : Watched R capacity}
    (hrun : (watchedSystem R capacity (filterWithAttrsFunction key pred)).Run
      ⟨w, w.filtered (filterWithAttrsFunction key pred)⟩ ops s) :
    s.client = s.cache.filtered (filterWithAttrsFunction key pred) ∧
      ∀ op : Op α, op.IsEvent → ∀ event ∈ s.cache.sent (filterWithAttrsFunction key pred) op,
        Expected R s.client event := by
  have hclient : s.client = s.cache.filtered (filterWithAttrsFunction key pred) := by
    refine hrun.invariant (fun s => s.client = s.cache.filtered (filterWithAttrsFunction key pred)) ?_ rfl
    rintro s op t ⟨hop, rfl⟩ h
    show (s.cache.sent _ op).foldl (clientApply R) s.client = _
    rw [h]
    exact (follows_apply s.cache _ hop).2
  refine ⟨hclient, fun op hop => ?_⟩
  rw [hclient]
  exact (follows_apply s.cache _ hop).1

def webPods : SelectionPredicate (String × String) where
  label := .internalSelector [⟨"app", .equals, ["web"]⟩]
  field := .everything
  includeUninitialized := true
  getAttrs := pods.getAttrs
  indexFields := []

def podChanges : List (Op (String × String)) :=
  [.add ⟨("a", "web"), "1"⟩, .update ⟨("a", "db"), "2"⟩, .update ⟨("a", "web"), "3"⟩]

def podWatch : Watched pods 2 :=
  podChanges.foldl (Watched.next (filterWithAttrsFunction "/pods" webPods))
    ⟨.new pods 2 Nat.two_pos, fun _ => none⟩

theorem client_eq_filtered_pods : podWatch.client = podWatch.cache.filtered (filterWithAttrsFunction "/pods" webPods) ∧
      podWatch.client "/pods/a" = some ⟨("a", "web"), "3"⟩ := by
  have hrun : (watchedSystem pods 2 (filterWithAttrsFunction "/pods" webPods)).Run
      ⟨.new pods 2 Nat.two_pos, fun _ => none⟩ podChanges podWatch := System.run_foldl (by decide)
  exact ⟨(client_eq_filtered "/pods" webPods (.new pods 2 Nat.two_pos) hrun).1, by decide⟩

end LeanKube.Caching
