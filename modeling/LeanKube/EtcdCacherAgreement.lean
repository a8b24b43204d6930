import LeanKube.EtcdWatcher

/-! The watcher on etcd and the cached watch send the same events. The watch cache holds the decoded
values of etcd after every history, so the previous object that the cache finds in its store is the
one that etcd supplies with the event, up to its resource version. -/

namespace LeanKube.Etcd3
open Storage Caching WatchChan Change Option GoMap SelectionPredicate
variable {α : Type} {R : Resource α} {capacity : Nat} {decode : Decoder α}

/-! ### The two filters -/

variable {recursive : Bool} {key : String} {pred : SelectionPredicate α} {change : Change}

theorem hasPathPrefix_of_watches {objKey : String} (h : watches recursive key objKey = true) :
    hasPathPrefix objKey key = true := by
  cases recursive with
  | false =>
    obtain rfl : objKey = key := of_decide_eq_true h
    simp [hasPathPrefix]
  | true =>
    rw [watches, if_pos rfl, List.isPrefixOf_iff_prefix] at h
    obtain ⟨rest, hrest⟩ := h
    unfold hasPathPrefix
    by_cases hslash : key.toList.getLast? = some '/'
    · rw [if_pos hslash] at hrest
      have hbelow : key.toList.isPrefixOf objKey.toList = true := List.isPrefixOf_iff_prefix.mpr ⟨rest, hrest⟩
      simp [hbelow, hslash]
    · rw [if_neg hslash, List.append_assoc] at hrest
      have hbelow : key.toList.isPrefixOf objKey.toList = true := List.isPrefixOf_iff_prefix.mpr ⟨_, hrest⟩
      have hnext : objKey.toList[key.length]? = some '/' := by
        rw [← hrest, ← String.length_toList, List.getElem?_append_right le_rfl]
        simp
      simp [hbelow, hslash, hnext]

variable (pred)

theorem filter_createWatchChan {object : Object α} {l f : AttrSet}
    {uninitialized : Bool} (hattrs : pred.getAttrs object.content = .ok (l, f, uninitialized)) :
    (createWatchChan pred).filter (some object) = pred.matchesObjectAttributes l f uninitialized := by
  have hmat := pred.matchesObject_eq hattrs
  unfold filter createWatchChan
  by_cases hempty : pred.isEmpty = true
  · rw [if_pos hempty, if_pos (isEmpty_everything pred.getAttrs)]
    rw [matchesObject, if_pos hempty] at hmat
    exact Except.ok.inj hmat
  · rw [if_neg hempty, if_neg hempty, map_some, hmat]

theorem acceptAll_createWatchChan : (createWatchChan pred).acceptAll = pred.isEmpty := by
  unfold acceptAll createWatchChan
  by_cases hempty : pred.isEmpty = true
  · rw [if_pos hempty, hempty, isEmpty_everything]
  · rw [if_neg hempty]

variable {pred} {value : List UInt8} (wc : WatchChan α) (object : Object α) (version : UInt64)

theorem filter_updateObject : wc.filter (some (updateObject object version)) = wc.filter (some object) := rfl

def WatchChan.pass (wc : WatchChan α) (object : Object α) : Option (Object α) :=
  if wc.filter (some object) then some object else none

theorem pass_updateObject : wc.pass (updateObject object version) = (wc.pass object).map (updateObject · version) := by
  rw [WatchChan.pass, WatchChan.pass, filter_updateObject]
  split_ifs <;> rfl

theorem visible_eq (hpred : pred.getAttrs = R.getAttrs) (elem : StoreElement R)
    (hwatches : watches recursive key elem.key = true) :
    visible (filterWithAttrsFunction key pred) (some elem) = (createWatchChan pred).pass elem.object := by
  have hpasses : elem.passes (filterWithAttrsFunction key pred) = (createWatchChan pred).filter (some elem.object) := by
    rw [filter_createWatchChan pred (by rw [hpred]; exact elem.attributed), StoreElement.passes,
      filterWithAttrsFunction, hasPathPrefix_of_watches hwatches]
    rfl
  rw [visible, filter_some, hpasses, WatchChan.pass]
  split_ifs <;> rfl

/-! ### The cache follows etcd -/

structure Mirrors (decode : Decoder α) (s : Mirrored R capacity) : Prop where
  stored : ∀ key kv, s.contents.lookup key = some kv → Stored R decode key kv.value
  objects : ∀ key, (s.cache.store.getByKey key).map StoreElement.object =
    (s.contents.lookup key).map fun kv => decodeObj decode key kv.value kv.modRevision

theorem Stored.exists_elem (h : Stored R decode key value) (rev : Int64) :
    ∃ elem : StoreElement R, newStoreElement R (decodeObj decode key value rev) =
      .ok elem ∧ elem.object = decodeObj decode key value rev ∧ elem.key = key := by
  obtain ⟨_, hattrs⟩ := h.attributed
  cases helem : newStoreElement R (decodeObj decode key value rev) with
  | error =>
    unfold newStoreElement at helem
    split at helem
    · next hkey => cases h.keyed.symm.trans hkey
    · split at helem
      · next hfail => cases hattrs.symm.trans hfail
      · cases helem
  | ok elem =>
    have hobj := newStoreElement_object helem
    refine ⟨elem, rfl, hobj, ?_⟩
    have hkeyed := elem.keyed
    rw [hobj] at hkeyed
    exact Except.ok.inj (hkeyed.symm.trans h.keyed)

def Change.recorded (decode : Decoder α) (contents : Contents) : Change → EventType × Object α
  | .put key value rev =>
    (if (contents.lookup key).isNone then .added else .modified, decodeObj decode key value rev)
  | .delete key rev => (.deleted, decodeObj decode key ((contents.lookup key).elim [] KeyValue.value) rev)

def Change.rev : Change → Int64
  | .put _ _ rev => rev
  | .delete _ rev => rev

variable {s : Mirrored R capacity}

section
variable (h : Mirrors decode s) (hvalid : change.Valid R decode s.contents)
include h hvalid

theorem Mirrors.recorded_stored : ∃ value, Stored R decode change.key value ∧
      (change.recorded decode s.contents).2 = decodeObj decode change.key value change.rev := by
  cases change with
  | put _ value => exact ⟨value, hvalid, rfl⟩
  | delete key =>
    obtain ⟨kv, hkv⟩ := Finmap.mem_iff.mp hvalid
    refine ⟨kv.value, h.stored key kv hkv, ?_⟩
    rw [recorded, hkv]
    rfl

theorem Mirrors.cacherOp_eq : ∃ op, cacherOp R decode (change.event s.contents) = some op ∧
      op.event? = some ⟨(change.recorded decode s.contents).1, (change.recorded decode s.contents).2⟩ := by
  have haccept : (createWatchChan (.everything R.getAttrs)).acceptAll = true := by
    rw [acceptAll_createWatchChan, isEmpty_everything]
  have hfilter : ∀ object, (createWatchChan (.everything R.getAttrs)).filter object = true :=
    fun object => if_pos haccept
  unfold cacherOp transform prepareObjs
  cases change with
  | put key =>
    cases hlookup : s.contents.lookup key with
    | none | some =>
      simp only [event, recorded, hlookup, haccept, hfilter]
      exact ⟨_, rfl, rfl⟩
  | delete key =>
    obtain ⟨kv, hkv⟩ := Finmap.mem_iff.mp hvalid
    have hlen : kv.value.length > 0 := List.length_pos_iff.mpr (h.stored key kv hkv).nonempty
    simp only [event, recorded, hkv, hfilter, elim_some, hlen]
    exact ⟨_, rfl, rfl⟩

theorem Mirrors.apply_change : ∃ op, ∃ elem : StoreElement R, cacherOp R decode (change.event s.contents) = some op ∧
      elem.key = change.key ∧ elem.object = (change.recorded decode s.contents).2 ∧
      s.cache.apply op = ⟨s.cache.record (change.recorded decode s.contents).1 elem change.rev.toUInt64,
          [s.cache.eventFor (change.recorded decode s.contents).1 elem change.rev.toUInt64], none⟩ := by
  obtain ⟨op, hop, hevent⟩ := h.cacherOp_eq hvalid
  obtain ⟨value, hstored, hobj⟩ := h.recorded_stored hvalid
  obtain ⟨elem, helem, helemObject, helemKey⟩ := hstored.exists_elem change.rev
  refine ⟨op, elem, hop, helemKey, helemObject.trans hobj.symm, ?_⟩
  have hver : objectResourceVersion (decodeObj decode change.key value change.rev) =
      .ok change.rev.toUInt64 := objectResourceVersion_updateObject _ _
  rw [s.cache.apply_of_event hevent, hobj, hver, helem]

theorem Mirrors.next : Mirrors decode (s.next decode change) := by
  obtain ⟨_, elem, hop, hkey, hobj, happly⟩ := h.apply_change hvalid
  have hcache : (s.next decode change).cache =
      s.cache.record (change.recorded decode s.contents).1 elem change.rev.toUInt64 := by
    show feed decode s.cache (change.event s.contents) = _
    rw [feed, hop, elim_some, happly]
  constructor
  · cases change with
    | put => exact forall_insert h.stored hvalid
    | delete => exact fun key kv hkv => h.stored key kv (of_lookup_erase hkv).2
  · intro key
    rw [hcache]
    show ((s.cache.storeAfter _ elem).getByKey key).map StoreElement.object = _
    rw [s.cache.getByKey_storeAfter]
    cases change with
    | put key' value rev =>
      have hkey' : elem.key = key' := hkey
      have htype : (recorded decode s.contents (.put key' value rev)).1 ≠ .deleted := by
        show (if (s.contents.lookup key').isNone then EventType.added else .modified) ≠ .deleted
        split_ifs <;> decide
      show _ = ((s.contents.insert key' ⟨value, rev⟩).lookup key).map _
      rw [lookup_insert_ite, hkey', if_neg htype]
      split_ifs with heq
      · rw [map_some, hobj, heq]
        rfl
      · exact h.objects key
    | delete key' rev =>
      have hkey' : elem.key = key' := hkey
      have htype : (recorded decode s.contents (.delete key' rev)).1 = .deleted := rfl
      show _ = ((s.contents.erase key').lookup key).map _
      rw [lookup_erase_ite, hkey', if_pos htype]
      split_ifs with heq
      · rfl
      · exact h.objects key

end

theorem run_mirrors {start : Mirrored R capacity} (hstart : Mirrors decode start)
    {changes : List Change} (hrun : (mirrorSystem R capacity decode).Run start changes s) : Mirrors decode s := by
  refine hrun.invariant (Mirrors decode) ?_ hstart
  rintro s _ t ⟨hvalid, rfl⟩ h
  exact h.next hvalid

/-! ### Agreement -/

def Change.newObject (decode : Decoder α) : Change → Option (Object α)
  | .put key value rev => some (decodeObj decode key value rev)
  | .delete _ _ => none

def Change.oldObject (decode : Decoder α) (contents : Contents) (change : Change) : Option (Object α) :=
  (contents.lookup change.key).map fun kv => decodeObj decode change.key kv.value change.rev

theorem Mirrors.transform_eq (h : Mirrors decode s) (hvalid : change.Valid R decode s.contents)
    (pred : SelectionPredicate α) :
    (createWatchChan pred).transform decode (change.event s.contents) =
      (changeEvent ((change.oldObject decode s.contents).bind (createWatchChan pred).pass)
        ((change.newObject decode).bind (createWatchChan pred).pass)).map
          fun event => (event.type, some event.object) := by
  have hempty : (createWatchChan pred).acceptAll = true → ∀ object,
      (createWatchChan pred).filter object = true := fun haccept object => if_pos haccept
  generalize createWatchChan pred = wc at hempty
  have hlen : ∀ key kv, s.contents.lookup key = some kv → kv.value.length > 0 :=
    fun key kv hkv => List.length_pos_iff.mpr (h.stored key kv hkv).nonempty
  unfold transform prepareObjs oldObject
  cases change with
  | put key value rev =>
    cases hkv : s.contents.lookup key with
    | none =>
      cases hcur : wc.filter (some (decodeObj decode key value rev)) <;>
        simp [Change.event, Change.key, Change.newObject, WatchChan.pass, hkv, hcur, changeEvent]
    | some kv =>
      have hpos := hlen key kv hkv
      cases haccept : wc.acceptAll with
      | true =>
        simp [Change.event, Change.key, Change.newObject, WatchChan.pass, hkv, hempty haccept, changeEvent]
      | false =>
        cases hcur : wc.filter (some (decodeObj decode key value rev)) <;>
          cases hold : wc.filter (some (decodeObj decode key kv.value rev)) <;>
          simp [Change.event, Change.key, Change.rev, Change.newObject, WatchChan.pass, hkv,
            hcur, hold, hpos, changeEvent]
  | delete key rev =>
    obtain ⟨kv, hkv⟩ := Finmap.mem_iff.mp hvalid
    have hpos := hlen key kv hkv
    cases hold : wc.filter (some (decodeObj decode key kv.value rev)) <;>
      simp [Change.event, Change.key, Change.rev, Change.newObject, WatchChan.pass, hkv, hold, hpos, changeEvent]

theorem Mirrors.visible_previous (h : Mirrors decode s) (hpred : pred.getAttrs = R.getAttrs)
    (hwatches : watches recursive key change.key = true) :
    (visible (filterWithAttrsFunction key pred) (s.cache.store.getByKey change.key)).map
        (updateObject · change.rev.toUInt64) =
      (change.oldObject decode s.contents).bind (createWatchChan pred).pass := by
  have hobjs := h.objects change.key
  rw [oldObject]
  cases hprevious : s.cache.store.getByKey change.key with
  | none =>
    rw [hprevious, map_none, eq_comm, map_eq_none_iff] at hobjs
    rw [hobjs]
    rfl
  | some previous =>
    rw [hprevious, map_some, eq_comm, map_eq_some_iff] at hobjs
    obtain ⟨_, hkv, hobj⟩ := hobjs
    have hkey : previous.key = change.key := Except.ok.inj (s.cache.store.keyed change.key previous hprevious)
    rw [hkv, visible_eq hpred previous (hkey ▸ hwatches), ← pass_updateObject, ← hobj]
    rfl

theorem visible_new (hpred : pred.getAttrs = R.getAttrs) {contents : Contents}
    {elem : StoreElement R} (hkey : elem.key = change.key) (hobj : elem.object = (change.recorded decode contents).2)
    (hwatches : watches recursive key change.key = true) :
    visible (filterWithAttrsFunction key pred)
        (if (change.recorded decode contents).1 = .deleted then none else some elem) =
      (change.newObject decode).bind (createWatchChan pred).pass := by
  cases change with
  | put key' value rev =>
    have htype : (recorded decode contents (.put key' value rev)).1 ≠ .deleted := by
      show (if (contents.lookup key').isNone then EventType.added else .modified) ≠ .deleted
      split_ifs <;> decide
    rw [if_neg htype, visible_eq hpred elem (hkey ▸ hwatches), hobj]
    rfl
  | delete => rfl

/-- **Cached and uncached watch agree.** Let the watch cache hold what is in etcd, and let any
history of valid changes follow. Then for the next change of a watched key, and for every label and
field selector and either value of `includeUninitialized`, the watcher on etcd sends what the
cached watch sends: the same type and object, or nothing. -/
theorem cachedEvents_eq_transform {start : Mirrored R capacity} (hstart : Mirrors decode start)
    {changes : List Change} (hrun : (mirrorSystem R capacity decode).Run start changes s)
    {change : Change} (hvalid : change.Valid R decode s.contents)
    {recursive : Bool} {key : String} (hwatches : watches recursive key change.key = true)
    (label : LabelSelector) (field : FieldSelector) (includeUninitialized : Bool) (indexFields : List String) :
    (cachedEvents decode s.cache (filterWithAttrsFunction key
        (predicateFunc R label field includeUninitialized indexFields))
        (change.event s.contents)).map (fun event => (event.type, some event.object)) =
      ((createWatchChan (predicateFunc R label field includeUninitialized indexFields)).transform
        decode (change.event s.contents)).toList := by
  have h := run_mirrors hstart hrun
  obtain ⟨op, _, hop, hkey, hobject, happly⟩ := h.apply_change hvalid
  have hpred : (predicateFunc R label field includeUninitialized indexFields).getAttrs = R.getAttrs := rfl
  have hsent : s.cache.sent (filterWithAttrsFunction key
      (predicateFunc R label field includeUninitialized indexFields)) op =
      (changeEvent ((change.oldObject decode s.contents).bind
        (createWatchChan (predicateFunc R label field includeUninitialized indexFields)).pass)
        ((change.newObject decode).bind (createWatchChan
          (predicateFunc R label field includeUninitialized indexFields)).pass)).toList := by
    rw [WatchCache.sent, happly, ← h.visible_previous hpred hwatches,
      ← visible_new hpred hkey hobject hwatches, ← hkey, ← sendWatchCacheEvent_eventFor]
    rw [List.filterMap_cons, List.filterMap_nil]
    cases sendWatchCacheEvent _ _ <;> rfl
  rw [cachedEvents, hop, elim_some, hsent, h.transform_eq hvalid, toList_map]

theorem mirrors_new (decode : Decoder α) (pos : 0 < capacity) :
    Mirrors decode (⟨∅, .new R capacity pos⟩ : Mirrored R capacity) where
  stored key kv h := by
    cases h
  objects key := by
    rfl

def decodePod : Decoder (String × String) := fun _ value => ("a", if value = [0] then "web" else "db")

theorem stored_pod (hval : value ≠ []) : Stored pods decodePod "/pods/a" value := ⟨hval, rfl, _, rfl⟩

def podCreated : Mirrored pods 2 :=
  Mirrored.next decodePod ⟨∅, .new pods 2 Nat.two_pos⟩ (.put "/pods/a" [0] 7)

/-- The pod loses the label that a watch selects: both watches send a `Deleted`. -/
theorem cachedEvents_eq_transform_pod : (cachedEvents decodePod podCreated.cache
        (filterWithAttrsFunction "/pods" (predicateFunc pods webPods.label .everything true []))
        ((put "/pods/a" [1] 8).event podCreated.contents)).map
          (fun event => (event.type, some event.object)) = [(.deleted, some ⟨("a", "web"), "8"⟩)] := by
  have hrun : (mirrorSystem pods 2 decodePod).Run ⟨∅, .new pods 2 Nat.two_pos⟩
      [.put "/pods/a" [0] 7] podCreated :=
    System.Run.single ⟨stored_pod (by decide), rfl⟩
  have hvalid : (put "/pods/a" [1] 8).Valid pods decodePod podCreated.contents := stored_pod (by decide)
  have hwatches : watches true "/pods" (put "/pods/a" [1] 8).key = true := by decide
  rw [cachedEvents_eq_transform (mirrors_new decodePod Nat.two_pos) hrun hvalid hwatches]
  decide

end LeanKube.Etcd3
