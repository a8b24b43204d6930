import LeanKube.Transition
import LeanKube.WatchCache

/-! The window of a watch cache along a run. The state carries, besides the cache, the events that
were processed; the window is shown to hold the newest of them, and `GetAllEventsSince` to return
all of those above the requested version or none. -/

namespace LeanKube.Caching
open List Storage
variable {α : Type} {R : Resource α} {capacity : Nat} (w : WatchCache R capacity)

def WatchCache.objects (key : String) : Option (Object α) :=
  (w.store.getByKey key).map StoreElement.object

def replay (objects : String → Option (Object α)) (event : WatchCacheEvent α) : String → Option (Object α) :=
  Function.update objects event.key (if event.type = .deleted then none else some event.object)

/-- A watch cache with its history: the number of lists it took over, the events processed before
the last of them, and those processed since. -/
structure Traced (R : Resource α) (capacity : Nat) where
  cache : WatchCache R capacity
  lists : Nat
  past : List (WatchCacheEvent α)
  since : List (WatchCacheEvent α)

namespace Traced

def start (R : Resource α) (capacity : Nat) (pos : 0 < capacity) : Traced R capacity :=
  ⟨.new R capacity pos, 0, [], []⟩

def next (s : Traced R capacity) (op : Op α) : Traced R capacity :=
  let outcome := s.cache.apply op
  match op.event?, outcome.err with
  | none, none => ⟨outcome.cache, s.lists + 1, s.past ++ s.since, []⟩
  | _, _ => ⟨outcome.cache, s.lists, s.past, s.since ++ outcome.events⟩

end Traced

def Op.version? (op : Op α) : Option UInt64 :=
  op.event?.bind fun event => (objectResourceVersion event.object).toOption

def Traced.Increasing (s : Traced R capacity) (op : Op α) : Prop :=
  ∀ version ∈ op.version?, s.cache.resourceVersion < version

instance (s : Traced R capacity) (op : Op α) : Decidable (s.Increasing op) :=
  Option.decidableForallMem op.version?

/-- Events come with increasing versions. -/
def windowSystem (R : Resource α) (capacity : Nat) : System (Traced R capacity) (Op α) :=
  System.ofFun Traced.Increasing Traced.next

variable {version : UInt64} {s : Traced R capacity} {ops : List (Op α)}

theorem version?_of_event {op : Op α} {event : WatchEvent α} (hop : op.event? = some event)
    (hver : objectResourceVersion event.object = .ok version) : op.version? = some version := by
  rw [Op.version?, hop, Option.bind_some, hver]
  rfl

namespace Traced
variable (s : Traced R capacity)

def recorded (type : EventType) (elem : StoreElement R) (version : UInt64) : Traced R capacity :=
  ⟨s.cache.record type elem version, s.lists, s.past, s.since ++ [s.cache.eventFor type elem version]⟩

def relisted (store : ElementStore R) (version : UInt64) : Traced R capacity :=
  ⟨s.cache.relisted store version, s.lists + 1, s.past ++ s.since, []⟩

/-- A call changes nothing, records one event, or starts over with a list. -/
theorem next_cases {op : Op α} (hen : s.Increasing op) : s.next op = s ∧ (s.cache.apply op).events = [] ∨
      (∃ type elem version, s.cache.resourceVersion < version ∧ s.next op = s.recorded type elem version ∧
        (s.cache.apply op).events = [s.cache.eventFor type elem version]) ∨
      op.event? = none ∧ ∃ store version, s.next op = s.relisted store version := by
  have heff := s.cache.effect_apply op
  unfold next
  generalize s.cache.apply op = outcome at heff
  cases heff with
  | failed op => cases op <;> simp [Op.event?]
  | recorded _ type elem version hop hver =>
    refine .inr (.inl ⟨type, elem, version, hen version (version?_of_event hop hver), ?_, rfl⟩)
    simp only [hop]
    rfl
  | relisted _ _ version store => exact .inr (.inr ⟨rfl, store, version, rfl⟩)

structure Tracks : Prop where
  window : s.cache.toCyclicBuffer.Holds (s.since.map fun event => ⟨event.resourceVersion, event⟩)
  increasing : s.since.Pairwise fun a b => a.resourceVersion < b.resourceVersion
  above : ∀ event ∈ s.since, s.cache.listResourceVersion < event.resourceVersion
  current : ∀ event ∈ s.since, event.resourceVersion ≤ s.cache.resourceVersion
  list_le : s.cache.listResourceVersion ≤ s.cache.resourceVersion

variable {s}

theorem start_tracks (pos : 0 < capacity) : (start R capacity pos).Tracks where
  window := CyclicBuffer.holds_empty pos
  increasing := List.Pairwise.nil
  above _ h := absurd h not_mem_nil
  current _ h := absurd h not_mem_nil
  list_le := UInt64.le_refl 0

theorem Tracks.recorded (h : s.Tracks) (type : EventType) (elem : StoreElement R)
    {version : UInt64} (hver : s.cache.resourceVersion < version) : (s.recorded type elem version).Tracks where
  window := by
    show CyclicBuffer.Holds _ ((s.since ++ [s.cache.eventFor type elem version]).map _)
    rw [map_append]
    exact h.window.push _
  increasing := by
    refine pairwise_append.mpr ⟨h.increasing, pairwise_singleton _ _, ?_⟩
    intro a ha b hb
    rw [mem_singleton] at hb
    subst hb
    exact UInt64.lt_of_le_of_lt (h.current a ha) hver
  above event hevent := by
    rcases mem_append.mp hevent with hold | hnew
    · exact h.above event hold
    · rw [mem_singleton] at hnew
      subst hnew
      exact UInt64.lt_of_le_of_lt h.list_le hver
  current event hevent := by
    rcases mem_append.mp hevent with hold | hnew
    · exact UInt64.le_trans (h.current event hold) (UInt64.le_of_lt hver)
    · rw [mem_singleton] at hnew
      subst hnew
      exact UInt64.le_refl _
  list_le := UInt64.le_trans h.list_le (UInt64.le_of_lt hver)

theorem relisted_tracks (s : Traced R capacity) (store : ElementStore R) (version : UInt64) :
    (s.relisted store version).Tracks where
  window := CyclicBuffer.holds_clear _
  increasing := List.Pairwise.nil
  above _ h := absurd h not_mem_nil
  current _ h := absurd h not_mem_nil
  list_le := UInt64.le_refl version

theorem Tracks.next (h : s.Tracks) {op : Op α} (hen : s.Increasing op) : (s.next op).Tracks := by
  rcases s.next_cases hen with ⟨hnext, -⟩ | ⟨type, elem, version, hver, hnext, -⟩ | ⟨-, store, version, hnext⟩
  · rwa [hnext]
  · rw [hnext]
    exact h.recorded type elem hver
  · rw [hnext]
    exact relisted_tracks s store version

end Traced

variable {pos : 0 < capacity}

theorem run_tracks (hrun : (windowSystem R capacity).Run (.start R capacity pos) ops s) : s.Tracks := by
  refine hrun.invariant Traced.Tracks ?_ (Traced.start_tracks pos)
  rintro s _ t ⟨hen, rfl⟩ h
  exact h.next hen

/-! ### Reading the window -/

namespace Traced
variable {s : Traced R capacity}

def kept (s : Traced R capacity) : List (WatchCacheEvent α) := s.since.drop (s.since.length - capacity)

variable (h : s.Tracks)
include h

theorem Tracks.contents_eq : s.cache.contents = s.kept.map fun event => ⟨event.resourceVersion, event⟩ := by
  have hwindow := h.window
  rw [CyclicBuffer.Holds, length_map, ← map_drop] at hwindow
  exact hwindow

theorem Tracks.size_eq : s.cache.size = s.kept.length := by
  rw [← s.cache.length_contents, h.contents_eq, length_map]

theorem Tracks.versionAt_eq {i : Nat} {event : WatchCacheEvent α} (hevent : s.kept[i]? = some event) :
    s.cache.versionAt i = event.resourceVersion := by
  have hlt : i < s.cache.size := by
    rw [h.size_eq]
    exact (List.getElem?_eq_some_iff.mp hevent).1
  rw [WatchCache.versionAt, ← s.cache.contents_getElem? hlt, h.contents_eq, List.getElem?_map, hevent]
  rfl

theorem Tracks.slice_search (version : UInt64) :
    (s.cache.slice (Sort.search s.cache.size fun i => s.cache.versionAt i > version)).map
        WatchCacheElement.watchCacheEvent = s.kept.filter fun event => version < event.resourceVersion := by
  have hincr : s.kept.Pairwise fun a b => decide (version < a.resourceVersion) = true →
      decide (version < b.resourceVersion) = true := by
    refine List.Pairwise.imp ?_ (h.increasing.drop)
    intro a b hab ha
    exact decide_eq_true (UInt64.lt_trans (of_decide_eq_true ha) hab)
  rw [CyclicBuffer.slice_eq_drop, h.contents_eq, ← map_drop, map_map, h.size_eq,
    Sort.filter_eq_drop_search (f := fun i => decide (s.cache.versionAt i > version)) ?_ hincr]
  · exact map_id _
  · intro i event hevent
    rw [h.versionAt_eq hevent]

theorem Tracks.oldest_sound {oldest version : UInt64} (holdest : s.cache.oldest = .ok oldest)
    (hle : oldest - 1 ≤ version) :
    s.cache.listResourceVersion ≤ version ∧
      ∀ event ∈ s.since.take (s.since.length - capacity), event.resourceVersion ≤ version := by
  have hpos := s.cache.pos
  have hsize := h.size_eq
  rw [kept, length_drop] at hsize
  have hfull : ∀ event, s.kept[0]? = some event → oldest = event.resourceVersion →
      s.cache.listResourceVersion ≤ version ∧
        ∀ event ∈ s.since.take (s.since.length - capacity), event.resourceVersion ≤ version := by
    intro first hfirst heq
    have hmem : first ∈ s.kept := mem_of_getElem? hfirst
    have habove := h.above first (mem_of_mem_drop hmem)
    refine ⟨by grind, fun event hevent => ?_⟩
    have hpair := h.increasing
    rw [← take_append_drop (s.since.length - capacity) s.since, pairwise_append] at hpair
    have := hpair.2.2 event hevent first hmem
    grind
  unfold WatchCache.oldest at holdest
  split_ifs at holdest with hcap hlist hsome
  · have hlt : 0 < s.kept.length := by rw [← h.size_eq]; omega
    have hfirst := List.getElem?_eq_getElem hlt
    refine hfull _ hfirst ?_
    rw [← Except.ok.inj holdest, h.versionAt_eq hfirst]
  · -- the window is not full, so nothing was evicted
    have hnone : s.since.length - capacity = 0 := by omega
    rw [hnone, take_zero]
    exact ⟨by grind, fun _ hmem => absurd hmem not_mem_nil⟩
  · have hlt : 0 < s.kept.length := by rw [← h.size_eq]; omega
    have hfirst := List.getElem?_eq_getElem hlt
    refine hfull _ hfirst ?_
    rw [← Except.ok.inj holdest, h.versionAt_eq hfirst]

theorem Tracks.oldest_error {err : EventsError} (holdest : s.cache.oldest = .error err) :
    err = .plain "watch cache isn't correctly initialized" ∧ s.cache.listResourceVersion = 0 ∧ s.since = [] := by
  have hsize := h.size_eq
  rw [kept, length_drop] at hsize
  unfold WatchCache.oldest at holdest
  split_ifs at holdest with hcap hlist hsome
  refine ⟨(Except.error.inj holdest).symm, by grind, ?_⟩
  exact length_eq_zero_iff.mp (by omega)

theorem Tracks.getAllEventsSince_cases (order : List String) {version : UInt64} (hver : version ≠ 0) :
    (∃ message, s.cache.getAllEventsSince order version = .error (.gone message)) ∨
      (s.cache.getAllEventsSince order version = .error (.plain "watch cache isn't correctly initialized") ∧
        s.cache.listResourceVersion = 0 ∧ s.since = []) ∨
      s.cache.listResourceVersion ≤ version ∧ s.cache.getAllEventsSince order version =
          .ok (s.since.filter fun event => version < event.resourceVersion) := by
  unfold WatchCache.getAllEventsSince
  cases holdest : s.cache.oldest with
  | error =>
    obtain ⟨rfl, hlist, hsince⟩ := h.oldest_error holdest
    exact .inr (.inl ⟨rfl, hlist, hsince⟩)
  | ok oldest =>
    simp only [if_neg hver]
    split_ifs with hgone
    · exact .inl ⟨_, rfl⟩
    · have hle : oldest - 1 ≤ version := UInt64.not_lt.mp hgone
      obtain ⟨hlist, hevicted⟩ := h.oldest_sound holdest hle
      refine .inr (.inr ⟨hlist, ?_⟩)
      rw [h.slice_search version]
      have hnone : (s.since.take (s.since.length - capacity)).filter
          (fun event => version < event.resourceVersion) = [] := by
        rw [filter_eq_nil_iff]
        intro event hevent hlt
        exact UInt64.not_lt.mpr (hevicted event hevent) (of_decide_eq_true hlt)
      rw [← take_append_drop (s.since.length - capacity) s.since, filter_append, hnone, nil_append, kept]

end Traced

/-! ### Replaying what was returned -/

theorem objects_record (type : EventType) (elem : StoreElement R) (version : UInt64) :
    (w.record type elem version).objects = replay w.objects (w.eventFor type elem version) := by
  ext key : 1
  have hkey : (w.eventFor type elem version).key = elem.key := rfl
  have htype : (w.eventFor type elem version).type = type := rfl
  have hobj : (w.eventFor type elem version).object = elem.object := rfl
  rw [replay, hkey, htype, hobj]
  show ((w.storeAfter type elem).getByKey key).map StoreElement.object = _
  rw [w.getByKey_storeAfter, Function.update_apply]
  split_ifs <;> rfl

variable {u : Traced R capacity}

theorem run_extends (hrun : (windowSystem R capacity).Run u ops s) :
    u.lists ≤ s.lists ∧ (u.lists = s.lists → ∃ new, s.since = u.since ++ new ∧
      s.cache.objects = new.foldl replay u.cache.objects) := by
  induction hrun with
  | nil => exact ⟨le_rfl, fun _ => ⟨[], (append_nil _).symm, rfl⟩⟩
  | @snoc s t ops op hrun hstep ih =>
    obtain ⟨hen, rfl⟩ := hstep
    rcases s.next_cases hen with ⟨hnext, -⟩ | ⟨type, elem, version, -, hnext, -⟩ | ⟨-, store, version, hnext⟩
    · rwa [hnext]
    · rw [hnext]
      refine ⟨ih.1, fun hlists => ?_⟩
      obtain ⟨new, hsince, hobjs⟩ := ih.2 hlists
      refine ⟨new ++ [s.cache.eventFor type elem version], ?_, ?_⟩
      · rw [Traced.recorded, hsince, append_assoc]
      · rw [foldl_append, ← hobjs]
        exact objects_record s.cache type elem version
    · rw [hnext]
      refine ⟨ih.1.trans (Nat.le_succ _), fun hlists => ?_⟩
      have : u.lists = s.lists + 1 := hlists
      omega

/-- `u` is the state at `version` of the run `ops` from `start` to `s`: the run passes through `u`
after its last list, `u` is not above `version`, and every later event is. -/
structure StateAt (start : Traced R capacity) (ops : List (Op α)) (s : Traced R capacity)
    (version : UInt64) (u : Traced R capacity) : Prop where
  split : ∃ before after, ops = before ++ after ∧ (windowSystem R capacity).Run start before u ∧
    (windowSystem R capacity).Run u after s
  lists : u.lists = s.lists
  below : u.cache.resourceVersion ≤ version
  above : ∀ event ∈ s.since.drop u.since.length, version < event.resourceVersion

theorem StateAt.last {start : Traced R capacity} (hrun : (windowSystem R capacity).Run start ops s)
    (hle : s.cache.resourceVersion ≤ version) : StateAt start ops s version s where
  split := ⟨ops, [], (append_nil ops).symm, hrun, .nil s⟩
  lists := rfl
  below := hle
  above event hevent := by
    rw [drop_length] at hevent
    cases hevent

theorem exists_stateAt (hrun : (windowSystem R capacity).Run (.start R capacity pos) ops s)
    (hlist : s.cache.listResourceVersion ≤ version) (hcur : version ≤ s.cache.resourceVersion) :
    ∃ u, StateAt (.start R capacity pos) ops s version u := by
  induction hrun with
  | nil => exact ⟨_, .last (.nil _) hlist⟩
  | @snoc s t ops op hrun hstep ih =>
    have hrun' := System.Run.snoc hrun hstep
    have hstep' := System.Run.single hstep
    obtain ⟨hen, rfl⟩ := hstep
    rcases s.next_cases hen with ⟨hnext, -⟩ | ⟨_, _, newVersion, -, hnext, -⟩ | ⟨-, store, newVersion, hnext⟩
    · rw [hnext] at hlist hcur hrun' hstep' ⊢
      obtain ⟨u, ⟨before, after, hops, hbefore, hafter⟩, hlists, hbelow, habove⟩ := ih hlist hcur
      refine ⟨u, ⟨before, after ++ [op], ?_, hbefore, hafter.append hstep'⟩, hlists, hbelow, habove⟩
      rw [hops, append_assoc]
    · rw [hnext] at hlist hcur hrun' hstep' ⊢
      by_cases hnew : newVersion ≤ version
      · exact ⟨_, .last hrun' hnew⟩
      by_cases hold : s.cache.resourceVersion ≤ version
      · -- `version` lies between the previous event and this one
        refine ⟨s, ⟨ops, [op], rfl, hrun, hstep'⟩, rfl, hold, fun event hevent => ?_⟩
        rw [Traced.recorded, drop_left, mem_singleton] at hevent
        subst hevent
        exact UInt64.not_le.mp hnew
      · obtain ⟨u, ⟨before, after, hops, hbefore, hafter⟩, hlists, hbelow, habove⟩ :=
          ih hlist (UInt64.le_of_lt (UInt64.not_le.mp hold))
        refine ⟨u, ⟨before, after ++ [op], ?_, hbefore, hafter.append hstep'⟩, hlists, hbelow, ?_⟩
        · rw [hops, append_assoc]
        · intro event hevent
          rw [Traced.recorded, drop_append, mem_append] at hevent
          rcases hevent with hevent | hevent
          · exact habove event hevent
          · have := mem_of_mem_drop hevent
            rw [mem_singleton] at this
            subst this
            exact UInt64.not_le.mp hnew
    · rw [hnext] at hlist hcur hrun' ⊢
      exact ⟨_, .last hrun' hlist⟩

theorem StateAt.replay_eq (h : StateAt (.start R capacity pos) ops s version u) :
    (s.since.filter fun event => version < event.resourceVersion).foldl replay u.cache.objects = s.cache.objects := by
  obtain ⟨_, _, -, hbefore, hafter⟩ := h.split
  obtain ⟨new, hsince, hobjs⟩ := (run_extends hafter).2 h.lists
  have hold : u.since.filter (fun event => version < event.resourceVersion) = [] := by
    rw [filter_eq_nil_iff]
    intro event hevent hlt
    have hle := UInt64.le_trans ((run_tracks hbefore).current event hevent) h.below
    exact UInt64.not_lt.mpr hle (of_decide_eq_true hlt)
  have hnew : new.filter (fun event => version < event.resourceVersion) = new := by
    rw [filter_eq_self]
    intro event hevent
    refine decide_eq_true (h.above event ?_)
    rwa [hsince, drop_left]
  rw [hsince, filter_append, hold, hnew, nil_append, hobjs]

/-- **Completeness of the watch window.** For a version other than zero, `GetAllEventsSince` fails
with `Gone`; or fails because the last list came at version zero and no event followed it; or
returns in order exactly the events above the version that were processed since the last list. If
no event before that list was above its version, these are all events above the version. Replayed
on the store as it was at the version, they give the current store. -/
theorem getAllEventsSince_complete {pos : 0 < capacity} {ops : List (Op α)} {s : Traced R capacity}
    (hrun : (windowSystem R capacity).Run (.start R capacity pos) ops s) (order : List String)
    {version : UInt64} (hversion : 0 < version) :
    match s.cache.getAllEventsSince order version with
    | .error (.gone _) => True
    | .error (.plain message) => message = "watch cache isn't correctly initialized" ∧
        s.cache.listResourceVersion = 0 ∧ s.since = []
    | .ok events =>
      events = (s.since.filter fun event => version < event.resourceVersion) ∧
      ((∀ event ∈ s.past, event.resourceVersion ≤ s.cache.listResourceVersion) →
        events = (s.past ++ s.since).filter fun event => version < event.resourceVersion) ∧
      (s.cache.listResourceVersion ≤ version → version ≤ s.cache.resourceVersion →
        (∃ u, StateAt (.start R capacity pos) ops s version u) ∧
        ∀ u, StateAt (.start R capacity pos) ops s version u →
          events.foldl replay u.cache.objects = s.cache.objects) := by
  have hzero : version ≠ 0 := by grind
  rcases (run_tracks hrun).getAllEventsSince_cases order hzero with
    ⟨message, heq⟩ | ⟨heq, hlist, hsince⟩ | ⟨hlist, heq⟩
  · rw [heq]
    trivial
  · rw [heq]
    exact ⟨rfl, hlist, hsince⟩
  · rw [heq]
    refine ⟨rfl, fun hpast => ?_, fun _ hcurrent => ?_⟩
    · have hnone : s.past.filter (fun event => version < event.resourceVersion) = [] := by
        rw [List.filter_eq_nil_iff]
        intro event hevent hlt
        exact UInt64.not_lt.mpr (UInt64.le_trans (hpast event hevent) hlist) (of_decide_eq_true hlt)
      rw [List.filter_append, hnone, List.nil_append]
    · exact ⟨exists_stateAt hrun hlist hcurrent, fun u hu => hu.replay_eq⟩

/-- After a list at version zero, a request is refused without a `Gone` status. -/
theorem getAllEventsSince_uninitialized : ∃ s : Traced pods 1,
    (windowSystem pods 1).Run (.start pods 1 Nat.one_pos) [.replace [] "0"] s ∧
      s.cache.getAllEventsSince [] 1 = .error (.plain "watch cache isn't correctly initialized") :=
  ⟨_, System.run_foldl (by decide), by decide⟩

def podEvents : List (Op (String × String)) :=
  [.replace [] "1", .add ⟨("a", "web"), "2"⟩, .update ⟨("a", "db"), "3"⟩, .delete ⟨("a", "db"), "5"⟩]

theorem getAllEventsSince_complete_pod :
    (podEvents.foldl Traced.next (.start pods 2 Nat.two_pos)).cache.getAllEventsSince [] 2 =
      .ok ((podEvents.foldl Traced.next (.start pods 2 Nat.two_pos)).since.filter
        fun event => 2 < event.resourceVersion) := by
  have hrun : (windowSystem pods 2).Run (.start pods 2 Nat.two_pos) podEvents
      (podEvents.foldl Traced.next (.start pods 2 Nat.two_pos)) := System.run_foldl (by decide)
  have h := getAllEventsSince_complete hrun [] (show 0 < 2 by decide)
  obtain ⟨events, hevents⟩ : ∃ events, (podEvents.foldl Traced.next
      (.start pods 2 Nat.two_pos)).cache.getAllEventsSince [] 2 = .ok events := ⟨_, rfl⟩
  rw [hevents] at h ⊢
  rw [h.1]

end LeanKube.Caching
