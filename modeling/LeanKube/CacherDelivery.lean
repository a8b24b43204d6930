import LeanKube.CacherDispatch
import LeanKube.ListRelations

/-! What a watcher of the cacher is handed. At any point of any interleaving, the events that a
watcher was given, followed by those on their way to it, are the events it asked for, provided that
its `Watch` call did not find an empty store while events were still on their way. -/

namespace LeanKube.Caching
open List Storage IndexedWatchers Cacher Nat GoMap Session Dispatcher
variable {α : Type} {R : Resource α} {capacity : Nat}

/-! ### The index of watchers -/

namespace IndexedWatchers
variable (i : IndexedWatchers) (number n : Nat) (value : String) (supported : Bool)

/-- The watchers under an index value, or those without one. -/
def watchersAt : Option String → Finset Nat
  | none => i.allWatchers
  | some value => i.values value

/-- Where a watcher is filed. -/
def filedUnder (value : String) (supported : Bool) : Option String := if supported then some value else none

@[simp]
theorem filedUnder_getD (value? : Option String) : filedUnder (value?.getD "") value?.isSome = value? := by
  cases value? <;> rfl

variable (v? : Option String)

theorem mem_watchersAt_addWatcher : n ∈ (i.addWatcher number value supported).watchersAt v? ↔
    v? = filedUnder value supported ∧ n = number ∨ n ∈ i.watchersAt v? := by
  cases supported with
  | false => cases v? <;> simp [addWatcher, watchersAt, values, filedUnder]
  | true =>
    cases v? with
    | none => simp [addWatcher, watchersAt, filedUnder]
    | some v =>
      have hlookup : (i.addWatcher number value true).values v =
          if v = value then insert number (i.values value) else i.values v := by
        rw [addWatcher, if_pos rfl, values, lookup_insert_ite]
        split_ifs <;> rfl
      rw [watchersAt, watchersAt, hlookup]
      split_ifs with h <;> simp [h, filedUnder]

theorem mem_watchersAt_deleteWatcher : n ∈ (i.deleteWatcher number value supported).watchersAt v? ↔
    n ∈ i.watchersAt v? ∧ ¬(v? = filedUnder value supported ∧ n = number) := by
  cases supported with
  | false => cases v? <;> simp [deleteWatcher, watchersAt, values, filedUnder, and_comm]
  | true =>
    cases v? with
    | none => simp [deleteWatcher, watchersAt, filedUnder]
    | some v =>
      have hlookup : (i.deleteWatcher number value true).values v =
          if v = value then (i.values value).erase number else i.values v := by
        show ((if (i.values value).erase number = ∅ then i.valueWatchers.erase value
          else i.valueWatchers.insert value ((i.values value).erase number)).lookup v).getD ∅ = _
        split
        · next hempty =>
            rw [lookup_erase_ite, hempty]
            split_ifs <;> rfl
        · rw [lookup_insert_ite]
          split_ifs <;> rfl
      rw [watchersAt, watchersAt, hlookup]
      split_ifs with h <;> simp [h, filedUnder, and_comm]

theorem mem_biUnion_keys : n ∈ i.valueWatchers.keys.biUnion i.values ↔ ∃ v, n ∈ i.values v := by
  rw [Finset.mem_biUnion]
  constructor
  · rintro ⟨v, -, hv⟩
    exact ⟨v, hv⟩
  · rintro ⟨v, hv⟩
    refine ⟨v, ?_, hv⟩
    rw [Finmap.mem_keys, mem_iff_lookup_ne_none]
    intro hnone
    rw [values, hnone] at hv
    exact absurd hv (Finset.notMem_empty n)

end IndexedWatchers

/-! ### What a watcher asks for, and what is on its way -/

variable (R) (session : Session α)

/-- The dispatcher hands the event to the watcher: the watcher is not indexed, or the event has no
index value, or it has the watcher's. -/
def Session.addressed (event : WatchCacheEvent α) : Bool :=
  !session.triggerSupported || !(triggerValues R.triggerFunc event).2 ||
    (triggerValues R.triggerFunc event).1.contains session.triggerValue

/-- The events a watcher is to be handed: the objects it is shown first, the events above its start
that had been processed when it was opened, and of the later ones those addressed to it. -/
def Session.expected (since : List (WatchCacheEvent α)) : List (WatchCacheEvent α) :=
  session.opening ++ (since.take session.joined).filter (fun event => session.start < event.resourceVersion) ++
    (since.drop session.joined).filter fun event =>
      session.addressed R event && decide (session.start < event.resourceVersion)

variable {R}

namespace Cacher
variable (c : Cacher R capacity) (number : Nat) (session : Session α)

def inHand : List (WatchCacheEvent α) :=
  match c.dispatcher with
  | .idle => []
  | .received event => if session.addressed R event then [event] else []
  | .dispatching event remaining => if number ∈ remaining then [event] else []

def undispatched : List (WatchCacheEvent α) :=
  c.inHand number session ++ c.incoming.filter (session.addressed R)

/-- What the watcher is still going to take: its initial events, and of what is on the way the
events newer than these. -/
def pending : List (WatchCacheEvent α) :=
  session.initEvents ++ (session.input ++ c.undispatched number session).filter fun event =>
      session.resourceVersion < event.resourceVersion

/-- A request that cannot be served wrongly: it names a version, or the store has an object to
show, or no processed event is still on its way to the new watcher. -/
def StartsClean (req : WatchRequest α) : Prop :=
  ∀ session ∈ c.open? req, parseResourceVersion req.resourceVersion = .ok 0 →
    c.watchCache.cache.store.items = ∅ → c.undispatched c.sessions.length session = []

def Clean : CacherStep α → Prop
  | .watch req => c.StartsClean req
  | _ => True

end Cacher

/-- The steps under `Clean`. -/
def cleanSystem (R : Resource α) (capacity : Nat) : System (Cacher R capacity) (CacherStep α) :=
  System.ofFun (fun c step => c.enabled step = true ∧ c.Clean step) Cacher.next

/-! ### The invariant -/

structure Served (c : Cacher R capacity) (number : Nat) (session : Session α) : Prop where
  filed : ∀ v?, number ∈ c.watchers.watchersAt v? ↔ v? = filedUnder session.triggerValue session.triggerSupported
  joined : session.joined ≤ c.watchCache.since.length
  cut : session.resourceVersion = session.start ∨ session.resourceVersion ≤ c.watchCache.cache.resourceVersion ∧
      session.start ≤ c.watchCache.cache.resourceVersion
  delivers : session.handed ++ c.pending number session = session.expected R c.watchCache.since

def Cacher.inFlight (c : Cacher R capacity) : List (WatchCacheEvent α) :=
  match c.dispatcher with
  | .idle => c.incoming
  | .received event => event :: c.incoming
  | .dispatching event _ => event :: c.incoming

structure Delivering (c : Cacher R capacity) : Prop where
  tracks : c.watchCache.Tracks
  inFlight : ∀ event ∈ c.inFlight, event ∈ c.watchCache.since
  registered : ∀ number v?, number ∈ c.watchers.watchersAt v? → number < c.sessions.length
  nodup : ∀ event remaining, c.dispatcher = .dispatching event remaining → remaining.Nodup
  served : ∀ number session, c.sessions[number]? = some session → session.stopped = false →
    Served c number session

/-! ### Steps of the dispatcher and of the watchers -/

section Steps
variable {c : Cacher R capacity}

def Session.moved (session : Session α) (handed input initEvents : List (WatchCacheEvent α)) : Session α :=
  { session with handed, input, initEvents }

variable {number : Nat} {session : Session α} {req : WatchRequest α}

section
variable (h : Served c number session) (c' : Cacher R capacity) (hcache : c'.watchCache = c.watchCache)
  (hfiled : ∀ v?, number ∈ c'.watchers.watchersAt v? ↔ number ∈ c.watchers.watchersAt v?)
include h hcache hfiled

theorem Served.frame (handed input initEvents : List (WatchCacheEvent α))
    (hflow : handed ++ c'.pending number (session.moved handed input initEvents) =
      session.handed ++ c.pending number session) :
    Served c' number (session.moved handed input initEvents) where
  filed v? := (hfiled v?).trans (h.filed v?)
  joined := by
    rw [hcache]
    exact h.joined
  cut := by
    rw [hcache]
    exact h.cut
  delivers := by
    rw [hcache]
    exact hflow.trans h.delivers

variable {c'} in
theorem Served.frame_same (hflow : c'.undispatched number session = c.undispatched number session) :
    Served c' number session := by
  refine h.frame c' hcache hfiled session.handed session.input session.initEvents ?_
  show session.handed ++ c'.pending number session = _
  rw [pending, pending, hflow]

end

theorem modify_cases {n : Nat} {f : Session α → Session α} {session' : Session α}
    (h : (c.sessions.modify number f)[n]? = some session') :
    ∃ session, c.sessions[n]? = some session ∧ session' = if number = n then f session else session := by
  rw [List.getElem?_modify] at h
  obtain ⟨session, hsess, rfl⟩ := Option.map_eq_some_iff.mp h
  exact ⟨session, hsess, rfl⟩

theorem Served.mem_targets (h : Served c number session) (event : WatchCacheEvent α) :
    number ∈ c.targets event ↔ session.addressed R event = true := by
  unfold targets addressed
  generalize triggerValues R.triggerFunc event = trigger
  obtain ⟨_, supported⟩ := trigger
  have hall : number ∈ c.watchers.allWatchers ↔ _ := h.filed none
  have hvalues (value : String) : number ∈ c.watchers.values value ↔ _ := h.filed (some value)
  cases supported with
  | false =>
    rw [if_neg Bool.false_ne_true, Finset.mem_union, mem_biUnion_keys]
    simp only [hall, hvalues]
    cases session.triggerSupported <;> simp [filedUnder]
  | true =>
    rw [if_pos rfl, Finset.mem_union, Finset.mem_biUnion]
    simp only [hall, hvalues, mem_toFinset]
    cases session.triggerSupported <;> simp [filedUnder]

section
variable (h : Delivering c)
include h

/-- A step of the dispatcher: what is in flight was so, and the same is on its way to each watcher. -/
theorem Delivering.dispatch (incoming : List (WatchCacheEvent α)) (dispatcher : Dispatcher α)
    (hflight : ∀ event ∈ ({ c with incoming, dispatcher } : Cacher R capacity).inFlight, event ∈ c.inFlight)
    (hnodup : ∀ event remaining, dispatcher = .dispatching event remaining → remaining.Nodup)
    (hflow : ∀ number session, c.sessions[number]? = some session → session.stopped = false →
      ({ c with incoming, dispatcher } : Cacher R capacity).undispatched number session =
        c.undispatched number session) : Delivering { c with incoming, dispatcher } where
  tracks := h.tracks
  inFlight event hevent := h.inFlight event (hflight event hevent)
  registered := h.registered
  nodup := hnodup
  served number session hsess hlive :=
    (h.served number session hsess hlive).frame_same rfl (fun _ => Iff.rfl) (hflow number session hsess hlive)

theorem Delivering.receive (hen : c.enabled .receive = true) : Delivering (c.next .receive) := by
  cases hdisp : c.dispatcher with
  | received | dispatching => simp [enabled, hdisp] at hen
  | idle =>
    cases hinc : c.incoming with
    | nil => simp [enabled, hdisp, hinc] at hen
    | cons event rest =>
      simp only [Cacher.next, hinc]
      refine h.dispatch rest (.received event) ?_ nofun fun number session _ _ => ?_
      · simp [Cacher.inFlight, hdisp, hinc]
      · simp only [undispatched, inHand, hdisp, hinc, filter_cons, nil_append]
        split_ifs <;> rfl

theorem Delivering.lock {order : List Nat} (hen : c.enabled (.lock order) = true) :
    Delivering (c.next (.lock order)) := by
  cases hdisp : c.dispatcher with
  | idle | dispatching => simp [enabled, hdisp] at hen
  | received event =>
    simp only [enabled, hdisp, decide_eq_true_eq] at hen
    simp only [Cacher.next, hdisp]
    refine h.dispatch c.incoming (.dispatching event order) ?_ ?_ fun number session hsess hlive => ?_
    · simp [Cacher.inFlight, hdisp]
    · rintro _ _ ⟨⟩
      exact hen.1
    · have hmem : number ∈ order ↔ session.addressed R event = true := by
        rw [← (h.served number session hsess hlive).mem_targets, ← hen.2, mem_toFinset]
      simp only [undispatched, inHand, hdisp, hmem]

theorem Delivering.add (hen : c.enabled .add = true) : Delivering (c.next .add) := by
  cases hdisp : c.dispatcher with
  | idle | received => simp [enabled, hdisp] at hen
  | dispatching event remaining =>
    cases remaining with
    | nil => simp [enabled, hdisp] at hen
    | cons target rest =>
      have hnext : c.next .add = { c.add event target with dispatcher := .dispatching event rest } := by
        simp only [Cacher.next, hdisp]
      have hnodup := nodup_cons.mp (h.nodup event (target :: rest) hdisp)
      have hflight := h.inFlight
      rw [Cacher.inFlight, hdisp] at hflight
      rw [hnext]
      refine ⟨h.tracks, hflight, ?_, ?_, ?_⟩
      · intro number v? hnum
        simpa [Cacher.add, Cacher.modify] using h.registered number v? hnum
      · intro event' remaining heq
        obtain ⟨rfl, rfl⟩ := dispatching.inj heq
        exact hnodup.2
      · intro number session' hsess' hlive
        obtain ⟨session, hsess, rfl⟩ := modify_cases hsess'
        by_cases heq : target = number
        · subst heq
          rw [if_pos rfl] at hlive ⊢
          have hserved := h.served target session hsess hlive
          refine hserved.frame { c.add event target with dispatcher := .dispatching event rest } rfl
            (fun _ => Iff.rfl) session.handed (session.input ++ [event]) session.initEvents ?_
          simp only [pending, undispatched, inHand, hdisp, if_neg hnodup.1, mem_cons_self, if_true, moved, append_assoc]
          rfl
        · rw [if_neg heq] at hlive ⊢
          refine (h.served number session hsess hlive).frame_same rfl (fun _ => Iff.rfl) ?_
          have hmem : number ∈ target :: rest ↔ number ∈ rest := by
            rw [mem_cons]
            exact or_iff_right (Ne.symm heq)
          simp only [undispatched, inHand, hdisp, hmem]
          rfl

theorem Delivering.unlock (hen : c.enabled .unlock = true) : Delivering (c.next .unlock) := by
  cases hdisp : c.dispatcher with
  | idle | received => simp [enabled, hdisp] at hen
  | dispatching event remaining =>
    cases remaining with
    | cons => simp [enabled, hdisp] at hen
    | nil =>
      refine h.dispatch c.incoming .idle (fun event hevent => ?_) nofun fun number session _ _ => ?_
      · rw [Cacher.inFlight, hdisp]
        exact mem_cons_of_mem _ hevent
      · simp only [undispatched, inHand, hdisp, not_mem_nil, if_false]

theorem Delivering.terminate (number : Nat) : Delivering (c.terminate number) := by
  unfold Cacher.terminate
  cases hsess : c.sessions[number]? with
  | none => exact h
  | some =>
    refine ⟨h.tracks, h.inFlight, ?_, h.nodup, ?_⟩
    · intro n v? hn
      show n < (c.sessions.modify number _).length
      rw [length_modify]
      exact h.registered n v? ((mem_watchersAt_deleteWatcher ..).mp hn).1
    · intro n session' hsess' hlive
      obtain ⟨session, hsess, rfl⟩ := modify_cases hsess'
      by_cases heq : number = n
      · rw [if_pos heq] at hlive
        cases hlive
      · rw [if_neg heq] at hlive ⊢
        refine (h.served n session hsess hlive).frame_same rfl (fun v? => ?_) rfl
        rw [mem_watchersAt_deleteWatcher]
        exact and_iff_left fun hn => heq hn.2.symm

theorem Delivering.skip {event : WatchCacheEvent α} {target : Nat} {rest : List Nat}
    (hdisp : c.dispatcher = .dispatching event (target :: rest))
    (hgone : ∀ session, c.sessions[target]? = some session → session.stopped = true) :
    Delivering { c with dispatcher := .dispatching event rest } := by
  refine h.dispatch c.incoming (.dispatching event rest) ?_ ?_ fun number session hsess hlive => ?_
  · simp [Cacher.inFlight, hdisp]
  · rintro _ _ ⟨⟩
    exact (h.nodup event (target :: rest) hdisp).of_cons
  · have hne : number ≠ target := by
      rintro rfl
      rw [hgone session hsess] at hlive
      cases hlive
    simp [undispatched, inHand, hdisp, hne]

end

theorem terminate_dispatcher (number : Nat) : (c.terminate number).dispatcher = c.dispatcher := by
  unfold terminate
  split <;> rfl

theorem stopped_terminate (h : (c.terminate number).sessions[number]? = some session) : session.stopped = true := by
  unfold terminate at h
  cases hsess : c.sessions[number]? with
  | none =>
    rw [hsess] at h
    cases hsess.symm.trans h
  | some =>
    rw [hsess] at h
    obtain ⟨_, -, rfl⟩ := modify_cases h
    rw [if_pos rfl]

theorem Delivering.timeout (h : Delivering c) (hen : c.enabled .timeout = true) : Delivering (c.next .timeout) := by
  cases hdisp : c.dispatcher with
  | idle | received => simp [enabled, hdisp] at hen
  | dispatching event remaining =>
    cases remaining with
    | nil => simp [enabled, hdisp] at hen
    | cons target rest =>
      have hnext : c.next .timeout = { c.terminate target with dispatcher := .dispatching event rest } := by
        simp only [Cacher.next, hdisp]
      rw [hnext]
      exact (h.terminate target).skip ((terminate_dispatcher target).trans hdisp) fun _ hsess => stopped_terminate hsess

def Session.backlog (session : Session α) : Nat := session.initEvents.length + session.input.length

/-- An iteration of `process` takes an event, if there is one, and hands it over or passes it. -/
theorem process_moved (session : Session α) : ∃ handed input initEvents,
    ({ session with toCacheWatcher := session.process } : Session α) = session.moved handed input initEvents ∧
    (∀ rest : List (WatchCacheEvent α), handed ++ (initEvents ++ (input ++ rest).filter
        fun event => session.resourceVersion < event.resourceVersion) =
      session.handed ++ (session.initEvents ++ (session.input ++ rest).filter
        fun event => session.resourceVersion < event.resourceVersion)) ∧
    (session.backlog ≠ 0 → (session.moved handed input initEvents).backlog < session.backlog) := by
  unfold CacheWatcher.process moved backlog
  cases hinit : session.initEvents with
  | cons event rest => exact ⟨session.handed ++ [event], session.input, rest, rfl, by simp, by simp⟩
  | nil =>
    cases hinput : session.input with
    | nil => exact ⟨session.handed, session.input, session.initEvents, rfl, by simp [hinit, hinput], by simp⟩
    | cons event rest =>
      by_cases hnewer : session.resourceVersion < event.resourceVersion
      · exact ⟨session.handed ++ [event], rest, [], by simp [hnewer], by simp [hnewer], by simp⟩
      · exact ⟨session.handed, rest, [], by simp [hnewer], by simp [hnewer], by simp⟩

theorem Delivering.process (h : Delivering c) (number : Nat) : Delivering (c.next (.process number)) := by
  refine ⟨h.tracks, h.inFlight, ?_, h.nodup, ?_⟩
  · intro n v? hn
    simpa [Cacher.next, Cacher.modify] using h.registered n v? hn
  · intro n session' hsess' hlive
    obtain ⟨session, hsess, rfl⟩ := modify_cases hsess'
    by_cases heq : number = n
    · subst heq
      obtain ⟨_, _, _, hmoved, hflow, -⟩ := process_moved session
      rw [if_pos rfl, hmoved] at hlive ⊢
      have hserved := h.served number session hsess hlive
      exact hserved.frame (c.next (.process number)) rfl (fun _ => Iff.rfl) _ _ _ (hflow _)
    · rw [if_neg heq] at hlive ⊢
      exact (h.served n session hsess hlive).frame_same rfl (fun _ => Iff.rfl) rfl

/-! ### Events and new watchers -/

variable {t : Traced R capacity} {events : List (WatchCacheEvent α)} {w : WatchCache R capacity}
  {order : List String}

theorem expected_append {since : List (WatchCacheEvent α)} (hjoined : session.joined ≤ since.length)
    (event : WatchCacheEvent α) :
    session.expected R (since ++ [event]) = session.expected R since ++ [event].filter fun event =>
        session.addressed R event && decide (session.start < event.resourceVersion) := by
  rw [expected, take_append_of_le_length hjoined, drop_append_of_le_length hjoined, filter_append, ← append_assoc]
  rfl

theorem pending_incoming (number : Nat) (session : Session α) (watchCache : Traced R capacity)
    (event : WatchCacheEvent α) :
    ({ c with watchCache, incoming := c.incoming ++ [event] } : Cacher R capacity).pending
        number session =
      c.pending number session ++ ([event].filter (session.addressed R)).filter fun event =>
          session.resourceVersion < event.resourceVersion := by
  simp only [pending, undispatched, inHand, filter_append, append_assoc]

theorem Served.event (h : Served c number session) {type : EventType}
    {elem : StoreElement R} {version : UInt64} (hver : c.watchCache.cache.resourceVersion < version) :
    Served
      { c with
        watchCache := c.watchCache.recorded type elem version
        incoming := c.incoming ++ [c.watchCache.cache.eventFor type elem version] }
      number session where
  __ := h
  joined := by
    show session.joined ≤ (c.watchCache.since ++ [_]).length
    rw [length_append]
    exact le_add_right_of_le h.joined
  cut := by
    rcases h.cut with heq | ⟨hcut, hstart⟩
    · exact .inl heq
    · exact .inr ⟨UInt64.le_trans hcut (UInt64.le_of_lt hver), UInt64.le_trans hstart (UInt64.le_of_lt hver)⟩
  delivers := by
    -- the new event is newer than the cut if and only if it is newer than the start
    have hiff : session.resourceVersion < version ↔ session.start < version := by
      rcases h.cut with heq | ⟨hcut, hstart⟩
      · rw [heq]
      · exact iff_of_true (UInt64.lt_of_le_of_lt hcut hver) (UInt64.lt_of_le_of_lt hstart hver)
    have hsingle : ([c.watchCache.cache.eventFor type elem version].filter
        (session.addressed R)).filter
        (fun event => decide (session.resourceVersion < event.resourceVersion)) =
      [c.watchCache.cache.eventFor type elem version].filter fun event =>
        session.addressed R event && decide (session.start < event.resourceVersion) := by
      rw [filter_filter]
      refine filter_congr fun event hevent => ?_
      have hver' : event.resourceVersion = version := by
        rw [mem_singleton.mp hevent]
        rfl
      rw [hver', Bool.and_comm]
      simp only [hiff]
    calc _ = session.handed ++ (c.pending number session ++ _) := by
          rw [pending_incoming]
      _ = session.expected R c.watchCache.since ++ _ := by
          rw [← append_assoc, h.delivers]
      _ = session.expected R (c.watchCache.since ++ [_]) := by
          rw [hsingle, expected_append h.joined]

theorem Delivering.event (h : Delivering c) {op : Op α}
    (hen : c.enabled (.event op) = true) : Delivering (c.next (.event op)) := by
  obtain ⟨hop, hincr, -⟩ := of_decide_eq_true hen
  show Delivering { c with
    watchCache := c.watchCache.next op
    incoming := c.incoming ++ (c.watchCache.cache.apply op).events }
  rcases c.watchCache.next_cases hincr with ⟨hnext, hevs⟩ | ⟨type, elem, version, hver, hnext, hevs⟩ | ⟨hnone, -⟩
  · rwa [hnext, hevs, append_nil]
  · rw [hnext, hevs]
    refine ⟨h.tracks.recorded type elem hver, ?_, h.registered, h.nodup,
      fun number session hsess hlive => (h.served number session hsess hlive).event hver⟩
    intro event hevent
    show event ∈ c.watchCache.since ++ [_]
    rw [mem_append]
    have hmem : event ∈ c.inFlight ∨ event ∈ [c.watchCache.cache.eventFor type elem version] := by
      rw [← mem_append]
      unfold Cacher.inFlight at hevent ⊢
      cases hdisp : c.dispatcher <;> rw [hdisp] at hevent <;> exact hevent
    exact hmem.imp_left (h.inFlight event)
  · exact absurd hnone hop

theorem getAllEventsSince_zero (h : w.getAllEventsSince order 0 = .ok events) :
    events = (w.list order).map (addedEvent w) := by
  have hinitial : w.initialEvent = fun elem => pure (addedEvent w elem) := by
    funext elem
    rw [WatchCache.initialEvent, elem.attributed]
    rfl
  unfold WatchCache.getAllEventsSince at h
  split at h
  · cases h
  · simp only [if_true, hinitial, mapM_pure] at h
    exact (Except.ok.inj h).symm

theorem items_eq_empty (hranges : w.store.items.Ranges order) (h : w.list order = []) : w.store.items = ∅ := by
  refine Finmap.ext_lookup fun key => ?_
  by_contra hkey
  obtain ⟨elem, helem⟩ := Option.ne_none_iff_exists'.mp hkey
  have hmem : key ∈ order := (hranges.2 key).mpr ((mem_iff_lookup_ne_none _ _).mpr hkey)
  have helem' : elem ∈ w.list order := mem_filterMap.mpr ⟨key, hmem, helem⟩
  rw [h] at helem'
  cases helem'

theorem le_getLast {event last : WatchCacheEvent α}
    (hpair : events.Pairwise fun a b => a.resourceVersion < b.resourceVersion)
    (hlast : events.getLast? = some last) (hevent : event ∈ events) : event.resourceVersion ≤ last.resourceVersion := by
  obtain ⟨_, rfl⟩ := List.getLast?_eq_some_iff.mp hlast
  rcases mem_append.mp hevent with hfront | hlast'
  · exact UInt64.le_of_lt ((pairwise_append.mp hpair).2.2 event hfront last (mem_singleton_self last))
  · rw [mem_singleton.mp hlast']
    exact UInt64.le_refl _

theorem mem_inFlight_of_undispatched {event : WatchCacheEvent α}
    (h : event ∈ c.undispatched number session) : event ∈ c.inFlight := by
  unfold undispatched inHand at h
  unfold inFlight
  rw [mem_append] at h
  have hinc := h.imp_right mem_of_mem_filter
  cases hdisp : c.dispatcher with
  | idle =>
    rw [hdisp] at hinc
    exact hinc.resolve_left not_mem_nil
  | received | dispatching =>
    rw [hdisp] at hinc
    refine mem_cons.mpr (hinc.imp_left fun he => ?_)
    dsimp only at he
    split_ifs at he
    · exact mem_singleton.mp he
    · cases he

structure WellOpened (c : Cacher R capacity) (session : Session α) : Prop where
  fresh : session.handed = [] ∧ session.input = [] ∧ session.joined = c.watchCache.since.length
  cut : session.resourceVersion = session.start ∨ session.resourceVersion ≤ c.watchCache.cache.resourceVersion ∧
      session.start ≤ c.watchCache.cache.resourceVersion
  covered : ∀ event ∈ c.undispatched c.sessions.length session,
    event.resourceVersion ≤ session.resourceVersion
  shown : session.initEvents = session.opening ++
    c.watchCache.since.filter fun event => session.start < event.resourceVersion

structure Opened (c : Cacher R capacity) (req : WatchRequest α) (session : Session α) (watchRV : UInt64) : Prop where
  version : parseResourceVersion req.resourceVersion = .ok watchRV
  initEvents : c.watchCache.cache.getAllEventsSince req.order watchRV = .ok session.initEvents
  resourceVersion : session.resourceVersion =
    (session.initEvents.getLast?.map WatchCacheEvent.resourceVersion).getD watchRV
  start : session.start = if watchRV = 0 then c.watchCache.cache.resourceVersion else watchRV
  opening : session.opening = if watchRV = 0 then
    (c.watchCache.cache.list req.order).map (addedEvent c.watchCache.cache) else []
  fresh : session.handed = [] ∧ session.input = [] ∧ session.joined = c.watchCache.since.length

theorem opened_of_open? (hopen : c.open? req = some session) : ∃ watchRV, Opened c req session watchRV := by
  unfold open? at hopen
  split at hopen
  · cases hopen
  · next watchRV hparse =>
      split at hopen
      · cases hopen
      · next hevs =>
          obtain rfl := Option.some.inj hopen
          exact ⟨watchRV, hparse, hevs, rfl, rfl, rfl, rfl, rfl, rfl⟩

section
variable (h : Delivering c)
include h

theorem Delivering.wellOpened_zero (hopened : Opened c req session 0)
    (hranges : c.watchCache.cache.store.items.Ranges req.order)
    (hclean : c.watchCache.cache.store.items = ∅ → c.undispatched c.sessions.length session = []) :
    WellOpened c session := by
  have hshown := getAllEventsSince_zero hopened.initEvents
  have hstart : session.start = c.watchCache.cache.resourceVersion := hopened.start
  have hopening : session.opening = session.initEvents := hopened.opening.trans hshown.symm
  have hcur : ∀ event ∈ c.undispatched c.sessions.length session,
      event.resourceVersion ≤ c.watchCache.cache.resourceVersion := fun event hevent =>
    h.tracks.current event (h.inFlight event (mem_inFlight_of_undispatched hevent))
  have hnone : c.watchCache.since.filter (fun event =>
      decide (session.start < event.resourceVersion)) = [] := by
    rw [filter_eq_nil_iff]
    intro event hevent hlt
    rw [hstart] at hlt
    exact UInt64.not_lt.mpr (h.tracks.current event hevent) (of_decide_eq_true hlt)
  have hinit : session.initEvents = session.opening ++
      c.watchCache.since.filter fun event => session.start < event.resourceVersion := by
    rw [hnone, append_nil, hopening]
  have hver := hopened.resourceVersion
  cases hlast : session.initEvents.getLast? with
  | none =>
    -- nothing to show: the cut stays at zero, so nothing may be on the way
    rw [hlast] at hver
    have hempty : session.initEvents = [] := List.getLast?_eq_none_iff.mp hlast
    rw [hempty] at hshown
    have hundispatched := hclean (items_eq_empty hranges (map_eq_nil_iff.mp hshown.symm))
    refine ⟨hopened.fresh, .inr ⟨?_, ?_⟩, ?_, hinit⟩
    · rw [hver]
      exact UInt64.zero_le
    · rw [hstart]
      exact UInt64.le_refl _
    · rw [hundispatched]
      exact fun event hevent => absurd hevent not_mem_nil
  | some last =>
    rw [hlast] at hver
    have hmem : last ∈ session.initEvents := mem_of_getLast? hlast
    rw [hshown, mem_map] at hmem
    obtain ⟨_, -, rfl⟩ := hmem
    have hcut : session.resourceVersion = c.watchCache.cache.resourceVersion := hver
    refine ⟨hopened.fresh, .inl (hcut.trans hstart.symm), ?_, hinit⟩
    rw [hcut]
    exact hcur

theorem Delivering.wellOpened_pos {watchRV : UInt64} (hopened : Opened c req session watchRV)
    (hzero : watchRV ≠ 0) : WellOpened c session := by
  have hstart : session.start = watchRV := hopened.start.trans (if_neg hzero)
  have hopening : session.opening = [] := hopened.opening.trans (if_neg hzero)
  have hshown : session.initEvents = c.watchCache.since.filter fun event => watchRV < event.resourceVersion := by
    have hevs := hopened.initEvents
    rcases h.tracks.getAllEventsSince_cases req.order hzero with ⟨_, heq⟩ | ⟨heq, -⟩ |
      ⟨-, heq⟩
    · cases heq.symm.trans hevs
    · cases heq.symm.trans hevs
    · exact (Except.ok.inj (heq.symm.trans hevs)).symm
  have hinit : session.initEvents = session.opening ++
      c.watchCache.since.filter fun event => session.start < event.resourceVersion := by
    rw [hopening, nil_append, hstart, hshown]
  have hmem : ∀ event ∈ c.undispatched c.sessions.length session,
      watchRV < event.resourceVersion → event ∈ session.initEvents := by
    intro event hevent hlt
    rw [hshown, mem_filter]
    exact ⟨h.inFlight event (mem_inFlight_of_undispatched hevent), decide_eq_true hlt⟩
  have hver := hopened.resourceVersion
  cases hlast : session.initEvents.getLast? with
  | none =>
    rw [hlast] at hver
    have hcut : session.resourceVersion = watchRV := hver
    refine ⟨hopened.fresh, .inl (hcut.trans hstart.symm), ?_, hinit⟩
    intro event hevent
    rw [hcut, ← UInt64.not_lt]
    intro hlt
    have := hmem event hevent hlt
    rw [List.getLast?_eq_none_iff.mp hlast] at this
    cases this
  | some last =>
    rw [hlast] at hver
    have hcut : session.resourceVersion = last.resourceVersion := hver
    have hlastMem := mem_of_getLast? hlast
    rw [hshown, mem_filter] at hlastMem
    have hlastLe := h.tracks.current last hlastMem.1
    have hlastLt : watchRV < last.resourceVersion := of_decide_eq_true hlastMem.2
    have hpair : session.initEvents.Pairwise fun a b => a.resourceVersion < b.resourceVersion := by
      rw [hshown]
      exact h.tracks.increasing.filter _
    refine ⟨hopened.fresh, .inr ⟨?_, ?_⟩, ?_, hinit⟩
    · rw [hcut]
      exact hlastLe
    · rw [hstart]
      exact UInt64.le_trans (UInt64.le_of_lt hlastLt) hlastLe
    · intro event hevent
      rw [hcut]
      by_cases hlt : watchRV < event.resourceVersion
      · exact le_getLast hpair hlast (hmem event hevent hlt)
      · exact UInt64.le_trans (UInt64.not_lt.mp hlt) (UInt64.le_of_lt hlastLt)

theorem Delivering.wellOpened (hopen : c.open? req = some session)
    (hranges : c.watchCache.cache.store.items.Ranges req.order)
    (hclean : c.StartsClean req) : WellOpened c session := by
  obtain ⟨watchRV, hopened⟩ := opened_of_open? hopen
  by_cases hzero : watchRV = 0
  · subst hzero
    exact h.wellOpened_zero hopened hranges (hclean session hopen hopened.version)
  · exact h.wellOpened_pos hopened hzero

theorem Delivering.watch (hen : c.enabled (.watch req) = true)
    (hclean : c.StartsClean req) : Delivering (c.next (.watch req)) := by
  show Delivering (c.watch req)
  unfold Cacher.watch
  cases hopen : c.open? req with
  | none => exact h
  | some opened =>
    have hwell := h.wellOpened hopen (of_decide_eq_true hen).2 hclean
    refine ⟨h.tracks, h.inFlight, ?_, h.nodup, ?_⟩
    · intro n v? hn
      rw [length_append, length_singleton]
      rcases (mem_watchersAt_addWatcher ..).mp hn with ⟨-, rfl⟩ | hn
      · exact lt_succ_self _
      · exact lt_succ_of_lt (h.registered n v? hn)
    · intro n session hsess hlive
      have hsess' : (c.sessions ++ [opened])[n]? = some session := hsess
      rw [List.getElem?_append] at hsess'
      split_ifs at hsess' with hlt
      · have hne : n ≠ c.sessions.length := Nat.ne_of_lt hlt
        refine (h.served n session hsess' hlive).frame_same rfl (fun v? => ?_) rfl
        rw [mem_watchersAt_addWatcher]
        exact or_iff_right fun hn => hne hn.2
      · obtain ⟨hn, rfl⟩ : n = c.sessions.length ∧ opened = session := by
          rw [List.getElem?_singleton] at hsess'
          split_ifs at hsess' with hsub
          exact ⟨by omega, Option.some.inj hsess'⟩
        subst hn
        obtain ⟨hhanded, hinput, hjoined⟩ := hwell.fresh
        refine ⟨fun v? => ?_, le_of_eq hjoined, hwell.cut, ?_⟩
        · have hnew : c.sessions.length ∉ c.watchers.watchersAt v? := fun hn => lt_irrefl _ (h.registered _ v? hn)
          rw [mem_watchersAt_addWatcher]
          simp [hnew]
        · have hnone : (c.undispatched c.sessions.length opened).filter (fun event =>
              decide (opened.resourceVersion < event.resourceVersion)) = [] := by
            rw [filter_eq_nil_iff]
            intro event hevent hlt
            exact UInt64.not_lt.mpr (hwell.covered event hevent) (of_decide_eq_true hlt)
          show opened.handed ++ (opened.initEvents ++ (opened.input ++
            c.undispatched c.sessions.length opened).filter _) = _
          rw [hhanded, hinput, nil_append, nil_append, hnone, append_nil,
            hwell.shown, expected, hjoined, take_length, drop_length,
            filter_nil, append_nil]

theorem Delivering.next {step : CacherStep α} (hen : c.enabled step = true)
    (hclean : c.Clean step) : Delivering (c.next step) := by
  cases step with
  | event => exact h.event hen
  | receive => exact h.receive hen
  | lock => exact h.lock hen
  | add => exact h.add hen
  | timeout => exact h.timeout hen
  | unlock => exact h.unlock hen
  | watch => exact h.watch hen hclean
  | process number => exact h.process number
  | stop number => exact h.terminate number

end

theorem delivering_start (ht : t.Tracks) : Delivering (start t) where
  tracks := ht
  inFlight _ h := absurd h not_mem_nil
  registered n v? h := by cases v? <;> exact absurd h (Finset.notMem_empty n)
  nodup _ _ h := by cases h
  served n session h := by cases h

theorem addressed_of_not_indexed (h : R.triggerFunc = none ∨ session.triggerSupported = false)
    (event : WatchCacheEvent α) : session.addressed R event = true := by
  rcases h with h | h
  · simp [addressed, triggerValues, h]
  · simp [addressed, h]

end Steps

/-! ### What is on its way arrives -/

/-- The steps of the dispatcher, timeouts apart, and of the watchers. -/
def CacherStep.IsDelivery : CacherStep α → Prop
  | .receive | .lock _ | .add | .unlock | .process _ => True
  | _ => False

namespace Cacher
variable (c : Cacher R capacity)

/-- A bound on the deliveries left: two for each hand-over to a watcher, and those of the dispatcher and the watchers.
-/
def workLeft : Nat :=
  (c.incoming.map fun event => 2 * (c.targets event).card + 3).sum +
    (match c.dispatcher with
    | .idle => 0
    | .received event => 2 * (c.targets event).card + 2
    | .dispatching _ remaining => 2 * remaining.length + 1) +
    (c.sessions.map backlog).sum

variable {c} {number : Nat} {session : Session α}

theorem workLeft_process (hsession : c.sessions[number]? = some session) (h : session.backlog ≠ 0) :
    c.enabled (.process number) = true ∧
      (c.next (.process number)).workLeft < c.workLeft := by
  have hsum := ListRelations.sum_map_modify (f := fun session => { session with toCacheWatcher := session.process })
    backlog hsession
  obtain ⟨_, _, _, hmoved, -, hless⟩ := process_moved session
  rw [hmoved] at hsum
  refine ⟨by simpa [enabled] using (List.getElem?_eq_some_iff.mp hsession).1, Nat.add_lt_add_left ?_ _⟩
  change ((c.sessions.modify number _).map backlog).sum < _
  omega

theorem exists_delivery (h : c.workLeft ≠ 0) : ∃ step : CacherStep α, step.IsDelivery ∧
    c.enabled step = true ∧ (c.next step).workLeft < c.workLeft := by
  cases hdisp : c.dispatcher with
  | idle =>
    cases hincoming : c.incoming with
    | cons event rest =>
      refine ⟨.receive, trivial, by simp [enabled, hdisp, hincoming], ?_⟩
      simp only [next, workLeft, hdisp, hincoming, map_cons, sum_cons, targets]
      omega
    | nil =>
      obtain ⟨session, hmem, hback⟩ : ∃ session ∈ c.sessions, session.backlog ≠ 0 := by
        by_contra! hnone
        exact h (by simpa [workLeft, hdisp, hincoming, List.sum_eq_zero_iff_forall_eq_nat] using hnone)
      obtain ⟨number, hsession⟩ := mem_iff_getElem?.mp hmem
      exact ⟨.process number, trivial, workLeft_process hsession hback⟩
  | received event =>
    refine ⟨.lock (c.targets event).toList, trivial, by simp [enabled, hdisp, Finset.nodup_toList], ?_⟩
    simp only [next, workLeft, hdisp, targets, Finset.length_toList]
    omega
  | dispatching event remaining =>
    cases remaining with
    | nil =>
      refine ⟨.unlock, trivial, by simp [enabled, hdisp], ?_⟩
      simp only [next, workLeft, hdisp, targets]
      omega
    | cons number rest =>
      by_cases hfull : ∃ session, c.sessions[number]? = some session ∧ session.chanSize ≤ session.input.length
      · obtain ⟨session, hsession, hfull⟩ := hfull
        have hback : session.backlog ≠ 0 := by
          have := session.chanSize.pos
          unfold backlog
          omega
        exact ⟨.process number, trivial, workLeft_process hsession hback⟩
      · refine ⟨.add, trivial, by simpa [enabled, hdisp] using hfull, ?_⟩
        simp only [next, hdisp, workLeft, targets, Cacher.add, Cacher.modify, length_cons]
        cases hsession : c.sessions[number]? with
        | none =>
          rw [modify_eq_self (getElem?_eq_none_iff.mp hsession)]
          omega
        | some session =>
          have hsum := ListRelations.sum_map_modify
            (f := fun session => { session with input := session.input ++ [event] }) backlog hsession
          simp only [backlog, length_append, length_singleton] at hsum ⊢
          omega

theorem pending_eq_nil (h : c.workLeft = 0) (hsession : c.sessions[number]? = some session) :
    c.pending number session = [] := by
  rw [workLeft, Nat.add_eq_zero_iff, Nat.add_eq_zero_iff] at h
  obtain ⟨⟨hsum, hdispatcher⟩, hsessions⟩ := h
  have hincoming : c.incoming = [] := by
    cases hincoming : c.incoming with
    | nil => rfl
    | cons => simp [hincoming] at hsum
  have hidle : c.dispatcher = .idle := by cases hdisp : c.dispatcher <;> simp [hdisp] at hdispatcher ⊢
  have hback : session.backlog = 0 :=
    List.sum_eq_zero_iff_forall_eq_nat.mp hsessions _ (mem_map_of_mem (mem_of_getElem? hsession))
  rw [backlog, Nat.add_eq_zero_iff, length_eq_zero_iff, length_eq_zero_iff] at hback
  simp [pending, undispatched, inHand, hincoming, hidle, hback]

variable (c)

/-- **What is on its way arrives.** In every state the dispatcher and the watchers, by steps of their own, none of which
stops a watcher, come to a state in which nothing is on its way to any watcher. -/
theorem deliveries_drain : ∃ deliveries d, (cleanSystem R capacity).Run c deliveries d ∧
    (∀ step ∈ deliveries, step.IsDelivery) ∧ ∀ (number : Nat) (session : Session α),
      d.sessions[number]? = some session → d.pending number session = [] := by
  have hdecr (c : Cacher R capacity) (_ : True) (hwork : c.workLeft ≠ 0) : ∃ step d, step.IsDelivery ∧
      (cleanSystem R capacity).step c step d ∧ True ∧ d.workLeft < c.workLeft := by
    obtain ⟨step, hstep, hen, hless⟩ := exists_delivery hwork
    have hclean : c.Clean step := by cases step <;> trivial
    exact ⟨step, _, hstep, ⟨⟨hen, hclean⟩, rfl⟩, trivial, hless⟩
  obtain ⟨deliveries, d, hrun, hall, -, hdone⟩ := System.exists_run_of_decreasing _ hdecr (s := c) trivial
  exact ⟨deliveries, d, hrun, hall, fun _ _ hsession => pending_eq_nil hdone hsession⟩

end Cacher

/-- **A cached watch delivers each event once.** Take any interleaving, after a list, of events of
increasing versions, of the dispatcher, of the watchers' goroutines and of `Watch` calls none of
which finds an empty store at version zero while a processed event is still on its way to the new
watcher. Then in every state, what a watcher that is not terminated was handed, followed by what is
on its way to it, is in order and without repetition what it is to be handed: the objects in the
store if it named no version, then the events above its start, as far as they are addressed to it.
To a watcher that is not indexed every event is addressed. -/
theorem watch_delivers_once (t : Traced R capacity)
    (store : ElementStore R) (version : UInt64) {steps : List (CacherStep α)} {c : Cacher R capacity}
    (hrun : (cleanSystem R capacity).Run (.start (t.relisted store version)) steps c)
    {number : Nat} {session : Session α} (hsession : c.sessions[number]? = some session)
    (hlive : session.stopped = false) :
    session.handed ++ c.pending number session = session.expected R c.watchCache.since ∧
      (R.triggerFunc = none ∨ session.triggerSupported = false → session.handed ++ c.pending number session =
          session.opening ++ c.watchCache.since.filter fun event =>
            session.start < event.resourceVersion) := by
  have h : Delivering c := by
    refine hrun.invariant (Delivering) ?_ (delivering_start (Traced.relisted_tracks t store version))
    rintro c _ d ⟨⟨henabled, hclean⟩, rfl⟩ h
    exact h.next henabled hclean
  have hdelivers := (h.served number session hsession hlive).delivers
  refine ⟨hdelivers, fun hindexed => ?_⟩
  rw [hdelivers, Session.expected]
  simp only [addressed_of_not_indexed hindexed, Bool.true_and]
  rw [List.append_assoc, ← List.filter_append, List.take_append_drop]

def podCacher : Cacher pods 4 := .start ((Traced.start pods 4 (by decide)).relisted (.new _) 1)

def allPods (order : List String) : WatchRequest (String × String) :=
  ⟨"/pods", "0", .everything pods.getAttrs, order⟩

/-- A pod is created and deleted, and a watcher is opened before the dispatcher gets to it. -/
def lateWatch : List (CacherStep (String × String)) :=
  [.event (.add ⟨("a", "web"), "5"⟩), .event (.delete ⟨("a", "web"), "6"⟩), .watch (allPods []),
    .receive, .lock [0], .add, .unlock, .receive, .lock [0], .add, .unlock, .process 0, .process 0]

/-- The watcher starts at version 6 with an empty store and is then handed the events 5 and 6. -/
theorem watch_redelivers : ∃ c : Cacher pods 4, ∃ session,
    (cacherSystem pods 4).Run podCacher lateWatch c ∧ c.sessions[0]? = some session ∧
      session.stopped = false ∧ session.start = 6 ∧ session.opening = [] ∧
      session.handed.map WatchCacheEvent.resourceVersion = [5, 6] :=
  ⟨_, _, System.run_foldl (by decide), rfl, by decide, by decide, by decide, by decide⟩

def podWatchSteps : List (CacherStep (String × String)) :=
  [.event (.add ⟨("a", "web"), "5"⟩), .watch (allPods ["/pods/a"]), .receive,
    .event (.update ⟨("a", "db"), "6"⟩), .lock [0], .add, .process 0]

theorem watch_delivers_once_pod :
    let c := podWatchSteps.foldl Cacher.next podCacher
    ∃ session, c.sessions[0]? = some session ∧ session.handed ++ c.pending 0 session =
        session.opening ++ c.watchCache.since.filter fun event => session.start < event.resourceVersion := by
  intro c
  have hrun : (cleanSystem pods 4).Run podCacher podWatchSteps c := by
    refine System.run_foldl ⟨⟨by decide, trivial⟩, ⟨by decide, ?_⟩, ⟨by decide, trivial⟩,
      ⟨by decide, trivial⟩, ⟨by decide, trivial⟩, ⟨by decide, trivial⟩, ⟨by decide, trivial⟩, trivial⟩
    intro session _ _ hempty
    have hmem : "/pods/a" ∈ (podCacher.next
      (.event (.add ⟨("a", "web"), "5"⟩))).watchCache.cache.store.items := by decide
    rw [hempty] at hmem
    exact absurd hmem Finmap.notMem_empty
  obtain ⟨session, hsession, hlive⟩ : ∃ session, c.sessions[0]? = some session ∧
      session.stopped = false := ⟨_, rfl, rfl⟩
  exact ⟨session, hsession, (watch_delivers_once (.start pods 4 (by decide)) (.new _) 1 hrun
    hsession hlive).2 (.inl rfl)⟩

end LeanKube.Caching
