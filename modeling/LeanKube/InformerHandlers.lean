import LeanKube.InformerDelivery
import LeanKube.ListRelations

/-! Every event handler of a shared informer sees every change, unless a re-list changes the indexer while the
listener is not among the syncing ones. What a re-list finds becomes `Sync` deltas, as what a resync repeats, and
`distribute` sends these to the syncing listeners only. -/

namespace LeanKube.Informer
open SharedInformer List Option Finmap
variable {α : Type} {accessor : α → Except String ObjectMeta}

/-! ### The objects that a late handler starts with -/

variable {order : List String}

theorem lookup_foldl_add (indexer : Indexer accessor) (hmem : ∀ key ∈ order, key ∈ indexer.items)
    (items : GoMap String (Object α)) (key : String) :
    (((order.filterMap indexer.items.lookup).map Notification.add).foldl
      (fun items call => call.apply accessor items) items).lookup key =
      if key ∈ order then indexer.items.lookup key else items.lookup key := by
  induction order generalizing items with
  | nil => rfl
  | cons k rest ih =>
    obtain ⟨obj, hobj⟩ := mem_iff.mp (hmem k mem_cons_self)
    simp only [filterMap_cons, hobj, map_cons, foldl_cons]
    rw [ih fun key hkey => hmem key (mem_cons_of_mem k hkey)]
    by_cases hrest : key ∈ rest
    · rw [if_pos hrest, if_pos (mem_cons_of_mem k hrest)]
    · simp only [Notification.apply, indexer.keyed k obj hobj, GoMap.lookup_insert_ite]
      by_cases hkey : key = k
      · subst hkey
        simp [hobj]
      · simp [hkey, hrest]

theorem SharedInformer.replay_list {s : SharedInformer accessor} (h : s.indexer.items.Ranges order) :
    replay accessor ((s.list order).map .add) = s.indexer.items := by
  refine ext_lookup fun key => ?_
  rw [replay, list, lookup_foldl_add s.indexer fun key hkey => (h.2 key).mp hkey]
  split_ifs with hkey
  · rfl
  · rw [lookup_empty, eq_comm, lookup_eq_none]
    exact fun hmem => hkey ((h.2 key).mpr hmem)

/-- The steps that send to the listeners, and those of the listeners. -/
def Event.IsDelivery : Event α → Prop
  | .distribute | .send | .dispatch _ | .call _ => True
  | _ => False

namespace SharedInformer
variable {s t : SharedInformer accessor}

/-! ### Runs -/

variable {event : Event α} {events : List (Event α)}

theorem ranges_of_enabled {resyncPeriod : Int64} {now : Int} {order : List String}
    (hen : s.enabled (.addEventHandler resyncPeriod now order)) (hstart : s.started) :
    s.indexer.items.Ranges order := by
  simp only [enabled, hstart, Bool.not_true, Bool.false_or, Bool.and_eq_true, decide_eq_true_eq] at hen
  exact hen.1

/-- The steps that a listener has still to make. -/
def backlog (l : ProcessorListener α) : Nat :=
  2 * l.notification.toList.length + 2 * l.pendingNotifications.length + l.received.toList.length

theorem sum_backlog_add (p : SharedProcessor α) (i : Nat) (n : Notification α) :
    ((p.modify i fun listener => listener.add n).listeners.map backlog).sum ≤ (p.listeners.map backlog).sum + 2 := by
  cases hl : p.listeners[i]? with
  | none => simp [SharedProcessor.modify, modify_eq_self (getElem?_eq_none_iff.mp hl)]
  | some l =>
    have hsum := ListRelations.sum_map_modify (f := fun listener => listener.add n) backlog hl
    have hadd : backlog (l.add n) = backlog l + 2 := by
      rw [ProcessorListener.add]
      split
      · next hnone => simp [backlog, hnone, l.pending_nil hnone]; omega
      · simp [backlog]; omega
    simp only [SharedProcessor.modify]
    omega

/-- A listener with something left calls the handler, or receives. -/
theorem backlog_step {l : ProcessorListener α} (h : backlog l ≠ 0) :
    l.received.isSome ∧ backlog l.call < backlog l ∨
      l.received = none ∧ l.notification.isSome ∧ backlog l.dispatch < backlog l := by
  cases hreceived : l.received with
  | some => simp [backlog, ProcessorListener.call, hreceived]
  | none =>
    cases hnotification : l.notification with
    | none => simp [backlog, hreceived, hnotification, l.pending_nil hnotification] at h
    | some =>
      cases hpending : l.pendingNotifications <;>
        simp [backlog, ProcessorListener.dispatch, hreceived, hnotification, hpending]
      omega

variable [DecidableEq α]

structure Faithful (s : SharedInformer accessor) : Prop where
  wellFormed : s.WellFormed
  replay_eq : ∀ i l, s.processor.listeners[i]? = some l → replay accessor (s.view i l).seen = s.indexer.items

theorem new_faithful (resyncCheckPeriod : Int64) : (new accessor resyncCheckPeriod).Faithful :=
  ⟨new_wellFormed resyncCheckPeriod, nofun⟩

theorem addEventHandler_view (hs : s.WellFormed) (resyncPeriod : Int64) (now : Int) (order : List String) :
    ∃ listener, (s.addEventHandler resyncPeriod now order).processor.listeners[s.processor.listeners.length]? =
        some listener ∧
      (s.addEventHandler resyncPeriod now order).view s.processor.listeners.length listener =
        ⟨if s.started then (s.list order).map .add else [], s.indexer.items, s.distributed⟩ ∧
      (s.addEventHandler resyncPeriod now order).processor.listeners.length = s.processor.listeners.length + 1 := by
  obtain ⟨_, _, listener, hsame, hstream, heq⟩ := s.addEventHandler_spec resyncPeriod now order
  rw [heq]
  refine ⟨listener, ?_, ?_, ?_⟩
  · simp [SharedProcessor.addListener, ← hsame.length]
  · by_cases hstart : s.started
    · simp [view, owed, hstream, hstart]
    · simp [view, owed, hstream, hstart, (hs.fresh (by simpa using hstart)).2]
  · simp [SharedProcessor.addListener, hsame.length]

theorem Faithful.snoc (hs : s.Faithful) (hen : s.enabled event) (h : s.Announces event) : (s.next event).Faithful := by
  obtain ⟨hwell, hsees⟩ := next_sees hs.wellFormed hen h
  refine ⟨hwell, fun i l hl => ?_⟩
  have hi : i < (s.next event).processor.listeners.length := (List.getElem?_eq_some_iff.mp hl).1
  by_cases hold : i < s.processor.listeners.length
  · -- A listener that was there sees the step.
    obtain ⟨l', hl', hstep⟩ := hsees i _ (List.getElem?_eq_getElem hold)
    obtain rfl : l' = l := some.inj (hl'.symm.trans hl)
    exact hstep.replay_eq (hs.replay_eq i _ (List.getElem?_eq_getElem hold))
  · -- The listener is new.
    have hadded : ∃ resyncPeriod now order, event = .addEventHandler resyncPeriod now order := by
      by_contra hother
      push Not at hother
      rw [(next_advances hs.wellFormed hen h hother).length] at hi
      exact hold hi
    obtain ⟨resyncPeriod, now, order, rfl⟩ := hadded
    obtain ⟨listener, hlistener, hview, _⟩ := addEventHandler_view hs.wellFormed resyncPeriod now order
    obtain rfl : i = s.processor.listeners.length := by
      change i < (s.addEventHandler resyncPeriod now order).processor.listeners.length at hi
      omega
    obtain rfl : listener = l := some.inj (hlistener.symm.trans hl)
    change replay accessor ((s.addEventHandler resyncPeriod now order).view _ listener).seen = _
    rw [hview, next, (show (s.addEventHandler resyncPeriod now order).indexer.items =
      s.indexer.items from congrArg View.items hview)]
    by_cases hstart : s.started
    · simp only [hstart, if_true]
      exact replay_list (ranges_of_enabled hen hstart)
    · simp only [hstart, (hs.wellFormed.fresh (by simpa using hstart)).1]
      rfl

theorem run_faithful {resyncCheckPeriod : Int64}
    (h : (sharedInformers accessor Announces).Run (new accessor resyncCheckPeriod) events t) : t.Faithful := by
  refine h.invariant Faithful ?_ (new_faithful resyncCheckPeriod)
  rintro s _ _ ⟨⟨hen, hannounces⟩, rfl⟩ hs
  exact hs.snoc hen hannounces

theorem run_follows (h : (sharedInformers accessor Announces).Run s events t) (hs : s.WellFormed)
    {i : Nat} {l : ProcessorListener α} (hl : s.processor.listeners[i]? = some l) :
    ∃ l', t.processor.listeners[i]? = some l' ∧ (s.view i l).Follows (t.view i l') := by
  have hinvariant : t.WellFormed ∧ ∃ l', t.processor.listeners[i]? = some l' ∧ (s.view i l).Follows (t.view i l') := by
    refine h.invariant (fun t => t.WellFormed ∧
      ∃ l', t.processor.listeners[i]? = some l' ∧ (s.view i l).Follows (t.view i l')) ?_ ⟨hs, l, hl, .refl _⟩
    rintro m _ _ ⟨⟨hen, hannounces⟩, rfl⟩ ⟨hm, l', hl', hfollows⟩
    obtain ⟨hwell, hsees⟩ := next_sees hm hen hannounces
    obtain ⟨l'', hl'', hstep⟩ := hsees i l' hl'
    exact ⟨hwell, l'', hl'', hfollows.trans hstep.follows⟩
  exact hinvariant.2

/-! ### What is on its way arrives -/

def workLeft (s : SharedInformer accessor) : Nat :=
  (match s.blockDeltas with
    | .free | .handling _ => 0
    | .distributing _ sync _ => 3 * (s.processor.targets sync).length + 2
    | .sending targets _ _ => 3 * targets.length + 1
    | .joining _ items => 3 * items.length + 1) +
    (s.processor.listeners.map backlog).sum

/-- What a delivery keeps. -/
structure Delivered (s t : SharedInformer accessor) : Prop where
  started : t.processor.listenersStarted
  announces : t.Announces .distribute
  indexer : t.indexer = s.indexer

theorem exists_delivery (hs : Delivered s t) (h : t.workLeft ≠ 0) : ∃ event u, event.IsDelivery ∧
    (sharedInformers accessor Announces).step t event u ∧ Delivered s u ∧ u.workLeft < t.workLeft := by
  cases hblock : t.blockDeltas with
  | distributing n sync rest =>
    refine ⟨.distribute, _, trivial, ⟨⟨by simp [enabled, hblock], hs.announces⟩, rfl⟩, ?_⟩
    simp only [next, distribute, hblock, workLeft]
    exact ⟨⟨hs.started, by simp [Announces], hs.indexer⟩, by omega⟩
  | sending targets n rest =>
    refine ⟨.send, _, trivial, ⟨⟨by cases targets <;> simp [enabled, hblock, hs.started], trivial⟩, rfl⟩, ?_⟩
    cases targets with
    | nil =>
      simp only [next, send, hblock, workLeft]
      exact ⟨⟨hs.started, by simp [Announces], hs.indexer⟩, by omega⟩
    | cons i =>
      have hsum := sum_backlog_add t.processor i n
      simp only [next, send, hblock, workLeft, length_cons]
      exact ⟨⟨hs.started, by simp [Announces], hs.indexer⟩, by omega⟩
  | joining i items =>
    refine ⟨.send, _, trivial, ⟨⟨by cases items <;> simp [enabled, hblock, hs.started], trivial⟩, rfl⟩, ?_⟩
    cases items with
    | nil =>
      simp only [next, send, hblock, workLeft]
      exact ⟨⟨hs.started, by simp [Announces], hs.indexer⟩, by omega⟩
    | cons item =>
      have hsum := sum_backlog_add t.processor i (.add item)
      simp only [next, send, hblock, workLeft, length_cons]
      exact ⟨⟨hs.started, by simp [Announces], hs.indexer⟩, by omega⟩
  | free | handling =>
    obtain ⟨l, hmem, hback⟩ : ∃ l ∈ t.processor.listeners, backlog l ≠ 0 := by
      by_contra! hnone
      exact h (by simpa [workLeft, hblock, List.sum_eq_zero_iff_forall_eq_nat] using hnone)
    obtain ⟨i, hl⟩ := mem_iff_getElem?.mp hmem
    have hkept (f) : Delivered s { t with processor := t.processor.modify i f } :=
      ⟨hs.started, by simp [Announces, hblock], hs.indexer⟩
    rcases backlog_step hback with ⟨hsome, hless⟩ | ⟨hnone, hsome, hless⟩
    · have hsum := ListRelations.sum_map_modify (f := ProcessorListener.call) backlog hl
      refine ⟨.call i, _, trivial, ⟨⟨by simp [enabled, hl, hsome], trivial⟩, rfl⟩, hkept _, ?_⟩
      simp only [next, workLeft, hblock, SharedProcessor.modify]
      omega
    · have hsum := ListRelations.sum_map_modify (f := ProcessorListener.dispatch) backlog hl
      refine ⟨.dispatch i, _, trivial, ⟨⟨by simp [enabled, hl, hs.started, hsome, hnone], trivial⟩, rfl⟩, hkept _, ?_⟩
      simp only [next, workLeft, hblock, SharedProcessor.modify]
      omega

/-- **What is on its way arrives**: the steps that send to the listeners and those of the listeners come to a state in
which no handler is owed anything, if the call under way may be distributed. -/
theorem deliveries_drain (hstarted : s.processor.listenersStarted) (hannounces : s.Announces .distribute) :
    ∃ deliveries t, (sharedInformers accessor Announces).Run s deliveries t ∧
      (∀ event ∈ deliveries, event.IsDelivery) ∧ t.indexer = s.indexer ∧
      ∀ (i : Nat) (l : ProcessorListener α), t.processor.listeners[i]? = some l → l.queued = [] ∧ t.owed i = [] := by
  obtain ⟨deliveries, t, hrun, hall, ht, hdone⟩ :=
    System.exists_run_of_decreasing workLeft (fun t => exists_delivery (s := s) (t := t)) ⟨hstarted, hannounces, rfl⟩
  refine ⟨deliveries, t, hrun, hall, ht.indexer, fun i l hl => ?_⟩
  rw [workLeft, Nat.add_eq_zero_iff, List.sum_eq_zero_iff_forall_eq_nat] at hdone
  constructor
  · have hback : backlog l = 0 := hdone.2 _ (mem_map_of_mem (mem_of_getElem? hl))
    have hlength : l.queued.length ≤ backlog l := by
      simp only [backlog, ProcessorListener.queued, length_append]
      omega
    exact length_eq_zero_iff.mp (by omega)
  · cases hblock : t.blockDeltas <;> simp [hblock] at hdone <;> simp [owed, hblock]

/-- In every run in which no `Sync` that changes the indexer is distributed while a listener is not syncing, every
handler sees every change. Once a handler has consumed what is queued for it, and the call under way owes it nothing,
its calls give exactly the contents of the indexer. A handler that is added when the informer has started gets an
`OnAdd` for each object that is then stored, and after that, in order and once, each change that is distributed. -/
theorem handlers_see_every_change {resyncCheckPeriod : Int64} {events : List (Event α)}
    (h : (sharedInformers accessor Announces).Run (new accessor resyncCheckPeriod) events t) :
    (∀ i l, t.processor.listeners[i]? = some l → l.queued = [] → t.owed i = [] →
      replay accessor l.calls = t.indexer.items) ∧
    ∀ before after resyncPeriod now order s, events = before ++ .addEventHandler resyncPeriod now order :: after →
      (sharedInformers accessor Announces).Run (new accessor resyncCheckPeriod) before s → s.started →
      s.indexer.items.Ranges order ∧
      ∃ l later distributed, t.processor.listeners[s.processor.listeners.length]? = some l ∧
        l.calls ++ l.queued ++ t.owed s.processor.listeners.length = (s.list order).map .add ++ later ∧
        t.distributed = s.distributed ++ distributed ∧
        later.filter Notification.isChange = (distributed.map Prod.fst).filter Notification.isChange := by
  constructor
  · intro i l hl hqueued howed
    have hreplay := (run_faithful h).replay_eq i l hl
    rwa [view, ProcessorListener.stream, hqueued, howed, append_nil, append_nil] at hreplay
  · rintro _ _ resyncPeriod now order s rfl hbefore hstarted
    obtain ⟨m, hm, hrest⟩ := h.split
    obtain rfl : m = s := hm.eq_foldl.trans hbefore.eq_foldl.symm
    obtain ⟨_, ⟨⟨henabled, -⟩, rfl⟩, hafter⟩ := hrest.first
    have hwellFormed := (run_faithful hm).wellFormed
    obtain ⟨_, hlistener, hview, -⟩ := addEventHandler_view hwellFormed resyncPeriod now order
    obtain ⟨l, hl, later, distributed, hseen, hdistributed, hfilter⟩ :=
      run_follows hafter (addEventHandler_sees hwellFormed henabled).1 hlistener
    rw [next, hview] at hseen hdistributed
    refine ⟨ranges_of_enabled henabled hstarted, l, later, distributed, hl, ?_, hdistributed, hfilter⟩
    rw [if_pos hstarted] at hseen
    exact hseen

end SharedInformer

/-! ### A re-list -/

def versioned (obj : String × Nat) : Except String ObjectMeta := .ok ⟨"", obj.1⟩

/-- An informer with one handler, which wants no resyncs, starts and pops what its first list found. -/
def firstList : SharedInformer versioned :=
  [.addEventHandler 0 0 [], .run, .startListeners, .produce (.replace [.api ("a", 1)] []), .pop, .handle].foldl
    SharedInformer.next (SharedInformer.new versioned 0)

theorem firstList_run : (sharedInformers versioned SharedInformer.Announces).Run (new versioned 0)
    [.addEventHandler 0 0 [], .run, .startListeners, .produce (.replace [.api ("a", 1)] []), .pop, .handle]
    firstList := by
  refine System.run_foldl ⟨⟨?_, trivial⟩, ⟨?_, trivial⟩, ⟨?_, trivial⟩, ⟨?_, trivial⟩, ⟨?_, trivial⟩, ⟨?_, trivial⟩,
    trivial⟩ <;> decide +kernel

/-- The first list is delivered. -/
theorem handlers_see_every_change_list : ∃ (t : SharedInformer versioned) (l : ProcessorListener (String × Nat)),
      t.processor.listeners[0]? = some l ∧ l.calls = [.add (.api ("a", 1))] ∧
      replay versioned l.calls = t.indexer.items := by
  let events : List (Event (String × Nat)) := [.distribute, .send, .send, .handle, .dispatch 0, .call 0]
  let t := events.foldl next firstList
  have hrun : (sharedInformers versioned SharedInformer.Announces).Run firstList events t := by
    refine System.run_foldl ⟨⟨?_, fun _ _ _ _ => ?_⟩, ⟨?_, trivial⟩, ⟨?_, trivial⟩, ⟨?_, trivial⟩, ⟨?_, trivial⟩,
      ⟨?_, trivial⟩, trivial⟩ <;> decide +kernel
  have hconsumed : (t.processor.listeners[0]?.map fun l => (l.calls, l.queued)) =
      some ([.add (.api ("a", 1))], []) := by decide +kernel
  obtain ⟨l, hl, hpair⟩ := map_eq_some_iff.mp hconsumed
  obtain ⟨hcalls, hqueued⟩ := Prod.mk.inj hpair
  exact ⟨t, l, hl, hcalls, (handlers_see_every_change (firstList_run.append hrun)).1 0 l hl hqueued (by decide +kernel)⟩

/-- A handler that wants no resyncs has seen the object of the first list. After a check for resyncs, the informer lists
again and finds the object changed: the indexer has the change, and the handler never sees it. -/
theorem relist_change_missed :
    ∃ (t : SharedInformer versioned) (events : List (Event (String × Nat))) (l : ProcessorListener (String × Nat)),
      (sharedInformers versioned fun _ _ => True).Run (new versioned 0) events t ∧
      t.processor.listeners[0]? = some l ∧ l.queued = [] ∧ t.owed 0 = [] ∧
      replay versioned l.calls ≠ t.indexer.items := by
  let events : List (Event (String × Nat)) :=
    [.addEventHandler 0 0 [], .run, .startListeners, .produce (.replace [.api ("a", 1)] []), .pop, .handle,
      .distribute, .send, .send, .handle, .dispatch 0, .call 0, .shouldResync 1,
      .produce (.replace [.api ("a", 2)] ["a"]), .pop, .handle, .distribute, .send, .handle]
  let t := events.foldl next (new versioned 0)
  have hallowed : System.Allowed (fun s event => s.enabled event = true ∧ True) next
      (new versioned 0) events := by decide +kernel
  have hmissed : (t.processor.listeners[0]?.map fun l =>
      decide (l.queued = [] ∧ replay versioned l.calls ≠ t.indexer.items)) = some true := by decide +kernel
  obtain ⟨l, hl, hdecide⟩ := map_eq_some_iff.mp hmissed
  obtain ⟨hqueued, hreplay⟩ := of_decide_eq_true hdecide
  exact ⟨t, events, l, System.run_foldl hallowed, hl, hqueued, by decide +kernel, hreplay⟩

end LeanKube.Informer
