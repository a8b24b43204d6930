import LeanKube.WorkQueue

/-! Safety of the work queue and delivery of the work marked on it: over every interleaving the
queue holds the dirty items that nobody processes, an item is held by one worker at most, and every
batch of `Add`s leads to one delivery. -/

namespace LeanKube.WorkQueue
open List

set_option linter.unusedSectionVars false

variable {W t : Type} [DecidableEq W] [DecidableEq t]

structure Workers.Consistent (s : Workers W t) : Prop where
  nodup : s.q.queue.Nodup
  queued : ∀ x, x ∈ s.q.queue ↔ x ∈ s.q.dirty ∧ x ∉ s.q.processing
  heldOnce : (s.held.map Prod.snd).Nodup
  processing : ∀ x, x ∈ s.q.processing ↔ ∃ worker, (worker, x) ∈ s.held

namespace Workers
variable {s u : Workers W t} {worker : W} {event : Event W t} {events : List (Event W t)} {x item : t}

theorem get_item (h : s.Enabled (.get worker (some x))) :
    ∃ rest, s.q.queue = x :: rest ∧ s.q.get.2 = { s.q with
      queue := rest
      processing := insert x s.q.processing
      dirty := s.q.dirty.erase x } := by
  unfold Enabled Queue.get at h
  unfold Queue.get
  cases hq : s.q.queue with
  | nil =>
    rw [hq] at h
    dsimp only at h
    split_ifs at h
  | cons _ rest =>
    rw [hq] at h
    cases h
    exact ⟨rest, rfl, rfl⟩

theorem start_consistent : (start : Workers W t).Consistent where
  nodup := nodup_nil
  queued x := by simp [start, Queue.new]
  heldOnce := nodup_nil
  processing x := by simp [start, Queue.new]

section
variable (hs : s.Consistent)
include hs

theorem Consistent.add (item : t) : (s.next (.add item)).Consistent := by
  simp only [next, Queue.add]
  split_ifs with hshut hdirty hproc
  · exact hs
  · exact hs
  · refine ⟨hs.nodup, fun x => ?_, hs.heldOnce, hs.processing⟩
    simp only [hs.queued x, Finset.mem_insert]
    constructor
    · exact fun h => ⟨.inr h.1, h.2⟩
    · rintro ⟨rfl | h, hnot⟩
      · exact absurd hproc hnot
      · exact ⟨h, hnot⟩
  · have hnot : item ∉ s.q.queue := fun h => hdirty ((hs.queued item).mp h).1
    refine ⟨?_, fun x => ?_, hs.heldOnce, hs.processing⟩
    · exact nodup_append'.mpr ⟨hs.nodup, nodup_singleton item, disjoint_singleton.mpr hnot⟩
    · simp only [mem_append, mem_singleton, hs.queued x, Finset.mem_insert]
      constructor
      · rintro (h | rfl)
        · exact ⟨.inr h.1, h.2⟩
        · exact ⟨.inl rfl, hproc⟩
      · rintro ⟨rfl | h, hx⟩
        · exact .inr rfl
        · exact .inl ⟨h, hx⟩

theorem Consistent.notHeld_of_get (h : s.Enabled (.get worker (some x))) (other : W) : (other, x) ∉ s.held := by
  obtain ⟨_, hqueue, -⟩ := get_item h
  have hx : x ∈ s.q.queue := hqueue ▸ mem_cons_self
  exact fun hheld => ((hs.queued x).mp hx).2 ((hs.processing x).mpr ⟨other, hheld⟩)

theorem Consistent.get (h : s.Enabled (.get worker (some item))) : (s.next (.get worker (some item))).Consistent := by
  obtain ⟨_, hqueue, hget⟩ := get_item h
  have hnodup := hs.nodup
  rw [hqueue, nodup_cons] at hnodup
  simp only [next, hget]
  refine ⟨hnodup.2, fun x => ?_, ?_, fun x => ?_⟩
  · have hold := hs.queued x
    rw [hqueue, mem_cons] at hold
    simp only [Finset.mem_erase, Finset.mem_insert, not_or]
    constructor
    · intro hx
      have hne : x ≠ item := fun heq => hnodup.1 (heq ▸ hx)
      exact ⟨⟨hne, (hold.mp (.inr hx)).1⟩, hne, (hold.mp (.inr hx)).2⟩
    · rintro ⟨⟨hne, hdirty⟩, -, hproc⟩
      exact (hold.mpr ⟨hdirty, hproc⟩).resolve_left hne
  · rw [map_cons, nodup_cons]
    refine ⟨fun hmem => ?_, hs.heldOnce⟩
    obtain ⟨⟨other, y⟩, hheld, hy⟩ := mem_map.mp hmem
    cases hy
    exact hs.notHeld_of_get h other hheld
  · simp only [Finset.mem_insert, mem_cons, Prod.mk.injEq]
    constructor
    · rintro (rfl | hx)
      · exact ⟨worker, .inl ⟨rfl, rfl⟩⟩
      · obtain ⟨w, hw⟩ := (hs.processing x).mp hx
        exact ⟨w, .inr hw⟩
    · rintro ⟨w, ⟨-, rfl⟩ | hw⟩
      · exact .inl rfl
      · exact .inr ((hs.processing x).mpr ⟨w, hw⟩)

theorem Consistent.done (h : (worker, item) ∈ s.held) : (s.next (.done worker item)).Consistent := by
  have hproc : item ∈ s.q.processing := (hs.processing item).mpr ⟨worker, h⟩
  have hnotq : item ∉ s.q.queue := fun hq => ((hs.queued item).mp hq).2 hproc
  have hheldNodup : s.held.Nodup := hs.heldOnce.of_map _
  -- the holder of an item is unique, so erasing this pair takes the item out of all hands
  have hheld : ∀ w x, (w, x) ∈ s.held.erase (worker, item) ↔ (w, x) ∈ s.held ∧ x ≠ item := by
    intro w x
    rw [hheldNodup.mem_erase_iff]
    constructor
    · rintro ⟨hne, hmem⟩
      refine ⟨hmem, fun hx => hne ?_⟩
      exact inj_on_of_nodup_map hs.heldOnce hmem h hx
    · rintro ⟨hmem, hne⟩
      exact ⟨fun heq => hne (congrArg Prod.snd heq), hmem⟩
  have hprocessing : ∀ x, x ∈ s.q.processing.erase item ↔ ∃ w, (w, x) ∈ s.held.erase (worker, item) := by
    intro x
    simp only [Finset.mem_erase, hs.processing x, hheld]
    constructor
    · rintro ⟨hne, w, hw⟩
      exact ⟨w, hw, hne⟩
    · rintro ⟨w, hw, hne⟩
      exact ⟨hne, w, hw⟩
  have hheldOnce : ((s.held.erase (worker, item)).map Prod.snd).Nodup :=
    hs.heldOnce.sublist (erase_sublist.map _)
  simp only [next, Queue.done]
  split_ifs with hdirty
  · refine ⟨?_, fun x => ?_, hheldOnce, hprocessing⟩
    · exact nodup_append'.mpr ⟨hs.nodup, nodup_singleton item, disjoint_singleton.mpr hnotq⟩
    · simp only [mem_append, mem_singleton, hs.queued x, Finset.mem_erase, not_and]
      constructor
      · rintro (⟨hd, hp⟩ | rfl)
        · exact ⟨hd, fun _ hx => hp hx⟩
        · exact ⟨hdirty, fun hne => absurd rfl hne⟩
      · rintro ⟨hd, hp⟩
        by_cases hx : x = item
        · exact .inr hx
        · exact .inl ⟨hd, hp hx⟩
  · refine ⟨hs.nodup, fun x => ?_, hheldOnce, hprocessing⟩
    simp only [hs.queued x, Finset.mem_erase, not_and]
    constructor
    · rintro ⟨hd, hp⟩
      exact ⟨hd, fun _ => hp⟩
    · rintro ⟨hd, hp⟩
      exact ⟨hd, hp fun hx => hdirty (hx ▸ hd)⟩

theorem Consistent.next (h : s.Enabled event) : (s.next event).Consistent := by
  cases event with
  | add item => exact hs.add item
  | get _ result =>
    cases result with
    | none => exact hs
    | some => exact hs.get h
  | done => exact hs.done h
  | shutDown => exact ⟨hs.nodup, hs.queued, hs.heldOnce, hs.processing⟩

end

theorem run_consistent (h : (workerSystem W t).Run s events u) (hs : s.Consistent) : u.Consistent := by
  refine System.Run.invariant Consistent (fun s _ u hstep hinv => ?_) h hs
  rw [hstep.2]
  exact hinv.next hstep.1

/-! ### What is marked stays marked until it is delivered -/

theorem mem_queue_done (h : x ∈ s.q.dirty) (worker : W) : x ∈ (s.next (.done worker x)).q.queue := by
  rw [next, Queue.done, if_pos h]
  exact mem_append_right _ (mem_singleton_self x)

theorem mem_dirty_next (h : s.Enabled event) (x : t) : x ∈ (s.next event).q.dirty ↔
      match event with
      | .add y => x ∈ s.q.dirty ∨ x = y ∧ s.q.shuttingDown = false
      | .get _ (some y) => x ∈ s.q.dirty ∧ x ≠ y
      | _ => x ∈ s.q.dirty := by
  cases event with
  | add =>
    simp only [next, Queue.add]
    split_ifs with hshut hdirty hproc
    · simp [hshut]
    · constructor
      · exact .inl
      · rintro (h | ⟨rfl, -⟩)
        · exact h
        · exact hdirty
    · simp [hshut, or_comm]
    · simp [hshut, or_comm]
  | get _ result =>
    cases result with
    | none => rfl
    | some =>
      obtain ⟨_, -, hget⟩ := get_item h
      simp only [next, hget, Finset.mem_erase]
      exact and_comm
  | done =>
    simp only [next, Queue.done]
    split_ifs <;> rfl
  | shutDown => rfl

theorem shuttingDown_next (h : s.Enabled event) :
    (s.next event).q.shuttingDown = (s.q.shuttingDown || decide (event = .shutDown)) := by
  cases event with
  | add =>
    simp only [next, Queue.add]
    split_ifs <;> simp_all
  | get _ result =>
    cases result with
    | none => simp [next]
    | some =>
      obtain ⟨_, -, hget⟩ := get_item h
      simp [next, hget]
  | done =>
    simp only [next, Queue.done]
    split_ifs <;> simp
  | shutDown => simp [next, Queue.shutDown]

end Workers

/-- The account of one item over a list of calls: whether it was marked since its last delivery,
whether the queue was told to stop, and how many batches of `Add`s there were, a batch being all
the `Add`s between two deliveries. -/
structure Tally where
  marked : Bool
  stopped : Bool
  batches : Nat

variable (x : t)

def Tally.next (tally : Tally) : Event W t → Tally
  | .add y =>
    if y = x ∧ tally.stopped = false ∧ tally.marked = false then
      { tally with marked := true, batches := tally.batches + 1 }
    else tally
  | .get _ (some y) => if y = x then { tally with marked := false } else tally
  | .get _ none => tally
  | .done _ _ => tally
  | .shutDown => { tally with stopped := true }

variable (events : List (Event W t))

def tally : Tally := events.foldl (Tally.next x) ⟨false, false, 0⟩

def batches : Nat := (tally x events).batches

def Event.delivers : Event W t → Bool
  | .get _ (some y) => y = x
  | _ => false

def deliveries : Nat := events.countP (Event.delivers x)

def itemGets : Nat :=
  events.countP fun event =>
    match event with
    | .get _ (some _) => true
    | _ => false

variable (x : t) (events : List (Event W t)) (event : Event W t)

theorem tally_append : tally x (events ++ [event]) = Tally.next x (tally x events) event := by
  simp only [tally, foldl_append, foldl_cons, foldl_nil]

theorem deliveries_append : deliveries x (events ++ [event]) =
      deliveries x events + if event.delivers x then 1 else 0 := by
  simp only [deliveries, countP_append, countP_singleton]

structure Workers.Accounted (x : t) (events : List (Event W t)) (s : Workers W t) : Prop where
  stopped : (tally x events).stopped = s.q.shuttingDown
  marked : (tally x events).marked = true ↔ x ∈ s.q.dirty
  balance : deliveries x events + (if x ∈ s.q.dirty then 1 else 0) = batches x events

namespace Workers
variable {s s' : Workers W t} {events : List (Event W t)} {event : Event W t} {x : t}

theorem Accounted.of_same (hs : s.Accounted x events) {stopped : Bool} (hstopped : stopped = s'.q.shuttingDown)
    (hnext : Tally.next x (tally x events) event = { tally x events with stopped })
    (hdelivers : event.delivers x = false) (hsame : x ∈ s'.q.dirty ↔ x ∈ s.q.dirty) :
    s'.Accounted x (events ++ [event]) where
  stopped := by rw [tally_append, hnext, hstopped]
  marked := by rw [tally_append, hnext, hsame, hs.marked]
  balance := by
    rw [batches, tally_append, hnext, deliveries_append, hdelivers]
    simp only [hsame, Bool.false_eq_true, if_false, Nat.add_zero]
    exact hs.balance

theorem Accounted.next (hs : s.Accounted x events) (hcons : s.Consistent) (h : s.Enabled event) :
    (s.next event).Accounted x (events ++ [event]) := by
  have hdirty := mem_dirty_next h x
  have hshut := shuttingDown_next h
  have hbalance := hs.balance
  unfold batches at hbalance
  cases event with
  | add y =>
    simp only [reduceCtorEq, decide_false, Bool.or_false] at hshut
    by_cases hmark : y = x ∧ (tally x events).stopped = false ∧ (tally x events).marked = false
    · -- a new batch begins
      have hnot : Event.delivers x (.add y : Event W t) = false := rfl
      have hx : x ∉ s.q.dirty := by
        rw [← hs.marked, hmark.2.2]
        exact Bool.false_ne_true
      have hx' : x ∈ (s.next (.add y)).q.dirty := hdirty.mpr (.inr ⟨hmark.1.symm, hs.stopped ▸ hmark.2.1⟩)
      rw [if_neg hx] at hbalance
      refine ⟨?_, ?_, ?_⟩
      · rw [tally_append, Tally.next, if_pos hmark, hshut]
        exact hs.stopped
      · rw [tally_append, Tally.next, if_pos hmark]
        exact iff_of_true rfl hx'
      · rw [batches, tally_append, Tally.next, if_pos hmark, deliveries_append, hnot, if_pos hx']
        simp only [Bool.false_eq_true, if_false]
        omega
    · refine hs.of_same (hs.stopped.trans hshut.symm) (if_neg hmark) rfl (hdirty.trans ⟨?_, .inl⟩)
      rintro (hx | ⟨rfl, hdown⟩)
      · exact hx
      · rw [← hs.marked]
        by_contra hne
        exact hmark ⟨rfl, hs.stopped.trans hdown, Bool.eq_false_iff.mpr hne⟩
  | get worker result =>
    simp only [reduceCtorEq, decide_false, Bool.or_false] at hshut
    cases result with
    | none => exact hs.of_same (hs.stopped.trans hshut.symm) rfl rfl hdirty
    | some y =>
      by_cases hy : y = x
      · -- the batch is delivered
        have hx : x ∈ s.q.dirty := by
          obtain ⟨_, hqueue, -⟩ := get_item h
          have hmem : y ∈ s.q.queue := hqueue ▸ mem_cons_self
          exact hy ▸ ((hcons.queued y).mp hmem).1
        have hx' : x ∉ (s.next (.get worker (some y))).q.dirty := fun hmem => (hdirty.mp hmem).2 hy.symm
        have hdel : Event.delivers x (.get worker (some y)) = true := decide_eq_true hy
        rw [if_pos hx] at hbalance
        refine ⟨?_, ?_, ?_⟩
        · rw [tally_append, Tally.next, if_pos hy, hshut]
          exact hs.stopped
        · rw [tally_append, Tally.next, if_pos hy]
          exact iff_of_false Bool.false_ne_true hx'
        · rw [batches, tally_append, Tally.next, if_pos hy, deliveries_append, hdel, if_neg hx']
          simp only [if_true]
          omega
      · exact hs.of_same (hs.stopped.trans hshut.symm) (if_neg hy) (decide_eq_false hy)
          (hdirty.trans ⟨fun hx => hx.1, fun hx => ⟨hx, fun heq => hy heq.symm⟩⟩)
  | done =>
    simp only [reduceCtorEq, decide_false, Bool.or_false] at hshut
    exact hs.of_same (hs.stopped.trans hshut.symm) rfl rfl hdirty
  | shutDown =>
    simp only [decide_true, Bool.or_true] at hshut
    exact hs.of_same hshut.symm rfl rfl hdirty

theorem run_accounted (h : (workerSystem W t).Run .start events s) (x : t) : s.Accounted x events := by
  have hinv : s.Consistent ∧ s.Accounted x events := by
    refine System.Run.history (fun events s => s.Consistent ∧ s.Accounted x events)
      (fun events s _ u hstep hinv => ?_) h ⟨start_consistent, rfl, ?_, rfl⟩
    · rw [hstep.2]
      exact ⟨hinv.1.next hstep.1, hinv.2.next hinv.1 hstep.1⟩
    · exact iff_of_false Bool.false_ne_true (Finset.notMem_empty x)
  exact hinv.2

end Workers

theorem Tally.stopped_next {event : Event W t} (tally : Tally) (h : event ≠ .shutDown) :
    (Tally.next x tally event).stopped = tally.stopped := by
  fun_cases Tally.next x tally event
  all_goals first | rfl | exact absurd rfl h

theorem Tally.marked_next {event : Event W t} {tally : Tally} (h : ∀ worker, event ≠ .get worker (some x))
    (hmarked : tally.marked = true) : (Tally.next x tally event).marked = true := by
  fun_cases Tally.next x tally event with
  | case3 worker => exact absurd rfl (h worker)
  | case1 | case2 | case4 | case5 | case6 | case7 => first | rfl | exact hmarked

theorem tally_stopped_of_notMem {events : List (Event W t)} (h : .shutDown ∉ events) :
    (tally x events).stopped = false :=
  events.foldlRecOn (motive := fun tally => tally.stopped = false) (Tally.next x) rfl fun tally hstopped _ hmem =>
    (tally.stopped_next x (ne_of_mem_of_not_mem hmem h)).trans hstopped

theorem tally_marked_of_add (before after : List (Event W t)) (hstop : .shutDown ∉ before)
    (hget : ∀ worker, .get worker (some x) ∉ after) : (tally x (before ++ .add x :: after)).marked = true := by
  rw [tally, foldl_append, foldl_cons]
  refine after.foldlRecOn (motive := fun tally => tally.marked = true) (Tally.next x) ?_ fun _ hmarked _ hmem =>
    Tally.marked_next x (fun worker => ne_of_mem_of_not_mem hmem (hget worker)) hmarked
  rw [Tally.next]
  split_ifs with h
  · rfl
  · by_contra hne
    exact h ⟨rfl, tally_stopped_of_notMem x hstop, Bool.eq_false_iff.mpr hne⟩

/-! ### What is queued is delivered -/

theorem itemGets_append : itemGets (events ++ [event]) = itemGets events + itemGets [event] := by
  simp only [itemGets, countP_append]

namespace Workers

variable {before rest : List t} {s u : Workers W t} {event : Event W t} {events : List (Event W t)} {x : t}

theorem queue_next (h : s.Enabled event) (hqueue : s.q.queue = before ++ x :: rest)
    (hne : ∀ worker, event ≠ .get worker (some x)) :
    ∃ before' rest', (s.next event).q.queue = before' ++ x :: rest' ∧
      before'.length + itemGets [event] = before.length := by
  cases event with
  | add y =>
    simp only [next, Queue.add]
    split_ifs
    · exact ⟨before, rest, hqueue, rfl⟩
    · exact ⟨before, rest, hqueue, rfl⟩
    · exact ⟨before, rest, hqueue, rfl⟩
    · refine ⟨before, rest ++ [y], ?_, rfl⟩
      rw [hqueue, append_assoc, cons_append]
  | get worker result =>
    cases result with
    | none => exact ⟨before, rest, hqueue, rfl⟩
    | some =>
      obtain ⟨_, htail, hget⟩ := get_item h
      cases before with
      | nil =>
        rw [hqueue, nil_append, List.cons.injEq] at htail
        exact absurd (htail.1 ▸ rfl) (hne worker)
      | cons _ before =>
        rw [hqueue, cons_append, List.cons.injEq] at htail
        refine ⟨before, rest, ?_, rfl⟩
        simp only [next, hget]
        exact htail.2.symm
  | done _ y =>
    simp only [next, Queue.done]
    split_ifs
    · refine ⟨before, rest ++ [y], ?_, rfl⟩
      rw [hqueue, append_assoc, cons_append]
    · exact ⟨before, rest, hqueue, rfl⟩
  | shutDown => exact ⟨before, rest, hqueue, rfl⟩

theorem queue_run (hrun : (workerSystem W t).Run s events u)
    (hqueue : s.q.queue = before ++ x :: rest) (hne : ∀ worker, .get worker (some x) ∉ events) :
    ∃ before' rest', u.q.queue = before' ++ x :: rest' ∧ before'.length + itemGets events = before.length := by
  induction hrun with
  | nil => exact ⟨before, rest, hqueue, rfl⟩
  | @snoc v w events event hrun hstep ih =>
    obtain ⟨_, _, hqueue', _⟩ := ih fun worker hmem => hne worker (mem_append_left _ hmem)
    have hevent : ∀ worker, event ≠ .get worker (some x) := by
      rintro worker rfl
      exact hne worker (mem_append_right _ (mem_singleton_self _))
    obtain ⟨before'', rest'', hqueue'', _⟩ := queue_next hstep.1 hqueue' hevent
    refine ⟨before'', rest'', by rw [hstep.2, hqueue''], ?_⟩
    rw [itemGets_append]
    omega

end Workers

/-- **Safety and delivery of the work queue.** After any interleaving of calls by any workers: the
queue slice holds, once each, the items that are dirty and not processed, and the items processed
are those some worker holds; a `Get` returns no item that a worker holds; an item added before the
shutdown is dirty until a later `Get` returns it; a dirty item that is held is queued by its holder's `Done`; while the
queue is not empty a `Get` returns its first item, also after the shutdown; an item in the queue is returned by the time
as many items have been returned as stood before it, and one more; and the `Get`s that returned an item,
with the one still due if it is dirty, are as many as its batches of `Add`s. -/
theorem workQueue_safety_delivery {s : Workers W t} {events : List (Event W t)}
    (hrun : (workerSystem W t).Run .start events s) :
    (s.q.queue.Nodup ∧ (∀ x, x ∈ s.q.queue ↔ x ∈ s.q.dirty ∧ x ∉ s.q.processing) ∧
      ∀ x, x ∈ s.q.processing ↔ ∃ worker, (worker, x) ∈ s.held) ∧
    (∀ worker x, s.Enabled (.get worker (some x)) → ∀ other, (other, x) ∉ s.held) ∧
    (∀ x before after, events = before ++ .add x :: after → .shutDown ∉ before →
      (∀ worker, .get worker (some x) ∉ after) → x ∈ s.q.dirty) ∧
    (∀ worker x, (worker, x) ∈ s.held → x ∈ s.q.dirty → x ∈ (s.next (.done worker x)).q.queue) ∧
    (∀ x rest, s.q.queue = x :: rest → s.q.get.1 = .item x) ∧
    (∀ x before rest later u, s.q.queue = before ++ x :: rest → (workerSystem W t).Run s later u →
      before.length < itemGets later → ∃ worker, .get worker (some x) ∈ later) ∧
    ∀ x, deliveries x events + (if x ∈ s.q.dirty then 1 else 0) = batches x events := by
  have hcons := Workers.run_consistent hrun Workers.start_consistent
  refine ⟨⟨hcons.nodup, hcons.queued, hcons.processing⟩, ?_, ?_, ?_, ?_, ?_, ?_⟩
  · intro worker x henabled other
    exact hcons.notHeld_of_get henabled other
  · intro x before after hevents hstop hget
    rw [← (Workers.run_accounted hrun x).marked, hevents]
    exact tally_marked_of_add x before after hstop hget
  · intro worker x _ hdirty
    exact Workers.mem_queue_done hdirty worker
  · intro x rest hqueue
    rw [Queue.get, hqueue]
  · intro x before rest later u hqueue hlater hlen
    by_contra hnone
    rw [not_exists] at hnone
    obtain ⟨_, _, -, _⟩ := Workers.queue_run hlater hqueue hnone
    omega
  · intro x
    exact (Workers.run_accounted hrun x).balance

/-- Two workers; the item is added twice before its first delivery and twice while it is held. -/
theorem workQueue_safety_delivery_two :
    let events : List (Event Bool String) := [.add "a", .add "a", .get true (some "a"), .add "a",
      .add "a", .done true "a", .get false (some "a")]
    let s := events.foldl Workers.next Workers.start
    s.held = [(false, "a")] ∧ deliveries "a" events = 2 ∧ batches "a" events = 2 := by
  intro events s
  have hbalance := (workQueue_safety_delivery (System.run_foldl
    (show System.Allowed Workers.Enabled Workers.next Workers.start events by decide))).2.2.2.2.2.2 "a"
  exact ⟨by decide, by decide, hbalance.symm.trans (by decide)⟩

/-- **Shutting down.** After `ShutDown`, a worker is told to stop if and only if every item still due was added again
while held: its holder's `Done` will queue it. -/
theorem shutDown_drains {s : Workers W t} (hrun : (workerSystem W t).Run .start events s) (hdown : .shutDown ∈ events)
    (worker : W) : s.Enabled (.get worker none) ↔ ∀ x ∈ s.q.dirty, ∃ holder, (holder, x) ∈ s.held := by
  have hcons := Workers.run_consistent hrun Workers.start_consistent
  have hshut : s.q.shuttingDown = true := by
    refine hrun.history (fun events s => .shutDown ∈ events → s.q.shuttingDown = true) ?_ (by simp) hdown
    intro events s event u hstep ih hmem
    rw [hstep.2, Workers.shuttingDown_next hstep.1]
    grind
  have hqueue : s.Enabled (.get worker none) ↔ s.q.queue = [] := by
    cases hq : s.q.queue <;> simp [Workers.Enabled, Queue.get, hq, hshut]
  simp only [hqueue, eq_nil_iff_forall_not_mem, hcons.queued, ← hcons.processing]
  grind

theorem shutDown_drains_one : (([.add 1, .get true (some 1), .add 1, .shutDown] : List (Event Bool Nat)).foldl
    Workers.next .start).Enabled (.get false none) :=
  (shutDown_drains _ (System.run_foldl (by decide)) (by decide) _).mpr (by decide)

end LeanKube.WorkQueue
