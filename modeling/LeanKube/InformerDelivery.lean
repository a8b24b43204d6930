import LeanKube.InformerListeners

/-! What each step of a shared informer delivers to its handlers: for every handler a step of its view, if no `Sync`
delta that changes the indexer is distributed while the listener is not among the syncing ones. -/

namespace LeanKube.Informer
open Store Notification SharedProcessor
variable {α : Type} {accessor : α → Except String ObjectMeta}

namespace ProcessorListener
variable (l : ProcessorListener α)

def queued : List (Notification α) :=
  l.received.toList ++ l.notification.toList ++ l.pendingNotifications

def stream : List (Notification α) := l.calls ++ l.queued

@[simp] theorem stream_add (n : Notification α) : (l.add n).stream = l.stream ++ [n] := by
  rw [add]
  split
  · next hnone => simp [stream, queued, hnone, l.pending_nil hnone]
  · simp [stream, queued]

theorem stream_dispatch {l : ProcessorListener α} (h : l.received = none) : l.dispatch.stream = l.stream := by
  have hread : l.pendingNotifications.head?.toList ++ l.pendingNotifications.tail = l.pendingNotifications := by
    cases l.pendingNotifications <;> rfl
  simp [stream, queued, dispatch, h, hread]

@[simp] theorem stream_call : l.call.stream = l.stream := by
  simp [stream, queued, call]

end ProcessorListener

/-! ### One delta -/

theorem handleDeltas_singleton [DecidableEq α] (d : Delta α) (indexer : Indexer accessor) :
    (∃ err, handleDeltas accessor [d] indexer = (indexer, [], some err)) ∨
    ∃ after n sync, handleDeltas accessor [d] indexer = (after, [(n, sync)], none) ∧
      after.items = n.apply accessor indexer.items ∧ n.apply accessor after.items = after.items ∧
      (n.isChange = false → after.items = indexer.items) := by
  cases hkey : deletionHandlingMetaNamespaceKeyFunc accessor d.object with
  | error =>
    by_cases hdel : d.deltaType = .deleted
    · simp [handleDeltas, hdel, Store.delete, hkey]
    · simp [handleDeltas, hdel, Store.get, hkey, Store.add_of_error indexer hkey]
  | ok key =>
    right
    by_cases hdel : d.deltaType = .deleted
    · refine ⟨indexer.remove key, .delete d.object, false, ?_, ?_, ?_, fun hsame => Bool.noConfusion hsame⟩
      · simp [handleDeltas, hdel, delete_of_key indexer hkey]
      · simp [apply, hkey, remove]
      · simp [apply, hkey, remove, GoMap.erase_erase_self]
    · cases hold : indexer.getByKey key with
      | none =>
        refine ⟨indexer.set key d.object hkey, .add d.object, d.deltaType = .sync, ?_, ?_, ?_,
          fun hsame => Bool.noConfusion hsame⟩
        · simp [handleDeltas, hdel, get_of_key indexer hkey, hold, add_of_key indexer hkey]
        · simp [Notification.apply, hkey, Store.set]
        · simp [Notification.apply, hkey, Store.set]
      | some old =>
        refine ⟨indexer.set key d.object hkey, .update old d.object, d.deltaType = .sync, ?_, ?_, ?_, ?_⟩
        · simp [handleDeltas, hdel, get_of_key indexer hkey, hold, update_eq_add, add_of_key indexer hkey]
        · simp [Notification.apply, hkey, Store.set]
        · simp [Notification.apply, hkey, Store.set]
        · intro hsame
          have heq : old = d.object := by simpa [isChange] using hsame
          exact GoMap.insert_of_lookup (heq ▸ hold)

namespace SharedInformer
variable {s : SharedInformer accessor}

/-! ### A new handler -/

structure SameStreams (p p' : SharedProcessor α) : Prop where
  length : p'.listeners.length = p.listeners.length
  stream : ∀ (i : Nat) (l : ProcessorListener α), p.listeners[i]? = some l →
    ∃ l' : ProcessorListener α, p'.listeners[i]? = some l' ∧ l'.stream = l.stream

theorem SameStreams.refl (p : SharedProcessor α) : SameStreams p p := ⟨rfl, fun _ l hl => ⟨l, hl, rfl⟩⟩

variable {f : ProcessorListener α → ProcessorListener α} {event : Event α}

theorem SameStreams.of_map {p p' : SharedProcessor α} (h : p'.listeners = p.listeners.map f)
    (hf : ∀ l, (f l).stream = l.stream) : SameStreams p p' where
  length := by rw [h, List.length_map]
  stream i l hl := ⟨f l, by rw [h, List.getElem?_map, hl]; rfl, hf l⟩

variable (s) (resyncPeriod : Int64)

theorem adjustPeriods_spec :
    ∃ processor period, SameStreams s.processor processor ∧
      (s.adjustPeriods resyncPeriod).1 = { s with resyncCheckPeriod := period, processor := processor } := by
  unfold adjustPeriods
  by_cases hpos : resyncPeriod > 0
  · simp only [if_pos hpos]
    generalize (if resyncPeriod < minimumResyncPeriod then minimumResyncPeriod else resyncPeriod) = period
    by_cases hless : period < s.resyncCheckPeriod
    · by_cases hstart : s.started
      · exact ⟨s.processor, s.resyncCheckPeriod, .refl _, by rw [if_pos hless, if_pos hstart]⟩
      · refine ⟨s.processor.resyncCheckPeriodChanged period, period, .of_map rfl fun _ => rfl, ?_⟩
        simp [hless, hstart]
    · exact ⟨s.processor, s.resyncCheckPeriod, .refl _, by simp [hless]⟩
  · exact ⟨s.processor, s.resyncCheckPeriod, .refl _, by simp [hpos]⟩

theorem addEventHandler_spec (now : Int) (order : List String) :
    ∃ processor period, ∃ listener : ProcessorListener α, SameStreams s.processor processor ∧ listener.stream = [] ∧
      s.addEventHandler resyncPeriod now order =
        { s with
          resyncCheckPeriod := period
          processor := processor.addListener listener
          blockDeltas :=
            if s.started then .joining s.processor.listeners.length (s.list order) else s.blockDeltas } := by
  obtain ⟨processor, period, hsame, hadjusted⟩ := s.adjustPeriods_spec resyncPeriod
  rw [addEventHandler]
  generalize s.adjustPeriods resyncPeriod = adjusted at hadjusted
  obtain ⟨adjusted, resyncPeriod'⟩ := adjusted
  obtain rfl := hadjusted
  refine ⟨processor, period, .new resyncPeriod' (determineResyncPeriod resyncPeriod' period) now, hsame, rfl, ?_⟩
  by_cases hstart : s.started
  · simp [hstart, hsame.length, list]
  · simp [hstart]

/-! ### The call under way -/

theorem next_pop : (∃ fifo, s.next .pop = { s with fifo := fifo }) ∨
    ∃ fifo deltas, s.next .pop = { s with fifo := fifo, blockDeltas := .handling deltas } := by
  rw [next]
  generalize s.fifo.take = taken
  obtain ⟨fifo, item⟩ := taken
  cases item with
  | none => exact .inl ⟨fifo, rfl⟩
  | some deltas => exact .inr ⟨fifo, deltas, rfl⟩

variable {s}

structure WellFormed (s : SharedInformer accessor) : Prop where
  fresh : s.started = false → s.indexer.items = ∅ ∧ s.blockDeltas = .free
  applied : ∀ n sync rest, s.blockDeltas = .distributing n sync rest →
    n.apply accessor s.indexer.items = s.indexer.items
  nodup : ∀ targets n rest, s.blockDeltas = .sending targets n rest → targets.Nodup

theorem WellFormed.of_started {s : SharedInformer accessor} (hstart : s.started = true)
    (happlied : ∀ n sync rest, s.blockDeltas = .distributing n sync rest →
      n.apply accessor s.indexer.items = s.indexer.items)
    (hnodup : ∀ targets n rest, s.blockDeltas = .sending targets n rest → targets.Nodup) : s.WellFormed :=
  ⟨fun h => absurd (hstart.symm.trans h) Bool.noConfusion, happlied, hnodup⟩

variable {t : SharedInformer accessor}

theorem WellFormed.of_frame (hs : s.WellFormed) (hixr : t.indexer = s.indexer)
    (hblock : t.blockDeltas = s.blockDeltas) (hstart : t.started = false → s.started = false) : t.WellFormed where
  fresh h := by rw [hixr, hblock]; exact hs.fresh (hstart h)
  applied n sync rest h := by rw [hixr]; exact hs.applied n sync rest (hblock ▸ h)
  nodup targets n rest h := hs.nodup targets n rest (hblock ▸ h)

theorem WellFormed.started_of_ne_free (hs : s.WellFormed) (h : s.blockDeltas ≠ .free) : s.started = true := by
  by_contra hstart
  exact h (hs.fresh (by simpa using hstart)).2

theorem new_wellFormed (resyncCheckPeriod : Int64) : (new accessor resyncCheckPeriod).WellFormed :=
  ⟨fun _ => ⟨rfl, rfl⟩, nofun, nofun⟩

theorem produce_frame {op : Op α} (hen : s.enabled (.produce op)) :
    (s.toSharedIndexInformer.apply op).indexer = s.indexer ∧
      (s.toSharedIndexInformer.apply op).distributed = s.distributed := by
  cases op <;> simp_all [enabled, SharedIndexInformer.apply]

/-! ### Views -/

variable [DecidableEq α]

/-- The notifications that the call under way has still to send to a listener. While `distribute` waits for its lock
these are the changes: all listeners get them. -/
def owed (s : SharedInformer accessor) (i : Nat) : List (Notification α) :=
  match s.blockDeltas with
  | .distributing n _ _ => if n.isChange then [n] else []
  | .sending targets n _ => if i ∈ targets then [n] else []
  | .joining j items => if i = j then items.map .add else []
  | .free | .handling _ => []

def view (s : SharedInformer accessor) (i : Nat) (l : ProcessorListener α) : View α :=
  ⟨l.stream ++ s.owed i, s.indexer.items, s.distributed⟩

def Sees (s t : SharedInformer accessor) : Prop :=
  ∀ i l, s.processor.listeners[i]? = some l →
    ∃ l', t.processor.listeners[i]? = some l' ∧ View.Step accessor (s.view i l) (t.view i l')

section
variable (hitems : t.indexer.items = s.indexer.items) (hdist : t.distributed = s.distributed)
include hitems hdist

theorem Sees.of_quiet (hstream : ∀ i l, s.processor.listeners[i]? = some l →
      ∃ l', t.processor.listeners[i]? = some l' ∧ l'.stream ++ t.owed i = l.stream ++ s.owed i) : s.Sees t := by
  intro i l hl
  obtain ⟨l', hl', hsame⟩ := hstream i l hl
  refine ⟨l', hl', ?_⟩
  rw [view, view, hsame, hitems, hdist]
  exact .quiet _

theorem Sees.of_modify {j : Nat} (hprocessor : t.processor = s.processor.modify j f)
    (hj : ∀ l, s.processor.listeners[j]? = some l → (f l).stream ++ t.owed j = l.stream ++ s.owed j)
    (hother : ∀ i, i ≠ j → t.owed i = s.owed i) : s.Sees t := by
  refine .of_quiet hitems hdist fun i l hl => ?_
  rw [hprocessor, SharedProcessor.modify, List.getElem?_modify, hl]
  by_cases hij : j = i
  · subst hij
    exact ⟨f l, by simp, hj l hl⟩
  · exact ⟨l, by simp [hij], by rw [hother i (Ne.symm hij)]⟩

end

/-! ### The steps -/

/-- What the steps other than `addEventHandler` do: the informer stays well formed, and each listener sees the step. -/
structure Advances (s t : SharedInformer accessor) : Prop where
  wellFormed : t.WellFormed
  sees : s.Sees t
  length : t.processor.listeners.length = s.processor.listeners.length

section Steps
variable (hs : s.WellFormed)
include hs

theorem Advances.refl : s.Advances s := ⟨hs, fun _ l hl => ⟨l, hl, .quiet _⟩, rfl⟩

theorem Advances.of_sameStreams (hixr : t.indexer = s.indexer)
    (hblock : t.blockDeltas = s.blockDeltas) (hstart : t.started = false → s.started = false)
    (hdist : t.distributed = s.distributed) (hprocessor : SameStreams s.processor t.processor) : s.Advances t where
  wellFormed := hs.of_frame hixr hblock hstart
  sees := .of_quiet (congrArg items hixr) hdist fun i l hl => by
    obtain ⟨l', hl', hstream⟩ := hprocessor.stream i l hl
    exact ⟨l', hl', by rw [hstream, owed, owed, hblock]⟩
  length := hprocessor.length

omit hs in
/-- The call under way goes on and owes the listeners the same. -/
theorem Advances.of_owed (ht : t.WellFormed) (hitems : t.indexer.items = s.indexer.items)
    (hdist : t.distributed = s.distributed) (hprocessor : t.processor = s.processor)
    (howed : ∀ i, t.owed i = s.owed i) : s.Advances t where
  wellFormed := ht
  sees := .of_quiet hitems hdist fun i l hl => ⟨l, by rw [hprocessor]; exact hl, by rw [howed]⟩
  length := by rw [hprocessor]

theorem handle_advances : s.Advances s.handle := by
  rw [handle]
  cases hblock : s.blockDeltas with
  | free | distributing | sending | joining => exact .refl hs
  | handling deltas =>
    have hstart := hs.started_of_ne_free (by rw [hblock]; nofun)
    have hend : s.Advances { s with blockDeltas := .free } :=
      .of_owed (.of_started hstart nofun nofun) rfl rfl rfl fun i => by simp [owed, hblock]
    cases deltas with
    | nil => exact hend
    | cons d =>
      rcases handleDeltas_singleton d s.indexer with ⟨_, herr⟩ | ⟨_, n, sync, hok, hitems, happlied, hsame⟩
      · simp only [herr]
        exact hend
      · simp only [hok]
        refine ⟨.of_started hstart ?_ nofun, fun i l hl => ⟨l, hl, ?_⟩, rfl⟩
        · rintro _ _ _ ⟨rfl⟩
          exact happlied
        · have howed : s.view i l = ⟨l.stream, s.indexer.items, s.distributed⟩ := by simp [view, owed, hblock]
          rw [howed]
          cases hchange : n.isChange with
          | true => simpa [view, owed, hchange, hitems] using View.Step.changed ⟨l.stream, _, _⟩ n sync
          | false =>
            simpa [view, owed, hchange, hsame hchange] using View.Step.unchanged ⟨l.stream, _, _⟩ n sync hchange

/-- A step that, if it distributes a `Sync` that is a change, finds each listener among the syncing ones. -/
def Announces (s : SharedInformer accessor) : Event α → Prop
  | .distribute => ∀ n rest, s.blockDeltas = .distributing n true rest → n.isChange →
      ∀ i < s.processor.listeners.length, i ∈ s.processor.syncingListeners
  | _ => True

theorem distribute_advances (h : s.Announces .distribute) : s.Advances s.distribute := by
  rw [distribute]
  cases hblock : s.blockDeltas with
  | free | handling | sending | joining => exact .refl hs
  | distributing n sync rest =>
    refine ⟨.of_started (hs.started_of_ne_free (by rw [hblock]; nofun)) nofun ?_, fun i l hl => ⟨l, hl, ?_⟩, rfl⟩
    · rintro _ _ _ ⟨rfl⟩
      rw [targets]
      split_ifs
      · exact s.processor.syncing_nodup
      · exact List.nodup_range
    · by_cases htgt : i ∈ s.processor.targets sync
      · cases hchange : n.isChange with
        | true => simpa [view, owed, hblock, hchange, htgt] using .quiet _
        | false =>
          simpa [view, owed, hblock, hchange, htgt] using
            View.Step.repeated ⟨l.stream, _, _⟩ n hchange (hs.applied n sync rest hblock)
      · -- A listener that is left out is not syncing, so this is no change.
        have hi : i < s.processor.listeners.length := (List.getElem?_eq_some_iff.mp hl).1
        obtain rfl : sync = true := by
          by_contra hsync
          simp [targets, hsync, hi] at htgt
        have hchange : n.isChange = false := by
          by_contra hchange
          exact htgt (h n rest hblock (by simpa using hchange) i hi)
        simpa [view, owed, hblock, hchange, htgt] using .quiet _

theorem send_advances : s.Advances s.send := by
  rw [send]
  cases hblock : s.blockDeltas with
  | free | handling | distributing => exact .refl hs
  | sending targets n rest =>
    have hstart := hs.started_of_ne_free (by rw [hblock]; nofun)
    cases targets with
    | nil => exact .of_owed (.of_started hstart nofun nofun) rfl rfl rfl fun i => by simp [owed, hblock]
    | cons j targets =>
      obtain ⟨hj, hnodup⟩ := List.nodup_cons.mp (hs.nodup _ n rest hblock)
      refine ⟨.of_started hstart nofun ?_, .of_modify rfl rfl rfl (fun l hl => ?_) fun i hij => ?_,
        List.length_modify ..⟩
      · rintro _ _ _ ⟨rfl⟩
        exact hnodup
      · simp [owed, hblock, hj]
      · simp [owed, hblock, hij]
  | joining j items =>
    have hstart := hs.started_of_ne_free (by rw [hblock]; nofun)
    cases items with
    | nil => exact .of_owed (.of_started hstart nofun nofun) rfl rfl rfl fun i => by simp [owed, hblock]
    | cons =>
      refine ⟨.of_started hstart nofun nofun, .of_modify rfl rfl rfl (fun l hl => ?_) fun i hij => ?_,
        List.length_modify ..⟩
      · simp [owed, hblock]
      · simp [owed, hblock, hij]

theorem Advances.of_modify {i : Nat} {f : ProcessorListener α → ProcessorListener α}
    (hstream : ∀ l, s.processor.listeners[i]? = some l → (f l).stream = l.stream) :
    s.Advances { s with processor := s.processor.modify i f } where
  wellFormed := hs.of_frame rfl rfl id
  sees := .of_modify rfl rfl rfl (fun l hl => by rw [hstream l hl]; rfl) fun _ _ => rfl
  length := List.length_modify ..

theorem next_advances (hen : s.enabled event) (h : s.Announces event)
    (hadd : ∀ resyncPeriod now order, event ≠ .addEventHandler resyncPeriod now order) : s.Advances (s.next event) := by
  cases event with
  | addEventHandler resyncPeriod now order => exact absurd rfl (hadd resyncPeriod now order)
  | run => exact .of_sameStreams hs rfl rfl nofun rfl (.refl _)
  | startListeners => exact .of_sameStreams hs rfl rfl id rfl ⟨rfl, fun _ l hl => ⟨l, hl, rfl⟩⟩
  | produce => exact .of_sameStreams hs (produce_frame hen).1 rfl id (produce_frame hen).2 (.refl _)
  | pop =>
    obtain ⟨hstart, hfree⟩ : s.started = true ∧ s.blockDeltas = .free := by
      cases hblock : s.blockDeltas <;> simp_all [enabled]
    obtain ⟨fifo, heq⟩ | ⟨fifo, _, heq⟩ := s.next_pop
    · rw [heq]
      exact .of_sameStreams hs rfl rfl id rfl (.refl _)
    · rw [heq]
      exact .of_owed (.of_started hstart nofun nofun) rfl rfl rfl fun i => by simp [owed, hfree]
  | handle => exact handle_advances hs
  | distribute => exact distribute_advances hs h
  | send => exact send_advances hs
  | shouldResync =>
    refine .of_sameStreams hs rfl rfl id rfl (.of_map rfl fun l => ?_)
    split_ifs <;> rfl
  | dispatch =>
    refine .of_modify hs fun l hl => ProcessorListener.stream_dispatch ?_
    simp_all [enabled]
  | call => exact .of_modify hs fun l _ => l.stream_call

theorem addEventHandler_sees {resyncPeriod : Int64} {now : Int} {order : List String}
    (hen : s.enabled (.addEventHandler resyncPeriod now order)) :
    (s.addEventHandler resyncPeriod now order).WellFormed ∧ s.Sees (s.addEventHandler resyncPeriod now order) := by
  have hfree : s.blockDeltas = .free := by
    by_cases hstart : s.started
    · cases hblock : s.blockDeltas <;> simp_all [enabled]
    · exact (hs.fresh (by simpa using hstart)).2
  obtain ⟨processor, _, _, hsame, -, heq⟩ := s.addEventHandler_spec resyncPeriod now order
  rw [heq]
  constructor
  · by_cases hstart : s.started
    · exact .of_started hstart (by simp [hstart]) (by simp [hstart])
    · exact hs.of_frame rfl (by simp [hstart]) id
  · refine .of_quiet rfl rfl fun i l hl => ?_
    have hi : i < s.processor.listeners.length := (List.getElem?_eq_some_iff.mp hl).1
    obtain ⟨l', hl', hstream⟩ := hsame.stream i l hl
    refine ⟨l', ?_, ?_⟩
    · rw [addListener, List.getElem?_append_left (by rw [hsame.length]; exact hi), hl']
    · by_cases hstart : s.started
      · simp [owed, hfree, hstream, hstart, hi.ne]
      · simp [owed, hfree, hstream, hstart]

theorem next_sees (hen : s.enabled event) (h : s.Announces event) :
    (s.next event).WellFormed ∧ s.Sees (s.next event) := by
  by_cases hadd : ∃ resyncPeriod now order, event = .addEventHandler resyncPeriod now order
  · obtain ⟨_, _, _, rfl⟩ := hadd
    exact addEventHandler_sees hs hen
  · have hadv := next_advances hs hen h (by simpa using hadd)
    exact ⟨hadv.wellFormed, hadv.sees⟩

end Steps
end SharedInformer
end LeanKube.Informer
