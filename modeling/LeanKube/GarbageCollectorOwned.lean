import LeanKube.GarbageCollector
import LeanKube.ListRelations

/-! The garbage collector deletes no object that has an owner, in every run in which its look-ups miss no object that
exists. The UIDs that it takes for absent, in the cache and in delete events, then are those of no object, now and
later; so the reference to an owner that exists is looked up, found, and classified as solid. -/

namespace LeanKube.Garbage
open List ListRelations World GoMap Finmap Option UIDCache Graph
variable {env : Env} {w w' : World} {uid owner : String}

/-! ### UIDs that are gone -/

theorem World.exists_iff : w.Exists uid ↔ ∃ key obj, w.objects.lookup key = some obj ∧ obj.uid = uid := by
  constructor
  · rintro ⟨key, -, obj, hobj, huid⟩
    exact ⟨key, obj, hobj, huid⟩
  · rintro ⟨key, obj, hobj, huid⟩
    exact ⟨key, mem_keys.mpr (mem_of_lookup_eq_some hobj), obj, hobj, huid⟩

def Mentioned (w : World) (uid : String) : Prop :=
  ∃ entry ∈ w.history, entry.2.uid = uid ∨ ∃ ref ∈ entry.2.owners, ref.uid = uid

def Gone (w : World) (uid : String) : Prop := Mentioned w uid ∧ ¬ w.Exists uid

structure Keeps (w w' : World) : Prop where
  history : ∀ entry ∈ w.history, entry ∈ w'.history
  gone : ∀ uid, Gone w uid → Gone w' uid
  place : ∀ key obj, w.objects.lookup key = some obj → w'.Exists obj.uid →
    ∃ obj', w'.objects.lookup key = some obj' ∧ obj'.uid = obj.uid

theorem Keeps.mentioned (h : Keeps w w') (hmentioned : Mentioned w uid) : Mentioned w' uid := by
  obtain ⟨entry, hent, hm⟩ := hmentioned
  exact ⟨entry, h.history entry hent, hm⟩

/-- The stored objects: different UIDs, in namespaces or not as their resources are, and all in the history. -/
structure StoreInv (env : Env) (w : World) : Prop where
  unique : ∀ key obj key' obj', w.objects.lookup key = some obj → w.objects.lookup key' = some obj' →
    obj.uid = obj'.uid →
    key = key'
  scope : ∀ key obj, w.objects.lookup key = some obj → (env.namespaced key.resource = true ↔ key.ns ≠ "")
  history : ∀ key obj, w.objects.lookup key = some obj → (key, obj) ∈ w.history

section Writes
variable {key : Key} {obj : Object}

theorem keeps_insert (hnew : ∀ uid, Gone w uid → obj.uid ≠ uid)
    (hold : ∀ old, w.objects.lookup key = some old → old.uid = obj.uid) :
    Keeps w { w with objects := w.objects.insert key obj, history := (key, obj) :: w.history } where
  history entry hent := mem_cons_of_mem _ hent
  gone uid hgone := by
    obtain ⟨⟨entry, hent, hm⟩, hexists⟩ := hgone
    refine ⟨⟨entry, mem_cons_of_mem _ hent, hm⟩, fun h => ?_⟩
    obtain ⟨key', obj', hobj', huid⟩ := exists_iff.mp h
    rcases of_lookup_insert hobj' with ⟨-, rfl⟩ | ⟨-, hold⟩
    · exact hnew uid ⟨⟨entry, hent, hm⟩, hexists⟩ huid
    · exact hexists (exists_iff.mpr ⟨key', obj', hold, huid⟩)
  place key' obj' hobj' _ := by
    by_cases hkey : key' = key
    · subst hkey
      exact ⟨obj, lookup_insert _, (hold obj' hobj').symm⟩
    · exact ⟨obj', (lookup_insert_of_ne _ hkey).trans hobj', rfl⟩

variable (hstore : StoreInv env w)
include hstore

theorem keeps_remove (key : Key) : Keeps w { w with objects := w.objects.erase key } where
  history entry hent := hent
  gone uid hgone := by
    refine ⟨hgone.1, fun h => hgone.2 ?_⟩
    obtain ⟨key', obj', hobj', huid⟩ := exists_iff.mp h
    exact exists_iff.mpr ⟨key', obj', (of_lookup_erase hobj').2, huid⟩
  place key' obj' hobj' h := by
    obtain ⟨_, _, hobj'', huid⟩ := exists_iff.mp h
    obtain ⟨hkey, hold⟩ := of_lookup_erase hobj''
    obtain rfl := hstore.unique _ _ _ _ hold hobj' huid
    exact ⟨obj', (lookup_erase_ne hkey).trans hobj', rfl⟩

theorem StoreInv.insert (hnew : ∀ key' obj', w.objects.lookup key' = some obj' → obj'.uid = obj.uid → key' = key)
    (hscope : env.namespaced key.resource = true ↔ key.ns ≠ "") :
    StoreInv env { w with objects := w.objects.insert key obj, history := (key, obj) :: w.history } where
  unique key₁ obj₁ key₂ obj₂ h₁ h₂ huid := by
    rcases of_lookup_insert h₁ with ⟨rfl, rfl⟩ | ⟨-, hold₁⟩
    · rcases of_lookup_insert h₂ with ⟨rfl, -⟩ | ⟨-, hold₂⟩
      · rfl
      · exact (hnew key₂ obj₂ hold₂ huid.symm).symm
    · rcases of_lookup_insert h₂ with ⟨rfl, rfl⟩ | ⟨-, hold₂⟩
      · exact hnew key₁ obj₁ hold₁ huid
      · exact hstore.unique key₁ obj₁ key₂ obj₂ hold₁ hold₂ huid
  scope := forall_insert hstore.scope hscope
  history key' obj' h := by
    rcases of_lookup_insert h with ⟨rfl, rfl⟩ | ⟨-, h⟩
    · exact mem_cons_self
    · exact mem_cons_of_mem _ (hstore.history key' obj' h)

theorem StoreInv.erase (key : Key) : StoreInv env { w with objects := w.objects.erase key } where
  unique _ _ _ _ h₁ h₂ := hstore.unique _ _ _ _ (of_lookup_erase h₁).2 (of_lookup_erase h₂).2
  scope _ _ h := hstore.scope _ _ (of_lookup_erase h).2
  history _ _ h := hstore.history _ _ (of_lookup_erase h).2

end Writes

/-! ### The invariant -/

variable (env) (w)

def Leads (owner : String) (identity : ObjectReference) (ref : OwnerReference) : Prop :=
  ref.uid = owner ∧ ∃ key ∈ env.keyOf ref.apiVersion ref.kind ref.name identity.ns,
    ∃ obj ∈ w.objects.lookup key, obj.uid = owner

/-- A solid owner has been found, or will be: a reference to the owner is still to be classified. -/
def Finds (owner : String) (identity : ObjectReference) (references : List OwnerReference)
    (classified : Classified) : Prop :=
  classified.solid ≠ [] ∨ ∃ ref ∈ references, Leads env w owner identity ref

structure OnTheWay (env : Env) (w : World) (uid owner : String) (identity : ObjectReference)
    (references : List OwnerReference) (classified : Classified) : Prop where
  mentioned : ∀ ref ∈ references, Mentioned w ref.uid
  seen : identity.uid = uid → ∃ entry ∈ w.history, entry.2.uid = uid
  finds : identity.uid = uid → Finds env w owner identity references classified

def PhaseOk (uid owner : String) (identity : ObjectReference) : Phase → Prop
  | .getting | .finalizing | .finished => True
  | .vanished => Gone w identity.uid
  | .checking _ references classified => OnTheWay env w uid owner identity references classified
  | .looking _ reference references classified =>
    OnTheWay env w uid owner identity (reference :: references) classified
  | .missing _ reference references classified =>
    Gone w reference.uid ∧ OnTheWay env w uid owner identity references classified
  | .deciding _ classified => identity.uid = uid → classified.solid ≠ []
  | .unblocked => identity.uid ≠ uid

def WorkerOk (uid owner : String) (worker : Worker) : Prop :=
  ∃ n, w.graph.nodes[worker.item]? = some n ∧ PhaseOk env w uid owner n.identity worker.phase

variable {env}

def EventOk : Event → Prop
  | .upsert _ _ key obj _ => (key, obj) ∈ w.history
  | .delete uid => Gone w uid

variable {w}

def RequestOk (uid : String) : Request → Prop
  | .delete item _ => item.uid ≠ uid
  | _ => True

structure Inv (env : Env) (uid owner : String) (w : World) : Prop where
  store : StoreInv env w
  owned : w.OwnedBy env uid owner
  events : ∀ event ∈ w.graphChanges, EventOk w event
  nodes : ∀ n ∈ w.graph.nodes, Mentioned w n.identity.uid
  cache : ∀ absent ∈ w.absentOwnerCache, Gone w absent
  workers : ∀ worker ∈ w.workers, WorkerOk env w uid owner worker
  requests : ∀ request ∈ w.requests, RequestOk uid request

section Stable
variable {identity : ObjectReference} {references : List OwnerReference} {classified : Classified} {phase : Phase}

theorem OnTheWay.keeps (hkeeps : Keeps w w') (howned : w'.OwnedBy env uid owner)
    (h : OnTheWay env w uid owner identity references classified) :
    OnTheWay env w' uid owner identity references classified where
  mentioned ref hmem := hkeeps.mentioned (h.mentioned ref hmem)
  seen huid := by
    obtain ⟨entry, hent, hseen⟩ := h.seen huid
    exact ⟨entry, hkeeps.history entry hent, hseen⟩
  finds huid := by
    rcases h.finds huid with hsolid | ⟨ref, hmem, hrefuid, key, hkey, obj, hobj, hobjuid⟩
    · exact .inl hsolid
    · obtain ⟨entry, hent, hseen⟩ := h.seen huid
      obtain ⟨key', hkey', obj', hobj', hobjuid', -⟩ := howned.stays ⟨entry, hkeeps.history entry hent, hseen⟩
      have hexists : w'.Exists obj.uid := ⟨key', hkey', obj', hobj', hobjuid'.trans hobjuid.symm⟩
      obtain ⟨obj'', hobj'', hobjuid''⟩ := hkeeps.place key obj hobj hexists
      exact .inr ⟨ref, hmem, hrefuid, key, hkey, obj'', hobj'', hobjuid''.trans hobjuid⟩

theorem PhaseOk.keeps (hkeeps : Keeps w w') (howned : w'.OwnedBy env uid owner)
    (h : PhaseOk env w uid owner identity phase) : PhaseOk env w' uid owner identity phase := by
  cases phase with
  | getting | finalizing | finished => trivial
  | vanished => exact hkeeps.gone _ h
  | checking | looking => exact OnTheWay.keeps hkeeps howned h
  | missing => exact ⟨hkeeps.gone _ h.1, h.2.keeps hkeeps howned⟩
  | deciding | unblocked => exact h

theorem EventOk.keeps (hkeeps : Keeps w w') {event : Event} (h : EventOk w event) : EventOk w' event := by
  cases event with
  | upsert => exact hkeeps.history _ h
  | delete uid => exact hkeeps.gone uid h

end Stable

/-- What a step adds to the state of the collector is sound. -/
structure Adds (env : Env) (uid owner : String) (w w' : World) : Prop where
  events : ∀ event ∈ w'.graphChanges, event ∈ w.graphChanges ∨ EventOk w event := by exact fun _ h => .inl h
  graph : w.graph.Grown (Mentioned w) w'.graph := by exact .refl _
  cache : ∀ absent ∈ w'.absentOwnerCache, absent ∈ w.absentOwnerCache ∨ Gone w absent := by exact fun _ h => .inl h
  workers : ∀ worker ∈ w'.workers, worker ∈ w.workers ∨ WorkerOk env w uid owner worker := by exact fun _ h => .inl h
  requests : ∀ request ∈ w'.requests, request ∈ w.requests ∨ RequestOk uid request := by exact fun _ h => .inl h

theorem Inv.keeps (hinv : Inv env uid owner w) (hkeeps : Keeps w w') (hstore : StoreInv env w')
    (howned : w'.OwnedBy env uid owner) (h : Adds env uid owner w w') : Inv env uid owner w' where
  store := hstore
  owned := howned
  events event hmem := ((h.events event hmem).elim (hinv.events event) id).keeps hkeeps
  nodes n hmem := by
    rcases h.graph.mem hmem with ⟨old, hold, heq⟩ | hmentioned
    · rw [← heq]
      exact hkeeps.mentioned (hinv.nodes old hold)
    · exact hkeeps.mentioned hmentioned
  cache absent hmem := hkeeps.gone absent ((h.cache absent hmem).elim (hinv.cache absent) id)
  workers worker hmem := by
    obtain ⟨n, hn, hok⟩ := (h.workers worker hmem).elim (hinv.workers worker) id
    obtain ⟨n', hn', hid⟩ := h.graph.getElem? hn
    exact ⟨n', hn', hid ▸ hok.keeps hkeeps howned⟩
  requests request hmem := (h.requests request hmem).elim (hinv.requests request) id

/-! ### Steps of the collector -/

theorem World.OwnedBy.congr (howned : w.OwnedBy env uid owner) (hobjs : w'.objects = w.objects)
    (hhistory : w'.history = w.history) : w'.OwnedBy env uid owner := by
  constructor
  · rw [hobjs, hhistory]
    exact howned.stays
  · rw [hobjs]
    exact howned.refers

theorem Keeps.of_eq (hobjs : w'.objects = w.objects) (hhistory : w'.history = w.history) : Keeps w w' where
  history := by rw [hhistory]; exact fun _ h => h
  gone uid hgone := by
    unfold Gone Mentioned World.Exists at hgone ⊢
    rw [hhistory, hobjs]
    exact hgone
  place key obj hobj _ := ⟨obj, hobjs ▸ hobj, rfl⟩

/-! ### The object and its owners -/

theorem World.get_found {apiVersion kind name ns uid' : String} {obj : Object}
    (h : (w.get env apiVersion kind name ns).map (Option.filter fun obj => obj.uid = uid') = some (some obj)) :
    ∃ key, env.keyOf apiVersion kind name ns = some key ∧ w.objects.lookup key = some obj ∧ obj.uid = uid' := by
  unfold get at h
  cases hkey : env.keyOf apiVersion kind name ns with
  | none =>
    rw [hkey] at h
    cases h
  | some key =>
    rw [hkey] at h
    have hfilter : (w.objects.lookup key).filter (fun obj => obj.uid = uid') = some obj := some.inj h
    rw [filter_eq_some_iff] at hfilter
    exact ⟨key, rfl, hfilter.1, of_decide_eq_true hfilter.2⟩

theorem leads_of_refers (hstore : StoreInv env w) {identity : ObjectReference} {key : Key} {ref : OwnerReference}
    (hkey : env.keyOf identity.apiVersion identity.kind identity.name identity.ns = some key)
    (hrefuid : ref.uid = owner) {ownerKey : Key}
    (howner : env.keyOf ref.apiVersion ref.kind ref.name key.ns = some ownerKey)
    {obj : Object} (hobj : w.objects.lookup ownerKey = some obj) (hobjuid : obj.uid = owner) :
    Leads env w owner identity ref := by
  refine ⟨hrefuid, ownerKey, ?_, obj, hobj, hobjuid⟩
  unfold Env.keyOf at hkey howner ⊢
  rw [map_eq_some_iff] at hkey howner
  obtain ⟨resource, -, rfl⟩ := hkey
  obtain ⟨ownerResource, hmapping, rfl⟩ := howner
  rw [Option.mem_def, hmapping, Option.map_some]
  have hscope := hstore.scope _ _ hobj
  unfold resourceDefaultNamespace at hscope ⊢
  cases hnamespaced : env.namespaced ownerResource with
  | false => rfl
  | true =>
    cases hitem : env.namespaced resource with
    | true => rfl
    | false => simp [hnamespaced, hitem] at hscope

section References
variable {identity : ObjectReference} {latest : Object} {reference : OwnerReference} {references : List OwnerReference}
  {classified classified' : Classified}

theorem OnTheWay.nextReference (h : OnTheWay env w uid owner identity references classified) :
    PhaseOk env w uid owner identity (World.nextReference latest references classified) := by
  unfold World.nextReference
  split_ifs with hempty
  · intro huid
    rw [List.isEmpty_iff] at hempty
    subst hempty
    rcases h.finds huid with hsolid | ⟨_, hmem, -⟩
    · exact hsolid
    · cases hmem
  · exact h

theorem OnTheWay.tail (h : OnTheWay env w uid owner identity (reference :: references) classified)
    (hsolid : classified.solid ≠ [] → classified'.solid ≠ [])
    (hfirst : identity.uid = uid → Leads env w owner identity reference → classified'.solid ≠ []) :
    OnTheWay env w uid owner identity references classified' where
  mentioned ref hmem := h.mentioned ref (mem_cons_of_mem _ hmem)
  seen := h.seen
  finds huid := by
    rcases h.finds huid with hold | ⟨ref, hmem, hleads⟩
    · exact .inl (hsolid hold)
    · rcases mem_cons.mp hmem with rfl | hrest
      · exact .inl (hfirst huid hleads)
      · exact .inr ⟨ref, hrest, hleads⟩

theorem Leads.exists (h : Leads env w owner identity reference) : w.Exists reference.uid := by
  obtain ⟨huid, key, -, obj, hobj, hobjuid⟩ := h
  exact exists_iff.mpr ⟨key, obj, hobj, hobjuid.trans huid.symm⟩

theorem OnTheWay.tail_of_gone (h : OnTheWay env w uid owner identity (reference :: references) classified)
    (hgone : ¬ w.Exists reference.uid) :
    OnTheWay env w uid owner identity references { classified with dangling := classified.dangling ++ [reference] } :=
  h.tail id fun _ hleads => absurd hleads.exists hgone

end References

/-! ### What the worker does -/

/-- A step of the collector: it writes nothing to the store, and what it adds to its own state is sound. -/
structure Inside (env : Env) (uid owner : String) (w w' : World) : Prop extends Adds env uid owner w w' where
  objects : w'.objects = w.objects := by rfl
  history : w'.history = w.history := by rfl

section Worker
variable (hinv : Inv env uid owner w)
include hinv

theorem Inv.inside (h : Inside env uid owner w w') : Inv env uid owner w' := by
  refine hinv.keeps (.of_eq h.objects h.history) ⟨?_, ?_, ?_⟩ (hinv.owned.congr h.objects h.history) h.toAdds
  · rw [h.objects]
    exact hinv.store.unique
  · rw [h.objects]
    exact hinv.store.scope
  · rw [h.objects, h.history]
    exact hinv.store.history

variable {i item : Nat} {n : Node} {phase : Phase}

theorem Inv.setWorker (hn : w.graph.nodes[item]? = some n) (hok : PhaseOk env w uid owner n.identity phase) :
    Inv env uid owner (w.setWorker i item phase) :=
  hinv.inside { workers := fun _ hmem => (mem_or_eq_of_mem_set hmem).imp_right (by rintro rfl; exact ⟨n, hn, hok⟩) }

theorem Inv.enqueue (nodes : Finset Nat) :
    Inv env uid owner { w with graph := { w.graph with attemptToDelete := nodes } } :=
  hinv.inside { graph := .of_map_eq rfl }

theorem Inv.finish (err : Bool) (hn : w.graph.nodes[item]? = some n) : Inv env uid owner (w.finish i item err) := by
  have hfin : Inv env uid owner (w.setWorker i item .finished) := hinv.setWorker hn trivial
  unfold World.finish
  simp only
  split_ifs
  · exact hfin.enqueue _
  · exact hfin

variable {request : Request}

theorem Inv.send (hreq : RequestOk uid request) : Inv env uid owner (w.send request) := by
  refine hinv.inside { requests := fun _ hmem => ?_ }
  rcases mem_cons.mp hmem with rfl | hold
  · exact .inr hreq
  · exact .inl hold

theorem Inv.sendFinish (hreq : RequestOk uid request) (err : Bool)
    (hn : w.graph.nodes[item]? = some n) : Inv env uid owner ((w.send request).finish i item err) :=
  (hinv.send hreq).finish err hn

theorem Inv.setCache {cache : UIDCache} (hcache : ∀ absent ∈ cache, absent ∈ w.absentOwnerCache ∨ Gone w absent)
    (hn : w.graph.nodes[item]? = some n) (hok : PhaseOk env w uid owner n.identity phase) :
    Inv env uid owner ({ w with absentOwnerCache := cache }.setWorker i item phase) := by
  have hcached : Inv env uid owner { w with absentOwnerCache := cache } := hinv.inside { cache := hcache }
  have hkeeps : Keeps w { w with absentOwnerCache := cache } := .of_eq rfl rfl
  exact hcached.setWorker hn (hok.keeps hkeeps hcached.owned)

variable {latest : Object}

theorem onTheWay_of_latest (hlatest : w.getItem env n.identity = some (some latest)) :
    OnTheWay env w uid owner n.identity latest.owners {} := by
  obtain ⟨key, hkey, hobj, huid⟩ := get_found hlatest
  have hhistory := hinv.store.history key latest hobj
  refine ⟨fun ref hmem => ⟨_, hhistory, .inr ⟨ref, hmem, rfl⟩⟩, fun heq => ⟨_, hhistory, huid.trans heq⟩,
    fun heq => .inr ?_⟩
  have hmem : key ∈ w.objects.keys := mem_keys.mpr (mem_of_lookup_eq_some hobj)
  obtain ⟨ref, href, hrefuid, _, hownerKey, _, hobj', hobjuid⟩ :=
    hinv.owned.refers key hmem latest hobj (huid.trans heq)
  exact ⟨ref, href, leads_of_refers hinv.store hkey hrefuid hownerKey hobj' hobjuid⟩

theorem Leads.not_waiting {identity : ObjectReference} {reference : OwnerReference}
    (hseen : ∃ entry ∈ w.history, entry.2.uid = uid) (h : Leads env w owner identity reference) {obj : Object}
    (hobj : w.getOwner env reference identity = some (some obj)) : obj.waitsForDependents = false := by
  obtain ⟨huid, -⟩ := h
  obtain ⟨key, -, hlookup, hobjuid⟩ := get_found hobj
  obtain ⟨key', -, _, hlookup', hobjuid', hwaits⟩ := hinv.owned.stays hseen
  have heq : key = key' := hinv.store.unique _ _ _ _ hlookup hlookup' (by rw [hobjuid, hobjuid', huid])
  subst heq
  rw [hlookup] at hlookup'
  cases hlookup'
  exact hwaits

section
variable (hn : w.graph.nodes[item]? = some n)
include hn

theorem Inv.withLatest (hlatest : w.getItem env n.identity = some (some latest)) :
    Inv env uid owner (w.withLatest i item n latest) := by
  unfold World.withLatest World.processDeletingDependentsItem
  simp only
  split_ifs
  · exact hinv.setWorker hn trivial
  · have hqueued := hinv.enqueue (w.graph.attemptToDelete ∪
      (w.blockingDependents n).filter fun dep => !(w.graph.nodes[dep]?).any Node.deletingDependents)
    exact hqueued.finish false hn
  · exact hinv.finish false hn
  · exact hinv.setWorker hn (onTheWay_of_latest hinv hlatest)

theorem Inv.deleteObject (huid : n.identity.uid ≠ uid) (policy : DeletionPropagation) (fails : Bool) :
    Inv env uid owner (w.deleteObject env i item n policy fails) := by
  unfold World.deleteObject
  split
  · exact hinv.finish true hn
  · exact hinv.sendFinish (by exact huid) fails hn

/-- **The decision** is against the deletion of an object with a solid owner. -/
theorem Inv.decide {classified : Classified} (hok : n.identity.uid = uid → classified.solid ≠ [])
    (fails : Bool) : Inv env uid owner (w.decide env i item n latest classified fails) := by
  unfold World.decide
  split_ifs with hsolid hnone hwaiting hcycle hfails
  · exact hinv.finish false hn
  · exact hinv.sendFinish (by trivial) fails hn
  all_goals
    have huid : n.identity.uid ≠ uid := by
      intro huid
      simp [hok huid] at hsolid
  · exact hinv.sendFinish (by trivial) true hn
  · have hsent : Inv env uid owner (w.send (.unblockOwnerReferences n.identity)) := hinv.send trivial
    exact hsent.setWorker hn huid
  · exact hinv.deleteObject hn huid .foreground fails
  · exact hinv.deleteObject hn huid _ fails

theorem Inv.work (hok : PhaseOk env w uid owner n.identity phase) (hsound : w.SoundWork env n phase)
    (fails : Bool) : Inv env uid owner (w.work env i item n fails phase) := by
  have hmentioned : Mentioned w n.identity.uid := hinv.nodes n (mem_of_getElem? hn)
  cases phase with
  | getting =>
    simp only [work]
    split_ifs
    · exact hinv.finish true hn
    · split
      · exact hinv.finish true hn
      · next hnone => exact hinv.setWorker hn ⟨hmentioned, hsound hnone⟩
      · next latest hlatest => exact hinv.withLatest hn hlatest
  | vanished =>
    have hmarked : Inv env uid owner { w with
        graphChanges := w.graphChanges ++ [Event.delete n.identity.uid]
        graph := w.graph.modify item fun node => { node with virtual := false } } :=
      hinv.inside
        { events := fun _ hmem => (mem_concat_iff.mp hmem).imp_right (by rintro rfl; exact hok)
          graph := grown_modify _ _ fun _ => rfl }
    obtain ⟨_, hn', -⟩ :=
      (grown_modify (p := fun _ => True) w.graph item (f := fun node => { node with virtual := false })
        fun _ => rfl).getElem? hn
    exact hmarked.finish false hn'
  | finalizing => exact hinv.sendFinish (by trivial) fails hn
  | checking _ references =>
    cases references with
    | nil =>
      refine hinv.setWorker hn fun huid => ?_
      rcases hok.finds huid with hsolid | ⟨_, hmem, -⟩
      · exact hsolid
      · cases hmem
    | cons reference =>
      have hcache : ∀ absent ∈ (w.absentOwnerCache.has reference.uid).2, absent ∈ w.absentOwnerCache ∨ Gone w absent :=
        fun absent hmem => .inl (mem_has hmem)
      simp only [work]
      split_ifs with habsent
      · have hmem : reference.uid ∈ w.absentOwnerCache := by
          unfold has at habsent
          split_ifs at habsent with hmem
          · exact hmem
        have hgone := (hinv.cache _ hmem).2
        exact hinv.setCache hcache hn (OnTheWay.nextReference (OnTheWay.tail_of_gone hok hgone))
      · exact hinv.setCache hcache hn hok
  | looking _ reference =>
    have hfirst : Mentioned w reference.uid := hok.mentioned reference mem_cons_self
    simp only [work]
    split_ifs
    · exact hinv.finish true hn
    · split
      · exact hinv.finish true hn
      · next hnone =>
          have hgone := hsound hnone
          refine hinv.setWorker hn ⟨⟨hfirst, hgone⟩, ?_⟩
          exact OnTheWay.tail hok id fun _ hleads => absurd hleads.exists hgone
      · next obj hobj =>
          refine hinv.setWorker hn (OnTheWay.nextReference (OnTheWay.tail hok ?_ ?_))
          · intro hsolid
            split_ifs
            · exact hsolid
            · exact append_ne_nil_of_left_ne_nil hsolid _
          · intro huid hleads
            rw [if_neg (by simp [hleads.not_waiting hinv (hok.seen huid) hobj])]
            exact append_ne_nil_of_right_ne_nil _ (cons_ne_nil _ _)
  | missing =>
    obtain ⟨hgone, hway⟩ := hok
    refine hinv.setCache (fun absent hmem => ?_) hn (OnTheWay.nextReference ?_)
    · rcases mem_add hmem with rfl | hold
      · exact .inr hgone
      · exact .inl hold
    · exact ⟨hway.mentioned, hway.seen, hway.finds⟩
  | deciding => exact hinv.decide hn hok fails
  | unblocked => exact hinv.deleteObject hn hok .foreground fails
  | finished => exact hinv

end

theorem Inv.take (item : Nat) : Inv env uid owner (w.take item) := by
  have hqueued := hinv.enqueue (w.graph.attemptToDelete.erase item)
  unfold World.take
  simp only
  split
  · exact hqueued
  · next n hn =>
      have hstart : Inv env uid owner { w with
          graph := { w.graph with attemptToDelete := w.graph.attemptToDelete.erase item }
          workers := w.workers ++ [⟨item, .getting⟩] } :=
        hqueued.inside
          { workers := fun _ hmem => (mem_concat_iff.mp hmem).imp_right (by rintro rfl; exact ⟨n, hn, trivial⟩) }
      split_ifs
      · exact hstart.finish false hn
      · exact hstart

theorem Inv.process {event : Event} {rest : List Event} (hchanges : w.graphChanges = event :: rest) :
    Inv env uid owner { w with
      graphChanges := rest
      graph := (w.graph.processGraphChanges event).1
      absentOwnerCache := (w.graph.processGraphChanges event).2.elim w.absentOwnerCache w.absentOwnerCache.add } := by
  have hevent : EventOk w event := hinv.events event (by rw [hchanges]; exact mem_cons_self)
  refine hinv.inside
    { events := fun _ hmem => .inl ?_, graph := grown_processGraphChanges _ ?_, cache := fun _ hmem => ?_ }
  · rw [hchanges]
    exact mem_cons_of_mem _ hmem
  · rintro _ _ _ _ _ rfl
    exact ⟨⟨_, hevent, .inl rfl⟩, fun ref href => ⟨_, hevent, .inr ⟨ref, href, rfl⟩⟩⟩
  · cases habsent : (w.graph.processGraphChanges event).2 with
    | none =>
      rw [habsent] at hmem
      exact .inl hmem
    | some =>
      rw [habsent] at hmem
      rw [processGraphChanges_absent habsent] at hevent
      rcases mem_add hmem with rfl | hold
      · exact .inr hevent
      · exact .inl hold

end Worker

/-! ### Runs -/

/-- **A step keeps the invariant**, if the object is owned after it. -/
theorem Inv.step (hinv : Inv env uid owner w) {label : Label} (hen : w.Enabled env label)
    (hsound : w.Sound env label) (howned : (w.next env label).OwnedBy env uid owner) :
    Inv env uid owner (w.next env label) := by
  cases label with
  | create key obj =>
    obtain ⟨hnone, hunused, hscope⟩ := hen
    have hfresh : ¬ Mentioned w obj.uid := by
      rintro ⟨entry, hent, huid | ⟨ref, href, huid⟩⟩
      · exact hunused entry hent huid
      · exact hsound entry hent ref href huid
    have hstore := @StoreInv.insert _ _ key obj hinv.store (fun key' obj' hobj' huid =>
      absurd huid (hunused _ (hinv.store.history key' obj' hobj'))) hscope
    have hkeeps := @keeps_insert w key obj (fun uid hgone huid => hfresh (huid ▸ hgone.1))
      fun old hold => nomatch hnone.symm.trans hold
    exact hinv.keeps hkeeps hstore howned {}
  | update key obj =>
    obtain ⟨old, hold, huid⟩ := hen
    have hstore := @StoreInv.insert _ _ key obj hinv.store (fun key' obj' hobj' huid' =>
      hinv.store.unique key' obj' key old hobj' hold (huid'.trans huid.symm)) (hinv.store.scope key old hold)
    have hkeeps := @keeps_insert w key obj
      (fun uid hgone heq => hgone.2 (exists_iff.mpr ⟨key, old, hold, huid.trans heq⟩))
      fun _ hcurr => some.inj (hcurr.symm.trans hold) ▸ huid
    exact hinv.keeps hkeeps hstore howned {}
  | remove key =>
    exact hinv.keeps (keeps_remove hinv.store key) (hinv.store.erase key) howned {}
  | inform event =>
    refine hinv.inside { events := fun event hmem => (mem_concat_iff.mp hmem).imp_right ?_ }
    rintro rfl
    cases event with
    | upsert => exact hen.2.1
    | delete =>
      obtain ⟨⟨entry, hent, huid⟩, hnot⟩ := hen
      exact ⟨⟨entry, hent, .inl huid⟩, hnot⟩
  | process =>
    simp only [World.next]
    split
    · exact hinv
    · next event rest hchanges => exact hinv.process hchanges
  | take item => exact hinv.take item
  | work i fails =>
    simp only [World.next]
    split
    · exact hinv
    · next item phase hworker =>
        split
        · exact hinv
        · next n hn =>
            obtain ⟨_, hn', hok⟩ := hinv.workers _ (mem_of_getElem? hworker)
            rw [hn] at hn'
            cases hn'
            exact hinv.work hn hok (hsound _ hworker n hn) fails

theorem World.Initial.inv (hinit : w.Initial env) (howned : w.OwnedBy env uid owner) : Inv env uid owner w where
  owned := howned
  store := by
    refine ⟨hinit.unique, fun key obj hobj => hinit.scope key ?_, hinit.history⟩
    exact mem_keys.mpr (mem_of_lookup_eq_some hobj)
  events event hmem := by simp [hinit.graphChanges] at hmem
  nodes n hmem := by simp [hinit.graph] at hmem
  cache absent hmem := by simp [hinit.absentOwnerCache] at hmem
  workers worker hmem := by simp [hinit.workers] at hmem
  requests request hmem := by simp [hinit.requests] at hmem

theorem Inv.of_run {w₀ : World} {labels : List Label} (hinit : w₀.Initial env)
    (hrun : (soundCollector env).Run w₀ labels w)
    (howned : ∀ first m, first <+: labels → (soundCollector env).Run w₀ first m → m.OwnedBy env uid owner) :
    Inv env uid owner w := by
  induction hrun with
  | nil => exact hinit.inv (howned [] _ (prefix_refl _) (.nil _))
  | snoc hrun hstep ih =>
    have hafter := howned _ _ (prefix_refl _) (hrun.snoc hstep)
    have hinv := ih fun first m hfirst => howned first m (hfirst.trans (prefix_append _ _))
    obtain ⟨⟨hen, hsound⟩, rfl⟩ := hstep
    exact hinv.step hen hsound hafter

/-- **The garbage collector deletes no object that has an owner.** In every run in which its look-ups miss no object
that exists, no delete request is for the object `uid`, if at every time of the run, from its creation on, the object
refers to the owner, which exists and does not wait for the deletion of its dependents. -/
theorem never_deletes_owned {w₀ : World} {labels : List Label} (hinit : w₀.Initial env)
    (hrun : (soundCollector env).Run w₀ labels w)
    (howned : ∀ first m, first <+: labels → (soundCollector env).Run w₀ first m → m.OwnedBy env uid owner)
    (item : ObjectReference) (policy : DeletionPropagation) (hsent : Request.delete item policy ∈ w.requests) :
    item.uid ≠ uid :=
  (Inv.of_run hinit hrun howned).requests _ hsent

/-! ### Two runs -/

def podsAndSets : Env where
  restMapping apiVersion kind :=
    if (apiVersion, kind) = ("v1", "Pod") then some "pods"
    else if (apiVersion, kind) = ("apps/v1", "ReplicaSet") then some "replicasets" else none
  namespaced _ := true
  kindFor resource := if resource = "pods" then ("v1", "Pod") else ("apps/v1", "ReplicaSet")

def nothingStored : World where
  objects := ∅
  history := []
  graphChanges := []
  graph := {}
  absentOwnerCache := []
  workers := []
  requests := []

theorem nothingStored_initial : nothingStored.Initial podsAndSets where
  unique key obj key' obj' hobj := by cases hobj
  scope := by decide
  history key obj hobj := by cases hobj
  graphChanges := rfl
  graph := rfl
  absentOwnerCache := rfl
  workers := rfl
  requests := rfl

def refersTo (name uid : String) : OwnerReference := ⟨"apps/v1", "ReplicaSet", name, uid, none⟩

def replicaSet : Key × Object := (⟨"replicasets", "a", "set"⟩, ⟨"set-1", [], false, []⟩)

def pod : Key × Object := (⟨"pods", "a", "pod"⟩, ⟨"pod-1", [refersTo "old" "old-1", refersTo "set" "set-1"], false, []⟩)

def added (apiVersion kind : String) (entry : Key × Object) : Event := .upsert apiVersion kind entry.1 entry.2 none

/-- The owner that is gone gets a virtual node, is looked up and removed; then the pod is tried. -/
def patched : List Label :=
  [.create replicaSet.1 replicaSet.2, .create pod.1 pod.2, .inform (added "apps/v1" "ReplicaSet" replicaSet),
    .inform (added "v1" "Pod" pod), .process, .process, .take 2, .work 0 false, .work 0 false, .process, .take 1,
    .work 1 false, .work 1 false, .work 1 false, .work 1 false, .work 1 false]

theorem never_deletes_owned_patched : ∃ w, (soundCollector podsAndSets).Run nothingStored patched w ∧
    (∃ item, w.requests.head? = some (.deleteOwnerRefs item ["old-1"]) ∧ item.uid = "pod-1") ∧
    ∀ item policy, Request.delete item policy ∈ w.requests → item.uid ≠ "pod-1" := by
  have hrun : (soundCollector podsAndSets).Run nothingStored patched _ := System.run_foldl (by decide +kernel)
  have howned : ∀ first m, first <+: patched → (soundCollector podsAndSets).Run nothingStored first m →
      m.OwnedBy podsAndSets "pod-1" "set-1" := System.forall_prefix_of_inits (by decide +kernel)
  exact ⟨_, hrun, ⟨_, rfl, rfl⟩, never_deletes_owned nothingStored_initial hrun howned⟩

def ownedPod : Key × Object := (⟨"pods", "a", "pod"⟩, ⟨"pod-1", [refersTo "set" "set-1"], false, []⟩)

def strayPod : Key × Object := (⟨"pods", "b", "stray"⟩, ⟨"stray-1", [refersTo "set" "set-1"], false, []⟩)

/-- The event of the stray pod comes first. The virtual node of the owner is then looked up in the wrong namespace and
removed by a virtual delete event, with which the UID of the owner enters the cache of absent owners. So the owner of
the other pod, which exists, counts as absent, and this pod is deleted. -/
def strayFirst : List Label :=
  [.create replicaSet.1 replicaSet.2, .create ownedPod.1 ownedPod.2, .create strayPod.1 strayPod.2,
    .inform (added "v1" "Pod" strayPod), .inform (added "v1" "Pod" ownedPod),
    .inform (added "apps/v1" "ReplicaSet" replicaSet), .process, .take 1, .work 0 false, .work 0 false,
    .process, .process, .process, .take 2, .work 1 false, .work 1 false, .work 1 false]

theorem owned_pod_deleted : ∃ w, nothingStored.Initial podsAndSets ∧
    (collector podsAndSets).Run nothingStored strayFirst w ∧
    (∀ first m, first <+: strayFirst → (collector podsAndSets).Run nothingStored first m →
      m.OwnedBy podsAndSets "pod-1" "set-1") ∧
    ∃ item, Request.delete item .background ∈ w.requests ∧ item.uid = "pod-1" := by
  have hrun : (collector podsAndSets).Run nothingStored strayFirst _ := System.run_foldl (by decide +kernel)
  refine ⟨_, nothingStored_initial, hrun, System.forall_prefix_of_inits (by decide +kernel), ?_⟩
  exact ⟨_, List.mem_cons_self, rfl⟩

end LeanKube.Garbage
