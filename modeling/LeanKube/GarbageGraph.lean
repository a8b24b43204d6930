import LeanKube.GoMap

/-! The graph of the garbage collector (`pkg/controller/garbagecollector/graph_builder.go`, `graph.go`,
`uid_cache.go`). Nodes are found by UID. An owner that no event has told of yet gets a virtual node, with the
coordinates that the reference gives and the namespace of the dependent. -/

namespace LeanKube.Garbage
open List

/-! ### Objects -/

structure OwnerReference where
  apiVersion : String
  kind : String
  name : String
  uid : String
  blockOwnerDeletion : Option Bool
  deriving DecidableEq

structure ObjectReference extends OwnerReference where
  ns : String
  deriving DecidableEq

structure Key where
  resource : String
  ns : String
  name : String
  deriving DecidableEq

structure Object where
  uid : String
  owners : List OwnerReference
  /-- `DeletionTimestamp != nil` -/
  beingDeleted : Bool
  finalizers : List String
  deriving DecidableEq

def finalizerDeleteDependents : String := "foregroundDeletion"

def finalizerOrphanDependents : String := "orphan"

variable (obj : Object)

def Object.hasDeleteDependentsFinalizer : Bool := obj.finalizers.contains finalizerDeleteDependents

def Object.hasOrphanFinalizer : Bool := obj.finalizers.contains finalizerOrphanDependents

def Object.waitsForDependents : Bool := obj.beingDeleted && obj.hasDeleteDependentsFinalizer

variable (oldObj : Option Object) (newObj : Object)

/-- Whether the object just went over to being deleted; an added object has no old one. -/
def deletionStarts : Bool :=
  match oldObj with
  | none => newObj.beingDeleted
  | some oldObj => newObj.beingDeleted && !oldObj.beingDeleted

def startsWaitingForDependentsDeleted : Bool :=
  deletionStarts oldObj newObj && newObj.hasDeleteDependentsFinalizer

def startsWaitingForDependentsOrphaned : Bool :=
  deletionStarts oldObj newObj && newObj.hasOrphanFinalizer

/-! ### Nodes -/

structure Node where
  identity : ObjectReference
  dependents : Finset Nat
  deletingDependents : Bool
  beingDeleted : Bool
  virtual : Bool
  owners : List OwnerReference
  deriving DecidableEq

def Node.isObserved (n : Node) : Bool := !n.virtual

structure Graph where
  nodes : List Node := []
  uidToNode : GoMap String Nat := ∅
  attemptToDelete : Finset Nat := ∅
  attemptToOrphan : Finset Nat := ∅
  deriving DecidableEq

namespace Graph
variable (g : Graph)

def read (uid : String) : Option Nat := g.uidToNode.lookup uid

variable (n : Nat)

def modify (f : Node → Node) : Graph := { g with nodes := g.nodes.modify n f }

def addDependent (owner n : Nat) : Graph :=
  g.modify owner fun node => { node with dependents := insert n node.dependents }

def deleteDependent (owner n : Nat) : Graph :=
  g.modify owner fun node => { node with dependents := node.dependents.erase n }

def enqueue : Graph := { g with attemptToDelete := insert n g.attemptToDelete }

variable (node : Node)

def write : Graph :=
  { g with nodes := g.nodes ++ [node], uidToNode := g.uidToNode.insert node.identity.uid g.nodes.length }

def addDependentToOwner (ns : String) (owner : OwnerReference) : Graph :=
  match g.read owner.uid with
  | some ownerNode => g.addDependent ownerNode n
  | none => ((g.write {
      identity := ⟨owner, ns⟩
      dependents := ∅
      deletingDependents := false
      beingDeleted := false
      virtual := true
      owners := [] }).addDependent g.nodes.length n).enqueue g.nodes.length

def addDependentToOwners (ns : String) (owners : List OwnerReference) : Graph :=
  owners.foldl (fun g owner => g.addDependentToOwner n ns owner) g

def removeDependentFromOwners (owners : List OwnerReference) : Graph :=
  owners.foldl (fun g owner =>
    match g.read owner.uid with
    | none => g
    | some ownerNode => g.deleteDependent ownerNode n) g

def insertNode : Graph :=
  (g.write node).addDependentToOwners g.nodes.length node.identity.ns node.owners

def removeNode : Graph :=
  { g with uidToNode := g.uidToNode.erase node.identity.uid }.removeDependentFromOwners n node.owners

/-- Owners whose deletion a reference blocked are tried again: the reference is gone, or blocks no longer. -/
def addUnblockedOwnersToDeleteQueue (removed : List OwnerReference) (changed : List (OwnerReference × OwnerReference)) :
    Graph :=
  let unblocked := (removed.filter fun ref => ref.blockOwnerDeletion == some true) ++ (changed.filter fun pair =>
      pair.1.blockOwnerDeletion == some true && pair.2.blockOwnerDeletion != some true).map Prod.snd
  unblocked.foldl (fun g ref =>
    match g.read ref.uid with
    | none => g
    | some ownerNode => g.enqueue ownerNode) g

def processTransitions (oldObj : Option Object) (newObj : Object) (n : Nat) : Graph :=
  if startsWaitingForDependentsOrphaned oldObj newObj then { g with attemptToOrphan := insert n g.attemptToOrphan }
  else if startsWaitingForDependentsDeleted oldObj newObj then
    match g.nodes[n]? with
    | none => g
    | some node =>
      let g := g.modify n fun node => { node with deletingDependents := true }
      { g with attemptToDelete := insert n (g.attemptToDelete ∪ node.dependents) }
  else g

end Graph

/-! ### Changes of the references -/

def byUID (refs : List OwnerReference) : List OwnerReference :=
  refs.foldr (fun ref kept => if kept.any (·.uid == ref.uid) then kept else ref :: kept) []

def referencesDiffs (old new : List OwnerReference) :
    List OwnerReference × List OwnerReference × List (OwnerReference × OwnerReference) :=
  let oldRefs := byUID old
  let newRefs := byUID new
  (newRefs.filter fun ref => !oldRefs.any (·.uid == ref.uid), oldRefs.filter fun ref => !newRefs.any (·.uid == ref.uid),
    newRefs.filterMap fun ref =>
      match oldRefs.find? (·.uid == ref.uid) with
      | none => none
      | some oldRef => if oldRef = ref then none else some (oldRef, ref))

/-! ### Events -/

inductive Event where
  /-- An object has been added or updated; `apiVersion` and `kind` are those of its monitor. -/
  | upsert (apiVersion kind : String) (key : Key) (obj : Object) (oldObj : Option Object)
  /-- An object is gone, or a virtual node stands for none. -/
  | delete (uid : String)
  deriving DecidableEq

namespace Graph
variable (g : Graph)

def insertObject (apiVersion kind : String) (key : Key) (obj : Object) (oldObj : Option Object) : Graph :=
  let node : Node := {
    identity := ⟨⟨apiVersion, kind, key.name, obj.uid, none⟩, key.ns⟩
    dependents := ∅
    deletingDependents := obj.waitsForDependents
    beingDeleted := obj.beingDeleted
    virtual := false
    owners := obj.owners }
  (g.insertNode node).processTransitions oldObj obj g.nodes.length

variable (n : Nat) (node : Node) (owners : List OwnerReference)

def updateOwners : Graph :=
  let (added, removed, changed) := referencesDiffs node.owners owners
  if added.isEmpty ∧ removed.isEmpty ∧ changed.isEmpty then g
  else
    (((g.addUnblockedOwnersToDeleteQueue removed changed).modify n fun node =>
      { node with owners := owners }).addDependentToOwners
      n node.identity.ns added).removeDependentFromOwners n removed

def updateObject (obj : Object) (oldObj : Option Object) : Graph :=
  let g := g.updateOwners n node obj.owners
  let g := if obj.beingDeleted then g.modify n fun node => { node with beingDeleted := true } else g
  g.processTransitions oldObj obj n

def enqueueWaitingOwners : Graph :=
  owners.foldl (fun g owner =>
    match g.read owner.uid with
    | none => g
    | some ownerNode =>
      if (g.nodes[ownerNode]?).any Node.deletingDependents then g.enqueue ownerNode else g) g

/-- A node is removed; its dependents are tried, and the UID goes to the cache of absent owners if there are any. -/
def deleteObject (uid : String) : Graph × Option String :=
  let g := g.removeNode n node
  let dependents := ((g.nodes[n]?).map Node.dependents).getD ∅
  ({ g with attemptToDelete := g.attemptToDelete ∪ dependents }.enqueueWaitingOwners node.owners,
    if dependents = ∅ then none else some uid)

/-- `processGraphChanges` for an event: the graph, and the UID that the cache of absent owners is given. -/
def processGraphChanges (event : Event) : Graph × Option String :=
  match event with
  | .upsert apiVersion kind key obj oldObj =>
    match g.read obj.uid with
    | none => (g.insertObject apiVersion kind key obj oldObj, none)
    | some n =>
      let g := g.modify n fun node => { node with virtual := false }
      match g.nodes[n]? with
      | none => (g, none)
      | some node => (g.updateObject n node obj oldObj, none)
  | .delete uid =>
    match g.read uid with
    | none => (g, none)
    | some n =>
      let g := g.modify n fun node => { node with virtual := false }
      match g.nodes[n]? with
      | none => (g, none)
      | some node => g.deleteObject n node uid

end Graph

/-! ### The cache of absent owners -/

abbrev UIDCache := List String

def maxCacheEntries : Nat := 500

namespace UIDCache

variable (cache : UIDCache)

def add (uid : String) : UIDCache := (uid :: cache.erase uid).take maxCacheEntries

def has (uid : String) : Bool × UIDCache :=
  if uid ∈ cache then (true, uid :: cache.erase uid) else (false, cache)

variable {cache : UIDCache} {uid uid' : String}

theorem mem_add (h : uid' ∈ cache.add uid) : uid' = uid ∨ uid' ∈ cache := by
  rcases mem_cons.mp (mem_of_mem_take h) with heq | hold
  · exact .inl heq
  · exact .inr (mem_of_mem_erase hold)

theorem mem_has (h : uid' ∈ (cache.has uid).2) : uid' ∈ cache := by
  unfold has at h
  split_ifs at h with hmem
  · rcases mem_cons.mp h with rfl | hold
    · exact hmem
    · exact mem_of_mem_erase hold
  · exact h

end UIDCache

/-! ### The identities of the nodes -/

namespace Graph
variable {g g' g'' : Graph} {p : String → Prop} {event : Event}

/-- The nodes of `g` keep their identities in `g'`, and the new ones are of UIDs with the property. -/
def Grown (p : String → Prop) (g g' : Graph) : Prop :=
  ∃ new : List ObjectReference, g'.nodes.map Node.identity = g.nodes.map Node.identity ++ new ∧
    ∀ identity ∈ new, p identity.uid

theorem Grown.of_map_eq (h : g'.nodes.map Node.identity = g.nodes.map Node.identity) : Grown p g g' :=
  ⟨[], by rw [h, append_nil], fun _ hmem => by cases hmem⟩

theorem Grown.refl (g : Graph) : Grown p g g := .of_map_eq rfl

theorem Grown.trans (h : Grown p g g') (h' : Grown p g' g'') : Grown p g g'' := by
  obtain ⟨new, hmap, hnew⟩ := h
  obtain ⟨new', hmap', hnew'⟩ := h'
  refine ⟨new ++ new', by rw [hmap', hmap, append_assoc], fun identity hmem => ?_⟩
  rcases mem_append.mp hmem with hmem | hmem
  · exact hnew identity hmem
  · exact hnew' identity hmem

variable {node : Node}

theorem Grown.mem (h : Grown p g g') (hnode : node ∈ g'.nodes) :
    (∃ old ∈ g.nodes, old.identity = node.identity) ∨ p node.identity.uid := by
  obtain ⟨_, hmap, hnew⟩ := h
  have hmem : node.identity ∈ g'.nodes.map Node.identity := mem_map_of_mem hnode
  rw [hmap, mem_append, mem_map] at hmem
  exact hmem.imp_right (hnew _)

theorem Grown.getElem? (h : Grown p g g') {n : Nat} (hnode : g.nodes[n]? = some node) :
    ∃ node', g'.nodes[n]? = some node' ∧ node'.identity = node.identity := by
  obtain ⟨_, hmap, -⟩ := h
  have hlt : n < (g.nodes.map Node.identity).length := by
    rw [length_map]
    exact (List.getElem?_eq_some_iff.mp hnode).1
  have hget : (g'.nodes.map Node.identity)[n]? = some node.identity := by
    rw [hmap, List.getElem?_append_left hlt, List.getElem?_map, hnode]
    rfl
  rw [List.getElem?_map, Option.map_eq_some_iff] at hget
  exact hget

variable {f : Node → Node} {refs owners : List OwnerReference}

variable (g) (n : Nat)

theorem grown_modify (hf : ∀ node, (f node).identity = node.identity) : Grown p g (g.modify n f) := by
  refine .of_map_eq (ext_getElem? fun i => ?_)
  unfold Graph.modify
  rw [List.getElem?_map, List.getElem?_map, List.getElem?_modify, Option.map_eq_map, Option.map_map]
  congr 1
  funext node
  split_ifs
  · exact hf node
  · rfl

variable {g} in
theorem Grown.modify (h : Grown p g g') (hf : ∀ node, (f node).identity = node.identity) : Grown p g (g'.modify n f) :=
  h.trans (grown_modify g' n hf)

theorem grown_write (hnode : p node.identity.uid) : Grown p g (g.write node) := by
  refine ⟨[node.identity], map_append, fun identity hmem => ?_⟩
  rwa [mem_singleton.mp hmem]

theorem grown_foldl {f : Graph → OwnerReference → Graph}
    (hf : ∀ g : Graph, ∀ ref ∈ refs, Grown p g (f g ref)) : Grown p g (refs.foldl f g) := by
  induction refs generalizing g with
  | nil => exact .refl g
  | cons ref _ ih =>
    exact (hf g ref mem_cons_self).trans (ih _ fun g ref' hmem => hf g ref' (mem_cons_of_mem _ hmem))

theorem grown_addDependentToOwners (ns : String) (howners : ∀ owner ∈ owners, p owner.uid) :
    Grown p g (g.addDependentToOwners n ns owners) := by
  refine grown_foldl g fun g owner hmem => ?_
  unfold Graph.addDependentToOwner
  cases g.read owner.uid with
  | some => exact grown_modify g _ fun _ => rfl
  | none =>
    have hwr : Grown p g (g.write ⟨⟨owner, ns⟩, ∅, false, false, true, []⟩) := grown_write g (howners owner hmem)
    exact hwr.trans (grown_modify _ _ fun _ => rfl)

theorem grown_removeDependentFromOwners (owners : List OwnerReference) :
    Grown p g (g.removeDependentFromOwners n owners) := by
  refine grown_foldl g fun g owner _ => ?_
  cases g.read owner.uid with
  | none => exact .refl g
  | some => exact grown_modify g _ fun _ => rfl

theorem grown_addUnblockedOwnersToDeleteQueue (removed : List OwnerReference)
    (changed : List (OwnerReference × OwnerReference)) :
    Grown p g (g.addUnblockedOwnersToDeleteQueue removed changed) := by
  refine grown_foldl g fun g ref _ => ?_
  cases g.read ref.uid with
  | none => exact .refl g
  | some => exact .of_map_eq rfl

theorem grown_enqueueWaitingOwners (owners : List OwnerReference) : Grown p g (g.enqueueWaitingOwners owners) := by
  refine grown_foldl g fun g ref _ => ?_
  cases g.read ref.uid with
  | none => exact .refl g
  | some =>
    simp only
    split_ifs
    · exact .of_map_eq rfl
    · exact .refl g

theorem grown_processTransitions (oldObj : Option Object) (newObj : Object) :
    Grown p g (g.processTransitions oldObj newObj n) := by
  unfold Graph.processTransitions
  split_ifs
  · exact .of_map_eq rfl
  · cases g.nodes[n]? with
    | none => exact .refl g
    | some => exact (Grown.refl g).modify n fun _ => rfl
  · exact .refl g

theorem mem_byUID {ref : OwnerReference} (h : ref ∈ byUID refs) : ref ∈ refs := by
  induction refs with
  | nil => exact h
  | cons _ _ ih =>
    rw [byUID, foldr_cons] at h
    split_ifs at h
    · exact mem_cons_of_mem _ (ih h)
    · rcases mem_cons.mp h with rfl | hrest
      · exact mem_cons_self
      · exact mem_cons_of_mem _ (ih hrest)

theorem grown_updateOwners (node : Node) (howners : ∀ owner ∈ owners, p owner.uid) :
    Grown p g (g.updateOwners n node owners) := by
  unfold Graph.updateOwners referencesDiffs
  simp only
  split_ifs
  · exact .refl g
  · apply Grown.trans _ (grown_removeDependentFromOwners _ n _)
    apply Grown.trans _ (grown_addDependentToOwners _ n _ fun owner hmem => ?_)
    · exact (grown_addUnblockedOwnersToDeleteQueue g _ _).modify n fun _ => rfl
    · exact howners owner (mem_byUID (mem_of_mem_filter hmem))

theorem grown_updateObject (node : Node) {obj : Object} (oldObj : Option Object)
    (howners : ∀ owner ∈ obj.owners, p owner.uid) : Grown p g (g.updateObject n node obj oldObj) := by
  unfold Graph.updateObject
  refine (grown_updateOwners g n node howners).trans ?_
  split_ifs
  · apply Grown.trans _ (grown_processTransitions _ n oldObj obj)
    exact (Grown.refl _).modify n fun _ => rfl
  · exact grown_processTransitions _ n oldObj obj

theorem grown_deleteObject (node : Node) (uid : String) : Grown p g (g.deleteObject n node uid).1 := by
  have hrem : Grown p { g with uidToNode := g.uidToNode.erase node.identity.uid } (g.removeNode n node) :=
    grown_removeDependentFromOwners _ n node.owners
  have hqueued := grown_enqueueWaitingOwners (p := p) { g.removeNode n node with
    attemptToDelete := (g.removeNode n node).attemptToDelete ∪
      (((g.removeNode n node).nodes[n]?).map Node.dependents).getD ∅ } node.owners
  exact hrem.trans hqueued

/-- **New nodes** come from the events: they stand for the object or for the owners that it refers to. -/
theorem grown_processGraphChanges
    (hevent : ∀ apiVersion kind key obj oldObj, event = .upsert apiVersion kind key obj oldObj →
      p obj.uid ∧ ∀ owner ∈ obj.owners, p owner.uid) : Grown p g (g.processGraphChanges event).1 := by
  unfold Graph.processGraphChanges
  cases event with
  | upsert apiVersion kind key obj oldObj =>
    obtain ⟨huid, howners⟩ := hevent apiVersion kind key obj oldObj rfl
    simp only
    cases g.read obj.uid with
    | none =>
      refine ((grown_write g ?_).trans (grown_addDependentToOwners _ _ _ howners)).trans
        (grown_processTransitions _ _ oldObj obj)
      exact huid
    | some n =>
      simp only
      split
      · exact (Grown.refl g).modify n fun _ => rfl
      · apply Grown.trans _ (grown_updateObject _ n _ oldObj howners)
        exact (Grown.refl g).modify n fun _ => rfl
  | delete uid =>
    simp only
    cases g.read uid with
    | none => exact .refl g
    | some n =>
      simp only
      split
      · exact (Grown.refl g).modify n fun _ => rfl
      · apply Grown.trans _ (grown_deleteObject _ n _ uid)
        exact (Grown.refl g).modify n fun _ => rfl

variable {g} in
theorem processGraphChanges_absent {uid : String}
    (h : (g.processGraphChanges event).2 = some uid) : event = .delete uid := by
  unfold Graph.processGraphChanges at h
  cases event with
  | upsert =>
    simp only at h
    split at h
    · cases h
    · split at h <;> cases h
  | delete =>
    simp only at h
    split at h
    · cases h
    · split at h
      · cases h
      · unfold Graph.deleteObject at h
        simp only at h
        split_ifs at h
        rw [Option.some.inj h]

end Graph
end LeanKube.Garbage
