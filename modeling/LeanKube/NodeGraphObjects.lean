import LeanKube.NodeGraphLinks

/-! What the node authorizer's graph stands for: the objects that are added. Each call makes the links of the
graph the relationships of the objects that are then there. -/

namespace LeanKube.NodeAuth
open Set List Graph

/-! ### Objects -/

def Pod.References (pod : Pod) (key : VertexKey) : Prop :=
  pod.isMirrorPod = false ∧ key.namespace_ = pod.namespace_ ∧
    match key.vertexType with
    | .serviceAccount => key.name = pod.serviceAccountName ∧ pod.serviceAccountName ≠ ""
    | .secret => key.name ∈ pod.secretNames
    | .configMap => key.name ∈ pod.configMapNames
    | .pvc => key.name ∈ pod.claimNames
    | _ => False

inductive Object where
  | pod (pod : Pod)
  | volume (pv : PersistentVolume)
  | attachment (name nodeName : String)
  | configSource (nodeName namespace_ name : String)
deriving DecidableEq

def Object.key : Object → VertexKey
  | pod p => podKey p.namespace_ p.name
  | volume pv => pvKey pv.name
  | attachment name _ => vaKey name
  | configSource nodeName _ _ => nodeKey nodeName

abbrev Objects := List Object

namespace Objects
variable (objects : Objects)

def delete (key : VertexKey) : Objects := objects.filter fun object => object.key ≠ key

def add (object : Object) : Objects := object :: objects.delete object.key

def apply : Call → Objects
  | .addPod pod => objects.add (.pod pod)
  | .deletePod name namespace_ => objects.delete (podKey namespace_ name)
  | .addPV pv => objects.add (.volume pv)
  | .deletePV name => objects.delete (pvKey name)
  | .addVolumeAttachment attachmentName nodeName => objects.add (.attachment attachmentName nodeName)
  | .deleteVolumeAttachment name => objects.delete (vaKey name)
  | .setNodeConfigMap nodeName configMapName configMapNamespace =>
    objects.add (.configSource nodeName configMapNamespace configMapName)

def current (calls : List Call) : Objects := calls.foldl apply []

end Objects

/-! ### The links of the objects -/

inductive Object.Records : Object → Link → Prop where
  | binding (pod : Pod) : Records (.pod pod)
      ⟨podKey pod.namespace_ pod.name, nodeKey pod.nodeName, some (nodeKey pod.nodeName)⟩
  | reference {pod : Pod} {key : VertexKey} : pod.References key → Records (.pod pod)
      ⟨key, podKey pod.namespace_ pod.name, some (nodeKey pod.nodeName)⟩
  | claim {pv : PersistentVolume} {claim : String × String} : pv.claimRef = some claim → Records (.volume pv)
      ⟨pvKey pv.name, ⟨.pvc, claim.1, claim.2⟩, none⟩
  | volumeSecret {pv : PersistentVolume} {claim : String × String} {namespace_ name : String} :
      pv.claimRef = some claim → (namespace_, name, true) ∈ pv.secrets → Records (.volume pv)
      ⟨⟨.secret, namespace_, name⟩, pvKey pv.name, none⟩
  | attachment {name nodeName : String} : nodeName ≠ "" → Records (.attachment name nodeName)
      ⟨vaKey name, nodeKey nodeName, some (nodeKey nodeName)⟩
  | configSource {nodeName namespace_ name : String} : name ≠ "" → namespace_ ≠ "" →
      Records (.configSource nodeName namespace_ name)
      ⟨⟨.configMap, namespace_, name⟩, nodeKey nodeName, some (nodeKey nodeName)⟩

theorem Pod.References.vertexType {pod : Pod} {key : VertexKey} (h : pod.References key) :
    key.vertexType = .serviceAccount ∨ key.vertexType = .secret ∨ key.vertexType = .configMap ∨
      key.vertexType = .pvc := by
  obtain ⟨-, -, hname⟩ := h
  cases htype : key.vertexType <;> simp_all

theorem Pod.references_iff {pod : Pod} (hmirror : pod.isMirrorPod = false) (key : VertexKey) : pod.References key ↔
      (pod.serviceAccountName ≠ "" ∧ key = ⟨.serviceAccount, pod.namespace_, pod.serviceAccountName⟩) ∨
      (∃ name ∈ pod.secretNames, key = ⟨.secret, pod.namespace_, name⟩) ∨
      (∃ name ∈ pod.configMapNames, key = ⟨.configMap, pod.namespace_, name⟩) ∨
      ∃ name ∈ pod.claimNames, key = ⟨.pvc, pod.namespace_, name⟩ := by
  obtain ⟨vertexType, namespace_, name⟩ := key
  cases vertexType <;> simp [Pod.References, hmirror, and_comm, and_assoc]

namespace Object
variable {object : Object} {l : Link}

theorem Records.owner (h : object.Records l) {key : VertexKey}
    (htype : key.vertexType = .pod ∨ key.vertexType = .pv ∨ key.vertexType = .va) :
    object.key ≠ key ↔ l.src ≠ key ∧ l.dst ≠ key := by
  have hne {k : VertexKey} (t : VertexType) (hk : k.vertexType = t) (ht : t ≠ .pod ∧ t ≠ .pv ∧ t ≠ .va) : k ≠ key := by
    rintro rfl
    rw [hk] at htype
    rcases htype with htype | htype | htype
    · exact ht.1 htype
    · exact ht.2.1 htype
    · exact ht.2.2 htype
  cases h with
  | binding | attachment => exact ⟨fun h => ⟨h, hne .node rfl (by decide)⟩, And.left⟩
  | reference href =>
    refine ⟨fun h => ⟨?_, h⟩, And.right⟩
    rcases href.vertexType with htype | htype | htype | htype <;> exact hne _ htype (by decide)
  | claim => exact ⟨fun h => ⟨h, hne .pvc rfl (by decide)⟩, And.left⟩
  | volumeSecret => exact ⟨fun h => ⟨hne .secret rfl (by decide), h⟩, And.right⟩
  | configSource =>
    have hnode {nodeName : String} : nodeKey nodeName ≠ key := hne .node rfl (by decide)
    exact ⟨fun _ => ⟨hne .configMap rfl (by decide), hnode⟩, fun _ => hnode⟩

theorem Records.ofConfigSource (h : object.Records l) (nodeName : String) :
    object.key ≠ nodeKey nodeName ↔ ¬ (l.src.vertexType = .configMap ∧ l.dst = nodeKey nodeName) := by
  cases h with
  | configSource => exact ⟨fun h hends => h hends.2, fun h hkey => h ⟨rfl, hkey⟩⟩
  | _ => simp [key, podKey, pvKey, vaKey, nodeKey]

end Object

namespace Objects
variable (objects : Objects)

def links : Set Link := {l | ∃ object ∈ objects, object.Records l}

theorem links_delete {key : VertexKey} {P : Link → Prop}
    (h : ∀ (object : Object) (l : Link), object.Records l → (object.key ≠ key ↔ P l)) :
    (objects.delete key).links = {l ∈ objects.links | P l} := by
  ext l
  constructor
  · rintro ⟨object, hobj, hl⟩
    rw [delete, mem_filter, decide_eq_true_iff] at hobj
    exact ⟨⟨object, hobj.1, hl⟩, (h object l hl).mp hobj.2⟩
  · rintro ⟨⟨object, hobj, hl⟩, hP⟩
    refine ⟨object, ?_, hl⟩
    rw [delete, mem_filter, decide_eq_true_iff]
    exact ⟨hobj, (h object l hl).mpr hP⟩

theorem links_add (object : Object) :
    (objects.add object).links = {l | object.Records l} ∪ (objects.delete object.key).links := by
  ext l
  simp [links, add]

end Objects

/-! ### `addPod` -/

variable (pod node : VertexKey)

def referenceLinks (keys : Set VertexKey) : Set Link :=
  {l | l.src ∈ keys ∧ l.dst = pod ∧ l.destination = some node}

theorem referenceLinks_union (keys keys' : Set VertexKey) :
    referenceLinks pod node (keys ∪ keys') = referenceLinks pod node keys ∪ referenceLinks pod node keys' := by
  ext l
  exact or_and_right

theorem referenceLinks_singleton (pod node key : VertexKey) :
    referenceLinks pod node {key} = {⟨key, pod, some node⟩} := by
  ext l
  rw [mem_singleton_iff, Link.mk.injEq]
  rfl

theorem Object.records_pod (pod : Pod) : {l | (Object.pod pod).Records l} =
    insert ⟨podKey pod.namespace_ pod.name, nodeKey pod.nodeName, some (nodeKey pod.nodeName)⟩
      (referenceLinks (podKey pod.namespace_ pod.name) (nodeKey pod.nodeName) {key | pod.References key}) := by
  ext ⟨src, dst, destination⟩
  constructor
  · intro h
    cases h with
    | binding => exact .inl rfl
    | reference href => exact .inr ⟨href, rfl, rfl⟩
  · rintro (heq | ⟨href, rfl, rfl⟩)
    · cases heq
      exact .binding pod
    · exact .reference href

theorem Object.records_volume (pv : PersistentVolume) : {l | (Object.volume pv).Records l} =
    {l | ∃ claim ∈ pv.claimRef, l = ⟨pvKey pv.name, ⟨.pvc, claim.1, claim.2⟩, none⟩ ∨
      ∃ secret ∈ pv.secrets, secret.2.2 ∧ l = ⟨⟨.secret, secret.1, secret.2.1⟩, pvKey pv.name, none⟩} := by
  ext l
  constructor
  · intro h
    cases h with
    | claim hclaim => exact ⟨_, hclaim, .inl rfl⟩
    | volumeSecret hclaim hsecret => exact ⟨_, hclaim, .inr ⟨_, hsecret, rfl, rfl⟩⟩
  · rintro ⟨claim, hclaim, rfl | ⟨⟨namespace_, name, visible⟩, hsecret, hvisible, rfl⟩⟩
    · exact .claim hclaim
    · cases hvisible
      exact .volumeSecret hclaim hsecret

theorem Object.records_attachment (name nodeName : String) : {l | (Object.attachment name nodeName).Records l} =
    {l | nodeName ≠ "" ∧ l = ⟨vaKey name, nodeKey nodeName, some (nodeKey nodeName)⟩} := by
  ext l
  refine ⟨fun h => ?_, fun ⟨hname, hl⟩ => hl ▸ .attachment hname⟩
  cases h with
  | attachment hname => exact ⟨hname, rfl⟩

theorem Object.records_configSource (nodeName namespace_ name : String) :
    {l | (Object.configSource nodeName namespace_ name).Records l} = {l | (name ≠ "" ∧ namespace_ ≠ "") ∧
      l = ⟨⟨.configMap, namespace_, name⟩, nodeKey nodeName, some (nodeKey nodeName)⟩} := by
  ext l
  refine ⟨fun h => ?_, fun ⟨hnames, hl⟩ => hl ▸ .configSource hnames.1 hnames.2⟩
  cases h with
  | configSource hname hns => exact ⟨⟨hname, hns⟩, rfl⟩

structure Attached (g : Graph) (links : Set Link) (pod node : NamedVertex) : Prop extends Linked g links where
  pod_mem : pod ∈ g.dag.nodes
  node_mem : node ∈ g.dag.nodes
  pod_type : pod.key.vertexType = .pod
  node_type : node.key.vertexType = .node
  binding : ⟨pod.key, node.key, some node.key⟩ ∈ links
  references : ∀ l ∈ links, l.dst = pod.key → l.destination = some node.key

namespace Attached
variable {g : Graph} {links : Set Link} {pod node : NamedVertex} {c : Choices} {vertexType : VertexType}

section
variable (h : Attached g links pod node)
  (htype : vertexType = .serviceAccount ∨ vertexType = .secret ∨ vertexType = .configMap ∨ vertexType = .pvc)
include h htype

theorem addReference (namespace_ name : String) :
    Attached (g.addReference c pod node vertexType namespace_ name)
      (links ∪ referenceLinks pod.key node.key {⟨vertexType, namespace_, name⟩}) pod node := by
  rw [referenceLinks_singleton, union_singleton]
  obtain ⟨_, vertex, heq, hlinked, hnodes, hvertex, hkey⟩ := h.getOrCreateVertex c ⟨vertexType, namespace_, name⟩
  simp only [Graph.addReference, heq]
  have hlink : (⟨vertex, pod, some node⟩ : Edge).link = ⟨⟨vertexType, namespace_, name⟩, pod.key, some node.key⟩ := by
    rw [Edge.link, hkey, Option.map_some]
  have hset := hlinked.setEdge (e := ⟨vertex, pod, some node⟩) hvertex (hnodes pod h.pod_mem) ?_ ?_ ?_
  · rw [hlink] at hset
    refine ⟨hset.recomputeDestinationIndex vertex, ?_, ?_, h.pod_type, h.node_type, .inr h.binding, ?_⟩
    · rw [recomputeDestinationIndex_dag]
      exact hnodes pod h.pod_mem
    · rw [recomputeDestinationIndex_dag]
      exact hnodes node h.node_mem
    · intro l hl hdst
      rcases hl with rfl | hl
      · rfl
      · exact h.references l hl hdst
  · intro d hd
    cases hd
    exact hnodes node h.node_mem
  · rw [hlink]
    exact .toPod htype h.pod_type h.node_type
  · intro _
    exact ⟨h.references, _, h.binding, rfl, rfl⟩

theorem addReferences (namespace_ : String) (names : List String) :
    Attached (names.foldl (fun g name => g.addReference c pod node vertexType namespace_ name) g)
      (links ∪ referenceLinks pod.key node.key {key | ∃ name ∈ names, key = ⟨vertexType, namespace_, name⟩})
      pod node := by
  induction names generalizing g links with
  | nil => simpa [referenceLinks] using h
  | cons name names ih =>
    have hkeys : {key | ∃ n ∈ name :: names, key = ⟨vertexType, namespace_, n⟩} =
        ({⟨vertexType, namespace_, name⟩} : Set VertexKey) ∪
          {key | ∃ n ∈ names, key = ⟨vertexType, namespace_, n⟩} := by
      ext key
      simp only [mem_cons, exists_eq_or_imp, mem_union, mem_singleton_iff, mem_ofPred_eq]
    rw [hkeys, referenceLinks_union, ← union_assoc, foldl_cons]
    exact ih (h.addReference htype namespace_ name)

end
end Attached

namespace Linked
variable {g : Graph} {links : Set Link} {c : Choices}

theorem setNodeEdge (h : Linked g links) {src node : NamedVertex} (hsrc : src ∈ g.dag.nodes)
    (hnode : node ∈ g.dag.nodes) (htyped : Link.Typed ⟨src.key, node.key, some node.key⟩)
    (hnodeType : node.key.vertexType = .node) :
    Linked (g.setEdge ⟨src, node, some node⟩) (insert ⟨src.key, node.key, some node.key⟩ links) := by
  refine h.setEdge (e := ⟨src, node, some node⟩) hsrc hnode ?_ htyped ?_
  · intro d hd
    cases hd
    exact hnode
  · intro hpod
    exact nomatch hnodeType.symm.trans hpod

/-- The two ends of a new edge. -/
theorem exists_ends (h : Linked g links) (c : Choices) (src dst : VertexKey) : ∃ g₁ v g₂ w,
    g.getOrCreateVertex c src = (g₁, v) ∧ g₁.getOrCreateVertex c dst = (g₂, w) ∧ Linked g₂ links ∧
      v ∈ g₂.dag.nodes ∧ w ∈ g₂.dag.nodes ∧ v.key = src ∧ w.key = dst := by
  obtain ⟨g₁, v, heq, hsrc, -, hmem, hkey⟩ := h.getOrCreateVertex c src
  obtain ⟨g₂, w, heq', hdst, hmono, hmem', hkey'⟩ := hsrc.getOrCreateVertex c dst
  exact ⟨g₁, v, g₂, w, heq, heq', hdst, hmono _ hmem, hmem', hkey, hkey'⟩

theorem addPod (h : Linked g links) (pod : Pod) (href : g.Refreshes c (podKey pod.namespace_ pod.name)) :
    Linked (g.addPod c pod) ({l | (Object.pod pod).Records l} ∪
      {l ∈ links | l.src ≠ podKey pod.namespace_ pod.name ∧ l.dst ≠ podKey pod.namespace_ pod.name}) := by
  have hdel := h.deleteVertex (c := c) (by simp [podKey]) href
  rw [Graph.addPod]
  generalize hlinks : {l ∈ links | l.src ≠ podKey pod.namespace_ pod.name ∧
    l.dst ≠ podKey pod.namespace_ pod.name} = links₀ at hdel ⊢
  obtain ⟨_, podVertex, g₂, nodeVertex, hpod, hnode, hlinked, hpodMem, hnodeMem, hpodKey, hnodeKey⟩ :=
    hdel.exists_ends c (podKey pod.namespace_ pod.name) (nodeKey pod.nodeName)
  simp only [hpod, hnode]
  have hbound := hlinked.setNodeEdge hpodMem hnodeMem
    (.toNode (.inl (by rw [hpodKey]; rfl)) (by rw [hnodeKey]; rfl)) (by rw [hnodeKey]; rfl)
  have hattached : Attached (g₂.setEdge ⟨podVertex, nodeVertex, some nodeVertex⟩)
      (insert ⟨podVertex.key, nodeVertex.key, some nodeVertex.key⟩ links₀) podVertex nodeVertex := by
    refine ⟨hbound, hpodMem, hnodeMem, by rw [hpodKey]; rfl, by rw [hnodeKey]; rfl, mem_insert _ _, ?_⟩
    intro l hl hdst
    rcases hl with rfl | hl
    · rfl
    · rw [← hlinks] at hl
      exact absurd (hdst.trans hpodKey) hl.2.2
  generalize g₂.setEdge ⟨podVertex, nodeVertex, some nodeVertex⟩ = g₃ at hattached ⊢
  cases hmirror : pod.isMirrorPod with
  | true =>
    have hrec : insert ⟨podVertex.key, nodeVertex.key, some nodeVertex.key⟩ links₀ =
        {l | (Object.pod pod).Records l} ∪ links₀ := by
      rw [Object.records_pod, hpodKey, hnodeKey, insert_union]
      simp [Pod.References, hmirror, referenceLinks]
    exact hrec ▸ hattached.toLinked
  | false =>
    have haccount : Attached (if pod.serviceAccountName.length > 0 then
          g₃.addReference c podVertex nodeVertex .serviceAccount pod.namespace_ pod.serviceAccountName else g₃)
        (insert ⟨podVertex.key, nodeVertex.key, some nodeVertex.key⟩ links₀ ∪
          referenceLinks podVertex.key nodeVertex.key {key | pod.serviceAccountName ≠ "" ∧
            key = ⟨.serviceAccount, pod.namespace_, pod.serviceAccountName⟩}) podVertex nodeVertex := by
      by_cases hname : pod.serviceAccountName = ""
      · simpa [hname, referenceLinks] using hattached
      · rw [if_pos (Nat.pos_iff_ne_zero.mpr fun hlen => hname (String.length_eq_zero_iff.mp hlen))]
        simpa [hname] using hattached.addReference (.inl rfl) pod.namespace_ pod.serviceAccountName
    have hsecrets := haccount.addReferences (c := c) (.inr (.inl rfl)) pod.namespace_ pod.secretNames
    have hconfigMaps := hsecrets.addReferences (c := c) (.inr (.inr (.inl rfl))) pod.namespace_ pod.configMapNames
    have hclaims := hconfigMaps.addReferences (c := c) (.inr (.inr (.inr rfl))) pod.namespace_ pod.claimNames
    have hrec : {l | (Object.pod pod).Records l} ∪ links₀ =
        insert ⟨podVertex.key, nodeVertex.key, some nodeVertex.key⟩ links₀ ∪
          referenceLinks podVertex.key nodeVertex.key {key | pod.References key} := by
      rw [Object.records_pod, hpodKey, hnodeKey, insert_union, insert_union, union_comm]
    have hkeys : {key | pod.References key} = {key | pod.serviceAccountName ≠ "" ∧
          key = ⟨.serviceAccount, pod.namespace_, pod.serviceAccountName⟩} ∪
        {key | ∃ name ∈ pod.secretNames, key = ⟨.secret, pod.namespace_, name⟩} ∪
        {key | ∃ name ∈ pod.configMapNames, key = ⟨.configMap, pod.namespace_, name⟩} ∪
        {key | ∃ name ∈ pod.claimNames, key = ⟨.pvc, pod.namespace_, name⟩} := by
      ext key
      simp only [mem_union, mem_ofPred_eq, Pod.references_iff hmirror, or_assoc]
    rw [hrec, hkeys, referenceLinks_union, referenceLinks_union, referenceLinks_union, ← union_assoc,
      ← union_assoc, ← union_assoc]
    exact hclaims.toLinked

/-! ### The other calls -/

variable (h : Linked g links)
include h

theorem refreshes {k : VertexKey} (htype : k.vertexType = .pv ∨ k.vertexType = .va) : g.Refreshes c k := by
  intro vertex hvertex e he hdst _ index _ d hd
  have hkey := ((h.sound.live k vertex).mp hvertex).2
  have htyped : e.link.Typed := h.typed _ (h.links_eq ▸ ⟨e, he, rfl⟩)
  have hlink : e.link.destination = some d.key := by rw [Edge.link, hd, Option.map_some]
  have hdstKey : e.link.dst = k := by rw [Edge.link, hdst, hkey]
  obtain ⟨hnode, hend⟩ := htyped.destination_node hlink
  rw [hdstKey] at hend
  have hpod : k.vertexType ≠ .pod := by rcases htype with htype | htype <;> rw [htype] <;> decide
  rw [← hend hpod] at hnode
  rcases htype with htype | htype
  · cases htype.symm.trans hnode
  · cases htype.symm.trans hnode

theorem addNodeLink {key : VertexKey}
    (htype : key.vertexType = .pod ∨ key.vertexType = .va ∨ key.vertexType = .configMap) (nodeName : String) :
    Linked
      (let (g, vertex) := g.getOrCreateVertex c key
       let (g, nodeVertex) := g.getOrCreateVertex c (nodeKey nodeName)
       g.setEdge ⟨vertex, nodeVertex, some nodeVertex⟩)
      (insert ⟨key, nodeKey nodeName, some (nodeKey nodeName)⟩ links) := by
  obtain ⟨_, _, _, _, hvertex, hnode, hlinked, hmem, hnodeMem, hkey, hnodeKey⟩ := h.exists_ends c key (nodeKey nodeName)
  have hset := hlinked.setNodeEdge hmem hnodeMem
    (.toNode (by rw [hkey]; exact htype) (by rw [hnodeKey]; rfl)) (by rw [hnodeKey]; rfl)
  rw [hkey, hnodeKey] at hset
  simpa only [hvertex, hnode] using hset

theorem setPlainEdge {src dst : NamedVertex} (hsrc : src ∈ g.dag.nodes) (hdst : dst ∈ g.dag.nodes)
    (htyped : Link.Typed ⟨src.key, dst.key, none⟩) :
    Linked (g.setEdge ⟨src, dst, none⟩) (insert ⟨src.key, dst.key, none⟩ links) := by
  refine h.setEdge (e := ⟨src, dst, none⟩) hsrc hdst (fun _ hd => nomatch hd) htyped fun hpod => ?_
  cases htyped with
  | toClaim _ hclaim => exact nomatch hclaim.symm.trans hpod
  | toVolume _ hvolume => exact nomatch hvolume.symm.trans hpod

theorem addVolumeSecrets {pvVertex : NamedVertex} (hmem : pvVertex ∈ g.dag.nodes)
    (htype : pvVertex.key.vertexType = .pv) (secrets : List (String × String × Bool)) :
    Linked (secrets.foldl (addVolumeSecret c pvVertex) g)
      (links ∪ {l | ∃ secret ∈ secrets, secret.2.2 ∧ l = ⟨⟨.secret, secret.1, secret.2.1⟩, pvVertex.key, none⟩}) := by
  induction secrets generalizing g links with
  | nil => simpa using h
  | cons secret secrets ih =>
    obtain ⟨namespace_, name, visible⟩ := secret
    rw [foldl_cons, addVolumeSecret]
    cases visible with
    | false => simpa using ih h hmem
    | true =>
      obtain ⟨_, _, heq, hlinked, hnodes, hvertex, hkey⟩ := h.getOrCreateVertex c ⟨.secret, namespace_, name⟩
      simp only [if_true, heq]
      have hset := hlinked.setPlainEdge hvertex (hnodes pvVertex hmem) (.toVolume (by rw [hkey]) htype)
      have hrest := ih hset (hnodes pvVertex hmem)
      rw [hkey] at hrest
      have hlinks : links ∪ {l | ∃ secret ∈ (namespace_, name, true) :: secrets, secret.2.2 ∧
            l = ⟨⟨.secret, secret.1, secret.2.1⟩, pvVertex.key, none⟩} =
          insert ⟨⟨.secret, namespace_, name⟩, pvVertex.key, none⟩ links ∪
            {l | ∃ secret ∈ secrets, secret.2.2 ∧ l = ⟨⟨.secret, secret.1, secret.2.1⟩, pvVertex.key, none⟩} := by
        ext l
        simp only [mem_union, mem_insert_iff, mem_ofPred_eq, mem_cons, exists_eq_or_imp, true_and]
        rw [or_left_comm, or_assoc]
      rw [hlinks]
      exact hrest

theorem addPV (pv : PersistentVolume) : Linked (g.addPV c pv) ({l | (Object.volume pv).Records l} ∪
      {l ∈ links | l.src ≠ pvKey pv.name ∧ l.dst ≠ pvKey pv.name}) := by
  have hdel := h.deleteVertex (c := c) (by simp [pvKey]) (h.refreshes (k := pvKey pv.name) (.inl rfl))
  rw [Graph.addPV, Object.records_volume]
  cases pv.claimRef with
  | none => simpa using hdel
  | some claim =>
    obtain ⟨_, _, _, _, hpv, hpvc, hlinked, hpvMem, hpvcMem, hpvKey, hpvcKey⟩ :=
      hdel.exists_ends c (pvKey pv.name) ⟨.pvc, claim.1, claim.2⟩
    simp only [hpv, hpvc]
    have hbound := hlinked.setPlainEdge hpvMem hpvcMem (.toClaim (by rw [hpvKey]; rfl) (by rw [hpvcKey]))
    have hsecrets := hbound.addVolumeSecrets (c := c) hpvMem (by rw [hpvKey]; rfl) pv.secrets
    rw [hpvKey, hpvcKey] at hsecrets
    convert hsecrets using 1
    ext l
    simp only [Option.mem_some, exists_eq_left', mem_union, mem_ofPred_eq, Set.mem_insert_iff]
    rw [or_right_comm]

/-- A link to a node that is made if the condition holds. -/
theorem addNodeLink_if {key : VertexKey} {p q : Prop} [Decidable q] (hpq : p ↔ q)
    (htype : key.vertexType = .pod ∨ key.vertexType = .va ∨ key.vertexType = .configMap) (nodeName : String) :
    Linked
      (if q then
        let (g, vertex) := g.getOrCreateVertex c key
        let (g, nodeVertex) := g.getOrCreateVertex c (nodeKey nodeName)
        g.setEdge ⟨vertex, nodeVertex, some nodeVertex⟩
       else g)
      ({l | p ∧ l = ⟨key, nodeKey nodeName, some (nodeKey nodeName)⟩} ∪ links) := by
  by_cases hq : q
  · simpa [hpq, hq, ← singleton_def] using h.addNodeLink (c := c) htype nodeName
  · simpa [hpq, hq] using h

theorem addVolumeAttachment (attachmentName nodeName : String) :
    Linked (g.addVolumeAttachment c attachmentName nodeName)
      ({l | (Object.attachment attachmentName nodeName).Records l} ∪
        {l ∈ links | l.src ≠ vaKey attachmentName ∧ l.dst ≠ vaKey attachmentName}) := by
  have hdel := h.deleteVertex (c := c) (by simp [vaKey]) (h.refreshes (k := vaKey attachmentName) (.inr rfl))
  rw [Object.records_attachment]
  exact hdel.addNodeLink_if (by simp [Nat.pos_iff_ne_zero, String.length_eq_zero_iff]) (.inr (.inl rfl)) nodeName

theorem setNodeConfigMap (nodeName configMapName configMapNamespace : String) :
    Linked (g.setNodeConfigMap c nodeName configMapName configMapNamespace)
      ({l | (Object.configSource nodeName configMapNamespace configMapName).Records l} ∪
        {l ∈ links | ¬ (l.src.vertexType = .configMap ∧ l.dst = nodeKey nodeName)}) := by
  have hdel := h.deleteEdges (c := c) (show VertexType.configMap ≠ .pod by decide) (nodeKey nodeName)
  rw [Object.records_configSource]
  exact hdel.addNodeLink_if (by simp [Nat.pos_iff_ne_zero, String.length_eq_zero_iff]) (.inr (.inr rfl)) nodeName

end Linked
end LeanKube.NodeAuth
