import LeanKube.NodeGraphObjects
import LeanKube.Transition

/-! Node authorization over runs: a run that leaves no stale index keeps the links of the graph equal to the
relationships of the objects, and the search for a path answers whether the node may read an object. -/

namespace LeanKube.NodeAuth
open List Objects Option

namespace Objects

/-- A node may read what its pods refer to, the volumes bound to their claims with the secrets of these
volumes, its volume attachments and the source of its configuration. -/
inductive Authorized (objects : Objects) (nodeName : String) : VertexKey → Prop where
  | reference {pod : Pod} {key : VertexKey} : .pod pod ∈ objects → pod.nodeName = nodeName →
      pod.References key → Authorized objects nodeName key
  | volume {pod : Pod} {pv : PersistentVolume} {claim : String × String} : .pod pod ∈ objects →
      pod.nodeName = nodeName → .volume pv ∈ objects → pv.claimRef = some claim →
      pod.References ⟨.pvc, claim.1, claim.2⟩ → Authorized objects nodeName (pvKey pv.name)
  | volumeSecret {pod : Pod} {pv : PersistentVolume} {claim : String × String} {namespace_ name : String} :
      .pod pod ∈ objects → pod.nodeName = nodeName → .volume pv ∈ objects → pv.claimRef = some claim →
      pod.References ⟨.pvc, claim.1, claim.2⟩ → (namespace_, name, true) ∈ pv.secrets →
      Authorized objects nodeName ⟨.secret, namespace_, name⟩
  | attachment {name : String} : .attachment name nodeName ∈ objects → nodeName ≠ "" →
      Authorized objects nodeName (vaKey name)
  | configSource {namespace_ name : String} : .configSource nodeName namespace_ name ∈ objects → name ≠ "" →
      namespace_ ≠ "" → Authorized objects nodeName ⟨.configMap, namespace_, name⟩

end Objects

/-! ### Runs -/

/-- A call on a pod leaves no stale index. -/
def Graph.Maintains (c : Choices) (g : Graph) : Call → Prop
  | .addPod pod => g.Refreshes c (podKey pod.namespace_ pod.name)
  | .deletePod name namespace_ => g.Refreshes c (podKey namespace_ name)
  | _ => True

def calls : System Graph (Choices × Call) :=
  System.ofFun (fun _ _ => True) fun g label => g.apply label.1 label.2

/-- The calls under `Maintains`. -/
def maintained : System Graph (Choices × Call) :=
  System.ofFun (fun g label => g.Maintains label.1 label.2) fun g label => g.apply label.1 label.2

variable {g : Graph}

theorem Linked.apply {objects : Objects} {c : Choices} (h : Linked g objects.links) {call : Call}
    (hmaintains : g.Maintains c call) : Linked (g.apply c call) (objects.apply call).links := by
  have hdel {key : VertexKey}
      (htype : key.vertexType = .pod ∨ key.vertexType = .pv ∨ key.vertexType = .va) :
      (objects.delete key).links = {l ∈ objects.links | l.src ≠ key ∧ l.dst ≠ key} :=
    objects.links_delete fun _ _ hl => hl.owner htype
  cases call with
  | addPod pod =>
    rw [Objects.apply, Objects.links_add, Object.key, hdel (.inl rfl)]
    exact h.addPod pod hmaintains
  | deletePod =>
    rw [Objects.apply, hdel (.inl rfl)]
    exact h.deleteVertex (by simp [podKey]) hmaintains
  | addPV pv =>
    rw [Objects.apply, Objects.links_add, Object.key, hdel (.inr (.inl rfl))]
    exact h.addPV pv
  | deletePV =>
    rw [Objects.apply, hdel (.inr (.inl rfl))]
    exact h.deleteVertex (by simp [pvKey]) (h.refreshes (.inl rfl))
  | addVolumeAttachment attachmentName nodeName =>
    rw [Objects.apply, Objects.links_add, Object.key, hdel (.inr (.inr rfl))]
    exact h.addVolumeAttachment attachmentName nodeName
  | deleteVolumeAttachment =>
    rw [Objects.apply, hdel (.inr (.inr rfl))]
    exact h.deleteVertex (by simp [vaKey]) (h.refreshes (.inr rfl))
  | setNodeConfigMap nodeName configMapName configMapNamespace =>
    rw [Objects.apply, Objects.links_add, Object.key, objects.links_delete fun _ _ hl => hl.ofConfigSource nodeName]
    exact h.setNodeConfigMap nodeName configMapName configMapNamespace

theorem maintained_linked {threshold : Nat} (hthreshold : 0 < threshold)
    {labels : List (Choices × Call)} (hrun : maintained.Run (Graph.new threshold) labels g) :
    Linked g (current (labels.map Prod.snd)).links := by
  refine System.Run.history (fun labels g => Linked g (current (labels.map Prod.snd)).links) ?_ hrun ?_
  · intro labels g label g' hstep h
    obtain ⟨hmaintains, rfl⟩ := hstep
    rw [map_append, current, foldl_append]
    exact h.apply hmaintains
  · have hempty : (current []).links = ∅ := by simp [current, links]
    rw [map_nil, hempty]
    exact Linked.new hthreshold

/-! ### Paths -/

def LinkPath (links : Set Link) (start node : VertexKey) : Prop :=
  ∃ t, Relation.ReflTransGen (fun a b => ⟨a, b, none⟩ ∈ links) start t ∧ ∃ dst, ⟨t, dst, some node⟩ ∈ links

namespace Linked
variable {g : Graph} {links : Set Link} {v : NamedVertex} (h : Linked g links)
include h

variable {key a b start node starting : VertexKey}

theorem leads_iff (hv : v ∈ g.dag.nodes) :
    ⟨v.key, key, none⟩ ∈ links ↔ ∃ w ∈ g.dag.nodes, w.key = key ∧ g.dag.Leads v w := by
  rw [← h.links_eq]
  constructor
  · rintro ⟨e, he, hlink⟩
    obtain ⟨hsrc, hdst, hdest⟩ := Link.mk.inj hlink
    obtain ⟨hsrcMem, hdstMem⟩ := h.sound.valid.ends e he
    refine ⟨e.dst, hdstMem, hdst, e, he, h.sound.key_inj hsrcMem hv hsrc, rfl, ?_⟩
    exact map_eq_none_iff.mp hdest
  · rintro ⟨w, -, rfl, e, he, rfl, rfl, hdest⟩
    exact ⟨e, he, by rw [Edge.link, hdest, map_none]⟩

theorem hits_iff {node : NamedVertex} (hv : v ∈ g.dag.nodes) (hnode : node ∈ g.dag.nodes) :
    g.dag.Hits node.id v ↔ ∃ dst, ⟨v.key, dst, some node.key⟩ ∈ links := by
  rw [← h.links_eq]
  constructor
  · rintro ⟨e, he, rfl, d, hd, hid⟩
    have heq := h.sound.valid.ids d (h.sound.destination_mem he hd) node hnode hid
    exact ⟨e.dst.key, e, he, by rw [Edge.link, hd, map_some, heq]⟩
  · rintro ⟨dst, e, he, hlink⟩
    obtain ⟨hsrc, -, hdest⟩ := Link.mk.inj hlink
    obtain ⟨d, hd, hkey⟩ := map_eq_some_iff.mp hdest
    refine ⟨e, he, h.sound.key_inj (h.sound.valid.ends e he).1 hv hsrc, d, hd, ?_⟩
    rw [h.sound.key_inj (h.sound.destination_mem he hd) hnode hkey]

theorem reach_iff (hv : v ∈ g.dag.nodes) :
    Relation.ReflTransGen (fun a b => ⟨a, b, none⟩ ∈ links) v.key key ↔
      ∃ w ∈ g.dag.nodes, w.key = key ∧ Relation.ReflTransGen g.dag.Leads v w := by
  constructor
  · intro hreach
    induction hreach with
    | refl => exact ⟨v, hv, rfl, .refl⟩
    | tail _ hlink ih =>
      obtain ⟨w, hw, rfl, hleads⟩ := ih
      obtain ⟨x, hx, rfl, hstep⟩ := (h.leads_iff hw).mp hlink
      exact ⟨x, hx, rfl, hleads.tail hstep⟩
  · rintro ⟨w, -, rfl, hleads⟩
    refine hleads.lift NamedVertex.key fun a b hstep => ?_
    obtain ⟨e, he, rfl, rfl, hdest⟩ := hstep
    rw [← h.links_eq]
    exact ⟨e, he, by rw [Edge.link, hdest, map_none]⟩

theorem plain_dst (hlink : ⟨a, b, none⟩ ∈ links) : b.vertexType ≠ .node := by
  generalize hl : (⟨a, b, none⟩ : Link) = l at hlink
  cases h.typed l hlink with
  | toClaim _ hclaim =>
    cases hl
    simp [hclaim]
  | toVolume _ hvolume =>
    cases hl
    simp [hvolume]
  | toNode | toPod => cases hl

theorem hasPath_iff {start node : NamedVertex} (hstart : start ∈ g.dag.nodes)
    (hnode : node ∈ g.dag.nodes) (hnodeType : node.key.vertexType = .node) (htype : start.key.vertexType ≠ .node) :
    g.dag.HasPath node.id start ↔ LinkPath links start.key node.key := by
  constructor
  · rintro ⟨t, hleads, hhits | hid⟩
    · have ht : t ∈ g.dag.nodes := by
        rcases hleads.cases_tail with rfl | ⟨b, -, e, he, -, rfl, -⟩
        · exact hstart
        · exact (h.sound.valid.ends e he).2
      exact ⟨t.key, (h.reach_iff hstart).mpr ⟨t, ht, rfl, hleads⟩, (h.hits_iff ht hnode).mp hhits⟩
    · -- links without a destination do not lead to nodes
      exfalso
      rcases hleads.cases_tail with rfl | ⟨b, -, e, he, -, rfl, hdest⟩
      · rw [h.sound.valid.ids t hstart node hnode hid] at htype
        exact htype hnodeType
      · obtain ⟨-, hdst⟩ := h.sound.valid.ends e he
        rw [← h.sound.valid.ids e.dst hdst node hnode hid] at hnodeType
        refine h.plain_dst (a := e.src.key) ?_ hnodeType
        rw [← h.links_eq]
        exact ⟨e, he, by rw [Edge.link, hdest, map_none]⟩
  · rintro ⟨key, hreach, hlink⟩
    obtain ⟨t, ht, rfl, hleads⟩ := (h.reach_iff hstart).mp hreach
    exact ⟨t, hleads, .inl ((h.hits_iff ht hnode).mpr hlink)⟩

theorem live_of_linkPath (hpath : LinkPath links start node) :
    (∃ v, g.getVertex start = some v) ∧ ∃ v, g.getVertex node = some v := by
  obtain ⟨t, hreach, _, hlink⟩ := hpath
  have hsrc {l : Link} (hl : l ∈ links) : ∃ v, g.getVertex l.src = some v := by
    rw [← h.links_eq] at hl
    obtain ⟨e, he, rfl⟩ := hl
    exact ⟨e.src, (h.sound.live _ _).mpr ⟨(h.sound.valid.ends e he).1, rfl⟩⟩
  constructor
  · rcases hreach.cases_head with rfl | ⟨b, hfirst, -⟩
    · exact hsrc hlink
    · exact hsrc hfirst
  · rw [← h.links_eq] at hlink
    obtain ⟨e, he, hlink⟩ := hlink
    obtain ⟨d, hd, hkey⟩ := map_eq_some_iff.mp (Link.mk.inj hlink).2.2
    exact ⟨d, (h.sound.live _ _).mpr ⟨h.sound.destination_mem he hd, hkey⟩⟩

theorem hasPathFrom_iff (c : Choices) (nodeName : String) (htype : starting.vertexType ≠ .node) :
    g.hasPathFrom c nodeName starting = .ok true ↔ LinkPath links starting (nodeKey nodeName) := by
  rw [Graph.hasPathFrom]
  cases hnode : g.getVertex (nodeKey nodeName) with
  | none =>
    refine ⟨fun herror => (nomatch herror), fun hpath => ?_⟩
    obtain ⟨-, v, hv⟩ := h.live_of_linkPath hpath
    exact nomatch hnode.symm.trans hv
  | some =>
    cases hstart : g.getVertex starting with
    | none =>
      refine ⟨fun herror => (nomatch herror), fun hpath => ?_⟩
      obtain ⟨⟨v, hv⟩, -⟩ := h.live_of_linkPath hpath
      exact nomatch hstart.symm.trans hv
    | some startingVertex =>
      obtain ⟨hnodeMem, hnodeKey⟩ := (h.sound.live _ _).mp hnode
      obtain ⟨hstartMem, rfl⟩ := (h.sound.live _ _).mp hstart
      rw [← hnodeKey, ← h.hasPath_iff hstartMem hnodeMem (by rw [hnodeKey]; rfl) htype]
      dsimp only
      split_ifs with hidx hfound
      · refine ⟨fun _ => ?_, fun _ => rfl⟩
        obtain ⟨index, hlookup, hhas⟩ := (Option.any_eq_true ..).mp hidx
        exact ⟨startingVertex, .refl, .inl (h.sound.soundAt _ hstartMem index hlookup _ hhas)⟩
      · exact ⟨fun _ => (Search.walk_found_iff c h.sound.valid hstartMem).mp hfound, fun _ => rfl⟩
      · refine ⟨fun herror => (nomatch herror), fun hpath => absurd ?_ hfound⟩
        exact (Search.walk_found_iff c h.sound.valid hstartMem).mpr hpath

end Linked

namespace Objects
variable {objects : Objects} {a b starting : VertexKey}

def Unique (objects : Objects) : Prop :=
  ∀ object ∈ objects, ∀ object' ∈ objects, object.key = object'.key → object = object'

theorem Unique.delete (h : Unique objects) (key : VertexKey) : Unique (objects.delete key) := by
  intro object hobj object' hobj'
  exact h object (mem_of_mem_filter hobj) object' (mem_of_mem_filter hobj')

theorem Unique.add (h : Unique objects) (object : Object) : Unique (objects.add object) := by
  have hne {other : Object} (hother : other ∈ objects.delete object.key) : other.key ≠ object.key :=
    of_decide_eq_true (mem_filter.mp hother).2
  intro first hfirst second hsnd hkey
  rcases mem_cons.mp hfirst with rfl | hfirst <;> rcases mem_cons.mp hsnd with rfl | hsnd
  · rfl
  · exact absurd hkey.symm (hne hsnd)
  · exact absurd hkey (hne hfirst)
  · exact h.delete _ first hfirst second hsnd hkey

theorem unique_current (calls : List Call) : Unique (current calls) := by
  induction calls using List.reverseRecOn with
  | nil => exact fun _ hobj => absurd hobj not_mem_nil
  | append_singleton _ call ih =>
    rw [current, foldl_append, foldl_cons, foldl_nil]
    cases call with
    | addPod | addPV | addVolumeAttachment | setNodeConfigMap => exact ih.add _
    | deletePod | deletePV | deleteVolumeAttachment => exact ih.delete _

theorem plain_link (h : ⟨a, b, none⟩ ∈ objects.links) :
    ∃ pv claim, .volume pv ∈ objects ∧ pv.claimRef = some claim ∧ ((a = pvKey pv.name ∧ b = ⟨.pvc, claim.1, claim.2⟩) ∨
        ∃ namespace_ name, (namespace_, name, true) ∈ pv.secrets ∧ a = ⟨.secret, namespace_, name⟩ ∧
          b = pvKey pv.name) := by
  obtain ⟨_, hobj, hrec⟩ := h
  cases hrec with
  | claim hclaim => exact ⟨_, _, hobj, hclaim, .inl ⟨rfl, rfl⟩⟩
  | volumeSecret hclaim hsecret => exact ⟨_, _, hobj, hclaim, .inr ⟨_, _, hsecret, rfl, rfl⟩⟩

theorem eq_of_claim_reach {namespace_ name : String} {t : VertexKey}
    (h : Relation.ReflTransGen (fun a b => ⟨a, b, none⟩ ∈ objects.links) ⟨.pvc, namespace_, name⟩ t) :
    t = ⟨.pvc, namespace_, name⟩ := by
  rcases h.cases_head with heq | ⟨b, hlink, -⟩
  · exact heq.symm
  · obtain ⟨_, _, -, -, ⟨hkey, -⟩ | ⟨_, _, -, hkey, -⟩⟩ := plain_link hlink
    · cases hkey
    · cases hkey

theorem claim_link {namespace_ name nodeName : String} {dst : VertexKey}
    (h : ⟨⟨.pvc, namespace_, name⟩, dst, some (nodeKey nodeName)⟩ ∈ objects.links) :
    ∃ pod, .pod pod ∈ objects ∧ pod.nodeName = nodeName ∧ pod.References ⟨.pvc, namespace_, name⟩ := by
  obtain ⟨_, hobj, hrec⟩ := h
  generalize hdest : nodeKey nodeName = node at hrec
  cases hrec with
  | reference href => exact ⟨_, hobj, (VertexKey.mk.inj hdest).2.2.symm, href⟩

theorem linkPath_iff (hunique : Unique objects) {nodeName : String} (htype : starting.vertexType ≠ .pod) :
    LinkPath objects.links starting (nodeKey nodeName) ↔ objects.Authorized nodeName starting := by
  constructor
  · rintro ⟨t, hreach, _, hlink⟩
    rcases hreach.cases_head with rfl | ⟨b, hfirst, hrest⟩
    · obtain ⟨object, hobj, hrec⟩ := hlink
      generalize hdest : nodeKey nodeName = node at hrec
      have hname {name : String} (h : nodeKey nodeName = nodeKey name) : name = nodeName :=
        (VertexKey.mk.inj h).2.2.symm
      cases hrec with
      | binding => exact absurd rfl htype
      | reference href => exact .reference hobj (hname hdest) href
      | attachment hne =>
        cases hname hdest
        exact .attachment hobj hne
      | configSource hne hne' =>
        cases hname hdest
        exact .configSource hobj hne hne'
    · obtain ⟨pv, claim, hpv, hclaim, ⟨rfl, rfl⟩ | ⟨_, name, hsecret, rfl, rfl⟩⟩ := plain_link hfirst
      · cases eq_of_claim_reach hrest
        obtain ⟨pod, hpod, hnode, href⟩ := claim_link hlink
        exact .volume hpod hnode hpv hclaim href
      · rcases hrest.cases_head with rfl | ⟨b, hsnd, hthird⟩
        · obtain ⟨object, hobj, hrec⟩ := hlink
          generalize hsrc : pvKey pv.name = src at hrec
          cases hrec with
          | reference href =>
            have htypes := href.vertexType
            rw [← hsrc] at htypes
            simp [pvKey] at htypes
          | _ => cases hsrc
        · obtain ⟨_, _, hpv', hclaim', ⟨hkey, rfl⟩ | ⟨_, _, -, hkey, -⟩⟩ := plain_link hsnd
          · -- both links are of the volume of that name
            cases hunique _ hpv _ hpv' hkey
            cases hclaim.symm.trans hclaim'
            cases eq_of_claim_reach hthird
            obtain ⟨pod, hpod, hnode, href⟩ := claim_link hlink
            exact .volumeSecret hpod hnode hpv hclaim href hsecret
          · cases hkey
  · intro hauthorized
    cases hauthorized with
    | reference hpod hnode href =>
      subst hnode
      exact ⟨_, .refl, _, _, hpod, .reference href⟩
    | volume hpod hnode hpv hclaim href =>
      subst hnode
      exact ⟨_, .single ⟨_, hpv, .claim hclaim⟩, _, _, hpod, .reference href⟩
    | volumeSecret hpod hnode hpv hclaim href hsecret =>
      subst hnode
      refine ⟨_, .tail (.single ⟨_, hpv, .volumeSecret hclaim hsecret⟩) ⟨_, hpv, .claim hclaim⟩, ?_⟩
      exact ⟨_, _, hpod, .reference href⟩
    | attachment hobj hne => exact ⟨_, .refl, _, _, hobj, .attachment hne⟩
    | configSource hobj hne hne' => exact ⟨_, .refl, _, _, hobj, .configSource hne hne'⟩

end Objects

/-! ### Node authorization -/

/-- After every run that leaves no stale index, a node has a path from a secret, a config map, a claim, a
service account, a volume or a volume attachment exactly if the objects that are then added authorize it. -/
theorem hasPathFrom_iff_authorized {threshold : Nat} (hthreshold : 0 < threshold) {labels : List (Choices × Call)}
    {g : Graph} (hrun : maintained.Run (Graph.new threshold) labels g) (c : Choices) (nodeName : String)
    {starting : VertexKey} (hpod : starting.vertexType ≠ .pod) (hnode : starting.vertexType ≠ .node) :
    g.hasPathFrom c nodeName starting = .ok true ↔ (current (labels.map Prod.snd)).Authorized nodeName starting := by
  rw [(maintained_linked hthreshold hrun).hasPathFrom_iff c nodeName hnode]
  exact linkPath_iff (unique_current _) hpod

/-- Neighbors in the order of their edges, identifiers that are not in use, and slices without room. -/
def inOrder : Choices where
  order := id
  newNodeID used := used.max?.getD 0 + 1
  hasRoom _ := false
  order_perm nodes := List.Perm.refl nodes
  newNodeID_fresh _ hmem := Nat.not_succ_le_self _ (le_max?_getD_of_mem hmem)

/-- Pods on two nodes share a secret; one is deleted, and its secret is the last one visited. -/
def sharedSecret : List (Choices × Call) :=
  [(inOrder, .addPod { namespace_ := "ns", name := "a", nodeName := "n", secretNames := ["s"] }),
    (inOrder, .addPod { namespace_ := "ns", name := "b", nodeName := "m", secretNames := ["s"] }),
    (inOrder, .deletePod "a" "ns")]

theorem refreshes_of_last {c : Choices} {key : VertexKey}
    (h : ∀ vertex ∈ g.getVertex key, ∀ e ∈ g.dag.edges, e.dst = vertex →
      (c.order (g.dag.visitTo vertex)).getLast? = some e.src) : g.Refreshes c key :=
  fun vertex hvertex e he hdst _ _ _ _ _ _ => .inl (h vertex hvertex e he hdst)

theorem hasPathFrom_iff_authorized_shared : ∃ g, maintained.Run (Graph.new 1) sharedSecret g ∧
      ∀ nodeName, g.hasPathFrom inOrder nodeName ⟨.secret, "ns", "s"⟩ = .ok true ↔
        (current (sharedSecret.map Prod.snd)).Authorized nodeName ⟨.secret, "ns", "s"⟩ := by
  have hallowed : System.Allowed (fun g (label : Choices × Call) => g.Maintains label.1 label.2)
      (fun g label => g.apply label.1 label.2) (Graph.new 1) sharedSecret := by
    refine ⟨refreshes_of_last ?_, refreshes_of_last ?_, refreshes_of_last ?_, trivial⟩
    · decide +kernel
    · decide +kernel
    · decide +kernel
  have hrun := System.run_foldl hallowed
  exact ⟨_, hrun, fun nodeName =>
    hasPathFrom_iff_authorized Nat.one_pos hrun inOrder nodeName (by decide) (by decide)⟩

/-- Two secrets of a pod are used on another node, too. When the pod is deleted, the index of the first one
is not recomputed: the node of the pod still has a path from it, while another pod keeps the node. -/
def staleSecret : List (Choices × Call) :=
  [(inOrder, .addPod { namespace_ := "ns", name := "a", nodeName := "n", secretNames := ["s", "t"] }),
    (inOrder, .addPod { namespace_ := "ns", name := "b", nodeName := "m", secretNames := ["s", "t"] }),
    (inOrder, .addPod { namespace_ := "ns", name := "d", nodeName := "n" }),
    (inOrder, .deletePod "a" "ns")]

theorem hasPathFrom_stale : ∃ g, calls.Run (Graph.new 1) staleSecret g ∧
      g.hasPathFrom inOrder "n" ⟨.secret, "ns", "s"⟩ = .ok true ∧
      ¬ (current (staleSecret.map Prod.snd)).Authorized "n" ⟨.secret, "ns", "s"⟩ := by
  refine ⟨_, System.run_foldl ⟨trivial, trivial, trivial, trivial, trivial⟩, by decide +kernel, ?_⟩
  have hobjects : current (staleSecret.map Prod.snd) = [.pod { namespace_ := "ns", name := "d", nodeName := "n" },
        .pod { namespace_ := "ns", name := "b", nodeName := "m", secretNames := ["s", "t"] }] := by
    decide +kernel
  rw [hobjects]
  intro hauthorized
  cases hauthorized with
  | reference hpod hnode href =>
    simp only [mem_cons, Object.pod.injEq, not_mem_nil, or_false] at hpod
    rcases hpod with rfl | rfl
    · exact absurd href.2.2 not_mem_nil
    · exact absurd hnode (by decide)
  | volumeSecret _ _ hpv => simp at hpv

end LeanKube.NodeAuth
