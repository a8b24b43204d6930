import LeanKube.NodeGraphInvariant

/-! The edges of the node authorizer's graph, told by the objects at their ends: what each operation does to
this set of links. -/

namespace LeanKube.NodeAuth
open List Graph Option NamedVertex Edge

/-! ### New vertices and edges -/

variable {g : Graph} {e : Edge}

theorem Sound.getOrCreateVertex (h : Sound g) (c : Choices) (key : VertexKey) :
    ∃ g' v, g.getOrCreateVertex c key = (g', v) ∧ Sound g' ∧ g'.dag.edges = g.dag.edges ∧
      (∀ w ∈ g.dag.nodes, w ∈ g'.dag.nodes) ∧ v ∈ g'.dag.nodes ∧ v.key = key := by
  rw [Graph.getOrCreateVertex]
  cases hvertex : g.getVertex key with
  | some vertex =>
    obtain ⟨hnode, hkey⟩ := (h.live key vertex).mp hvertex
    exact ⟨g, vertex, rfl, h, rfl, fun v hv => hv, hnode, hkey⟩
  | none =>
    simp only [createVertex, Dag.addNode]
    generalize hid : c.newNodeID (g.dag.nodes.map NamedVertex.id) = id
    have hfresh (v : NamedVertex) (hv : v ∈ g.dag.nodes) : v.id ≠ id := by
      intro heq
      refine c.newNodeID_fresh (g.dag.nodes.map NamedVertex.id) ?_
      rw [hid, ← heq]
      exact mem_map_of_mem hv
    have hnodes (v : NamedVertex) : v ∈ g.dag.nodes ++ [⟨key, id⟩] ↔ v ∈ g.dag.nodes ∨ v = ⟨key, id⟩ := by
      rw [mem_append, mem_singleton]
    refine ⟨_, _, rfl, ⟨⟨⟨?_, ?_, h.valid.simple⟩, ?_, h.grounded, ?_, h.threshold⟩, ?_⟩, rfl,
      fun v hv => (hnodes v).mpr (.inl hv), (hnodes _).mpr (.inr rfl), rfl⟩
    · intro v hv w hw hvw
      rcases (hnodes v).mp hv with hv | rfl <;> rcases (hnodes w).mp hw with hw | rfl
      · exact h.valid.ids v hv w hw hvw
      · exact absurd hvw (hfresh v hv)
      · exact absurd hvw.symm (hfresh w hw)
      · rfl
    · intro e he
      obtain ⟨hsrc, hdst⟩ := h.valid.ends e he
      exact ⟨(hnodes _).mpr (.inl hsrc), (hnodes _).mpr (.inl hdst)⟩
    · intro k v
      rw [GoMap.lookup_insert_ite, hnodes]
      split_ifs with hk
      · rw [hk, some_inj]
        refine ⟨fun heq => heq ▸ ⟨.inr rfl, rfl⟩, fun ⟨hv, hkey⟩ => ?_⟩
        rcases hv with hv | rfl
        · exact nomatch hvertex.symm.trans ((h.live key v).mpr ⟨hv, hkey⟩)
        · rfl
      · rw [h.live]
        refine ⟨fun ⟨hv, hkey⟩ => ⟨.inl hv, hkey⟩, fun ⟨hv, hkey⟩ => ⟨hv.resolve_right ?_, hkey⟩⟩
        rintro rfl
        exact hk hkey.symm
    · intro i index hidx
      obtain ⟨⟨v, hv, hvid⟩, hcur⟩ := h.indexed i index hidx
      exact ⟨⟨v, (hnodes v).mpr (.inl hv), hvid⟩, hcur⟩
    · intro v hv index hidx
      rcases (hnodes v).mp hv with hv | rfl
      · exact h.soundAt v hv index hidx
      · obtain ⟨⟨v, hv, hvid⟩, -⟩ := h.indexed id index hidx
        exact absurd hvid (hfresh v hv)

theorem Edge.joins_iff {dag : Dag} (h : dag.Valid) (he : e ∈ dag.edges) {x y : NamedVertex}
    (hx : x ∈ dag.nodes) (hy : y ∈ dag.nodes) : e.joins x y ↔ e.src = x ∧ e.dst = y ∨ e.src = y ∧ e.dst = x := by
  obtain ⟨hsrc, hdst⟩ := h.ends e he
  simp only [joins, Bool.or_eq_true, Bool.and_eq_true, decide_eq_true_eq, h.id_inj hsrc hx, h.id_inj hdst hy,
    h.id_inj hsrc hy, h.id_inj hdst hx]

theorem Sound.setEdge (h : Sound g) (hsrc : e.src ∈ g.dag.nodes) (hdst : e.dst ∈ g.dag.nodes)
    (hpair : ∀ f ∈ g.dag.edges, f.joins e.src e.dst → f = e) (hground : g.dag.Grounded e) :
    Sound (g.setEdge e) ∧ ∀ f, f ∈ (g.setEdge e).dag.edges ↔ f ∈ g.dag.edges ∨ f = e := by
  have hedges (f : Edge) : f ∈ (g.setEdge e).dag.edges ↔ f ∈ g.dag.edges ∨ f = e := by
    rw [Graph.setEdge, Dag.setEdge, mem_append, mem_filter, mem_singleton, Bool.not_eq_true']
    refine ⟨fun hf => hf.imp_left And.left, fun hf => ?_⟩
    by_cases heq : f = e
    · exact .inr heq
    · left
      refine ⟨hf.resolve_right heq, Bool.eq_false_iff.mpr fun hjoins => heq ?_⟩
      exact hpair f (hf.resolve_right heq) hjoins
  refine ⟨⟨⟨⟨h.valid.ids, ?_, ?_⟩, h.live, ?_, h.indexed, h.threshold⟩, ?_⟩, hedges⟩
  · intro f hf
    rcases (hedges f).mp hf with hf | rfl
    · exact h.valid.ends f hf
    · exact ⟨hsrc, hdst⟩
  · intro f hf f' hf' hjoins
    rcases (hedges f).mp hf with hold | rfl <;> rcases (hedges f').mp hf' with hold' | rfl
    · exact h.valid.simple f hold f' hold' hjoins
    · -- the new edge joins the ends of an old one
      refine (hpair f hold ?_).symm
      simp only [joins, Bool.or_eq_true, Bool.and_eq_true, decide_eq_true_eq] at hjoins ⊢
      exact hjoins.imp (fun h => ⟨h.1.symm, h.2.symm⟩) fun h => ⟨h.2.symm, h.1.symm⟩
    · exact hpair f' hold' hjoins
    · rfl
  · intro f hf
    have hold : g.dag.Grounded f := by
      rcases (hedges f).mp hf with hf | rfl
      · exact h.grounded f hf
      · exact hground
    exact hold.mono fun f' hf' _ _ _ => (hedges f').mpr (.inl hf')
  · intro v hv index hidx i hi
    obtain ⟨f, hf, hhits⟩ := h.soundAt v hv index hidx i hi
    exact ⟨f, (hedges f).mpr (.inl hf), hhits⟩

/-! ### `deleteEdges` -/

theorem Dag.degree_eq_zero_iff (dag : Dag) (v : NamedVertex) : dag.degree v = 0 ↔ ∀ e ∈ dag.edges, ¬ e.touches v := by
  rw [degree, length_eq_zero_iff, filter_eq_nil_iff]

namespace Graph

/-- What is left when the edges from some vertices are removed, and what is recorded for these vertices. -/
structure EdgesDeleted (g : Graph) (toVert : NamedVertex) (vertices : List NamedVertex)
    (acc : Graph × List NamedVertex × List NamedVertex) : Prop where
  graph : acc.1 = { g with dag := { g.dag with edges := acc.1.dag.edges } }
  edges : ∀ e, e ∈ acc.1.dag.edges ↔ e ∈ g.dag.edges ∧ ∀ v ∈ vertices, ¬ e.joins v toVert
  recorded : ∀ v ∈ vertices, v ∈ acc.2.1 ∨ v ∈ acc.2.2
  orphaned : ∀ v ∈ acc.2.1, v ∈ vertices ∧ ∀ e ∈ acc.1.dag.edges, ¬ e.touches v

theorem EdgesDeleted.snoc {g : Graph} {toVert v : NamedVertex} {vertices : List NamedVertex}
    {acc : Graph × List NamedVertex × List NamedVertex} (h : EdgesDeleted g toVert vertices acc) :
    EdgesDeleted g toVert (vertices ++ [v]) (deleteEdge toVert acc v) := by
  obtain ⟨g', remove, _⟩ := acc
  have hgraph : { g' with dag := g'.dag.removeEdge v toVert } =
      { g with dag := { g.dag with edges := (g'.dag.removeEdge v toVert).edges } } := by
    obtain ⟨edges, rfl⟩ : ∃ edges, g' = { g with dag := { g.dag with edges } } := ⟨_, h.graph⟩
    rfl
  have hedges (e : Edge) : e ∈ (g'.dag.removeEdge v toVert).edges ↔
      e ∈ g.dag.edges ∧ ∀ w ∈ vertices ++ [v], ¬ e.joins w toVert := by
    rw [Dag.removeEdge, mem_filter, h.edges, and_assoc, forall_mem_append, forall_mem_singleton,
      Bool.not_eq_true', Bool.not_eq_true]
  have horphaned (w : NamedVertex) (hw : w ∈ remove) : w ∈ vertices ++ [v] ∧
      ∀ e ∈ (g'.dag.removeEdge v toVert).edges, ¬ e.touches w := by
    obtain ⟨hmem, htch⟩ := h.orphaned w hw
    exact ⟨mem_append_left _ hmem, fun e he => htch e (mem_of_mem_filter he)⟩
  by_cases hdeg : (g'.dag.removeEdge v toVert).degree v = 0
  · rw [deleteEdge, if_pos hdeg]
    refine ⟨hgraph, hedges, ?_, ?_⟩
    · intro w hw
      rw [mem_append, mem_singleton] at hw
      rcases hw with hw | rfl
      · exact (h.recorded w hw).imp_left fun hw => mem_append_left _ hw
      · exact .inl (mem_append_right _ (mem_singleton_self w))
    · intro w hw
      rw [mem_append, mem_singleton] at hw
      rcases hw with hw | rfl
      · exact horphaned w hw
      · exact ⟨mem_append_right _ (mem_singleton_self w), (Dag.degree_eq_zero_iff _ w).mp hdeg⟩
  · rw [deleteEdge, if_neg hdeg]
    refine ⟨hgraph, hedges, ?_, horphaned⟩
    intro w hw
    rw [mem_append, mem_singleton] at hw
    rcases hw with hw | rfl
    · exact (h.recorded w hw).imp_right fun hw => mem_append_left _ hw
    · exact .inr (mem_append_right _ (mem_singleton_self w))

theorem edgesDeleted_foldl (g : Graph) (toVert : NamedVertex) (vertices : List NamedVertex) :
    EdgesDeleted g toVert vertices (vertices.foldl (deleteEdge toVert) (g, [], [])) := by
  induction vertices using List.reverseRecOn with
  | nil => exact ⟨rfl, by simp, by simp, by simp⟩
  | append_singleton _ _ ih =>
    rw [foldl_append, foldl_cons, foldl_nil]
    exact ih.snoc

end Graph

theorem SoundAt.mono {g' : Graph} {v : NamedVertex} (h : SoundAt g v)
    (hidx : ∀ index, g'.destinationEdgeIndex.lookup v.id = some index → g.destinationEdgeIndex.lookup v.id = some index)
    (hedges : ∀ e ∈ g.dag.edges, e.src = v → e ∈ g'.dag.edges) : SoundAt g' v := by
  intro index hlookup i hi
  obtain ⟨e, he, hsrc, hhits⟩ := h index (hidx index hlookup) i hi
  exact ⟨e, hedges e he hsrc, hsrc, hhits⟩

theorem Sound.deleteEdges (h : Sound g) (c : Choices) {fromType : VertexType}
    (hpod : fromType ≠ .pod) (toKey : VertexKey) :
    Sound (g.deleteEdges c fromType toKey) ∧ ∀ e, e ∈ (g.deleteEdges c fromType toKey).dag.edges ↔
      e ∈ g.dag.edges ∧ ¬ (e.src.key.vertexType = fromType ∧ e.dst.key = toKey) := by
  cases hvertex : g.getVertex toKey with
  | none =>
    rw [Graph.deleteEdges, hvertex]
    refine ⟨h, fun e => ⟨fun he => ⟨he, fun hkey => ?_⟩, And.left⟩⟩
    exact nomatch hvertex.symm.trans ((h.live toKey e.dst).mpr ⟨(h.valid.ends e he).2, hkey.2⟩)
  | some toVert =>
    obtain ⟨hnode, hkey⟩ := (h.live toKey toVert).mp hvertex
    generalize hfrom : (c.order (g.dag.visitTo toVert)).filter (fun v => v.key.vertexType = fromType) = from_
    have hmem (v : NamedVertex) : v ∈ from_ ↔
        (∃ e ∈ g.dag.edges, e.dst = toVert ∧ e.src = v) ∧ v.key.vertexType = fromType := by
      rw [← hfrom, mem_filter, (c.order_perm _).mem_iff, h.valid.mem_visitTo hnode, decide_eq_true_iff]
    have hdeleted := edgesDeleted_foldl g toVert from_
    generalize hacc : from_.foldl (deleteEdge toVert) (g, [], []) = acc at hdeleted
    obtain ⟨g₁, remove, recompute⟩ := acc
    have hdel : g.deleteEdges c fromType toKey =
        recompute.foldl recomputeDestinationIndex (remove.foldl removeVertex g₁) := by
      rw [Graph.deleteEdges, hvertex]
      simp only [hfrom, hacc]
    have hedges (e : Edge) : e ∈ g₁.dag.edges ↔
        e ∈ g.dag.edges ∧ ¬ (e.src.key.vertexType = fromType ∧ e.dst.key = toKey) := by
      rw [hdeleted.edges]
      apply and_congr_right
      intro he
      refine ⟨fun hjoins hends => ?_, fun hends v hv hjoins => hends ?_⟩
      · have hdst : e.dst = toVert := h.toWellFormed.key_inj (h.valid.ends e he).2 hnode (hends.2.trans hkey.symm)
        refine hjoins e.src ((hmem _).mpr ⟨⟨e, he, hdst, rfl⟩, hends.1⟩) ?_
        simp [joins, hdst]
      · -- the pair has the edge for which the vertex was visited, and no other
        obtain ⟨⟨f, hf, hdst, rfl⟩, htype⟩ := (hmem v).mp hv
        rw [h.valid.simple f hf e he (hdst ▸ hjoins)]
        exact ⟨htype, hdst ▸ hkey⟩
    obtain ⟨edges, rfl⟩ : ∃ edges, g₁ = { g with dag := { g.dag with edges } } := ⟨_, hdeleted.graph⟩
    have hwell : WellFormed { g with dag := { g.dag with edges } } := by
      refine ⟨⟨h.valid.ids, ?_, ?_⟩, h.live, ?_, h.indexed, h.threshold⟩
      · intro e he
        exact h.valid.ends e ((hedges e).mp he).1
      · intro e he f hf
        exact h.valid.simple e ((hedges e).mp he).1 f ((hedges f).mp hf).1
      · intro e he
        refine (h.grounded e ((hedges e).mp he).1).mono fun f hf _ hsrc _ => ?_
        exact (hedges f).mpr ⟨hf, fun hends => hpod (hends.1.symm.trans hsrc)⟩
    have hrem := removed_foldl { g with dag := { g.dag with edges } } remove
    generalize remove.foldl removeVertex _ = g₂ at hrem hdel
    have hedges₂ (e : Edge) : e ∈ g₂.dag.edges ↔ e ∈ edges := by
      rw [hrem.edges, and_iff_left_of_imp]
      exact fun he r hr => (hdeleted.orphaned r hr).2 e he
    have hwell₂ : WellFormed g₂ := by
      refine hwell.removed hrem ?_ fun e _ f hf _ _ => (hedges₂ f).mpr hf
      intro r hr
      obtain ⟨⟨e, he, -, rfl⟩, -⟩ := (hmem r).mp (hdeleted.orphaned r hr).1
      exact (h.valid.ends e he).1
    have hsound (v : NamedVertex) (hv : v ∈ g₂.dag.nodes) (hnot : v ∉ recompute) : SoundAt g₂ v := by
      obtain ⟨hvold, hids⟩ := (hrem.nodes v).mp hv
      have hfrom : v ∉ from_ := fun hfrom => (hdeleted.recorded v hfrom).elim (fun hr => hids v hr rfl) hnot
      refine (h.soundAt v hvold).mono ?_ ?_
      · intro index hidx
        rw [hrem.index] at hidx
        split_ifs at hidx
        exact hidx
      · intro e he hsrc
        rw [hedges₂, hedges]
        refine ⟨he, fun hends => hfrom ((hmem v).mpr ⟨⟨e, he, ?_, hsrc⟩, hsrc ▸ hends.1⟩)⟩
        exact h.toWellFormed.key_inj (h.valid.ends e he).2 hnode (hends.2.trans hkey.symm)
    obtain ⟨hsound, hdag⟩ := hwell₂.recomputeAll recompute hsound
    rw [hdel, hdag]
    exact ⟨hsound, fun e => (hedges₂ e).trans (hedges e)⟩

/-! ### Links -/

structure Link where
  src : VertexKey
  dst : VertexKey
  destination : Option VertexKey

def Edge.link (e : Edge) : Link := ⟨e.src.key, e.dst.key, e.destination.map NamedVertex.key⟩

def Graph.links (g : Graph) : Set Link := {l | ∃ e ∈ g.dag.edges, e.link = l}

inductive Link.Typed : Link → Prop where
  | toNode {src node : VertexKey} : src.vertexType = .pod ∨ src.vertexType = .va ∨ src.vertexType = .configMap →
      node.vertexType = .node → Typed ⟨src, node, some node⟩
  | toPod {src pod node : VertexKey} : src.vertexType = .serviceAccount ∨ src.vertexType = .secret ∨
      src.vertexType = .configMap ∨ src.vertexType = .pvc → pod.vertexType = .pod → node.vertexType = .node →
      Typed ⟨src, pod, some node⟩
  | toClaim {volume claim : VertexKey} : volume.vertexType = .pv → claim.vertexType = .pvc → Typed ⟨volume, claim, none⟩
  | toVolume {secret volume : VertexKey} : secret.vertexType = .secret → volume.vertexType = .pv →
      Typed ⟨secret, volume, none⟩

namespace Link
variable {l l' : Link}

def rank : VertexType → Nat
  | .secret | .configMap | .serviceAccount | .va => 0
  | .pv => 1
  | .pvc => 2
  | .pod => 3
  | .node => 4

theorem Typed.rank_lt (h : l.Typed) : rank l.src.vertexType < rank l.dst.vertexType := by
  cases h with
  | toNode hsrc hdst => rcases hsrc with hsrc | hsrc | hsrc <;> rw [hsrc, hdst] <;> decide
  | toPod hsrc hdst => rcases hsrc with hsrc | hsrc | hsrc | hsrc <;> rw [hsrc, hdst] <;> decide
  | toClaim hsrc hdst => rw [hsrc, hdst]; decide
  | toVolume hsrc hdst => rw [hsrc, hdst]; decide

theorem Typed.eq_of_ends (h : l.Typed) (h' : l'.Typed) (hsrc : l'.src = l.src) (hdst : l'.dst = l.dst)
    (hpod : l.dst.vertexType ≠ .pod) : l' = l := by
  cases h <;> cases h' <;> simp_all

theorem Typed.destination_node (h : l.Typed) {d : VertexKey} (hd : l.destination = some d) :
    d.vertexType = .node ∧ (l.dst.vertexType ≠ .pod → l.dst = d) := by
  cases h with
  | toNode _ hnode =>
    cases hd
    exact ⟨hnode, fun _ => rfl⟩
  | toPod _ hpod hnode =>
    cases hd
    exact ⟨hnode, fun hne => absurd hpod hne⟩
  | toClaim | toVolume => exact nomatch hd

end Link

structure Linked (g : Graph) (links : Set Link) : Prop where
  sound : Sound g
  links_eq : g.links = links
  typed : ∀ l ∈ links, l.Typed

theorem WellFormed.destination_mem (h : WellFormed g) (he : e ∈ g.dag.edges) {d : NamedVertex}
    (hd : e.destination = some d) : d ∈ g.dag.nodes := by
  obtain ⟨-, hdst | ⟨-, f, hf, -, hfdst⟩⟩ := h.grounded e he d hd
  · exact hdst ▸ (h.valid.ends e he).2
  · exact hfdst ▸ (h.valid.ends f hf).2

namespace Linked
variable {g : Graph} {links : Set Link} {c : Choices}

theorem new {threshold : Nat} (h : 0 < threshold) : Linked (new threshold) ∅ := by
  refine ⟨⟨⟨⟨?_, ?_, ?_⟩, ?_, ?_, ?_, h⟩, ?_⟩, ?_, ?_⟩ <;> simp [Graph.new, Graph.links]

variable (h : Linked g links)
include h

theorem filter {g' : Graph} {P : Link → Prop} (hsound : Sound g')
    (hedges : ∀ e, e ∈ g'.dag.edges ↔ e ∈ g.dag.edges ∧ P e.link) : Linked g' {l ∈ links | P l} := by
  refine ⟨hsound, ?_, fun l hl => h.typed l hl.1⟩
  rw [← h.links_eq]
  ext l
  constructor
  · rintro ⟨e, he, rfl⟩
    exact ⟨⟨e, ((hedges e).mp he).1, rfl⟩, ((hedges e).mp he).2⟩
  · rintro ⟨⟨e, he, rfl⟩, hlink⟩
    exact ⟨e, (hedges e).mpr ⟨he, hlink⟩, rfl⟩

theorem deleteVertex {key : VertexKey} (htype : key.vertexType ≠ .node) (href : g.Refreshes c key) :
    Linked (g.deleteVertex c key) {l ∈ links | l.src ≠ key ∧ l.dst ≠ key} := by
  obtain ⟨hsound, hedges⟩ := h.sound.deleteVertex c htype href
  exact h.filter hsound hedges

theorem deleteEdges {fromType : VertexType} (hpod : fromType ≠ .pod) (toKey : VertexKey) :
    Linked (g.deleteEdges c fromType toKey) {l ∈ links | ¬ (l.src.vertexType = fromType ∧ l.dst = toKey)} := by
  obtain ⟨hsound, hedges⟩ := h.sound.deleteEdges c hpod toKey
  exact h.filter hsound hedges

theorem recomputeDestinationIndex (n : NamedVertex) : Linked (g.recomputeDestinationIndex n) links := by
  obtain ⟨hwell, hsound⟩ := h.sound.recompute n
  refine ⟨⟨hwell, fun v hv => ?_⟩, ?_, h.typed⟩
  · rw [recomputeDestinationIndex_dag] at hv
    exact hsound v hv (.inr (h.sound.soundAt v hv))
  · rw [Graph.links, Graph.recomputeDestinationIndex_dag]
    exact h.links_eq

theorem getOrCreateVertex (c : Choices) (key : VertexKey) : ∃ g' v, g.getOrCreateVertex c key = (g', v) ∧
    Linked g' links ∧ (∀ w ∈ g.dag.nodes, w ∈ g'.dag.nodes) ∧ v ∈ g'.dag.nodes ∧ v.key = key := by
  obtain ⟨g', v, heq, hsound, hedges, hnodes, hvertex⟩ := h.sound.getOrCreateVertex c key
  refine ⟨g', v, heq, ⟨hsound, ?_, h.typed⟩, hnodes, hvertex⟩
  rw [Graph.links, hedges]
  exact h.links_eq

theorem setEdge {e : Edge} (hsrc : e.src ∈ g.dag.nodes) (hdst : e.dst ∈ g.dag.nodes)
    (hdestination : ∀ d, e.destination = some d → d ∈ g.dag.nodes) (htyped : e.link.Typed)
    (hpod : e.dst.key.vertexType = .pod → (∀ l ∈ links, l.dst = e.dst.key → l.destination = e.link.destination) ∧
      ∃ l ∈ links, l.src = e.dst.key ∧ e.link.destination = some l.dst) :
    Linked (g.setEdge e) (insert e.link links) := by
  have hwell := h.sound.toWellFormed
  have hpair (f : Edge) (hf : f ∈ g.dag.edges) (hjoins : f.joins e.src e.dst) : f = e := by
    have hlink : f.link ∈ links := h.links_eq ▸ ⟨f, hf, rfl⟩
    rcases (joins_iff hwell.valid hf hsrc hdst).mp hjoins with ⟨hfsrc, hfdst⟩ | ⟨hfsrc, hfdst⟩
    · have heq : f.link.destination = e.link.destination := by
        by_cases htype : e.dst.key.vertexType = .pod
        · exact (hpod htype).1 f.link hlink (congrArg key hfdst)
        · rw [htyped.eq_of_ends (h.typed _ hlink) (congrArg key hfsrc) (congrArg key hfdst) htype]
      have hdest : f.destination = e.destination := by
        cases hfd : f.destination with
        | none =>
          rw [link, hfd, map_none] at heq
          exact (map_eq_none_iff.mp heq.symm).symm
        | some =>
          rw [link, hfd, map_some] at heq
          obtain ⟨d', hd', hkey⟩ := map_eq_some_iff.mp heq.symm
          rw [hd', hwell.key_inj (hdestination d' hd') (hwell.destination_mem hf hfd) hkey]
      cases f
      simp_all
    · -- an edge in the other direction would lead down the order of types
      have hlt := htyped.rank_lt
      have hgt := (h.typed _ hlink).rank_lt
      simp only [link] at hlt hgt
      rw [hfsrc, hfdst] at hgt
      omega
  have hground : g.dag.Grounded e := by
    intro d hd
    have hlink : e.link.destination = some d.key := by rw [link, hd, map_some]
    obtain ⟨hnode, hend⟩ := htyped.destination_node hlink
    by_cases htype : e.dst.key.vertexType = .pod
    · obtain ⟨l, hl, hlsrc, hldst⟩ := (hpod htype).2
      rw [← h.links_eq] at hl
      obtain ⟨f, hf, rfl⟩ := hl
      have hfsrc : f.src = e.dst := hwell.key_inj (hwell.valid.ends f hf).1 hdst hlsrc
      have hfdst : f.dst = d := by
        refine hwell.key_inj (hwell.valid.ends f hf).2 (hdestination d hd) ?_
        exact some.inj (hldst.symm.trans hlink)
      exact ⟨hnode, .inr ⟨htype, f, hf, hfsrc, hfdst⟩⟩
    · exact ⟨hnode, .inl (hwell.key_inj hdst (hdestination d hd) (hend htype))⟩
  obtain ⟨hsound, hedges⟩ := h.sound.setEdge hsrc hdst hpair hground
  refine ⟨hsound, ?_, ?_⟩
  · ext l
    rw [Set.mem_insert_iff, ← h.links_eq]
    constructor
    · rintro ⟨f, hf, rfl⟩
      rcases (hedges f).mp hf with hf | rfl
      · exact .inr ⟨f, hf, rfl⟩
      · exact .inl rfl
    · rintro (rfl | ⟨f, hf, rfl⟩)
      · exact ⟨e, (hedges e).mpr (.inr rfl), rfl⟩
      · exact ⟨f, (hedges f).mpr (.inl hf), rfl⟩
  · intro l hl
    rcases hl with rfl | hl
    · exact htyped
    · exact h.typed l hl

end Linked
end LeanKube.NodeAuth
