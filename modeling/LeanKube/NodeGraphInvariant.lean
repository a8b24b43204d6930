import LeanKube.NodeGraphSearch

/-! What the operations of the node authorizer's graph keep: a graph whose vertices, edges and indexes
belong together, and indexes that contain only destinations of edges. -/

namespace LeanKube.NodeAuth
open List GoMap Option NamedVertex Edge Graph IntSet

/-! ### Indexes -/

namespace IntSet
variable (s : IntSet)

def Current : Prop := ∀ i v, s.members.lookup i = some v → v = s.currentGeneration

theorem foldl_mark (ids : List Nat) : (ids.foldl mark s).currentGeneration = s.currentGeneration ∧
      ∀ i, (ids.foldl mark s).members.lookup i = if i ∈ ids then some s.currentGeneration else s.members.lookup i := by
  induction ids generalizing s with
  | nil => simp
  | cons id ids ih =>
    obtain ⟨hgen, hlookup⟩ := ih (s.mark id)
    refine ⟨hgen, fun i => ?_⟩
    rw [foldl_cons, hlookup, mark, lookup_insert_ite]
    by_cases hi : i ∈ ids <;> by_cases hid : i = id <;> simp [hi, hid]

theorem current_sweep : s.sweep.Current := by
  intro i v hv
  rw [sweep, lookup_filterValues, filter_eq_some_iff] at hv
  exact of_decide_eq_true hv.2

theorem has_sweep_foldl_mark {s : IntSet} (hold : ∀ i v, s.members.lookup i = some v → v ≠ s.currentGeneration)
    (ids : List Nat) (i : Nat) : ((ids.foldl mark s).sweep).has i ↔ i ∈ ids := by
  obtain ⟨hgen, hlookup⟩ := foldl_mark s ids
  rw [has, sweep, lookup_filterValues, hlookup, hgen]
  by_cases hi : i ∈ ids
  · simp [hi]
  · cases hmember : s.members.lookup i with
    | none => simp [hi]
    | some v => simp [hi, hold i v hmember]

theorem startNewGeneration_old {s : IntSet} (h : s.Current) :
    ∀ i v, s.startNewGeneration.members.lookup i = some v → v ≠ s.startNewGeneration.currentGeneration := by
  intro i v hv heq
  have hcur : s.currentGeneration + 1 = s.currentGeneration := heq.symm.trans (h i v hv)
  have hnat := congrArg UInt8.toNat hcur
  rw [UInt8.toNat_add] at hnat
  have hone : (1 : UInt8).toNat = 1 := rfl
  omega

end IntSet

/-! ### Well-formed graphs -/

/-- A destination is a Kubernetes node; it is at the end of its edge, or at the end of the edge of the pod
that the edge leads to. -/
def Dag.Grounded (dag : Dag) (e : Edge) : Prop :=
  ∀ d, e.destination = some d → d.key.vertexType = .node ∧
    (e.dst = d ∨ e.dst.key.vertexType = .pod ∧ ∃ f ∈ dag.edges, f.src = e.dst ∧ f.dst = d)

theorem Dag.Grounded.mono {dag dag' : Dag} {e : Edge} (h : dag.Grounded e) (hedges : ∀ f ∈ dag.edges,
    f.src = e.dst → f.src.key.vertexType = .pod → e.destination = some f.dst → f ∈ dag'.edges) : dag'.Grounded e := by
  intro d hd
  refine ⟨(h d hd).1, (h d hd).2.imp_right fun ⟨hpod, f, hf, hsrc, hdst⟩ => ?_⟩
  exact ⟨hpod, f, hedges f hf hsrc (hsrc ▸ hpod) (hdst ▸ hd), hsrc, hdst⟩

structure WellFormed (g : Graph) : Prop where
  valid : g.dag.Valid
  live : ∀ k v, g.vertices.lookup k = some v ↔ v ∈ g.dag.nodes ∧ v.key = k
  grounded : ∀ e ∈ g.dag.edges, g.dag.Grounded e
  indexed : ∀ i index, g.destinationEdgeIndex.lookup i = some index → (∃ v ∈ g.dag.nodes, v.id = i) ∧ index.Current
  threshold : 0 < g.destinationEdgeThreshold

def SoundAt (g : Graph) (v : NamedVertex) : Prop :=
  ∀ index, g.destinationEdgeIndex.lookup v.id = some index → ∀ i, index.has i → g.dag.Hits i v

structure Sound (g : Graph) : Prop extends WellFormed g where
  soundAt : ∀ v ∈ g.dag.nodes, SoundAt g v

variable {g : Graph}

theorem WellFormed.key_inj (h : WellFormed g) {v w : NamedVertex} (hv : v ∈ g.dag.nodes)
    (hw : w ∈ g.dag.nodes) (hkey : v.key = w.key) : v = w :=
  some.inj (((h.live _ v).mpr ⟨hv, rfl⟩).symm.trans ((h.live _ w).mpr ⟨hw, hkey.symm⟩))

/-! ### `recomputeDestinationIndex` -/

namespace Graph
variable {g : Graph} {n v : NamedVertex}

def destinations (g : Graph) (n : NamedVertex) : List Nat :=
  (g.dag.visitFrom n).filterMap fun dest => ((g.dag.edgeBetween n dest).bind Edge.destination).map NamedVertex.id

theorem markDestinations_eq (index : IntSet) : g.markDestinations n index = (g.destinations n).foldl mark index := by
  rw [markDestinations, destinations, foldl_filterMap]
  congr 1
  funext index dest
  cases (g.dag.edgeBetween n dest).bind destination <;> rfl

theorem mem_destinations (h : g.dag.Valid) (hn : n ∈ g.dag.nodes) {i : Nat} (hi : i ∈ g.destinations n) :
    g.dag.Hits i n := by
  obtain ⟨_, hdest, hid⟩ := mem_filterMap.mp hi
  obtain ⟨e, he, rfl, rfl⟩ := (h.mem_visitFrom hn).mp hdest
  rw [h.edgeBetween he, bind_some, map_eq_some_iff] at hid
  obtain ⟨d, hd, rfl⟩ := hid
  exact ⟨e, he, rfl, d, hd, rfl⟩

theorem recomputeDestinationIndex_cases (hcur : ∀ i index, g.destinationEdgeIndex.lookup i = some index →
    index.Current) (n : NamedVertex) :
    g.recomputeDestinationIndex n = { g with destinationEdgeIndex := g.destinationEdgeIndex.erase n.id } ∨
      g.destinationEdgeThreshold ≤ g.dag.degree n ∧ ∃ index : IntSet, index.Current ∧
        (∀ i, index.has i ↔ i ∈ g.destinations n) ∧
        g.recomputeDestinationIndex n =
          { g with destinationEdgeIndex := g.destinationEdgeIndex.insert n.id index } := by
  by_cases hdeg : g.dag.degree n < g.destinationEdgeThreshold
  · exact .inl (if_pos hdeg)
  obtain ⟨index, hold, heq⟩ : ∃ index : IntSet, (∀ i v, index.members.lookup i = some v → v ≠ index.currentGeneration) ∧
      g.recomputeDestinationIndex n =
        if (g.markDestinations n index).sweep.members.keys.card < g.destinationEdgeThreshold then
          { g with destinationEdgeIndex := g.destinationEdgeIndex.erase n.id }
        else
          { g with destinationEdgeIndex :=
              g.destinationEdgeIndex.insert n.id (g.markDestinations n index).sweep } := by
    simp only [recomputeDestinationIndex, if_neg hdeg]
    cases hlookup : g.destinationEdgeIndex.lookup n.id with
    | none => exact ⟨.new, nofun, rfl⟩
    | some old => exact ⟨old.startNewGeneration, startNewGeneration_old (hcur n.id old hlookup), rfl⟩
  rw [heq]
  split_ifs
  · exact .inl rfl
  · refine .inr ⟨Nat.le_of_not_lt hdeg, _, current_sweep _, fun i => ?_, rfl⟩
    rw [markDestinations_eq]
    exact has_sweep_foldl_mark hold _ i

theorem recomputeDestinationIndex_dag (n : NamedVertex) : (g.recomputeDestinationIndex n).dag = g.dag := by
  simp only [recomputeDestinationIndex]
  split_ifs <;> rfl

theorem destinations_congr (hid : n.id = v.id) : g.destinations n = g.destinations v := by
  simp only [destinations, Dag.visitFrom, Dag.edgeBetween, joins, hid]

theorem exists_node_of_degree (h : g.dag.Valid) (hdeg : 0 < g.dag.degree n) : ∃ v ∈ g.dag.nodes, v.id = n.id := by
  obtain ⟨e, he⟩ := exists_mem_of_length_pos hdeg
  obtain ⟨hmem, htch⟩ := mem_filter.mp he
  simp only [touches, Bool.or_eq_true, decide_eq_true_eq] at htch
  rcases htch with hid | hid
  · exact ⟨e.src, (h.ends e hmem).1, hid⟩
  · exact ⟨e.dst, (h.ends e hmem).2, hid⟩

end Graph

open Graph in
theorem WellFormed.recompute (h : WellFormed g) (n : NamedVertex) :
    WellFormed (g.recomputeDestinationIndex n) ∧
      ∀ v ∈ g.dag.nodes, n.id = v.id ∨ SoundAt g v → SoundAt (g.recomputeDestinationIndex n) v := by
  rcases recomputeDestinationIndex_cases (fun i index hidx => (h.indexed i index hidx).2) n with
    heq | ⟨hdeg, index, hcur, hhas, heq⟩
  · rw [heq]
    refine ⟨⟨h.valid, h.live, h.grounded, ?_, h.threshold⟩, ?_⟩
    · exact fun i index hidx => h.indexed i index (of_lookup_erase hidx).2
    · intro v _ hv index hidx
      obtain ⟨hid, hold⟩ := of_lookup_erase hidx
      exact hv.resolve_left (fun h => hid h.symm) index hold
  · rw [heq]
    obtain ⟨w, hw, hwid⟩ := exists_node_of_degree h.valid (h.threshold.trans_le hdeg)
    refine ⟨⟨h.valid, h.live, h.grounded, ?_, h.threshold⟩, ?_⟩
    · exact forall_insert h.indexed ⟨⟨w, hw, hwid⟩, hcur⟩
    · intro v hvnode hv index' hidx i hi
      rcases of_lookup_insert hidx with ⟨hid, rfl⟩ | ⟨hid, hold⟩
      · rw [hhas, destinations_congr hid.symm] at hi
        exact mem_destinations h.valid hvnode hi
      · exact hv.resolve_left (fun h => hid h.symm) index' hold i hi

open Graph in
/-- The indexes of some vertices are computed again, and those of the others are sound. -/
theorem WellFormed.recomputeAll (h : WellFormed g) (vertices : List NamedVertex)
    (hsound : ∀ v ∈ g.dag.nodes, v ∉ vertices → SoundAt g v) :
    Sound (vertices.foldl recomputeDestinationIndex g) ∧
      (vertices.foldl recomputeDestinationIndex g).dag = g.dag := by
  induction vertices generalizing g with
  | nil => exact ⟨⟨h, fun v hv => hsound v hv not_mem_nil⟩, rfl⟩
  | cons n _ ih =>
    have hdag := recomputeDestinationIndex_dag (g := g) n
    obtain ⟨hwell, hat⟩ := h.recompute n
    rw [foldl_cons, ← hdag]
    refine ih hwell fun v hv hnot => hat v (hdag ▸ hv) ?_
    by_cases hid : n.id = v.id
    · exact .inl hid
    · refine .inr (hsound v (hdag ▸ hv) ?_)
      rw [mem_cons, not_or]
      exact ⟨fun heq => hid (heq ▸ rfl), hnot⟩

/-! ### `removeVertex` -/

namespace Graph
variable {g : Graph}

structure Removed (g : Graph) (vertices : List NamedVertex) (g' : Graph) : Prop where
  nodes : ∀ v, v ∈ g'.dag.nodes ↔ v ∈ g.dag.nodes ∧ ∀ r ∈ vertices, v.id ≠ r.id
  edges : ∀ e, e ∈ g'.dag.edges ↔ e ∈ g.dag.edges ∧ ∀ r ∈ vertices, ¬ e.touches r
  lookup : ∀ k, g'.vertices.lookup k = if k ∈ vertices.map NamedVertex.key then none else g.vertices.lookup k
  index : ∀ i, g'.destinationEdgeIndex.lookup i =
    if i ∈ vertices.map NamedVertex.id then none else g.destinationEdgeIndex.lookup i
  threshold : g'.destinationEdgeThreshold = g.destinationEdgeThreshold

theorem removed_removeVertex (g : Graph) (r : NamedVertex) : Removed g [r] (g.removeVertex r) := by
  refine ⟨?_, ?_, ?_, ?_, rfl⟩
  · simp [removeVertex, Dag.removeNode]
  · simp [removeVertex, Dag.removeNode]
  · simp [removeVertex, lookup_erase_ite]
  · simp [removeVertex, lookup_erase_ite]

theorem Removed.trans {first second : List NamedVertex} {g' g'' : Graph} (h : Removed g first g')
    (h' : Removed g' second g'') : Removed g (first ++ second) g'' := by
  refine ⟨?_, ?_, ?_, ?_, h'.threshold.trans h.threshold⟩
  · intro v
    rw [h'.nodes, h.nodes, and_assoc, forall_mem_append]
  · intro e
    rw [h'.edges, h.edges, and_assoc, forall_mem_append]
  · intro k
    rw [h'.lookup, h.lookup, map_append]
    by_cases hfirst : k ∈ first.map key <;> by_cases hsnd : k ∈ second.map key <;>
      simp [hfirst, hsnd]
  · intro i
    rw [h'.index, h.index, map_append]
    by_cases hfirst : i ∈ first.map NamedVertex.id <;> by_cases hsnd : i ∈ second.map NamedVertex.id <;>
      simp [hfirst, hsnd]

theorem removed_foldl (g : Graph) (vertices : List NamedVertex) :
    Removed g vertices (vertices.foldl removeVertex g) := by
  induction vertices generalizing g with
  | nil => exact ⟨by simp, by simp, by simp, by simp, rfl⟩
  | cons r _ ih => exact (removed_removeVertex g r).trans (ih (g.removeVertex r))

end Graph

theorem Edge.touches_iff {dag : Dag} (h : dag.Valid) {e : Edge} (he : e ∈ dag.edges) {n : NamedVertex}
    (hn : n ∈ dag.nodes) : e.touches n ↔ e.src = n ∨ e.dst = n := by
  rw [touches, Bool.or_eq_true, decide_eq_true_iff, decide_eq_true_iff, h.id_inj (h.ends e he).1 hn,
    h.id_inj (h.ends e he).2 hn]

theorem WellFormed.removed {g' : Graph} {vertices : List NamedVertex} (h : WellFormed g)
    (hrem : Graph.Removed g vertices g') (hvertices : ∀ r ∈ vertices, r ∈ g.dag.nodes)
    (hground : ∀ e ∈ g'.dag.edges, ∀ f ∈ g.dag.edges, f.src = e.dst → e.destination = some f.dst →
      f ∈ g'.dag.edges) : WellFormed g' := by
  have hmem (v : NamedVertex) (hv : v ∈ g.dag.nodes) : v.key ∈ vertices.map key ↔ v ∈ vertices := by
    refine ⟨fun hkey => ?_, mem_map_of_mem⟩
    obtain ⟨r, hr, hkey⟩ := mem_map.mp hkey
    rwa [← h.key_inj (hvertices r hr) hv hkey]
  have hnodes (v : NamedVertex) : v ∈ g'.dag.nodes ↔ v ∈ g.dag.nodes ∧ v ∉ vertices := by
    rw [hrem.nodes]
    apply and_congr_right
    intro hv
    exact ⟨fun hids hr => hids v hr rfl, fun hnot r hr hid => hnot (h.valid.ids v hv r (hvertices r hr) hid ▸ hr)⟩
  refine ⟨⟨?_, ?_, ?_⟩, ?_, ?_, ?_, hrem.threshold ▸ h.threshold⟩
  · intro v hv w hw
    exact h.valid.ids v ((hnodes v).mp hv).1 w ((hnodes w).mp hw).1
  · intro e he
    obtain ⟨hmem, htch⟩ := (hrem.edges e).mp he
    obtain ⟨hsrc, hdst⟩ := h.valid.ends e hmem
    refine ⟨(hnodes _).mpr ⟨hsrc, fun hr => htch _ hr ?_⟩, (hnodes _).mpr ⟨hdst, fun hr => htch _ hr ?_⟩⟩
    · exact (touches_iff h.valid hmem hsrc).mpr (.inl rfl)
    · exact (touches_iff h.valid hmem hdst).mpr (.inr rfl)
  · intro e he f hf
    exact h.valid.simple e ((hrem.edges e).mp he).1 f ((hrem.edges f).mp hf).1
  · intro k v
    rw [hrem.lookup, hnodes]
    by_cases hk : k ∈ vertices.map key
    · rw [if_pos hk]
      refine ⟨fun h => (nomatch h), fun ⟨⟨hv, hnot⟩, hkey⟩ => ?_⟩
      exact absurd ((hmem v hv).mp (hkey ▸ hk)) hnot
    · rw [if_neg hk, h.live]
      refine ⟨fun ⟨hv, hkey⟩ => ⟨⟨hv, fun hr => hk ?_⟩, hkey⟩, fun ⟨⟨hv, _⟩, hkey⟩ => ⟨hv, hkey⟩⟩
      exact hkey ▸ (hmem v hv).mpr hr
  · intro e he
    exact (h.grounded e ((hrem.edges e).mp he).1).mono fun f hf hsrc _ hdest => hground e he f hf hsrc hdest
  · intro i index hidx
    rw [hrem.index] at hidx
    split_ifs at hidx with hi
    obtain ⟨⟨v, hv, rfl⟩, hcur⟩ := h.indexed i index hidx
    exact ⟨⟨v, (hnodes v).mpr ⟨hv, fun hr => hi (mem_map_of_mem hr)⟩, rfl⟩, hcur⟩

/-! ### `deleteVertex` -/

theorem Dag.eq_of_degree_one {dag : Dag} {n : NamedVertex} {e f : Edge} (hdeg : dag.degree n = 1)
    (he : e ∈ dag.edges) (hf : f ∈ dag.edges) (hen : e.touches n) (hfn : f.touches n) : e = f := by
  obtain ⟨_, honly⟩ := length_eq_one_iff.mp hdeg
  have he' : e ∈ dag.edges.filter fun e => e.touches n := mem_filter.mpr ⟨he, hen⟩
  have hf' : f ∈ dag.edges.filter fun e => e.touches n := mem_filter.mpr ⟨hf, hfn⟩
  rw [honly, mem_singleton] at he' hf'
  rw [he', hf']

namespace Graph
variable (c : Choices) (g : Graph) (vertex : NamedVertex)

theorem foldl_visitUpstream (neighbors : List NamedVertex) (acc : Neighbors) :
    (neighbors.foldl (g.visitUpstream c) acc).neighborsToRemove =
      acc.neighborsToRemove ++ neighbors.filter fun neighbor => g.dag.degree neighbor = 1 := by
  induction neighbors generalizing acc with
  | nil => simp
  | cons neighbor _ ih =>
    rw [foldl_cons, ih, visitUpstream]
    by_cases hdeg : g.dag.degree neighbor = 1 <;> simp [hdeg]

theorem mem_neighborsToRemove (r : NamedVertex) : r ∈ (g.neighborsOf c vertex).neighborsToRemove ↔
    (r ∈ g.dag.visitFrom vertex ∨ r ∈ g.dag.visitTo vertex) ∧ g.dag.degree r = 1 := by
  rw [neighborsOf, foldl_visitUpstream, mem_append, mem_filter, mem_filter,
    (c.order_perm _).mem_iff, (c.order_perm _).mem_iff, decide_eq_true_iff, ← or_and_right]

theorem mem_neighborsToRecompute {u : NamedVertex} (hlast : (c.order (g.dag.visitTo vertex)).getLast? = some u)
    (hdeg : g.dag.degree u ≠ 1) : u ∈ (g.neighborsOf c vertex).neighborsToRecompute := by
  obtain ⟨_, hinit⟩ := List.getLast?_eq_some_iff.mp hlast
  rw [neighborsOf, hinit, foldl_append, foldl_cons, foldl_nil, visitUpstream, if_neg hdeg]
  exact mem_append_right _ (mem_singleton_self u)

/-- A deletion leaves no stale index: a vertex with an edge to the deleted one is removed with it or visited
last, or its index does not have the destination of the edge, or another edge has that destination. -/
def Refreshes (key : VertexKey) : Prop :=
  ∀ vertex, g.getVertex key = some vertex → ∀ e ∈ g.dag.edges, e.dst = vertex → g.dag.degree e.src ≠ 1 →
    ∀ index, g.destinationEdgeIndex.lookup e.src.id = some index → ∀ d, e.destination = some d → index.has d.id →
      (c.order (g.dag.visitTo vertex)).getLast? = some e.src ∨
        ∃ f ∈ g.dag.edges, f.src = e.src ∧ f.dst ≠ vertex ∧ f.destination = e.destination

end Graph

theorem Sound.deleteVertex (h : Sound g) (c : Choices) {key : VertexKey}
    (htype : key.vertexType ≠ .node) (href : g.Refreshes c key) :
    Sound (g.deleteVertex c key) ∧ ∀ e, e ∈ (g.deleteVertex c key).dag.edges ↔
      e ∈ g.dag.edges ∧ e.src.key ≠ key ∧ e.dst.key ≠ key := by
  cases hvertex : g.getVertex key with
  | none =>
    rw [Graph.deleteVertex, hvertex]
    refine ⟨h, fun e => ⟨fun he => ⟨he, ?_, ?_⟩, fun he => he.1⟩⟩
    · intro hkey
      exact nomatch hvertex.symm.trans ((h.live key e.src).mpr ⟨(h.valid.ends e he).1, hkey⟩)
    · intro hkey
      exact nomatch hvertex.symm.trans ((h.live key e.dst).mpr ⟨(h.valid.ends e he).2, hkey⟩)
  | some vertex =>
    obtain ⟨hnode, hkey⟩ := (h.live key vertex).mp hvertex
    -- the vertices that are removed: the vertex, and neighbors whose only edge is with it
    generalize hnbr : g.neighborsOf c vertex = neighbors
    have hrem := removed_foldl g (vertex :: neighbors.neighborsToRemove)
    generalize hg : (vertex :: neighbors.neighborsToRemove).foldl removeVertex g = g' at hrem
    have honly (r : NamedVertex) (hr : r ∈ neighbors.neighborsToRemove) :
        r ∈ g.dag.nodes ∧ g.dag.degree r = 1 ∧ ∃ e ∈ g.dag.edges, e.touches r ∧ e.touches vertex := by
      rw [← hnbr, mem_neighborsToRemove, h.valid.mem_visitFrom hnode, h.valid.mem_visitTo hnode] at hr
      obtain ⟨⟨e, he, hsrc, hdst⟩ | ⟨e, he, hdst, hsrc⟩, hdeg⟩ := hr
      · refine ⟨hdst ▸ (h.valid.ends e he).2, hdeg, e, he, ?_, ?_⟩ <;> simp [touches, hsrc, hdst]
      · refine ⟨hsrc ▸ (h.valid.ends e he).1, hdeg, e, he, ?_, ?_⟩ <;> simp [touches, hsrc, hdst]
    have hedges (e : Edge) : e ∈ g'.dag.edges ↔ e ∈ g.dag.edges ∧ ¬ e.touches vertex := by
      rw [hrem.edges, forall_mem_cons]
      apply and_congr_right
      intro he
      refine ⟨fun htch => htch.1, fun hnot => ⟨hnot, fun r hr htch => hnot ?_⟩⟩
      obtain ⟨-, hdeg, f, hf, hfr, hfv⟩ := honly r hr
      exact Dag.eq_of_degree_one hdeg he hf htch hfr ▸ hfv
    have hwell : WellFormed g' := by
      refine h.toWellFormed.removed hrem ?_ ?_
      · exact forall_mem_cons.mpr ⟨hnode, fun r hr => (honly r hr).1⟩
      · intro e he f hf hsrc hdest
        obtain ⟨he, hnot⟩ := (hedges e).mp he
        rw [touches_iff h.valid he hnode, not_or] at hnot
        rw [hedges, touches_iff h.valid hf hnode, hsrc, not_or]
        refine ⟨hf, hnot.2, fun hdst => htype ?_⟩
        rw [← hkey, ← hdst]
        exact (h.grounded e he f.dst hdest).1
    have hdel : g.deleteVertex c key = neighbors.neighborsToRecompute.foldl recomputeDestinationIndex g' := by
      rw [Graph.deleteVertex, hvertex]
      simp only [hnbr]
      rw [← hg, foldl_cons]
    have hsound (v : NamedVertex) (hv : v ∈ g'.dag.nodes) (hrecomputed : v ∉ neighbors.neighborsToRecompute) :
        SoundAt g' v := by
      intro index hidx i hi
      rw [hrem.index] at hidx
      split_ifs at hidx
      obtain ⟨hvold, hids⟩ := (hrem.nodes v).mp hv
      rw [forall_mem_cons] at hids
      obtain ⟨e, he, rfl, d, hd, rfl⟩ := h.soundAt v hvold index hidx i hi
      by_cases htch : e.touches vertex
      · rw [touches_iff h.valid he hnode] at htch
        have hdst := htch.resolve_left fun hsrc => hids.1 (congrArg NamedVertex.id hsrc)
        have hdeg : g.dag.degree e.src ≠ 1 := by
          intro hdeg
          refine hids.2 e.src ?_ rfl
          rw [← hnbr, mem_neighborsToRemove]
          exact ⟨.inr ((h.valid.mem_visitTo hnode).mpr ⟨e, he, hdst, rfl⟩), hdeg⟩
        rcases href vertex hvertex e he hdst hdeg index hidx d hd hi with hlast | ⟨f, hf, hsrc, hfdst, hfd⟩
        · refine absurd ?_ hrecomputed
          rw [← hnbr]
          exact g.mem_neighborsToRecompute c vertex hlast hdeg
        · refine ⟨f, (hedges f).mpr ⟨hf, ?_⟩, hsrc, d, hfd.trans hd, rfl⟩
          rw [touches_iff h.valid hf hnode, not_or, hsrc]
          exact ⟨fun hsrc => hids.1 (congrArg NamedVertex.id hsrc), hfdst⟩
      · exact ⟨e, (hedges e).mpr ⟨he, htch⟩, rfl, d, hd, rfl⟩
    obtain ⟨hsound, hdag⟩ := hwell.recomputeAll neighbors.neighborsToRecompute hsound
    rw [hdel, hdag]
    refine ⟨hsound, fun e => ?_⟩
    rw [hedges]
    apply and_congr_right
    intro he
    have hiff (v : NamedVertex) (hv : v ∈ g.dag.nodes) : v = vertex ↔ v.key = key :=
      ⟨fun heq => heq ▸ hkey, fun hvkey => h.toWellFormed.key_inj hv hnode (hvkey.trans hkey.symm)⟩
    rw [touches_iff h.valid he hnode, not_or, hiff _ (h.valid.ends e he).1, hiff _ (h.valid.ends e he).2]

end LeanKube.NodeAuth
