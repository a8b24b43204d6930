import LeanKube.NodeGraph

/-! The search of `hasPathFrom`: it finds the node exactly if a chain of edges without a destination leads
from the starting vertex to a vertex with an edge to the node. -/

namespace LeanKube.NodeAuth
open List

/-- Vertices are told apart by their identifiers, edges are between vertices of the graph, and there is at
most one edge for a pair. -/
structure Dag.Valid (dag : Dag) : Prop where
  ids : ∀ v ∈ dag.nodes, ∀ w ∈ dag.nodes, v.id = w.id → v = w
  ends : ∀ e ∈ dag.edges, e.src ∈ dag.nodes ∧ e.dst ∈ dag.nodes
  simple : ∀ e ∈ dag.edges, ∀ f ∈ dag.edges, f.joins e.src e.dst → f = e

namespace Dag
variable {dag : Dag} {nodeID : Nat} {e : Edge} {t n : NamedVertex}

def Leads (dag : Dag) (t n : NamedVertex) : Prop :=
  ∃ e ∈ dag.edges, e.src = t ∧ e.dst = n ∧ e.destination = none

def Hits (dag : Dag) (nodeID : Nat) (t : NamedVertex) : Prop :=
  ∃ e ∈ dag.edges, e.src = t ∧ ∃ d, e.destination = some d ∧ d.id = nodeID

def HasPath (dag : Dag) (nodeID : Nat) (start : NamedVertex) : Prop :=
  ∃ t, Relation.ReflTransGen dag.Leads start t ∧ (dag.Hits nodeID t ∨ t.id = nodeID)

theorem Valid.id_inj (h : dag.Valid) (ht : t ∈ dag.nodes) (hn : n ∈ dag.nodes) : t.id = n.id ↔ t = n :=
  ⟨h.ids t ht n hn, fun heq => congrArg NamedVertex.id heq⟩

theorem Valid.edgeBetween (h : dag.Valid) (he : e ∈ dag.edges) : dag.edgeBetween e.src e.dst = some e := by
  have hself : e.joins e.src e.dst := by simp [Edge.joins]
  cases hfind : dag.edgeBetween e.src e.dst with
  | none =>
    rw [Dag.edgeBetween, List.find?_eq_none] at hfind
    exact absurd hself (hfind e he)
  | some f =>
    have hjoins := List.find?_some hfind
    rw [h.simple e he f (mem_of_find?_eq_some hfind) hjoins]

theorem Valid.mem_visitFrom (h : dag.Valid) (ht : t ∈ dag.nodes) :
    n ∈ dag.visitFrom t ↔ ∃ e ∈ dag.edges, e.src = t ∧ e.dst = n := by
  rw [visitFrom, mem_map]
  apply exists_congr
  intro e
  rw [mem_filter, decide_eq_true_iff, and_assoc]
  apply and_congr_right
  intro he
  exact and_congr_left' (h.id_inj (h.ends e he).1 ht)

theorem Valid.mem_visitTo (h : dag.Valid) (ht : t ∈ dag.nodes) :
    n ∈ dag.visitTo t ↔ ∃ e ∈ dag.edges, e.dst = t ∧ e.src = n := by
  rw [visitTo, mem_map]
  apply exists_congr
  intro e
  rw [mem_filter, decide_eq_true_iff, and_assoc]
  apply and_congr_right
  intro he
  exact and_congr_left' (h.id_inj (h.ends e he).2 ht)

end Dag

namespace Search
variable {dag : Dag} {nodeID : Nat} {t n : NamedVertex} {s s' : Search} (c : Choices)

structure Visits (dag : Dag) (nodeID : Nat) (t : NamedVertex) (neighbors : List NamedVertex) (s s' : Search) :
    Prop where
  found : s'.found = true → s.found = true ∨ dag.Hits nodeID t ∨ ∃ n, dag.Leads t n ∧ n.id = nodeID
  ended : s'.ended = true → s'.found = true
  keeps : s'.found = false → s.found = false
  stack : ∀ x ∈ s.stack, x ∈ s'.stack
  visited : ∀ i ∈ s.visited, i ∈ s'.visited
  fresh : ∀ i ∈ s'.visited, i ∈ s.visited ∨ ∃ x ∈ s'.stack, x.id = i
  pushed : ∀ x ∈ s'.stack, x ∈ s.stack ∨ x ∈ dag.nodes ∧ (s'.found = false → dag.Leads t x ∧ x.id ≠ nodeID)
  explored : s'.found = false → ∀ e ∈ dag.edges, e.src = t → e.dst ∈ neighbors →
    (e.destination = none → e.dst.id ∈ s'.visited) ∧ ∀ d, e.destination = some d → d.id ≠ nodeID
  nodup : s.visited.Nodup → s'.visited.Nodup
  balance : s'.visited.length + s.stack.length = s'.stack.length + s.visited.length

theorem Visits.refl (hended : s.ended = true → s.found = true) : Visits dag nodeID t [] s s where
  found := .inl
  ended := hended
  keeps := id
  stack := fun _ => id
  visited := fun _ => id
  fresh := fun _ => .inl
  pushed := fun _ => .inl
  explored := fun _ _ _ _ h => absurd h not_mem_nil
  nodup := id
  balance := Nat.add_comm _ _

theorem Visits.trans {first second : List NamedVertex} {s'' : Search} (h : Visits dag nodeID t first s s')
    (h' : Visits dag nodeID t second s' s'') : Visits dag nodeID t (first ++ second) s s'' where
  found := fun hfound => by
    rcases h'.found hfound with hfound | hhit
    · exact h.found hfound
    · exact .inr hhit
  ended := h'.ended
  keeps := fun hfound => h.keeps (h'.keeps hfound)
  stack := fun x hx => h'.stack x (h.stack x hx)
  visited := fun i hi => h'.visited i (h.visited i hi)
  fresh := fun i hi => by
    rcases h'.fresh i hi with hi | hi
    · exact (h.fresh i hi).imp_right fun ⟨x, hx, hid⟩ => ⟨x, h'.stack x hx, hid⟩
    · exact .inr hi
  pushed := fun x hx => by
    rcases h'.pushed x hx with hx | hx
    · exact (h.pushed x hx).imp_right fun ⟨hnode, hleads⟩ => ⟨hnode, fun hfound => hleads (h'.keeps hfound)⟩
    · exact .inr hx
  explored := fun hfound e he hsrc hdst => by
    rcases mem_append.mp hdst with hdst | hdst
    · obtain ⟨hvis, hdest⟩ := h.explored (h'.keeps hfound) e he hsrc hdst
      exact ⟨fun hnone => h'.visited _ (hvis hnone), hdest⟩
    · exact h'.explored hfound e he hsrc hdst
  nodup := fun hnodup => h'.nodup (h.nodup hnodup)
  balance := by
    have hfirst := h.balance
    have hsnd := h'.balance
    omega

theorem visits_reach (hn : n ∈ dag.nodes) (hended : s.ended = true → s.found = true)
    (hleads : s.found = true ∧ dag.Hits nodeID t ∨ dag.Leads t n)
    (hedge : s.found = false → ∀ e ∈ dag.edges, e.src = t → e.dst = n → e.destination = none) :
    Visits dag nodeID t [n] s (s.reach nodeID n) := by
  have hexpl (s' : Search) (hkeeps : s'.found = false → s.found = false) (hvis : n.id ∈ s'.visited) :
      s'.found = false → ∀ e ∈ dag.edges, e.src = t → e.dst ∈ [n] →
        (e.destination = none → e.dst.id ∈ s'.visited) ∧ ∀ d, e.destination = some d → d.id ≠ nodeID := by
    intro hfound e he hsrc hdst
    rw [mem_singleton] at hdst
    have hnone := hedge (hkeeps hfound) e he hsrc hdst
    exact ⟨fun _ => hdst ▸ hvis, fun d hd => nomatch hnone.symm.trans hd⟩
  by_cases hvis : n.id ∈ s.visited
  · rw [reach, if_pos hvis]
    exact { Visits.refl hended with explored := hexpl s id hvis }
  · rw [reach, if_neg hvis]
    refine ⟨?_, id, ?_, fun x hx => mem_cons_of_mem _ hx, fun i hi => mem_cons_of_mem _ hi, ?_, ?_,
      hexpl _ ?_ mem_cons_self, fun hnodup => nodup_cons.mpr ⟨hvis, hnodup⟩, ?_⟩
    · intro hfound
      rcases hleads with ⟨hfound, -⟩ | hleads
      · exact .inl hfound
      · rw [Bool.or_eq_true, decide_eq_true_iff] at hfound
        exact hfound.imp_right fun hid => .inr ⟨n, hleads, hid⟩
    · exact fun hfound => (Bool.or_eq_false_iff.mp hfound).1
    · intro i hi
      rcases mem_cons.mp hi with rfl | hi
      · exact .inr ⟨n, mem_cons_self, rfl⟩
      · exact .inl hi
    · intro x hx
      rcases mem_cons.mp hx with rfl | hx
      · refine .inr ⟨hn, fun hfound => ?_⟩
        obtain ⟨hfound, hid⟩ := Bool.or_eq_false_iff.mp hfound
        refine ⟨hleads.resolve_left fun h => ?_, of_decide_eq_false hid⟩
        rw [hfound] at h
        exact absurd h.1 Bool.false_ne_true
      · exact .inl hx
    · exact fun hfound => (Bool.or_eq_false_iff.mp hfound).1
    · simp only [length_cons]
      omega

theorem visits_visit (hvalid : dag.Valid) (ht : t ∈ dag.nodes) (hn : n ∈ dag.visitFrom t)
    (hended : s.ended = true → s.found = true) : Visits dag nodeID t [n] s (visit dag nodeID t s n) := by
  obtain ⟨e, he, rfl, rfl⟩ := (hvalid.mem_visitFrom ht).mp hn
  have hunique (f : Edge) (hf : f ∈ dag.edges) (hsrc : f.src = e.src) (hdst : f.dst = e.dst) : f = e :=
    hvalid.simple e he f hf (by simp [Edge.joins, hsrc, hdst])
  rw [visit]
  by_cases hend : s.ended
  · rw [if_pos hend]
    refine { Visits.refl hended with explored := fun hfound => ?_ }
    rw [hended hend] at hfound
    exact absurd hfound.symm Bool.false_ne_true
  rw [if_neg hend, hvalid.edgeBetween he, Option.bind_some]
  cases hdest : e.destination with
  | none =>
    refine visits_reach (hvalid.ends e he).2 hended (.inr ⟨e, he, rfl, rfl, hdest⟩) ?_
    intro _ f hf hsrc hdst
    rw [hunique f hf hsrc hdst, hdest]
  | some destination =>
    by_cases hid : destination.id ≠ nodeID
    · simp only [if_pos hid]
      refine { Visits.refl hended with explored := fun _ f hf hsrc hdst => ?_ }
      rw [hunique f hf hsrc (mem_singleton.mp hdst), hdest]
      exact ⟨fun h => (nomatch h), fun d hd => Option.some.inj hd ▸ hid⟩
    · simp only [if_neg hid]
      have hhits : dag.Hits nodeID e.src := ⟨e, he, rfl, destination, hdest, not_not.mp hid⟩
      have hreach : Visits dag nodeID e.src [e.dst] { s with found := true }
          (reach nodeID { s with found := true } e.dst) :=
        visits_reach (hvalid.ends e he).2 (fun _ => rfl) (.inl ⟨rfl, hhits⟩) fun h => nomatch h
      exact { hreach with
        found := fun _ => .inr (.inl hhits)
        keeps := fun hfound => nomatch hreach.keeps hfound }

theorem visits_foldl (hvalid : dag.Valid) (ht : t ∈ dag.nodes) {neighbors : List NamedVertex}
    (hnbr : ∀ n ∈ neighbors, n ∈ dag.visitFrom t) (hended : s.ended = true → s.found = true) :
    Visits dag nodeID t neighbors s (neighbors.foldl (visit dag nodeID t) s) := by
  induction neighbors generalizing s with
  | nil => exact Visits.refl hended
  | cons n _ ih =>
    obtain ⟨hn, hrest⟩ := forall_mem_cons.mp hnbr
    have hvisit : Visits dag nodeID t [n] s (visit dag nodeID t s n) := visits_visit hvalid ht hn hended
    exact hvisit.trans (ih hrest hvisit.ended)

/-! ### The walk -/

/-- The invariant of the walk: while the node is not found, every vertex that was visited is on the stack or
was explored, and the vertices on the stack can be reached. -/
structure Invariant (dag : Dag) (nodeID : Nat) (start : NamedVertex) (s : Search) : Prop where
  sound : s.found = true → dag.HasPath nodeID start
  ended : s.ended = true → s.found = true
  stack : ∀ x ∈ s.stack, x ∈ dag.nodes ∧ (s.found = false → Relation.ReflTransGen dag.Leads start x ∧ x.id ≠ nodeID)
  start_mem : start ∈ dag.nodes ∧ start.id ∈ s.visited
  bounded : ∀ i ∈ s.visited, i ∈ dag.nodes.map NamedVertex.id
  nodup : s.visited.Nodup
  explored : s.found = false → ∀ v ∈ dag.nodes, v.id ∈ s.visited → v ∈ s.stack ∨ v.id ≠ nodeID ∧
    ∀ e ∈ dag.edges, e.src = v →
      (e.destination = none → e.dst.id ∈ s.visited) ∧ ∀ d, e.destination = some d → d.id ≠ nodeID

variable {start : NamedVertex}

section
variable (hvalid : dag.Valid) (h : Invariant dag nodeID start s)
include hvalid h

theorem Invariant.step {stack neighbors : List NamedVertex} (hstack : s.stack = t :: stack)
    (hnbr : ∀ n, n ∈ neighbors ↔ n ∈ dag.visitFrom t)
    (hvisits : Visits dag nodeID t neighbors { s with stack } s') : Invariant dag nodeID start s' := by
  have htop := h.stack t (hstack ▸ mem_cons_self)
  have hrest (x : NamedVertex) (hx : x ∈ stack) : x ∈ s.stack := hstack ▸ mem_cons_of_mem _ hx
  have hpushed (x : NamedVertex) (hx : x ∈ s'.stack) : x ∈ dag.nodes ∧
      (s'.found = false → Relation.ReflTransGen dag.Leads start x ∧ x.id ≠ nodeID) := by
    rcases hvisits.pushed x hx with hx | ⟨hnode, hleads⟩
    · obtain ⟨hnode, hreach⟩ := h.stack x (hrest x hx)
      exact ⟨hnode, fun hfound => hreach (hvisits.keeps hfound)⟩
    · refine ⟨hnode, fun hfound => ?_⟩
      obtain ⟨hlead, hid⟩ := hleads hfound
      exact ⟨(htop.2 (hvisits.keeps hfound)).1.tail hlead, hid⟩
  refine ⟨?_, hvisits.ended, hpushed, ⟨h.start_mem.1, hvisits.visited _ h.start_mem.2⟩, ?_, hvisits.nodup h.nodup, ?_⟩
  · intro hfound
    by_cases hbefore : s.found = true
    · exact h.sound hbefore
    · have hreach := (htop.2 (Bool.eq_false_iff.mpr hbefore)).1
      rcases hvisits.found hfound with hfound | hhits | ⟨n, hleads, hid⟩
      · exact absurd hfound hbefore
      · exact ⟨t, hreach, .inl hhits⟩
      · exact ⟨n, hreach.tail hleads, .inr hid⟩
  · intro i hi
    rcases hvisits.fresh i hi with hi | ⟨x, hx, rfl⟩
    · exact h.bounded i hi
    · exact mem_map_of_mem (hpushed x hx).1
  · intro hfound v hv hvis
    have hbefore := hvisits.keeps hfound
    rcases hvisits.fresh _ hvis with hold | ⟨x, hx, hid⟩
    · rcases h.explored hbefore v hv hold with hmem | ⟨hid, hexpl⟩
      · rw [hstack] at hmem
        rcases mem_cons.mp hmem with rfl | hmem
        · refine .inr ⟨(htop.2 hbefore).2, fun e he hsrc => hvisits.explored hfound e he hsrc ?_⟩
          rw [hnbr, hvalid.mem_visitFrom hv]
          exact ⟨e, he, hsrc, rfl⟩
        · exact .inl (hvisits.stack v hmem)
      · refine .inr ⟨hid, fun e he hsrc => ?_⟩
        obtain ⟨hnone, hsome⟩ := hexpl e he hsrc
        exact ⟨fun h => hvisits.visited _ (hnone h), hsome⟩
    · exact .inl (hvalid.ids x (hpushed x hx).1 v hv hid ▸ hx)

theorem Invariant.found_iff_of_nil (hstack : s.stack = []) : s.found = true ↔ dag.HasPath nodeID start := by
  refine ⟨h.sound, fun ⟨t, hreach, hhit⟩ => ?_⟩
  by_contra hnot
  have hfound := Bool.eq_false_iff.mpr hnot
  have hexpl (v : NamedVertex) (hv : v ∈ dag.nodes) (hvis : v.id ∈ s.visited) :=
    (h.explored hfound v hv hvis).resolve_left (by rw [hstack]; exact not_mem_nil)
  have hclosed : t ∈ dag.nodes ∧ t.id ∈ s.visited := by
    clear hhit
    induction hreach with
    | refl => exact h.start_mem
    | tail _ hleads ih =>
      obtain ⟨e, he, hsrc, rfl, hnone⟩ := hleads
      obtain ⟨hv, hvis⟩ := ih
      exact ⟨(hvalid.ends e he).2, (((hexpl _ hv hvis).2 e he hsrc).1 hnone)⟩
  obtain ⟨hid, hedges⟩ := hexpl t hclosed.1 hclosed.2
  rcases hhit with ⟨e, he, hsrc, d, hd, hdid⟩ | hhit
  · exact (hedges e he hsrc).2 d hd hdid
  · exact hid hhit

theorem Invariant.walk {fuel : Nat} (hfuel : dag.nodes.length + s.stack.length ≤ fuel + s.visited.length) :
    (walk c dag nodeID fuel s).found = true ↔ dag.HasPath nodeID start := by
  induction fuel generalizing s with
  | zero =>
    have hlen : s.visited.length ≤ (dag.nodes.map NamedVertex.id).length :=
      (h.nodup.subperm fun i hi => h.bounded i hi).length_le
    rw [length_map] at hlen
    have hstack : s.stack = [] := length_eq_zero_iff.mp (by omega)
    exact h.found_iff_of_nil hvalid hstack
  | succ _ ih =>
    rw [Search.walk]
    by_cases hended : s.ended
    · rw [if_pos hended]
      exact iff_of_true (h.ended hended) (h.sound (h.ended hended))
    · rw [if_neg hended]
      cases hstack : s.stack with
      | nil => exact h.found_iff_of_nil hvalid hstack
      | cons t stack =>
        have hnbr (n : NamedVertex) : n ∈ c.order (dag.visitFrom t) ↔ n ∈ dag.visitFrom t :=
          (c.order_perm _).mem_iff
        have hvis : Visits dag nodeID t (c.order (dag.visitFrom t)) { s with stack }
            ((c.order (dag.visitFrom t)).foldl (visit dag nodeID t) { s with stack }) :=
          visits_foldl hvalid (h.stack t (hstack ▸ mem_cons_self)).1 (fun n hn => (hnbr n).mp hn) h.ended
        apply ih (h.step hvalid hstack hnbr hvis)
        have hbalance := hvis.balance
        rw [hstack, length_cons] at hfuel
        simp only at hbalance
        omega

end

theorem walk_found_iff (hvalid : dag.Valid) (hstart : start ∈ dag.nodes) :
    (Search.walk c dag nodeID (dag.nodes.length + 1)
      ⟨[start], [start.id], decide (start.id = nodeID), decide (start.id = nodeID)⟩).found = true ↔
      dag.HasPath nodeID start := by
  apply Invariant.walk c hvalid
  · refine ⟨?_, id, ?_, ⟨hstart, mem_singleton_self _⟩, ?_, nodup_singleton _, ?_⟩
    · exact fun hfound => ⟨start, .refl, .inr (of_decide_eq_true hfound)⟩
    · intro x hx
      rw [mem_singleton.mp hx]
      exact ⟨hstart, fun hfound => ⟨.refl, of_decide_eq_false hfound⟩⟩
    · intro i hi
      rw [mem_singleton.mp hi]
      exact mem_map_of_mem hstart
    · intro _ v hv hvis
      rw [hvalid.ids v hv start hstart (mem_singleton.mp hvis)]
      exact .inl (mem_singleton_self _)
  · simp only [length_singleton]
    omega

end Search
end LeanKube.NodeAuth
