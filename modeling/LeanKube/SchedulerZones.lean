import LeanKube.SchedulerNodeTree
import Mathlib.Algebra.Order.Ring.Int

/-! What the node tree holds: every zone is listed once and has nodes, and no zone has a name twice.
The same name may be in several zones. -/

namespace LeanKube.Scheduler
open List Option GoMap
namespace NodeTree

/-- The names of the nodes of a zone. -/
def namesAt (nt : NodeTree) (zone : String) : List String :=
  ((nt.tree.lookup zone).map NodeArray.nodes).getD []

/-- The names of all zones, zone by zone. -/
def names (nt : NodeTree) : List String := nt.zones.flatMap nt.namesAt

/-- The zones that are listed are those of the tree, all with nodes, and `numNodes` counts the nodes. -/
structure WellFormed (nt : NodeTree) : Prop where
  zones_nodup : nt.zones.Nodup
  zones_keys : ∀ zone, zone ∈ nt.zones ↔ zone ∈ nt.tree
  nonempty : ∀ zone na, nt.tree.lookup zone = some na → na.nodes ≠ []
  nodup : ∀ zone, (nt.namesAt zone).Nodup
  count : nt.numNodes = nt.names.length

theorem wellFormed_empty : WellFormed {} where
  zones_nodup := nodup_nil
  zones_keys _ := iff_of_false not_mem_nil Finmap.notMem_empty
  nonempty _ _ h := by cases h
  nodup _ := nodup_nil
  count := rfl

variable {nt nt' : NodeTree}

theorem namesAt_of_lookup {zone : String} {na : NodeArray} (h : nt.tree.lookup zone = some na) :
    nt.namesAt zone = na.nodes := by
  rw [namesAt, h]
  rfl

theorem namesAt_of_lookup_none {zone : String} (h : nt.tree.lookup zone = none) : nt.namesAt zone = [] := by
  rw [namesAt, h]
  rfl

section WellFormed
variable {nt : NodeTree} {zone : String}

theorem WellFormed.mem_zones (h : WellFormed nt) {na : NodeArray}
    (hna : nt.tree.lookup zone = some na) : zone ∈ nt.zones :=
  (h.zones_keys zone).mpr (Finmap.mem_of_lookup_eq_some hna)

theorem WellFormed.lookup_of_mem (h : WellFormed nt) (hzone : zone ∈ nt.zones) : ∃ na, nt.tree.lookup zone = some na :=
  Finmap.mem_iff.mp ((h.zones_keys zone).mp hzone)

theorem WellFormed.mem_names (h : WellFormed nt) (name : String) :
    name ∈ nt.names ↔ ∃ zone, name ∈ nt.namesAt zone := by
  rw [names, mem_flatMap]
  refine ⟨fun ⟨zone, _, hname⟩ => ⟨zone, hname⟩, fun ⟨zone, hname⟩ => ⟨zone, ?_, hname⟩⟩
  rw [namesAt] at hname
  cases hna : nt.tree.lookup zone with
  | none => rw [hna] at hname; cases hname
  | some => exact h.mem_zones hna

theorem WellFormed.length_names (h : WellFormed nt) (zone : String) :
    nt.names.length = (nt.namesAt zone).length + ((nt.zones.erase zone).flatMap nt.namesAt).length := by
  by_cases hzone : zone ∈ nt.zones
  · rw [← length_append]
    exact ((perm_cons_erase hzone).flatMap_right nt.namesAt).length_eq
  · have hnone :
    nt.tree.lookup zone = none := Finmap.lookup_eq_none.mpr fun hmem => hzone ((h.zones_keys zone).mpr hmem)
    rw [erase_of_not_mem hzone, namesAt_of_lookup_none hnone]
    exact (Nat.zero_add _).symm

/-- The names of one zone change: the zone is listed as long as it has names, and the count follows. -/
theorem WellFormed.setZone (h : WellFormed nt) {names : List String} (hnames : names.Nodup)
    (hself : (nt'.tree.lookup zone).map NodeArray.nodes = if names = [] then none else some names)
    (hothers : ∀ zone', zone' ≠ zone → nt'.tree.lookup zone' = nt.tree.lookup zone')
    (hzones : nt'.zones.Perm (if names = [] then nt.zones.erase zone else zone :: nt.zones.erase zone))
    (hcount : nt'.numNodes + (nt.namesAt zone).length = nt.numNodes + names.length) : WellFormed nt' := by
  have hat : nt'.namesAt zone = names := by
    rw [namesAt, hself]
    split_ifs with hempty
    · exact hempty.symm
    · rfl
  have hat' : ∀ zone', zone' ≠ zone → nt'.namesAt zone' = nt.namesAt zone' := fun zone' hne => by
    rw [namesAt, hothers zone' hne, namesAt]
  have hnot : zone ∉ nt.zones.erase zone := h.zones_nodup.not_mem_erase
  have hlength : nt'.names.length = names.length + ((nt.zones.erase zone).flatMap nt.namesAt).length := by
    have hrest : (nt.zones.erase zone).flatMap nt'.namesAt = (nt.zones.erase zone).flatMap nt.namesAt :=
      flatMap_congr fun zone' hmem => hat' zone' fun heq => hnot (heq ▸ hmem)
    rw [← hrest, NodeTree.names, (hzones.flatMap_right _).length_eq]
    split_ifs with hempty
    · rw [hempty, length_nil, Nat.zero_add]
    · rw [flatMap_cons, hat, length_append]
  refine ⟨?_, fun zone' => ?_, fun zone' na hna => ?_, fun zone' => ?_, ?_⟩
  · rw [hzones.nodup_iff]
    split_ifs
    · exact h.zones_nodup.erase _
    · exact nodup_cons.mpr ⟨hnot, h.zones_nodup.erase _⟩
  · rw [hzones.mem_iff, mem_iff_lookup_ne_none]
    by_cases hzone : zone' = zone
    · subst hzone
      rw [ne_eq, ← map_eq_none_iff (f := NodeArray.nodes), hself]
      split_ifs <;> simp [hnot]
    · rw [hothers zone' hzone, ← mem_iff_lookup_ne_none, ← h.zones_keys]
      split_ifs <;> simp [mem_erase_of_ne, hzone]
  · by_cases hzone : zone' = zone
    · subst hzone
      rw [hna, map_some] at hself
      split_ifs at hself with hempty
      exact some.inj hself ▸ hempty
    · exact h.nonempty zone' na (hothers zone' hzone ▸ hna)
  · by_cases hzone : zone' = zone
    · rwa [hzone, hat]
    · rw [hat' zone' hzone]
      exact h.nodup zone'
  · have hold := h.length_names zone
    have hcnt := h.count
    omega

/-! ### Additions -/

theorem namesAt_addNode (nt : NodeTree) (n : Node) (zone : String) :
    (nt.addNode n).namesAt zone = if zone = getZoneKey n ∧ n.name ∉ nt.namesAt zone
      then nt.namesAt zone ++ [n.name] else nt.namesAt zone := by
  rw [addNode]
  cases hna : nt.tree.lookup (getZoneKey n) with
  | none =>
    simp only [namesAt, lookup_insert_ite]
    by_cases hzone : zone = getZoneKey n
    · subst hzone
      simp [hna]
    · simp [hzone]
  | some =>
    simp only
    by_cases hzone : zone = getZoneKey n
    · subst hzone
      rw [namesAt_of_lookup hna]
      split_ifs with hmem hcond hcond
      · exact absurd hmem hcond.2
      · exact namesAt_of_lookup hna
      · simp only [namesAt, Finmap.lookup_insert, map_some, getD_some]
      · exact absurd ⟨rfl, hmem⟩ hcond
    · have hcond : ¬(zone = getZoneKey n ∧ n.name ∉ nt.namesAt zone) := fun hboth => hzone hboth.1
      split_ifs
      · rfl
      · simp only [namesAt, Finmap.lookup_insert_of_ne _ hzone]

theorem addNode_of_mem {n : Node} (hmem : n.name ∈ nt.namesAt (getZoneKey n)) : nt.addNode n = nt := by
  rw [addNode]
  cases hna : nt.tree.lookup (getZoneKey n) with
  | none => rw [namesAt_of_lookup_none hna] at hmem; cases hmem
  | some =>
    rw [namesAt_of_lookup hna] at hmem
    exact if_pos hmem

theorem WellFormed.addNode (h : WellFormed nt) (n : Node) : WellFormed (nt.addNode n) := by
  by_cases hmem : n.name ∈ nt.namesAt (getZoneKey n)
  · rw [addNode_of_mem hmem]
    exact h
  have hnodup : (nt.namesAt (getZoneKey n) ++ [n.name]).Nodup :=
    (perm_append_singleton _ _).nodup_iff.mpr (nodup_cons.mpr ⟨hmem, h.nodup _⟩)
  rw [NodeTree.addNode]
  cases hna : nt.tree.lookup (getZoneKey n) with
  | none =>
    have hzone : getZoneKey n ∉ nt.zones := fun hin => Finmap.lookup_eq_none.mp hna ((h.zones_keys _).mp hin)
    rw [namesAt_of_lookup_none hna] at hnodup
    refine h.setZone hnodup ?_ (fun zone' => Finmap.lookup_insert_of_ne _) ?_ ?_
    · simp
    · simp [erase_of_not_mem hzone]
    · simp [namesAt_of_lookup_none hna]
  | some na =>
    rw [namesAt_of_lookup hna] at hmem hnodup
    simp only [if_neg hmem]
    refine h.setZone hnodup ?_ (fun zone' => Finmap.lookup_insert_of_ne _) ?_ ?_
    · simp
    · simpa using perm_cons_erase (h.mem_zones hna)
    · simp [namesAt_of_lookup hna, add_right_comm, add_assoc]

/-! ### Removals -/

theorem afterRemoveNode_cases (nt : NodeTree) (n : Node) :
    n.name ∉ nt.namesAt (getZoneKey n) ∧ nt.afterRemoveNode n = nt ∨
    ∃ na, nt.tree.lookup (getZoneKey n) = some na ∧ n.name ∈ na.nodes ∧
      nt.afterRemoveNode n = if na.nodes.erase n.name = [] then
        { nt with
          tree := nt.tree.erase (getZoneKey n)
          zones := nt.zones.erase (getZoneKey n)
          numNodes := nt.numNodes - 1 }
      else
        { nt with
          tree := nt.tree.insert (getZoneKey n) { na with nodes := na.nodes.erase n.name }
          numNodes := nt.numNodes - 1 } := by
  rw [afterRemoveNode, removeNode]
  cases hna : nt.tree.lookup (getZoneKey n) with
  | none => exact .inl ⟨by rw [namesAt_of_lookup_none hna]; exact not_mem_nil, rfl⟩
  | some na =>
    by_cases hmem : n.name ∈ na.nodes
    · refine .inr ⟨na, rfl, hmem, ?_⟩
      simp only [if_pos hmem]
      split_ifs with hempty
      · simp only [removeZone, erase_insert_self]
      · rfl
    · refine .inl ⟨by rwa [namesAt_of_lookup hna], ?_⟩
      simp only [if_neg hmem]

theorem namesAt_afterRemoveNode (nt : NodeTree) (n : Node) (zone : String) : (nt.afterRemoveNode n).namesAt zone =
      if zone = getZoneKey n then (nt.namesAt zone).erase n.name else nt.namesAt zone := by
  rcases afterRemoveNode_cases nt n with ⟨hmiss, hsame⟩ | ⟨_, hna, _, hafter⟩
  · rw [hsame]
    split_ifs with hzone
    · rw [hzone, erase_of_not_mem hmiss]
    · rfl
  · rw [hafter]
    by_cases hzone : zone = getZoneKey n
    · subst hzone
      rw [if_pos rfl, namesAt_of_lookup hna]
      split_ifs with hempty
      · simp only [namesAt, Finmap.lookup_erase, hempty]
        rfl
      · simp only [namesAt, Finmap.lookup_insert, map_some, getD_some]
    · split_ifs
      · simp only [namesAt, Finmap.lookup_erase_ne hzone]
      · simp only [namesAt, Finmap.lookup_insert_of_ne _ hzone]

theorem WellFormed.afterRemoveNode (h : WellFormed nt) (n : Node) : WellFormed (nt.afterRemoveNode n) := by
  rcases afterRemoveNode_cases nt n with ⟨_, hsame⟩ | ⟨na, hna, hmem, hafter⟩
  · rw [hsame]
    exact h
  have hnames := namesAt_of_lookup hna
  have hnodup : (na.nodes.erase n.name).Nodup := (hnames ▸ h.nodup _).erase _
  have hlength : (na.nodes.erase n.name).length + 1 = na.nodes.length := (perm_cons_erase hmem).length_eq.symm
  rw [hafter]
  split_ifs with hempty
  · refine h.setZone hnodup ?_ (fun zone' => Finmap.lookup_erase_ne) ?_ ?_
    · simp [hempty]
    · simp [hempty]
    · simp only [hnames]
      omega
  · refine h.setZone hnodup ?_ (fun zone' => Finmap.lookup_insert_of_ne _) ?_ ?_
    · simp [hempty]
    · simpa [hempty] using perm_cons_erase (h.mem_zones hna)
    · simp only [hnames]
      omega

theorem WellFormed.updateNode (h : WellFormed nt) (old new : Node) : WellFormed (nt.updateNode old new) := by
  rw [NodeTree.updateNode]
  split_ifs
  · exact h
  · exact (h.afterRemoveNode old).addNode new

end WellFormed

/-! ### Cursors -/

/-- The trees differ in their cursors only. -/
structure SameNames (nt nt' : NodeTree) : Prop where
  zones : nt'.zones = nt.zones
  numNodes : nt'.numNodes = nt.numNodes
  nodes : ∀ zone, (nt'.tree.lookup zone).map NodeArray.nodes = (nt.tree.lookup zone).map NodeArray.nodes

theorem SameNames.refl (nt : NodeTree) : SameNames nt nt := ⟨rfl, rfl, fun _ => rfl⟩

variable (h : SameNames nt nt')
include h

theorem SameNames.trans {nt'' : NodeTree} (h' : SameNames nt' nt'') : SameNames nt nt'' where
  zones := h'.zones.trans h.zones
  numNodes := h'.numNodes.trans h.numNodes
  nodes zone := (h'.nodes zone).trans (h.nodes zone)

theorem SameNames.namesAt (zone : String) : nt'.namesAt zone = nt.namesAt zone := by
  rw [NodeTree.namesAt, h.nodes, NodeTree.namesAt]

theorem SameNames.names : nt'.names = nt.names := by
  rw [NodeTree.names, h.zones, NodeTree.names]
  exact flatMap_congr fun zone _ => h.namesAt zone

theorem SameNames.wellFormed (hnt : WellFormed nt) : WellFormed nt' where
  zones_nodup := h.zones ▸ hnt.zones_nodup
  zones_keys zone := by
    rw [h.zones, hnt.zones_keys, mem_iff_lookup_ne_none, mem_iff_lookup_ne_none,
      ne_eq, ne_eq, ← map_eq_none_iff (f := NodeArray.nodes), ← h.nodes,
      map_eq_none_iff]
  nonempty zone na hna := by
    have hnodes := h.nodes zone
    rw [hna] at hnodes
    obtain ⟨na', hna', hsame⟩ := map_eq_some_iff.mp hnodes.symm
    exact hsame ▸ hnt.nonempty zone na' hna'
  nodup zone := by
    rw [h.namesAt]
    exact hnt.nodup zone
  count := by rw [h.numNodes, hnt.count, h.names]

end NodeTree
end LeanKube.Scheduler
