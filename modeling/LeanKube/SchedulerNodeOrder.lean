import LeanKube.SchedulerZones
import LeanKube.RoundRobin

/-! The order in which the node tree hands out its nodes. `Next` goes round the zones, but where it
stands survives changes of the tree: a zone that is added while the others have been handed out in
part is behind them, and as many calls as there are nodes then return some nodes twice and others
not at all. -/

namespace LeanKube.Scheduler
open List Nat GoMap RoundRobin
namespace NodeTree

variable (nt : NodeTree) (zone : String)

def rowAt : Row String :=
  ((nt.tree.lookup zone).map fun na => ⟨na.nodes, na.lastIndex⟩).getD ⟨[], 0⟩

def rows : RoundRobin String where
  rows := nt.zones.map nt.rowAt
  index := nt.zoneIndex

theorem rowAt_of_lookup {nt : NodeTree} {zone : String} {na : NodeArray}
    (h : nt.tree.lookup zone = some na) : nt.rowAt zone = ⟨na.nodes, na.lastIndex⟩ := by
  rw [rowAt, h]
  rfl

variable (nt : NodeTree)

theorem items_rowAt : (nt.rowAt zone).items = nt.namesAt zone := by
  rw [rowAt, namesAt]
  cases nt.tree.lookup zone <;> rfl

theorem all_rows : nt.rows.all = nt.names := by
  rw [RoundRobin.all, rows, flatMap_map, names]
  exact flatMap_congr fun zone _ => nt.items_rowAt zone

theorem length_rows : nt.rows.rows.length = nt.zones.length := length_map _

theorem getElem?_rows (i : Nat) : nt.rows.rows[i]? = (nt.zones[i]?).map nt.rowAt := List.getElem?_map

/-! ### One call -/

theorem rows_resetExhausted : nt.resetExhausted.rows = nt.rows.reset := by
  have hrow : ∀ zone, nt.resetExhausted.rowAt zone = { nt.rowAt zone with taken := 0 } := by
    intro zone
    rw [rowAt, resetExhausted, lookup_mapValues, rowAt]
    cases nt.tree.lookup zone <;> rfl
  rw [reset]
  simp only [rows, map_map, RoundRobin.mk.injEq]
  refine ⟨map_congr_left fun zone _ => hrow zone, rfl⟩

theorem sameNames_resetExhausted : SameNames nt nt.resetExhausted where
  zones := rfl
  numNodes := rfl
  nodes zone := by
    rw [resetExhausted, lookup_mapValues, Option.map_map]
    rfl

def advance (na : NodeArray) (zoneIndex : Nat) : NodeTree :=
  { nt with tree := nt.tree.insert zone { na with lastIndex := na.lastIndex + 1 }, zoneIndex }

section Next
variable {nt : NodeTree} {na : NodeArray} {zone : String} {turns : Nat}

theorem sameNames_advance (hna : nt.tree.lookup zone = some na) (zoneIndex : Nat) :
    SameNames nt (nt.advance zone na zoneIndex) where
  zones := rfl
  numNodes := rfl
  nodes zone' := by
    rw [advance, lookup_insert_ite]
    split_ifs with hzone
    · rw [hzone, hna]
      rfl
    · rfl

theorem takes_advance (hnodup : nt.zones.Nodup) {offset : Nat} {name : String} (hoff : offset < nt.zones.length)
    (hzone : nt.zones[(nt.rows.start + offset) % nt.zones.length]? = some zone)
    (hna : nt.tree.lookup zone = some na) (hname : na.nodes[na.lastIndex]? = some name)
    (hexh : ∀ k < offset, nt.rows.Exhausted ((nt.rows.start + k) % nt.zones.length)) :
    nt.rows.Takes name (nt.advance zone na ((nt.rows.start + offset) % nt.zones.length + 1)).rows := by
  generalize hi : (nt.rows.start + offset) % nt.zones.length = i at hzone ⊢
  obtain ⟨hlt, hget⟩ := List.getElem?_eq_some_iff.mp hzone
  have hsplit : nt.zones = nt.zones.take i ++ zone :: nt.zones.drop (i + 1) := by
    rw [← hget, getElem_cons_drop, take_append_drop]
  have hlen : (nt.zones.take i).length = i := length_take_of_le hlt.le
  refine ⟨(nt.zones.take i).map nt.rowAt, nt.rowAt zone, (nt.zones.drop (i + 1)).map nt.rowAt, offset,
    ?_, ?_, ?_, ?_, ?_, ?_⟩
  · rw [rows, ← map_cons, ← map_append, ← hsplit]
  · rw [rowAt_of_lookup hna]
    exact hname
  · rw [length_map, hlen, length_rows, hi]
  · rwa [length_rows]
  · rwa [length_rows]
  · have hothers : ∀ zone', zone' ≠ zone → (nt.advance zone na (i + 1)).rowAt zone' = nt.rowAt zone' := by
      intro zone' hne
      rw [rowAt, advance, Finmap.lookup_insert_of_ne _ hne, ← rowAt]
    have hself : (nt.advance zone na (i + 1)).rowAt zone =
        { nt.rowAt zone with taken := (nt.rowAt zone).taken + 1 } := by
      rw [rowAt_of_lookup hna, rowAt, advance, Finmap.lookup_insert]
      rfl
    rw [hsplit, nodup_append, nodup_cons] at hnodup
    obtain ⟨_, ⟨hback, _⟩, hfront⟩ := hnodup
    rw [length_map, hlen, rows]
    have hzones : (nt.advance zone na (i + 1)).zones = nt.zones.take i ++ zone :: nt.zones.drop (i + 1) := hsplit
    rw [hzones, map_append, map_cons, hself]
    congr 2
    · refine map_congr_left fun zone' hzone' => hothers zone' ?_
      rintro rfl
      exact hfront zone' hzone' zone' mem_cons_self rfl
    · congr 1
      refine map_congr_left fun zone' hzone' => hothers zone' ?_
      rintro rfl
      exact hback hzone'

variable {numExhaustedZones i : Nat}

section
variable (nt) (hi : (if nt.zoneIndex ≥ nt.zones.length then 0 else nt.zoneIndex) = i)
  (hzone : nt.zones[i]? = some zone) (hna : nt.tree.lookup zone = some na)
include hi hzone hna

theorem nextLoop_exhausted (hnodes : na.nodes ≠ []) (hnone : na.nodes[na.lastIndex]? = none) :
    nextLoop (turns + 1) nt numExhaustedZones = nextLoop turns
      (if numExhaustedZones + 1 ≥ nt.zones.length
        then { nt with zoneIndex := i + 1 }.resetExhausted else { nt with zoneIndex := i + 1 })
      (numExhaustedZones + 1) := by
  have hnext : na.next = (na, "", true) := by
    simp only [NodeArray.next, if_neg hnodes, hnone]
  simp only [nextLoop, hi, hzone, hna, hnext, if_true, insert_of_lookup hna]

theorem nextLoop_found {name : String} (hname : na.nodes[na.lastIndex]? = some name) :
    nextLoop (turns + 1) nt numExhaustedZones = some (name, nt.advance zone na (i + 1)) := by
  have hnodes : na.nodes ≠ [] := by
    intro hnil
    rw [hnil] at hname
    cases hname
  have hnext : na.next = ({ na with lastIndex := na.lastIndex + 1 }, name, false) := by
    simp only [NodeArray.next, if_neg hnodes, hname]
  simp only [nextLoop, hi, hzone, hna, hnext, Bool.false_eq_true, if_false, advance]

end

theorem succ_mod_eq {m : Nat} (hm : 0 < m) (x : Nat) : (if x % m + 1 ≥ m then 0 else x % m + 1) = (x + 1) % m := by
  have hlt := mod_lt x hm
  have hsucc : (x + 1) % m = (x % m + 1) % m := (mod_add_mod x m 1).symm
  rw [hsucc]
  split_ifs with hwrap
  · rw [show x % m + 1 = m by omega, mod_self]
  · exact (mod_eq_of_lt (not_le.mp hwrap)).symm

variable (h : WellFormed nt)
include h

theorem nextLoop_reset (hpos : 0 < nt.zones.length) (turns e : Nat) :
    ∃ name nt', nextLoop (turns + 1) nt.resetExhausted e = some (name, nt') ∧ SameNames nt nt' ∧
      nt.rows.reset.Takes name nt'.rows := by
  have hzone := List.getElem?_eq_getElem hpos
  obtain ⟨na, hna⟩ := h.lookup_of_mem (getElem_mem hpos)
  obtain ⟨name, hname⟩ : ∃ name, na.nodes[0]? = some name :=
    ⟨_, List.getElem?_eq_getElem (length_pos_iff.mpr (h.nonempty _ na hna))⟩
  have hna' : nt.resetExhausted.tree.lookup nt.zones[0] = some { na with lastIndex := 0 } := by
    rw [resetExhausted, lookup_mapValues, hna]
    rfl
  have hstart : nt.resetExhausted.rows.start = 0 := ite_self 0
  have hidx : (nt.resetExhausted.rows.start + 0) % nt.resetExhausted.zones.length = 0 := by
    rw [hstart]
    exact zero_mod _
  refine ⟨name, _, nextLoop_found nt.resetExhausted ?_ hzone hna' hname, ?_, ?_⟩
  · exact if_neg (not_le.mpr hpos)
  · exact (sameNames_resetExhausted nt).trans (sameNames_advance hna' _)
  · have hfirst : nt.resetExhausted.zones[(nt.resetExhausted.rows.start + 0) %
        nt.resetExhausted.zones.length]? = some nt.zones[0] := by rw [hidx]; exact hzone
    have hnodup : nt.resetExhausted.zones.Nodup := h.zones_nodup
    have htakes := takes_advance hnodup hpos hfirst hna' hname fun k hk => absurd hk (not_lt_zero k)
    rwa [hidx, rows_resetExhausted] at htakes

theorem nextLoop_spec {e zoneIndex : Nat} (he : e < nt.zones.length) (hturns : nt.zones.length + 1 ≤ turns + e)
    (hidx : (if zoneIndex ≥ nt.zones.length then 0 else zoneIndex) = (nt.rows.start + e) % nt.zones.length)
    (hexh : ∀ k < e, nt.rows.Exhausted ((nt.rows.start + k) % nt.zones.length)) :
    ∃ name nt', nextLoop turns { nt with zoneIndex } e = some (name, nt') ∧ SameNames nt nt' ∧
      (system String).step nt.rows name nt'.rows := by
  induction turns generalizing e zoneIndex with
  | zero => omega
  | succ turns ih =>
    have hlt : (nt.rows.start + e) % nt.zones.length < nt.zones.length := mod_lt _ (by omega)
    have hzone := List.getElem?_eq_getElem hlt
    obtain ⟨na, hna⟩ := h.lookup_of_mem (getElem_mem hlt)
    cases hname : na.nodes[na.lastIndex]? with
    | some name =>
      refine ⟨name, _, nextLoop_found { nt with zoneIndex } hidx hzone hna hname, ?_, .inl ?_⟩
      · exact sameNames_advance hna _
      · exact takes_advance h.zones_nodup he hzone hna hname hexh
    | none =>
      have hrow : nt.rows.Exhausted ((nt.rows.start + e) % nt.zones.length) := by
        intro row hrow
        rw [getElem?_rows, hzone, Option.map_some, rowAt_of_lookup hna] at hrow
        cases hrow
        exact List.getElem?_eq_none_iff.mp hname
      have hexh' : ∀ k < e + 1, nt.rows.Exhausted ((nt.rows.start + k) % nt.zones.length) := by
        intro k hk
        rcases Nat.lt_succ_iff_lt_or_eq.mp hk with hlt | rfl
        · exact hexh k hlt
        · exact hrow
      rw [nextLoop_exhausted { nt with zoneIndex } hidx hzone hna (h.nonempty _ na hna) hname]
      by_cases hall : e + 1 ≥ nt.zones.length
      · obtain ⟨turns, rfl⟩ : ∃ t, turns = t + 1 := ⟨turns - 1, by omega⟩
        obtain ⟨name, nt', hloop, hsame, htakes⟩ := nextLoop_reset h (by omega) turns (e + 1)
        rw [if_pos hall]
        refine ⟨name, nt', hloop, hsame, .inr ⟨left_eq_nil fun k hk => ?_, htakes⟩⟩
        rw [length_rows] at hk ⊢
        exact hexh' k (by omega)
      · rw [if_neg hall]
        refine ih (by omega) (by omega) ?_ hexh'
        exact succ_mod_eq (by omega) _

/-- **A call of `Next` on a tree with nodes returns, and hands out the next item of the rows.** -/
theorem next_spec (hzones : nt.zones ≠ []) : ∃ name nt', nt.next = some (name, nt') ∧ SameNames nt nt' ∧
      (system String).step nt.rows name nt'.rows := by
  have hpos : 0 < nt.zones.length := length_pos_iff.mpr hzones
  have hstart : nt.rows.start < nt.zones.length := length_rows nt ▸ start_lt ((length_rows nt).symm ▸ hpos)
  rw [next, if_neg hzones]
  refine nextLoop_spec h hpos (le_refl _) ?_ fun k hk => absurd hk (not_lt_zero k)
  rw [add_zero, mod_eq_of_lt hstart, start, length_rows]
  by_cases hlt : nt.zoneIndex < nt.zones.length
  · rw [if_neg (not_le.mpr hlt)]
    exact (if_pos hlt).symm
  · rw [if_pos (not_lt.mp hlt)]
    exact (if_neg hlt).symm

theorem next_returns : ∃ name nt', nt.next = some (name, nt') ∧ SameNames nt nt' := by
  by_cases hzones : nt.zones = []
  · exact ⟨"", nt, if_pos hzones, .refl nt⟩
  · obtain ⟨name, nt', hnext, hsame, _⟩ := next_spec h hzones
    exact ⟨name, nt', hnext, hsame⟩

theorem nexts_spec (hzones : nt.zones ≠ []) (calls : Nat) :
    ∃ out nt', nt.nexts calls = some (out, nt') ∧ out.length = calls ∧ (system String).Run nt.rows out nt'.rows := by
  induction calls generalizing nt with
  | zero => exact ⟨[], nt, rfl, rfl, System.Run.nil _⟩
  | succ _ ih =>
    obtain ⟨name, _, hnext, hsame, hstep⟩ := next_spec h hzones
    obtain ⟨out, nt'', hnexts, hlen, hrun⟩ := ih (hsame.wellFormed h) (hsame.zones ▸ hzones)
    refine ⟨name :: out, nt'', ?_, congrArg (· + 1) hlen, ?_⟩
    · simp only [nexts, hnext, hnexts, Option.bind_eq_bind, Option.bind_some, Option.pure_def]
    · exact (System.Run.single hstep).append hrun

end Next

/-! ### All nodes -/

/-- The zones before position `j` have handed out `r + 1` nodes and the others `r`, or all they
have. -/
def Level : Prop :=
  ∃ r j : Nat, ∀ i zone na, nt.zones[i]? = some zone → nt.tree.lookup zone = some na →
    min na.lastIndex na.nodes.length = min (r + if i < j then 1 else 0) na.nodes.length

theorem level_rows {nt : NodeTree} (h : WellFormed nt) : nt.rows.Level ↔ nt.Level := by
  refine exists₂_congr fun r j => ?_
  constructor
  · intro hlevel i zone na hzone hna
    have hrow : nt.rows.rows[i]? = some ⟨na.nodes, na.lastIndex⟩ := by
      rw [getElem?_rows, hzone, Option.map_some, rowAt_of_lookup hna]
    exact hlevel i _ hrow
  · intro hlevel i row hrow
    rw [getElem?_rows] at hrow
    obtain ⟨zone, hzone, rfl⟩ := Option.map_eq_some_iff.mp hrow
    obtain ⟨na, hna⟩ := h.lookup_of_mem (mem_of_getElem? hzone)
    rw [rowAt_of_lookup hna]
    exact hlevel i zone na hzone hna

def EachOnce (out : List String) : Prop :=
  out.Nodup ∧ ∀ name, name ∈ out ↔ ∃ zone, name ∈ nt.namesAt zone

theorem eachOnce_iff_perm {nt : NodeTree} (h : WellFormed nt) {out : List String}
    (hlen : out.length = nt.names.length) : nt.EachOnce out ↔ nt.names.Nodup ∧ out.Perm nt.names := by
  constructor
  · rintro ⟨hnodup, hmem⟩
    have hsubperm : out.Subperm nt.names := (hnodup.subperm fun name hname =>
      (h.mem_names name).mpr ((hmem name).mp hname))
    have hperm : out.Perm nt.names := hsubperm.perm_of_length_le hlen.ge
    exact ⟨hperm.nodup_iff.mp hnodup, hperm⟩
  · rintro ⟨hnodup, hperm⟩
    exact ⟨hperm.nodup_iff.mpr hnodup, fun name => hperm.mem_iff.trans (h.mem_names name)⟩

theorem nexts_eachOnce_iff {nt : NodeTree} (h : WellFormed nt) :
    ∃ out nt', nt.nexts nt.numNodes.toNat = some (out, nt') ∧ (nt.EachOnce out ↔ nt.names.Nodup ∧ nt.Level) := by
  have hcnt : nt.numNodes.toNat = nt.names.length := by
    rw [h.count, Int.toNat_natCast]
  rw [hcnt]
  by_cases hzones : nt.zones = []
  · have hnames : nt.names = [] := by rw [names, hzones]; rfl
    refine ⟨[], nt, by rw [hnames]; rfl, ?_⟩
    rw [eachOnce_iff_perm h (by rw [hnames]), hnames]
    refine iff_of_true ⟨nodup_nil, List.Perm.refl _⟩ ⟨nodup_nil, 0, 0, ?_⟩
    intro i zone na hzone
    rw [hzones] at hzone
    cases hzone
  · obtain ⟨out, nt', hnexts, hlen, hrun⟩ := nexts_spec h hzones nt.names.length
    refine ⟨out, nt', hnexts, ?_⟩
    rw [eachOnce_iff_perm h hlen]
    refine and_congr_right fun hnodup => ?_
    rw [← level_rows h, ← all_rows]
    exact perm_all_iff_level hrun (all_rows nt ▸ hlen) ((all_rows nt).symm ▸ hnodup)

end NodeTree

/-! ### Runs -/

inductive TreeOp where
  | addNode (n : Node)
  | removeNode (n : Node)
  | updateNode (old new : Node)
  | next

def TreeOp.apply (nt : NodeTree) : TreeOp → Option NodeTree
  | .addNode n => some (nt.addNode n)
  | .removeNode n => some (nt.afterRemoveNode n)
  | .updateNode old new => some (nt.updateNode old new)
  | .next => nt.next.map Prod.snd

def treeSystem : System NodeTree TreeOp :=
  System.ofFun (fun nt op => (op.apply nt).isSome) fun nt op => (op.apply nt).getD nt

theorem NodeTree.WellFormed.step {nt nt' : NodeTree} {op : TreeOp}
    (hstep : treeSystem.step nt op nt') (h : nt.WellFormed) : nt'.WellFormed := by
  obtain ⟨_, rfl⟩ := hstep
  cases op with
  | addNode n => exact h.addNode n
  | removeNode n => exact h.afterRemoveNode n
  | updateNode old new => exact h.updateNode old new
  | next =>
    obtain ⟨_, _, hnext, hsame⟩ := NodeTree.next_returns h
    show ((nt.next.map Prod.snd).getD nt).WellFormed
    rw [hnext]
    exact hsame.wellFormed h

theorem NodeTree.wellFormed_of_run {ops : List TreeOp} {nt : NodeTree} (hrun : treeSystem.Run {} ops nt) :
    nt.WellFormed :=
  hrun.invariant NodeTree.WellFormed (fun _ _ _ => NodeTree.WellFormed.step) NodeTree.wellFormed_empty

/-- **In every tree that calls lead to, as many calls of `Next` as there are nodes return, and they
return every node once exactly if no two zones have a name in common and the zones are level.** -/
theorem nexts_each_once {ops : List TreeOp} {nt : NodeTree} (hrun : treeSystem.Run {} ops nt) :
    ∃ out nt', nt.nexts nt.numNodes.toNat = some (out, nt') ∧
      ((out.Nodup ∧ ∀ name, name ∈ out ↔ ∃ zone, name ∈ nt.namesAt zone) ↔ nt.names.Nodup ∧ nt.Level) := by
  exact NodeTree.nexts_eachOnce_iff (NodeTree.wellFormed_of_run hrun)

def zoneNode (name zone : String) : Node :=
  { name, labels := Finmap.singleton labelZoneFailureDomain zone, allocatable := .empty, taints := []
    conditions := [], images := [] }

def levelOps : List TreeOp :=
  [.addNode (zoneNode "a" "z1"), .addNode (zoneNode "b" "z1"), .addNode (zoneNode "x" "z2"), .next]

theorem nexts_each_once_level :
    ∃ nt out nt', treeSystem.Run {} levelOps nt ∧ nt.nexts nt.numNodes.toNat = some (out, nt') ∧
      out.Nodup ∧ ∀ name, name ∈ out ↔ ∃ zone, name ∈ nt.namesAt zone := by
  have hrun : treeSystem.Run {} levelOps (levelOps.foldl (fun nt op => (op.apply nt).getD nt) {}) :=
    System.run_foldl (by decide)
  obtain ⟨out, nt', hnexts, hiff⟩ := nexts_each_once hrun
  refine ⟨_, out, nt', hrun, hnexts, hiff.mpr ⟨by decide, 0, 1, ?_⟩⟩
  rintro (_ | _ | i) _ _ hzone hna
  · cases hzone
    cases hna
    rfl
  · cases hzone
    cases hna
    rfl
  · cases hzone

def lateZone : List TreeOp :=
  [.addNode (zoneNode "a" "z1"), .addNode (zoneNode "b" "z1"), .next, .next,
    .addNode (zoneNode "x" "z2"), .addNode (zoneNode "y" "z2")]

/-- The next four calls return a node of the late zone twice, and a node of the other one never. -/
theorem nexts_late_zone : ∃ nt nt', treeSystem.Run {} lateZone nt ∧ nt.numNodes = 4 ∧
      nt.nexts 4 = some (["x", "y", "a", "x"], nt') ∧ nt.names = ["a", "b", "x", "y"] := by
  refine ⟨_, _, System.run_foldl (by decide), by decide, rfl, by decide⟩

/-- **In every tree with nodes that calls lead to, `Next` returns a name of the tree, after one visit more than there
are zones at the most.** It ends with the zone index in bounds, and in each zone stands where it stood, or in bounds. -/
theorem next_terminates {ops : List TreeOp} {nt : NodeTree} (hrun : treeSystem.Run {} ops nt)
    (hnodes : 0 < nt.numNodes) :
    ∃ name nt', nt.next = some (name, nt') ∧ nt.nextLoop (nt.zones.length + 1) 0 = some (name, nt') ∧
      (∃ zone, name ∈ nt.namesAt zone) ∧ nt'.zoneIndex ≤ nt'.zones.length ∧
      ∀ zone na, nt'.tree.lookup zone = some na → na.lastIndex ≤ na.nodes.length ∨ nt.tree.lookup zone = some na := by
  have h := NodeTree.wellFormed_of_run hrun
  have hzones : nt.zones ≠ [] := by
    intro hnil
    rw [h.count, NodeTree.names, hnil] at hnodes
    exact Int.lt_irrefl 0 hnodes
  obtain ⟨name, nt', hnext, hsame, hstep⟩ := NodeTree.next_spec h hzones
  obtain ⟨hname, hindex, hrows⟩ := bounds_of_step hstep
  rw [NodeTree.all_rows, h.mem_names] at hname
  rw [NodeTree.length_rows] at hindex
  refine ⟨name, nt', hnext, ?_, hname, hindex, fun zone na hna => ?_⟩
  · rwa [NodeTree.next, if_neg hzones] at hnext
  · have hzone : zone ∈ nt'.zones :=
      ((hsame.wellFormed h).zones_keys zone).mpr (Finmap.mem_of_lookup_eq_some hna)
    obtain ⟨i, hi⟩ := List.getElem?_of_mem hzone
    obtain ⟨before, hbefore⟩ := h.lookup_of_mem (hsame.zones ▸ hzone)
    obtain hle | hrow := hrows i ⟨na.nodes, na.lastIndex⟩ (by
      rw [NodeTree.getElem?_rows, hi, Option.map_some, NodeTree.rowAt_of_lookup hna])
    · exact .inl hle
    · rw [NodeTree.getElem?_rows, ← hsame.zones, hi, Option.map_some, NodeTree.rowAt_of_lookup hbefore] at hrow
      cases before
      cases hrow
      exact .inr hbefore

theorem next_terminates_level : ∃ nt name nt', treeSystem.Run {} levelOps nt ∧ nt.next = some (name, nt') ∧
    ∃ zone, name ∈ nt.namesAt zone := by
  have hrun : treeSystem.Run {} levelOps (levelOps.foldl (fun nt op => (op.apply nt).getD nt) {}) :=
    System.run_foldl (by decide)
  obtain ⟨name, nt', hnext, _, hname, _⟩ := next_terminates hrun (by decide)
  exact ⟨_, name, nt', hrun, hnext, hname⟩

def shrunkZone : List TreeOp :=
  levelOps ++ [.next, .next, .removeNode (zoneNode "a" "z1"), .addNode (zoneNode "y" "z2")]

/-- The zone that lost a node keeps its index, which `Next` leaves past the end. -/
theorem next_past_end : ∃ nt nt' na, treeSystem.Run {} shrunkZone nt ∧ nt.next = some ("y", nt') ∧
    nt'.tree.lookup (getZoneKey (zoneNode "b" "z1")) = some na ∧ na.nodes.length < na.lastIndex := by
  refine ⟨_, _, _, System.run_foldl (by decide), rfl, rfl, by decide⟩

end LeanKube.Scheduler
