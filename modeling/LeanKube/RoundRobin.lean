import LeanKube.Transition
import Mathlib.Data.List.Flatten
import Mathlib.Algebra.BigOperators.Group.List.Basic
import Mathlib.Algebra.Order.Ring.Nat

/-! Rows of items that are handed out in turn, row after row and from each row the next item. A row
that has no items left is passed over, and once no row has any all rows start over. How many calls
it takes to see every item depends on where the rows stand: from a standing that calls alone lead to,
as many calls as there are items hand out each item once. -/

namespace LeanKube
open List Nat
variable {α : Type}

structure Row (α : Type) where
  items : List α
  taken : Nat

def Row.left (row : Row α) : List α := row.items.drop row.taken

structure RoundRobin (α : Type) where
  rows : List (Row α)
  index : Nat

namespace RoundRobin
variable (s : RoundRobin α)

def all : List α := s.rows.flatMap Row.items

def left : List α := s.rows.flatMap Row.left

def reset : RoundRobin α where
  rows := s.rows.map fun row => { row with taken := 0 }
  index := 0

def start : Nat := if s.index < s.rows.length then s.index else 0

def Exhausted (i : Nat) : Prop :=
  ∀ row, s.rows[i]? = some row → row.items.length ≤ row.taken

/-- `x` is the next item of the first row, from `start` on and around, that has items left. -/
def Takes (x : α) (s' : RoundRobin α) : Prop :=
  ∃ front row back offset, s.rows = front ++ row :: back ∧ row.items[row.taken]? = some x ∧
    front.length = (s.start + offset) % s.rows.length ∧ offset < s.rows.length ∧
    (∀ k < offset, s.Exhausted ((s.start + k) % s.rows.length)) ∧
    s' = ⟨front ++ { row with taken := row.taken + 1 } :: back, front.length + 1⟩

/-- A call hands out an item; if no row has any left, all of them start over. The labels of the
system are the items. -/
def system (α : Type) : System (RoundRobin α) α where
  step s x s' := s.Takes x s' ∨ s.left = [] ∧ s.reset.Takes x s'

/-! ### What is left -/

variable {s s' : RoundRobin α} {x : α} {out : List α} {r j : Nat}

theorem Takes.left (h : s.Takes x s') : s.left.Perm (x :: s'.left) := by
  obtain ⟨_, row, _, _, hrows, hx, _, _, _, rfl⟩ := h
  obtain ⟨hlt, rfl⟩ := List.getElem?_eq_some_iff.mp hx
  have hrow : row.left = row.items[row.taken] :: row.items.drop (row.taken + 1) := drop_eq_getElem_cons hlt
  rw [RoundRobin.left, hrows, RoundRobin.left]
  simp only [flatMap_append, flatMap_cons, hrow, cons_append]
  exact perm_middle

theorem Takes.items (h : s.Takes x s') : s'.rows.map Row.items = s.rows.map Row.items := by
  obtain ⟨_, _, _, _, hrows, _, _, _, _, rfl⟩ := h
  rw [hrows, map_append, map_append, map_cons, map_cons]

variable (s)

theorem items_reset : s.reset.rows.map Row.items = s.rows.map Row.items := by
  rw [reset, map_map]
  rfl

theorem left_reset : s.reset.left = s.all := by
  rw [left, reset, flatMap_map, all]
  rfl

variable {s}

theorem run_left (h : (system α).Run s out s') (hlen : out.length ≤ s.left.length) :
    s.left.Perm (out ++ s'.left) ∧ s'.rows.map Row.items = s.rows.map Row.items := by
  induction h with
  | nil => exact ⟨List.Perm.refl _, rfl⟩
  | @snoc middle last out x _ hstep ih =>
    rw [length_append, length_singleton] at hlen
    obtain ⟨hperm, hitems⟩ := ih (by omega)
    have htakes : middle.Takes x last := by
      refine hstep.resolve_right fun hnone => ?_
      have hcnt := hperm.length_eq
      rw [length_append, hnone.1, length_nil] at hcnt
      omega
    refine ⟨?_, htakes.items.trans hitems⟩
    rw [append_assoc]
    exact hperm.trans (htakes.left.append_left out)

theorem not_takes_of_left_nil (h : s.left = []) : ¬s.Takes x s' := by
  intro htakes
  have hperm := htakes.left
  rw [h] at hperm
  exact absurd hperm.symm.eq_nil (cons_ne_nil _ _)

theorem start_lt (h : 0 < s.rows.length) : s.start < s.rows.length := by
  rw [start]
  split_ifs with hlt
  · exact hlt
  · exact h

theorem start_add_mod {start i n : Nat} (hstart : start < n) (hi : i < n) :
    (start + if start ≤ i then i - start else i + n - start) % n = i := by
  split_ifs with hle
  · rw [Nat.add_sub_cancel' hle, Nat.mod_eq_of_lt hi]
  · rw [mod_eq_sub_mod (by omega), mod_eq_of_lt (by omega)]
    omega

theorem left_eq_nil (h : ∀ k < s.rows.length, s.Exhausted ((s.start + k) % s.rows.length)) : s.left = [] := by
  refine flatMap_eq_nil_iff.mpr fun _ hrow => ?_
  obtain ⟨i, hi, rfl⟩ := getElem_of_mem hrow
  have hstart : s.start < s.rows.length := start_lt (by omega)
  refine drop_eq_nil_of_le (h (if s.start ≤ i then i - s.start else i + s.rows.length - s.start) ?_ _ ?_)
  · split_ifs <;> omega
  · rw [start_add_mod hstart hi, getElem?_eq_getElem hi]

theorem run_of_left_nil (h : (system α).Run s out s') (hleft : s.left = []) (hout : out ≠ []) :
    (system α).Run s.reset out s' := by
  obtain ⟨x, _, rfl⟩ := exists_cons_of_ne_nil hout
  obtain ⟨t, hstep, hrest⟩ := h.first
  have htakes := (hstep.resolve_left (not_takes_of_left_nil hleft)).2
  have hfirst : (system α).Run s.reset [x] t := System.Run.single (.inl htakes)
  exact hfirst.append hrest

theorem run_all (h : (system α).Run s out s') (hlen : out.length = s.all.length) (hle : s.left.length ≤ s.all.length) :
    ∃ first second fresh, out = first ++ second ∧ s.left.Perm first ∧
      (system α).Run s.reset second fresh ∧ second.length = s.all.length - s.left.length := by
  obtain ⟨first, second, rfl, hfirst⟩ : ∃ first second, out = first ++ second ∧ first.length = s.left.length :=
    ⟨out.take s.left.length, out.drop s.left.length, (take_append_drop _ _).symm, length_take_of_le (hlen ▸ hle)⟩
  obtain ⟨middle, hrun, hrest⟩ := h.split
  have hperm := (run_left hrun hfirst.le).1
  have hnil : middle.left = [] := by
    have hcnt := hperm.length_eq
    rw [length_append] at hcnt
    exact eq_nil_of_length_eq_zero (by omega)
  rw [hnil, append_nil] at hperm
  rw [length_append] at hlen
  have hsnd : second.length = s.all.length - s.left.length := by omega
  have hreset : middle.reset = s.reset := by
    have hitems := (run_left hrun hfirst.le).2
    have hrows : ∀ t : RoundRobin α, t.reset = ⟨(t.rows.map Row.items).map fun items => ⟨items, 0⟩, 0⟩ := by
      intro t
      rw [reset, map_map]
      rfl
    rw [hrows, hrows, hitems]
  by_cases hempty : second = []
  · exact ⟨first, second, s.reset, rfl, hperm, hempty ▸ System.Run.nil _, hsnd⟩
  · exact ⟨first, second, s', rfl, hperm, hreset ▸ run_of_left_nil hrest hnil hempty, hsnd⟩

/-! ### Standings -/

variable (rows : List (Row α))

/-- The rows before `j` have handed out `r + 1` items and the others `r`, or all they have. -/
def LevelAt (r j : Nat) : Prop :=
  ∀ i row, rows[i]? = some row → min row.taken row.items.length = min (r + if i < j then 1 else 0) row.items.length

def Level (s : RoundRobin α) : Prop := ∃ r j, LevelAt s.rows r j

theorem getElem?_write (front back : List (Row α)) (row row' : Row α) {i : Nat} : (front ++ row' :: back)[i]? =
      if i = front.length then some row' else (front ++ row :: back)[i]? := by
  split_ifs with hi
  · rw [hi, getElem?_append_right (Nat.le_refl _), Nat.sub_self]
    rfl
  · rcases lt_or_gt_of_ne hi with hlt | hgt
    · rw [getElem?_append_left hlt, getElem?_append_left hlt]
    · rw [getElem?_append_right hgt.le, getElem?_append_right hgt.le]
      obtain ⟨k, hk⟩ : ∃ k, i - front.length = k + 1 := ⟨i - front.length - 1, by omega⟩
      rw [hk, getElem?_cons_succ, getElem?_cons_succ]

theorem Takes.bounds (h : s.Takes x s') : x ∈ s.left ∧ s'.index ≤ s'.rows.length ∧
    ∀ (i : Nat) row, s'.rows[i]? = some row → row.taken ≤ row.items.length ∨ s.rows[i]? = some row := by
  refine ⟨h.left.mem_iff.mpr mem_cons_self, ?_⟩
  obtain ⟨front, row, back, _, hrows, hx, _, _, _, rfl⟩ := h
  refine ⟨by simp only [length_append, length_cons]; omega, fun i row' hi => ?_⟩
  rw [getElem?_write front back row, ← hrows] at hi
  split_ifs at hi
  · cases hi
    exact .inl (List.getElem?_eq_some_iff.mp hx).1
  · exact .inr hi

theorem bounds_of_step (h : (system α).step s x s') : x ∈ s.all ∧ s'.index ≤ s'.rows.length ∧
    ∀ (i : Nat) row, s'.rows[i]? = some row → row.taken ≤ row.items.length ∨ s.rows[i]? = some row := by
  obtain htakes | ⟨_, htakes⟩ := h
  · obtain ⟨hleft, hbounds⟩ := htakes.bounds
    obtain ⟨row, hrow, hx⟩ := mem_flatMap.mp hleft
    exact ⟨mem_flatMap.mpr ⟨row, hrow, mem_of_mem_drop hx⟩, hbounds⟩
  · obtain ⟨hx, hindex, hrows⟩ := htakes.bounds
    refine ⟨left_reset s ▸ hx, hindex, fun i row hi => .inl ((hrows i row hi).elim id fun hfresh => ?_)⟩
    rw [reset, getElem?_map] at hfresh
    obtain ⟨_, _, rfl⟩ := Option.map_eq_some_iff.mp hfresh
    exact zero_le _

theorem levelAt_start (h : LevelAt s.rows r j) (hidx : s.index = j) (hj : j ≤ s.rows.length)
    (hrows : 0 < s.rows.length) : ∃ r, LevelAt s.rows r s.start ∧ s.start < s.rows.length := by
  rw [start]
  split_ifs with hlt
  · exact ⟨r, hidx ▸ h, hlt⟩
  · refine ⟨r + 1, fun i row hrow => ?_, hrows⟩
    have hi : i < s.rows.length := (List.getElem?_eq_some_iff.mp hrow).1
    have hmin := h i row hrow
    rw [if_pos (by omega)] at hmin
    exact hmin

theorem levelAt_write {front back : List (Row α)} {row : Row α}
    (hothers : ∀ l row', (front ++ row :: back)[l]? = some row' → l ≠ front.length → min row'.taken row'.items.length =
        min (r + if l < front.length + 1 then 1 else 0) row'.items.length) (hself : row.taken = r) :
    LevelAt (front ++ { row with taken := row.taken + 1 } :: back) r (front.length + 1) := by
  intro l row' hl
  rw [getElem?_write front back row] at hl
  split_ifs at hl with hfront
  · cases hl
    rw [if_pos (by omega)]
    rw [hself]
  · exact hothers l row' hl hfront

theorem Takes.levelAt (h : s.Takes x s') (hlevel : LevelAt s.rows r j) (hidx : s.index = j)
    (hj : j ≤ s.rows.length) : ∃ r j, LevelAt s'.rows r j ∧ s'.index = j ∧ j ≤ s'.rows.length := by
  obtain ⟨front, row, back, offset, hrows, hx, hfront, _, hexh, rfl⟩ := h
  obtain ⟨r, hlevel, hstart⟩ := levelAt_start hlevel hidx hj (by omega)
  have htaken : row.taken < row.items.length := (List.getElem?_eq_some_iff.mp hx).1
  have hrow : s.rows[front.length]? = some row := by
    rw [hrows, getElem?_write front back row row, if_pos rfl]
  have hpassed : ∀ l row', s.rows[l]? = some row' →
      (if s.start ≤ l then l - s.start else l + s.rows.length - s.start) < offset →
      row'.items.length ≤ row'.taken := by
    intro l row' hl hk
    apply hexh _ hk row'
    rwa [start_add_mod hstart (List.getElem?_eq_some_iff.mp hl).1]
  have hbound : front.length + 1 ≤ (front ++ { row with taken := row.taken + 1 } :: back).length := by
    rw [length_append, length_cons]
    omega
  have hself := hlevel front.length row hrow
  by_cases hwrap : s.start + offset < s.rows.length
  · -- the search has not come around: the rows it passed are short
    rw [mod_eq_of_lt hwrap] at hfront
    refine ⟨r, front.length + 1, levelAt_write ?_ ?_, rfl, hbound⟩
    · intro l row' hl hne
      rw [← hrows] at hl
      have hmin := hlevel l row' hl
      by_cases hin : s.start ≤ l ∧ l < front.length
      · have hshort := hpassed l row' hl (by rw [if_pos hin.1]; omega)
        rw [if_neg (by omega)] at hmin
        omega
      · by_cases hlt : l < s.start
        · rw [if_pos hlt] at hmin
          rw [if_pos (by omega)]
          exact hmin
        · rw [if_neg hlt] at hmin
          rw [if_neg (by omega)]
          exact hmin
    · rw [if_neg (by omega)] at hself
      omega
  · -- the search has come around, so the next round has begun
    have hmod : (s.start + offset) % s.rows.length = s.start + offset - s.rows.length := by
      rw [mod_eq_sub_mod (by omega), mod_eq_of_lt (by omega)]
    refine ⟨r + 1, front.length + 1, levelAt_write ?_ ?_, rfl, hbound⟩
    · intro l row' hl hne
      rw [← hrows] at hl
      have hmin := hlevel l row' hl
      have hl' : l < s.rows.length := (List.getElem?_eq_some_iff.mp hl).1
      by_cases hlt : l < s.start
      · rw [if_pos hlt] at hmin
        by_cases hbefore : l < front.length
        · have hshort := hpassed l row' hl (by rw [if_neg (by omega)]; omega)
          omega
        · rw [if_neg (by omega)]
          exact hmin
      · have hshort := hpassed l row' hl (by rw [if_pos (by omega)]; omega)
        rw [if_neg hlt] at hmin
        omega
    · rw [if_pos (by omega)] at hself
      omega

theorem run_reset_level {fresh : RoundRobin α} (h : (system α).Run s.reset out fresh)
    (hlen : out.length ≤ s.all.length) : fresh.Level := by
  have hstart : LevelAt s.reset.rows 0 0 := by
    intro i row hrow
    rw [reset, getElem?_map] at hrow
    obtain ⟨_, _, rfl⟩ := Option.map_eq_some_iff.mp hrow
    rw [if_neg (not_lt_zero i)]
  have hrun : ∀ {t : RoundRobin α} {out : List α}, (system α).Run s.reset out t → out.length ≤ s.all.length →
      ∃ r j, LevelAt t.rows r j ∧ t.index = j ∧ j ≤ t.rows.length := by
    intro t out h
    induction h with
    | nil => exact fun _ => ⟨0, 0, hstart, rfl, zero_le _⟩
    | @snoc middle last out x hrun hstep ih =>
      intro hlen
      rw [length_append, length_singleton] at hlen
      have hperm := (run_left hrun (by rw [left_reset]; omega)).1.length_eq
      rw [left_reset, length_append] at hperm
      have htakes : middle.Takes x last := by
        refine hstep.resolve_right fun hnone => ?_
        rw [hnone.1, length_nil] at hperm
        omega
      obtain ⟨r, j, hlevel, hidx, hj⟩ := ih (by omega)
      exact htakes.levelAt hlevel hidx hj
  obtain ⟨r, j, hlevel, _⟩ := hrun h hlen
  exact ⟨r, j, hlevel⟩

/-! ### Comparing standings -/

def remaining : List Nat := rows.map fun row => row.left.length

theorem length_left (s : RoundRobin α) : s.left.length = (remaining s.rows).sum := length_flatMap

theorem sum_le_of_forall₂_le {xs ys : List Nat} (h : List.Forall₂ (· ≤ ·) xs ys) :
    xs.sum ≤ ys.sum ∧ (xs.sum = ys.sum → xs = ys) := by
  induction h with
  | nil => exact ⟨le_refl _, fun _ => rfl⟩
  | cons hle _ ih =>
    rw [sum_cons, sum_cons]
    refine ⟨Nat.add_le_add hle ih.1, fun _ => ?_⟩
    rw [ih.2 (by omega), show _ = _ from le_antisymm hle (by omega)]

variable {rows rows' : List (Row α)}

theorem remaining_le_of_levelAt
    (hitems : rows'.map Row.items = rows.map Row.items) {r' j' : Nat} (hlevel : LevelAt rows r j)
    (hlevel' : LevelAt rows' r' j') (hle : r < r' ∨ r = r' ∧ j ≤ j') :
    List.Forall₂ (· ≤ ·) (remaining rows') (remaining rows) := by
  have hlen : rows'.length = rows.length := by
    have hmap := congrArg length hitems
    rwa [length_map, length_map] at hmap
  rw [forall₂_iff_get]
  refine ⟨by rw [remaining, remaining, length_map, length_map, hlen], ?_⟩
  intro i hi' hi
  rw [remaining, length_map] at hi hi'
  simp only [remaining, get_eq_getElem, getElem_map, Row.left, length_drop]
  have hmin := hlevel i _ (getElem?_eq_getElem hi)
  have hmin' := hlevel' i _ (getElem?_eq_getElem hi')
  have hsame : rows'[i].items = rows[i].items := by
    have hget := congrArg (fun items => items[i]?) hitems
    simpa only [getElem?_map, getElem?_eq_getElem hi, getElem?_eq_getElem hi',
      Option.map_some, Option.some.injEq] using hget
  rw [hsame] at hmin' ⊢
  split_ifs at hmin hmin' <;> omega

theorem remaining_eq_of_level (hitems : s'.rows.map Row.items = s.rows.map Row.items)
    (hlevel : s.Level) (hlevel' : s'.Level) (hleft : s'.left.length = s.left.length) :
    remaining s'.rows = remaining s.rows := by
  obtain ⟨r, j, hr⟩ := hlevel
  obtain ⟨r', j', hr'⟩ := hlevel'
  rw [length_left, length_left] at hleft
  by_cases hle : r < r' ∨ r = r' ∧ j ≤ j'
  · exact (sum_le_of_forall₂_le (remaining_le_of_levelAt hitems hr hr' hle)).2 hleft
  · have hge := remaining_le_of_levelAt hitems.symm hr' hr (by omega)
    exact ((sum_le_of_forall₂_le hge).2 hleft.symm).symm

theorem Level.of_remaining (h : s'.Level) (hitems : s'.rows.map Row.items = s.rows.map Row.items)
    (hremaining : remaining s'.rows = remaining s.rows) : s.Level := by
  obtain ⟨r, j, hlevel⟩ := h
  refine ⟨r, j, fun i _ hrow => ?_⟩
  have hget := congrArg (fun items => items[i]?) hitems
  have hcnt := congrArg (fun counts => counts[i]?) hremaining
  simp only [remaining, getElem?_map, hrow, Option.map_some] at hget hcnt
  obtain ⟨row', hrow', hsame⟩ := Option.map_eq_some_iff.mp hget
  rw [hrow', Option.map_some, Option.some.injEq, Row.left, Row.left, length_drop, length_drop] at hcnt
  have hmin := hlevel i row' hrow'
  rw [hsame] at hmin hcnt
  omega

theorem perm_left_iff [DecidableEq α]
    (hitems : rows'.map Row.items = rows.map Row.items) (hnodup : (rows.flatMap Row.items).Nodup) :
    (rows'.flatMap Row.left).Perm (rows.flatMap Row.left) ↔ remaining rows' = remaining rows := by
  induction rows generalizing rows' with
  | nil =>
    obtain rfl : rows' = [] := map_eq_nil_iff.mp hitems
    exact iff_of_true (List.Perm.refl _) rfl
  | cons row rest ih =>
    obtain ⟨row', rest', rfl, hrow, hrest⟩ := map_eq_cons_iff.mp hitems
    rw [flatMap_cons, nodup_append] at hnodup
    obtain ⟨_, hnodup, hdisjoint⟩ := hnodup
    rw [flatMap_cons, flatMap_cons]
    have hkeep : ∀ row' : Row α, row'.items = row.items → row'.left.filter (· ∈ row.items) = row'.left := by
      intro row' hrow'
      rw [filter_eq_self]
      intro x hx
      rw [decide_eq_true_eq, ← hrow']
      exact mem_of_mem_drop hx
    have hdrop : ∀ rest' : List (Row α), rest'.map Row.items = rest.map Row.items →
        (rest'.flatMap Row.left).filter (· ∈ row.items) = [] := by
      intro rest' hrest'
      rw [filter_eq_nil_iff]
      intro x hx
      rw [decide_eq_true_eq]
      intro hmem
      obtain ⟨other, hother, hxother⟩ := mem_flatMap.mp hx
      have hin : other.items ∈ rest.map Row.items := hrest' ▸ mem_map_of_mem hother
      obtain ⟨other', hother', hsame⟩ := mem_map.mp hin
      refine hdisjoint x hmem x (mem_flatMap.mpr ⟨other', hother', ?_⟩) rfl
      rw [hsame]
      exact mem_of_mem_drop hxother
    constructor
    · intro hperm
      have hhead := hperm.filter (· ∈ row.items)
      rw [filter_append, filter_append, hkeep row' hrow, hkeep row rfl,
        hdrop rest' hrest, hdrop rest rfl, append_nil, append_nil] at hhead
      have htail := (perm_append_left_iff row.left).mp ((hhead.symm.append_right _).trans hperm)
      rw [remaining, map_cons, hhead.length_eq, ← remaining, (ih hrest hnodup).mp htail]
      rfl
    · intro hremaining
      rw [remaining, remaining, map_cons, map_cons, cons.injEq] at hremaining
      obtain ⟨hcnt, hcounts⟩ := hremaining
      have hhead : row'.left = row.left := by
        rw [Row.left, Row.left, length_drop, length_drop, hrow] at hcnt
        rw [Row.left, Row.left, hrow]
        by_cases hlt : row.taken < row.items.length
        · rw [show row'.taken = row.taken by omega]
        · rw [drop_eq_nil_of_le (by omega), drop_eq_nil_of_le (by omega)]
      rw [hhead]
      exact ((ih hrest hnodup).mpr hcounts).append_left _

/-- **As many calls as there are items hand out each item once exactly if the rows are level.** -/
theorem perm_all_iff_level [DecidableEq α] (h : (system α).Run s out s')
    (hlen : out.length = s.all.length) (hnodup : s.all.Nodup) : out.Perm s.all ↔ s.Level := by
  have hle : s.left.length ≤ s.all.length :=
    (List.Sublist.flatMap_right s.rows fun _ _ => drop_sublist _ _).length_le
  obtain ⟨first, second, fresh, rfl, hfirst, hrun, _⟩ := run_all h hlen hle
  have hlevel := run_reset_level hrun (by omega)
  obtain ⟨hfresh, hitems⟩ := run_left hrun (by rw [left_reset]; omega)
  rw [left_reset] at hfresh
  rw [items_reset] at hitems
  -- what the calls from the start leave over is what the first calls handed out
  have hcompare : (first ++ second).Perm s.all ↔ fresh.left.Perm s.left := by
    constructor
    · intro hall
      have hcancel : (second ++ fresh.left).Perm (second ++ s.left) :=
        calc (second ++ fresh.left).Perm s.all := hfresh.symm
          _ |>.Perm (first ++ second) := hall.symm
          _ |>.Perm (second ++ first) := perm_append_comm
          _ |>.Perm (second ++ s.left) := hfirst.symm.append_left second
      exact (perm_append_left_iff second).mp hcancel
    · intro hleft
      calc (first ++ second).Perm (second ++ first) := perm_append_comm
        _ |>.Perm (second ++ fresh.left) := (hfirst.symm.trans hleft.symm).append_left second
        _ |>.Perm s.all := hfresh.symm
  rw [hcompare]
  constructor
  · intro hperm
    exact hlevel.of_remaining hitems ((perm_left_iff hitems hnodup).mp hperm)
  · intro hs
    refine (perm_left_iff hitems hnodup).mpr (remaining_eq_of_level hitems hs hlevel ?_)
    have hcnt := hfresh.length_eq
    rw [length_append] at hcnt
    omega

end RoundRobin
end LeanKube
