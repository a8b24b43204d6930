import LeanKube.GoMap

/-! Maps of sets in memory. A Go value of type `map[K]map[V]struct{}` is a reference to a table of
references to sets, so two such maps could share a set. The operations here make every set anew when
its first element is written; then no set is shared, and what is done to one map is not seen through
another. -/

namespace LeanKube
open Finmap GoMap List Nat

/-- The table behind a reference; there is nothing behind one that was not made. -/
def tableAt {K : Type} (tables : List (GoMap K Nat)) (i : Nat) : GoMap K Nat := tables[i]?.getD ∅

/-- The tables and the sets that were made. No two entries of tables refer to one set. -/
structure SetMaps (K V : Type) [DecidableEq K] where
  tables : List (GoMap K Nat) := []
  sets : List (Finset V) := []
  owned : ∀ i j key key' r, (tableAt tables i).lookup key = some r →
    (tableAt tables j).lookup key' = some r → i = j ∧ key = key' := by simp [tableAt]
  allocated : ∀ i key r, (tableAt tables i).lookup key = some r → r < sets.length := by simp [tableAt]

section Tables
variable {K : Type} {tables : List (GoMap K Nat)} {i : Nat}

theorem tableAt_append_empty (tables : List (GoMap K Nat)) (i : Nat) :
    tableAt (tables ++ [∅]) i = tableAt tables i := by
  rw [tableAt, tableAt, List.getElem?_append]
  split_ifs with hlt
  · rfl
  · have hnone : tables[i]? = none := List.getElem?_eq_none (by omega)
    rw [hnone]
    cases htable : [(∅ : GoMap K Nat)][i - tables.length]? with
    | none => rfl
    | some => exact mem_singleton.mp (mem_of_getElem? htable)

theorem tableAt_set (table : GoMap K Nat) (j : Nat) :
    tableAt (tables.set i table) j = if j = i ∧ i < tables.length then table else tableAt tables j := by
  rw [tableAt, tableAt, List.getElem?_set]
  by_cases hij : i = j
  · subst hij
    by_cases hlt : i < tables.length
    · simp [hlt]
    · simp [hlt]
  · simp [hij, Ne.symm hij]

end Tables

namespace SetMaps
variable {K V : Type} [DecidableEq K] (mem : SetMaps K V) (i : Nat)

def table : GoMap K Nat := tableAt mem.tables i

def setAt (r : Nat) : Finset V := mem.sets[r]?.getD ∅

/-- What a reader sees in a map: its keys with their sets. -/
def value : GoMap K (Finset V) := (mem.table i).mapValues mem.setAt

def get (key : K) : Finset V := ((mem.value i).lookup key).getD ∅

/-- The reference of a map that was made. -/
def Live : Prop := i < mem.tables.length

/-! ### Operations -/

def make : Nat × SetMaps K V :=
  (mem.tables.length,
    { tables := mem.tables ++ [∅]
      sets := mem.sets
      owned := by simpa only [tableAt_append_empty] using mem.owned
      allocated := by simpa only [tableAt_append_empty] using mem.allocated })

variable {r : Nat} (key : K) (v : V)
variable {tables : List (GoMap K Nat)}

theorem lookup_set_insert {i j r' : Nat} {key key' : K}
    (h : (tableAt (tables.set i ((tableAt tables i).insert key r)) j).lookup key' = some r') :
    (j = i ∧ key' = key ∧ r' = r) ∨ (tableAt tables j).lookup key' = some r' := by
  rw [tableAt_set] at h
  split_ifs at h with hj
  · rcases of_lookup_insert h with heq | ⟨-, hold⟩
    · exact .inl ⟨hj.1, heq⟩
    · exact .inr (hj.1 ▸ hold)
  · exact .inr h

theorem lookup_set_erase {i j : Nat} {key key' : K}
    (h : (tableAt (tables.set i ((tableAt tables i).erase key)) j).lookup key' = some r) :
    (tableAt tables j).lookup key' = some r := by
  rw [tableAt_set] at h
  split_ifs at h with hj
  · exact hj.1 ▸ (of_lookup_erase h).2
  · exact h

/-- An element is added to the set of a key; a set is made if the key has none. -/
def insert [DecidableEq V] (mem : SetMaps K V) (i : Nat) (key : K) (v : V) : SetMaps K V :=
  match (mem.table i).lookup key with
  | some r =>
    { mem with
      sets := mem.sets.modify r (Insert.insert v)
      allocated := fun i key r h => by
        rw [length_modify]
        exact mem.allocated i key r h }
  | none =>
    { tables := mem.tables.set i ((mem.table i).insert key mem.sets.length)
      sets := mem.sets ++ [{v}]
      owned := fun j j' key₁ key₂ r h₁ h₂ => by
        rcases lookup_set_insert h₁ with ⟨rfl, rfl, rfl⟩ | hold₁
        · rcases lookup_set_insert h₂ with ⟨rfl, rfl, -⟩ | hold₂
          · exact ⟨rfl, rfl⟩
          · exact absurd (mem.allocated _ _ _ hold₂) (lt_irrefl _)
        · rcases lookup_set_insert h₂ with ⟨rfl, rfl, rfl⟩ | hold₂
          · exact absurd (mem.allocated _ _ _ hold₁) (lt_irrefl _)
          · exact mem.owned _ _ _ _ r hold₁ hold₂
      allocated := fun j key' r h => by
        rw [length_append, length_singleton]
        rcases lookup_set_insert h with ⟨-, -, rfl⟩ | hold
        · exact lt_succ_self _
        · exact lt_succ_of_lt (mem.allocated _ _ _ hold) }

def eraseKey (key : K) : SetMaps K V where
  tables := mem.tables.set i ((mem.table i).erase key)
  sets := mem.sets
  owned _ _ _ _ r h₁ h₂ := mem.owned _ _ _ _ r (lookup_set_erase h₁) (lookup_set_erase h₂)
  allocated _ _ r h := mem.allocated _ _ r (lookup_set_erase h)

/-- An element is deleted from the set of a key. -/
def deleteAt [DecidableEq V] (mem : SetMaps K V) (i : Nat) (key : K) (v : V) : SetMaps K V :=
  match (mem.table i).lookup key with
  | none => mem
  | some r =>
    { mem with
      sets := mem.sets.modify r fun set => set.erase v
      allocated := fun i key r h => by
        rw [length_modify]
        exact mem.allocated i key r h }

/-- An element is deleted, and with the last one the key. -/
def remove [DecidableEq V] (mem : SetMaps K V) (i : Nat) (key : K) (v : V) : SetMaps K V :=
  let mem := mem.deleteAt i key v
  if (mem.get i key).card = 0 then mem.eraseKey i key else mem

/-! ### What a reader sees -/

variable (mem : SetMaps K V) {i j : Nat}

theorem lookup_value (i : Nat) (key : K) : (mem.value i).lookup key = ((mem.table i).lookup key).map mem.setAt :=
  lookup_mapValues ..

theorem value_make (i : Nat) : mem.make.2.value i = mem.value i := by
  exact congrArg (GoMap.mapValues mem.setAt) (tableAt_append_empty mem.tables i)

theorem live_make : mem.make.2.Live mem.make.1 := by
  rw [Live]
  simp [make]

variable {mem}

theorem value_of_not_live (h : ¬ mem.Live i) : mem.value i = ∅ := by
  apply ext_lookup
  intro key
  rw [lookup_value, table, tableAt, List.getElem?_eq_none (Nat.le_of_not_lt h)]
  rfl

theorem value_make_self (mem : SetMaps K V) : mem.make.2.value mem.make.1 = ∅ :=
  (mem.value_make _).trans (value_of_not_live (lt_irrefl _))

theorem get_make (mem : SetMaps K V) (key : K) : mem.make.2.get mem.make.1 key = ∅ := by
  rw [get, value_make_self]
  rfl

theorem Live.make (h : mem.Live i) : mem.make.2.Live i := lt_of_lt_of_le h (by simp [SetMaps.make])

theorem getD_modify (sets : List (Finset V)) (f : Finset V → Finset V) (r r' : Nat) (hr : r < sets.length) :
    (sets.modify r f)[r']?.getD ∅ = if r' = r then f (sets[r]?.getD ∅) else sets[r']?.getD ∅ := by
  by_cases hrr : r = r'
  · subst hrr
    simp [hr]
  · simp [hrr, Ne.symm hrr]

theorem lookup_value_modify {sets : List (Finset V)} {allocated} (f : Finset V → Finset V) {key : K}
    (hr : (mem.table i).lookup key = some r) (hsets : sets = mem.sets.modify r f) (j : Nat) (key' : K) :
    (value { mem with sets := sets, allocated := allocated } j).lookup key' =
      if j = i ∧ key' = key then some (f (mem.get i key)) else (mem.value j).lookup key' := by
  subst hsets
  have hlt := mem.allocated i key r hr
  rw [lookup_value, lookup_value]
  change ((mem.table j).lookup key').map (fun r' => (mem.sets.modify r f)[r']?.getD ∅) = _
  simp only [getD_modify mem.sets f r _ hlt]
  split_ifs with hsame
  · rw [hsame.1, hsame.2, hr, get, lookup_value, hr]
    simp [setAt]
  · cases hother : (mem.table j).lookup key' with
    | none => rfl
    | some r' =>
      have hne : r' ≠ r := by
        rintro rfl
        exact hsame (mem.owned j i key' key r' hother hr)
      simp [hne, setAt]

theorem lookup_value_eraseKey (hi : mem.Live i) (key : K) (j : Nat) (key' : K) :
    ((mem.eraseKey i key).value j).lookup key' = if j = i ∧ key' = key then none else (mem.value j).lookup key' := by
  rw [lookup_value, lookup_value, table, eraseKey, tableAt_set]
  by_cases hj : j = i
  · subst hj
    rw [if_pos ⟨rfl, hi⟩, lookup_erase_ite]
    by_cases hkey : key' = key
    · simp [hkey]
    · simp only [hkey, if_false, and_false]
      rfl
  · simp only [hj, false_and, if_false]
    rfl

theorem live_eraseKey : (mem.eraseKey i key).Live j ↔ mem.Live j := by
  rw [Live, Live, eraseKey]
  simp

variable [DecidableEq V]

/-- An insertion is seen under its map and key only. -/
theorem lookup_value_insert (hi : mem.Live i) (key : K) (v : V) (j : Nat) (key' : K) :
    ((mem.insert i key v).value j).lookup key' =
      if j = i ∧ key' = key then some (Insert.insert v (mem.get i key)) else (mem.value j).lookup key' := by
  rw [insert]
  split
  · next r hr => exact lookup_value_modify _ hr rfl j key'
  · next hnone =>
      have hempty : mem.get i key = ∅ := by
        rw [get, lookup_value, hnone]
        rfl
      have hkept : ∀ j key', ((mem.table j).lookup key').map (fun r => (mem.sets ++ [{v}])[r]?.getD ∅) =
          ((mem.table j).lookup key').map mem.setAt := by
        intro j key'
        cases hold : (mem.table j).lookup key' with
        | none => rfl
        | some r => simp [setAt, List.getElem?_append_left (mem.allocated j key' r hold)]
      rw [lookup_value, lookup_value, hempty]
      change ((tableAt (mem.tables.set i ((mem.table i).insert key mem.sets.length)) j).lookup key').map
        (fun r => (mem.sets ++ [{v}])[r]?.getD ∅) = _
      rw [tableAt_set]
      by_cases hj : j = i
      · subst hj
        rw [if_pos ⟨rfl, hi⟩, lookup_insert_ite]
        by_cases hkey : key' = key
        · simp [hkey]
        · simp only [hkey, if_false, and_false]
          exact hkept j key'
      · simp only [hj, false_and, if_false]
        exact hkept j key'

theorem lookup_value_deleteAt (j : Nat) (key' : K) : ((mem.deleteAt i key v).value j).lookup key' =
      if j = i ∧ key' = key then ((mem.value i).lookup key).map fun set => set.erase v
      else (mem.value j).lookup key' := by
  rw [deleteAt]
  split
  · next hnone =>
      split_ifs with hsame
      · rw [hsame.1, hsame.2, lookup_value, hnone]
        rfl
      · rfl
  · next r hr =>
      rw [lookup_value_modify _ hr rfl, get]
      rw [lookup_value mem i key, hr]
      rfl

theorem live_insert : (mem.insert i key v).Live j ↔ mem.Live j := by
  rw [Live, Live, insert]
  split
  · rfl
  · simp

theorem live_deleteAt : (mem.deleteAt i key v).Live j ↔ mem.Live j := by
  rw [Live, Live, deleteAt]
  split <;> rfl

theorem live_remove : (mem.remove i key v).Live j ↔ mem.Live j := by
  rw [remove]
  split_ifs
  · rw [live_eraseKey, live_deleteAt]
  · rw [live_deleteAt]

/-- A removal is seen under its map and key only, and leaves no empty set. -/
theorem lookup_value_remove (hi : mem.Live i) (key : K) (v : V) (j : Nat) (key' : K) :
    ((mem.remove i key v).value j).lookup key' =
      if j = i ∧ key' = key then
        if (mem.get i key).erase v = ∅ then none else some ((mem.get i key).erase v)
      else (mem.value j).lookup key' := by
  have hget : (mem.deleteAt i key v).get i key = (mem.get i key).erase v := by
    rw [get, lookup_value_deleteAt, if_pos ⟨rfl, rfl⟩, get]
    cases (mem.value i).lookup key <;> rfl
  rw [remove]
  simp only [hget, Finset.card_eq_zero]
  split_ifs with hempty hsame hsame
  · rw [lookup_value_eraseKey ((live_deleteAt key v).mpr hi), if_pos hsame]
  · rw [lookup_value_eraseKey ((live_deleteAt key v).mpr hi), if_neg hsame, lookup_value_deleteAt, if_neg hsame]
  · rw [lookup_value_deleteAt, if_pos hsame]
    rw [get] at hempty ⊢
    cases hset : (mem.value i).lookup key with
    | none =>
      rw [hset] at hempty
      exact absurd rfl hempty
    | some => rfl
  · rw [lookup_value_deleteAt, if_neg hsame]

/-! ### The sets of a map -/

/-- No key of the map has an empty set. -/
def Full (mem : SetMaps K V) (i : Nat) : Prop := ∀ key, (mem.value i).lookup key ≠ some ∅

omit [DecidableEq V] in
theorem full_make (mem : SetMaps K V) : mem.make.2.Full mem.make.1 := by
  intro key
  rw [value_make_self]
  simp

omit [DecidableEq V] in
/-- Maps without empty sets are equal if they have the same set for each key. -/
theorem value_eq {mem' : SetMaps K V} (hfull : mem.Full i) (hfull' : mem'.Full j)
    (hget : ∀ key, mem.get i key = mem'.get j key) : mem.value i = mem'.value j := by
  apply ext_lookup
  intro key
  have hkey := hget key
  rw [get, get] at hkey
  cases hset : (mem.value i).lookup key with
  | none =>
    cases hset' : (mem'.value j).lookup key with
    | none => rfl
    | some =>
      rw [hset, hset'] at hkey
      exact absurd (hset'.trans (congrArg some hkey.symm)) (hfull' key)
  | some =>
    cases hset' : (mem'.value j).lookup key with
    | none =>
      rw [hset, hset'] at hkey
      exact absurd (hset.trans (congrArg some hkey)) (hfull key)
    | some =>
      rw [hset, hset'] at hkey
      exact congrArg some hkey

omit [DecidableEq V] in
theorem mem_keys_iff (hfull : mem.Full i) (key : K) : key ∈ (mem.value i).keys ↔ (mem.get i key).Nonempty := by
  rw [Finmap.mem_keys, GoMap.mem_iff_lookup_ne_none, get, Finset.nonempty_iff_ne_empty]
  cases hset : (mem.value i).lookup key with
  | none => simp
  | some => exact iff_of_true (by simp) fun hempty => hfull key (hset.trans (congrArg some hempty))

theorem get_insert (hi : mem.Live i) (key : K) (v : V) (j : Nat) (key' : K) : (mem.insert i key v).get j key' =
      if j = i ∧ key' = key then Insert.insert v (mem.get i key) else mem.get j key' := by
  rw [get, lookup_value_insert hi]
  split_ifs <;> rfl

theorem get_remove (hi : mem.Live i) (key : K) (v : V) (j : Nat) (key' : K) : (mem.remove i key v).get j key' =
      if j = i ∧ key' = key then (mem.get i key).erase v else mem.get j key' := by
  rw [get, lookup_value_remove hi]
  split_ifs with hsame hempty
  · exact hempty.symm
  · rfl
  · rfl

omit [DecidableEq V] in
theorem get_eraseKey (hi : mem.Live i) (key : K) (j : Nat) (key' : K) :
    (mem.eraseKey i key).get j key' = if j = i ∧ key' = key then ∅ else mem.get j key' := by
  rw [get, lookup_value_eraseKey hi]
  split_ifs <;> rfl

section
variable (hfull : mem.Full j) (hi : mem.Live i)
include hfull hi

theorem Full.insert (key : K) (v : V) : (mem.insert i key v).Full j := by
  intro key'
  rw [lookup_value_insert hi]
  split_ifs
  · simp
  · exact hfull key'

theorem Full.remove (key : K) (v : V) : (mem.remove i key v).Full j := by
  intro key'
  rw [lookup_value_remove hi]
  split_ifs with hsame hempty
  · simp
  · exact fun hsome => hempty (Option.some.inj hsome)
  · exact hfull key'

omit [DecidableEq V] in
theorem Full.eraseKey (key : K) : (mem.eraseKey i key).Full j := by
  intro key'
  rw [lookup_value_eraseKey hi]
  split_ifs
  · simp
  · exact hfull key'

end

section
variable (hi : mem.Live i) (hj : j ≠ i)
include hi hj

theorem value_insert_of_ne (key : K) (v : V) : (mem.insert i key v).value j = mem.value j := by
  apply ext_lookup
  intro key'
  rw [lookup_value_insert hi, if_neg fun hsame => hj hsame.1]

theorem value_remove_of_ne (key : K) (v : V) : (mem.remove i key v).value j = mem.value j := by
  apply ext_lookup
  intro key'
  rw [lookup_value_remove hi, if_neg fun hsame => hj hsame.1]

omit [DecidableEq V] in
theorem value_eraseKey_of_ne (key : K) : (mem.eraseKey i key).value j = mem.value j := by
  apply ext_lookup
  intro key'
  rw [lookup_value_eraseKey hi, if_neg fun hsame => hj hsame.1]

end
end SetMaps
end LeanKube
