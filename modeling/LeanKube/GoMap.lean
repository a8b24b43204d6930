import Mathlib.Data.Finmap

/-! Go maps. A `map[K]V` is a finite map without an iteration order, so it is Mathlib's `Finmap`
at a constant family; `range` visits every key once in an order that the language leaves open,
so a loop over a map takes that order as an argument, unless its body commutes with itself. -/

namespace LeanKube
open List Finmap Option

/-- A Go map: its entries have no order. -/
abbrev GoMap (K V : Type) := Finmap (fun _ : K => V)

namespace GoMap
variable {K V : Type} [DecidableEq K] (m : GoMap K V) (key : K)

theorem lookup_insert_ite (key' : K) (value : V) :
    (m.insert key value).lookup key' = if key' = key then some value else m.lookup key' := by
  split_ifs with h
  · subst h
    exact lookup_insert m
  · exact lookup_insert_of_ne m h

theorem lookup_erase_ite (key' : K) : (m.erase key).lookup key' = if key' = key then none else m.lookup key' := by
  split_ifs with h
  · subst h
    exact lookup_erase key' m
  · exact lookup_erase_ne h

section Entries
variable {m : GoMap K V} {key key' : K} {value value' : V}

theorem of_lookup_insert (h : (m.insert key value).lookup key' = some value') :
    key' = key ∧ value' = value ∨ key' ≠ key ∧ m.lookup key' = some value' := by
  rw [lookup_insert_ite] at h
  split_ifs at h with hkey
  · exact .inl ⟨hkey, (some.inj h).symm⟩
  · exact .inr ⟨hkey, h⟩

theorem of_lookup_erase (h : (m.erase key).lookup key' = some value) : key' ≠ key ∧ m.lookup key' = some value := by
  rw [lookup_erase_ite] at h
  split_ifs at h with hkey
  exact ⟨hkey, h⟩

theorem forall_insert {P : K → V → Prop} (h : ∀ key value, m.lookup key = some value → P key value)
    (hvalue : P key value) (key' : K) (value' : V) (hlookup : (m.insert key value).lookup key' = some value') :
    P key' value' := by
  rcases of_lookup_insert hlookup with ⟨rfl, rfl⟩ | ⟨-, hold⟩
  · exact hvalue
  · exact h key' value' hold

end Entries

theorem mem_iff_lookup_ne_none : key ∈ m ↔ m.lookup key ≠ none := by
  rw [ne_eq, lookup_eq_none, not_not]

theorem insert_of_lookup {m : GoMap K V} {key : K} {value : V} (h : m.lookup key = some value) :
    m.insert key value = m := by
  refine ext_lookup fun _ => ?_
  rw [lookup_insert_ite]
  split_ifs with hkey
  · rw [hkey, h]
  · rfl

theorem erase_insert_self (value : V) : (m.insert key value).erase key = m.erase key := by
  refine ext_lookup fun _ => ?_
  rw [lookup_erase_ite, lookup_erase_ite, lookup_insert_ite]
  split_ifs <;> rfl

theorem erase_erase_self : (m.erase key).erase key = m.erase key := by
  refine ext_lookup fun _ => ?_
  simp only [lookup_erase_ite]
  split_ifs <;> rfl

def Ranges (m : GoMap K V) (order : List K) : Prop := order.Nodup ∧ ∀ key, key ∈ order ↔ key ∈ m

instance rangesDecidable (m : GoMap K V) (order : List K) : Decidable (m.Ranges order) :=
  decidable_of_iff (order.Nodup ∧ order.toFinset = m.keys) <| by
    rw [Ranges, Finset.ext_iff]
    simp only [List.mem_toFinset, Finmap.mem_keys]

/-! ### Loops over keys -/

theorem lookup_foldl_keys {f : GoMap K V → K → GoMap K V}
    (hother : ∀ m key key', key' ≠ key → (f m key).lookup key' = m.lookup key')
    (hself : ∀ m m' key, m.lookup key = m'.lookup key → (f m key).lookup key = (f m' key).lookup key)
    {order : List K} (hnodup : order.Nodup) (m : GoMap K V) (key : K) :
    (order.foldl f m).lookup key = if key ∈ order then (f m key).lookup key else m.lookup key := by
  induction order generalizing m with
  | nil => rfl
  | cons visited _ ih =>
    obtain ⟨hhead, hrest⟩ := nodup_cons.mp hnodup
    rw [foldl_cons, ih hrest]
    by_cases hkey : key = visited
    · subst hkey
      rw [if_neg hhead, if_pos mem_cons_self]
    · simp only [mem_cons, hkey, false_or]
      rw [hself _ m key (hother m visited key hkey), hother m visited key hkey]

def mapValues {W : Type} (f : V → W) (m : GoMap K V) : GoMap K W where
  entries := m.entries.map (Sigma.map id fun _ => f)
  nodupKeys := by
    rw [← Multiset.nodup_keys, Multiset.keys, Multiset.map_map]
    exact m.nodupKeys.nodup_keys

theorem lookup_mapValues {W : Type} (f : V → W) (m : GoMap K V) (key : K) :
    (m.mapValues f).lookup key = (m.lookup key).map f := by
  induction m using induction_on with
  | H => exact dlookup_map₂ (f := fun _ => f) key

def filterValues (p : V → Bool) (m : GoMap K V) : GoMap K V where
  entries := m.entries.filter fun entry => p entry.2
  nodupKeys := by
    rw [← Multiset.nodup_keys]
    exact Multiset.nodup_of_le (Multiset.map_le_map (Multiset.filter_le _ _)) m.nodupKeys.nodup_keys

theorem dlookup_filter (p : K → V → Bool) (key : K) {entries : List (Sigma fun _ : K => V)}
    (hnodup : entries.NodupKeys) :
    (entries.filter fun entry => decide (p entry.1 entry.2 = true)).dlookup key =
      (entries.dlookup key).filter (p key) := by
  simp only [Bool.decide_eq_true]
  induction entries with
  | nil => rfl
  | cons entry _ ih =>
    obtain ⟨hhead, hrest⟩ := nodupKeys_cons.mp hnodup
    by_cases hkey : key = entry.1
    · subst hkey
      rw [dlookup_cons_eq, filter_cons]
      by_cases hp : p entry.1 entry.2
      · rw [if_pos hp, dlookup_cons_eq, filter_some, if_pos hp]
      · rw [if_neg hp, ih hrest, dlookup_eq_none.mpr hhead, filter_some, if_neg hp]
        rfl
    · rw [dlookup_cons_ne _ _ hkey, filter_cons]
      split_ifs
      · rw [dlookup_cons_ne _ _ hkey, ih hrest]
      · exact ih hrest

theorem lookup_filterValues (p : V → Bool) (m : GoMap K V) (key : K) :
    (m.filterValues p).lookup key = (m.lookup key).filter p := by
  induction m using induction_on with
  | _ entries => exact dlookup_filter (fun _ => p) key entries.nodupKeys

def filterKeys (p : K → Bool) (m : GoMap K V) : GoMap K V where
  entries := m.entries.filter fun entry => p entry.1
  nodupKeys := by
    rw [← Multiset.nodup_keys]
    exact Multiset.nodup_of_le (Multiset.map_le_map (Multiset.filter_le _ _)) m.nodupKeys.nodup_keys

theorem lookup_filterKeys (p : K → Bool) (m : GoMap K V) (key : K) :
    (m.filterKeys p).lookup key = if p key then m.lookup key else none := by
  induction m using induction_on with
  | _ entries =>
    refine (dlookup_filter (fun k _ => p k) key entries.nodupKeys).trans ?_
    show (entries.entries.dlookup key).filter (fun _ => p key) = if p key then entries.entries.dlookup key else none
    cases entries.entries.dlookup key with
    | none => rw [filter_none, ite_self]
    | some => rw [filter_some]

/-! ### Loops that add one map into another -/

/-- One turn of the loop: `m[key] = combine(m[key], value)`, with `zero` for an absent `m[key]`. -/
def accumulateAt (combine : V → V → V) (zero : V) (m : GoMap K V) (key : K) (value : V) : GoMap K V :=
  m.insert key (combine ((m.lookup key).getD zero) value)

variable (combine : V → V → V) (zero : V)

theorem lookup_accumulateAt (m : GoMap K V) (key key' : K) (value : V) :
    (m.accumulateAt combine zero key value).lookup key' =
      if key' = key then some (combine ((m.lookup key).getD zero) value) else m.lookup key' :=
  lookup_insert_ite m key key' _

theorem accumulateAt_comm [RightCommutative combine] (m : GoMap K V) (key : K) (value : V) (key' : K) (value' : V) :
    (m.accumulateAt combine zero key value).accumulateAt combine zero key' value' =
      (m.accumulateAt combine zero key' value').accumulateAt combine zero key value := by
  refine ext_lookup fun k => ?_
  simp only [lookup_accumulateAt]
  by_cases hkeys : key' = key
  · subst hkeys
    have hcomm : combine (combine ((m.lookup key').getD zero) value) value' =
        combine (combine ((m.lookup key').getD zero) value') value :=
      RightCommutative.right_comm _ value value'
    rw [if_pos rfl, if_pos rfl, getD_some, getD_some, hcomm]
    split_ifs <;> rfl
  · rw [if_neg hkeys, if_neg (Ne.symm hkeys)]
    split_ifs with h h'
    · exact absurd (h.symm.trans h') hkeys
    all_goals rfl

def accumulate (combine : V → V → V) [RightCommutative combine] (zero : V) (m n : GoMap K V) : GoMap K V :=
  n.foldl (accumulateAt combine zero) (accumulateAt_comm combine zero) m

theorem lookup_accumulate [RightCommutative combine] (m n : GoMap K V) (key : K) :
    (m.accumulate combine zero n).lookup key =
      match n.lookup key with
      | none => m.lookup key
      | some value => some (combine ((m.lookup key).getD zero) value) := by
  induction n using induction_on with
  | _ entries =>
    show (entries.entries.foldl (fun acc entry =>
        GoMap.accumulateAt combine zero acc entry.1 entry.2) m).lookup key =
      match entries.entries.dlookup key with
      | none => m.lookup key
      | some value => some (combine ((m.lookup key).getD zero) value)
    have hnodup := entries.nodupKeys
    generalize entries.entries = list at hnodup ⊢
    induction list generalizing m with
    | nil => rfl
    | cons entry rest ih =>
      obtain ⟨hhead, hrest⟩ := nodupKeys_cons.mp hnodup
      rw [foldl_cons, ih _ hrest, lookup_accumulateAt]
      by_cases hkey : key = entry.1
      · -- the rest of the entries does not have the key again
        subst hkey
        rw [dlookup_eq_none.mpr hhead, if_pos rfl, dlookup_cons_eq]
      · rw [if_neg hkey, dlookup_cons_ne _ _ hkey]

end GoMap
end LeanKube
