import Mathlib.Data.List.Infix

/-! Labelled transition systems: runs with their list of labels, and the rule that an invariant
of every step is an invariant of every run. -/

namespace LeanKube
open List

/-- A labelled transition system. -/
structure System (σ ι : Type) where
  step : σ → ι → σ → Prop

namespace System
variable {σ ι : Type} (T : System σ ι)

/-- The runs, with the labels of their steps. -/
inductive Run : σ → List ι → σ → Prop where
  | nil (s : σ) : Run s [] s
  | snoc {s t u : σ} {labels : List ι} {label : ι} : Run s labels t → T.step t label u → Run s (labels ++ [label]) u

variable {T} {t u s : σ} {label : ι} {labels : List ι} {P : σ → Prop} {enabled : σ → ι → Prop}
  {next : σ → ι → σ}

theorem Run.append {first second : List ι} (h : T.Run s first t) (h' : T.Run t second u) :
    T.Run s (first ++ second) u := by
  induction h' with
  | nil => rwa [append_nil]
  | snoc _ hstep ih =>
    rw [← append_assoc]
    exact Run.snoc ih hstep

theorem Run.single (h : T.step s label t) : T.Run s [label] t := Run.snoc (Run.nil s) h

theorem Run.last (h : T.Run s (labels ++ [label]) u) : ∃ t, T.Run s labels t ∧ T.step t label u := by
  generalize hall : labels ++ [label] = all at h
  cases h with
  | nil => exact absurd hall (append_ne_nil_of_right_ne_nil labels (cons_ne_nil _ _))
  | snoc hrun hstep =>
    obtain ⟨rfl, hlabel⟩ := append_inj' hall rfl
    cases hlabel
    exact ⟨_, hrun, hstep⟩

theorem Run.split {first second : List ι} (h : T.Run s (first ++ second) u) :
    ∃ t, T.Run s first t ∧ T.Run t second u := by
  induction second using List.reverseRecOn generalizing u with
  | nil => exact ⟨u, append_nil first ▸ h, Run.nil u⟩
  | append_singleton _ _ ih =>
    rw [← append_assoc] at h
    obtain ⟨t, hlabels, hstep⟩ := h.last
    obtain ⟨middle, hfirst, hsnd⟩ := ih hlabels
    exact ⟨middle, hfirst, hsnd.snoc hstep⟩

theorem Run.first (h : T.Run s (label :: labels) u) : ∃ t, T.step s label t ∧ T.Run t labels u := by
  have hcons : T.Run s ([label] ++ labels) u := h
  obtain ⟨t, hfirst, hrest⟩ := hcons.split
  have hsingle : T.Run s ([] ++ [label]) t := hfirst
  obtain ⟨_, hnil, hstep⟩ := hsingle.last
  generalize hnone : ([] : List ι) = none at hnil
  cases hnil with
  | nil => exact ⟨t, hstep, hrest⟩
  | snoc => exact absurd hnone (append_ne_nil_of_right_ne_nil _ (cons_ne_nil _ _)).symm

theorem Run.invariant (I : σ → Prop) (hI : ∀ s label t, T.step s label t → I s → I t)
    (h : T.Run s labels t) (hs : I s) : I t := by
  induction h with
  | nil => exact hs
  | snoc _ hstep ih => exact hI _ _ _ hstep ih

theorem Run.history (I : List ι → σ → Prop)
    (hI : ∀ labels s label t, T.step s label t → I labels s → I (labels ++ [label]) t)
    (h : T.Run s labels t) (hs : I [] s) : I labels t := by
  induction h with
  | nil => exact hs
  | snoc _ hstep ih => exact hI _ _ _ _ hstep ih

/-- As long as some own step lowers the measure, the own steps alone can lead to a state in which it is zero. -/
theorem exists_run_of_decreasing {own : ι → Prop} (measure : σ → Nat)
    (hdecr : ∀ s, P s → measure s ≠ 0 → ∃ label t, own label ∧ T.step s label t ∧ P t ∧ measure t < measure s)
    (hs : P s) : ∃ labels t, T.Run s labels t ∧ (∀ label ∈ labels, own label) ∧ P t ∧ measure t = 0 := by
  induction hm : measure s using Nat.strong_induction_on generalizing s with
  | _ m ih =>
    by_cases hzero : measure s = 0
    · exact ⟨[], s, .nil s, nofun, hs, hzero⟩
    · obtain ⟨label, t, hown, hstep, ht, hlt⟩ := hdecr s hs hzero
      obtain ⟨labels, u, hrun, hall, hu, hdone⟩ := ih _ (hm ▸ hlt) ht rfl
      exact ⟨label :: labels, u, (Run.single hstep).append hrun, forall_mem_cons.mpr ⟨hown, hall⟩, hu, hdone⟩

/-! ### States on the way -/

/-- The run passes a state with `P`. -/
def Visits (T : System σ ι) (P : σ → Prop) (s : σ) (labels : List ι) (t : σ) : Prop :=
  ∃ first second m, labels = first ++ second ∧ T.Run s first m ∧ P m ∧ T.Run m second t

theorem Run.visits_last (h : T.Run s labels t) (ht : P t) : T.Visits P s labels t :=
  ⟨labels, [], t, (append_nil labels).symm, h, ht, Run.nil t⟩

theorem Visits.snoc (h : T.Visits P s labels t) (hstep : T.step t label u) : T.Visits P s (labels ++ [label]) u := by
  obtain ⟨first, second, m, rfl, hfirst, hm, hsnd⟩ := h
  exact ⟨first, second ++ [label], m, append_assoc .., hfirst, hm, hsnd.snoc hstep⟩

theorem Visits.mono {Q : σ → Prop} (h : T.Visits P s labels t) (hPQ : ∀ m, P m → Q m) : T.Visits Q s labels t := by
  obtain ⟨first, second, m, hlabels, hfirst, hm, hsnd⟩ := h
  exact ⟨first, second, m, hlabels, hfirst, hPQ m hm, hsnd⟩

theorem Run.eq_of_nil (h : T.Run s [] t) : t = s := by
  generalize hnil : ([] : List ι) = labels at h
  cases h with
  | nil => rfl
  | snoc => exact absurd hnil (append_ne_nil_of_right_ne_nil _ (cons_ne_nil _ _)).symm

theorem Visits.of_single (h : T.Visits P s [label] t) : P s ∨ P t := by
  obtain ⟨_, _, m, hlabels, hfirst, hm, hsnd⟩ := h
  rcases append_eq_singleton_iff.mp hlabels.symm with ⟨rfl, -⟩ | ⟨-, rfl⟩
  · rw [hfirst.eq_of_nil] at hm
    exact .inl hm
  · rw [← hsnd.eq_of_nil] at hm
    exact .inr hm

/-! ### Systems given by a function -/

/-- The system in which `label` leads from `s` to `next s label`, whenever `enabled s label`. -/
def ofFun (enabled : σ → ι → Prop) (next : σ → ι → σ) : System σ ι where
  step s label t := enabled s label ∧ t = next s label

def Allowed (enabled : σ → ι → Prop) (next : σ → ι → σ) : σ → List ι → Prop
  | _, [] => True
  | s, label :: rest => enabled s label ∧ Allowed enabled next (next s label) rest

instance allowedDecidable (enabled : σ → ι → Prop) [∀ s label, Decidable (enabled s label)]
    (next : σ → ι → σ) : (s : σ) → (labels : List ι) → Decidable (Allowed enabled next s labels)
  | _, [] => .isTrue trivial
  | s, label :: rest =>
    have := allowedDecidable enabled next (next s label) rest
    inferInstanceAs (Decidable (enabled s label ∧ Allowed enabled next (next s label) rest))

theorem run_foldl (h : Allowed enabled next s labels) : (ofFun enabled next).Run s labels (labels.foldl next s) := by
  induction labels generalizing s with
  | nil => exact Run.nil s
  | cons label _ ih =>
    have hstep : (ofFun enabled next).step s label (next s label) := ⟨h.1, rfl⟩
    exact (Run.single hstep).append (ih h.2)

theorem Run.eq_foldl (h : (ofFun enabled next).Run s labels t) : t = labels.foldl next s := by
  induction h with
  | nil => rfl
  | snoc _ hstep ih => rw [foldl_concat, ← ih, hstep.2]

theorem forall_prefix_of_inits (h : ∀ first ∈ labels.inits, P (first.foldl next s)) (first : List ι)
    (m : σ) (hfirst : first <+: labels) (hrun : (ofFun enabled next).Run s first m) : P m := by
  rw [hrun.eq_foldl]
  exact h first ((mem_inits first labels).mpr hfirst)

end System
end LeanKube
