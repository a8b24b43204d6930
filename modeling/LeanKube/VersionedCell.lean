import Mathlib.Order.Basic

/-! A cell whose writes get growing versions. A later reader that finds the version of an earlier one
finds the entry of the earlier one, whatever was written and deleted in between. -/

namespace LeanKube

structure VersionedCell (E : Type) {R : Type} [Preorder R] (version : E → R) where
  entry : Option E
  clock : R
  version_le : ∀ e, entry = some e → version e ≤ clock

namespace VersionedCell
variable {E R : Type} [Preorder R] {version : E → R} (c : VersionedCell E version)

def put (e : E) (_ : c.clock < version e) : VersionedCell E version where
  entry := some e
  clock := version e
  version_le _ h := by rw [Option.some.inj h]

def delete (r : R) (_ : c.clock < r) : VersionedCell E version where
  entry := none
  clock := r
  version_le _ h := by cases h

/-- `d` is `c` after some writes: it has the same entry, or one with a version that was new. -/
structure Later (c d : VersionedCell E version) : Prop where
  clock_le : c.clock ≤ d.clock
  entry : d.entry = c.entry ∨ ∀ e, d.entry = some e → c.clock < version e

variable {c d f : VersionedCell E version} {e e' : E} {r : R}

theorem Later.refl (c : VersionedCell E version) : c.Later c := ⟨le_refl _, .inl rfl⟩

theorem Later.trans (h : c.Later d) (h' : d.Later f) : c.Later f := by
  refine ⟨h.clock_le.trans h'.clock_le, ?_⟩
  rcases h'.entry with heq | hnew
  · rw [heq]
    exact h.entry
  · exact .inr fun e he => h.clock_le.trans_lt (hnew e he)

theorem later_put (h : c.clock < version e) : c.Later (c.put e h) := by
  refine ⟨h.le, .inr fun _ he' => ?_⟩
  rwa [← Option.some.inj he']

theorem later_delete (h : c.clock < r) : c.Later (c.delete r h) := ⟨h.le, .inr fun _ he => nomatch he⟩

theorem Later.entry_eq (h : c.Later d) (hc : c.entry = some e) (hd : d.entry = some e')
    (hver : version e' = version e) : e' = e := by
  rcases h.entry with heq | hnew
  · rw [hc, hd] at heq
    exact Option.some.inj heq
  · have hlt := hnew e' hd
    rw [hver] at hlt
    exact absurd (c.version_le e hc) (not_le_of_gt hlt)

end VersionedCell
end LeanKube
