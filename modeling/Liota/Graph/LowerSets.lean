import Mathlib.Order.UpperLower.Closure

namespace Liota.Graph

variable {V : Type} [Preorder V] {L : LowerSet V} {t t' : Set V} {q : V}

theorem mem_sdiff : q ∈ L.sdiff t ↔ q ∈ L ∧ ∀ p ∈ t, ¬ p ≤ q := by
  change (q ∈ L ∧ ¬ q ∈ upperClosure t) ↔ _
  rw [mem_upperClosure]
  simp only [not_exists, not_and]

theorem mem_sup_lowerClosure : q ∈ L ⊔ lowerClosure t ↔ q ∈ L ∨ ∃ p ∈ t, q ≤ p := by
  rw [LowerSet.mem_sup_iff, mem_lowerClosure]

theorem sup_lowerClosure_of_subset (h : ∀ p ∈ t, p ∈ L) : L ⊔ lowerClosure t = L :=
  sup_eq_left.mpr (lowerClosure_le.mpr h)

theorem sdiff_of_disjoint (h : ∀ p ∈ t, p ∉ L) : L.sdiff t = L :=
  LowerSet.sdiff_eq_left.mpr (Set.disjoint_left.mpr fun p hp hpt ↦ h p hpt hp)

theorem sup_lowerClosure_union :
    L ⊔ lowerClosure t ⊔ lowerClosure t' = L ⊔ lowerClosure (t ∪ t') := by
  rw [sup_assoc, lowerClosure_union]

theorem sdiff_sup_removed :
    L.sdiff t ⊔ lowerClosure {q | q ∈ L ∧ ∃ p ∈ t, p ≤ q} = L := by
  apply le_antisymm
  · apply sup_le LowerSet.sdiff_le_left
    apply lowerClosure_le.mpr
    intro q hq
    exact hq.1
  · intro q hq
    rw [SetLike.mem_coe, mem_sup_lowerClosure, mem_sdiff]
    by_cases h : ∃ p ∈ t, p ≤ q
    · exact .inr ⟨q, ⟨hq, h⟩, le_rfl⟩
    · left
      refine ⟨hq, fun p hp hpq ↦ h ⟨p, hp, hpq⟩⟩

end Liota.Graph
