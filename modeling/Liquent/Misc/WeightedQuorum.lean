import Mathlib.Algebra.Order.BigOperators.Group.Finset

/-!
# Weighted quorums

Members carry weights; a quorum holds more than two thirds of the total.  If the faulty members hold
less than one third, any two quorums share a member that is not faulty.
-/

namespace Liquent.Misc

variable {α : Type} [DecidableEq α]

/-- The weight held together by a set. -/
def weightOf (w : α → Nat) (s : Finset α) : Nat := ∑ a ∈ s, w a

/-- More than two thirds of the weight of the members. -/
def IsQuorum (w : α → Nat) (members s : Finset α) : Prop :=
  s ⊆ members ∧ 2 * weightOf w members < 3 * weightOf w s

instance (w : α → Nat) (members s : Finset α) : Decidable (IsQuorum w members s) :=
  inferInstanceAs (Decidable (_ ∧ _))

variable {w : α → Nat} {members faulty s t : Finset α}

omit [DecidableEq α] in
theorem weightOf_mono (h : s ⊆ t) : weightOf w s ≤ weightOf w t :=
  Finset.sum_le_sum_of_subset h

omit [DecidableEq α] in
theorem not_isQuorum_empty : ¬ IsQuorum w members ∅ := by
  unfold IsQuorum
  simp [weightOf]

omit [DecidableEq α] in
theorem IsQuorum.mono (h : IsQuorum w members s) (hst : s ⊆ t) (ht : t ⊆ members) :
    IsQuorum w members t := by
  refine ⟨ht, ?_⟩
  have hle := weightOf_mono (w := w) hst
  have hs := h.2
  omega

theorem weightOf_union_add_inter (s t : Finset α) :
    weightOf w (s ∪ t) + weightOf w (s ∩ t) = weightOf w s + weightOf w t :=
  Finset.sum_union_inter

/-- Two quorums share a member that is not faulty. -/
theorem IsQuorum.exists_common (hfaulty : 3 * weightOf w faulty < weightOf w members)
    (hs : IsQuorum w members s) (ht : IsQuorum w members t) :
    ∃ a, a ∈ s ∧ a ∈ t ∧ a ∉ faulty := by
  by_contra hnone
  push Not at hnone
  -- otherwise the intersection, which holds more than a third, would be faulty
  have hsub : s ∩ t ⊆ faulty := by
    intro a ha
    exact hnone a (Finset.mem_inter.mp ha).1 (Finset.mem_inter.mp ha).2
  have hinter : weightOf w (s ∩ t) ≤ weightOf w faulty := weightOf_mono hsub
  have hunion : weightOf w (s ∪ t) ≤ weightOf w members :=
    weightOf_mono (Finset.union_subset hs.1 ht.1)
  have hsum := weightOf_union_add_inter (w := w) s t
  have hs' := hs.2
  have ht' := ht.2
  omega

end Liquent.Misc
