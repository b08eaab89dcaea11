import Mathlib.Algebra.BigOperators.Group.Finset.Basic
import Mathlib.Algebra.Order.BigOperators.Group.Finset
import Mathlib.Tactic

/-!
# Weighted quorums

Members of a finite set carry integer weights. A quorum is a subset with more than two thirds of the whole weight.
-/

namespace Quorum

open Finset

variable {ι : Type*} [DecidableEq ι] {w : ι → ℤ} {base s t faulty : Finset ι}

/-- More than two thirds of the weight. -/
structure IsQuorum (w : ι → ℤ) (base s : Finset ι) : Prop where
  subset : s ⊆ base
  weight : 2 * ∑ i ∈ base, w i < 3 * ∑ i ∈ s, w i

/-- Two quorums have more than a third of the weight in common. -/
theorem IsQuorum.weight_inter (hw : ∀ i ∈ base, 0 ≤ w i) (hs : IsQuorum w base s) (ht : IsQuorum w base t) :
    ∑ i ∈ base, w i < 3 * ∑ i ∈ s ∩ t, w i := by
  have hunion : ∑ i ∈ s ∪ t, w i ≤ ∑ i ∈ base, w i :=
    sum_le_sum_of_subset_of_nonneg (union_subset hs.subset ht.subset) fun i hi _ => hw i hi
  have hsplit : ∑ i ∈ s ∪ t, w i + ∑ i ∈ s ∩ t, w i = ∑ i ∈ s, w i + ∑ i ∈ t, w i := sum_union_inter
  have h1 := hs.weight
  have h2 := ht.weight
  omega

theorem IsQuorum.exists_mem_inter (hw : ∀ i ∈ base, 0 ≤ w i) (hs : IsQuorum w base s) (ht : IsQuorum w base t)
    (hf : 3 * ∑ i ∈ base ∩ faulty, w i < ∑ i ∈ base, w i) : ∃ i ∈ s, i ∈ t ∧ i ∉ faulty := by
  by_contra hno
  push Not at hno
  have hsub : s ∩ t ⊆ base ∩ faulty := by
    intro i hi
    rw [mem_inter] at hi ⊢
    exact ⟨hs.subset hi.1, hno i hi.1 hi.2⟩
  have hle : ∑ i ∈ s ∩ t, w i ≤ ∑ i ∈ base ∩ faulty, w i :=
    sum_le_sum_of_subset_of_nonneg hsub fun i hi _ => hw i (mem_inter.1 hi).1
  have := hs.weight_inter hw ht
  omega

end Quorum
