import Mathlib.Algebra.Order.BigOperators.Group.Finset

/-! # Families of components

A system of many components has a state for each index, of which the first `n` are in use. A measure
of one component gives the measure `total` of the family, and replacing one component changes the
total by what the measure of that component changes. -/

namespace Libio

universe u

namespace Family

variable {α : Type u} (μ : α → ℕ) (f : ℕ → α) (n : ℕ)

/-- The measure of the components below `n`. -/
def total : ℕ := ∑ i ∈ Finset.range n, μ (f i)

variable {μ f n} {i : ℕ} {x : α}

/-- **Update rule.** A component in use is replaced. -/
theorem total_update (hi : i < n) : total μ (Function.update f i x) n + μ (f i) = total μ f n + μ x := by
  have hmem : i ∈ Finset.range n := Finset.mem_range.mpr hi
  have hrest : ∀ k ∈ (Finset.range n).erase i, μ (Function.update f i x k) = μ (f k) := by
    intro k hk
    rw [Function.update_of_ne (Finset.ne_of_mem_erase hk)]
  unfold total
  rw [← Finset.sum_erase_add _ _ hmem, ← Finset.sum_erase_add _ _ hmem, Finset.sum_congr rfl hrest,
    Function.update_self]
  omega

/-- Families whose components have the same measures have the same total. -/
theorem total_congr {g : ℕ → α} (h : ∀ i < n, μ (f i) = μ (g i)) : total μ f n = total μ g n :=
  Finset.sum_congr rfl fun i hi => h i (Finset.mem_range.mp hi)

/-- Components of measure at most `c` each have a total of at most `n * c`. -/
theorem total_le_mul {c : ℕ} (h : ∀ i < n, μ (f i) ≤ c) : total μ f n ≤ n * c := by
  have hsum := Finset.sum_le_card_nsmul (Finset.range n) (fun i => μ (f i)) c fun i hi =>
    h i (Finset.mem_range.mp hi)
  rwa [Finset.card_range] at hsum

/-- Components that grow by at most `c` each make the total grow by at most `n * c`. -/
theorem total_le {g : ℕ → α} {c : ℕ} (h : ∀ i < n, μ (f i) ≤ μ (g i) + c) :
    total μ f n ≤ total μ g n + n * c := by
  have hsum : ∑ i ∈ Finset.range n, (μ (g i) + c) = total μ g n + n * c := by
    rw [Finset.sum_add_distrib, Finset.sum_const_nat fun _ _ => rfl, Finset.card_range]
    rfl
  rw [← hsum]
  exact Finset.sum_le_sum fun i hi => h i (Finset.mem_range.mp hi)

end Family

end Libio
