import Mathlib.Data.Int.CardIntervalMod

/-! # Dealing in turn

A list is dealt to `n` hands in turn: hand `i` gets the elements at the positions that leave the
remainder `i`. The hands keep the order of the list, and their sizes differ by at most one. -/

namespace Libio

universe u

/-- What hand `i` of `n` gets of a list that is dealt in turn. -/
def deal {α : Type u} (n i : ℕ) (l : List α) : List α :=
  (l.zipIdx.filter fun p => p.2 % n = i).map Prod.fst

namespace Dealing

variable {α : Type u} {n i j : ℕ} {l : List α}

/-- There is nothing to deal. -/
@[simp] theorem deal_nil : deal n i ([] : List α) = [] := rfl

/-- **The next element** goes to the hand whose turn it is. -/
theorem deal_concat (a : α) :
    deal n i (l ++ [a]) = deal n i l ++ if l.length % n = i then [a] else [] := by
  unfold deal
  rw [List.zipIdx_append, List.filter_append, List.map_append, Nat.zero_add]
  by_cases hi : l.length % n = i
  · simp [hi]
  · simp [hi]

/-- A hand has as many cards as it had turns. -/
theorem length_deal (hi : i < n) : (deal n i l).length = l.length.count (· ≡ i [MOD n]) := by
  -- the deal goes on at the end of the list
  induction l using List.reverseRecOn with
  | nil => rfl
  | append_singleton l a ih =>
      have hturn : l.length ≡ i [MOD n] ↔ l.length % n = i := by
        rw [Nat.ModEq, Nat.mod_eq_of_lt hi]
      rw [deal_concat, List.length_append, ih, List.length_append, List.length_singleton,
        Nat.count_succ]
      by_cases hl : l.length % n = i
      · rw [if_pos hl, if_pos (hturn.mpr hl), List.length_singleton]
      · rw [if_neg hl, if_neg fun h => hl (hturn.mp h), List.length_nil]

/-- **Balance.** No hand is ahead of another by more than one. -/
theorem length_deal_le (hi : i < n) (hj : j < n) : (deal n i l).length ≤ (deal n j l).length + 1 := by
  have hn : 0 < n := Nat.zero_lt_of_lt hi
  rw [length_deal hi, length_deal hj, Nat.count_modEq_card _ hn, Nat.count_modEq_card _ hn]
  split <;> split <;> omega

end Dealing

end Libio
