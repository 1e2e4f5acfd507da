import Mathlib.Algebra.Order.Group.Defs
import Mathlib.Algebra.Group.Basic
import Mathlib.Data.List.Chain
import Mathlib.Tactic.GCongr

/-! # Pacing

Something that goes off at the first of given times that lies a period or more behind the last time
it went off. It never makes up for a period it has missed, so it drifts: how far is bounded by the
gaps between the times. -/

namespace Libio

universe u

variable {α : Type u} [AddCommGroup α] [LinearOrder α]

/-- The times of `ts` at which something of period `p` goes off, after it did at `last`. -/
def paced (p last : α) : List α → List α
  | [] => []
  | t :: ts => if last + p ≤ t then t :: paced p t ts else paced p last ts

variable {p last now t δ : α} {ts : List α}

/-- There is nothing to run. -/
@[simp] theorem paced_nil : paced p last [] = [] := rfl

/-- A call that comes a period later or more runs. -/
theorem paced_cons_of_le (h : last + p ≤ t) : paced p last (t :: ts) = t :: paced p t ts := if_pos h

/-- A call that comes earlier does not. -/
theorem paced_cons_of_lt (h : t < last + p) : paced p last (t :: ts) = paced p last ts :=
  if_neg (not_le.mpr h)

/-- It never goes off twice within a period. -/
theorem isChain_paced (p last : α) (ts : List α) :
    (last :: paced p last ts).IsChain fun s t => s + p ≤ t := by
  induction ts generalizing last with
  | nil => exact .singleton last
  | cons t ts ih =>
      rcases le_or_gt (last + p) t with h | h
      · rw [paced_cons_of_le h]
        exact .cons_cons h (ih t)
      · rw [paced_cons_of_lt h]
        exact ih last

variable [IsOrderedAddMonoid α]

/-- **The drift.** When the times are at most `δ` apart, each round takes less than `p + δ`. -/
theorem getLastD_lt_of_gaps (hp : 0 < p) (h : (now :: ts).IsChain fun s t => t ≤ s + δ)
    (hnow : now < last + p) :
    ts.getLastD now < last + (paced p last ts).length • (p + δ) + p := by
  induction ts generalizing now last with
  | nil => simpa using hnow
  | cons t ts ih =>
      obtain ⟨hgap, hrest⟩ := List.isChain_cons_cons.mp h
      rw [List.getLastD_cons]
      rcases le_or_gt (last + p) t with hle | hlt
      · -- the time before was too early, and this one is not far behind it
        have hround : t < last + (p + δ) := by
          calc t ≤ now + δ := hgap
            _ < last + p + δ := by gcongr
            _ = last + (p + δ) := add_assoc _ _ _
        rw [paced_cons_of_le hle, List.length_cons, succ_nsmul']
        calc ts.getLastD t
            < t + (paced p t ts).length • (p + δ) + p := ih hrest (lt_add_of_pos_right t hp)
          _ < last + (p + δ) + (paced p t ts).length • (p + δ) + p := by gcongr
          _ = last + ((p + δ) + (paced p t ts).length • (p + δ)) + p := by rw [add_assoc last]
      · rw [paced_cons_of_lt hlt]
        exact ih hrest hlt

end Libio
