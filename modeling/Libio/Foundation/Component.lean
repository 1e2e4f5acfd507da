import Mathlib.Logic.Basic

/-! # Components that follow a specification

A component answers calls from a state, and a call may fail. A specification answers every call. The
component follows the specification along a list of calls when each call returns what the
specification returns, and leaves a state that shows what the specification has. Types of states,
calls, answers and failures are arbitrary. -/

namespace Libio

universe u v w x y

variable {σ : Type u} {τ : Type v} {ι : Type w} {ο : Type x} {ε : Type y}

/-- One call does what the specification does; `view` is what a state of the component shows. -/
def Matches (impl : σ → ι → Except ε (ο × σ)) (spec : τ → ι → ο × τ) (view : σ → τ) (s : σ) (c : ι) :
    Prop :=
  ∃ o t, impl s c = .ok (o, t) ∧ (o, view t) = spec (view s) c

/-- The component follows the specification along a list of calls. -/
def Follows (impl : σ → ι → Except ε (ο × σ)) (spec : τ → ι → ο × τ) (view : σ → τ) : σ → List ι → Prop
  | _, [] => True
  | s, c :: cs => ∃ o t, impl s c = .ok (o, t) ∧ (o, view t) = spec (view s) c ∧
      Follows impl spec view t cs

/-- Each call of a list meets a condition on the state the specification is in when it is made. -/
def AllMeet (spec : τ → ι → ο × τ) (C : τ → ι → Prop) : τ → List ι → Prop
  | _, [] => True
  | x, c :: cs => C x c ∧ AllMeet spec C (spec x c).2 cs

/-- A conjunction is met when both parts are. -/
theorem allMeet_and {spec : τ → ι → ο × τ} {C D : τ → ι → Prop} {x : τ} {cs : List ι} :
    AllMeet spec (fun x c => C x c ∧ D x c) x cs ↔ AllMeet spec C x cs ∧ AllMeet spec D x cs := by
  induction cs generalizing x with
  | nil => simp [AllMeet]
  | cons c cs ih =>
      simp only [AllMeet, ih]
      exact and_and_and_comm

/-- A computable condition is computable along a list. -/
instance AllMeet.decidable {spec : τ → ι → ο × τ} {C : τ → ι → Prop} [∀ x c, Decidable (C x c)] :
    ∀ x cs, Decidable (AllMeet spec C x cs)
  | _, [] => .isTrue trivial
  | x, c :: cs =>
      have : Decidable (AllMeet spec C (spec x c).2 cs) := AllMeet.decidable _ cs
      inferInstanceAs (Decidable (C x c ∧ AllMeet spec C (spec x c).2 cs))

/-- **Exact condition rule.** If from a state of the invariant a call does what the specification
does exactly when it meets the condition, and the invariant is kept by such calls, the component
follows the specification along a list of calls exactly when they all meet the condition. -/
theorem follows_iff {impl : σ → ι → Except ε (ο × σ)} {spec : τ → ι → ο × τ} {view : σ → τ}
    {I : σ → Prop} {V : ι → Prop} {C : τ → ι → Prop}
    (hkeep : ∀ s c o t, I s → V c → impl s c = .ok (o, t) → I t)
    (hstep : ∀ s c, I s → V c → (Matches impl spec view s c ↔ C (view s) c))
    {s : σ} {cs : List ι} (hs : I s) (hcs : ∀ c ∈ cs, V c) :
    Follows impl spec view s cs ↔ AllMeet spec C (view s) cs := by
  induction cs generalizing s with
  | nil => exact Iff.rfl
  | cons c cs ih =>
      have hc : V c := hcs c (by simp)
      have hrest : ∀ c ∈ cs, V c := fun d hd => hcs d (by simp [hd])
      constructor
      · rintro ⟨o, t, hcall, hview, hfollows⟩
        refine ⟨(hstep s c hs hc).mp ⟨o, t, hcall, hview⟩, ?_⟩
        rw [← hview]
        exact (ih (hkeep s c o t hs hc hcall) hrest).mp hfollows
      · rintro ⟨hmeets, hall⟩
        obtain ⟨o, t, hcall, hview⟩ := (hstep s c hs hc).mpr hmeets
        rw [← hview] at hall
        exact ⟨o, t, hcall, hview, (ih (hkeep s c o t hs hc hcall) hrest).mpr hall⟩

end Libio
