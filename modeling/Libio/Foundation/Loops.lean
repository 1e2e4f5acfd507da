import Mathlib.Data.Nat.Notation
import Mathlib.Logic.Basic

/-! # Loops

A loop is given by what one round does: go on from another state, or end with a result. `Passes`
counts the rounds that go on, `Ends` the rounds of a loop that ends, and `run` executes a bounded
number of them. The measure rule `ends_of_measure` shows that a loop ends. `EndsWithin` is about
rounds that may not return. States and results are arbitrary. -/

namespace Libio

universe u v

/-- What one round of a loop does. -/
inductive Round (σ : Type u) (ρ : Type v)
  | next (s : σ)
  | done (r : ρ)
  deriving DecidableEq, Repr

/-- The result after a round, `g` giving that of the rounds that follow. -/
def Round.result {σ : Type u} {ρ : Type v} (g : σ → ρ) : Round σ ρ → ρ
  | .next s => g s
  | .done r => r

/-- A loop, by its rounds. -/
abbrev Loop (σ : Type u) (ρ : Type v) := σ → Round σ ρ

namespace Loop

variable {σ : Type u} {ρ : Type v}

/-- `n` rounds that go on lead from one state to another. -/
inductive Passes (f : Loop σ ρ) : σ → ℕ → σ → Prop
  | refl (s : σ) : Passes f s 0 s
  | next {s t u : σ} {n : ℕ} : f s = .next t → Passes f t n u → Passes f s (n + 1) u

/-- The loop from `s` ends with `r`, after `n` rounds that go on. -/
def Ends (f : Loop σ ρ) (s : σ) (n : ℕ) (r : ρ) : Prop := ∃ t, f.Passes s n t ∧ f t = .done r

/-- The loop from `s` ends with `r`, after `n` rounds that go on, when only rounds from states in `P`
return. -/
inductive EndsWithin (P : σ → Prop) (f : Loop σ ρ) : σ → ℕ → ρ → Prop
  | done {s : σ} {r : ρ} (hs : P s) (h : f s = .done r) : EndsWithin P f s 0 r
  | next {s t : σ} {n : ℕ} {r : ρ} (hs : P s) (h : f s = .next t) (ht : EndsWithin P f t n r) :
      EndsWithin P f s (n + 1) r

/-- At most `n` rounds of the loop. There is no result where they do not reach its end. -/
def run (f : Loop σ ρ) : ℕ → σ → Option ρ
  | 0, _ => none
  | n + 1, s =>
      match f s with
      | .next t => run f n t
      | .done r => some r

variable {f : Loop σ ρ} {s t u : σ} {n m : ℕ} {r r' : ρ}

/-- A loop whose first round is its last. -/
theorem Ends.done (h : f s = .done r) : f.Ends s 0 r := ⟨s, .refl s, h⟩

/-- A loop whose first round goes on. -/
theorem Ends.next (h : f s = .next t) (ht : f.Ends t n r) : f.Ends s (n + 1) r := by
  obtain ⟨u, hu, hr⟩ := ht
  exact ⟨u, .next h hu, hr⟩

/-- What the first round says about a loop that ends. -/
theorem ends_iff : f.Ends s n r ↔
    (n = 0 ∧ f s = .done r) ∨ ∃ m t, n = m + 1 ∧ f s = .next t ∧ f.Ends t m r := by
  constructor
  · rintro ⟨u, hu, hr⟩
    cases hu with
    | refl => exact .inl ⟨rfl, hr⟩
    | next hst hu => exact .inr ⟨_, _, rfl, hst, u, hu, hr⟩
  · rintro (⟨rfl, h⟩ | ⟨m, t, rfl, h, ht⟩)
    · exact .done h
    · exact ht.next h

/-- A loop whose first round ends it. -/
theorem Ends.of_done (h : f.Ends s n r) (hs : f s = .done r') : r = r' := by
  rcases ends_iff.mp h with ⟨-, h⟩ | ⟨m, t, -, h, -⟩
  · exact Round.done.inj (h.symm.trans hs)
  · rw [hs] at h
    cases h

/-- A loop whose first round goes on. -/
theorem Ends.of_next (h : f.Ends s n r) (hs : f s = .next t) : ∃ m, f.Ends t m r := by
  rcases ends_iff.mp h with ⟨-, h⟩ | ⟨m, t', -, h, ht⟩
  · rw [hs] at h
    cases h
  · obtain rfl := Round.next.inj (h.symm.trans hs)
    exact ⟨m, ht⟩

/-- A loop ends in one way. -/
theorem Ends.unique (h : f.Ends s n r) (h' : f.Ends s m r') : r = r' := by
  induction n generalizing s m with
  | zero =>
      rcases ends_iff.mp h with ⟨-, hs⟩ | ⟨k, t, hk, -, -⟩
      · exact (h'.of_done hs).symm
      · cases hk
  | succ n ih =>
      rcases ends_iff.mp h with ⟨hn, -⟩ | ⟨k, t, hk, hs, ht⟩
      · cases hn
      · obtain rfl := Nat.succ.inj hk
        obtain ⟨l, hl⟩ := h'.of_next hs
        exact ih ht hl

/-- **Run rule.** What every round that goes on preserves holds of every state the loop passes. -/
theorem Passes.invariant {I : σ → Prop} (hstep : ∀ s t, I s → f s = .next t → I t)
    (h : f.Passes s n t) (hs : I s) : I t := by
  induction h with
  | refl => exact hs
  | next hst _ ih => exact ih (hstep _ _ hs hst)

/-- **Measure rule.** If rounds that go on keep an invariant and decrease a measure, the loop ends,
after no more such rounds than the measure says. -/
theorem ends_of_measure {I : σ → Prop} {μ : σ → ℕ}
    (hstep : ∀ s t, I s → f s = .next t → I t ∧ μ t < μ s) (hs : I s) :
    ∃ n r, f.Ends s n r ∧ n ≤ μ s := by
  -- induction on a bound of the measure, the state being free
  suffices h : ∀ k s, I s → μ s ≤ k → ∃ n r, f.Ends s n r ∧ n ≤ μ s from h _ s hs (Nat.le_refl _)
  intro k
  induction k with
  | zero =>
      intro s hs hk
      cases hround : f s with
      | done r => exact ⟨0, r, .done hround, Nat.zero_le _⟩
      | next t => exact absurd (hstep s t hs hround).2 (by omega)
  | succ k ih =>
      intro s hs hk
      cases hround : f s with
      | done r => exact ⟨0, r, .done hround, Nat.zero_le _⟩
      | next t =>
          obtain ⟨ht, hlt⟩ := hstep s t hs hround
          obtain ⟨n, r, hn, hle⟩ := ih t ht (by omega)
          exact ⟨n + 1, r, hn.next hround, by omega⟩

/-- **Rule for rounds that may not return.** A loop that ends does so with such rounds exactly when
each of them returns. -/
theorem endsWithin_iff {P : σ → Prop} (h : f.Ends s n r) :
    f.EndsWithin P s n r ↔ ∀ m t, f.Passes s m t → P t := by
  constructor
  · intro hw m t hpass
    induction hpass generalizing n with
    | refl => cases hw <;> assumption
    | next hst _ ih =>
        cases hw with
        | done _ hdone => cases hdone.symm.trans hst
        | next _ hnext ht =>
            obtain rfl := Round.next.inj (hnext.symm.trans hst)
            obtain ⟨k, t', hk, hst', hends⟩ := (ends_iff.mp h).resolve_left (by simp)
            obtain rfl := Nat.succ.inj hk
            obtain rfl := Round.next.inj (hst'.symm.trans hst)
            exact ih hends ht
  · intro hall
    obtain ⟨u, hpass, hdone⟩ := h
    induction hpass with
    | refl s => exact .done (hall 0 s (.refl s)) hdone
    | next hst _ ih =>
        refine .next (hall 0 _ (.refl _)) hst (ih (fun m t ht => hall (m + 1) t (.next hst ht)) hdone)

/-- Such a loop ends, rounds that do not return being left out. -/
theorem EndsWithin.ends {P : σ → Prop} (h : f.EndsWithin P s n r) : f.Ends s n r := by
  induction h with
  | done _ hdone => exact .done hdone
  | next _ hst _ ih => exact ih.next hst

/-- What a bounded number of rounds computes is how the loop ends. -/
theorem run_eq_some : f.run n s = some r ↔ ∃ m < n, f.Ends s m r := by
  induction n generalizing s with
  | zero => simp [run]
  | succ n ih =>
      rw [run]
      cases hround : f s with
      | done r' =>
          simp only [Option.some.injEq]
          constructor
          · rintro rfl
            exact ⟨0, Nat.zero_lt_succ n, .done hround⟩
          · rintro ⟨m, -, hm⟩
            exact (hm.of_done hround).symm
      | next t =>
          simp only [ih]
          constructor
          · rintro ⟨m, hm, ht⟩
            exact ⟨m + 1, Nat.succ_lt_succ hm, ht.next hround⟩
          · rintro ⟨m, hm, hs⟩
            rcases ends_iff.mp hs with ⟨-, h⟩ | ⟨k, t', rfl, h, ht⟩
            · rw [hround] at h
              cases h
            · obtain rfl := Round.next.inj (hround.symm.trans h)
              exact ⟨k, Nat.lt_of_succ_lt_succ hm, ht⟩

/-- **A bounded loop** that makes the rounds of `f` computes how `f` ends, as soon as its bound is
not what ends it. -/
theorem Ends.bounded_eq {g : ℕ → σ → ρ}
    (hsucc : ∀ n s, g (n + 1) s = (f s).result (g n)) (h : f.Ends s m r) (hm : m < n) :
    g n s = r := by
  induction m generalizing s n with
  | zero =>
      obtain ⟨k, rfl⟩ := Nat.exists_eq_succ_of_ne_zero (Nat.ne_zero_of_lt hm)
      rcases ends_iff.mp h with ⟨-, hs⟩ | ⟨k, t, hk, -, -⟩
      · rw [hsucc, hs]
        rfl
      · cases hk
  | succ m ih =>
      obtain ⟨k, rfl⟩ := Nat.exists_eq_succ_of_ne_zero (Nat.ne_zero_of_lt hm)
      rcases ends_iff.mp h with ⟨hk, -⟩ | ⟨l, t, hl, hs, ht⟩
      · cases hk
      · obtain rfl := Nat.succ.inj hl
        rw [hsucc, hs]
        exact ih ht (Nat.lt_of_succ_lt_succ hm)

/-- **Measure rule for a bounded loop.** With a bound beyond a measure that every round decreases, it
computes how the loop ends. -/
theorem ends_bounded {g : ℕ → σ → ρ} {μ : σ → ℕ}
    (hsucc : ∀ n s, g (n + 1) s = (f s).result (g n)) (hstep : ∀ s t, f s = .next t → μ t < μ s)
    (s : σ) : ∃ n, f.Ends s n (g (μ s + 1) s) ∧ n ≤ μ s := by
  obtain ⟨n, r, hn, hle⟩ := ends_of_measure (f := f) (I := fun _ => True) (s := s)
    (fun s t _ h => ⟨trivial, hstep s t h⟩) trivial
  refine ⟨n, ?_, hle⟩
  rw [hn.bounded_eq hsucc (Nat.lt_succ_of_le hle)]
  exact hn

end Loop

end Libio
