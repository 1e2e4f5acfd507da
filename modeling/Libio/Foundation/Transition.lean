import Mathlib.Logic.Basic

/-! # Labelled transition systems

Runs of a labelled transition system, the invariant rule for them, the restriction of a system to
the steps that meet a condition, settling, and forward simulation. The state and label types are
arbitrary. -/

namespace Libio

universe u v w

/-- A labelled transition system: the states a run may start in, and the steps. -/
structure Lts (σ : Type u) (ℓ : Type v) where
  /-- The initial states. -/
  init : σ → Prop
  /-- `step s a t`: the step labelled `a` leads from `s` to `t`. -/
  step : σ → ℓ → σ → Prop

namespace Lts

variable {σ : Type u} {ℓ : Type v} {τ : Type w}

/-- The finite runs of a system, with the labels of their steps. -/
inductive Run (M : Lts σ ℓ) : σ → List ℓ → σ → Prop
  | nil (s : σ) : Run M s [] s
  | cons {s t u : σ} {a : ℓ} {as : List ℓ} : M.step s a t → Run M t as u → Run M s (a :: as) u

/-- A state is reachable when a run leads to it from an initial state. -/
def Reachable (M : Lts σ ℓ) (s : σ) : Prop := ∃ s₀ as, M.init s₀ ∧ M.Run s₀ as s

variable {M : Lts σ ℓ}

/-- Two runs in a row are one. -/
theorem Run.append {s t u : σ} {as bs : List ℓ} (h : M.Run s as t) (h' : M.Run t bs u) :
    M.Run s (as ++ bs) u := by
  induction h with
  | nil => exact h'
  | cons hst _ ih => exact .cons hst (ih h')

/-- A run may be extended by a step at its end. -/
theorem Run.concat {s t u : σ} {as : List ℓ} {a : ℓ} (h : M.Run s as t) (hs : M.step t a u) :
    M.Run s (as ++ [a]) u := by
  induction h with
  | nil => exact .cons hs (.nil u)
  | cons hst _ ih => exact .cons hst (ih hs)

/-- An initial state is reachable. -/
theorem Reachable.of_init {s : σ} (h : M.init s) : M.Reachable s := ⟨s, [], h, .nil s⟩

/-- A step leads from a reachable state to a reachable one. -/
theorem Reachable.step {s t : σ} {a : ℓ} (h : M.Reachable s) (hs : M.step s a t) :
    M.Reachable t := by
  obtain ⟨s₀, as, hi, hr⟩ := h
  exact ⟨s₀, as ++ [a], hi, hr.concat hs⟩

/-- **Run rule.** What every step preserves, every run preserves. -/
theorem Run.invariant {P : σ → Prop} (hstep : ∀ s a t, P s → M.step s a t → P t)
    {s t : σ} {as : List ℓ} (h : M.Run s as t) (hs : P s) : P t := by
  induction h with
  | nil => exact hs
  | cons hst _ ih => exact ih (hstep _ _ _ hs hst)

/-- **Invariant rule.** What holds initially and is preserved by every step holds of every reachable
state. -/
theorem Reachable.invariant {P : σ → Prop} (hinit : ∀ s, M.init s → P s)
    (hstep : ∀ s a t, P s → M.step s a t → P t) {s : σ} (h : M.Reachable s) : P s := by
  obtain ⟨s₀, as, hi, hr⟩ := h
  exact hr.invariant hstep (hinit s₀ hi)

/-- A run of a step function is a run of a system that takes these steps. -/
theorem Run.of_foldlM {f : σ → ℓ → Option σ} (hf : ∀ s a t, f s a = some t → M.step s a t)
    {s t : σ} {as : List ℓ} (h : as.foldlM f s = some t) : M.Run s as t := by
  induction as generalizing s with
  | nil =>
      obtain rfl : s = t := Option.some.inj h
      exact .nil s
  | cons a as ih =>
      rw [List.foldlM_cons] at h
      obtain ⟨u, hu, h⟩ := Option.bind_eq_some_iff.mp h
      exact .cons (hf s a u hu) (ih h)

/-! ## Runs whose steps all meet a condition -/

/-- The system with only those steps of `M` that meet the condition `C` on the state before the step
and its label. -/
def guard (M : Lts σ ℓ) (C : σ → ℓ → Prop) : Lts σ ℓ where
  init := M.init
  step s a t := C s a ∧ M.step s a t

/-- Every run of the guarded system is a run of the system itself. -/
theorem Run.of_guard {C : σ → ℓ → Prop} {s t : σ} {as : List ℓ} (h : (M.guard C).Run s as t) :
    M.Run s as t := by
  induction h with
  | nil => exact .nil _
  | cons hst _ ih => exact .cons hst.2 ih

/-- Two conditions in a row are one. -/
theorem guard_guard (C D : σ → ℓ → Prop) :
    (M.guard C).guard D = M.guard fun s a => D s a ∧ C s a := by
  simp only [guard, and_assoc]

/-- Conditions may be imposed in any order. -/
theorem guard_comm (C D : σ → ℓ → Prop) : (M.guard C).guard D = (M.guard D).guard C := by
  simp only [guard, and_left_comm]

/-- A run whose labels all meet a condition. -/
theorem Run.guard_labels {L : ℓ → Prop} {s t : σ} {as : List ℓ} (h : M.Run s as t)
    (hL : ∀ a ∈ as, L a) : (M.guard fun _ a => L a).Run s as t := by
  induction h with
  | nil => exact .nil _
  | cons hst _ ih =>
      exact .cons ⟨hL _ (by simp), hst⟩ (ih fun a ha => hL a (by simp [ha]))

/-- In a run that is guarded by a condition on labels each of them meets it. -/
theorem Run.forall_labels {L : ℓ → Prop} {s t : σ} {as : List ℓ}
    (h : (M.guard fun _ a => L a).Run s as t) : ∀ a ∈ as, L a := by
  induction h with
  | nil => exact fun _ ha => absurd ha List.not_mem_nil
  | cons hst _ ih => exact List.forall_mem_cons.mpr ⟨hst.1, ih⟩

/-- **Exchange rule.** Two conditions that agree on the steps from the states of an invariant, which
the steps that meet them keep, restrict runs alike. -/
theorem Run.guard_congr {C D : σ → ℓ → Prop} {I : σ → Prop}
    (hCD : ∀ s a t, I s → M.step s a t → (C s a ↔ D s a))
    (hI : ∀ s a t, I s → M.step s a t → D s a → I t) {s t : σ} {as : List ℓ} (hs : I s) :
    (M.guard C).Run s as t ↔ (M.guard D).Run s as t := by
  constructor
  · intro h
    induction h with
    | nil s => exact .nil s
    | cons hst _ ih =>
        have hd := (hCD _ _ _ hs hst.2).mp hst.1
        exact .cons ⟨hd, hst.2⟩ (ih (hI _ _ _ hs hst.2 hd))
  · intro h
    induction h with
    | nil s => exact .nil s
    | cons hst _ ih =>
        exact .cons ⟨(hCD _ _ _ hs hst.2).mpr hst.1, hst.2⟩ (ih (hI _ _ _ hs hst.2 hst.1))

/-- **Exact condition rule.** If each step keeps `I`, and keeps `P` exactly when it meets the
condition, then `P` holds at the end of a run exactly when it held at its start and all steps met
the condition. A step has one outcome. -/
theorem Run.guard_iff {C : σ → ℓ → Prop} {I P : σ → Prop}
    (hdet : ∀ s a t t', M.step s a t → M.step s a t' → t = t')
    (hI : ∀ s a t, I s → M.step s a t → I t)
    (hP : ∀ s a t, I s → M.step s a t → (P t ↔ P s ∧ C s a))
    {s t : σ} {as : List ℓ} (h : M.Run s as t) (hs : I s) :
    P t ↔ P s ∧ (M.guard C).Run s as t := by
  induction h with
  | nil s => exact ⟨fun hp => ⟨hp, .nil s⟩, And.left⟩
  | cons hst hrun ih =>
      rw [ih (hI _ _ _ hs hst), hP _ _ _ hs hst]
      constructor
      · rintro ⟨⟨hp, hc⟩, hg⟩
        exact ⟨hp, .cons ⟨hc, hst⟩ hg⟩
      · rintro ⟨hp, hg⟩
        cases hg with
        | cons hst' hg =>
            obtain rfl := hdet _ _ _ _ hst hst'.2
            exact ⟨⟨hp, hst'.1⟩, hg⟩

/-- **Exact condition rule** for what holds all along a run. As long as `P` held, each step keeps it
exactly when it meets the condition, and keeps `I` with it. -/
theorem Run.always_iff {C : σ → ℓ → Prop} {I P : σ → Prop}
    (hdet : ∀ s a t t', M.step s a t → M.step s a t' → t = t')
    (hI : ∀ s a t, I s → P s → M.step s a t → P t → I t)
    (hP : ∀ s a t, I s → P s → M.step s a t → (P t ↔ C s a))
    {s t : σ} {as : List ℓ} (h : M.Run s as t) (hs : I s) (hp : P s) :
    (∀ bs u, bs <+: as → M.Run s bs u → P u) ↔ (M.guard C).Run s as t := by
  induction h with
  | nil s =>
      refine ⟨fun _ => .nil s, fun _ bs u hbs hu => ?_⟩
      obtain rfl := List.prefix_nil.mp hbs
      cases hu
      exact hp
  | @cons s t u a as hst hrun ih =>
      constructor
      · intro hall
        have ht : P t := hall [a] t ⟨as, rfl⟩ (.cons hst (.nil t))
        refine .cons ⟨(hP s a t hs hp hst).mp ht, hst⟩ ((ih (hI s a t hs hp hst ht) ht).mp ?_)
        exact fun bs v hbs hv => hall (a :: bs) v (List.prefix_cons_inj a |>.mpr hbs) (.cons hst hv)
      · intro hg bs v hbs hv
        cases hg with
        | cons hst' hg =>
            obtain rfl := hdet _ _ _ _ hst hst'.2
            have ht : P t := (hP s a t hs hp hst).mpr hst'.1
            cases hv with
            | nil => exact hp
            | @cons _ t' _ b bs hst'' hv =>
                obtain ⟨rfl, hrest⟩ := List.cons_prefix_cons.mp hbs
                obtain rfl := hdet _ _ _ _ hst hst''
                exact (ih (hI s b t hs hp hst ht) ht).mpr hg bs v hrest hv

/-! ## Settling -/

/-- No step is possible. -/
def Stuck (M : Lts σ ℓ) (s : σ) : Prop := ∀ a t, ¬M.step s a t

/-- From `s` runs are bounded in length, and a run that cannot be extended ends in `P`. -/
structure Settles (M : Lts σ ℓ) (P : σ → Prop) (s : σ) : Prop where
  bounded : ∃ n, ∀ as t, M.Run s as t → as.length ≤ n
  final : ∀ as t, M.Run s as t → M.Stuck t → P t

/-- What a settling state leads to settles. -/
theorem Settles.of_run {P : σ → Prop} {s t : σ} {as : List ℓ} (h : M.Settles P s) (hr : M.Run s as t) :
    M.Settles P t where
  bounded := by
    obtain ⟨n, hn⟩ := h.bounded
    refine ⟨n, fun bs u hu => ?_⟩
    have hlength := hn _ _ (hr.append hu)
    rw [List.length_append] at hlength
    exact Nat.le_trans (Nat.le_add_left _ _) hlength
  final bs u hu := h.final _ _ (hr.append hu)

/-- **Measure rule.** If steps keep an invariant and decrease a measure, and the invariant gives `P`
where no step is possible, the states of the invariant settle. -/
theorem Settles.of_measure {P I : σ → Prop} {μ : σ → Nat}
    (hstep : ∀ s a t, I s → M.step s a t → I t ∧ μ t < μ s)
    (hstuck : ∀ s, I s → M.Stuck s → P s) {s : σ} (hs : I s) : M.Settles P s where
  bounded := by
    refine ⟨μ s, fun as t hr => ?_⟩
    induction hr with
    | nil => exact Nat.zero_le _
    | cons hst _ ih =>
        obtain ⟨ht, hlt⟩ := hstep _ _ _ hs hst
        exact Nat.lt_of_le_of_lt (ih ht) hlt
  final as t hr := hstuck t (hr.invariant (fun s a t h hst => (hstep s a t h hst).1) hs)

/-- A state that runs back to itself does not settle. -/
theorem not_settles_of_cycle {P : σ → Prop} {s : σ} {as : List ℓ} (h : M.Run s as s) (has : as ≠ []) :
    ¬M.Settles P s := by
  rintro ⟨⟨n, hn⟩, -⟩
  -- once around for each step of the bound, and once more
  have hround : ∀ k, ∃ bs, M.Run s bs s ∧ k ≤ bs.length := by
    intro k
    induction k with
    | zero => exact ⟨[], .nil s, Nat.le_refl 0⟩
    | succ k ih =>
        obtain ⟨bs, hbs, hk⟩ := ih
        refine ⟨as ++ bs, h.append hbs, ?_⟩
        rw [List.length_append, Nat.add_comm as.length]
        exact Nat.add_le_add hk (List.length_pos_iff.mpr has)
  obtain ⟨bs, hbs, hlength⟩ := hround (n + 1)
  exact absurd (hn bs s hbs) (Nat.not_le.mpr hlength)

/-! ## Forward simulation -/

/-- **Simulation rule.** If each step of `M` from related states is matched by a step of `N` with
the same label, each run of `M` is matched by a run of `N` with the same labels. -/
theorem Run.simulate {N : Lts τ ℓ} {R : σ → τ → Prop}
    (hstep : ∀ s x a t, R s x → M.step s a t → ∃ y, N.step x a y ∧ R t y)
    {s t : σ} {as : List ℓ} (h : M.Run s as t) {x : τ} (hx : R s x) :
    ∃ y, N.Run x as y ∧ R t y := by
  induction h generalizing x with
  | nil => exact ⟨x, .nil x, hx⟩
  | cons hst _ ih =>
      obtain ⟨y, hxy, hR⟩ := hstep _ _ _ _ hx hst
      obtain ⟨z, hyz, hz⟩ := ih hR
      exact ⟨z, .cons hxy hyz, hz⟩

end Lts

end Libio
