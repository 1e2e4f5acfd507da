import Libio.Foundation.Transition
import Mathlib.Data.Nat.Notation
import Mathlib.Logic.Function.Basic

/-! # Objects behind a mutex

Any number of threads call the methods of one object. A method takes the mutex, runs its body step by
step on the memory of the object, lets the mutex go and returns (`Monitor.lts`). If every body,
running alone, does what a function `apply` says, the object is linearizable: each run is matched by
a run of the object whose calls take effect at once (`Atomic.lts`), with the same calls, the same
results, and the effect of a call between the call and its return. -/

namespace Libio

universe u v w x

/-- The bodies of the methods of an object with memory `σ`: where the body of a call `ι` starts, and
its next step, which goes on at a place `π` or returns a result `ρ`. A step may be undefined. -/
structure Methods (σ : Type u) (ι : Type v) (π : Type w) (ρ : Type x) where
  start : ι → π
  next : π → σ → Option (σ × (π ⊕ ρ))

/-- Where a thread is in its call. -/
inductive CallPhase (ι : Type v) (π : Type w) (ρ : Type x)
  | idle
  /-- In front of the mutex. -/
  | called (op : ι)
  /-- In the body, with the mutex. -/
  | inside (p : π)
  /-- Behind the body, still with the mutex. -/
  | leaving (r : ρ)
  | returning (r : ρ)

/-- What a thread does. -/
inductive CallEvent (ι : Type v) (ρ : Type x)
  | call (i : ℕ) (op : ι)
  | lock (i : ℕ)
  | body (i : ℕ)
  | unlock (i : ℕ)
  | ret (i : ℕ) (r : ρ)

variable {σ : Type u} {ι : Type v} {π : Type w} {ρ : Type x}

/-- A body comes to its end when it runs alone. -/
inductive Methods.Finishes (M : Methods σ ι π ρ) : π → σ → σ → ρ → Prop
  | ret {p : π} {m m' : σ} {r : ρ} : M.next p m = some (m', .inr r) → Finishes M p m m' r
  | step {p p' : π} {m m' m'' : σ} {r : ρ} : M.next p m = some (m', .inl p') →
      Finishes M p' m' m'' r → Finishes M p m m'' r

/-- Every body, running alone, does what `apply` says. -/
def Methods.Computes (M : Methods σ ι π ρ) (apply : ι → σ → σ × ρ) : Prop :=
  ∀ op m, M.Finishes (M.start op) m (apply op m).1 (apply op m).2

/-- An object with its mutex and the threads that call it. -/
structure Monitor (σ : Type u) (ι : Type v) (π : Type w) (ρ : Type x) where
  memory : σ
  mutex : Option ℕ := none
  threads : ℕ → CallPhase ι π ρ := fun _ => .idle

namespace Monitor

/-- A thread goes on. -/
def goto (s : Monitor σ ι π ρ) (i : ℕ) (p : CallPhase ι π ρ) : Monitor σ ι π ρ :=
  { s with threads := Function.update s.threads i p }

/-- Where a thread is after a step of its body. -/
def after : π ⊕ ρ → CallPhase ι π ρ
  | .inl p => .inside p
  | .inr r => .leaving r

/-- The steps of the threads. -/
inductive Step (M : Methods σ ι π ρ) (s : Monitor σ ι π ρ) :
    CallEvent ι ρ → Monitor σ ι π ρ → Prop
  | call {i : ℕ} {op : ι} : s.threads i = .idle → Step M s (.call i op) (s.goto i (.called op))
  | lock {i : ℕ} {op : ι} : s.threads i = .called op → s.mutex = none →
      Step M s (.lock i) { s.goto i (.inside (M.start op)) with mutex := some i }
  | body {i : ℕ} {p : π} {m : σ} {e : π ⊕ ρ} : s.threads i = .inside p →
      M.next p s.memory = some (m, e) →
      Step M s (.body i) { s.goto i (after e) with memory := m }
  | unlock {i : ℕ} {r : ρ} : s.threads i = .leaving r →
      Step M s (.unlock i) { s.goto i (.returning r) with mutex := none }
  | ret {i : ℕ} {r : ρ} : s.threads i = .returning r → Step M s (.ret i r) (s.goto i .idle)

/-- The object with its threads, none of which has called anything yet. -/
def lts (M : Methods σ ι π ρ) (m : σ) : Lts (Monitor σ ι π ρ) (CallEvent ι ρ) where
  init s := s = { memory := m }
  step := Step M

end Monitor

/-- Where a thread is in a call that takes effect at once. -/
inductive AtomicPhase (ι : Type v) (ρ : Type x)
  | idle
  | called (op : ι)
  | returning (r : ρ)

/-- An object whose calls take effect at once. -/
structure Atomic (σ : Type u) (ι : Type v) (ρ : Type x) where
  value : σ
  threads : ℕ → AtomicPhase ι ρ := fun _ => .idle

namespace Atomic

/-- A thread goes on. -/
def goto (a : Atomic σ ι ρ) (i : ℕ) (p : AtomicPhase ι ρ) : Atomic σ ι ρ :=
  { a with threads := Function.update a.threads i p }

/-- The steps of the threads. A call takes effect where the mutex is let go; what happens inside
the body is not seen. -/
inductive Step (apply : ι → σ → σ × ρ) (a : Atomic σ ι ρ) : CallEvent ι ρ → Atomic σ ι ρ → Prop
  | call {i : ℕ} {op : ι} : a.threads i = .idle → Step apply a (.call i op) (a.goto i (.called op))
  | lock {i : ℕ} : Step apply a (.lock i) a
  | body {i : ℕ} : Step apply a (.body i) a
  | unlock {i : ℕ} {op : ι} : a.threads i = .called op →
      Step apply a (.unlock i)
        { a.goto i (.returning (apply op a.value).2) with value := (apply op a.value).1 }
  | ret {i : ℕ} {r : ρ} : a.threads i = .returning r → Step apply a (.ret i r) (a.goto i .idle)

/-- The object with its threads, none of which has called anything yet. -/
def lts (apply : ι → σ → σ × ρ) (v : σ) : Lts (Atomic σ ι ρ) (CallEvent ι ρ) where
  init a := a = { value := v }
  step := Step apply

end Atomic

/-! ## The calls in the order of their effects -/

namespace CallEvent

/-- The calls that took effect, in order, where `f` says who is in which call: a call takes effect
where its thread lets the mutex go. -/
def effects (f : ℕ → Option ι) : List (CallEvent ι ρ) → List (ℕ × ι)
  | [] => []
  | .call i op :: es => effects (Function.update f i (some op)) es
  | .unlock i :: es =>
    ((f i).map (i, ·)).toList ++ effects (Function.update f i none) es
  | .lock _ :: es | .body _ :: es | .ret _ _ :: es => effects f es

/-- The results that a thread has got, in order. -/
def rets (i : ℕ) (es : List (CallEvent ι ρ)) : List ρ :=
  es.filterMap fun e => match e with
    | .ret j r => if j = i then some r else none
    | _ => none

end CallEvent

/-- Calls made one after the other: the value in the end, and the results with their threads. -/
def replay (apply : ι → σ → σ × ρ) (v : σ) : List (ℕ × ι) → σ × List (ℕ × ρ)
  | [] => (v, [])
  | (i, op) :: log =>
    let rest := replay apply (apply op v).1 log
    (rest.1, (i, (apply op v).2) :: rest.2)

/-- The results of one thread, in order. -/
def resultsOf (i : ℕ) (rs : List (ℕ × ρ)) : List ρ :=
  rs.filterMap fun x => if x.1 = i then some x.2 else none

/-- The call that has still to take effect. -/
def AtomicPhase.pending : AtomicPhase ι ρ → Option ι
  | .called op => some op
  | _ => none

/-- The result that has still to be got. -/
def AtomicPhase.waiting : AtomicPhase ι ρ → List ρ
  | .returning r => [r]
  | _ => []

namespace Atomic

variable {apply : ι → σ → σ × ρ} {a b : Atomic σ ι ρ} {i : ℕ}

/-- **The calls in the order of their effects**, made one after the other, give the value, and give
each thread the results that it has got and the one that it is about to get. -/
theorem run_eq_replay {v : σ} {es : List (CallEvent ι ρ)} (hr : (lts apply v).Run a es b) :
    b.value = (replay apply a.value (CallEvent.effects (AtomicPhase.pending ∘ a.threads) es)).1 ∧
    ∀ i, (a.threads i).waiting ++
        resultsOf i
          (replay apply a.value (CallEvent.effects (AtomicPhase.pending ∘ a.threads) es)).2 =
      CallEvent.rets i es ++ (b.threads i).waiting := by
  -- on the run from its first step: `effects` carries who is in which call
  induction hr with
  | nil a => exact ⟨rfl, fun i => List.append_nil _⟩
  | @cons a c b e es hs _ ih =>
    obtain ⟨hvalue, hresults⟩ := ih
    cases hs with
    | @call i op hi =>
      simp only [goto, Function.comp_update] at hvalue hresults
      refine ⟨hvalue, fun j => ?_⟩
      have hj := hresults j
      by_cases h : j = i
      · subst h
        simpa [AtomicPhase.waiting, AtomicPhase.pending, hi, CallEvent.effects, CallEvent.rets] using hj
      · simpa [h, AtomicPhase.pending, CallEvent.effects, CallEvent.rets] using hj
    | lock | body => exact ⟨hvalue, hresults⟩
    | @unlock i op hi =>
      simp only [goto, Function.comp_update] at hvalue hresults
      -- the call takes effect, so it is the first of those to be replayed
      have heffects : CallEvent.effects (AtomicPhase.pending ∘ a.threads) (.unlock i :: es) =
          (i, op) :: CallEvent.effects (Function.update (AtomicPhase.pending ∘ a.threads) i none) es := by
        simp [CallEvent.effects, AtomicPhase.pending, hi]
      rw [heffects]
      refine ⟨hvalue, fun j => ?_⟩
      have hj := hresults j
      by_cases h : j = i
      · subst h
        simpa [AtomicPhase.waiting, AtomicPhase.pending, hi, replay, resultsOf, CallEvent.rets] using hj
      · have hne : i ≠ j := fun he => h he.symm
        simpa [h, hne, AtomicPhase.pending, replay, resultsOf, CallEvent.rets] using hj
    | @ret i r hi =>
      simp only [goto, Function.comp_update] at hvalue hresults
      -- no call is pending in this thread, so the effects do not change
      have hpending : Function.update (AtomicPhase.pending ∘ a.threads) i
          (AtomicPhase.idle : AtomicPhase ι ρ).pending = AtomicPhase.pending ∘ a.threads := by
        rw [Function.update_eq_self_iff, Function.comp_apply, hi]
        rfl
      rw [hpending] at hvalue hresults
      refine ⟨hvalue, fun j => ?_⟩
      have hj := hresults j
      by_cases h : j = i
      · subst h
        simpa [AtomicPhase.waiting, hi, CallEvent.effects, CallEvent.rets] using hj
      · have hne : i ≠ j := fun he => h he.symm
        simpa [h, hne, CallEvent.effects, CallEvent.rets] using hj

end Atomic

/-! ## The simulation -/

namespace Monitor

variable {M : Methods σ ι π ρ} {apply : ι → σ → σ × ρ} {s t : Monitor σ ι π ρ} {a : Atomic σ ι ρ}
  {i j : ℕ}

/-- How the places of thread `i` fit. In a call it holds the mutex from the lock on, and what is left
of its body has the effect and the result of the call. -/
def Fits (M : Methods σ ι π ρ) (apply : ι → σ → σ × ρ) (s : Monitor σ ι π ρ) (a : Atomic σ ι ρ)
    (i : ℕ) : Prop :=
  match s.threads i with
  | .idle => a.threads i = .idle
  | .called op => a.threads i = .called op
  | .inside p => s.mutex = some i ∧ ∃ op, a.threads i = .called op ∧
      M.Finishes p s.memory (apply op a.value).1 (apply op a.value).2
  | .leaving r => s.mutex = some i ∧ ∃ op, a.threads i = .called op ∧
      s.memory = (apply op a.value).1 ∧ r = (apply op a.value).2
  | .returning r => a.threads i = .returning r

/-- The relation between the two levels: while the mutex is free, the memory is the value. -/
structure Sim (M : Methods σ ι π ρ) (apply : ι → σ → σ × ρ) (s : Monitor σ ι π ρ)
    (a : Atomic σ ι ρ) : Prop where
  fits : ∀ i, Fits M apply s a i
  free : s.mutex = none → s.memory = a.value
  holder : ∀ i, s.mutex = some i → (∃ p, s.threads i = .inside p) ∨ ∃ r, s.threads i = .leaving r

/-- The first states simulate each other. -/
theorem sim_init (m : σ) : Sim M apply { memory := m } { value := m } where
  fits _ := rfl
  free _ := rfl
  holder := nofun

/-- A thread that does not move goes on to fit, if nothing happens to the memory and the value while it
holds the mutex. -/
theorem Fits.congr {b : Atomic σ ι ρ} (h : Fits M apply s a j) (hthread : t.threads j = s.threads j)
    (hthread' : b.threads j = a.threads j)
    (hheld : s.mutex = some j → t.mutex = some j ∧ t.memory = s.memory ∧ b.value = a.value) :
    Fits M apply t b j := by
  unfold Fits at h ⊢
  rw [hthread, hthread']
  cases hj : s.threads j with
  | idle | called op | returning r => simpa only [hj] using h
  | inside p =>
    obtain ⟨hmutex, op, hop, hfinishes⟩ : s.mutex = some j ∧ ∃ op, a.threads j = .called op ∧
        M.Finishes p s.memory (apply op a.value).1 (apply op a.value).2 := by simpa only [hj] using h
    obtain ⟨hmutex', hmemory, hvalue⟩ := hheld hmutex
    exact ⟨hmutex', op, hop, by rwa [hmemory, hvalue]⟩
  | leaving r =>
    obtain ⟨hmutex, op, hop, heffect, hresult⟩ : s.mutex = some j ∧ ∃ op, a.threads j = .called op ∧
        s.memory = (apply op a.value).1 ∧ r = (apply op a.value).2 := by simpa only [hj] using h
    obtain ⟨hmutex', hmemory, hvalue⟩ := hheld hmutex
    exact ⟨hmutex', op, hop, by rw [hmemory, hvalue, heffect], by rw [hvalue, hresult]⟩

/-- The thread that has moved is where it moved to. -/
theorem threads_goto_self {p : CallPhase ι π ρ} : (s.goto i p).threads i = p := by
  simp [goto]

/-- The other threads are where they were. -/
theorem threads_goto_of_ne {p : CallPhase ι π ρ} (h : j ≠ i) : (s.goto i p).threads j = s.threads j := by
  simp [goto, h]

/-- A step with which a thread goes on keeps the relation, if the thread fits at its new place and no
other thread holds the mutex while something happens to the memory and the value. -/
theorem Sim.of_goto (h : Sim M apply s a) {b : Atomic σ ι ρ} {p : CallPhase ι π ρ}
    {q : AtomicPhase ι ρ} (hthreads : t.threads = (s.goto i p).threads)
    (hthreads' : b.threads = (a.goto i q).threads) (hfits : Fits M apply t b i)
    (hheld : ∀ j, j ≠ i → s.mutex = some j →
      t.mutex = some j ∧ t.memory = s.memory ∧ b.value = a.value)
    (hfree : t.mutex = none → t.memory = b.value)
    (hmutex : ∀ j, t.mutex = some j → j ≠ i ∧ s.mutex = some j ∨
      j = i ∧ ((∃ p', p = .inside p') ∨ ∃ r, p = .leaving r)) : Sim M apply t b where
  fits j := by
    by_cases hj : j = i
    · subst hj
      exact hfits
    · have hb : b.threads j = a.threads j := by
        rw [hthreads']
        exact Function.update_of_ne hj q a.threads
      exact (h.fits j).congr (by rw [hthreads, threads_goto_of_ne hj]) hb (hheld j hj)
  free := hfree
  holder j hj := by
    rw [hthreads]
    rcases hmutex j hj with ⟨hne, hs⟩ | ⟨rfl, hp⟩
    · rw [threads_goto_of_ne hne]
      exact h.holder j hs
    · rw [threads_goto_self]
      exact hp

/-- **Each step** of the object behind its mutex is matched. -/
theorem Sim.step (hM : M.Computes apply) (h : Sim M apply s a) {e : CallEvent ι ρ}
    (hs : Step M s e t) : ∃ b, Atomic.Step apply a e b ∧ Sim M apply t b := by
  cases hs with
  | @call i op hi =>
    have ha : a.threads i = .idle := by simpa only [Fits, hi] using h.fits i
    refine ⟨_, .call ha, h.of_goto rfl rfl ?_ (fun j _ hj => ⟨hj, rfl, rfl⟩) h.free fun j hj => ?_⟩
    · simp only [Fits, threads_goto_self]
      exact Function.update_self ..
    · -- an idle thread does not hold the mutex
      refine .inl ⟨?_, hj⟩
      rintro rfl
      rcases h.holder j hj with ⟨p, hp⟩ | ⟨r, hr⟩ <;> simp_all
  | @lock i op hi hfree =>
    have ha : a.threads i = .called op := by simpa only [Fits, hi] using h.fits i
    refine ⟨a, .lock, h.of_goto (q := a.threads i) rfl ?_ ?_ ?_ nofun fun j hj => ?_⟩
    · exact (Function.update_eq_self i a.threads).symm
    · -- the whole body is left
      have hfinishes := hM op s.memory
      simp only [Fits, threads_goto_self]
      exact ⟨trivial, op, ha, by rwa [← h.free hfree]⟩
    · intro j _ hj
      rw [hfree] at hj
      cases hj
    · exact .inr ⟨(Option.some.inj hj).symm, .inl ⟨_, rfl⟩⟩
  | @body i p m e hi hnext =>
    obtain ⟨hmutex, op, ha, hfinishes⟩ : s.mutex = some i ∧ ∃ op, a.threads i = .called op ∧
        M.Finishes p s.memory (apply op a.value).1 (apply op a.value).2 := by
      simpa only [Fits, hi] using h.fits i
    refine ⟨a, .body, h.of_goto (q := a.threads i) rfl ?_ ?_ ?_ ?_ fun j hj => ?_⟩
    · exact (Function.update_eq_self i a.threads).symm
    · -- the memory moves and the value does not: less of the body is left
      simp only [Fits, threads_goto_self]
      cases hfinishes with
      | ret hlast =>
        obtain ⟨rfl, rfl⟩ := Prod.mk.inj (Option.some.inj (hnext.symm.trans hlast))
        exact ⟨hmutex, op, ha, rfl, rfl⟩
      | step hfirst hrest =>
        obtain ⟨rfl, rfl⟩ := Prod.mk.inj (Option.some.inj (hnext.symm.trans hfirst))
        exact ⟨hmutex, op, ha, hrest⟩
    · intro j hne hj
      exact absurd (Option.some.inj (hmutex.symm.trans hj)).symm hne
    · intro hnone
      exact nomatch hmutex.symm.trans hnone
    · refine .inr ⟨(Option.some.inj (hmutex.symm.trans hj)).symm, ?_⟩
      cases e with
      | inl p' => exact .inl ⟨p', rfl⟩
      | inr r => exact .inr ⟨r, rfl⟩
  | @unlock i r hi =>
    obtain ⟨hmutex, op, ha, heffect, rfl⟩ : s.mutex = some i ∧ ∃ op, a.threads i = .called op ∧
        s.memory = (apply op a.value).1 ∧ r = (apply op a.value).2 := by
      simpa only [Fits, hi] using h.fits i
    -- only now the effect is seen
    refine ⟨_, .unlock ha, h.of_goto rfl rfl ?_ ?_ (fun _ => heffect) nofun⟩
    · simp only [Fits, threads_goto_self]
      exact Function.update_self ..
    · intro j hne hj
      exact absurd (Option.some.inj (hmutex.symm.trans hj)).symm hne
  | @ret i r hi =>
    have ha : a.threads i = .returning r := by simpa only [Fits, hi] using h.fits i
    refine ⟨_, .ret ha, h.of_goto rfl rfl ?_ (fun j _ hj => ⟨hj, rfl, rfl⟩) h.free fun j hj => ?_⟩
    · simp only [Fits, threads_goto_self]
      exact Function.update_self ..
    · refine .inl ⟨?_, hj⟩
      rintro rfl
      rcases h.holder j hj with ⟨p, hp⟩ | ⟨r, hr⟩ <;> simp_all

/-- **Simulation.** Each run of the object behind its mutex is matched by a run, with the same labels,
of the object whose calls take effect at once. -/
theorem simulate (hM : M.Computes apply) {m : σ} {es : List (CallEvent ι ρ)}
    (hr : (lts M m).Run { memory := m } es s) :
    ∃ a, (Atomic.lts apply m).Run { value := m } es a ∧ Sim M apply s a :=
  Lts.Run.simulate (R := Sim M apply) (fun _ _ _ _ h hs => h.step hM hs) hr (sim_init m)

/-- The result that a thread is about to get, when the mutex has been let go. -/
def waiting (s : Monitor σ ι π ρ) (i : ℕ) : List ρ :=
  match s.threads i with
  | .returning r => [r]
  | _ => []

/-- The same calls wait in both. -/
theorem Sim.waiting_eq (h : Sim M apply s a) : (a.threads i).waiting = s.waiting i := by
  have hfits := h.fits i
  unfold Fits at hfits
  unfold waiting
  cases hi : s.threads i with
  | idle | called op | returning r =>
    rw [hi] at hfits
    rw [hfits]
    rfl
  | inside p | leaving r =>
    rw [hi] at hfits
    obtain ⟨-, op, hop, -⟩ := hfits
    rw [hop]
    rfl

/-- **Linearizability.** The calls of a run that have let the mutex go, made one after the other in
the order in which they did, give the memory, while the mutex is free, and give each thread the
results that it has got and the one that it is about to get. -/
theorem linearize (hM : M.Computes apply) {m : σ} {es : List (CallEvent ι ρ)}
    (hr : (lts M m).Run { memory := m } es s) :
    (s.mutex = none → s.memory = (replay apply m (CallEvent.effects (fun _ => none) es)).1) ∧
    ∀ i, resultsOf i (replay apply m (CallEvent.effects (fun _ => none) es)).2 =
      CallEvent.rets i es ++ s.waiting i := by
  obtain ⟨a, hrun, hsim⟩ := simulate hM hr
  obtain ⟨hvalue, hresults⟩ := Atomic.run_eq_replay hrun
  refine ⟨fun hfree => (hsim.free hfree).trans hvalue, fun i => ?_⟩
  rw [← hsim.waiting_eq]
  exact hresults i

/-- **No undefined step.** The next step of a body that has started is defined. -/
theorem Sim.next_ne_none (h : Sim M apply s a) {p : π} (hi : s.threads i = .inside p) :
    M.next p s.memory ≠ none := by
  obtain ⟨-, op, -, hfinishes⟩ : s.mutex = some i ∧ ∃ op, a.threads i = .called op ∧
      M.Finishes p s.memory (apply op a.value).1 (apply op a.value).2 := by
    simpa only [Fits, hi] using h.fits i
  cases hfinishes with
  | ret hlast => simp [hlast]
  | step hfirst => simp [hfirst]

end Monitor

end Libio
