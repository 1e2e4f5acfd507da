import Libio.Model.ProactorWait
import Mathlib.Data.List.Forall2
import Mathlib.Data.List.Nodup

/-! # While a thread of the proactor waits in the kernel

`run` calls `task_->loop(false, true)` under the mutex, and the loop waits in `listen`. Until the
kernel answers, nobody else gets the mutex: no `async_read` or `async_write` returns, and a thread
that has taken a callback and left others in `op_queue` stands in front of `cv.notify_one()`, with
the callback that it did not call yet. So of the callbacks in `op_queue` each other thread takes one
at most, and while one is left none of those taken is called (`held_up`). -/

namespace Libio

universe u

namespace Proactor

variable {κ : Type u}

/-- The steps of the loop of the reactor, which the answer of the kernel sets going. -/
def Kernel : ProactorEvent κ → Prop
  | .loop _ _ | .skip _ => True
  | _ => False

/-- A thread has taken a callback and is in front of its call, or of the mutex on the way there. -/
def Keeps (s : Proactor κ) (j : ℕ) (f : κ) : Prop :=
  s.threads j = .rechecking (some f) ∨ s.threads j = .notifying (some f)

/-- From `s` to `t` the threads `js` took the callbacks `l`, and nothing else has changed for the
thread `k` in the loop. -/
structure HeldUp (k : ℕ) (s t : Proactor κ) (js : List ℕ) (l : List κ) : Prop where
  looping : t.threads k = .looping
  submitted : t.submitted = s.submitted
  moved : t.moved = s.moved
  ops : t.ops = s.ops
  task : t.task = s.task
  opQueue : s.opQueue = l ++ t.opQueue
  popped : t.popped = s.popped ++ l
  nodup : js.Nodup
  length : js.length = l.length
  others : ∀ j ∈ js, j < t.created ∧ j ≠ k
  keeps : t.opQueue ≠ [] → List.Forall₂ t.Keeps js l

variable {s t u : Proactor κ} {j k : ℕ} {js : List ℕ} {l : List κ}

/-- At the beginning nothing was taken. -/
theorem heldUp_refl (hk : s.threads k = .looping) : HeldUp k s s [] [] where
  looping := hk
  submitted := rfl
  moved := rfl
  ops := rfl
  task := rfl
  opQueue := rfl
  popped := (List.append_nil _).symm
  nodup := List.nodup_nil
  length := rfl
  others := nofun
  keeps _ := .nil

/-- Fewer callbacks were taken than there are threads. -/
theorem HeldUp.length_lt (h : HeldUp k s t js l) (hsound : t.Sound) : l.length < t.created := by
  have hk : k < t.created := hsound.locked.lt_created (by simp [h.looping])
  have hnodup : (k :: js).Nodup := List.nodup_cons.mpr ⟨fun hin => (h.others k hin).2 rfl, h.nodup⟩
  have hsub : k :: js ⊆ List.range t.created := by
    refine List.cons_subset.mpr ⟨List.mem_range.mpr hk, fun j hj => ?_⟩
    exact List.mem_range.mpr (h.others j hj).1
  have hlength := hnodup.length_le_of_subset hsub
  rwa [List.length_cons, List.length_range, h.length] at hlength

/-- A thread that keeps a callback is not one at another place. -/
theorem ne_of_keeps {i : ℕ} {f : κ} (hkeeps : t.Keeps i f)
    (hj : ∀ f, t.threads j ≠ .rechecking (some f) ∧ t.threads j ≠ .notifying (some f)) : i ≠ j := by
  rintro rfl
  exact hkeeps.elim (hj f).1 (hj f).2

/-- **A thread goes on** that keeps no callback, without taking one. -/
theorem HeldUp.goto (h : HeldUp k s t js l) {pc : RunPc κ} (hjk : j ≠ k)
    (hj : ∀ f, t.threads j ≠ .rechecking (some f) ∧ t.threads j ≠ .notifying (some f)) :
    HeldUp k s (t.goto j pc) js l :=
  { h with
    looping := by rw [threads_goto, if_neg hjk.symm, h.looping]
    keeps := fun hqueue => (h.keeps hqueue).imp fun i f hkeeps => by
      unfold Keeps
      rw [threads_goto, if_neg (ne_of_keeps hkeeps hj)]
      exact hkeeps }

/-- **A thread looks at `op_queue` again**: it keeps what it took while there is more. -/
theorem HeldUp.recheck (h : HeldUp k s t js l) (hjk : j ≠ k) {cb : Option κ}
    (hpc : t.threads j = .rechecking cb) :
    HeldUp k s (t.goto j (if t.opQueue.empty then .after cb else .notifying cb)) js l :=
  { h with
    looping := by rw [threads_goto, if_neg hjk.symm, h.looping]
    keeps := fun hqueue => (h.keeps hqueue).imp fun i f hkeeps => by
      have hempty : t.opQueue.empty = false := Bool.eq_false_iff.mpr fun he =>
        hqueue (LockQueue.empty_iff.mp he)
      unfold Keeps
      rw [threads_goto, hempty]
      by_cases hij : i = j
      · subst hij
        refine .inr ?_
        rcases hkeeps with hkeeps | hkeeps
        · obtain rfl := RunPc.rechecking.inj (hpc.symm.trans hkeeps)
          simp
        · rw [hpc] at hkeeps
          cases hkeeps
      · rw [if_neg hij]
        exact hkeeps }

/-- **A thread takes a callback.** -/
theorem HeldUp.pop (h : HeldUp k s t js l) (hjk : j ≠ k) (hj : j < t.created)
    (hpc : t.threads j = .popping) {f : κ} {rest : List κ} (hqueue : t.opQueue = f :: rest) :
    HeldUp k s { t.goto j (.rechecking (some f)) with opQueue := rest, popped := t.popped ++ [f] }
      (js ++ [j]) (l ++ [f]) := by
  -- all that took one before still keep it, so this thread is none of them
  have hkeeps := h.keeps (by simp [hqueue])
  have hne : ∀ {i g}, t.Keeps i g → i ≠ j := fun hkeeps => ne_of_keeps hkeeps (by simp [hpc])
  have hfresh : j ∉ js := by
    intro hin
    obtain ⟨i, hi, rfl⟩ := List.getElem_of_mem hin
    exact hne (hkeeps.get hi (hkeeps.length_eq ▸ hi)) rfl
  have hnew : List.Forall₂ (Keeps { t.goto j (.rechecking (some f)) with
      opQueue := rest, popped := t.popped ++ [f] }) (js ++ [j]) (l ++ [f]) := by
    refine List.rel_append (hkeeps.imp fun i g hkeeps => ?_) (.cons (.inl ?_) .nil)
    · unfold Keeps
      simp only [threads_goto, if_neg (hne hkeeps)]
      exact hkeeps
    · simp only [threads_goto, if_true]
  exact
    { looping := by simp only [threads_goto, if_neg hjk.symm, h.looping]
      submitted := h.submitted
      moved := h.moved
      ops := h.ops
      task := h.task
      opQueue := by rw [h.opQueue, hqueue, List.append_assoc]; rfl
      popped := by simp only [h.popped, List.append_assoc]
      nodup := List.nodup_append.mpr ⟨h.nodup, List.nodup_singleton j, by
        rintro i hi _ (hmem : _ ∈ [j]) rfl
        exact hfresh (List.mem_singleton.mp hmem ▸ hi)⟩
      length := by rw [List.length_append, List.length_append, h.length]; rfl
      others := fun i hi => by
        rcases List.mem_append.mp hi with hi | hi
        · exact h.others i hi
        · rw [List.mem_singleton.mp hi]
          exact ⟨hj, hjk⟩
      keeps := fun _ => hnew }

/-- **A step of another thread.** None of them gets the mutex. -/
theorem HeldUp.runStep (h : HeldUp k s t js l) (hsound : t.Sound) (hj : j < t.created)
    (hrun : t.runStep j = some u) : ∃ js l, HeldUp k s u js l := by
  have hm : t.mutex ≠ none := by
    have hmutex : t.mutex = some k := (hsound.locked.mutex k).mpr (by rw [h.looping]; trivial)
    simp [hmutex]
  have hjk : j ≠ k := by
    rintro rfl
    simp [Proactor.runStep, h.looping] at hrun
  unfold Proactor.runStep at hrun
  cases hpc : t.threads j with
  | checking | looking | testing | calling f =>
      simp only [hpc] at hrun
      obtain rfl := Option.some.inj hrun
      exact ⟨js, l, h.goto hjk (by simp [hpc])⟩
  | popping =>
      simp only [hpc] at hrun
      split at hrun
      · next f rest hpop =>
          obtain rfl := Option.some.inj hrun
          exact ⟨_, _, h.pop hjk hj hpc (LockQueue.pop_eq_some.mp hpop)⟩
      · obtain rfl := Option.some.inj hrun
        exact ⟨js, l, h.goto hjk (by simp [hpc])⟩
  | rechecking cb =>
      simp only [hpc] at hrun
      obtain rfl := Option.some.inj hrun
      exact ⟨js, l, h.recheck hjk hpc⟩
  | entering | locking =>
      -- the mutex is with the thread in the kernel
      simp only [hpc, if_neg hm] at hrun
      cases hrun
  | raising | lowering =>
      -- these places hold the mutex, and it is taken
      exact absurd (hsound.locked.unique (by rw [hpc]; trivial) (by rw [h.looping]; trivial)) hjk
  | notifying _ | looping | asleep =>
      simp only [hpc] at hrun
      cases hrun

/-- **Every step** while the kernel does not answer. -/
theorem HeldUp.step (h : HeldUp k s t js l) (hsound : t.Sound) {e : ProactorEvent κ} (hkernel : ¬Kernel e)
    (he : t.step e = some u) : ∃ js l, HeldUp k s u js l := by
  have hk : k < t.created := hsound.locked.lt_created (by simp [h.looping])
  have hm : t.mutex = some k := (hsound.locked.mutex k).mpr (by rw [h.looping]; trivial)
  cases e with
  | start =>
      obtain rfl := Option.some.inj he
      have hfresh := hsound.locked.fresh t.created le_rfl
      have hgoto : HeldUp k s (t.goto t.created .checking) js l :=
        h.goto (Nat.ne_of_gt hk) (by simp [hfresh])
      exact ⟨js, l, { hgoto with others := fun j hj => (h.others j hj).imp_left Nat.lt_succ_of_lt }⟩
  | async caller d socket f =>
      obtain ⟨-, ⟨-, rfl⟩ | ⟨-, hfree, -⟩⟩ := async_cases he
      · exact ⟨js, l, h⟩
      · rw [hm] at hfree
        cases hfree
  | run j =>
      obtain ⟨hj, hrun⟩ := Option.ite_none_right_eq_some.mp he
      exact h.runStep hsound hj hrun
  | notify j target =>
      simp only [Proactor.step] at he
      split at he
      · obtain ⟨⟨-, hfree, -⟩, -⟩ := Option.ite_none_right_eq_some.mp he
        rw [hm] at hfree
        cases hfree
      · cases he
  | spurious j =>
      obtain ⟨⟨-, hpc⟩, he⟩ := Option.ite_none_right_eq_some.mp he
      obtain rfl := Option.some.inj he
      have hjk : j ≠ k := by
        rintro rfl
        rw [h.looping] at hpc
        cases hpc
      exact ⟨js, l, h.goto hjk (by simp [hpc])⟩
  | loop | skip => exact absurd trivial hkernel

/-- **All are held up**: from a state in which a thread is in the loop, as long as the kernel does not
answer, nothing is registered and nothing completed; the callbacks that leave `op_queue` are taken by
different threads, so they are fewer than the threads; and until the last one is taken each of them
stays with its thread, which has not called it. -/
theorem held_up (h : (lts κ).Reachable s) (hk : s.threads k = .looping) {es : List (ProactorEvent κ)}
    (hrun : ((lts κ).guard fun _ e => ¬Kernel e).Run s es t) :
    (t.submitted = s.submitted ∧ t.moved = s.moved ∧ t.ops = s.ops ∧ t.task = s.task) ∧
      ∃ js l, s.opQueue = l ++ t.opQueue ∧ t.popped = s.popped ++ l ∧ l.length < t.created ∧
        js.Nodup ∧ k ∉ js ∧ js.length = l.length ∧ (t.opQueue ≠ [] → List.Forall₂ t.Keeps js l) := by
  have hinv : t.Sound ∧ ∃ js l, HeldUp k s t js l := by
    refine hrun.invariant (P := fun t => t.Sound ∧ ∃ js l, HeldUp k s t js l) ?_
      ⟨sound_of_reachable h, [], [], heldUp_refl hk⟩
    rintro u e v ⟨hsound, js, l, hheld⟩ ⟨hkernel, -, -, he⟩
    exact ⟨hsound.step he, hheld.step hsound hkernel he⟩
  obtain ⟨hsound, js, l, hheld⟩ := hinv
  exact ⟨⟨hheld.submitted, hheld.moved, hheld.ops, hheld.task⟩, js, l, hheld.opQueue, hheld.popped,
    hheld.length_lt hsound, hheld.nodup, fun hin => (hheld.others k hin).2 rfl, hheld.length, hheld.keeps⟩

/-- Two callbacks are in `op_queue` when the second thread enters the loop; the first one takes one of
them and waits for the mutex with it. -/
theorem held_up_with_callback : ∃ s t : Proactor ℕ, s.opQueue = [0, 1] ∧ t.opQueue = [1] ∧
    t.threads 0 = .notifying (some 0) ∧ t.threads 1 = .looping ∧ t.ops = s.ops ∧
    ∃ js l, s.opQueue = l ++ t.opQueue ∧ l.length < t.created ∧ 1 ∉ js ∧
      (t.opQueue ≠ [] → List.Forall₂ t.Keeps js l) := by
  let es : List (ProactorEvent ℕ) :=
    [.start, .start, .async none .read 5 0, .async none .write 5 1, .async none .read 5 2,
      .async none .write 5 3, .run 0, .run 0, .run 0, .run 0, .run 0, .run 1,
      .loop 0 (.listen [(5, .RDWR)]), .loop 0 .resume, .loop 0 .dispatch, .loop 0 .resume,
      .loop 0 .dispatch, .loop 0 .resume, .loop 0 .clean, .run 0, .run 1, .run 1, .run 1, .run 1]
  let taking (s : Proactor ℕ) (e : ProactorEvent ℕ) := if e = .run 0 then stepWith 5 s e else none
  have hrun : ((es.foldlM (stepWith 5) {}).bind fun s =>
      ([.run 0, .run 0, .run 0].foldlM taking s).map fun t =>
        (s.opQueue, s.threads 1, t.opQueue, t.threads 0, t.threads 1)) =
      some ([0, 1], .looping, [1], .notifying (some 0), .looping) := by
    decide +kernel
  obtain ⟨s, hs, hrun⟩ := Option.bind_eq_some_iff.mp hrun
  obtain ⟨t, ht, hshow⟩ := Option.map_eq_some_iff.mp hrun
  simp only [Prod.mk.injEq] at hshow
  obtain ⟨hqueue, hlooping, hqueue', hpc, hlooping'⟩ := hshow
  have htaking : ((lts ℕ).guard fun _ e => ¬Kernel e).Run s [.run 0, .run 0, .run 0] t := by
    refine .of_foldlM (fun s e t he => ?_) ht
    obtain ⟨rfl, he⟩ := Option.ite_none_right_eq_some.mp he
    exact ⟨id, step_of_stepWith he⟩
  obtain ⟨⟨-, -, hops, -⟩, js, l, hl, -, hlt, -, hjs, -, hkeeps⟩ :=
    held_up (reachable_of_stepWith hs) hlooping htaking
  exact ⟨s, t, hqueue, hqueue', hpc, hlooping', hops, js, l, hl, hlt, hjs, hkeeps⟩

end Proactor

end Libio
