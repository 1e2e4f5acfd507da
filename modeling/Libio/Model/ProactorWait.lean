import Libio.Model.Proactor

/-! # Work for the threads of a proactor

A thread in `run` goes to sleep when it finds nothing in `op_queue`, and only a thread that leaves
something in `op_queue` notifies. So `async_read` and `async_write` wake nobody: what is submitted
from outside while all threads sleep, or are about to, stays where it is.

A thread attends to the work when it will look at `op_queue` and `ops` before it sleeps.
`not_stuck_of_timely` says that with calls from outside that find such a thread, or no thread at all,
the threads never all sleep on work; `stuck_of_not_timely` that any other call can leave them so. -/

namespace Libio

universe u

namespace Proactor

variable {κ : Type u} (s : Proactor κ)

/-- There is work: `ops` or `op_queue` is not empty. -/
def Work : Prop := s.ops.isEmpty = false ∨ s.opQueue ≠ []

/-- All threads are blocked in `cv.wait` while there is work. Nobody is about to notify then. -/
def Stuck : Prop := 0 < s.created ∧ s.Work ∧ ∀ k < s.created, s.threads k = .asleep

/-- A thread will look at the work before it sleeps. -/
def Attends (k : ℕ) : Prop :=
  match s.threads k with
  | .asleep => False
  -- the predicate of `cv.wait` is about `op_queue` alone
  | .locking => s.opQueue ≠ []
  | _ => True

/-- Work that there is has a thread that attends to it. -/
def Attended : Prop := 0 < s.created → s.Work → ∃ k < s.created, s.Attends k

/-- A call from outside finds no thread in `run` yet, or one that attends. -/
def Timely (s : Proactor κ) : ProactorEvent κ → Prop
  | .async none _ socket _ => socket < 0 ∨ s.created = 0 ∨ ∃ k < s.created, s.Attends k
  | _ => True

variable {s} {t : Proactor κ} {k : ℕ}

/-- A thread that sleeps does not attend. -/
theorem not_stuck_of_attended (h : s.Attended) : ¬s.Stuck := by
  rintro ⟨hpos, hwork, hasleep⟩
  obtain ⟨k, hk, hattends⟩ := h hpos hwork
  rw [Attends, hasleep k hk] at hattends
  exact hattends

/-! ## One step -/

/-- A thread at any other place than the two of `cv.wait` attends. -/
theorem attends_of_pc {pc : RunPc κ} (hpc : s.threads k = pc) (hne : pc ≠ .locking)
    (hne' : pc ≠ .asleep) : s.Attends k := by
  unfold Attends
  rw [hpc]
  cases pc with
  | locking => exact absurd rfl hne
  | asleep => exact absurd rfl hne'
  | _ => trivial

/-- A thread that is neither asleep nor in front of the mutex attends to the work. -/
theorem attended_of_pc {pc : RunPc κ} (hk : k < s.created) (hpc : s.threads k = pc)
    (hne : pc ≠ .locking) (hne' : pc ≠ .asleep) : s.Attended :=
  fun _ _ => ⟨k, hk, attends_of_pc hpc hne hne'⟩

/-- A thread that is somewhere in `run` was created. -/
theorem Locked.lt_created (h : s.Locked) (hpc : s.threads k ≠ .checking) : k < s.created := by
  by_contra hge
  exact hpc (h.fresh k (Nat.not_lt.mp hge))

/-- What another thread attends to is not changed by a thread that goes on. -/
theorem attends_goto_of_ne {pc : RunPc κ} {j : ℕ} (hj : j ≠ k) (h : s.Attends j) :
    (s.goto k pc).Attends j := by
  unfold Attends at h ⊢
  rw [threads_goto, if_neg hj]
  exact h

/-- **A thread leaves work only to others**: it goes to the wait when there is none, or when another
thread is in the loop. -/
theorem Attended.runStep (h : s.Attended) (hlocked : s.Locked) (hk : k < s.created)
    (hrun : s.runStep k = some t) : t.Attended := by
  cases runStepped hrun with
  | goto _ _ hlocking hasleep =>
      exact attended_of_pc hk ((threads_goto _ k).trans (if_pos rfl)) hlocking hasleep
  | pop | enter | raise | lower =>
      exact attended_of_pc hk ((threads_goto _ k).trans (if_pos rfl)) (by simp) (by simp)
  | wait hpc =>
      rcases hpc with ⟨hpc, hops⟩ | ⟨hpc, hin⟩
      · -- `ops` is empty, so the work is in `op_queue`, which the predicate looks at
        rintro - (hwork | hwork)
        · exact absurd (hops.symm.trans hwork) (by simp)
        · refine ⟨k, hk, ?_⟩
          unfold Attends
          rw [threads_goto, if_pos rfl]
          exact hwork
      · -- another thread is in the loop
        obtain ⟨j, hj⟩ := hlocked.inloop hin
        have hne : j ≠ k := by
          rintro rfl
          rw [hpc] at hj
          rcases hj with hj | hj <;> cases hj
        have hjk : ((s.goto k .locking).threads j) = s.threads j := by
          rw [threads_goto, if_neg hne]
        have hcreated : j < s.created := by
          refine hlocked.lt_created ?_
          rcases hj with hj | hj <;> simp [hj]
        rcases hj with hj | hj
        · exact attended_of_pc hcreated (hjk.trans hj) (by simp) (by simp)
        · exact attended_of_pc hcreated (hjk.trans hj) (by simp) (by simp)
  | sleep hpc hempty =>
      -- the thread finds `op_queue` empty, so it was not the one that attends
      intro hpos hwork
      obtain ⟨j, hj, hattends⟩ := h hpos hwork
      have hne : j ≠ k := by
        rintro rfl
        rw [Attends, hpc] at hattends
        exact hattends (LockQueue.empty_iff.mp hempty)
      exact ⟨j, hj, attends_goto_of_ne hne hattends⟩

/-- A handler leaves the threads where they are. -/
theorem complete_threads (fd : ℤ) (d : Dir) :
    (s.complete fd d).threads = s.threads ∧ (s.complete fd d).created = s.created := by
  cases hpending : s.pending fd d with
  | nil => rw [complete_of_nil hpending]; exact ⟨rfl, rfl⟩
  | cons f rest =>
      obtain ⟨data, hcomplete, -⟩ := complete_of_cons hpending
      rw [hcomplete]
      exact ⟨rfl, rfl⟩

/-- A thread that runs the loop is still there after its step. -/
theorem attended_of_loopStep (hk : k < s.created) {e : LoopEvent (ℤ × Dir)}
    (he : s.loopStep k e = some t) : t.Attended := by
  obtain ⟨hpc, task, -, ⟨-, -, -, rfl | ⟨fd, d, rfl⟩⟩ | ⟨-, -, rfl⟩⟩ := loopStep_cases he
  · exact attended_of_pc hk hpc (by simp) (by simp)
  · obtain ⟨hthreads, hcreated⟩ := complete_threads (s := { s with task := task }) fd d
    have hpc' : ({ s with task := task }.complete fd d).threads k = .looping := by
      rw [hthreads]
      exact hpc
    refine attended_of_pc ?_ hpc' (by simp) (by simp)
    rw [hcreated]
    exact hk
  · exact attended_of_pc hk ((threads_goto _ k).trans (if_pos rfl)) (by simp) (by simp)

/-- A call that finds a thread that attends leaves it there. -/
theorem attended_of_async {caller : Option ℕ} {d : Dir} {socket : ℤ} {f : κ} (h : s.Attended)
    (hlocked : s.Locked) (htimely : Timely s (.async caller d socket f))
    (he : s.step (.async caller d socket f) = some t) : t.Attended := by
  obtain ⟨hcaller, ⟨-, rfl⟩ | ⟨hneg, -, rfl⟩⟩ := async_cases he
  · exact h
  · -- the threads are where they were
    intro hpos _
    cases caller with
    | none =>
        obtain hlt | hzero | hattends := htimely
        · exact absurd hlt hneg
        · exact absurd hpos (by rw [show (s.submit d socket f).created = 0 from hzero]; simp)
        · exact hattends
    | some k =>
        obtain ⟨cb, hpc⟩ := hcaller k rfl
        have hk : k < s.created := hlocked.lt_created (by simp [hpc])
        exact ⟨k, hk, attends_of_pc (s := s.submit d socket f) hpc (by simp) (by simp)⟩

/-- **A timely step** leaves work only to a thread that attends to it. -/
theorem Attended.step (h : s.Attended) (hlocked : s.Locked) {e : ProactorEvent κ}
    (htimely : Timely s e) (he : s.step e = some t) : t.Attended := by
  cases e with
  | start =>
      obtain rfl := Option.some.inj he
      exact attended_of_pc (k := s.created) (Nat.lt_succ_self _)
        ((threads_goto _ _).trans (if_pos rfl)) (by simp) (by simp)
  | async caller d socket f => exact attended_of_async h hlocked htimely he
  | run k =>
      obtain ⟨hk, hrun⟩ := Option.ite_none_right_eq_some.mp he
      exact h.runStep hlocked hk hrun
  | notify k target =>
      simp only [Proactor.step] at he
      split at he
      · next cb _ =>
          obtain ⟨⟨hk, -, -⟩, he⟩ := Option.ite_none_right_eq_some.mp he
          obtain rfl := Option.some.inj he
          have hk' : k < (s.notifyOne target).created := by cases target <;> exact hk
          exact attended_of_pc hk' ((threads_goto _ k).trans (if_pos rfl)) (RunPc.after_ne cb).1
            (RunPc.after_ne cb).2
      · cases he
  | spurious k =>
      obtain ⟨⟨-, hpc⟩, he⟩ := Option.ite_none_right_eq_some.mp he
      obtain rfl := Option.some.inj he
      intro hpos hwork
      obtain ⟨j, hj, hattends⟩ := h hpos hwork
      have hne : j ≠ k := by
        rintro rfl
        rw [Attends, hpc] at hattends
        exact hattends
      exact ⟨j, hj, attends_goto_of_ne hne hattends⟩
  | loop k e =>
      obtain ⟨hk, he⟩ := Option.ite_none_right_eq_some.mp he
      exact attended_of_loopStep hk he
  | skip k =>
      simp only [Proactor.step] at he
      split at he
      · obtain ⟨hk, he⟩ := Option.ite_none_right_eq_some.mp he
        obtain rfl := Option.some.inj he
        exact attended_of_pc hk ((threads_goto _ k).trans (if_pos rfl)) (by simp) (by simp)
      · cases he

/-! ## Runs -/

/-- **The threads never all sleep on work**, in a run whose calls from outside are timely. -/
theorem not_stuck_of_timely (h : ((lts κ).guard Timely).Reachable s) : ¬s.Stuck := by
  have hinit : Attended ({} : Proactor κ) := fun hpos => absurd hpos (Nat.not_lt_zero 0)
  have hinv : s.Sound ∧ s.Attended :=
    h.invariant (P := fun s => s.Sound ∧ s.Attended)
      (fun _ hs => hs ▸ ⟨sound_init, hinit⟩) fun _ _ _ hs hstep =>
        ⟨hs.1.step hstep.2.2.2, hs.2.step hs.1.locked hstep.1 hstep.2.2.2⟩
  exact not_stuck_of_attended hinv.2

/-- A read is submitted after a thread has entered `run` and before it sleeps. -/
theorem not_stuck_of_read_in_time :
    ∃ s : Proactor ℕ, 0 < s.created ∧ s.pending 5 .read = [0] ∧ ¬s.Stuck := by
  have h₀ : ((lts ℕ).guard Timely).Reachable {} := .of_init rfl
  have h₁ := h₀.step (a := ProactorEvent.start) ⟨trivial, rfl, trivial, rfl⟩
  have h₂ := h₁.step (a := ProactorEvent.async none .read 5 0)
    ⟨.inr (.inr ⟨0, Nat.one_pos, trivial⟩), rfl, trivial, rfl⟩
  exact ⟨_, Nat.one_pos, by decide +kernel, not_stuck_of_timely h₂⟩

/-- A read is submitted after the only thread has gone to sleep. -/
theorem stuck_of_read_too_late : ∃ s : Proactor ℕ, (lts ℕ).Reachable s ∧ s.Stuck := by
  let es : List (ProactorEvent ℕ) := [.start, .run 0, .run 0, .run 0, .async none .read 5 0]
  have hrun : (es.foldlM (stepWith 5) {}).map
      (fun s => (s.created, s.threads 0, s.ops.isEmpty)) = some (1, .asleep, false) := by
    decide +kernel
  obtain ⟨s, hs, hshow⟩ := Option.map_eq_some_iff.mp hrun
  simp only [Prod.mk.injEq] at hshow
  obtain ⟨hcreated, hasleep, hops⟩ := hshow
  refine ⟨s, reachable_of_stepWith hs, hcreated ▸ Nat.one_pos, .inl hops, fun k hk => ?_⟩
  obtain rfl : k = 0 := by omega
  exact hasleep

/-- Threads that are about to sleep, with nothing in `op_queue`, do so one after the other. -/
theorem exists_run_asleep (hdefined : s.undefined = false) (hm : s.mutex = none) (hwait : ∀ k < s.created,
    s.threads k = .asleep ∨ (s.threads k = .locking ∧ s.opQueue = [])) :
    ∀ n ≤ s.created, ∃ es u, (lts κ).Run s es u ∧ u.mutex = none ∧ u.created = s.created ∧
      u.ops = s.ops ∧ u.opQueue = s.opQueue ∧ u.undefined = false ∧
      (∀ k < n, u.threads k = .asleep) ∧ ∀ k, n ≤ k → u.threads k = s.threads k := by
  intro n
  induction n with
  | zero => exact fun _ => ⟨[], s, .nil s, hm, rfl, rfl, rfl, hdefined, nofun, fun _ _ => rfl⟩
  | succ n ih =>
      intro hn
      obtain ⟨es, u, hrun, hum, hcreated, hops, hqueue, hu, hasleep, hothers⟩ :=
        ih (Nat.le_of_succ_le hn)
      have hpc := hothers n le_rfl
      rcases hwait n hn with hn' | ⟨hn', hempty⟩
      · refine ⟨es, u, hrun, hum, hcreated, hops, hqueue, hu, fun k hk => ?_,
          fun k hk => hothers k (Nat.le_of_succ_le hk)⟩
        rcases Nat.lt_succ_iff_lt_or_eq.mp hk with hlt | rfl
        · exact hasleep k hlt
        · exact hpc.trans hn'
      · -- the thread takes the mutex, finds the predicate false and sleeps
        have hstep : u.step (.run n) = some (u.goto n .asleep) := by
          have hlt : n < u.created := hcreated ▸ hn
          have hq : u.opQueue.empty = true := by rw [hqueue, hempty]; rfl
          simp [step, Proactor.runStep, hlt, hpc, hn', hum, hq]
        have hrun' := hrun.concat (a := ProactorEvent.run n) ⟨hu, trivial, hstep⟩
        refine ⟨es ++ [.run n], u.goto n .asleep, hrun', hum, hcreated, hops, hqueue, hu,
          fun k hk => ?_, fun k hk => ?_⟩
        · rw [threads_goto]
          split
          · rfl
          · next hne => exact hasleep k (lt_of_le_of_ne (Nat.lt_succ_iff.mp hk) hne)
        · rw [threads_goto, if_neg (Nat.ne_of_gt hk)]
          exact hothers k (Nat.le_of_succ_le hk)

/-- **Any other call can leave the threads stuck**: from the state behind it, a run leads to all of
them asleep on what was submitted. -/
theorem stuck_of_not_timely {d : Dir} {socket : ℤ} {f : κ} (hdefined : s.undefined = false)
    (htimely : ¬Timely s (.async none d socket f)) (he : s.step (.async none d socket f) = some t) :
    ∃ es u, (lts κ).Run t es u ∧ u.Stuck := by
  simp only [Timely, not_or, not_exists, not_and] at htimely
  obtain ⟨hneg, hzero, hnone⟩ := htimely
  obtain ⟨-, ⟨hlt, -⟩ | ⟨-, hm, rfl⟩⟩ := async_cases he
  · exact absurd hlt hneg
  have hwait : ∀ k < s.created,
      s.threads k = .asleep ∨ (s.threads k = .locking ∧ s.opQueue = []) := by
    intro k hk
    have hk' := hnone k hk
    unfold Attends at hk'
    split at hk'
    · next hpc => exact .inl hpc
    · next hpc => exact .inr ⟨hpc, not_not.mp hk'⟩
    · exact absurd trivial hk'
  obtain ⟨es, u, hrun, -, hcreated, hops, -, -, hasleep, -⟩ :=
    exists_run_asleep (s := s.submit d socket f) hdefined hm hwait s.created le_rfl
  refine ⟨es, u, hrun, ?_, .inl ?_, fun k hk => hasleep k (hcreated ▸ hk)⟩
  · rw [hcreated]
    exact Nat.pos_of_ne_zero hzero
  · have hne : (s.submit d socket f).ops ≠ ∅ := Std.ExtTreeMap.insert_ne_empty
    rw [hops]
    simpa using hne

end Proactor

end Libio
