import Libio.Core.PoolRest

/-! # Tasks that do not return

The servers push loops to their pools that never return. Then a worker that has taken a task is
gone for the other tasks, and what matters is that no task waits in the queue while another worker
sleeps: for every task in the queue there is an announcement to come or a worker that is about to
pop (`Covered`). It follows that as many tasks are started as there are workers. -/

namespace Libio

namespace ThreadPool

variable {s t : ThreadPool} {n j : ℕ} {pc : WorkerPc}

/-- Whether a worker will pop before it sleeps. -/
def attention (w : Worker) : ℕ :=
  match w.pc with
  | .popping | .locking | .predicate | .woken => 1
  | _ => 0

/-- The workers that will pop before they sleep. -/
def attending (n : ℕ) (s : ThreadPool) : ℕ := Family.total attention s.workers n

/-- The invariant: while somebody sleeps, the tasks in the queue are not more than the announcements
to come and the workers about to pop; and a worker runs a task that it took. -/
structure Covered (n : ℕ) (s : ThreadPool) : Prop where
  covered : (∃ k < n, (s.workers k).pc = .asleep) → s.taskQue.length ≤ s.pending.length + attending n s
  taken : ∀ k task, (s.workers k).pc = .running task → (task, some k) ∈ s.taken

/-- A pool in the making is covered. -/
theorem covered_init (n : ℕ) : (init n).Covered n where
  covered _ := Nat.zero_le _
  taken k task h := by
    have hpc : ((init n).workers k).pc = .popping ∨ ((init n).workers k).pc = .exited := by
      simp only [init]
      split <;> simp
    rcases hpc with hpc | hpc <;> simp [hpc] at h

/-- **Frame rule.** -/
theorem Covered.of_frame (h : s.Covered n)
    (hsleep : (∃ k < n, (t.workers k).pc = .asleep) → ∃ k < n, (s.workers k).pc = .asleep)
    (hcount : t.taskQue.length + (s.pending.length + attending n s) ≤
      s.taskQue.length + (t.pending.length + attending n t))
    (htaken : ∀ x ∈ s.taken, x ∈ t.taken)
    (hrunning : ∀ k task, (t.workers k).pc = .running task →
      (s.workers k).pc = .running task ∨ (task, some k) ∈ t.taken) : t.Covered n where
  covered hs := by
    have := h.covered (hsleep hs)
    omega
  taken k task hk := by
    rcases hrunning k task hk with hk | hin
    · exact htaken _ (h.taken k task hk)
    · exact hin

/-- A step that moves no worker, and takes nothing from the queue but discarded tasks. -/
theorem Covered.of_same (h : s.Covered n) (hpc : ∀ k, (t.workers k).pc = (s.workers k).pc)
    (hqueue : t.taskQue.length + s.pending.length ≤ s.taskQue.length + t.pending.length)
    (htaken : ∀ x ∈ s.taken, x ∈ t.taken) : t.Covered n := by
  have htotal : attending n t = attending n s :=
    Family.total_congr fun k _ => by rw [attention, attention, hpc k]
  refine h.of_frame ?_ (by omega) htaken fun k task hk => .inl ((hpc k).symm.trans hk)
  rintro ⟨k, hk, hasleep⟩
  exact ⟨k, hk, (hpc k).symm.trans hasleep⟩

/-- The attention after a worker went on. -/
theorem attending_goto (hj : j < n) (hworkers : t.workers = (s.goto j pc).workers) :
    attending n t + attention (s.workers j) =
      attending n s + attention { s.workers j with pc := pc } := by
  have htotal : attending n (s.goto j pc) + attention (s.workers j) =
      attending n s + attention { s.workers j with pc := pc } := Family.total_update hj
  unfold attending at htotal ⊢
  rw [hworkers]
  exact htotal

/-- A worker that goes on to another place than its sleep. -/
theorem Covered.goto (h : s.Covered n) (hj : j < n) (hworkers : t.workers = (s.goto j pc).workers)
    (hpc : pc ≠ .asleep)
    (hcount : t.taskQue.length + s.pending.length + attention (s.workers j) ≤
      s.taskQue.length + t.pending.length + attention { s.workers j with pc := pc })
    (htaken : ∀ x ∈ s.taken, x ∈ t.taken)
    (hrunning : ∀ task, pc = .running task → (task, some j) ∈ t.taken) : t.Covered n := by
  have hattending := attending_goto hj hworkers
  refine h.of_frame ?_ (by omega) htaken fun k task hk => ?_
  · rintro ⟨k, hk, hasleep⟩
    rw [hworkers, pc_goto] at hasleep
    split at hasleep
    · exact absurd hasleep hpc
    · exact ⟨k, hk, hasleep⟩
  · rw [hworkers, pc_goto] at hk
    split at hk
    · next he => exact .inr (he ▸ hrunning task hk)
    · exact .inl hk

/-- Where all tasks in the queue are to be announced, they are not more than the announcements. -/
theorem Sound.length_le (h : s.Sound) (hall : ∀ task ∈ s.taskQue, task ∈ s.pending) :
    s.taskQue.length ≤ s.pending.length := by
  -- a task is pushed once, so the queue repeats none
  have hnodup := List.nodup_range (n := s.next)
  rw [← h.order] at hnodup
  exact (List.subperm_of_subset (List.nodup_append.mp hnodup).2.1 hall).length_le

/-- Taking a task from the queue and running it. -/
theorem Covered.run (h : s.Covered n) {task : ℕ} {rest : LockQueue ℕ} {m : Option ℕ} (hj : j < n)
    (hqueue : s.taskQue = task :: rest) (hpc : attention (s.workers j) = 1) :
    Covered n { (s.take j task rest).goto j (.running task) with mutex := m } := by
  refine h.goto hj (rfl : _ = (s.goto j (.running task)).workers) nofun ?_ (fun x hx => List.mem_append_left _ hx)
    fun task' he => ?_
  · show rest.length + s.pending.length + attention (s.workers j) ≤
      s.taskQue.length + s.pending.length + 0
    rw [hqueue, hpc, List.length_cons]
    omega
  · cases he
    exact List.mem_append_right _ (List.mem_singleton_self _)

/-- A worker that goes on without a task, and not to its sleep. -/
theorem Covered.move (h : s.Covered n) {m : Option ℕ} (hj : j < n) (hpc : pc ≠ .asleep)
    (hrun : ∀ task, pc ≠ .running task)
    (hcount : attention (s.workers j) ≤ attention { s.workers j with pc := pc }) :
    Covered n { s.goto j pc with mutex := m } :=
  h.goto hj rfl hpc (by
    show s.taskQue.length + s.pending.length + attention (s.workers j) ≤
      s.taskQue.length + s.pending.length + attention { s.workers j with pc := pc }
    omega) (fun _ => id) fun task he => absurd he (hrun task)

/-- A worker that goes to a place where it runs nothing, while the tasks in the queue are not more
than the announcements to come. -/
theorem Covered.rest (h : s.Covered n) {m : Option ℕ} (hrun : ∀ task, pc ≠ .running task)
    (hcount : s.taskQue.length ≤ s.pending.length) : Covered n { s.goto j pc with mutex := m } where
  covered _ := Nat.le_trans hcount (Nat.le_add_right _ _)
  taken k task hk := by
    replace hk : ((s.goto j pc).workers k).pc = .running task := hk
    rw [pc_goto] at hk
    split at hk
    · exact absurd hk (hrun task)
    · exact h.taken k task hk

/-- **A worker's step** keeps the invariant. -/
theorem Covered.worker (h : s.Covered n) (hsound : s.Sound) (hj : j < n) (hs : WorkerStep s j t) :
    t.Covered n := by
  cases hs with
  | pop task rest hpc hqueue =>
      exact h.run (m := s.mutex) hj hqueue (by simp [attention, hpc])
  | found task rest hpc hqueue => exact h.run hj hqueue (by simp [attention, hpc])
  | popFailed hpc => exact h.move (m := s.mutex) hj nofun nofun (by simp [attention, hpc])
  | ran task hpc => exact h.move (m := s.mutex) hj nofun nofun (by simp [attention, hpc])
  | checked b hpc =>
      cases b with
      | true => exact h.move (m := s.mutex) hj nofun nofun (by simp [attention, hpc])
      | false => exact h.move (m := s.mutex) hj nofun nofun (by simp [attention, hpc])
  | locked hpc =>
      refine h.move hj nofun nofun ?_
      rcases hpc with hpc | hpc <;> simp [attention, hpc]
  | notFound hpc hqueue =>
      refine h.rest (m := s.mutex) nofun ?_
      rw [hqueue]
      exact Nat.zero_le _
  | done hpc => exact h.move hj nofun nofun (by simp [attention, hpc])
  | notDone hpc => exact h.move (m := s.mutex) hj nofun nofun (by simp [attention, hpc])
  | read b hpc =>
      -- whatever came after its pop in the predicate is still to be announced
      refine h.rest ?_ (hsound.length_le (hsound.late j (.inr hpc)))
      cases b <;> exact nofun

/-- A step of `stop` keeps the invariant: it takes tasks from the queue and wakes sleepers. -/
theorem Covered.controlStep (h : s.Covered n) (hsteady : s.Steady n) (hs : ControlStep s t) :
    t.Covered n := by
  have hending : s.control ≠ .idle → Ending s.control := fun hne =>
    (hsteady.control.resolve_left hne).2
  cases hs with
  | reallocated n' hc | made i n' hc | grown i n' hc | detached i n' _ _ hc | shrunk i n' hc
  | notified n' hc | truncated n' hc =>
      -- a step of `resize`
      have hno := hending (by simp [hc])
      rw [hc] at hno
      exact hno.elim
  | raised i k hc => exact h.of_same (fun j => pc_raise) (Nat.le_refl _) fun _ => id
  | discarded task rest hc hqueue =>
      refine h.of_same (fun _ => rfl) ?_ fun x hx => List.mem_append_left _ hx
      show rest.length + s.pending.length ≤ s.taskQue.length + s.pending.length
      rw [hqueue, List.length_cons]
      omega
  | woken hc =>
      -- nobody sleeps any more
      have hawake : ∀ k, (s.notifyAll.workers k).pc ≠ .asleep := by
        intro k
        rw [pc_notifyAll]
        split
        · exact nofun
        · assumption
      refine ⟨fun ⟨k, _, hk⟩ => absurd hk (hawake k), fun k task hk => h.taken k task ?_⟩
      replace hk : (s.notifyAll.workers k).pc = .running task := hk
      rw [pc_notifyAll] at hk
      split at hk
      · cases hk
      · exact hk
  | allRaised i hc | allDiscarded hc | joined i k hc | allJoined i hc | cleared hc =>
      exact h.of_same (fun _ => rfl) (Nat.le_refl _) fun _ => id

/-- An announcement keeps the invariant: whom it wakes will pop. -/
theorem Covered.notifyOne (h : s.Covered n) (hsteady : s.Steady n) (hsound : s.Sound) {task : ℕ}
    {o : Option ℕ} (hpending : task ∈ s.pending) (ho : s.Wakes o) : (s.notifyOne task o).Covered n := by
  cases o with
  | none =>
      -- an announcement is lost only where nobody sleeps
      have hawake : ∀ k < n, (s.workers k).pc ≠ .asleep := by
        rw [← hsteady.created]
        exact ho
      exact ⟨fun ⟨k, hk, hasleep⟩ => absurd hasleep (hawake k hk), h.taken⟩
  | some k =>
      -- the announcement becomes the attention of the worker that wakes up
      have hasleep : (s.workers k).pc = .asleep := ho
      have hk : k < n := hsteady.lt hsound (by simp [hasleep])
      refine h.goto hk (rfl : _ = (s.goto k .woken).workers) nofun ?_ (fun _ => id) nofun
      have hlength := List.length_erase_of_mem hpending
      have hpos := List.length_pos_of_mem hpending
      show s.taskQue.length + s.pending.length + attention (s.workers k) ≤
        s.taskQue.length + (s.pending.erase task).length + 1
      simp only [attention, hasleep]
      omega

/-- **Every step** of a pool that keeps its size keeps the invariant. -/
theorem Covered.step (h : s.Covered n) (hsteady : s.Steady n) (hsound : s.Sound) {e : PoolEvent}
    (hsized : Sized e) (hs : s.step e = some t) : t.Covered n := by
  cases step_cases hs with
  | push =>
      refine h.of_same (fun _ => rfl) ?_ fun _ => id
      show (s.taskQue ++ [s.next]).length + s.pending.length ≤
        s.taskQue.length + (s.pending ++ [s.next]).length
      rw [List.length_append, List.length_append]
      exact Nat.le_of_eq (by omega)
  | notify task o hpending hfree ho => exact h.notifyOne hsteady hsound hpending ho
  | worker _ j hstep =>
      exact h.worker hsound (hsteady.lt hsound (pc_ne_exited hs)) hstep
  | spurious j hj =>
      have hlt : j < n := hsteady.lt hsound (by simp [hj])
      exact h.move (m := s.mutex) hlt (by simp) (by simp) (by simp [attention, hj])
  | resize nThreads => exact hsized.elim
  | stop isWait =>
      unfold ThreadPool.stop
      split
      · split
        · exact h
        · exact h.of_same (fun _ => rfl) (Nat.le_refl _) fun _ => id
      · split
        · exact h
        · exact h.of_same (fun _ => rfl) (Nat.le_refl _) fun _ => id
  | control _ hstep => exact h.controlStep hsteady hstep

/-! ## Where only tasks run -/

/-- An internal step that is not the return of a task. -/
def Ongoing (s : ThreadPool) (e : PoolEvent) : Prop :=
  Internal e ∧ ∀ j task, e = .worker j → (s.workers j).pc ≠ .running task

/-- The pool with the steps that go on by themselves while no task returns. -/
def ongoing (n : ℕ) : Lts ThreadPool PoolEvent := (lts n).guard Ongoing

/-- What has become of a pool in which only tasks run. -/
structure Engaged (n : ℕ) (s : ThreadPool) : Prop where
  pending : s.pending = []
  /-- No task waits while another worker sleeps. -/
  busy : ¬s.Called → s.taskQue = [] ∨ ∀ j < n, ∃ task, (s.workers j).pc = .running task
  /-- As many tasks have been started as there are workers. -/
  started : ¬s.Called → ∀ task < s.next, task < n → ∃ j, (task, some j) ∈ s.taken

/-- The tasks leave the queue in the order of the pushes. -/
theorem Sound.taken_eq (h : s.Sound) : s.taken.map Prod.fst = List.range s.taken.length ∧
    s.taken.length + s.taskQue.length = s.next := by
  have hlength : s.taken.length + s.taskQue.length = s.next := by
    have := congrArg List.length h.order
    rwa [List.length_append, List.length_map, List.length_range] at this
  refine ⟨?_, hlength⟩
  have htake := congrArg (List.take s.taken.length) h.order
  rw [List.take_left' (by rw [List.length_map]), List.take_range] at htake
  rwa [Nat.min_eq_left (hlength ▸ Nat.le_add_right _ _)] at htake

/-- While all workers run tasks, they have taken as many. -/
theorem Covered.le_length_taken (h : s.Covered n)
    (hall : ∀ j < n, ∃ task, (s.workers j).pc = .running task) : n ≤ s.taken.length := by
  have hsub : (List.range n).map some ⊆ s.taken.map Prod.snd := by
    intro o ho
    obtain ⟨j, hj, rfl⟩ := List.mem_map.mp ho
    obtain ⟨task, hrun⟩ := hall j (List.mem_range.mp hj)
    exact List.mem_map.mpr ⟨_, h.taken j task hrun, rfl⟩
  have hnodup : ((List.range n).map (some : ℕ → Option ℕ)).Nodup :=
    List.nodup_range.map (Option.some_injective ℕ)
  have hle := (List.subperm_of_subset hnodup hsub).length_le
  rwa [List.length_map, List.length_map, List.length_range] at hle

/-- While all workers sleep or run tasks, nobody is about to pop. -/
theorem attending_eq_zero (hrest : ∀ j < n, (∃ task, (s.workers j).pc = .running task) ∨
    (s.workers j).pc = .asleep) : attending n s = 0 := by
  unfold attending Family.total
  refine Finset.sum_eq_zero fun j hj => ?_
  rcases hrest j (Finset.mem_range.mp hj) with ⟨task, hw⟩ | hw <;> simp [attention, hw]

/-- Where no task waits while a worker sleeps, the first `n` tasks have been started. -/
theorem Covered.started (h : s.Covered n) (hsteady : s.Steady n) (hsound : s.Sound)
    (hnot : ¬s.Called) {task : ℕ} (htask : task < s.next) (hlt : task < n)
    (hbusy : s.taskQue = [] ∨ ∀ j < n, ∃ task, (s.workers j).pc = .running task) :
    ∃ j, (task, some j) ∈ s.taken := by
  obtain ⟨hfst, hlength⟩ := hsound.taken_eq
  have htaken : task < s.taken.length := by
    rcases hbusy with hqueue | hall
    · rw [hqueue] at hlength
      exact htask.trans_eq hlength.symm
    · exact Nat.lt_of_lt_of_le hlt (h.le_length_taken hall)
  have hin : task ∈ s.taken.map Prod.fst := by
    rw [hfst]
    exact List.mem_range.mpr htaken
  obtain ⟨⟨_, w⟩, hw, rfl⟩ := List.mem_map.mp hin
  cases w with
  | none => exact absurd hw (hsteady.kept hnot _)
  | some j => exact ⟨j, hw⟩

/-- **A pool in which only tasks run** has no sleeper that a task waits for. -/
theorem engaged_of_stuck (h : s.Covered n) (hsteady : s.Steady n) (hsound : s.Sound)
    (hstuck : (ongoing n).Stuck s) : s.Engaged n := by
  have hworker : ∀ j, (∃ task, (s.workers j).pc = .running task) ∨ s.workerStep j = none := by
    intro j
    by_cases hrun : ∃ task, (s.workers j).pc = .running task
    · exact .inl hrun
    · refine .inr (Option.eq_none_iff_forall_ne_some.mpr fun t ht => ?_)
      refine hstuck (.worker j) t ⟨⟨trivial, fun k task hk hpc => ?_⟩, ht⟩
      cases hk
      exact hrun ⟨task, hpc⟩
  -- the worker with the mutex could go on, unless a task was running
  have hfree : s.mutex = none := by
    refine hsteady.mutex_eq_none hsound fun k hholds => (hworker k).resolve_left ?_
    rintro ⟨task, hrun⟩
    simp [Holds, hrun] at hholds
  have hpending := pending_eq_nil hfree fun task o => by
    rw [Option.eq_none_iff_forall_ne_some]
    exact fun t ht => hstuck (.notify task o) t ⟨⟨trivial, by simp⟩, ht⟩
  have hbusy : ¬s.Called → s.taskQue = [] ∨ ∀ j < n, ∃ task, (s.workers j).pc = .running task := by
    intro hnot
    have hrest : ∀ j < n, (∃ task, (s.workers j).pc = .running task) ∨ (s.workers j).pc = .asleep := by
      intro j hj
      rcases hworker j with hrun | hnone
      · exact .inl hrun
      · rcases hsteady.workerStep_eq_none hj hnone with hw | hw | ⟨-, hw⟩
        · exact .inr hw
        · exact absurd hw (hsteady.running hnot j hj)
        · exact absurd hfree hw
    -- with a sleeper the tasks would be announced, or a worker about to pop
    by_cases hsleeper : ∃ k < n, (s.workers k).pc = .asleep
    · have hlength := h.covered hsleeper
      rw [hpending, attending_eq_zero hrest] at hlength
      exact .inl (List.length_eq_zero_iff.mp (Nat.le_zero.mp hlength))
    · exact .inr fun j hj => (hrest j hj).resolve_right fun hw => hsleeper ⟨j, hj, hw⟩
  exact ⟨hpending, hbusy, fun hnot _ htask hlt => h.started hsteady hsound hnot htask hlt (hbusy hnot)⟩

/-- **No task waits for a sleeper**: from every reachable state of a pool of `n` workers that keeps its
size, whether tasks return or not, all runs in which nobody pushes or calls any more and no task
returns are finite, and end with all pushes returned. If the pool was not stopped, each of its first
`n` tasks has been started then, and when a task is left in the queue, all workers run tasks. -/
theorem work_conserving (h : ((lts n).guard fun _ e => Sized e).Reachable s) :
    (ongoing n).Settles (Engaged n) s := by
  have hinv : s.Sound ∧ s.Steady n ∧ s.Covered n := by
    refine h.invariant (P := fun s => s.Sound ∧ s.Steady n ∧ s.Covered n) ?_ ?_
    · rintro s rfl
      exact ⟨sound_init n, steady_init n, covered_init n⟩
    · rintro s e t ⟨hsound, hsteady, hcovered⟩ ⟨hsized, hs⟩
      exact ⟨hsound.step hs, hsteady.step hsound hsized hs, hcovered.step hsteady hsound hsized hs⟩
  refine Lts.Settles.of_measure (I := fun s => s.Sound ∧ s.Steady n ∧ s.Covered n) (μ := work n) ?_ ?_
    hinv
  · rintro s e t ⟨hsound, hsteady, hcovered⟩ ⟨⟨he, -⟩, hs⟩
    have hsized : Sized e := by
      cases e with
      | resize => exact he.elim
      | _ => trivial
    exact ⟨⟨hsound.step hs, hsteady.step hsound hsized hs, hcovered.step hsteady hsound hsized hs⟩,
      work_lt hsteady hsound he hs⟩
  · rintro s ⟨hsound, hsteady, hcovered⟩ hstuck
    exact engaged_of_stuck hcovered hsteady hsound hstuck

/-- Two workers and two tasks, of which the first runs and the second was not announced yet. -/
theorem work_conserving_queued : ∃ s : ThreadPool, (s.workers 0).pc = .running 0 ∧ s.taskQue = [1] ∧
    s.pending = [0, 1] ∧ (ongoing 2).Settles (Engaged 2) s := by
  have h₀ : ((lts 2).guard fun _ e => Sized e).Reachable (init 2) := .of_init rfl
  have h₁ := h₀.step (a := PoolEvent.push) ⟨trivial, rfl⟩
  have h₂ := h₁.step (a := PoolEvent.worker 0) ⟨trivial, rfl⟩
  have h₃ := h₂.step (a := PoolEvent.push) ⟨trivial, rfl⟩
  exact ⟨_, rfl, rfl, rfl, work_conserving h₃⟩

end ThreadPool

end Libio
