import Libio.Core.ThreadPool

/-! # Stopping the thread pool

The call `stop(true)` of a pool that keeps its size: it joins the workers, and these leave only
where the pop of a predicate failed after `isDone` was set. `stop_drains` says what became of the
tasks. -/

namespace Libio

namespace ThreadPool

variable {s t : ThreadPool} {n : ℕ}

/-- The pool keeps its size, and `stop` is called with `true` only. -/
def Fixed : PoolEvent → Prop
  | .resize _ => False
  | .stop isWait => isWait = true
  | _ => True

/-- A worker took the task and has run it. -/
def Ran (s : ThreadPool) (task : ℕ) : Prop :=
  ∃ j, (task, some j) ∈ s.taken ∧ (s.workers j).pc ≠ .running task

/-- The call `stop(true)` is in progress. -/
def Stopping : Control → Prop
  | .stopping | .joining _ | .clearing => True
  | _ => False

/-- The invariant of a pool of `n` workers that keeps its size. -/
structure Graceful (n : ℕ) (s : ThreadPool) : Prop where
  created : s.created = n
  lowered : ∀ j, (s.workers j).flag = false
  notStop : s.isStop = false
  control : s.control = .idle ∨ s.isDone = true ∧ Stopping s.control
  threads : s.isDone = false ∨ Stopping s.control → s.threads = (List.range n).map some
  /-- A due task has been announced. -/
  due : ∀ task ∈ s.due, s.isDone = true ∧ task < s.next ∧ task ∉ s.pending
  /-- A worker leaves when no due task is in the queue. -/
  exited : ∀ j < n, (s.workers j).pc = .exited →
    s.isDone = true ∧ ∀ task ∈ s.due, task ∉ s.taskQue
  joined : ∀ i, s.control = .joining i → ∀ j < i, (s.workers j).pc = .exited
  left : s.control = .clearing ∨ s.isDone = true ∧ s.control = .idle →
    ∀ j < n, (s.workers j).pc = .exited
  discarded : ∀ task, (task, none) ∈ s.taken → s.isDone = true ∧ task ∉ s.due

/-- A pool in the making is graceful. -/
theorem graceful_init (n : ℕ) : (init n).Graceful n where
  created := rfl
  lowered _ := rfl
  notStop := rfl
  control := .inl rfl
  threads _ := rfl
  due _ h := by cases h
  exited j hj h := by simp [init, hj] at h
  joined _ h := by cases h
  left h := by simp [init] at h
  discarded _ h := by cases h

/-- **Frame rule** for the steps of pushers and workers: what enters the queue is new, what leaves
it goes to a worker, and a worker exits only where no due task is in the queue. -/
theorem Graceful.of_frame (h : s.Graceful n) (hcreated : t.created = s.created)
    (hisStop : t.isStop = s.isStop) (hisDone : t.isDone = s.isDone) (hcontrol : t.control = s.control)
    (hthreads : t.threads = s.threads) (hdue : t.due = s.due) (hnext : s.next ≤ t.next)
    (hpending : ∀ task ∈ t.pending, task ∈ s.pending ∨ s.next ≤ task)
    (hqueue : ∀ task ∈ t.taskQue, task ∈ s.taskQue ∨ s.next ≤ task)
    (htaken : ∀ task, (task, none) ∈ t.taken → (task, none) ∈ s.taken)
    (hflag : ∀ k, (t.workers k).flag = (s.workers k).flag)
    (hstay : ∀ k, (s.workers k).pc = .exited → (t.workers k).pc = .exited)
    (hexit : ∀ k < n, (t.workers k).pc = .exited → (s.workers k).pc = .exited ∨
      s.isDone = true ∧ ∀ task ∈ s.due, task ∉ s.taskQue) : t.Graceful n where
  created := hcreated.trans h.created
  lowered k := (hflag k).trans (h.lowered k)
  notStop := hisStop.trans h.notStop
  control := by
    rw [hcontrol, hisDone]
    exact h.control
  threads := by
    rw [hcontrol, hisDone, hthreads]
    exact h.threads
  due task htask := by
    rw [hdue] at htask
    obtain ⟨hdone, hlt, hnot⟩ := h.due task htask
    refine ⟨hisDone.trans hdone, Nat.lt_of_lt_of_le hlt hnext, fun hin => ?_⟩
    rcases hpending task hin with hin | hge
    · exact hnot hin
    · exact absurd hlt (Nat.not_lt.mpr hge)
  exited k hk hpc := by
    have hold : s.isDone = true ∧ ∀ task ∈ s.due, task ∉ s.taskQue := by
      rcases hexit k hk hpc with hpc | hold
      · exact h.exited k hk hpc
      · exact hold
    refine ⟨hisDone.trans hold.1, fun task htask hin => ?_⟩
    rw [hdue] at htask
    rcases hqueue task hin with hin | hge
    · exact hold.2 task htask hin
    · exact absurd (h.due task htask).2.1 (Nat.not_lt.mpr hge)
  joined i hi k hk := hstay k (h.joined i (hcontrol ▸ hi) k hk)
  left hleft k hk := by
    rw [hcontrol, hisDone] at hleft
    exact hstay k (h.left hleft k hk)
  discarded task htask := by
    rw [hisDone, hdue]
    exact h.discarded task (htaken task htask)

/-- A worker that goes on keeps the invariant, if it does not exit over a due task. -/
theorem Graceful.goto (h : s.Graceful n) {j : ℕ} {pc : WorkerPc} {m : Option ℕ}
    (hj : (s.workers j).pc ≠ .exited)
    (hexit : pc = .exited → s.isDone = true ∧ ∀ task ∈ s.due, task ∉ s.taskQue) :
    Graceful n { s.goto j pc with mutex := m } := by
  refine h.of_frame rfl rfl rfl rfl rfl rfl (Nat.le_refl _) (fun _ => .inl) (fun _ => .inl)
    (fun _ hx => hx) (fun _ => flag_goto) (fun k hk => ?_) fun k _ hk => ?_
  · change ((s.goto j pc).workers k).pc = .exited
    rw [pc_goto_of_ne, hk]
    rintro rfl
    exact hj hk
  · change ((s.goto j pc).workers k).pc = .exited at hk
    rw [pc_goto] at hk
    split at hk
    · exact .inr (hexit hk)
    · exact .inl hk

/-- A task that a worker takes is not discarded. -/
theorem Graceful.take (h : s.Graceful n) {j task : ℕ} {rest : LockQueue ℕ}
    (hqueue : s.taskQue = task :: rest) : (s.take j task rest).Graceful n := by
  refine h.of_frame rfl rfl rfl rfl rfl rfl (Nat.le_refl _) (fun _ => .inl) (fun x hx => ?_)
    (fun x hx => ?_) (fun _ => rfl) (fun _ hk => hk) fun _ _ hk => .inl hk
  · rw [hqueue]
    exact .inl (List.mem_cons_of_mem _ hx)
  · simpa [ThreadPool.take] using hx

/-- No flag is raised. -/
theorem Graceful.not_readFlag (h : s.Graceful n) {i : ℕ} : s.readFlag i ≠ some true := by
  unfold readFlag
  cases s.flagAt i with
  | none => exact nofun
  | some k =>
      rw [Option.map_some, h.lowered]
      decide

/-- **A worker's step** keeps the invariant. -/
theorem Graceful.worker (h : s.Graceful n) (hsound : s.Sound) {j : ℕ} (hs : WorkerStep s j t) :
    t.Graceful n := by
  cases hs with
  | pop task rest hpc hqueue | found task rest hpc hqueue =>
      have hj : ((s.take j task rest).workers j).pc ≠ .exited := by simp [ThreadPool.take, hpc]
      exact (h.take hqueue).goto hj (by simp)
  | done hpc hdone =>
      have hj : (s.workers j).pc ≠ .exited := by simp [hpc]
      refine h.goto hj fun _ => ⟨hdone, fun task htask hin => ?_⟩
      -- the pop of the predicate failed, and what came since has not been announced
      exact (h.due task htask).2.2 (hsound.late j (.inl hpc) task hin)
  | checked b hpc hb | read b hpc hb =>
      have hj : (s.workers j).pc ≠ .exited := by simp [hpc]
      cases b with
      | true => exact absurd hb h.not_readFlag
      | false => exact h.goto hj (by simp)
  | popFailed hpc | ran _ hpc | notFound hpc | notDone hpc =>
      have hj : (s.workers j).pc ≠ .exited := by simp [hpc]
      exact h.goto hj (by simp)
  | locked hpc =>
      have hj : (s.workers j).pc ≠ .exited := by rcases hpc with hpc | hpc <;> simp [hpc]
      exact h.goto hj (by simp)

/-- Waking all sleepers keeps the invariant. -/
theorem Graceful.notifyAll (h : s.Graceful n) : s.notifyAll.Graceful n := by
  have hflag : ∀ k, (s.notifyAll.workers k).flag = (s.workers k).flag := by
    intro k
    simp only [ThreadPool.notifyAll]
    split <;> rfl
  refine h.of_frame rfl rfl rfl rfl rfl rfl (Nat.le_refl _) (fun _ => .inl) (fun _ => .inl)
    (fun _ hx => hx) hflag (fun k hk => ?_) fun k _ hk => ?_
  · rw [pc_notifyAll, hk]
    simp
  · rw [pc_notifyAll] at hk
    split at hk
    · cases hk
    · exact .inl hk

/-- An announcement keeps the invariant. -/
theorem Graceful.notifyOne (h : s.Graceful n) {task : ℕ} {o : Option ℕ} (ho : s.Wakes o) :
    (s.notifyOne task o).Graceful n := by
  have herase : ∀ {u : ThreadPool}, u.Graceful n →
      Graceful n { u with pending := u.pending.erase task } := fun hu =>
    hu.of_frame rfl rfl rfl rfl rfl rfl (Nat.le_refl _) (fun _ hx => .inl (List.mem_of_mem_erase hx))
      (fun _ => .inl) (fun _ hx => hx) (fun _ => rfl) (fun _ hk => hk) fun _ _ hk => .inl hk
  cases o with
  | none => exact herase h
  | some k =>
      have hk : (s.workers k).pc ≠ .exited := by
        rw [show (s.workers k).pc = .asleep from ho]
        exact nofun
      exact herase (h.goto (m := s.mutex) hk nofun)

/-- A push keeps the invariant. -/
theorem Graceful.push (h : s.Graceful n) : s.push.Graceful n := by
  have hnew : ∀ {l : List ℕ} {task}, task ∈ l ++ [s.next] → task ∈ l ∨ s.next ≤ task := by
    intro l task htask
    rcases List.mem_append.mp htask with hin | hin
    · exact .inl hin
    · exact .inr (Nat.le_of_eq (List.mem_singleton.mp hin).symm)
  exact h.of_frame rfl rfl rfl rfl rfl rfl (Nat.le_succ _) (fun _ => hnew) (fun _ => hnew)
    (fun _ hx => hx) (fun _ => rfl) (fun _ hk => hk) fun _ _ hk => .inl hk

/-- The call `stop(true)`. -/
theorem Graceful.stop (h : s.Graceful n) : (s.stop true).Graceful n := by
  unfold ThreadPool.stop
  rw [if_neg nofun]
  split
  · exact h
  · next hfirst =>
      have hdone : s.isDone = false := by
        cases hd : s.isDone with
        | true => exact absurd (.inl hd) hfirst
        | false => rfl
      -- before the first call no worker has left and no task was discarded
      constructor
      case created => exact h.created
      case lowered => exact h.lowered
      case notStop => exact h.notStop
      case control => exact .inr ⟨rfl, trivial⟩
      case threads => exact fun _ => h.threads (.inl hdone)
      case due =>
        intro task htask
        obtain ⟨hlt, hnot⟩ := List.mem_filter.mp htask
        exact ⟨rfl, List.mem_range.mp hlt, of_decide_eq_true hnot⟩
      case exited => exact fun j hj hpc => absurd (h.exited j hj hpc).1 (by simp [hdone])
      case joined => exact nofun
      case left =>
        rintro (hc | ⟨-, hc⟩)
        · cases hc
        · cases hc
      case discarded => exact fun task htask => absurd (h.discarded task htask).1 (by simp [hdone])

/-- Only tasks that are not due are discarded at the end: the first worker left none behind. -/
theorem Graceful.discard (h : s.Graceful n) (hn : 0 < n) (hc : s.control = .clearing) {task : ℕ}
    {rest : LockQueue ℕ} (hqueue : s.taskQue = task :: rest) :
    Graceful n { s with taskQue := rest, taken := s.taken ++ [(task, none)] } := by
  obtain ⟨hdone, hdue⟩ := h.exited 0 hn (h.left (.inl hc) 0 hn)
  refine { h with exited := fun j hj hpc => ⟨hdone, fun x hx hin => ?_⟩, discarded := fun x hx => ?_ }
  · exact hdue x hx (hqueue ▸ List.mem_cons_of_mem _ hin)
  · rcases List.mem_append.mp hx with hx | hx
    · exact h.discarded x hx
    · obtain rfl : x = task := congrArg Prod.fst (List.mem_singleton.mp hx)
      exact ⟨hdone, fun hin => hdue x hin (hqueue ▸ List.mem_cons_self)⟩

/-- The last call of `notify_all`. -/
theorem Graceful.rouse (h : s.Graceful n) (hdone : s.isDone = true) (hno : Stopping s.control) :
    Graceful n { s.notifyAll with control := .joining 0 } := by
  refine { h.notifyAll with
    control := .inr ⟨hdone, trivial⟩
    threads := fun _ => h.threads (.inr hno)
    joined := fun i hi j hj => ?_
    left := ?_ }
  · cases hi
    cases hj
  · rintro (hc | ⟨-, hc⟩)
    · cases hc
    · cases hc

/-- The worker in a place is joined when it has exited. -/
theorem Graceful.join (h : s.Graceful n) (hdone : s.isDone = true) {i k : ℕ}
    (hc : s.control = .joining i) (hno : Stopping s.control) (hi : i < s.size)
    (hk : s.threads[i]? = some (some k)) (hexited : (s.workers k).pc = .exited) :
    Graceful n { s with control := .joining (i + 1) } := by
  have hthreads := h.threads (.inr hno)
  obtain rfl : i = k := by
    have hsize : s.size = n := by simp [size, hthreads]
    rw [hthreads, List.getElem?_map, List.getElem?_range (hsize ▸ hi)] at hk
    exact Option.some.inj (Option.some.inj hk)
  refine { h with
    control := .inr ⟨hdone, trivial⟩
    threads := fun _ => hthreads
    joined := fun i' hi' j hj => ?_
    left := ?_ }
  · cases hi'
    rcases Nat.lt_succ_iff_lt_or_eq.mp hj with hj | rfl
    · exact h.joined i hc j hj
    · exact hexited
  · rintro (hc | ⟨-, hc⟩)
    · cases hc
    · cases hc

/-- When all places have been joined, all workers have left. -/
theorem Graceful.allJoined (h : s.Graceful n) (hdone : s.isDone = true) {i : ℕ}
    (hc : s.control = .joining i) (hno : Stopping s.control) (hi : ¬i < s.size) :
    Graceful n { s with control := .clearing } := by
  have hthreads := h.threads (.inr hno)
  have hsize : s.size = n := by simp [size, hthreads]
  exact { h with
    control := .inr ⟨hdone, trivial⟩
    threads := fun _ => hthreads
    joined := nofun
    left := fun _ j hj => h.joined i hc j (by omega) }

/-- The vectors are cleared last. -/
theorem Graceful.clear (h : s.Graceful n) (hdone : s.isDone = true) (hc : s.control = .clearing) :
    Graceful n { s with threads := [], flags := [], control := .idle } := by
  refine { h with
    control := .inl rfl
    threads := ?_
    joined := nofun
    left := fun _ => h.left (.inl hc) }
  rintro (hnot | hno)
  · rw [show s.isDone = false from hnot] at hdone
    cases hdone
  · exact hno.elim

/-- **A step of `stop(true)`** keeps the invariant. -/
theorem Graceful.controlStep (h : s.Graceful n) (hn : 0 < n) (hs : ControlStep s t) :
    t.Graceful n := by
  have hstopping : s.control ≠ .idle → s.isDone = true ∧ Stopping s.control := fun hne =>
    h.control.resolve_left hne
  cases hs with
  | reallocated n' hc | made i n' hc | grown i n' hc | detached i n' _ _ hc | shrunk i n' hc | notified n' hc
  | truncated n' hc | raised i _ hc | allRaised i hc | allDiscarded hc =>
      -- not a step of `stop(true)`
      have hno := (hstopping (by simp [hc])).2
      rw [hc] at hno
      exact hno.elim
  | discarded task rest hc hqueue =>
      have hno := (hstopping (by rcases hc with hc | hc <;> simp [hc])).2
      rcases hc with hc | hc
      · rw [hc] at hno
        exact hno.elim
      · exact h.discard hn hc hqueue
  | woken hc =>
      obtain ⟨hdone, hno⟩ := hstopping (by simp [hc])
      exact h.rouse hdone hno
  | joined i k hc hi hk hexited =>
      obtain ⟨hdone, hno⟩ := hstopping (by simp [hc])
      exact h.join hdone hc hno hi hk hexited
  | allJoined i hc hi =>
      obtain ⟨hdone, hno⟩ := hstopping (by simp [hc])
      exact h.allJoined hdone hc hno hi
  | cleared hc hqueue => exact h.clear (hstopping (by simp [hc])).1 hc

/-- **Every step** of a pool that keeps its size keeps the invariant. -/
theorem Graceful.step (h : s.Graceful n) (hn : 0 < n) (hsound : s.Sound) {e : PoolEvent}
    (hfixed : Fixed e) (hs : s.step e = some t) : t.Graceful n := by
  cases step_cases hs with
  | push => exact h.push
  | notify task k hpending hfree hk => exact h.notifyOne hk
  | worker _ j hstep => exact h.worker hsound hstep
  | spurious j hj => exact h.goto (m := s.mutex) (by simp [hj]) nofun
  | resize nThreads => exact hfixed.elim
  | stop isWait hidle =>
      obtain rfl : isWait = true := hfixed
      exact h.stop
  | control _ hstep => exact h.controlStep hn hstep

/-- The pool of `n` workers that keeps its size. -/
theorem graceful_of_reachable (hn : 0 < n) (h : ((lts n).guard fun _ e => Fixed e).Reachable s) :
    s.Sound ∧ s.Graceful n := by
  refine h.invariant (P := fun s => s.Sound ∧ s.Graceful n) ?_ ?_
  · rintro s rfl
    exact ⟨sound_init n, graceful_init n⟩
  · rintro s e t ⟨hsound, hgraceful⟩ ⟨hfixed, hs⟩
    exact ⟨hsound.step hs, hgraceful.step hn hsound hfixed hs⟩

/-- **Graceful stop.** Tasks leave the queue in the order of the pushes, each once, and when
`stop(true)` has returned, every task whose push was complete at the call has been run and was not
discarded. -/
theorem stop_drains (hn : 0 < n) (h : ((lts n).guard fun _ e => Fixed e).Reachable s) :
    s.taken.map Prod.fst ++ s.taskQue = List.range s.next ∧ (s.taken.map Prod.fst).Nodup ∧
      (s.isDone = true → s.control = .idle → ∀ task ∈ s.due, s.Ran task ∧ (task, none) ∉ s.taken) := by
  obtain ⟨hsound, hgraceful⟩ := graceful_of_reachable hn h
  refine ⟨hsound.order, ?_, fun hdone hidle task htask => ?_⟩
  · have hnodup := List.nodup_range (n := s.next)
    rw [← hsound.order] at hnodup
    exact (List.nodup_append.mp hnodup).1
  · have hleft : ∀ j < n, (s.workers j).pc = .exited := hgraceful.left (.inr ⟨hdone, hidle⟩)
    have hkept : (task, none) ∉ s.taken := fun hin => (hgraceful.discarded task hin).2 htask
    refine ⟨?_, hkept⟩
    -- the task is not in the queue, so it was taken
    have hin : task ∈ s.taken.map Prod.fst := by
      have hrange := List.mem_range.mpr (hgraceful.due task htask).2.1
      rw [← hsound.order] at hrange
      refine (List.mem_append.mp hrange).resolve_right ?_
      exact (hgraceful.exited 0 hn (hleft 0 hn)).2 task htask
    obtain ⟨⟨_, w⟩, htaken, rfl⟩ := List.mem_map.mp hin
    cases w with
    | none => exact absurd htaken hkept
    | some j =>
        refine ⟨j, htaken, ?_⟩
        have hexited : (s.workers j).pc = .exited := by
          by_cases hj : j < n
          · exact hleft j hj
          · exact hsound.absent j (by rw [hgraceful.created]; exact Nat.le_of_not_lt hj)
        rw [hexited]
        exact nofun

/-- A task of the first of two workers pushes another one, which the second takes; then `stop(true)` is
called, and both leave. -/
theorem stop_drains_nested : ∃ s, ((lts 2).guard fun _ e => Fixed e).Reachable s ∧ s.due = [0, 1] ∧
    s.isDone = true ∧ s.control = .idle ∧ s.taken = [(0, some 0), (1, some 1)] ∧
    s.taken.map Prod.fst ++ s.taskQue = List.range s.next ∧ (s.taken.map Prod.fst).Nodup ∧
      (s.isDone = true → s.control = .idle → ∀ task ∈ s.due, s.Ran task ∧ (task, none) ∉ s.taken) := by
  let leave (j : ℕ) : List PoolEvent := List.replicate 5 (.worker j)
  let es : List PoolEvent := [.push, .notify 0 none, .worker 0, .push, .notify 1 none, .worker 0,
    .worker 1, .stop true, .control] ++ leave 0 ++ [.control, .worker 1] ++ leave 1 ++
    [.control, .control, .control]
  have hrun : (es.foldlM step (init 2)).map
      (fun s => (s.due, s.taken, decide (s.isDone = true ∧ s.control = .idle))) =
      some ([0, 1], [(0, some 0), (1, some 1)], true) := by
    decide +kernel
  obtain ⟨s, hs, hshow⟩ := Option.map_eq_some_iff.mp hrun
  simp only [Prod.mk.injEq, decide_eq_true_eq] at hshow
  obtain ⟨hdue, htaken, hdone, hidle⟩ := hshow
  have hfixed : ∀ e ∈ es, Fixed e := by simp [es, leave, Fixed]
  have hreach : ((lts 2).guard fun _ e => Fixed e).Reachable s :=
    ⟨init 2, es, rfl, (Lts.Run.of_foldlM (fun _ _ _ he => he) hs).guard_labels hfixed⟩
  exact ⟨s, hreach, hdue, hdone, hidle, htaken, stop_drains (by decide) hreach⟩

end ThreadPool

end Libio
