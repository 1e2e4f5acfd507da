import Libio.Core.PoolStop
import Libio.Foundation.Families

/-! # The thread pool comes to rest

A pool that keeps its size, with `stop` called in either way at any time: when nobody pushes, stops
or resizes any more, and no worker wakes up by itself, all runs of the workers and of the call in
progress end. Then every push has returned; a pool that was not stopped has run all its tasks and
its workers sleep; and a call of `stop` has returned, with all workers gone. -/

namespace Libio

namespace ThreadPool

variable {s t : ThreadPool} {n j : ℕ} {pc : WorkerPc}

/-- The pool keeps its size. -/
def Sized : PoolEvent → Prop
  | .resize _ => False
  | _ => True

/-- A step of a worker, of a push in progress, or of a call in progress. -/
def Internal : PoolEvent → Prop
  | .notify _ _ | .worker _ | .control => True
  | _ => False

/-- The places of `stop`. -/
def Ending : Control → Prop
  | .raising _ | .discarding | .stopping | .joining _ | .clearing => True
  | _ => False

/-- The places of `stop` after its `cv.notify_all()`. -/
def Roused : Control → Prop
  | .joining _ | .clearing => True
  | _ => False

/-- `stop` has been called. -/
def Called (s : ThreadPool) : Prop := s.isDone = true ∨ s.isStop = true

/-- The invariant of a pool of `n` workers that keeps its size, stopped in either way. -/
structure Steady (n : ℕ) (s : ThreadPool) : Prop where
  created : s.created = n
  index : ∀ j, (s.workers j).index = j
  control : s.control = .idle ∨ s.Called ∧ Ending s.control
  /-- The vectors are cleared after the last worker has gone. -/
  vectors : (s.threads = (List.range n).map some ∧ s.flags = (List.range n).map some) ∨
    (∀ j < n, (s.workers j).pc = .exited) ∧ s.threads = [] ∧ s.flags = []
  running : ¬s.Called → ∀ j < n, (s.workers j).pc ≠ .exited
  lowered : s.isStop = false → ∀ j, (s.workers j).flag = false
  raising : ∀ i, s.control = .raising i → s.isStop = true
  /-- `stop(false)` raises the flags one after the other. -/
  raised : s.isStop = true → ∀ j < n, (∀ i, s.control = .raising i → j < i) →
    (s.workers j).flag = true ∨ (s.workers j).pc = .exited
  /-- Nobody sleeps, or goes to sleep, after `stop` has notified all. -/
  roused : Roused s.control → ∀ j < n, (s.workers j).pc ≠ .asleep ∧
    ((s.workers j).pc = .reading → (s.workers j).flag = true)
  joined : ∀ i, s.control = .joining i → ∀ j < n, j < i → (s.workers j).pc = .exited
  left : s.control = .clearing ∨ s.Called ∧ s.control = .idle → ∀ j < n, (s.workers j).pc = .exited
  kept : ¬s.Called → ∀ task, (task, none) ∉ s.taken

/-- A pool in the making is steady. -/
theorem steady_init (n : ℕ) : (init n).Steady n where
  created := rfl
  index _ := rfl
  control := .inl rfl
  vectors := .inl ⟨rfl, rfl⟩
  running _ j hj := by simp [init, hj]
  lowered _ _ := rfl
  raising := nofun
  raised := nofun
  roused := nofun
  joined := nofun
  left h := by simp [init, Called] at h
  kept _ _ := nofun

/-- **Frame rule** for the steps of workers and pushers: a worker that moves does not leave before
`stop` has been called, and does not go to sleep after `stop` has notified all. -/
theorem Steady.of_frame (h : s.Steady n) (hcreated : t.created = s.created)
    (hisStop : t.isStop = s.isStop) (hisDone : t.isDone = s.isDone) (hcontrol : t.control = s.control)
    (hthreads : t.threads = s.threads) (hflags : t.flags = s.flags)
    (htaken : ∀ task, (task, none) ∈ t.taken → (task, none) ∈ s.taken)
    (hindex : ∀ k, (t.workers k).index = (s.workers k).index)
    (hflag : ∀ k, (t.workers k).flag = (s.workers k).flag)
    (hpc : ∀ k, (t.workers k).pc = (s.workers k).pc ∨ (s.workers k).pc ≠ .exited ∧
      ((t.workers k).pc = .exited → s.Called) ∧
      (Roused s.control → (t.workers k).pc ≠ .asleep ∧
        ((t.workers k).pc = .reading → (s.workers k).flag = true))) : t.Steady n := by
  have hcalled : t.Called ↔ s.Called := by
    unfold Called
    rw [hisDone, hisStop]
  have hstay : ∀ k, (s.workers k).pc = .exited → (t.workers k).pc = .exited := by
    intro k hk
    rcases hpc k with heq | ⟨hne, -⟩
    · rw [heq, hk]
    · exact absurd hk hne
  constructor
  case created => exact hcreated.trans h.created
  case index => exact fun k => (hindex k).trans (h.index k)
  case control =>
    rw [hcontrol, hcalled]
    exact h.control
  case vectors =>
    rw [hthreads, hflags]
    exact h.vectors.imp id fun ⟨hall, hv⟩ => ⟨fun k hk => hstay k (hall k hk), hv⟩
  case running =>
    intro hnot k hk hexited
    rw [hcalled] at hnot
    rcases hpc k with heq | ⟨-, hexit, -⟩
    · exact h.running hnot k hk (heq ▸ hexited)
    · exact hnot (hexit hexited)
  case lowered =>
    intro hstop k
    rw [hflag k]
    exact h.lowered (hisStop ▸ hstop) k
  case raising => exact fun i hi => hisStop.trans (h.raising i (hcontrol ▸ hi))
  case raised =>
    intro hstop k hk hi
    rw [hflag k]
    exact (h.raised (hisStop ▸ hstop) k hk (hcontrol ▸ hi)).imp id (hstay k)
  case roused =>
    intro hroused k hk
    rw [hcontrol] at hroused
    rw [hflag k]
    rcases hpc k with heq | ⟨-, -, hsleep⟩
    · rw [heq]
      exact h.roused hroused k hk
    · exact hsleep hroused
  case joined => exact fun i hi k hk hki => hstay k (h.joined i (hcontrol ▸ hi) k hk hki)
  case left =>
    intro hleft k hk
    rw [hcalled, hcontrol] at hleft
    exact hstay k (h.left hleft k hk)
  case kept =>
    intro hnot task htask
    exact h.kept (hcalled.not.mp hnot) task (htaken task htask)

/-- A worker that goes on keeps the invariant. -/
theorem Steady.goto (h : s.Steady n) {m : Option ℕ} (hj : (s.workers j).pc ≠ .exited)
    (hexit : pc = .exited → s.Called)
    (hsleep : Roused s.control → pc ≠ .asleep ∧ (pc = .reading → (s.workers j).flag = true)) :
    Steady n { s.goto j pc with mutex := m } := by
  refine h.of_frame rfl rfl rfl rfl rfl rfl (fun _ => id) (fun _ => index_goto) (fun _ => flag_goto)
    fun k => ?_
  show ((s.goto j pc).workers k).pc = _ ∨ _ ∧ (((s.goto j pc).workers k).pc = .exited → _) ∧
    (_ → ((s.goto j pc).workers k).pc ≠ .asleep ∧ (((s.goto j pc).workers k).pc = .reading → _))
  by_cases hk : k = j
  · subst hk
    rw [pc_goto_self]
    exact .inr ⟨hj, hexit, hsleep⟩
  · exact .inl (pc_goto_of_ne hk)

/-- A worker that goes on, and neither leaves nor is on the way to sleep. -/
theorem Steady.move (h : s.Steady n) {m : Option ℕ} (hj : (s.workers j).pc ≠ .exited)
    (hpc : pc ≠ .exited ∧ pc ≠ .asleep ∧ pc ≠ .reading) : Steady n { s.goto j pc with mutex := m } :=
  h.goto hj (fun he => absurd he hpc.1) fun _ => ⟨hpc.2.1, fun he => absurd he hpc.2.2⟩

/-- A worker that leaves. -/
theorem Steady.leave (h : s.Steady n) {m : Option ℕ} (hj : (s.workers j).pc ≠ .exited)
    (hcalled : s.Called) : Steady n { s.goto j .exited with mutex := m } :=
  h.goto hj (fun _ => hcalled) fun _ => by simp

/-- A task that a worker takes is not discarded. -/
theorem Steady.take (h : s.Steady n) (task : ℕ) (rest : LockQueue ℕ) : (s.take j task rest).Steady n := by
  refine h.of_frame rfl rfl rfl rfl rfl rfl (fun x hx => ?_) (fun _ => rfl) (fun _ => rfl)
    fun _ => .inl rfl
  simpa [ThreadPool.take] using hx

/-- A worker that has not left reads its own flag. -/
theorem Steady.readFlag (h : s.Steady n) (hj : j < n) (hpc : (s.workers j).pc ≠ .exited) :
    s.readFlag (s.workers j).index = some (s.workers j).flag := by
  rcases h.vectors with ⟨-, hflags⟩ | ⟨hall, -⟩
  · have hflag : s.flagAt j = some j := by
      unfold ThreadPool.flagAt
      split
      · next m hc =>
          -- `resize` is not called
          have hno := (h.control.resolve_left (by simp [hc])).2
          rw [hc] at hno
          exact hno.elim
      · rw [hflags, List.getElem?_map, List.getElem?_range hj]
        rfl
    rw [ThreadPool.readFlag, h.index j, hflag]
    rfl
  · exact absurd (hall j hj) hpc

/-- A worker that has not exited is one of the first `n`. -/
theorem Steady.lt (h : s.Steady n) (hsound : s.Sound) (hpc : (s.workers j).pc ≠ .exited) : j < n := by
  by_contra hge
  exact hpc (hsound.absent j (by rw [h.created]; exact Nat.le_of_not_lt hge))

/-- A raised flag means that `stop` has been called. -/
theorem Steady.called_of_flag (h : s.Steady n) (hflag : (s.workers j).flag = true) : s.Called := by
  right
  by_contra hstop
  rw [h.lowered (Bool.eq_false_iff.mpr hstop) j] at hflag
  cases hflag

/-- After `stop` has notified all, one that has not been told by `isDone` finds its flag raised. -/
theorem Steady.flag_of_roused (h : s.Steady n) (hj : j < n) (hroused : Roused s.control)
    (hpc : (s.workers j).pc ≠ .exited) (hdone : s.isDone = false) : (s.workers j).flag = true := by
  have hcontrol : s.control ≠ .idle := fun hidle => by simp [hidle, Roused] at hroused
  have hstop : s.isStop = true := by
    rcases (h.control.resolve_left hcontrol).1 with hd | hs
    · rw [hdone] at hd
      cases hd
    · exact hs
  refine (h.raised hstop j hj fun i hi => ?_).resolve_right hpc
  rw [hi] at hroused
  exact hroused.elim

/-- A worker that steps has not left. -/
theorem pc_ne_exited (hs : s.workerStep j = some t) : (s.workers j).pc ≠ .exited := by
  intro hexited
  simp [workerStep, hexited] at hs

/-- **A worker's step** keeps the invariant. -/
theorem Steady.worker (h : s.Steady n) (hsound : s.Sound) (hs : WorkerStep s j t) : t.Steady n := by
  have hlt : (s.workers j).pc ≠ .exited → j < n := h.lt hsound
  cases hs with
  | pop task rest hpc | found task rest hpc =>
      have hj : ((s.take j task rest).workers j).pc ≠ .exited := by simp [ThreadPool.take, hpc]
      exact (h.take task rest).move hj (by simp)
  | checked b hpc hb =>
      have hj : (s.workers j).pc ≠ .exited := by simp [hpc]
      rw [h.readFlag (hlt hj) hj] at hb
      obtain rfl := Option.some.inj hb
      cases hflag : (s.workers j).flag with
      | true => exact h.leave hj (h.called_of_flag hflag)
      | false => exact h.move hj (by simp)
  | read b hpc hb =>
      have hj : (s.workers j).pc ≠ .exited := by simp [hpc]
      rw [h.readFlag (hlt hj) hj] at hb
      obtain rfl := Option.some.inj hb
      cases hflag : (s.workers j).flag with
      | true => exact h.leave hj (h.called_of_flag hflag)
      | false =>
          -- behind `notify_all` a worker that reads its flag finds it raised
          refine h.goto hj (by simp) fun hroused => ?_
          have := (h.roused hroused j (hlt hj)).2 hpc
          rw [hflag] at this
          cases this
  | done hpc hdone =>
      exact h.leave (by simp [hpc]) (.inl hdone)
  | notDone hpc hdone =>
      have hj : (s.workers j).pc ≠ .exited := by simp [hpc]
      exact h.goto hj (by simp) fun hroused =>
        ⟨by simp, fun _ => h.flag_of_roused (hlt hj) hroused hj hdone⟩
  | popFailed hpc | ran _ hpc | notFound hpc =>
      exact h.move (by simp [hpc]) (by simp)
  | locked hpc =>
      have hj : (s.workers j).pc ≠ .exited := by rcases hpc with hpc | hpc <;> simp [hpc]
      exact h.move hj (by simp)

/-- Waking all sleepers keeps the invariant. -/
theorem Steady.notifyAll (h : s.Steady n) : s.notifyAll.Steady n := by
  refine h.of_frame rfl rfl rfl rfl rfl rfl (fun _ => id) (fun k => ?_) (fun k => ?_) fun k => ?_
  · simp only [ThreadPool.notifyAll]
    split <;> rfl
  · simp only [ThreadPool.notifyAll]
    split <;> rfl
  · rw [pc_notifyAll]
    split
    · next hk => exact .inr (by simp [hk])
    · exact .inl rfl

/-- An announcement keeps the invariant. -/
theorem Steady.notifyOne (h : s.Steady n) {task : ℕ} {o : Option ℕ} (ho : s.Wakes o) :
    (s.notifyOne task o).Steady n := by
  have herase : ∀ {u : ThreadPool}, u.Steady n →
      Steady n { u with pending := u.pending.erase task } := fun hu =>
    hu.of_frame rfl rfl rfl rfl rfl rfl (fun _ => id) (fun _ => rfl) (fun _ => rfl) fun _ => .inl rfl
  cases o with
  | none => exact herase h
  | some k =>
      have hk : (s.workers k).pc ≠ .exited := by
        rw [show (s.workers k).pc = .asleep from ho]
        simp
      exact herase (h.move (m := s.mutex) hk (by simp))

/-- The call of `stop`. -/
theorem Steady.stop (h : s.Steady n) (isWait : Bool) : (s.stop isWait).Steady n := by
  unfold ThreadPool.stop
  split
  · split
    · exact h
    · refine { h with
        control := .inr ⟨.inr rfl, trivial⟩
        running := fun hnot => absurd (.inr rfl) hnot
        lowered := nofun
        raising := fun _ _ => rfl
        raised := fun _ j _ hj => absurd (hj 0 rfl) (Nat.not_lt_zero j)
        roused := nofun
        joined := nofun
        left := ?_
        kept := fun hnot => absurd (.inr rfl) hnot }
      rintro (hc | ⟨-, hc⟩) <;> cases hc
  · split
    · exact h
    · next hfirst =>
        have hstop : s.isStop = false := Bool.eq_false_iff.mpr fun hs => hfirst (.inr hs)
        refine { h with
          control := .inr ⟨.inl rfl, trivial⟩
          running := fun hnot => absurd (.inl rfl) hnot
          raising := nofun
          raised := fun hs => absurd (hs.symm.trans hstop) nofun
          roused := nofun
          joined := nofun
          left := ?_
          kept := fun hnot => absurd (.inl rfl) hnot }
        rintro (hc | ⟨-, hc⟩) <;> cases hc

/-- While the vectors are there, the place of a worker in them is its own. -/
theorem getElem_workers {l : List (Option ℕ)} {i k : ℕ} (hl : l = (List.range n).map some)
    (hk : l[i]? = some (some k)) : i < n ∧ k = i := by
  rw [hl, List.getElem?_map] at hk
  obtain ⟨m, hm, hmk⟩ := Option.map_eq_some_iff.mp hk
  obtain ⟨hi, rfl⟩ := List.getElem?_eq_some_iff.mp hm
  rw [List.getElem_range] at hmk
  exact ⟨by simpa using hi, (Option.some.inj hmk).symm⟩

/-- A call that is in progress was made. -/
theorem Steady.called (h : s.Steady n) (hc : s.control ≠ .idle) : s.Called :=
  (h.control.resolve_left hc).1

/-! ### The steps of `stop` -/

/-- `stop(false)` raises the next flag. -/
theorem Steady.raise (h : s.Steady n) {i k : ℕ} (hc : s.control = .raising i)
    (hf : s.flags[i]? = some (some k)) : Steady n { s.raise k with control := .raising (i + 1) } := by
  have hcalled : s.Called := h.called (by simp [hc])
  -- the flag at this place is that of the worker with the same index
  have hk : k = i := by
    rcases h.vectors with ⟨-, hflags⟩ | ⟨-, -, hflags⟩
    · exact (getElem_workers hflags hf).2
    · rw [hflags] at hf
      cases hf
  subst hk
  have hflag : ∀ j, j = k ∨ (s.workers j).flag = true → ((s.raise k).workers j).flag = true := by
    rintro j (rfl | hj)
    · simp [ThreadPool.raise, setWorker]
    · by_cases hjk : j = k
      · simp [ThreadPool.raise, setWorker, hjk]
      · simpa [ThreadPool.raise, setWorker, hjk] using hj
  constructor
  case created => exact h.created
  case index =>
    intro j
    by_cases hjk : j = k
    · simp [ThreadPool.raise, setWorker, hjk, h.index k]
    · simpa [ThreadPool.raise, setWorker, hjk] using h.index j
  case control => exact .inr ⟨hcalled, trivial⟩
  case vectors => exact h.vectors.imp_right fun hv => ⟨fun j hj => pc_raise.trans (hv.1 j hj), hv.2⟩
  case running => exact fun hnot => absurd hcalled hnot
  case lowered => exact fun hstop => absurd (hstop.symm.trans (h.raising k hc)) Bool.false_ne_true
  case raising => exact fun _ _ => h.raising k hc
  case raised =>
    intro hstop j hj hlt
    rcases Nat.lt_succ_iff_lt_or_eq.mp (hlt (k + 1) rfl) with hjk | rfl
    · refine (h.raised hstop j hj fun i hi' => ?_).imp (fun hf => hflag j (.inr hf)) pc_raise.trans
      rw [hc] at hi'
      cases hi'
      exact hjk
    · exact .inl (hflag j (.inl rfl))
  case roused => simp [Roused]
  case joined => simp
  case left => rintro (hc | ⟨-, hc⟩) <;> cases hc
  case kept => exact fun hnot => absurd hcalled hnot

/-- `stop(false)` has raised all flags. -/
theorem Steady.allRaised (h : s.Steady n) {i : ℕ} (hc : s.control = .raising i) (hi : ¬i < s.size) :
    Steady n { s with control := .discarding } := by
  refine { h with
    control := .inr ⟨h.called (by simp [hc]), trivial⟩
    raising := by simp
    raised := fun hstop j hj _ => ?_
    roused := by simp [Roused]
    joined := by simp
    left := by rintro (hc | ⟨-, hc⟩) <;> cases hc }
  rcases h.vectors with ⟨hthreads, -⟩ | ⟨hall, -⟩
  · refine h.raised hstop j hj fun i' hi' => ?_
    rw [hc] at hi'
    cases hi'
    have hsize : s.size = n := by simp [size, hthreads]
    omega
  · exact .inr (hall j hj)

/-- `stop(false)` has emptied the queue. -/
theorem Steady.allDiscarded (h : s.Steady n) (hc : s.control = .discarding) :
    Steady n { s with control := .stopping } :=
  { h with
    control := .inr ⟨h.called (by simp [hc]), trivial⟩
    raising := by simp
    raised := fun hstop j hj _ => h.raised hstop j hj fun i hi => by simp [hc] at hi
    roused := by simp [Roused]
    joined := by simp
    left := by rintro (hc | ⟨-, hc⟩) <;> cases hc }

/-- `stop` wakes all sleepers. -/
theorem Steady.rouse (h : s.Steady n) (hsound : s.Sound) (hc : s.control = .stopping)
    (hfree : s.mutex = none) : Steady n { s.notifyAll with control := .joining 0 } := by
  have hcalled : s.Called := h.called (by simp [hc])
  have hnotified := h.notifyAll
  refine { hnotified with
    control := .inr ⟨hcalled, trivial⟩
    raising := by simp
    raised := fun hstop j hj _ => hnotified.raised hstop j hj fun i hi => ?_
    roused := fun _ j _ => ?_
    joined := fun i hi j _ hj => ?_
    left := by rintro (hc | ⟨-, hc⟩) <;> cases hc }
  · rw [show s.notifyAll.control = .stopping from hc] at hi
    cases hi
  · -- the mutex is free, so nobody is on the way to sleep
    have hlate := hsound.not_late hfree j
    show (s.notifyAll.workers j).pc ≠ .asleep ∧ ((s.notifyAll.workers j).pc = .reading → _)
    rw [pc_notifyAll]
    split
    · simp
    · next hne => exact ⟨hne, fun hread => absurd (.inr hread) hlate⟩
  · cases hi
    exact absurd hj (Nat.not_lt_zero j)

/-- `join` returns when the thread is gone. -/
theorem Steady.join (h : s.Steady n) {i k : ℕ} (hc : s.control = .joining i)
    (hk : s.threads[i]? = some (some k)) (hexited : (s.workers k).pc = .exited) :
    Steady n { s with control := .joining (i + 1) } := by
  refine { h with
    control := .inr ⟨h.called (by simp [hc]), trivial⟩
    raising := by simp
    raised := fun hstop j hj _ => h.raised hstop j hj fun i hi => by simp [hc] at hi
    roused := fun _ => h.roused (by simp [hc, Roused])
    joined := fun i' hi' j hj hlt => ?_
    left := by rintro (hc | ⟨-, hc⟩) <;> cases hc }
  cases hi'
  rcases h.vectors with ⟨hthreads, -⟩ | ⟨hall, -⟩
  · obtain ⟨-, rfl⟩ := getElem_workers hthreads hk
    rcases Nat.lt_succ_iff_lt_or_eq.mp hlt with hlt | rfl
    · exact h.joined k hc j hj hlt
    · exact hexited
  · exact hall j hj

/-- `stop` has joined all threads. -/
theorem Steady.allJoined (h : s.Steady n) {i : ℕ} (hc : s.control = .joining i) (hi : ¬i < s.size) :
    Steady n { s with control := .clearing } := by
  refine { h with
    control := .inr ⟨h.called (by simp [hc]), trivial⟩
    raising := by simp
    raised := fun hstop j hj _ => h.raised hstop j hj fun i hi => by simp [hc] at hi
    roused := fun _ => h.roused (by simp [hc, Roused])
    joined := by simp
    left := fun _ j hj => ?_ }
  rcases h.vectors with ⟨hthreads, -⟩ | ⟨hall, -⟩
  · have hsize : s.size = n := by simp [size, hthreads]
    exact h.joined i hc j hj (by omega)
  · exact hall j hj

/-- `stop` clears the vectors and returns. -/
theorem Steady.clear (h : s.Steady n) (hc : s.control = .clearing) :
    Steady n { s with threads := [], flags := [], control := .idle } :=
  have hall := h.left (.inl hc)
  { h with
    control := .inl rfl
    vectors := .inr ⟨hall, rfl, rfl⟩
    raising := by simp
    raised := fun _ j hj _ => .inr (hall j hj)
    roused := by simp [Roused]
    joined := by simp
    left := fun _ => hall }

/-- **A step of `stop`** keeps the invariant. -/
theorem Steady.controlStep (h : s.Steady n) (hsound : s.Sound) (hs : ControlStep s t) : t.Steady n := by
  cases hs with
  | reallocated n' hc | made i n' hc | grown i n' hc | detached i n' _ _ hc | shrunk i n' hc
  | notified n' hc | truncated n' hc =>
      -- a step of `resize`
      have hno := (h.control.resolve_left (by simp [hc])).2
      rw [hc] at hno
      exact hno.elim
  | raised i k hc hi hf => exact h.raise hc hf
  | allRaised i hc hi => exact h.allRaised hc hi
  | discarded task rest hc hqueue =>
      have hcalled : s.Called := h.called (by rcases hc with hc | hc <;> simp [hc])
      exact { h with kept := fun hnot => absurd hcalled hnot }
  | allDiscarded hc => exact h.allDiscarded hc
  | woken hc hfree => exact h.rouse hsound hc hfree
  | joined i k hc hi hk hexited => exact h.join hc hk hexited
  | allJoined i hc hi => exact h.allJoined hc hi
  | cleared hc hqueue => exact h.clear hc

/-- **Every step** of a pool that keeps its size keeps the invariant. -/
theorem Steady.step (h : s.Steady n) (hsound : s.Sound) {e : PoolEvent} (hsized : Sized e)
    (hs : s.step e = some t) : t.Steady n := by
  cases step_cases hs with
  | push =>
      exact h.of_frame rfl rfl rfl rfl rfl rfl (fun _ => id) (fun _ => rfl) (fun _ => rfl) fun _ => .inl rfl
  | notify task k hpending hfree hk => exact h.notifyOne hk
  | worker _ j hstep => exact h.worker hsound hstep
  | spurious j hj => exact h.move (m := s.mutex) (by simp [hj]) (by simp)
  | resize nThreads => exact hsized.elim
  | stop isWait => exact h.stop isWait
  | control _ hstep => exact h.controlStep hsound hstep

/-- The pool of `n` workers that keeps its size. -/
theorem steady_of_reachable (h : ((lts n).guard fun _ e => Sized e).Reachable s) :
    s.Sound ∧ s.Steady n := by
  refine h.invariant (P := fun s => s.Sound ∧ s.Steady n) ?_ ?_
  · rintro s rfl
    exact ⟨sound_init n, steady_init n⟩
  · rintro s e t ⟨hsound, hsteady⟩ ⟨hsized, hs⟩
    exact ⟨hsound.step hs, hsteady.step hsound hsized hs⟩

/-! ## Where nothing goes on -/

/-- A worker that takes no step sleeps, has left, or waits for the mutex. -/
theorem Steady.workerStep_eq_none (h : s.Steady n) (hj : j < n) (hnone : s.workerStep j = none) :
    (s.workers j).pc = .asleep ∨ (s.workers j).pc = .exited ∨
      ((s.workers j).pc = .locking ∨ (s.workers j).pc = .woken) ∧ s.mutex ≠ none := by
  unfold workerStep at hnone
  split at hnone
  · split at hnone <;> cases hnone
  · cases hnone
  · next hpc =>
      rw [h.readFlag hj (by simp [hpc])] at hnone
      cases hnone
  · next hpc => exact .inr (.inr ⟨.inl hpc, fun hfree => by simp [hfree] at hnone⟩)
  · split at hnone <;> cases hnone
  · cases hnone
  · next hpc =>
      rw [h.readFlag hj (by simp [hpc])] at hnone
      cases hnone
  · next hpc => exact .inl hpc
  · next hpc => exact .inr (.inr ⟨.inr hpc, fun hfree => by simp [hfree] at hnone⟩)
  · next hpc => exact .inr (.inl hpc)

/-- A call that takes no step, while the mutex is free and all workers sleep or have left, has
returned. -/
theorem Steady.controlStep_eq_none (h : s.Steady n) (hnone : s.controlStep = none)
    (hfree : s.mutex = none)
    (hrest : ∀ j < n, (s.workers j).pc = .asleep ∨ (s.workers j).pc = .exited) : s.control = .idle := by
  by_contra hne
  have hending : Ending s.control := (h.control.resolve_left hne).2
  have hvector : ∀ {l : List (Option ℕ)} {i : ℕ}, i < n → l = (List.range n).map some →
      l[i]? = some (some i) := by
    rintro l i hi rfl
    rw [List.getElem?_map, List.getElem?_range hi]
    rfl
  unfold ThreadPool.controlStep at hnone
  cases hc : s.control with
  | idle => exact hne hc
  | reallocating | growing | shrinking | shrunk | truncating =>
      rw [hc] at hending
      exact hending.elim
  | raising i =>
      simp only [hc] at hnone
      split at hnone
      · next hi =>
          rcases h.vectors with ⟨hthreads, hflags⟩ | ⟨-, hthreads, -⟩
          · have hin : i < n := by simpa [size, hthreads] using hi
            rw [hvector hin hflags] at hnone
            cases hnone
          · simp [size, hthreads] at hi
      · cases hnone
  | discarding => simp [hc] at hnone
  | stopping => simp [hc, hfree] at hnone
  | joining i =>
      simp only [hc] at hnone
      split at hnone
      · next hi =>
          rcases h.vectors with ⟨hthreads, -⟩ | ⟨-, hthreads, -⟩
          · have hin : i < n := by simpa [size, hthreads] using hi
            -- nobody sleeps any more
            have hexited : (s.workers i).pc = .exited :=
              (hrest i hin).resolve_left (h.roused (by simp [hc, Roused]) i hin).1
            rw [hvector hin hthreads] at hnone
            simp [hexited] at hnone
          · simp [size, hthreads] at hi
      · cases hnone
  | clearing => simp [hc] at hnone

/-- While the holder of the mutex cannot go on, there is none. -/
theorem Steady.mutex_eq_none (h : s.Steady n) (hsound : s.Sound)
    (hnone : ∀ k, Holds (s.workers k).pc → s.workerStep k = none) : s.mutex = none := by
  by_contra hne
  obtain ⟨k, hk⟩ := Option.ne_none_iff_exists'.mp hne
  have hholds := (hsound.holder k).mpr hk
  have hpc : (s.workers k).pc ≠ .exited := by rcases hholds with hpc | hpc | hpc <;> simp [hpc]
  rcases h.workerStep_eq_none (h.lt hsound hpc) (hnone k hholds) with hw | hw | ⟨hw | hw, -⟩ <;>
    simp [Holds, hw] at hholds

/-- While the mutex is free and no push can announce its task, all tasks are announced. -/
theorem pending_eq_nil (hfree : s.mutex = none) (hnone : ∀ task o, s.step (.notify task o) = none) :
    s.pending = [] := by
  rw [List.eq_nil_iff_forall_not_mem]
  intro task htask
  by_cases hsleeper : ∃ k, (s.workers k).pc = .asleep
  · obtain ⟨k, hk⟩ := hsleeper
    exact nomatch (hnone task (some k)).symm.trans (if_pos ⟨htask, hfree, hk⟩)
  · have hnobody : s.Wakes none := fun k _ hk => hsleeper ⟨k, hk⟩
    exact nomatch (hnone task none).symm.trans (if_pos ⟨htask, hfree, hnobody⟩)

/-- What has become of a pool at rest. -/
structure Rested (n : ℕ) (s : ThreadPool) : Prop where
  control : s.control = .idle
  pending : s.pending = []
  /-- A pool that was not stopped has run all tasks, and its workers sleep. -/
  ran : ¬s.Called → s.taskQue = [] ∧ (∀ task < s.next, s.Ran task) ∧
    ∀ j < n, (s.workers j).pc = .asleep
  /-- A pool that was stopped has no workers. -/
  stopped : s.Called → ∀ j < n, (s.workers j).pc = .exited

/-- The pool with the steps that go on by themselves. -/
def internal (n : ℕ) : Lts ThreadPool PoolEvent := (lts n).guard fun _ e => Internal e

/-- **A pool in which nothing goes on is at rest.** -/
theorem rested_of_stuck (hn : 0 < n) (h : s.Steady n) (hsound : s.Sound)
    (hstuck : (internal n).Stuck s) : s.Rested n := by
  have hworker : ∀ j, s.workerStep j = none := by
    intro j
    rw [Option.eq_none_iff_forall_ne_some]
    exact fun t ht => hstuck (.worker j) t ⟨trivial, ht⟩
  have hfree := h.mutex_eq_none hsound fun k _ => hworker k
  have hrest : ∀ j < n, (s.workers j).pc = .asleep ∨ (s.workers j).pc = .exited := by
    intro j hj
    rcases h.workerStep_eq_none hj (hworker j) with hw | hw | ⟨-, hw⟩
    · exact .inl hw
    · exact .inr hw
    · exact absurd hfree hw
  have hidle : s.control = .idle := by
    refine h.controlStep_eq_none ?_ hfree hrest
    rw [Option.eq_none_iff_forall_ne_some]
    exact fun t ht => hstuck .control t ⟨trivial, ht⟩
  have hpending := pending_eq_nil hfree fun task o => by
    rw [Option.eq_none_iff_forall_ne_some]
    exact fun t ht => hstuck (.notify task o) t ⟨trivial, ht⟩
  refine ⟨hidle, hpending, fun hnot => ?_, fun hcalled => h.left (.inr ⟨hcalled, hidle⟩)⟩
  have hasleep : ∀ j < n, (s.workers j).pc = .asleep := fun j hj =>
    (hrest j hj).resolve_right (h.running hnot j hj)
  have hqueue : s.taskQue = [] := by
    rw [List.eq_nil_iff_forall_not_mem]
    intro task htask
    have hin := hsound.unheard (by rw [h.created]; exact hn) (by rw [h.created]; exact hasleep) task htask
    rw [hpending] at hin
    cases hin
  refine ⟨hqueue, fun task htask => ?_, hasleep⟩
  have hin : task ∈ s.taken.map Prod.fst := by
    have hrange := List.mem_range.mpr htask
    rw [← hsound.order, hqueue, List.append_nil] at hrange
    exact hrange
  obtain ⟨⟨_, w⟩, htaken, rfl⟩ := List.mem_map.mp hin
  cases w with
  | none => exact absurd htaken (h.kept hnot _)
  | some j =>
      refine ⟨j, htaken, ?_⟩
      by_cases hj : j < n
      · rw [hasleep j hj]
        exact nofun
      · rw [hsound.absent j (by rw [h.created]; exact Nat.le_of_not_lt hj)]
        exact nofun

/-! ## The way to rest -/

/-- How far a worker is from its sleep, counted from the start of a task. -/
def rank : WorkerPc → ℕ
  | .exited => 0
  | .asleep => 1
  | .reading => 2
  | .failed => 3
  | .predicate => 4
  | .locking | .woken => 5
  | .popping => 6
  | .checking => 7
  | .running _ => 8

/-- How far the call of `stop` is from its return. -/
def callRank (n : ℕ) : Control → ℕ
  | .clearing => 1
  | .joining i => n - i + 2
  | .stopping => 5 * n + 3
  | .discarding => 5 * n + 4
  | .raising i => 5 * n + 5 + (n - i)
  | _ => 0

/-- What is left to do. A task or an announcement may make a worker go round once more. -/
def work (n : ℕ) (s : ThreadPool) : ℕ :=
  Family.total (fun w : Worker => rank w.pc) s.workers n + 5 * s.taskQue.length + 5 * s.pending.length +
    callRank n s.control

/-- The work after a worker went on. -/
theorem work_goto (hj : j < n) (hworkers : t.workers = (s.goto j pc).workers)
    (hcontrol : t.control = s.control) :
    t.work n + (rank (s.workers j).pc + 5 * s.taskQue.length + 5 * s.pending.length) =
      s.work n + (rank pc + 5 * t.taskQue.length + 5 * t.pending.length) := by
  have htotal : Family.total (fun w : Worker => rank w.pc) (s.goto j pc).workers n + rank (s.workers j).pc =
      Family.total (fun w : Worker => rank w.pc) s.workers n + rank pc :=
    Family.total_update (μ := fun w : Worker => rank w.pc) hj
  unfold work
  rw [hworkers, hcontrol]
  omega

/-- A worker that goes on without a task leaves less to do. -/
theorem work_lt_of_goto (hj : j < n) (hworkers : t.workers = (s.goto j pc).workers)
    (hcontrol : t.control = s.control) (hqueue : t.taskQue = s.taskQue) (hpending : t.pending = s.pending)
    (hrank : rank pc < rank (s.workers j).pc) : t.work n < s.work n := by
  have hwork := work_goto hj hworkers hcontrol
  rw [hqueue, hpending] at hwork
  omega

/-- A worker that takes a task leaves less to do. -/
theorem work_lt_of_take {task : ℕ} {rest : LockQueue ℕ} (hj : j < n) (hqueue : s.taskQue = task :: rest)
    (hworkers : t.workers = (s.goto j pc).workers) (hcontrol : t.control = s.control)
    (hrest : t.taskQue = rest) (hpending : t.pending = s.pending)
    (hrank : rank pc ≤ rank (s.workers j).pc + 4) : t.work n < s.work n := by
  have hwork := work_goto hj hworkers hcontrol
  rw [hqueue, hrest, hpending, List.length_cons] at hwork
  omega

/-- **A step of a worker** leaves less to do. -/
theorem work_worker (hj : j < n) (hs : WorkerStep s j t) : t.work n < s.work n := by
  cases hs with
  | pop task rest hpc hqueue | found task rest hpc hqueue =>
      exact work_lt_of_take hj hqueue rfl rfl rfl rfl (by simp [rank, hpc])
  | checked b hpc =>
      refine work_lt_of_goto hj rfl rfl rfl rfl ?_
      cases b <;> simp [rank, hpc]
  | read b hpc =>
      refine work_lt_of_goto hj rfl rfl rfl rfl ?_
      cases b <;> simp [rank, hpc]
  | locked hpc =>
      refine work_lt_of_goto hj rfl rfl rfl rfl ?_
      rcases hpc with hpc | hpc <;> simp [rank, hpc]
  | popFailed hpc | ran _ hpc | notFound hpc | done hpc | notDone hpc =>
      exact work_lt_of_goto hj rfl rfl rfl rfl (by simp [rank, hpc])

/-- An announcement wakes up one sleeper at most. -/
theorem work_notifyOne {task : ℕ} {o : Option ℕ} (hpending : task ∈ s.pending)
    (ho : ∀ k ∈ o, (s.workers k).pc = .asleep ∧ k < n) : (s.notifyOne task o).work n < s.work n := by
  have hlength : (s.pending.erase task).length + 1 = s.pending.length := by
    rw [List.length_erase_of_mem hpending]
    have := List.length_pos_of_mem hpending
    omega
  cases o with
  | none =>
      unfold work notifyOne
      simp only
      omega
  | some k =>
      obtain ⟨hasleep, hk⟩ := ho k rfl
      have hwork := @work_goto s (s.notifyOne task (some k)) n k .woken hk rfl rfl
      have hqueue : (s.notifyOne task (some k)).taskQue = s.taskQue := rfl
      have hleft : (s.notifyOne task (some k)).pending = s.pending.erase task := rfl
      rw [hqueue, hleft, hasleep] at hwork
      simp only [rank] at hwork
      omega

/-- Waking all sleepers makes each go round once more at most. -/
theorem total_notifyAll : Family.total (fun w : Worker => rank w.pc) s.notifyAll.workers n ≤
    Family.total (fun w : Worker => rank w.pc) s.workers n + n * 4 := by
  refine Family.total_le fun k _ => ?_
  rw [pc_notifyAll]
  split
  · next hpc => simp [rank, hpc]
  · exact Nat.le_add_right _ _

/-- **A step of `stop`** leaves less to do. -/
theorem work_control (h : s.Steady n) (hs : ControlStep s t) : t.work n < s.work n := by
  have hending : s.control ≠ .idle → Ending s.control := fun hne => (h.control.resolve_left hne).2
  have hsize : ∀ {i}, i < s.size → i < n := by
    intro i hi
    rcases h.vectors with ⟨hthreads, -⟩ | ⟨-, hthreads, -⟩
    · simpa [size, hthreads] using hi
    · simp [size, hthreads] at hi
  cases hs with
  | reallocated n' hc | made i n' hc | grown i n' hc | detached i n' _ _ hc | shrunk i n' hc
  | notified n' hc | truncated n' hc =>
      have hno := hending (by simp [hc])
      rw [hc] at hno
      exact hno.elim
  | raised i k hc hi =>
      have hlt := hsize hi
      have htotal : Family.total (fun w : Worker => rank w.pc) (s.raise k).workers n =
          Family.total (fun w : Worker => rank w.pc) s.workers n :=
        Family.total_congr fun j _ => by rw [pc_raise]
      have hqueue : (s.raise k).taskQue = s.taskQue := rfl
      have hpending : (s.raise k).pending = s.pending := rfl
      simp only [work, htotal, hqueue, hpending, hc, callRank]
      omega
  | allRaised i hc => simp only [work, hc, callRank]; omega
  | discarded task rest hc hqueue => simp only [work, hqueue, List.length_cons]; omega
  | allDiscarded hc => simp only [work, hc, callRank]; omega
  | woken hc =>
      have htotal := total_notifyAll (s := s) (n := n)
      have hqueue : s.notifyAll.taskQue = s.taskQue := rfl
      have hpending : s.notifyAll.pending = s.pending := rfl
      simp only [work, hqueue, hpending, hc, callRank]
      omega
  | joined i k hc hi =>
      have hlt := hsize hi
      simp only [work, hc, callRank]
      omega
  | allJoined i hc => simp only [work, hc, callRank]; omega
  | cleared hc => simp only [work, hc, callRank]; omega

/-- **Every internal step** leaves less to do. -/
theorem work_lt (h : s.Steady n) (hsound : s.Sound) {e : PoolEvent} (he : Internal e)
    (hs : s.step e = some t) : t.work n < s.work n := by
  cases step_cases hs with
  | push => exact he.elim
  | notify task o hpending hfree ho =>
      refine work_notifyOne hpending fun k hk => ?_
      obtain rfl := Option.mem_def.mp hk
      have hasleep : (s.workers k).pc = .asleep := ho
      exact ⟨hasleep, h.lt hsound (by simp [hasleep])⟩
  | worker _ j hstep =>
      exact work_worker (h.lt hsound (pc_ne_exited hs)) hstep
  | spurious => exact he.elim
  | resize => exact he.elim
  | stop => exact he.elim
  | control _ hstep => exact work_control h hstep

/-- **The pool comes to rest**: from every reachable state of a pool of `n ≥ 1` workers that keeps its
size, whatever was pushed and however `stop` was called, all runs in which nobody pushes or calls any
more are finite and end at rest. -/
theorem comes_to_rest (hn : 0 < n) (h : ((lts n).guard fun _ e => Sized e).Reachable s) :
    (internal n).Settles (Rested n) s := by
  refine Lts.Settles.of_measure (I := fun s => s.Sound ∧ s.Steady n) (μ := work n) ?_ ?_
    (steady_of_reachable h)
  · rintro s e t ⟨hsound, hsteady⟩ ⟨he, hs⟩
    have hsized : Sized e := by
      cases e with
      | resize => exact he.elim
      | _ => trivial
    exact ⟨⟨hsound.step hs, hsteady.step hsound hsized hs⟩, work_lt hsteady hsound he hs⟩
  · rintro s ⟨hsound, hsteady⟩ hstuck
    exact rested_of_stuck hn hsteady hsound hstuck

/-- Two workers, a task that was not announced yet, and a call of `stop(false)`. -/
theorem comes_to_rest_unannounced : ∃ s : ThreadPool, s.pending = [0] ∧ s.control = .raising 0 ∧
    (internal 2).Settles (Rested 2) s := by
  have h₀ : ((lts 2).guard fun _ e => Sized e).Reachable (init 2) := .of_init rfl
  have h₁ := h₀.step (a := PoolEvent.push) ⟨trivial, rfl⟩
  have h₂ := h₁.step (a := PoolEvent.stop false) ⟨trivial, rfl⟩
  exact ⟨_, rfl, rfl, comes_to_rest (by decide) h₂⟩

end ThreadPool

end Libio
