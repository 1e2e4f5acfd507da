import Libio.Core.Lock
import Libio.Foundation.Transition
import Mathlib.Data.List.Basic
import Mathlib.Logic.Function.Basic

/-! # The thread pool

The class `thread_pool` of `core/thread.hh` as its threads run it: workers take tasks from the queue
with and without the mutex, sleep in `cv.wait`, and read their flags through the vector `flags`; any
thread pushes tasks; one thread resizes and stops the pool. Each queue operation, each load or store
of an atomic, and each operation on the mutex and the condition variable is one step.

A task is named by its place in the order of pushes, a worker and the flag made for it by the place
in the order of creation. Growing the vectors takes its time where they have to be reallocated, and
the mutex does not protect it: a read of a flag meanwhile is one of freed memory.

`no_lost_wakeup` is the first result; the modules on stopping and resizing build on the invariant
`Sound` of this one. -/

namespace Libio

/-- Where a worker is in the function of `set_thread`. -/
inductive WorkerPc
  /-- In front of a pop without the mutex. -/
  | popping
  | running (task : ℕ)
  /-- In front of `if (*this->flags[i])`. -/
  | checking
  /-- In front of `Lock lock(this->mutex)`. -/
  | locking
  /-- In front of the pop of the predicate; it holds the mutex, as in the next two places. -/
  | predicate
  /-- The pop of the predicate failed: in front of the load of `isDone`. -/
  | failed
  /-- In front of the load of `*this->flags[i]` of the predicate. -/
  | reading
  | asleep
  /-- Woken up, in front of taking the mutex again. -/
  | woken
  | exited
  deriving DecidableEq, Repr

/-- A worker thread, with the flag that was made for it. -/
structure Worker where
  index : ℕ
  pc : WorkerPc
  flag : Bool := false
  detached : Bool := false
  deriving DecidableEq, Repr

/-- Where the thread is that resizes and stops the pool. -/
inductive Control
  | idle
  /-- In `threads.resize(nThreads)` or `flags.resize(nThreads)`, which move the vectors. -/
  | reallocating (nThreads : ℕ)
  /-- In the loop of `resize` that makes threads. -/
  | growing (i nThreads : ℕ)
  /-- In the loop of `resize` that sets flags and detaches threads. -/
  | shrinking (i nThreads : ℕ)
  /-- In front of `cv.notify_all()` of `resize`. -/
  | shrunk (nThreads : ℕ)
  /-- In front of the shortening of the vectors. -/
  | truncating (nThreads : ℕ)
  /-- In the loop of `stop(false)` that sets flags. -/
  | raising (i : ℕ)
  /-- In `clear_task_queue()` of `stop(false)`. -/
  | discarding
  /-- In front of `cv.notify_all()` of `stop`. -/
  | stopping
  /-- In the loop of `stop` that joins threads. -/
  | joining (i : ℕ)
  /-- In the last `clear_task_queue()` of `stop`. -/
  | clearing
  deriving DecidableEq, Repr

/-- The class `thread_pool` with its workers and its callers. The last five members are history. -/
structure ThreadPool where
  taskQue : LockQueue ℕ := []
  threads : List (Option ℕ)
  flags : List (Option ℕ)
  /-- What both vectors have room for without being moved. -/
  capacity : ℕ
  isStop : Bool := false
  isDone : Bool := false
  mutex : Option ℕ := none
  workers : ℕ → Worker
  created : ℕ
  control : Control := .idle
  /-- The number of tasks pushed. -/
  next : ℕ := 0
  /-- The tasks whose push is between its enqueue and its notify. -/
  pending : List ℕ := []
  /-- The tasks that left the queue, in order, with the worker that took them. -/
  taken : List (ℕ × Option ℕ) := []
  /-- The tasks that a detached worker took. -/
  strays : List ℕ := []
  /-- The tasks whose push was complete when `stop(true)` was called. -/
  due : List ℕ := []

/-- A step of the pool. -/
inductive PoolEvent
  /-- `push` enqueues a task. -/
  | push
  /-- `push` takes the mutex and notifies: the sleeper `k` is woken, if there is one. -/
  | notify (task : ℕ) (k : Option ℕ)
  /-- A worker takes its next step. -/
  | worker (j : ℕ)
  /-- A worker wakes up by itself. -/
  | spurious (j : ℕ)
  | resize (nThreads : ℕ)
  | stop (isWait : Bool)
  /-- The thread in `resize` or `stop` takes its next step. -/
  | control
  deriving DecidableEq, Repr

namespace ThreadPool

/-- `thread_pool(nThreads)`: the workers are there, and none has been scheduled. -/
def init (nThreads : ℕ) : ThreadPool where
  threads := (List.range nThreads).map some
  flags := (List.range nThreads).map some
  capacity := nThreads
  workers j := { index := j, pc := if j < nThreads then .popping else .exited }
  created := nThreads

variable (s : ThreadPool)

/-- `size()`. -/
def size : ℕ := s.threads.length

/-! ## Workers -/

/-- Replace a worker. -/
def setWorker (j : ℕ) (w : Worker) : ThreadPool :=
  { s with workers := Function.update s.workers j w }

/-- A worker goes on. -/
def goto (j : ℕ) (pc : WorkerPc) : ThreadPool := s.setWorker j { s.workers j with pc := pc }

/-- A worker has taken a task from the queue. -/
def take (j task : ℕ) (rest : LockQueue ℕ) : ThreadPool :=
  { s with
    taskQue := rest
    taken := s.taken ++ [(task, some j)]
    strays := if (s.workers j).detached then s.strays ++ [task] else s.strays }

/-- `this->flags[i]`: undefined where there is no flag, and while the vector is moved. -/
def flagAt (i : ℕ) : Option ℕ :=
  match s.control with
  | .reallocating _ => none
  | _ => s.flags[i]?.join

/-- `*this->flags[i]`. -/
def readFlag (i : ℕ) : Option Bool := (s.flagAt i).map fun k => (s.workers k).flag

/-- The next step of a worker. -/
def workerStep (j : ℕ) : Option ThreadPool :=
  match (s.workers j).pc with
  | .popping =>
      match s.taskQue.pop with
      | some (task, rest) => some ((s.take j task rest).goto j (.running task))
      | none => some (s.goto j .locking)
  | .running _ => some (s.goto j .checking)
  | .checking =>
      (s.readFlag (s.workers j).index).map fun b => s.goto j (if b then .exited else .popping)
  | .locking => if s.mutex = none then some { s.goto j .predicate with mutex := some j } else none
  | .predicate =>
      match s.taskQue.pop with
      | some (task, rest) =>
          some { (s.take j task rest).goto j (.running task) with mutex := none }
      | none => some (s.goto j .failed)
  | .failed =>
      some (if s.isDone then { s.goto j .exited with mutex := none } else s.goto j .reading)
  | .reading =>
      (s.readFlag (s.workers j).index).map fun b =>
        { s.goto j (if b then .exited else .asleep) with mutex := none }
  | .asleep => none
  | .woken => if s.mutex = none then some { s.goto j .predicate with mutex := some j } else none
  | .exited => none

/-! ## Callers -/

/-- `taskQue.push(...)` of `push`. -/
def push : ThreadPool :=
  { s with
    taskQue := s.taskQue.push s.next
    next := s.next + 1
    pending := s.pending ++ [s.next] }

/-- `Lock lock(mutex); cv.notify_one();` of `push`. -/
def notifyOne (task : ℕ) (k : Option ℕ) : ThreadPool :=
  match k with
  | none => { s with pending := s.pending.erase task }
  | some k => { s.goto k .woken with pending := s.pending.erase task }

/-- `cv.notify_all()`. -/
def notifyAll : ThreadPool :=
  { s with workers := fun k =>
      if (s.workers k).pc = .asleep then { s.workers k with pc := .woken } else s.workers k }

/-- One round of `clear_task_queue()`; `none` where the queue is empty. -/
def discard : Option ThreadPool :=
  match s.taskQue.pop with
  | some (task, rest) => some { s with taskQue := rest, taken := s.taken ++ [(task, none)] }
  | none => none

/-- The vectors after `threads.resize(nThreads); flags.resize(nThreads);`. -/
def grow (nThreads : ℕ) : ThreadPool :=
  { s with
    threads := s.threads ++ List.replicate (nThreads - s.size) none
    flags := s.flags ++ List.replicate (nThreads - s.flags.length) none
    capacity := max s.capacity nThreads
    control := .growing s.size nThreads }

/-- `resize(nThreads)` up to its loop, or into the reallocation of the vectors. -/
def resize (nThreads : ℕ) : ThreadPool :=
  if s.isStop = false ∧ s.isDone = false then
    if s.size ≤ nThreads then
      if nThreads ≤ s.capacity then s.grow nThreads
      else { s with control := .reallocating nThreads }
    else { s with control := .shrinking nThreads nThreads }
  else s

/-- `stop(isWait)` up to its loop. -/
def stop (isWait : Bool) : ThreadPool :=
  if isWait = false then
    if s.isStop then s else { s with isStop := true, control := .raising 0 }
  else if s.isDone ∨ s.isStop then s
  else
    { s with
      isDone := true
      due := (List.range s.next).filter (· ∉ s.pending)
      control := .stopping }

/-- `flags[i] = ...; set_thread(i);`. -/
def setThread (i : ℕ) : ThreadPool :=
  { s.setWorker s.created { index := i, pc := .popping } with
    threads := s.threads.set i (some s.created)
    flags := s.flags.set i (some s.created)
    created := s.created + 1 }

/-- `*flags[i] = true;`. -/
def raise (k : ℕ) : ThreadPool := s.setWorker k { s.workers k with flag := true }

/-- `threads[i]->detach();`. -/
def detach (k : ℕ) : ThreadPool := s.setWorker k { s.workers k with detached := true }

/-- The next step of the thread in `resize` or `stop`. -/
def controlStep : Option ThreadPool :=
  match s.control with
  | .idle => none
  | .reallocating nThreads => some (s.grow nThreads)
  | .growing i nThreads =>
      some (if i < nThreads then { s.setThread i with control := .growing (i + 1) nThreads }
        else { s with control := .idle })
  | .shrinking i nThreads =>
      if i < s.size then
        match s.flags[i]?, s.threads[i]? with
        | some (some k), some (some k') =>
            some { (s.raise k).detach k' with control := .shrinking (i + 1) nThreads }
        | _, _ => none
      else some { s with control := .shrunk nThreads }
  | .shrunk nThreads =>
      if s.mutex = none then some { s.notifyAll with control := .truncating nThreads } else none
  | .truncating nThreads =>
      some { s with
        threads := s.threads.take nThreads, flags := s.flags.take nThreads, control := .idle }
  | .raising i =>
      if i < s.size then
        match s.flags[i]? with
        | some (some k) => some { s.raise k with control := .raising (i + 1) }
        | _ => none
      else some { s with control := .discarding }
  | .discarding => some (s.discard.getD { s with control := .stopping })
  | .stopping =>
      if s.mutex = none then some { s.notifyAll with control := .joining 0 } else none
  | .joining i =>
      if i < s.size then
        match s.threads[i]? with
        | some (some k) =>
            if (s.workers k).pc = .exited then some { s with control := .joining (i + 1) } else none
        | _ => none
      else some { s with control := .clearing }
  | .clearing => some (s.discard.getD { s with threads := [], flags := [], control := .idle })

/-! ## The system -/

/-- Whom `notify_one` may wake: one sleeper, or nobody where nobody sleeps. -/
def Wakes : Option ℕ → Prop
  | none => ∀ k < s.created, (s.workers k).pc ≠ .asleep
  | some k => (s.workers k).pc = .asleep

instance decidableWakes : DecidablePred s.Wakes
  | none => inferInstanceAs (Decidable (∀ k < s.created, (s.workers k).pc ≠ .asleep))
  | some k => inferInstanceAs (Decidable ((s.workers k).pc = .asleep))

/-- A step of the pool, where it is possible. -/
def step : PoolEvent → Option ThreadPool
  | .push => some s.push
  | .notify task k =>
      if task ∈ s.pending ∧ s.mutex = none ∧ s.Wakes k then some (s.notifyOne task k) else none
  | .worker j => s.workerStep j
  | .spurious j => if (s.workers j).pc = .asleep then some (s.goto j .woken) else none
  | .resize nThreads => if s.control = .idle then some (s.resize nThreads) else none
  | .stop isWait => if s.control = .idle then some (s.stop isWait) else none
  | .control => s.controlStep

/-- The pool of `nThreads` workers as a transition system. -/
def lts (nThreads : ℕ) : Lts ThreadPool PoolEvent where
  init s := s = init nThreads
  step s e t := s.step e = some t

variable {s} {t : ThreadPool} {j k : ℕ} {pc : WorkerPc}

/-! ## What a worker that goes on changes -/

/-- Where the workers are when one of them has moved. -/
theorem pc_goto : ((s.goto j pc).workers k).pc = if k = j then pc else (s.workers k).pc := by
  by_cases h : k = j
  · subst h
    simp [goto, setWorker]
  · simp [goto, setWorker, h]

/-- That one is where it moved to. -/
@[simp] theorem pc_goto_self : ((s.goto j pc).workers j).pc = pc := by simp [pc_goto]

/-- The others are where they were. -/
theorem pc_goto_of_ne (h : k ≠ j) : ((s.goto j pc).workers k).pc = (s.workers k).pc := by
  rw [pc_goto, if_neg h]

/-- A move leaves the indices alone. -/
@[simp] theorem index_goto : ((s.goto j pc).workers k).index = (s.workers k).index := by
  by_cases h : k = j
  · subst h
    simp [goto, setWorker]
  · simp [goto, setWorker, h]

/-- A move leaves the flags alone. -/
@[simp] theorem flag_goto : ((s.goto j pc).workers k).flag = (s.workers k).flag := by
  by_cases h : k = j
  · subst h
    simp [goto, setWorker]
  · simp [goto, setWorker, h]

/-- A move leaves alone which workers are detached. -/
@[simp] theorem detached_goto : ((s.goto j pc).workers k).detached = (s.workers k).detached := by
  by_cases h : k = j
  · subst h
    simp [goto, setWorker]
  · simp [goto, setWorker, h]

/-! ## Every way in which a worker steps -/

/-- The next step of a worker, case by case. -/
inductive WorkerStep (s : ThreadPool) (j : ℕ) : ThreadPool → Prop
  | pop (task : ℕ) (rest : LockQueue ℕ) : (s.workers j).pc = .popping → s.taskQue = task :: rest →
      WorkerStep s j ((s.take j task rest).goto j (.running task))
  | popFailed : (s.workers j).pc = .popping → s.taskQue = [] → WorkerStep s j (s.goto j .locking)
  | ran (task : ℕ) : (s.workers j).pc = .running task → WorkerStep s j (s.goto j .checking)
  | checked (b : Bool) : (s.workers j).pc = .checking →
      s.readFlag (s.workers j).index = some b →
      WorkerStep s j (s.goto j (if b then .exited else .popping))
  | locked : (s.workers j).pc = .locking ∨ (s.workers j).pc = .woken → s.mutex = none →
      WorkerStep s j { s.goto j .predicate with mutex := some j }
  | found (task : ℕ) (rest : LockQueue ℕ) : (s.workers j).pc = .predicate →
      s.taskQue = task :: rest →
      WorkerStep s j { (s.take j task rest).goto j (.running task) with mutex := none }
  | notFound : (s.workers j).pc = .predicate → s.taskQue = [] → WorkerStep s j (s.goto j .failed)
  | done : (s.workers j).pc = .failed → s.isDone = true →
      WorkerStep s j { s.goto j .exited with mutex := none }
  | notDone : (s.workers j).pc = .failed → s.isDone = false → WorkerStep s j (s.goto j .reading)
  | read (b : Bool) : (s.workers j).pc = .reading → s.readFlag (s.workers j).index = some b →
      WorkerStep s j { s.goto j (if b then .exited else .asleep) with mutex := none }

/-- **What a step of a worker can be**. -/
theorem workerStep_cases (h : s.workerStep j = some t) : WorkerStep s j t := by
  unfold workerStep at h
  split at h
  · next hpc =>
      split at h
      · next task rest hpop =>
          obtain rfl := Option.some.inj h
          exact .pop task rest hpc (LockQueue.pop_eq_some.mp hpop)
      · next hpop =>
          obtain rfl := Option.some.inj h
          exact .popFailed hpc (LockQueue.pop_eq_none.mp hpop)
  · next task hpc =>
      obtain rfl := Option.some.inj h
      exact .ran task hpc
  · next hpc =>
      obtain ⟨b, hb, rfl⟩ := Option.map_eq_some_iff.mp h
      exact .checked b hpc hb
  · next hpc =>
      obtain ⟨hfree, ht⟩ := Option.ite_none_right_eq_some.mp h
      obtain rfl := Option.some.inj ht
      exact .locked (.inl hpc) hfree
  · next hpc =>
      split at h
      · next task rest hpop =>
          obtain rfl := Option.some.inj h
          exact .found task rest hpc (LockQueue.pop_eq_some.mp hpop)
      · next hpop =>
          obtain rfl := Option.some.inj h
          exact .notFound hpc (LockQueue.pop_eq_none.mp hpop)
  · next hpc =>
      obtain rfl := Option.some.inj h
      cases hdone : s.isDone with
      | true => exact .done hpc hdone
      | false => exact .notDone hpc hdone
  · next hpc =>
      obtain ⟨b, hb, rfl⟩ := Option.map_eq_some_iff.mp h
      exact .read b hpc hb
  · cases h
  · next hpc =>
      obtain ⟨hfree, ht⟩ := Option.ite_none_right_eq_some.mp h
      obtain rfl := Option.some.inj ht
      exact .locked (.inr hpc) hfree
  · cases h

/-! ## Every way in which `resize` and `stop` step -/

/-- The next step of the thread in `resize` or `stop`, case by case. -/
inductive ControlStep (s : ThreadPool) : ThreadPool → Prop
  | reallocated (n : ℕ) : s.control = .reallocating n → ControlStep s (s.grow n)
  | made (i n : ℕ) : s.control = .growing i n → i < n →
      ControlStep s { s.setThread i with control := .growing (i + 1) n }
  | grown (i n : ℕ) : s.control = .growing i n → ¬i < n → ControlStep s { s with control := .idle }
  | detached (i n k k' : ℕ) : s.control = .shrinking i n → i < s.size → s.flags[i]? = some (some k) →
      s.threads[i]? = some (some k') →
      ControlStep s { (s.raise k).detach k' with control := .shrinking (i + 1) n }
  | shrunk (i n : ℕ) : s.control = .shrinking i n → ¬i < s.size →
      ControlStep s { s with control := .shrunk n }
  | notified (n : ℕ) : s.control = .shrunk n → s.mutex = none →
      ControlStep s { s.notifyAll with control := .truncating n }
  | truncated (n : ℕ) : s.control = .truncating n →
      ControlStep s { s with threads := s.threads.take n, flags := s.flags.take n, control := .idle }
  | raised (i k : ℕ) : s.control = .raising i → i < s.size → s.flags[i]? = some (some k) →
      ControlStep s { s.raise k with control := .raising (i + 1) }
  | allRaised (i : ℕ) : s.control = .raising i → ¬i < s.size →
      ControlStep s { s with control := .discarding }
  | discarded (task : ℕ) (rest : LockQueue ℕ) : s.control = .discarding ∨ s.control = .clearing →
      s.taskQue = task :: rest →
      ControlStep s { s with taskQue := rest, taken := s.taken ++ [(task, none)] }
  | allDiscarded : s.control = .discarding → s.taskQue = [] →
      ControlStep s { s with control := .stopping }
  | woken : s.control = .stopping → s.mutex = none →
      ControlStep s { s.notifyAll with control := .joining 0 }
  | joined (i k : ℕ) : s.control = .joining i → i < s.size → s.threads[i]? = some (some k) →
      (s.workers k).pc = .exited → ControlStep s { s with control := .joining (i + 1) }
  | allJoined (i : ℕ) : s.control = .joining i → ¬i < s.size →
      ControlStep s { s with control := .clearing }
  | cleared : s.control = .clearing → s.taskQue = [] →
      ControlStep s { s with threads := [], flags := [], control := .idle }

/-- **What a step of a call that changes the pool can be**. -/
theorem controlStep_cases (h : s.controlStep = some t) : ControlStep s t := by
  have hdiscard : s.discard.isSome → ∃ task rest, s.taskQue = task :: rest ∧
      s.discard = some { s with taskQue := rest, taken := s.taken ++ [(task, none)] } := by
    unfold discard
    split
    · next task rest hpop => exact fun _ => ⟨task, rest, LockQueue.pop_eq_some.mp hpop, rfl⟩
    · exact nofun
  have hempty : s.discard = none → s.taskQue = [] := by
    unfold discard
    split
    · exact nofun
    · next hpop => exact fun _ => LockQueue.pop_eq_none.mp hpop
  unfold controlStep at h
  split at h
  · cases h
  · next n hc =>
      obtain rfl := Option.some.inj h
      exact .reallocated n hc
  · next i n hc =>
      obtain rfl := Option.some.inj h
      by_cases hi : i < n
      · rw [if_pos hi]
        exact .made i n hc hi
      · rw [if_neg hi]
        exact .grown i n hc hi
  · next i n hc =>
      split at h
      · next hi =>
          split at h
          · next k k' hf ht =>
              obtain rfl := Option.some.inj h
              exact .detached i n k k' hc hi hf ht
          · cases h
      · next hi =>
          obtain rfl := Option.some.inj h
          exact .shrunk i n hc hi
  · next n hc =>
      obtain ⟨hfree, ht⟩ := Option.ite_none_right_eq_some.mp h
      obtain rfl := Option.some.inj ht
      exact .notified n hc hfree
  · next n hc =>
      obtain rfl := Option.some.inj h
      exact .truncated n hc
  · next i hc =>
      split at h
      · next hi =>
          split at h
          · next k hf =>
              obtain rfl := Option.some.inj h
              exact .raised i k hc hi hf
          · cases h
      · next hi =>
          obtain rfl := Option.some.inj h
          exact .allRaised i hc hi
  · next hc =>
      obtain rfl := Option.some.inj h
      cases hd : s.discard with
      | none => exact .allDiscarded hc (hempty hd)
      | some u =>
          obtain ⟨task, rest, hqueue, hu⟩ := hdiscard (by rw [hd]; rfl)
          obtain rfl := Option.some.inj (hd.symm.trans hu)
          exact .discarded task rest (.inl hc) hqueue
  · next hc =>
      obtain ⟨hfree, ht⟩ := Option.ite_none_right_eq_some.mp h
      obtain rfl := Option.some.inj ht
      exact .woken hc hfree
  · next i hc =>
      split at h
      · next hi =>
          split at h
          · next k hk =>
              obtain ⟨hexited, ht⟩ := Option.ite_none_right_eq_some.mp h
              obtain rfl := Option.some.inj ht
              exact .joined i k hc hi hk hexited
          · cases h
      · next hi =>
          obtain rfl := Option.some.inj h
          exact .allJoined i hc hi
  · next hc =>
      obtain rfl := Option.some.inj h
      cases hd : s.discard with
      | none => exact .cleared hc (hempty hd)
      | some u =>
          obtain ⟨task, rest, hqueue, hu⟩ := hdiscard (by rw [hd]; rfl)
          obtain rfl := Option.some.inj (hd.symm.trans hu)
          exact .discarded task rest (.inr hc) hqueue

/-! ## Every step -/

/-- A step of the pool, case by case. -/
inductive Step (s : ThreadPool) : PoolEvent → ThreadPool → Prop
  | push : Step s .push s.push
  | notify (task : ℕ) (k : Option ℕ) : task ∈ s.pending → s.mutex = none → s.Wakes k →
      Step s (.notify task k) (s.notifyOne task k)
  | worker (t : ThreadPool) (j : ℕ) : WorkerStep s j t → Step s (.worker j) t
  | spurious (j : ℕ) : (s.workers j).pc = .asleep → Step s (.spurious j) (s.goto j .woken)
  | resize (nThreads : ℕ) : s.control = .idle → Step s (.resize nThreads) (s.resize nThreads)
  | stop (isWait : Bool) : s.control = .idle → Step s (.stop isWait) (s.stop isWait)
  | control (t : ThreadPool) : ControlStep s t → Step s .control t

/-- **What a step can be**. -/
theorem step_cases {e : PoolEvent} (h : s.step e = some t) : Step s e t := by
  cases e with
  | push =>
      obtain rfl := Option.some.inj h
      exact .push
  | notify task k =>
      obtain ⟨⟨hpending, hfree, hk⟩, ht⟩ := Option.ite_none_right_eq_some.mp h
      obtain rfl := Option.some.inj ht
      exact .notify task k hpending hfree hk
  | worker j => exact .worker t j (workerStep_cases h)
  | spurious j =>
      obtain ⟨hj, ht⟩ := Option.ite_none_right_eq_some.mp h
      obtain rfl := Option.some.inj ht
      exact .spurious j hj
  | resize nThreads =>
      obtain ⟨hidle, ht⟩ := Option.ite_none_right_eq_some.mp h
      obtain rfl := Option.some.inj ht
      exact .resize nThreads hidle
  | stop isWait =>
      obtain ⟨hidle, ht⟩ := Option.ite_none_right_eq_some.mp h
      obtain rfl := Option.some.inj ht
      exact .stop isWait hidle
  | control => exact .control t (controlStep_cases h)

/-! ## The queue and the mutex -/

/-- The places in which a worker holds the mutex. -/
def Holds (pc : WorkerPc) : Prop := pc = .predicate ∨ pc = .failed ∨ pc = .reading

/-- The invariant of the queue and the mutex. -/
structure Sound (s : ThreadPool) : Prop where
  /-- The tasks leave the queue in the order of the pushes. -/
  order : s.taken.map Prod.fst ++ s.taskQue = List.range s.next
  pending : ∀ task ∈ s.pending, task < s.next
  absent : ∀ j, s.created ≤ j → (s.workers j).pc = .exited
  holder : ∀ j, Holds (s.workers j).pc ↔ s.mutex = some j
  /-- What came after the failed pop of a predicate has not been announced. -/
  late : ∀ j, (s.workers j).pc = .failed ∨ (s.workers j).pc = .reading →
    ∀ task ∈ s.taskQue, task ∈ s.pending
  /-- What came while all workers sleep has not been announced. -/
  unheard : 0 < s.created → (∀ j < s.created, (s.workers j).pc = .asleep) →
    ∀ task ∈ s.taskQue, task ∈ s.pending

/-- The pool that is being made is sound. -/
theorem sound_init (n : ℕ) : (init n).Sound where
  order := rfl
  pending _ h := by cases h
  absent j h := if_neg (Nat.not_lt.mpr h)
  holder j := by
    have hpc : ((init n).workers j).pc = .popping ∨ ((init n).workers j).pc = .exited := by
      simp only [init]
      split <;> simp
    refine iff_of_false ?_ nofun
    rintro (h | h | h) <;> simp [h] at hpc
  late _ _ _ h := by cases h
  unheard _ _ _ h := by cases h

/-- The places in which a worker says that the queue was empty. -/
def Claims (pc : WorkerPc) : Prop := pc = .failed ∨ pc = .reading ∨ pc = .asleep

/-- **Frame rule.** A step that takes tasks from the front of the queue, if any, and moves workers
that have not exited to places that claim nothing, or claim what is so, keeps the invariant. -/
theorem Sound.of_frame (h : s.Sound) (hcreated : t.created = s.created) (hnext : t.next = s.next)
    (hpending : t.pending = s.pending)
    (horder : t.taken.map Prod.fst ++ t.taskQue = s.taken.map Prod.fst ++ s.taskQue)
    (hrest : ∀ task ∈ t.taskQue, task ∈ s.taskQue)
    (hholder : ∀ k, Holds (t.workers k).pc ↔ t.mutex = some k)
    (hpc : ∀ k, (t.workers k).pc = (s.workers k).pc ∨ (s.workers k).pc ≠ .exited ∧
      (Claims (t.workers k).pc → ∀ task ∈ t.taskQue, task ∈ s.pending)) : t.Sound where
  order := by rw [horder, hnext, h.order]
  pending := by
    rw [hpending, hnext]
    exact h.pending
  absent k hk := by
    rw [hcreated] at hk
    rcases hpc k with heq | ⟨hne, -⟩
    · rw [heq, h.absent k hk]
    · exact absurd (h.absent k hk) hne
  holder := hholder
  late k hk task htask := by
    rw [hpending]
    rcases hpc k with heq | ⟨-, hclaim⟩
    · rw [heq] at hk
      exact h.late k hk task (hrest task htask)
    · exact hclaim (hk.imp id .inl) task htask
  unheard hpos hall task htask := by
    rw [hcreated] at hpos hall
    rw [hpending]
    by_cases hslept : ∀ k < s.created, (s.workers k).pc = .asleep
    · exact h.unheard hpos hslept task (hrest task htask)
    · -- a worker that went to sleep in this step
      push Not at hslept
      obtain ⟨k, hk, hne⟩ := hslept
      rcases hpc k with heq | ⟨-, hclaim⟩
      · exact absurd (heq ▸ hall k hk) hne
      · exact hclaim (.inr (.inr (hall k hk))) task htask

/-- A step that moves no worker and does not touch the queue. -/
theorem Sound.of_same (h : s.Sound) (hcreated : t.created = s.created) (hnext : t.next = s.next)
    (hpending : t.pending = s.pending) (htaken : t.taken = s.taken) (hqueue : t.taskQue = s.taskQue)
    (hmutex : t.mutex = s.mutex) (hpc : ∀ k, (t.workers k).pc = (s.workers k).pc) : t.Sound :=
  h.of_frame hcreated hnext hpending (by rw [htaken, hqueue]) (fun _ htask => hqueue ▸ htask)
    (fun k => by rw [hpc k, hmutex]; exact h.holder k) fun k => .inl (hpc k)

/-! ### The mutex after a worker went on -/

/-- A move that neither takes nor gives up the mutex. -/
theorem holder_goto_same (h : s.Sound) (hpc : Holds pc ↔ Holds (s.workers j).pc) (k : ℕ) :
    Holds ((s.goto j pc).workers k).pc ↔ s.mutex = some k := by
  rw [pc_goto]
  by_cases hk : k = j
  · subst hk
    rw [if_pos rfl, hpc]
    exact h.holder k
  · rw [if_neg hk]
    exact h.holder k

/-- A move that takes the mutex, which is free. -/
theorem holder_goto_lock (h : s.Sound) (hfree : s.mutex = none) (hpc : Holds pc) (k : ℕ) :
    Holds ((s.goto j pc).workers k).pc ↔ some j = some k := by
  rw [pc_goto]
  by_cases hk : k = j
  · subst hk
    rw [if_pos rfl]
    exact iff_of_true hpc rfl
  · rw [if_neg hk, h.holder k, hfree]
    exact iff_of_false nofun fun he => hk (Option.some.inj he).symm

/-- A move that gives up the mutex. -/
theorem holder_goto_unlock (h : s.Sound) (hj : Holds (s.workers j).pc) (hpc : ¬Holds pc) (k : ℕ) :
    Holds ((s.goto j pc).workers k).pc ↔ none = some k := by
  refine iff_of_false ?_ nofun
  rw [pc_goto]
  by_cases hk : k = j
  · rw [if_pos hk]
    exact hpc
  · rw [if_neg hk, h.holder k, (h.holder j).mp hj]
    exact fun he => hk (Option.some.inj he).symm

/-- Only the worker that went on is at another place. -/
theorem pc_goto_or (hj : (s.workers j).pc ≠ .exited) {P : Prop} (hP : Claims pc → P) (k : ℕ) :
    ((s.goto j pc).workers k).pc = (s.workers k).pc ∨
      (s.workers k).pc ≠ .exited ∧ (Claims ((s.goto j pc).workers k).pc → P) := by
  by_cases hk : k = j
  · subst hk
    rw [pc_goto_self]
    exact .inr ⟨hj, hP⟩
  · exact .inl (pc_goto_of_ne hk)

/-- **A worker's step** keeps the invariant. -/
theorem Sound.worker (h : s.Sound) (hs : WorkerStep s j t) : t.Sound := by
  cases hs with
  | pop task rest hpc hqueue =>
      have hj : (s.workers j).pc ≠ .exited := by simp [hpc]
      have hholds : Holds (.running task) ↔ Holds (s.workers j).pc := by simp [Holds, hpc]
      have hholder := holder_goto_same (s := s) h hholds
      refine h.of_frame rfl rfl rfl ?_ ?_ hholder (pc_goto_or (s := s) hj (by simp [Claims]))
      · simp [goto, setWorker, take, hqueue]
      · intro x hx
        rw [hqueue]
        exact List.mem_cons_of_mem _ hx
  | popFailed hpc hqueue =>
      have hj : (s.workers j).pc ≠ .exited := by simp [hpc]
      have hholds : Holds .locking ↔ Holds (s.workers j).pc := by simp [Holds, hpc]
      exact h.of_frame rfl rfl rfl rfl (fun _ hx => hx) (holder_goto_same h hholds)
        (pc_goto_or hj (by simp [Claims]))
  | ran task hpc =>
      have hj : (s.workers j).pc ≠ .exited := by simp [hpc]
      have hholds : Holds .checking ↔ Holds (s.workers j).pc := by simp [Holds, hpc]
      exact h.of_frame rfl rfl rfl rfl (fun _ hx => hx) (holder_goto_same h hholds)
        (pc_goto_or hj (by simp [Claims]))
  | checked b hpc hb =>
      have hj : (s.workers j).pc ≠ .exited := by simp [hpc]
      have hholds : Holds (if b then .exited else .popping) ↔ Holds (s.workers j).pc := by
        cases b <;> simp [Holds, hpc]
      exact h.of_frame rfl rfl rfl rfl (fun _ hx => hx) (holder_goto_same h hholds)
        (pc_goto_or hj (by cases b <;> simp [Claims]))
  | locked hpc hfree =>
      have hj : (s.workers j).pc ≠ .exited := by rcases hpc with hpc | hpc <;> simp [hpc]
      exact h.of_frame rfl rfl rfl rfl (fun _ hx => hx) (holder_goto_lock h hfree (.inl rfl))
        (pc_goto_or hj (by simp [Claims]))
  | found task rest hpc hqueue =>
      have hj : (s.workers j).pc ≠ .exited := by simp [hpc]
      have hholds : ¬Holds (.running task) := by simp [Holds]
      have hholder := holder_goto_unlock (s := s) h (.inl hpc) hholds
      refine h.of_frame rfl rfl rfl ?_ ?_ hholder (pc_goto_or (s := s) hj (by simp [Claims]))
      · simp [goto, setWorker, take, hqueue]
      · intro x hx
        rw [hqueue]
        exact List.mem_cons_of_mem _ hx
  | notFound hpc hqueue =>
      have hj : (s.workers j).pc ≠ .exited := by simp [hpc]
      have hholds : Holds .failed ↔ Holds (s.workers j).pc := by simp [Holds, hpc]
      refine h.of_frame rfl rfl rfl rfl (fun _ hx => hx) (holder_goto_same h hholds)
        (pc_goto_or hj fun _ x hx => ?_)
      -- the queue is empty
      rw [show (s.goto j .failed).taskQue = [] from hqueue] at hx
      cases hx
  | done hpc hdone =>
      have hj : (s.workers j).pc ≠ .exited := by simp [hpc]
      exact h.of_frame rfl rfl rfl rfl (fun _ hx => hx)
        (holder_goto_unlock h (.inr (.inl hpc)) (by simp [Holds])) (pc_goto_or hj (by simp [Claims]))
  | notDone hpc hdone =>
      have hj : (s.workers j).pc ≠ .exited := by simp [hpc]
      have hholds : Holds .reading ↔ Holds (s.workers j).pc := by simp [Holds, hpc]
      exact h.of_frame rfl rfl rfl rfl (fun _ hx => hx) (holder_goto_same h hholds)
        (pc_goto_or hj fun _ => h.late j (.inl hpc))
  | read b hpc hb =>
      have hj : (s.workers j).pc ≠ .exited := by simp [hpc]
      have hholds : ¬Holds (if b then .exited else .asleep) := by cases b <;> simp [Holds]
      exact h.of_frame rfl rfl rfl rfl (fun _ hx => hx)
        (holder_goto_unlock h (.inr (.inr hpc)) hholds) (pc_goto_or hj fun _ => h.late j (.inr hpc))

/-- Waking all workers moves the sleeping ones. -/
theorem pc_notifyAll : (s.notifyAll.workers k).pc =
    if (s.workers k).pc = .asleep then .woken else (s.workers k).pc := by
  simp only [notifyAll]
  split <;> rfl

/-- Waking all sleepers keeps the invariant. -/
theorem Sound.notifyAll (h : s.Sound) : s.notifyAll.Sound := by
  refine h.of_frame rfl rfl rfl rfl (fun _ hx => hx) (fun k => ?_) fun k => ?_
  · rw [pc_notifyAll]
    split
    · next hpc =>
        refine Iff.trans ?_ (h.holder k)
        simp [Holds, hpc]
    · exact h.holder k
  · rw [pc_notifyAll]
    split
    · next hpc => exact .inr ⟨by simp [hpc], by simp [Claims]⟩
    · exact .inl rfl

/-- Raising a flag moves nobody. -/
theorem pc_raise : ((s.raise j).workers k).pc = (s.workers k).pc := by
  by_cases h : k = j
  · subst h
    simp [raise, setWorker]
  · simp [raise, setWorker, h]

/-- Detaching a worker moves nobody. -/
theorem pc_detach : ((s.detach j).workers k).pc = (s.workers k).pc := by
  by_cases h : k = j
  · subst h
    simp [detach, setWorker]
  · simp [detach, setWorker, h]

/-- A new worker keeps the invariant. -/
theorem Sound.setThread (h : s.Sound) (i : ℕ) : (s.setThread i).Sound := by
  have hpc : ∀ k, ((s.setThread i).workers k).pc =
      if k = s.created then .popping else (s.workers k).pc := by
    intro k
    by_cases hk : k = s.created
    · subst hk
      simp [ThreadPool.setThread, setWorker]
    · simp [ThreadPool.setThread, setWorker, hk]
  have hnew : (s.workers s.created).pc = .exited := h.absent _ (Nat.le_refl _)
  constructor
  case order => exact h.order
  case pending => exact h.pending
  case absent =>
    intro k hk
    have hk : s.created + 1 ≤ k := hk
    rw [hpc, if_neg (by omega)]
    exact h.absent k (by omega)
  case holder =>
    intro k
    rw [hpc]
    by_cases hk : k = s.created
    · subst hk
      refine Iff.trans ?_ (h.holder _)
      simp [Holds, hnew]
    · rw [if_neg hk]
      exact h.holder k
  case late =>
    intro k hk
    rw [hpc] at hk
    by_cases hkc : k = s.created
    · simp [hkc] at hk
    · rw [if_neg hkc] at hk
      exact h.late k hk
  case unheard =>
    intro _ hall
    have hasleep := hall s.created (Nat.lt_succ_self _)
    rw [hpc, if_pos rfl] at hasleep
    cases hasleep

/-- **A step of `resize` or `stop`** keeps the invariant. -/
theorem Sound.control (h : s.Sound) (hs : ControlStep s t) : t.Sound := by
  cases hs with
  | made i n hc hi => exact (h.setThread i).of_same rfl rfl rfl rfl rfl rfl fun _ => rfl
  | detached i n k k' hc hi hf ht =>
      exact h.of_same rfl rfl rfl rfl rfl rfl fun _ => pc_detach.trans pc_raise
  | raised i k hc hi hf => exact h.of_same rfl rfl rfl rfl rfl rfl fun _ => pc_raise
  | notified n hc hfree => exact h.notifyAll.of_same rfl rfl rfl rfl rfl rfl fun _ => rfl
  | woken hc hfree => exact h.notifyAll.of_same rfl rfl rfl rfl rfl rfl fun _ => rfl
  | discarded task rest hc hqueue =>
      refine h.of_frame rfl rfl rfl ?_ (fun x hx => ?_) h.holder fun _ => .inl rfl
      · simp [hqueue]
      · rw [hqueue]
        exact List.mem_cons_of_mem _ hx
  | reallocated | grown | shrunk | truncated | allRaised | allDiscarded | joined | allJoined
  | cleared =>
      exact h.of_same rfl rfl rfl rfl rfl rfl fun _ => rfl

/-- An enqueued task has not been announced. -/
theorem Sound.push (h : s.Sound) : s.push.Sound where
  order := by
    change s.taken.map Prod.fst ++ (s.taskQue ++ [s.next]) = List.range (s.next + 1)
    rw [← List.append_assoc, h.order, List.range_succ]
  pending := by
    intro x hx
    change x < s.next + 1
    rcases List.mem_append.mp hx with hx | hx
    · exact Nat.lt_succ_of_lt (h.pending x hx)
    · rw [List.mem_singleton.mp hx]
      exact Nat.lt_succ_self _
  absent := h.absent
  holder := h.holder
  late k hk x hx := by
    rcases List.mem_append.mp hx with hx | hx
    · exact List.mem_append_left _ (h.late k hk x hx)
    · exact List.mem_append_right _ hx
  unheard hpos hall x hx := by
    rcases List.mem_append.mp hx with hx | hx
    · exact List.mem_append_left _ (h.unheard hpos hall x hx)
    · exact List.mem_append_right _ hx

/-- No worker is between its failed pop and its sleep while the mutex is free. -/
theorem Sound.not_late (h : s.Sound) (hfree : s.mutex = none) (k : ℕ) :
    ¬((s.workers k).pc = .failed ∨ (s.workers k).pc = .reading) := by
  intro hk
  have hholds := (h.holder k).mp (.inr hk)
  rw [hfree] at hholds
  cases hholds

/-- An announcement that finds no sleeper keeps the invariant. -/
theorem Sound.notifyNone (h : s.Sound) {task : ℕ} (hfree : s.mutex = none)
    (hk : s.Wakes none) : (s.notifyOne task none).Sound where
  order := h.order
  pending x hx := h.pending x (List.mem_of_mem_erase hx)
  absent := h.absent
  holder := h.holder
  late k hk := absurd hk (h.not_late hfree k)
  unheard hpos hall := absurd (hall 0 hpos) (hk 0 hpos)

/-- An announcement that wakes a sleeper keeps the invariant. -/
theorem Sound.notifySome (h : s.Sound) {task : ℕ} (hfree : s.mutex = none)
    (hk : (s.workers k).pc = .asleep) : (s.notifyOne task (some k)).Sound := by
  have hne : (s.workers k).pc ≠ .exited := by simp [hk]
  have hlt : k < s.created := by
    by_contra hge
    exact hne (h.absent k (Nat.le_of_not_lt hge))
  have hpc : ∀ i, ((s.goto k .woken).workers i).pc = if i = k then .woken else (s.workers i).pc :=
    fun i => pc_goto
  have hholds : Holds .woken ↔ Holds (s.workers k).pc := by simp [Holds, hk]
  constructor
  case order => exact h.order
  case pending => exact fun x hx => h.pending x (List.mem_of_mem_erase hx)
  case absent =>
    intro i hi
    change ((s.goto k .woken).workers i).pc = .exited
    have hi : s.created ≤ i := hi
    rw [hpc, if_neg (by omega)]
    exact h.absent i hi
  case holder => exact holder_goto_same (s := s) h hholds
  case late =>
    intro i hi
    change ((s.goto k .woken).workers i).pc = .failed ∨
      ((s.goto k .woken).workers i).pc = .reading at hi
    rw [hpc] at hi
    by_cases hik : i = k
    · simp [hik] at hi
    · rw [if_neg hik] at hi
      exact absurd hi (h.not_late hfree i)
  case unheard =>
    intro _ hall
    have hasleep : ((s.goto k .woken).workers k).pc = .asleep := hall k hlt
    rw [pc_goto_self] at hasleep
    cases hasleep

/-- **Every step** keeps the invariant. -/
theorem Sound.step (h : s.Sound) {e : PoolEvent} (hs : s.step e = some t) : t.Sound := by
  cases step_cases hs with
  | push => exact h.push
  | notify task k hpending hfree hk =>
      cases k with
      | none => exact h.notifyNone hfree hk
      | some k => exact h.notifySome hfree hk
  | worker _ j hstep => exact h.worker hstep
  | spurious j hj =>
      have hne : (s.workers j).pc ≠ .exited := by simp [hj]
      have hholds : Holds .woken ↔ Holds (s.workers j).pc := by simp [Holds, hj]
      exact h.of_frame rfl rfl rfl rfl (fun _ hx => hx) (holder_goto_same h hholds)
        (pc_goto_or hne (by simp [Claims]))
  | resize nThreads hidle =>
      unfold resize
      split
      · split
        · split <;> exact h.of_same rfl rfl rfl rfl rfl rfl fun _ => rfl
        · exact h.of_same rfl rfl rfl rfl rfl rfl fun _ => rfl
      · exact h
  | stop isWait hidle =>
      unfold stop
      split
      · split
        · exact h
        · exact h.of_same rfl rfl rfl rfl rfl rfl fun _ => rfl
      · split
        · exact h
        · exact h.of_same rfl rfl rfl rfl rfl rfl fun _ => rfl
  | control _ hstep => exact h.control hstep

/-- The invariant holds in every run. -/
theorem sound_of_reachable {n : ℕ} (h : (lts n).Reachable s) : s.Sound :=
  h.invariant (fun _ hs => hs ▸ sound_init n) fun _ _ _ hsound hs => hsound.step hs

/-! ## Workers are never taken away -/

/-- A step makes at most one worker. -/
theorem created_mono {e : PoolEvent} (hs : s.step e = some t) : s.created ≤ t.created := by
  cases step_cases hs with
  | push => exact Nat.le_refl _
  | notify task k => cases k <;> exact Nat.le_refl _
  | worker _ j hstep => cases hstep <;> exact Nat.le_refl _
  | spurious => exact Nat.le_refl _
  | resize nThreads =>
      unfold resize
      split
      · split
        · split <;> exact Nat.le_refl _
        · exact Nat.le_refl _
      · exact Nat.le_refl _
  | stop isWait =>
      unfold stop
      split <;> split <;> exact Nat.le_refl _
  | control _ hstep =>
      cases hstep with
      | made => exact Nat.le_succ _
      | _ => exact Nat.le_refl _

/-- The workers of the constructor stay made. -/
theorem le_created {n : ℕ} (h : (lts n).Reachable s) : n ≤ s.created :=
  h.invariant (P := fun s => n ≤ s.created) (fun _ hs => hs ▸ Nat.le_refl n)
    fun _ _ _ hn hs => Nat.le_trans hn (created_mono hs)

/-! ## The result -/

/-- **No lost wake-up.** While a task waits in the queue and no push is between its enqueue and its
notify, not all workers sleep. -/
theorem no_lost_wakeup {n : ℕ} (hn : 0 < n) (h : (lts n).Reachable s) :
    ¬(s.taskQue ≠ [] ∧ (∀ j < s.created, (s.workers j).pc = .asleep) ∧ s.pending = []) := by
  rintro ⟨hqueue, hasleep, hpending⟩
  obtain ⟨task, htask⟩ := List.exists_mem_of_ne_nil _ hqueue
  have hpos : 0 < s.created := Nat.lt_of_lt_of_le hn (le_created h)
  have hin := (sound_of_reachable h).unheard hpos hasleep task htask
  rw [hpending] at hin
  cases hin

/-- The only worker went to sleep, and a push is in front of its notify. -/
theorem no_lost_wakeup_beforeNotify : ∃ s, (lts 1).Reachable s ∧ s.taskQue = [0] ∧ s.pending = [0] ∧
    (s.workers 0).pc = .asleep ∧
    ¬(s.taskQue ≠ [] ∧ (∀ j < s.created, (s.workers j).pc = .asleep) ∧ s.pending = []) := by
  have h₀ : (lts 1).Reachable (init 1) := .of_init rfl
  have h₁ := h₀.step (a := PoolEvent.worker 0) rfl
  have h₂ := h₁.step (a := PoolEvent.worker 0) rfl
  have h₃ := h₂.step (a := PoolEvent.worker 0) rfl
  have h₄ := h₃.step (a := PoolEvent.worker 0) rfl
  have h₅ := h₄.step (a := PoolEvent.worker 0) rfl
  have h₆ := h₅.step (a := PoolEvent.push) rfl
  exact ⟨_, h₆, rfl, rfl, rfl, no_lost_wakeup (by decide) h₆⟩

end ThreadPool

end Libio
