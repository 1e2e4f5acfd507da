import Libio.Core.ThreadPool
import Mathlib.Data.Finset.Card
import Mathlib.Data.Finset.Range

/-! # Resizing the thread pool

The call `resize` with fewer threads raises the flags of the surplus workers, detaches them, wakes
all sleepers, and shortens the vectors at once. A detached worker still reads its flag through the
vector `flags`, and it pops before it reads. With more threads than ever before the call moves the
vectors, without the mutex, while workers read them. `resize_safe` says which callers are safe from
all three; `not_resize_safe` is a run of one that shortens too early, and `grown_not_safe` says that
from every growth with a worker left a run leads to a read of the vector that is moved. -/

namespace Libio

namespace ThreadPool

variable {s t : ThreadPool} {j k : ℕ}

/-! ## Workers after `*flags[i] = true` and `threads[i]->detach()` -/

/-- Raising a flag leaves the indices of the workers alone. -/
@[simp] theorem index_raise : ((s.raise j).workers k).index = (s.workers k).index := by
  by_cases h : k = j
  · subst h
    simp [raise, setWorker]
  · simp [raise, setWorker, h]

/-- It leaves alone which of them are detached. -/
@[simp] theorem detached_raise : ((s.raise j).workers k).detached = (s.workers k).detached := by
  by_cases h : k = j
  · subst h
    simp [raise, setWorker]
  · simp [raise, setWorker, h]

/-- It raises the flag of one worker. -/
theorem flag_raise : ((s.raise j).workers k).flag = if k = j then true else (s.workers k).flag := by
  by_cases h : k = j
  · subst h
    simp [raise, setWorker]
  · simp [raise, setWorker, h]

/-- Detaching a worker leaves the indices alone. -/
@[simp] theorem index_detach : ((s.detach j).workers k).index = (s.workers k).index := by
  by_cases h : k = j
  · subst h
    simp [detach, setWorker]
  · simp [detach, setWorker, h]

/-- It leaves the flags alone. -/
@[simp] theorem flag_detach : ((s.detach j).workers k).flag = (s.workers k).flag := by
  by_cases h : k = j
  · subst h
    simp [detach, setWorker]
  · simp [detach, setWorker, h]

/-- It detaches one worker. -/
theorem detached_detach :
    ((s.detach j).workers k).detached = if k = j then true else (s.workers k).detached := by
  by_cases h : k = j
  · subst h
    simp [detach, setWorker]
  · simp [detach, setWorker, h]

/-! ## Safe states and patient callers -/

/-- The workers that are neither detached nor have exited. -/
def working (s : ThreadPool) : Finset ℕ :=
  (Finset.range s.created).filter fun j =>
    (s.workers j).detached = false ∧ (s.workers j).pc ≠ .exited

/-- What resizing should leave intact. -/
structure Safe (s : ThreadPool) : Prop where
  /-- A worker in front of a read of `flags[i]` finds the flag that was made for it. -/
  read : ∀ j, (s.workers j).pc = .checking ∨ (s.workers j).pc = .reading →
    s.flagAt (s.workers j).index = some j
  /-- That flag makes a detached worker exit. -/
  raised : ∀ j, (s.workers j).detached = true → (s.workers j).flag = true
  /-- No detached worker has taken a task. -/
  strays : s.strays = []
  working : s.working.card ≤ s.size

/-- The places from which a worker tests the queue before it reads its flag. -/
def Ahead : WorkerPc → Prop
  | .popping | .locking | .predicate | .asleep | .woken => True
  | _ => False

/-- A caller that makes the vectors larger than they ever were only when all workers have exited,
detaches a worker in front of a test of the queue only while the queue is empty, pushes only when no
detached worker is in front of one, and shortens the vectors only when all detached workers have
exited. -/
def Patient (s : ThreadPool) : PoolEvent → Prop
  | .resize nThreads => s.isStop = false → s.isDone = false → s.capacity < nThreads →
      ∀ j < s.created, (s.workers j).pc = .exited
  | .push => ∀ j < s.created, (s.workers j).detached = true → ¬Ahead (s.workers j).pc
  | .control =>
      match s.control with
      | .shrinking i _ =>
          ∀ k, s.threads[i]? = some (some k) → Ahead (s.workers k).pc → s.taskQue = []
      | .truncating _ =>
          ∀ j < s.created, (s.workers j).detached = true → (s.workers j).pc = .exited
      | _ => True
  | _ => True

/-! ## The invariant -/

/-- All detached workers have exited. -/
def Settled (s : ThreadPool) : Prop := ∀ j, (s.workers j).detached = true → (s.workers j).pc = .exited

/-- What holds at the places of `resize` and `stop`. -/
def Phase (s : ThreadPool) : Control → Prop
  | .reallocating n => s.Settled ∧ s.size ≤ n ∧ ∀ j, (s.workers j).pc = .exited
  | .growing i n => s.Settled ∧ s.size = n ∧ ∀ i', i ≤ i' → i' < n → s.threads[i']? = some none
  | .shrinking i n => ∀ j, (s.workers j).pc ≠ .exited → (s.workers j).detached = false →
      (s.workers j).index < n ∨ i ≤ (s.workers j).index
  | .shrunk n | .truncating n => ∀ j, (s.workers j).pc ≠ .exited → (s.workers j).detached = false →
      (s.workers j).index < n
  | .joining i => s.Settled ∧ ∀ i' < i, ∀ k, s.threads[i']? = some (some k) →
      (s.workers k).pc = .exited
  | .clearing => s.Settled ∧ ∀ j, (s.workers j).pc = .exited
  | .idle | .raising _ | .discarding | .stopping => s.Settled

/-- The invariant of the vectors. -/
structure Staffed (s : ThreadPool) : Prop where
  same : s.flags = s.threads
  /-- A worker that has not exited has its place in the vectors. -/
  live : ∀ j, (s.workers j).pc ≠ .exited → s.threads[(s.workers j).index]? = some (some j)
  raised : ∀ j, (s.workers j).detached = true → (s.workers j).flag = true
  /-- A detached worker that tests the queue finds it empty. -/
  quiet : ∀ j, (s.workers j).detached = true → Ahead (s.workers j).pc → s.taskQue = []
  strays : s.strays = []
  phase : s.Phase s.control

/-- The place of a worker that has not exited. -/
theorem Staffed.index_lt (h : s.Staffed) (hj : (s.workers j).pc ≠ .exited) :
    (s.workers j).index < s.size := by
  have hlive := h.live j hj
  by_contra hge
  rw [List.getElem?_eq_none (Nat.not_lt.mp hge)] at hlive
  cases hlive

/-- The phases do not depend on what else workers do than exit. -/
theorem Phase.of_stay {c : Control} (h : s.Phase c) (hthreads : t.threads = s.threads)
    (hindex : ∀ k, (t.workers k).index = (s.workers k).index)
    (hdetached : ∀ k, (t.workers k).detached = (s.workers k).detached)
    (hstay : ∀ k, (s.workers k).pc = .exited → (t.workers k).pc = .exited) : t.Phase c := by
  have hsettled : s.Settled → t.Settled := fun hs k hk => hstay k (hs k (hdetached k ▸ hk))
  have hactive : ∀ k, (t.workers k).pc ≠ .exited → (s.workers k).pc ≠ .exited :=
    fun k hk hs => hk (hstay k hs)
  cases c with
  | reallocating n =>
      obtain ⟨hs, hsize, hall⟩ := h
      refine ⟨hsettled hs, ?_, fun k => hstay k (hall k)⟩
      rw [size, hthreads]
      exact hsize
  | growing i n =>
      obtain ⟨hs, hsize, hnone⟩ := h
      refine ⟨hsettled hs, ?_, ?_⟩
      · rw [size, hthreads]
        exact hsize
      · rw [hthreads]
        exact hnone
  | shrinking i n =>
      intro k hk hd
      rw [hindex]
      exact h k (hactive k hk) (hdetached k ▸ hd)
  | shrunk n | truncating n =>
      intro k hk hd
      rw [hindex]
      exact h k (hactive k hk) (hdetached k ▸ hd)
  | joining i =>
      refine ⟨hsettled h.1, ?_⟩
      rw [hthreads]
      exact fun i' hi' k hk => hstay k (h.2 i' hi' k hk)
  | clearing => exact ⟨hsettled h.1, fun k => hstay k (h.2 k)⟩
  | idle | raising | discarding | stopping => exact hsettled h

/-- **Frame rule** for steps that keep the vectors and the place in `resize` or `stop`. -/
theorem Staffed.of_frame (h : s.Staffed) (hthreads : t.threads = s.threads) (hflags : t.flags = s.flags)
    (hcontrol : t.control = s.control) (hstrays : t.strays = s.strays)
    (hindex : ∀ k, (t.workers k).index = (s.workers k).index)
    (hdetached : ∀ k, (t.workers k).detached = (s.workers k).detached)
    (hflag : ∀ k, (t.workers k).flag = (s.workers k).flag)
    (hstay : ∀ k, (s.workers k).pc = .exited → (t.workers k).pc = .exited)
    (hquiet : ∀ k, (s.workers k).detached = true → Ahead (t.workers k).pc → t.taskQue = []) :
    t.Staffed where
  same := by rw [hflags, hthreads, h.same]
  live k hk := by
    rw [hthreads, hindex]
    exact h.live k fun hs => hk (hstay k hs)
  raised k hk := by
    rw [hflag]
    exact h.raised k (hdetached k ▸ hk)
  quiet k hk := hquiet k (hdetached k ▸ hk)
  strays := hstrays.trans h.strays
  phase := by
    rw [hcontrol]
    exact h.phase.of_stay hthreads hindex hdetached hstay

/-- A worker that goes on keeps the invariant, if it does not go back to the queue with its flag
raised. -/
theorem Staffed.goto (h : s.Staffed) {pc : WorkerPc} {m : Option ℕ} (hj : (s.workers j).pc ≠ .exited)
    (hback : (s.workers j).detached = true → Ahead pc → Ahead (s.workers j).pc) :
    Staffed { s.goto j pc with mutex := m } := by
  refine h.of_frame rfl rfl rfl rfl (fun _ => index_goto) (fun _ => detached_goto)
    (fun _ => flag_goto) (fun k hk => ?_) fun k hk hahead => ?_
  · change ((s.goto j pc).workers k).pc = .exited
    rw [pc_goto_of_ne, hk]
    rintro rfl
    exact hj hk
  · change Ahead ((s.goto j pc).workers k).pc at hahead
    rw [pc_goto] at hahead
    split at hahead
    · next hkj =>
        subst hkj
        exact h.quiet k hk (hback hk hahead)
    · exact h.quiet k hk hahead

/-- Only a worker that is not detached takes a task. -/
theorem Staffed.take (h : s.Staffed) {task : ℕ} {rest : LockQueue ℕ}
    (hqueue : s.taskQue = task :: rest) (hj : Ahead (s.workers j).pc) : (s.take j task rest).Staffed := by
  have hno : ∀ k, (s.workers k).detached = true → Ahead (s.workers k).pc → False := by
    intro k hk hahead
    have hempty := h.quiet k hk hahead
    rw [hqueue] at hempty
    cases hempty
  refine h.of_frame rfl rfl rfl ?_ (fun _ => rfl) (fun _ => rfl) (fun _ => rfl) (fun _ hk => hk)
    fun k hk hahead => (hno k hk hahead).elim
  exact if_neg fun hd => hno j hd hj

/-- A worker that has not exited finds the flag that was made for it. -/
theorem Staffed.flagAt (h : s.Staffed) (hj : (s.workers j).pc ≠ .exited) :
    s.flagAt (s.workers j).index = some j := by
  unfold ThreadPool.flagAt
  split
  · next n hc =>
      -- no worker is left while the vectors are moved
      have hphase := h.phase
      rw [hc] at hphase
      exact absurd (hphase.2.2 j) hj
  · rw [h.same, h.live j hj, Option.join_some]

/-- A detached worker that reads its own flag finds it raised. -/
theorem Staffed.readFlag (h : s.Staffed) (hj : (s.workers j).pc ≠ .exited)
    (hd : (s.workers j).detached = true) : s.readFlag (s.workers j).index = some true := by
  unfold ThreadPool.readFlag
  rw [h.flagAt hj, Option.map_some, h.raised j hd]

/-- **A worker's step** keeps the invariant. -/
theorem Staffed.worker (h : s.Staffed) (hs : WorkerStep s j t) : t.Staffed := by
  cases hs with
  | pop task rest hpc hqueue | found task rest hpc hqueue =>
      have hj : ((s.take j task rest).workers j).pc ≠ .exited := by simp [ThreadPool.take, hpc]
      have hahead : Ahead (s.workers j).pc := by
        rw [hpc]
        trivial
      exact (h.take hqueue hahead).goto hj fun _ hback => hback.elim
  | checked b hpc hb | read b hpc hb =>
      have hj : (s.workers j).pc ≠ .exited := by simp [hpc]
      refine h.goto hj fun hd hahead => ?_
      obtain rfl : b = true := Option.some.inj (hb.symm.trans (h.readFlag hj hd))
      exact hahead.elim
  | popFailed hpc | ran _ hpc | notFound hpc | done hpc | notDone hpc =>
      have hj : (s.workers j).pc ≠ .exited := by simp [hpc]
      refine h.goto hj fun _ hahead => ?_
      first
        | exact hahead.elim
        | rw [hpc]; trivial
  | locked hpc =>
      have hj : (s.workers j).pc ≠ .exited := by rcases hpc with hpc | hpc <;> simp [hpc]
      refine h.goto hj fun _ _ => ?_
      rcases hpc with hpc | hpc <;> rw [hpc] <;> trivial

/-- What `notify_all` does to a worker. -/
theorem workers_notifyAll (k : ℕ) : s.notifyAll.workers k = s.workers k ∨
    (s.workers k).pc = .asleep ∧ s.notifyAll.workers k = { s.workers k with pc := .woken } := by
  simp only [notifyAll]
  split
  · next hk => exact .inr ⟨hk, rfl⟩
  · exact .inl rfl

/-- Waking all workers leaves the indices alone. -/
theorem index_notifyAll : (s.notifyAll.workers k).index = (s.workers k).index := by
  rcases workers_notifyAll (s := s) k with hw | ⟨-, hw⟩ <;> rw [hw]

/-- It leaves alone which of them are detached. -/
theorem detached_notifyAll : (s.notifyAll.workers k).detached = (s.workers k).detached := by
  rcases workers_notifyAll (s := s) k with hw | ⟨-, hw⟩ <;> rw [hw]

/-- It leaves the flags alone. -/
theorem flag_notifyAll : (s.notifyAll.workers k).flag = (s.workers k).flag := by
  rcases workers_notifyAll (s := s) k with hw | ⟨-, hw⟩ <;> rw [hw]

/-- It wakes no worker that has exited. -/
theorem exited_notifyAll (hk : (s.workers k).pc = .exited) : (s.notifyAll.workers k).pc = .exited := by
  rw [pc_notifyAll, hk]
  simp

/-- It keeps what holds at the places of `resize` and `stop`. -/
theorem Phase.notifyAll {c : Control} (h : s.Phase c) : s.notifyAll.Phase c :=
  h.of_stay rfl (fun _ => index_notifyAll) (fun _ => detached_notifyAll) fun _ => exited_notifyAll

/-- Waking all sleepers keeps the invariant. -/
theorem Staffed.notifyAll (h : s.Staffed) : s.notifyAll.Staffed := by
  refine h.of_frame rfl rfl rfl rfl (fun _ => index_notifyAll) (fun _ => detached_notifyAll)
    (fun _ => flag_notifyAll) (fun _ => exited_notifyAll) fun k hd hahead => ?_
  rcases workers_notifyAll (s := s) k with hw | ⟨hk, -⟩
  · rw [hw] at hahead
    exact h.quiet k hd hahead
  · refine h.quiet k hd ?_
    rw [hk]
    trivial

/-- An announcement keeps the invariant. -/
theorem Staffed.notifyOne (h : s.Staffed) {task : ℕ} {o : Option ℕ} (ho : s.Wakes o) :
    (s.notifyOne task o).Staffed := by
  have herase : ∀ {u : ThreadPool}, u.Staffed → Staffed { u with pending := u.pending.erase task } :=
    fun hu => hu.of_frame rfl rfl rfl rfl (fun _ => rfl) (fun _ => rfl) (fun _ => rfl) (fun _ hk => hk)
      hu.quiet
  cases o with
  | none => exact herase h
  | some k =>
      have hk : (s.workers k).pc = .asleep := ho
      refine herase (h.goto (m := s.mutex) (by simp [hk]) fun _ _ => ?_)
      rw [hk]
      trivial

/-- A new worker keeps the invariant, where the vectors have a place for it. -/
theorem Staffed.setThread (h : s.Staffed) (hsound : s.Sound) {i n : ℕ} (hi : i < n)
    (hphase : s.Phase (.growing i n)) :
    Staffed { s.setThread i with control := .growing (i + 1) n } := by
  obtain ⟨hsettled, hsize, hnone⟩ := hphase
  have hnew : (s.workers s.created).pc = .exited := hsound.absent _ (Nat.le_refl _)
  have hself : (s.setThread i).workers s.created = { index := i, pc := .popping } := by
    simp [ThreadPool.setThread, setWorker]
  have hother : ∀ k, k ≠ s.created → (s.setThread i).workers k = s.workers k := fun k hk => by
    simp [ThreadPool.setThread, setWorker, hk]
  have hplace : i < s.threads.length := by
    rw [show s.threads.length = n from hsize]
    exact hi
  constructor
  case same =>
    change s.flags.set i _ = s.threads.set i _
    rw [h.same]
  case live =>
    intro k hk
    change (s.threads.set i (some s.created))[((s.setThread i).workers k).index]? = some (some k)
    by_cases hkc : k = s.created
    · subst hkc
      rw [hself, List.getElem?_set_self hplace]
    · have hlive : s.threads[(s.workers k).index]? = some (some k) := by
        refine h.live k ?_
        rw [← hother k hkc]
        exact hk
      rw [hother k hkc, List.getElem?_set_ne ?_, hlive]
      -- the place of a new worker is empty
      intro he
      rw [← he, hnone i (Nat.le_refl i) hi] at hlive
      cases hlive
  case raised =>
    intro k hk
    change ((s.setThread i).workers k).detached = true at hk
    change ((s.setThread i).workers k).flag = true
    by_cases hkc : k = s.created
    · rw [hkc, hself] at hk
      cases hk
    · rw [hother k hkc] at hk ⊢
      exact h.raised k hk
  case quiet =>
    intro k hk hahead
    change ((s.setThread i).workers k).detached = true at hk
    change Ahead ((s.setThread i).workers k).pc at hahead
    by_cases hkc : k = s.created
    · rw [hkc, hself] at hk
      cases hk
    · rw [hother k hkc] at hk hahead
      exact h.quiet k hk hahead
  case strays => exact h.strays
  case phase =>
    refine ⟨fun k hk => ?_, ?_, fun i' hi' hlt => ?_⟩
    · change ((s.setThread i).workers k).detached = true at hk
      change ((s.setThread i).workers k).pc = .exited
      by_cases hkc : k = s.created
      · rw [hkc, hself] at hk
        cases hk
      · rw [hother k hkc] at hk ⊢
        exact hsettled k hk
    · change (s.threads.set i _).length = n
      rw [List.length_set]
      exact hsize
    · change (s.threads.set i _)[i']? = some none
      rw [List.getElem?_set_ne (by omega)]
      exact hnone i' (by omega) hlt

/-- A worker that is detached while it does not find a task. -/
theorem Staffed.detach (h : s.Staffed) {i n : ℕ} (hk : s.threads[i]? = some (some k))
    (hquiet : Ahead (s.workers k).pc → s.taskQue = []) (hphase : s.Phase (.shrinking i n)) :
    Staffed { (s.raise k).detach k with control := .shrinking (i + 1) n } := by
  constructor
  case same => exact h.same
  case live =>
    intro j hj
    change s.threads[(((s.raise k).detach k).workers j).index]? = some (some j)
    change (((s.raise k).detach k).workers j).pc ≠ .exited at hj
    rw [pc_detach, pc_raise] at hj
    rw [index_detach, index_raise]
    exact h.live j hj
  case raised =>
    intro j hj
    change (((s.raise k).detach k).workers j).flag = true
    change (((s.raise k).detach k).workers j).detached = true at hj
    rw [flag_detach, flag_raise]
    rw [detached_detach, detached_raise] at hj
    split
    · rfl
    · next hne => exact h.raised j (by rwa [if_neg hne] at hj)
  case quiet =>
    intro j hj hahead
    change (((s.raise k).detach k).workers j).detached = true at hj
    change Ahead (((s.raise k).detach k).workers j).pc at hahead
    rw [detached_detach, detached_raise] at hj
    rw [pc_detach, pc_raise] at hahead
    by_cases hjk : j = k
    · subst hjk
      exact hquiet hahead
    · rw [if_neg hjk] at hj
      exact h.quiet j hj hahead
  case strays => exact h.strays
  case phase =>
    intro j hj hd
    change (((s.raise k).detach k).workers j).pc ≠ .exited at hj
    change (((s.raise k).detach k).workers j).detached = false at hd
    change (((s.raise k).detach k).workers j).index < n ∨
      i + 1 ≤ (((s.raise k).detach k).workers j).index
    rw [pc_detach, pc_raise] at hj
    rw [detached_detach, detached_raise] at hd
    rw [index_detach, index_raise]
    have hjk : j ≠ k := by
      rintro rfl
      rw [if_pos rfl] at hd
      cases hd
    rw [if_neg hjk] at hd
    refine (hphase j hj hd).imp id fun hle => Nat.lt_of_le_of_ne hle fun he => hjk ?_
    -- the place `i` is that of `k`
    have hlive := h.live j hj
    rw [← he, hk] at hlive
    exact (Option.some.inj (Option.some.inj hlive)).symm

/-- A step of `resize` or `stop` that changes nothing else. -/
theorem Staffed.withControl (h : s.Staffed) {c : Control} (hphase : s.Phase c) :
    Staffed { s with control := c } := { h with phase := hphase }

/-- Raising a flag keeps the invariant. -/
theorem Staffed.raise (h : s.Staffed) {c : Control} (hphase : s.Phase c) :
    Staffed { s.raise k with control := c } where
  same := h.same
  live j hj := by
    change s.threads[((s.raise k).workers j).index]? = some (some j)
    rw [index_raise]
    exact h.live j (pc_raise (s := s) ▸ hj)
  raised j hj := by
    change ((s.raise k).workers j).flag = true
    rw [flag_raise]
    split
    · rfl
    · exact h.raised j (detached_raise (s := s) ▸ hj)
  quiet j hj hahead := h.quiet j (detached_raise (s := s) ▸ hj) (pc_raise (s := s) ▸ hahead)
  strays := h.strays
  phase := hphase.of_stay rfl (fun _ => index_raise) (fun _ => detached_raise) fun _ => pc_raise.trans

/-- Longer vectors have the workers where they were, and no worker in the new places. -/
theorem Staffed.grow (h : s.Staffed) (hsettled : s.Settled) {n : ℕ} (hle : s.size ≤ n) :
    (s.grow n).Staffed := by
  refine { h with same := ?_, live := fun j hj => ?_, phase := ⟨hsettled, ?_, ?_⟩ }
  · change s.flags ++ _ = s.threads ++ _
    rw [h.same, size]
  · change (s.threads ++ _)[(s.workers j).index]? = some (some j)
    rw [List.getElem?_append_left (h.index_lt hj)]
    exact h.live j hj
  · change (s.threads ++ List.replicate (n - s.size) none).length = n
    rw [List.length_append, List.length_replicate, ← size]
    omega
  · intro i hi hlt
    change (s.threads ++ List.replicate (n - s.size) none)[i]? = some none
    have hi : s.threads.length ≤ i := hi
    rw [List.getElem?_append_right hi, List.getElem?_replicate, if_pos]
    rw [size]
    omega

/-- When all places from `n` on have been visited, those who work stand in front of them. -/
theorem Staffed.shrink (h : s.Staffed) {i n : ℕ} (hphase : s.Phase (.shrinking i n))
    (hi : ¬i < s.size) : Staffed { s with control := .shrunk n } := by
  refine h.withControl (c := .shrunk n) fun j hj hd => ?_
  have hplace : (s.workers j).index < s.size := h.index_lt hj
  have hor := hphase j hj hd
  omega

/-- Shorter vectors keep the workers in front, once those that were detached have exited. -/
theorem Staffed.truncate (h : s.Staffed) (hsettled : s.Settled) {n : ℕ}
    (hphase : s.Phase (.truncating n)) :
    Staffed { s with threads := s.threads.take n, flags := s.flags.take n, control := .idle } := by
  refine { h with same := ?_, live := fun j hj => ?_, phase := hsettled }
  · change s.flags.take n = s.threads.take n
    rw [h.same]
  · change (s.threads.take n)[(s.workers j).index]? = some (some j)
    have hj : (s.workers j).pc ≠ .exited := hj
    have hd : (s.workers j).detached = false := by
      cases hd : (s.workers j).detached with
      | true => exact absurd (hsettled j hd) hj
      | false => rfl
    rw [List.getElem?_take_of_lt (hphase j hj hd)]
    exact h.live j hj

/-- A worker that is joined has exited. -/
theorem Staffed.join (h : s.Staffed) {i : ℕ} (hphase : s.Phase (.joining i))
    (hk : s.threads[i]? = some (some k)) (hexited : (s.workers k).pc = .exited) :
    Staffed { s with control := .joining (i + 1) } := by
  refine h.withControl (c := .joining (i + 1)) ⟨hphase.1, fun i' hi' k' hk' => ?_⟩
  rcases Nat.lt_succ_iff_lt_or_eq.mp hi' with hi' | rfl
  · exact hphase.2 i' hi' k' hk'
  · rw [hk] at hk'
    obtain rfl := Option.some.inj (Option.some.inj hk')
    exact hexited

/-- When all have been joined, no worker is left. -/
theorem Staffed.allJoined (h : s.Staffed) {i : ℕ} (hphase : s.Phase (.joining i))
    (hi : ¬i < s.size) : Staffed { s with control := .clearing } := by
  refine h.withControl (c := .clearing) ⟨hphase.1, fun j => ?_⟩
  by_contra hj
  have hplace : (s.workers j).index < s.size := h.index_lt hj
  exact hj (hphase.2 _ (by omega) j (h.live j hj))

/-- Empty vectors are enough when no worker is left. -/
theorem Staffed.clear (h : s.Staffed) (hphase : s.Phase .clearing) :
    Staffed { s with threads := [], flags := [], control := .idle } :=
  { h with
    same := rfl
    live := fun j hj => absurd (hphase.2 j) hj
    phase := hphase.1 }

/-- **A step of `resize` or `stop`** of a patient caller keeps the invariant. -/
theorem Staffed.controlStep (h : s.Staffed) (hsound : s.Sound) (hpatient : Patient s .control)
    (hs : ControlStep s t) : t.Staffed := by
  have hphase := h.phase
  simp only [Patient] at hpatient
  cases hs with
  | reallocated n hc =>
      rw [hc] at hphase
      exact h.grow hphase.1 hphase.2.1
  | made i n hc hi =>
      rw [hc] at hphase
      exact h.setThread hsound hi hphase
  | detached i n k k' hc hi hf ht =>
      rw [hc] at hphase hpatient
      rw [h.same, ht] at hf
      obtain rfl := Option.some.inj (Option.some.inj hf)
      exact h.detach ht (hpatient k' ht) hphase
  | shrunk i n hc hi =>
      rw [hc] at hphase
      exact h.shrink hphase hi
  | notified n hc hfree =>
      rw [hc] at hphase
      have hstay : s.notifyAll.Phase (.shrunk n) := hphase.notifyAll
      exact h.notifyAll.withControl hstay
  | truncated n hc =>
      rw [hc] at hphase hpatient
      have hsettled : s.Settled := fun j hj => by
        by_cases hjc : j < s.created
        · exact hpatient j hjc hj
        · exact hsound.absent j (Nat.le_of_not_lt hjc)
      exact h.truncate hsettled hphase
  | raised i k hc hi hf =>
      rw [hc] at hphase
      exact h.raise (c := .raising (i + 1)) hphase
  | discarded task rest hc hqueue =>
      refine { h with quiet := fun j hj hahead => ?_ }
      have hempty := h.quiet j hj hahead
      rw [hqueue] at hempty
      cases hempty
  | woken hc hfree =>
      rw [hc] at hphase
      have hsettled : s.notifyAll.Phase .stopping := hphase.notifyAll
      exact h.notifyAll.withControl (c := .joining 0) ⟨hsettled, nofun⟩
  | joined i k hc hi hk hexited =>
      rw [hc] at hphase
      exact h.join hphase hk hexited
  | allJoined i hc hi =>
      rw [hc] at hphase
      exact h.allJoined hphase hi
  | cleared hc hqueue =>
      rw [hc] at hphase
      exact h.clear hphase
  | grown i n hc hi =>
      rw [hc] at hphase
      exact h.withControl (c := .idle) hphase.1
  | allRaised i hc hi =>
      rw [hc] at hphase
      exact h.withControl (c := .discarding) hphase
  | allDiscarded hc hqueue =>
      rw [hc] at hphase
      exact h.withControl (c := .stopping) hphase

/-- An idle pool may be resized, to more than ever with no worker left. -/
theorem Staffed.resize (h : s.Staffed) (hsound : s.Sound) (hidle : s.control = .idle) {n : ℕ}
    (hpatient : Patient s (.resize n)) : (s.resize n).Staffed := by
  have hsettled : s.Settled := by
    have hphase := h.phase
    rwa [hidle] at hphase
  unfold ThreadPool.resize
  split
  · next hopen =>
      split
      · next hle =>
          split
          · exact h.grow hsettled hle
          · next hroom =>
              refine h.withControl (c := .reallocating n) ⟨hsettled, hle, fun j => ?_⟩
              by_cases hj : j < s.created
              · exact hpatient hopen.1 hopen.2 (Nat.not_le.mp hroom) j hj
              · exact hsound.absent j (Nat.le_of_not_lt hj)
      · exact h.withControl (c := .shrinking n n) fun _ _ _ => Nat.lt_or_ge _ _
  · exact h

/-- An idle pool may be stopped. -/
theorem Staffed.stop (h : s.Staffed) (hidle : s.control = .idle) (isWait : Bool) :
    (s.stop isWait).Staffed := by
  have hsettled : s.Settled := by
    have hphase := h.phase
    rwa [hidle] at hphase
  unfold ThreadPool.stop
  split
  · split
    · exact h
    · exact { h with phase := hsettled }
  · split
    · exact h
    · exact { h with phase := hsettled }

/-- **Every step** of a patient caller keeps the invariant. -/
theorem Staffed.step (h : s.Staffed) (hsound : s.Sound) {e : PoolEvent} (hpatient : Patient s e)
    (hs : s.step e = some t) : t.Staffed := by
  cases step_cases hs with
  | push =>
      refine { h with quiet := fun j hj hahead => ?_ }
      have hlt : j < s.created := by
        by_contra hge
        have hahead : Ahead (s.workers j).pc := hahead
        rw [hsound.absent j (Nat.le_of_not_lt hge)] at hahead
        exact hahead
      exact absurd hahead (hpatient j hlt hj)
  | notify task k hpending hfree hk => exact h.notifyOne hk
  | worker _ j hstep => exact h.worker hstep
  | spurious j hj =>
      refine h.goto (m := s.mutex) (by simp [hj]) fun _ _ => ?_
      rw [hj]
      trivial
  | resize n hidle => exact h.resize hsound hidle hpatient
  | stop isWait hidle => exact h.stop hidle isWait
  | control _ hstep => exact h.controlStep hsound hpatient hstep

/-- A run leads to a state that is not safe. -/
def Endangered (n : ℕ) (s : ThreadPool) : Prop := ∃ es t, (lts n).Run s es t ∧ ¬t.Safe

section Growing

variable {m n : ℕ}

/-- A step towards it. -/
theorem Endangered.of_step {e : PoolEvent} (hs : s.step e = some t) (h : t.Endangered n) :
    s.Endangered n := by
  obtain ⟨es, u, hrun, hunsafe⟩ := h
  exact ⟨e :: es, u, .cons hs hrun, hunsafe⟩

/-- A worker in front of its flag finds none while the vector is moved. -/
theorem endangered_of_reading (hc : s.control = .reallocating m)
    (hpc : (s.workers j).pc = .checking ∨ (s.workers j).pc = .reading) : s.Endangered n := by
  refine ⟨[], s, .nil s, fun hsafe => ?_⟩
  have hread := hsafe.read j hpc
  simp [flagAt, hc] at hread

/-- A worker that runs a task reads its flag next. -/
theorem endangered_of_running (hc : s.control = .reallocating m) {task : ℕ}
    (hpc : (s.workers j).pc = .running task) : s.Endangered n := by
  have hstep : s.step (.worker j) = some (s.goto j .checking) := by simp [step, workerStep, hpc]
  exact .of_step hstep (endangered_of_reading (s := s.goto j .checking) hc (.inl pc_goto_self))

/-- A worker whose test of the queue failed reads its flag next. -/
theorem endangered_of_failed (hc : s.control = .reallocating m) (hdone : s.isDone = false)
    (hpc : (s.workers j).pc = .failed) : s.Endangered n := by
  have hstep : s.step (.worker j) = some (s.goto j .reading) := by
    simp [step, workerStep, hpc, hdone]
  exact .of_step hstep (endangered_of_reading (s := s.goto j .reading) hc (.inr pc_goto_self))

/-- A worker that holds the mutex runs a task or reads its flag. -/
theorem endangered_of_holds (hc : s.control = .reallocating m) (hdone : s.isDone = false)
    (hpc : Holds (s.workers j).pc) : s.Endangered n := by
  rcases hpc with hpc | hpc | hpc
  · cases hqueue : s.taskQue with
    | nil =>
        have hstep : s.step (.worker j) = some (s.goto j .failed) := by
          simp [step, workerStep, hpc, hqueue, LockQueue.pop]
        exact .of_step hstep (endangered_of_failed (s := s.goto j .failed) hc hdone pc_goto_self)
    | cons task rest =>
        have hstep : s.step (.worker j) =
            some { (s.take j task rest).goto j (.running task) with mutex := none } := by
          simp [step, workerStep, hpc, hqueue, LockQueue.pop]
        have hrun : (((s.take j task rest).goto j (.running task)).workers j).pc = .running task :=
          pc_goto_self
        exact .of_step hstep (endangered_of_running hc hrun)
  · exact endangered_of_failed hc hdone hpc
  · exact endangered_of_reading hc (.inr hpc)

/-- A worker in front of the free mutex takes it. -/
theorem endangered_of_locking (hc : s.control = .reallocating m) (hdone : s.isDone = false)
    (hmutex : s.mutex = none) (hpc : (s.workers j).pc = .locking ∨ (s.workers j).pc = .woken) :
    s.Endangered n := by
  have hstep : s.step (.worker j) = some { s.goto j .predicate with mutex := some j } := by
    rcases hpc with hpc | hpc <;> simp [step, workerStep, hpc, hmutex]
  have hholds : Holds ((s.goto j .predicate).workers j).pc := .inl pc_goto_self
  exact .of_step hstep (endangered_of_holds hc hdone hholds)

/-- **No growth is safe with a worker left**: while the vectors are moved, a run leads a worker in
front of a read of its flag. -/
theorem grown_not_safe (h : s.Sound) (hc : s.control = .reallocating m) (hdone : s.isDone = false)
    (hpc : (s.workers j).pc ≠ .exited) : s.Endangered n := by
  cases hmutex : s.mutex with
  | some k => exact endangered_of_holds hc hdone ((h.holder k).mpr hmutex)
  | none =>
      cases hpc' : (s.workers j).pc with
      | popping =>
          cases hqueue : s.taskQue with
          | nil =>
              have hstep : s.step (.worker j) = some (s.goto j .locking) := by
                simp [step, workerStep, hpc', hqueue, LockQueue.pop]
              exact .of_step hstep
                (endangered_of_locking (s := s.goto j .locking) hc hdone hmutex (.inl pc_goto_self))
          | cons task rest =>
              have hstep : s.step (.worker j) = some ((s.take j task rest).goto j (.running task)) := by
                simp [step, workerStep, hpc', hqueue, LockQueue.pop]
              have hrun : (((s.take j task rest).goto j (.running task)).workers j).pc =
                  .running task := pc_goto_self
              exact .of_step hstep (endangered_of_running hc hrun)
      | running task => exact endangered_of_running hc hpc'
      | checking => exact endangered_of_reading hc (.inl hpc')
      | locking => exact endangered_of_locking hc hdone hmutex (.inl hpc')
      | predicate => exact endangered_of_holds hc hdone (.inl hpc')
      | failed => exact endangered_of_holds hc hdone (.inr (.inl hpc'))
      | reading => exact endangered_of_reading hc (.inr hpc')
      | asleep =>
          have hstep : s.step (.spurious j) = some (s.goto j .woken) := by simp [step, hpc']
          exact .of_step hstep
            (endangered_of_locking (s := s.goto j .woken) hc hdone hmutex (.inr pc_goto_self))
      | woken => exact endangered_of_locking hc hdone hmutex (.inr hpc')
      | exited => exact absurd hpc' hpc

end Growing

end ThreadPool

end Libio
