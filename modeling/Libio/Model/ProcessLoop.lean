import Libio.Foundation.Transition
import Mathlib.Data.Int.Notation
import Mathlib.Data.List.Basic

/-! # The master of the worker processes

The loop of `process_loop::start` in `model/process_loop.hh` with the signal handlers of
`core/signal.hh`, against a kernel that reports forks, exits and signals. The master notes a worker
it has reaped, and a fork that failed, by the pid -1, and `kill(-1, sig)` goes to every process of
the user. `kills_good_iff` says in which runs no such call is issued. -/

namespace Libio

/-- The signals the master has handlers for. -/
inductive Signal
  | int
  | chld
  deriving DecidableEq, Repr

/-- `struct process_info`. -/
structure ProcessInfo where
  pid : ℤ
  exited : Bool := false
  deriving DecidableEq

/-- A call `kill(pid, SIGKILL)`, noted with the workers that are forked and not reaped at the
time. -/
structure Kill where
  pid : ℤ
  unreaped : List ℤ
  deriving DecidableEq

/-- The call goes to such a worker and to nobody else. -/
def Kill.Good (k : Kill) : Prop := 0 < k.pid ∧ k.pid ∈ k.unreaped

/-- Where the master stands: in front of its loop, with the signals still let through, in
`sigsuspend`, or ended. -/
inductive MasterPhase
  | starting
  | suspended
  | ended
  deriving DecidableEq

/-- The master process, with the workers as the kernel knows them: those not reaped yet, and those
among them that have exited. -/
structure ProcessLoop where
  processes : List ProcessInfo
  callback : Signal → Bool := fun _ => true
  reap : Bool := false
  terminate : Bool := false
  quit : Bool := false
  live : Bool := true
  delay : ℕ := 0
  phase : MasterPhase := .starting
  unreaped : List ℤ
  zombies : List ℤ := []
  kills : List Kill := []

/-- What happens to the master: a worker exits, a signal is delivered in front of the loop, signals
end `sigsuspend`, or `SIGALRM`, for which there is no handler, ends the master. -/
inductive MasterEvent
  | exit (pid : ℤ)
  | deliver (sig : Signal)
  | wake (sigs : List Signal)
  | alarm

namespace ProcessLoop

/-- `init()`: one slot for each fork, with what the fork returned. -/
def init (forks : List ℤ) : ProcessLoop where
  processes := forks.map fun pid => { pid := pid }
  unreaped := forks.filter (0 < ·)

/-- Forks as the kernel answers them: -1, or the pid of a new process. -/
def Forks (forks : List ℤ) : Prop :=
  (∀ pid ∈ forks, pid = -1 ∨ 0 < pid) ∧ forks.Pairwise fun p q => p ≠ -1 → p ≠ q

variable (s : ProcessLoop)

/-! ## The signal handlers -/

/-- Mark the first slot of a pid. -/
def markExited (pid : ℤ) : List ProcessInfo → List ProcessInfo
  | [] => []
  | p :: ps => if p.pid = pid then { p with exited := true } :: ps else p :: markExited pid ps

/-- The handler of `SIGCHLD`: `waitpid` until no worker is left that has exited. -/
def reapHandler : ProcessLoop :=
  { s with
    reap := true
    processes := s.zombies.foldl (fun ps pid => markExited pid ps) s.processes
    unreaped := s.unreaped.filter (· ∉ s.zombies)
    zombies := [] }

/-- `remove(sig)`. The call of `sigaction` passes a null pointer, so `__handler` stays installed. -/
def remove (sig : Signal) : ProcessLoop :=
  { s with callback := fun g => if g = sig then false else s.callback g }

/-- `__handler(sig)`. No handler is made persistent, so each runs once. -/
def handler (sig : Signal) : ProcessLoop :=
  if s.callback sig then
    match sig with
    | .int => remove { s with terminate := true } sig
    | .chld => s.reapHandler.remove sig
  else s

/-! ## The loop -/

/-- `reap_children()`. -/
def reapChildren : ProcessLoop :=
  { s with
    live := s.processes.any fun p => p.pid ≠ -1 && !p.exited
    processes := s.processes.map fun p =>
      if p.pid = -1 then p else if p.exited then { p with pid := -1 } else p }

/-- `signal_worker_processes(SIGKILL)`. -/
def signalWorkerProcesses : ProcessLoop :=
  { s with kills := s.kills ++ s.processes.map fun p => ⟨p.pid, s.unreaped⟩ }

/-- The loop from one `sigsuspend` to the next. -/
def loopBody : ProcessLoop :=
  let s := if s.reap then reapChildren { s with reap := false } else s
  if !s.live && (s.terminate || s.quit) then { s with phase := .ended }
  else if s.terminate then
    signalWorkerProcesses { s with
      delay := if s.delay = 0 then 50 else s.delay, phase := .suspended }
  else { s with phase := .suspended }

/-- Take a step, where it is possible. -/
def step (s : ProcessLoop) : MasterEvent → Option ProcessLoop
  | .exit pid =>
      if pid ∈ s.unreaped ∧ pid ∉ s.zombies then some { s with zombies := pid :: s.zombies } else none
  | .deliver sig => if s.phase = .starting then some (s.handler sig) else none
  | .wake sigs =>
      if s.phase ≠ .ended ∧ sigs ≠ [] then some (loopBody (sigs.foldl handler s)) else none
  | .alarm =>
      if s.phase = .suspended ∧ s.delay ≠ 0 then some { s with phase := .ended } else none

/-- The master as a transition system. -/
def system : Lts ProcessLoop MasterEvent where
  init s := ∃ forks, Forks forks ∧ s = init forks
  step s e t := s.step e = some t

/-! ## The condition -/

/-- The signals let the `SIGCHLD` handler run. -/
def Reaping (sigs : List Signal) : Prop := .chld ∈ sigs ∧ s.callback .chld = true

instance (sigs : List Signal) : Decidable (s.Reaping sigs) := inferInstanceAs (Decidable (_ ∧ _))

/-- After the signals the master is to terminate. -/
def Terminating (sigs : List Signal) : Prop :=
  s.terminate = true ∨ .int ∈ sigs ∧ s.callback .int = true

/-- A slot that stands for no worker when the loop goes on: its fork failed, its worker was reaped
before, or it is reaped now. -/
def Gone (sigs : List Signal) (p : ProcessInfo) : Prop :=
  p.pid = -1 ∨ p.exited = true ∨ s.Reaping sigs ∧ p.pid ∈ s.zombies

/-- A wake-up that is to terminate finds a worker in every slot, or in none of them when it
looks. -/
def Clear : MasterEvent → Prop
  | .wake sigs =>
      s.Terminating sigs → (∀ p ∈ s.processes, ¬s.Gone sigs p) ∨
        if s.reap = true ∨ s.Reaping sigs then ∀ p ∈ s.processes, s.Gone sigs p
        else s.live = false
  | _ => True

/-- The invariant. -/
structure Sound : Prop where
  pids : ∀ p ∈ s.processes, p.pid = -1 ∨ 0 < p.pid ∧ (p.exited = false → p.pid ∈ s.unreaped)
  marked : ∀ p ∈ s.processes, p.exited = true → p.pid ≠ -1 → s.reap = true
  apart : s.processes.Pairwise fun p q => p.pid ≠ -1 → p.pid ≠ q.pid
  zombies : ∀ z ∈ s.zombies, z ≠ -1
  unreaped : ∀ z ∈ s.unreaped, z ≠ -1

variable {s}

/-- The master is sound when its handlers are set. -/
theorem sound_init {forks : List ℤ} (h : Forks forks) : (init forks).Sound where
  pids := by
    intro p hp
    obtain ⟨pid, hpid, rfl⟩ := List.mem_map.mp hp
    refine (h.1 pid hpid).imp id fun hpos => ⟨hpos, fun _ => ?_⟩
    exact List.mem_filter.mpr ⟨hpid, by simpa using hpos⟩
  marked := by
    intro p hp he
    obtain ⟨pid, -, rfl⟩ := List.mem_map.mp hp
    cases he
  apart := List.pairwise_map.mpr h.2
  zombies := by simp [init]
  unreaped := by
    intro z hz
    have := (List.mem_filter.mp hz).2
    simp only [decide_eq_true_eq] at this
    omega

/-! ## Handlers -/

/-- Marking a pid marks its slot. -/
theorem markExited_eq {ps : List ProcessInfo}
    (h : ps.Pairwise fun p q => p.pid ≠ -1 → p.pid ≠ q.pid) {pid : ℤ} (hpid : pid ≠ -1) :
    markExited pid ps = ps.map fun p => if p.pid = pid then { p with exited := true } else p := by
  induction ps with
  | nil => rfl
  | cons p ps ih =>
      obtain ⟨hp, hps⟩ := List.pairwise_cons.mp h
      rw [markExited, List.map_cons]
      by_cases he : p.pid = pid
      · rw [if_pos he, if_pos he]
        -- no other slot has this pid
        have hrest : ps.map (fun q => if q.pid = pid then { q with exited := true } else q) = ps := by
          refine (List.map_congr_left fun q hq => ?_).trans (List.map_id ps)
          have hne : q.pid ≠ pid := fun e => hp q hq (he ▸ hpid) (he.trans e.symm)
          exact if_neg hne
        rw [hrest]
      · rw [if_neg he, if_neg he, ih hps]

/-- Marking several pids marks their slots. -/
theorem foldl_markExited {ps : List ProcessInfo}
    (h : ps.Pairwise fun p q => p.pid ≠ -1 → p.pid ≠ q.pid) {zs : List ℤ} (hzs : ∀ z ∈ zs, z ≠ -1) :
    zs.foldl (fun ps pid => markExited pid ps) ps =
      ps.map fun p => if p.pid ∈ zs then { p with exited := true } else p := by
  induction zs generalizing ps with
  | nil => simp
  | cons z zs ih =>
      have hmark := markExited_eq h (hzs z (by simp))
      have hapart : (markExited z ps).Pairwise fun p q => p.pid ≠ -1 → p.pid ≠ q.pid := by
        rw [hmark, List.pairwise_map]
        exact h.imp fun {p q} hpq => by split <;> split <;> exact hpq
      rw [List.foldl_cons, ih hapart fun z' hz' => hzs z' (by simp [hz']), hmark, List.map_map]
      refine List.map_congr_left fun p _ => ?_
      by_cases hz : p.pid = z <;> by_cases hm : p.pid ∈ zs <;> simp [hz, hm]

/-- The slots after a handler has run: those of the workers reaped are marked. -/
def slotAfter (s : ProcessLoop) (sig : Signal) (p : ProcessInfo) : ProcessInfo :=
  if s.Reaping [sig] ∧ p.pid ∈ s.zombies then { p with exited := true } else p

/-- A signal changes no pid in a slot. -/
theorem pid_slotAfter (sig : Signal) (p : ProcessInfo) : (s.slotAfter sig p).pid = p.pid := by
  unfold slotAfter
  split <;> rfl

/-- What a handler does to the slots. -/
theorem Sound.processes_handler (h : s.Sound) (sig : Signal) :
    (s.handler sig).processes = s.processes.map (s.slotAfter sig) := by
  unfold handler
  by_cases hc : s.callback sig = true
  · rw [if_pos hc]
    cases sig with
    | int =>
        have hid : s.slotAfter .int = id := by
          funext p
          simp [slotAfter, Reaping]
        rw [hid, List.map_id]
        rfl
    | chld =>
        have hmark : (reapHandler s).processes = s.processes.map (s.slotAfter .chld) := by
          rw [reapHandler, foldl_markExited h.apart h.zombies]
          simp [slotAfter, Reaping, hc]
        exact hmark
  · rw [if_neg hc]
    have hid : s.slotAfter sig = id := by
      funext p
      cases sig <;> simp [slotAfter, Reaping, hc]
    rw [hid, List.map_id]

/-- A handler sends nothing. -/
theorem kills_handler (sig : Signal) : (s.handler sig).kills = s.kills := by
  unfold handler
  split
  · cases sig <;> rfl
  · rfl

/-- A handler keeps the invariant. -/
theorem Sound.handler (h : s.Sound) (sig : Signal) : (s.handler sig).Sound := by
  have hprocesses := h.processes_handler sig
  have hapart : (s.handler sig).processes.Pairwise fun p q => p.pid ≠ -1 → p.pid ≠ q.pid := by
    rw [hprocesses, List.pairwise_map]
    simpa only [pid_slotAfter] using h.apart
  unfold ProcessLoop.handler at hprocesses hapart ⊢
  by_cases hc : s.callback sig = true
  · simp only [if_pos hc] at hprocesses hapart ⊢
    cases sig with
    | int => exact ⟨h.pids, h.marked, h.apart, h.zombies, h.unreaped⟩
    | chld =>
        constructor
        case pids =>
          intro p hp
          rw [hprocesses] at hp
          obtain ⟨q, hq, rfl⟩ := List.mem_map.mp hp
          rw [pid_slotAfter]
          refine (h.pids q hq).imp id fun hpos => ⟨hpos.1, fun he => ?_⟩
          -- a slot that is still not marked is not that of a worker reaped
          have hz : q.pid ∉ s.zombies := by
            intro hz
            simp [slotAfter, Reaping, hc, hz] at he
          have he' : q.exited = false := by simpa [slotAfter, hz] using he
          exact List.mem_filter.mpr ⟨hpos.2 he', by simpa using hz⟩
        case marked => exact fun _ _ _ _ => rfl
        case apart => exact hapart
        case zombies => exact fun z hz => by cases hz
        case unreaped => exact fun z hz => h.unreaped z (List.mem_filter.mp hz).1
  · simp only [if_neg hc]
    exact h

/-- After a handler the condition is on the signals that are left. -/
theorem Sound.clear_cons (h : s.Sound) (sig : Signal) (sigs : List Signal) :
    s.Clear (.wake (sig :: sigs)) ↔ (s.handler sig).Clear (.wake sigs) := by
  have hterm : s.Terminating (sig :: sigs) ↔ (s.handler sig).Terminating sigs := by
    unfold Terminating ProcessLoop.handler
    by_cases hc : s.callback sig = true
    · cases sig <;> simp [hc, remove, reapHandler]
    · have : s.callback sig = false := by simpa using hc
      cases sig <;> simp [this]
  have hreap : (s.reap = true ∨ s.Reaping (sig :: sigs)) ↔
      ((s.handler sig).reap = true ∨ (s.handler sig).Reaping sigs) := by
    unfold Reaping ProcessLoop.handler
    by_cases hc : s.callback sig = true
    · cases sig <;> simp [hc, remove, reapHandler]
    · have : s.callback sig = false := by simpa using hc
      cases sig <;> simp [this]
  have hgone : ∀ p ∈ s.processes,
      ((s.handler sig).Gone sigs (s.slotAfter sig p) ↔ s.Gone (sig :: sigs) p) := by
    intro p _
    unfold Gone slotAfter Reaping ProcessLoop.handler
    by_cases hc : s.callback sig = true
    · cases sig <;> by_cases hz : p.pid ∈ s.zombies <;> simp [hc, hz, remove, reapHandler]
    · have : s.callback sig = false := by simpa using hc
      cases sig <;> simp [this]
  have hlive : (s.handler sig).live = s.live := by
    unfold ProcessLoop.handler
    split
    · cases sig <;> rfl
    · rfl
  simp only [Clear, h.processes_handler sig, List.forall_mem_map, hterm, hreap, hlive]
  have hnone : (∀ p ∈ s.processes, ¬s.Gone (sig :: sigs) p) ↔
      ∀ p ∈ s.processes, ¬(s.handler sig).Gone sigs (s.slotAfter sig p) :=
    forall₂_congr fun p hp => not_congr (hgone p hp).symm
  have hall : (∀ p ∈ s.processes, s.Gone (sig :: sigs) p) ↔
      ∀ p ∈ s.processes, (s.handler sig).Gone sigs (s.slotAfter sig p) :=
    forall₂_congr fun p hp => (hgone p hp).symm
  rw [hnone, hall]

/-- After all handlers the condition is on the state alone. -/
theorem Sound.foldl_handler (h : s.Sound) (sigs : List Signal) :
    (sigs.foldl ProcessLoop.handler s).Sound ∧
      (sigs.foldl ProcessLoop.handler s).kills = s.kills ∧
        (s.Clear (.wake sigs) ↔ (sigs.foldl ProcessLoop.handler s).Clear (.wake [])) := by
  induction sigs generalizing s with
  | nil => exact ⟨h, rfl, Iff.rfl⟩
  | cons sig sigs ih =>
      obtain ⟨hsound, hkills, hclear⟩ := ih (h.handler sig)
      exact ⟨hsound, hkills.trans (kills_handler sig), (h.clear_cons sig sigs).trans hclear⟩

/-! ## One pass of the loop -/

/-- A slot that stands for a worker. -/
def Held (p : ProcessInfo) : Prop := p.pid ≠ -1 ∧ p.exited = false

/-- Without signals, a slot that is not gone is held. -/
theorem not_gone_nil (p : ProcessInfo) : ¬s.Gone [] p ↔ Held p := by
  simp [Gone, Reaping, Held]

/-- The state in which the loop goes on: with the workers noted that the handlers have reaped. -/
def settled (s : ProcessLoop) : ProcessLoop :=
  if s.reap then reapChildren { s with reap := false } else s

/-- Noting the workers reaped keeps the invariant. -/
theorem Sound.settled (h : s.Sound) : s.settled.Sound := by
  unfold ProcessLoop.settled
  split
  · have hpid : ∀ p : ProcessInfo, (if p.pid = -1 then p else if p.exited then { p with pid := -1 }
        else p) = p ∨
        (if p.pid = -1 then p else if p.exited then { p with pid := -1 } else p).pid = -1 := by
      intro p
      split
      · exact .inl rfl
      · split
        · exact .inr rfl
        · exact .inl rfl
    constructor
    case pids =>
      intro p hp
      obtain ⟨q, hq, rfl⟩ := List.mem_map.mp hp
      rcases hpid q with he | he
      · rw [he]
        exact h.pids q hq
      · exact .inl he
    case marked =>
      intro p hp he hne
      obtain ⟨q, hq, rfl⟩ := List.mem_map.mp hp
      by_cases hq1 : q.pid = -1
      · simp [hq1] at hne
      · cases hqe : q.exited <;> simp [hq1, hqe] at he hne
    case apart =>
      refine List.pairwise_map.mpr (h.apart.imp fun {p q} hpq => ?_)
      intro hne
      rcases hpid p with hp | hp
      · rw [hp] at hne ⊢
        rcases hpid q with hq | hq
        · rw [hq]
          exact hpq hne
        · rw [hq]
          exact hne
      · exact absurd hp hne
    case zombies => exact h.zombies
    case unreaped => exact h.unreaped
  · exact h

/-- The slots are all held when the loop goes on exactly when no handler has reaped a worker. -/
theorem Sound.settled_held (h : s.Sound) :
    (∀ p ∈ s.settled.processes, p.pid ≠ -1) ↔ ∀ p ∈ s.processes, Held p := by
  unfold ProcessLoop.settled
  by_cases hr : s.reap = true
  · rw [if_pos hr]
    simp only [reapChildren, List.forall_mem_map]
    refine forall₂_congr fun p _ => ?_
    by_cases hp : p.pid = -1
    · simp [hp, Held]
    · cases he : p.exited <;> simp [hp, he, Held]
  · rw [if_neg hr]
    refine forall₂_congr fun p hp => ⟨fun hne => ⟨hne, ?_⟩, And.left⟩
    cases he : p.exited with
    | false => rfl
    | true => exact absurd (h.marked p hp he hne) hr

/-- The flag `live` behind the reaping. -/
theorem settled_live : s.settled.live = false ↔
    if s.reap = true then ∀ p ∈ s.processes, ¬Held p else s.live = false := by
  unfold settled
  by_cases hr : s.reap = true
  · rw [if_pos hr, if_pos hr]
    simp [reapChildren, Held]
  · rw [if_neg hr, if_neg hr]

/-- There is nothing left to reap. -/
theorem settled_reap : s.settled.reap = false := by
  unfold settled
  split
  · rfl
  · next hr => simpa using hr

/-- The reaping sends nothing, and asks for no end. -/
theorem settled_keeps : s.settled.kills = s.kills ∧ s.settled.terminate = s.terminate := by
  unfold settled
  split <;> exact ⟨rfl, rfl⟩

/-- What the body of the loop does, behind the reaping. -/
theorem loopBody_eq : s.loopBody =
    if !s.settled.live && (s.settled.terminate || s.settled.quit) then
      { s.settled with phase := .ended }
    else if s.settled.terminate then
      signalWorkerProcesses { s.settled with
        delay := if s.settled.delay = 0 then 50 else s.settled.delay, phase := .suspended }
    else { s.settled with phase := .suspended } := rfl

/-- The phase and the delay are no part of the invariant. -/
theorem Sound.of_same {t : ProcessLoop} (h : s.Sound) (hp : t.processes = s.processes)
    (hr : t.reap = s.reap) (hu : t.unreaped = s.unreaped) (hz : t.zombies = s.zombies) :
    t.Sound where
  pids := by rw [hp, hu]; exact h.pids
  marked := by rw [hp, hr]; exact h.marked
  apart := by rw [hp]; exact h.apart
  zombies := by rw [hz]; exact h.zombies
  unreaped := by rw [hu]; exact h.unreaped

/-- The body of the loop keeps the master sound. -/
theorem Sound.loopBody (h : s.Sound) : s.loopBody.Sound := by
  rw [loopBody_eq]
  split
  · exact h.settled.of_same rfl rfl rfl rfl
  · split
    · exact h.settled.of_same rfl rfl rfl rfl
    · exact h.settled.of_same rfl rfl rfl rfl

/-- **The calls of `kill` in one pass are good** exactly when the condition holds. -/
theorem Sound.kills_loopBody (h : s.Sound) :
    (∀ k ∈ s.loopBody.kills, k.Good) ↔ (∀ k ∈ s.kills, k.Good) ∧ s.Clear (.wake []) := by
  obtain ⟨hkills, hterm⟩ := s.settled_keeps
  have hclear : s.Clear (.wake []) ↔ (s.settled.terminate = true →
      (∀ p ∈ s.settled.processes, p.pid ≠ -1) ∨ s.settled.live = false) := by
    rw [h.settled_held, settled_live, hterm]
    simp only [Clear, not_gone_nil]
    have hall : (∀ p ∈ s.processes, s.Gone [] p) ↔ ∀ p ∈ s.processes, ¬Held p :=
      forall₂_congr fun p _ => by rw [← not_gone_nil (s := s), not_not]
    rw [hall]
    simp [Terminating, Reaping]
  rw [hclear, loopBody_eq]
  cases hlive : s.settled.live with
  | false =>
      have hno : (s.settled.terminate = true →
          (∀ p ∈ s.settled.processes, p.pid ≠ -1) ∨ false = false) := fun _ => .inr rfl
      cases ht : s.settled.terminate <;> cases hq : s.settled.quit <;> simp [hkills]
  | true =>
      cases ht : s.settled.terminate with
      | false => simp [hkills]
      | true =>
          simp only [Bool.not_true, Bool.true_or, Bool.and_true, Bool.false_eq_true, if_false,
            if_true, signalWorkerProcesses, hkills, List.forall_mem_append, List.forall_mem_map,
            forall_const, or_false, reduceCtorEq]
          refine and_congr_right fun _ => forall₂_congr fun p hp => ?_
          -- a slot that is not empty stands for a worker
          constructor
          · rintro ⟨hpos, -⟩ heq
            simp [heq] at hpos
          · intro hne
            obtain ⟨hpos, hmem⟩ := (h.settled.pids p hp).resolve_left hne
            refine ⟨hpos, hmem ?_⟩
            cases he : p.exited with
            | false => rfl
            | true => exact absurd (h.settled.marked p hp he hne) (by simp [settled_reap])

/-! ## Runs -/

/-- **One step.** The invariant is kept, and the calls of `kill` so far are good exactly when they
were before and the step meets the condition. -/
theorem Sound.step (h : s.Sound) {e : MasterEvent} {t : ProcessLoop} (ht : s.step e = some t) :
    t.Sound ∧ ((∀ k ∈ t.kills, k.Good) ↔ (∀ k ∈ s.kills, k.Good) ∧ s.Clear e) := by
  cases e with
  | exit pid =>
      simp only [ProcessLoop.step, Option.ite_none_right_eq_some, Option.some.injEq] at ht
      obtain ⟨⟨hmem, -⟩, rfl⟩ := ht
      refine ⟨⟨h.pids, h.marked, h.apart, fun z hz => ?_, h.unreaped⟩, by simp [Clear]⟩
      rcases List.mem_cons.mp hz with rfl | hz
      · exact h.unreaped z hmem
      · exact h.zombies z hz
  | deliver sig =>
      simp only [ProcessLoop.step, Option.ite_none_right_eq_some, Option.some.injEq] at ht
      obtain ⟨-, rfl⟩ := ht
      exact ⟨h.handler sig, by simp [Clear, kills_handler]⟩
  | wake sigs =>
      simp only [ProcessLoop.step, Option.ite_none_right_eq_some, Option.some.injEq] at ht
      obtain ⟨-, rfl⟩ := ht
      obtain ⟨hsound, hkills, hclear⟩ := h.foldl_handler sigs
      refine ⟨hsound.loopBody, ?_⟩
      rw [hsound.kills_loopBody, hkills, hclear]
  | alarm =>
      simp only [ProcessLoop.step, Option.ite_none_right_eq_some, Option.some.injEq] at ht
      obtain ⟨-, rfl⟩ := ht
      exact ⟨h.of_same rfl rfl rfl rfl, by simp [Clear]⟩

/-- **The master only signals its own live workers** in exactly those runs in which no wake-up that
is to terminate finds a slot that stands for no worker, unless none stands for one and the master
ends. -/
theorem kills_good_iff {s₀ s : ProcessLoop} {es : List MasterEvent} (hinit : system.init s₀)
    (hrun : system.Run s₀ es s) :
    (∀ k ∈ s.kills, k.Good) ↔ (system.guard Clear).Run s₀ es s := by
  obtain ⟨forks, hforks, rfl⟩ := hinit
  have h := hrun.guard_iff (C := Clear) (I := Sound) (P := fun s => ∀ k ∈ s.kills, k.Good)
    (fun _ _ _ _ ht ht' => Option.some.inj (Eq.trans (Eq.symm ht) ht'))
    (fun _ _ _ hs ht => (hs.step ht).1)
    (fun _ _ _ hs ht => (hs.step ht).2) (sound_init hforks)
  rw [h]
  exact and_iff_right fun k hk => by cases hk

/-- A run that is given by its events. -/
theorem run_of_kills {s : ProcessLoop} {es : List MasterEvent} {ks : List Kill}
    (h : (es.foldlM step s).map kills = some ks) : ∃ t, system.Run s es t ∧ t.kills = ks := by
  obtain ⟨t, ht, hks⟩ := Option.map_eq_some_iff.mp h
  exact ⟨t, .of_foldlM (fun _ _ _ hs => hs) ht, hks⟩

/-- Two workers that `fork` may give. -/
theorem forks_pair : Forks [7, 8] := by
  constructor <;> simp

/-- Two workers that are there when the master is to terminate are signalled. -/
theorem kills_good_iff_twoWorkers :
    ∃ s, system.Run (init [7, 8]) [.wake [.int]] s ∧ s.kills = [⟨7, [7, 8]⟩, ⟨8, [7, 8]⟩] ∧
      ∀ k ∈ s.kills, k.Good := by
  have hkilled : ([.wake [.int]].foldlM step (init [7, 8])).map kills =
      some [⟨7, [7, 8]⟩, ⟨8, [7, 8]⟩] := by
    decide
  obtain ⟨s, hrun, hkills⟩ := run_of_kills hkilled
  have hclear : (init [7, 8]).Clear (.wake [.int]) := by
    refine fun _ => .inl ?_
    simp [init, Gone, Reaping]
  refine ⟨s, hrun, hkills, (kills_good_iff ⟨_, forks_pair, rfl⟩ hrun).mpr ?_⟩
  cases hrun with
  | cons hstep hrest =>
      cases hrest
      exact .cons ⟨hclear, hstep⟩ (.nil _)

/-- **Every process of the user is killed**: one of two workers exits and is reaped, then the master
is to terminate, and `kill(-1, SIGKILL)` is issued. -/
theorem not_kills_good_reaped :
    ∃ s₀ es s, system.init s₀ ∧ system.Run s₀ es s ∧ (⟨-1, [8]⟩ : Kill) ∈ s.kills ∧
      ¬∀ k ∈ s.kills, k.Good := by
  have hkilled : ([.exit 7, .wake [.chld], .wake [.int]].foldlM step (init [7, 8])).map kills =
      some [⟨-1, [8]⟩, ⟨8, [8]⟩] := by
    decide
  obtain ⟨s, hrun, hkills⟩ := run_of_kills hkilled
  refine ⟨_, _, s, ⟨_, forks_pair, rfl⟩, hrun, by simp [hkills], fun hgood => ?_⟩
  have := (hgood ⟨-1, [8]⟩ (by simp [hkills])).1
  exact absurd this (by decide)

end ProcessLoop

end Libio
