import Libio.Model.ProcessLoop
import Mathlib.Data.List.Forall2

/-! # The exits of the workers

The master of `model/process_loop.hh` with its handler of `SIGCHLD` taken step by step: the signal
becomes pending when a worker exits, the handler waits for one worker after the other, and workers
go on exiting meanwhile. `__handler` of `core/signal.hh` drops a callback that is not persistent when
it returns, and stays installed itself: from then on it answers `SIGCHLD` by doing nothing.

`noticed_of_heard` says in which runs every exit is noticed, whether the callback is persistent or
not; with a persistent one this is every run. -/

namespace Libio

/-- The master and its workers, from the installation of the handlers on. The last two members are
history. -/
structure Master where
  loop : ProcessLoop
  /-- `callback[SIGCHLD].second`. -/
  persistent : Bool
  /-- `SIGCHLD` is pending. -/
  pending : Bool := false
  /-- The handler is in its loop over `waitpid`. -/
  handling : Bool := false
  /-- A handler has run since the last pass of the loop. -/
  woken : Bool := false
  /-- What `fork` returned, slot by slot. -/
  forks : List ℤ
  /-- The workers that exited after the installation of the handlers. -/
  departed : List ℤ := []

/-- A step of the master or of a worker. -/
inductive ExitEvent
  | exit (pid : ℤ)
  /-- A signal is delivered. -/
  | deliver (sig : Signal)
  /-- `waitpid` in the handler returns a worker. -/
  | wait (pid : ℤ)
  /-- `waitpid` returns none, and the handler returns. -/
  | done
  /-- The loop goes on from one `sigsuspend` to the next. -/
  | pass
  /-- `SIGALRM`, for which there is no handler, ends the master. -/
  | alarm
  deriving DecidableEq

namespace Master

variable (s : Master)

/-- `__handler(sig)` up to the loop of the handler of `SIGCHLD`. -/
def deliver : Signal → Master
  | .int => { s with loop := s.loop.handler .int, woken := true }
  | .chld =>
      if s.loop.callback .chld then
        { s with
          loop := { s.loop with reap := true }, pending := false, handling := true, woken := true }
      -- `if (!callback.count(sig)) return;`
      else { s with pending := false, woken := true }

/-- `waitpid` returns `pid`, and its slot is marked. -/
def wait (pid : ℤ) : Master :=
  { s with loop := { s.loop with
      processes := ProcessLoop.markExited pid s.loop.processes
      unreaped := s.loop.unreaped.filter (· ≠ pid)
      zombies := s.loop.zombies.erase pid } }

/-- The end of `__handler(SIGCHLD)`. -/
def done : Master :=
  { s with loop := if s.persistent then s.loop else s.loop.remove .chld, handling := false }

/-- Take a step, where it is possible. The signals are let through outside of a handler only: in
front of the loop and in `sigsuspend`. -/
def step : ExitEvent → Option Master
  | .exit pid =>
      if pid ∈ s.loop.unreaped ∧ pid ∉ s.loop.zombies then
        some { s with
          loop := { s.loop with zombies := pid :: s.loop.zombies }
          pending := true
          departed := s.departed ++ [pid] }
      else none
  | .deliver sig =>
      if s.handling = false ∧ s.loop.phase ≠ .ended ∧ (sig = .chld → s.pending = true) then
        some (s.deliver sig)
      else none
  | .wait pid => if s.handling = true ∧ pid ∈ s.loop.zombies then some (s.wait pid) else none
  | .done => if s.handling = true ∧ s.loop.zombies = [] then some s.done else none
  | .pass =>
      if s.handling = false ∧ s.woken = true ∧ s.loop.phase ≠ .ended then
        some { s with loop := s.loop.loopBody, woken := false }
      else none
  | .alarm =>
      if s.handling = false then (s.loop.step .alarm).map fun loop => { s with loop := loop }
      else none

/-- The master as a transition system; `process_loop::start` installs its handler with
`persistent = false`. In the beginning some workers may have exited already. -/
def system (persistent : Bool) : Lts Master ExitEvent where
  init s := ∃ forks zombies, ProcessLoop.Forks forks ∧ zombies.Nodup ∧
    (∀ pid ∈ zombies, pid ∈ forks ∧ 0 < pid) ∧
    s = { loop := { ProcessLoop.init forks with zombies := zombies }
          persistent := persistent
          forks := forks }
  step s e t := s.step e = some t

/-! ## What is noticed -/

/-- The slot of a worker says that it has exited. -/
def Marked (pid : ℤ) : Prop :=
  ∃ (i : ℕ) (p : ProcessInfo), s.forks[i]? = some pid ∧ s.loop.processes[i]? = some p ∧
    p.exited = true

/-- Every worker that exited after the installation has been waited for and is marked, and
`reap_children` returns 0 when these are all. -/
structure NoticesAll (s : Master) : Prop where
  reaped : ∀ pid ∈ s.departed, pid ∉ s.loop.unreaped ∧ s.Marked pid
  gone : (∀ pid ∈ s.forks, 0 < pid → pid ∈ s.departed) → s.loop.reapChildren.live = false

/-- Outside of the handler, with no signal pending, nothing has gone unnoticed. -/
def Noticed : Prop := s.handling = false → s.pending = false → s.NoticesAll

/-- An exit happens while the callback of `SIGCHLD` is there: before the first run of the handler
has come to the end of its loop. -/
def Heard (s : Master) : ExitEvent → Prop
  | .exit _ => s.loop.callback .chld = true
  | _ => True

/-! ## Slots -/

/-- What a slot says of the worker of its fork, with the workers that are not reaped. -/
structure Slot (unreaped : List ℤ) (pid : ℤ) (p : ProcessInfo) : Prop where
  worker : p.pid = pid ∨ p.pid = -1 ∧ p.exited = true
  reaped : 0 < pid → pid ∉ unreaped → p.exited = true

variable {s} {t : Master} {forks unreaped : List ℤ} {ps : List ProcessInfo}

/-- A slot stays what it is when a worker other than its own is reaped. -/
theorem Slot.filter_of_ne {q pid : ℤ} {p : ProcessInfo} (h : Slot unreaped q p) (hne : q ≠ pid) :
    Slot (unreaped.filter (· ≠ pid)) q p where
  worker := h.worker
  reaped hpos hnot := h.reaped hpos fun hin =>
    hnot (List.mem_filter.mpr ⟨hin, by simpa using hne⟩)

/-- Reaping a worker marks its slot. -/
theorem slots_markExited (h : List.Forall₂ (Slot unreaped) forks ps)
    (hforks : forks.Pairwise fun p q => p ≠ -1 → p ≠ q) {pid : ℤ} (hpid : 0 < pid) :
    List.Forall₂ (Slot (unreaped.filter (· ≠ pid))) forks (ProcessLoop.markExited pid ps) := by
  induction h with
  | nil => exact .nil
  | @cons q p forks ps hq hrest ih =>
      obtain ⟨hfirst, hapart⟩ := List.pairwise_cons.mp hforks
      rw [ProcessLoop.markExited]
      by_cases hp : p.pid = pid
      · -- the first slot of this pid is that of its fork, and no later one is
        obtain rfl : q = pid := by
          rcases hq.worker with he | ⟨he, -⟩
          · exact he.symm.trans hp
          · omega
        have hlater : ∀ r ∈ forks, r ≠ q := fun r hr => (hfirst r hr (by omega)).symm
        rw [if_pos hp]
        refine .cons ⟨.inl hp, fun _ _ => rfl⟩ ?_
        exact ((List.forall₂_and_left _ _).mpr ⟨hlater, hrest⟩).imp fun r p' hr => hr.2.filter_of_ne hr.1
      · rw [if_neg hp]
        refine .cons ?_ (ih hapart)
        by_cases hqpid : q = pid
        · obtain ⟨he, hexited⟩ := hq.worker.resolve_left fun he => hp (he.trans hqpid)
          exact ⟨.inr ⟨he, hexited⟩, fun _ _ => hexited⟩
        · exact hq.filter_of_ne hqpid

/-- Noting the workers that are reaped keeps what the slots say. -/
theorem slots_reapChildren {loop : ProcessLoop} (h : List.Forall₂ (Slot unreaped) forks loop.processes) :
    List.Forall₂ (Slot unreaped) forks loop.reapChildren.processes := by
  refine List.forall₂_map_right_iff.mpr (h.imp fun q p hq => ?_)
  split
  · exact hq
  · split
    · next hexited => exact ⟨.inr ⟨rfl, hexited⟩, fun _ _ => hexited⟩
    · exact hq

/-- When all workers are reaped, none is live. -/
theorem live_reapChildren {loop : ProcessLoop}
    (h : List.Forall₂ (Slot unreaped) forks loop.processes) (hforks : ∀ q ∈ forks, q = -1 ∨ 0 < q)
    (hreaped : ∀ q ∈ forks, 0 < q → q ∉ unreaped) : loop.reapChildren.live = false := by
  have hdead : ∀ p ∈ loop.processes, (p.pid ≠ -1 && !p.exited) = false := by
    intro p hp
    obtain ⟨i, hi, hip⟩ := List.getElem_of_mem hp
    have hlt : i < forks.length := h.length_eq ▸ hi
    have hslot : Slot unreaped forks[i] p := hip ▸ h.get hlt hi
    have hmem : forks[i] ∈ forks := List.getElem_mem hlt
    rcases hforks _ hmem with hfailed | hpos
    · have hpid : p.pid = -1 := hslot.worker.elim (fun he => he.trans hfailed) And.left
      simp [hpid]
    · simp [hslot.reaped hpos (hreaped _ hmem hpos)]
  show loop.processes.any _ = false
  rw [List.any_eq_false]
  intro p hp
  rw [hdead p hp]
  exact Bool.false_ne_true

/-! ## The invariant -/

/-- The slots say what is known of the workers, and the departed workers that are not reaped have
their signal ahead or in hand. -/
structure Sound (s : Master) : Prop where
  forks : ProcessLoop.Forks s.forks
  slots : List.Forall₂ (Slot s.loop.unreaped) s.forks s.loop.processes
  zombies : ∀ pid ∈ s.loop.zombies, pid ∈ s.loop.unreaped ∧ 0 < pid
  nodup : s.loop.zombies.Nodup
  departed : ∀ pid ∈ s.departed, (pid ∈ s.forks ∧ 0 < pid) ∧
    (pid ∈ s.loop.unreaped → pid ∈ s.loop.zombies)
  unreaped : ∀ pid ∈ s.loop.unreaped, pid ∈ s.forks ∧ 0 < pid

/-- The signal of an exit is not lost: a departed worker is waited for by the handler, or the signal
is pending, and the callback goes only when nobody is left to wait for. -/
structure Alert (s : Master) : Prop where
  ahead : ∀ pid ∈ s.departed, pid ∈ s.loop.zombies → s.handling = true ∨ s.pending = true
  silent : s.loop.callback .chld = false → s.loop.zombies = []

/-- **What the invariant says** when nothing is pending. -/
theorem Sound.noticed (h : s.Sound) (halert : s.Alert) : s.Noticed := by
  intro hhandling hpending
  have hreaped : ∀ pid ∈ s.departed, pid ∉ s.loop.unreaped := by
    intro pid hpid hin
    -- a worker that is left would have its signal in hand or ahead
    rcases halert.ahead pid hpid ((h.departed pid hpid).2 hin) with he | he
    · rw [hhandling] at he
      cases he
    · rw [hpending] at he
      cases he
  refine ⟨fun pid hpid => ⟨hreaped pid hpid, ?_⟩, fun hall => ?_⟩
  · obtain ⟨⟨hfork, hpos⟩, -⟩ := h.departed pid hpid
    obtain ⟨i, hi, rfl⟩ := List.getElem_of_mem hfork
    have hi' : i < s.loop.processes.length := h.slots.length_eq ▸ hi
    have hslot := h.slots.get hi hi'
    exact ⟨i, s.loop.processes[i], List.getElem?_eq_getElem hi, List.getElem?_eq_getElem hi',
      hslot.reaped hpos (hreaped _ hpid)⟩
  · exact live_reapChildren h.slots h.forks.1 fun q hq hpos => hreaped q (hall q hq hpos)

/-! ## One step -/

/-- The steps, rule by rule. A signal `SIGCHLD` without a callback is swallowed. -/
inductive Step (s : Master) : ExitEvent → Master → Prop
  | exit {pid : ℤ} (hpid : pid ∈ s.loop.unreaped) (hz : pid ∉ s.loop.zombies) :
      Step s (.exit pid) { s with
        loop := { s.loop with zombies := pid :: s.loop.zombies }
        pending := true
        departed := s.departed ++ [pid] }
  | int (hhandling : s.handling = false) (hphase : s.loop.phase ≠ .ended) :
      Step s (.deliver .int) { s with loop := s.loop.handler .int, woken := true }
  | chld (hhandling : s.handling = false) (hphase : s.loop.phase ≠ .ended)
      (hpending : s.pending = true) (hc : s.loop.callback .chld = true) :
      Step s (.deliver .chld) { s with
        loop := { s.loop with reap := true }, pending := false, handling := true, woken := true }
  | swallow (hhandling : s.handling = false) (hphase : s.loop.phase ≠ .ended)
      (hpending : s.pending = true) (hc : s.loop.callback .chld = false) :
      Step s (.deliver .chld) { s with pending := false, woken := true }
  | wait {pid : ℤ} (hhandling : s.handling = true) (hpid : pid ∈ s.loop.zombies) :
      Step s (.wait pid) (s.wait pid)
  | done (hhandling : s.handling = true) (hz : s.loop.zombies = []) : Step s .done s.done
  | pass (hhandling : s.handling = false) (hwoken : s.woken = true)
      (hphase : s.loop.phase ≠ .ended) :
      Step s .pass { s with loop := s.loop.loopBody, woken := false }
  | alarm (hhandling : s.handling = false) (hphase : s.loop.phase = .suspended)
      (hdelay : s.loop.delay ≠ 0) :
      Step s .alarm { s with loop := { s.loop with phase := .ended } }

/-- **What a step can do.** -/
theorem step_cases {e : ExitEvent} (he : s.step e = some t) : s.Step e t := by
  cases e with
  | exit pid =>
      obtain ⟨⟨hpid, hz⟩, rfl⟩ := Option.ite_some_none_eq_some.mp he
      exact .exit hpid hz
  | deliver sig =>
      obtain ⟨⟨hhandling, hphase, hpending⟩, rfl⟩ := Option.ite_some_none_eq_some.mp he
      cases sig with
      | int => exact .int hhandling hphase
      | chld =>
          unfold deliver
          by_cases hc : s.loop.callback .chld = true
          · rw [if_pos hc]
            exact .chld hhandling hphase (hpending rfl) hc
          · rw [if_neg hc]
            exact .swallow hhandling hphase (hpending rfl) (by simpa using hc)
  | wait pid =>
      obtain ⟨⟨hhandling, hpid⟩, rfl⟩ := Option.ite_some_none_eq_some.mp he
      exact .wait hhandling hpid
  | done =>
      obtain ⟨⟨hhandling, hz⟩, rfl⟩ := Option.ite_some_none_eq_some.mp he
      exact .done hhandling hz
  | pass =>
      obtain ⟨⟨hhandling, hwoken, hphase⟩, rfl⟩ := Option.ite_some_none_eq_some.mp he
      exact .pass hhandling hwoken hphase
  | alarm =>
      obtain ⟨hhandling, he⟩ := Option.ite_none_right_eq_some.mp he
      obtain ⟨loop, hloop, rfl⟩ := Option.map_eq_some_iff.mp he
      obtain ⟨⟨hphase, hdelay⟩, rfl⟩ := Option.ite_some_none_eq_some.mp hloop
      exact .alarm hhandling hphase hdelay

/-- The handlers and the passes of the loop change what is known of the workers in the slots only. -/
theorem Sound.of_slots (h : s.Sound)
    (hslots : List.Forall₂ (Slot s.loop.unreaped) s.forks t.loop.processes)
    (hunreaped : t.loop.unreaped = s.loop.unreaped) (hzombies : t.loop.zombies = s.loop.zombies)
    (hforks : t.forks = s.forks) (hdeparted : t.departed = s.departed) : t.Sound where
  forks := hforks ▸ h.forks
  slots := by rwa [hunreaped, hforks]
  zombies := by
    rw [hunreaped, hzombies]
    exact h.zombies
  nodup := hzombies ▸ h.nodup
  departed := by
    rw [hunreaped, hzombies, hforks, hdeparted]
    exact h.departed
  unreaped := by
    rw [hunreaped, hforks]
    exact h.unreaped

/-- The handler of another signal leaves the workers and the callback of `SIGCHLD` alone. -/
theorem handler_int_keeps (l : ProcessLoop) : (l.handler .int).unreaped = l.unreaped ∧
    (l.handler .int).zombies = l.zombies ∧
    (l.handler .int).callback .chld = l.callback .chld ∧
    (l.handler .int).processes = l.processes := by
  unfold ProcessLoop.handler
  split <;> exact ⟨rfl, rfl, rfl, rfl⟩

/-- What the body of the loop leaves alone. -/
theorem loopBody_keeps (l : ProcessLoop) : l.loopBody.unreaped = l.unreaped ∧
    l.loopBody.zombies = l.zombies ∧ l.loopBody.callback = l.callback ∧
    (l.loopBody.processes = l.processes ∨ l.loopBody.processes = l.reapChildren.processes) := by
  have hsettled : l.settled.unreaped = l.unreaped ∧ l.settled.zombies = l.zombies ∧
      l.settled.callback = l.callback ∧
      (l.settled.processes = l.processes ∨ l.settled.processes = l.reapChildren.processes) := by
    unfold ProcessLoop.settled
    split
    · exact ⟨rfl, rfl, rfl, .inr rfl⟩
    · exact ⟨rfl, rfl, rfl, .inl rfl⟩
  rw [ProcessLoop.loopBody_eq]
  split
  · exact hsettled
  · split <;> exact hsettled

/-- The exit of a worker keeps the master sound. -/
theorem Sound.exit (h : s.Sound) {pid : ℤ} (hpid : pid ∈ s.loop.unreaped)
    (hz : pid ∉ s.loop.zombies) : Sound { s with
      loop := { s.loop with zombies := pid :: s.loop.zombies }
      pending := true
      departed := s.departed ++ [pid] } where
  forks := h.forks
  slots := h.slots
  zombies q hq := by
    rcases List.mem_cons.mp hq with rfl | hq
    · exact ⟨hpid, (h.unreaped q hpid).2⟩
    · exact h.zombies q hq
  nodup := List.nodup_cons.mpr ⟨hz, h.nodup⟩
  departed q hq := by
    rcases List.mem_append.mp hq with hq | hq
    · exact ⟨(h.departed q hq).1, fun hin => List.mem_cons_of_mem _ ((h.departed q hq).2 hin)⟩
    · obtain rfl := List.mem_singleton.mp hq
      exact ⟨h.unreaped q hpid, fun _ => List.mem_cons_self⟩
  unreaped := h.unreaped

/-- So does waiting for one. -/
theorem Sound.wait (h : s.Sound) {pid : ℤ} (hpid : pid ∈ s.loop.zombies) : (s.wait pid).Sound where
  forks := h.forks
  slots := slots_markExited h.slots h.forks.2 (h.zombies pid hpid).2
  zombies q hq := by
    have hne : q ≠ pid := fun he => h.nodup.not_mem_erase (he ▸ hq)
    have hold := h.zombies q (List.mem_of_mem_erase hq)
    exact ⟨List.mem_filter.mpr ⟨hold.1, by simpa using hne⟩, hold.2⟩
  nodup := h.nodup.erase pid
  departed q hq := by
    refine ⟨(h.departed q hq).1, fun hin => ?_⟩
    obtain ⟨hin, hne⟩ := List.mem_filter.mp hin
    exact (List.mem_erase_of_ne (by simpa using hne)).mpr ((h.departed q hq).2 hin)
  unreaped q hq := h.unreaped q (List.mem_filter.mp hq).1

/-- **One step** keeps the slots and the workers in step with each other. -/
theorem Sound.step (h : s.Sound) {e : ExitEvent} (he : s.step e = some t) : t.Sound := by
  cases step_cases he with
  | exit hpid hz => exact h.exit hpid hz
  | int =>
      obtain ⟨hunreaped, hzombies, -, hprocesses⟩ := handler_int_keeps s.loop
      exact h.of_slots (hprocesses ▸ h.slots) hunreaped hzombies rfl rfl
  | chld => exact h.of_slots h.slots rfl rfl rfl rfl
  | swallow => exact h.of_slots h.slots rfl rfl rfl rfl
  | wait _ hpid => exact h.wait hpid
  | done =>
      unfold Master.done
      split <;> exact h.of_slots h.slots rfl rfl rfl rfl
  | pass =>
      obtain ⟨hunreaped, hzombies, -, hprocesses⟩ := loopBody_keeps s.loop
      refine h.of_slots ?_ hunreaped hzombies rfl rfl
      rcases hprocesses with hp | hp
      · exact hp ▸ h.slots
      · exact hp ▸ slots_reapChildren h.slots
  | alarm => exact h.of_slots h.slots rfl rfl rfl rfl

/-- **An exit that is heard** leaves its signal ahead, and no other step loses it. -/
theorem Alert.step (h : s.Alert) {e : ExitEvent} (hheard : Heard s e) (he : s.step e = some t) :
    t.Alert := by
  cases step_cases he with
  | exit =>
      exact ⟨fun _ _ _ => .inr rfl, fun hc => absurd (hc.symm.trans hheard) Bool.false_ne_true⟩
  | int =>
      obtain ⟨-, hzombies, hcallback, -⟩ := handler_int_keeps s.loop
      exact ⟨fun pid hpid hz => h.ahead pid hpid (hzombies ▸ hz),
        fun hc => hzombies.trans (h.silent (hcallback.symm.trans hc))⟩
  | chld _ _ _ hset =>
      exact ⟨fun _ _ _ => .inl rfl, fun hc => absurd (hc.symm.trans hset) Bool.false_ne_true⟩
  | swallow _ _ _ hc =>
      -- the signal is gone, but there is nobody to wait for
      have hnil := h.silent hc
      exact ⟨fun pid _ hz => absurd (hnil ▸ hz) List.not_mem_nil, fun _ => hnil⟩
  | wait hhandling hpid =>
      refine ⟨fun _ _ _ => .inl hhandling, fun hc => ?_⟩
      have hnil := h.silent hc
      exact absurd (hnil ▸ hpid) List.not_mem_nil
  | done _ hnil =>
      have hzombies : s.done.loop.zombies = [] := by
        unfold Master.done
        simp only
        split <;> exact hnil
      exact ⟨fun pid _ hz => absurd (hzombies ▸ hz) List.not_mem_nil, fun _ => hzombies⟩
  | pass =>
      obtain ⟨-, hzombies, hcallback, -⟩ := loopBody_keeps s.loop
      exact ⟨fun pid hpid hz => h.ahead pid hpid (hzombies ▸ hz),
        fun hc => hzombies.trans (h.silent (hcallback ▸ hc))⟩
  | alarm => exact ⟨h.ahead, h.silent⟩

/-! ## Runs -/

variable {persistent : Bool}

/-- The master is sound in the beginning, and alert. -/
theorem sound_init (h : (system persistent).init s) : s.Sound ∧ s.Alert := by
  obtain ⟨forks, zombies, hforks, hnodup, hzombies, rfl⟩ := h
  have hunreaped : ∀ pid ∈ forks, 0 < pid → pid ∈ forks.filter (0 < ·) := fun pid hpid hpos =>
    List.mem_filter.mpr ⟨hpid, by simpa using hpos⟩
  refine ⟨⟨hforks, ?_, fun pid hpid => ?_, hnodup, nofun, fun pid hpid => ?_⟩, nofun, nofun⟩
  · refine List.forall₂_map_right_iff.mpr (List.forall₂_same.mpr fun pid hpid => ?_)
    exact ⟨.inl rfl, fun hpos hnot => absurd (hunreaped pid hpid hpos) hnot⟩
  · obtain ⟨hin, hpos⟩ := hzombies pid hpid
    exact ⟨hunreaped pid hin hpos, hpos⟩
  · obtain ⟨hin, hpos⟩ := List.mem_filter.mp hpid
    exact ⟨hin, by simpa using hpos⟩

/-- **Every exit is noticed** in a run in which every exit is heard. -/
theorem noticed_of_heard (h : ((system persistent).guard Heard).Reachable s) : s.Noticed := by
  have hinv : s.Sound ∧ s.Alert :=
    h.invariant (P := fun s => s.Sound ∧ s.Alert) (fun _ => sound_init) fun _ _ _ hs hstep =>
      ⟨hs.1.step hstep.2, hs.2.step hstep.1 hstep.2⟩
  exact hinv.1.noticed hinv.2

/-- A callback that is gone was not persistent, and its handler has returned. -/
structure Kept (b : Bool) (s : Master) : Prop where
  persistent : s.persistent = b
  dropped : s.loop.callback .chld = false → b = false ∧ s.handling = false

/-- A step keeps what is known of the callback of `SIGCHLD`. -/
theorem Kept.step (h : Kept persistent s) {e : ExitEvent} (he : s.step e = some t) :
    Kept persistent t := by
  cases step_cases he with
  | exit => exact ⟨h.persistent, h.dropped⟩
  | int =>
      obtain ⟨-, -, hcallback, -⟩ := handler_int_keeps s.loop
      exact ⟨h.persistent, fun hc => h.dropped (hcallback.symm.trans hc)⟩
  | chld _ _ _ hset =>
      exact ⟨h.persistent, fun hc => absurd (hc.symm.trans hset) Bool.false_ne_true⟩
  | swallow => exact ⟨h.persistent, h.dropped⟩
  | wait => exact ⟨h.persistent, h.dropped⟩
  | done =>
      refine ⟨h.persistent, fun hc => ⟨?_, rfl⟩⟩
      by_cases hp : s.persistent = true
      · -- a persistent callback stays
        have hkept : s.done.loop = s.loop := by
          unfold Master.done
          simp only [if_pos hp]
        exact (h.dropped (hkept ▸ hc)).1
      · rw [← h.persistent]
        simpa using hp
  | pass =>
      obtain ⟨-, -, hcallback, -⟩ := loopBody_keeps s.loop
      exact ⟨h.persistent, fun hc => h.dropped (hcallback ▸ hc)⟩
  | alarm => exact ⟨h.persistent, h.dropped⟩

/-- It is known in the beginning. -/
theorem kept_init (h : (system persistent).init s) : Kept persistent s := by
  obtain ⟨forks, zombies, -, -, -, rfl⟩ := h
  exact ⟨rfl, nofun⟩

/-- **Run lemma.** It is known in every state reached. -/
theorem kept_of_reachable (h : (system persistent).Reachable s) : Kept persistent s :=
  h.invariant (fun _ => kept_init) fun _ _ _ hs hstep => hs.step hstep

/-- A persistent callback hears every exit. -/
theorem Kept.heard (h : Kept true s) (e : ExitEvent) : Heard s e := by
  cases e with
  | exit pid =>
      by_contra hc
      exact absurd (h.dropped (by simpa [Heard] using hc)).1 (by decide)
  | _ => trivial

/-- **With a persistent callback every exit is noticed.** -/
theorem noticed_of_persistent (h : (system true).Reachable s) : s.Noticed := by
  have hinv : (s.Sound ∧ s.Alert) ∧ Kept true s :=
    h.invariant (P := fun s => (s.Sound ∧ s.Alert) ∧ Kept true s)
      (fun _ hs => ⟨sound_init hs, kept_init hs⟩) fun _ e _ hs hstep =>
        ⟨⟨hs.1.1.step hstep, hs.1.2.step (hs.2.heard e) hstep⟩, hs.2.step hstep⟩
  exact hinv.1.1.noticed hinv.1.2

/-- **An exit that is not heard goes unnoticed**: its signal is delivered to a handler that does
nothing, and the worker stays a zombie. -/
theorem not_noticed_of_not_heard (h : (system persistent).Reachable s) {pid : ℤ}
    (hheard : ¬Heard s (.exit pid)) (hphase : s.loop.phase ≠ .ended)
    (he : s.step (.exit pid) = some t) :
    ∃ u, (system persistent).Run t [.deliver .chld] u ∧ ¬u.Noticed := by
  have hc : s.loop.callback .chld = false := by simpa [Heard] using hheard
  have hhandling := ((kept_of_reachable h).dropped hc).2
  obtain ⟨⟨hpid, -⟩, rfl⟩ := Option.ite_some_none_eq_some.mp he
  refine ⟨_, .cons (if_pos ⟨hhandling, hphase, fun _ => rfl⟩) (.nil _), fun hnoticed => ?_⟩
  unfold deliver at hnoticed
  rw [if_neg (by rw [hc]; exact Bool.false_ne_true)] at hnoticed
  exact ((hnoticed hhandling rfl).reaped pid (List.mem_append_right _ List.mem_cons_self)).1 hpid

/-! ## The handler as one step

In `ProcessLoop` the handler runs at once, over the workers that have exited by then. Its run here,
when nobody exits meanwhile, leaves the same. -/

/-- `waitpid` returns the workers that have exited, one after the other. -/
theorem run_wait (hhandling : s.handling = true) {zs : List ℤ} (hz : s.loop.zombies = zs) :
    (system persistent).Run s (zs.map .wait)
      { s with loop := { s.loop with
          processes := zs.foldl (fun ps pid => ProcessLoop.markExited pid ps) s.loop.processes
          unreaped := s.loop.unreaped.filter (· ∉ zs)
          zombies := [] } } := by
  induction zs generalizing s with
  | nil =>
      have hfilter : s.loop.unreaped.filter (· ∉ ([] : List ℤ)) = s.loop.unreaped := by simp
      have hsame : { s.loop with zombies := [] } = s.loop := by rw [← hz]
      rw [hfilter, List.foldl_nil, hsame]
      exact .nil s
  | cons z zs ih =>
      have hstep : (system persistent).step s (.wait z) (s.wait z) :=
        if_pos ⟨hhandling, by rw [hz]; exact List.mem_cons_self⟩
      have hzombies : (s.wait z).loop.zombies = zs := by
        show s.loop.zombies.erase z = zs
        rw [hz, List.erase_cons_head]
      have hunreaped : (s.wait z).loop.unreaped.filter (· ∉ zs) =
          s.loop.unreaped.filter (· ∉ z :: zs) := by
        show (s.loop.unreaped.filter (· ≠ z)).filter (· ∉ zs) = _
        rw [List.filter_filter]
        refine List.filter_congr fun q _ => ?_
        simp [Bool.and_comm]
      have hrest := ih (s := s.wait z) hhandling hzombies
      rw [hunreaped] at hrest
      exact .cons hstep hrest

/-- **The atomic handler** is the run of the handler in which nobody exits meanwhile. -/
theorem exists_run_handler (hhandling : s.handling = false) (hphase : s.loop.phase ≠ .ended)
    (hpending : s.pending = true) (hp : s.persistent = false)
    (hc : s.loop.callback .chld = true) :
    ∃ es u, (system persistent).Run s es u ∧ u.loop = s.loop.handler .chld ∧
      u.handling = false ∧ u.pending = false := by
  let r : Master := { s with
    loop := { s.loop with reap := true }, pending := false, handling := true, woken := true }
  have hdeliver : (system persistent).step s (.deliver .chld) r :=
    (if_pos ⟨hhandling, hphase, fun _ => hpending⟩).trans (congrArg some (if_pos hc))
  obtain ⟨u, hu, hwait⟩ : ∃ u : Master, u = { r with loop := { r.loop with
      processes := r.loop.zombies.foldl (fun ps pid => ProcessLoop.markExited pid ps) r.loop.processes
      unreaped := r.loop.unreaped.filter (· ∉ r.loop.zombies)
      zombies := [] } } ∧ (system persistent).Run r (r.loop.zombies.map .wait) u :=
    ⟨_, rfl, run_wait rfl rfl⟩
  have hhandled : u.handling = true ∧ u.loop.zombies = [] := by
    rw [hu]
    exact ⟨rfl, rfl⟩
  have hdone : (system persistent).step u .done u.done := if_pos hhandled
  refine ⟨_, u.done, .cons hdeliver (hwait.concat hdone), ?_, rfl, by rw [hu]; rfl⟩
  rw [hu]
  unfold Master.done ProcessLoop.handler
  simp only [if_pos hc, r, hp, Bool.false_eq_true, if_false]
  rfl

/-! ## Two workers -/

/-- The master of two workers. -/
def pairMaster : Master :=
  { loop := ProcessLoop.init [7, 8], persistent := false, forks := [7, 8] }

/-- It is a first state. -/
theorem pairMaster_init : (system false).init pairMaster :=
  ⟨[7, 8], [], ProcessLoop.forks_pair, List.nodup_nil, nofun, rfl⟩

/-- The second worker exits while the handler waits for the first one: both are noticed. -/
theorem noticed_exitWhileWaiting : ∃ s : Master, s.departed = [7, 8] ∧ s.NoticesAll := by
  have h₀ : ((system false).guard Heard).Reachable pairMaster := .of_init pairMaster_init
  have h₁ := h₀.step (a := ExitEvent.exit 7) ⟨rfl, rfl⟩
  have h₂ := h₁.step (a := ExitEvent.deliver .chld) ⟨trivial, rfl⟩
  have h₃ := h₂.step (a := ExitEvent.exit 8) ⟨rfl, rfl⟩
  have h₄ := h₃.step (a := ExitEvent.wait 7) ⟨trivial, rfl⟩
  have h₅ := h₄.step (a := ExitEvent.wait 8) ⟨trivial, rfl⟩
  have h₆ := h₅.step (a := ExitEvent.done) ⟨trivial, rfl⟩
  have h₇ := h₆.step (a := ExitEvent.deliver .chld) ⟨trivial, rfl⟩
  exact ⟨_, rfl, noticed_of_heard h₇ rfl rfl⟩

/-- The second worker exits after the handler has returned: its signal is swallowed, it stays a
zombie, and `reap_children` goes on to return 1 with both workers gone. -/
theorem not_noticed_exitAfterReturn : ∃ s : Master, (system false).Reachable s ∧ s.departed = [7, 8] ∧
    s.loop.zombies = [8] ∧ s.loop.reapChildren.live = true ∧ ¬s.Noticed := by
  have h₀ : (system false).Reachable pairMaster := .of_init pairMaster_init
  have h₁ := h₀.step (a := ExitEvent.exit 7) rfl
  have h₂ := h₁.step (a := ExitEvent.deliver .chld) rfl
  have h₃ := h₂.step (a := ExitEvent.wait 7) rfl
  have h₄ := h₃.step (a := ExitEvent.done) rfl
  have h₅ := h₄.step (a := ExitEvent.exit 8) rfl
  have h₆ := h₅.step (a := ExitEvent.deliver .chld) rfl
  refine ⟨_, h₆, rfl, rfl, rfl, fun hnoticed => ?_⟩
  exact ((hnoticed rfl rfl).reaped 8 (by decide)).1 (by decide)

end Master

end Libio
