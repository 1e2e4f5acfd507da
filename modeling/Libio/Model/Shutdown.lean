import Libio.Model.WorkerExits

/-! # The end of the master

What `SIGINT` leads to in `start` of `model/process_loop.hh`. The loop arms a timer without a handler
and sends `SIGKILL` to the workers, or calls `exit` when `reap_children` returns 0.

`nobody_left` says that the master ends after `SIGINT` only, that it leaves no worker behind without
`SIGKILL`, and that one pass of the loop after `SIGINT` settles its end. -/

namespace Libio

namespace Master

/-- The worker has been sent `SIGKILL`. -/
def Killed (s : Master) (pid : ℤ) : Prop := ∃ k ∈ s.loop.kills, k.pid = pid

/-- Only `SIGALRM` is missing to the end of the master, or it has ended. -/
def Ending (s : Master) : Prop := s.loop.delay ≠ 0 ∨ s.loop.phase = .ended

/-- What the flags and the slots say of the end: `terminate` is set once the callback of `SIGINT` is
gone, a worker that is marked has been waited for, and `live` is 0 only when nobody is left. -/
structure Closing (s : Master) : Prop where
  asked : s.loop.callback .int = false → s.loop.terminate = true
  quit : s.loop.quit = false
  marked : List.Forall₂ (fun pid p => p.exited = true → pid ∉ s.loop.unreaped)
    s.forks s.loop.processes
  live : s.loop.live = false → s.loop.unreaped = []
  ending : s.Ending → s.loop.terminate = true ∧ ∀ pid ∈ s.loop.unreaped, s.Killed pid
  passed : s.loop.terminate = true → s.woken = false → s.Ending

variable {s t : Master} {forks unreaped : List ℤ} {ps : List ProcessInfo}

/-! ## Slots -/

/-- The slot that is marked is that of the worker waited for. -/
theorem marked_markExited (h : List.Forall₂ (Slot unreaped) forks ps)
    (hmarked : List.Forall₂ (fun pid p => p.exited = true → pid ∉ unreaped) forks ps) {pid : ℤ}
    (hpid : 0 < pid) :
    List.Forall₂ (fun q p => p.exited = true → q ∉ unreaped.filter (· ≠ pid)) forks
      (ProcessLoop.markExited pid ps) := by
  have hfilter : ∀ {q : ℤ}, q ∉ unreaped → q ∉ unreaped.filter (· ≠ pid) :=
    fun hq hin => hq (List.mem_filter.mp hin).1
  induction h with
  | nil => exact .nil
  | @cons q p forks ps hq _ ih =>
      obtain ⟨hp, hrest⟩ := List.forall₂_cons.mp hmarked
      rw [ProcessLoop.markExited]
      by_cases he : p.pid = pid
      · rw [if_pos he]
        -- a slot with a pid is that of its fork
        have hqpid : q = pid := by
          rcases hq.worker with hw | ⟨hw, -⟩
          · exact hw.symm.trans he
          · omega
        refine .cons (fun _ hin => ?_) (hrest.imp fun r p' hr hexited => hfilter (hr hexited))
        exact absurd hqpid (by simpa using (List.mem_filter.mp hin).2)
      · rw [if_neg he]
        exact .cons (fun hexited => hfilter (hp hexited)) (ih hrest)

/-- `reap_children` marks no slot. -/
theorem marked_reapChildren {loop : ProcessLoop}
    (h : List.Forall₂ (fun pid p => p.exited = true → pid ∉ unreaped) forks loop.processes) :
    List.Forall₂ (fun pid p => p.exited = true → pid ∉ unreaped) forks
      loop.reapChildren.processes := by
  refine List.forall₂_map_right_iff.mpr (h.imp fun q p hq => ?_)
  split
  · exact hq
  · split
    · next hexited => exact fun _ => hq hexited
    · exact hq

/-- A worker that is left has a slot with its pid. -/
theorem Closing.held (hc : s.Closing) (h : s.Sound) {pid : ℤ} (hpid : pid ∈ s.loop.unreaped) :
    ∃ p ∈ s.loop.processes, p.pid = pid ∧ p.exited = false := by
  obtain ⟨i, hi, rfl⟩ := List.getElem_of_mem (h.unreaped pid hpid).1
  have hi' : i < s.loop.processes.length := h.slots.length_eq ▸ hi
  have hslot := h.slots.get hi hi'
  have hexited : s.loop.processes[i].exited = false := by
    by_contra hne
    exact hc.marked.get hi hi' (by simpa using hne) hpid
  refine ⟨s.loop.processes[i], List.getElem_mem hi', ?_, hexited⟩
  rcases hslot.worker with hw | ⟨-, hw⟩
  · exact hw
  · exact absurd (hw.symm.trans hexited) (by decide)

/-- `reap_children` returns 0 only when nobody is left. -/
theorem Closing.unreaped_eq_nil (hc : s.Closing) (h : s.Sound)
    (hlive : s.loop.reapChildren.live = false) : s.loop.unreaped = [] := by
  refine List.eq_nil_iff_forall_not_mem.mpr fun pid hpid => ?_
  obtain ⟨p, hp, rfl, hexited⟩ := hc.held h hpid
  have hdead := List.any_eq_false.mp hlive p hp
  have hpos := (h.unreaped _ hpid).2
  have hne : p.pid ≠ -1 := by omega
  simp [hne, hexited] at hdead

/-! ## One step -/

/-- What the loop notes before it looks at its flags keeps the invariant. -/
theorem Closing.settled (hc : s.Closing) (h : s.Sound) :
    Closing { s with loop := s.loop.settled } := by
  unfold ProcessLoop.settled
  by_cases hr : s.loop.reap = true
  · rw [if_pos hr]
    exact
      { asked := hc.asked
        quit := hc.quit
        marked := marked_reapChildren hc.marked
        live := hc.unreaped_eq_nil h
        ending := hc.ending
        passed := hc.passed }
  · rw [if_neg hr]
    exact hc

/-- The reaping keeps the master sound. -/
theorem Sound.settled (h : s.Sound) : Sound { s with loop := s.loop.settled } := by
  unfold ProcessLoop.settled
  split
  · exact h.of_slots (slots_reapChildren h.slots) rfl rfl rfl rfl
  · exact h

/-- **One pass of the loop.** It ends when nobody is left, sends `SIGKILL` to everybody who is, or
has not been asked. -/
theorem Closing.pass (hc : s.Closing) (h : s.Sound) :
    Closing { s with loop := s.loop.loopBody, woken := false } := by
  have hs := hc.settled h
  have hsound := h.settled
  rw [ProcessLoop.loopBody_eq]
  by_cases hend : (!s.loop.settled.live && (s.loop.settled.terminate || s.loop.settled.quit)) = true
  · rw [if_pos hend]
    obtain ⟨hlive, hterm⟩ : s.loop.settled.live = false ∧ s.loop.settled.terminate = true := by
      have hquit : s.loop.settled.quit = false := hs.quit
      simpa [hquit] using hend
    have hnil : s.loop.settled.unreaped = [] := hs.live hlive
    refine ⟨hs.asked, hs.quit, hs.marked, hs.live, fun _ => ⟨hterm, fun pid hpid => ?_⟩, ?_⟩
    · exact absurd (hnil ▸ hpid) List.not_mem_nil
    · exact fun _ _ => .inr rfl
  · rw [if_neg hend]
    by_cases hterm : s.loop.settled.terminate = true
    · rw [if_pos hterm]
      have hdelay : (if s.loop.settled.delay = 0 then 50 else s.loop.settled.delay) ≠ 0 := by
        split
        · decide
        · assumption
      refine ⟨hs.asked, hs.quit, hs.marked, hs.live, fun _ => ⟨hterm, fun pid hpid => ?_⟩, ?_⟩
      · -- the slot of a worker that is left has its pid
        obtain ⟨p, hp, rfl, -⟩ := hs.held hsound hpid
        exact ⟨_, List.mem_append_right _ (List.mem_map_of_mem hp), rfl⟩
      · exact fun _ _ => .inl hdelay
    · rw [if_neg hterm]
      refine ⟨hs.asked, hs.quit, hs.marked, hs.live, fun hending => ?_, fun hask => ?_⟩
      · rcases hending with hdelay | hended
        · exact absurd (hs.ending (.inl hdelay)).1 hterm
        · cases hended
      · exact absurd hask hterm

/-- Waiting for a worker keeps the closing in order. -/
theorem Closing.wait (hc : s.Closing) (h : s.Sound) {pid : ℤ} (hpid : pid ∈ s.loop.zombies) :
    (s.wait pid).Closing where
  asked := hc.asked
  quit := hc.quit
  marked := marked_markExited h.slots hc.marked (h.zombies pid hpid).2
  live hlive := by
    show s.loop.unreaped.filter _ = []
    rw [hc.live hlive, List.filter_nil]
  ending hending := by
    obtain ⟨hterm, hkilled⟩ := hc.ending hending
    exact ⟨hterm, fun q hq => hkilled q (List.mem_filter.mp hq).1⟩
  passed := hc.passed

/-- The handler of `SIGINT` has run. -/
theorem Closing.int (hc : s.Closing) :
    Closing { s with loop := s.loop.handler .int, woken := true } ∧
      (s.loop.handler .int).terminate = true := by
  unfold ProcessLoop.handler
  by_cases hset : s.loop.callback .int = true
  · rw [if_pos hset]
    refine ⟨⟨fun _ => rfl, hc.quit, hc.marked, hc.live, fun hending => ?_, nofun⟩, rfl⟩
    exact ⟨rfl, (hc.ending hending).2⟩
  · rw [if_neg hset]
    -- the callback was dropped when it had run
    have hterm := hc.asked (by simpa using hset)
    exact ⟨⟨hc.asked, hc.quit, hc.marked, hc.live, hc.ending, nofun⟩, hterm⟩

/-- The body of the loop does not ask for an end. -/
theorem terminate_loopBody (l : ProcessLoop) : l.loopBody.terminate = l.terminate := by
  rw [ProcessLoop.loopBody_eq]
  split
  · exact l.settled_keeps.2
  · split <;> exact l.settled_keeps.2

/-- **One step.** Only the handler of `SIGINT` asks for the end. -/
theorem Closing.step (hc : s.Closing) (h : s.Sound) {e : ExitEvent} (he : s.step e = some t) :
    t.Closing ∧ (t.loop.terminate = true ↔ s.loop.terminate = true ∨ e = .deliver .int) := by
  cases step_cases he with
  | exit => exact ⟨⟨hc.asked, hc.quit, hc.marked, hc.live, hc.ending, hc.passed⟩, by simp⟩
  | int =>
      obtain ⟨hclosing, hterm⟩ := hc.int
      exact ⟨hclosing, iff_of_true hterm (.inr rfl)⟩
  | chld => exact ⟨⟨hc.asked, hc.quit, hc.marked, hc.live, hc.ending, nofun⟩, by simp⟩
  | swallow => exact ⟨⟨hc.asked, hc.quit, hc.marked, hc.live, hc.ending, nofun⟩, by simp⟩
  | wait _ hpid => exact ⟨hc.wait h hpid, by simp [Master.wait]⟩
  | done =>
      unfold Master.done
      by_cases hp : s.persistent = true
      · rw [if_pos hp]
        exact ⟨⟨hc.asked, hc.quit, hc.marked, hc.live, hc.ending, hc.passed⟩, by simp⟩
      · rw [if_neg hp]
        exact ⟨⟨hc.asked, hc.quit, hc.marked, hc.live, hc.ending, hc.passed⟩,
          by simp [ProcessLoop.remove]⟩
  | pass => exact ⟨hc.pass h, by simp [terminate_loopBody]⟩
  | alarm _ _ hdelay =>
      refine ⟨⟨hc.asked, hc.quit, hc.marked, hc.live, fun _ => hc.ending (.inl hdelay), ?_⟩, by simp⟩
      exact fun _ _ => .inr rfl

/-! ## Runs -/

variable {persistent : Bool}

/-- Nobody has asked for an end in the beginning. -/
theorem closing_init (h : (system persistent).init s) :
    s.Closing ∧ s.loop.terminate = false := by
  obtain ⟨forks, zombies, -, -, -, rfl⟩ := h
  refine ⟨⟨nofun, rfl, ?_, nofun, fun hending => ?_, nofun⟩, rfl⟩
  · refine List.forall₂_map_right_iff.mpr (List.forall₂_same.mpr fun pid _ hexited => ?_)
    cases hexited
  · rcases hending with hdelay | hended
    · exact absurd rfl hdelay
    · cases hended

/-- A run keeps the invariant, and asks for the end with `SIGINT` only. -/
theorem Closing.run {es : List ExitEvent} (hrun : (system persistent).Run s es t) (hc : s.Closing)
    (h : s.Sound) :
    t.Closing ∧ (t.loop.terminate = true ↔ s.loop.terminate = true ∨ .deliver .int ∈ es) := by
  induction hrun with
  | nil => exact ⟨hc, by simp⟩
  | cons hstep _ ih =>
      obtain ⟨hclosing, hterm⟩ := hc.step h hstep
      obtain ⟨hlast, hrest⟩ := ih hclosing (h.step hstep)
      refine ⟨hlast, hrest.trans ?_⟩
      rw [hterm, List.mem_cons, or_assoc, eq_comm (a := ExitEvent.deliver .int)]

/-- **Nobody is left behind.** When the master has ended, or only its timer is missing, `SIGINT` was
delivered and `SIGKILL` was sent to every worker that is not waited for; and once the loop has gone
round after a `SIGINT`, it is so. -/
theorem nobody_left {s₀ : Master} {es : List ExitEvent} (hinit : (system persistent).init s₀)
    (hrun : (system persistent).Run s₀ es s) :
    (s.Ending → .deliver .int ∈ es ∧ ∀ pid ∈ s.loop.unreaped, s.Killed pid) ∧
      (.deliver .int ∈ es → s.woken = false → s.Ending) := by
  obtain ⟨hc, hfirst⟩ := closing_init hinit
  obtain ⟨hlast, hterm⟩ := hc.run hrun (sound_init hinit).1
  have hasked : s.loop.terminate = true ↔ .deliver .int ∈ es := by
    rw [hterm, hfirst]
    simp
  refine ⟨fun hending => ?_, fun hint hwoken => hlast.passed (hasked.mpr hint) hwoken⟩
  obtain ⟨hask, hkilled⟩ := hlast.ending hending
  exact ⟨hasked.mp hask, hkilled⟩

/-- One of two workers has exited when `SIGINT` is delivered: the timer ends the master, with
`SIGKILL` on its way to the other one. -/
theorem nobody_left_survivor : ∃ s : Master, (system false).Reachable s ∧ s.loop.phase = .ended ∧
    s.loop.unreaped = [8] ∧ s.Killed 8 := by
  have hrun : (system false).Run pairMaster [.exit 7, .deliver .chld, .wait 7, .done, .deliver .int, .pass,
      .alarm] _ :=
    .cons rfl (.cons rfl (.cons rfl (.cons rfl (.cons rfl (.cons rfl (.cons rfl (.nil _)))))))
  have hkilled := ((nobody_left pairMaster_init hrun).1 (.inr rfl)).2
  exact ⟨_, ⟨pairMaster, _, pairMaster_init, hrun⟩, rfl, rfl, hkilled 8 List.mem_cons_self⟩

end Master

end Libio
