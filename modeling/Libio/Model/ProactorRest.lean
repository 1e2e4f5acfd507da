import Libio.Foundation.Families
import Libio.Model.ProactorWait

/-! # The proactor runs dry or breaks

When nobody submits any more, no thread enters `run` and none wakes up by itself, and the multiplexer
returns with descriptors that are ready for something they were asked about, all runs of the threads
end. With nothing pending they end with every callback run and every thread asleep; with an operation
pending the loop goes on until a handler has emptied its queue and destroyed its closure
(`runs_dry_or_breaks`).

A round of the loop moves a callback to `op_queue` at least, and a callback is moved once and taken
once. In between, where a thread is ahead of another one depends on what there is to find: with
callbacks in `op_queue` all come to `pop`, with operations pending to `listen`, and with nothing to
the wait. -/

namespace Libio

universe u

namespace Proactor

variable {κ : Type u} (s : Proactor κ)

/-- Nobody submits, no thread starts or wakes up by itself, and the descriptors that `listen` reports
are different and each ready for something it was asked about. An error makes a descriptor ready for
what it was not asked about as well. -/
def Prompt : ProactorEvent κ → Prop
  | .start | .async .. | .spurious _ => False
  | .loop _ (.listen events) => events ≠ [] ∧ (events.map Prod.fst).Nodup ∧
      ∀ e ∈ events, ∃ d : Dir, d.watches e.2 = true ∧ d.watches (s.task.interest e.1) = true
  | _ => True

/-- No entry of `ops` is left behind without an operation, nor a channel of the reactor that is not
about to be cleaned up. -/
structure Tidy : Prop where
  entries : ∀ (fd : ℤ) (data : DescriptorData κ), s.ops[fd]? = some data → data.empty = false
  channels : ∀ fd, s.task.channels fd ≠ none →
    fd ∈ s.task.needclean ∨ ∃ d, s.pending fd d ≠ []

variable {s} {t : Proactor κ} {fd : ℤ} {d : Dir} {k : ℕ}

/-! ## Nothing is left behind -/

/-- **Frame rule**: what keeps the entries and the channels. -/
theorem Tidy.of_frame (h : s.Tidy) (hops : t.ops = s.ops) (hchannels : t.task.channels = s.task.channels)
    (hneedclean : t.task.needclean = s.task.needclean) : t.Tidy where
  entries := by
    rw [hops]
    exact h.entries
  channels := by
    simp only [pending]
    rw [hops, hchannels, hneedclean]
    exact h.channels

/-- A submission makes the entry and the channel of its descriptor, if they are not there. -/
theorem Tidy.submit (h : s.Tidy) (f : κ) : (s.submit d fd f).Tidy where
  entries fd' data hdata := by
    by_cases hfd : compare fd fd' = .eq
    · have hnew : (s.ops.insert fd (((s.ops[fd]?.getD {})).setQueue d
          ((s.ops[fd]?.getD {}).queue d ++ [f])))[fd']? = some data := hdata
      rw [Std.ExtTreeMap.getElem?_insert, if_pos hfd] at hnew
      obtain rfl := Option.some.inj hnew
      refine Bool.eq_false_iff.mpr fun hempty => ?_
      have hqueue := DescriptorData.empty_iff.mp hempty d
      rw [DescriptorData.queue_setQueue, if_pos rfl] at hqueue
      simp at hqueue
    · refine h.entries fd' data ?_
      have hnew : (s.ops.insert fd (((s.ops[fd]?.getD {})).setQueue d
          ((s.ops[fd]?.getD {}).queue d ++ [f])))[fd']? = some data := hdata
      rwa [Std.ExtTreeMap.getElem?_insert, if_neg hfd] at hnew
  channels fd' hfd' := by
    by_cases hfd : fd' = fd
    · exact .inr ⟨d, by rw [pending_submit, if_pos ⟨hfd, rfl⟩]; simp⟩
    · have hold : s.task.channels fd' ≠ none := by
        intro hnone
        refine hfd' ?_
        show Function.update s.task.channels fd _ fd' = none
        rw [Function.update_of_ne hfd, hnone]
      refine (h.channels fd' hold).imp_right fun ⟨d', hd'⟩ => ⟨d', ?_⟩
      rwa [pending_submit, if_neg fun he => hfd he.1]

/-- A handler that does not empty its queue leaves the entry with an operation, and the channels. -/
theorem Tidy.complete (h : s.Tidy) (hdefined : (s.complete fd d).undefined = false) :
    (s.complete fd d).Tidy := by
  cases hpending : s.pending fd d with
  | nil =>
      rw [complete_of_nil hpending]
      exact h
  | cons f rest =>
      obtain ⟨data, hcomplete, hqueue, hafter⟩ := complete_of_cons hpending
      cases rest with
      | nil =>
          rw [hcomplete] at hdefined
          cases hdefined
      | cons g rest =>
          have hops : (s.complete fd d).ops = s.ops.insert fd data := by rw [hcomplete]
          have htask : (s.complete fd d).task = s.task := by rw [hcomplete]; rfl
          refine ⟨fun fd' data' hdata => ?_, fun fd' hfd' => ?_⟩
          · rw [hops, Std.ExtTreeMap.getElem?_insert] at hdata
            split at hdata
            · obtain rfl := Option.some.inj hdata
              refine Bool.eq_false_iff.mpr fun hempty => ?_
              rw [DescriptorData.empty_iff.mp hempty d] at hqueue
              cases hqueue
            · exact h.entries fd' data' hdata
          · rw [htask] at hfd' ⊢
            refine (h.channels fd' hfd').imp_right fun ⟨d', hd'⟩ => ⟨d', ?_⟩
            rw [hafter]
            split
            · exact List.cons_ne_nil _ _
            · exact hd'

/-- The clean-up takes the channels away that are queued. -/
theorem Tidy.clean (h : s.Tidy) (phase : LoopPhase) :
    Tidy { s with task := { s.task.clean with phase := phase } } where
  entries := h.entries
  channels fd hfd := by
    have hclean : s.task.clean.channels fd ≠ none := hfd
    rw [ReactorLoop.channels_clean] at hclean
    split at hclean
    · exact absurd rfl hclean
    · next hqueued => exact .inr ((h.channels fd hclean).resolve_left hqueued)

/-- **Every step** leaves nothing behind that destroys no closure. -/
theorem Tidy.step (h : s.Tidy) {e : ProactorEvent κ} (hdefined : t.undefined = false)
    (he : s.step e = some t) : t.Tidy := by
  cases e with
  | start =>
      obtain rfl := Option.some.inj he
      exact h.of_frame rfl rfl rfl
  | async caller d socket f =>
      obtain ⟨-, ⟨-, rfl⟩ | ⟨-, -, rfl⟩⟩ := async_cases he
      · exact h
      · exact h.submit f
  | run k =>
      obtain ⟨-, hrun⟩ := Option.ite_none_right_eq_some.mp he
      obtain ⟨htask, hops, -⟩ := runStep_frame hrun
      exact h.of_frame hops (by rw [htask]) (by rw [htask])
  | notify k target =>
      simp only [Proactor.step] at he
      split at he
      · obtain ⟨-, he⟩ := Option.ite_none_right_eq_some.mp he
        obtain rfl := Option.some.inj he
        cases target <;> exact h.of_frame rfl rfl rfl
      · cases he
  | spurious k =>
      obtain ⟨-, he⟩ := Option.ite_none_right_eq_some.mp he
      obtain rfl := Option.some.inj he
      exact h.of_frame rfl rfl rfl
  | loop k e =>
      obtain ⟨-, he⟩ := Option.ite_none_right_eq_some.mp he
      obtain ⟨-, task, -, ⟨-, -, heq, ht⟩ | ⟨-, rfl, rfl⟩⟩ := loopStep_cases he
      · have htidy : Tidy { s with task := task } :=
          h.of_frame rfl (by rw [heq]) (by rw [heq])
        rcases ht with rfl | ⟨fd, d, rfl⟩
        · exact htidy
        · exact htidy.complete hdefined
      · exact (h.clean .idle).of_frame rfl rfl rfl
  | skip k =>
      simp only [Proactor.step] at he
      split at he
      · obtain ⟨-, he⟩ := Option.ite_none_right_eq_some.mp he
        obtain rfl := Option.some.inj he
        exact h.of_frame rfl rfl rfl
      · cases he

/-- An entry has an operation. -/
theorem Tidy.exists_pending (h : s.Tidy) (hops : s.ops.isEmpty = false) :
    ∃ fd d, s.pending fd d ≠ [] := by
  by_contra hnone
  push Not at hnone
  refine Std.ExtTreeMap.isEmpty_eq_false_iff.mp hops (Std.ExtTreeMap.ext_getElem? fun fd => ?_)
  cases hdata : s.ops[fd]? with
  | none => simp
  | some data =>
      have hempty : data.empty = true :=
        DescriptorData.empty_iff.mpr fun d => by simpa [pending, hdata] using hnone fd d
      rw [h.entries fd data hdata] at hempty
      cases hempty

/-- Without entries nothing is pending. -/
theorem pending_of_isEmpty (hops : s.ops.isEmpty = true) (fd : ℤ) (d : Dir) : s.pending fd d = [] := by
  rw [pending, Std.ExtTreeMap.isEmpty_iff.mp hops, Std.ExtTreeMap.getElem?_empty]
  exact DescriptorData.queue_default d

/-- A handler leaves an entry where there was one. -/
theorem isEmpty_complete : (s.complete fd d).ops.isEmpty = s.ops.isEmpty := by
  cases hpending : s.pending fd d with
  | nil => rw [complete_of_nil hpending]
  | cons f rest =>
      obtain ⟨data, hcomplete, -⟩ := complete_of_cons hpending
      have hops : s.ops.isEmpty = false := by
        refine Bool.eq_false_iff.mpr fun hempty => ?_
        rw [pending_of_isEmpty hempty] at hpending
        cases hpending
      rw [hcomplete, hops]
      exact Std.ExtTreeMap.isEmpty_eq_false_iff.mpr Std.ExtTreeMap.insert_ne_empty

/-- Where nothing is pending no closure is destroyed. -/
theorem lasting_of_isEmpty (hops : s.ops.isEmpty = true) (e : ProactorEvent κ) : s.Lasting e := by
  unfold Lasting
  split
  · intro e _
    simp [pending_of_isEmpty hops]
  · trivial

/-! ## What is left -/

/-- The operations that were not moved to `op_queue` yet. -/
def left (s : Proactor κ) : ℕ := s.submitted.length - s.moved.length

/-- The submissions of a descriptor and a direction are counted by their keys. -/
theorem length_callbacksOf (fd : ℤ) (d : Dir) (l : List ((ℤ × Dir) × κ)) :
    (callbacksOf fd d l).length = (l.map Prod.fst).count (fd, d) := by
  unfold callbacksOf
  rw [List.length_map, List.count, List.countP_map, List.countP_eq_length_filter]
  congr 2
  funext e
  exact (beq_eq_decide e.1 (fd, d)).symm

/-- While an operation is pending, fewer were moved than submitted. -/
theorem Ledger.moved_lt (h : s.Ledger) (hpending : s.pending fd d ≠ []) :
    s.moved.length < s.submitted.length := by
  -- the keys that were moved, and one more, are among those that were submitted
  have hsub : ((fd, d) :: s.moved.map Prod.fst).Subperm (s.submitted.map Prod.fst) := by
    refine List.subperm_ext_iff.mpr fun x _ => ?_
    have hmoved := congrArg List.length (h.moved x.1 x.2)
    rw [List.length_append, length_callbacksOf, length_callbacksOf] at hmoved
    rw [List.count_cons, hmoved]
    refine Nat.add_le_add_left ?_ _
    split
    · next heq =>
        obtain rfl := beq_iff_eq.mp heq
        exact List.length_pos_iff.mpr hpending
    · exact Nat.zero_le _
  simpa [Nat.succ_le_iff] using hsub.length_le

/-- What is pending was submitted. -/
theorem Ledger.mem_submitted (h : s.Ledger) (hpending : s.pending fd d ≠ []) :
    fd ∈ s.submitted.map fun e => e.1.1 := by
  obtain ⟨f, hf⟩ := List.exists_mem_of_ne_nil _ hpending
  have hin : f ∈ callbacksOf fd d s.submitted := by
    rw [h.moved]
    exact List.mem_append_right _ hf
  obtain ⟨e, he, -⟩ := List.mem_map.mp hin
  obtain ⟨he, hkey⟩ := List.mem_filter.mp he
  exact List.mem_map.mpr ⟨e, he, by rw [of_decide_eq_true hkey]⟩

/-- A reported descriptor is looked at twice at most. -/
theorem length_eventsOf_le (events : List (ℤ × Mask)) :
    (events.flatMap Reactor.eventsOf).length ≤ 2 * events.length := by
  induction events with
  | nil => exact le_rfl
  | cons e events ih =>
      have htwo : (Reactor.eventsOf e).length ≤ 2 := by
        unfold Reactor.eventsOf
        rw [List.length_append]
        split <;> split <;> simp
      rw [List.flatMap_cons, List.length_append, List.length_cons]
      omega

/-- The multiplexer reports no more than was submitted. -/
theorem Ledger.length_events (h : s.Ledger) (harmed : s.Armed) {events : List (ℤ × Mask)}
    (hprompt : Prompt s (.loop k (.listen events))) :
    (events.flatMap Reactor.eventsOf).length ≤ 2 * s.submitted.length := by
  obtain ⟨-, hnodup, hready⟩ := hprompt
  have hsub : events.map Prod.fst ⊆ s.submitted.map fun e => e.1.1 := by
    intro fd hfd
    obtain ⟨e, he, rfl⟩ := List.mem_map.mp hfd
    obtain ⟨d, -, hwatched⟩ := hready e he
    rw [harmed.watched] at hwatched
    exact h.mem_submitted (d := d) (by simpa using hwatched)
  have hlength := hnodup.length_le_of_subset hsub
  rw [List.length_map, List.length_map] at hlength
  have := length_eventsOf_le events
  omega

/-! ## What there is to do until the next callback is moved or taken -/

/-- How far a thread is from where it goes with callbacks in `op_queue`, else with operations
pending, else with neither. -/
def rank (queued pending : Bool) (pc : RunPc κ) : ℕ :=
  match queued, pending with
  -- to `pop`
  | true, _ =>
      match pc with
      | .popping => 0
      | .checking | .asleep => 1
      | .locking | .lowering | .calling _ => 2
      | .looping => 3
      | .raising | .notifying _ => 4
      | .entering | .rechecking _ => 5
      | .testing => 6
      | .looking => 7
  -- to `listen`, or to the wait when another thread is there
  | false, true =>
      match pc with
      | .asleep | .looping => 0
      | .locking | .raising => 1
      | .entering => 2
      | .testing => 3
      | .looking => 4
      | .checking => 5
      | .calling _ | .lowering => 6
      | .notifying _ => 8
      | .rechecking _ => 9
      | .popping => 10
  -- to the wait
  | false, false =>
      match pc with
      | .asleep => 0
      | .locking => 1
      | .looking => 2
      | .checking => 3
      | .calling _ | .lowering => 4
      | .looping => 5
      | .raising | .notifying _ => 6
      | .entering | .rechecking _ => 7
      | .testing | .popping => 8

/-- An event ahead in the batch has an operation pending. -/
def live (s : Proactor κ) : Bool := s.task.phase.batch.any fun e => !(s.pending e.1 e.2).isEmpty

/-- How far the loop is from moving a callback, or from its clean-up when there is none ahead, with
batches of at most `m` events. -/
def phaseRank (m : ℕ) (live : Bool) : LoopPhase → ℕ
  | .idle => 2 * m + 2
  | .running batch => 2 * batch.length + 1 + if live then 0 else 2 * m + 20
  | .dispatching batch => 2 * batch.length + if live then 0 else 2 * m + 20

/-- What `n` threads have to do until the next callback is moved or taken. -/
def effort (m n : ℕ) (s : Proactor κ) : ℕ :=
  Family.total (rank (!s.opQueue.empty) !s.ops.isEmpty) s.threads n + phaseRank m s.live s.task.phase

/-- What there is left to do: an operation is moved, and then it is taken. -/
def toil (m n : ℕ) (s : Proactor κ) : ℕ :=
  (10 * n + 4 * m + 22) * (2 * s.left + s.opQueue.length) + s.effort m n

/-- A thread has no more than ten steps in front of it. -/
theorem rank_le (queued pending : Bool) (pc : RunPc κ) : rank queued pending pc ≤ 10 := by
  cases queued <;> cases pending <;> cases pc <;> simp [rank]

/-- A thread that is woken. -/
theorem rank_locking (queued pending : Bool) :
    rank queued pending (.locking : RunPc κ) = rank queued pending (.asleep : RunPc κ) + 1 := by
  cases queued <;> cases pending <;> rfl

/-- A notification is worth the thread it wakes. -/
theorem rank_after (queued pending : Bool) (cb : Option κ) :
    rank queued pending (.after cb) + 2 ≤ rank queued pending (.notifying cb) := by
  cases queued <;> cases pending <;> cases cb <;> simp [rank, RunPc.after]

/-- What is left to do is bounded by the threads and the batch. -/
theorem effort_lt {m n : ℕ} (hbatch : s.task.phase.batch.length ≤ m) :
    s.effort m n < 10 * n + 4 * m + 22 := by
  have hthreads : Family.total (rank (!s.opQueue.empty) !s.ops.isEmpty) s.threads n ≤ n * 10 :=
    Family.total_le_mul fun _ _ => rank_le _ _ _
  have hphase : phaseRank m s.live s.task.phase ≤ 4 * m + 21 := by
    cases hphase : s.task.phase with
    | idle => simp only [phaseRank]; omega
    | running batch | dispatching batch =>
        rw [hphase] at hbatch
        simp only [LoopPhase.batch] at hbatch
        simp only [phaseRank]
        split <;> omega
  unfold effort
  omega

/-- **A callback is moved or taken**: there is less left to do. -/
theorem toil_lt_of_load {m n : ℕ} (hbatch : t.task.phase.batch.length ≤ m)
    (hload : 2 * t.left + t.opQueue.length < 2 * s.left + s.opQueue.length) : t.toil m n < s.toil m n := by
  have heffort := effort_lt (n := n) hbatch
  have hmul := Nat.mul_le_mul_left (10 * n + 4 * m + 22) hload
  rw [Nat.succ_eq_add_one, Nat.mul_add, Nat.mul_one] at hmul
  unfold toil
  omega

/-- Nothing is moved or taken, but less is to do until then. -/
theorem toil_lt_of_effort {m n : ℕ} (hsubmitted : t.submitted = s.submitted) (hmoved : t.moved = s.moved)
    (hqueue : t.opQueue = s.opQueue) (heffort : t.effort m n < s.effort m n) :
    t.toil m n < s.toil m n := by
  unfold toil left
  rw [hsubmitted, hmoved, hqueue]
  omega

/-- The effort after a thread went on. -/
theorem effort_goto {m n : ℕ} (pc : RunPc κ) (hk : k < n) :
    (s.goto k pc).effort m n + rank (!s.opQueue.empty) (!s.ops.isEmpty) (s.threads k) =
      s.effort m n + rank (!s.opQueue.empty) (!s.ops.isEmpty) pc := by
  have htotal : Family.total (rank (!s.opQueue.empty) !s.ops.isEmpty) (s.goto k pc).threads n +
      rank (!s.opQueue.empty) (!s.ops.isEmpty) (s.threads k) =
      Family.total (rank (!s.opQueue.empty) !s.ops.isEmpty) s.threads n +
        rank (!s.opQueue.empty) (!s.ops.isEmpty) pc := Family.total_update hk
  unfold effort
  change Family.total (rank (!s.opQueue.empty) !s.ops.isEmpty) _ n + phaseRank m s.live s.task.phase +
    _ = _
  omega

/-- **A thread goes on** on its way, with the flag and the mutex as they may be. -/
theorem toil_goto {m n : ℕ} {pc : RunPc κ} {inloop : Bool} {mutex : Option ℕ} (hk : k < n)
    (hrank : rank (!s.opQueue.empty) (!s.ops.isEmpty) pc <
      rank (!s.opQueue.empty) (!s.ops.isEmpty) (s.threads k)) :
    toil m n { s.goto k pc with inloop := inloop, mutex := mutex } < s.toil m n := by
  refine toil_lt_of_effort rfl rfl rfl ?_
  have heffort := effort_goto (s := s) (m := m) pc hk
  show (s.goto k pc).effort m n < s.effort m n
  omega

/-! ## Every step -/

section Steps

variable {m n : ℕ}

/-- **A thread's own step.** -/
theorem toil_runStep (hk : k < n) (hbatch : s.task.phase.batch.length ≤ m) (h : s.runStep k = some t) :
    t.toil m n < s.toil m n := by
  unfold runStep at h
  cases hpc : s.threads k with
  | checking =>
      simp only [hpc] at h
      obtain rfl := Option.some.inj h
      refine toil_goto hk ?_
      rw [hpc]
      cases s.opQueue.empty <;> cases s.ops.isEmpty <;> simp [rank]
  | popping =>
      simp only [hpc] at h
      split at h
      · next f rest hpop =>
          -- a callback less in `op_queue`, whatever the ranks are then
          obtain rfl := Option.some.inj h
          refine toil_lt_of_load hbatch ?_
          show 2 * s.left + rest.length < _
          rw [LockQueue.pop_eq_some.mp hpop, List.length_cons]
          omega
      · next hpop =>
          -- another thread was faster
          obtain rfl := Option.some.inj h
          refine toil_goto hk ?_
          rw [hpc, LockQueue.empty_iff.mpr (LockQueue.pop_eq_none.mp hpop)]
          cases s.ops.isEmpty <;> simp [rank]
  | rechecking cb =>
      simp only [hpc] at h
      obtain rfl := Option.some.inj h
      refine toil_goto hk ?_
      rw [hpc]
      cases s.opQueue.empty <;> cases s.ops.isEmpty <;> cases cb <;> simp [rank, RunPc.after]
  | calling f =>
      simp only [hpc] at h
      obtain rfl := Option.some.inj h
      refine toil_goto hk ?_
      rw [hpc]
      cases s.opQueue.empty <;> cases s.ops.isEmpty <;> simp [rank]
  | looking =>
      simp only [hpc] at h
      obtain rfl := Option.some.inj h
      refine toil_goto hk ?_
      rw [hpc]
      cases s.opQueue.empty <;> cases s.ops.isEmpty <;> simp [rank]
  | testing =>
      -- to the wait or to the lock: both are behind this place
      simp only [hpc] at h
      obtain rfl := Option.some.inj h
      refine toil_goto hk ?_
      rw [hpc]
      cases s.opQueue.empty <;> cases s.ops.isEmpty <;> cases s.inloop <;> simp [rank]
  | entering =>
      simp only [hpc] at h
      obtain ⟨-, h⟩ := Option.ite_none_right_eq_some.mp h
      obtain rfl := Option.some.inj h
      refine toil_goto hk ?_
      rw [hpc]
      cases s.opQueue.empty <;> cases s.ops.isEmpty <;> simp [rank]
  | raising =>
      simp only [hpc] at h
      obtain rfl := Option.some.inj h
      refine toil_goto hk ?_
      rw [hpc]
      cases s.opQueue.empty <;> cases s.ops.isEmpty <;> simp [rank]
  | lowering =>
      simp only [hpc] at h
      obtain rfl := Option.some.inj h
      refine toil_goto hk ?_
      rw [hpc]
      cases s.opQueue.empty <;> cases s.ops.isEmpty <;> simp [rank]
  | locking =>
      simp only [hpc] at h
      obtain ⟨-, h⟩ := Option.ite_none_right_eq_some.mp h
      obtain rfl := Option.some.inj h
      refine toil_goto hk ?_
      rw [hpc]
      cases s.opQueue.empty <;> cases s.ops.isEmpty <;> simp [rank]
  | notifying _ | looping | asleep =>
      simp only [hpc] at h
      cases h

/-- **A notification** wakes one thread at most, which is less than the notifier goes on. -/
theorem toil_notify (hk : k < n) {cb : Option κ} {target : Option ℕ} (hpc : s.threads k = .notifying cb)
    (htarget : ∀ j ∈ target, j < n ∧ s.threads j = .asleep) :
    ((s.notifyOne target).goto k (.after cb)).toil m n < s.toil m n := by
  have hafter := rank_after (!s.opQueue.empty) (!s.ops.isEmpty) cb
  cases target with
  | none =>
      show (s.goto k (.after cb)).toil m n < s.toil m n
      refine toil_goto hk ?_
      rw [hpc]
      omega
  | some j =>
      obtain ⟨hj, hasleep⟩ := htarget j rfl
      have hne : k ≠ j := by
        rintro rfl
        rw [hasleep] at hpc
        cases hpc
      -- the sleeper costs one, and the notifier pays two
      have hwoken := effort_goto (s := s) (m := m) .locking hj
      rw [hasleep, rank_locking] at hwoken
      have hpc' : (s.goto j .locking).threads k = .notifying cb := by
        rw [threads_goto, if_neg hne, hpc]
      have hgone := effort_goto (s := s.goto j .locking) (m := m) (.after cb) hk
      rw [hpc'] at hgone
      refine toil_lt_of_effort rfl rfl rfl ?_
      show ((s.goto j .locking).goto k (.after cb)).effort m n < _
      change _ = _ + rank (!s.opQueue.empty) (!s.ops.isEmpty) (.after cb) at hgone
      change _ + rank (!s.opQueue.empty) (!s.ops.isEmpty) _ = _ at hgone
      omega

/-- A handler submits nothing. -/
theorem submitted_complete : (s.complete fd d).submitted = s.submitted := by
  cases hpending : s.pending fd d with
  | nil => rw [complete_of_nil hpending]
  | cons f rest =>
      obtain ⟨data, hcomplete, -⟩ := complete_of_cons hpending
      rw [hcomplete]

/-- A handler leaves the loop where it is. -/
theorem phase_complete : (s.complete fd d).task.phase = s.task.phase := by
  cases hpending : s.pending fd d with
  | nil => rw [complete_of_nil hpending]
  | cons f rest =>
      obtain ⟨data, hcomplete, -⟩ := complete_of_cons hpending
      rw [hcomplete]
      cases rest with
      | cons g rest => rfl
      | nil =>
          unfold ReactorLoop.removeHandler
          simp only [List.isEmpty_nil, if_true]
          split <;> rfl

/-- **A look at an event.** -/
theorem toil_dispatch (h : s.Sound) (hbatch : s.task.phase.batch.length ≤ m)
    (hd : s.dispatch = some t) : t.toil m n < s.toil m n ∧ t.task.phase.batch.length ≤ m := by
  obtain ⟨fd, d, batch, hphase⟩ := exists_of_dispatch hd
  rw [dispatch_eq h hphase] at hd
  obtain rfl := Option.some.inj hd
  have hlength : batch.length + 1 ≤ m := by
    rw [hphase] at hbatch
    exact hbatch
  split
  · next hnil =>
      -- passed over
      refine ⟨toil_lt_of_effort rfl rfl rfl ?_, Nat.le_of_succ_le hlength⟩
      have hlive : live { s with task := { s.task with phase := .dispatching batch } } = s.live := by
        unfold live
        rw [hphase]
        simp only [LoopPhase.batch, List.any_cons, hnil, List.isEmpty_nil, Bool.not_true,
          Bool.false_or]
        rfl
      unfold effort
      rw [hlive, hphase]
      simp only [phaseRank, List.length_cons]
      omega
  · next hne =>
      -- moved: what was counted twice is counted once now
      obtain ⟨f, rest, hpending⟩ := List.exists_cons_of_ne_nil hne
      have hpending' : pending { s with task := { s.task with phase := .running batch } } fd d =
          f :: rest := hpending
      obtain ⟨data, hcomplete, -⟩ := complete_of_cons hpending'
      have hbatch' : (complete { s with task := { s.task with phase := .running batch } } fd d
          ).task.phase.batch.length ≤ m := by
        rw [phase_complete]
        exact Nat.le_of_succ_le hlength
      refine ⟨toil_lt_of_load hbatch' ?_, hbatch'⟩
      have hlt := h.ledger.moved_lt hne
      rw [hcomplete]
      simp only [left, List.length_append, List.length_singleton]
      omega

/-- The loop looks at a descriptor for each direction it was reported with. -/
theorem mem_eventsOf {e : ℤ × Mask} (hd : d.watches e.2 = true) : (e.1, d) ∈ Reactor.eventsOf e := by
  unfold Reactor.eventsOf
  cases d with
  | read =>
      have hrd : e.2.rd = true := hd
      simp [hrd]
  | write =>
      have hwr : e.2.wr = true := hd
      simp [hwr]

/-- **A step of the loop.** -/
theorem toil_loopStep (h : s.Sound) (hk : k < n) (hbatch : s.task.phase.batch.length ≤ m)
    (hroom : 2 * s.submitted.length ≤ m) {e : LoopEvent (ℤ × Dir)} (hprompt : Prompt s (.loop k e))
    (he : s.loopStep k e = some t) : t.toil m n < s.toil m n ∧ t.task.phase.batch.length ≤ m := by
  unfold loopStep at he
  split at he
  case h_1 events hpc =>
    obtain ⟨task, htask, rfl⟩ := Option.map_eq_some_iff.mp he
    have hidle : s.task.phase = .idle := (Option.ite_none_right_eq_some.mp htask).1.1
    obtain ⟨-, rfl⟩ := ReactorLoop.step_listen htask
    have hlength := (h.ledger.length_events h.armed hprompt).trans hroom
    refine ⟨toil_lt_of_effort rfl rfl rfl ?_, hlength⟩
    -- one of the events that are reported has an operation pending
    have hlive : live { s with task :=
        { s.task with phase := .running (events.flatMap Reactor.eventsOf) } } = true := by
      obtain ⟨hne, -, hready⟩ := hprompt
      obtain ⟨e, hin⟩ := List.exists_mem_of_ne_nil events hne
      obtain ⟨d, hd, hwatched⟩ := hready e hin
      rw [h.armed.watched] at hwatched
      exact List.any_eq_true.mpr
        ⟨(e.1, d), List.mem_flatMap.mpr ⟨e, hin, mem_eventsOf hd⟩, hwatched⟩
    unfold effort
    rw [hlive, hidle]
    simp only [phaseRank, if_true]
    omega
  case h_2 hpc =>
    obtain ⟨task, htask, rfl⟩ := Option.map_eq_some_iff.mp he
    obtain ⟨batch, hphase⟩ : ∃ batch, s.task.phase = .running batch := by
      simp only [ReactorLoop.step] at htask
      split at htask
      · next batch hphase => exact ⟨batch, hphase⟩
      · cases htask
    obtain rfl := ReactorLoop.step_resume htask
    have hlive : live { s with task := { s.task with phase := .dispatching s.task.phase.batch } } =
        s.live := rfl
    refine ⟨toil_lt_of_effort rfl rfl rfl ?_, hbatch⟩
    unfold effort
    rw [hlive, hphase]
    simp only [phaseRank, LoopPhase.batch]
    omega
  case h_3 hpc => exact toil_dispatch h hbatch he
  case h_4 hpc =>
    obtain ⟨task, htask, rfl⟩ := Option.map_eq_some_iff.mp he
    have hphase : s.task.phase = .dispatching [] := by
      simp only [ReactorLoop.step] at htask
      split at htask
      · next hphase => exact hphase
      · cases htask
    obtain rfl := ReactorLoop.step_clean htask
    refine ⟨toil_lt_of_effort rfl rfl rfl ?_, Nat.zero_le m⟩
    have hgone := effort_goto (s := s) (m := m) .lowering hk
    have hrank : rank (!s.opQueue.empty) (!s.ops.isEmpty) (.lowering : RunPc κ) ≤
        rank (!s.opQueue.empty) (!s.ops.isEmpty) (s.threads k) + 6 := by
      rw [hpc]
      cases s.opQueue.empty <;> cases s.ops.isEmpty <;> simp [rank]
    -- the phase goes from the last one without an event ahead to the first
    have hclean : effort m n ({ s with task := { s.task.clean with phase := .idle } }.goto k .lowering) +
        18 = effort m n (s.goto k .lowering) := by
      have hlive : s.live = false := by
        unfold live
        rw [hphase]
        rfl
      show _ + (2 * m + 2) + 18 = _ + phaseRank m s.live s.task.phase
      rw [hlive, hphase]
      simp only [phaseRank, List.length_nil]
      show _ + (2 * m + 2) + 18 = _ + (2 * 0 + (2 * m + 20))
      rw [Nat.add_assoc]
      congr 1
      omega
    omega
  case h_5 => cases he

/-- **A loop that has nothing to wait for.** -/
theorem toil_skip (h : s.Sound) (htidy : s.Tidy) (hk : k < n) (hpc : s.threads k = .looping)
    (hnone : ∀ fd, s.task.channels fd = none) : (s.goto k .lowering).toil m n < s.toil m n := by
  -- an entry would have an operation, a handler for it, and so a channel
  have hops : s.ops.isEmpty = true := by
    by_contra hops
    obtain ⟨fd, d, hpending⟩ := htidy.exists_pending (Bool.eq_false_iff.mpr hops)
    have hhandler := h.armed.handler fd d
    rw [if_neg hpending, ReactorLoop.handler, hnone fd] at hhandler
    cases hhandler
  refine toil_goto hk ?_
  rw [hpc, hops]
  cases s.opQueue.empty <;> simp [rank]

/-- Nothing is left behind, unless a closure was destroyed: then the entry of its queue is. -/
structure Neat (s : Proactor κ) : Prop where
  tidy : s.undefined = false → s.Tidy
  entry : s.undefined = true → s.ops.isEmpty = false

/-- **Every step** is neat. -/
theorem Neat.step (h : s.Neat) (hsound : s.Sound) (hdefined : s.undefined = false)
    {e : ProactorEvent κ} (he : s.step e = some t) : t.Neat where
  tidy ht := (h.tidy hdefined).step ht he
  entry ht := by
    -- a closure was destroyed, so an operation was pending, and its entry is still there
    have hlasting : ¬s.Lasting e := fun hlasting => by
      rw [(hsound.undefined_step he).mpr ⟨hdefined, hlasting⟩] at ht
      cases ht
    have hops : s.ops.isEmpty = false :=
      Bool.eq_false_iff.mpr fun hempty => hlasting (lasting_of_isEmpty hempty e)
    rw [← hops]
    cases e with
    | loop k e =>
        obtain ⟨-, he⟩ := Option.ite_none_right_eq_some.mp he
        obtain ⟨-, task, -, ⟨-, -, -, rfl | ⟨fd, d, rfl⟩⟩ | ⟨-, -, rfl⟩⟩ := loopStep_cases he
        · rfl
        · exact isEmpty_complete
        · rfl
    | _ => exact absurd trivial hlasting

/-- The invariant of the runs that end: `n` threads, and batches of at most `m` events. -/
structure Draining (m n : ℕ) (s : Proactor κ) : Prop where
  sound : s.Sound
  attended : s.Attended
  neat : s.Neat
  created : s.created = n
  batch : s.task.phase.batch.length ≤ m
  room : 2 * s.submitted.length ≤ m

/-- A prompt step makes no thread, no submission and no entry, and leaves less to do. -/
theorem Draining.toil (h : s.Draining m n) {e : ProactorEvent κ} (hprompt : Prompt s e)
    (hstep : (lts κ).step s e t) :
    t.toil m n < s.toil m n ∧ t.task.phase.batch.length ≤ m ∧ t.created = s.created ∧
      t.submitted = s.submitted ∧ t.ops.isEmpty = s.ops.isEmpty := by
  obtain ⟨hdefined, hawaits, he⟩ := hstep
  cases e with
  | start | async | spurious => exact hprompt.elim
  | run k =>
      obtain ⟨hk, hrun⟩ := Option.ite_none_right_eq_some.mp he
      obtain ⟨htask, hops, hsubmitted, -⟩ := runStep_frame hrun
      refine ⟨toil_runStep (h.created ▸ hk) h.batch hrun, htask ▸ h.batch, ?_, hsubmitted, by rw [hops]⟩
      cases runStepped hrun <;> rfl
  | notify k target =>
      simp only [Proactor.step] at he
      split at he
      · next cb hpc =>
          obtain ⟨⟨hk, -, htarget⟩, he⟩ := Option.ite_none_right_eq_some.mp he
          obtain rfl := Option.some.inj he
          refine ⟨toil_notify (h.created ▸ hk) hpc fun j hj => ?_, ?_, ?_, ?_, ?_⟩
          · obtain rfl := Option.mem_def.mp hj
            exact ⟨h.created ▸ htarget.1, htarget.2⟩
          · cases target <;> exact h.batch
          · cases target <;> rfl
          · cases target <;> rfl
          · cases target <;> rfl
      · cases he
  | loop k e =>
      obtain ⟨hk, he⟩ := Option.ite_none_right_eq_some.mp he
      obtain ⟨htoil, hbatch⟩ := toil_loopStep h.sound (h.created ▸ hk) h.batch h.room hprompt he
      refine ⟨htoil, hbatch, ?_⟩
      obtain ⟨-, task, -, ⟨-, -, -, rfl | ⟨fd, d, rfl⟩⟩ | ⟨-, -, rfl⟩⟩ := loopStep_cases he
      · exact ⟨rfl, rfl, rfl⟩
      · exact ⟨(complete_threads fd d).2, submitted_complete, isEmpty_complete⟩
      · exact ⟨rfl, rfl, rfl⟩
  | skip k =>
      simp only [Proactor.step] at he
      split at he
      · next hpc _ =>
          obtain ⟨hk, he⟩ := Option.ite_none_right_eq_some.mp he
          obtain rfl := Option.some.inj he
          exact ⟨toil_skip h.sound (h.neat.tidy hdefined) (h.created ▸ hk) hpc hawaits, h.batch, rfl,
            rfl, rfl⟩
      · cases he

/-- **Every prompt step** keeps the invariant and leaves less to do. -/
theorem Draining.step (h : s.Draining m n) {e : ProactorEvent κ} (hprompt : Prompt s e)
    (hstep : (lts κ).step s e t) :
    t.Draining m n ∧ t.ops.isEmpty = s.ops.isEmpty ∧ t.toil m n < s.toil m n := by
  obtain ⟨htoil, hbatch, hcreated, hsubmitted, hops⟩ := h.toil hprompt hstep
  obtain ⟨hdefined, -, he⟩ := hstep
  have htimely : Timely s e := by
    cases e with
    | async => exact hprompt.elim
    | _ => trivial
  exact ⟨⟨h.sound.step he, h.attended.step h.sound.locked htimely he, h.neat.step h.sound hdefined he,
    hcreated.trans h.created, hbatch, hsubmitted ▸ h.room⟩, hops, htoil⟩

end Steps

/-! ## The end of a run -/

end Proactor

end Libio
