import Libio.Core.Lock
import Libio.Model.ReactorLoop
import Std.Data.ExtTreeMap

/-! # The proactor

The class `proactor` of `model/proactor.hh` as its threads run it: any number of threads in `run`,
and calls of `async_read` and `async_write` from callbacks and from outside. Each load or store
without the mutex, each operation of `op_queue` and each operation on the mutex and the condition
variable is one step. A round of the reactor, under the mutex, is taken step by step, and the handler
of an event is one of these steps: what other threads can see of it, the new element of `op_queue`,
appears before the rest.

A handler that moves the last callback of its queue removes itself from its channel, and with that
destroys the closure it runs in. The test behind the removal reads `this` and `socket` from this
closure: from there on the behaviour is undefined, and no step is taken any more. So the proactor
keeps its operations armed in the runs in which no queue is emptied, and in no others
(`kept_iff_lasting`).

A callback is named by a value of the type `κ`; the handlers of the reactor by their descriptor and
direction. -/

namespace Libio

universe u

/-- The class `descriptor_data`. -/
structure DescriptorData (κ : Type u) where
  writeQueue : List κ := []
  readQueue : List κ := []

namespace DescriptorData

variable {κ : Type u} (data : DescriptorData κ)

/-- The queue of a direction. -/
def queue : Dir → List κ
  | .read => data.readQueue
  | .write => data.writeQueue

/-- Replace the queue of a direction. -/
def setQueue (d : Dir) (q : List κ) : DescriptorData κ :=
  match d with
  | .read => { data with readQueue := q }
  | .write => { data with writeQueue := q }

/-- Both queues are empty. -/
def empty : Bool := data.readQueue.isEmpty && data.writeQueue.isEmpty

variable {data}

/-- A descriptor without operations has empty queues. -/
@[simp] theorem queue_default (d : Dir) : ({} : DescriptorData κ).queue d = [] := by
  cases d <;> rfl

/-- The queues when one of them is replaced. -/
theorem queue_setQueue (d d' : Dir) (q : List κ) :
    (data.setQueue d q).queue d' = if d' = d then q else data.queue d' := by
  cases d <;> cases d' <;> rfl

/-- There is nothing to do where both queues are empty. -/
theorem empty_iff : data.empty = true ↔ ∀ d, data.queue d = [] := by
  simp only [empty, Bool.and_eq_true, List.isEmpty_iff]
  refine ⟨fun ⟨hr, hw⟩ d => ?_, fun h => ⟨h .read, h .write⟩⟩
  cases d with
  | read => exact hr
  | write => exact hw

end DescriptorData

/-- Where a thread is in `run`. -/
inductive RunPc (κ : Type u)
  /-- In front of `if (!op_queue.empty())`. -/
  | checking
  /-- In front of `op_queue.pop(cb)`. -/
  | popping
  /-- In front of the second `op_queue.empty()`, with what was popped. -/
  | rechecking (cb : Option κ)
  /-- In front of `Lock lock(mutex); cv.notify_one();`. -/
  | notifying (cb : Option κ)
  /-- In the callback. -/
  | calling (cb : κ)
  /-- In front of `!ops.empty()`. -/
  | looking
  /-- In front of `!inloop`. -/
  | testing
  /-- In front of the lock of the branch with the loop. -/
  | entering
  /-- In front of `inloop = true`; it holds the mutex, as in the next two places. -/
  | raising
  /-- In `task_->loop(false, true)`. -/
  | looping
  /-- In front of `inloop = false`. -/
  | lowering
  /-- In front of taking the mutex to look at the predicate of `cv.wait`: in front of the call, or
  woken in it. -/
  | locking
  /-- In `cv.wait`, not woken. -/
  | asleep
  deriving DecidableEq

/-- Where a thread goes on behind the notification, or the test that makes none. -/
def RunPc.after {κ : Type u} : Option κ → RunPc κ
  | none => .checking
  | some cb => .calling cb

/-- The places in which a thread holds the mutex. -/
def RunPc.Holds {κ : Type u} : RunPc κ → Prop
  | .raising | .looping | .lowering => True
  | _ => False

/-- Behind the notification a thread does not hold the mutex. -/
theorem RunPc.not_holds_after {κ : Type u} (cb : Option κ) : ¬(RunPc.after cb).Holds := by
  cases cb <;> exact id

/-- There it is neither in front of the mutex nor asleep. -/
theorem RunPc.after_ne {κ : Type u} (cb : Option κ) :
    RunPc.after cb ≠ .locking ∧ RunPc.after cb ≠ .asleep := by
  cases cb <;> simp [RunPc.after]

instance RunPc.decidableEqAsleep {κ : Type u} : (pc : RunPc κ) → Decidable (pc = .asleep)
  | .asleep => .isTrue rfl
  | .checking | .popping | .rechecking _ | .notifying _ | .calling _ | .looking | .testing
  | .entering | .raising | .looping | .lowering | .locking => .isFalse nofun

/-- The class `proactor` with the threads that run it. The last four members are history. -/
structure Proactor (κ : Type u) where
  inloop : Bool := false
  mutex : Option ℕ := none
  task : ReactorLoop (ℤ × Dir) := {}
  ops : Std.ExtTreeMap ℤ (DescriptorData κ) := ∅
  opQueue : LockQueue κ := []
  /-- Where each thread is. -/
  threads : ℕ → RunPc κ := fun _ => .checking
  /-- The number of threads that called `run`. -/
  created : ℕ := 0
  /-- The callbacks that were submitted, with their descriptors and directions. -/
  submitted : List ((ℤ × Dir) × κ) := []
  /-- The callbacks that were moved to `op_queue`, in order. -/
  moved : List ((ℤ × Dir) × κ) := []
  /-- The callbacks that were taken from `op_queue`, in order. -/
  popped : List κ := []
  /-- A handler has gone on after its closure was destroyed. -/
  undefined : Bool := false

/-- A step of the proactor. -/
inductive ProactorEvent (κ : Type u)
  /-- A further thread calls `run`. -/
  | start
  /-- `async_read` or `async_write`, from the callback that a thread runs or from outside. -/
  | async (caller : Option ℕ) (d : Dir) (socket : ℤ) (f : κ)
  /-- A thread in `run` takes its next step. -/
  | run (k : ℕ)
  /-- A thread takes the mutex and notifies: the sleeper `target` is woken, if there is one. -/
  | notify (k : ℕ) (target : Option ℕ)
  /-- A thread wakes up by itself. -/
  | spurious (k : ℕ)
  /-- The loop of the reactor, in a thread that runs it, takes a step. -/
  | loop (k : ℕ) (e : LoopEvent (ℤ × Dir))
  /-- The loop of the reactor returns because there is nothing to wait for. -/
  | skip (k : ℕ)
  deriving DecidableEq

namespace Proactor

variable {κ : Type u} (s : Proactor κ)

/-- A thread goes on. -/
def goto (k : ℕ) (pc : RunPc κ) : Proactor κ :=
  { s with threads := Function.update s.threads k pc }

/-- The callbacks that are pending for a descriptor and a direction. -/
def pending (fd : ℤ) (d : Dir) : List κ := (s.ops[fd]?.getD {}).queue d

/-! ## Submission and completion -/

/-- The body of `async_read` and `async_write` under the mutex: `init_descriptor(socket)`, the
callback at the end of its queue, and the handler of the reactor. -/
def submit (d : Dir) (socket : ℤ) (f : κ) : Proactor κ :=
  let data := s.ops[socket]?.getD {}
  { s with
    ops := s.ops.insert socket (data.setQueue d (data.queue d ++ [f]))
    task := s.task.setHandler socket d (socket, d)
    submitted := s.submitted ++ [((socket, d), f)] }

/-- The handler that `async_read` or `async_write` sets: the first callback goes to `op_queue`. -/
def complete (socket : ℤ) (d : Dir) : Proactor κ :=
  match s.ops[socket]? with
  | none => s
  | some data =>
      match data.queue d with
      | [] => s
      | f :: rest =>
          let data := data.setQueue d rest
          let s' := { s with
            opQueue := s.opQueue.push f
            ops := s.ops.insert socket data
            moved := s.moved ++ [((socket, d), f)] }
          if rest.isEmpty then
            -- the channel lets the running closure go, whose captures the next test reads
            { s' with task := s.task.removeHandler socket d, undefined := true }
          else if data.empty then { s' with ops := s.ops.erase socket }
          else s'

/-! ## A round of the reactor -/

/-- A look at the next event of the batch, with the handler it finds. -/
def dispatch : Option (Proactor κ) :=
  match s.task.phase with
  | .dispatching ((fd, d) :: _) =>
      (s.task.step .dispatch).map fun task =>
        let s' := { s with task := task }
        match s.task.handler fd d with
        | none => s'
        | some (socket, d') => s'.complete socket d'
  | _ => none

/-- A step of the loop in a thread that runs it. -/
def loopStep (k : ℕ) (e : LoopEvent (ℤ × Dir)) : Option (Proactor κ) :=
  match s.threads k, e with
  | .looping, .listen events => (s.task.step (.listen events)).map fun task => { s with task := task }
  | .looping, .resume => (s.task.step .resume).map fun task => { s with task := task }
  | .looping, .dispatch => s.dispatch
  -- `once`: behind the clean-up the loop returns
  | .looping, .clean => (s.task.step .clean).map fun task => { s with task := task }.goto k .lowering
  | _, _ => none

/-! ## Threads -/

/-- The next step of a thread that neither notifies nor is in the loop of the reactor. -/
def runStep (k : ℕ) : Option (Proactor κ) :=
  match s.threads k with
  | .checking => some (s.goto k (if s.opQueue.empty then .looking else .popping))
  | .popping =>
      match s.opQueue.pop with
      | some (f, rest) =>
          some { s.goto k (.rechecking (some f)) with opQueue := rest, popped := s.popped ++ [f] }
      | none => some (s.goto k (.rechecking none))
  | .rechecking cb => some (s.goto k (if s.opQueue.empty then RunPc.after cb else .notifying cb))
  | .notifying _ => none
  | .calling _ => some (s.goto k .checking)
  | .looking => some (s.goto k (if s.ops.isEmpty then .locking else .testing))
  | .testing => some (s.goto k (if s.inloop then .locking else .entering))
  | .entering => if s.mutex = none then some { s.goto k .raising with mutex := some k } else none
  | .raising => some { s.goto k .looping with inloop := true }
  | .looping => none
  | .lowering => some { s.goto k .checking with inloop := false, mutex := none }
  | .locking =>
      if s.mutex = none then some (s.goto k (if s.opQueue.empty then .asleep else .checking))
      else none
  | .asleep => none

/-- Whom `notify_one` may wake: one sleeper, or nobody where nobody sleeps. -/
def Wakes : Option ℕ → Prop
  | none => ∀ k < s.created, s.threads k ≠ .asleep
  | some k => k < s.created ∧ s.threads k = .asleep

instance : DecidablePred s.Wakes
  | none => inferInstanceAs (Decidable (∀ k < s.created, s.threads k ≠ .asleep))
  | some k => inferInstanceAs (Decidable (k < s.created ∧ s.threads k = .asleep))

/-- `cv.notify_one()`. -/
def notifyOne : Option ℕ → Proactor κ
  | none => s
  | some k => s.goto k .locking

/-- A step of the proactor, where it is possible. -/
def step : ProactorEvent κ → Option (Proactor κ)
  | .start => some { s.goto s.created .checking with created := s.created + 1 }
  | .async caller d socket f =>
      match caller.map s.threads with
      | none | some (.calling _) =>
          if socket < 0 then some s
          else if s.mutex = none then some (s.submit d socket f) else none
      | _ => none
  | .run k => if k < s.created then s.runStep k else none
  | .notify k target =>
      match s.threads k with
      | .notifying cb =>
          if k < s.created ∧ s.mutex = none ∧ s.Wakes target then
            some ((s.notifyOne target).goto k (RunPc.after cb))
          else none
      | _ => none
  | .spurious k =>
      if k < s.created ∧ s.threads k = .asleep then some (s.goto k .locking) else none
  | .loop k e => if k < s.created then s.loopStep k e else none
  | .skip k =>
      match s.threads k, s.task.phase with
      | .looping, .idle => if k < s.created then some (s.goto k .lowering) else none
      | _, _ => none

/-- The test of the loop in front of `listen`: there is a channel, for the proactor sets no timers. -/
def Awaits : ProactorEvent κ → Prop
  | .loop _ (.listen _) => ∃ fd, s.task.channels fd ≠ none
  | .skip _ => ∀ fd, s.task.channels fd = none
  | _ => True

/-- The proactor as a transition system. Behind a destroyed closure there is no step. -/
def lts (κ : Type u) : Lts (Proactor κ) (ProactorEvent κ) where
  init s := s = {}
  step s e t := s.undefined = false ∧ s.Awaits e ∧ s.step e = some t

variable {s} {t : Proactor κ} {fd : ℤ} {d : Dir} {k : ℕ}

/-! ## What is pending -/

/-- The queues after a submission. -/
theorem pending_submit (f : κ) (fd' : ℤ) (d' : Dir) : (s.submit d fd f).pending fd' d' =
    if fd' = fd ∧ d' = d then s.pending fd d ++ [f] else s.pending fd' d' := by
  unfold pending submit
  simp only [Std.ExtTreeMap.getElem?_insert]
  by_cases hfd : fd' = fd
  · subst hfd
    simp [DescriptorData.queue_setQueue]
  · have hfd' : ¬compare fd fd' = .eq := by simpa using Ne.symm hfd
    rw [if_neg hfd', if_neg fun h => hfd h.1]

/-- A handler that finds nothing pending changes nothing. -/
theorem complete_of_nil (h : s.pending fd d = []) : s.complete fd d = s := by
  unfold complete
  cases hops : s.ops[fd]? with
  | none => rfl
  | some data =>
      have hqueue : data.queue d = [] := by simpa [pending, hops] using h
      simp only [hqueue]

/-- A handler moves the first callback that is pending, and destroys its closure with the last one. -/
theorem complete_of_cons {f : κ} {rest : List κ} (h : s.pending fd d = f :: rest) :
    ∃ data, s.complete fd d =
        { s with
          opQueue := s.opQueue ++ [f]
          task := if rest.isEmpty then s.task.removeHandler fd d else s.task
          ops := s.ops.insert fd data
          moved := s.moved ++ [((fd, d), f)]
          undefined := if rest.isEmpty then true else s.undefined } ∧
      data.queue d = rest ∧
      ∀ fd' d', (s.complete fd d).pending fd' d' =
        if fd' = fd ∧ d' = d then rest else s.pending fd' d' := by
  obtain ⟨data, hops⟩ : ∃ data, s.ops[fd]? = some data := by
    cases hops : s.ops[fd]? with
    | none => simp [pending, hops] at h
    | some data => exact ⟨data, rfl⟩
  have hqueue : data.queue d = f :: rest := by simpa [pending, hops] using h
  have hrest : (data.setQueue d rest).queue d = rest := by
    rw [DescriptorData.queue_setQueue, if_pos rfl]
  have hcomplete : s.complete fd d =
      { s with
        opQueue := s.opQueue ++ [f]
        task := if rest.isEmpty then s.task.removeHandler fd d else s.task
        ops := s.ops.insert fd (data.setQueue d rest)
        moved := s.moved ++ [((fd, d), f)]
        undefined := if rest.isEmpty then true else s.undefined } := by
    unfold complete
    simp only [hops, hqueue, LockQueue.push]
    cases rest with
    | nil => rfl
    | cons g rest =>
        -- the entry is erased in no case: with a callback left it is not empty
        have hne : (data.setQueue d (g :: rest)).empty = false := by
          refine Bool.eq_false_iff.mpr fun hempty => ?_
          rw [DescriptorData.empty_iff.mp hempty d] at hrest
          cases hrest
        simp [hne]
  refine ⟨_, hcomplete, hrest, fun fd' d' => ?_⟩
  rw [hcomplete, pending]
  simp only
  by_cases hfd : fd' = fd
  · subst hfd
    rw [Std.ExtTreeMap.getElem?_insert_self, Option.getD_some, DescriptorData.queue_setQueue, pending,
      hops, Option.getD_some]
    simp
  · have hfd' : ¬compare fd fd' = .eq := by simpa using Ne.symm hfd
    rw [if_neg (c := fd' = fd ∧ d' = d) fun h => hfd h.1, Std.ExtTreeMap.getElem?_insert, if_neg hfd',
      pending]

/-- **A handler destroys its closure** exactly when it empties its queue. -/
theorem undefined_complete : (s.complete fd d).undefined = true ↔
    s.undefined = true ∨ (s.pending fd d).length = 1 := by
  cases hpending : s.pending fd d with
  | nil => simp [complete_of_nil hpending]
  | cons f rest =>
      obtain ⟨data, hcomplete, -⟩ := complete_of_cons hpending
      rw [hcomplete]
      cases rest <;> simp

/-! ## What is pending is armed -/

/-- The callbacks of a descriptor and a direction in a list of submissions. -/
def callbacksOf (fd : ℤ) (d : Dir) (l : List ((ℤ × Dir) × κ)) : List κ :=
  (l.filter fun e => e.1 = (fd, d)).map Prod.snd

/-- The callbacks of a descriptor and direction when one more is recorded. -/
theorem callbacksOf_concat (l : List ((ℤ × Dir) × κ)) (fd fd' : ℤ) (d d' : Dir) (f : κ) :
    callbacksOf fd' d' (l ++ [((fd, d), f)]) =
      if fd' = fd ∧ d' = d then callbacksOf fd' d' l ++ [f] else callbacksOf fd' d' l := by
  unfold callbacksOf
  rw [List.filter_append, List.map_append]
  by_cases h : fd' = fd ∧ d' = d
  · rw [if_pos h]
    simp [h.1, h.2]
  · rw [if_neg h]
    have hne : ¬(fd, d) = (fd', d') := fun he => h ⟨(Prod.mk.inj he).1.symm, (Prod.mk.inj he).2.symm⟩
    simp [hne]

/-- The handlers and the interest of the reactor are those of the pending callbacks, and a descriptor
that is to lose its channel has none. -/
structure Armed (s : Proactor κ) : Prop where
  handler : ∀ fd d, s.task.handler fd d = if s.pending fd d = [] then none else some (fd, d)
  watched : ∀ fd d, d.watches (s.task.interest fd) = !(s.pending fd d).isEmpty
  cleaned : ∀ fd ∈ s.task.needclean, ∀ d, s.pending fd d = []

/-- No callback is lost, moved twice or out of order. -/
structure Ledger (s : Proactor κ) : Prop where
  moved : ∀ fd d, callbacksOf fd d s.submitted = callbacksOf fd d s.moved ++ s.pending fd d
  popped : s.moved.map Prod.snd = s.popped ++ s.opQueue

/-- What keeps the channels, the interest and the queues keeps them armed. -/
theorem Armed.of_task (h : s.Armed) {task : ReactorLoop (ℤ × Dir)}
    (hchannels : task.channels = s.task.channels) (hinterest : task.interest = s.task.interest)
    (hneedclean : task.needclean = s.task.needclean) : Armed { s with task := task } where
  handler fd d := by
    rw [ReactorLoop.handler, hchannels]
    exact h.handler fd d
  watched fd d := by
    rw [hinterest]
    exact h.watched fd d
  cleaned fd hfd := h.cleaned fd (hneedclean ▸ hfd)

/-- A submission outside of the loop is armed. -/
theorem Armed.submit (h : s.Armed) (hclean : s.task.needclean = []) (f : κ) :
    (s.submit d fd f).Armed where
  handler fd' d' := by
    rw [pending_submit]
    show (s.task.setHandler fd d (fd, d)).handler fd' d' = _
    rw [ReactorLoop.handler_setHandler]
    by_cases he : fd' = fd ∧ d' = d
    · simp [he]
    · simp only [if_neg he, h.handler]
  watched fd' d' := by
    rw [pending_submit]
    show d'.watches (s.task.interest.add fd d.mask fd') = _
    rw [Dir.watches_add, h.watched]
    by_cases he : fd' = fd ∧ d' = d
    · simp [he]
    · simp [he]
  cleaned fd' hfd' := by
    have hmem : fd' ∈ s.task.needclean := hfd'
    rw [hclean] at hmem
    cases hmem

/-- A handler keeps what is pending armed: it removes itself with the last callback, and queues the
descriptor for the clean-up only if the other direction has none. -/
theorem Armed.complete (h : s.Armed) : (s.complete fd d).Armed := by
  cases hpending : s.pending fd d with
  | nil =>
      rw [complete_of_nil hpending]
      exact h
  | cons f rest =>
      obtain ⟨data, hcomplete, -, hafter⟩ := complete_of_cons hpending
      have hset : s.task.handler fd d = some (fd, d) := by
        rw [h.handler, hpending]
        rfl
      obtain ⟨hinterest, hneedclean⟩ := ReactorLoop.removeHandler_of_handler hset
      have htask : (s.complete fd d).task =
          if rest.isEmpty then s.task.removeHandler fd d else s.task := by
        rw [hcomplete]
      refine ⟨fun fd' d' => ?_, fun fd' d' => ?_, fun fd' hfd' d' => ?_⟩
      · rw [htask, hafter]
        by_cases he : fd' = fd ∧ d' = d
        · obtain ⟨rfl, rfl⟩ := he
          cases rest with
          | nil => simp [ReactorLoop.handler_removeHandler]
          | cons g rest => simp [hset]
        · rw [if_neg he, ← h.handler]
          split
          · rw [ReactorLoop.handler_removeHandler, if_neg he]
          · rfl
      · rw [htask, hafter]
        by_cases he : fd' = fd ∧ d' = d
        · obtain ⟨rfl, rfl⟩ := he
          cases rest with
          | nil => simp [hinterest, Dir.watches_remove]
          | cons g rest => simp [h.watched, hpending]
        · rw [if_neg he, ← h.watched]
          split
          · simp [hinterest, Dir.watches_remove, he]
          · rfl
      · rw [htask] at hfd'
        rw [hafter]
        by_cases hold : fd' ∈ s.task.needclean
        · -- nothing of a queued descriptor is pending, so it is not the one of this handler
          have hne : fd' ≠ fd := by
            rintro rfl
            rw [h.cleaned fd' hold d] at hpending
            cases hpending
          rw [if_neg fun he => hne he.1]
          exact h.cleaned fd' hold d'
        · -- the descriptor was queued by this handler: nothing of either direction is left
          cases rest with
          | cons g rest => exact absurd hfd' hold
          | nil =>
              simp only [List.isEmpty_nil, if_true, hneedclean, h.handler fd d.other] at hfd'
              split at hfd'
              · next hother =>
                  obtain rfl : fd' = fd := by simpa [hold] using hfd'
                  by_cases hd : d' = d
                  · rw [if_pos ⟨rfl, hd⟩]
                  · have hd' : d' = d.other := by cases d <;> cases d' <;> simp_all [Dir.other]
                    rw [if_neg fun he => hd he.2, hd']
                    simpa using hother
              · exact absurd hfd' hold

/-- The clean-up takes away no handler of a pending callback. -/
theorem Armed.clean (h : s.Armed) (phase : LoopPhase) :
    Armed { s with task := { s.task.clean with phase := phase } } where
  handler fd d := by
    show (s.task.clean.channels fd).bind _ = _
    rw [ReactorLoop.channels_clean]
    split
    · next hq => exact (if_pos (h.cleaned fd hq d)).symm
    · exact h.handler fd d
  watched fd d := by
    show d.watches (s.task.clean.interest fd) = _
    rw [ReactorLoop.interest_clean]
    exact h.watched fd d
  cleaned fd hfd := by cases hfd

/-- A submission keeps the books in order. -/
theorem Ledger.submit (h : s.Ledger) (f : κ) : (s.submit d fd f).Ledger where
  moved fd' d' := by
    rw [pending_submit]
    show callbacksOf fd' d' (s.submitted ++ [((fd, d), f)]) = callbacksOf fd' d' s.moved ++ _
    rw [callbacksOf_concat]
    by_cases he : fd' = fd ∧ d' = d
    · obtain ⟨rfl, rfl⟩ := he
      simp [h.moved]
    · rw [if_neg he, if_neg he, h.moved]
  popped := h.popped

/-- So does a completion. -/
theorem Ledger.complete (h : s.Ledger) : (s.complete fd d).Ledger := by
  cases hpending : s.pending fd d with
  | nil =>
      rw [complete_of_nil hpending]
      exact h
  | cons f rest =>
      obtain ⟨data, hcomplete, -, hafter⟩ := complete_of_cons hpending
      constructor
      · intro fd' d'
        have hmoved : (s.complete fd d).moved = s.moved ++ [((fd, d), f)] := by rw [hcomplete]
        have hsubmitted : (s.complete fd d).submitted = s.submitted := by rw [hcomplete]
        rw [hafter, hmoved, hsubmitted, callbacksOf_concat, h.moved]
        by_cases he : fd' = fd ∧ d' = d
        · obtain ⟨rfl, rfl⟩ := he
          simp [hpending]
        · rw [if_neg he, if_neg he]
      · rw [hcomplete]
        simp [h.popped]

/-! ## Every way in which a step is taken -/

/-- What a thread does in `run` by itself: it goes on without the mutex, takes a callback, goes to the
wait or to sleep where there is nothing for it to do, or has the mutex around the loop. -/
inductive RunStepped (s : Proactor κ) (k : ℕ) : Proactor κ → Prop
  | goto {pc : RunPc κ} (hfrom : ¬(s.threads k).Holds) (hto : ¬pc.Holds) (hlocking : pc ≠ .locking)
      (hasleep : pc ≠ .asleep) : RunStepped s k (s.goto k pc)
  | pop {f : κ} {rest : List κ} (hpc : s.threads k = .popping)
      (hpop : s.opQueue.pop = some (f, rest)) : RunStepped s k
        { s.goto k (.rechecking (some f)) with opQueue := rest, popped := s.popped ++ [f] }
  | wait (hpc : s.threads k = .looking ∧ s.ops.isEmpty = true ∨
      s.threads k = .testing ∧ s.inloop = true) : RunStepped s k (s.goto k .locking)
  | sleep (hpc : s.threads k = .locking) (hempty : s.opQueue.empty = true) :
      RunStepped s k (s.goto k .asleep)
  | enter (hpc : s.threads k = .entering) (hm : s.mutex = none) :
      RunStepped s k { s.goto k .raising with mutex := some k }
  | raise (hpc : s.threads k = .raising) :
      RunStepped s k { s.goto k .looping with inloop := true }
  | lower (hpc : s.threads k = .lowering) :
      RunStepped s k { s.goto k .checking with inloop := false, mutex := none }

/-- **Inversion** of a step of a thread. -/
theorem runStepped (h : s.runStep k = some t) : RunStepped s k t := by
  unfold runStep at h
  cases hpc : s.threads k with
  | checking =>
      simp only [hpc] at h
      obtain rfl := Option.some.inj h
      split <;> exact .goto (by rw [hpc]; exact id) id (by simp) (by simp)
  | popping =>
      simp only [hpc] at h
      split at h
      · next hpop =>
          obtain rfl := Option.some.inj h
          exact .pop hpc hpop
      · obtain rfl := Option.some.inj h
        exact .goto (by rw [hpc]; exact id) id (by simp) (by simp)
  | rechecking cb =>
      simp only [hpc] at h
      obtain rfl := Option.some.inj h
      split
      · exact .goto (by rw [hpc]; exact id) (RunPc.not_holds_after cb) (RunPc.after_ne cb).1
          (RunPc.after_ne cb).2
      · exact .goto (by rw [hpc]; exact id) id (by simp) (by simp)
  | calling f =>
      simp only [hpc] at h
      obtain rfl := Option.some.inj h
      exact .goto (by rw [hpc]; exact id) id (by simp) (by simp)
  | looking =>
      simp only [hpc] at h
      obtain rfl := Option.some.inj h
      split
      · next hops => exact .wait (.inl ⟨hpc, hops⟩)
      · exact .goto (by rw [hpc]; exact id) id (by simp) (by simp)
  | testing =>
      simp only [hpc] at h
      obtain rfl := Option.some.inj h
      split
      · next hin => exact .wait (.inr ⟨hpc, hin⟩)
      · exact .goto (by rw [hpc]; exact id) id (by simp) (by simp)
  | entering =>
      simp only [hpc] at h
      obtain ⟨hm, h⟩ := Option.ite_none_right_eq_some.mp h
      obtain rfl := Option.some.inj h
      exact .enter hpc hm
  | raising =>
      simp only [hpc] at h
      obtain rfl := Option.some.inj h
      exact .raise hpc
  | lowering =>
      simp only [hpc] at h
      obtain rfl := Option.some.inj h
      exact .lower hpc
  | locking =>
      simp only [hpc] at h
      obtain ⟨-, h⟩ := Option.ite_none_right_eq_some.mp h
      obtain rfl := Option.some.inj h
      split
      · next hempty => exact .sleep hpc hempty
      · exact .goto (by rw [hpc]; exact id) id (by simp) (by simp)
  | notifying _ | looping | asleep =>
      simp only [hpc] at h
      cases h

/-- A thread outside of the loop of the reactor changes neither the reactor nor what is pending. -/
theorem runStep_frame (h : s.runStep k = some t) :
    t.task = s.task ∧ t.ops = s.ops ∧ t.submitted = s.submitted ∧ t.moved = s.moved ∧
      t.popped ++ t.opQueue = s.popped ++ s.opQueue := by
  cases runStepped h with
  | pop hpc hpop =>
      rw [LockQueue.pop_eq_some.mp hpop]
      exact ⟨rfl, rfl, rfl, rfl, by simp⟩
  | goto | wait | sleep | enter | raise | lower => exact ⟨rfl, rfl, rfl, rfl, rfl⟩

/-- A look at an event runs the handler it finds, if there is one. -/
theorem dispatch_cases (h : s.dispatch = some t) :
    ∃ task, s.task.step .dispatch = some task ∧
      (t = { s with task := task } ∨ ∃ fd d, t = { s with task := task }.complete fd d) := by
  unfold dispatch at h
  split at h
  · next fd d batch hphase =>
      obtain ⟨task, htask, rfl⟩ := Option.map_eq_some_iff.mp h
      refine ⟨task, htask, ?_⟩
      cases s.task.handler fd d with
      | none => exact .inl rfl
      | some e => exact .inr ⟨e.1, e.2, rfl⟩
  · cases h

/-- A step of the loop in a thread is a step of the reactor that keeps all but its phase, with a
handler behind it or not, or the clean-up, behind which the loop returns. -/
theorem loopStep_cases {e : LoopEvent (ℤ × Dir)} (h : s.loopStep k e = some t) :
    s.threads k = .looping ∧ ∃ task, s.task.step e = some task ∧
      ((ReactorLoop.Careful s.task e ∧ task.phase ≠ .idle ∧
          task = { s.task with phase := task.phase } ∧
          (t = { s with task := task } ∨ ∃ fd d, t = { s with task := task }.complete fd d)) ∨
        (e = .clean ∧ task = { s.task.clean with phase := .idle } ∧
          t = { s with task := task }.goto k .lowering)) := by
  unfold loopStep at h
  split at h
  case h_1 hpc =>
    obtain ⟨task, htask, rfl⟩ := Option.map_eq_some_iff.mp h
    refine ⟨hpc, task, htask, .inl ⟨trivial, ?_, ?_, .inl rfl⟩⟩
    all_goals
      obtain ⟨-, rfl⟩ := ReactorLoop.step_listen htask
    · nofun
    · rfl
  case h_2 hpc =>
    obtain ⟨task, htask, rfl⟩ := Option.map_eq_some_iff.mp h
    refine ⟨hpc, task, htask, .inl ⟨trivial, ?_, ?_, .inl rfl⟩⟩
    all_goals
      obtain rfl := ReactorLoop.step_resume htask
    · nofun
    · rfl
  case h_3 hpc =>
    obtain ⟨task, htask, ht⟩ := dispatch_cases h
    obtain ⟨-, -, -, -, heq, -⟩ := ReactorLoop.step_dispatch htask
    exact ⟨hpc, task, htask, .inl ⟨trivial, ReactorLoop.phase_ne_idle_of_dispatch htask, heq, ht⟩⟩
  case h_4 hpc =>
    obtain ⟨task, htask, rfl⟩ := Option.map_eq_some_iff.mp h
    exact ⟨hpc, task, htask, .inr ⟨rfl, ReactorLoop.step_clean htask, rfl⟩⟩
  case h_5 => cases h

/-! ## Who holds the mutex -/

/-- The thread that holds the mutex is in the branch with the loop, and `inloop` and the phase of the
reactor are set by nobody else. -/
structure Locked (s : Proactor κ) : Prop where
  mutex : ∀ k, s.mutex = some k ↔ (s.threads k).Holds
  phase : s.task.phase ≠ .idle → ∃ k, s.threads k = .looping
  inloop : s.inloop = true → ∃ k, s.threads k = .looping ∨ s.threads k = .lowering
  fresh : ∀ k, s.created ≤ k → s.threads k = .checking

/-- Another place of a thread. -/
theorem threads_goto (pc : RunPc κ) (j : ℕ) :
    (s.goto k pc).threads j = if j = k then pc else s.threads j :=
  Function.update_apply s.threads k pc j

/-- A thread that goes on without the mutex. -/
theorem Locked.goto (h : s.Locked) {pc : RunPc κ} (hk : k < s.created)
    (hfrom : ¬(s.threads k).Holds) (hto : ¬pc.Holds) : (s.goto k pc).Locked where
  mutex j := by
    rw [threads_goto]
    by_cases hj : j = k
    · subst hj
      rw [if_pos rfl]
      exact iff_of_false (fun hm => hfrom ((h.mutex j).mp hm)) hto
    · rw [if_neg hj]
      exact h.mutex j
  phase hphase := by
    obtain ⟨j, hj⟩ := h.phase hphase
    have hne : j ≠ k := by
      rintro rfl
      exact hfrom (by rw [hj]; trivial)
    exact ⟨j, by rw [threads_goto, if_neg hne, hj]⟩
  inloop hin := by
    obtain ⟨j, hj⟩ := h.inloop hin
    have hne : j ≠ k := by
      rintro rfl
      exact hfrom (by rcases hj with hj | hj <;> rw [hj] <;> trivial)
    exact ⟨j, by rwa [threads_goto, if_neg hne]⟩
  fresh j hj := by
    have hne : j ≠ k := fun hjk => absurd hk (Nat.not_lt.mpr (hjk ▸ hj))
    rw [threads_goto, if_neg hne, h.fresh j hj]

/-- The thread with the mutex goes on to another place in the branch with the loop. -/
theorem Locked.goto_holding (h : s.Locked) {pc : RunPc κ} (hk : s.mutex = some k) (hto : pc.Holds)
    (hphase : s.task.phase ≠ .idle → pc = .looping)
    (hin : s.inloop = true → pc = .looping ∨ pc = .lowering) : (s.goto k pc).Locked where
  mutex j := by
    rw [threads_goto]
    by_cases hj : j = k
    · subst hj
      rw [if_pos rfl]
      exact iff_of_true hk hto
    · rw [if_neg hj]
      exact h.mutex j
  phase hp := ⟨k, by rw [threads_goto, if_pos rfl, hphase hp]⟩
  inloop hi := ⟨k, by rw [threads_goto, if_pos rfl]; exact hin hi⟩
  fresh j hj := by
    have hne : j ≠ k := by
      rintro rfl
      have hholds := (h.mutex j).mp hk
      rw [h.fresh j hj] at hholds
      exact hholds
    rw [threads_goto, if_neg hne, h.fresh j hj]

/-- A free mutex is held by no thread. -/
theorem Locked.not_holds (h : s.Locked) (hm : s.mutex = none) (k : ℕ) : ¬(s.threads k).Holds := by
  rw [← h.mutex k, hm]
  nofun

/-- Only one thread holds the mutex. -/
theorem Locked.unique (h : s.Locked) {j : ℕ} (hj : (s.threads j).Holds) (hk : (s.threads k).Holds) :
    j = k :=
  Option.some.inj (((h.mutex j).mpr hj).symm.trans ((h.mutex k).mpr hk))

/-- What does not change a thread, the mutex, the flag or the phase keeps the lock. -/
theorem Locked.of_eq (h : s.Locked) (hthreads : t.threads = s.threads) (hmutex : t.mutex = s.mutex)
    (hin : t.inloop = s.inloop) (hphase : t.task.phase = s.task.phase)
    (hcreated : t.created = s.created) : t.Locked where
  mutex k := by
    rw [hthreads, hmutex]
    exact h.mutex k
  phase hp := by
    rw [hthreads]
    exact h.phase (hphase ▸ hp)
  inloop hi := by
    rw [hthreads]
    exact h.inloop (hin ▸ hi)
  fresh k hk := by
    rw [hthreads]
    exact h.fresh k (hcreated ▸ hk)

/-- A thread that takes the mutex. -/
theorem Locked.enter (h : s.Locked) (hk : k < s.created) (hm : s.mutex = none) :
    Locked { s.goto k .raising with mutex := some k } where
  mutex j := by
    show some k = some j ↔ ((s.goto k .raising).threads j).Holds
    rw [threads_goto]
    by_cases hj : j = k
    · subst hj
      rw [if_pos rfl]
      exact iff_of_true rfl trivial
    · rw [if_neg hj]
      exact iff_of_false (fun he => hj (Option.some.inj he).symm) (h.not_holds hm j)
  phase hp := by
    obtain ⟨j, hj⟩ := h.phase hp
    exact absurd (hj ▸ trivial) (h.not_holds hm j)
  inloop hi := by
    obtain ⟨j, hj⟩ := h.inloop hi
    refine absurd ?_ (h.not_holds hm j)
    rcases hj with hj | hj <;> rw [hj] <;> trivial
  fresh j hj := by
    show (s.goto k .raising).threads j = _
    have hne : j ≠ k := fun hjk => absurd hk (Nat.not_lt.mpr (hjk ▸ hj))
    rw [threads_goto, if_neg hne, h.fresh j hj]

/-- The thread with the mutex lets it go. -/
theorem Locked.leave (h : s.Locked) (hk : s.mutex = some k) (hphase : s.task.phase = .idle) :
    Locked { s.goto k .checking with inloop := false, mutex := none } where
  mutex j := by
    show none = some j ↔ ((s.goto k .checking).threads j).Holds
    rw [threads_goto]
    by_cases hj : j = k
    · rw [if_pos hj]
      exact iff_of_false nofun id
    · rw [if_neg hj]
      exact iff_of_false nofun fun hholds => hj (h.unique hholds ((h.mutex k).mp hk))
  phase hp := absurd hphase hp
  inloop hi := nomatch hi
  fresh j hj := by
    show (s.goto k .checking).threads j = _
    rw [threads_goto]
    split
    · rfl
    · exact h.fresh j hj

/-- A step of `run` keeps the mutex with its holder. -/
theorem Locked.runStep (h : s.Locked) (hk : k < s.created) (hrun : s.runStep k = some t) :
    t.Locked := by
  have hmutex := h.mutex k
  cases runStepped hrun with
  | goto hfrom hto => exact h.goto hk hfrom hto
  | @pop f rest hpc =>
      have hgoto : (s.goto k (.rechecking (some f))).Locked :=
        h.goto hk (by rw [hpc]; exact id) id
      exact hgoto.of_eq rfl rfl rfl rfl rfl
  | wait hpc => exact h.goto hk (by rcases hpc with ⟨hpc, -⟩ | ⟨hpc, -⟩ <;> rw [hpc] <;> exact id) id
  | sleep hpc => exact h.goto hk (by rw [hpc]; exact id) id
  | enter hpc hm => exact h.enter hk hm
  | raise hpc =>
      have hm : s.mutex = some k := hmutex.mpr (by rw [hpc]; trivial)
      have hgoto : (s.goto k .looping).Locked :=
        h.goto_holding hm trivial (fun _ => rfl) (fun _ => .inl rfl)
      exact { hgoto with inloop := fun _ => ⟨k, .inl (by rw [threads_goto, if_pos rfl])⟩ }
  | lower hpc =>
      have hm : s.mutex = some k := hmutex.mpr (by rw [hpc]; trivial)
      refine h.leave hm (by_contra fun hp => ?_)
      -- the thread that is in the loop would be this one
      obtain ⟨j, hj⟩ := h.phase hp
      obtain rfl : j = k := h.unique (by rw [hj]; trivial) (by rw [hpc]; trivial)
      rw [hpc] at hj
      cases hj

/-! ## Every step -/

/-- The invariant. -/
structure Sound (s : Proactor κ) : Prop where
  locked : s.Locked
  armed : s.Armed
  ledger : s.Ledger
  task : s.task.Sound
  cleaned : s.task.phase = .idle → s.task.needclean = []

/-- Outside of the loop of the reactor nothing waits for the clean-up. -/
theorem Sound.needclean (h : s.Sound) (hm : s.mutex = none) : s.task.needclean = [] := by
  refine h.cleaned (by_contra fun hp => ?_)
  obtain ⟨k, hk⟩ := h.locked.phase hp
  exact h.locked.not_holds hm k (by rw [hk]; trivial)

/-- What does not touch the reactor and the queues of callbacks. -/
theorem Sound.of_frame (h : s.Sound) (hlocked : t.Locked) (htask : t.task = s.task)
    (hops : t.ops = s.ops) (hsubmitted : t.submitted = s.submitted) (hmoved : t.moved = s.moved)
    (hpopped : t.popped ++ t.opQueue = s.popped ++ s.opQueue) : t.Sound where
  locked := hlocked
  armed := by
    have hpending : ∀ fd d, t.pending fd d = s.pending fd d := fun fd d => by
      rw [pending, hops, pending]
    refine ⟨fun fd d => ?_, fun fd d => ?_, fun fd hfd d => ?_⟩
    · rw [htask, hpending, h.armed.handler]
    · rw [htask, hpending, h.armed.watched]
    · rw [hpending, h.armed.cleaned fd (htask ▸ hfd)]
  ledger := by
    refine ⟨fun fd d => ?_, ?_⟩
    · rw [pending, hops, hsubmitted, hmoved]
      exact h.ledger.moved fd d
    · rw [hmoved, hpopped, h.ledger.popped]
  task := htask ▸ h.task
  cleaned hp := by
    rw [htask] at hp ⊢
    exact h.cleaned hp

/-- A submission under the mutex keeps the proactor sound. -/
theorem Sound.submit (h : s.Sound) (hm : s.mutex = none) (f : κ) : (s.submit d fd f).Sound where
  locked := h.locked.of_eq rfl rfl rfl rfl rfl
  armed := h.armed.submit (h.needclean hm) f
  ledger := h.ledger.submit f
  task := h.task.setHandler _
  cleaned := h.cleaned

/-- So does a completion in the round of the reactor. -/
theorem Sound.complete (h : s.Sound) (hphase : s.task.phase ≠ .idle) : (s.complete fd d).Sound := by
  have harmed : (s.complete fd d).Armed := h.armed.complete
  have hledger : (s.complete fd d).Ledger := h.ledger.complete
  cases hpending : s.pending fd d with
  | nil =>
      rw [complete_of_nil hpending]
      exact h
  | cons f rest =>
      obtain ⟨data, hcomplete, -⟩ := complete_of_cons hpending
      rw [hcomplete] at harmed hledger ⊢
      have hsame : (s.task.removeHandler fd d).phase = s.task.phase := by
        unfold ReactorLoop.removeHandler
        split <;> rfl
      have htask : (if rest.isEmpty then s.task.removeHandler fd d else s.task).Sound ∧
          (if rest.isEmpty then s.task.removeHandler fd d else s.task).phase = s.task.phase := by
        split
        · exact ⟨h.task.removeHandler, hsame⟩
        · exact ⟨h.task, rfl⟩
      exact ⟨h.locked.of_eq rfl rfl rfl htask.2 rfl, harmed, hledger, htask.1,
        fun hp => absurd (htask.2.symm.trans hp) hphase⟩

/-- So does a step of that round. -/
theorem Sound.loopStep (h : s.Sound) {e : LoopEvent (ℤ × Dir)} (he : s.loopStep k e = some t) :
    t.Sound := by
  obtain ⟨hpc, task, htask, ⟨hcareful, hphase, heq, ht⟩ | ⟨rfl, heq, rfl⟩⟩ := loopStep_cases he
  · have htask' : Sound { s with task := task } :=
      { locked :=
          { mutex := h.locked.mutex
            phase := fun _ => ⟨k, hpc⟩
            inloop := h.locked.inloop
            fresh := h.locked.fresh }
        armed := h.armed.of_task (by rw [heq]) (by rw [heq]) (by rw [heq])
        ledger := ⟨h.ledger.moved, h.ledger.popped⟩
        task := h.task.step hcareful htask
        cleaned := fun hp => absurd hp hphase }
    rcases ht with rfl | ⟨fd, d, rfl⟩
    · exact htask'
    · exact htask'.complete hphase
  · have hm : s.mutex = some k := (h.locked.mutex k).mpr (by rw [hpc]; trivial)
    have hcareful : ReactorLoop.Careful s.task .clean := fun fd hfd =>
      Dir.eq_zero_of_watches fun d => by rw [h.armed.watched, h.armed.cleaned fd hfd]; rfl
    have hidle : task.phase = .idle := by rw [heq]
    have hlocked : Locked { s with task := task } :=
      { mutex := h.locked.mutex
        phase := fun hp => absurd hidle hp
        inloop := h.locked.inloop
        fresh := h.locked.fresh }
    exact
      { locked := hlocked.goto_holding hm trivial (fun hp => absurd hidle hp) fun _ => .inr rfl
        armed := by
          rw [heq]
          have harmed := h.armed.clean .idle
          exact ⟨harmed.handler, harmed.watched, harmed.cleaned⟩
        ledger := ⟨h.ledger.moved, h.ledger.popped⟩
        task := h.task.step hcareful htask
        cleaned := fun _ => by
          show task.needclean = []
          rw [heq]
          rfl }

/-- A thread that only goes on. -/
theorem Sound.goto (h : s.Sound) {pc : RunPc κ} (hk : k < s.created)
    (hfrom : ¬(s.threads k).Holds) (hto : ¬pc.Holds) : (s.goto k pc).Sound :=
  h.of_frame (h.locked.goto hk hfrom hto) rfl rfl rfl rfl rfl

/-- So does waking a thread. -/
theorem Sound.notifyOne (h : s.Sound) {target : Option ℕ} (htarget : s.Wakes target) :
    (s.notifyOne target).Sound := by
  cases target with
  | none => exact h
  | some j => exact h.goto htarget.1 (by rw [htarget.2]; exact id) id

/-- What a call of an asynchronous operation does: nothing for a descriptor that is none, and else a
submission under the mutex. A thread that makes it is in a callback. -/
theorem async_cases {caller : Option ℕ} {socket : ℤ} {f : κ}
    (he : s.step (.async caller d socket f) = some t) :
    (∀ k, caller = some k → ∃ cb, s.threads k = .calling cb) ∧
      (socket < 0 ∧ t = s ∨ ¬socket < 0 ∧ s.mutex = none ∧ t = s.submit d socket f) := by
  have hcalled : (∀ k, caller = some k → ∃ cb, s.threads k = .calling cb) ∧
      (if socket < 0 then some s
        else if s.mutex = none then some (s.submit d socket f) else none) = some t := by
    cases caller with
    | none => exact ⟨nofun, he⟩
    | some k =>
        simp only [Proactor.step, Option.map_some] at he
        split at he
        · next hnone => cases hnone
        · next cb hpc =>
            refine ⟨fun k' hk' => ⟨cb, ?_⟩, he⟩
            obtain rfl := Option.some.inj hk'
            exact Option.some.inj hpc
        · cases he
  refine ⟨hcalled.1, ?_⟩
  by_cases hneg : socket < 0
  · exact .inl ⟨hneg, (Option.some.inj ((if_pos hneg).symm.trans hcalled.2)).symm⟩
  · obtain ⟨hm, rfl⟩ := Option.ite_some_none_eq_some.mp ((if_neg hneg).symm.trans hcalled.2)
    exact .inr ⟨hneg, hm, rfl⟩

/-- **Every step** keeps the invariant. -/
theorem Sound.step (h : s.Sound) {e : ProactorEvent κ} (he : s.step e = some t) : t.Sound := by
  cases e with
  | start =>
      obtain rfl := Option.some.inj he
      have hsame : (s.goto s.created .checking).threads = s.threads := by
        funext k
        rw [threads_goto]
        split
        · next hk => rw [hk, h.locked.fresh _ le_rfl]
        · rfl
      refine h.of_frame ?_ rfl rfl rfl rfl rfl
      exact
        { mutex := hsame ▸ h.locked.mutex
          phase := hsame ▸ h.locked.phase
          inloop := hsame ▸ h.locked.inloop
          fresh := fun k hk => by
            show (s.goto s.created .checking).threads k = _
            rw [hsame]
            exact h.locked.fresh k (Nat.le_of_succ_le hk) }
  | async caller d socket f =>
      obtain ⟨-, ⟨-, rfl⟩ | ⟨-, hm, rfl⟩⟩ := async_cases he
      · exact h
      · exact h.submit hm f
  | run k =>
      obtain ⟨hk, hrun⟩ := Option.ite_none_right_eq_some.mp he
      obtain ⟨htask, hops, hsubmitted, hmoved, hpopped⟩ := runStep_frame hrun
      exact h.of_frame (h.locked.runStep hk hrun) htask hops hsubmitted hmoved hpopped
  | notify k target =>
      simp only [Proactor.step] at he
      split at he
      · next cb hpc =>
          obtain ⟨⟨hk, -, htarget⟩, he⟩ := Option.ite_none_right_eq_some.mp he
          obtain rfl := Option.some.inj he
          have hpc' : (s.notifyOne target).threads k = .notifying cb := by
            cases target with
            | none => exact hpc
            | some j =>
                have hne : k ≠ j := by
                  rintro rfl
                  rw [htarget.2] at hpc
                  cases hpc
                exact (threads_goto _ k).trans ((if_neg hne).trans hpc)
          have hk' : k < (s.notifyOne target).created := by cases target <;> exact hk
          exact (h.notifyOne htarget).goto hk' (by rw [hpc']; exact id) (RunPc.not_holds_after cb)
      · cases he
  | spurious k =>
      obtain ⟨⟨hk, hpc⟩, he⟩ := Option.ite_none_right_eq_some.mp he
      obtain rfl := Option.some.inj he
      exact h.goto hk (by rw [hpc]; exact id) id
  | loop k e =>
      obtain ⟨-, he⟩ := Option.ite_none_right_eq_some.mp he
      exact h.loopStep he
  | skip k =>
      simp only [Proactor.step] at he
      split at he
      · next hpc hphase =>
          obtain ⟨-, he⟩ := Option.ite_none_right_eq_some.mp he
          obtain rfl := Option.some.inj he
          have hm : s.mutex = some k := (h.locked.mutex k).mpr (by rw [hpc]; trivial)
          exact h.of_frame (h.locked.goto_holding hm trivial (fun hp => absurd hphase hp)
            fun _ => .inr rfl) rfl rfl rfl rfl rfl
      · cases he

/-- A proactor without threads is sound. -/
theorem sound_init : Sound ({} : Proactor κ) where
  locked := ⟨fun _ => ⟨nofun, False.elim⟩, fun hp => absurd rfl hp, nofun, fun _ _ => rfl⟩
  armed := ⟨fun _ _ => by simp [pending, ReactorLoop.handler],
    fun _ d => by cases d <;> simp [pending, Dir.watches, InterestSet.empty, Mask.zero], nofun⟩
  ledger := ⟨fun _ _ => by simp [pending, callbacksOf], rfl⟩
  task := ⟨fun fd hfd => absurd rfl hfd, fun e he => by cases he⟩
  cleaned _ := rfl

/-- **Run lemma.** The proactor is sound in every state reached. -/
theorem sound_of_reachable (h : (lts κ).Reachable s) : s.Sound :=
  h.invariant (fun _ hinit => hinit ▸ sound_init) fun _ _ _ hs hstep => hs.step hstep.2.2

/-- **The loop of the reactor meets no missing channel.** -/
theorem dispatches (h : (lts κ).Reachable s) : s.task.Dispatches := by
  intro fd d batch hphase
  exact (sound_of_reachable h).task.batch (fd, d) (by rw [hphase]; exact List.mem_cons_self)

/-- A look at an event whose operation is pending moves it; another event is passed over. -/
theorem dispatch_eq (h : s.Sound) {batch : List (ℤ × Dir)}
    (hphase : s.task.phase = .dispatching ((fd, d) :: batch)) :
    s.dispatch = some (if s.pending fd d = [] then
      { s with task := { s.task with phase := .dispatching batch } }
      else { s with task := { s.task with phase := .running batch } }.complete fd d) := by
  have hchannel : s.task.channels fd ≠ none := h.task.batch (fd, d) (by rw [hphase]; exact List.mem_cons_self)
  obtain ⟨c, hc⟩ := Option.ne_none_iff_exists'.mp hchannel
  have hhandler := h.armed.handler fd d
  have hcallback : s.task.handler fd d = Reactor.callback c d := by simp [ReactorLoop.handler, hc]
  unfold dispatch
  simp only [hphase, ReactorLoop.step, hc, Option.map_some]
  by_cases hpending : s.pending fd d = []
  · rw [if_pos hpending] at hhandler ⊢
    rw [hhandler] at hcallback ⊢
    simp [← hcallback]
  · rw [if_neg hpending] at hhandler ⊢
    rw [hhandler] at hcallback ⊢
    simp [← hcallback]

/-- A look needs an event. -/
theorem exists_of_dispatch (h : s.dispatch = some t) :
    ∃ fd d batch, s.task.phase = .dispatching ((fd, d) :: batch) := by
  unfold dispatch at h
  split at h
  · next fd d batch hphase => exact ⟨fd, d, batch, hphase⟩
  · cases h

/-! ## Runs in which no queue is emptied -/

/-- **A pending operation is armed and completes once, in order**, and no handler has gone on after
its closure was destroyed. -/
structure Kept (s : Proactor κ) : Prop where
  defined : s.undefined = false
  /-- While the mutex is free, what is pending has its handler and its interest. -/
  armed : s.mutex = none → ∀ fd d, s.pending fd d ≠ [] →
    s.task.handler fd d = some (fd, d) ∧ d.watches (s.task.interest fd) = true
  /-- What was submitted for a descriptor and a direction was moved, in its order, or is pending. -/
  moved : ∀ fd d, callbacksOf fd d s.submitted = callbacksOf fd d s.moved ++ s.pending fd d
  /-- What was moved was taken, in its order, or is in `op_queue`. -/
  popped : s.moved.map Prod.snd = s.popped ++ s.opQueue

/-- The event that the loop looks at does not find a single callback in its queue. -/
def Lasting (s : Proactor κ) : ProactorEvent κ → Prop
  | .loop _ .dispatch => ∀ e ∈ s.task.phase.batch.head?, (s.pending e.1 e.2).length ≠ 1
  | _ => True

instance : DecidablePred s.Lasting
  | .loop _ .dispatch =>
      inferInstanceAs (Decidable (∀ e ∈ s.task.phase.batch.head?, (s.pending e.1 e.2).length ≠ 1))
  | .loop _ (.op _) | .loop _ (.listen _) | .loop _ .resume | .loop _ .clean => .isTrue trivial
  | .start | .async .. | .run _ | .notify .. | .spurious _ | .skip _ => .isTrue trivial

/-- All but the destroyed closures is kept by every step. -/
theorem Sound.kept_iff (h : s.Sound) : s.Kept ↔ s.undefined = false := by
  refine ⟨Kept.defined, fun hdefined => ⟨hdefined, fun _ fd d hpending => ⟨?_, ?_⟩, h.ledger.moved,
    h.ledger.popped⟩⟩
  · rw [h.armed.handler, if_neg hpending]
  · rw [h.armed.watched]
    simpa using hpending

/-- **A closure is destroyed** by a look at an event with a single callback, and by nothing else. -/
theorem Sound.undefined_step (h : s.Sound) {e : ProactorEvent κ} (he : s.step e = some t) :
    t.undefined = false ↔ s.undefined = false ∧ s.Lasting e := by
  have hsame (hundefined : t.undefined = s.undefined) (hlasting : s.Lasting e) :
      t.undefined = false ↔ s.undefined = false ∧ s.Lasting e := by
    rw [hundefined, and_iff_left hlasting]
  cases e with
  | start =>
      obtain rfl := Option.some.inj he
      exact hsame rfl trivial
  | async caller d socket f =>
      obtain ⟨-, ⟨-, rfl⟩ | ⟨-, -, rfl⟩⟩ := async_cases he
      · exact hsame rfl trivial
      · exact hsame rfl trivial
  | run k =>
      obtain ⟨-, hrun⟩ := Option.ite_none_right_eq_some.mp he
      cases runStepped hrun <;> exact hsame rfl trivial
  | notify k target =>
      simp only [Proactor.step] at he
      split at he
      · obtain ⟨-, he⟩ := Option.ite_none_right_eq_some.mp he
        obtain rfl := Option.some.inj he
        cases target <;> exact hsame rfl trivial
      · cases he
  | spurious k =>
      obtain ⟨-, he⟩ := Option.ite_none_right_eq_some.mp he
      obtain rfl := Option.some.inj he
      exact hsame rfl trivial
  | skip k =>
      simp only [Proactor.step] at he
      split at he
      · obtain ⟨-, he⟩ := Option.ite_none_right_eq_some.mp he
        obtain rfl := Option.some.inj he
        exact hsame rfl trivial
      · cases he
  | loop k e =>
      obtain ⟨-, he⟩ := Option.ite_none_right_eq_some.mp he
      unfold Proactor.loopStep at he
      split at he
      case h_1 | h_2 | h_4 =>
        obtain ⟨task, -, rfl⟩ := Option.map_eq_some_iff.mp he
        exact hsame rfl trivial
      case h_3 =>
        obtain ⟨fd, d, batch, hphase⟩ := exists_of_dispatch he
        have hlasting : s.Lasting (.loop k .dispatch) ↔ (s.pending fd d).length ≠ 1 := by
          simp [Lasting, hphase, LoopPhase.batch]
        rw [dispatch_eq h hphase] at he
        obtain rfl := Option.some.inj he
        rw [hlasting]
        split
        · next hnil => simp [hnil]
        · have hpending : pending { s with task := { s.task with phase := .running batch } } fd d =
              s.pending fd d := rfl
          rw [← Bool.not_eq_true, undefined_complete, hpending, not_or, Bool.not_eq_true]
      case h_5 => cases he

/-- A step of the proactor has one outcome. -/
theorem lts_deterministic {e : ProactorEvent κ} {t' : Proactor κ} (h : (lts κ).step s e t)
    (h' : (lts κ).step s e t') : t = t' :=
  Option.some.inj (h.2.2.symm.trans h'.2.2)

/-- **The operations are kept exactly while no queue is emptied**: at the end of a run what is pending
is armed, and everything was completed once and in order, if and only if no event of the run has
found a single callback in its queue. -/
theorem kept_iff_lasting {es : List (ProactorEvent κ)} (hrun : (lts κ).Run {} es s) :
    s.Kept ↔ ((lts κ).guard Lasting).Run {} es s := by
  have hstep : ∀ (s : Proactor κ) e t, s.Sound → (lts κ).step s e t → t.Sound :=
    fun _ _ _ hs hstep => hs.step hstep.2.2
  have hkept : ∀ (s : Proactor κ) e t, s.Sound → (lts κ).step s e t →
      (t.Kept ↔ s.Kept ∧ s.Lasting e) := by
    intro s e t hs hstep
    rw [(hs.step hstep.2.2).kept_iff, hs.kept_iff]
    exact hs.undefined_step hstep.2.2
  have hinit : Kept ({} : Proactor κ) := sound_init.kept_iff.mpr rfl
  rw [hrun.guard_iff (fun _ _ _ _ => lts_deterministic) hstep hkept sound_init, and_iff_right hinit]

/-- A step that can be tried out: `listen` is called with a channel for `fd`. -/
def stepWith (fd : ℤ) (s : Proactor κ) (e : ProactorEvent κ) : Option (Proactor κ) :=
  if s.undefined = false then
    match e with
    | .loop k (.listen events) =>
        if (s.task.channels fd).isSome then s.step (.loop k (.listen events)) else none
    | .skip _ => none
    | e => s.step e
  else none

/-- A step that was tried out is one of the proactor. -/
theorem step_of_stepWith {e : ProactorEvent κ} (h : stepWith fd s e = some t) : (lts κ).step s e t := by
  obtain ⟨hdefined, h⟩ := Option.ite_none_right_eq_some.mp h
  refine ⟨hdefined, ?_⟩
  split at h
  · obtain ⟨hchannel, h⟩ := Option.ite_none_right_eq_some.mp h
    exact ⟨⟨fd, Option.isSome_iff_ne_none.mp hchannel⟩, h⟩
  · cases h
  · next hlisten hskip =>
      refine ⟨?_, h⟩
      cases e with
      | skip k => exact absurd rfl (hskip k)
      | loop k e =>
          cases e with
          | listen events => exact absurd rfl (hlisten k events)
          | op | resume | dispatch | clean => trivial
      | start | async | run | notify | spurious => trivial

/-- A run that is given by its events reaches its last state. -/
theorem reachable_of_stepWith {es : List (ProactorEvent κ)}
    (h : es.foldlM (stepWith fd) {} = some s) : (lts κ).Reachable s :=
  ⟨{}, es, rfl, .of_foldlM (fun _ _ _ => step_of_stepWith) h⟩

/-- Two reads and two writes of a descriptor, and a round in which the first of each is completed. -/
theorem kept_of_round : ∃ s : Proactor ℕ, s.Kept ∧ s.opQueue = [0, 2] ∧ s.pending 5 .read = [1] ∧
    s.pending 5 .write = [3] := by
  let es : List (ProactorEvent ℕ) :=
    [.start, .async none .read 5 0, .async none .read 5 1, .async none .write 5 2,
      .async none .write 5 3, .run 0, .run 0, .run 0, .run 0, .run 0, .loop 0 (.listen [(5, .RDWR)]),
      .loop 0 .resume, .loop 0 .dispatch, .loop 0 .resume, .loop 0 .dispatch, .loop 0 .resume,
      .loop 0 .clean, .run 0]
  let lasting (s : Proactor ℕ) (e : ProactorEvent ℕ) := if s.Lasting e then stepWith 5 s e else none
  have hrun : (es.foldlM lasting {}).map
      (fun s => (s.opQueue, s.pending 5 .read, s.pending 5 .write)) = some ([0, 2], [1], [3]) := by
    decide +kernel
  obtain ⟨s, hs, hshow⟩ := Option.map_eq_some_iff.mp hrun
  simp only [Prod.mk.injEq] at hshow
  have hguard : ((lts ℕ).guard Lasting).Run {} es s := by
    refine .of_foldlM (fun s e t he => ?_) hs
    obtain ⟨hlasting, he⟩ := Option.ite_none_right_eq_some.mp he
    exact ⟨hlasting, step_of_stepWith he⟩
  exact ⟨s, (kept_iff_lasting hguard.of_guard).mpr hguard, hshow⟩

/-- A read is submitted, and its descriptor becomes readable. -/
theorem single_read_not_kept : ∃ es, ∃ s : Proactor ℕ, (lts ℕ).Run {} es s ∧ ¬s.Kept := by
  let es : List (ProactorEvent ℕ) :=
    [.start, .async none .read 5 0, .run 0, .run 0, .run 0, .run 0, .run 0,
      .loop 0 (.listen [(5, .RD)]), .loop 0 .resume, .loop 0 .dispatch]
  have hrun : (es.foldlM (stepWith 5) {}).map Proactor.undefined = some true := by
    decide +kernel
  obtain ⟨s, hs, hundefined⟩ := Option.map_eq_some_iff.mp hrun
  refine ⟨es, s, .of_foldlM (fun _ _ _ => step_of_stepWith) hs, fun hkept => ?_⟩
  rw [hkept.defined] at hundefined
  cases hundefined

end Proactor

end Libio
