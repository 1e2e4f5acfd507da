import Libio.Foundation.Families
import Libio.Http.WakeUp
import Mathlib.Data.List.Nodup
import Mathlib.Data.List.Range

/-! # One queue for many reactors

The class `thread_loop` of `model/thread_loop.hh`: the accept handler pushes a client to the one
queue and writes to the eventfds of two threads it draws at random, which may be the same; the
wake-up handler of a thread reads its eventfd and pops until a pop fails. A locked queue operation
is one step, and so is a system call on an eventfd.

A client is named by its place in the order of arrival, and so is the `client_info` that is made for
it. `taken_once` says where the clients go, `settles_quiet` that all of them go somewhere, and
`dangling` what their callbacks find where their arguments have been. -/

namespace Libio

/-- Where a thread is in its wake-up handler: outside, in front of the read, of a pop. -/
inductive LoopPc
  | outside
  | reading
  | popping
  deriving DecidableEq

/-- The class `thread_info` with the wake-up handler of the thread. -/
structure ThreadInfo where
  /-- The counter of `wakeupfd`. -/
  counter : ℕ := 0
  pc : LoopPc := .outside
  /-- The `client_info` that the local `cinfo` of the handler owns. -/
  cinfo : Option ℕ := none
  /-- The clients whose handlers have been set on the reactor of the thread, in order. -/
  registered : List ℕ := []
  deriving DecidableEq

/-- The class `thread_loop`. The last two members are history. -/
structure ThreadLoop where
  threads : ℕ → ThreadInfo
  size : ℕ
  clientQueue : LockQueue ℕ := []
  /-- The number of clients accepted. -/
  accepted : ℕ := 0
  /-- The writes that are left of the loop of `wakeup_random`. -/
  waking : ℕ := 0
  /-- The clients popped, in order, with the thread that popped them. -/
  taken : List (ℕ × ℕ) := []
  /-- Each `client_info` that was deleted. -/
  freed : List ℕ := []

/-- A step of the accept handler or of a thread. -/
inductive ThreadLoopEvent
  | accept
  /-- `wakeup_random` has drawn the thread `i`. -/
  | wakeup (i : ℕ)
  | thread (i : ℕ)
  deriving DecidableEq

namespace ThreadLoop

/-- `init()`. -/
def init (size : ℕ) : ThreadLoop where
  threads _ := {}
  size := size

variable (s : ThreadLoop)

/-- Replace a thread. -/
def setThread (i : ℕ) (w : ThreadInfo) : ThreadLoop :=
  { s with threads := Function.update s.threads i w }

/-- The rounds of the loop of `wakeup_random(n)`. -/
def wakeups (n : ℕ) : ℕ := if s.size < n then s.size else n

/-- The read handler of the listening socket up to the loop of `wakeup_random(2)`. -/
def accept : ThreadLoop :=
  { s with
    clientQueue := s.clientQueue.push s.accepted
    accepted := s.accepted + 1
    waking := s.wakeups 2 }

/-- `wxg::write(threads[i]->wakeupfd, msg)`; the message is that of `http_thread`. -/
def wakeup (i : ℕ) : ThreadLoop :=
  { s.setThread i { s.threads i with
      counter := EventFd.write (s.threads i).counter WakeUp.wakeupValue } with
    waking := s.waking - 1 }

/-- The next step of a thread: its reactor runs the wake-up handler when the eventfd is readable, and
the handler goes on where it is. -/
def threadStep (i : ℕ) : Option ThreadLoop :=
  let w := s.threads i
  match w.pc with
  | .outside => if 0 < w.counter then some (s.setThread i { w with pc := .reading }) else none
  | .reading =>
      some (s.setThread i { w with counter := EventFd.read w.counter, pc := .popping, cinfo := none })
  | .popping =>
      match s.clientQueue.pop with
      | some (k, rest) =>
          -- the assignment to `cinfo` deletes what it owned
          some { s.setThread i { w with cinfo := some k, registered := w.registered ++ [k] } with
            clientQueue := rest
            taken := s.taken ++ [(k, i)]
            freed := s.freed ++ w.cinfo.toList }
      | none =>
          some { s.setThread i { w with pc := .outside, cinfo := none } with
            freed := s.freed ++ w.cinfo.toList }

/-- A step, where it is possible. -/
def step : ThreadLoopEvent → Option ThreadLoop
  | .accept => if s.waking = 0 then some s.accept else none
  | .wakeup i => if 0 < s.waking ∧ i < s.size then some (s.wakeup i) else none
  | .thread i => s.threadStep i

/-- The loop as a transition system: `resize` may have asked for any number of threads. -/
def lts : Lts ThreadLoop ThreadLoopEvent where
  init s := ∃ size, s = init size
  step s e t := s.step e = some t

variable {s} {t : ThreadLoop} {i j k : ℕ} {w : ThreadInfo}

/-- The threads when one of them is replaced. -/
@[simp] theorem threads_setThread : (s.setThread i w).threads j = if j = i then w else s.threads j := by
  by_cases h : j = i
  · subst h
    simp [setThread]
  · simp [setThread, h]

/-- The steps, rule by rule. -/
inductive Step (s : ThreadLoop) : ThreadLoopEvent → ThreadLoop → Prop
  | accept (hidle : s.waking = 0) : Step s .accept s.accept
  | wakeup {i : ℕ} (hwaking : 0 < s.waking) (hi : i < s.size) : Step s (.wakeup i) (s.wakeup i)
  | enter {i : ℕ} (hpc : (s.threads i).pc = .outside) (hpos : 0 < (s.threads i).counter) :
      Step s (.thread i) (s.setThread i { s.threads i with pc := .reading })
  | read {i : ℕ} (hpc : (s.threads i).pc = .reading) :
      Step s (.thread i) (s.setThread i { s.threads i with
        counter := 0, pc := .popping, cinfo := none })
  | pop {i k : ℕ} {rest : List ℕ} (hpc : (s.threads i).pc = .popping)
      (hqueue : s.clientQueue = k :: rest) :
      Step s (.thread i)
        { s.setThread i { s.threads i with
            cinfo := some k, registered := (s.threads i).registered ++ [k] } with
          clientQueue := rest
          taken := s.taken ++ [(k, i)]
          freed := s.freed ++ (s.threads i).cinfo.toList }
  | leave {i : ℕ} (hpc : (s.threads i).pc = .popping) (hqueue : s.clientQueue = []) :
      Step s (.thread i)
        { s.setThread i { s.threads i with pc := .outside, cinfo := none } with
          freed := s.freed ++ (s.threads i).cinfo.toList }

/-- **What a step can do.** -/
theorem step_cases {e : ThreadLoopEvent} (h : s.step e = some t) : s.Step e t := by
  cases e with
  | accept =>
      obtain ⟨hidle, rfl⟩ := Option.ite_some_none_eq_some.mp h
      exact .accept hidle
  | wakeup i =>
      obtain ⟨⟨hwaking, hi⟩, rfl⟩ := Option.ite_some_none_eq_some.mp h
      exact .wakeup hwaking hi
  | thread i =>
      simp only [step, threadStep] at h
      split at h
      · next hpc =>
          obtain ⟨hpos, rfl⟩ := Option.ite_some_none_eq_some.mp h
          exact .enter hpc hpos
      · next hpc =>
          obtain rfl := Option.some.inj h
          exact .read hpc
      · next hpc =>
          split at h
          · next k rest hpop =>
              obtain rfl := Option.some.inj h
              exact .pop hpc (LockQueue.pop_eq_some.mp hpop)
          · next hpop =>
              obtain rfl := Option.some.inj h
              exact .leave hpc (LockQueue.pop_eq_none.mp hpop)

/-! ## Where the clients are -/

/-- The invariant of the clients and their records. -/
structure Ledger (s : ThreadLoop) : Prop where
  order : s.taken.map Prod.fst ++ s.clientQueue = List.range s.accepted
  registered : ∀ i, (s.threads i).registered = (s.taken.filter (·.2 = i)).map Prod.fst
  held : ∀ i k, (s.threads i).cinfo = some k → (s.threads i).pc = .popping ∧ (k, i) ∈ s.taken
  freed : ∀ k, k ∈ s.freed ↔ k ∈ s.taken.map Prod.fst ∧ ∀ i, (s.threads i).cinfo ≠ some k
  freed_nodup : s.freed.Nodup

/-- The books are in order before the first client. -/
theorem ledger_init (size : ℕ) : (init size).Ledger where
  order := rfl
  registered _ := rfl
  held := nofun
  freed _ := iff_of_false List.not_mem_nil fun h => absurd h.1 List.not_mem_nil
  freed_nodup := .nil

/-- No client is in the books twice. -/
theorem Ledger.nodup (h : s.Ledger) : (s.taken.map Prod.fst ++ s.clientQueue).Nodup :=
  h.order ▸ List.nodup_range

/-- One thread has popped a client. -/
theorem Ledger.unique (h : s.Ledger) (hi : (k, i) ∈ s.taken) (hj : (k, j) ∈ s.taken) : i = j :=
  congrArg Prod.snd (List.inj_on_of_nodup_map (List.nodup_append.mp h.nodup).1 hi hj rfl)

/-- A thread that moves neither a client nor a record. -/
theorem Ledger.setThread (h : s.Ledger) {m : ℕ} (hregistered : w.registered = (s.threads i).registered)
    (hcinfo : w.cinfo = (s.threads i).cinfo) (hpc : w.pc = (s.threads i).pc ∨ w.cinfo = none) :
    Ledger { s.setThread i w with waking := m } := by
  have hcinfo' : ∀ j, ((s.setThread i w).threads j).cinfo = (s.threads j).cinfo := by
    intro j
    rw [threads_setThread]
    split
    · next hj => rw [hcinfo, hj]
    · rfl
  constructor
  case order => exact h.order
  case registered =>
    intro j
    show ((s.setThread i w).threads j).registered = (s.taken.filter (·.2 = j)).map Prod.fst
    rw [threads_setThread]
    split
    · next hj => rw [hregistered, hj, h.registered i]
    · exact h.registered j
  case held =>
    intro j k hk
    have hold : (s.threads j).cinfo = some k := (hcinfo' j).symm.trans hk
    refine ⟨?_, (h.held j k hold).2⟩
    show ((s.setThread i w).threads j).pc = .popping
    rw [threads_setThread]
    split
    · next hj =>
        subst hj
        rcases hpc with hpc | hnone
        · rw [hpc, (h.held j k hold).1]
        · rw [hcinfo, hold] at hnone
          cases hnone
    · exact (h.held j k hold).1
  case freed =>
    intro k
    refine (h.freed k).trans (and_congr_right' (forall_congr' fun j => not_congr ?_))
    rw [← hcinfo' j]
  case freed_nodup => exact h.freed_nodup

/-- Outside its loop a handler owns no record. -/
theorem Ledger.cinfo_eq_none (h : s.Ledger) (hpc : (s.threads i).pc ≠ .popping) :
    (s.threads i).cinfo = none := by
  by_contra hne
  obtain ⟨k, hk⟩ := Option.ne_none_iff_exists'.mp hne
  exact hpc (h.held i k hk).1

/-- A client that is accepted enters the queue. -/
theorem Ledger.accept (h : s.Ledger) : s.accept.Ledger where
  order := by
    show s.taken.map Prod.fst ++ (s.clientQueue ++ [s.accepted]) = List.range (s.accepted + 1)
    rw [← List.append_assoc, h.order, List.range_succ]
  registered := h.registered
  held := h.held
  freed := h.freed
  freed_nodup := h.freed_nodup

/-- What the local `cinfo` owned is deleted once. -/
theorem Ledger.nodup_free (h : s.Ledger) (i : ℕ) : (s.freed ++ (s.threads i).cinfo.toList).Nodup := by
  cases hk : (s.threads i).cinfo with
  | none => simpa using h.freed_nodup
  | some k =>
      refine List.nodup_append.mpr ⟨h.freed_nodup, List.nodup_singleton k, ?_⟩
      rintro k' hk' _ hmem rfl
      obtain rfl := List.mem_singleton.mp hmem
      exact ((h.freed k').mp hk').2 i hk

/-- The records that are deleted when the local `cinfo` of a thread is assigned to. -/
theorem Ledger.mem_free (h : s.Ledger) {c : Option ℕ} (hc : ∀ k ∈ s.taken.map Prod.fst, c ≠ some k)
    (hw : w.cinfo = c) (k : ℕ) : k ∈ s.freed ++ (s.threads i).cinfo.toList ↔
      k ∈ s.taken.map Prod.fst ∧ ∀ j, ((s.setThread i w).threads j).cinfo ≠ some k := by
  rw [List.mem_append, h.freed k, Option.mem_toList]
  constructor
  · rintro (⟨hmem, hall⟩ | hk)
    · refine ⟨hmem, fun j => ?_⟩
      rw [threads_setThread]
      split
      · rw [hw]
        exact hc k hmem
      · exact hall j
    · have htaken := (h.held i k hk).2
      have hmem : k ∈ s.taken.map Prod.fst := List.mem_map_of_mem htaken
      refine ⟨hmem, fun j hj => ?_⟩
      rw [threads_setThread] at hj
      split at hj
      · exact hc k hmem (hw.symm.trans hj)
      · next hne => exact hne (h.unique (h.held j k hj).2 htaken)
  · -- a record that was popped and that nobody holds now was held by this thread, or by nobody
    rintro ⟨hmem, hall⟩
    by_cases hk : (s.threads i).cinfo = some k
    · exact .inr hk
    · refine .inl ⟨hmem, fun j hj => ?_⟩
      have hne : j ≠ i := by
        rintro rfl
        exact hk hj
      exact hall j (by rw [threads_setThread, if_neg hne, hj])

/-- A thread that leaves its handler does not touch the books. -/
theorem Ledger.leave (h : s.Ledger) :
    Ledger { s.setThread i { s.threads i with pc := .outside, cinfo := none } with
      freed := s.freed ++ (s.threads i).cinfo.toList } where
  order := h.order
  registered j := by
    show ((s.setThread i _).threads j).registered = (s.taken.filter (·.2 = j)).map Prod.fst
    rw [threads_setThread]
    split
    · next hj => rw [hj, h.registered i]
    · exact h.registered j
  held j k hk := by
    have hk' : ((s.setThread i { s.threads i with pc := .outside, cinfo := none }).threads j).cinfo =
        some k := hk
    rw [threads_setThread] at hk'
    split at hk'
    · cases hk'
    · next hne =>
        refine ⟨?_, (h.held j k hk').2⟩
        show ((s.setThread i _).threads j).pc = .popping
        rw [threads_setThread, if_neg hne, (h.held j k hk').1]
  freed := h.mem_free (c := none) (fun _ _ => nofun) rfl
  freed_nodup := h.nodup_free i

/-- A thread that pops a client takes it over. -/
theorem Ledger.pop (h : s.Ledger) {rest : List ℕ} (hpc : (s.threads i).pc = .popping)
    (hqueue : s.clientQueue = k :: rest) :
    Ledger { s.setThread i { s.threads i with
        cinfo := some k, registered := (s.threads i).registered ++ [k] } with
      clientQueue := rest
      taken := s.taken ++ [(k, i)]
      freed := s.freed ++ (s.threads i).cinfo.toList } := by
  have hnodup := h.nodup
  rw [hqueue] at hnodup
  -- nobody has popped the client before
  have hnew : k ∉ s.taken.map Prod.fst := fun hmem =>
    (List.nodup_append.mp hnodup).2.2 k hmem k List.mem_cons_self rfl
  generalize hw : { s.threads i with
    cinfo := some k, registered := (s.threads i).registered ++ [k] } = w
  constructor
  case order =>
    show (s.taken ++ [(k, i)]).map Prod.fst ++ rest = List.range s.accepted
    rw [List.map_append, List.append_assoc, ← h.order, hqueue]
    rfl
  case registered =>
    intro j
    show ((s.setThread i w).threads j).registered = ((s.taken ++ [(k, i)]).filter (·.2 = j)).map Prod.fst
    rw [threads_setThread, List.filter_append, List.map_append, ← h.registered j]
    split
    · next hj =>
        subst hj
        simp [← hw]
    · next hj => simp [Ne.symm hj]
  case held =>
    intro j k' hk'
    have hk' : ((s.setThread i w).threads j).cinfo = some k' := hk'
    show ((s.setThread i w).threads j).pc = .popping ∧ (k', j) ∈ s.taken ++ [(k, i)]
    rw [threads_setThread] at hk' ⊢
    split at hk'
    · next hj =>
        obtain rfl : k = k' := by simpa [← hw] using hk'
        rw [if_pos hj, hj]
        exact ⟨by rw [← hw]; exact hpc, List.mem_append_right _ List.mem_cons_self⟩
    · next hj =>
        rw [if_neg hj]
        exact ⟨(h.held j k' hk').1, List.mem_append_left _ (h.held j k' hk').2⟩
  case freed =>
    intro k'
    have hfree := h.mem_free (i := i) (w := w) (c := some k)
      (fun k' hk' he => hnew (Option.some.inj he ▸ hk')) (by rw [← hw]) k'
    refine hfree.trans ?_
    show _ ↔ k' ∈ (s.taken ++ [(k, i)]).map Prod.fst ∧ ∀ j, ((s.setThread i w).threads j).cinfo ≠ some k'
    rw [List.map_append, List.mem_append]
    constructor
    · rintro ⟨hmem, hall⟩
      exact ⟨.inl hmem, hall⟩
    · rintro ⟨hmem | hmem, hall⟩
      · exact ⟨hmem, hall⟩
      · obtain rfl : k' = k := List.mem_singleton.mp hmem
        exact absurd (by rw [threads_setThread, if_pos rfl, ← hw]) (hall i)
  case freed_nodup => exact h.nodup_free i

/-- **Every step** keeps the invariant of the clients. -/
theorem Ledger.step (h : s.Ledger) {e : ThreadLoopEvent} (hs : s.step e = some t) : t.Ledger := by
  cases step_cases hs with
  | accept => exact h.accept
  | wakeup => exact h.setThread rfl rfl (.inl rfl)
  | enter hpc =>
      exact h.setThread (m := s.waking) rfl rfl (.inr (h.cinfo_eq_none (by rw [hpc]; exact nofun)))
  | read hpc =>
      have hnone := h.cinfo_eq_none (i := _) (by rw [hpc]; exact nofun)
      exact h.setThread (m := s.waking) rfl hnone.symm (.inr rfl)
  | pop hpc hqueue => exact h.pop hpc hqueue
  | leave => exact h.leave

/-- **Run lemma.** The books are in order in every state reached. -/
theorem ledger_of_reachable (h : lts.Reachable s) : s.Ledger :=
  h.invariant (fun _ ⟨size, hs⟩ => hs ▸ ledger_init size) fun _ _ _ hl hs => hl.step hs

/-- The clients of a thread are those it has taken. -/
theorem Ledger.mem_registered (h : s.Ledger) : k ∈ (s.threads i).registered ↔ (k, i) ∈ s.taken := by
  rw [h.registered i]
  constructor
  · intro hmem
    obtain ⟨⟨k', i'⟩, hfilter, hk⟩ := List.mem_map.mp hmem
    obtain ⟨hin, hi⟩ := List.mem_filter.mp hfilter
    obtain rfl : i' = i := by simpa using hi
    obtain rfl : k' = k := hk
    exact hin
  · intro hin
    exact List.mem_map.mpr ⟨(k, i), List.mem_filter.mpr ⟨hin, by simp⟩, rfl⟩

/-- A client that has arrived waits in the queue, or one thread has it. -/
theorem Ledger.place (h : s.Ledger) {k : ℕ} (hk : k < s.accepted) :
    (k ∈ s.clientQueue ∧ ∀ i, k ∉ (s.threads i).registered) ∨
      (k ∉ s.clientQueue ∧ ∃! i, k ∈ (s.threads i).registered) := by
  have hmem : k ∈ s.taken.map Prod.fst ++ s.clientQueue := by
    rw [h.order]
    exact List.mem_range.mpr hk
  rcases List.mem_append.mp hmem with hin | hin
  · -- nobody else has popped the client, and it has left the queue
    obtain ⟨⟨k', i⟩, hpopped, rfl⟩ := List.mem_map.mp hin
    refine .inr ⟨fun hq => ?_, i, h.mem_registered.mpr hpopped, fun j hj => ?_⟩
    · exact (List.nodup_append.mp h.nodup).2.2 _ hin _ hq rfl
    · exact h.unique (h.mem_registered.mp hj) hpopped
  · refine .inl ⟨hin, fun i hi => ?_⟩
    have hpopped : k ∈ s.taken.map Prod.fst := List.mem_map_of_mem (h.mem_registered.mp hi)
    exact (List.nodup_append.mp h.nodup).2.2 _ hpopped _ hin rfl

/-- **Each client goes to one thread**: it waits in the queue, or exactly one thread has set its
handlers. The queue and every thread have their clients in the order of arrival. -/
theorem taken_once (h : lts.Reachable s) :
    (∀ k < s.accepted, (k ∈ s.clientQueue ∧ ∀ i, k ∉ (s.threads i).registered) ∨
      (k ∉ s.clientQueue ∧ ∃! i, k ∈ (s.threads i).registered)) ∧
    s.clientQueue.Pairwise (· < ·) ∧ ∀ i, (s.threads i).registered.Pairwise (· < ·) := by
  have hledger := ledger_of_reachable h
  have hsorted : (s.taken.map Prod.fst ++ s.clientQueue).Pairwise (· < ·) := by
    rw [hledger.order]
    exact List.pairwise_lt_range
  obtain ⟨htaken, hqueue, -⟩ := List.pairwise_append.mp hsorted
  refine ⟨fun k hk => hledger.place hk, hqueue, fun i => ?_⟩
  rw [hledger.registered i]
  exact htaken.sublist (List.filter_sublist.map _)

/-- Two threads, of which the second takes the first client, and a client that waits. -/
theorem taken_once_waiting : ∃ s : ThreadLoop, s.clientQueue = [1] ∧
    (s.threads 1).registered = [0] ∧ ∃! i, 0 ∈ (s.threads i).registered := by
  have h₀ : lts.Reachable (init 2) := .of_init ⟨2, rfl⟩
  have h₁ := h₀.step (a := ThreadLoopEvent.accept) rfl
  have h₂ := h₁.step (a := ThreadLoopEvent.wakeup 1) rfl
  have h₃ := h₂.step (a := ThreadLoopEvent.wakeup 1) rfl
  have h₄ := h₃.step (a := ThreadLoopEvent.thread 1) rfl
  have h₅ := h₄.step (a := ThreadLoopEvent.thread 1) rfl
  have h₆ := h₅.step (a := ThreadLoopEvent.thread 1) rfl
  have h₇ := h₆.step (a := ThreadLoopEvent.accept) rfl
  have hfirst := ((taken_once h₇).1 0 (by decide)).resolve_left fun h => absurd h.1 (by decide)
  refine ⟨_, ?_, ?_, hfirst.2⟩
  · rfl
  · rfl

/-- The reactor of the thread `i` may call a callback of the client `k`: the handlers of the client
have been set, and the thread is not in its wake-up handler. -/
def Callable (s : ThreadLoop) (i k : ℕ) : Prop :=
  (s.threads i).pc = .outside ∧ k ∈ (s.threads i).registered

/-- What a callback of the client `k` reads its argument from: `set_read_handler` and its like
capture their arguments by reference, here the member `fd` of the `client_info`; none, where this has
been deleted. -/
def argument (s : ThreadLoop) (k : ℕ) : Option ℕ := if k ∈ s.freed then none else some k

/-- **Dangling arguments.** A `client_info` is deleted once, and not while it waits in the queue; but
whenever a callback of its client may be called, it has been deleted. -/
theorem dangling (h : lts.Reachable s) :
    s.freed.Nodup ∧ (∀ k ∈ s.clientQueue, k ∉ s.freed) ∧
      ∀ i k, s.Callable i k → s.argument k = none := by
  have hledger := ledger_of_reachable h
  refine ⟨hledger.freed_nodup, fun k hk hfreed => ?_, fun i k hcall => ?_⟩
  · have hpopped := ((hledger.freed k).mp hfreed).1
    exact (List.nodup_append.mp hledger.nodup).2.2 _ hpopped _ hk rfl
  · obtain ⟨hpc, hregistered⟩ := hcall
    have hin := hledger.mem_registered.mp hregistered
    refine if_pos ((hledger.freed k).mpr ⟨List.mem_map_of_mem hin, fun j hj => ?_⟩)
    -- its owner would still be in its loop
    obtain ⟨hpopping, hin'⟩ := hledger.held j k hj
    obtain rfl := hledger.unique hin' hin
    rw [hpc] at hpopping
    cases hpopping

/-- The first callback of the first client. -/
theorem dangling_first : ∃ s : ThreadLoop, s.Callable 0 0 ∧ s.argument 0 = none := by
  have h₀ : lts.Reachable (init 1) := .of_init ⟨1, rfl⟩
  have h₁ := h₀.step (a := ThreadLoopEvent.accept) rfl
  have h₂ := h₁.step (a := ThreadLoopEvent.wakeup 0) rfl
  have h₃ := h₂.step (a := ThreadLoopEvent.thread 0) rfl
  have h₄ := h₃.step (a := ThreadLoopEvent.thread 0) rfl
  have h₅ := h₄.step (a := ThreadLoopEvent.thread 0) rfl
  have h₆ := h₅.step (a := ThreadLoopEvent.thread 0) rfl
  exact ⟨_, ⟨rfl, by decide⟩, (dangling h₆).2.2 0 0 ⟨rfl, by decide⟩⟩

/-! ## Coming to rest -/

/-- The invariant of the wake-ups. -/
structure Awake (s : ThreadLoop) : Prop where
  idle : ∀ i, s.size ≤ i → (s.threads i).pc = .outside ∧ (s.threads i).counter = 0
  waking : s.waking ≤ s.size
  /-- A thread is about to look at the queue as long as there is a client in it. -/
  heard : 0 < s.size → s.clientQueue ≠ [] → 0 < s.waking ∨
    ∃ i, (s.threads i).pc ≠ .outside ∨ 0 < (s.threads i).counter

/-- Without clients nobody needs to be awake. -/
theorem awake_init (size : ℕ) : (init size).Awake where
  idle _ _ := ⟨rfl, rfl⟩
  waking := Nat.zero_le _
  heard _ hne := absurd rfl hne

/-- A thread that is not outside, or can go inside, is in use. -/
theorem Awake.lt_size (h : s.Awake) (hi : (s.threads i).pc ≠ .outside ∨ 0 < (s.threads i).counter) :
    i < s.size := by
  by_contra hle
  obtain ⟨hpc, hcounter⟩ := h.idle i (Nat.le_of_not_lt hle)
  rcases hi with hi | hi
  · exact hi hpc
  · omega

/-- A thread in use takes a step after which it attends to the queue, or finds it empty. -/
theorem Awake.setThread (h : s.Awake) (hi : i < s.size) (hthreads : t.threads = (s.setThread i w).threads)
    (hsize : t.size = s.size) (hwaking : t.waking ≤ s.waking)
    (hw : t.clientQueue = [] ∨ w.pc ≠ .outside ∨ 0 < w.counter) : t.Awake where
  idle j hj := by
    rw [hsize] at hj
    rw [hthreads, threads_setThread, if_neg (by omega)]
    exact h.idle j hj
  waking := by
    rw [hsize]
    exact hwaking.trans h.waking
  heard _ hne := by
    refine .inr ⟨i, ?_⟩
    rw [hthreads, threads_setThread, if_pos rfl]
    exact hw.resolve_left hne

/-- **Every step** keeps the invariant of the wake-ups. -/
theorem Awake.step (h : s.Awake) {e : ThreadLoopEvent} (hs : s.step e = some t) : t.Awake := by
  cases step_cases hs with
  | accept =>
      -- a wake-up for each thread, or for two of them
      have hle : s.wakeups 2 ≤ s.size := by
        unfold wakeups
        split <;> omega
      refine ⟨h.idle, hle, fun hpos _ => .inl ?_⟩
      show 0 < s.wakeups 2
      have hpos : 0 < s.size := hpos
      unfold wakeups
      split <;> omega
  | @wakeup i hwaking hi =>
      have hcounter : 0 < EventFd.write (s.threads i).counter WakeUp.wakeupValue :=
        EventFd.write_pos WakeUp.wakeupValue_fits.1 WakeUp.wakeupValue_fits.2
      generalize hvalue : EventFd.write (s.threads i).counter WakeUp.wakeupValue = value at hcounter
      have hthreads : (s.wakeup i).threads =
          (s.setThread i { s.threads i with counter := value }).threads := by
        rw [← hvalue]
        rfl
      exact h.setThread hi hthreads rfl (Nat.sub_le _ _) (.inr (.inr hcounter))
  | enter hpc hpos => exact h.setThread (h.lt_size (.inr hpos)) rfl rfl le_rfl (.inr (.inl nofun))
  | read hpc =>
      have hi := h.lt_size (i := _) (.inl (by rw [hpc]; exact nofun))
      exact h.setThread hi rfl rfl le_rfl (.inr (.inl nofun))
  | @pop i _ _ hpc =>
      have hout : (s.threads i).pc ≠ .outside := by
        rw [hpc]
        exact nofun
      exact h.setThread (h.lt_size (.inl hout)) rfl rfl le_rfl (.inr (.inl hout))
  | leave hpc hqueue =>
      have hi := h.lt_size (i := _) (.inl (by rw [hpc]; exact nofun))
      exact h.setThread hi rfl rfl le_rfl (.inl hqueue)

/-- **Run lemma.** Whoever is needed is awake in every state reached. -/
theorem awake_of_reachable (h : lts.Reachable s) : s.Awake :=
  h.invariant (fun _ ⟨size, hs⟩ => hs ▸ awake_init size) fun _ _ _ ha hs => ha.step hs

/-- The steps that are left of a thread when nobody writes to its eventfd and no client comes. -/
def remaining (w : ThreadInfo) : ℕ :=
  match w.pc with
  | .outside => if w.counter = 0 then 0 else 3
  | .reading => 2
  | .popping => 1 + if w.counter = 0 then 0 else 3

/-- What is left to do. -/
def work (s : ThreadLoop) : ℕ :=
  Family.total remaining s.threads s.size + s.clientQueue.length + 4 * s.waking

/-- The work after a thread in use was replaced. -/
theorem work_setThread (hi : i < s.size) (hthreads : t.threads = (s.setThread i w).threads)
    (hsize : t.size = s.size) :
    t.work + (remaining (s.threads i) + s.clientQueue.length + 4 * s.waking) =
      s.work + (remaining w + t.clientQueue.length + 4 * t.waking) := by
  have htotal := Family.total_update (μ := remaining) (f := s.threads) (x := w) hi
  unfold work
  rw [hthreads, hsize]
  unfold setThread
  simp only
  omega

/-- A write to an eventfd makes a thread go round once more at most. -/
theorem remaining_ring (w : ThreadInfo) (counter : ℕ) :
    remaining { w with counter := counter } ≤ remaining w + 3 := by
  unfold remaining
  cases w.pc with
  | outside =>
      simp only
      split <;> omega
  | reading => exact Nat.le_add_right 2 3
  | popping =>
      simp only
      split <;> omega

/-- **Every step but an arrival** leaves less to do. -/
theorem work_lt (h : s.Awake) {e : ThreadLoopEvent} (he : e ≠ .accept) (hs : s.step e = some t) :
    t.work < s.work := by
  cases step_cases hs with
  | accept => exact absurd rfl he
  | @wakeup i hwaking hi =>
      have hle := remaining_ring (s.threads i)
        (EventFd.write (s.threads i).counter WakeUp.wakeupValue)
      generalize hw : { s.threads i with
        counter := EventFd.write (s.threads i).counter WakeUp.wakeupValue } = w at hle
      have hwork := work_setThread (t := s.wakeup i) (w := w) hi (by rw [← hw]; rfl) rfl
      have hqueue : (s.wakeup i).clientQueue = s.clientQueue := rfl
      have hleft : (s.wakeup i).waking = s.waking - 1 := rfl
      rw [hqueue, hleft] at hwork
      omega
  | @enter i hpc hpos =>
      have hwork := work_setThread (s := s) (w := { s.threads i with pc := .reading })
        (h.lt_size (.inr hpos)) rfl rfl
      have hold : remaining (s.threads i) = 3 := by
        simp [remaining, hpc, Nat.pos_iff_ne_zero.mp hpos]
      have hnew : remaining { s.threads i with pc := .reading } = 2 := rfl
      have hqueue : (s.setThread i { s.threads i with pc := .reading }).clientQueue.length =
        s.clientQueue.length := rfl
      have hleft : (s.setThread i { s.threads i with pc := .reading }).waking = s.waking := rfl
      omega
  | @read i hpc =>
      have hi := h.lt_size (i := i) (.inl (by rw [hpc]; exact nofun))
      have hold : remaining (s.threads i) = 2 := by simp [remaining, hpc]
      generalize hw : { s.threads i with counter := 0, pc := .popping, cinfo := none } = w
      have hnew : remaining w = 1 := by
        rw [← hw]
        rfl
      have hwork := work_setThread (s := s) (w := w) hi rfl rfl
      have hqueue : (s.setThread i w).clientQueue.length = s.clientQueue.length := rfl
      have hleft : (s.setThread i w).waking = s.waking := rfl
      omega
  | @pop i k rest hpc hqueue =>
      have hi := h.lt_size (i := i) (.inl (by rw [hpc]; exact nofun))
      generalize hw : { s.threads i with
        cinfo := some k, registered := (s.threads i).registered ++ [k] } = w
      have hnew : remaining w = remaining (s.threads i) := by
        rw [← hw]
        rfl
      generalize ht : { s.setThread i w with
        clientQueue := rest
        taken := s.taken ++ [(k, i)]
        freed := s.freed ++ (s.threads i).cinfo.toList } = t
      have hwork := work_setThread (t := t) (w := w) hi (by rw [← ht]) (by rw [← ht]; rfl)
      have hlength : s.clientQueue.length = t.clientQueue.length + 1 := by
        rw [hqueue, ← ht, List.length_cons]
      have hleft : t.waking = s.waking := by
        rw [← ht]
        rfl
      omega
  | @leave i hpc hqueue =>
      have hi := h.lt_size (i := i) (.inl (by rw [hpc]; exact nofun))
      generalize hw : { s.threads i with pc := .outside, cinfo := none } = w
      have hnew : remaining w + 1 = remaining (s.threads i) := by
        rw [← hw]
        simp only [remaining, hpc]
        omega
      generalize ht : { s.setThread i w with freed := s.freed ++ (s.threads i).cinfo.toList } = t
      have hwork := work_setThread (t := t) (w := w) hi (by rw [← ht]) (by rw [← ht]; rfl)
      have hlength : t.clientQueue = s.clientQueue := by
        rw [← ht]
        rfl
      have hleft : t.waking = s.waking := by
        rw [← ht]
        rfl
      rw [hlength] at hwork
      omega

/-- Every client has been handed over, and no thread is woken up any more. -/
structure Quiet (s : ThreadLoop) : Prop where
  waking : s.waking = 0
  clientQueue : s.clientQueue = []
  threads : ∀ i, (s.threads i).pc = .outside ∧ (s.threads i).counter = 0
  taken : ∀ k < s.accepted, ∃! i, k ∈ (s.threads i).registered

/-- Where no step but an arrival is possible, all is quiet. -/
theorem quiet_of_stuck (h : lts.Reachable s) (hpos : 0 < s.size)
    (hstuck : (lts.guard fun _ e => e ≠ .accept).Stuck s) : s.Quiet := by
  have hawake := awake_of_reachable h
  have hwaking : s.waking = 0 := by
    by_contra hne
    exact hstuck (.wakeup 0) _ ⟨nofun, if_pos ⟨Nat.pos_of_ne_zero hne, hpos⟩⟩
  have hthread : ∀ i, s.threadStep i = none := by
    intro i
    cases hstep : s.threadStep i with
    | none => rfl
    | some t => exact absurd ⟨nofun, hstep⟩ (hstuck (.thread i) t)
  have hthreads : ∀ i, (s.threads i).pc = .outside ∧ (s.threads i).counter = 0 := by
    intro i
    have hnone := hthread i
    unfold threadStep at hnone
    simp only at hnone
    split at hnone
    · next hpc =>
        refine ⟨hpc, ?_⟩
        by_contra hne
        rw [if_pos (Nat.pos_of_ne_zero hne)] at hnone
        cases hnone
    · cases hnone
    · split at hnone <;> cases hnone
  -- a client in the queue would be heard by somebody
  have hqueue : s.clientQueue = [] := by
    by_contra hne
    rcases hawake.heard hpos hne with hw | ⟨i, hi | hi⟩
    · omega
    · exact hi (hthreads i).1
    · have := (hthreads i).2
      omega
  refine ⟨hwaking, hqueue, hthreads, fun k hk => ?_⟩
  rcases (ledger_of_reachable h).place hk with ⟨hin, -⟩ | ⟨-, huniq⟩
  · rw [hqueue] at hin
    cases hin
  · exact huniq

/-- **The loop comes to rest**: with at least one thread, from every reachable state, when no further
client arrives, all runs of the wake-ups and the threads end, with every client handed over. -/
theorem settles_quiet (h : lts.Reachable s) (hpos : 0 < s.size) :
    (lts.guard fun _ e => e ≠ .accept).Settles Quiet s := by
  refine Lts.Settles.of_measure (I := fun s => lts.Reachable s ∧ 0 < s.size) (μ := work) ?_ ?_ ⟨h, hpos⟩
  · rintro s e t ⟨hr, hsize⟩ ⟨he, hs⟩
    have hsame : t.size = s.size := by
      cases step_cases hs <;> rfl
    exact ⟨⟨hr.step hs, hsame ▸ hsize⟩, work_lt (awake_of_reachable hr) he hs⟩
  · rintro s ⟨hr, hsize⟩ hstuck
    exact quiet_of_stuck hr hsize hstuck

/-- A loop of two threads with a client that has just been pushed. -/
theorem settles_quiet_pushed : ∃ s : ThreadLoop, s.clientQueue = [0] ∧ s.waking = 2 ∧
    (lts.guard fun _ e => e ≠ .accept).Settles Quiet s := by
  have h₀ : lts.Reachable (init 2) := .of_init ⟨2, rfl⟩
  have h₁ := h₀.step (a := ThreadLoopEvent.accept) rfl
  exact ⟨_, rfl, rfl, settles_quiet h₁ (by decide)⟩

end ThreadLoop

end Libio
