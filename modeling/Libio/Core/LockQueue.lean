import Libio.Core.Lock
import Libio.Foundation.Monitor

/-! # The queue between threads, step by step

The class `lock_queue` of `core/lock.hh` with the bodies of its methods taken step by step: `pop` tests
the queue, moves the front element out, which leaves a moved-from element in front, and drops that.
`linearizable` says that the threads see nothing of this: the models of the threads may take each
method as one step. -/

namespace Libio

namespace LockQueue

universe u

variable {α : Type u}

/-- A call of a method. -/
inductive Call (α : Type u)
  | push (v : α)
  | pop
  | empty
  | size
  deriving DecidableEq

/-- Where a thread is in a body. -/
inductive Place (α : Type u)
  /-- In front of `q.push(std::move(v))`. -/
  | pushing (v : α)
  /-- In front of `if (q.empty())` of `pop`. -/
  | testing
  /-- In front of `v = std::move(q.front())`. -/
  | moving
  /-- In front of `q.pop()`, with the element. -/
  | dropping (v : α)
  /-- In front of `return q.empty()`. -/
  | emptying
  /-- In front of `return q.size()`. -/
  | sizing
  deriving DecidableEq

/-- What a method returns; `pop` with the element that it hands out. -/
inductive Result (α : Type u)
  | pushed
  | popped (v : Option α)
  | isEmpty (b : Bool)
  | hasSize (n : ℕ)
  deriving DecidableEq

/-- The bodies. `moved v` is what `std::move` leaves of `v`; `front()` and `pop()` of an empty queue
are undefined. -/
def methods (moved : α → α) : Methods (List α) (Call α) (Place α) (Result α) where
  start
    | .push v => .pushing v
    | .pop => .testing
    | .empty => .emptying
    | .size => .sizing
  next
    | .pushing v, q => some (q ++ [v], .inr .pushed)
    | .testing, q => some (q, if q.isEmpty then .inr (.popped none) else .inl .moving)
    | .moving, v :: q => some (moved v :: q, .inl (.dropping v))
    | .moving, [] => none
    | .dropping v, _ :: q => some (q, .inr (.popped (some v)))
    | .dropping _, [] => none
    | .emptying, q => some (q, .inr (.isEmpty q.isEmpty))
    | .sizing, q => some (q, .inr (.hasSize q.length))

/-- What the methods are for. -/
def apply : Call α → LockQueue α → LockQueue α × Result α
  | .push v, q => (q.push v, .pushed)
  | .pop, q =>
    match q.pop with
    | some (v, q') => (q', .popped (some v))
    | none => (q, .popped none)
  | .empty, q => (q, .isEmpty q.empty)
  | .size, q => (q, .hasSize q.length)

/-- **Each body**, running alone, does what the method is for. -/
theorem computes (moved : α → α) : (methods moved).Computes apply := by
  intro op q
  cases op with
  | push v => exact .ret rfl
  | pop =>
    cases q with
    | nil => exact .ret rfl
    -- moved from, dropped and returned
    | cons v q => exact .step rfl (.step rfl (.ret rfl))
  | empty => exact .ret rfl
  | size => exact .ret rfl

/-- The elements pushed by calls, in order. -/
def pushes (log : List (ℕ × Call α)) : List α :=
  log.filterMap fun x => match x.2 with
    | .push v => some v
    | _ => none

/-- The elements handed out by results, in order. -/
def pops (rs : List (ℕ × Result α)) : List α :=
  rs.filterMap fun x => match x.2 with
    | .popped v => v
    | _ => none

/-- **First in, first out.** Of calls made one after the other, the elements handed out and those left
in the queue are those that were there and those pushed. -/
theorem replay_fifo (log : List (ℕ × Call α)) (q : LockQueue α) :
    pops (replay apply q log).2 ++ (replay apply q log).1 = q ++ pushes log := by
  induction log generalizing q with
  | nil => simp [replay, pops, pushes]
  | cons x log ih =>
    obtain ⟨i, op⟩ := x
    cases op with
    | push v => simpa [replay, apply, pops, pushes, push] using ih (q.push v)
    | pop =>
      cases q with
      | nil => simpa [replay, apply, pops, pushes, pop] using ih []
      | cons v q => simpa [replay, apply, pops, pushes, pop] using ih q
    | empty => simpa [replay, apply, pops, pushes] using ih q
    | size => simpa [replay, apply, pops, pushes] using ih q

/-- **A lock_queue is linearizable**: however the threads interleave, the calls, made one after the
other in the order in which they let the mutex go, give each thread the results that it gets; the
elements handed out and those in the queue, while the mutex is free, are those pushed, in order; and
no thread looks at the front of an empty queue. -/
theorem linearizable (moved : α → α) {es : List (CallEvent (Call α) (Result α))}
    {s : Monitor (List α) (Call α) (Place α) (Result α)}
    (hr : (Monitor.lts (methods moved) []).Run { memory := [] } es s) :
    (∀ i, resultsOf i (replay apply [] (CallEvent.effects (fun _ => none) es)).2 =
      CallEvent.rets i es ++ s.waiting i) ∧
    (s.mutex = none → pops (replay apply [] (CallEvent.effects (fun _ => none) es)).2 ++ s.memory =
      pushes (CallEvent.effects (fun _ => none) es)) ∧
    ∀ i p, s.threads i = .inside p → (methods moved).next p s.memory ≠ none := by
  obtain ⟨hmemory, hresults⟩ := Monitor.linearize (computes moved) hr
  obtain ⟨a, -, hsim⟩ := Monitor.simulate (computes moved) hr
  refine ⟨hresults, fun hfree => ?_, fun i p hi => hsim.next_ne_none hi⟩
  rw [hmemory hfree]
  exact replay_fifo _ []

/-- A thread asks whether the queue is empty while another one has moved its only element out. -/
def askWhileMoved : List (CallEvent (Call ℕ) (Result ℕ)) :=
  [.call 0 (.push 7), .lock 0, .body 0, .unlock 0, .call 1 .pop, .lock 1, .body 1, .body 1,
    .call 2 .empty, .body 1, .unlock 1, .lock 2, .body 2, .unlock 2, .ret 1 (.popped (some 7))]

/-- It has to wait until the pop is done. -/
theorem linearizable_askWhileMoved : ∃ s : Monitor (List ℕ) (Call ℕ) (Place ℕ) (Result ℕ),
    s.memory = [] ∧ s.waiting 2 = [.isEmpty true] ∧
    resultsOf 2 (replay apply [] (CallEvent.effects (fun _ => none) askWhileMoved)).2 =
      CallEvent.rets 2 askWhileMoved ++ s.waiting 2 := by
  have hr : (Monitor.lts (methods fun _ => 0) []).Run { memory := [] } askWhileMoved _ :=
    .cons (.call rfl) <| .cons (.lock rfl rfl) <| .cons (.body rfl rfl) <| .cons (.unlock rfl) <|
      .cons (.call rfl) <| .cons (.lock rfl rfl) <| .cons (.body rfl rfl) <| .cons (.body rfl rfl) <|
      .cons (.call rfl) <| .cons (.body rfl rfl) <| .cons (.unlock rfl) <| .cons (.lock rfl rfl) <|
      .cons (.body rfl rfl) <| .cons (.unlock rfl) <| .cons (.ret rfl) <| .nil _
  exact ⟨_, rfl, rfl, (linearizable (fun _ => 0) hr).1 2⟩

end LockQueue

end Libio
