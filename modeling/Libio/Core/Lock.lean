import Mathlib.Data.Nat.Notation

/-! # Queues between threads

The class `lock_queue` of `core/lock.hh`, each of whose methods holds its mutex from beginning to
end, and the counter behind an `eventfd`. -/

namespace Libio

universe u

/-- The class `lock_queue`: the elements from the front to the back. -/
abbrev LockQueue (α : Type u) := List α

namespace LockQueue

variable {α : Type u} (q : LockQueue α)

/-- `push(v)`. -/
def push (v : α) : LockQueue α := q ++ [v]

/-- `pop(v)`: the front element, if there is one, and the rest. -/
def pop : Option (α × LockQueue α) :=
  match q with
  | [] => none
  | v :: q => some (v, q)

/-- `empty()`. -/
def empty : Bool := q.isEmpty

variable {q} {v : α}

/-- `pop` takes the front off a queue that is not empty. -/
theorem pop_eq_some {q' : LockQueue α} : pop q = some (v, q') ↔ q = v :: q' := by
  cases q with
  | nil => simp [pop]
  | cons w q => simp [pop]

/-- It finds nothing in an empty queue. -/
theorem pop_eq_none : pop q = none ↔ q = [] := by
  cases q with
  | nil => simp [pop]
  | cons w q => simp [pop]

/-- `empty` says whether the queue is. -/
theorem empty_iff : empty q = true ↔ q = [] := by simp [empty]

end LockQueue

/-! ## The counter of an `eventfd`

The descriptor does not block, as `create_eventfd` asks for. -/

namespace EventFd

/-- The largest value of the counter. -/
def maximum : ℕ := 0xfffffffffffffffe

/-- `write(fd, value)`: it fails when the counter would exceed its maximum. -/
def write (counter value : ℕ) : ℕ :=
  if counter + value ≤ maximum then counter + value else counter

/-- `read(fd)`: the counter is reset; it fails, and changes nothing, when the counter is 0. -/
def read (_ : ℕ) : ℕ := 0

/-- After a write of a value that fits, the counter is positive. -/
theorem write_pos {counter value : ℕ} (h : 0 < value) (hmax : value ≤ maximum) :
    0 < write counter value := by
  unfold write
  split <;> omega

end EventFd

end Libio
