import Libio.Core.Numbers
import Libio.Foundation.OrderedSet

/-! # Timers

The timer manager of `core/time.hh`. Timers are allocated one after another, an address is never
used twice, and following a pointer to a freed timer ends in a `Fault`. The member `id` of a timer
is never written, so what the allocation leaves in it is an input. -/

namespace Libio

universe u

/-- `struct timeval`. -/
structure Timeval where
  sec : ℤ
  usec : ℤ
  deriving DecidableEq, Repr

/-- `timeradd(a, b, result)`. -/
def timeradd (a b : Timeval) : Timeval :=
  if a.usec + b.usec ≥ 1000000 then ⟨a.sec + b.sec + 1, a.usec + b.usec - 1000000⟩
  else ⟨a.sec + b.sec, a.usec + b.usec⟩

/-- `timercmp(a, b, <)`. -/
def timercmp (a b : Timeval) : Bool := if a.sec = b.sec then a.usec < b.usec else a.sec < b.sec

/-- `struct timer`. -/
structure Timer (κ : Type u) where
  id : ℤ
  tv : Timeval
  timeout : Timeval
  persistent : Bool
  callback : κ

/-- `class time`, over the heap its timers live in. -/
structure TimerManager (κ : Type u) where
  heap : ℕ → Option (Timer κ) := fun _ => none
  next : ℕ := 0
  timers : List ℕ := []
  idtimer : Std.ExtTreeMap ℤ ℕ := ∅
  maxid : ℤ := 0

/-- A call of the manager, with what the clock says and what an allocation leaves in the member
`id`. -/
inductive TimerCall (κ : Type u)
  | setTimer (now : Timeval) (sec usec : ℤ) (persistent : Bool) (callback : κ) (left : ℤ)
  | setPersistent (id : ℤ)
  | remove (id : ℤ)
  | process (now : Timeval)

/-- What a call shows: the id it returns, or the callbacks it runs. -/
inductive TimerReply (κ : Type u)
  | id (n : ℤ)
  | done
  | ran (callbacks : List κ)
  deriving DecidableEq

namespace TimerManager

variable {κ : Type u} (m : TimerManager κ)

/-- Follow a pointer. -/
def deref (a : ℕ) : Except Fault (Timer κ) :=
  match m.heap a with
  | some t => .ok t
  | none => .error .undefined

/-- Write through a pointer. -/
def store (a : ℕ) (t : Timer κ) : TimerManager κ :=
  { m with heap := fun b => if b = a then some t else m.heap b }

/-- `delete`. -/
def free (a : ℕ) : TimerManager κ :=
  { m with heap := fun b => if b = a then none else m.heap b }

/-- The deadline a pointer in the set is ordered by. -/
def timeout (a : ℕ) : Timeval := (m.heap a).elim ⟨0, 0⟩ Timer.timeout

/-- The `Compare` of the set. -/
def before (a b : ℕ) : Bool := timercmp (m.timeout a) (m.timeout b)

/-- `__get_id()`. -/
def getId : Except Fault (ℤ × TimerManager κ) :=
  match m.idtimer.keys.head? with
  | none => .ok (0, m)
  | some k =>
      -- below the smallest id in use, or above the largest one ever handed out
      if k > 0 then .ok (k - 1, m)
      else if m.maxid < intMax then .ok (m.maxid + 1, { m with maxid := m.maxid + 1 })
      else .error .undefined

/-- `timers.insert(ti)`. -/
def insert (a : ℕ) : TimerManager κ := { m with timers := OrderedSet.insertBy m.before a m.timers }

/-- `set_timer(sec, usec, persistent, f)`. -/
def setTimer (now : Timeval) (sec usec : ℤ) (persistent : Bool) (callback : κ) (left : ℤ) :
    Except Fault (ℤ × TimerManager κ) := do
  let (id, m) ← m.getId
  let ti := m.next
  let tv : Timeval := ⟨sec, usec⟩
  let m := { m with next := ti + 1, idtimer := m.idtimer.insert id ti }
  let m := m.store ti ⟨left, tv, timeradd now tv, persistent, callback⟩
  .ok (id, m.insert ti)

/-- `set_persistent(id)`. -/
def setPersistent (id : ℤ) : Except Fault (TimerManager κ) :=
  match m.idtimer[id]? with
  | none => .ok m
  | some ti => do
      let t ← m.deref ti
      .ok (m.store ti { t with persistent := true })

/-- `remove(id)`. The set is searched by the deadline of the timer. -/
def remove (id : ℤ) : Except Fault (TimerManager κ) :=
  match m.idtimer[id]? with
  | none => .ok m
  | some ti => do
      let _ ← m.deref ti
      let m := { m with
        timers := OrderedSet.eraseBy m.before ti m.timers, idtimer := m.idtimer.erase id }
      .ok (m.free ti)

/-- Where the iterator stands after an insertion: it points to the same element as before. -/
def iterator (rest set : List ℕ) : List ℕ × List ℕ :=
  match rest with
  | [] => (set, [])
  | b :: _ => (set.takeWhile (· ≠ b), set.dropWhile (· ≠ b))

/-- At most `fuel` rounds of the loop of `process`. The set is given by the elements in front of the
iterator and those from it on. -/
def processLoop (now : Timeval) :
    ℕ → List ℕ → List ℕ → TimerManager κ → Except Fault (List κ × TimerManager κ)
  | 0, passed, rest, m => .ok ([], { m with timers := passed ++ rest })
  | _ + 1, passed, [], m => .ok ([], { m with timers := passed })
  | fuel + 1, passed, ti :: rest, m => do
      let t ← m.deref ti
      -- the set is ordered, so nothing behind this timer is due
      if timercmp now t.timeout then .ok ([], { m with timers := passed ++ ti :: rest })
      else if t.persistent then
        let m := m.store ti { t with timeout := timeradd now t.tv }
        let (passed, rest) := iterator rest (OrderedSet.insertBy m.before ti (passed ++ rest))
        let (ran, m) ← processLoop now fuel passed rest m
        .ok (t.callback :: ran, m)
      else
        -- the entry that goes is that of the member `id`
        let m := { m with idtimer := m.idtimer.erase t.id }
        let (ran, m) ← processLoop now fuel passed rest (m.free ti)
        .ok (t.callback :: ran, m)

/-- `process()`. A timer comes around a second time only where its delay is not positive, and then
its new deadline is behind all that is left, so two rounds for each timer are enough. -/
def process (now : Timeval) : Except Fault (List κ × TimerManager κ) :=
  processLoop now (2 * m.timers.length) [] m.timers m

/-- Execute a call. -/
def exec (call : TimerCall κ) : Except Fault (TimerReply κ × TimerManager κ) :=
  match call with
  | .setTimer now sec usec persistent callback left => do
      let (id, m) ← m.setTimer now sec usec persistent callback left
      .ok (.id id, m)
  | .setPersistent id => do
      let m ← m.setPersistent id
      .ok (.done, m)
  | .remove id => do
      let m ← m.remove id
      .ok (.done, m)
  | .process now => do
      let (ran, m) ← m.process now
      .ok (.ran ran, m)

end TimerManager

end Libio
