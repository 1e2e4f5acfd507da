import Libio.Core.Multiplexers
import Libio.Core.TimerDeadline

/-! # How long the loop of a reactor waits

In each round `reactor::loop` asks the timer manager for the time to the next timer and lets the
multiplexer wait as long as that. The time is given in seconds. `select` takes it for seconds, `poll`
and `epoll_wait` take it for milliseconds; `sleeps_until_next_iff` says when the wait ends with the
next timer all the same. -/

namespace Libio

universe u

variable {κ : Type u}

namespace TimerManager

variable (m : TimerManager κ)

/-- `shortest_time()`; `process` reads the clock at `now`, and it is read again at `now'`. -/
def shortestTime (now now' : Timeval) : Except Fault (ℤ × TimerManager κ) := do
  let (_, m) ← m.process now
  match m.timers with
  | [] => .ok (-1, m)
  | ti :: _ =>
      let t ← m.deref ti
      -- the difference is kept in an `int`
      let timeout := (t.timeout.sec - now'.sec + 1).bmod (2 ^ 32)
      .ok (if timeout > 0 then timeout else 0, m)

/-- The argument of `io->listen(timeout)` in `reactor::loop`. -/
def loopTimeout (nonblock : Bool) (now now' : Timeval) : Except Fault (ℤ × TimerManager κ) :=
  if nonblock then .ok (0, m)
  else if m.timers ≠ [] then m.shortestTime now now'
  else .ok (-1, m)

/-- A timer with the earliest deadline of the set. -/
def Earliest (a : ℕ) : Prop := a ∈ m.timers ∧ ∀ b ∈ m.timers, m.deadline a ≤ m.deadline b

end TimerManager

namespace Multiplexer

/-- The unit of the time-out, in microseconds: `select` puts it in the field `tv_sec` of a `timeval`,
`poll` and `epoll_wait` take milliseconds. -/
def unit : Multiplexer → ℤ
  | .select => 1000000
  | .poll => 1000
  | .epoll => 1000

/-- The microseconds that the system call of `listen(timeout)` waits while no descriptor is ready, if
it does not wait forever. -/
def wait (k : Multiplexer) (timeout : ℤ) : Option ℤ :=
  if timeout < 0 then none else some (timeout * k.unit)

/-- Called at `now`, `listen(timeout)` times out when the deadline is over, and less than two seconds
later. -/
def SleepsUntil (k : Multiplexer) (now : Timeval) (timeout deadline : ℤ) : Prop :=
  ∃ w ∈ k.wait timeout, deadline ≤ now.micros + w ∧ now.micros + w < deadline + 2000000

end Multiplexer

/-! ## The clipped difference -/

/-- The time-out that `shortest_time` computes, for a deadline less than 2³⁰ seconds away. -/
theorem clipped_eq {d : ℤ} (hd : d < 2 ^ 30) :
    0 ≤ (if (d + 1).bmod (2 ^ 32) > 0 then (d + 1).bmod (2 ^ 32) else 0) ∧
      (-2 ^ 31 ≤ d + 1 →
        (if (d + 1).bmod (2 ^ 32) > 0 then (d + 1).bmod (2 ^ 32) else 0) = max (d + 1) 0) := by
  constructor
  · split <;> omega
  · intro hlow
    have hfit : (d + 1).bmod (2 ^ 32) = d + 1 :=
      Int.bmod_eq_of_le (by norm_num; omega) (by norm_num; omega)
    rw [hfit]
    split <;> omega

/-- **The wait, by what waits.** Seconds meet the next deadline, milliseconds only one that is almost
there. -/
theorem Multiplexer.sleepsUntil_iff (k : Multiplexer) {now d : Timeval} (hnow : now.Normal)
    (hd : d.Normal) (hdelay : d.sec - now.sec < 2 ^ 30) {timeout : ℤ} (h0 : 0 ≤ timeout)
    (htimeout : -2 ^ 31 ≤ d.sec - now.sec + 1 → timeout = max (d.sec - now.sec + 1) 0) :
    k.SleepsUntil now timeout d.micros ↔
      now.micros < d.micros + 2000000 ∧
        (k = .select ∨ d.micros ≤ now.micros + if d.sec ≤ now.sec then 1000 else 2000) := by
  have hwait : k.SleepsUntil now timeout d.micros ↔ d.micros ≤ now.micros + timeout * k.unit ∧
      now.micros + timeout * k.unit < d.micros + 2000000 := by
    unfold SleepsUntil wait
    rw [if_neg (not_lt.mpr h0)]
    simp
  rw [hwait]
  unfold Timeval.Normal Timeval.micros at *
  by_cases hlow : -2 ^ 31 ≤ d.sec - now.sec + 1
  · rw [htimeout hlow]
    cases k with
    | select =>
        simp only [unit, true_or, and_true]
        omega
    | poll =>
        simp only [unit, reduceCtorEq, false_or]
        split <;> omega
    | epoll =>
        simp only [unit, reduceCtorEq, false_or]
        split <;> omega
  · -- the deadline is long over
    refine iff_of_false (fun h => ?_) (fun h => ?_)
    · cases k <;> simp only [unit] at h <;> omega
    · omega

namespace TimerManager

variable {m : TimerManager κ} {now now' : Timeval}

/-- The first timer of the set is one of the earliest. -/
theorem timeout_of_earliest {a ti : ℕ} {rest : List ℕ} (hsorted : OrderedSet.Sorted m.key m.timers)
    (hti : m.timers = ti :: rest) (hnormal : ∀ b ∈ m.timers, (m.timeout b).Normal)
    (ha : m.Earliest a) : m.timeout a = m.timeout ti := by
  have hmem : ti ∈ m.timers := by simp [hti]
  have hle : m.deadline a ≤ m.deadline ti := ha.2 ti hmem
  have hge : m.deadline ti ≤ m.deadline a := by
    have hkey : m.key ti ≤ m.key a := by
      rw [hti] at hsorted
      rcases List.mem_cons.mp (hti ▸ ha.1) with rfl | hin
      · exact le_rfl
      · exact ((List.pairwise_cons.mp hsorted).1 a hin).le
    have hn := hnormal ti hmem
    exact (Timeval.key_le_iff hn.1 hn.2.le (hnormal a ha.1)).mp hkey
  refine Timeval.key_inj.mp (le_antisymm ?_ ?_)
  · have hn := hnormal a ha.1
    exact (Timeval.key_le_iff hn.1 hn.2.le (hnormal ti hmem)).mpr hle
  · have hn := hnormal ti hmem
    exact (Timeval.key_le_iff hn.1 hn.2.le (hnormal a ha.1)).mpr hge

/-- A timer that is left is not over at the time of the call, where delays are not negative. -/
theorem Processed.le_deadline {m' : TimerManager κ} {ran : List κ} (hnow : now.Normal)
    (hp : Processed now [] m.timers m m' ran)
    (hdelay : ∀ a ∈ m.timers, ∀ t ∈ m.heap a, 0 ≤ t.tv.micros) {a : ℕ} (ha : a ∈ m'.timers)
    (hnormal : (m'.timeout a).Normal) : now.micros ≤ m'.deadline a := by
  obtain ⟨hin, hlive⟩ := hp.sub a ha
  have hmem : a ∈ m.timers := hin.resolve_left (List.not_mem_nil)
  have hheap := hp.heap a
  rw [if_pos hmem] at hheap
  obtain ⟨u, hu⟩ := Option.isSome_iff_exists.mp hlive
  rw [hu] at hheap
  obtain ⟨t, ht, hafter⟩ := Option.bind_eq_some_iff.mp hheap.symm
  have htimeout : m'.timeout a = u.timeout := by simp [timeout, hu]
  rw [deadline, htimeout]
  rw [htimeout] at hnormal
  by_cases hd : t.Due now
  · cases hpers : t.persistent with
    | true =>
        -- its new deadline counts from the time of the call
        rw [Timer.after_of_persistent hd hpers] at hafter
        obtain rfl := Option.some.inj hafter
        rw [Timer.rearmed, micros_timeradd]
        exact le_add_of_nonneg_right (hdelay a hmem t ht)
    | false =>
        rw [Timer.after_of_finishes ⟨hd, hpers⟩] at hafter
        cases hafter
  · rw [Timer.after_of_not_due hd] at hafter
    obtain rfl := Option.some.inj hafter
    refine (Timeval.key_le_iff hnow.1 hnow.2.le hnormal).mp (le_of_not_ge hd)

/-- What the time-out of the loop is, and when the multiplexer ends its wait with it in time. -/
theorem loopTimeout_spec (k : Multiplexer) (hm : (system κ).Reachable m) (hset : m.timers ≠ [])
    (hnow' : now'.Normal) :
    ∃ timeout m' ran, m.loopTimeout false now now' = .ok (timeout, m') ∧
      Processed now [] m.timers m m' ran ∧
        ((∀ b ∈ m'.timers, (m'.timeout b).Normal) → ∀ a, m'.Earliest a →
          (m'.timeout a).sec - now'.sec < 2 ^ 30 →
            (k.SleepsUntil now' timeout (m'.deadline a) ↔
              now'.micros < m'.deadline a + 2000000 ∧
                (k = .select ∨ m'.deadline a ≤
                  now'.micros + if (m'.timeout a).sec ≤ now'.sec then 1000 else 2000))) := by
  have h := ordered_of_reachable hm
  obtain ⟨ran, m', hprocess, hp⟩ := processed_process now h.sorted h.live
  cases htimers : m'.timers with
  | nil =>
      refine ⟨-1, m', ran, ?_, hp, fun _ a ha => ?_⟩
      · simp [loopTimeout, hset, shortestTime, hprocess, htimers, bind, Except.bind]
      · have := ha.1
        simp [htimers] at this
  | cons ti rest =>
      obtain ⟨t, ht⟩ := Option.isSome_iff_exists.mp (hp.sub ti (by simp [htimers])).2
      have hdeadline : m'.timeout ti = t.timeout := by simp [timeout, ht]
      let timeout := (t.timeout.sec - now'.sec + 1).bmod (2 ^ 32)
      refine ⟨if timeout > 0 then timeout else 0, m', ran, ?_, hp, fun hnormal a ha hdelay => ?_⟩
      · simp only [loopTimeout, hset, shortestTime, hprocess, htimers, deref, ht, bind, Except.bind,
          ne_eq, not_false_eq_true, if_true, Bool.false_eq_true, if_false]
        rfl
      · have hsame := timeout_of_earliest hp.sorted htimers hnormal ha
        have hd := hnormal a ha.1
        rw [hsame, hdeadline] at hdelay hd
        obtain ⟨h0, htimeout⟩ := clipped_eq hdelay
        rw [deadline, hsame, hdeadline]
        exact k.sleepsUntil_iff hnow' hd hdelay h0 htimeout

/-- With `select` the loop sleeps until the next timer, as long as both clock readings agree and
delays are not negative. -/
theorem select_sleepsUntil (hm : (system κ).Reachable m) (hset : m.timers ≠ [])
    (hnow : now.Normal) (hdelay : ∀ a ∈ m.timers, ∀ t ∈ m.heap a, 0 ≤ t.tv.micros) :
    ∃ timeout m', m.loopTimeout false now now = .ok (timeout, m') ∧
      ((∀ b ∈ m'.timers, (m'.timeout b).Normal) → ∀ a, m'.Earliest a →
        (m'.timeout a).sec - now.sec < 2 ^ 30 →
          Multiplexer.select.SleepsUntil now timeout (m'.deadline a)) := by
  obtain ⟨timeout, m', ran, hcall, hp, hiff⟩ := loopTimeout_spec .select hm hset hnow
  refine ⟨timeout, m', hcall, fun hnormal a ha hfar => (hiff hnormal a ha hfar).mpr ⟨?_, .inl rfl⟩⟩
  have hle := hp.le_deadline hnow hdelay ha.1 (hnormal a ha.1)
  omega

/-- **The loop sleeps until the next timer** exactly when the clock was not two seconds behind the
deadline at the call and the multiplexer is `select`, or the deadline is one or two milliseconds
away. -/
theorem sleeps_until_next_iff (k : Multiplexer) (hm : (system κ).Reachable m) (hset : m.timers ≠ [])
    (hnow' : now'.Normal) :
    ∃ timeout m', m.loopTimeout false now now' = .ok (timeout, m') ∧
      ((∀ b ∈ m'.timers, (m'.timeout b).Normal) → ∀ a, m'.Earliest a →
        (m'.timeout a).sec - now'.sec < 2 ^ 30 →
          (k.SleepsUntil now' timeout (m'.deadline a) ↔
            now'.micros < m'.deadline a + 2000000 ∧
              (k = .select ∨ m'.deadline a ≤
                now'.micros + if (m'.timeout a).sec ≤ now'.sec then 1000 else 2000))) := by
  obtain ⟨timeout, m', -, hcall, -, hiff⟩ := loopTimeout_spec k hm hset hnow'
  exact ⟨timeout, m', hcall, hiff⟩

/-- The timer of the examples below: five seconds, set at the tenth second. -/
def singleTimer : TimerManager ℕ := afterCall {} (.setTimer ⟨10, 0⟩ 5 0 false 7 0)

/-- It is reached by a call. -/
theorem reachable_singleTimer : (system ℕ).Reachable singleTimer :=
  (Lts.Reachable.of_init (M := system ℕ) rfl).step
    (a := (.setTimer ⟨10, 0⟩ 5 0 false 7 0, .id 0)) (exec_eq (by decide +kernel))

/-- It is still pending when the loop asks for a time-out in time. -/
theorem loopTimeout_singleTimer {now now' : Timeval} {timeout : ℤ} {m' : TimerManager ℕ}
    (hcall : singleTimer.loopTimeout false now now' = .ok (timeout, m'))
    (hleft : ((singleTimer.loopTimeout false now now').toOption.map fun r => (r.2.timers, r.2.timeout 0)) =
      some ([0], ⟨15, 0⟩)) :
    m'.timeout 0 = ⟨15, 0⟩ ∧ m'.Earliest 0 ∧ ∀ b ∈ m'.timers, (m'.timeout b).Normal := by
  rw [hcall] at hleft
  simp only [Except.toOption, Option.map_some, Option.some.injEq, Prod.mk.injEq] at hleft
  obtain ⟨htimers, htimeout⟩ := hleft
  refine ⟨htimeout, ⟨by simp [htimers], fun b hb => ?_⟩, fun b hb => ?_⟩
  · rw [htimers, List.mem_singleton] at hb
    rw [hb]
  · rw [htimers, List.mem_singleton] at hb
    rw [hb, htimeout]
    decide

/-- With `select`, at half past the twelfth second. -/
theorem sleeps_until_next_select :
    ∃ timeout m', singleTimer.loopTimeout false ⟨12, 500000⟩ ⟨12, 500000⟩ = .ok (timeout, m') ∧
      m'.Earliest 0 ∧ Multiplexer.select.SleepsUntil ⟨12, 500000⟩ timeout (m'.deadline 0) := by
  obtain ⟨timeout, m', hcall, hiff⟩ :
      ∃ timeout m', singleTimer.loopTimeout false ⟨12, 500000⟩ ⟨12, 500000⟩ = .ok (timeout, m') ∧ _ :=
    sleeps_until_next_iff .select reachable_singleTimer (by decide +kernel) (by decide)
  obtain ⟨htimeout, hearliest, hnormal⟩ := loopTimeout_singleTimer hcall (by decide +kernel)
  refine ⟨timeout, m', hcall, hearliest, (hiff hnormal 0 hearliest ?_).mpr ⟨?_, .inl rfl⟩⟩
  · rw [htimeout]
    decide
  · rw [deadline, htimeout]
    decide

/-- **A wait that is too short.** With `poll` and `epoll` the loop wakes up six milliseconds after
the timer was set. -/
theorem not_sleeps_until_next_milliseconds :
    ∃ timeout m', singleTimer.loopTimeout false ⟨10, 0⟩ ⟨10, 0⟩ = .ok (timeout, m') ∧ m'.Earliest 0 ∧
      ¬Multiplexer.poll.SleepsUntil ⟨10, 0⟩ timeout (m'.deadline 0) ∧
        ¬Multiplexer.epoll.SleepsUntil ⟨10, 0⟩ timeout (m'.deadline 0) := by
  obtain ⟨timeout, m', -, hcall, -⟩ :
      ∃ timeout m' ran, singleTimer.loopTimeout false ⟨10, 0⟩ ⟨10, 0⟩ = .ok (timeout, m') ∧
        Processed ⟨10, 0⟩ [] singleTimer.timers singleTimer m' ran ∧ _ :=
    loopTimeout_spec .poll reachable_singleTimer (by decide +kernel) (by decide)
  obtain ⟨htimeout, hearliest, -⟩ := loopTimeout_singleTimer hcall (by decide +kernel)
  have hsix : timeout = 6 := by
    have hvalue : (singleTimer.loopTimeout false ⟨10, 0⟩ ⟨10, 0⟩).toOption.map Prod.fst = some 6 := by
      decide +kernel
    rw [hcall] at hvalue
    exact Option.some.inj hvalue
  have hno : ∀ k : Multiplexer, k.unit = 1000 →
      ¬k.SleepsUntil ⟨10, 0⟩ timeout (m'.deadline 0) := by
    rintro k hk ⟨w, hw, hle, -⟩
    rw [hsix, Multiplexer.wait, hk] at hw
    obtain rfl : 6000 = w := by simpa using hw
    rw [deadline, htimeout] at hle
    exact absurd hle (by decide)
  exact ⟨timeout, m', hcall, hearliest, hno .poll rfl, hno .epoll rfl⟩

end TimerManager

end Libio
