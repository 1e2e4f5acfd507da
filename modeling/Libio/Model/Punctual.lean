import Libio.Model.LoopWait

/-! # How late a timer can be

`reactor::loop` with its timers over time: it reads the clock in `shortest_time`, lets the multiplexer
wait, runs the timers that are due and then the callbacks of the active descriptors, which may set,
remove and keep timers; those of the timers do not. Time passes by itself, with two bounds: the
callbacks between two looks at the clock take no longer than `busy`, and the multiplexer and what
follows it up to `process` are no more than `latency` behind the time-out.

`punctual` says how late a timer can be at most, whichever multiplexer it is. -/

namespace Libio

universe u

variable {κ : Type u}

/-- Where the loop stands: callbacks run, with the last call of `process` at `since`; the clock was
read for `shortest_time`; the multiplexer waits, at most until `latest`; it has returned, and
`process` comes next. -/
inductive WaitPhase
  | calling (since : ℤ)
  | turning
  | listening (latest : Option ℤ)
  | returned

/-- The timers of a reactor, and the last time the clock showed. -/
structure TimedLoop (κ : Type u) where
  manager : TimerManager κ := {}
  clock : Timeval
  phase : WaitPhase

/-- A step of the loop, with what the clock says. -/
inductive TimedEvent (κ : Type u)
  /-- A callback calls the timer manager. -/
  | edit (now : Timeval) (call : TimerCall κ)
  /-- The loop begins another round. -/
  | turn (now : Timeval)
  /-- It lets the multiplexer wait. -/
  | listen (now : Timeval)
  /-- The multiplexer returns. -/
  | wake (now : Timeval)
  /-- The timers that are due run. -/
  | process

/-- The time-out that `shortest_time` computes is over less than two seconds behind the deadline, or at
once. -/
theorem Multiplexer.wait_le (k : Multiplexer) {now d : Timeval} (hnow : now.Normal) (hd : d.Normal)
    (hfar : d.sec - now.sec < 2 ^ 30) (hnear : -2 ^ 31 ≤ d.sec - now.sec + 1) :
    ∃ w ∈ k.wait (if (d.sec - now.sec + 1).bmod (2 ^ 32) > 0 then
        (d.sec - now.sec + 1).bmod (2 ^ 32) else 0),
      now.micros + w ≤ max now.micros (d.micros + 2000000) := by
  rw [(clipped_eq hfar).2 hnear]
  refine ⟨max (d.sec - now.sec + 1) 0 * k.unit, ?_, ?_⟩
  · rw [wait, if_neg (not_lt.mpr (le_max_right _ _))]
    rfl
  · unfold Timeval.Normal Timeval.micros at *
    cases k <;> simp only [unit] <;> omega

namespace TimedLoop

/-- A call that a callback makes at `now`: a timer is set with a positive delay of less than 2³⁰
seconds. -/
def Edits (now : Timeval) : TimerCall κ → Prop
  | .setTimer time sec usec _ _ _ =>
      time = now ∧ (⟨sec, usec⟩ : Timeval).Normal ∧ 0 < (⟨sec, usec⟩ : Timeval).micros ∧
        sec < 2 ^ 30 - 1
  | .process _ => False
  | _ => True

/-- The loop as a transition system, over the multiplexer `k`. -/
def system (κ : Type u) (k : Multiplexer) (busy latency : ℕ) :
    Lts (TimedLoop κ) (TimedEvent κ) where
  init s := s.manager = {} ∧ s.clock.Normal ∧ s.phase = .calling s.clock.micros
  step s
    | .edit now call, t => ∃ since, s.phase = .calling since ∧ now.Normal ∧
        s.clock.micros ≤ now.micros ∧ now.micros ≤ since + busy ∧ Edits now call ∧
          ∃ reply, s.manager.exec call = .ok (reply, t.manager) ∧ t.clock = now ∧
            t.phase = s.phase
    | .turn now, t => ∃ since, s.phase = .calling since ∧ now.Normal ∧
        s.clock.micros ≤ now.micros ∧ now.micros ≤ since + busy ∧
          t = { s with clock := now, phase := .turning }
    | .listen now, t => s.phase = .turning ∧ now.Normal ∧
        s.clock.micros ≤ now.micros ∧ now.micros ≤ s.clock.micros + busy ∧
          ∃ timeout, s.manager.loopTimeout false s.clock now = .ok (timeout, t.manager) ∧
            t.clock = now ∧ t.phase = .listening ((k.wait timeout).map (now.micros + ·))
    | .wake now, t => ∃ latest, s.phase = .listening latest ∧ now.Normal ∧
        s.clock.micros ≤ now.micros ∧ (∀ l ∈ latest, now.micros ≤ l + latency) ∧
          t = { s with clock := now, phase := .returned }
    | .process, t => s.phase = .returned ∧
        ∃ ran, s.manager.process s.clock = .ok (ran, t.manager) ∧ t.clock = s.clock ∧
          t.phase = .calling s.clock.micros

/-! ## The timers -/

/-- What is known of a timer at `now`: its delay, and that its deadline is no more than the delay
ahead. -/
structure Timed (now : ℤ) (t : Timer κ) : Prop where
  delay : t.tv.Normal
  pos : 0 < t.tv.micros
  bound : t.tv.sec < 2 ^ 30 - 1
  normal : t.timeout.Normal
  ahead : t.timeout.micros ≤ now + t.tv.micros

/-- The manager at `now`: its set is in order, and all timers are known. -/
structure Known (m : TimerManager κ) (now : ℤ) : Prop where
  ordered : m.Ordered
  timed : ∀ a, ∀ t ∈ m.heap a, Timed now t

variable {m m' : TimerManager κ} {now now' : Timeval} {a : ℕ} {c c' : ℤ}

/-- A timer set by an earlier time was set by a later one. -/
theorem Timed.mono {t : Timer κ} (h : Timed c t) (hle : c ≤ c') : Timed c' t :=
  ⟨h.delay, h.pos, h.bound, h.normal, h.ahead.trans (by omega)⟩

/-- So were all timers. -/
theorem Known.mono (h : Known m c) (hle : c ≤ c') : Known m c' :=
  ⟨h.ordered, fun a t ht => (h.timed a t ht).mono hle⟩

/-- There are no timers in the beginning. -/
theorem known_start (c : ℤ) : Known ({} : TimerManager κ) c := ⟨.start, nofun⟩

/-- The deadline of a timer of the set, with the timer. -/
theorem Known.timer (h : Known m c) (ha : a ∈ m.timers) :
    ∃ t ∈ m.heap a, Timed c t ∧ m.timeout a = t.timeout := by
  obtain ⟨t, ht⟩ := Option.isSome_iff_exists.mp (h.ordered.live a ha)
  refine ⟨t, ht, h.timed a t ht, ?_⟩
  rw [TimerManager.timeout, ht]
  rfl

/-- A timer that has got a new deadline. -/
theorem Timed.rearmed {t : Timer κ} (h : Timed c t) (hnow : now.Normal) :
    Timed now.micros (t.rearmed now) where
  delay := h.delay
  pos := h.pos
  bound := h.bound
  normal := hnow.timeradd h.delay
  ahead := (micros_timeradd now t.tv).le

/-- `process` leaves timers that are known and not over. -/
theorem Known.processed {ran : List κ} (h : Known m now.micros) (hnow : now.Normal)
    (hp : TimerManager.Processed now [] m.timers m m' ran) :
    Known m' now.micros ∧ ∀ a ∈ m'.timers, now.micros ≤ m'.deadline a := by
  have hknown : Known m' now.micros := by
    refine ⟨hp.ordered h.ordered, fun a u hu => ?_⟩
    rw [hp.heap] at hu
    split at hu
    · obtain ⟨t, ht, hafter⟩ := Option.bind_eq_some_iff.mp hu
      have htimed := h.timed a t ht
      by_cases hd : t.Due now
      · cases hpers : t.persistent with
        | true =>
            rw [Timer.after_of_persistent hd hpers] at hafter
            obtain rfl := Option.some.inj hafter
            exact htimed.rearmed hnow
        | false =>
            rw [Timer.after_of_finishes ⟨hd, hpers⟩] at hafter
            cases hafter
      · rw [Timer.after_of_not_due hd] at hafter
        obtain rfl := Option.some.inj hafter
        exact htimed
    · exact h.timed a u hu
  refine ⟨hknown, fun a ha => ?_⟩
  obtain ⟨u, -, hu, htimeout⟩ := hknown.timer ha
  refine hp.le_deadline hnow (fun b _ t ht => (h.timed b t ht).pos.le) ha ?_
  rw [htimeout]
  exact hu.normal

/-- A callback leaves timers that are known, and sets one that is not over. -/
theorem Known.edit (h : Known m c) {call : TimerCall κ} {reply : TimerReply κ}
    (hedits : Edits now call) (hnow : now.Normal) (hle : c ≤ now.micros)
    (hexec : m.exec call = .ok (reply, m')) :
    Known m' now.micros ∧
      ∀ a ∈ m'.timers, now.micros ≤ m'.deadline a ∨ a ∈ m.timers ∧ m'.deadline a = m.deadline a := by
  have hordered := h.ordered.exec hexec
  cases call with
  | setTimer time sec usec persistent callback left =>
      obtain ⟨rfl, hdelay, hpos, hbound⟩ := hedits
      obtain ⟨id, maxid, -, rfl, -⟩ := h.ordered.setTimer_inv hexec
      refine ⟨⟨hordered, fun a t ht => ?_⟩, fun a ha => ?_⟩
      · rw [TimerManager.heap_armed] at ht
        split at ht
        · obtain rfl := Option.some.inj ht
          exact ⟨hdelay, hpos, hbound, hnow.timeradd hdelay, (micros_timeradd _ _).le⟩
        · exact (h.timed a t ht).mono hle
      · by_cases hnext : a = m.next
        · left
          rw [TimerManager.deadline_armed, if_pos hnext, TimerManager.fresh, micros_timeradd]
          exact le_add_of_nonneg_right hpos.le
        · right
          refine ⟨(TimerManager.mem_of_mem_armed ha).resolve_left hnext, ?_⟩
          rw [TimerManager.deadline_armed, if_neg hnext]
  | setPersistent id =>
      obtain ⟨-, ⟨-, rfl⟩ | ⟨b, u, -, hu, rfl⟩⟩ := TimerManager.setPersistent_inv hexec
      · exact ⟨h.mono hle, fun a ha => .inr ⟨ha, rfl⟩⟩
      · refine ⟨⟨hordered, fun a t ht => ?_⟩, fun a ha => .inr ⟨ha, ?_⟩⟩
        · rw [TimerManager.heap_store] at ht
          split at ht
          · obtain rfl := Option.some.inj ht
            have htimed := (h.timed b u hu).mono hle
            exact ⟨htimed.delay, htimed.pos, htimed.bound, htimed.normal, htimed.ahead⟩
          · exact (h.timed a t ht).mono hle
        · rw [TimerManager.deadline_store]
          split
          · next hab => rw [hab, TimerManager.deadline_eq hu]
          · rfl
  | remove id =>
      obtain ⟨-, ⟨-, rfl⟩ | ⟨b, u, -, -, rfl⟩⟩ := TimerManager.remove_inv hexec
      · exact ⟨h.mono hle, fun a ha => .inr ⟨ha, rfl⟩⟩
      · refine ⟨⟨hordered, fun a t ht => ?_⟩, fun a ha => .inr ?_⟩
        · rw [TimerManager.heap_removed] at ht
          split at ht
          · cases ht
          · exact (h.timed a t ht).mono hle
        · obtain ⟨hin, hne⟩ := h.ordered.mem_of_mem_removed id ha
          exact ⟨hin, TimerManager.deadline_free hne⟩
  | process time => exact absurd hedits id

/-! ## The wait -/

/-- The first timer of the set has the earliest deadline. -/
theorem Known.first_le {ti : ℕ} {rest : List ℕ} (h : Known m c) (hti : m.timers = ti :: rest)
    (ha : a ∈ m.timers) : m.deadline ti ≤ m.deadline a := by
  -- the set is ordered by time and address
  have hkey : m.key ti ≤ m.key a := by
    have hsorted := h.ordered.sorted
    rw [hti] at hsorted
    rcases List.mem_cons.mp (hti ▸ ha) with rfl | hin
    · exact le_rfl
    · exact ((List.pairwise_cons.mp hsorted).1 a hin).le
  obtain ⟨t, -, ht, htimeout⟩ := h.timer (a := ti) (by simp [hti])
  obtain ⟨u, -, hu, hother⟩ := h.timer ha
  rw [TimerManager.key, TimerManager.key, htimeout, hother] at hkey
  rw [TimerManager.deadline, TimerManager.deadline, htimeout, hother]
  exact (Timeval.key_le_iff ht.normal.1 ht.normal.2.le hu.normal).mp hkey

/-- **The time-out is short enough**: it is over no later than two seconds behind any deadline, or at
once. -/
theorem Known.listen (k : Multiplexer) {busy : ℕ} (hbusy : busy ≤ 2 ^ 30 * 1000000)
    (h : Known m now.micros) (hnow : now.Normal) (hnow' : now'.Normal)
    (hle : now.micros ≤ now'.micros) (hlate : now'.micros ≤ now.micros + busy) {timeout : ℤ}
    (hcall : m.loopTimeout false now now' = .ok (timeout, m')) :
    Known m' now'.micros ∧ ∀ a ∈ m'.timers, now.micros ≤ m'.deadline a ∧
      ∃ w ∈ k.wait timeout, now'.micros + w ≤ max now'.micros (m'.deadline a + 2000000) := by
  by_cases hset : m.timers = []
  · -- no timer, so nothing is said of the time-out
    simp only [TimerManager.loopTimeout, hset, ne_eq, not_true_eq_false, if_false,
      Bool.false_eq_true] at hcall
    obtain ⟨-, rfl⟩ := Prod.mk.inj (Except.ok.inj hcall)
    exact ⟨h.mono hle, fun a ha => absurd (hset ▸ ha) List.not_mem_nil⟩
  obtain ⟨ran, m₁, hprocess, hp⟩ := TimerManager.processed_process now h.ordered.sorted h.ordered.live
  obtain ⟨hknown, hleft⟩ := h.processed hnow hp
  simp only [TimerManager.loopTimeout, hset, TimerManager.shortestTime, hprocess, bind, Except.bind,
    ne_eq, not_false_eq_true, if_true, Bool.false_eq_true, if_false] at hcall
  cases htimers : m₁.timers with
  | nil =>
      simp only [htimers] at hcall
      obtain ⟨-, rfl⟩ := Prod.mk.inj (Except.ok.inj hcall)
      exact ⟨hknown.mono hle, fun a ha => absurd (htimers ▸ ha) List.not_mem_nil⟩
  | cons ti rest =>
      have hmem : ti ∈ m₁.timers := by simp [htimers]
      obtain ⟨t, ht, htimed, htimeout⟩ := hknown.timer hmem
      have hderef : m₁.deref ti = .ok t := by simp [TimerManager.deref, Option.mem_def.mp ht]
      simp only [htimers, hderef] at hcall
      obtain ⟨rfl, rfl⟩ := Prod.mk.inj (Except.ok.inj hcall)
      refine ⟨hknown.mono hle, fun a ha => ⟨hleft a ha, ?_⟩⟩
      have hfirst : t.timeout.micros ≤ m₁.deadline a := by
        rw [← htimeout]
        exact hknown.first_le htimers ha
      have hover : now.micros ≤ t.timeout.micros := by
        rw [← htimeout]
        exact hleft ti hmem
      obtain ⟨hdelay, -, hbound, hnormal, hahead⟩ := htimed
      -- the deadline is not so far away that the difference wraps around
      have hfar : t.timeout.sec - now'.sec < 2 ^ 30 := by
        unfold Timeval.Normal Timeval.micros at *
        omega
      have hnear : -2 ^ 31 ≤ t.timeout.sec - now'.sec + 1 := by
        unfold Timeval.Normal Timeval.micros at *
        omega
      obtain ⟨w, hw, hend⟩ := k.wait_le hnow' hnormal hfar hnear
      refine ⟨w, hw, hend.trans ?_⟩
      omega

/-! ## The invariant -/

/-- How late a timer can be in each phase. -/
def OnTime (busy latency : ℕ) (s : TimedLoop κ) : Prop :=
  match s.phase with
  | .calling since => since ≤ s.clock.micros ∧ s.clock.micros ≤ since + busy ∧
      ∀ a ∈ s.manager.timers, since ≤ s.manager.deadline a
  | .turning => ∀ a ∈ s.manager.timers, s.clock.micros ≤ s.manager.deadline a + busy
  | .listening latest => ∀ a ∈ s.manager.timers, s.clock.micros ≤ s.manager.deadline a + busy ∧
      ∃ l ∈ latest, l ≤ s.manager.deadline a + max busy 2000000
  | .returned => ∀ a ∈ s.manager.timers,
      s.clock.micros ≤ s.manager.deadline a + (max busy 2000000 + latency)

/-- The invariant. -/
structure Timely (busy latency : ℕ) (s : TimedLoop κ) : Prop where
  normal : s.clock.Normal
  known : Known s.manager s.clock.micros
  onTime : s.OnTime busy latency

variable {k : Multiplexer} {busy latency : ℕ} {s t : TimedLoop κ}

/-- **One step** keeps all timers on time. -/
theorem Timely.step (h : s.Timely busy latency) (hbusy : busy ≤ 2 ^ 30 * 1000000)
    {e : TimedEvent κ} (hstep : (system κ k busy latency).step s e t) : t.Timely busy latency := by
  obtain ⟨hclock, hknown, honTime⟩ := h
  unfold OnTime at honTime
  cases e with
  | edit now call =>
      obtain ⟨since, hphase, hnow, hle, hlate, hedits, reply, hexec, rfl, hphase'⟩ := hstep
      obtain ⟨hknown', hdeadline⟩ := hknown.edit hedits hnow hle hexec
      rw [hphase] at honTime
      refine ⟨hnow, hknown', ?_⟩
      unfold OnTime
      rw [hphase', hphase]
      refine ⟨honTime.1.trans hle, hlate, fun a ha => ?_⟩
      rcases hdeadline a ha with hnew | ⟨hold, hsame⟩
      · exact (honTime.1.trans hle).trans hnew
      · rw [hsame]
        exact honTime.2.2 a hold
  | turn now =>
      obtain ⟨since, hphase, hnow, hle, hlate, rfl⟩ := hstep
      rw [hphase] at honTime
      refine ⟨hnow, hknown.mono hle, fun a ha => ?_⟩
      have hdeadline := honTime.2.2 a ha
      show now.micros ≤ s.manager.deadline a + busy
      omega
  | listen now =>
      obtain ⟨hphase, hnow, hle, hlate, timeout, hcall, rfl, hphase'⟩ := hstep
      obtain ⟨hknown', hwait⟩ := hknown.listen k hbusy hclock hnow hle hlate hcall
      refine ⟨hnow, hknown', ?_⟩
      unfold OnTime
      rw [hphase']
      intro a ha
      obtain ⟨hdeadline, w, hw, hend⟩ := hwait a ha
      refine ⟨by omega, t.clock.micros + w, ?_, by omega⟩
      rw [Option.mem_def.mp hw]
      rfl
  | wake now =>
      obtain ⟨latest, hphase, hnow, hle, hlatest, rfl⟩ := hstep
      rw [hphase] at honTime
      refine ⟨hnow, hknown.mono hle, fun a ha => ?_⟩
      obtain ⟨-, l, hl, hend⟩ := honTime a ha
      have hwoken := hlatest l hl
      show now.micros ≤ s.manager.deadline a + (max busy 2000000 + latency)
      omega
  | process =>
      obtain ⟨hphase, ran, hprocess, hsame, hphase'⟩ := hstep
      obtain ⟨ran', m₁, hprocess', hp⟩ :=
        TimerManager.processed_process s.clock hknown.ordered.sorted hknown.ordered.live
      obtain ⟨rfl, rfl⟩ := Prod.mk.inj (Except.ok.inj (hprocess'.symm.trans hprocess))
      obtain ⟨hknown', hleft⟩ := hknown.processed hclock hp
      refine ⟨hsame ▸ hclock, hsame ▸ hknown', ?_⟩
      unfold OnTime
      rw [hphase', hsame]
      exact ⟨le_rfl, by omega, hleft⟩

/-! ## The main result -/

/-- **No timer is late by more than two seconds**, or than the callbacks of a round take, and what the
multiplexer is behind its time-out: in every state of every run a timer that is still in the set has
its deadline ahead, or no more than this behind. -/
theorem punctual (hbusy : busy ≤ 2 ^ 30 * 1000000)
    (h : (system κ k busy latency).Reachable s) (ha : a ∈ s.manager.timers) :
    s.clock.micros ≤ s.manager.deadline a + (max busy 2000000 + latency) := by
  have htimely : s.Timely busy latency := by
    refine h.invariant (P := Timely busy latency) (fun s hinit => ?_) fun _ _ _ hs hstep =>
      hs.step hbusy hstep
    obtain ⟨hmanager, hclock, hphase⟩ := hinit
    refine ⟨hclock, hmanager ▸ known_start _, ?_⟩
    unfold OnTime
    rw [hphase, hmanager]
    exact ⟨le_rfl, by omega, nofun⟩
  have honTime := htimely.onTime
  unfold OnTime at honTime
  cases hphase : s.phase with
  | calling since =>
      rw [hphase] at honTime
      have hdeadline := honTime.2.2 a ha
      omega
  | turning =>
      rw [hphase] at honTime
      have hdeadline := honTime a ha
      omega
  | listening latest =>
      rw [hphase] at honTime
      have hdeadline := (honTime a ha).1
      omega
  | returned =>
      rw [hphase] at honTime
      exact honTime a ha

/-- The timer of five seconds, set at the tenth second: `select` returns at the sixteenth. -/
theorem punctual_selectRound : ∃ s, (system ℕ .select 1000 0).Reachable s ∧ s.clock = ⟨16, 0⟩ ∧
    ∃ a ∈ s.manager.timers, s.manager.timeout a = ⟨15, 0⟩ ∧
      s.clock.micros ≤ s.manager.deadline a + 2000000 := by
  obtain ⟨timeout, m', -, hcall, -⟩ :
      ∃ timeout m' ran, TimerManager.singleTimer.loopTimeout false ⟨10, 0⟩ ⟨10, 0⟩ = .ok (timeout, m') ∧
        TimerManager.Processed ⟨10, 0⟩ [] TimerManager.singleTimer.timers TimerManager.singleTimer m' ran ∧ _ :=
    TimerManager.loopTimeout_spec .select TimerManager.reachable_singleTimer (by decide +kernel) (by decide)
  obtain ⟨htimeout, hearliest, -⟩ := TimerManager.loopTimeout_singleTimer hcall (by decide +kernel)
  have hsix : timeout = 6 := by
    have hvalue : (TimerManager.singleTimer.loopTimeout false ⟨10, 0⟩ ⟨10, 0⟩).toOption.map Prod.fst =
        some 6 := by decide +kernel
    rw [hcall] at hvalue
    exact Option.some.inj hvalue
  subst hsix
  have h₀ : (system ℕ .select 1000 0).Reachable ⟨{}, ⟨10, 0⟩, .calling 10000000⟩ :=
    .of_init ⟨rfl, by decide, rfl⟩
  have h₁ : (system ℕ .select 1000 0).Reachable ⟨.singleTimer, ⟨10, 0⟩, .calling 10000000⟩ :=
    h₀.step (a := TimedEvent.edit ⟨10, 0⟩ (.setTimer ⟨10, 0⟩ 5 0 false 7 0))
      ⟨_, rfl, by decide, by decide, by decide, ⟨rfl, by decide, by decide, by decide⟩, .id 0,
        TimerManager.exec_eq (by decide +kernel), rfl, rfl⟩
  have h₂ : (system ℕ .select 1000 0).Reachable ⟨.singleTimer, ⟨10, 0⟩, .turning⟩ :=
    h₁.step (a := TimedEvent.turn ⟨10, 0⟩) ⟨_, rfl, by decide, by decide, by decide, rfl⟩
  have h₃ : (system ℕ .select 1000 0).Reachable ⟨m', ⟨10, 0⟩, .listening (some 16000000)⟩ :=
    h₂.step (a := TimedEvent.listen ⟨10, 0⟩)
      ⟨rfl, by decide, by decide, by decide, 6, hcall, rfl, rfl⟩
  have h₄ : (system ℕ .select 1000 0).Reachable ⟨m', ⟨16, 0⟩, .returned⟩ :=
    h₃.step (a := TimedEvent.wake ⟨16, 0⟩)
      ⟨_, rfl, by decide, by simp [Timeval.micros], by simp [Timeval.micros], rfl⟩
  exact ⟨_, h₄, rfl, 0, hearliest.1, htimeout, punctual (by decide) h₄ hearliest.1⟩

end TimedLoop

end Libio
