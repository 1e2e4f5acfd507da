import Libio.Core.TimerDeadline
import Libio.Foundation.Pacing

/-! # Periodic timers

When the callback of a persistent timer runs. `process` gives such a timer the clock of the call plus
its delay for a new deadline, not the old deadline plus the delay: a late call is never made up for,
and the timer drifts.

`runs_paced` says at which calls of `process` the callback runs, how far apart these are, and how far
they drift when the calls are at most some time apart. -/

namespace Libio

universe u

variable {κ : Type u}

/-- The time of a call of `process`. -/
def TimerCall.tick : TimerCall κ → List ℤ
  | .process now => [now.micros]
  | _ => []

/-- The calls of `process` in a run, by their times. -/
def clock (ls : List (TimerCall κ × TimerReply κ)) : List ℤ := ls.flatMap fun l => l.1.tick

/-- The call does not remove the timer `id`, and gives no other timer its callback `f`. -/
def TimerCall.Leaves (id : ℤ) (f : κ) : TimerCall κ → Prop
  | .setTimer _ _ _ _ callback _ => callback ≠ f
  | .remove i => i ≠ id
  | _ => True

section Runs

variable [DecidableEq κ]

/-- The time of a call of `process`, once for each time it runs the callback. -/
def ranAt (f : κ) : TimerCall κ × TimerReply κ → List ℤ
  | (.process now, .ran callbacks) => List.replicate (callbacks.count f) now.micros
  | _ => []

/-- When a callback runs in a run. -/
def runs (f : κ) (ls : List (TimerCall κ × TimerReply κ)) : List ℤ := ls.flatMap (ranAt f)

end Runs

namespace Schedule

/-- The timer `id` is persistent with delay `p`, it ran or was set at `last`, and it alone has the
callback `f`. -/
structure Periodic (s : Schedule κ) (id : ℤ) (f : κ) (p last : ℤ) : Prop where
  entry : s id = some ⟨last + p, p, true, f⟩
  only : ∀ i, ∀ e ∈ s i, e.callback = f → i = id

variable {s t : Schedule κ} {id : ℤ} {f : κ} {p last now : ℤ}

/-- Another entry may change as long as it does not get the callback. -/
theorem Periodic.update (h : s.Periodic id f p last) {i : ℤ} {e : Option (Scheduled κ)} (hi : i ≠ id)
    (he : ∀ e' ∈ e, e'.callback ≠ f) : Periodic (Function.update s i e) id f p last where
  entry := by
    rw [Function.update_of_ne (Ne.symm hi)]
    exact h.entry
  only j e' hj hc := by
    by_cases hji : j = i
    · subst hji
      rw [Function.update_self] at hj
      exact absurd hc (he e' hj)
    · rw [Function.update_of_ne hji] at hj
      exact h.only j e' hj hc

/-- A timer that is persistent already stays as it is. -/
theorem Periodic.persist (h : s.Periodic id f p last) (i : ℤ) :
    Periodic (Function.update s i ((s i).map fun e => { e with persistent := true })) id f p last := by
  by_cases hi : i = id
  · subst hi
    have hsame : (s i).map (fun e => { e with persistent := true }) = s i := by rw [h.entry]; rfl
    rwa [hsame, Function.update_eq_self]
  · refine h.update hi fun e he hc => ?_
    obtain ⟨e', he', rfl⟩ := Option.map_eq_some_iff.mp he
    exact hi (h.only i e' he' hc)

/-- What is pending behind a call has the callback it had before. -/
theorem callback_of_after {i : ℤ} {e : Scheduled κ} (he : e ∈ s.after now i) :
    ∃ e' ∈ s i, e'.callback = e.callback := by
  obtain ⟨e', he', hafter⟩ := Option.bind_eq_some_iff.mp he
  refine ⟨e', he', ?_⟩
  split at hafter
  · unfold rearm at hafter
    split at hafter
    · rw [← Option.some.inj hafter]
    · cases hafter
  · rw [← Option.some.inj hafter]

/-- After a call of `process` at `now` the timer has run, or it is not due. -/
theorem Periodic.after (h : s.Periodic id f p last) (now : ℤ) :
    (s.after now).Periodic id f p (if last + p ≤ now then now else last) where
  entry := by
    unfold Schedule.after rearm
    rw [h.entry, Option.bind_some]
    split <;> rfl
  only i e he hc := by
    obtain ⟨e', he', hcallback⟩ := callback_of_after he
    exact h.only i e' he' (hcallback.trans hc)

variable [DecidableEq κ]

/-- A call of `process` runs the callback once if the timer is due, and else not. -/
theorem Periodic.count (h : s.Periodic id f p last) {fired : List ℤ} (hfires : s.Fires now fired) :
    (fired.filterMap fun i => (s i).map Scheduled.callback).count f =
      if last + p ≤ now then 1 else 0 := by
  have hcount : (fired.filterMap fun i => (s i).map Scheduled.callback).count f = fired.count id := by
    rw [List.count, List.countP_filterMap, List.count]
    refine List.countP_congr fun i _ => ?_
    -- the callback is that of this timer alone
    by_cases hi : i = id
    · simp [hi, h.entry]
    · cases he : s i with
      | none => simp [hi]
      | some e =>
          have hne : e.callback ≠ f := fun hc => hi (h.only i e he hc)
          simp [hi, hne]
  have hdue : id ∈ fired ↔ last + p ≤ now := by
    rw [hfires.due, h.entry]
    simp
  rw [hcount, hfires.nodup.count]
  exact if_congr hdue rfl rfl

/-- **One call.** The timer stays periodic, and the callback runs as the pace says. -/
theorem Periodic.step (h : s.Periodic id f p last) {call : TimerCall κ} {reply : TimerReply κ}
    (hleaves : call.Leaves id f) (hstep : Step s (call, reply) t) :
    ∃ last', t.Periodic id f p last' ∧
      ∀ ts, paced p last (call.tick ++ ts) = ranAt f (call, reply) ++ paced p last' ts := by
  cases hstep with
  | setTimer hnone =>
      refine ⟨last, h.update (fun hid => ?_) fun e he => ?_, fun ts => rfl⟩
      · rw [hid, h.entry] at hnone
        cases hnone
      · obtain rfl := Option.some.inj he
        exact hleaves
  | setPersistent => exact ⟨last, h.persist _, fun ts => rfl⟩
  | remove => exact ⟨last, h.update hleaves (by simp), fun ts => rfl⟩
  | @process now fired hfires =>
      refine ⟨_, h.after now.micros, fun ts => ?_⟩
      rw [ranAt, h.count hfires, TimerCall.tick, List.singleton_append]
      -- `process` runs the timer exactly when the pace does
      rcases le_or_gt (last + p) now.micros with hle | hlt
      · rw [if_pos hle, if_pos hle, paced_cons_of_le hle]
        rfl
      · rw [if_neg (not_le.mpr hlt), if_neg (not_le.mpr hlt), paced_cons_of_lt hlt]
        rfl

/-- **The callback runs as the pace says**, in every run that leaves the timer alone. -/
theorem Periodic.run {ls : List (TimerCall κ × TimerReply κ)} (h : s.Periodic id f p last)
    (hrun : ((schedules κ).guard fun _ l => l.1.Leaves id f).Run s ls t) :
    runs f ls = paced p last (clock ls) := by
  induction hrun generalizing last with
  | nil => rfl
  | @cons s _ _ l ls hstep _ ih =>
      obtain ⟨last', hlast, hpaced⟩ := h.step hstep.1 hstep.2
      calc ranAt f l ++ runs f ls = ranAt f l ++ paced p last' (clock ls) := by rw [ih hlast]
        _ = paced p last (l.1.tick ++ clock ls) := (hpaced (clock ls)).symm

end Schedule

namespace TimerManager

variable {m m' m₁ : TimerManager κ}

/-- A run of the manager in which each call leaves a timer alone is such a run of the schedule. -/
theorem Sound.run_schedule {id : ℤ} {f : κ} {ls : List (TimerCall κ × TimerReply κ)} (h : m.Sound)
    (hrun : ((system κ).guard fun m l => Allowed m l ∧ l.1.Leaves id f).Run m ls m₁) :
    ((schedules κ).guard fun _ l => l.1.Leaves id f).Run m.schedule ls m₁.schedule := by
  induction hrun with
  | nil => exact .nil _
  | @cons m m' _ l ls hstep _ ih =>
      obtain ⟨⟨⟨hadm, hclear⟩, hleaves⟩, hexec⟩ := hstep
      obtain ⟨reply, m'', hexec', hsound, hs⟩ := h.exec hadm hclear
      obtain ⟨hreply, rfl⟩ := Prod.mk.inj (Except.ok.inj (hexec'.symm.trans hexec))
      rw [hreply] at hs
      exact .cons ⟨hleaves, hs⟩ (ih hsound)

/-- **Run lemma.** The manager is sound in every run that meets the condition. -/
theorem sound_of_reachable (h : ((system κ).guard Allowed).Reachable m) : m.Sound :=
  h.invariant (fun m hm => hm ▸ Sound.start) fun m l m' hm hstep => by
    obtain ⟨reply, m'', hexec, hsound, -⟩ := hm.exec hstep.1.1 hstep.1.2
    obtain ⟨-, rfl⟩ := Prod.mk.inj (Except.ok.inj (hexec.symm.trans hstep.2))
    exact hsound

/-- A persistent timer that is set is periodic from then on. -/
theorem Sound.periodic (h : m.Sound) {now : Timeval} {sec usec left id : ℤ} {f : κ}
    (hf : ∀ a, ∀ t ∈ m.heap a, t.callback ≠ f)
    (hset : ((system κ).guard Allowed).step m (.setTimer now sec usec true f left, .id id) m') :
    m'.Sound ∧
      m'.schedule.Periodic id f (⟨sec, usec⟩ : Timeval).micros now.micros := by
  obtain ⟨⟨hadm, hclear⟩, hexec⟩ := hset
  obtain ⟨reply, m'', hexec', hsound, hs⟩ := h.exec hadm hclear
  obtain ⟨rfl, rfl⟩ := Prod.mk.inj (Except.ok.inj (hexec'.symm.trans hexec))
  refine ⟨hsound, ?_⟩
  rw [hs.setTimer_inv]
  refine ⟨Function.update_self _ _ _, fun i e hi hc => ?_⟩
  -- another timer with this callback would have been there before
  by_contra hne
  rw [Function.update_of_ne hne] at hi
  obtain ⟨a, -, hi⟩ := Option.bind_eq_some_iff.mp hi
  obtain ⟨t, ht, rfl⟩ := Option.map_eq_some_iff.mp hi
  exact hf a t ht hc

/-- **A periodic timer.** In every run that leaves it alone the callback runs in the first call of
`process` a delay or more after its last run, so no two runs are closer than the delay; and when the
calls are at most `δ` apart, `n` runs take less than `n` times the delay and `δ`. -/
theorem runs_paced [DecidableEq κ] {now : Timeval} {sec usec left id : ℤ} {f : κ}
    {ls : List (TimerCall κ × TimerReply κ)} (hm : ((system κ).guard Allowed).Reachable m)
    (hf : ∀ a, ∀ t ∈ m.heap a, t.callback ≠ f)
    (hset : ((system κ).guard Allowed).step m (.setTimer now sec usec true f left, .id id) m')
    (hrun : ((system κ).guard fun m l => Allowed m l ∧ l.1.Leaves id f).Run m' ls m₁) :
    runs f ls = paced (⟨sec, usec⟩ : Timeval).micros now.micros (clock ls) ∧
      ((now.micros :: runs f ls).IsChain fun s t => s + (⟨sec, usec⟩ : Timeval).micros ≤ t) ∧
        ∀ δ, ((now.micros :: clock ls).IsChain fun s t => t ≤ s + δ) →
          (clock ls).getLastD now.micros < now.micros +
            (runs f ls).length * ((⟨sec, usec⟩ : Timeval).micros + δ) +
              (⟨sec, usec⟩ : Timeval).micros := by
  obtain ⟨hsound, hperiodic⟩ := (sound_of_reachable hm).periodic hf hset
  have hpos : 0 < (⟨sec, usec⟩ : Timeval).micros := hset.1.1.2
  have hpaced := hperiodic.run (hsound.run_schedule hrun)
  refine ⟨hpaced, hpaced ▸ isChain_paced _ _ _, fun δ hgaps => ?_⟩
  have hdrift := getLastD_lt_of_gaps hpos hgaps (lt_add_of_pos_right now.micros hpos)
  rwa [← hpaced, nsmul_eq_mul] at hdrift

/-- A timer of two seconds that is set at 10 and looked at at 13, 14 and 15: it runs a second late,
and its next run is a second later for it. -/
theorem runs_paced_late : ∃ m : TimerManager ℕ, ∃ ls, (system ℕ).Run {} ls m ∧
    clock ls = [13000000, 14000000, 15000000] ∧ runs 5 ls = [13000000, 15000000] := by
  let m₁ : TimerManager ℕ := afterCall {} (.setTimer ⟨10, 0⟩ 2 0 true 5 7)
  let m₂ : TimerManager ℕ := m₁.afterCall (.process ⟨13, 0⟩)
  let m₃ : TimerManager ℕ := m₂.afterCall (.process ⟨14, 0⟩)
  let m₄ : TimerManager ℕ := m₃.afterCall (.process ⟨15, 0⟩)
  have hset : ((system ℕ).guard Allowed).step {} (.setTimer ⟨10, 0⟩ 2 0 true 5 7, .id 0) m₁ := by
    refine ⟨⟨⟨?_, ?_⟩, ?_⟩, exec_eq ?_⟩ <;> decide +kernel
  have hallowed : ∀ {m : TimerManager ℕ} {sec : ℤ} {reply : TimerReply ℕ},
      m.Clear (.process ⟨sec, 0⟩) → m.Allowed (.process ⟨sec, 0⟩, reply) :=
    fun hclear => ⟨Timeval.normal_zero _, hclear⟩
  have hrun : ((system ℕ).guard fun m l => Allowed m l ∧ l.1.Leaves 0 5).Run m₁
      [(.process ⟨13, 0⟩, .ran [5]), (.process ⟨14, 0⟩, .ran []), (.process ⟨15, 0⟩, .ran [5])] m₄ := by
    refine .cons (t := m₂) ⟨⟨hallowed ?_, trivial⟩, exec_eq ?_⟩
      (.cons (t := m₃) ⟨⟨hallowed ?_, trivial⟩, exec_eq ?_⟩
        (.cons (t := m₄) ⟨⟨hallowed ?_, trivial⟩, exec_eq ?_⟩ (.nil _))) <;> decide +kernel
  refine ⟨m₄, _, .cons hset.2 hrun.of_guard, rfl, ?_⟩
  exact (runs_paced (.of_init rfl) (by simp) hset hrun).1.trans (by decide)

end TimerManager

end Libio
