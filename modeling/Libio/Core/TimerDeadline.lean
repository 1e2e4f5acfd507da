import Libio.Core.TimerSteps

/-! # A timer runs at its deadline

A timer that is set should run in the first call of `process` at its deadline or later, and in none
before. A deadline has two fields and is compared field by field, which is the order of time as long
as the second field has at most one second; `timeradd` carries one second and no more. And the set
takes one timer of a deadline only. `fires_on_time_iff` says that nothing else is in the way. -/

namespace Libio

universe u

variable {κ : Type u}

/-! ## Two fields and the time they stand for -/

/-- A deadline of at most a second in the second field is compared as the time it stands for. -/
theorem Timeval.key_le_iff {d now : Timeval} (h0 : 0 ≤ d.usec) (h1 : d.usec ≤ 1000000)
    (hnow : now.Normal) : d.key ≤ now.key ↔ d.micros ≤ now.micros := by
  unfold Timeval.Normal at hnow
  rw [key, key, Prod.Lex.toLex_le_toLex, micros, micros]
  simp only
  omega

/-- Full seconds are normalised. -/
theorem Timeval.normal_zero (sec : ℤ) : Normal ⟨sec, 0⟩ := ⟨le_rfl, by norm_num⟩

/-- With more than a second there, the deadline seems to be over too early. -/
theorem Timeval.exists_early {d : Timeval} (h : 1000000 < d.usec) :
    ∃ now : Timeval, now.Normal ∧ d.key ≤ now.key ∧ now.micros < d.micros := by
  refine ⟨⟨d.sec + 1, 0⟩, normal_zero _, ?_, ?_⟩
  · rw [key, key, Prod.Lex.toLex_le_toLex]
    exact .inl (lt_add_one _)
  · simp only [micros]
    omega

/-- The second field of a deadline: one second is carried. -/
theorem timeradd_usec {now : Timeval} (hnow : now.Normal) (sec : ℤ) {usec : ℤ} (husec : 0 ≤ usec) :
    0 ≤ (timeradd now ⟨sec, usec⟩).usec ∧
      ((timeradd now ⟨sec, usec⟩).usec ≤ 1000000 ↔ now.usec + usec ≤ 2000000) := by
  unfold Timeval.Normal at hnow
  unfold timeradd
  dsimp only
  split <;> dsimp only <;> omega

namespace TimerManager

variable {m m' : TimerManager κ} {d now : Timeval} {a : ℕ} {f : κ}

/-! ## A timer that waits for its deadline -/

/-- A step that leaves the timer with deadline `d` and callback `f` alone: it gives no other timer
this callback, removes no timer of this deadline, and does not run the callback. -/
def Aside (d : Timeval) (f : κ) (m : TimerManager κ) : TimerCall κ × TimerReply κ → Prop
  | (.setTimer _ _ _ _ callback _, _) => callback ≠ f
  | (.setPersistent _, _) => True
  | (.remove id, _) => ∀ a ∈ m.idtimer[id]?, m.timeout a ≠ d
  | (.process _, reply) => ∀ ran, reply = .ran ran → f ∉ ran

/-- The timer `a` is in the set with deadline `d`, and it alone has the callback `f`. -/
structure Waits (m : TimerManager κ) (a : ℕ) (d : Timeval) (f : κ) : Prop where
  mem : a ∈ m.timers
  timer : ∃ t ∈ m.heap a, t.timeout = d ∧ t.callback = f
  only : ∀ b, ∀ t ∈ m.heap b, t.callback = f → b = a

/-- A call of `process` runs the callback exactly when the deadline is reached. -/
theorem Waits.mem_ran_iff (hw : m.Waits a d f) {ran : List κ}
    (hp : Processed now [] m.timers m m' ran) : f ∈ ran ↔ d.key ≤ now.key := by
  obtain ⟨t, ht, rfl, hf⟩ := hw.timer
  rw [hp.ran]
  constructor
  · rintro ⟨b, -, u, hu, hd, hc⟩
    obtain rfl := hw.only b u hu hc
    obtain rfl := Option.some.inj (ht.symm.trans hu)
    exact hd
  · exact fun hd => ⟨a, hw.mem, t, ht, hd, hf⟩

/-- What such a step keeps: the timer goes on waiting. -/
theorem Waits.step (hw : m.Waits a d f) (h : m.Ordered) {l : TimerCall κ × TimerReply κ}
    (haside : m.Aside d f l) (hstep : (system κ).step m l m') : m'.Waits a d f := by
  obtain ⟨call, reply⟩ := l
  obtain ⟨t, ht, htd, htf⟩ := hw.timer
  cases call with
  | setTimer now sec usec persistent callback left =>
      obtain ⟨id, maxid, -, rfl, -⟩ := h.setTimer_inv hstep
      have hne : a ≠ m.next := fun he => h.not_mem_next (he ▸ hw.mem)
      refine ⟨mem_armed_of_mem hw.mem, ⟨t, ?_, htd, htf⟩, fun b u hu hc => ?_⟩
      · rw [heap_armed, if_neg hne]
        exact ht
      · rw [heap_armed] at hu
        split at hu
        · obtain rfl := Option.some.inj hu
          exact absurd hc haside
        · exact hw.only b u hu hc
  | setPersistent id =>
      obtain ⟨-, ⟨-, rfl⟩ | ⟨b, u, -, hu, rfl⟩⟩ := setPersistent_inv hstep
      · exact hw
      · refine ⟨hw.mem, ?_, fun c v hv hc => ?_⟩
        · by_cases hab : a = b
          · subst hab
            obtain rfl := Option.some.inj (ht.symm.trans hu)
            exact ⟨{ t with persistent := true }, if_pos rfl, htd, htf⟩
          · exact ⟨t, (if_neg hab).trans ht, htd, htf⟩
        · rw [heap_store] at hv
          split at hv
          · next hcb =>
              obtain rfl := Option.some.inj hv
              exact hcb ▸ hw.only b u hu hc
          · exact hw.only c v hv hc
  | remove id =>
      obtain ⟨-, ⟨-, rfl⟩ | ⟨b, u, hid, hu, rfl⟩⟩ := remove_inv hstep
      · exact hw
      · -- what is removed has another deadline, so it is another timer
        have hother : m.timeout a ≠ m.timeout b := by
          rw [timeout, ht]
          exact fun he => haside b hid (he.symm.trans htd)
        have hab : a ≠ b := fun he => hother (he ▸ rfl)
        refine ⟨?_, ⟨t, (if_neg hab).trans ht, htd, htf⟩, fun c v hv hc => ?_⟩
        · refine (OrderedSet.mem_eraseBy h.sorted (compares_key b _) a).mpr ⟨hw.mem, fun hk => ?_⟩
          exact hother (Timeval.key_inj.mp hk)
        · rw [heap_removed] at hv
          split at hv
          · cases hv
          · exact hw.only c v hv hc
  | process now =>
      obtain ⟨ran, rfl, hp⟩ := h.process_inv hstep
      have hd : ¬t.Due now := by
        rw [Timer.Due, htd, ← hw.mem_ran_iff hp]
        exact haside ran rfl
      refine ⟨hp.keep a (.inr ⟨hw.mem, fun u hu => ?_⟩), ⟨t, ?_, htd, htf⟩, fun b u hu hc => ?_⟩
      · rwa [← Option.some.inj (ht.symm.trans hu)]
      · rw [hp.heap, if_pos hw.mem, ht]
        exact Timer.after_of_not_due hd
      · rw [hp.heap] at hu
        split at hu
        · obtain ⟨v, hv, hu⟩ := Option.bind_eq_some_iff.mp hu
          exact hw.only b v hv ((Timer.callback_of_after hu).trans hc)
        · exact hw.only b u hu hc

/-- In a run of such steps the timer goes on waiting. -/
theorem Waits.run (hw : m.Waits a d f) (h : m.Ordered) {ls : List (TimerCall κ × TimerReply κ)}
    (hrun : ((system κ).guard (Aside d f)).Run m ls m') : m'.Ordered ∧ m'.Waits a d f :=
  hrun.invariant (P := fun m => m.Ordered ∧ m.Waits a d f)
    (fun _ _ _ hs hstep => ⟨hs.1.exec hstep.2, hs.2.step hs.1 hstep.1 hstep.2⟩) ⟨h, hw⟩

/-! ## The main result -/

/-- The new timer waits, where its deadline is new to the set. -/
theorem Ordered.waits_armed (h : m.Ordered) {id maxid : ℤ} {t : Timer κ}
    (hnew : ∀ a ∈ m.timers, m.timeout a ≠ t.timeout)
    (hf : ∀ a, ∀ u ∈ m.heap a, u.callback ≠ t.callback) :
    (m.armed id maxid t).Waits m.next t.timeout t.callback where
  mem := h.next_mem_armed hnew
  timer := ⟨t, if_pos rfl, rfl, rfl⟩
  only b u hu hc := by
    rw [heap_armed] at hu
    split at hu
    · assumption
    · exact absurd hc (hf b u hu)

/-- **A timer runs at its deadline**, and not before, whatever is called in between, exactly when the
clock and the delay have at most two seconds in their second fields and no timer of the set has the
same deadline. -/
theorem fires_on_time_iff {sec usec left : ℤ} {persistent : Bool} {reply : TimerReply κ}
    (hm : (system κ).Reachable m) (hnow : now.Normal) (husec : 0 ≤ usec)
    (hf : ∀ a, ∀ t ∈ m.heap a, t.callback ≠ f)
    (hset : m.exec (.setTimer now sec usec persistent f left) = .ok (reply, m')) :
    (∀ ls m₁ at', ((system κ).guard (Aside (timeradd now ⟨sec, usec⟩) f)).Run m' ls m₁ →
        at'.Normal → ∃ ran m₂, m₁.exec (.process at') = .ok (.ran ran, m₂) ∧
          (f ∈ ran ↔ now.micros + (⟨sec, usec⟩ : Timeval).micros ≤ at'.micros)) ↔
      now.usec + usec ≤ 2000000 ∧ ∀ a ∈ m.timers, m.timeout a ≠ timeradd now ⟨sec, usec⟩ := by
  have h := ordered_of_reachable hm
  have h' := h.exec hset
  obtain ⟨id, maxid, -, rfl, -⟩ := h.setTimer_inv hset
  obtain ⟨hpos, hcarry⟩ := timeradd_usec hnow sec husec
  have hwaits : (∀ a ∈ m.timers, m.timeout a ≠ timeradd now ⟨sec, usec⟩) →
      (m.armed id maxid (fresh now sec usec persistent f left)).Waits m.next
        (timeradd now ⟨sec, usec⟩) f :=
    fun hnew => h.waits_armed (t := fresh now sec usec persistent f left) hnew hf
  constructor
  · intro hall
    have hnew : ∀ a ∈ m.timers, m.timeout a ≠ timeradd now ⟨sec, usec⟩ := by
      -- a late call of `process` runs the timer, so it has entered the set
      obtain ⟨ran, m₂, hexec, hran⟩ := hall [] _ ⟨now.sec + sec + now.usec + usec, 0⟩ (.nil _)
        (Timeval.normal_zero _)
      obtain ⟨ran', hran', hp⟩ := h'.process_inv hexec
      obtain rfl := TimerReply.ran.inj hran'
      have hin : f ∈ ran := by
        refine hran.mpr ?_
        unfold Timeval.Normal at hnow
        simp only [Timeval.micros]
        omega
      obtain ⟨b, hb, u, hu, -, hc⟩ := (hp.ran f).mp hin
      have hbnext : b = m.next := by
        rw [heap_armed] at hu
        split at hu
        · assumption
        · exact absurd hc (hf b u hu)
      exact h.new_of_next_mem_armed (hbnext ▸ hb)
    refine ⟨?_, hnew⟩
    by_contra hmany
    obtain ⟨early, hnormal, hkey, hlt⟩ := Timeval.exists_early (not_le.mp (mt hcarry.mp hmany))
    obtain ⟨ran, m₂, hexec, hran⟩ := hall [] _ early (.nil _) hnormal
    obtain ⟨ran', hran', hp⟩ := h'.process_inv hexec
    obtain rfl := TimerReply.ran.inj hran'
    have hw := hwaits hnew
    rw [micros_timeradd] at hlt
    exact absurd (hran.mp ((hw.mem_ran_iff hp).mpr hkey)) (not_le.mpr hlt)
  · rintro ⟨hfew, hnew⟩ ls m₁ at' hrun hnormal
    have hw := hwaits hnew
    obtain ⟨h₁, hw₁⟩ := hw.run h' hrun
    obtain ⟨ran, m₂, hprocess, hp⟩ := processed_process at' h₁.sorted h₁.live
    refine ⟨ran, m₂, by simp only [exec, hprocess, bind, Except.bind], ?_⟩
    rw [hw₁.mem_ran_iff hp, ← micros_timeradd]
    exact Timeval.key_le_iff hpos (hcarry.mpr hfew) hnormal

/-- A timer of 1.7 seconds, set half a second after a full one. -/
theorem fires_on_time_carried :
    ∃ m : TimerManager ℕ, exec {} (.setTimer ⟨10, 500000⟩ 1 700000 false 5 0) = .ok (.id 0, m) ∧
      ∀ at' : Timeval, at'.Normal → ∃ ran m', m.exec (.process at') = .ok (.ran ran, m') ∧
        (5 ∈ ran ↔ 12200000 ≤ at'.micros) := by
  have hset : exec ({} : TimerManager ℕ) (.setTimer ⟨10, 500000⟩ 1 700000 false 5 0) =
      .ok (.id 0, _) := exec_eq (by decide +kernel)
  refine ⟨_, hset, fun at' hnormal => ?_⟩
  exact (fires_on_time_iff (.of_init rfl) (by decide) (by decide) (by simp) hset).mpr
    ⟨by decide, by simp⟩ [] _ at' (.nil _) hnormal

/-- **A timer that runs early.** A timer of 1.5 seconds, all of them in the second field, runs half a
second before its deadline. -/
theorem not_fires_on_time_wideUsec :
    ∃ m m' : TimerManager ℕ,
      exec {} (.setTimer ⟨10, 999999⟩ 0 1500000 false 5 0) = .ok (.id 0, m) ∧
        m.exec (.process ⟨12, 0⟩) = .ok (.ran [5], m') ∧
          (⟨12, 0⟩ : Timeval).micros <
            (⟨10, 999999⟩ : Timeval).micros + (⟨0, 1500000⟩ : Timeval).micros :=
  ⟨_, _, exec_eq (by decide +kernel), exec_eq (by decide +kernel), by decide⟩

end TimerManager

end Libio
