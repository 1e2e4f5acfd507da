import Libio.Core.TimerSteps

/-! # Callbacks that edit the set

The loop of `process` taken step by step, with the calls its callbacks make in between. While a
callback runs, the loop holds the pointer to its timer, which it uses afterwards, and the position in
the set where it goes on. `process_tolerates_of_spared` says that it is safe, and complete, as long as
no callback removes one of these two. -/

namespace Libio

universe u

variable {κ : Type u}

/-- Where a call of `process` stands. -/
inductive WalkPhase
  /-- No call is going on. -/
  | idle
  /-- The loop is at its condition, with the iterator at a timer or at the end. -/
  | testing (now : Timeval) (i : Option ℕ)
  /-- The callback of the timer `ti` is running. -/
  | calling (now : Timeval) (ti : ℕ) (i : Option ℕ)
  deriving DecidableEq

/-- What can happen. -/
inductive WalkEvent (κ : Type u)
  /-- A call of `set_timer`, `set_persistent` or `remove`, by a callback or between two calls of
  `process`. -/
  | edit (call : TimerCall κ)
  /-- A call of `process`. -/
  | process (now : Timeval)
  /-- The loop goes on: to the next callback, to the end, or from the end of a callback. -/
  | advance

/-- A timer manager in which `process` may be going on, with the history of that call: the timers that
were due at its start, those it has run, and those that were removed since. -/
structure TimerWalk (κ : Type u) where
  manager : TimerManager κ := {}
  phase : WalkPhase := .idle
  due : List ℕ := []
  ran : List ℕ := []
  removed : List ℕ := []

namespace TimerManager

variable (m : TimerManager κ)

/-- `i = timers.erase(i)`: the position behind the timer, and the set without it. -/
def eraseAt (a : ℕ) : Option ℕ × TimerManager κ :=
  ((m.timers.dropWhile (· ≠ a)).tail.head?, { m with timers := m.timers.erase a })

/-- The timer a call removes. -/
def named : TimerCall κ → List ℕ
  | .remove id => m.idtimer[id]?.toList
  | _ => []

end TimerManager

/-- The calls that a callback makes. -/
def TimerCall.Edits : TimerCall κ → Prop
  | .process _ => False
  | _ => True

instance : DecidablePred (TimerCall.Edits (κ := κ))
  | .process _ => inferInstanceAs (Decidable False)
  | .setTimer .. => inferInstanceAs (Decidable True)
  | .setPersistent _ => inferInstanceAs (Decidable True)
  | .remove _ => inferInstanceAs (Decidable True)

/-- Other code runs: a callback, or whoever calls `process`. -/
def WalkPhase.Yields : WalkPhase → Prop
  | .testing _ _ => False
  | _ => True

instance : DecidablePred WalkPhase.Yields
  | .testing _ _ => inferInstanceAs (Decidable False)
  | .idle => inferInstanceAs (Decidable True)
  | .calling .. => inferInstanceAs (Decidable True)

/-- The loop uses the timer when the callback has returned: it is the one that is running, or the one
at which the loop goes on. -/
def WalkPhase.Holds : WalkPhase → ℕ → Prop
  | .calling _ ti i, a => a = ti ∨ i = some a
  | _, _ => False

instance : ∀ phase, DecidablePred (WalkPhase.Holds phase)
  | .calling _ ti i, a => inferInstanceAs (Decidable (a = ti ∨ i = some a))
  | .idle, _ => inferInstanceAs (Decidable False)
  | .testing _ _, _ => inferInstanceAs (Decidable False)

namespace TimerWalk

variable (s : TimerWalk κ)

/-- The loop of `process`, to its next callback, to its end, or on from the end of a callback. Going
on from an erased position and following a pointer to a deleted timer are undefined. -/
def advance : Except Fault (TimerWalk κ) :=
  match s.phase with
  | .idle => .ok s
  | .testing _ none => .ok { s with phase := .idle }
  | .testing now (some ti) =>
      if ti ∈ s.manager.timers then do
        let t ← s.manager.deref ti
        if timercmp now t.timeout then .ok { s with phase := .idle }
        else
          let (i, m) := s.manager.eraseAt ti
          .ok { s with manager := m, phase := .calling now ti i, ran := s.ran ++ [ti] }
      else .error .undefined
  | .calling now ti i => do
      let t ← s.manager.deref ti
      if t.persistent then
        let m := s.manager.store ti { t with timeout := timeradd now t.tv }
        .ok { s with manager := m.insert ti, phase := .testing now i }
      else
        let m := { s.manager with idtimer := s.manager.idtimer.erase t.id }
        .ok { s with manager := m.free ti, phase := .testing now i }

/-- The state after an event, if it can happen. -/
def next : WalkEvent κ → Option (TimerWalk κ)
  | .edit call =>
      if s.phase.Yields ∧ call.Edits then
        match s.manager.exec call with
        | .ok (_, m) => some { s with manager := m, removed := s.removed ++ s.manager.named call }
        | .error _ => none
      else none
  | .process now =>
      if s.phase = .idle then
        some { s with
          phase := .testing now s.manager.timers.head?, ran := [], removed := []
          due := s.manager.timers.filter fun a => !timercmp now (s.manager.timeout a) }
      else none
  | .advance => if s.phase = .idle then none else s.advance.toOption

/-- A timer manager whose callbacks edit it, as a transition system. -/
def lts (κ : Type u) : Lts (TimerWalk κ) (WalkEvent κ) where
  init s := s = {}
  step s e t := s.next e = some t

/-- The deadline a running timer is about to get is that of no timer of the set. -/
def RearmsApart (m : TimerManager κ) : WalkPhase → Prop
  | .calling now ti _ => ∀ t ∈ m.heap ti, t.persistent = true →
      ∀ a ∈ m.timers, m.timeout a ≠ timeradd now t.tv
  | _ => True

/-- No timer gets the deadline of another one. -/
def Distinct : WalkEvent κ → Prop
  | .edit (.setTimer now sec usec _ _ _) =>
      ∀ a < s.manager.next, ∀ t ∈ s.manager.heap a, t.timeout ≠ timeradd now ⟨sec, usec⟩
  | .advance => RearmsApart s.manager s.phase
  | _ => True

/-- Runs in which deadlines are pairwise different. -/
def walks (κ : Type u) : Lts (TimerWalk κ) (WalkEvent κ) := (lts κ).guard Distinct

/-- A callback removes neither its own timer nor the one at which the loop goes on. -/
def Spares : WalkEvent κ → Prop
  | .edit (.remove id) => ∀ a ∈ s.manager.idtimer[id]?, ¬s.phase.Holds a
  | _ => True

instance (m : TimerManager κ) : DecidablePred (RearmsApart m)
  | .calling _ ti _ => inferInstanceAs (Decidable (∀ t ∈ m.heap ti, _))
  | .idle => inferInstanceAs (Decidable True)
  | .testing _ _ => inferInstanceAs (Decidable True)

instance : DecidablePred s.Distinct
  | .edit (.setTimer ..) => inferInstanceAs (Decidable (∀ a < s.manager.next, _))
  | .edit (.setPersistent _) => inferInstanceAs (Decidable True)
  | .edit (.remove _) => inferInstanceAs (Decidable True)
  | .edit (.process _) => inferInstanceAs (Decidable True)
  | .process _ => inferInstanceAs (Decidable True)
  | .advance => inferInstanceAs (Decidable (RearmsApart s.manager s.phase))

instance : DecidablePred s.Spares
  | .edit (.remove id) => inferInstanceAs (Decidable (∀ a ∈ s.manager.idtimer[id]?, _))
  | .edit (.setTimer ..) => inferInstanceAs (Decidable True)
  | .edit (.setPersistent _) => inferInstanceAs (Decidable True)
  | .edit (.process _) => inferInstanceAs (Decidable True)
  | .process _ => inferInstanceAs (Decidable True)
  | .advance => inferInstanceAs (Decidable True)

/-! ## What the loop holds -/

/-- The loop holds no pointer to a deleted timer and no erased position. -/
def Held : Prop :=
  match s.phase with
  | .idle => True
  | .testing _ i => ∀ b ∈ i, b ∈ s.manager.timers
  | .calling _ ti i =>
      (s.manager.heap ti).isSome ∧ ti ∉ s.manager.timers ∧ ∀ b ∈ i, b ∈ s.manager.timers

/-- The timer is due, and the iterator has not come to it. -/
def Ahead (m : TimerManager κ) (now : Timeval) (i : Option ℕ) (a : ℕ) : Prop :=
  a ∈ m.timers ∧ m.key a ≤ now.key ∧ ∃ b ∈ i, m.key b ≤ m.key a

/-- A timer that the loop still has to run. -/
def Pending (a : ℕ) : Prop :=
  match s.phase with
  | .idle => False
  | .testing now i => Ahead s.manager now i a
  | .calling now _ i => Ahead s.manager now i a

/-- The invariant: what the loop holds is good, every live timer is in the set or running, and each
timer that was due has run, or was removed, or is ahead. -/
structure Sound : Prop where
  ordered : s.manager.Ordered
  placed : ∀ a, (s.manager.heap a).isSome → a ∈ s.manager.timers ∨ ∃ now i, s.phase = .calling now a i
  held : s.Held
  due : ∀ a ∈ s.due, a ∈ s.ran ∨ a ∈ s.removed ∨ s.Pending a

variable {s} {t : TimerWalk κ} {m m' : TimerManager κ} {now : Timeval} {i : Option ℕ} {a ti : ℕ}

/-- The walk is sound before the first call. -/
theorem sound_init : ({} : TimerWalk κ).Sound where
  ordered := .start
  placed := by simp
  held := trivial
  due := by simp

/-- The loop can go on from what it holds. -/
theorem Sound.advances (h : s.Sound) : ∃ t, s.advance = .ok t := by
  have hheld := h.held
  unfold Held at hheld
  unfold advance
  cases hphase : s.phase with
  | idle => exact ⟨_, rfl⟩
  | testing now i =>
      rw [hphase] at hheld
      cases i with
      | none => exact ⟨_, rfl⟩
      | some ti =>
          have hti : ti ∈ s.manager.timers := hheld ti rfl
          obtain ⟨u, hu⟩ := Option.isSome_iff_exists.mp (h.ordered.live ti hti)
          simp only [if_pos hti, TimerManager.deref, hu, bind, Except.bind]
          split <;> exact ⟨_, rfl⟩
  | calling now ti i =>
      rw [hphase] at hheld
      obtain ⟨u, hu⟩ := Option.isSome_iff_exists.mp hheld.1
      simp only [TimerManager.deref, hu, bind, Except.bind]
      split <;> exact ⟨_, rfl⟩

/-! ## What a callback does to the set -/

/-- What a call of `set_timer`, `set_persistent` or `remove` does: the timers it removes are gone,
those it sets are in the set, and the others are where they were. -/
structure Edited (m m' : TimerManager κ) (removed : List ℕ) : Prop where
  ordered : m'.Ordered
  stays : ∀ a, (m.heap a).isSome → a ∉ removed → (m'.heap a).isSome ∧ m'.key a = m.key a
  mem : ∀ a ∈ m.timers, a ∉ removed → a ∈ m'.timers
  new : ∀ a, (m'.heap a).isSome → a ∉ removed ∧ ((m.heap a).isSome ∨ a ∈ m'.timers)
  old : ∀ a ∈ m'.timers, (m.heap a).isSome → a ∈ m.timers

/-- What a call does to the set, whether it is made from outside or by a callback. -/
theorem edited_of_exec (h : m.Ordered) {call : TimerCall κ} {reply : TimerReply κ}
    (hedits : call.Edits) (hdistinct : s.Distinct (.edit call)) (hs : s.manager = m)
    (hnamed : ∀ a ∈ m.named call, (m.heap a).isSome → a ∈ m.timers)
    (hexec : m.exec call = .ok (reply, m')) : Edited m m' (m.named call) := by
  subst hs
  have hordered := h.exec hexec
  cases call with
  | setTimer now sec usec persistent callback left =>
      obtain ⟨id, maxid, -, rfl, -⟩ := h.setTimer_inv hexec
      have hnext : ∀ a, (s.manager.heap a).isSome → a ≠ s.manager.next := fun a ha =>
        (h.heap_lt a ha).ne
      refine ⟨hordered, fun a ha _ => ?_, fun a ha _ => TimerManager.mem_armed_of_mem ha, ?_, ?_⟩
      · rw [TimerManager.heap_armed, TimerManager.key_armed, if_neg (hnext a ha),
          if_neg (hnext a ha)]
        exact ⟨ha, rfl⟩
      · intro a ha
        rw [TimerManager.heap_armed] at ha
        refine ⟨by simp [TimerManager.named], ?_⟩
        split at ha
        · next heq =>
            subst heq
            refine .inr (h.next_mem_armed fun b hb => ?_)
            obtain ⟨u, hu⟩ := Option.isSome_iff_exists.mp (h.live b hb)
            rw [TimerManager.timeout, hu]
            exact hdistinct b (h.heap_lt b (h.live b hb)) u hu
        · exact .inl ha
      · exact fun a ha hlive => (TimerManager.mem_of_mem_armed ha).resolve_left (hnext a hlive)
  | setPersistent id =>
      obtain ⟨-, ⟨-, rfl⟩ | ⟨b, u, -, hu, rfl⟩⟩ := TimerManager.setPersistent_inv hexec
      · exact ⟨h, fun a ha _ => ⟨ha, rfl⟩, fun a ha _ => ha,
          fun a ha => ⟨by simp [TimerManager.named], .inl ha⟩, fun a ha _ => ha⟩
      · refine ⟨hordered, fun a ha _ => ?_, fun a ha _ => ha,
          fun a ha => ⟨by simp [TimerManager.named], .inl ?_⟩,
          fun a ha _ => ha⟩
        · rw [TimerManager.heap_store, TimerManager.key_store]
          by_cases hab : a = b
          · rw [if_pos hab, if_pos hab, hab, TimerManager.key_eq hu]
            exact ⟨rfl, rfl⟩
          · rw [if_neg hab, if_neg hab]
            exact ⟨ha, rfl⟩
        · rw [TimerManager.heap_store] at ha
          split at ha
          · next hab =>
              rw [hab, hu]
              rfl
          · exact ha
  | remove id =>
      obtain ⟨-, ⟨hid, rfl⟩ | ⟨b, u, hid, hu, rfl⟩⟩ := TimerManager.remove_inv hexec
      · exact ⟨h, fun a ha _ => ⟨ha, rfl⟩, fun a ha _ => ha,
          fun a ha => ⟨by simp [TimerManager.named, hid], .inl ha⟩, fun a ha _ => ha⟩
      · have hb : b ∈ s.manager.named (.remove id) := by simp [TimerManager.named, hid]
        have hmem : b ∈ s.manager.timers := hnamed b hb (by rw [hu]; rfl)
        refine ⟨hordered, fun a ha hne => ?_, fun a ha hne => ?_, fun a ha => ?_,
          fun a ha _ => (h.mem_of_mem_removed id ha).1⟩
        · have hab : a ≠ b := fun he => hne (he ▸ hb)
          rw [TimerManager.heap_removed, if_neg hab]
          exact ⟨ha, TimerManager.key_free hab⟩
        · have hab : a ≠ b := fun he => hne (he ▸ hb)
          exact (h.mem_removed hmem a).mpr ⟨ha, hab⟩
        · rw [TimerManager.heap_removed] at ha
          split at ha
          · cases ha
          · next hne => exact ⟨by simpa [TimerManager.named, hid] using hne, .inl ha⟩
  | process now => exact hedits.elim

/-- A timer that is ahead stays ahead of an iterator that stays. -/
theorem Edited.ahead {removed : List ℕ} (he : Edited m m' removed) (h : m.Ordered)
    (hi : ∀ b ∈ i, b ∈ m.timers ∧ b ∉ removed) (ha : Ahead m now i a) :
    a ∈ removed ∨ Ahead m' now i a := by
  obtain ⟨hmem, hdue, b, hb, hle⟩ := ha
  by_cases hrem : a ∈ removed
  · exact .inl hrem
  · obtain ⟨hbmem, hbrem⟩ := hi b hb
    have hka := (he.stays a (h.live a hmem) hrem).2
    have hkb := (he.stays b (h.live b hbmem) hbrem).2
    exact .inr ⟨he.mem a hmem hrem, hka ▸ hdue, b, hb, by rwa [hka, hkb]⟩

/-- A callback that spares what the loop holds keeps the invariant. -/
theorem Sound.edit (h : s.Sound) {call : TimerCall κ} (hdistinct : s.Distinct (.edit call))
    (hspares : s.Spares (.edit call)) (hnext : s.next (.edit call) = some t) : t.Sound := by
  rw [next] at hnext
  split at hnext
  case isFalse => cases hnext
  case isTrue hcond =>
    obtain ⟨hyields, hedits⟩ := hcond
    cases hexec : s.manager.exec call with
    | error e => simp [hexec] at hnext
    | ok res =>
        obtain ⟨reply, m'⟩ := res
        rw [hexec] at hnext
        obtain rfl := Option.some.inj hnext
        -- what the loop holds is not removed
        have hheld : ∀ now ti i, s.phase = .calling now ti i →
            ∀ a ∈ s.manager.named call, a ≠ ti ∧ i ≠ some a := by
          intro now ti i hphase a ha
          cases call with
          | remove id =>
              have hfree : ¬s.phase.Holds a := hspares a (Option.mem_toList.mp ha)
              rw [hphase] at hfree
              exact not_or.mp hfree
          | _ => simp [TimerManager.named] at ha
        have hedited : Edited s.manager m' (s.manager.named call) := by
          refine edited_of_exec h.ordered hedits hdistinct rfl (fun a ha hlive => ?_) hexec
          rcases h.placed a hlive with hmem | ⟨now, i, hphase⟩
          · exact hmem
          · exact absurd rfl (hheld now a i hphase a ha).1
        have hheld' := h.held
        refine ⟨hedited.ordered, fun a ha => ?_, ?_, fun a ha => ?_⟩
        · obtain ⟨hrem, hlive | hmem⟩ := hedited.new a ha
          · exact (h.placed a hlive).imp_left fun hmem => hedited.mem a hmem hrem
          · exact .inl hmem
        · unfold Held at hheld' ⊢
          cases hphase : s.phase with
          | idle => trivial
          | testing now i =>
              rw [hphase] at hyields
              exact hyields.elim
          | calling now ti i =>
              simp only [hphase] at hheld' ⊢
              obtain ⟨hlive, hout, hi⟩ := hheld'
              have hspared := hheld now ti i hphase
              refine ⟨(hedited.stays ti hlive fun hrem => (hspared ti hrem).1 rfl).1,
                fun hin => hout (hedited.old ti hin hlive), fun b hb => ?_⟩
              exact hedited.mem b (hi b hb) fun hrem => (hspared b hrem).2 hb
        · rcases h.due a ha with hran | hrem | hpending
          · exact .inl hran
          · exact .inr (.inl (List.mem_append_left _ hrem))
          · unfold Pending at hpending ⊢
            unfold Held at hheld'
            cases hphase : s.phase with
            | idle =>
                rw [hphase] at hpending
                exact hpending.elim
            | testing now i =>
                rw [hphase] at hyields
                exact hyields.elim
            | calling now ti i =>
                simp only [hphase] at hheld' hpending ⊢
                have hspared := hheld now ti i hphase
                refine .inr ((hedited.ahead h.ordered (fun b hb => ?_) hpending).imp_left
                  (List.mem_append_right _))
                exact ⟨hheld'.2.2 b hb, fun hrem => (hspared b hrem).2 hb⟩

/-- The start of a call: what is due is ahead. -/
theorem Sound.process (h : s.Sound) (hnext : s.next (.process now) = some t) : t.Sound := by
  rw [next] at hnext
  split at hnext
  case isFalse => cases hnext
  case isTrue hphase =>
    obtain rfl := Option.some.inj hnext
    refine ⟨h.ordered, fun a ha => ?_, fun b hb => List.mem_of_mem_head? hb, fun a ha => ?_⟩
    · rcases h.placed a ha with hmem | ⟨now, i, hcalling⟩
      · exact .inl hmem
      · rw [hphase] at hcalling
        cases hcalling
    · obtain ⟨hmem, hdue⟩ := List.mem_filter.mp ha
      refine .inr (.inr ⟨hmem, ?_, ?_⟩)
      · rw [Bool.not_eq_true', ← Bool.not_eq_true, timercmp_iff_key] at hdue
        exact not_lt.mp hdue
      · have hsorted := h.ordered.sorted
        cases hset : s.manager.timers with
        | nil => simp [hset] at hmem
        | cons b rest =>
            refine ⟨b, rfl, ?_⟩
            rw [hset] at hmem hsorted
            rcases List.mem_cons.mp hmem with rfl | hin
            · exact le_rfl
            · exact ((List.pairwise_cons.mp hsorted).1 a hin).le

/-- The end of the loop: nothing that is due is ahead. -/
theorem Sound.finish (h : s.Sound) (hphase : s.phase = .testing now i)
    (hover : ∀ a, ¬Ahead s.manager now i a) : Sound { s with phase := .idle } := by
  refine ⟨h.ordered, fun a ha => ?_, trivial, fun a ha => ?_⟩
  · rcases h.placed a ha with hmem | ⟨now, i, hcalling⟩
    · exact .inl hmem
    · rw [hphase] at hcalling
      cases hcalling
  · rcases h.due a ha with hran | hrem | hpending
    · exact .inl hran
    · exact .inr (.inl hrem)
    · unfold Pending at hpending
      rw [hphase] at hpending
      exact absurd hpending (hover a)

/-- What erasing an element by its position leaves, and where it leads. -/
theorem eraseAt_append {p q : List ℕ} (hset : m.timers = p ++ ti :: q) (hnodup : m.timers.Nodup) :
    m.eraseAt ti = (q.head?, { m with timers := p ++ q }) := by
  have hti : ti ∉ p := by
    rw [hset] at hnodup
    exact fun hin => (List.nodup_append.mp hnodup).2.2 ti hin ti List.mem_cons_self rfl
  rw [TimerManager.eraseAt, hset, (TimerManager.takeWhile_ne_append hti).2,
    List.erase_append_right _ hti, List.erase_cons_head]
  rfl

/-- The next callback: its timer leaves the set, and the iterator stands behind it. -/
theorem Sound.call (h : s.Sound) (hphase : s.phase = .testing now (some ti))
    (hti : ti ∈ s.manager.timers) :
    Sound { s with
      manager := (s.manager.eraseAt ti).2, phase := .calling now ti (s.manager.eraseAt ti).1,
      ran := s.ran ++ [ti] } := by
  obtain ⟨p, q, hset⟩ := List.append_of_mem hti
  have hsorted := h.ordered.sorted
  have hnodup := hsorted.nodup
  rw [eraseAt_append hset hnodup]
  rw [hset] at hsorted hnodup
  have hout : ti ∉ p ++ q := (List.nodup_cons.mp (List.nodup_middle.mp hnodup)).1
  have hmem : ∀ a ∈ s.manager.timers, a = ti ∨ a ∈ p ++ q := by
    intro a ha
    rw [hset] at ha
    simp only [List.mem_append, List.mem_cons] at ha ⊢
    tauto
  refine ⟨?_, fun a ha => ?_, ⟨h.ordered.live ti hti, hout, fun b hb => ?_⟩, fun a ha => ?_⟩
  · refine h.ordered.of_sub (hsorted.sublist (by simp)) (fun a ha => h.ordered.live a ?_)
      (fun a ha => ha) (fun _ _ hid => hid) rfl rfl
    rw [hset]
    exact List.mem_append.mpr ((List.mem_append.mp ha).imp_right (List.mem_cons_of_mem _))
  · rcases h.placed a ha with hin | ⟨now', i', hcalling⟩
    · rcases hmem a hin with rfl | hin
      · exact .inr ⟨now, q.head?, rfl⟩
      · exact .inl hin
    · rw [hphase] at hcalling
      cases hcalling
  · exact List.mem_append_right _ (List.mem_of_mem_head? hb)
  · rcases h.due a ha with hran | hrem | hpending
    · exact .inl (List.mem_append_left _ hran)
    · exact .inr (.inl hrem)
    · unfold Pending at hpending
      rw [hphase] at hpending
      obtain ⟨hin, hdue, b, hb, hle⟩ := hpending
      obtain rfl := Option.some.inj hb
      rcases hmem a hin with rfl | hin
      · exact .inl (List.mem_append_right _ (List.mem_singleton_self _))
      · refine .inr (.inr ⟨hin, hdue, ?_⟩)
        -- what is not smaller stands behind the timer that runs
        have hbehind : a ∈ q := by
          refine (List.mem_append.mp hin).resolve_left fun hp => absurd hle (not_le.mpr ?_)
          exact (List.pairwise_append.mp hsorted).2.2 a hp ti List.mem_cons_self
        have hq := (List.pairwise_cons.mp (List.pairwise_append.mp hsorted).2.1).2
        cases q with
        | nil => cases hbehind
        | cons c q =>
            refine ⟨c, rfl, ?_⟩
            rcases List.mem_cons.mp hbehind with rfl | hbehind
            · exact le_rfl
            · exact ((List.pairwise_cons.mp hq).1 a hbehind).le

/-- The callback has returned to a loop whose other timers are as before. -/
theorem Sound.resume (h : s.Sound) (hphase : s.phase = .calling now ti i) (hordered : m.Ordered)
    (hkey : ∀ a, a ≠ ti → m.key a = s.manager.key a)
    (hmem : ∀ a ∈ s.manager.timers, a ∈ m.timers)
    (hplaced : ∀ a, (m.heap a).isSome → a ≠ ti ∧ (s.manager.heap a).isSome ∨ a ∈ m.timers) :
    Sound { s with manager := m, phase := .testing now i } := by
  have hheld := h.held
  unfold Held at hheld
  rw [hphase] at hheld
  obtain ⟨-, hout, hi⟩ := hheld
  have hne : ∀ a ∈ s.manager.timers, a ≠ ti := fun a ha he => hout (he ▸ ha)
  refine ⟨hordered, fun a ha => ?_, fun b hb => hmem b (hi b hb), fun a ha => ?_⟩
  · rcases hplaced a ha with ⟨hati, hlive⟩ | hin
    · rcases h.placed a hlive with hin | ⟨now', i', hcalling⟩
      · exact .inl (hmem a hin)
      · obtain ⟨rfl, rfl, rfl⟩ := WalkPhase.calling.inj (hphase.symm.trans hcalling)
        exact absurd rfl hati
    · exact .inl hin
  · rcases h.due a ha with hran | hrem | hpending
    · exact .inl hran
    · exact .inr (.inl hrem)
    · unfold Pending at hpending
      rw [hphase] at hpending
      obtain ⟨hin, hdue, b, hb, hle⟩ := hpending
      have hka := hkey a (hne a hin)
      have hkb := hkey b (hne b (hi b hb))
      exact .inr (.inr ⟨hmem a hin, hka ▸ hdue, b, hb, by rwa [hka, hkb]⟩)

/-- The return of the callback of a timer that is persistent. -/
theorem Sound.rearm (h : s.Sound) (hphase : s.phase = .calling now ti i) {u : Timer κ}
    (hu : s.manager.heap ti = some u) (hp : u.persistent = true)
    (hdistinct : s.Distinct .advance) :
    Sound { s with
      manager := (s.manager.store ti (u.rearmed now)).insert ti, phase := .testing now i } := by
  have hheld := h.held
  unfold Held at hheld
  rw [hphase] at hheld
  have hapart : RearmsApart s.manager s.phase := hdistinct
  rw [hphase] at hapart
  obtain ⟨-, hout, -⟩ := hheld
  have hlive : ∀ a, ((s.manager.store ti (u.rearmed now)).heap a).isSome →
      (s.manager.heap a).isSome := by
    intro a ha
    rw [TimerManager.heap_store] at ha
    split at ha
    · next hati =>
        rw [hati, hu]
        rfl
    · exact ha
  have hin : ti ∈ ((s.manager.store ti (u.rearmed now)).insert ti).timers :=
    TimerManager.mem_insertBy_store
      (fun b hb => hapart u hu hp b hb) hout
  refine h.resume hphase ?_ (fun a ha => ?_) (fun a ha => OrderedSet.mem_insertBy_of_mem ha)
    fun a ha => ?_
  · refine h.ordered.of_sub (TimerManager.sorted_store h.ordered.sorted hout)
      (fun a ha => ?_) hlive (fun _ _ hid => hid) rfl rfl
    by_cases hati : a = ti
    · rw [hati]
      exact congrArg Option.isSome (if_pos rfl)
    · have hold : (s.manager.heap a).isSome :=
        h.ordered.live a ((OrderedSet.mem_of_insertBy ha).resolve_left hati)
      exact (congrArg Option.isSome (if_neg hati)).trans hold
  · have hkey := s.manager.key_store ti (u.rearmed now) a
    rw [if_neg ha] at hkey
    exact hkey
  · by_cases hati : a = ti
    · exact .inr (hati ▸ hin)
    · exact .inl ⟨hati, hlive a ha⟩

/-- The return of the callback of a timer that is not persistent. -/
theorem Sound.finishes (h : s.Sound) (hphase : s.phase = .calling now ti i) (id : ℤ) :
    Sound { s with
      manager := ({ s.manager with idtimer := s.manager.idtimer.erase id }).free ti
      phase := .testing now i } := by
  have hheld := h.held
  unfold Held at hheld
  rw [hphase] at hheld
  obtain ⟨-, hout, -⟩ := hheld
  have hne : ∀ a ∈ s.manager.timers, a ≠ ti := fun a ha he => hout (he ▸ ha)
  have hkey : ∀ a, a ≠ ti →
      (({ s.manager with idtimer := s.manager.idtimer.erase id }).free ti).key a =
        s.manager.key a := fun a ha => TimerManager.key_free ha
  have hlive : ∀ a,
      ((({ s.manager with idtimer := s.manager.idtimer.erase id }).free ti).heap a).isSome →
        a ≠ ti ∧ (s.manager.heap a).isSome := by
    intro a ha
    rw [TimerManager.free] at ha
    simp only at ha
    split at ha
    · cases ha
    · next hati => exact ⟨hati, ha⟩
  refine h.resume hphase ?_ hkey (fun a ha => ha) fun a ha => .inl (hlive a ha)
  refine h.ordered.of_sub (TimerManager.sorted_of_key h.ordered.sorted fun a ha => hkey a (hne a ha))
    (fun a ha => ?_) (fun a ha => (hlive a ha).2) (fun i a hid => ?_) rfl rfl
  · rw [TimerManager.free]
    simp only [hne a ha, if_false]
    exact h.ordered.live a ha
  · have herase : (s.manager.idtimer.erase id)[i]? = some a := hid
    rw [Std.ExtTreeMap.getElem?_erase] at herase
    split at herase
    · cases herase
    · exact herase

/-- What the loop does by itself keeps the invariant. -/
theorem Sound.advance (h : s.Sound) (hdistinct : s.Distinct .advance)
    (hadvance : s.advance = .ok t) : t.Sound := by
  have hheld := h.held
  unfold Held at hheld
  unfold TimerWalk.advance at hadvance
  cases hphase : s.phase with
  | idle =>
      rw [hphase] at hadvance
      exact Except.ok.inj hadvance ▸ h
  | testing now i =>
      rw [hphase] at hadvance hheld
      cases i with
      | none =>
          rw [← Except.ok.inj hadvance]
          refine h.finish hphase ?_
          rintro a ⟨-, -, b, hb, -⟩
          cases hb
      | some ti =>
          have hti : ti ∈ s.manager.timers := hheld ti rfl
          obtain ⟨u, hu⟩ := Option.isSome_iff_exists.mp (h.ordered.live ti hti)
          simp only [if_pos hti, TimerManager.deref, hu, bind, Except.bind] at hadvance
          split at hadvance
          · next hlate =>
              rw [← Except.ok.inj hadvance]
              refine h.finish hphase ?_
              rintro a ⟨-, hdue, b, hb, hle⟩
              obtain rfl := Option.some.inj hb
              rw [timercmp_iff_key, ← TimerManager.key_eq hu] at hlate
              exact absurd (hle.trans hdue) (not_le.mpr hlate)
          · rw [← Except.ok.inj hadvance]
            exact h.call hphase hti
  | calling now ti i =>
      rw [hphase] at hadvance hheld
      obtain ⟨u, hu⟩ := Option.isSome_iff_exists.mp hheld.1
      simp only [TimerManager.deref, hu, bind, Except.bind] at hadvance
      split at hadvance
      · next hp =>
          rw [← Except.ok.inj hadvance]
          exact h.rearm hphase hu hp hdistinct
      · rw [← Except.ok.inj hadvance]
        exact h.finishes hphase u.id

/-- **Each step keeps the invariant**, where callbacks spare what the loop holds. -/
theorem Sound.step (h : s.Sound) {e : WalkEvent κ} (hspares : s.Spares e)
    (hstep : (walks κ).step s e t) : t.Sound := by
  obtain ⟨hdistinct, hnext⟩ := hstep
  cases e with
  | edit call => exact h.edit hdistinct hspares hnext
  | process now => exact h.process hnext
  | advance =>
      have hnext' : (if s.phase = .idle then none else s.advance.toOption) = some t := hnext
      split at hnext'
      · cases hnext'
      · cases hadvance : s.advance with
        | error e => simp [hadvance, Except.toOption] at hnext'
        | ok t' =>
            rw [hadvance] at hnext'
            obtain rfl := Option.some.inj hnext'
            exact h.advance hdistinct hadvance

/-- **Run lemma.** The walk is sound in every run that meets the condition. -/
theorem sound_of_reachable (h : ((walks κ).guard Spares).Reachable s) : s.Sound :=
  h.invariant (fun _ hinit => hinit ▸ sound_init) fun _ _ _ hs hstep => hs.step hstep.1 hstep.2

/-! ## Calls without edits -/

/-- An advance that returns is a step. -/
theorem step_advance (hphase : s.phase ≠ .idle) (h : s.advance = .ok t) :
    (lts κ).step s .advance t := by
  have hnext : s.next .advance = s.advance.toOption := if_neg hphase
  exact hnext.trans (congrArg Except.toOption h)

/-- The step to a callback. -/
theorem advance_call (hphase : s.phase = .testing now (some ti)) {p q : List ℕ}
    (hset : s.manager.timers = p ++ ti :: q) (hnodup : (p ++ ti :: q).Nodup) {u : Timer κ}
    (hu : s.manager.heap ti = some u) (hd : u.Due now) :
    s.advance = .ok { s with
      manager := { s.manager with timers := p ++ q }, phase := .calling now ti q.head?,
      ran := s.ran ++ [ti] } := by
  have hti : ti ∈ s.manager.timers := by simp [hset]
  have herase := eraseAt_append hset (hset ▸ hnodup)
  unfold advance
  simp only [hphase, if_pos hti, TimerManager.deref, hu, bind, Except.bind, Timer.due_iff.mp hd,
    Bool.false_eq_true, if_false, herase]

/-- The step behind a callback whose timer is persistent. -/
theorem advance_rearm (hphase : s.phase = .calling now ti i) {u : Timer κ}
    (hu : s.manager.heap ti = some u) (hp : u.persistent = true) :
    s.advance = .ok { s with
      manager := (s.manager.store ti (u.rearmed now)).insert ti, phase := .testing now i } := by
  unfold advance
  simp only [hphase, TimerManager.deref, hu, bind, Except.bind]
  exact if_pos hp

/-- The step behind a callback whose timer is not persistent. -/
theorem advance_finish (hphase : s.phase = .calling now ti i) {u : Timer κ}
    (hu : s.manager.heap ti = some u) (hp : u.persistent = false) :
    s.advance = .ok { s with
      manager := ({ s.manager with idtimer := s.manager.idtimer.erase u.id }).free ti
      phase := .testing now i } := by
  unfold advance
  simp only [hphase, TimerManager.deref, hu, bind, Except.bind, hp, Bool.false_eq_true, if_false]

/-- **The loop, step by step**: where nothing happens in between, it ends with the manager that
`processLoop` returns. -/
theorem exists_run_loop {m : TimerManager κ} {passed rest : List ℕ}
    (hsorted : OrderedSet.Sorted m.key (passed ++ rest))
    (hlive : ∀ a ∈ passed ++ rest, (m.heap a).isSome) :
    ∀ s : TimerWalk κ, s.manager = { m with timers := passed ++ rest } →
      s.phase = .testing now rest.head? → ∃ n u, (lts κ).Run s (List.replicate n .advance) u ∧
        u.phase = .idle ∧ ∀ fuel, (rest.map (m.rounds now)).sum ≤ fuel →
          ∃ ran, TimerManager.processLoop now fuel passed rest m = .ok (ran, u.manager) := by
  refine TimerManager.loop_induction (P := fun passed rest m => ∀ s : TimerWalk κ,
    s.manager = { m with timers := passed ++ rest } → s.phase = .testing now rest.head? →
      ∃ n u, (lts κ).Run s (List.replicate n .advance) u ∧ u.phase = .idle ∧
        ∀ fuel, (rest.map (m.rounds now)).sum ≤ fuel →
          ∃ ran, TimerManager.processLoop now fuel passed rest m = .ok (ran, u.manager)) now
    ?_ ?_ ?_ hsorted hlive
  · intro m passed rest hsorted hlive hdue s hm hphase
    have hadvance : s.advance = .ok { s with phase := .idle } := by
      cases rest with
      | nil => simp [advance, hphase]
      | cons ti rest =>
          obtain ⟨u, hu⟩ := Option.isSome_iff_exists.mp (hlive ti (by simp))
          have hlate : timercmp now u.timeout = true := by
            rw [← Bool.not_eq_false, ← Timer.due_iff]
            exact hdue ti List.mem_cons_self u hu
          simp [advance, hphase, hm, TimerManager.deref, hu, bind, Except.bind, hlate]
    refine ⟨1, _, .cons (step_advance (by simp [hphase]) hadvance) (.nil _), rfl, fun fuel _ => ?_⟩
    exact ⟨[], hm ▸ TimerManager.processLoop_stop_of_not_due hlive hdue fuel⟩
  · intro m passed rest ti t hnodup ht hf hround ih s hm hphase
    obtain ⟨manager, phase, due, ran, removed⟩ := s
    obtain rfl : manager = _ := hm
    obtain rfl : phase = _ := hphase
    have hcall := advance_call (s := ⟨{ m with timers := passed ++ ti :: rest },
      .testing now (some ti), due, ran, removed⟩) rfl rfl hnodup ht hf.1
    obtain ⟨n, u, hrun, hidle, hloop⟩ := ih ⟨_, _, due, ran ++ [ti], removed⟩ rfl rfl
    refine ⟨n + 2, u, .cons (step_advance (by simp) hcall)
      (.cons (step_advance (by simp) ?_) hrun), hidle, fun fuel hfuel => ?_⟩
    · exact advance_finish rfl ht hf.2
    · obtain ⟨fuel, rfl⟩ : ∃ k, fuel = k + 1 := ⟨fuel - 1, by omega⟩
      obtain ⟨callbacks, hprocess⟩ := hloop fuel (by omega)
      exact ⟨_, TimerManager.processLoop_of_finishes ht hf fuel hprocess⟩
  · intro m passed rest passed' rest' ti t hnodup hlive ht hd hp hiter hset hres hround ih s hm hphase
    obtain ⟨manager, phase, due, ran, removed⟩ := s
    obtain rfl : manager = _ := hm
    obtain rfl : phase = _ := hphase
    have hcall := advance_call (s := ⟨{ m with timers := passed ++ ti :: rest },
      .testing now (some ti), due, ran, removed⟩) rfl rfl hnodup ht hd
    have hhead : rest'.head? = rest.head? := TimerManager.head?_iterator hiter
    obtain ⟨n, u, hrun, hidle, hloop⟩ := ih ⟨_, _, due, ran ++ [ti], removed⟩ rfl rfl
    refine ⟨n + 2, u, .cons (step_advance (by simp) hcall)
      (.cons (step_advance (by simp) ?_) hrun), hidle, fun fuel hfuel => ?_⟩
    · rw [hset, hhead]
      exact advance_rearm rfl ht hp
    · obtain ⟨fuel, rfl⟩ : ∃ k, fuel = k + 1 := ⟨fuel - 1, by omega⟩
      obtain ⟨callbacks, hprocess⟩ := hloop fuel (by omega)
      exact ⟨_, TimerManager.processLoop_of_persistent ht hd hp fuel hiter hprocess⟩

/-- **A call of `process`**, step by step: without edits it ends with what `process` returns. -/
theorem exists_run_process (h : s.manager.Ordered) (hphase : s.phase = .idle) (now : Timeval) :
    ∃ n u, (lts κ).Run s (.process now :: List.replicate n .advance) u ∧ u.phase = .idle ∧
      ∃ ran, s.manager.process now = .ok (ran, u.manager) := by
  have hsorted : OrderedSet.Sorted s.manager.key ([] ++ s.manager.timers) := h.sorted
  have hlive : ∀ a ∈ [] ++ s.manager.timers, (s.manager.heap a).isSome := h.live
  obtain ⟨n, u, hrun, hidle, hloop⟩ := exists_run_loop hsorted hlive
    ⟨s.manager, .testing now s.manager.timers.head?, _, [], []⟩ rfl rfl
  refine ⟨n, u, .cons ?_ hrun, hidle, hloop _ (s.manager.sum_rounds_le now _)⟩
  exact if_pos hphase

/-! ## The main result -/

/-- **The walk goes wrong** when a timer it holds is removed. -/
theorem faults_of_removed {id : ℤ} (h : s.Sound) (hphase : s.phase = .calling now ti i)
    (hheld : a = ti ∨ i = some a) (hm : t.manager = s.manager.removed id a)
    (hsame : t.phase = s.phase) :
    t.advance = .error .undefined ∨ ∃ u, t.advance = .ok u ∧ u.advance = .error .undefined := by
  have hgone : a ∉ t.manager.timers := fun hin =>
    (h.ordered.mem_of_mem_removed id (hm ▸ hin)).2 rfl
  rw [hphase] at hsame
  cases hti : t.manager.heap ti with
  | none =>
      -- the loop follows the pointer to its timer
      refine .inl ?_
      unfold advance
      simp only [hsame, TimerManager.deref, hti, bind, Except.bind]
  | some u =>
      obtain rfl : i = some a := by
        refine hheld.resolve_left fun hati => ?_
        rw [hm, TimerManager.heap_removed, if_pos hati.symm] at hti
        cases hti
      -- the loop goes on from an erased position
      have hne : a ≠ ti := fun hati => by
        rw [hm, TimerManager.heap_removed, if_pos hati.symm] at hti
        cases hti
      refine .inr ?_
      cases hp : u.persistent with
      | true =>
          refine ⟨_, advance_rearm hsame hti hp, if_neg fun hin => ?_⟩
          exact hgone ((OrderedSet.mem_of_insertBy hin).resolve_left hne)
      | false =>
          refine ⟨_, advance_finish hsame hti hp, if_neg fun hin => hgone hin⟩

/-- What is not spared is used: after a callback has removed its own timer or the one at which the
loop goes on, the loop runs into it. -/
theorem faults_of_not_spared {id : ℤ} (h : s.Sound) (hphase : s.phase = .calling now ti i)
    (hnext : s.next (.edit (.remove id)) = some t) (hnot : ¬s.Spares (.edit (.remove id))) :
    t.advance = .error .undefined ∨ ∃ u, t.advance = .ok u ∧ u.advance = .error .undefined := by
  obtain ⟨a, hid, hheld⟩ : ∃ a ∈ s.manager.idtimer[id]?, s.phase.Holds a := by
    unfold Spares at hnot
    push Not at hnot
    exact hnot
  rw [hphase] at hheld
  rw [next] at hnext
  split at hnext
  case isFalse => cases hnext
  case isTrue hcond =>
    cases hexec : s.manager.exec (.remove id) with
    | error e => simp [hexec] at hnext
    | ok res =>
        rw [hexec] at hnext
        obtain rfl := Option.some.inj hnext
        obtain ⟨-, ⟨hnone, -⟩ | ⟨b, u, hb, -, hm⟩⟩ := TimerManager.remove_inv hexec
        · rw [hnone] at hid
          cases hid
        · obtain rfl := Option.some.inj (hid.symm.trans hb)
          obtain ⟨reply, m'⟩ := res
          obtain rfl : m' = s.manager.removed id a := hm
          exact faults_of_removed h hphase hheld rfl rfl

/-- **`process` tolerates callbacks that edit the set**, as long as none removes the timer that is
running or the one at which the loop goes on: the loop follows no pointer to a deleted timer and goes
on from no erased position, and when it has ended, each timer that was due at its start has run or was
removed. -/
theorem process_tolerates_of_spared (h : ((walks κ).guard Spares).Reachable s) :
    (∃ t, s.advance = .ok t) ∧ (s.phase = .idle → ∀ a ∈ s.due, a ∈ s.ran ∨ a ∈ s.removed) := by
  have hsound := sound_of_reachable h
  refine ⟨hsound.advances, fun hphase a ha => ?_⟩
  refine (hsound.due a ha).imp_right fun hleft => hleft.resolve_right ?_
  unfold Pending
  rw [hphase]
  exact not_false

/-- A step with deadlines that differ. -/
def tryOut (s : TimerWalk κ) (e : WalkEvent κ) : Option (TimerWalk κ) :=
  if s.Distinct e then s.next e else none

/-- Such a step is one of the system. -/
theorem step_of_tryOut {e : WalkEvent κ} (h : s.tryOut e = some t) : (walks κ).step s e t :=
  Option.ite_none_right_eq_some.mp h

/-- Three timers that are due; the callback of the first one removes the last one. -/
theorem process_tolerates_removeLast :
    ∃ s : TimerWalk ℕ, ((walks ℕ).guard Spares).Reachable s ∧ s.phase = .idle ∧ s.due = [0, 1, 2] ∧
      s.ran = [0, 1] ∧ ∀ a ∈ s.due, a ∈ s.ran ∨ a ∈ s.removed := by
  let es : List (WalkEvent ℕ) := [.edit (.setTimer ⟨10, 0⟩ 1 0 false 7 0),
    .edit (.setTimer ⟨10, 0⟩ 2 0 false 8 1), .edit (.setTimer ⟨10, 0⟩ 3 0 false 9 2),
    .process ⟨20, 0⟩, .advance, .edit (.remove 2), .advance, .advance, .advance, .advance]
  let f (s : TimerWalk ℕ) (e : WalkEvent ℕ) := if s.Spares e then s.tryOut e else none
  have hf : ∀ s e t, f s e = some t → ((walks ℕ).guard Spares).step s e t := by
    intro s e t he
    obtain ⟨hspares, he⟩ := Option.ite_none_right_eq_some.mp he
    exact ⟨hspares, step_of_tryOut he⟩
  have hrun : (es.foldlM f {}).map (fun s => (s.phase, s.due, s.ran)) =
      some (.idle, [0, 1, 2], [0, 1]) := by
    decide +kernel
  obtain ⟨s, hs, hshow⟩ := Option.map_eq_some_iff.mp hrun
  obtain ⟨hphase, hrest⟩ := Prod.mk.inj hshow
  obtain ⟨hdue, hran⟩ := Prod.mk.inj hrest
  have hreach : ((walks ℕ).guard Spares).Reachable s := ⟨{}, es, rfl, .of_foldlM hf hs⟩
  exact ⟨s, hreach, hphase, hdue, hran, (process_tolerates_of_spared hreach).2 hphase⟩

/-- **A callback that removes its own timer** makes the loop follow a pointer to a deleted timer, and
one that removes the next timer makes it go on from an erased position. -/
theorem not_process_tolerates_removeSelf :
    (∃ s : TimerWalk ℕ, (walks ℕ).Reachable s ∧ s.removed = [0] ∧ ∀ t, s.advance ≠ .ok t) ∧
      ∃ s : TimerWalk ℕ, (walks ℕ).Reachable s ∧ s.removed = [1] ∧ ∀ t, s.advance ≠ .ok t := by
  let start : List (WalkEvent ℕ) := [.edit (.setTimer ⟨10, 0⟩ 1 0 false 7 0),
    .edit (.setTimer ⟨10, 0⟩ 2 0 false 8 1), .edit (.setTimer ⟨10, 0⟩ 3 0 false 9 2),
    .process ⟨20, 0⟩, .advance]
  have hbad : ∀ es removed, ((start ++ es).foldlM tryOut {}).map
      (fun s => (s.removed, s.advance.isOk)) = some (removed, false) →
        ∃ s : TimerWalk ℕ, (walks ℕ).Reachable s ∧ s.removed = removed ∧
          ∀ t, s.advance ≠ .ok t := by
    intro es removed hrun
    obtain ⟨s, hs, hshow⟩ := Option.map_eq_some_iff.mp hrun
    obtain ⟨hremoved, hfault⟩ := Prod.mk.inj hshow
    refine ⟨s, ⟨{}, _, rfl, .of_foldlM (fun _ _ _ => step_of_tryOut) hs⟩, hremoved, fun t ht => ?_⟩
    rw [ht] at hfault
    cases hfault
  exact ⟨hbad [.edit (.remove 0)] [0] (by decide +kernel),
    hbad [.edit (.remove 1), .advance] [1] (by decide +kernel)⟩

end TimerWalk

end Libio
